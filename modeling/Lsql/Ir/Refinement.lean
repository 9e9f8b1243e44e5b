import Mathlib.Data.List.Perm.Basic
import Lsql.Ir.Meaning

/-!
# Lsql.Ir.Refinement

When one relation may stand for another.

`Refines old new`: whatever `new` puts out, `old` could have put out, row for row on the columns of
`old`, up to the first failure of `old`. A relation may gain columns: a filter hides the column of a
mark join below it, and loses the hiding with the filter (`exposed`). The operators keep the relation
(`Refines.node`), so a rewrite of a source is a rewrite of the whole.
-/

namespace Lsql.Ir

open Flow (Approx collect expand Interleave Shuffle)

/-- A scalar reads fields of a schema only. -/
def Scalar.ReadsIn (schema : Schema) (s : Scalar) : Prop := ∀ id ∈ s.fields, id ∈ schema.fields

theorem Scalar.ReadsIn.mono {a b : Schema} {e : Scalar} (h : e.ReadsIn a)
    (hsub : a.fields ⊆ b.fields) : e.ReadsIn b := fun id hid => hsub (h id hid)

/-- The scalars that an aggregate is fed from. -/
def Aggregate.args (a : Aggregate) : List Scalar :=
  match a.node with
  | .fnCall _ args => args
  | .const _ _ => []

/-- A projector that hands a field on under its own name. -/
def Projector.isForwarding (p : Projector) : Bool :=
  match p.expr with
  | .field id _ => id == p.aliasFieldId
  | _ => false

theorem forall₂_one {α β : Type} {R : α → β → Prop} {a : α} {bs : List β}
    (h : List.Forall₂ R [a] bs) : ∃ b, bs = [b] ∧ R a b := by
  obtain ⟨b, bs', hab, hrest, rfl⟩ := List.forall₂_cons_left_iff.mp h
  cases List.forall₂_nil_left_iff.mp hrest
  exact ⟨b, rfl, hab⟩

theorem forall₂_two {α β : Type} {R : α → β → Prop} {a a' : α} {bs : List β}
    (h : List.Forall₂ R [a, a'] bs) : ∃ b b', bs = [b, b'] ∧ R a b ∧ R a' b' := by
  obtain ⟨b, bs', hab, hrest, rfl⟩ := List.forall₂_cons_left_iff.mp h
  obtain ⟨b', rfl, hab'⟩ := forall₂_one hrest
  exact ⟨b, b', rfl, hab, hab'⟩

namespace Relation

mutual

/-- The columns of a relation, and those that may come to light when operators that hand their rows
on are taken away. -/
def exposed : Relation → List FieldId
  | filter r _ s => s.fields ++ r.exposed
  | projection r ps s => s.fields ++ if ps.all Projector.isForwarding then r.exposed else []
  | unionAll rs s => s.fields ++ exposedAll rs
  | unionAllSortedBy l r _ _ s => s.fields ++ (l.exposed ++ r.exposed)
  | r => r.schema.fields

def exposedAll : List Relation → List FieldId
  | [] => []
  | r :: rs => r.exposed ++ exposedAll rs

end

theorem exposed_filter {r : Relation} {c : Scalar} {s : Schema} :
    (filter r c s).exposed = s.fields ++ r.exposed := by rw [exposed]

theorem exposed_projection {r : Relation} {ps : List Projector} {s : Schema} :
    (projection r ps s).exposed =
      s.fields ++ if ps.all Projector.isForwarding then r.exposed else [] := by rw [exposed]

theorem exposed_leftJoin {l r : Relation} {lk rk : Scalar} {s : Schema} :
    (leftJoin l r lk rk s).exposed = s.fields := by simp [exposed, schema]

theorem mem_exposedAll {rs : List Relation} {id : FieldId} :
    id ∈ exposedAll rs ↔ ∃ r ∈ rs, id ∈ r.exposed := by
  induction rs with
  | nil => simp [exposedAll]
  | cons r rs ih => simp [exposedAll, ih]

theorem mem_exposed_of_schema {r : Relation} {id : FieldId} (h : id ∈ r.schema.fields) :
    id ∈ r.exposed := by
  cases r <;> first | exact h | exact List.mem_append_left _ h

theorem append_subset_append {as as' bs bs' : List FieldId} (h : as ⊆ as') (h' : bs ⊆ bs') :
    as ++ bs ⊆ as' ++ bs' :=
  List.append_subset.mpr
    ⟨List.subset_append_of_subset_left _ h, List.subset_append_of_subset_right _ h'⟩

theorem exposedAll_mono {rs rs' : List Relation}
    (h : List.Forall₂ (fun r r' => r'.exposed ⊆ r.exposed) rs rs') :
    exposedAll rs' ⊆ exposedAll rs := by
  induction h with
  | nil => exact fun _ h => h
  | cons hr _ ih => exact append_subset_append hr ih

/-- Sources that expose no more. -/
theorem exposed_withSources {r : Relation} {qs : List Relation}
    (h : List.Forall₂ (fun q q' => q'.exposed ⊆ q.exposed) r.sources qs) :
    (r.withSources qs).exposed ⊆ r.exposed := by
  cases r with
  | filter r c s =>
      obtain ⟨q, rfl, hq⟩ := forall₂_one h
      exact append_subset_append (List.Subset.refl _) hq
  | projection r ps s =>
      obtain ⟨q, rfl, hq⟩ := forall₂_one h
      refine append_subset_append (List.Subset.refl _) ?_
      split
      · exact hq
      · exact List.Subset.refl _
  | unionAll rs s => exact append_subset_append (List.Subset.refl _) (exposedAll_mono h)
  | unionAllSortedBy l r ks desc s =>
      obtain ⟨q, p, rfl, hq, hp⟩ := forall₂_two h
      exact append_subset_append (List.Subset.refl _) (append_subset_append hq hp)
  | semiJoin r m e f s =>
      obtain ⟨q, p, rfl, -, -⟩ := forall₂_two h
      exact List.Subset.refl _
  | markJoin r m e o f s =>
      obtain ⟨q, p, rfl, -, -⟩ := forall₂_two h
      exact List.Subset.refl _
  | leftJoin l r lk rk s =>
      obtain ⟨q, p, rfl, -, -⟩ := forall₂_two h
      exact List.Subset.refl _
  | empty s | values vs id s | file path range format s | stream command s
  | namedRelationReference name s =>
      cases h
      exact List.Subset.refl _
  | _ =>
      obtain ⟨q, rfl, -⟩ := forall₂_one h
      exact List.Subset.refl _

/-- What one node asks of its sources, with the schemas of the named relations: its scalars read the
fields of its sources, its columns come from them. -/
def WellFormedNode (named : String → Option Schema) : Relation → Prop
  | empty _ => True
  | values _ id s => s.fields = [id]
  | projection r ps s =>
    s.fields = ps.map Projector.aliasFieldId ∧ ∀ p ∈ ps, p.expr.ReadsIn r.schema
  | aggregate r as s =>
    s.fields = as.map Aggregate.outputFieldId ∧ ∀ a ∈ as, ∀ e ∈ a.args, e.ReadsIn r.schema
  | group r as ks s =>
    s.fields = as.map Aggregate.outputFieldId ++ ks.map Projector.aliasFieldId ∧
      (∀ a ∈ as, ∀ e ∈ a.args, e.ReadsIn r.schema) ∧ ∀ k ∈ ks, k.expr.ReadsIn r.schema
  | limit r n s => s.fields ⊆ r.schema.fields ∧ 0 ≤ n
  | filter r c s => s.fields ⊆ r.schema.fields ∧ c.ReadsIn r.schema
  | sort r ks _ s => s.fields ⊆ r.schema.fields ∧ ∀ k ∈ ks, k.ReadsIn r.schema
  | topK r ks _ n s => s.fields ⊆ r.schema.fields ∧ 0 ≤ n ∧ ∀ k ∈ ks, k.ReadsIn r.schema
  | semiJoin r m e f s => s.fields ⊆ r.schema.fields ∧ e.ReadsIn r.schema ∧ f ∈ m.schema.fields
  | markJoin r m e o f s =>
    s.fields ⊆ o :: r.schema.fields ∧ e.ReadsIn r.schema ∧ f ∈ m.schema.fields
  | leftJoin l r lk rk s =>
    s.fields ⊆ l.schema.fields ++ r.schema.fields ∧ lk.ReadsIn l.schema ∧ rk.ReadsIn r.schema ∧
      ∀ id ∈ r.exposed, id ∉ l.exposed
  | unionAll rs s => rs ≠ [] ∧ ∀ r ∈ rs, s.fields ⊆ r.schema.fields
  | unionAllSortedBy l r ks _ s =>
    s.fields ⊆ l.schema.fields ∧ s.fields ⊆ r.schema.fields ∧ (∀ k ∈ ks, k.ReadsIn l.schema) ∧
      ∀ k ∈ ks, k.ReadsIn r.schema
  | file _ _ _ _ => True
  | stream _ _ => True
  | namedRelationReference name s => ∃ t, named name = some t ∧ s.fields ⊆ t.fields
  | materialize r s => s.fields ⊆ r.schema.fields

/-- A well-formed relation. -/
abbrev WellFormed (named : String → Option Schema) (r : Relation) : Prop :=
  r.Everywhere (WellFormedNode named)

/-- Sources that have more columns and expose no more. -/
theorem WellFormedNode.withSources {named : String → Option Schema} {r : Relation}
    {qs : List Relation} (hnode : r.WellFormedNode named)
    (hqs : List.Forall₂ (fun q q' => q.schema.fields ⊆ q'.schema.fields ∧ q'.exposed ⊆ q.exposed)
      r.sources qs) : (r.withSources qs).WellFormedNode named := by
  cases r with
  | empty s | values vs id s | file path range format s | stream command s
  | namedRelationReference name s =>
      cases hqs
      exact hnode
  | projection r ps s =>
      obtain ⟨q, rfl, hq⟩ := forall₂_one hqs
      exact ⟨hnode.1, fun p hp => (hnode.2 p hp).mono hq.1⟩
  | aggregate r as s =>
      obtain ⟨q, rfl, hq⟩ := forall₂_one hqs
      exact ⟨hnode.1, fun a ha e he => (hnode.2 a ha e he).mono hq.1⟩
  | group r as ks s =>
      obtain ⟨q, rfl, hq⟩ := forall₂_one hqs
      exact ⟨hnode.1, fun a ha e he => (hnode.2.1 a ha e he).mono hq.1,
        fun k hk => (hnode.2.2 k hk).mono hq.1⟩
  | limit r n s =>
      obtain ⟨q, rfl, hq⟩ := forall₂_one hqs
      exact ⟨List.Subset.trans hnode.1 hq.1, hnode.2⟩
  | filter r c s =>
      obtain ⟨q, rfl, hq⟩ := forall₂_one hqs
      exact ⟨List.Subset.trans hnode.1 hq.1, hnode.2.mono hq.1⟩
  | sort r ks desc s =>
      obtain ⟨q, rfl, hq⟩ := forall₂_one hqs
      exact ⟨List.Subset.trans hnode.1 hq.1, fun k hk => (hnode.2 k hk).mono hq.1⟩
  | topK r ks desc n s =>
      obtain ⟨q, rfl, hq⟩ := forall₂_one hqs
      exact ⟨List.Subset.trans hnode.1 hq.1, hnode.2.1, fun k hk => (hnode.2.2 k hk).mono hq.1⟩
  | materialize r s =>
      obtain ⟨q, rfl, hq⟩ := forall₂_one hqs
      exact List.Subset.trans hnode hq.1
  | semiJoin r m e f s =>
      obtain ⟨q, p, rfl, hq, hp⟩ := forall₂_two hqs
      exact ⟨List.Subset.trans hnode.1 hq.1, hnode.2.1.mono hq.1, hp.1 hnode.2.2⟩
  | markJoin r m e o f s =>
      obtain ⟨q, p, rfl, hq, hp⟩ := forall₂_two hqs
      exact ⟨List.Subset.trans hnode.1 (List.cons_subset_cons o hq.1), hnode.2.1.mono hq.1,
        hp.1 hnode.2.2⟩
  | leftJoin l r lk rk s =>
      obtain ⟨q, p, rfl, hq, hp⟩ := forall₂_two hqs
      obtain ⟨hsub, hlk, hrk, hdisjoint⟩ := hnode
      exact ⟨List.Subset.trans hsub (append_subset_append hq.1 hp.1), hlk.mono hq.1, hrk.mono hp.1,
        fun id hid hin => hdisjoint id (hp.2 hid) (hq.2 hin)⟩
  | unionAll rs s =>
      refine ⟨fun hnil => hnode.1 ?_, fun q' hq' => ?_⟩
      · have hqs : List.Forall₂ _ rs qs := hqs
        have hnil : qs = [] := hnil
        rw [hnil] at hqs
        exact List.forall₂_nil_right_iff.mp hqs
      · obtain ⟨q, hq, hsub⟩ := forall₂_mem_right hqs hq'
        exact List.Subset.trans (hnode.2 q hq) hsub.1
  | unionAllSortedBy l r ks desc s =>
      obtain ⟨q, p, rfl, hq, hp⟩ := forall₂_two hqs
      obtain ⟨hleft, hright, hkl, hkr⟩ := hnode
      exact ⟨List.Subset.trans hleft hq.1, List.Subset.trans hright hp.1,
        fun k hk => (hkl k hk).mono hq.1, fun k hk => (hkr k hk).mono hp.1⟩

end Relation

/-! ### Rows that agree on columns -/

/-- Rows with the same values in the columns of a schema. -/
def AgreeOn (schema : Schema) (row row' : Row) : Prop := ∀ id ∈ schema.fields, row id = row' id

/-- The columns of two schemas. -/
def common (a b : Schema) : Schema := ⟨a.fields.filter b.contains, a.nodup.filter _⟩

theorem mem_common {a b : Schema} {id : FieldId} :
    id ∈ (common a b).fields ↔ id ∈ a.fields ∧ id ∈ b.fields := by
  simp [common, Schema.contains]

namespace AgreeOn

variable {schema schema' : Schema} {row row' : Row}

theorem refl (schema : Schema) (row : Row) : AgreeOn schema row row := fun _ _ => rfl

theorem mono (hsub : schema'.fields ⊆ schema.fields) (h : AgreeOn schema row row') :
    AgreeOn schema' row row' := fun id hid => h id (hsub hid)

theorem trans {row'' : Row} (h : AgreeOn schema row row')
    (h' : AgreeOn schema row' row'') : AgreeOn schema row row'' :=
  fun id hid => (h id hid).trans (h' id hid)

variable [Platform]

/-- A scalar over these columns has the same value. -/
theorem eval (h : AgreeOn schema row row') {s : Scalar} (hs : s.ReadsIn schema) :
    s.eval row.record = s.eval row'.record :=
  Scalar.eval_congr fun id hid => congrArg Except.ok (h id (hs id hid))

theorem evalAll (h : AgreeOn schema row row') {ss : List Scalar}
    (hss : ∀ s ∈ ss, s.ReadsIn schema) :
    Scalar.evalAll row.record ss = Scalar.evalAll row'.record ss :=
  Scalar.evalAll_congr (List.forall₂_same.mpr fun s hs => h.eval (hss s hs))

end AgreeOn

/-! ### Operators on sequences that agree -/

section Operators

variable {schema schema' : Schema} {row row' : Row} {s s' t t' : List Item}

/-- An item that is the same on both sides. -/
theorem approx_item (x : Item) : Approx (AgreeOn schema) [x] [x] :=
  .refl (AgreeOn.refl schema) [x]

theorem join_agree {right right' : Schema} {r r' : Row}
    (hsub : schema'.fields ⊆ schema.fields ++ right.fields)
    (hright : right.fields ⊆ right'.fields)
    (hdisjoint : ∀ id ∈ right'.fields, id ∈ schema.fields → id ∈ right.fields)
    (h : AgreeOn schema row row') (hr : AgreeOn right r r') :
    AgreeOn schema' (row.join right r) (row'.join right' r') := by
  intro id hid
  unfold Row.join Schema.contains
  by_cases hin : id ∈ right.fields
  · rw [if_pos (by simpa using hin), if_pos (by simpa using hright hin)]
    exact hr id hin
  · have hleft : id ∈ schema.fields := (List.mem_append.mp (hsub hid)).resolve_right hin
    have hout : id ∉ right'.fields := fun hin' => hin (hdisjoint id hin' hleft)
    rw [if_neg (by simpa using hin), if_neg (by simpa using hout)]
    exact h id hleft

theorem filter_key {κ : Type} {Q : Row → Row → Prop} {rows rows' : List (Row × κ)}
    (h : List.Forall₂ (fun p q => Q p.1 q.1 ∧ p.2 = q.2) rows rows') (f : κ → Bool) :
    List.Forall₂ (fun p q => Q p.1 q.1 ∧ p.2 = q.2) (rows.filter fun p => f p.2)
      (rows'.filter fun p => f p.2) := by
  induction h with
  | nil => exact .nil
  | @cons p q rows rows' hpq _ ih =>
      rw [List.filter_cons, List.filter_cons, hpq.2]
      split
      · exact .cons hpq ih
      · exact ih

theorem attach_ok {κ : Type} {key : Row → Except Fault κ} {x : Item} {p : Row × κ} :
    attach key x = .ok p ↔ x = .ok p.1 ∧ key p.1 = .ok p.2 := by
  unfold attach
  constructor
  · intro h
    obtain ⟨row, hx, h⟩ := bind_eq_ok.mp h
    obtain ⟨k, hk, h⟩ := bind_eq_ok.mp h
    cases h
    exact ⟨hx, hk⟩
  · rintro ⟨hx, hk⟩
    exact bind_eq_ok.mpr ⟨p.1, hx, bind_eq_ok.mpr ⟨p.2, hk, rfl⟩⟩

/-- Rows whose keys can all be computed. -/
theorem map_attach {κ : Type} {key : Row → Except Fault κ} {v : List Item}
    {pairs : List (Row × κ)} : v.map (attach key) = pairs.map .ok ↔
      v = (pairs.map Prod.fst).map .ok ∧ ∀ p ∈ pairs, key p.1 = .ok p.2 := by
  induction pairs generalizing v with
  | nil => simp
  | cons p pairs ih =>
      cases v with
      | nil => simp
      | cons x v =>
          simp only [List.map_cons, List.cons.injEq, attach_ok, ih, List.forall_mem_cons]
          tauto

theorem attach_approx {κ : Type} {key : Row → Except Fault κ}
    (hkey : ∀ row row', AgreeOn schema row row' → key row = key row')
    (h : Approx (AgreeOn schema) s s') :
    Approx (fun p q => AgreeOn schema p.1 q.1 ∧ p.2 = q.2) (s.map (attach key))
      (s'.map (attach key)) := by
  induction h with
  | nil => exact .nil
  | @ok row row' s s' hrow _ ih =>
      have hk := hkey row row' hrow
      cases hrow' : key row' with
      | error e =>
          rw [hrow'] at hk
          simp only [List.map_cons, attach, ok_bind, hk, error_bind]
          exact .fault
      | ok k =>
          rw [hrow'] at hk
          simp only [List.map_cons, attach, ok_bind, hk, hrow', pure_eq_ok]
          exact .ok ⟨hrow, rfl⟩ ih
  | fault => exact .fault

/-- Pairs with the same keys are ordered alike. -/
theorem ordered_congr {desc : Bool} {Q : Row → Row → Prop} {ps ps' : List (Row × List Value)}
    (h : List.Forall₂ (fun p q => Q p.1 q.1 ∧ p.2 = q.2) ps ps') :
    Ordered desc ps ↔ Ordered desc ps' := by
  have hkeys : ps.map Prod.snd = ps'.map Prod.snd := by
    induction h with
    | nil => rfl
    | cons hpq _ ih => rw [List.map_cons, List.map_cons, hpq.2, ih]
  have hpair : ∀ qs : List (Row × List Value),
      Ordered desc qs ↔ (qs.map Prod.snd).Pairwise (MayPrecede desc) := by
    intro qs
    rw [Ordered, List.pairwise_map]
  rw [hpair, hpair, hkeys]

theorem allComparable_congr {Q : Row → Row → Prop} {ps ps' : List (Row × List Value)}
    (h : List.Forall₂ (fun p q => Q p.1 q.1 ∧ p.2 = q.2) ps ps') :
    AllComparable ps ↔ AllComparable ps' := by
  constructor
  · intro hc q hq
    obtain ⟨p, hp, hpq⟩ := forall₂_mem_right h hq
    exact hpq.2 ▸ hc p hp
  · intro hc p hp
    obtain ⟨q, hq, hpq⟩ := forall₂_mem_left h hp
    exact hpq.2 ▸ hc q hq

/-- The rows of pairs. -/
theorem approx_rows {ps ps' : List (Row × List Value)}
    (h : List.Forall₂ (fun p q => AgreeOn schema p.1 q.1 ∧ p.2 = q.2) ps ps') :
    Approx (AgreeOn schema) (ps.map fun p => (Except.ok p.1 : Item))
      (ps'.map fun p => Except.ok p.1) := by
  induction h with
  | nil => exact .nil
  | cons hpq _ ih => exact .ok hpq.1 ih

theorem approx_fst {κ : Type} {w w' : List (Except Fault (Row × κ))}
    (h : Approx (fun p q => AgreeOn schema p.1 q.1 ∧ p.2 = q.2) w w') :
    Approx (AgreeOn schema) (w.map (Except.map Prod.fst)) (w'.map (Except.map Prod.fst)) := by
  induction h with
  | nil => exact .nil
  | ok hpq _ ih => exact .ok hpq.1 ih
  | fault => exact .fault

theorem IsSorted.approx {desc : Bool} {w w' : List (Except Fault (Row × List Value))}
    (h : Approx (fun p q => AgreeOn schema p.1 q.1 ∧ p.2 = q.2) w w') (hw : IsSorted desc w) :
    IsSorted desc w' := by
  obtain ⟨ps, hc, hcomp, hord⟩ := hw
  obtain ⟨ps', hc', hall⟩ := h.collect_ok hc
  exact ⟨ps', hc', (allComparable_congr hall).mp hcomp, (ordered_congr hall).mp hord⟩

theorem isSorted_of_approx {desc : Bool} {w w' : List (Except Fault (Row × List Value))}
    (h : Approx (fun p q => AgreeOn schema p.1 q.1 ∧ p.2 = q.2) w w')
    (hw : ∃ ps, collect w = .ok ps) (hw' : IsSorted desc w') : IsSorted desc w := by
  obtain ⟨ps, hc⟩ := hw
  obtain ⟨ps', hc', hcomp, hord⟩ := hw'
  obtain ⟨qs, hq, hall⟩ := h.collect_ok hc
  cases hc'.symm.trans hq
  exact ⟨ps, hc, (allComparable_congr hall).mpr hcomp, (ordered_congr hall).mpr hord⟩

/-- An interleaving of sequences without failures has none. -/
theorem interleave_collect {desc : Bool} {l r w : List (Except Fault (Row × List Value))}
    (h : Interleave l r w) (hl : IsSorted desc l) (hr : IsSorted desc r) :
    ∃ ps, collect w = .ok ps := by
  obtain ⟨ps, hps, -⟩ := hl
  obtain ⟨qs, hqs, -⟩ := hr
  rw [Flow.collect_eq_ok hps, Flow.collect_eq_ok hqs] at h
  have hall : ∀ x ∈ w, ∃ p, x = .ok p := by
    intro x hx
    rcases List.mem_append.mp (h.perm.subset hx) with hx | hx
    all_goals
      obtain ⟨p, -, rfl⟩ := List.mem_map.mp hx
      exact ⟨p, rfl⟩
  exact Flow.exists_collect hall

variable [Platform]

theorem filterRow_approx {c : Scalar} (hc : c.ReadsIn schema)
    (hsub : schema'.fields ⊆ schema.fields) (h : AgreeOn schema row row') :
    Approx (AgreeOn schema') (filterRow c row) (filterRow c row') := by
  have htest : c.test row = c.test row' := by
    rw [Scalar.test, Scalar.test, h.eval hc]
  unfold filterRow
  rw [htest]
  cases c.test row' with
  | error e => exact .fault
  | ok b =>
      cases b with
      | true => exact .ok (h.mono hsub) .nil
      | false => exact .nil

theorem projectRow_congr {ps : List Projector} (hps : ∀ p ∈ ps, p.expr.ReadsIn schema)
    (h : AgreeOn schema row row') : projectRow ps row = projectRow ps row' := by
  unfold projectRow
  rw [h.evalAll fun e he => by
    obtain ⟨p, hp, rfl⟩ := List.mem_map.mp he
    exact hps p hp]

theorem semiJoinRow_approx {e : Scalar} {values : List Value} (he : e.ReadsIn schema)
    (hsub : schema'.fields ⊆ schema.fields) (h : AgreeOn schema row row') :
    Approx (AgreeOn schema') (semiJoinRow e values row) (semiJoinRow e values row') := by
  unfold semiJoinRow
  rw [h.eval he]
  cases e.eval row'.record with
  | error f => exact .fault
  | ok v =>
      dsimp only
      split
      · exact .ok (h.mono hsub) .nil
      · exact .nil

theorem markJoinRow_approx {e : Scalar} {o : FieldId} {values : List Value}
    (he : e.ReadsIn schema) (hsub : schema'.fields ⊆ o :: schema.fields)
    (h : AgreeOn schema row row') :
    Approx (AgreeOn schema') [markJoinRow e o values row] [markJoinRow e o values row'] := by
  unfold markJoinRow
  rw [h.eval he]
  cases e.eval row'.record with
  | error f => exact .fault
  | ok v =>
      refine .ok (fun id hid => ?_) .nil
      by_cases hio : id = o
      · rw [hio, Function.update_self, Function.update_self]
      · rw [Function.update_of_ne hio, Function.update_of_ne hio]
        exact h id ((List.mem_cons.mp (hsub hid)).resolve_left hio)

theorem leftJoinRow_approx {lk : Scalar} {right right' : Schema} {rows rows' : List (Row × Value)}
    (hlk : lk.ReadsIn schema) (hsub : schema'.fields ⊆ schema.fields ++ right.fields)
    (hright : right.fields ⊆ right'.fields)
    (hdisjoint : ∀ id ∈ right'.fields, id ∈ schema.fields → id ∈ right.fields)
    (hrows : List.Forall₂ (fun p q => AgreeOn right p.1 q.1 ∧ p.2 = q.2) rows rows')
    (h : AgreeOn schema row row') :
    Approx (AgreeOn schema') (leftJoinRow lk right rows row)
      (leftJoinRow lk right' rows' row') := by
  unfold leftJoinRow
  rw [h.eval hlk]
  cases lk.eval row'.record with
  | error e => exact .fault
  | ok v =>
      have hmatching : List.Forall₂ (fun p q => AgreeOn right p.1 q.1 ∧ p.2 = q.2)
          (if v.isNull then [] else rows.filter fun p => v.equal p.2)
          (if v.isNull then [] else rows'.filter fun p => v.equal p.2) := by
        split
        · exact .nil
        · exact filter_key hrows v.equal
      dsimp only
      generalize (if v.isNull then [] else rows.filter fun p => v.equal p.2) = m at hmatching ⊢
      generalize (if v.isNull then [] else rows'.filter fun p => v.equal p.2) = m' at hmatching ⊢
      cases hmatching with
      | nil => exact .ok (join_agree hsub hright hdisjoint h (.refl _ _)) .nil
      | cons hpq hrest =>
          have hall : ∀ {m m' : List (Row × Value)},
              List.Forall₂ (fun p q => AgreeOn right p.1 q.1 ∧ p.2 = q.2) m m' →
              Approx (AgreeOn schema') (m.map fun p => Except.ok (row.join right p.1))
                (m'.map fun p => (Except.ok (row'.join right' p.1) : Item)) := by
            intro m m' hmm
            induction hmm with
            | nil => exact .nil
            | cons hpq _ ih => exact .ok (join_agree hsub hright hdisjoint h hpq.1) ih
          exact hall (.cons hpq hrest)

theorem keyOf_congr {ks : List Scalar} (hks : ∀ k ∈ ks, k.ReadsIn schema) (row row' : Row)
    (h : AgreeOn schema row row') : keyOf ks row = keyOf ks row' := h.evalAll hks

theorem Sorts.approx {ks : List Scalar} {desc : Bool} (hks : ∀ k ∈ ks, k.ReadsIn schema)
    (h : Approx (AgreeOn schema) s s') {u' : List Item} (hs : Sorts ks desc s' u') :
    ∃ u, Sorts ks desc s u ∧ Approx (AgreeOn schema) u u' := by
  have hkeyed := attach_approx (keyOf_congr hks) h
  cases hc : collect (s.map (attach (keyOf ks))) with
  | error e => exact ⟨_, .fault hc, .fault⟩
  | ok pairs =>
      obtain ⟨pairs', hc', hpairs⟩ := hkeyed.collect_ok hc
      cases hs with
      | fault hfault =>
          rw [hc'] at hfault
          cases hfault
      | @sorted _ w' hok hperm hordered =>
          rw [hc'] at hok
          cases hok
          obtain ⟨w, hww, hw⟩ := List.perm_comp_forall₂ hperm hpairs.flip
          have hww := hww.flip
          refine ⟨_, .sorted hc hw fun hcomp => ?_, approx_rows hww⟩
          exact (ordered_congr hww).mpr (hordered ((allComparable_congr hpairs).mp hcomp))

/-- Merging: an input that fails or is not sorted leaves the order open. -/
theorem Merges.approx {ks : List Scalar} {desc : Bool} (hks : ∀ k ∈ ks, k.ReadsIn schema)
    (hs : Approx (AgreeOn schema) s s') (ht : Approx (AgreeOn schema) t t') {u' : List Item}
    (hm : Merges ks desc s' t' u') :
    ∃ u, Merges ks desc s t u ∧ Approx (AgreeOn schema) u u' := by
  obtain ⟨w', hint, hsorted, rfl⟩ := hm
  have hs := attach_approx (keyOf_congr hks) hs
  have ht := attach_approx (keyOf_congr hks) ht
  obtain ⟨w, hw, happ⟩ := hint.approx hs ht
  refine ⟨_, ⟨w, hw, fun hss hst => ?_, rfl⟩, approx_fst happ⟩
  exact isSorted_of_approx happ (interleave_collect hw hss hst)
    (hsorted (hss.approx hs) (hst.approx ht))

omit [Platform] in
theorem whenCollected_approx {α β : Type} {R : α → β → Prop} {x : List (Except Fault α)}
    {y : List (Except Fault β)} {f : List α → List Item} {g : List β → List Item}
    (hfg : ∀ as bs, List.Forall₂ R as bs → Approx (AgreeOn schema) (f as) (g bs))
    (h : Approx R x y) : Approx (AgreeOn schema) (whenCollected x f) (whenCollected y g) := by
  unfold whenCollected
  cases hx : collect x with
  | error e => exact .fault
  | ok as =>
      obtain ⟨bs, hy, hall⟩ := h.collect_ok hx
      rw [hy]
      exact hfg as bs hall

/-! ### Aggregates -/

theorem feedRows_congr {args : List Scalar} (hargs : ∀ e ∈ args, e.ReadsIn schema)
    {rows rows' : List Row} (h : List.Forall₂ (AgreeOn schema) rows rows') (state : FnAggregator) :
    feedRows args state rows = feedRows args state rows' := by
  induction h generalizing state with
  | nil => rfl
  | @cons row row' _ _ hrow _ ih =>
      have harg : aggregateArg args row = aggregateArg args row' := by
        cases args with
        | nil => rfl
        | cons a _ => exact hrow.eval (hargs a List.mem_cons_self)
      rw [feedRows, feedRows, harg]
      simp only [ih]

theorem Aggregate.over_congr {a : Aggregate} (ha : ∀ e ∈ a.args, e.ReadsIn schema)
    {rows rows' : List Row} (h : List.Forall₂ (AgreeOn schema) rows rows') :
    a.over rows = a.over rows' := by
  unfold Aggregate.over
  unfold Aggregate.args at ha
  cases hnode : a.node with
  | fnCall f args =>
      rw [hnode] at ha
      simp only [feedRows_congr ha h]
  | const v nullIfEmpty =>
      cases h <;> rfl

theorem aggregatesOver_congr {as : List Aggregate}
    (has : ∀ a ∈ as, ∀ e ∈ a.args, e.ReadsIn schema) {rows rows' : List Row}
    (h : List.Forall₂ (AgreeOn schema) rows rows') :
    aggregatesOver as rows = aggregatesOver as rows' := by
  unfold aggregatesOver
  induction as with
  | nil => rfl
  | cons a as ih =>
      rw [List.mapM_cons, List.mapM_cons, ih fun b hb => has b (List.mem_cons_of_mem _ hb),
        Aggregate.over_congr (has a List.mem_cons_self) h]

/-- Groups with the same keys, of rows that agree. -/
def SameGroups (schema : Schema) : List (List Value × List Row) → List (List Value × List Row) →
    Prop :=
  List.Forall₂ fun g g' => g.1 = g'.1 ∧ List.Forall₂ (AgreeOn schema) g.2 g'.2

omit [Platform] in
theorem insertRow_congr {key : List Value} (hrow : AgreeOn schema row row')
    {gs gs' : List (List Value × List Row)} (h : SameGroups schema gs gs') :
    SameGroups schema (insertRow key row gs) (insertRow key row' gs') := by
  induction h with
  | nil => exact .cons ⟨rfl, .cons hrow .nil⟩ .nil
  | @cons g g' gs gs' hg hrest ih =>
      rw [insertRow, insertRow, hg.1]
      split
      · exact .cons ⟨rfl, List.rel_append hg.2 (.cons hrow .nil)⟩ hrest
      · exact .cons hg ih

omit [Platform] in
theorem groupRows_congr {ps ps' : List (Row × List Value)}
    (h : List.Forall₂ (fun p q => AgreeOn schema p.1 q.1 ∧ p.2 = q.2) ps ps')
    {gs gs' : List (List Value × List Row)} (hgs : SameGroups schema gs gs') :
    SameGroups schema (groupRows gs ps) (groupRows gs' ps') := by
  induction h generalizing gs gs' with
  | nil => exact hgs
  | @cons p q ps ps' hpq _ ih =>
      rw [groupRows, groupRows, hpq.2]
      exact ih (insertRow_congr hpq.1 hgs)

theorem Groups.approx {as : List Aggregate} {ks : List Projector}
    (has : ∀ a ∈ as, ∀ e ∈ a.args, e.ReadsIn schema) (hks : ∀ k ∈ ks, k.expr.ReadsIn schema)
    (h : Approx (AgreeOn schema) s s') {u' : List Item} (hg : Groups as ks s' u') :
    ∃ u, Groups as ks s u ∧ Approx (AgreeOn schema') u u' := by
  have hexprs : ∀ e ∈ ks.map Projector.expr, e.ReadsIn schema := by
    intro e he
    obtain ⟨k, hk, rfl⟩ := List.mem_map.mp he
    exact hks k hk
  have hkeyed := attach_approx (keyOf_congr hexprs) h
  cases hc : collect (s.map (attach (keyOf (ks.map Projector.expr)))) with
  | error e => exact ⟨_, .fault hc, .fault⟩
  | ok pairs =>
      obtain ⟨pairs', hc', hpairs⟩ := hkeyed.collect_ok hc
      cases hg with
      | fault hfault =>
          rw [hc'] at hfault
          cases hfault
      | @groups _ gs' hok hperm =>
          rw [hc'] at hok
          cases hok
          have hsame : SameGroups schema (groupRows [] pairs) (groupRows [] pairs') :=
            groupRows_congr hpairs .nil
          obtain ⟨gs, hgs, hgsperm⟩ := List.perm_comp_forall₂ hperm hsame.flip
          refine ⟨_, .groups hc hgsperm, ?_⟩
          have hrows : gs.map (groupRow as ks) = gs'.map (groupRow as ks) := by
            refine List.forall₂_eq_eq_eq ▸ (List.forall₂_map_left_iff.mpr
              (List.forall₂_map_right_iff.mpr (hgs.flip.imp fun g g' hg => ?_)))
            rw [groupRow, groupRow, aggregatesOver_congr has hg.2, hg.1]
          rw [hrows]
          exact .refl (AgreeOn.refl schema') _

end Operators

/-! ### Refinement -/

section Refinement

variable [Platform]

/-- Environments that may stand for each other: the same inputs, and named relations of given schemas
that may. -/
structure Env.Refines (named : String → Option Schema) (env env' : Env) : Prop where
  data : env'.toData = env.toData
  named : ∀ name t, named name = some t → ∀ u', env'.named name u' →
    ∃ u, env.named name u ∧ Approx (AgreeOn t) u u'

omit [Platform] in
theorem Env.Refines.refl (named : String → Option Schema) (env : Env) : env.Refines named env :=
  ⟨rfl, fun _ t _ u hu => ⟨u, hu, .refl (AgreeOn.refl t) u⟩⟩

/-- One relation may stand for another. -/
structure Refines (env env' : Env) (old new : Relation) : Prop where
  schema : old.schema.fields ⊆ new.schema.fields
  exposed : new.exposed ⊆ old.exposed
  emits : ∀ u', Emits env' new u' → ∃ u, Emits env old u ∧ Approx (AgreeOn old.schema) u u'

/-- Sequences of sources that are answered by others. -/
inductive Answers : List Relation → List (List Item) → List (List Item) → Prop
  | nil : Answers [] [] []
  | cons {q : Relation} {s s' : List Item} {qs : List Relation} {ss ss' : List (List Item)} :
      Approx (AgreeOn q.schema) s s' → Answers qs ss ss' → Answers (q :: qs) (s :: ss) (s' :: ss')

variable {env env' : Env} {named : String → Option Schema} {r : Relation} {qs qs' : List Relation}
  {ss ss' : List (List Item)}

theorem Emits.inv {u : List Item} (h : Emits env r u) :
    ∃ ss, List.Forall₂ (Emits env) r.sources ss ∧ Step env r ss u := by
  cases h with
  | node hss hstep => exact ⟨_, hss, hstep⟩

/-- What an operator without sources puts out. -/
theorem emits_none {u : List Item} (hr : r.sources = []) : Emits env r u ↔ Step env r [] u := by
  constructor
  · intro h
    obtain ⟨ss, hss, hstep⟩ := h.inv
    rw [hr] at hss
    cases hss
    exact hstep
  · intro hstep
    refine .node ?_ hstep
    rw [hr]
    exact .nil

/-- What an operator on one relation puts out. -/
theorem emits_one {q : Relation} {u : List Item} (hr : r.sources = [q]) :
    Emits env r u ↔ ∃ s, Emits env q s ∧ Step env r [s] u := by
  constructor
  · intro h
    obtain ⟨ss, hss, hstep⟩ := h.inv
    rw [hr] at hss
    obtain ⟨s, rfl, hs⟩ := forall₂_one hss
    exact ⟨s, hs, hstep⟩
  · rintro ⟨s, hs, hstep⟩
    refine .node ?_ hstep
    rw [hr]
    exact .cons hs .nil

/-- What an operator on two relations puts out. -/
theorem emits_two {q p : Relation} {u : List Item} (hr : r.sources = [q, p]) :
    Emits env r u ↔ ∃ s t, Emits env q s ∧ Emits env p t ∧ Step env r [s, t] u := by
  constructor
  · intro h
    obtain ⟨ss, hss, hstep⟩ := h.inv
    rw [hr] at hss
    obtain ⟨s, t, rfl, hs, ht⟩ := forall₂_two hss
    exact ⟨s, t, hs, ht, hstep⟩
  · rintro ⟨s, t, hs, ht, hstep⟩
    refine .node ?_ hstep
    rw [hr]
    exact .cons hs (.cons ht .nil)

section EmitsOf

variable {l r : Relation} {ks : List Scalar} {desc : Bool} {s : Schema} {u : List Item}

theorem emits_empty : Emits env (.empty s) u ↔ u = [] := emits_none rfl

theorem emits_projection {ps : List Projector} : Emits env (.projection r ps s) u ↔
    ∃ v, Emits env r v ∧ u = Flow.expand (fun row => [projectRow ps row]) v := emits_one rfl

theorem emits_limit {lim : Int} :
    Emits env (.limit r lim s) u ↔ ∃ v, Emits env r v ∧ u = v.take lim.toNat := emits_one rfl

theorem emits_filter {c : Scalar} :
    Emits env (.filter r c s) u ↔ ∃ v, Emits env r v ∧ u = Flow.expand (filterRow c) v :=
  emits_one rfl

theorem emits_sort : Emits env (.sort r ks desc s) u ↔ ∃ v, Emits env r v ∧ Sorts ks desc v u :=
  emits_one rfl

theorem emits_topK {lim : Int} : Emits env (.topK r ks desc lim s) u ↔
    ∃ v, Emits env r v ∧ ∃ w, Sorts ks desc v w ∧ u = w.take lim.toNat := emits_one rfl

theorem emits_materialize : Emits env (.materialize r s) u ↔ Emits env r u := by
  rw [emits_one rfl]
  constructor
  · rintro ⟨v, hv, rfl⟩
    exact hv
  · exact fun h => ⟨u, h, rfl⟩

theorem emits_unionAll {rs : List Relation} :
    Emits env (.unionAll rs s) u ↔ ∃ ss, List.Forall₂ (Emits env) rs ss ∧ Shuffle ss u := by
  constructor
  · exact fun h => h.inv
  · rintro ⟨ss, hss, hu⟩
    exact .node hss hu

theorem emits_unionAllSortedBy : Emits env (.unionAllSortedBy l r ks desc s) u ↔
    ∃ v w, Emits env l v ∧ Emits env r w ∧ Merges ks desc v w u := emits_two rfl

end EmitsOf

theorem answers_of_refines (h : List.Forall₂ (Refines env env') qs qs')
    (hss' : List.Forall₂ (Emits env') qs' ss') :
    ∃ ss, List.Forall₂ (Emits env) qs ss ∧ Answers qs ss ss' := by
  induction h generalizing ss' with
  | nil =>
      cases hss'
      exact ⟨[], .nil, .nil⟩
  | cons hq _ ih =>
      cases hss' with
      | cons hs' hrest =>
          obtain ⟨s, hs, happ⟩ := hq.emits _ hs'
          obtain ⟨ss, hss, hans⟩ := ih hrest
          exact ⟨s :: ss, .cons hs hss, .cons happ hans⟩

omit [Platform] in
theorem Answers.forall₂ {schema : Schema} (h : Answers qs ss ss')
    (hqs : ∀ q ∈ qs, schema.fields ⊆ q.schema.fields) :
    List.Forall₂ (Approx (AgreeOn schema)) ss ss' := by
  induction h with
  | nil => exact .nil
  | cons happ _ ih =>
      refine .cons (happ.mono fun row row' hrow => ?_) (ih fun q hq => hqs q ?_)
      · exact hrow.mono (hqs _ List.mem_cons_self)
      · exact List.mem_cons_of_mem _ hq

omit [Platform] in
theorem Answers.one {q : Relation} (h : Answers [q] ss ss') :
    ∃ s s', ss = [s] ∧ ss' = [s'] ∧ Approx (AgreeOn q.schema) s s' := by
  cases h with
  | cons happ hrest =>
      cases hrest
      exact ⟨_, _, rfl, rfl, happ⟩

omit [Platform] in
theorem Answers.two {q p : Relation} (h : Answers [q, p] ss ss') :
    ∃ s t s' t', ss = [s, t] ∧ ss' = [s', t'] ∧ Approx (AgreeOn q.schema) s s' ∧
      Approx (AgreeOn p.schema) t t' := by
  cases h with
  | cons happ hrest =>
      obtain ⟨t, t', rfl, rfl, happ'⟩ := hrest.one
      exact ⟨_, _, _, _, rfl, rfl, happ, happ'⟩

/-- **Operators on sequences that answer each other.** The operator on the answers puts out what the
operator could have put out before, row for row. -/
theorem step_approx (henv : env.Refines named env') (hnode : r.WellFormedNode named)
    (hqs : List.Forall₂ (Refines env env') r.sources qs') (hans : Answers r.sources ss ss')
    {u' : List Item} (h : Step env' (r.withSources qs') ss' u') :
    ∃ u, Step env r ss u ∧ Approx (AgreeOn r.schema) u u' := by
  cases r with
  | empty s =>
      cases hqs
      cases hans
      cases h
      exact ⟨_, rfl, .nil⟩
  | values vs id s =>
      cases hqs
      cases hans
      cases h
      exact ⟨_, rfl, .refl (AgreeOn.refl s) _⟩
  | projection r ps s =>
      obtain ⟨q', rfl, -⟩ := forall₂_one hqs
      obtain ⟨x, x', rfl, rfl, happ⟩ := hans.one
      cases h
      refine ⟨_, rfl, happ.expand fun row row' hrow => ?_⟩
      rw [projectRow_congr hnode.2 hrow]
      exact approx_item _
  | aggregate r as s =>
      obtain ⟨q', rfl, -⟩ := forall₂_one hqs
      obtain ⟨x, x', rfl, rfl, happ⟩ := hans.one
      cases h
      refine ⟨_, rfl, whenCollected_approx (fun rows rows' hrows => ?_) happ⟩
      rw [aggregatesOver_congr hnode.2 hrows]
      exact approx_item _
  | group r as ks s =>
      obtain ⟨q', rfl, -⟩ := forall₂_one hqs
      obtain ⟨x, x', rfl, rfl, happ⟩ := hans.one
      exact Groups.approx hnode.2.1 hnode.2.2 happ h
  | limit r n s =>
      obtain ⟨q', rfl, -⟩ := forall₂_one hqs
      obtain ⟨x, x', rfl, rfl, happ⟩ := hans.one
      cases h
      exact ⟨_, rfl, (happ.mono fun row row' hrow => hrow.mono hnode.1).take _⟩
  | filter r c s =>
      obtain ⟨q', rfl, -⟩ := forall₂_one hqs
      obtain ⟨x, x', rfl, rfl, happ⟩ := hans.one
      cases h
      exact ⟨_, rfl, happ.expand fun row row' hrow => filterRow_approx hnode.2 hnode.1 hrow⟩
  | sort r ks desc s =>
      obtain ⟨q', rfl, -⟩ := forall₂_one hqs
      obtain ⟨x, x', rfl, rfl, happ⟩ := hans.one
      obtain ⟨u, hu, happ⟩ := Sorts.approx hnode.2 happ h
      exact ⟨u, hu, happ.mono fun row row' hrow => hrow.mono hnode.1⟩
  | topK r ks desc n s =>
      obtain ⟨q', rfl, -⟩ := forall₂_one hqs
      obtain ⟨x, x', rfl, rfl, happ⟩ := hans.one
      obtain ⟨w', hw', rfl⟩ := h
      obtain ⟨u, hu, happ⟩ := Sorts.approx hnode.2.2 happ hw'
      exact ⟨_, ⟨u, hu, rfl⟩, (happ.mono fun row row' hrow => hrow.mono hnode.1).take _⟩
  | semiJoin r m e f s =>
      obtain ⟨q', p', rfl, -, -⟩ := forall₂_two hqs
      obtain ⟨x, y, x', y', rfl, rfl, happ, happ'⟩ := hans.two
      cases h
      refine ⟨_, rfl, whenCollected_approx (fun rows rows' hrows => ?_) happ'⟩
      have hvalues : (rows.map fun row => row f) = rows'.map fun row => row f := by
        induction hrows with
        | nil => rfl
        | cons hrow _ ih => rw [List.map_cons, List.map_cons, hrow f hnode.2.2, ih]
      have hempty : rows.isEmpty = rows'.isEmpty := by
        cases hrows <;> rfl
      rw [hvalues, hempty]
      split
      · exact .nil
      · exact happ.expand fun row row' hrow => semiJoinRow_approx hnode.2.1 hnode.1 hrow
  | markJoin r m e o f s =>
      obtain ⟨q', p', rfl, -, -⟩ := forall₂_two hqs
      obtain ⟨x, y, x', y', rfl, rfl, happ, happ'⟩ := hans.two
      cases h
      refine ⟨_, rfl, whenCollected_approx (fun rows rows' hrows => ?_) happ'⟩
      have hvalues : (rows.map fun row => row f) = rows'.map fun row => row f := by
        induction hrows with
        | nil => rfl
        | cons hrow _ ih => rw [List.map_cons, List.map_cons, hrow f hnode.2.2, ih]
      rw [hvalues]
      exact happ.expand fun row row' hrow => markJoinRow_approx hnode.2.1 hnode.1 hrow
  | leftJoin l r lk rk s =>
      obtain ⟨q', p', rfl, hleft, hright⟩ := forall₂_two hqs
      obtain ⟨x, y, x', y', rfl, rfl, happ, happ'⟩ := hans.two
      cases h
      obtain ⟨hsub, hlk, hrk, hdisjoint⟩ := hnode
      refine ⟨_, rfl, whenCollected_approx (fun rows rows' hrows => ?_)
        (attach_approx (fun row row' hrow => hrow.eval hrk) happ')⟩
      refine happ.expand fun row row' hrow =>
        leftJoinRow_approx hlk hsub hright.schema (fun id hid hin => ?_) hrows hrow
      -- a column of the right side that was hidden before is none of the left side
      exact absurd (Relation.mem_exposed_of_schema hin)
        (hdisjoint id (hright.exposed (Relation.mem_exposed_of_schema hid)))
  | unionAll rs s => exact Shuffle.approx h (hans.forall₂ hnode.2)
  | unionAllSortedBy l r ks desc s =>
      obtain ⟨q', p', rfl, -, -⟩ := forall₂_two hqs
      obtain ⟨x, y, x', y', rfl, rfl, happ, happ'⟩ := hans.two
      obtain ⟨hleft, hright, hkl, hkr⟩ := hnode
      have hks : ∀ k ∈ ks, k.ReadsIn (common l.schema r.schema) := fun k hk id hid =>
        mem_common.mpr ⟨hkl k hk id hid, hkr k hk id hid⟩
      obtain ⟨u, hu, happ⟩ := Merges.approx hks
        (happ.mono fun row row' hrow => hrow.mono fun id hid => (mem_common.mp hid).1)
        (happ'.mono fun row row' hrow => hrow.mono fun id hid => (mem_common.mp hid).2) h
      exact ⟨u, hu, happ.mono fun row row' hrow =>
        hrow.mono fun id hid => mem_common.mpr ⟨hleft hid, hright hid⟩⟩
  | file path range format s =>
      cases hqs
      cases hans
      cases h
      exact ⟨_, rfl, henv.data ▸ .refl (AgreeOn.refl s) _⟩
  | stream command s =>
      cases hqs
      cases hans
      cases h
      exact ⟨_, rfl, henv.data ▸ .refl (AgreeOn.refl s) _⟩
  | namedRelationReference name s =>
      cases hqs
      cases hans
      obtain ⟨t, ht, hsub⟩ := hnode
      obtain ⟨u, hu, happ⟩ := henv.named name t ht u' h
      exact ⟨u, hu, happ.mono fun row row' hrow => hrow.mono hsub⟩
  | materialize r s =>
      obtain ⟨q', rfl, -⟩ := forall₂_one hqs
      obtain ⟨x, x', rfl, rfl, happ⟩ := hans.one
      cases h
      exact ⟨_, rfl, happ.mono fun row row' hrow => hrow.mono hnode⟩

/-- **Sources may be replaced.** -/
theorem Refines.node (henv : env.Refines named env') (hnode : r.WellFormedNode named)
    (hqs : List.Forall₂ (Refines env env') r.sources qs') :
    Refines env env' r (r.withSources qs') where
  schema := by
    rw [Relation.schema_withSources]
    exact fun _ h => h
  exposed := Relation.exposed_withSources (hqs.imp fun q q' hq => hq.exposed)
  emits := by
    intro u' hu'
    obtain ⟨ss', hss', hstep⟩ := hu'.inv
    rw [Relation.sources_withSources hqs.length_eq.symm] at hss'
    obtain ⟨ss, hss, hans⟩ := answers_of_refines hqs hss'
    obtain ⟨u, hu, happ⟩ := step_approx henv hnode hqs hans hstep
    exact ⟨u, .node hss hu, happ⟩

theorem Refines.refl (henv : env.Refines named env') (h : r.WellFormed named) :
    Refines env env' r r := by
  induction r using Relation.induction with
  | h r ih =>
      have hnode := Refines.node henv h.here
        (List.forall₂_same.mpr fun q hq => ih q hq (h.source hq))
      rwa [Relation.withSources_self] at hnode

omit [Platform] in
theorem approx_trans {schema : Schema} {s t u : List Item} (h : Approx (AgreeOn schema) s t)
    (h' : Approx (AgreeOn schema) t u) : Approx (AgreeOn schema) s u :=
  h.trans (fun _ _ _ hst htu => hst.trans htu) h'

omit [Platform] in
theorem Env.Refines.trans {env'' : Env} (h : env.Refines named env')
    (h' : env'.Refines named env'') : env.Refines named env'' where
  data := h'.data.trans h.data
  named name t ht u'' hu'' := by
    obtain ⟨u', hu', happ'⟩ := h'.named name t ht u'' hu''
    obtain ⟨u, hu, happ⟩ := h.named name t ht u' hu'
    exact ⟨u, hu, approx_trans happ happ'⟩

theorem Refines.trans {env'' : Env} {r' r'' : Relation} (h : Refines env env' r r')
    (h' : Refines env' env'' r' r'') : Refines env env'' r r'' where
  schema := List.Subset.trans h.schema h'.schema
  exposed := List.Subset.trans h'.exposed h.exposed
  emits u'' hu'' := by
    obtain ⟨u', hu', happ'⟩ := h'.emits u'' hu''
    obtain ⟨u, hu, happ⟩ := h.emits u' hu'
    refine ⟨u, hu, approx_trans happ (happ'.mono fun _ _ hrow => ?_)⟩
    exact hrow.mono h.schema

end Refinement

/-! ### Every relation puts something out -/

section Total

theorem mayPrecede_total (desc : Bool) (a b : List Value) :
    MayPrecede desc a b ∨ MayPrecede desc b a := by
  unfold MayPrecede
  rw [keyOrder_swap a b]
  cases keyOrder a b <;> cases desc <;> simp

theorem mayPrecede_trans {desc : Bool} {a b c : List Value} (hab : MayPrecede desc a b)
    (hbc : MayPrecede desc b c) : MayPrecede desc a c := by
  cases desc with
  | false =>
      have h : ∀ {x y : List Value}, MayPrecede false x y ↔ (keyOrder x y).isLE := by
        intro x y
        cases h : keyOrder x y <;> simp [MayPrecede, h]
      exact h.mpr (Std.TransCmp.isLE_trans (h.mp hab) (h.mp hbc))
  | true =>
      have h : ∀ {x y : List Value}, MayPrecede true x y ↔ (keyOrder y x).isLE := by
        intro x y
        rw [keyOrder_swap x y]
        cases h : keyOrder x y <;> simp [MayPrecede, h]
      exact h.mpr (Std.TransCmp.isLE_trans (h.mp hbc) (h.mp hab))

/-- Keys are an order of rows. -/
theorem orderedOn_mayPrecede (desc : Bool) :
    Flow.OrderedOn (fun _ : Row × List Value => True) fun p q => MayPrecede desc p.2 q.2 :=
  ⟨fun _ _ => mayPrecede_total desc _ _, fun _ _ _ => mayPrecede_trans⟩

/-- Rows can be put in the order of their keys. -/
theorem exists_ordered (desc : Bool) (pairs : List (Row × List Value)) :
    ∃ w, w.Perm pairs ∧ Ordered desc w := by
  refine ⟨_, List.mergeSort_perm pairs fun p q => decide (MayPrecede desc p.2 q.2), ?_⟩
  refine (List.pairwise_mergeSort ?_ ?_ pairs).imp fun h => of_decide_eq_true h
  · intro p q r hpq hqr
    exact decide_eq_true (mayPrecede_trans (of_decide_eq_true hpq) (of_decide_eq_true hqr))
  · intro p q
    simpa using mayPrecede_total desc p.2 q.2

variable [Platform]

theorem exists_sorts (ks : List Scalar) (desc : Bool) (s : List Item) : ∃ u, Sorts ks desc s u := by
  cases hc : collect (s.map (attach (keyOf ks))) with
  | error e => exact ⟨_, .fault hc⟩
  | ok pairs =>
      obtain ⟨w, hw, hordered⟩ := exists_ordered desc pairs
      exact ⟨_, .sorted hc hw fun _ => hordered⟩

theorem exists_merges (ks : List Scalar) (desc : Bool) (s t : List Item) :
    ∃ u, Merges ks desc s t u := by
  by_cases hsorted : IsSorted desc (s.map (attach (keyOf ks))) ∧
      IsSorted desc (t.map (attach (keyOf ks)))
  · obtain ⟨⟨ps, hps, hcp, hop⟩, ⟨qs, hqs, hcq, hoq⟩⟩ := hsorted
    obtain ⟨m, hint, hm⟩ := Flow.exists_sortedMerge (orderedOn_mayPrecede desc) (fun _ _ => trivial) (fun _ _ => trivial)
      hop hoq
    refine ⟨_, m.map .ok, ?_, fun _ _ => ⟨m, Flow.collect_map_ok m, ?_, hm⟩, rfl⟩
    · rw [Flow.collect_eq_ok hps, Flow.collect_eq_ok hqs]
      exact hint.map Except.ok
    · intro p hp
      rcases List.mem_append.mp (hint.perm.subset hp) with hp | hp
      · exact hcp p hp
      · exact hcq p hp
  · obtain ⟨w, hw⟩ := Interleave.exists_any (s.map (attach (keyOf ks))) (t.map (attach (keyOf ks)))
    exact ⟨_, w, hw, fun hs ht => absurd ⟨hs, ht⟩ hsorted, rfl⟩

theorem exists_groups (as : List Aggregate) (ks : List Projector) (s : List Item) :
    ∃ u, Groups as ks s u := by
  cases hc : collect (s.map (attach (keyOf (ks.map Projector.expr)))) with
  | error e => exact ⟨_, .fault hc⟩
  | ok pairs => exact ⟨_, .groups hc (List.Perm.refl _)⟩

/-- Every named relation puts something out. -/
def Env.Total (named : String → Option Schema) (env : Env) : Prop :=
  ∀ name t, named name = some t → ∃ u, env.named name u

/-- Every operator puts something out for its sources, a named relation where it has been defined. -/
theorem exists_step_of_named {env : Env} {r : Relation}
    (hnamed : ∀ name s, r = .namedRelationReference name s → ∃ u, env.named name u)
    {ss : List (List Item)} (hss : ss.length = r.sources.length) : ∃ u, Step env r ss u := by
  cases r with
  | unionAll rs s => exact Shuffle.exists_any ss
  | semiJoin | markJoin | leftJoin =>
      obtain ⟨s, t, rfl⟩ := List.length_eq_two.mp hss
      exact ⟨_, rfl⟩
  | unionAllSortedBy l r ks desc s =>
      obtain ⟨s, t, rfl⟩ := List.length_eq_two.mp hss
      exact exists_merges ks desc s t
  | empty | values | file | stream =>
      cases List.length_eq_zero_iff.mp hss
      exact ⟨_, rfl⟩
  | namedRelationReference name s =>
      cases List.length_eq_zero_iff.mp hss
      exact hnamed name s rfl
  | group r as ks s =>
      obtain ⟨s, rfl⟩ := List.length_eq_one_iff.mp hss
      exact exists_groups as ks s
  | sort r ks desc s =>
      obtain ⟨s, rfl⟩ := List.length_eq_one_iff.mp hss
      exact exists_sorts ks desc s
  | topK r ks desc n s =>
      obtain ⟨s, rfl⟩ := List.length_eq_one_iff.mp hss
      obtain ⟨u, hu⟩ := exists_sorts ks desc s
      exact ⟨_, u, hu, rfl⟩
  | _ =>
      obtain ⟨s, rfl⟩ := List.length_eq_one_iff.mp hss
      exact ⟨_, rfl⟩

theorem exists_step {env : Env} {named : String → Option Schema} (henv : env.Total named)
    {r : Relation} (hnode : r.WellFormedNode named) {ss : List (List Item)}
    (hss : ss.length = r.sources.length) : ∃ u, Step env r ss u := by
  refine exists_step_of_named (fun name s hr => ?_) hss
  subst hr
  obtain ⟨t, ht, -⟩ := hnode
  exact henv name t ht

/-- **A well-formed relation puts something out.** -/
theorem exists_emits {env : Env} {named : String → Option Schema} (henv : env.Total named)
    {r : Relation} (h : r.WellFormed named) : ∃ u, Emits env r u := by
  induction r using Relation.induction with
  | h r ih =>
      obtain ⟨ss, hss⟩ := exists_forall₂ fun q hq => ih q hq (h.source hq)
      obtain ⟨u, hu⟩ := exists_step henv h.here hss.length_eq.symm
      exact ⟨u, .node hss hu⟩

end Total

/-! ### Programs -/

/-- Schemas of named relations that have gained columns. -/
def Extends (named named' : String → Option Schema) : Prop :=
  ∀ name t, named name = some t → ∃ t', named' name = some t' ∧ t.fields ⊆ t'.fields

theorem Extends.refl (named : String → Option Schema) : Extends named named :=
  fun _ t h => ⟨t, h, List.Subset.refl _⟩

theorem Extends.update {named named' : String → Option Schema} (h : Extends named named')
    {name : String} {t t' : Schema} (ht : t.fields ⊆ t'.fields) :
    Extends (Function.update named name (some t)) (Function.update named' name (some t')) := by
  intro n u hu
  by_cases hn : n = name
  · subst hn
    rw [Function.update_self] at hu ⊢
    cases hu
    exact ⟨t', rfl, ht⟩
  · rw [Function.update_of_ne hn] at hu ⊢
    exact h n u hu

theorem Relation.WellFormed.extend {named named' : String → Option Schema}
    (hext : Extends named named') {r : Relation} (h : r.WellFormed named) :
    r.WellFormed named' := by
  induction r using Relation.induction with
  | h r ih =>
      refine .node ?_ fun q hq => ih q hq (h.source hq)
      have hnode := h.here
      cases r with
      | namedRelationReference name s =>
          obtain ⟨t, ht, hsub⟩ := hnode
          obtain ⟨t', ht', hsub'⟩ := hext name t ht
          exact ⟨t', ht', List.Subset.trans hsub hsub'⟩
      | _ => exact hnode

/-- Well-formed statements, with the schemas of the relations that have been named before. -/
def WellFormedStatements (named : String → Option Schema) : List Statement → Prop
  | [] => True
  | .namedRelation name r :: ss =>
    r.WellFormed named ∧ WellFormedStatements (Function.update named name (some r.schema)) ss
  | .query r :: ss => r.WellFormed named ∧ WellFormedStatements named ss

/-- A well-formed program. -/
def Program.WellFormed (program : Program) : Prop :=
  WellFormedStatements (fun _ => none) program.statements

section Define

variable [Platform] {env env' : Env} {named : String → Option Schema} {name : String}
  {r r' : Relation}

@[simp] theorem named_define :
    (env.define name r).named = Function.update env.named name (Emits env r) := rfl

theorem total_define (henv : env.Total named) (h : r.WellFormed named) {t : Schema} :
    (env.define name r).Total (Function.update named name (some t)) := by
  intro n u hu
  by_cases hn : n = name
  · subst hn
    obtain ⟨v, hv⟩ := exists_emits henv h
    refine ⟨v, ?_⟩
    rwa [named_define, Function.update_self]
  · rw [Function.update_of_ne hn] at hu
    rw [named_define, Function.update_of_ne hn]
    exact henv n u hu

theorem refines_define (henv : env.Refines named env') (h : Refines env env' r r') :
    (env.define name r).Refines (Function.update named name (some r.schema))
      (env'.define name r') where
  data := henv.data
  named n t ht u' hu' := by
    rw [named_define] at hu' ⊢
    by_cases hn : n = name
    · subst hn
      rw [Function.update_self] at ht hu' ⊢
      cases ht
      exact h.emits u' hu'
    · rw [Function.update_of_ne hn] at ht hu' ⊢
      exact henv.named n t ht u' hu'

omit [Platform] in
/-- Names for single sequences. -/
theorem refines_single (henv : env.Refines named env') {schema : Schema} {u u' : List Item}
    (h : Approx (AgreeOn schema) u u') :
    Env.Refines (Function.update named name (some schema))
      { env with named := Function.update env.named name fun v => v = u }
      { env' with named := Function.update env'.named name fun v => v = u' } where
  data := henv.data
  named n t ht v hv := by
    change Function.update env'.named name (fun v => v = u') n v at hv
    show ∃ w, Function.update env.named name (fun v => v = u) n w ∧ _
    by_cases hn : n = name
    · subst hn
      rw [Function.update_self] at ht hv ⊢
      cases ht
      subst hv
      exact ⟨u, rfl, h⟩
    · rw [Function.update_of_ne hn] at ht hv ⊢
      exact henv.named n t ht v hv

end Define

end Lsql.Ir
