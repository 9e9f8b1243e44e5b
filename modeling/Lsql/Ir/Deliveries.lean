import Lsql.Core.ValueHash
import Lsql.Flow.Grouping
import Lsql.Ir.Refinement

/-!
# Lsql.Ir.Deliveries

The rows that a relation puts out when nothing fails.

`Delivers` is `Emits` where no row of the relation or of a relation below it is a failure. What every
operator does is said here in terms of rows alone: a filter keeps rows (`Keeps`), a sort puts them in
the order of their keys (`SortedBy`), a left join pairs them (`leftPairs`).
-/

namespace Lsql

/-! ### On sequences of anything -/

section Sequences

variable {α β : Type}

/-- The elements for which a condition is true. It is neither null nor a failure for any of them. -/
inductive Keeps (condition : α → Except Fault Value) : List α → List α → Prop
  | nil : Keeps condition [] []
  | keep {a : α} {as bs : List α} :
      condition a = .ok (.boolean true) → Keeps condition as bs → Keeps condition (a :: as) (a :: bs)
  | drop {a : α} {as bs : List α} :
      condition a = .ok (.boolean false) → Keeps condition as bs → Keeps condition (a :: as) bs

/-- Elements with their keys. -/
def Keyed {κ : Type} (key : α → Except Fault κ) (as : List α) (keyed : List (α × κ)) : Prop :=
  keyed.map Prod.fst = as ∧ ∀ p ∈ keyed, key p.1 = .ok p.2

/-- Sorted by keys that can be compared. -/
def SortedKeys (desc : Bool) (keyed : List (α × List Value)) : Prop :=
  (∀ p ∈ keyed, Comparable p.2) ∧ keyed.Pairwise fun p q => Ir.MayPrecede desc p.2 q.2

/-- The elements in the order of their keys. A key that cannot be compared leaves the order open. -/
def SortedBy (key : α → Except Fault (List Value)) (desc : Bool) (as bs : List α) : Prop :=
  ∃ keyed w : List (α × List Value), Keyed key as keyed ∧ w.Perm keyed ∧
    ((∀ p ∈ keyed, Comparable p.2) → w.Pairwise fun p q => Ir.MayPrecede desc p.2 q.2) ∧
    bs = w.map Prod.fst

/-- The elements of two sequences, each in its order; in the order of their keys if both are sorted. -/
def MergedBy (key : α → Except Fault (List Value)) (desc : Bool) (as bs cs : List α) : Prop :=
  ∃ ks ls w : List (α × List Value), Keyed key as ks ∧ Keyed key bs ls ∧ Flow.Interleave ks ls w ∧
    (SortedKeys desc ks → SortedKeys desc ls → SortedKeys desc w) ∧ cs = w.map Prod.fst

/-- A left element with every right one of its key, or alone if there is none. No key is null. -/
def leftPairs (rights : List (β × Value)) (left : α × Value) : List (α × Option β) :=
  let matching := if left.2.isNull then [] else rights.filter fun p => left.2.equal p.2
  if matching.isEmpty then [(left.1, none)] else matching.map fun p => (left.1, some p.1)

/-- Elements that correspond are kept alike. -/
theorem Keeps.transfer {R : α → β → Prop} {c : α → Except Fault Value} {c' : β → Except Fault Value}
    {as as' : List α} (h : Keeps c as as') {bs : List β} (hR : List.Forall₂ R as bs)
    (hc : ∀ a b v, R a b → c a = .ok v → c' b = .ok v) :
    ∃ bs', Keeps c' bs bs' ∧ List.Forall₂ R as' bs' := by
  induction h generalizing bs with
  | nil =>
      cases hR
      exact ⟨[], .nil, .nil⟩
  | keep ha _ ih =>
      cases hR with
      | cons hab hrest =>
          obtain ⟨bs', hkeeps, hbs'⟩ := ih hrest
          exact ⟨_ :: bs', .keep (hc _ _ _ hab ha) hkeeps, .cons hab hbs'⟩
  | drop ha _ ih =>
      cases hR with
      | cons hab hrest =>
          obtain ⟨bs', hkeeps, hbs'⟩ := ih hrest
          exact ⟨bs', .drop (hc _ _ _ hab ha) hkeeps, hbs'⟩

/-- Elements that correspond and have the same keys. -/
theorem Keyed.transfer {κ : Type} {R : α → β → Prop} {key : α → Except Fault κ} {as : List α}
    {bs : List β} {keyed : List (α × κ)} (h : Keyed key as keyed) (key' : β → Except Fault κ)
    (hR : List.Forall₂ R as bs)
    (hkey : ∀ a b k, R a b → key a = .ok k → key' b = .ok k) :
    ∃ keyed', Keyed key' bs keyed' ∧
      List.Forall₂ (fun p q => R p.1 q.1 ∧ p.2 = q.2) keyed keyed' := by
  obtain ⟨rfl, hkeys⟩ := h
  induction keyed generalizing bs with
  | nil =>
      cases hR
      exact ⟨[], ⟨rfl, fun _ h => absurd h List.not_mem_nil⟩, .nil⟩
  | cons p keyed ih =>
      cases hR with
      | @cons _ b _ bs hab hrest =>
          rw [List.forall_mem_cons] at hkeys
          obtain ⟨keyed', ⟨rfl, hkeys'⟩, hforall⟩ := ih hkeys.2 hrest
          refine ⟨(b, p.2) :: keyed', ⟨rfl, ?_⟩, .cons ⟨hab, rfl⟩ hforall⟩
          exact List.forall_mem_cons.mpr ⟨hkey _ _ _ hab hkeys.1, hkeys'⟩

/-- Elements that correspond can be put in corresponding orders. -/
theorem forall₂_perm {R : α → β → Prop} {as as' : List α} {bs : List β} (h : List.Forall₂ R as bs)
    (hperm : as'.Perm as) : ∃ bs', bs'.Perm bs ∧ List.Forall₂ R as' bs' := by
  obtain ⟨bs', hbs', hperm'⟩ := List.perm_comp_forall₂ hperm h
  exact ⟨bs', hperm', hbs'⟩

theorem SortedBy.transfer {R : α → β → Prop} {key : α → Except Fault (List Value)}
    {key' : β → Except Fault (List Value)} {desc : Bool} {as as' : List α} {bs : List β}
    (h : SortedBy key desc as as') (hR : List.Forall₂ R as bs)
    (hkey : ∀ a b k, R a b → key a = .ok k → key' b = .ok k) :
    ∃ bs', SortedBy key' desc bs bs' ∧ List.Forall₂ R as' bs' := by
  obtain ⟨keyed, w, hkeyed, hperm, hsorted, rfl⟩ := h
  obtain ⟨keyed', hkeyed', hforall⟩ := hkeyed.transfer key' hR hkey
  obtain ⟨w', hperm', hw⟩ := forall₂_perm hforall hperm
  refine ⟨w'.map Prod.fst, ⟨keyed', w', hkeyed', hperm', fun hcomparable => ?_, rfl⟩, ?_⟩
  · have hkeys : w.map Prod.snd = w'.map Prod.snd := by
      rw [← List.forall₂_eq_eq_eq, List.forall₂_map_left_iff, List.forall₂_map_right_iff]
      exact hw.imp fun _ _ h => h.2
    have hpairwise := hsorted fun p hp => by
      obtain ⟨q, hq, -, hpq⟩ := forall₂_mem_left hforall hp
      rw [hpq]
      exact hcomparable q hq
    have hmapped : (w.map Prod.snd).Pairwise (Ir.MayPrecede desc) := List.pairwise_map.mpr hpairwise
    rw [hkeys] at hmapped
    exact List.pairwise_map.mp hmapped
  · rw [List.forall₂_map_left_iff, List.forall₂_map_right_iff]
    exact hw.imp fun _ _ h => h.1

/-- Keys that are the same on the elements merge them in the same way. -/
theorem MergedBy.imp {key key' : α → Except Fault (List Value)} {desc : Bool} {as bs cs : List α}
    (h : MergedBy key desc as bs cs) (hkey : ∀ a ∈ as ++ bs, key' a = key a) :
    MergedBy key' desc as bs cs := by
  obtain ⟨ks, ls, w, ⟨rfl, hks⟩, ⟨rfl, hls⟩, hmerged⟩ := h
  refine ⟨ks, ls, w, ⟨rfl, fun p hp => ?_⟩, ⟨rfl, fun p hp => ?_⟩, hmerged⟩
  · rw [hkey p.1 (List.mem_append_left _ (List.mem_map_of_mem hp))]
    exact hks p hp
  · rw [hkey p.1 (List.mem_append_right _ (List.mem_map_of_mem hp))]
    exact hls p hp

/-- Elements that correspond are paired alike. -/
theorem leftPairs_transfer {γ δ : Type} {R : α → γ → Prop} {S : β → δ → Prop}
    {lefts : List (α × Value)} {lefts' : List (γ × Value)} {rights : List (β × Value)}
    {rights' : List (δ × Value)}
    (hlefts : List.Forall₂ (fun p q => R p.1 q.1 ∧ p.2 = q.2) lefts lefts')
    (hrights : List.Forall₂ (fun p q => S p.1 q.1 ∧ p.2 = q.2) rights rights') :
    List.Forall₂ (fun p q => R p.1 q.1 ∧ Option.Rel S p.2 q.2) (lefts.flatMap (leftPairs rights))
      (lefts'.flatMap (leftPairs rights')) := by
  have hmatching : ∀ test : Value → Bool,
      List.Forall₂ (fun p q => S p.1 q.1 ∧ p.2 = q.2) (rights.filter fun p => test p.2)
        (rights'.filter fun p => test p.2) := fun test => by
    induction hrights with
    | nil => exact .nil
    | @cons p q _ _ hpq _ ih =>
        rw [List.filter_cons, List.filter_cons, hpq.2]
        split
        · exact .cons hpq ih
        · exact ih
  induction hlefts with
  | nil => exact .nil
  | @cons p q _ _ hpq _ ih =>
      rw [List.flatMap_cons, List.flatMap_cons]
      refine List.rel_append ?_ ih
      rw [leftPairs, leftPairs, ← hpq.2]
      cases p.2.isNull with
      | true => exact .cons ⟨hpq.1, .none⟩ .nil
      | false =>
          have hfiltered := hmatching fun v => p.2.equal v
          simp only [Bool.false_eq_true, if_false]
          generalize (rights.filter fun r => p.2.equal r.2) = matching at hfiltered
          generalize (rights'.filter fun r => p.2.equal r.2) = matching' at hfiltered
          cases hfiltered with
          | nil => exact .cons ⟨hpq.1, .none⟩ .nil
          | cons hhead hrest =>
              simp only [List.isEmpty_cons, Bool.false_eq_true, if_false]
              rw [List.forall₂_map_left_iff, List.forall₂_map_right_iff]
              exact .cons ⟨hpq.1, .some hhead.1⟩ (hrest.imp fun _ _ h => ⟨hpq.1, .some h.1⟩)

end Sequences

namespace Ir

open Flow (collect expand Shuffle Interleave)

/-- Rows of which none is a failure. -/
def intact (rows : List Row) : List Item := rows.map .ok

theorem intact_inj {rows rows' : List Row} (h : intact rows = intact rows') : rows = rows' :=
  List.map_injective_iff.mpr (fun _ _ h => Except.ok.inj h) h

theorem intact_eq_nil {rows : List Row} (h : intact rows = []) : rows = [] := List.map_eq_nil_iff.mp h

/-! ### Rows made of values -/

section Values

variable {α : Type}

/-- The values of a row that is made of them. -/
theorem ofValues_eq {f : α → FieldId} {as : List α} {vs : List Value} (hnodup : (as.map f).Nodup)
    (hlength : as.length = vs.length) :
    List.Forall₂ (fun a v => Row.ofValues (as.map f) vs (f a) = v) as vs := by
  induction as generalizing vs with
  | nil =>
      cases vs with
      | nil => exact .nil
      | cons v vs => cases hlength
  | cons a as ih =>
      cases vs with
      | nil => cases hlength
      | cons v vs =>
          rw [List.map_cons, List.nodup_cons] at hnodup
          have hrest := ih hnodup.2 (Nat.succ.inj hlength)
          unfold Row.ofValues at hrest ⊢
          simp only [List.map_cons, List.zip_cons_cons]
          refine .cons ?_ ?_
          · rw [List.lookup_cons_self]
            rfl
          · have hne : ∀ a' ∈ as, f a' ≠ f a := fun a' ha' heq =>
              hnodup.1 (heq ▸ List.mem_map_of_mem ha')
            refine ((List.forall₂_and_left _ _).mpr ⟨hne, hrest⟩).imp fun a' v' h => ?_
            rw [List.lookup_cons, beq_false_of_ne h.1]
            exact h.2

theorem ofValues_forall {f : α → FieldId} {Q : α → Value → Prop} {as : List α} {vs : List Value}
    (hnodup : (as.map f).Nodup) (h : List.Forall₂ Q as vs) :
    ∀ a ∈ as, Q a (Row.ofValues (as.map f) vs (f a)) := by
  intro a ha
  obtain ⟨⟨a', v⟩, hmem, rfl⟩ := List.mem_map.mp
    ((List.map_fst_zip (le_of_eq h.length_eq)).symm ▸ ha : a ∈ (as.zip vs).map Prod.fst)
  rw [(List.forall₂_iff_zip.mp (ofValues_eq hnodup h.length_eq)).2 hmem]
  exact (List.forall₂_iff_zip.mp h).2 hmem

/-- The values are those of the row. -/
theorem map_ofValues_self {ids : List FieldId} {vs : List Value} (hnodup : ids.Nodup)
    (hlength : ids.length = vs.length) : ids.map (Row.ofValues ids vs) = vs := by
  have hids : (ids.map fun id => id).Nodup := by rwa [List.map_id']
  have h := ofValues_eq hids hlength
  rw [List.map_id'] at h
  rw [← List.forall₂_eq_eq_eq, List.forall₂_map_left_iff]
  exact h

theorem ofValues_append {ids ids' : List FieldId} {vs vs' : List Value}
    (hlength : ids.length = vs.length) {id : FieldId} :
    (id ∈ ids → Row.ofValues (ids ++ ids') (vs ++ vs') id = Row.ofValues ids vs id) ∧
      (id ∉ ids → Row.ofValues (ids ++ ids') (vs ++ vs') id = Row.ofValues ids' vs' id) := by
  induction ids generalizing vs with
  | nil =>
      cases vs with
      | nil => exact ⟨fun h => absurd h List.not_mem_nil, fun _ => rfl⟩
      | cons v vs => cases hlength
  | cons first ids ih =>
      cases vs with
      | nil => cases hlength
      | cons v vs =>
          have ih := ih (Nat.succ.inj hlength)
          unfold Row.ofValues at ih ⊢
          simp only [List.cons_append, List.zip_cons_cons, List.lookup_cons, List.mem_cons]
          by_cases hid : id = first
          · subst hid
            simp
          · rw [beq_false_of_ne hid]
            simpa only [hid, false_or] using ih

end Values

section Deliveries

variable [Platform]

/-- The columns of a projected row. -/
theorem projectRow_values {ps : List Projector} {row row' : Row}
    (hnodup : (ps.map Projector.aliasFieldId).Nodup) (h : projectRow ps row = .ok row') :
    ∀ p ∈ ps, p.expr.eval row.record = .ok (row' p.aliasFieldId) := by
  obtain ⟨vs, hvs, hpure⟩ := bind_eq_ok.mp h
  cases hpure
  exact ofValues_forall (Q := fun p v => p.expr.eval row.record = .ok v) hnodup
    (List.forall₂_map_left_iff.mp (Scalar.evalAll_ok.mp hvs))

/-- The columns of a row of aggregates. -/
theorem aggregatesOver_values {as : List Aggregate} {rows : List Row} {vs : List Value}
    (hnodup : (as.map Aggregate.outputFieldId).Nodup) (h : aggregatesOver as rows = .ok vs) :
    ∀ a ∈ as, a.over rows =
      .ok (Row.ofValues (as.map Aggregate.outputFieldId) vs a.outputFieldId) :=
  ofValues_forall (Q := fun a v => a.over rows = .ok v) hnodup (mapM_eq_ok.mp h)

/-- The columns of the row of a group. -/
theorem groupRow_values {as : List Aggregate} {ks : List Projector} {g : List Value × List Row}
    {row : Row}
    (hnodup : (as.map Aggregate.outputFieldId ++ ks.map Projector.aliasFieldId).Nodup)
    (hlength : g.1.length = ks.length) (h : groupRow as ks g = .ok row) :
    (∀ a ∈ as, a.over g.2 = .ok (row a.outputFieldId)) ∧
      (ks.map Projector.aliasFieldId).map row = g.1 := by
  obtain ⟨vs, hvs, hpure⟩ := bind_eq_ok.mp h
  cases hpure
  obtain ⟨hnodupAs, hnodupKs, hdisjoint⟩ := List.nodup_append.mp hnodup
  have hlengthAs : (as.map Aggregate.outputFieldId).length = vs.length := by
    rw [List.length_map]
    exact (mapM_eq_ok.mp hvs).length_eq
  refine ⟨fun a ha => ?_, ?_⟩
  · rw [(ofValues_append hlengthAs).1 (List.mem_map_of_mem ha)]
    exact aggregatesOver_values hnodupAs hvs a ha
  · have hlengthKs : (ks.map Projector.aliasFieldId).length = g.1.length := by
      rw [List.length_map, hlength]
    have hkeys := map_ofValues_self hnodupKs hlengthKs
    refine Eq.trans (List.map_congr_left fun id hid => ?_) hkeys
    exact (ofValues_append hlengthAs).2 fun hmem => hdisjoint id hmem id hid rfl


/-- A relation can put out rows without a failure in it or below it. -/
inductive Delivers (env : Env) : Relation → List Row → Prop
  | node {r : Relation} {rss : List (List Row)} {rows : List Row} :
      List.Forall₂ (Delivers env) r.sources rss → Step env r (rss.map intact) (intact rows) →
      Delivers env r rows

variable {env : Env} {r q p : Relation} {rows : List Row} {s : Schema}

/-- What is delivered is put out. -/
theorem Delivers.emits (h : Delivers env r rows) : Emits env r (intact rows) := by
  induction r using Relation.induction generalizing rows with
  | h r ih =>
      cases h with
      | node hsources hstep =>
          refine .node (List.forall₂_map_right_iff.mpr ?_) hstep
          have hall : ∀ q ∈ r.sources, ∀ rows, Delivers env q rows → Emits env q (intact rows) :=
            fun q hq _ => ih q hq
          exact ((List.forall₂_and_left _ _).mpr ⟨hall, hsources⟩).imp fun _ _ hq => hq.1 _ hq.2

/-! ### One operator -/

theorem delivers_none (hr : r.sources = []) (h : Delivers env r rows) :
    Step env r [] (intact rows) := by
  cases h with
  | node hsources hstep =>
      rw [hr] at hsources
      cases hsources
      exact hstep

theorem delivers_one (hr : r.sources = [q]) (h : Delivers env r rows) :
    ∃ given, Delivers env q given ∧ Step env r [intact given] (intact rows) := by
  cases h with
  | node hsources hstep =>
      rw [hr] at hsources
      obtain ⟨given, rfl, hgiven⟩ := forall₂_one hsources
      exact ⟨given, hgiven, hstep⟩

theorem delivers_two (hr : r.sources = [q, p]) (h : Delivers env r rows) :
    ∃ given given', Delivers env q given ∧ Delivers env p given' ∧
      Step env r [intact given, intact given'] (intact rows) := by
  cases h with
  | node hsources hstep =>
      rw [hr] at hsources
      obtain ⟨given, given', rfl, hgiven, hgiven'⟩ := forall₂_two hsources
      exact ⟨given, given', hgiven, hgiven', hstep⟩

omit [Platform] in
theorem whenCollected_intact {f : List Row → List Item} : whenCollected (intact rows) f = f rows := by
  rw [whenCollected, intact, Flow.collect_map_ok]

omit [Platform] in
theorem expand_intact {f : Row → List Item} : expand f (intact rows) = rows.flatMap f :=
  Flow.expand_map_ok f rows

omit [Platform] in
/-- An item for each row. -/
theorem expand_intact_single {f : Row → Item} {rows' : List Row}
    (h : intact rows' = expand (fun row => [f row]) (intact rows)) :
    List.Forall₂ (fun row row' => f row = .ok row') rows rows' := by
  rw [Flow.expand_single, intact, intact, List.map_map] at h
  have hmap : rows.map (fun row => f row) = rows'.map .ok := h.symm
  rw [← List.forall₂_eq_eq_eq, List.forall₂_map_left_iff, List.forall₂_map_right_iff] at hmap
  exact hmap

omit [Platform] in
theorem not_fault {e : Fault} (h : intact rows = [.error e]) : False := by
  cases rows with
  | nil => cases h
  | cons row rows => cases h

theorem delivers_values {vs : List Value} {id : FieldId}
    (h : Delivers env (.values vs id s) rows) :
    List.Forall₂ (fun v row => row id = v) vs rows := by
  have hstep : intact rows = vs.map fun v => .ok (.ofValues [id] [v]) := delivers_none rfl h
  have hrows : rows = vs.map fun v => Row.ofValues [id] [v] := intact_inj (hstep.trans List.map_map.symm)
  rw [hrows, List.forall₂_map_right_iff, List.forall₂_same]
  intro v _
  show (([id].zip [v]).lookup id).getD .null = v
  simp

theorem delivers_projection {ps : List Projector} (h : Delivers env (.projection r ps s) rows) :
    ∃ given, Delivers env r given ∧
      List.Forall₂ (fun row row' => projectRow ps row = .ok row') given rows := by
  obtain ⟨given, hgiven, hstep⟩ := delivers_one rfl h
  exact ⟨given, hgiven, expand_intact_single hstep⟩

theorem delivers_aggregate {as : List Aggregate} (h : Delivers env (.aggregate r as s) rows) :
    ∃ given vs, Delivers env r given ∧ aggregatesOver as given = .ok vs ∧
      rows = [.ofValues (as.map Aggregate.outputFieldId) vs] := by
  obtain ⟨given, hgiven, hstep⟩ := delivers_one rfl h
  have hrow := Eq.trans hstep whenCollected_intact
  cases hvs : aggregatesOver as given with
  | error e =>
      rw [hvs] at hrow
      exact (not_fault hrow).elim
  | ok vs =>
      rw [hvs] at hrow
      exact ⟨given, vs, hgiven, hvs, intact_inj hrow⟩

theorem delivers_limit {n : Int} (h : Delivers env (.limit r n s) rows) :
    ∃ given, Delivers env r given ∧ rows = given.take n.toNat := by
  obtain ⟨given, hgiven, hstep⟩ := delivers_one rfl h
  exact ⟨given, hgiven, intact_inj (Eq.trans hstep (List.map_take).symm)⟩

omit [Platform] in
/-- What is put out of rows for which a test has an answer. -/
def passed (test : Row → Except Fault Bool) (row : Row) : List Item :=
  match test row with
  | .ok true => [.ok row]
  | .ok false => []
  | .error e => [.error e]

omit [Platform] in
theorem keeps_of_passed {test : Row → Except Fault Bool} {c : Row → Except Fault Value}
    {given rows : List Row} (hc : ∀ row b, test row = .ok b → c row = .ok (.boolean b))
    (h : intact rows = given.flatMap (passed test)) : Keeps c given rows := by
  induction given generalizing rows with
  | nil =>
      cases intact_eq_nil h
      exact .nil
  | cons row given ih =>
      rw [List.flatMap_cons, passed] at h
      split at h
      next htrue =>
        cases rows with
        | nil => cases h
        | cons row' rows =>
            obtain ⟨hrow, hrows⟩ := List.cons.inj h
            cases hrow
            exact .keep (hc _ _ htrue) (ih hrows)
      next hfalse => exact .drop (hc _ _ hfalse) (ih h)
      next =>
        cases rows with
        | nil => cases h
        | cons row' rows => cases h

theorem delivers_filter {c : Scalar} (h : Delivers env (.filter r c s) rows) :
    ∃ given, Delivers env r given ∧ Keeps (fun row => c.eval row.record) given rows := by
  obtain ⟨given, hgiven, hstep⟩ := delivers_one rfl h
  have hpassed : filterRow c = passed c.test := rfl
  refine ⟨given, hgiven, keeps_of_passed (fun row b hb => ?_)
    (hpassed ▸ Eq.trans hstep expand_intact)⟩
  obtain ⟨v, hv, hget⟩ := bind_eq_ok.mp hb
  rw [hv, Value.type_of_getBool hget]

/-- Without rows to match there is nothing to look up. -/
theorem delivers_semiJoin {e : Scalar} {f : FieldId} (h : Delivers env (.semiJoin r q e f s) rows) :
    ∃ given matched, Delivers env r given ∧ Delivers env q matched ∧
      Keeps (fun row : Row => if matched.isEmpty then .ok (.boolean false) else do
        let v ← e.eval row.record
        pure (.boolean (isMatch (matched.map fun row : Row => row f) v))) given rows := by
  obtain ⟨given, matched, hgiven, hmatched, hstep⟩ := delivers_two rfl h
  refine ⟨given, matched, hgiven, hmatched, ?_⟩
  have hrows := Eq.trans hstep whenCollected_intact
  cases matched with
  | nil =>
      cases intact_eq_nil hrows
      clear hgiven hstep h hrows
      induction given with
      | nil => exact .nil
      | cons row given ih => exact .drop rfl ih
  | cons first matched =>
      let test := fun row : Row => do
        let v ← e.eval row.record
        (pure (isMatch ((first :: matched).map fun row : Row => row f) v) : Except Fault Bool)
      have hpassed : semiJoinRow e ((first :: matched).map fun row : Row => row f) = passed test := by
        funext row
        rw [semiJoinRow, passed]
        cases hv : e.eval row.record with
        | error e' => simp only [test, hv, error_bind]
        | ok v =>
            simp only [test, hv, ok_bind, pure_eq_ok]
            cases isMatch ((first :: matched).map fun row : Row => row f) v <;> rfl
      refine keeps_of_passed (fun row b hb => ?_) (hpassed ▸ Eq.trans hrows expand_intact)
      obtain ⟨v, hv, hmatch⟩ := bind_eq_ok.mp hb
      rw [List.isEmpty_cons, if_neg Bool.false_ne_true, hv, ← Except.ok.inj hmatch]
      rfl

theorem delivers_markJoin {e : Scalar} {o f : FieldId}
    (h : Delivers env (.markJoin r q e o f s) rows) :
    ∃ given matched, Delivers env r given ∧ Delivers env q matched ∧
      List.Forall₂ (fun row row' : Row => ∃ v, e.eval row.record = .ok v ∧
        row' = Function.update row o (.boolean (isMatch (matched.map fun row : Row => row f) v)))
        given rows := by
  obtain ⟨given, matched, hgiven, hmatched, hstep⟩ := delivers_two rfl h
  refine ⟨given, matched, hgiven, hmatched, ?_⟩
  have hrows := Eq.trans hstep whenCollected_intact
  refine (expand_intact_single hrows).imp fun row row' hrow => ?_
  obtain ⟨v, hv, hpure⟩ := bind_eq_ok.mp hrow
  exact ⟨v, hv, (Except.ok.inj hpure).symm⟩

omit [Platform] in
/-- Rows with something that is computed from each of them. -/
theorem keyed_of_collect {κ : Type} {key : Row → Except Fault κ} {given : List Row}
    {keyed : List (Row × κ)} (h : collect ((intact given).map (attach key)) = .ok keyed) :
    Keyed key given keyed := by
  obtain ⟨hrows, hkeys⟩ := map_attach.mp (Flow.collect_eq_ok h)
  exact ⟨(intact_inj hrows).symm, hkeys⟩

theorem delivers_sort {ks : List Scalar} {desc : Bool} (h : Delivers env (.sort r ks desc s) rows) :
    ∃ given, Delivers env r given ∧ SortedBy (keyOf ks) desc given rows := by
  obtain ⟨given, hgiven, hstep⟩ := delivers_one rfl h
  have hsorts : Sorts ks desc (intact given) (intact rows) := hstep
  refine ⟨given, hgiven, ?_⟩
  generalize hu : intact rows = u at hsorts
  cases hsorts with
  | fault => exact (not_fault hu).elim
  | @sorted pairs w hcollect hperm hordered =>
      refine ⟨pairs, w, keyed_of_collect hcollect, hperm, hordered, intact_inj (hu.trans ?_)⟩
      exact List.map_map.symm

omit [Platform] in
theorem equalKeys_symm (as bs : List Value) : equalKeys as bs = equalKeys bs as := by
  induction as generalizing bs with
  | nil => cases bs <;> rfl
  | cons a as ih =>
      cases bs with
      | nil => rfl
      | cons b bs => rw [equalKeys, equalKeys, Value.equal_symm, ih]

omit [Platform] in
/-- The groups of rows are those by their keys. -/
theorem groupRows_eq {key : Row → List Value} (rows : List Row)
    (gs : List (List Value × List Row)) :
    groupRows gs (rows.map fun row => (row, key row)) = Flow.groupFrom equalKeys key gs rows := by
  have hinsert : ∀ (row : Row) (gs : List (List Value × List Row)),
      insertRow (key row) row gs = Flow.joinGroup equalKeys key row gs := by
    intro row gs
    induction gs with
    | nil => rfl
    | cons g gs ih => rw [insertRow, Flow.joinGroup, ih]
  induction rows generalizing gs with
  | nil => rfl
  | cons row rows ih =>
      exact (ih _).trans (congrArg (Flow.groupFrom equalKeys key · rows) (hinsert row gs))

omit [Platform] in
theorem isGrouping_groupRows (key : Row → List Value) {rows : List Row}
    {gs : List (List Value × List Row)}
    (h : gs.Perm (groupRows [] (rows.map fun row => (row, key row)))) :
    Flow.IsGrouping equalKeys key rows gs := by
  rw [groupRows_eq] at h
  exact (Flow.IsGrouping.groups rows).of_perm equalKeys_symm h.symm

/-- The groups of rows with their keys. -/
theorem delivers_group {as : List Aggregate} {ks : List Projector}
    (h : Delivers env (.group r as ks s) rows) :
    ∃ given keyed gs, Delivers env r given ∧
      Keyed (keyOf (ks.map Projector.expr)) given keyed ∧ gs.Perm (groupRows [] keyed) ∧
      List.Forall₂ (fun g row => groupRow as ks g = .ok row) gs rows := by
  obtain ⟨given, hgiven, hstep⟩ := delivers_one rfl h
  have hgroups : Groups as ks (intact given) (intact rows) := hstep
  generalize hu : intact rows = u at hgroups
  cases hgroups with
  | fault => exact (not_fault hu).elim
  | @groups pairs gs hcollect hperm =>
      refine ⟨given, pairs, gs, hgiven, keyed_of_collect hcollect, hperm, ?_⟩
      have hmap : gs.map (groupRow as ks) = rows.map .ok := hu.symm
      rw [← List.forall₂_eq_eq_eq, List.forall₂_map_left_iff, List.forall₂_map_right_iff] at hmap
      exact hmap

omit [Platform] in
/-- What a left row is joined with, from the rows that it is paired with. -/
def joinedRow (right : Schema) (pair : Row × Option Row) : Row :=
  pair.1.join right (pair.2.getD fun _ => .null)

theorem leftJoinRow_ok {lk : Scalar} {right : Schema} {rights : List (Row × Value)} {row : Row}
    {v : Value} (hv : lk.eval row.record = .ok v) :
    leftJoinRow lk right rights row = intact ((leftPairs rights (row, v)).map (joinedRow right)) := by
  rw [leftJoinRow, hv, leftPairs]
  dsimp only
  cases v.isNull with
  | true => rfl
  | false =>
      rw [if_neg Bool.false_ne_true]
      split
      · rfl
      · rw [intact, List.map_map, List.map_map]
        rfl

theorem delivers_leftJoin {lk rk : Scalar} (h : Delivers env (.leftJoin r q lk rk s) rows) :
    ∃ given given' lefts rights, Delivers env r given ∧ Delivers env q given' ∧
      Keyed (fun row => lk.eval row.record) given lefts ∧
      Keyed (fun row => rk.eval row.record) given' rights ∧
      rows = (lefts.flatMap (leftPairs rights)).map (joinedRow q.schema) := by
  obtain ⟨given, given', hgiven, hgiven', hstep⟩ := delivers_two rfl h
  have hrows : intact rows = whenCollected ((intact given').map (attach fun row => rk.eval row.record))
      fun rights => expand (leftJoinRow lk q.schema rights) (intact given) := hstep
  rw [whenCollected] at hrows
  split at hrows
  next rights hcollect =>
    rw [expand_intact] at hrows
    suffices hleft : ∃ lefts, Keyed (fun row => lk.eval row.record) given lefts ∧
        rows = (lefts.flatMap (leftPairs rights)).map (joinedRow q.schema) by
      obtain ⟨lefts, hlefts, hrows⟩ := hleft
      exact ⟨given, given', lefts, rights, hgiven, hgiven', hlefts, keyed_of_collect hcollect, hrows⟩
    clear hgiven hstep h hcollect
    induction given generalizing rows with
    | nil => exact ⟨[], ⟨rfl, fun _ h => absurd h List.not_mem_nil⟩, intact_eq_nil hrows⟩
    | cons row given ih =>
        rw [List.flatMap_cons] at hrows
        cases hv : lk.eval row.record with
        | error e =>
            rw [leftJoinRow, hv] at hrows
            cases rows <;> cases hrows
        | ok v =>
            rw [leftJoinRow_ok hv] at hrows
            obtain ⟨first, rest, rfl, hfirst, hrest⟩ := List.map_eq_append_iff.mp hrows
            obtain ⟨lefts, ⟨hfst, hkeys⟩, rfl⟩ := ih hrest
            cases intact_inj hfirst
            refine ⟨(row, v) :: lefts, ⟨congrArg (row :: ·) hfst,
              List.forall_mem_cons.mpr ⟨hv, hkeys⟩⟩, ?_⟩
            rw [List.flatMap_cons, List.map_append]
  next => exact (not_fault hrows).elim

theorem delivers_unionAll {qs : List Relation} (h : Delivers env (.unionAll qs s) rows) :
    ∃ rss, List.Forall₂ (Delivers env) qs rss ∧ Shuffle rss rows := by
  cases h with
  | @node _ rss _ hsources hstep =>
      obtain ⟨rows', hrows', hshuffle⟩ := Flow.Shuffle.of_map (show Shuffle _ _ from hstep)
      cases intact_inj hrows'
      exact ⟨rss, hsources, hshuffle⟩

theorem delivers_unionAllSortedBy {ks : List Scalar} {desc : Bool}
    (h : Delivers env (.unionAllSortedBy r q ks desc s) rows) :
    ∃ given given', Delivers env r given ∧ Delivers env q given' ∧
      MergedBy (keyOf ks) desc given given' rows := by
  obtain ⟨given, given', hgiven, hgiven', hstep⟩ := delivers_two rfl h
  have hmerges : Merges ks desc (intact given) (intact given') (intact rows) := hstep
  obtain ⟨w, hint, hsorted, hrows⟩ := hmerges
  have hok : ∀ x ∈ w, ∃ p, x = .ok p := by
    intro x hx
    have hmem : Except.map Prod.fst x ∈ intact rows := hrows ▸ List.mem_map_of_mem hx
    obtain ⟨row, -, hrow⟩ := List.mem_map.mp hmem
    cases x with
    | error e => cases hrow
    | ok p => exact ⟨p, rfl⟩
  obtain ⟨ks', hks⟩ := Flow.exists_collect fun x hx => hok x (hint.left_sublist.subset hx)
  obtain ⟨ls, hls⟩ := Flow.exists_collect fun x hx => hok x (hint.right_sublist.subset hx)
  rw [Flow.collect_eq_ok hks, Flow.collect_eq_ok hls] at hint hsorted
  obtain ⟨pairs, rfl, hpairs⟩ := hint.of_map
  have hsortedKeys : ∀ {keyed : List (Row × List Value)},
      IsSorted desc (keyed.map .ok) ↔ SortedKeys desc keyed := by
    intro keyed
    rw [IsSorted, Flow.collect_map_ok]
    constructor
    · rintro ⟨_, hkeyed, h⟩
      cases hkeyed
      exact h
    · exact fun h => ⟨keyed, rfl, h⟩
  rw [hsortedKeys, hsortedKeys, hsortedKeys] at hsorted
  refine ⟨given, given', hgiven, hgiven', ks', ls, pairs, keyed_of_collect hks, keyed_of_collect hls,
    hpairs, hsorted, intact_inj ?_⟩
  rw [hrows, List.map_map, intact, List.map_map]
  rfl

theorem delivers_file {path : String} {range : Option Plan.TimeRange} {format : Option TimeFormat}
    (h : Delivers env (.file path range format s) rows) :
    intact rows = env.file path range format s := delivers_none rfl h

theorem delivers_stream {command : String} (h : Delivers env (.stream command s) rows) :
    intact rows = env.stream command s := delivers_none rfl h

theorem delivers_reference {name : String}
    (h : Delivers env (.namedRelationReference name s) rows) : env.named name (intact rows) :=
  delivers_none rfl h

theorem delivers_materialize (h : Delivers env (.materialize r s) rows) : Delivers env r rows := by
  obtain ⟨given, hgiven, hstep⟩ := delivers_one rfl h
  cases intact_inj hstep
  exact hgiven

/-! ### Programs -/

/-- One run of statements in which nothing fails, with the rows of the queries. -/
inductive Completes : Env → List Statement → List (List Row) → Prop
  | nil {env : Env} : Completes env [] []
  | namedRelation {env : Env} {name : String} {r : Relation} {rows : List Row} {ss : List Statement}
      {answers : List (List Row)} :
      Delivers env r rows →
      Completes { env with named := Function.update env.named name fun v => v = intact rows } ss answers →
      Completes env (.namedRelation name r :: ss) answers
  | query {env : Env} {r : Relation} {rows : List Row} {ss : List Statement}
      {answers : List (List Row)} :
      Delivers env r rows → Completes env ss answers → Completes env (.query r :: ss) (rows :: answers)

/-- Such a run is a run. -/
theorem Completes.runs {ss : List Statement} {answers : List (List Row)}
    (h : Completes env ss answers) : Runs env ss (answers.map intact) := by
  induction h with
  | nil => exact .nil
  | namedRelation hrows _ ih => exact .namedRelation hrows.emits ih
  | query hrows _ ih => exact .query hrows.emits ih

/-- One run of a program in which nothing fails. -/
def Program.Completes (data : Data) (program : Program) (answers : List (List Row)) : Prop :=
  Ir.Completes { data with named := fun _ _ => False } program.statements answers

end Deliveries

end Ir

end Lsql
