import Mathlib.Data.List.Pairwise
import Lsql.Ir.ScalarHash
import Lsql.Opt.ScalarSimplify
import Lsql.Opt.Traversal

/-!
# Lsql.Opt.AggregateDeduplicate

The pass that computes equal aggregates once (`optimize/aggregate_deduplicate.cpp`).

Of equal aggregates the first one is kept; a projection over the aggregation hands its field on under
the names of all. Aggregates are equal if `operator==` says so, apart from the fields that they are
put out under, and `operator==` holds 0.0 and -0.0 for the same constant. What the pass needs is that
equal aggregates have the same value over the rows that they are computed from.
-/

namespace Lsql.Opt.AggregateDeduplicate

open Ir
open Flow (collect expand)
open ScalarSimplify (zeroTexts)

/-! ### The pass -/

/-- The locals of `deduplicate`. -/
structure Locals where
  expressions : List (Aggregate × FieldId)
  aggregates : List Aggregate
  projectors : List Projector

/-- An aggregate without the field that it is put out under. -/
def aggregateKey (a : Aggregate) : Aggregate := { a with outputFieldId := unknownFieldId }

/-- A projector that puts a field out under a name. -/
def restored (name field : FieldId) (t : ValueType) : Projector := ⟨name, .field field t⟩

/-- `ir::schemaFor`. -/
def schemaFor (ids : List FieldId) : Except Fault Schema := Schema.empty.appendAll ids

theorem exists_schemaFor {ids : List FieldId} (h : ids.Nodup) : ∃ s, schemaFor ids = .ok s :=
  Schema.appendAll_ok_iff.mpr h

theorem schemaFor_fields {ids : List FieldId} {s : Schema} (h : schemaFor ids = .ok s) :
    s.fields = ids := Schema.appendAll_eq_ok.mp h

section Pass

variable [DescriptionHash]

/-- The lookup of `expressions`: an entry with an equal key among those with the hash of the key. -/
def findHashed (expressions : List (Aggregate × FieldId)) (key : Aggregate) :
    Option (Aggregate × FieldId) :=
  expressions.find? fun e => e.1.hash == key.hash && key.equal e.1

/-- The hash hides no equal key. -/
theorem findHashed_eq (expressions : List (Aggregate × FieldId)) (key : Aggregate) :
    findHashed expressions key = expressions.find? fun e => key.equal e.1 := by
  have hsame : (fun e : Aggregate × FieldId => e.1.hash == key.hash && key.equal e.1) =
      fun e => key.equal e.1 := by
    funext e
    cases heq : key.equal e.1 with
    | true => simp [Aggregate.hash_eq_of_equal heq]
    | false => simp
  rw [findHashed, hsame]

/-- The body of the loop. -/
def visitAggregate (l : Locals) (a : Aggregate) : Locals :=
  match findHashed l.expressions (aggregateKey a) with
  | some entry =>
    { l with projectors := l.projectors ++ [restored a.outputFieldId entry.2 a.valueType] }
  | none =>
    { expressions := l.expressions ++ [(aggregateKey a, a.outputFieldId)]
      aggregates := l.aggregates ++ [a]
      projectors := l.projectors ++ [restored a.outputFieldId a.outputFieldId a.valueType] }

/-- The loop. -/
def visitAggregates (l : Locals) : List Aggregate → Locals
  | [] => l
  | a :: as => visitAggregates (visitAggregate l a) as

/-- `Optimizer::deduplicate`, for a node that is made of its aggregates and a schema; an
`AggregateRelation` has no group list. -/
def deduplicate (aggregates : List Aggregate) (groupList : List Projector)
    (node : List Aggregate → Schema → Relation) (schema : Schema) : Pass Relation :=
  if aggregates.length < 2 then pure (node aggregates schema)
  else
    let l := visitAggregates ⟨[], [], []⟩ aggregates
    if aggregates.length - l.aggregates.length = 0 then pure (node l.aggregates schema)
    else do
      let own ← schemaFor (l.aggregates.map Aggregate.outputFieldId)
      let keys ← schemaFor (groupList.map Projector.aliasFieldId)
      let inner ← own.concat keys
      Pass.setChanges
      pure (.projection (node l.aggregates inner)
        (l.projectors ++ groupList.map fun key =>
          restored key.aliasFieldId key.aliasFieldId key.expr.valueType) schema)

/-- `Optimizer::visit`, for one node. -/
def rule : Relation → Pass Relation
  | .aggregate r as s => deduplicate as [] (fun kept schema => .aggregate r kept schema) s
  | .group r as ks s => deduplicate as ks (fun kept schema => .group r kept ks schema) s
  | r => pure r

/-- `aggregateDeduplicate`. -/
def aggregateDeduplicate (program : Program) : Pass Program := visitProgram rule program

end Pass

/-! ### What is kept -/

/-- Aggregates that compute the same, according to `operator==`. -/
def duplicates (a b : Aggregate) : Bool := (aggregateKey a).equal (aggregateKey b)

theorem duplicates_symm (a b : Aggregate) : duplicates a b = duplicates b a :=
  Aggregate.equal_symm _ _

theorem duplicates_trans {a b c : Aggregate} (hab : duplicates a b = true)
    (hbc : duplicates b c = true) : duplicates a c = true := Aggregate.equal_trans hab hbc

/-- The aggregates that are kept in the end, and the one that stands for each of the others, when
some have been kept already. -/
inductive Merged : List Aggregate → List Aggregate → List Aggregate → List Aggregate → Prop
  | nil {kept : List Aggregate} : Merged kept [] kept []
  | fresh {a : Aggregate} {kept as ks rs : List Aggregate} : kept.find? (duplicates a) = none →
      Merged (kept ++ [a]) as ks rs → Merged kept (a :: as) ks (a :: rs)
  | merged {a b : Aggregate} {kept as ks rs : List Aggregate} :
      kept.find? (duplicates a) = some b → Merged kept as ks rs → Merged kept (a :: as) ks (b :: rs)

/-- The entries of kept aggregates. -/
def entriesOf (kept : List Aggregate) : List (Aggregate × FieldId) :=
  kept.map fun k => (aggregateKey k, k.outputFieldId)

/-- The projectors of aggregates, through those that stand for them. -/
def restoredAll (as rs : List Aggregate) : List Projector :=
  List.zipWith (fun a r => restored a.outputFieldId r.outputFieldId a.valueType) as rs

theorem find_entriesOf (kept : List Aggregate) (a : Aggregate) :
    (entriesOf kept).find? (fun e => (aggregateKey a).equal e.1) =
      (kept.find? (duplicates a)).map fun k => (aggregateKey k, k.outputFieldId) := by
  rw [entriesOf, List.find?_map]
  rfl

theorem visitAggregates_merged [DescriptionHash] (as kept : List Aggregate)
    (ps : List Projector) : ∃ ks rs, Merged kept as ks rs ∧
      visitAggregates ⟨entriesOf kept, kept, ps⟩ as =
        ⟨entriesOf ks, ks, ps ++ restoredAll as rs⟩ := by
  induction as generalizing kept ps with
  | nil => exact ⟨kept, [], .nil, by simp [visitAggregates, restoredAll]⟩
  | cons a as ih =>
      rw [visitAggregates]
      cases hfind : kept.find? (duplicates a) with
      | none =>
          have hstep : visitAggregate ⟨entriesOf kept, kept, ps⟩ a =
              ⟨entriesOf (kept ++ [a]), kept ++ [a],
                ps ++ [restored a.outputFieldId a.outputFieldId a.valueType]⟩ := by
            rw [visitAggregate, findHashed_eq, find_entriesOf, hfind]
            simp [entriesOf]
          obtain ⟨ks, rs, hm, hl⟩ := ih (kept ++ [a])
            (ps ++ [restored a.outputFieldId a.outputFieldId a.valueType])
          refine ⟨ks, a :: rs, .fresh hfind hm, ?_⟩
          rw [hstep, hl, List.append_assoc]
          rfl
      | some b =>
          have hstep : visitAggregate ⟨entriesOf kept, kept, ps⟩ a =
              ⟨entriesOf kept, kept,
                ps ++ [restored a.outputFieldId b.outputFieldId a.valueType]⟩ := by
            rw [visitAggregate, findHashed_eq, find_entriesOf, hfind]
            rfl
          obtain ⟨ks, rs, hm, hl⟩ := ih kept
            (ps ++ [restored a.outputFieldId b.outputFieldId a.valueType])
          refine ⟨ks, b :: rs, .merged hfind hm, ?_⟩
          rw [hstep, hl, List.append_assoc]
          rfl

namespace Merged

variable {kept as ks rs : List Aggregate}

/-- Aggregates are kept in their order. -/
theorem new (h : Merged kept as ks rs) : ∃ new, ks = kept ++ new ∧ new.Sublist as := by
  induction h with
  | nil => exact ⟨[], (List.append_nil _).symm, .slnil⟩
  | @fresh a kept as ks rs _ _ ih =>
      obtain ⟨new, hks, hsub⟩ := ih
      exact ⟨a :: new, by rw [hks, List.append_assoc]; rfl, hsub.cons_cons a⟩
  | merged _ _ ih =>
      obtain ⟨new, hks, hsub⟩ := ih
      exact ⟨new, hks, hsub.cons _⟩

theorem subset (h : Merged kept as ks rs) : kept ⊆ ks := by
  obtain ⟨new, hks, -⟩ := h.new
  rw [hks]
  exact List.subset_append_left kept new

theorem length_eq (h : Merged kept as ks rs) : rs.length = as.length := by
  induction h with
  | nil => rfl
  | fresh _ _ ih => exact congrArg (· + 1) ih
  | merged _ _ ih => exact congrArg (· + 1) ih

/-- What stands for an aggregate is kept, and what is kept newly stands for itself. -/
theorem mem_iff (h : Merged kept as ks rs) (b : Aggregate) :
    b ∈ kept ∨ b ∈ rs ↔ b ∈ ks := by
  induction h with
  | nil => simp
  | @fresh a kept as ks rs _ _ ih =>
      rw [← ih, List.mem_append, List.mem_singleton, List.mem_cons, or_assoc]
  | @merged a c kept as ks rs hfind _ ih =>
      have hc : c ∈ kept := List.mem_of_find?_eq_some hfind
      rw [← ih, List.mem_cons]
      constructor
      · rintro (hb | rfl | hb)
        · exact .inl hb
        · exact .inl hc
        · exact .inr hb
      · rintro (hb | hb)
        · exact .inl hb
        · exact .inr (.inr hb)

/-- No two of the aggregates that are kept are equal. -/
theorem distinct (h : Merged kept as ks rs)
    (hkept : kept.Pairwise fun a b => duplicates a b = false) :
    ks.Pairwise fun a b => duplicates a b = false := by
  induction h with
  | nil => exact hkept
  | @fresh a kept as ks rs hfind _ ih =>
      refine ih (List.pairwise_append.mpr ⟨hkept, List.pairwise_singleton _ _, ?_⟩)
      intro b hb c hc
      rw [List.mem_singleton.mp hc, duplicates_symm]
      exact Bool.eq_false_iff.mpr (List.find?_eq_none.mp hfind b hb)
  | merged _ _ ih => exact ih hkept

/-- If all are kept, each stands for itself. -/
theorem eq_of_all_kept (h : Merged kept as ks rs)
    (hlength : ks.length = kept.length + as.length) : rs = as ∧ ks = kept ++ as := by
  induction h with
  | nil => exact ⟨rfl, (List.append_nil _).symm⟩
  | @fresh a kept as ks rs _ _ ih =>
      rw [List.length_append, List.length_cons, List.length_nil] at ih
      rw [List.length_cons] at hlength
      obtain ⟨hrs, hks⟩ := ih (by omega)
      exact ⟨by rw [hrs], by rw [hks, List.append_assoc]; rfl⟩
  | @merged a b kept as ks rs _ hrest _ =>
      obtain ⟨new, hks, hsub⟩ := hrest.new
      have hle := hsub.length_le
      rw [hks, List.length_append, List.length_cons] at hlength
      omega

end Merged

/-! ### Rows -/

section Rows

variable [Platform]

omit [Platform] in
theorem mapM_error {f : Aggregate → Except Fault Value} (before : List Aggregate)
    {after : List Aggregate} {a : Aggregate} {e : Fault} (hbefore : ∀ b ∈ before, ∃ v, f b = .ok v) (ha : f a = .error e) :
    (before ++ a :: after).mapM f = .error e := by
  induction before with
  | nil => simp [ha]
  | cons b before ih =>
      obtain ⟨v, hv⟩ := hbefore b List.mem_cons_self
      rw [List.cons_append, List.mapM_cons, hv, ih fun c hc => hbefore c (List.mem_cons_of_mem _ hc)]
      rfl

/-- The kept aggregates all have a value, or those that stand for the others fail as they do. -/
theorem Merged.over_cases {kept as ks rs : List Aggregate} (h : Merged kept as ks rs)
    (rows : List Row) (hkept : ∀ k ∈ kept, ∃ v, k.over rows = .ok v) :
    (∃ e, aggregatesOver ks rows = .error e ∧ aggregatesOver rs rows = .error e) ∨
      ∀ k ∈ ks, ∃ v, k.over rows = .ok v := by
  induction h with
  | nil => exact .inr hkept
  | @fresh a kept as ks rs _ hrest ih =>
      cases ha : a.over rows with
      | error e =>
          obtain ⟨new, hks, -⟩ := hrest.new
          refine .inl ⟨e, ?_, mapM_error [] (fun _ hb => absurd hb List.not_mem_nil) ha⟩
          rw [hks, List.append_assoc]
          exact mapM_error kept hkept ha
      | ok v =>
          have hall : ∀ k ∈ kept ++ [a], ∃ v, k.over rows = .ok v := by
            intro k hk
            rcases List.mem_append.mp hk with hk | hk
            · exact hkept k hk
            · rw [List.mem_singleton.mp hk]
              exact ⟨v, ha⟩
          rcases ih hall with ⟨e, hks, hrs⟩ | hall
          · refine .inl ⟨e, hks, ?_⟩
            rw [aggregatesOver] at hrs ⊢
            rw [List.mapM_cons, ha, hrs]
            rfl
          · exact .inr hall
  | @merged a b kept as ks rs hfind _ ih =>
      rcases ih hkept with ⟨e, hks, hrs⟩ | hall
      · obtain ⟨v, hv⟩ := hkept b (List.mem_of_find?_eq_some hfind)
        refine .inl ⟨e, hks, ?_⟩
        rw [aggregatesOver] at hrs ⊢
        rw [List.mapM_cons, hv, hrs]
        rfl
      · exact .inr hall

omit [Platform] in
/-- The values of distinct fields are read back. -/
theorem map_ofValues {ids : List FieldId} (vs : List Value) (hnodup : ids.Nodup)
    (hlength : ids.length = vs.length) : ids.map (Row.ofValues ids vs) = vs := by
  induction ids generalizing vs with
  | nil =>
      cases vs with
      | nil => rfl
      | cons v vs => cases hlength
  | cons id ids ih =>
      cases vs with
      | nil => cases hlength
      | cons v vs =>
          rw [List.nodup_cons] at hnodup
          have htail : ids.map (Row.ofValues (id :: ids) (v :: vs)) =
              ids.map (Row.ofValues ids vs) := by
            refine List.map_congr_left fun i hi => ?_
            have hne : i ≠ id := fun h => hnodup.1 (h ▸ hi)
            simp [Row.ofValues, List.lookup_cons, beq_false_of_ne hne]
          rw [List.map_cons, htail, ih vs hnodup.2 (Nat.succ.inj hlength)]
          simp [Row.ofValues]

theorem evalAll_restoredAll {row : Row} {as rs : List Aggregate} (hlength : rs.length = as.length)
    {ss : List Scalar} {vs : List Value} (hss : Scalar.evalAll row.record ss = .ok vs) :
    Scalar.evalAll row.record ((restoredAll as rs).map Projector.expr ++ ss) =
      .ok (rs.map (fun r => row r.outputFieldId) ++ vs) := by
  induction as generalizing rs with
  | nil =>
      rw [List.length_eq_zero_iff.mp hlength]
      exact hss
  | cons a as ih =>
      cases rs with
      | nil => cases hlength
      | cons r rs =>
          have hrest := ih (Nat.succ.inj hlength)
          rw [restoredAll] at hrest ⊢
          rw [List.zipWith_cons_cons, List.map_cons, List.cons_append, Scalar.evalAll, hrest]
          rfl

/-- The keys of the groups, under their own names. -/
def restoredKeys (keys : List Projector) : List Projector :=
  keys.map fun key => restored key.aliasFieldId key.aliasFieldId key.expr.valueType

theorem evalAll_restoredKeys (row : Row) (keys : List Projector) :
    Scalar.evalAll row.record ((restoredKeys keys).map Projector.expr) =
      .ok ((keys.map Projector.aliasFieldId).map row) := by
  induction keys with
  | nil => rfl
  | cons key keys ih =>
      rw [restoredKeys] at ih ⊢
      rw [List.map_cons, List.map_cons, Scalar.evalAll, ih]
      rfl

omit [Platform] in
theorem restored_names {as rs : List Aggregate} (hlength : rs.length = as.length)
    (keys : List Projector) :
    (restoredAll as rs ++ restoredKeys keys).map Projector.aliasFieldId =
      as.map Aggregate.outputFieldId ++ keys.map Projector.aliasFieldId := by
  have hall : (restoredAll as rs).map Projector.aliasFieldId =
      as.map Aggregate.outputFieldId := by
    induction as generalizing rs with
    | nil => rfl
    | cons a as ih =>
        cases rs with
        | nil => cases hlength
        | cons r rs =>
            have hrest := ih (Nat.succ.inj hlength)
            rw [restoredAll] at hrest ⊢
            rw [List.zipWith_cons_cons, List.map_cons, hrest]
            rfl
  rw [List.map_append, hall, restoredKeys, List.map_map]
  rfl

omit [Platform] in
/-- The fields that the restoring projection reads. -/
theorem restored_reads {as rs : List Aggregate} (hlength : rs.length = as.length)
    (keys : List Projector) :
    Scalar.fieldsAll ((restoredAll as rs ++ restoredKeys keys).map Projector.expr) =
      rs.map Aggregate.outputFieldId ++ keys.map Projector.aliasFieldId := by
  induction as generalizing rs with
  | nil =>
      rw [List.length_eq_zero_iff.mp hlength]
      induction keys with
      | nil => rfl
      | cons key keys ih => exact congrArg (key.aliasFieldId :: ·) ih
  | cons a as ih =>
      cases rs with
      | nil => cases hlength
      | cons r rs => exact congrArg (r.outputFieldId :: ·) (ih (Nat.succ.inj hlength))

/-- The row of a group with the values of some aggregates under the names of others. -/
def rowThrough (ids : List FieldId) (rs : List Aggregate) (g : List Value × List Row) : Item := do
  let vs ← aggregatesOver rs g.2
  pure (.ofValues ids (vs ++ g.1))

/-- **The restoring projection**: every aggregate has the value of the one that stands for it. -/
theorem projectRow_restored {as ks rs : List Aggregate} (h : Merged [] as ks rs)
    {keys : List Projector}
    (hnodup : (ks.map Aggregate.outputFieldId ++ keys.map Projector.aliasFieldId).Nodup)
    {g : List Value × List Row} (hkeys : g.1.length = keys.length) :
    groupRow ks keys g >>= projectRow (restoredAll as rs ++ restoredKeys keys) =
      rowThrough (as.map Aggregate.outputFieldId ++ keys.map Projector.aliasFieldId) rs g := by
  rcases h.over_cases g.2 (fun _ hk => absurd hk List.not_mem_nil) with ⟨e, hks, hrs⟩ | hall
  · rw [groupRow, rowThrough, hks, hrs]
    rfl
  · obtain ⟨vs, hvs⟩ := exists_forall₂ hall
    have hks : aggregatesOver ks g.2 = .ok vs := mapM_eq_ok.mpr hvs
    let row := Row.ofValues (ks.map Aggregate.outputFieldId ++ keys.map Projector.aliasFieldId)
      (vs ++ g.1)
    have hread : (ks.map Aggregate.outputFieldId).map row = vs ∧
        (keys.map Projector.aliasFieldId).map row = g.1 := by
      have hmap := map_ofValues (vs ++ g.1) hnodup (by
        simp only [List.length_append, List.length_map, hvs.length_eq, hkeys])
      rw [List.map_append] at hmap
      exact List.append_inj hmap (by simp only [List.length_map, hvs.length_eq])
    -- a kept aggregate's value stands under its field
    have hvalue : ∀ k ∈ ks, k.over g.2 = .ok (row k.outputFieldId) := by
      have hforall := hread.1 ▸ hvs
      rw [List.map_map, List.forall₂_map_right_iff, List.forall₂_same] at hforall
      exact hforall
    have hrs : aggregatesOver rs g.2 = .ok (rs.map fun r => row r.outputFieldId) := by
      refine mapM_eq_ok.mpr (List.forall₂_map_right_iff.mpr (List.forall₂_same.mpr fun r hr => ?_))
      exact hvalue r ((h.mem_iff r).mp (.inr hr))
    have hrow : groupRow ks keys g = .ok row := by
      rw [groupRow, hks]
      rfl
    have heval := evalAll_restoredAll h.length_eq (evalAll_restoredKeys row keys)
    rw [← List.map_append] at heval
    rw [hrow, ok_bind, projectRow, heval, restored_names h.length_eq, rowThrough, hrs, hread.2]
    rfl

/-- Rows with the same names are the same if their values are, and both fail if these do. -/
theorem rowThrough_inj {as rs : List Aggregate} {ids : List FieldId} {g : List Value × List Row}
    (hlength : rs.length = as.length) (hnodup : ids.Nodup)
    (hids : ids.length = as.length + g.1.length) :
    (rowThrough ids rs g).toOption = (rowThrough ids as g).toOption ↔
      (aggregatesOver rs g.2).toOption = (aggregatesOver as g.2).toOption := by
  rw [rowThrough, rowThrough]
  cases hr : aggregatesOver rs g.2 with
  | error e => cases aggregatesOver as g.2 <;> simp [Except.toOption]
  | ok us =>
      cases ha : aggregatesOver as g.2 with
      | error e => simp [Except.toOption]
      | ok vs =>
          have hus := (mapM_eq_ok.mp hr).length_eq
          have hvs := (mapM_eq_ok.mp ha).length_eq
          have hreadu := map_ofValues (us ++ g.1) hnodup (by
            rw [List.length_append, ← hus, hlength, hids])
          have hreadv := map_ofValues (vs ++ g.1) hnodup (by
            rw [List.length_append, ← hvs, hids])
          show some (Row.ofValues ids (us ++ g.1)) = some (Row.ofValues ids (vs ++ g.1)) ↔
            some us = some vs
          rw [Option.some.injEq, Option.some.injEq]
          constructor
          · intro hrow
            rw [hrow, hreadv] at hreadu
            exact (List.append_cancel_right hreadu).symm
          · intro h
            rw [h]

/-! ### Equal aggregates with the same value -/

omit [Platform] in
/-- An aggregate that is kept stands for every aggregate: itself, or an equal one. -/
theorem Merged.forall₂ {kept as ks rs : List Aggregate} (h : Merged kept as ks rs) :
    List.Forall₂ (fun a r => r ∈ ks ∧ (r = a ∨ duplicates r a = true)) as rs := by
  induction h with
  | nil => exact .nil
  | fresh _ hrest ih =>
      exact .cons ⟨hrest.subset (List.mem_append_right _ List.mem_cons_self), .inl rfl⟩ ih
  | merged hfind hrest ih =>
      refine .cons ⟨hrest.subset (List.mem_of_find?_eq_some hfind), .inr ?_⟩ ih
      rw [duplicates_symm]
      exact List.find?_some hfind

/-- An aggregate without an equal one before it, behind some that have been passed. -/
def FirstAfter (passed as : List Aggregate) (k : Aggregate) : Prop :=
  ∃ before after, as = before ++ k :: after ∧ ∀ b ∈ passed ++ before, duplicates b k = false

/-- An aggregate without an equal one before it. -/
def IsFirst (as : List Aggregate) (k : Aggregate) : Prop := FirstAfter [] as k

omit [Platform] in
theorem firstAfter_cons {passed as : List Aggregate} {a k : Aggregate} :
    FirstAfter passed (a :: as) k ↔
      (k = a ∧ ∀ b ∈ passed, duplicates b a = false) ∨ FirstAfter (passed ++ [a]) as k := by
  constructor
  · intro h
    obtain ⟨before, after, has, hbefore⟩ := h
    cases before with
    | nil =>
        cases has
        rw [List.append_nil] at hbefore
        exact .inl ⟨rfl, hbefore⟩
    | cons a' before =>
        cases has
        refine .inr ⟨before, after, rfl, ?_⟩
        rwa [List.append_assoc]
  · intro h
    rcases h with ⟨rfl, hpassed⟩ | ⟨before, after, rfl, hbefore⟩
    · exact ⟨[], as, rfl, by rwa [List.append_nil]⟩
    · refine ⟨a :: before, after, rfl, ?_⟩
      rwa [List.append_assoc] at hbefore

omit [Platform] in
/-- The loop keeps the aggregates without an equal one before them; those that it has passed are kept
or equal to one that is. -/
theorem Merged.mem_kept {kept as ks rs passed : List Aggregate} (h : Merged kept as ks rs)
    (hsub : kept ⊆ passed)
    (hpassed : ∀ b ∈ passed, ∃ k ∈ kept, k = b ∨ duplicates k b = true) (k : Aggregate) :
    k ∈ ks ↔ k ∈ kept ∨ FirstAfter passed as k := by
  induction h generalizing passed with
  | nil =>
      have hnone : ¬ FirstAfter passed [] k := by
        intro h
        obtain ⟨before, after, has, -⟩ := h
        cases before <;> cases has
      exact (or_iff_left hnone).symm
  | @fresh a kept as ks rs hfind _ ih =>
      have hnew : ∀ b ∈ passed, duplicates b a = false := by
        intro b hb
        obtain ⟨c, hc, hcb⟩ := hpassed b hb
        have hca : duplicates c a = false := by
          rw [duplicates_symm]
          exact Bool.eq_false_iff.mpr (List.find?_eq_none.mp hfind c hc)
        rcases hcb with rfl | hcb
        · exact hca
        · refine Bool.eq_false_iff.mpr fun hba => ?_
          rw [duplicates_trans hcb hba] at hca
          cases hca
      rw [firstAfter_cons, @ih (passed ++ [a]), List.mem_append, List.mem_singleton,
        and_iff_left hnew, or_assoc]
      · exact List.append_subset.mpr ⟨List.subset_append_of_subset_left _ hsub,
          List.subset_append_right _ _⟩
      · intro b hb
        rcases List.mem_append.mp hb with hb | hb
        · obtain ⟨c, hc, hcb⟩ := hpassed b hb
          exact ⟨c, List.mem_append_left _ hc, hcb⟩
        · exact ⟨b, List.mem_append_right _ hb, .inl rfl⟩
  | @merged a c kept as ks rs hfind _ ih =>
      have hc : c ∈ kept := List.mem_of_find?_eq_some hfind
      have hca : duplicates c a = true := by
        rw [duplicates_symm]
        exact List.find?_some hfind
      have hold : ¬ (k = a ∧ ∀ b ∈ passed, duplicates b a = false) := by
        intro h
        rw [h.2 c (hsub hc)] at hca
        cases hca
      rw [firstAfter_cons, or_iff_right hold, @ih (passed ++ [a])]
      · exact List.subset_append_of_subset_left _ hsub
      · intro b hb
        rcases List.mem_append.mp hb with hb | hb
        · exact hpassed b hb
        · rw [List.mem_singleton.mp hb]
          exact ⟨c, hc, .inr hca⟩

omit [Platform] in
theorem Merged.mem_iff_isFirst {as ks rs : List Aggregate} (h : Merged [] as ks rs)
    (k : Aggregate) : k ∈ ks ↔ IsFirst as k := by
  rw [h.mem_kept (List.Subset.refl _) (by simp) k]
  exact or_iff_right List.not_mem_nil

/-- Where the first of all equal aggregates have values over the rows, the others have the same. -/
def AgreeOnDuplicates (as : List Aggregate) (rows : List Row) : Prop :=
  (∀ k, IsFirst as k → ∃ v, k.over rows = .ok v) →
    ∀ a ∈ as, ∀ k, IsFirst as k → duplicates k a = true → a.over rows = k.over rows

theorem aggregatesOver_ok {as : List Aggregate} {rows : List Row} :
    (∃ vs, aggregatesOver as rows = .ok vs) ↔ ∀ a ∈ as, ∃ v, a.over rows = .ok v := by
  constructor
  · intro h a ha
    obtain ⟨vs, hvs⟩ := h
    obtain ⟨v, -, hv⟩ := forall₂_mem_left (mapM_eq_ok.mp hvs) ha
    exact ⟨v, hv⟩
  · intro h
    obtain ⟨vs, hvs⟩ := exists_forall₂ h
    exact ⟨vs, mapM_eq_ok.mpr hvs⟩

/-- Where all that is kept has a value: each aggregate has the value of the one that stands for it. -/
theorem Merged.agreeOnDuplicates_iff {as ks rs : List Aggregate} (h : Merged [] as ks rs)
    (rows : List Row) : AgreeOnDuplicates as rows ↔ ((∀ k ∈ ks, ∃ v, k.over rows = .ok v) →
      List.Forall₂ (fun a r => a.over rows = r.over rows) as rs) := by
  have hfirst := h.mem_iff_isFirst
  obtain ⟨hlength, hpair⟩ := List.forall₂_iff_zip.mp h.forall₂
  have hdistinct : ∀ k ∈ ks, ∀ l ∈ ks, duplicates k l = true → k = l := by
    have hsymm : Std.Symm fun a b => duplicates a b = false :=
      ⟨fun a b hab => duplicates_symm a b ▸ hab⟩
    intro k hk l hl hkl
    by_contra hne
    rw [(h.distinct .nil).forall hk hl hne] at hkl
    cases hkl
  simp only [AgreeOnDuplicates, ← hfirst]
  refine forall_congr' fun hall => ⟨fun hagree => ?_, fun hvalues a ha k hk hka => ?_⟩
  · refine List.forall₂_iff_zip.mpr ⟨hlength, fun {a r} har => ?_⟩
    obtain ⟨hr, rfl | hra⟩ := hpair har
    · rfl
    · exact hagree a (List.of_mem_zip har).1 r hr hra
  · obtain ⟨-, hvalue⟩ := List.forall₂_iff_zip.mp hvalues
    have hzip : List.Forall₂ (fun a r => (a, r) ∈ as.zip rs) as rs :=
      List.forall₂_iff_zip.mpr ⟨hlength, fun {a r} har => har⟩
    obtain ⟨r, -, har⟩ := forall₂_mem_left hzip ha
    obtain ⟨hr, rfl | hra⟩ := hpair har
    · rw [hdistinct k hk r hr hka]
    · rw [duplicates_symm] at hra
      rw [hvalue har, hdistinct k hk r hr (duplicates_trans hka hra)]

/-- The values of those that stand for the aggregates are those of the aggregates. -/
theorem Merged.agree_iff {as ks rs : List Aggregate} (h : Merged [] as ks rs) (rows : List Row) :
    (aggregatesOver rs rows).toOption = (aggregatesOver as rows).toOption ↔
      AgreeOnDuplicates as rows := by
  rw [h.agreeOnDuplicates_iff]
  obtain ⟨new, hnew, hsub⟩ := h.new
  rw [List.nil_append] at hnew
  subst hnew
  rcases h.over_cases rows (fun _ hk => absurd hk List.not_mem_nil) with ⟨e, hks, hrs⟩ | hall
  · have hfails : ¬ ∀ k ∈ ks, ∃ v, k.over rows = .ok v := by
      intro hall
      obtain ⟨vs, hvs⟩ := aggregatesOver_ok.mpr hall
      cases hks.symm.trans hvs
    refine iff_of_true ?_ fun hall => absurd hall hfails
    cases has : aggregatesOver as rows with
    | error e' => rw [hrs]; rfl
    | ok vs =>
        exact absurd (fun k hk => aggregatesOver_ok.mp ⟨vs, has⟩ k (hsub.subset hk)) hfails
  · have hrs : ∀ r ∈ rs, ∃ v, r.over rows = .ok v :=
      fun r hr => hall r ((h.mem_iff r).mp (.inr hr))
    obtain ⟨vs, hvs⟩ := exists_forall₂ hrs
    have hvalues : aggregatesOver rs rows = .ok vs := mapM_eq_ok.mpr hvs
    have hok : (some vs = (aggregatesOver as rows).toOption) ↔ aggregatesOver as rows = .ok vs := by
      cases aggregatesOver as rows with
      | error e => simp [Except.toOption]
      | ok us => simp [Except.toOption, eq_comm]
    rw [hvalues]
    refine hok.trans ⟨fun has _ => ?_, fun hsame => ?_⟩
    · exact forall₂_comp (fun a v r hav hrv => hav.trans hrv.symm) (mapM_eq_ok.mp has) hvs.flip
    · exact mapM_eq_ok.mpr (forall₂_comp (fun a r v har hrv => har.trans hrv) (hsame hall) hvs)

end Rows

/-! ### Aggregations -/

/-- An `AggregateRelation`, or a `GroupRelation`, with the schema of what it puts out. -/
structure Aggregation where
  source : Relation
  aggregates : List Aggregate
  /-- The `group_list` of a `GroupRelation`. -/
  groupList : Option (List Projector)
  schema : Schema
  fields : schema.fields = aggregates.map Aggregate.outputFieldId ++
    (groupList.getD []).map Projector.aliasFieldId

namespace Aggregation

/-- The keys of the groups; the only group of an `AggregateRelation` has none. -/
def keys (n : Aggregation) : List Projector := n.groupList.getD []

/-- The node, with other aggregates. -/
def node (n : Aggregation) (as : List Aggregate) (schema : Schema) : Relation :=
  match n.groupList with
  | none => .aggregate n.source as schema
  | some ks => .group n.source as ks schema

def relation (n : Aggregation) : Relation := n.node n.aggregates n.schema

/-- Every aggregate relation that has its aggregates as columns. -/
theorem exists_aggregate {named : String → Option Schema} {r : Relation} {as : List Aggregate}
    {s : Schema} (h : (Relation.aggregate r as s).WellFormedNode named) :
    ∃ n : Aggregation, n.relation = .aggregate r as s :=
  ⟨⟨r, as, none, s, by simpa using h.1⟩, rfl⟩

/-- Every group relation that has its aggregates and keys as columns. -/
theorem exists_group {named : String → Option Schema} {r : Relation} {as : List Aggregate}
    {ks : List Projector} {s : Schema} (h : (Relation.group r as ks s).WellFormedNode named) :
    ∃ n : Aggregation, n.relation = .group r as ks s :=
  ⟨⟨r, as, some ks, s, h.1⟩, rfl⟩

theorem rule_relation [DescriptionHash] (n : Aggregation) :
    rule n.relation = deduplicate n.aggregates n.keys n.node n.schema := by
  obtain ⟨r, as, ks, s, h⟩ := n
  cases ks <;> rfl

theorem schema_node (n : Aggregation) (as : List Aggregate) (s : Schema) :
    (n.node as s).schema = s := by
  obtain ⟨r, bs, ks, t, h⟩ := n
  cases ks <;> rfl

/-- What the pass makes of an aggregation: nothing else, where no aggregates are equal, or a
projection over the first of all equal aggregates. The fields that the projection reads are those of
the aggregates that are kept and of the keys. -/
inductive Deduplicated (n : Aggregation) : Relation → Prop
  | unchanged : (∀ a ∈ n.aggregates, IsFirst n.aggregates a) → Deduplicated n n.relation
  | restored {kept : List Aggregate} {ps : List Projector} {inner : Schema} :
      kept.Sublist n.aggregates → (∀ k, k ∈ kept ↔ IsFirst n.aggregates k) →
      inner.fields =
        kept.map Aggregate.outputFieldId ++ n.keys.map Projector.aliasFieldId →
      ps.map Projector.aliasFieldId = n.schema.fields →
      (∀ id, id ∈ Scalar.fieldsAll (ps.map Projector.expr) ↔ id ∈ inner.fields) →
      Deduplicated n (.projection (n.node kept inner) ps n.schema)

theorem Deduplicated.schema_eq {n : Aggregation} {r : Relation} (h : n.Deduplicated r) :
    r.schema = n.schema := by
  cases h with
  | unchanged => exact n.schema_node _ _
  | restored => rfl

/-! ### What an aggregation puts out -/

section Meaning

variable [Platform]

/-- The groups that may be made of the rows of a source; an `AggregateRelation` makes one of all. -/
def MayGroup (n : Aggregation) (s : List Item) (gs : List (List Value × List Row)) : Prop :=
  match n.groupList with
  | none => ∃ rows, collect s = .ok rows ∧ gs = [([], rows)]
  | some ks => ∃ pairs, collect (s.map (attach (keyOf (ks.map Projector.expr)))) = .ok pairs ∧
      gs.Perm (groupRows [] pairs)

/-- Failing before there are groups. -/
def Fails (n : Aggregation) (s : List Item) (e : Fault) : Prop :=
  match n.groupList with
  | none => collect s = .error e
  | some ks => collect (s.map (attach (keyOf (ks.map Projector.expr)))) = .error e

/-- What the relations of this module put out for groups. -/
def answerOf : Relation → List (List Value × List Row) → List Item
  | .aggregate _ as _, gs => gs.map (groupRow as [])
  | .group _ as ks _, gs => gs.map (groupRow as ks)
  | .projection r ps _, gs => expand (fun row => [projectRow ps row]) (answerOf r gs)
  | _, _ => []

theorem answerOf_node (n : Aggregation) (as : List Aggregate) (schema : Schema)
    (gs : List (List Value × List Row)) :
    answerOf (n.node as schema) gs = gs.map (groupRow as n.keys) := by
  obtain ⟨r, bs, ks, t, h⟩ := n
  cases ks <;> rfl

/-- The answer to the groups of a sequence that the source may put out. -/
def PutsOut (n : Aggregation) (env : Env) (r : Relation) (u : List Item) : Prop :=
  ∃ s, Emits env n.source s ∧
    ((∃ gs, n.MayGroup s gs ∧ u = answerOf r gs) ∨ ∃ e, n.Fails s e ∧ u = [.error e])

theorem emits_node {n : Aggregation} {env : Env} {as : List Aggregate} {schema : Schema}
    {u : List Item} : Emits env (n.node as schema) u ↔ n.PutsOut env (n.node as schema) u := by
  obtain ⟨r, bs, ks, t, h⟩ := n
  cases ks with
  | none =>
      refine (emits_one rfl).trans (exists_congr fun s => and_congr_right fun _ => ?_)
      show u = whenCollected s _ ↔ (∃ gs, (∃ rows, collect s = .ok rows ∧ _) ∧ _) ∨
        ∃ e, collect s = .error e ∧ _
      unfold whenCollected
      cases collect s with
      | error e => simp
      | ok rows =>
          have hrow : groupRow as [] ([], rows) = (do
              let vs ← aggregatesOver as rows
              pure (.ofValues (as.map Aggregate.outputFieldId) vs)) := by
            simp [groupRow]
          simp [answerOf, node, hrow]
  | some ks =>
      refine (emits_one rfl).trans (exists_congr fun s => and_congr_right fun _ => ?_)
      show Groups as ks s u ↔ _
      constructor
      · intro h
        cases h with
        | fault hc => exact .inr ⟨_, hc, rfl⟩
        | groups hc hperm => exact .inl ⟨_, ⟨_, hc, hperm⟩, rfl⟩
      · intro h
        rcases h with ⟨gs, ⟨pairs, hc, hperm⟩, rfl⟩ | ⟨e, hc, rfl⟩
        · exact .groups hc hperm
        · exact .fault hc

theorem Deduplicated.emits_iff {n : Aggregation} {r : Relation} (h : n.Deduplicated r) {env : Env}
    {u : List Item} : Emits env r u ↔ n.PutsOut env r u := by
  cases h with
  | unchanged => exact emits_node
  | @restored kept ps inner =>
      rw [emits_projection]
      constructor
      · intro h
        obtain ⟨w, hw, rfl⟩ := h
        obtain ⟨s, hs, ⟨gs, hgs, rfl⟩ | ⟨e, he, rfl⟩⟩ := emits_node.mp hw
        · exact ⟨s, hs, .inl ⟨gs, hgs, rfl⟩⟩
        · exact ⟨s, hs, .inr ⟨e, he, rfl⟩⟩
      · intro h
        obtain ⟨s, hs, ⟨gs, hgs, rfl⟩ | ⟨e, he, rfl⟩⟩ := h
        · exact ⟨_, emits_node.mpr ⟨s, hs, .inl ⟨gs, hgs, rfl⟩⟩, rfl⟩
        · exact ⟨_, emits_node.mpr ⟨s, hs, .inr ⟨e, he, rfl⟩⟩, rfl⟩

omit [Platform] in
/-- A group has the key of a row. -/
theorem mem_groupRows {pairs : List (Row × List Value)} {gs : List (List Value × List Row)}
    {P : List Value → Prop} (hgs : ∀ g ∈ gs, P g.1) (hpairs : ∀ p ∈ pairs, P p.2) :
    ∀ g ∈ groupRows gs pairs, P g.1 := by
  have hinsert : ∀ {key : List Value} {row : Row} {gs : List (List Value × List Row)}, P key →
      (∀ g ∈ gs, P g.1) → ∀ g ∈ insertRow key row gs, P g.1 := by
    intro key row gs hkey
    induction gs with
    | nil =>
        intro _ g hg
        rw [List.mem_singleton.mp hg]
        exact hkey
    | cons g gs ih =>
        intro hgs
        rw [List.forall_mem_cons] at hgs
        rw [insertRow]
        split
        · exact List.forall_mem_cons.mpr ⟨hgs.1, hgs.2⟩
        · exact List.forall_mem_cons.mpr ⟨hgs.1, ih hgs.2⟩
  induction pairs generalizing gs with
  | nil => exact hgs
  | cons p pairs ih =>
      rw [List.forall_mem_cons] at hpairs
      exact ih (hinsert hpairs.1 hgs) hpairs.2

/-- Every group has a value for each key. -/
theorem MayGroup.keys_length {n : Aggregation} {s : List Item}
    {gs : List (List Value × List Row)} (h : n.MayGroup s gs) :
    ∀ g ∈ gs, g.1.length = n.keys.length := by
  obtain ⟨r, bs, ks, t, ht⟩ := n
  cases ks with
  | none =>
      obtain ⟨rows, -, rfl⟩ := h
      intro g hg
      rw [List.mem_singleton.mp hg]
      rfl
  | some ks =>
      obtain ⟨pairs, hc, hperm⟩ := h
      have hkeys := (map_attach.mp (Flow.collect_eq_ok hc)).2
      have hlength : ∀ p ∈ pairs, p.2.length = ks.length := by
        intro p hp
        rw [← (Scalar.evalAll_ok.mp (hkeys p hp)).length_eq, List.length_map]
      intro g hg
      exact mem_groupRows (P := fun key => key.length = ks.length) (by simp) hlength g
        (hperm.subset hg)

/-! ### The pass on an aggregation -/

/-- The same rows for the same groups in the same order, or a failure in the place of a failure. -/
def SameAnswers (n : Aggregation) (r : Relation) (s : List Item) : Prop :=
  ∀ gs, n.MayGroup s gs →
    (answerOf r gs).map Except.toOption = (answerOf n.relation gs).map Except.toOption

theorem answerOf_relation (n : Aggregation) (gs : List (List Value × List Row)) :
    answerOf n.relation gs = gs.map (rowThrough n.schema.fields n.aggregates) := by
  rw [relation, answerOf_node, n.fields]
  rfl

variable [DescriptionHash]

omit [Platform] in
/-- What one application of the rule does. -/
theorem rule_spec (n : Aggregation) (b : Bool) : ∃ r' b' ks rs,
    rule n.relation b = .ok (r', b') ∧ Merged [] n.aggregates ks rs ∧ n.Deduplicated r' ∧
      ∀ (_ : Platform) (gs : List (List Value × List Row)),
        (∀ g ∈ gs, g.1.length = n.keys.length) →
          answerOf r' gs = gs.map (rowThrough n.schema.fields rs) := by
  obtain ⟨ks, rs, hm, hl⟩ := visitAggregates_merged n.aggregates [] []
  change visitAggregates ⟨[], [], []⟩ n.aggregates = _ at hl
  have hunchanged : ks.length = n.aggregates.length → ks = n.aggregates ∧
      n.Deduplicated n.relation ∧ ∀ (_ : Platform) (gs : List (List Value × List Row)),
        answerOf n.relation gs = gs.map (rowThrough n.schema.fields rs) := by
    intro hlength
    obtain ⟨hrs, hks⟩ := hm.eq_of_all_kept (by rw [hlength, List.length_nil, Nat.zero_add])
    rw [List.nil_append] at hks
    refine ⟨hks, .unchanged fun a ha => (hm.mem_iff_isFirst a).mp (hks ▸ ha), fun _ gs => ?_⟩
    rw [hrs, answerOf_relation]
  obtain ⟨new, hnew, hsub⟩ := hm.new
  rw [List.nil_append] at hnew
  subst hnew
  rw [rule_relation, deduplicate]
  split
  next hsmall =>
    have hlength : ks.length = n.aggregates.length := by
      generalize n.aggregates = as at hm hsmall
      cases hm with
      | nil => rfl
      | merged hfind _ => cases hfind
      | fresh _ hrest =>
          cases hrest with
          | nil => rfl
          | fresh | merged => exact absurd hsmall (by simp)
    obtain ⟨-, hd, hanswer⟩ := hunchanged hlength
    exact ⟨n.relation, b, ks, rs, rfl, hm, hd, fun platform gs _ => hanswer platform gs⟩
  next =>
    rw [hl]
    dsimp only
    split
    next hremoved =>
      have hlength : ks.length = n.aggregates.length :=
        Nat.le_antisymm hsub.length_le (Nat.sub_eq_zero_iff_le.mp hremoved)
      obtain ⟨hks, hd, hanswer⟩ := hunchanged hlength
      refine ⟨n.relation, b, ks, rs, ?_, hm, hd, fun platform gs _ => hanswer platform gs⟩
      rw [hks]
      rfl
    next =>
      have hnodup : (ks.map Aggregate.outputFieldId ++
          n.keys.map Projector.aliasFieldId).Nodup :=
        (n.fields ▸ n.schema.nodup).sublist ((hsub.map _).append (List.Sublist.refl _))
      obtain ⟨hownNodup, hkeysNodup, -⟩ := List.nodup_append.mp hnodup
      obtain ⟨own, hown⟩ := exists_schemaFor hownNodup
      obtain ⟨keys, hkeys⟩ := exists_schemaFor hkeysNodup
      obtain ⟨inner, hinner⟩ : ∃ inner, own.concat keys = .ok inner := by
        refine Schema.appendAll_ok_iff.mpr ?_
        rwa [schemaFor_fields hown, schemaFor_fields hkeys]
      have hfields : inner.fields =
          ks.map Aggregate.outputFieldId ++ n.keys.map Projector.aliasFieldId := by
        rw [Schema.appendAll_eq_ok.mp hinner, schemaFor_fields hown, schemaFor_fields hkeys]
      refine ⟨.projection (n.node ks inner) (restoredAll n.aggregates rs ++ restoredKeys n.keys)
        n.schema, true, ks, rs, ?_, hm, .restored hsub hm.mem_iff_isFirst hfields ?_ ?_, ?_⟩
      · exact Pass.bind_ok.mpr ⟨own, b, Pass.lift_ok.mpr ⟨hown, rfl⟩,
          Pass.bind_ok.mpr ⟨keys, b, Pass.lift_ok.mpr ⟨hkeys, rfl⟩,
            Pass.bind_ok.mpr ⟨inner, b, Pass.lift_ok.mpr ⟨hinner, rfl⟩, rfl⟩⟩⟩
      · exact (restored_names hm.length_eq n.keys).trans n.fields.symm
      · intro id
        rw [hfields, restored_reads hm.length_eq]
        have hmem : ∀ r, r ∈ rs ↔ r ∈ ks := by
          intro r
          rw [← hm.mem_iff r]
          exact (or_iff_right List.not_mem_nil).symm
        simp only [List.mem_append, List.mem_map, hmem]
      · intro platform gs hgs
        show expand _ (answerOf (n.node ks inner) gs) = _
        rw [answerOf_node, Flow.expand_single, List.map_map]
        refine List.map_congr_left fun g hg => ?_
        rw [n.fields]
        exact projectRow_restored hm hnodup (hgs g hg)

omit [DescriptionHash] in
/-- Where the answers are those of the aggregates that stand for the others. -/
theorem sameAnswers_iff {n : Aggregation} {r' : Relation} {ks rs : List Aggregate}
    (hm : Merged [] n.aggregates ks rs) {s : List Item}
    (hanswer : ∀ gs : List (List Value × List Row), (∀ g ∈ gs, g.1.length = n.keys.length) →
      answerOf r' gs = gs.map (rowThrough n.schema.fields rs)) :
    n.SameAnswers r' s ↔
      ∀ gs, n.MayGroup s gs → ∀ g ∈ gs, AgreeOnDuplicates n.aggregates g.2 := by
  refine forall_congr' fun gs => forall_congr' fun hgs => ?_
  have hkeys := hgs.keys_length
  rw [hanswer gs hkeys, answerOf_relation, List.map_map, List.map_map, List.map_inj_left]
  refine forall_congr' fun g => forall_congr' fun hg => ?_
  have hids : n.schema.fields.length = n.aggregates.length + g.1.length := by
    rw [n.fields, List.length_append, List.length_map, List.length_map, hkeys g hg]
    rfl
  exact (rowThrough_inj hm.length_eq n.schema.nodup hids).trans (hm.agree_iff g.2)

/-- **`aggregateDeduplicate` keeps the first of equal aggregates and hands its field on.** The pass
completes on every aggregation; the schema stays, the restoring projection reads the fields of the
kept aggregates and of the keys; the answers to a sequence of the source stay if and only if equal
aggregates agree over the rows of every group. -/
theorem deduplicate_iff (n : Aggregation) (b : Bool) : ∃ r' b', rule n.relation b = .ok (r', b') ∧
    r'.schema = n.relation.schema ∧ n.Deduplicated r' ∧
      (∀ r ∈ [n.relation, r'], ∀ env u, Emits env r u ↔ n.PutsOut env r u) ∧
        ∀ s, n.SameAnswers r' s ↔
          ∀ gs, n.MayGroup s gs → ∀ g ∈ gs, AgreeOnDuplicates n.aggregates g.2 := by
  obtain ⟨r', b', ks, rs, hrule, hm, hd, hanswer⟩ := n.rule_spec b
  have hschema : n.relation.schema = n.schema := n.schema_node _ _
  refine ⟨r', b', hrule, hd.schema_eq.trans hschema.symm, hd, fun r hr env u => ?_,
    fun s => sameAnswers_iff hm (hanswer _)⟩
  rcases List.mem_pair.mp hr with rfl | rfl
  · exact emits_node
  · exact hd.emits_iff

end Meaning

end Aggregation

/-! ### Programs -/

section Programs

variable [Platform]

/-- Equal aggregates that are computed alike agree. -/
theorem agreeOnDuplicates_of_node {as : List Aggregate}
    (h : ∀ a ∈ as, ∀ b ∈ as, duplicates a b = true → a.node = b.node) (rows : List Row) :
    AgreeOnDuplicates as rows := by
  intro _ a ha k hk hka
  have hk : k ∈ as := by
    obtain ⟨before, after, rfl, -⟩ := hk
    exact List.mem_append_right _ List.mem_cons_self
  rw [Aggregate.over, Aggregate.over, h k hk a ha hka]

/-- The aggregates of a node agree over all rows. -/
def NodeAgrees : Relation → Prop
  | .aggregate _ as _ => ∀ rows, AgreeOnDuplicates as rows
  | .group _ as _ _ => ∀ rows, AgreeOnDuplicates as rows
  | _ => True

theorem nodeAgrees_withSources (r : Relation) (qs : List Relation) :
    NodeAgrees (r.withSources qs) ↔ NodeAgrees r := by
  unfold Relation.withSources
  split <;> exact .rfl

omit [Platform] in
theorem approx_of_toOption {schema : Schema} {u u' : List Item}
    (h : u'.map Except.toOption = u.map Except.toOption) :
    Flow.Approx (AgreeOn schema) u u' := by
  induction u generalizing u' with
  | nil =>
      cases u' with
      | nil => exact .nil
      | cons x u' => cases h
  | cons x u ih =>
      cases u' with
      | nil => cases h
      | cons x' u' =>
          rw [List.map_cons, List.map_cons, List.cons.injEq] at h
          cases x with
          | error e => exact .fault
          | ok row =>
              cases x' with
              | error e => cases h.1
              | ok row' =>
                  cases h.1
                  exact .ok (AgreeOn.refl _ _) (ih h.2)

namespace Aggregation

theorem nodeAgrees_iff (n : Aggregation) :
    NodeAgrees n.relation ↔ ∀ rows, AgreeOnDuplicates n.aggregates rows := by
  obtain ⟨r, as, ks, s, h⟩ := n
  cases ks <;> exact Iff.rfl

omit [Platform] in
theorem args_wellFormed {n : Aggregation} {named : String → Option Schema}
    (h : n.relation.WellFormed named) {kept : List Aggregate} {inner : Schema}
    (hsub : kept.Sublist n.aggregates) (hinner : inner.fields =
      kept.map Aggregate.outputFieldId ++ n.keys.map Projector.aliasFieldId) :
    (n.node kept inner).WellFormed named := by
  obtain ⟨r, as, ks, s, hs⟩ := n
  cases ks with
  | none =>
      obtain ⟨-, hargs⟩ := h.here
      refine .node ⟨hinner.trans (List.append_nil _), fun a ha => hargs a (hsub.subset ha)⟩ ?_
      exact fun q hq => h.source hq
  | some ks =>
      obtain ⟨-, hargs, hkeys⟩ := h.here
      refine .node ⟨hinner, fun a ha => hargs a (hsub.subset ha), hkeys⟩ ?_
      exact fun q hq => h.source hq

omit [Platform] in
theorem exposed_node (n : Aggregation) (as : List Aggregate) (s : Schema) :
    (n.node as s).exposed = s.fields := by
  obtain ⟨r, bs, ks, t, h⟩ := n
  cases ks <;> simp [node, Relation.exposed, Relation.schema]

omit [Platform] in
theorem Deduplicated.wellFormed {n : Aggregation} {r' : Relation} (hd : n.Deduplicated r')
    {named : String → Option Schema} (h : n.relation.WellFormed named) :
    r'.WellFormed named := by
  cases hd with
  | unchanged => exact h
  | restored hsub _ hinner hnames hreads =>
      refine .node ⟨hnames.symm, fun p hp id hid => ?_⟩ fun q hq => ?_
      · rw [schema_node, ← hreads]
        exact Scalar.mem_fieldsAll.mpr ⟨p.expr, List.mem_map_of_mem hp, hid⟩
      · rw [List.mem_singleton.mp hq]
        exact args_wellFormed h hsub hinner

omit [Platform] in
theorem Deduplicated.exposed {n : Aggregation} {r' : Relation} (hd : n.Deduplicated r') :
    r'.exposed ⊆ n.relation.exposed := by
  cases hd with
  | unchanged => exact List.Subset.refl _
  | restored hsub _ hinner =>
      rw [Relation.exposed_projection, relation, exposed_node, exposed_node]
      refine List.append_subset.mpr ⟨List.Subset.refl _, ?_⟩
      split
      · rw [hinner, n.fields]
        exact Relation.append_subset_append (List.map_subset _ hsub.subset) (List.Subset.refl _)
      · exact List.nil_subset _

theorem rule_rewrites [DescriptionHash] {n : Aggregation} {named : String → Option Schema}
    (h : n.relation.WellFormed named) (hagree : ∀ rows, AgreeOnDuplicates n.aggregates rows)
    (b : Bool) : ∃ r' b', rule n.relation b = .ok (r', b') ∧ Rewrites named n.relation r' := by
  obtain ⟨r', b', ks, rs, hrule, hm, hd, hanswer⟩ := n.rule_spec b
  refine ⟨r', b', hrule, .of_refines h (hd.wellFormed h) fun env _ => ⟨?_, hd.exposed, ?_⟩⟩
  · rw [hd.schema_eq, relation, schema_node]
    exact List.Subset.refl _
  · intro u' hu'
    obtain ⟨s, hs, ⟨gs, hgs, rfl⟩ | ⟨e, he, rfl⟩⟩ := hd.emits_iff.mp hu'
    · have hsame : n.SameAnswers r' s :=
        (sameAnswers_iff hm (hanswer _)).mpr fun _ _ g _ => hagree g.2
      exact ⟨answerOf n.relation gs, emits_node.mpr ⟨s, hs, .inl ⟨gs, hgs, rfl⟩⟩,
        approx_of_toOption (hsame gs hgs)⟩
    · exact ⟨[.error e], emits_node.mpr ⟨s, hs, .inr ⟨e, he, rfl⟩⟩, .fault⟩

end Aggregation

/-- **The pass over a program** whose equal aggregates agree: the queries put out the same rows. -/
theorem aggregateDeduplicate_sameRows [DescriptionHash] {program : Program}
    (h : program.WellFormed)
    (hagree : ∀ s ∈ program.statements, (relationOf s).Everywhere NodeAgrees) (b : Bool) :
    ∃ program' b', aggregateDeduplicate program b = .ok (program', b') ∧ program'.WellFormed ∧
      ∀ data, List.Forall₂ SameRows (program.queries data) (program'.queries data) := by
  refine visitProgram_rewrites (fun named r hr hC => ?_) h hagree b
  refine visit_rewrites (fun r qs => (nodeAgrees_withSources r qs).mpr) (fun r hr hP b => ?_) hr hC
  cases r with
  | aggregate q as s =>
      obtain ⟨n, hn⟩ := Aggregation.exists_aggregate hr.here
      rw [← hn] at hr hP ⊢
      exact Aggregation.rule_rewrites hr (n.nodeAgrees_iff.mp hP) b
  | group q as ks s =>
      obtain ⟨n, hn⟩ := Aggregation.exists_group hr.here
      rw [← hn] at hr hP ⊢
      exact Aggregation.rule_rewrites hr (n.nodeAgrees_iff.mp hP) b
  | _ => exact ⟨_, b, rfl, .refl hr⟩

end Programs

/-! ### Signed zeros -/

/-- `-0.0`. -/
def minusZero : Float32Bits := ⟨0x80000000⟩

/-- The platform on zeros: only the sum of two that have a sign has one. -/
@[reducible] def zeroSums : Platform :=
  { zeroTexts with floatAdd := fun x y => if x.sign && y.sign then minusZero else .zero }

/-- `MIN(String(x + zero))`. -/
def minText (zero : Float32Bits) (id : FieldId) : Aggregate where
  node := .fnCall (.min .string) [.fnCall (.cast .string)
    [.fnCall (.add .floating) [.field 1 .floating, .value (.floating zero) .floating] .floating]
    .string]
  outputFieldId := id
  valueType := .string

theorem signedZeros_nodup : ([2, 3] : List FieldId).Nodup := by decide

/-- `SELECT MIN(String(x + 0.0)), MIN(String(x + -0.0))` over a column with one `-0.0`. -/
def signedZeros : Aggregation where
  source := .values [.floating minusZero] 1 (.withField 1)
  aggregates := [minText .zero 2, minText minusZero 3]
  groupList := none
  schema := ⟨[2, 3], signedZeros_nodup⟩
  fields := rfl

/-- The text of the first sum is put out for both. -/
theorem not_sameAnswers_signedZeros :
    ∃ r' b', @rule .constant signedZeros.relation false = .ok (r', b') ∧
      ¬ @Aggregation.SameAnswers zeroSums signedZeros r'
        [.ok (.ofValues [1] [.floating minusZero])] := by
  obtain ⟨r', b', ks, rs, hrule, hm, -, hanswer⟩ :=
    @Aggregation.rule_spec .constant signedZeros false
  have hdup : duplicates (minText minusZero 3) (minText .zero 2) = true := rfl
  have hrs : rs = [minText .zero 2, minText .zero 2] := by
    cases hm with
    | merged hfind _ => cases hfind
    | fresh _ hrest =>
        cases hrest with
        | fresh hfind _ =>
            exact absurd hdup (List.find?_eq_none.mp hfind _ List.mem_cons_self)
        | merged hfind hrest =>
            cases hrest
            rw [List.nil_append, List.find?_cons_of_pos hdup] at hfind
            cases hfind
            rfl
  refine ⟨r', b', hrule, fun h => ?_⟩
  have hsame := h [([], [.ofValues [1] [.floating minusZero]])] ⟨_, rfl, rfl⟩
  rw [hanswer zeroSums _ (by simp [Aggregation.keys, signedZeros]), hrs] at hsame
  have htexts := congrArg (fun u => (u.head?.bind id).map fun row => row 3) hsame
  change some (Value.string (Bytes.ofString "0.000000")) =
    some (Value.string (Bytes.ofString "-0.000000")) at htexts
  revert htexts
  decide

end Lsql.Opt.AggregateDeduplicate
