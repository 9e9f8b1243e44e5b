import Lsql.Flow.Select
import Lsql.Opt.FilterSplit
import Lsql.Opt.Traversal

/-!
# Lsql.Opt.FilterPushdown

The pass that moves filters towards the sources (`optimize/filter_pushdown.cpp`).

A filter goes below a union, a sorted merge and a sort as it is. Below a projection and into the left
side of a left join goes the part of its condition that reads handed-on fields, or fields of the left
side; the filter stays with the rest, if there is any.

A condition may leave a part undecided that is null behind a false conjunct. On its own that part fails
for the row: the rows are kept where every part that is moved is true or false (`PushesDecided`).
-/

namespace Lsql.Opt.FilterPushdown

open Ir
open Flow (Approx Interleave Shuffle SortedMerge collect expand)

/-! ### The pass -/

/-- The fields that a projection hands on, each with the field that it is in the source. -/
def forwardedFields (projectors : List Projector) : List (FieldId × FieldId) :=
  projectors.filterMap fun p =>
    match p.expr with
    | .field id _ => some (p.aliasFieldId, id)
    | _ => none

/-- A filter with the rest of its condition, or no filter (`removeFilter`). -/
def keepFilter (remaining : Option Scalar) (source : Relation) (schema : Schema) : Relation :=
  match remaining with
  | some condition => .filter source condition schema
  | none => source

mutual

/-- `Optimizer::pushdown`, on a filter with this condition, schema and source. With the source's own
schema it is `addFilter`. -/
def pushdown (condition : Scalar) (schema : Schema) : Relation → Pass Relation
  | .unionAll sources s => do
    let sources ← addFilterAll condition sources
    Pass.setChanges
    pure (.unionAll sources s)
  | .unionAllSortedBy left right orderList desc s => do
    let left ← pushdown condition left.schema left
    let right ← pushdown condition right.schema right
    Pass.setChanges
    pure (.unionAllSortedBy left right orderList desc s)
  | .projection source projectors s => do
    let fields ← Schema.empty.appendAll ((forwardedFields projectors).map Prod.fst)
    let split ← splitCondition fields condition
    match split.pushable with
    | none => pure (.filter (.projection source projectors s) condition schema)
    | some pushable => do
      let pushable ← rebind (forwardedFields projectors) pushable
      let source ← pushdown pushable source.schema source
      Pass.setChanges
      pure (keepFilter split.remaining (.projection source projectors s) schema)
  | .leftJoin left right leftKey rightKey s => do
    let split ← splitCondition left.schema condition
    match split.pushable with
    | none => pure (.filter (.leftJoin left right leftKey rightKey s) condition schema)
    | some pushable => do
      let left ← pushdown pushable left.schema left
      Pass.setChanges
      pure (keepFilter split.remaining (.leftJoin left right leftKey rightKey s) schema)
  | .sort source orderList desc s => do
    let source ← pushdown condition source.schema source
    Pass.setChanges
    pure (.sort source orderList desc s)
  | source => pure (.filter source condition schema)

/-- `addFilter` on the sources of a union. -/
def addFilterAll (condition : Scalar) : List Relation → Pass (List Relation)
  | [] => pure []
  | source :: sources => do
    let source ← pushdown condition source.schema source
    let sources ← addFilterAll condition sources
    pure (source :: sources)

end

/-- `Optimizer::visit`, behind the traversal. -/
def rule : Relation → Pass Relation
  | .filter source condition schema => pushdown condition schema source
  | rel => pure rel

/-- `filterPushdown`. -/
def filterPushdown (program : Program) : Pass Program := visitProgram rule program

/-! ### What is asked of data and conditions -/

/-- Every condition of a filter can be taken apart. -/
def BinaryNode : Relation → Prop
  | .filter _ condition _ => AndsBinary condition
  | _ => True

section Conditions

variable [Platform]

/-- A relation puts out no failure. -/
def Clean (env : Env) (r : Relation) : Prop := ∀ u, Emits env r u → ∀ x ∈ u, ∃ row, x = .ok row

/-- A condition is true or false on every row of a relation. -/
def Decides (env : Env) (condition : Scalar) (r : Relation) : Prop :=
  ∀ u, Emits env r u → ∀ row, .ok row ∈ u → ∃ b, condition.test row = .ok b

mutual

/-- Whenever a part of a condition is moved to an input of its own, it is true or false on every row
there. -/
def PushesDecided (env : Env) (condition : Scalar) : Relation → Prop
  | .unionAll sources _ => PushesDecidedAll env condition sources
  | .unionAllSortedBy left right _ _ _ =>
    PushesDecided env condition left ∧ PushesDecided env condition right
  | .projection source projectors _ => ∀ fields split pushable renamed,
    Schema.empty.appendAll ((forwardedFields projectors).map Prod.fst) = .ok fields →
    splitCondition fields condition = .ok split → split.pushable = some pushable →
    rebind (forwardedFields projectors) pushable = .ok renamed →
    Decides env renamed source ∧ PushesDecided env renamed source
  | .leftJoin left _ _ _ _ => ∀ split pushable,
    splitCondition left.schema condition = .ok split → split.pushable = some pushable →
    Decides env pushable left ∧ PushesDecided env pushable left
  | .sort source _ _ _ => PushesDecided env condition source
  | _ => True

def PushesDecidedAll (env : Env) (condition : Scalar) : List Relation → Prop
  | [] => True
  | source :: sources => PushesDecided env condition source ∧ PushesDecidedAll env condition sources

end

end Conditions

/-! ### Relations that replace others -/

variable [Platform] {named : String → Option Schema} {env env' : Env}

theorem Clean.refines {r r' : Relation} (h : Clean env r) (hr : Refines env env' r r') :
    Clean env' r' := by
  intro u' hu' x hx
  obtain ⟨u, hu, happ⟩ := hr.emits u' hu'
  obtain ⟨a, b, -, rfl, -⟩ := happ.all_ok (h u hu) x hx
  exact ⟨b, rfl⟩

/-- A relation in the place of another one, and what it takes to go on with it. -/
structure Replaces (named : String → Option Schema) (env env' : Env) (old new : Relation) : Prop where
  wellFormed : new.WellFormed named
  refines : Refines env env' old new
  clean : new.Everywhere (Clean env')
  binary : new.Everywhere BinaryNode

theorem Replaces.trans {r r' r'' : Relation} (h : Replaces named env env' r r')
    (h' : Replaces named env' env' r' r'') : Replaces named env env' r r'' :=
  ⟨h'.wellFormed, h.refines.trans h'.refines, h'.clean, h'.binary⟩

omit [Platform] in
theorem binaryNode_withSources {r : Relation} (qs : List Relation) :
    BinaryNode (r.withSources qs) ↔ BinaryNode r := by
  unfold Relation.withSources
  split <;> exact Iff.rfl

/-- An operator in the place of a relation, with sources that have been replaced. -/
theorem Replaces.withSources {old r : Relation} {qs : List Relation} (hclean : Clean env old)
    (henv : env.Refines named env') (hr : r.WellFormed named) (hbinary : BinaryNode r)
    (hrefines : Refines env env old r)
    (hqs : List.Forall₂ (Replaces named env env') r.sources qs) :
    Replaces named env env' old (r.withSources qs) := by
  have hnode : Refines env env' r (r.withSources qs) :=
    .node henv hr.here (hqs.imp fun q q' hq => hq.refines)
  have hrefines := hrefines.trans hnode
  have hsources := Relation.sources_withSources hqs.length_eq.symm
  have hsource : ∀ q' ∈ (r.withSources qs).sources, ∃ q, Replaces named env env' q q' := by
    intro q' hq'
    rw [hsources] at hq'
    obtain ⟨q, -, hq⟩ := forall₂_mem_right hqs hq'
    exact ⟨q, hq⟩
  refine ⟨.node ?_ fun q' hq' => ?_, hrefines, .node (hclean.refines hrefines) fun q' hq' => ?_,
    .node ((binaryNode_withSources qs).mpr hbinary) fun q' hq' => ?_⟩
  · exact hr.here.withSources (hqs.imp fun q q' hq => ⟨hq.refines.schema, hq.refines.exposed⟩)
  · obtain ⟨q, hq⟩ := hsource q' hq'
    exact hq.wellFormed
  · obtain ⟨q, hq⟩ := hsource q' hq'
    exact hq.clean
  · obtain ⟨q, hq⟩ := hsource q' hq'
    exact hq.binary

/-! ### Filters on sequences -/

section Sequences

/-- What a filter makes of an item. -/
def filterItem (condition : Scalar) (x : Item) : Option Item :=
  match x with
  | .ok row =>
    match condition.test row with
    | .ok true => some (.ok row)
    | .ok false => none
    | .error e => some (.error e)
  | .error e => some (.error e)

theorem expand_filterRow (c : Scalar) (s : List Item) :
    expand (filterRow c) s = s.filterMap (filterItem c) := by
  induction s with
  | nil => rfl
  | cons x s ih =>
      cases x with
      | error e =>
          rw [Flow.expand_error, ih]
          rfl
      | ok row =>
          rw [Flow.expand_ok, ih, filterRow]
          rcases hc : c.test row with e | b
          · rw [List.filterMap_cons_some (by rw [filterItem, hc])]
            rfl
          · cases b with
            | true =>
                rw [List.filterMap_cons_some (by rw [filterItem, hc])]
                rfl
            | false =>
                rw [List.filterMap_cons_none (by rw [filterItem, hc])]
                rfl

/-- The truth of a condition that has one. -/
def holds (c : Scalar) (row : Row) : Bool :=
  match c.test row with
  | .ok b => b
  | .error _ => false

theorem filterRow_decided {c : Scalar} {row : Row} (h : ∃ b, c.test row = .ok b) :
    filterRow c row = if holds c row then [.ok row] else [] := by
  obtain ⟨b, hb⟩ := h
  rw [filterRow, holds, hb]
  cases b <;> rfl

/-- Rows on which a condition is true or false. -/
theorem expand_decided {c : Scalar} {rows : List Row} (h : ∀ row ∈ rows, ∃ b, c.test row = .ok b) :
    expand (filterRow c) (rows.map .ok) = (rows.filter (holds c)).map .ok := by
  induction rows with
  | nil => rfl
  | cons row rows ih =>
      rw [List.map_cons, Flow.expand_ok, filterRow_decided (h row List.mem_cons_self),
        ih fun r hr => h r (List.mem_cons_of_mem _ hr), List.filter_cons]
      split <;> rfl

end Sequences

/-! ### Filters below unions -/

section Unions

variable {c : Scalar} {s t : Schema} {rs : List Relation}

/-- The filter that `addFilter` puts on a relation. -/
def filtered (c : Scalar) (r : Relation) : Relation := .filter r c r.schema

omit [Platform] in
theorem filtered_wellFormed {r : Relation} (h : r.WellFormed named) (hc : c.ReadsIn r.schema) :
    (filtered c r).WellFormed named := by
  refine .node ⟨List.Subset.refl _, hc⟩ fun q hq => ?_
  rw [List.mem_singleton.mp hq]
  exact h

omit [Platform] in
theorem exposed_filtered (c : Scalar) (r : Relation) :
    (filtered c r).exposed = r.schema.fields ++ r.exposed := Relation.exposed_filter

omit [Platform] in
theorem filtered_exposed (c : Scalar) (r : Relation) : (filtered c r).exposed ⊆ r.exposed := by
  rw [exposed_filtered]
  intro id hid
  rcases List.mem_append.mp hid with hid | hid
  · exact Relation.mem_exposed_of_schema hid
  · exact hid

omit [Platform] in
theorem union_filter_wellFormed
    (h : (Relation.filter (.unionAll rs t) c s).WellFormed named) :
    (Relation.unionAll (rs.map (filtered c)) t).WellFormed named := by
  have hunion := h.source List.mem_cons_self
  have hreads : ∀ r ∈ rs, c.ReadsIn r.schema := fun r hr => h.here.2.mono (hunion.here.2 r hr)
  refine .node ⟨fun hnil => hunion.here.1 (List.map_eq_nil_iff.mp hnil), fun q hq => ?_⟩
    fun q hq => ?_
  · obtain ⟨r, hr, rfl⟩ := List.mem_map.mp hq
    exact hunion.here.2 r hr
  · obtain ⟨r, hr, rfl⟩ := List.mem_map.mp hq
    exact filtered_wellFormed (hunion.source hr) (hreads r hr)

theorem emits_filtered {ss' : List (List Item)}
    (h : List.Forall₂ (Emits env) (rs.map (filtered c)) ss') :
    ∃ ss, List.Forall₂ (Emits env) rs ss ∧
      ss' = ss.map fun s => s.filterMap (filterItem c) := by
  induction rs generalizing ss' with
  | nil =>
      cases h
      exact ⟨[], .nil, rfl⟩
  | cons r rs ih =>
      cases h with
      | cons hs hrest =>
          obtain ⟨v, hv, rfl⟩ := emits_filter.mp hs
          obtain ⟨ss, hss, rfl⟩ := ih hrest
          refine ⟨v :: ss, .cons hv hss, ?_⟩
          rw [List.map_cons, expand_filterRow]

/-- A filter on a union, and filters on its inputs. -/
theorem refines_union (h : (Relation.filter (.unionAll rs t) c s).WellFormed named) :
    Refines env env (.filter (.unionAll rs t) c s) (.unionAll (rs.map (filtered c)) t) where
  schema := h.here.1
  exposed := by
    rw [Relation.exposed, Relation.exposed, Relation.exposed]
    refine fun id hid => List.mem_append_right _ ?_
    rcases List.mem_append.mp hid with hid | hid
    · exact List.mem_append_left _ hid
    · obtain ⟨q, hq, hid⟩ := Relation.mem_exposedAll.mp hid
      obtain ⟨r, hr, rfl⟩ := List.mem_map.mp hq
      exact List.mem_append_right _ (Relation.mem_exposedAll.mpr ⟨r, hr, filtered_exposed c r hid⟩)
  emits u' hu' := by
    obtain ⟨ss', hss', hshuffle⟩ := emits_unionAll.mp hu'
    obtain ⟨ss, hss, rfl⟩ := emits_filtered hss'
    obtain ⟨m, hm, rfl⟩ := hshuffle.unselect
    refine ⟨_, emits_filter.mpr ⟨m, emits_unionAll.mpr ⟨ss, hss, hm⟩, rfl⟩, ?_⟩
    rw [expand_filterRow]
    exact .refl (AgreeOn.refl s) _

/-- Every row of an input is one of the union. -/
theorem Decides.union (htotal : env.Total named) (h : (Relation.unionAll rs t).WellFormed named)
    (hc : Decides env c (.unionAll rs t)) {r : Relation} (hr : r ∈ rs) : Decides env c r := by
  intro u hu row hrow
  have hsources : ∃ ss, List.Forall₂ (Emits env) rs ss ∧ u ∈ ss := by
    have hall : ∀ q ∈ rs, ∃ v, Emits env q v := fun q hq => exists_emits htotal (h.source hq)
    clear h hc
    induction rs with
    | nil => cases hr
    | cons q rs ih =>
        rcases List.mem_cons.mp hr with rfl | hr
        · obtain ⟨ss, hss⟩ := exists_forall₂ fun p hp => hall p (List.mem_cons_of_mem _ hp)
          exact ⟨u :: ss, .cons hu hss, List.mem_cons_self⟩
        · obtain ⟨v, hv⟩ := hall q List.mem_cons_self
          obtain ⟨ss, hss, hmem⟩ := ih hr fun p hp => hall p (List.mem_cons_of_mem _ hp)
          exact ⟨v :: ss, .cons hv hss, List.mem_cons_of_mem _ hmem⟩
  obtain ⟨ss, hss, hmem⟩ := hsources
  obtain ⟨m, hm⟩ := Shuffle.exists_any ss
  refine hc m (emits_unionAll.mpr ⟨ss, hss, hm⟩) row ?_
  exact (hm.sublist hmem).subset hrow

end Unions

/-! ### Filters below sorts and merges -/

section Keys

variable {c : Scalar} {ks : List Scalar} {desc : Bool} {s t : Schema} {r : Relation}

/-- A filter on rows with keys. -/
theorem map_attach_filter {κ : Type} {key : Row → Except Fault κ} {v : List Item}
    {pairs : List (Row × κ)} (h : v.map (attach key) = pairs.map .ok)
    (hc : ∀ row, .ok row ∈ v → ∃ b, c.test row = .ok b) :
    (expand (filterRow c) v).map (attach key) =
      (pairs.filter fun p => holds c p.1).map .ok := by
  obtain ⟨rfl, hkeys⟩ := map_attach.mp h
  refine map_attach.mpr ⟨?_, fun p hp => hkeys p (List.mem_filter.mp hp).1⟩
  rw [expand_decided fun row hrow => hc row (List.mem_map_of_mem hrow), List.filter_map]
  rfl

/-- The rows that a filter leaves of rows with keys. -/
theorem expand_pairs {κ : Type} {pairs : List (Row × κ)}
    (hc : ∀ p ∈ pairs, ∃ b, c.test p.1 = .ok b) :
    expand (filterRow c) (pairs.map fun p => .ok p.1) =
      (pairs.filter fun p => holds c p.1).map fun p => .ok p.1 := by
  have hrows := @expand_decided _ c (pairs.map Prod.fst) fun row hrow => by
    obtain ⟨p, hp, rfl⟩ := List.mem_map.mp hrow
    exact hc p hp
  rw [List.map_map, List.filter_map, List.map_map] at hrows
  exact hrows

omit [Platform] in
/-- What a sort of the filtered rows puts out is what a filter leaves of a sort. -/
theorem unfilter_sorted {pairs w' : List (Row × List Value)} {p : Row × List Value → Bool}
    (hperm : w'.Perm (pairs.filter p))
    (hordered : AllComparable (pairs.filter p) → Ordered desc w') :
    ∃ w, w.Perm pairs ∧ (AllComparable pairs → Ordered desc w) ∧ w.filter p = w' := by
  obtain ⟨rest, hrest, hsorted⟩ := exists_ordered desc (pairs.filter fun q => !p q)
  have hall : ∀ q ∈ w', p q = true := fun q hq => (List.mem_filter.mp (hperm.subset hq)).2
  have hnone : ∀ q ∈ rest, p q = false := fun q hq => by
    simpa using (List.mem_filter.mp (hrest.subset hq)).2
  have hmerge : ∃ w, Interleave w' rest w ∧ (AllComparable pairs → Ordered desc w) := by
    by_cases hcomparable : AllComparable pairs
    · have hw' := hordered fun q hq => hcomparable q (List.mem_filter.mp hq).1
      obtain ⟨w, hw, hordered⟩ := Flow.exists_sortedMerge (orderedOn_mayPrecede desc)
        (fun _ _ => trivial) (fun _ _ => trivial) hw' hsorted
      exact ⟨w, hw, fun _ => hordered⟩
    · obtain ⟨w, hw⟩ := Interleave.exists_any w' rest
      exact ⟨w, hw, fun h => absurd h hcomparable⟩
  obtain ⟨w, hw, hordered⟩ := hmerge
  refine ⟨w, ?_, hordered, hw.filter_left hall hnone⟩
  exact (hw.perm.trans (hperm.append hrest)).trans (List.filter_append_perm p pairs)

/-- The rows of a source that can be sorted, with their keys. -/
theorem sort_keyed (hclean : Clean env (.sort r ks desc t)) {v : List Item}
    (hv : Emits env r v) : ∃ pairs, collect (v.map (attach (keyOf ks))) = .ok pairs := by
  cases hcollect : collect (v.map (attach (keyOf ks))) with
  | ok pairs => exact ⟨pairs, rfl⟩
  | error e =>
      obtain ⟨row, hrow⟩ :=
        hclean _ (emits_sort.mpr ⟨v, hv, .fault hcollect⟩) _ List.mem_cons_self
      cases hrow

/-- Every row of the source is one of the sort. -/
theorem Decides.sort (hclean : Clean env (.sort r ks desc t))
    (hc : Decides env c (.sort r ks desc t)) : Decides env c r := by
  intro v hv row hrow
  obtain ⟨pairs, hpairs⟩ := sort_keyed hclean hv
  obtain ⟨w, hw, hordered⟩ := exists_ordered desc pairs
  refine hc _ (emits_sort.mpr ⟨v, hv, .sorted hpairs hw fun _ => hordered⟩) row ?_
  obtain ⟨hv, -⟩ := map_attach.mp (Flow.collect_eq_ok hpairs)
  rw [hv] at hrow
  obtain ⟨row', hrow', he⟩ := List.mem_map.mp hrow
  cases he
  obtain ⟨p, hp, rfl⟩ := List.mem_map.mp hrow'
  exact List.mem_map_of_mem (hw.symm.subset hp)

omit [Platform] in
theorem sort_filter_wellFormed (h : (Relation.filter (.sort r ks desc t) c s).WellFormed named) :
    (Relation.sort (filtered c r) ks desc t).WellFormed named := by
  have hsort := h.source List.mem_cons_self
  refine .node hsort.here fun q hq => ?_
  rw [List.mem_singleton.mp hq]
  exact filtered_wellFormed (hsort.source List.mem_cons_self) (h.here.2.mono hsort.here.1)

/-- A filter on a sort, and a sort of the filtered rows. -/
theorem refines_sort (h : (Relation.filter (.sort r ks desc t) c s).WellFormed named)
    (hclean : Clean env (.sort r ks desc t)) (hc : Decides env c (.sort r ks desc t)) :
    Refines env env (.filter (.sort r ks desc t) c s) (.sort (filtered c r) ks desc t) where
  schema := h.here.1
  exposed := by
    rw [Relation.exposed]
    exact List.subset_append_right _ _
  emits u' hu' := by
    obtain ⟨v', hv', hsorts⟩ := emits_sort.mp hu'
    obtain ⟨v, hv, rfl⟩ := emits_filter.mp hv'
    obtain ⟨pairs, hpairs⟩ := sort_keyed hclean hv
    have hdecides : ∀ row, .ok row ∈ v → ∃ b, c.test row = .ok b := hc.sort hclean v hv
    have hfiltered := map_attach_filter (Flow.collect_eq_ok hpairs) hdecides
    obtain ⟨hrows, -⟩ := map_attach.mp (Flow.collect_eq_ok hpairs)
    cases hsorts with
    | fault hfault =>
        rw [hfiltered, Flow.collect_map_ok] at hfault
        cases hfault
    | @sorted pairs' w' hok hperm hordered =>
        rw [hfiltered, Flow.collect_map_ok] at hok
        cases hok
        obtain ⟨w, hw, hsorted, rfl⟩ := unfilter_sorted hperm hordered
        refine ⟨_, emits_filter.mpr ⟨_, emits_sort.mpr ⟨v, hv, .sorted hpairs hw hsorted⟩, rfl⟩,
          ?_⟩
        rw [expand_pairs fun p hp => ?_]
        · exact .refl (AgreeOn.refl s) _
        · refine hdecides p.1 ?_
          rw [hrows]
          exact List.mem_map_of_mem (List.mem_map_of_mem (hw.subset hp))

/-- The rows of two sources that can be merged, with their keys. -/
theorem merge_keyed {l : Relation} (hclean : Clean env (.unionAllSortedBy l r ks desc t))
    {v w : List Item} (hv : Emits env l v) (hw : Emits env r w) :
    ∃ ps qs : List (Row × List Value), v.map (attach (keyOf ks)) = ps.map .ok ∧
      w.map (attach (keyOf ks)) = qs.map .ok := by
  obtain ⟨u, hu⟩ := exists_merges ks desc v w
  have hrows := hclean u (emits_unionAllSortedBy.mpr ⟨v, w, hv, hw, hu⟩)
  obtain ⟨m, hm, -, rfl⟩ := hu
  have hkeys : ∀ x ∈ m, ∃ p, x = .ok p := by
    intro x hx
    obtain ⟨row, hrow⟩ := hrows _ (List.mem_map_of_mem hx)
    cases x with
    | ok p => exact ⟨p, rfl⟩
    | error e => cases hrow
  obtain ⟨ps, hps⟩ := Flow.exists_collect fun x hx => hkeys x (hm.left_sublist.subset hx)
  obtain ⟨qs, hqs⟩ := Flow.exists_collect fun x hx => hkeys x (hm.right_sublist.subset hx)
  exact ⟨ps, qs, Flow.collect_eq_ok hps, Flow.collect_eq_ok hqs⟩

/-- Every row of an input is one of the merge. -/
theorem Decides.merge {l : Relation} (htotal : env.Total named)
    (h : (Relation.unionAllSortedBy l r ks desc t).WellFormed named)
    (hclean : Clean env (.unionAllSortedBy l r ks desc t))
    (hc : Decides env c (.unionAllSortedBy l r ks desc t)) : Decides env c l ∧ Decides env c r := by
  have hr : r ∈ (Relation.unionAllSortedBy l r ks desc t).sources := by
    simp [Relation.sources]
  have hall : ∀ v w, Emits env l v → Emits env r w → ∀ row, .ok row ∈ v ∨ .ok row ∈ w →
      ∃ b, c.test row = .ok b := by
    intro v w hv hw row hrow
    obtain ⟨ps, qs, hps, hqs⟩ := merge_keyed hclean hv hw
    obtain ⟨u, hu⟩ := exists_merges ks desc v w
    refine hc u (emits_unionAllSortedBy.mpr ⟨v, w, hv, hw, hu⟩) row ?_
    obtain ⟨m, hm, -, rfl⟩ := hu
    -- the row with its key is in the merge
    have hkeyed : ∃ p : Row × List Value, p.1 = row ∧ .ok p ∈ m := by
      rcases hrow with hrow | hrow
      · have hmem := List.mem_map_of_mem (f := attach (keyOf ks)) hrow
        rw [hps] at hmem
        obtain ⟨p, hp, he⟩ := List.mem_map.mp hmem
        have hrow := (attach_ok.mp he.symm).1
        rw [hps] at hm
        exact ⟨p, (Except.ok.inj hrow).symm, hm.left_sublist.subset (List.mem_map_of_mem hp)⟩
      · have hmem := List.mem_map_of_mem (f := attach (keyOf ks)) hrow
        rw [hqs] at hmem
        obtain ⟨p, hp, he⟩ := List.mem_map.mp hmem
        have hrow := (attach_ok.mp he.symm).1
        rw [hqs] at hm
        exact ⟨p, (Except.ok.inj hrow).symm, hm.right_sublist.subset (List.mem_map_of_mem hp)⟩
    obtain ⟨p, rfl, hp⟩ := hkeyed
    exact List.mem_map.mpr ⟨_, hp, rfl⟩
  constructor
  · intro v hv row hrow
    obtain ⟨w, hw⟩ := exists_emits htotal (h.source hr)
    exact hall v w hv hw row (.inl hrow)
  · intro w hw row hrow
    obtain ⟨v, hv⟩ := exists_emits htotal (h.source List.mem_cons_self)
    exact hall v w hv hw row (.inr hrow)

omit [Platform] in
theorem merge_filter_wellFormed {l : Relation}
    (h : (Relation.filter (.unionAllSortedBy l r ks desc t) c s).WellFormed named) :
    (Relation.unionAllSortedBy (filtered c l) (filtered c r) ks desc t).WellFormed named := by
  have hmerge := h.source List.mem_cons_self
  have hr : r ∈ (Relation.unionAllSortedBy l r ks desc t).sources := by
    simp [Relation.sources]
  refine .node hmerge.here fun q hq => ?_
  rcases List.mem_pair.mp hq with rfl | rfl
  · exact filtered_wellFormed (hmerge.source List.mem_cons_self) (h.here.2.mono hmerge.here.1)
  · exact filtered_wellFormed (hmerge.source hr) (h.here.2.mono hmerge.here.2.1)

omit [Platform] in
/-- A merge of filtered rows is what a filter leaves of a merge. -/
theorem unfilter_merged {ps qs : List (Row × List Value)} {p : Row × List Value → Bool}
    {w' : List (Except Fault (Row × List Value))}
    (hint : Interleave ((ps.filter p).map .ok) ((qs.filter p).map .ok) w')
    (hsorted : IsSorted desc ((ps.filter p).map .ok) → IsSorted desc ((qs.filter p).map .ok) →
      IsSorted desc w') :
    ∃ m : List (Row × List Value), Interleave (ps.map .ok) (qs.map .ok)
        (m.map (.ok : _ → Except Fault (Row × List Value))) ∧
      (IsSorted desc (ps.map .ok) → IsSorted desc (qs.map .ok) → IsSorted desc (m.map .ok)) ∧
      w' = (m.filter p).map .ok := by
  have hsub : ∀ {rs : List (Row × List Value)}, IsSorted desc (rs.map .ok) →
      AllComparable rs ∧ Ordered desc rs := by
    intro rs hrs
    obtain ⟨rs', hcollect, hcomparable, hordered⟩ := hrs
    rw [Flow.collect_map_ok] at hcollect
    cases hcollect
    exact ⟨hcomparable, hordered⟩
  have hfilter : ∀ {rs : List (Row × List Value)}, AllComparable rs ∧ Ordered desc rs →
      IsSorted desc ((rs.filter p).map .ok) := by
    intro rs hrs
    exact ⟨rs.filter p, Flow.collect_map_ok _, fun q hq => hrs.1 q (List.mem_filter.mp hq).1,
      hrs.2.sublist List.filter_sublist⟩
  obtain ⟨m', rfl, hrows⟩ := hint.of_map
  by_cases hboth : IsSorted desc (ps.map .ok) ∧ IsSorted desc (qs.map .ok)
  · have hps := hsub hboth.1
    have hqs := hsub hboth.2
    have hm' := hsub (hsorted (hfilter hps) (hfilter hqs))
    obtain ⟨m, hm, rfl⟩ := SortedMerge.unselect (orderedOn_mayPrecede desc) p
      (fun _ _ => trivial) (fun _ _ => trivial) hps.2 hqs.2 ⟨hrows, hm'.2⟩
    refine ⟨m, hm.interleave.map _, fun _ _ => ⟨m, Flow.collect_map_ok m, ?_, hm.sorted⟩, rfl⟩
    intro q hq
    rcases List.mem_append.mp (hm.interleave.perm.subset hq) with hq | hq
    · exact hps.1 q hq
    · exact hqs.1 q hq
  · rw [← List.filterMap_eq_filter] at hrows
    obtain ⟨m, hm, rfl⟩ := hrows.unselect
    refine ⟨m, hm.map _, fun hps hqs => absurd ⟨hps, hqs⟩ hboth, ?_⟩
    rw [List.filterMap_eq_filter]

/-- A filter on a merge, and a merge of the filtered rows. -/
theorem refines_merge {l : Relation} (htotal : env.Total named)
    (h : (Relation.filter (.unionAllSortedBy l r ks desc t) c s).WellFormed named)
    (hclean : Clean env (.unionAllSortedBy l r ks desc t))
    (hc : Decides env c (.unionAllSortedBy l r ks desc t)) :
    Refines env env (.filter (.unionAllSortedBy l r ks desc t) c s)
      (.unionAllSortedBy (filtered c l) (filtered c r) ks desc t) where
  schema := h.here.1
  exposed := by
    rw [Relation.exposed, Relation.exposed, Relation.exposed]
    refine fun id hid => List.mem_append_right _ ?_
    rcases List.mem_append.mp hid with hid | hid
    · exact List.mem_append_left _ hid
    · refine List.mem_append_right _ ?_
      exact Relation.append_subset_append (filtered_exposed c l) (filtered_exposed c r) hid
  emits u' hu' := by
    obtain ⟨v', w', hv', hw', hmerge⟩ := emits_unionAllSortedBy.mp hu'
    obtain ⟨v, hv, rfl⟩ := emits_filter.mp hv'
    obtain ⟨w, hw, rfl⟩ := emits_filter.mp hw'
    obtain ⟨ps, qs, hps, hqs⟩ := merge_keyed hclean hv hw
    obtain ⟨hcl, hcr⟩ := hc.merge htotal (h.source List.mem_cons_self) hclean
    obtain ⟨m', hint, hsorted, rfl⟩ := hmerge
    rw [map_attach_filter hps (hcl v hv), map_attach_filter hqs (hcr w hw)] at hint hsorted
    obtain ⟨m, hm, hmsorted, rfl⟩ := unfilter_merged hint hsorted
    rw [← hps, ← hqs] at hm hmsorted
    have hu : Emits env (.unionAllSortedBy l r ks desc t) _ :=
      emits_unionAllSortedBy.mpr ⟨v, w, hv, hw, _, hm, hmsorted, rfl⟩
    refine ⟨_, emits_filter.mpr ⟨_, hu, rfl⟩, ?_⟩
    rw [List.map_map, List.map_map]
    have hrows := @expand_pairs _ c _ m fun p hp => hc _ hu p.1 (by
      rw [List.map_map]
      exact List.mem_map.mpr ⟨p, hp, rfl⟩)
    exact hrows ▸ .refl (AgreeOn.refl s) _

end Keys

/-! ### Parts of a condition -/

section Parts

variable {c p : Scalar} {s : Schema} {r : Relation}

theorem test_ok {row : Row} {b : Bool} :
    c.test row = .ok b ↔ c.eval row.record = .ok (.boolean b) := by
  unfold Scalar.test
  rw [bind_eq_ok]
  constructor
  · rintro ⟨v, hv, hb⟩
    rwa [getBool_ok.mp hb] at hv
  · intro h
    exact ⟨_, h, rfl⟩

theorem Clean.filter (h : Clean env r) (hc : Decides env c r) : Clean env (.filter r c s) := by
  intro u hu x hx
  obtain ⟨v, hv, rfl⟩ := emits_filter.mp hu
  cases x with
  | ok row => exact ⟨row, rfl⟩
  | error e =>
      rw [expand_filterRow] at hx
      obtain ⟨y, hy, he⟩ := List.mem_filterMap.mp hx
      obtain ⟨row, rfl⟩ := h v hv y hy
      obtain ⟨b, hb⟩ := hc v hv row hy
      rw [filterItem, hb] at he
      cases b <;> cases he

/-- What the rest of a condition makes of a row. -/
def restRow (remaining : Option Scalar) (row : Row) : List Item :=
  match remaining with
  | some condition => filterRow condition row
  | none => [.ok row]

omit [Platform] in
theorem expand_ok_id (v : List Item) : expand (fun row => [.ok row]) v = v := by
  induction v with
  | nil => rfl
  | cons x v ih => cases x <;> simp [ih]

theorem emits_keepFilter {remaining : Option Scalar} {u : List Item} :
    Emits env (keepFilter remaining r s) u ↔
      ∃ v, Emits env r v ∧ u = expand (restRow remaining) v := by
  cases remaining with
  | some rest => exact emits_filter
  | none =>
      constructor
      · intro h
        exact ⟨u, h, (expand_ok_id u).symm⟩
      · rintro ⟨v, hv, rfl⟩
        exact (expand_ok_id v).symm ▸ hv

/-- A row that passes the first part meets the rest; one that does not fails the condition. -/
theorem restRow_split {schema : Schema} {split : SplitCondition} (hbinary : AndsBinary c)
    (hsplit : Splits schema c split) (hp : split.pushable = some p) {row : Row} {b x : Bool}
    (hc : c.test row = .ok b) (hx : p.test row = .ok x) :
    expand (restRow split.remaining) (filterRow p row) = filterRow c row := by
  have hceval := test_ok.mp hc
  have hpeval : optionEval row.record split.pushable = .ok (.boolean x) := by
    rw [hp]
    exact test_ok.mp hx
  cases x with
  | true =>
      have hrest := hsplit.eval_remaining hbinary hceval hpeval
      have hfilter : filterRow p row = [.ok row] := by rw [filterRow, hx]
      rw [hfilter, Flow.expand_ok, Flow.expand_nil, List.append_nil]
      cases hremaining : split.remaining with
      | some rest =>
          rw [hremaining] at hrest
          rw [restRow, filterRow, filterRow, hc, test_ok.mpr hrest]
      | none =>
          rw [hremaining] at hrest
          cases hrest
          rw [restRow, filterRow, hc]
  | false =>
      have hfalse := hsplit.eval_false hbinary hceval hpeval
      cases hfalse
      rw [filterRow, hx, filterRow, hc]
      rfl

/-- A filter with a part of a condition in front of one with the rest. -/
theorem refines_split {schema : Schema} {split : SplitCondition}
    (h : (Relation.filter r c s).WellFormed named) (hbinary : AndsBinary c)
    (hc : Decides env c r) (hsplit : Splits schema c split) (hp : split.pushable = some p)
    (hdecides : Decides env p r) :
    Refines env env (.filter r c s) (keepFilter split.remaining (filtered p r) s) where
  schema := by
    cases split.remaining with
    | some rest => exact List.Subset.refl _
    | none => exact h.here.1
  exposed := by
    rw [Relation.exposed]
    cases split.remaining with
    | some rest =>
        rw [keepFilter, Relation.exposed]
        exact Relation.append_subset_append (List.Subset.refl _) (filtered_exposed p r)
    | none => exact fun id hid => List.mem_append_right _ (filtered_exposed p r hid)
  emits u' hu' := by
    obtain ⟨v', hv', rfl⟩ := emits_keepFilter.mp hu'
    obtain ⟨v, hv, rfl⟩ := emits_filter.mp hv'
    refine ⟨_, emits_filter.mpr ⟨v, hv, rfl⟩, ?_⟩
    rw [Flow.expand_expand, Flow.expand_congr fun row hrow => ?_]
    · exact .refl (AgreeOn.refl s) _
    · obtain ⟨b, hb⟩ := hc v hv row hrow
      obtain ⟨x, hx⟩ := hdecides v hv row hrow
      exact (restRow_split hbinary hsplit hp hb hx).symm

/-- A filter with a part of its condition, replaced, behind the rest. -/
theorem replaces_split {schema : Schema} {split : SplitCondition} {r' : Relation}
    (h : (Relation.filter r c s).WellFormed named) (hbinary : AndsBinary c)
    (hclean : Clean env r) (hc : Decides env c r) (hsplit : Splits schema c split)
    (hp : split.pushable = some p) (hdecides : Decides env p r)
    (hr' : Replaces named env env (filtered p r) r') :
    Replaces named env env (.filter r c s) (keepFilter split.remaining r' s) := by
  have hrefines := refines_split h hbinary hc hsplit hp hdecides
  cases hremaining : split.remaining with
  | none =>
      rw [hremaining] at hrefines
      exact ⟨hr'.wellFormed, hrefines.trans hr'.refines, hr'.clean, hr'.binary⟩
  | some rest =>
      rw [hremaining] at hrefines
      have hreads := hsplit.readsIn h.here.2
      have hwf : (Relation.filter (filtered p r) rest s).WellFormed named := by
        refine .node ⟨h.here.1, hreads.2 rest hremaining⟩ fun q hq => ?_
        rw [List.mem_singleton.mp hq]
        exact filtered_wellFormed (h.source List.mem_cons_self) (hreads.1 p hp)
      exact @Replaces.withSources _ named env env _ (.filter (filtered p r) rest s) [r']
        (hclean.filter hc) (.refl named env) hwf ((hsplit.binary hbinary).2 rest hremaining) hrefines
        (.cons hr' .nil)

end Parts

/-! ### Filters below projections -/

section Projections

variable {p p' : Scalar} {ps : List Projector} {s t : Schema} {r : Relation} {row : Row}

omit [Platform] in
theorem forwardedFields_alias {id id' : FieldId} (h : (id, id') ∈ forwardedFields ps) :
    id ∈ ps.map Projector.aliasFieldId := by
  obtain ⟨q, hq, he⟩ := List.mem_filterMap.mp h
  split at he
  · cases he
    exact List.mem_map_of_mem hq
  · cases he

omit [Platform] in
theorem forwardedFields_source {id id' : FieldId} (h : (id, id') ∈ forwardedFields ps) :
    ∃ q ∈ ps, ∃ ty, q.expr = .field id' ty := by
  obtain ⟨q, hq, he⟩ := List.mem_filterMap.mp h
  split at he
  next i ty hexpr =>
    cases he
    exact ⟨q, hq, ty, hexpr⟩
  · cases he

/-- The value of a field that a projection hands on. -/
theorem ofValues_forwarded {vs : List Value} {id id' : FieldId}
    (hvs : List.Forall₂ (fun q v => q.expr.eval row.record = .ok v) ps vs)
    (hnodup : (ps.map Projector.aliasFieldId).Nodup)
    (h : (forwardedFields ps).lookup id = some id') :
    Row.ofValues (ps.map Projector.aliasFieldId) vs id = row id' := by
  suffices hlookup : ((ps.map Projector.aliasFieldId).zip vs).lookup id = some (row id') by
    rw [Row.ofValues, hlookup, Option.getD_some]
  induction hvs with
  | nil => cases h
  | @cons q v ps vs hv _ ih =>
      rw [List.map_cons, List.nodup_cons] at hnodup
      rw [List.map_cons, List.zip_cons_cons, List.lookup_cons]
      by_cases hid : id = q.aliasFieldId
      · subst hid
        rw [beq_self_eq_true]
        cases hexpr : q.expr with
        | field i ty =>
            have hhere : forwardedFields (q :: ps) = (q.aliasFieldId, i) :: forwardedFields ps := by
              simp [forwardedFields, hexpr]
            rw [hhere, List.lookup_cons, beq_self_eq_true] at h
            cases h
            rw [hexpr] at hv
            exact congrArg some (Except.ok.inj hv).symm
        | _ =>
            -- the alias of another projector
            have hhere : forwardedFields (q :: ps) = forwardedFields ps := by
              simp [forwardedFields, hexpr]
            rw [hhere] at h
            exact absurd (forwardedFields_alias (mem_of_lookup h)) hnodup.1
      · rw [beq_false_of_ne hid]
        refine ih hnodup.2 ?_
        cases hexpr : q.expr with
        | field i ty =>
            have hhere : forwardedFields (q :: ps) = (q.aliasFieldId, i) :: forwardedFields ps := by
              simp [forwardedFields, hexpr]
            rwa [hhere, List.lookup_cons, beq_false_of_ne hid] at h
        | _ =>
            have hhere : forwardedFields (q :: ps) = forwardedFields ps := by
              simp [forwardedFields, hexpr]
            rwa [hhere] at h

/-- A condition on handed-on fields is the renamed condition on the row of the source. -/
theorem test_projected (hp : Rebound (forwardedFields ps) p p')
    (hnodup : (ps.map Projector.aliasFieldId).Nodup) {row' : Row}
    (h : projectRow ps row = .ok row') : p.test row' = p'.test row := by
  obtain ⟨vs, hvs, h⟩ := bind_eq_ok.mp h
  cases h
  have hvs := List.forall₂_map_left_iff.mp (Scalar.evalAll_ok.mp hvs)
  have heval : p.eval (Row.ofValues (ps.map Projector.aliasFieldId) vs).record =
      p'.eval row.record :=
    hp.eval _ _ fun id id' hid => congrArg Except.ok (ofValues_forwarded hvs hnodup hid)
  unfold Scalar.test
  rw [heval]

/-- A filter on a projection, and a projection of the filtered rows. -/
theorem refines_projection (hnodup : (ps.map Projector.aliasFieldId).Nodup)
    (hp : Rebound (forwardedFields ps) p p') :
    Refines env env (filtered p (.projection r ps t)) (.projection (filtered p' r) ps t) where
  schema := List.Subset.refl _
  exposed := by
    rw [exposed_filtered, Relation.exposed_projection, Relation.exposed_projection]
    refine fun id hid => List.mem_append_right _ ?_
    refine Relation.append_subset_append (List.Subset.refl _) ?_ hid
    split
    · exact filtered_exposed p' r
    · exact List.Subset.refl _
  emits u' hu' := by
    obtain ⟨v', hv', rfl⟩ := emits_projection.mp hu'
    obtain ⟨v, hv, rfl⟩ := emits_filter.mp hv'
    refine ⟨_, emits_filter.mpr ⟨_, emits_projection.mpr ⟨v, hv, rfl⟩, rfl⟩, ?_⟩
    rw [Flow.expand_expand, Flow.expand_expand]
    refine Approx.expand (R := Eq) (fun row row' hrow => ?_) (.refl (fun _ => rfl) v)
    subst hrow
    cases hproject : projectRow ps row with
    | error e => exact .fault
    | ok row' =>
        have htest := test_projected hp hnodup hproject
        rw [Flow.expand_ok, Flow.expand_nil, List.append_nil, filterRow, filterRow, htest]
        cases p'.test row with
        | error e => exact .fault
        | ok b =>
            cases b with
            | false => exact .nil
            | true =>
                rw [Flow.expand_ok, Flow.expand_nil, List.append_nil, hproject]
                exact approx_item _

theorem Decides.projection (hnodup : (ps.map Projector.aliasFieldId).Nodup)
    (hp : Rebound (forwardedFields ps) p p') (h : Decides env p' r) :
    Decides env p (.projection r ps t) := by
  intro u hu row' hrow'
  obtain ⟨v, hv, rfl⟩ := emits_projection.mp hu
  obtain ⟨row, hrow, hmem⟩ := Flow.ok_mem_expand hrow'
  rw [test_projected hp hnodup (List.mem_singleton.mp hmem).symm]
  exact h v hv row hrow

end Projections

/-! ### Filters below left joins -/

section LeftJoins

variable {p lk rk : Scalar} {t : Schema} {l r : Relation}

/-- A row of the left side makes a failure, or rows that join it. -/
theorem leftJoinRow_cases (lk : Scalar) (right : Schema) (rows : List (Row × Value)) (row : Row) :
    (∃ e, leftJoinRow lk right rows row = [.error e]) ∨
      ∃ js : List Row, js ≠ [] ∧ leftJoinRow lk right rows row = js.map .ok ∧
        ∀ x ∈ js, ∃ y, x = row.join right y := by
  unfold leftJoinRow
  cases lk.eval row.record with
  | error e => exact .inl ⟨e, rfl⟩
  | ok v =>
      refine .inr ?_
      dsimp only
      generalize (if v.isNull then [] else rows.filter fun p => v.equal p.2) = matching
      cases matching with
      | nil =>
          refine ⟨[row.join right fun _ => .null], List.cons_ne_nil _ _, rfl, fun x hx => ?_⟩
          exact ⟨_, List.mem_singleton.mp hx⟩
      | cons q qs =>
          refine ⟨(q :: qs).map fun q => row.join right q.1, List.cons_ne_nil _ _, ?_,
            fun x hx => ?_⟩
          · rw [List.map_map]
            rfl
          · obtain ⟨q', -, rfl⟩ := List.mem_map.mp hx
            exact ⟨_, rfl⟩

/-- A condition on the left side's fields is the same on a joined row. -/
theorem test_joined (hp : p.ReadsIn l.schema) (hdisjoint : ∀ id ∈ r.exposed, id ∉ l.exposed)
    (row y : Row) : p.test (row.join r.schema y) = p.test row := by
  have hagree : AgreeOn l.schema (row.join r.schema y) row := by
    intro id hid
    have hout : r.schema.contains id = false := by
      refine decide_eq_false fun hin => ?_
      exact hdisjoint id (Relation.mem_exposed_of_schema hin) (Relation.mem_exposed_of_schema hid)
    rw [Row.join, hout]
    rfl
  unfold Scalar.test
  rw [hagree.eval hp]

/-- A condition on the left side's fields, on the rows that join a row. -/
theorem leftJoinRow_filter {rows : List (Row × Value)} (hp : p.ReadsIn l.schema)
    (hdisjoint : ∀ id ∈ r.exposed, id ∉ l.exposed) (row : Row) :
    Approx (AgreeOn t) (expand (filterRow p) (leftJoinRow lk r.schema rows row))
      (expand (leftJoinRow lk r.schema rows) (filterRow p row)) := by
  rcases leftJoinRow_cases lk r.schema rows row with ⟨e, he⟩ | ⟨js, hne, hjs, hjoin⟩
  · rw [he]
    exact .fault
  · have htest : ∀ x ∈ js, p.test x = p.test row := by
      intro x hx
      obtain ⟨y, rfl⟩ := hjoin x hx
      exact test_joined hp hdisjoint row y
    rw [hjs]
    cases hrow : p.test row with
    | error e =>
        obtain ⟨j, hj⟩ := List.exists_mem_of_ne_nil js hne
        cases js with
        | nil => exact absurd rfl hne
        | cons j js =>
            rw [List.map_cons, Flow.expand_ok, filterRow, htest j List.mem_cons_self, hrow]
            exact .fault
    | ok b =>
        rw [expand_decided fun x hx => ⟨b, (htest x hx).trans hrow⟩]
        have hholds : ∀ x ∈ js, holds p x = b := by
          intro x hx
          rw [holds, htest x hx, hrow]
        cases b with
        | true =>
            rw [List.filter_eq_self.mpr hholds, filterRow, hrow]
            rw [Flow.expand_ok, Flow.expand_nil, List.append_nil, hjs]
            exact .refl (AgreeOn.refl t) _
        | false =>
            have hnone : js.filter (holds p) = [] :=
              List.filter_eq_nil_iff.mpr fun x hx => by simp [hholds x hx]
            rw [hnone, filterRow, hrow]
            exact .nil

/-- A filter on a left join, and a left join of the filtered rows. -/
theorem refines_leftJoin (hp : p.ReadsIn l.schema)
    (hdisjoint : ∀ id ∈ r.exposed, id ∉ l.exposed) :
    Refines env env (filtered p (.leftJoin l r lk rk t)) (.leftJoin (filtered p l) r lk rk t) where
  schema := List.Subset.refl _
  exposed := by
    rw [exposed_filtered, Relation.exposed_leftJoin, Relation.exposed_leftJoin]
    exact List.subset_append_right _ _
  emits u' hu' := by
    obtain ⟨v', w, hv', hw, rfl⟩ := (emits_two rfl).mp hu'
    obtain ⟨v, hv, rfl⟩ := emits_filter.mp hv'
    refine ⟨_, emits_filter.mpr ⟨_, (emits_two rfl).mpr ⟨v, w, hv, hw, rfl⟩, rfl⟩, ?_⟩
    unfold whenCollected
    split
    next rows hrows =>
      dsimp only
      rw [Flow.expand_expand, Flow.expand_expand]
      refine Approx.expand (R := Eq) (fun row row' hrow => ?_) (.refl (fun _ => rfl) v)
      subst hrow
      exact leftJoinRow_filter hp hdisjoint row
    · exact .fault

omit [Platform] in
theorem leftJoin_filter_wellFormed (h : (Relation.leftJoin l r lk rk t).WellFormed named)
    (hp : p.ReadsIn l.schema) : (Relation.leftJoin (filtered p l) r lk rk t).WellFormed named := by
  have hr : r ∈ (Relation.leftJoin l r lk rk t).sources := by
    simp [Relation.sources]
  obtain ⟨hschema, hlk, hrk, hdisjoint⟩ := h.here
  refine .node ⟨hschema, hlk, hrk, fun id hid hin => ?_⟩ fun q hq => ?_
  · exact hdisjoint id hid (filtered_exposed p l hin)
  · rcases List.mem_pair.mp hq with rfl | rfl
    · exact filtered_wellFormed (h.source List.mem_cons_self) hp
    · exact h.source hr

theorem Decides.leftJoin (hp : p.ReadsIn l.schema)
    (hdisjoint : ∀ id ∈ r.exposed, id ∉ l.exposed) (h : Decides env p l) :
    Decides env p (.leftJoin l r lk rk t) := by
  intro u hu row' hrow'
  obtain ⟨v, w, hv, hw, rfl⟩ := (emits_two rfl).mp hu
  unfold whenCollected at hrow'
  split at hrow'
  next rows hrows =>
    obtain ⟨row, hrow, hmem⟩ := Flow.ok_mem_expand hrow'
    rcases leftJoinRow_cases lk r.schema rows row with ⟨e, he⟩ | ⟨js, -, hjs, hjoin⟩
    · rw [he] at hmem
      cases List.mem_singleton.mp hmem
    · rw [hjs] at hmem
      obtain ⟨x, hx, he⟩ := List.mem_map.mp hmem
      cases he
      obtain ⟨y, rfl⟩ := hjoin _ hx
      rw [test_joined hp hdisjoint]
      exact h v hv row hrow
  · cases List.mem_singleton.mp hrow'

end LeftJoins

end Lsql.Opt.FilterPushdown
