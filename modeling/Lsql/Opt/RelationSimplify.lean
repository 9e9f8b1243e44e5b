import Lsql.Opt.Traversal

/-!
# Lsql.Opt.RelationSimplify

The pass that drops relations that do nothing (`optimize/relation_simplify.cpp`): projections that
hand every field on, filters with a constant condition, unions in a union.

A filter's condition is read as a Boolean for the report before it is compared, so that the pass fails
on a constant of another kind, which the filter itself would only do on a record.
-/

namespace Lsql.Opt.RelationSimplify

open Ir
open Flow (Approx Interleave Shuffle)

/-! ### The pass -/

/-- `Optimizer::isForwardingProjection`. -/
def isForwardingProjection (source : Relation) (projectors : List Projector) (schema : Schema) :
    Bool :=
  if schema ≠ source.schema then false else projectors.all Projector.isForwarding

/-- `Optimizer::optimize(ir::ProjectionRelation&)`. -/
def optimizeProjection (source : Relation) (projectors : List Projector) (schema : Schema) :
    Pass Relation :=
  if isForwardingProjection source projectors schema then do
    Pass.setChanges
    pure source
  else pure (.projection source projectors schema)

/-- `Optimizer::optimize(ir::FilterRelation&)`. -/
def optimizeFilter (source : Relation) (condition : Scalar) (schema : Schema) : Pass Relation :=
  match condition with
  | .value v _ => do
    -- the argument of the note
    let _ ← (v.getBool : Except Fault Bool)
    Pass.setChanges
    if v.equal (.boolean true) then pure source else pure (.empty schema)
  | _ => pure (.filter source condition schema)

/-- The sources of a union with those of a nested one in its place. -/
def flattenSources : List Relation → Pass (List Relation)
  | [] => pure []
  | .unionAll nested _ :: sources => do
    Pass.setChanges
    let sources ← flattenSources sources
    pure (nested ++ sources)
  | source :: sources => do
    let sources ← flattenSources sources
    pure (source :: sources)

/-- `Optimizer::visit`, behind the traversal. -/
def rule : Relation → Pass Relation
  | .projection source projectors schema => optimizeProjection source projectors schema
  | .filter source condition schema => optimizeFilter source condition schema
  | .unionAll sources schema => do
    let sources ← flattenSources sources
    pure (.unionAll sources schema)
  | rel => pure rel

/-- `relationSimplify`. -/
def relationSimplify (program : Program) : Pass Program := visitProgram rule program

/-! ### Forwarding projections -/

section Forwarding

variable {ps : List Projector} {row : Row}

theorem isForwarding_expr {p : Projector} (h : p.isForwarding) :
    ∃ t, p.expr = .field p.aliasFieldId t := by
  unfold Projector.isForwarding at h
  split at h
  next id t he => exact ⟨t, by rw [he, eq_of_beq h]⟩
  · cases h

/-- The values of fields under their own names. -/
theorem ofValues_map {ids : List FieldId} {id : FieldId} (h : id ∈ ids) :
    Row.ofValues ids (ids.map row) id = row id := by
  suffices hlookup : (ids.zip (ids.map row)).lookup id = some (row id) by
    rw [Row.ofValues, hlookup, Option.getD_some]
  induction ids with
  | nil => cases h
  | cons i ids ih =>
      rw [List.map_cons, List.zip_cons_cons, List.lookup_cons]
      by_cases hi : id = i
      · subst hi
        rw [beq_self_eq_true]
      · rw [beq_false_of_ne hi]
        exact ih ((List.mem_cons.mp h).resolve_left hi)

variable [Platform]

theorem evalAll_forwarding (h : ps.all Projector.isForwarding) :
    Scalar.evalAll row.record (ps.map Projector.expr) =
      .ok ((ps.map Projector.aliasFieldId).map row) := by
  induction ps with
  | nil => rfl
  | cons p ps ih =>
      obtain ⟨hp, hps⟩ := Bool.and_eq_true_iff.mp (List.all_cons.symm.trans h)
      obtain ⟨t, ht⟩ := isForwarding_expr hp
      rw [List.map_cons, Scalar.evalAll, ht, ih hps]
      rfl

/-- A forwarding projection leaves a row as it is. -/
theorem projectRow_forwarding {schema : Schema} (h : ps.all Projector.isForwarding)
    (hschema : schema.fields = ps.map Projector.aliasFieldId) :
    Approx (AgreeOn schema) [projectRow ps row] [.ok row] := by
  have hrow : projectRow ps row = .ok (.ofValues schema.fields (schema.fields.map row)) := by
    rw [projectRow, evalAll_forwarding h, ok_bind, hschema]
    rfl
  rw [hrow]
  exact .ok (fun id hid => ofValues_map hid) .nil

variable {named : String → Option Schema} {r : Relation} {s : Schema}

theorem forwarding_rewrites (h : (Relation.projection r ps s).WellFormed named)
    (hforward : isForwardingProjection r ps s) :
    Rewrites named (.projection r ps s) r := by
  unfold isForwardingProjection at hforward
  split at hforward
  · cases hforward
  next hschema =>
    have hschema : s = r.schema := not_not.mp hschema
    have hwf : r.WellFormed named := h.source List.mem_cons_self
    refine .of_refines h hwf fun env _ => ⟨?_, ?_, fun u hu => ?_⟩
    · show s.fields ⊆ r.schema.fields
      rw [hschema]
      exact List.Subset.refl _
    · rw [Relation.exposed, if_pos hforward]
      exact List.subset_append_right _ _
    · refine ⟨_, emits_projection.mpr ⟨u, hu, rfl⟩, ?_⟩
      exact Approx.of_expand (fun row => projectRow_forwarding hforward h.here.1) u

end Forwarding

/-! ### Constant conditions -/

section Constant

variable [Platform] {named : String → Option Schema} {r : Relation} {s : Schema} {t : ValueType}

theorem filterRow_constant (b : Bool) (row : Row) :
    filterRow (.value (.boolean b) t) row = if b then [.ok row] else [] := by
  cases b <;> rfl

theorem filter_true_rewrites
    (h : (Relation.filter r (.value (.boolean true) t) s).WellFormed named) :
    Rewrites named (.filter r (.value (.boolean true) t) s) r := by
  have hwf : r.WellFormed named := h.source List.mem_cons_self
  refine .of_refines h hwf fun env _ => ⟨h.here.1, ?_, fun u hu => ?_⟩
  · rw [Relation.exposed]
    exact List.subset_append_right _ _
  · refine ⟨_, emits_filter.mpr ⟨u, hu, rfl⟩, ?_⟩
    refine Approx.of_expand (fun row => ?_) u
    rw [filterRow_constant, if_pos rfl]
    exact approx_item _

theorem filter_false_rewrites
    (h : (Relation.filter r (.value (.boolean false) t) s).WellFormed named) :
    Rewrites named (.filter r (.value (.boolean false) t) s) (.empty s) := by
  refine Rewrites.empty h fun env htotal => ?_
  obtain ⟨v, hv⟩ := exists_emits htotal (h.source List.mem_cons_self)
  refine ⟨_, emits_filter.mpr ⟨v, hv, rfl⟩, ?_⟩
  exact Approx.expand_nothing (fun row => filterRow_constant false row) v

/-- What the pass asks of a node: a constant condition is a Boolean. -/
def BooleanConstant : Relation → Prop
  | .filter _ (.value v _) _ => ∃ b, v = .boolean b
  | _ => True

theorem optimizeFilter_rewrites {c : Scalar} (h : (Relation.filter r c s).WellFormed named)
    (hconstant : BooleanConstant (.filter r c s)) (b : Bool) :
    ∃ r' b', optimizeFilter r c s b = .ok (r', b') ∧ Rewrites named (.filter r c s) r' := by
  cases c with
  | value v t =>
      obtain ⟨x, rfl⟩ := hconstant
      cases x with
      | true => exact ⟨r, true, rfl, filter_true_rewrites h⟩
      | false => exact ⟨.empty s, true, rfl, filter_false_rewrites h⟩
  | _ => exact ⟨_, b, rfl, .refl h⟩

omit [Platform] in
theorem optimizeFilter_boolean {c : Scalar} {r' : Relation} {b b' : Bool}
    (h : optimizeFilter r c s b = .ok (r', b')) : BooleanConstant (.filter r c s) := by
  cases c with
  | value v t =>
      cases v with
      | boolean x => exact ⟨x, rfl⟩
      | _ => cases h
  | _ => trivial

end Constant

/-! ### Nested unions -/

section Nested

/-- What stands in the place of a source. -/
def nestedSources : Relation → List Relation
  | .unionAll nested _ => nested
  | source => [source]

theorem flattenSources_eq (rs : List Relation) (b : Bool) :
    ∃ b', flattenSources rs b = .ok (rs.flatMap nestedSources, b') := by
  induction rs generalizing b with
  | nil => exact ⟨b, rfl⟩
  | cons r rs ih =>
      cases r with
      | unionAll nested s =>
          obtain ⟨b', hrs⟩ := ih true
          refine ⟨b', ?_⟩
          rw [flattenSources, Pass.setChanges_bind]
          exact Pass.bind_ok.mpr ⟨_, b', hrs, rfl⟩
      | _ =>
          obtain ⟨b', hrs⟩ := ih b
          exact ⟨b', Pass.bind_ok.mpr ⟨_, b', hrs, rfl⟩⟩

section Source

variable {named : String → Option Schema} {r q : Relation}

theorem nestedSources_ne_nil (h : r.WellFormed named) : nestedSources r ≠ [] := by
  cases r with
  | unionAll nested s => exact h.here.1
  | _ => exact List.cons_ne_nil _ _

theorem nestedSources_wellFormed (h : r.WellFormed named) (hq : q ∈ nestedSources r) :
    q.WellFormed named ∧ r.schema.fields ⊆ q.schema.fields := by
  cases r with
  | unionAll nested s => exact ⟨h.source hq, h.here.2 q hq⟩
  | _ =>
      rw [List.mem_singleton.mp hq]
      exact ⟨h, List.Subset.refl _⟩

theorem nestedSources_exposed (hq : q ∈ nestedSources r) : q.exposed ⊆ r.exposed := by
  cases r with
  | unionAll nested s =>
      intro id hid
      rw [Relation.exposed]
      exact List.mem_append_right _ (Relation.mem_exposedAll.mpr ⟨q, hq, hid⟩)
  | _ =>
      rw [List.mem_singleton.mp hq]
      exact List.Subset.refl _

theorem emits_nestedSources [Platform] {env : Env} {ss : List (List Item)} {u : List Item}
    (hss : List.Forall₂ (Emits env) (nestedSources r) ss) (hu : Shuffle ss u) :
    Emits env r u := by
  cases r with
  | unionAll nested s => exact emits_unionAll.mpr ⟨ss, hss, hu⟩
  | _ =>
      obtain ⟨s, rfl, hs⟩ := forall₂_one hss
      rw [Shuffle.single.mp hu]
      exact hs

end Source

variable [Platform] {named : String → Option Schema} {rs : List Relation} {s : Schema}

/-- The sources of nested unions, one union after the other. -/
theorem emits_flattened {env : Env} {ss : List (List Item)} {u : List Item}
    (hss : List.Forall₂ (Emits env) (rs.flatMap nestedSources) ss) (hu : Shuffle ss u) :
    ∃ ss', List.Forall₂ (Emits env) rs ss' ∧ Shuffle ss' u := by
  induction rs generalizing ss u with
  | nil =>
      cases hss
      exact ⟨[], .nil, hu⟩
  | cons r rs ih =>
      rw [List.flatMap_cons] at hss
      have hfirst := (List.forall₂_take_append _ _ _ hss.flip).flip
      have hothers := (List.forall₂_drop_append _ _ _ hss.flip).flip
      rw [← List.take_append_drop (nestedSources r).length ss] at hu
      obtain ⟨v, w, hv, hw, hint⟩ := hu.split
      obtain ⟨ss', hss', hshuffle⟩ := ih hothers hw
      exact ⟨v :: ss', .cons (emits_nestedSources hfirst hv) hss', .cons hshuffle hint⟩

theorem flatten_rewrites (h : (Relation.unionAll rs s).WellFormed named) :
    Rewrites named (.unionAll rs s) (.unionAll (rs.flatMap nestedSources) s) := by
  have hsource : ∀ q ∈ rs.flatMap nestedSources, ∃ r ∈ rs, q ∈ nestedSources r :=
    fun q hq => List.mem_flatMap.mp hq
  have hwf : (Relation.unionAll (rs.flatMap nestedSources) s).WellFormed named := by
    refine .node ⟨fun hnil => ?_, fun q hq => ?_⟩ fun q hq => ?_
    · obtain ⟨r, hr⟩ := List.exists_mem_of_ne_nil rs h.here.1
      exact nestedSources_ne_nil (h.source hr) (List.flatMap_eq_nil_iff.mp hnil r hr)
    · obtain ⟨r, hr, hq⟩ := hsource q hq
      exact List.Subset.trans (h.here.2 r hr) (nestedSources_wellFormed (h.source hr) hq).2
    · obtain ⟨r, hr, hq⟩ := hsource q hq
      exact (nestedSources_wellFormed (h.source hr) hq).1
  refine .of_refines h hwf fun env _ => ⟨List.Subset.refl _, ?_, fun u hu => ?_⟩
  · rw [Relation.exposed, Relation.exposed]
    refine Relation.append_subset_append (List.Subset.refl _) fun id hid => ?_
    obtain ⟨q, hq, hid⟩ := Relation.mem_exposedAll.mp hid
    obtain ⟨r, hr, hq⟩ := hsource q hq
    exact Relation.mem_exposedAll.mpr ⟨r, hr, nestedSources_exposed hq hid⟩
  · obtain ⟨ss, hss, hshuffle⟩ := emits_unionAll.mp hu
    obtain ⟨ss', hss', hshuffle⟩ := emits_flattened hss hshuffle
    exact ⟨u, emits_unionAll.mpr ⟨ss', hss', hshuffle⟩, .refl (AgreeOn.refl s) u⟩

end Nested

/-! ### One pass -/

section OnePass

variable [Platform] {named : String → Option Schema} {r : Relation}

theorem rule_rewrites (h : r.WellFormed named) (hconstant : BooleanConstant r) (b : Bool) :
    ∃ r' b', rule r b = .ok (r', b') ∧ Rewrites named r r' := by
  cases r with
  | projection r ps s =>
      by_cases hforward : isForwardingProjection r ps s
      · refine ⟨r, true, ?_, forwarding_rewrites h hforward⟩
        rw [rule, optimizeProjection, if_pos hforward]
        rfl
      · refine ⟨_, b, ?_, .refl h⟩
        rw [rule, optimizeProjection, if_neg hforward]
        rfl
  | filter r c s => exact optimizeFilter_rewrites h hconstant b
  | unionAll rs s =>
      obtain ⟨b', hrs⟩ := flattenSources_eq rs b
      refine ⟨_, b', ?_, flatten_rewrites h⟩
      rw [rule]
      exact Pass.bind_ok.mpr ⟨_, b', hrs, rfl⟩
  | _ => exact ⟨_, b, rfl, .refl h⟩

omit [Platform] in
theorem rule_boolean {r' : Relation} {b b' : Bool} (h : rule r b = .ok (r', b')) :
    BooleanConstant r := by
  cases r with
  | filter r c s => exact optimizeFilter_boolean h
  | _ => trivial

omit [Platform] in
theorem booleanConstant_withSources (qs : List Relation) :
    BooleanConstant (r.withSources qs) ↔ BooleanConstant r := by
  unfold Relation.withSources
  split
  case h_5 c _ _ => cases c <;> exact Iff.rfl
  all_goals exact Iff.rfl

theorem visit_rewrites (h : r.WellFormed named) (hconstant : r.Everywhere BooleanConstant) :
    ∀ b, ∃ r' b', visit rule r b = .ok (r', b') ∧ Rewrites named r r' :=
  Opt.visit_rewrites (fun _ qs hr => (booleanConstant_withSources qs).mpr hr)
    (fun _ hwf hr => rule_rewrites hwf hr) h hconstant

omit [Platform] in
/-- A pass that completes has met no constant condition of another kind. -/
theorem visit_boolean {r' : Relation} {b b' : Bool} (h : visit rule r b = .ok (r', b')) :
    r.Everywhere BooleanConstant :=
  visit_everywhere (P := BooleanConstant) (fun _ _ _ _ => rule_boolean)
    (fun _ qs => (booleanConstant_withSources qs).mp) h

end OnePass

end Lsql.Opt.RelationSimplify
