import Lsql.Plan.Plannable

/-!
# Lsql.Plan.Admissible

Requests that are granted (`requestOutput` in `back/exec/plan/plan.cpp`).

An operation verifies that a request is for a phase in which it can be read, and for fields of its
schema. In a table whose operations each ask for fields of their sources, what an operation passes on
for an admissible request is admissible again, so that no request fails.
-/

namespace Lsql.Plan

open Lsql.Exec Flow

variable [HashOrder]

/-- What `requestOutput` verifies. -/
def Admissible (ops : List Operation) (r : Request) : Prop :=
  ∃ emitter, ops[r.emitter]? = some emitter ∧ emitter.minPhase ≤ r.phase ∧
    ∀ f ∈ r.outFields, f ∈ emitter.schema.fields

omit [HashOrder] in
theorem Admissible.later {ops ops' : List Operation} (hext : Extends ops ops') {r : Request}
    (h : Admissible ops r) : Admissible ops' r := by
  obtain ⟨emitter, hemitter, hphase, hfields⟩ := h
  obtain ⟨emitter', hemitter', hlater⟩ := hext _ emitter hemitter
  exact ⟨emitter', hemitter', hlater.minPhase ▸ hphase, fun f hf => hlater.schema ▸ hfields f hf⟩

/-! ### Operations that ask for fields of their sources -/

/-- An expression whose required fields are in a schema. -/
def Within (schema : Schema) (required : FieldSet) : Prop := ∀ f ∈ required, f ∈ schema.fields

/-- What an operation with a schema asks of its sources: its expressions read their fields, and its
columns are theirs unless it computes them. The files and streams are read by the names of their
columns. -/
def OperationNode.WellPlanned (binding : FieldBinding) (input : Nat → Schema) (schema : Schema) :
    OperationNode → Prop
  | .values _ => True
  | .log _ _ _ | .stream _ => ∀ f ∈ schema.fields, (binding.entry f).isSome = true
  | .projection source projectors _ =>
    ∀ p ∈ projectors, Within (input source) p.expr.requiredFields
  | .aggregate source aggregates _ => ∀ a ∈ aggregates, Within (input source) a.expr.requiredFields
  | .group source aggregates groupKey _ =>
    (∀ a ∈ aggregates, Within (input source) a.expr.requiredFields) ∧
      ∀ k ∈ groupKey, Within (input source) k.expr.requiredFields
  | .limit source _ | .materialize source => schema.fields ⊆ (input source).fields
  | .filter source condition _ =>
    schema.fields ⊆ (input source).fields ∧ Within (input source) condition.requiredFields
  | .sort source sortKey _ | .topK source sortKey _ _ =>
    schema.fields ⊆ (input source).fields ∧
      ∀ k ∈ sortKey, Within (input source) k.requiredFields
  | .hashSemiJoin matched source scalar matchFieldId =>
    matchFieldId ∈ (input matched).fields ∧ schema.fields ⊆ (input source).fields ∧
      Within (input source) scalar.requiredFields
  | .hashMarkJoin matched source scalar matchFieldId outputFieldId =>
    matchFieldId ∈ (input matched).fields ∧ outputFieldId ∈ schema.fields ∧
      schema.fields ⊆ outputFieldId :: (input source).fields ∧
      Within (input source) scalar.requiredFields
  | .hashLeftJoin left right leftKey rightKey =>
    Within (input left) leftKey.requiredFields ∧ Within (input right) rightKey.requiredFields
  | .mergeSorted left right sortKey _ =>
    (schema.fields ⊆ (input left).fields ∧ ∀ k ∈ sortKey, Within (input left) k.requiredFields) ∧
      (schema.fields ⊆ (input right).fields ∧
        ∀ k ∈ sortKey, Within (input right) k.requiredFields)
  | .unionAll sources => sources ≠ [] ∧ ∀ source ∈ sources, schema.fields ⊆ (input source).fields

/-- A table of such operations. -/
def WellPlanned (binding : FieldBinding) (ops : List Operation) : Prop :=
  ∀ (i : Nat) (op : Operation), ops[i]? = some op →
    op.node.WellPlanned binding (schemaAt ops) op.schema

omit [HashOrder] in
theorem schemaAt_eq {ops : List Operation} {i : Nat} {op : Operation} (h : ops[i]? = some op) :
    schemaAt ops i = op.schema := by
  rw [schemaAt, h]
  rfl

omit [HashOrder] in
theorem minPhaseAt_eq {ops : List Operation} {i : Nat} {op : Operation} (h : ops[i]? = some op) :
    minPhaseAt ops i = op.minPhase := by
  rw [minPhaseAt, h]
  rfl

omit [HashOrder] in
theorem schemaAt_later {ops ops' : List Operation} (h : Extends ops ops') {i : Nat}
    (hi : i < ops.length) : schemaAt ops' i = schemaAt ops i := by
  have hop := List.getElem?_eq_getElem hi
  obtain ⟨op', hop', hlater⟩ := h i _ hop
  rw [schemaAt_eq hop', schemaAt_eq hop, hlater.schema]

omit [HashOrder] in
theorem mem_fieldSetAt {ops : List Operation} {i : Nat} {f : FieldId}
    (h : f ∈ fieldSetAt ops i) : f ∈ (schemaAt ops i).fields := by
  unfold fieldSetAt at h
  cases hop : ops[i]? with
  | none =>
      rw [hop] at h
      exact absurd h (FieldSet.not_mem_emptySet f)
  | some op =>
      rw [hop] at h
      rw [schemaAt_eq hop]
      exact h

/-- What is asked of the sources does not depend on the operations behind. -/
theorem OperationNode.WellPlanned.congr {binding : FieldBinding} {input input' : Nat → Schema}
    {schema : Schema} {node : OperationNode} (h : node.WellPlanned binding input schema)
    (hinput : ∀ j ∈ node.sources, input' j = input j) : node.WellPlanned binding input' schema := by
  cases node with
  | values | log | stream => exact h
  | projection | aggregate | group | limit | materialize | filter | sort | topK =>
      unfold WellPlanned
      dsimp only
      rw [hinput _ (List.mem_singleton_self _)]
      exact h
  | hashSemiJoin | hashMarkJoin | hashLeftJoin | mergeSorted =>
      unfold WellPlanned
      dsimp only
      rw [hinput _ List.mem_cons_self, hinput _ (List.mem_cons_of_mem _ List.mem_cons_self)]
      exact h
  | unionAll sources =>
      refine ⟨h.1, fun source hsource => ?_⟩
      rw [hinput source hsource]
      exact h.2 source hsource

theorem WellPlanned.later {binding : FieldBinding} {ops ops' : List Operation} (hsound : Sound ops)
    (h : WellPlanned binding ops) (hext : Extends ops ops') {i : Nat} {op op' : Operation}
    (hop : ops[i]? = some op) (hlater : Later op op') :
    op'.node.WellPlanned binding (schemaAt ops') op'.schema := by
  rw [hlater.node, hlater.schema]
  exact (h i op hop).congr fun j hj => schemaAt_later hext (hsound.sources_lt hop j hj)

/-! ### What an operation passes on -/

section Requests

variable {binding : FieldBinding} {ops : List Operation}

omit [HashOrder] in
/-- A request for fields of the emitter's schema, in a phase that is late enough. -/
theorem Admissible.of_within {emitter phase : Nat} {outFields : FieldSet}
    (hemitter : emitter < ops.length) (hphase : minPhaseAt ops emitter ≤ phase)
    (hfields : Within (schemaAt ops emitter) outFields) :
    Admissible ops ⟨emitter, phase, outFields⟩ := by
  have hop := List.getElem?_eq_getElem hemitter
  rw [minPhaseAt_eq hop] at hphase
  rw [schemaAt_eq hop] at hfields
  exact ⟨_, hop, hphase, hfields⟩

omit [HashOrder] in
theorem within_of_subset {a b : Schema} {set : FieldSet} (h : ∀ f ∈ set, f ∈ a.fields)
    (hsub : a.fields ⊆ b.fields) : Within b set := fun f hf => hsub (h f hf)

theorem within_merge {schema : Schema} {a b : FieldSet} (ha : Within schema a)
    (hb : Within schema b) : Within schema (a.merge b) := fun f hf =>
  (FieldSet.mem_merge.mp hf).elim (ha f) (hb f)

theorem within_requiredOf {α : Type} {schema : Schema} {list : List α} {reads : α → FieldSet}
    (h : ∀ a ∈ list, Within schema (reads a)) : Within schema (requiredOf (list.map reads)) := by
  intro f hf
  obtain ⟨set, hset, hf⟩ := mem_requiredOf.mp hf
  obtain ⟨a, ha, rfl⟩ := List.mem_map.mp hset
  exact h a ha f hf

theorem within_requiredProjectorsFields {α : Type} {schema : Schema} {list : List α}
    {reads : α → FieldId × FieldSet} (h : ∀ a ∈ list, Within schema (reads a).2)
    (required : FieldSet) : Within schema (requiredProjectorsFields (list.map reads) required) := by
  intro f hf
  obtain ⟨p, hp, hf⟩ := mem_requiredProjectorsFields hf
  obtain ⟨a, ha, rfl⟩ := List.mem_map.mp hp
  exact h a ha f hf

omit [HashOrder] in
theorem minPhaseAt_le_foldl {sources : List Nat} {source start : Nat} (h : source ∈ sources) :
    minPhaseAt ops source ≤
      sources.foldl (fun phase source => max phase (minPhaseAt ops source)) start := by
  have hstart : ∀ (sources : List Nat) (start : Nat),
      start ≤ sources.foldl (fun phase source => max phase (minPhaseAt ops source)) start := by
    intro sources
    induction sources with
    | nil => exact Nat.le_refl
    | cons s sources ih => exact fun start => Nat.le_trans (Nat.le_max_left _ _) (ih _)
  induction sources generalizing start with
  | nil => cases h
  | cons s sources ih =>
      rcases List.mem_cons.mp h with rfl | h
      · exact Nat.le_trans (Nat.le_max_right _ _) (hstart sources _)
      · exact ih h

/-- What is required of an operation is admissible, and so is what it asks for it. -/
theorem admissible_requests (hsound : Sound ops) (hplanned : WellPlanned binding ops) {i phase : Nat}
    {op : Operation} (hop : ops[i]? = some op) (hphase : op.minPhase ≤ phase)
    (hfields : Within op.schema (fieldsAt op.requiredFields phase)) :
    ∀ r ∈ requestsOf ops op phase, Admissible ops r := by
  have hnode := hplanned i op hop
  have hlt := hsound.sources_lt hop
  have hfirst := hsound.firstPhase i op hop
  -- the sources of the operation, in their order
  have hone : ∀ {q : Request}, Admissible ops q → ∀ r ∈ [q], Admissible ops r := by
    intro q hq r hr
    rw [List.mem_singleton.mp hr]
    exact hq
  have htwo : ∀ {q q' : Request}, Admissible ops q → Admissible ops q' →
      ∀ r ∈ [q, q'], Admissible ops r := by
    intro q q' hq hq' r hr
    rcases List.mem_cons.mp hr with rfl | hr
    · exact hq
    · exact hone hq' r hr
  unfold requestsOf
  unfold OperationNode.WellPlanned at hnode
  unfold OperationNode.firstPhase at hfirst
  cases hkind : op.node with
    (rw [hkind] at hnode hfirst hlt; dsimp only [OperationNode.sources] at hnode hfirst hlt ⊢)
  | values | log | stream => exact fun r hr => absurd hr List.not_mem_nil
  | aggregate source aggregates ctx =>
      exact hone (.of_within (hlt _ (by simp)) (by omega) (within_requiredOf hnode))
  | projection source projectors ctx =>
      exact hone (.of_within (hlt _ (by simp)) (by omega)
        (within_requiredProjectorsFields hnode _))
  | filter source condition ctx =>
      exact hone (.of_within (hlt _ (by simp)) (by omega)
        (within_merge (within_of_subset hfields hnode.1) hnode.2))
  | group source aggregates groupKey ctx =>
      refine hone (.of_within (hlt _ (by simp)) (by omega) (within_merge (within_merge ?_ ?_) ?_))
      · exact fun f hf => absurd hf (FieldSet.not_mem_emptySet f)
      · exact within_requiredOf hnode.2
      · exact within_requiredProjectorsFields hnode.1 _
  | limit source n =>
      exact hone (.of_within (hlt _ (by simp)) (by omega) (within_of_subset hfields hnode))
  | materialize source =>
      exact hone (.of_within (hlt _ (by simp)) (by omega) (within_of_subset hfields hnode))
  | sort source sortKey desc =>
      exact hone (.of_within (hlt _ (by simp)) (by omega)
        (within_merge (within_of_subset hfields hnode.1) (within_requiredOf hnode.2)))
  | topK source sortKey desc topCount =>
      exact hone (.of_within (hlt _ (by simp)) (by omega)
        (within_merge (within_of_subset hfields hnode.1) (within_requiredOf hnode.2)))
  | hashSemiJoin matched source scalar matchFieldId =>
      obtain ⟨hmatched, hsource, hscalar⟩ := hnode
      refine htwo (.of_within (hlt _ (by simp)) (Nat.le_refl _) fun f hf => ?_)
        (.of_within (hlt _ (by simp)) (by omega)
          (within_merge (within_of_subset hfields hsource) hscalar))
      rw [FieldSet.mem_withField.mp hf]
      exact hmatched
  | hashMarkJoin matched source scalar matchFieldId outputFieldId =>
      obtain ⟨hmatched, -, hsource, hscalar⟩ := hnode
      refine htwo (.of_within (hlt _ (by simp)) (Nat.le_refl _) fun f hf => ?_)
        (.of_within (hlt _ (by simp)) (by omega) (within_merge (fun f hf => ?_) hscalar))
      · rw [FieldSet.mem_withField.mp hf]
        exact hmatched
      · obtain ⟨hf, hne⟩ := FieldSet.mem_remove.mp hf
        exact (List.mem_cons.mp (hsource (hfields f hf))).resolve_left hne
  | hashLeftJoin left right leftKey rightKey =>
      have hinter : ∀ {j : Nat}, Within (schemaAt ops j)
          ((fieldsAt op.requiredFields phase).intersection (fieldSetAt ops j)) := fun f hf =>
        mem_fieldSetAt (FieldSet.mem_intersection.mp hf).2
      exact htwo (.of_within (hlt _ (by simp)) (by omega) (within_merge hinter hnode.1))
        (.of_within (hlt _ (by simp)) (Nat.le_refl _) (within_merge hinter hnode.2))
  | mergeSorted left right sortKey desc =>
      obtain ⟨⟨hleft, hleftKey⟩, hright, hrightKey⟩ := hnode
      exact htwo
        (.of_within (hlt _ (by simp)) (by omega)
          (within_merge (within_of_subset hfields hleft) (within_requiredOf hleftKey)))
        (.of_within (hlt _ (by simp)) (by omega)
          (within_merge (within_of_subset hfields hright) (within_requiredOf hrightKey)))
  | unionAll sources =>
      intro r hr
      obtain ⟨source, hsource, rfl⟩ := List.mem_map.mp hr
      refine .of_within (hlt _ hsource) ?_ (within_of_subset hfields (hnode.2 source hsource))
      exact Nat.le_trans (minPhaseAt_le_foldl hsource) (hfirst ▸ hphase)

end Requests

/-! ### Requests are granted -/

section Granted

variable {binding : FieldBinding}

/-- A table in which every admissible request is granted. -/
structure Ready (binding : FieldBinding) (ops : List Operation) : Prop where
  sound : Sound ops
  planned : WellPlanned binding ops

/-- Behind granted requests the operations are the same. -/
theorem Ready.answered {ops ops' : List Operation} {requests : List Request} {bound : Nat}
    (h : Ready binding ops) (hanswered : Answered ops ops' requests bound)
    (hbound : bound ≤ ops.length) : Ready binding ops' := by
  refine ⟨hanswered.served.sound, fun i op' hop' => ?_⟩
  cases hop : ops[i]? with
  | none =>
      rw [hanswered.behind i (Nat.le_trans hbound (List.getElem?_eq_none_iff.mp hop)), hop] at hop'
      cases hop'
  | some op =>
      obtain ⟨op₁, hop₁, hlater⟩ := hanswered.served.extends' i op hop
      obtain rfl := Option.some.inj (hop₁.symm.trans hop')
      exact h.planned.later h.sound hanswered.served.extends' hop hlater

theorem Ready.setAt {ops : List Operation} {i phase : Nat} {op : Operation}
    {change : FieldSet → FieldSet} (h : Ready binding ops) (hop : ops[i]? = some op)
    (hle : op.minPhase ≤ phase)
    (hgrow : ∀ f ∈ fieldsAt op.requiredFields phase, f ∈ change (fieldsAt op.requiredFields phase))
    (hschema : Within op.schema (change (fieldsAt op.requiredFields phase))) :
    Ready binding (ops.set i (op.setAt phase change)) := by
  have hlater := later_setAt (h.sound.ordered i op hop) hgrow
  have hext := extends_set hop hlater
  refine ⟨sound_set h.sound hop hle hgrow hschema, fun j other hother => ?_⟩
  rw [getElem?_set_of_some hop] at hother
  split at hother
  next heq =>
    obtain rfl := Option.some.inj hother
    exact h.planned.later h.sound hext hop hlater
  next => exact h.planned.later h.sound hext hother (Later.refl other)

section Calls

variable {fuel : Nat}
  (hcall : ∀ {ops : List Operation} {r : Request}, Ready binding ops → Admissible ops r →
    r.emitter < fuel → ∃ ops', requestOutput fuel ops r = .ok ops')

include hcall

theorem requests_granted {requests : List Request} {ops : List Operation} (h : Ready binding ops)
    (hrequests : ∀ r ∈ requests, Admissible ops r ∧ r.emitter < fuel) :
    ∃ ops', requests.foldlM (requestOutput fuel) ops = .ok ops' := by
  induction requests generalizing ops with
  | nil => exact ⟨ops, rfl⟩
  | cons r rest ih =>
      obtain ⟨hadmissible, hlt⟩ := hrequests r List.mem_cons_self
      obtain ⟨ops₁, hops₁⟩ := hcall h hadmissible hlt
      have hin : r.emitter < ops.length := by
        obtain ⟨emitter, hemitter, -⟩ := hadmissible
        exact (List.getElem?_eq_some_iff.mp hemitter).1
      have hanswered := requestOutput_answered fuel (Nat.lt_succ_self r.emitter) h.sound hops₁
      obtain ⟨ops₂, hops₂⟩ := ih (h.answered hanswered hin) fun q hq =>
        ⟨(hrequests q (List.mem_cons_of_mem r hq)).1.later hanswered.served.extends',
          (hrequests q (List.mem_cons_of_mem r hq)).2⟩
      exact ⟨ops₂, by rw [List.foldlM_cons, hops₁, ok_bind, hops₂]⟩

/-- What an operation asks for more fields in a phase is granted. -/
theorem setAt_granted {ops : List Operation} {i phase : Nat} {op : Operation}
    {change : FieldSet → FieldSet} (h : Ready binding ops) (hop : ops[i]? = some op)
    (hle : op.minPhase ≤ phase) (hi : i ≤ fuel)
    (hgrow : ∀ f ∈ fieldsAt op.requiredFields phase, f ∈ change (fieldsAt op.requiredFields phase))
    (hschema : Within op.schema (change (fieldsAt op.requiredFields phase))) :
    ∃ ops', (requestsOf (ops.set i (op.setAt phase change)) (op.setAt phase change) phase).foldlM
      (requestOutput fuel) (ops.set i (op.setAt phase change)) = .ok ops' := by
  have hset := h.setAt hop hle hgrow hschema
  have hself : (ops.set i (op.setAt phase change))[i]? = some (op.setAt phase change) := by
    rw [getElem?_set_of_some hop, if_pos rfl]
  refine requests_granted hcall hset fun r hr => ⟨?_, ?_⟩
  · exact admissible_requests hset.sound hset.planned hself hle
      (fun f hf => hset.sound.inSchema i _ hself phase f hf) r hr
  · exact Nat.lt_of_lt_of_le (hset.sound.acyclic i _ hself _ (emitter_mem hr)) hi

end Calls

/-- An admissible request is granted, and so are all that follow from it. -/
theorem requestOutput_granted {fuel : Nat} {ops : List Operation} {r : Request}
    (h : Ready binding ops) (hr : Admissible ops r) (hlt : r.emitter < fuel) :
    ∃ ops', requestOutput fuel ops r = .ok ops' := by
  induction fuel generalizing ops r with
  | zero => cases hlt
  | succ fuel ih =>
      obtain ⟨op, hop, hphase, hfields⟩ := hr
      have hcontains : op.schema.containsAll r.outFields = true :=
        List.all_eq_true.mpr fun f hf => decide_eq_true (hfields f hf)
      rw [requestOutput, hop]
      dsimp only
      rw [hcontains, decide_eq_true hphase, verify_true, ok_bind, verify_true, ok_bind]
      exact setAt_granted ih h hop hphase (Nat.le_of_lt_succ hlt)
        (fun f hf => FieldSet.mem_merge.mpr (.inl hf))
        (fun f hf => (FieldSet.mem_merge.mp hf).elim (h.sound.inSchema _ op hop _ f) (hfields f))

/-- The relation of a query is requested. -/
theorem requestTop_granted {ops : List Operation} {i : Nat} {op : Operation}
    (h : Ready binding ops) (hop : ops[i]? = some op) :
    ∃ ops', requestTop ops i = .ok ops' ∧ Ready binding ops' ∧ Extends ops ops' ∧
      ∃ op', ops'[i]? = some op' ∧ op'.minPhase ∈ op'.phases := by
  have hgrow : ∀ f ∈ fieldsAt op.requiredFields op.minPhase, f ∈ op.schema.fieldSet :=
    h.sound.inSchema i op hop op.minPhase
  have hschema : Within op.schema op.schema.fieldSet := fun _ hf => hf
  have hset : Ready binding (ops.set i (op.setAt op.minPhase fun _ => op.schema.fieldSet)) :=
    h.setAt hop (Nat.le_refl op.minPhase) hgrow hschema
  have hgranted : ∃ ops', (requestsOf (ops.set i (op.setAt op.minPhase fun _ => op.schema.fieldSet))
      (op.setAt op.minPhase fun _ => op.schema.fieldSet) op.minPhase).foldlM (requestOutput i)
        (ops.set i (op.setAt op.minPhase fun _ => op.schema.fieldSet)) = .ok ops' :=
    setAt_granted (@requestOutput_granted _ binding i) h hop (Nat.le_refl op.minPhase)
      (Nat.le_refl i) hgrow hschema
  obtain ⟨ops', hops'⟩ := hgranted
  have hbelow : ∀ r ∈ requestsOf (ops.set i (op.setAt op.minPhase fun _ => op.schema.fieldSet))
      (op.setAt op.minPhase fun _ => op.schema.fieldSet) op.minPhase, r.emitter < i := by
    intro r hr
    have hin := emitter_mem hr
    exact h.sound.acyclic i op hop _ hin
  have hanswered := answered_all (requestOutput_answered i) _ hbelow hset.sound hops'
  have hlt := (List.getElem?_eq_some_iff.mp hop).1
  have hself : ops'[i]? = some (op.setAt op.minPhase fun _ => op.schema.fieldSet) := by
    rw [hanswered.behind i (Nat.le_refl i), getElem?_set_of_some hop, if_pos rfl]
  refine ⟨ops', ?_, hset.answered hanswered (by rw [List.length_set]; exact Nat.le_of_lt hlt), ?_,
    _, hself, mem_phases_updateAt.mpr (.inl rfl)⟩
  · rw [requestTop, hop]
    exact hops'
  · exact (extends_set hop (later_setAt (h.sound.ordered i op hop) hgrow)).trans
      hanswered.served.extends'

end Granted

end Lsql.Plan
