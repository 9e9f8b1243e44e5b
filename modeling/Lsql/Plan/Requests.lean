import Lsql.Plan.Operation

/-!
# Lsql.Plan.Requests

The fields that operations request from each other (`init` and `requestOutput` in
`back/exec/plan/plan.cpp`).

The planner creates operations, each after the ones that it reads, and for every query it requests all
fields of the query's relation in the first phase in which it can be read. An operation that is
requested passes on what it needs itself, in the phase in which it reads; one that collects its input
reads in its own first phase, whatever phase it is requested in. In a table that the planner has made,
every request is satisfied.
-/

namespace Lsql.Exec

section RequiredFields

variable [HashOrder]

mutual

/-- `Scalar::requiredFields`. -/
def Scalar.requiredFields : Scalar → FieldSet
  | .identifier _ id _ => .withField id
  | .value _ => .emptySet
  | .lazy _ scalar => scalar.requiredFields
  | .coalesce _ args => Scalar.mergeRequired args .emptySet
  | .unary _ _ arg => arg.requiredFields
  | .binary _ _ left right => left.requiredFields.merge right.requiredFields
  | .nary _ _ args => Scalar.mergeRequired args .emptySet

/-- The loop over the arguments. -/
def Scalar.mergeRequired : List Scalar → FieldSet → FieldSet
  | [], set => set
  | arg :: args, set => Scalar.mergeRequired args (set.merge arg.requiredFields)

end

/-- `Aggregate::requiredFields`. -/
def Aggregate.requiredFields : Aggregate → FieldSet
  | .nullary _ _ => .emptySet
  | .unary _ _ arg => arg.requiredFields
  | .const _ _ => .emptySet

end RequiredFields

end Lsql.Exec

namespace Lsql.Plan

open Lsql.Exec

/-! ### The required fields of an operation -/

/-- `required_fields[phase]`. -/
def fieldsAt (required : List (Nat × FieldSet)) (phase : Nat) : FieldSet :=
  match required.find? fun e => e.1 == phase with
  | some e => e.2
  | none => .emptySet

/-- Setting `required_fields[phase]`; the map is ordered by its phases. -/
def updateAt (phase : Nat) (change : FieldSet → FieldSet) :
    List (Nat × FieldSet) → List (Nat × FieldSet)
  | [] => [(phase, change .emptySet)]
  | e :: rest =>
    if phase < e.1 then (phase, change .emptySet) :: e :: rest
    else if phase = e.1 then (phase, change e.2) :: rest
    else e :: updateAt phase change rest

/-- `requiredFields` of a list of expressions. -/
def requiredOf [HashOrder] (sets : List FieldSet) : FieldSet := sets.foldl FieldSet.merge .emptySet

/-- `requiredProjectorsFields`, with the projectors as their fields and what their expressions
read. -/
def requiredProjectorsFields [HashOrder] (projectors : List (FieldId × FieldSet))
    (required : FieldSet) : FieldSet :=
  projectors.foldl (fun set p => if required.contains p.1 then set.merge p.2 else set) .emptySet

def ScalarProjector.reads [HashOrder] (p : ScalarProjector) : FieldId × FieldSet :=
  (p.fieldId, p.expr.requiredFields)

def AggregateProjector.reads [HashOrder] (p : AggregateProjector) : FieldId × FieldSet :=
  (p.fieldId, p.expr.requiredFields)

/-! ### Requests -/

/-- The arguments of `requestOutput`. -/
structure Request where
  emitter : Nat
  phase : Nat
  outFields : FieldSet

/-- `source->min_phase`. -/
def minPhaseAt (ops : List Operation) (i : Nat) : Nat := (ops[i]?.map Operation.minPhase).getD 0

/-- `source->schema.fieldSet()`. -/
def fieldSetAt (ops : List Operation) (i : Nat) : FieldSet :=
  (ops[i]?.map fun op => op.schema.fieldSet).getD .emptySet

section Requests

variable [HashOrder]

/-- The overloads of `init`: the requests that an operation makes when it is requested in a phase. -/
def requestsOf (ops : List Operation) (op : Operation) (phase : Nat) : List Request :=
  let required := fieldsAt op.requiredFields phase
  match op.node with
  | .aggregate source aggregates _ =>
    [⟨source, op.minPhase, requiredOf (aggregates.map fun a => a.expr.requiredFields)⟩]
  | .filter source condition _ => [⟨source, phase, required.merge condition.requiredFields⟩]
  | .group source aggregates groupKey _ =>
    let keys := FieldSet.emptySet.merge (requiredOf (groupKey.map fun p => p.expr.requiredFields))
    [⟨source, phase,
      keys.merge (requiredProjectorsFields (aggregates.map AggregateProjector.reads) required)⟩]
  | .limit source _ => [⟨source, phase, required⟩]
  | .log _ _ _ | .stream _ | .values _ => []
  | .hashMarkJoin matched source scalar matchFieldId outputFieldId =>
    [⟨matched, minPhaseAt ops matched, .withField matchFieldId⟩,
      ⟨source, phase, (required.remove outputFieldId).merge scalar.requiredFields⟩]
  | .hashLeftJoin left right leftKey rightKey =>
    [⟨left, phase, (required.intersection (fieldSetAt ops left)).merge leftKey.requiredFields⟩,
      ⟨right, minPhaseAt ops right,
        (required.intersection (fieldSetAt ops right)).merge rightKey.requiredFields⟩]
  | .materialize source => [⟨source, op.minPhase, required⟩]
  | .mergeSorted left right sortKey _ =>
    let upstream := required.merge (requiredOf (sortKey.map Scalar.requiredFields))
    [⟨left, phase, upstream⟩, ⟨right, phase, upstream⟩]
  | .projection source projectors _ =>
    [⟨source, phase, requiredProjectorsFields (projectors.map ScalarProjector.reads) required⟩]
  | .hashSemiJoin matched source scalar matchFieldId =>
    [⟨matched, minPhaseAt ops matched, .withField matchFieldId⟩,
      ⟨source, phase, required.merge scalar.requiredFields⟩]
  | .sort source sortKey _ | .topK source sortKey _ _ =>
    [⟨source, phase, required.merge (requiredOf (sortKey.map Scalar.requiredFields))⟩]
  | .unionAll sources => sources.map fun source => ⟨source, phase, required⟩

/-- `requestOutput`. An operation reads earlier ones, so that calls nest at most as deep as there are
operations in front of it. -/
def requestOutput : Nat → List Operation → Request → Except Fault (List Operation)
  | 0, _, _ => .error (.undefined "operations nest too deep")
  | fuel + 1, ops, r =>
    match ops[r.emitter]? with
    | none => .error (.undefined "no such operation")
    | some emitter => do
      verify (decide (emitter.minPhase ≤ r.phase)) "verify(emitter->min_phase <= phase) failed "
      verify (emitter.schema.containsAll r.outFields)
        "verify(emitter->schema.contains(out_fields)) failed "
      let emitter := { emitter with
        requiredFields := updateAt r.phase (fun set => set.merge r.outFields)
          emitter.requiredFields }
      let ops := ops.set r.emitter emitter
      (requestsOf ops emitter r.phase).foldlM (requestOutput fuel) ops

/-- `planStatement(ir::QueryStatement)`, behind the planning of its relation. -/
def requestTop (ops : List Operation) (i : Nat) : Except Fault (List Operation) :=
  match ops[i]? with
  | none => .error (.undefined "no such operation")
  | some rel => do
    let rel := { rel with
      requiredFields := updateAt rel.minPhase (fun _ => rel.schema.fieldSet) rel.requiredFields }
    let ops := ops.set i rel
    (requestsOf ops rel rel.minPhase).foldlM (requestOutput i) ops

/-- The phase in which a new operation can be read first, as `planRelation` computes it from the
operations that it reads. -/
def OperationNode.firstPhase (ops : List Operation) : OperationNode → Nat
  | .aggregate source _ _ | .projection source _ _ | .filter source _ _ | .group source _ _ _
  | .limit source _ | .materialize source | .sort source _ _ | .topK source _ _ _ =>
    minPhaseAt ops source
  | .log _ _ _ | .stream _ | .values _ => 0
  | .hashMarkJoin matched source _ _ _ | .hashSemiJoin matched source _ _ =>
    max (minPhaseAt ops matched + 1) (minPhaseAt ops source)
  | .hashLeftJoin left right _ _ => max (minPhaseAt ops left) (minPhaseAt ops right + 1)
  | .mergeSorted left right _ _ => max (minPhaseAt ops left) (minPhaseAt ops right)
  | .unionAll sources => sources.foldl (fun phase source => max phase (minPhaseAt ops source)) 0

/-- `arc(Operation{...})`. -/
def newOperation (ops : List Operation) (node : OperationNode) (schema : Schema) : Operation where
  node := node
  minPhase := node.firstPhase ops
  schema := schema
  requiredFields := []

/-- A table of operations that the planner can have made: it creates an operation after those that it
reads, and it requests the relation of a query. -/
inductive Planned : List Operation → Prop
  | empty : Planned []
  | operation {ops : List Operation} (node : OperationNode) (schema : Schema) : Planned ops →
    (∀ j ∈ node.sources, j < ops.length) → Planned (ops ++ [newOperation ops node schema])
  | query {ops ops' : List Operation} (i : Nat) : Planned ops → requestTop ops i = .ok ops' →
    Planned ops'

/-! ### Setting the required fields of a phase -/

omit [HashOrder] in
theorem fieldsAt_updateAt_of_ne {phase other : Nat} (h : other ≠ phase)
    (change : FieldSet → FieldSet) (required : List (Nat × FieldSet)) :
    fieldsAt (updateAt phase change required) other = fieldsAt required other := by
  have hhead : ∀ {set : FieldSet} {rest : List (Nat × FieldSet)},
      fieldsAt ((phase, set) :: rest) other = fieldsAt rest other := by
    intro set rest
    rw [fieldsAt, List.find?_cons_of_neg (by simpa using Ne.symm h), ← fieldsAt]
  induction required with
  | nil => exact hhead
  | cons e rest ih =>
      rw [updateAt]
      split
      · exact hhead
      · split
        next heq =>
          obtain ⟨p, set⟩ := e
          obtain rfl : phase = p := heq
          rw [hhead, hhead]
        · by_cases he : e.1 = other
          · rw [fieldsAt, fieldsAt, List.find?_cons_of_pos (by simpa using he),
              List.find?_cons_of_pos (by simpa using he)]
          · rw [fieldsAt, fieldsAt, List.find?_cons_of_neg (by simpa using he),
              List.find?_cons_of_neg (by simpa using he), ← fieldsAt, ih, fieldsAt]

omit [HashOrder] in
theorem fieldsAt_updateAt_self {phase : Nat} (change : FieldSet → FieldSet)
    {required : List (Nat × FieldSet)} (h : (required.map Prod.fst).Pairwise (· < ·)) :
    fieldsAt (updateAt phase change required) phase = change (fieldsAt required phase) := by
  have hhead : ∀ {set : FieldSet} {rest : List (Nat × FieldSet)},
      fieldsAt ((phase, set) :: rest) phase = set := by
    intro set rest
    rw [fieldsAt, List.find?_cons_of_pos (by simp)]
  induction required with
  | nil => exact hhead
  | cons e rest ih =>
      rw [List.map_cons, List.pairwise_cons] at h
      rw [updateAt]
      split
      next hlt =>
        -- the phase is in front of all others
        have hnone : (e :: rest).find? (fun e => e.1 == phase) = none := by
          refine List.find?_eq_none.mpr fun e' he' => ?_
          rw [beq_iff_eq]
          rcases List.mem_cons.mp he' with rfl | he'
          · omega
          · have := h.1 e'.1 (List.mem_map_of_mem he')
            omega
        rw [hhead, fieldsAt, hnone]
      · split
        next heq =>
          obtain ⟨p, set⟩ := e
          obtain rfl : phase = p := heq
          rw [hhead, hhead]
        next hne =>
          rw [fieldsAt, List.find?_cons_of_neg (by simpa using Ne.symm hne), ← fieldsAt, ih h.2]
          rw [fieldsAt, fieldsAt, List.find?_cons_of_neg (by simpa using Ne.symm hne)]

omit [HashOrder] in
theorem mem_phases_updateAt {phase other : Nat} {change : FieldSet → FieldSet}
    {required : List (Nat × FieldSet)} :
    other ∈ (updateAt phase change required).map Prod.fst ↔
      other = phase ∨ other ∈ required.map Prod.fst := by
  induction required with
  | nil => simp [updateAt]
  | cons e rest ih =>
      rw [updateAt]
      split
      · simp
      · split
        next heq => simp [heq]
        · rw [List.map_cons, List.mem_cons, ih, List.map_cons, List.mem_cons]
          exact or_left_comm

omit [HashOrder] in
theorem pairwise_updateAt {phase : Nat} {change : FieldSet → FieldSet}
    {required : List (Nat × FieldSet)} (h : (required.map Prod.fst).Pairwise (· < ·)) :
    ((updateAt phase change required).map Prod.fst).Pairwise (· < ·) := by
  induction required with
  | nil => exact List.pairwise_singleton _ _
  | cons e rest ih =>
      have hcons := List.pairwise_cons.mp h
      rw [updateAt]
      split
      next hlt =>
        refine List.pairwise_cons.mpr ⟨fun other hother => ?_, h⟩
        rcases List.mem_cons.mp hother with rfl | hother
        · exact hlt
        · exact Nat.lt_trans hlt (hcons.1 other hother)
      next hge =>
        split
        next heq =>
          rw [List.map_cons, heq]
          exact h
        next hne =>
          refine List.pairwise_cons.mpr ⟨fun other hother => ?_, ih hcons.2⟩
          rcases mem_phases_updateAt.mp hother with rfl | hother
          · omega
          · exact hcons.1 other hother

/-! ### Tables that grow -/

/-- The same operation later: more of its fields are required, perhaps in more phases. -/
structure Later (op op' : Operation) : Prop where
  node : op'.node = op.node
  minPhase : op'.minPhase = op.minPhase
  schema : op'.schema = op.schema
  fields : ∀ phase, ∀ f ∈ fieldsAt op.requiredFields phase, f ∈ fieldsAt op'.requiredFields phase
  phases : op.phases ⊆ op'.phases

/-- A table later: its operations are where they were. -/
def Extends (ops ops' : List Operation) : Prop :=
  ∀ (i : Nat) (op : Operation), ops[i]? = some op → ∃ op', ops'[i]? = some op' ∧ Later op op'

omit [HashOrder] in
theorem Later.refl (op : Operation) : Later op op :=
  ⟨rfl, rfl, rfl, fun _ _ h => h, List.Subset.refl _⟩

omit [HashOrder] in
theorem Later.trans {a b c : Operation} (h : Later a b) (h' : Later b c) : Later a c where
  node := h'.node.trans h.node
  minPhase := h'.minPhase.trans h.minPhase
  schema := h'.schema.trans h.schema
  fields phase f hf := h'.fields phase f (h.fields phase f hf)
  phases := List.Subset.trans h.phases h'.phases

omit [HashOrder] in
theorem Extends.refl (ops : List Operation) : Extends ops ops :=
  fun _ op hop => ⟨op, hop, Later.refl op⟩

omit [HashOrder] in
theorem Extends.trans {a b c : List Operation} (h : Extends a b) (h' : Extends b c) :
    Extends a c := by
  intro i op hop
  obtain ⟨op₁, hop₁, hlater₁⟩ := h i op hop
  obtain ⟨op₂, hop₂, hlater₂⟩ := h' i op₁ hop₁
  exact ⟨op₂, hop₂, hlater₁.trans hlater₂⟩

/-- A request that its emitter has met. -/
def Satisfied (ops : List Operation) (r : Request) : Prop :=
  ∃ op, ops[r.emitter]? = some op ∧ r.phase ∈ op.phases ∧
    ∀ f ∈ r.outFields, f ∈ fieldsAt op.requiredFields r.phase

omit [HashOrder] in
theorem Satisfied.later {ops ops' : List Operation} {r : Request} (h : Satisfied ops r)
    (hext : Extends ops ops') : Satisfied ops' r := by
  obtain ⟨op, hop, hphase, hfields⟩ := h
  obtain ⟨op', hop', hlater⟩ := hext _ op hop
  exact ⟨op', hop', hlater.phases hphase, fun f hf => hlater.fields _ f (hfields f hf)⟩

/-- What an operation needs in a phase in which it is required has been requested. -/
def SuppliedAt (ops : List Operation) (i phase : Nat) : Prop :=
  ∀ op, ops[i]? = some op → phase ∈ op.phases → ∀ r ∈ requestsOf ops op phase, Satisfied ops r

/-- What holds of every table. -/
structure Sound (ops : List Operation) : Prop where
  acyclic : ∀ (i : Nat) (op : Operation), ops[i]? = some op → ∀ j ∈ op.node.sources, j < i
  firstPhase : ∀ (i : Nat) (op : Operation), ops[i]? = some op → op.minPhase = op.node.firstPhase ops
  ordered : ∀ (i : Nat) (op : Operation), ops[i]? = some op → op.phases.Pairwise (· < ·)
  minPhase_le : ∀ (i : Nat) (op : Operation), ops[i]? = some op →
    ∀ phase ∈ op.phases, op.minPhase ≤ phase
  inSchema : ∀ (i : Nat) (op : Operation), ops[i]? = some op →
    ∀ phase, ∀ f ∈ fieldsAt op.requiredFields phase, f ∈ op.schema.fields

omit [HashOrder] in
theorem Sound.sources_lt {ops : List Operation} (h : Sound ops) {i : Nat} {op : Operation}
    (hop : ops[i]? = some op) : ∀ j ∈ op.node.sources, j < ops.length := fun j hj =>
  Nat.lt_trans (h.acyclic i op hop j hj) (List.getElem?_eq_some_iff.mp hop).1

/-- A request goes to an operation that is read. -/
theorem emitter_mem {ops : List Operation} {op : Operation} {phase : Nat} {r : Request}
    (h : r ∈ requestsOf ops op phase) : r.emitter ∈ op.node.sources := by
  have hone : ∀ {q : Request} {source : Nat}, r ∈ [q] → q.emitter = source →
      r.emitter ∈ [source] := by
    rintro q source hr rfl
    rw [List.mem_singleton.mp hr]
    exact List.mem_singleton_self _
  have htwo : ∀ {q q' : Request}, r ∈ [q, q'] → r.emitter = q.emitter ∨ r.emitter = q'.emitter := by
    intro q q' hr
    rcases List.mem_cons.mp hr with rfl | hr
    · exact .inl rfl
    · exact .inr (congrArg Request.emitter (List.mem_singleton.mp hr))
  unfold requestsOf at h
  cases hnode : op.node with rw [hnode] at h
  | aggregate | filter | group | limit | materialize | projection | sort | topK =>
      exact hone h rfl
  | log | stream | values => exact absurd h List.not_mem_nil
  | hashMarkJoin | hashLeftJoin | mergeSorted | hashSemiJoin =>
      rcases htwo h with heq | heq <;> simp [OperationNode.sources, heq]
  | unionAll sources =>
      obtain ⟨source, hsource, rfl⟩ := List.mem_map.mp h
      exact hsource

section Static

variable {ops ops' : List Operation}

omit [HashOrder] in
theorem minPhaseAt_later (h : Extends ops ops') {i : Nat} (hi : i < ops.length) :
    minPhaseAt ops' i = minPhaseAt ops i := by
  obtain ⟨op', hop', hlater⟩ := h i _ (List.getElem?_eq_getElem hi)
  rw [minPhaseAt, minPhaseAt, hop', List.getElem?_eq_getElem hi]
  exact hlater.minPhase

omit [HashOrder] in
theorem fieldSetAt_later (h : Extends ops ops') {i : Nat} (hi : i < ops.length) :
    fieldSetAt ops' i = fieldSetAt ops i := by
  obtain ⟨op', hop', hlater⟩ := h i _ (List.getElem?_eq_getElem hi)
  rw [fieldSetAt, fieldSetAt, hop', List.getElem?_eq_getElem hi]
  exact congrArg Schema.fieldSet hlater.schema

/-- The requests of an operation depend on the fields that are required in the phase, and on what
does not change. -/
theorem requestsOf_later (h : Extends ops ops') {op op' : Operation} {phase : Nat}
    (hin : ∀ j ∈ op.node.sources, j < ops.length) (hlater : Later op op')
    (hfields : fieldsAt op'.requiredFields phase = fieldsAt op.requiredFields phase) :
    requestsOf ops' op' phase = requestsOf ops op phase := by
  unfold requestsOf
  rw [hlater.node, hlater.minPhase, hfields]
  cases hnode : op.node with
  | hashMarkJoin matched source | hashSemiJoin matched source =>
      have hmatched : matched < ops.length := hin matched (by simp [hnode, OperationNode.sources])
      simp only [minPhaseAt_later h hmatched]
  | hashLeftJoin left right =>
      have hleft : left < ops.length := hin left (by simp [hnode, OperationNode.sources])
      have hright : right < ops.length := hin right (by simp [hnode, OperationNode.sources])
      simp only [minPhaseAt_later h hright, fieldSetAt_later h hleft, fieldSetAt_later h hright]
  | _ => rfl

omit [HashOrder] in
theorem firstPhase_later (h : Extends ops ops') {node : OperationNode}
    (hin : ∀ j ∈ node.sources, j < ops.length) : node.firstPhase ops' = node.firstPhase ops := by
  have hone : ∀ {j : Nat}, j ∈ node.sources → minPhaseAt ops' j = minPhaseAt ops j := fun hj =>
    minPhaseAt_later h (hin _ hj)
  cases node with
  | unionAll sources =>
      unfold OperationNode.firstPhase
      refine List.foldl_ext _ _ _ fun phase j hj => ?_
      rw [hone hj]
  | log | stream | values => rfl
  | aggregate | projection | filter | group | limit | materialize | sort | topK =>
      exact hone (List.mem_singleton_self _)
  | hashMarkJoin first second | hashSemiJoin first second | hashLeftJoin first second
  | mergeSorted first second =>
      have hfirst := hone (j := first) (by simp [OperationNode.sources])
      have hsecond := hone (j := second) (by simp [OperationNode.sources])
      simp only [OperationNode.firstPhase, hfirst, hsecond]

end Static

/-! ### One update and the requests behind it -/

/-- A table behind calls of `requestOutput`: what has been supplied still is. -/
structure Served (ops ops' : List Operation) : Prop where
  extends' : Extends ops ops'
  sound : Sound ops'
  supplied : ∀ j phase, SuppliedAt ops j phase → SuppliedAt ops' j phase

theorem Served.refl {ops : List Operation} (h : Sound ops) : Served ops ops :=
  ⟨Extends.refl ops, h, fun _ _ h => h⟩

theorem Served.trans {a b c : List Operation} (h : Served a b) (h' : Served b c) : Served a c :=
  ⟨h.extends'.trans h'.extends', h'.sound, fun j phase hs => h'.supplied j phase (h.supplied j phase hs)⟩

/-- An operation whose required fields in a phase are set. -/
def Operation.setAt (op : Operation) (phase : Nat) (change : FieldSet → FieldSet) : Operation :=
  { op with requiredFields := updateAt phase change op.requiredFields }

section Update

variable {ops ops' : List Operation} {i phase : Nat} {op : Operation}
  {change : FieldSet → FieldSet}

omit [HashOrder] in
theorem later_setAt (hordered : op.phases.Pairwise (· < ·))
    (hgrow : ∀ f ∈ fieldsAt op.requiredFields phase, f ∈ change (fieldsAt op.requiredFields phase)) :
    Later op (op.setAt phase change) where
  node := rfl
  minPhase := rfl
  schema := rfl
  fields other f hf := by
    by_cases hother : other = phase
    · rw [hother] at hf ⊢
      show f ∈ fieldsAt (updateAt phase change op.requiredFields) phase
      rw [fieldsAt_updateAt_self change hordered]
      exact hgrow f hf
    · show f ∈ fieldsAt (updateAt phase change op.requiredFields) other
      rwa [fieldsAt_updateAt_of_ne hother]
  phases other hother := mem_phases_updateAt.mpr (.inr hother)

omit [HashOrder] in
theorem getElem?_set_of_some {op' : Operation} (hop : ops[i]? = some op) (j : Nat) :
    (ops.set i op')[j]? = if i = j then some op' else ops[j]? := by
  have hi := (List.getElem?_eq_some_iff.mp hop).1
  simp only [List.getElem?_set, hi, if_true]

omit [HashOrder] in
theorem extends_set (hop : ops[i]? = some op) {op' : Operation} (hlater : Later op op') :
    Extends ops (ops.set i op') := by
  intro j other hother
  rw [getElem?_set_of_some hop]
  split
  next heq =>
    rw [← heq, hop] at hother
    cases hother
    exact ⟨op', rfl, hlater⟩
  · exact ⟨other, hother, Later.refl other⟩

omit [HashOrder] in
theorem sound_set (hsound : Sound ops) (hop : ops[i]? = some op) (hle : op.minPhase ≤ phase)
    (hgrow : ∀ f ∈ fieldsAt op.requiredFields phase, f ∈ change (fieldsAt op.requiredFields phase))
    (hschema : ∀ f ∈ change (fieldsAt op.requiredFields phase), f ∈ op.schema.fields) :
    Sound (ops.set i (op.setAt phase change)) := by
  have hordered := hsound.ordered i op hop
  have hext := extends_set hop (later_setAt hordered hgrow)
  -- a property of every operation is kept if the one that is set has it
  have hall : ∀ {P : Nat → Operation → Prop},
      (∀ (j : Nat) (other : Operation), ops[j]? = some other → P j other) →
      P i (op.setAt phase change) →
      ∀ (j : Nat) (other : Operation),
        (ops.set i (op.setAt phase change))[j]? = some other → P j other := by
    intro P hothers hself j other hother
    rw [getElem?_set_of_some hop] at hother
    split at hother
    next heq =>
      rw [← heq, ← Option.some.inj hother]
      exact hself
    · exact hothers j other hother
  exact {
    acyclic := hall hsound.acyclic (hsound.acyclic i op hop)
    firstPhase := by
      refine hall (fun j other hother => ?_) ?_
      · rw [hsound.firstPhase j other hother, firstPhase_later hext (hsound.sources_lt hother)]
      · show op.minPhase = op.node.firstPhase _
        rw [hsound.firstPhase i op hop, firstPhase_later hext (hsound.sources_lt hop)]
    ordered := hall hsound.ordered (pairwise_updateAt hordered)
    minPhase_le := by
      refine hall hsound.minPhase_le fun other hother => ?_
      rcases mem_phases_updateAt.mp hother with rfl | hother
      · exact hle
      · exact hsound.minPhase_le i op hop other hother
    inSchema := by
      refine hall hsound.inSchema fun other f hf => ?_
      change f ∈ fieldsAt (updateAt phase change op.requiredFields) other at hf
      by_cases hother : other = phase
      · rw [hother, fieldsAt_updateAt_self change hordered] at hf
        exact hschema f hf
      · rw [fieldsAt_updateAt_of_ne hother] at hf
        exact hsound.inSchema i op hop other f hf }

/-- What has been supplied elsewhere still is. -/
theorem suppliedAt_set (hsound : Sound ops) (hop : ops[i]? = some op)
    (hgrow : ∀ f ∈ fieldsAt op.requiredFields phase, f ∈ change (fieldsAt op.requiredFields phase))
    {j other : Nat} (hne : ¬ (j = i ∧ other = phase)) (h : SuppliedAt ops j other) :
    SuppliedAt (ops.set i (op.setAt phase change)) j other := by
  have hlater := @later_setAt phase op change (hsound.ordered i op hop) hgrow
  have hext := extends_set hop hlater
  intro op' hop' hphase r hr
  rw [getElem?_set_of_some hop] at hop'
  split at hop'
  next heq =>
    obtain rfl := heq
    obtain rfl := Option.some.inj hop'
    have hother : other ≠ phase := fun heq => hne ⟨rfl, heq⟩
    rw [requestsOf_later hext (hsound.sources_lt hop) hlater (fieldsAt_updateAt_of_ne hother change _)] at hr
    have hphase' := (mem_phases_updateAt.mp hphase).resolve_left hother
    exact (h op hop hphase' r hr).later hext
  · rw [requestsOf_later hext (hsound.sources_lt hop') (Later.refl op') rfl] at hr
    exact (h op' hop' hphase r hr).later hext

end Update

/-! ### The calls of `requestOutput` -/

/-- What a call does: the request is satisfied, and from some index on no operation changes. -/
structure Answered (ops ops' : List Operation) (requests : List Request) (bound : Nat) : Prop where
  served : Served ops ops'
  satisfied : ∀ r ∈ requests, Satisfied ops' r
  behind : ∀ j, bound ≤ j → ops'[j]? = ops[j]?

section Calls

variable {call : List Operation → Request → Except Fault (List Operation)} {i : Nat}
  (hcall : ∀ {ops ops' : List Operation} {r : Request}, r.emitter < i → Sound ops →
    call ops r = .ok ops' → Answered ops ops' [r] i)

include hcall

theorem answered_all (requests : List Request) :
    ∀ {ops ops' : List Operation}, (∀ r ∈ requests, r.emitter < i) → Sound ops →
      requests.foldlM call ops = .ok ops' → Answered ops ops' requests i := by
  induction requests with
  | nil =>
      intro ops ops' _ hsound hfold
      obtain rfl := Except.ok.inj hfold
      exact ⟨Served.refl hsound, fun r hr => absurd hr List.not_mem_nil, fun _ _ => rfl⟩
  | cons r rest ih =>
      intro ops ops' hlt hsound hfold
      rw [List.foldlM_cons] at hfold
      obtain ⟨ops₁, hfirst, hrest⟩ := bind_eq_ok.mp hfold
      have h₁ := hcall (hlt r List.mem_cons_self) hsound hfirst
      have h₂ := ih (fun q hq => hlt q (List.mem_cons_of_mem r hq)) h₁.served.sound hrest
      refine ⟨h₁.served.trans h₂.served, fun q hq => ?_, fun j hj => ?_⟩
      · rcases List.mem_cons.mp hq with rfl | hq
        · exact (h₁.satisfied q (List.mem_singleton_self q)).later h₂.served.extends'
        · exact h₂.satisfied q hq
      · rw [h₂.behind j hj, h₁.behind j hj]

/-- One more phase, or more fields in a phase: everything that the operation needs for it is
requested. -/
theorem served_setAt (change : FieldSet → FieldSet) {ops ops' : List Operation} {op : Operation}
    {phase : Nat} (hsound : Sound ops) (hop : ops[i]? = some op) (hle : op.minPhase ≤ phase)
    (hgrow : ∀ f ∈ fieldsAt op.requiredFields phase, f ∈ change (fieldsAt op.requiredFields phase))
    (hschema : ∀ f ∈ change (fieldsAt op.requiredFields phase), f ∈ op.schema.fields)
    (hfold : (requestsOf (ops.set i (op.setAt phase change)) (op.setAt phase change) phase).foldlM
      call (ops.set i (op.setAt phase change)) = .ok ops') :
    Served ops ops' ∧ ops'[i]? = some (op.setAt phase change) ∧
      ∀ j, i < j → ops'[j]? = ops[j]? := by
  have hset := sound_set hsound hop hle hgrow hschema
  have hlater := later_setAt (hsound.ordered i op hop) hgrow
  have hbelow : ∀ j ∈ (op.setAt phase change).node.sources, j < i := hsound.acyclic i op hop
  obtain ⟨hserved, hsatisfied, hbehind⟩ := answered_all hcall _
    (fun r hr => hbelow _ (emitter_mem hr)) hset hfold
  have hself : ops'[i]? = some (op.setAt phase change) := by
    rw [hbehind i (Nat.le_refl i), getElem?_set_of_some hop, if_pos rfl]
  refine ⟨⟨(extends_set hop hlater).trans hserved.extends', hserved.sound, ?_⟩, hself, ?_⟩
  · intro j other hsupplied
    by_cases heq : j = i ∧ other = phase
    · obtain ⟨rfl, rfl⟩ := heq
      intro op' hop' _ r hr
      obtain rfl := Option.some.inj (hop'.symm.trans hself)
      refine hsatisfied r ?_
      rwa [requestsOf_later hserved.extends' (fun k hk => ?_) (Later.refl _) rfl] at hr
      rw [List.length_set]
      exact Nat.lt_trans (hbelow k hk) (List.getElem?_eq_some_iff.mp hop).1
    · exact hserved.supplied j other (suppliedAt_set hsound hop hgrow heq hsupplied)
  · intro j hj
    rw [hbehind j (Nat.le_of_lt hj), getElem?_set_of_some hop, if_neg (Nat.ne_of_lt hj)]

end Calls

theorem requestOutput_answered (fuel : Nat) :
    ∀ {ops ops' : List Operation} {r : Request} {bound : Nat}, r.emitter < bound → Sound ops →
      requestOutput fuel ops r = .ok ops' → Answered ops ops' [r] bound := by
  induction fuel with
  | zero =>
      intro ops ops' r bound _ _ h
      cases h
  | succ fuel ih =>
      intro ops ops' r bound hlt hsound h
      rw [requestOutput] at h
      cases hop : ops[r.emitter]? with
      | none =>
          rw [hop] at h
          cases h
      | some op =>
          rw [hop] at h
          obtain ⟨_, hle, h⟩ := bind_eq_ok.mp h
          obtain ⟨_, hcontains, hfold⟩ := bind_eq_ok.mp h
          have hin : ∀ f ∈ r.outFields, f ∈ op.schema.fields := fun f hf =>
            of_decide_eq_true (List.all_eq_true.mp (verify_eq_ok.mp hcontains) f hf)
          obtain ⟨hserved, hself, hbehind⟩ := served_setAt
            ih (fun set => set.merge r.outFields) hsound hop
            (of_decide_eq_true (verify_eq_ok.mp hle))
            (fun f hf => FieldSet.mem_merge.mpr (.inl hf))
            (fun f hf => (FieldSet.mem_merge.mp hf).elim (hsound.inSchema _ op hop _ f) (hin f))
            hfold
          refine ⟨hserved, fun q hq => ?_, fun j hj => hbehind j (Nat.lt_of_lt_of_le hlt hj)⟩
          rw [List.mem_singleton.mp hq]
          refine ⟨_, hself, mem_phases_updateAt.mpr (.inl rfl), fun f hf => ?_⟩
          change f ∈ fieldsAt (updateAt r.phase _ op.requiredFields) r.phase
          rw [fieldsAt_updateAt_self _ (hsound.ordered _ op hop)]
          exact FieldSet.mem_merge.mpr (.inr hf)

theorem requestTop_served {ops ops' : List Operation} {i : Nat} (hsound : Sound ops)
    (h : requestTop ops i = .ok ops') : Served ops ops' := by
  rw [requestTop] at h
  cases hop : ops[i]? with
  | none =>
      rw [hop] at h
      cases h
  | some op =>
      rw [hop] at h
      exact (served_setAt (requestOutput_answered i) (fun _ => op.schema.fieldSet) hsound
        hop (Nat.le_refl _) (hsound.inSchema i op hop _) (fun _ hf => hf) h).1

/-! ### Tables that the planner makes -/

omit [HashOrder] in
theorem getElem?_concat_eq_some {ops : List Operation} {op other : Operation} {j : Nat} :
    (ops ++ [op])[j]? = some other ↔ ops[j]? = some other ∨ j = ops.length ∧ other = op := by
  rcases Nat.lt_trichotomy j ops.length with hlt | rfl | hgt
  · rw [List.getElem?_append_left hlt]
    exact (or_iff_left fun h => absurd h.1 (Nat.ne_of_lt hlt)).symm
  · simp [eq_comm]
  · rw [List.getElem?_eq_none (by rw [List.length_append]; exact hgt),
      List.getElem?_eq_none (Nat.le_of_lt hgt)]
    simp [Nat.ne_of_gt hgt]

omit [HashOrder] in
theorem extends_append (ops : List Operation) (op : Operation) : Extends ops (ops ++ [op]) :=
  fun _ other hother => ⟨other, getElem?_concat_eq_some.mpr (.inl hother), Later.refl other⟩

omit [HashOrder] in
/-- A new operation is not required yet. -/
theorem sound_append {ops : List Operation} {node : OperationNode} {schema : Schema}
    (hsound : Sound ops) (hin : ∀ j ∈ node.sources, j < ops.length) :
    Sound (ops ++ [newOperation ops node schema]) := by
  have hext := extends_append ops (newOperation ops node schema)
  have hall : ∀ {P : Nat → Operation → Prop},
      (∀ (j : Nat) (other : Operation), ops[j]? = some other → P j other) →
      P ops.length (newOperation ops node schema) →
      ∀ (j : Nat) (other : Operation),
        (ops ++ [newOperation ops node schema])[j]? = some other → P j other := by
    intro P hothers hself j other hother
    rcases getElem?_concat_eq_some.mp hother with hother | ⟨rfl, rfl⟩
    · exact hothers j other hother
    · exact hself
  exact {
    acyclic := hall hsound.acyclic hin
    firstPhase := by
      refine hall (fun j other hother => ?_) (firstPhase_later hext hin).symm
      rw [hsound.firstPhase j other hother, firstPhase_later hext (hsound.sources_lt hother)]
    ordered := hall hsound.ordered List.Pairwise.nil
    minPhase_le := hall hsound.minPhase_le fun _ h => absurd h List.not_mem_nil
    inSchema := hall hsound.inSchema fun _ _ h => absurd h List.not_mem_nil }

theorem Planned.sound_supplied {ops : List Operation} (h : Planned ops) :
    Sound ops ∧ ∀ i phase, SuppliedAt ops i phase := by
  induction h with
  | empty =>
      have hnone : ∀ {i : Nat} {op : Operation}, ([] : List Operation)[i]? ≠ some op := by
        intro i op h
        cases h
      exact ⟨⟨fun _ _ h => absurd h hnone, fun _ _ h => absurd h hnone, fun _ _ h => absurd h hnone,
        fun _ _ h => absurd h hnone, fun _ _ h => absurd h hnone⟩, fun _ _ _ h => absurd h hnone⟩
  | @operation ops node schema _ hin ih =>
      refine ⟨sound_append ih.1 hin, fun i phase op hop hphase r hr => ?_⟩
      rcases getElem?_concat_eq_some.mp hop with hop | ⟨-, rfl⟩
      · have hext := extends_append ops (newOperation ops node schema)
        rw [requestsOf_later hext (ih.1.sources_lt hop) (Later.refl op) rfl] at hr
        exact (ih.2 i phase op hop hphase r hr).later hext
      · exact absurd hphase List.not_mem_nil
  | query i _ hrequest ih =>
      have hserved := requestTop_served ih.1 hrequest
      exact ⟨hserved.sound, fun j phase => hserved.supplied j phase (ih.2 j phase)⟩

/-- The source of a materialized relation is asked, in the phase in which it is collected, for all
fields that are required of the relation in any phase. -/
theorem Planned.materialize_requested {ops : List Operation} (h : Planned ops) {i source : Nat}
    {op : Operation} (hop : ops[i]? = some op) (hnode : op.node = .materialize source) :
    ∃ src, ops[source]? = some src ∧ src.minPhase = op.minPhase ∧
      ∀ phase ∈ op.phases, op.minPhase ∈ src.phases ∧
        ∀ f ∈ fieldsAt op.requiredFields phase, f ∈ fieldsAt src.requiredFields op.minPhase := by
  obtain ⟨hsound, hsupplied⟩ := h.sound_supplied
  have hsource : source < ops.length := hsound.sources_lt hop source (by
    rw [hnode]
    exact List.mem_singleton_self source)
  have hsrc := List.getElem?_eq_getElem hsource
  refine ⟨_, hsrc, ?_, fun phase hphase => ?_⟩
  · rw [hsound.firstPhase i op hop, hnode, OperationNode.firstPhase, minPhaseAt, hsrc]
    rfl
  · have hr : ⟨source, op.minPhase, fieldsAt op.requiredFields phase⟩ ∈ requestsOf ops op phase := by
      rw [requestsOf, hnode]
      exact List.mem_singleton_self _
    obtain ⟨src, hsrc', hmem, hfields⟩ := hsupplied i phase op hop hphase _ hr
    obtain rfl := Option.some.inj (hsrc.symm.trans hsrc')
    exact ⟨hmem, hfields⟩

end Requests

end Lsql.Plan
