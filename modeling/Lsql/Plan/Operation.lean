import Lsql.Core.TimeFormat
import Lsql.Exec.Scalar

/-!
# Lsql.Plan.Operation

The query plan (`back/exec/plan`): a graph of operations, and the phases in which the output of each
is required.

An operation is read in phases. Those that need all their input before they answer (the two halves
of a join, an aggregate, a materialized relation) read their input in one phase and answer in later
ones, so the phase in which an operation can be read first (`minPhase`) grows along the graph, and
the output of one operation may be required in several phases (`requiredFields`).

The source's operations point to each other; here they are numbered, and an operation comes after
the operations that it reads.
-/

namespace Lsql.Plan

open Lsql.Exec

/-- `ScalarProjector`. -/
structure ScalarProjector where
  fieldId : FieldId
  expr : Scalar

/-- `AggregateProjector`. -/
structure AggregateProjector where
  fieldId : FieldId
  expr : Aggregate

/-- `TimeRange`. -/
structure TimeRange where
  tsFrom : Int64
  tsTo : Int64
  deriving DecidableEq, Repr

/-- `OperationNode`. -/
inductive OperationNode
  | aggregate (source : Nat) (aggregates : List AggregateProjector) (scalarContext : ScalarContext)
  | projection (source : Nat) (projectors : List ScalarProjector) (scalarContext : ScalarContext)
  | filter (source : Nat) (condition : Scalar) (scalarContext : ScalarContext)
  | group (source : Nat) (aggregates : List AggregateProjector) (groupKey : List ScalarProjector)
    (scalarContext : ScalarContext)
  | limit (source : Nat) (limit : Int)
  | log (path : String) (range : Option TimeRange) (timeFormat : Option TimeFormat)
  | stream (command : String)
  | hashMarkJoin (matched source : Nat) (scalar : Scalar) (matchFieldId outputFieldId : FieldId)
  | hashLeftJoin (left right : Nat) (leftKey rightKey : Scalar)
  | materialize (source : Nat)
  | mergeSorted (left right : Nat) (sortKey : List Scalar) (desc : Bool)
  | hashSemiJoin (matched source : Nat) (scalar : Scalar) (matchFieldId : FieldId)
  | sort (source : Nat) (sortKey : List Scalar) (desc : Bool)
  | topK (source : Nat) (sortKey : List Scalar) (desc : Bool) (topCount : Nat)
  | unionAll (sources : List Nat)
  | values (values : List Value)

/-- `Operation`. `requiredFields` maps a phase to the fields that are required in it. -/
structure Operation where
  node : OperationNode
  minPhase : Nat
  schema : Schema
  requiredFields : List (Nat × FieldSet)

/-- The operations that an operation reads, in the order in which they are built. -/
def OperationNode.sources : OperationNode → List Nat
  | aggregate source _ _ | projection source _ _ | filter source _ _ | group source _ _ _ => [source]
  | limit source _ | materialize source | sort source _ _ | topK source _ _ _ => [source]
  | hashMarkJoin matched source _ _ _ | hashSemiJoin matched source _ _ => [matched, source]
  | hashLeftJoin left right _ _ => [right, left]
  | mergeSorted left right _ _ => [left, right]
  | unionAll sources => sources
  | log _ _ _ | stream _ | values _ => []

/-- The phases in which an operation is required. -/
def Operation.phases (op : Operation) : List Nat := op.requiredFields.map Prod.fst

/-- A union has inputs, and no phase in which an operation is required precedes the first one in
which it can be read. -/
structure Operation.WellFormed (op : Operation) : Prop where
  union_ne : ∀ sources, op.node = .unionAll sources → sources ≠ []
  minPhase_le : ∀ phase ∈ op.phases, op.minPhase ≤ phase

end Lsql.Plan

namespace Lsql

/-- `Plan`. -/
structure Plan where
  operations : List Plan.Operation
  topOperations : List Nat
  fieldBinding : FieldBinding
  acyclic : ∀ i (op : Plan.Operation), operations[i]? = some op → ∀ j ∈ op.node.sources, j < i
  wellFormed : ∀ op ∈ operations, op.WellFormed

namespace Plan

/-- The first phase in which the output of an operation can be read. -/
def minPhase (plan : Plan) (i : Nat) : Nat := (plan.operations[i]?.map Operation.minPhase).getD 0

/-- What an operation reads: operations in phases. -/
def reads (plan : Plan) (op : Operation) : List (Nat × Nat) :=
  match op.node with
  | .aggregate source _ _ | .materialize source => [(source, op.minPhase)]
  | .projection source _ _ | .filter source _ _ | .group source _ _ _ | .limit source _
  | .sort source _ _ | .topK source _ _ _ => op.phases.flatMap fun phase => [(source, phase)]
  | .hashMarkJoin matched source _ _ _ | .hashSemiJoin matched source _ _ =>
    (matched, plan.minPhase matched) :: op.phases.flatMap fun phase => [(source, phase)]
  | .hashLeftJoin left right _ _ =>
    (right, plan.minPhase right) :: op.phases.flatMap fun phase => [(left, phase)]
  | .mergeSorted left right _ _ => op.phases.flatMap fun phase => [(left, phase), (right, phase)]
  | .unionAll sources => op.phases.flatMap fun phase => sources.map fun source => (source, phase)
  | .log _ _ _ | .stream _ | .values _ => []

/-- The operations that the top operations are computed from. -/
inductive Used (plan : Plan) : Nat → Prop
  | top {i : Nat} : i ∈ plan.topOperations → plan.Used i
  | source {i j : Nat} {op : Operation} : plan.Used j → plan.operations[j]? = some op →
    i ∈ op.node.sources → plan.Used i

/-- Whether the output of an operation is required in a phase and read in it: by another operation,
or as a result of the program. -/
def ReadAt (plan : Plan) (i phase : Nat) : Prop :=
  (∃ op, plan.operations[i]? = some op ∧ phase ∈ op.phases) ∧
    (i ∈ plan.topOperations ∧ phase = plan.minPhase i ∨
      ∃ j op, plan.Used j ∧ plan.operations[j]? = some op ∧ (i, phase) ∈ plan.reads op)

end Plan

end Lsql
