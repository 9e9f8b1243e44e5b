import Lsql.Phys.Log
import Lsql.Phys.Operator
import Lsql.Plan.Operation

/-!
# Lsql.Phys.Build

`Builder`: from a plan to a network of operators (`back/exec/phys/build.cpp`).

For every phase in which the output of an operation is required the builder makes one physical
operator, a node, and subscribes its inputs to the nodes of the operation's sources in that phase.
The collecting half of an operation is one more node, subscribed in the phase in which the operation
is first read.
-/

namespace Lsql.Phys

open Lsql.Exec Lsql.Plan Flow

/-- The files and commands that a source reads (`phys/log`). -/
class Storage where
  /-- `open(const plan::Log&)`. -/
  openLog : String → Option TimeRange → Option TimeFormat → Except Fault LogFile
  /-- `open(const plan::Stream&)`. -/
  openStream : String → Except Fault LogFile

/-- A source of a phase. -/
structure Source where
  phase : Nat
  node : Nat
  push : Body Unit

/-- `Output`. -/
structure Output where
  schema : Schema
  phase : Nat
  node : Nat

/-- `Program`: the operators that were built, and what is subscribed to each. -/
structure Program where
  size : Nat
  op : Nat → Operator
  subs : Nat → List Port
  /-- The state object of a node, and their number. -/
  cell : Nat → Nat
  cells : Nat
  heap : Nat → Cell
  /-- The phase that a node was built for. -/
  phase : Nat → Nat
  sources : List Source
  outputs : List Output

/-- `Builder`. -/
structure Builder extends Program where
  built : List Nat
  /-- The node of an operation in a phase: `ops[phase][&op]`. -/
  ops : List ((Nat × Nat) × Nat)

namespace Builder

/-- A builder that has built nothing. State object `0` is that of the operators that share none. -/
def empty : Builder where
  size := 0
  op _ := .source
  subs _ := []
  cell _ := 0
  cells := 1
  heap _ := .unused
  phase _ := 0
  sources := []
  outputs := []
  built := []
  ops := []

/-! ### Nodes and subscriptions -/

/-- `get`. -/
def get (b : Builder) (op phase : Nat) : Except Fault Nat :=
  match b.ops.find? fun e => e.1 == (phase, op) with
  | some e => .ok e.2
  | none =>
    if b.ops.any fun e => e.1.1 == phase then
      .error (.panic "verify(ops[phase].contains(&op)) failed ")
    else
      .error (.panic "verify(ops.contains(phase)) failed ")

/-- `insert`. -/
def insert (b : Builder) (op phase node : Nat) : Except Fault Builder := do
  verify (!b.ops.any fun e => e.1 == (phase, op)) "verify(ops[phase][&op] == nullptr) failed "
  pure { b with ops := b.ops ++ [((phase, op), node)] }

/-- `arc<AggregateState>()` and the like. -/
def newState (b : Builder) (c : Cell) : Builder × Nat :=
  ({ b with heap := Function.update b.heap b.cells c, cells := b.cells + 1 }, b.cells)

/-- `arc<Filter>(...)` and the like. -/
def newOperation (b : Builder) (op : Operator) (state phase : Nat) : Builder × Nat :=
  ({ b with
      size := b.size + 1
      op := Function.update b.op b.size op
      cell := Function.update b.cell b.size state
      phase := Function.update b.phase b.size phase }, b.size)

/-- `OperationBase::output`. -/
def output (b : Builder) (node : Nat) (subscriber : Port) : Except Fault Builder := do
  verify (!(b.subs node).contains subscriber) "verify(!subscribers_.contains(subscriber)) failed "
  pure { b with subs := Function.update b.subs node (b.subs node ++ [subscriber]) }

/-- `get(*source, phase)->output(opr->sub())`, for each input in turn. -/
def subscribe (b : Builder) (node index : Nat) : List (Nat × Nat) → Except Fault Builder
  | [] => .ok b
  | (source, phase) :: inputs => do
    let n ← b.get source phase
    let b ← b.output n ⟨node, index⟩
    b.subscribe node (index + 1) inputs

/-- A new operator with its inputs, which are operations in a phase. -/
def addOperation (b : Builder) (op : Operator) (state phase : Nat) (inputs : List (Nat × Nat)) :
    Except Fault (Builder × Nat) := do
  let (b, node) := b.newOperation op state phase
  let b ← b.subscribe node 0 inputs
  pure (b, node)

/-- A new source. -/
def addSource (b : Builder) (state phase : Nat) (push : Body Unit) : Builder × Nat :=
  let (b, node) := b.newOperation .source state phase
  ({ b with sources := b.sources ++ [{ phase := phase, node := node, push := push }] }, node)

/-! ### The operations -/

/-- `for (auto&& [phase, fields] : op.required_fields)`. -/
def forPhases (f : Builder → Nat → FieldSet → Except Fault Builder) :
    List (Nat × FieldSet) → Builder → Except Fault Builder
  | [], b => .ok b
  | (phase, fields) :: required, b => do
    let b ← f b phase fields
    forPhases f required b

/-- The node of operation `i` in a phase, with its inputs. -/
def buildPhase (i state : Nat) (op : Operator) (inputs : List (Nat × Nat)) (b : Builder)
    (phase : Nat) : Except Fault Builder := do
  let (b, node) ← b.addOperation op state phase inputs
  b.insert i phase node

/-- The source of operation `i` in a phase. -/
def buildSource (i state : Nat) (push : Body Unit) (b : Builder) (phase : Nat) :
    Except Fault Builder :=
  let (b, node) := b.addSource state phase push
  b.insert i phase node

/-- The collecting node of operation `i`, which answers in its own phase, and the emitters that
answer in the others. -/
def buildCollected (i minPhase source : Nat) (required : List (Nat × FieldSet)) (state : Cell)
    (collector : Operator) (push : Body Unit) (b : Builder) : Except Fault Builder := do
  let (b, state) := b.newState state
  let (b, node) ← b.addOperation collector state minPhase [(source, minPhase)]
  forPhases (fun b phase _ =>
    if phase = minPhase then b.insert i phase node else buildSource i state push b phase) required b

/-- The building half of a join, and the probing halves. -/
def buildJoin (i matchPhase matched source : Nat) (required : List (Nat × FieldSet)) (state : Cell)
    (buildOp probeOp : Operator) (b : Builder) : Except Fault Builder := do
  let (b, state) := b.newState state
  let (b, _) ← b.addOperation buildOp state matchPhase [(matched, matchPhase)]
  forPhases (fun b phase _ => buildPhase i state probeOp [(source, phase)] b phase) required b

section Build

variable [Platform] [HashOrder] [Storage]

/-- `buildLog`. -/
def buildLogs (binding : FieldBinding) (i : Nat) (op : Operation) (file : LogFile) (b : Builder) :
    Except Fault Builder :=
  forPhases (fun b phase fields => do
    let log ← buildLog binding op.schema file fields
    buildSource i 0 log.push b phase) op.requiredFields b

/-- `projectorsExprs(projectors, required)`: the expressions of the required columns. -/
def requiredScalars (projectors : List ScalarProjector) (required : FieldSet) :
    List (Option Scalar) :=
  projectors.map fun p => if required.contains p.fieldId then some p.expr else none

def requiredAggregates (projectors : List AggregateProjector) (required : FieldSet) :
    List (Option Aggregate) :=
  projectors.map fun p => if required.contains p.fieldId then some p.expr else none

/-- The plan operation that an operation reads. -/
def operationAt (plan : Plan) (i : Nat) : Except Fault Operation :=
  match plan.operations[i]? with
  | some op => .ok op
  | none => .error (.undefined "no such operation")

/-- The overloads of `build`, after the sources have been built. -/
def buildNode (plan : Plan) (i : Nat) (op : Operation) (b : Builder) : Except Fault Builder :=
  match op.node with
  | .aggregate source aggregates ctx =>
    buildCollected i op.minPhase source op.requiredFields (.aggregate [])
      (.aggregateCollector
        { aggregators := aggregates.map fun a => a.expr.aggregator, scalarContext := ctx })
      AggregateEmitter.push b
  | .filter source condition ctx =>
    forPhases (fun b phase _ => buildPhase i 0
      (.filter { condition := condition, scalarContext := ctx }) [(source, phase)] b phase)
      op.requiredFields b
  | .group source aggregates groupKey ctx =>
    forPhases (fun b phase fields => buildPhase i 0
      (.group { aggregates := requiredAggregates aggregates fields,
                groupKey := groupKey.map ScalarProjector.expr, scalarContext := ctx, groups := [] })
      [(source, phase)] b phase)
      op.requiredFields b
  | .limit source limit =>
    forPhases (fun b phase _ => buildPhase i 0 (.limit { currLimit := limit }) [(source, phase)] b
      phase) op.requiredFields b
  | .log path range timeFormat => do
    let file ← Storage.openLog path range timeFormat
    buildLogs plan.fieldBinding i op file b
  | .stream command => do
    let file ← Storage.openStream command
    buildLogs plan.fieldBinding i op file b
  | .hashMarkJoin matched source scalar _ outputFieldId => do
    match op.schema.slot outputFieldId with
    | none => .error (.panic "verify(output_slot.has_value()) failed ")
    | some outputSlot =>
      let m ← operationAt plan matched
      buildJoin i m.minPhase matched source op.requiredFields (.markJoin []) .markJoinBuild
        (.markJoinProbe scalar outputSlot) b
  | .hashLeftJoin left right leftKey rightKey => do
    let l ← operationAt plan left
    let r ← operationAt plan right
    buildJoin i r.minPhase right left op.requiredFields (.leftJoin []) (.leftJoinBuild rightKey)
      (.leftJoinProbe leftKey l.schema.columns) b
  | .materialize source =>
    buildCollected i op.minPhase source op.requiredFields (.materialize []) .materializeCollector
      MaterializeEmitter.push b
  | .mergeSorted left right sortKey desc =>
    forPhases (fun b phase _ => buildPhase i 0
      (.mergeSorted (.build { sortKey := sortKey, desc := desc })) [(left, phase), (right, phase)] b
      phase) op.requiredFields b
  | .projection source projectors ctx =>
    forPhases (fun b phase fields => buildPhase i 0
      (.projection { scalars := requiredScalars projectors fields, scalarContext := ctx,
                     record := projectors.map fun _ => .null })
      [(source, phase)] b phase)
      op.requiredFields b
  | .hashSemiJoin matched source scalar _ => do
    let m ← operationAt plan matched
    buildJoin i m.minPhase matched source op.requiredFields (.semiJoin []) .semiJoinBuild
      (.semiJoinProbe scalar) b
  | .sort source sortKey desc =>
    forPhases (fun b phase _ => buildPhase i 0
      (.sort { sortKey := sortKey, desc := desc, records := [] }) [(source, phase)] b phase)
      op.requiredFields b
  | .topK source sortKey desc topCount =>
    forPhases (fun b phase _ => buildPhase i 0
      (.topK { sortKey := sortKey, desc := desc, maxSize := topCount, heap := [] })
      [(source, phase)] b phase)
      op.requiredFields b
  | .unionAll sources =>
    forPhases (fun b phase _ => buildPhase i 0
      (.unionAll { inputs := sources.length, streamFinished := false, eofCount := 0 })
      (sources.map fun s => (s, phase)) b phase)
      op.requiredFields b
  | .values values =>
    forPhases (fun b phase _ => buildSource i 0 (Values.push values) b phase) op.requiredFields b

/-- `build(op)`: the sources first, then the operation, unless it has been built. An operation reads
earlier ones, so calls nest at most `i` deep (`Filled.buildOperation`). -/
def buildOperation (plan : Plan) : Nat → Nat → Builder → Except Fault Builder
  | 0, _, _ => .error (.undefined "operations nest too deep")
  | fuel + 1, i, b =>
    if b.built.contains i then .ok b
    else do
      let op ← operationAt plan i
      let b ← op.node.sources.foldlM (fun b j => buildOperation plan fuel j b) b
      let b ← buildNode plan i op b
      pure { b with built := i :: b.built }

/-- The loop of `build()` over the top operations. -/
def buildTop (plan : Plan) : List Nat → Builder → Except Fault Builder
  | [], b => .ok b
  | i :: tops, b => do
    let b ← buildOperation plan (i + 1) i b
    let op ← operationAt plan i
    let node ← b.get i op.minPhase
    buildTop plan tops
      { b with outputs := b.outputs ++ [{ schema := op.schema, phase := op.minPhase, node := node }] }

/-- `build()`. -/
def build (plan : Plan) : Except Fault Builder := buildTop plan plan.topOperations empty

end Build

end Builder

end Lsql.Phys
