import Lsql.Opt.AggregateDeduplicate
import Lsql.Opt.ConstAggregateFold
import Lsql.Opt.ConstScalarFold
import Lsql.Opt.EmptyRelationPrune
import Lsql.Opt.FilterPushdown
import Lsql.Opt.LimitPushdown
import Lsql.Opt.ProjectionCollapse
import Lsql.Opt.RelationSimplify
import Lsql.Opt.ScalarCache
import Lsql.Opt.ScalarSimplify

/-!
# Lsql.Opt.Optimize

All passes, one after another (`optimize/optimize.cpp`), and the rounds of them that the command runs
(`optimize` of `cli/run.h`).

A round starts with a clear flag. The command stops behind the first round that leaves it clear, and
at the latest after the number of rounds that the configuration names.
-/

namespace Lsql.Opt

open Ir

/-! ### Walks into the nodes -/

/-- `Base::visit` of a projector. -/
def visitExpr (onScalar : Scalar → Pass Scalar) (p : Projector) : Pass Projector := do
  let expr ← onScalar p.expr
  pure { p with expr }

/-- `Base::visit` of an aggregate. -/
def visitAggregateArgs (onScalar : Scalar → Pass Scalar) (a : Aggregate) : Pass Aggregate :=
  match a.node with
  | .const _ _ => pure a
  | .fnCall f args => do
    let args ← Pass.each onScalar args
    pure { a with node := .fnCall f args }

/-- `Base::visit` of a relation, past its sources, with visitors for scalars and for aggregates. -/
def visitMembers (onScalar : Scalar → Pass Scalar) (onAggregate : Aggregate → Pass Aggregate) :
    Relation → Pass Relation
  | .projection r ps s => do
    let ps ← Pass.each (visitExpr onScalar) ps
    pure (.projection r ps s)
  | .aggregate r as s => do
    let as ← Pass.each onAggregate as
    pure (.aggregate r as s)
  | .group r as ks s => do
    let as ← Pass.each onAggregate as
    let ks ← Pass.each (visitExpr onScalar) ks
    pure (.group r as ks s)
  | .filter r c s => do
    let c ← onScalar c
    pure (.filter r c s)
  | .sort r ks desc s => do
    let ks ← Pass.each onScalar ks
    pure (.sort r ks desc s)
  | .topK r ks desc n s => do
    let ks ← Pass.each onScalar ks
    pure (.topK r ks desc n s)
  | .semiJoin r m e f s => do
    let e ← onScalar e
    pure (.semiJoin r m e f s)
  | .markJoin r m e o f s => do
    let e ← onScalar e
    pure (.markJoin r m e o f s)
  | .leftJoin l r lk rk s => do
    let lk ← onScalar lk
    let rk ← onScalar rk
    pure (.leftJoin l r lk rk s)
  | .unionAllSortedBy l r ks desc s => do
    let ks ← Pass.each onScalar ks
    pure (.unionAllSortedBy l r ks desc s)
  | self => pure self

/-- `scalarSimplify`. -/
def scalarSimplify (program : Program) : Pass Program :=
  visitProgram (visitMembers ScalarSimplify.visit (visitAggregateArgs ScalarSimplify.visit)) program

/-- `constAggregateFold`, which leaves the scalars alone. -/
def constAggregateFold (program : Program) : Pass Program :=
  visitProgram (visitMembers pure ConstAggregateFold.optimize) program

section Rounds

variable [Platform]

/-- `constScalarFold`, with its reports. -/
def constScalarFold (program : Program) : Pass Program :=
  visitProgram ConstScalarFold.visitNode program

/-- Without its reports it is what `Lsql.Opt.ConstScalarFold` is about. -/
theorem constScalarFold_result (program : Program) :
    (constScalarFold program).result = ConstScalarFold.constScalarFold program := rfl

/-! ### Rounds -/

variable [DescriptionHash]

/-- `Context::nextPass`. -/
def nextPass : Pass Unit := fun _ => .ok ((), false)

/-- `optimize`: one round. -/
def optimize (settings : OptimizerSettings) (program : Program) : Pass Program := do
  nextPass
  let program ← constScalarFold program
  let program ← scalarSimplify program
  let program ← constScalarFold program
  let program ← constAggregateFold program
  let program ← AggregateDeduplicate.aggregateDeduplicate program
  let program ← RelationSimplify.relationSimplify program
  let program ← FilterPushdown.filterPushdown program
  let program ← LimitPushdown.limitPushdown program
  let program ← ScalarCache.scalarCache settings program
  let program ← ProjectionCollapse.projectionCollapse settings program
  EmptyRelationPrune.emptyRelationPrune program

/-- The passes of a round, in their order. -/
def passes (settings : OptimizerSettings) : List (Program → Pass Program) :=
  [constScalarFold, scalarSimplify, constScalarFold, constAggregateFold,
    AggregateDeduplicate.aggregateDeduplicate, RelationSimplify.relationSimplify,
    FilterPushdown.filterPushdown, LimitPushdown.limitPushdown, ScalarCache.scalarCache settings,
    ProjectionCollapse.projectionCollapse settings, EmptyRelationPrune.emptyRelationPrune]

/-- Passes, one after another. -/
def runInTurn : List (Program → Pass Program) → Program → Pass Program
  | [], program => pure program
  | pass :: passes, program => pass program >>= runInTurn passes

theorem optimize_eq (settings : OptimizerSettings) (program : Program) :
    optimize settings program = (nextPass >>= fun _ => runInTurn (passes settings) program) := by
  simp [optimize, passes, runInTurn]

/-- The flag that a round finds is not looked at. -/
theorem optimize_flag (settings : OptimizerSettings) (program : Program) (b : Bool) :
    optimize settings program b = optimize settings program false := rfl

/-- The loop of the command, on its `Context`. -/
def optimizeLoop (settings : OptimizerSettings) :
    Nat → Program → Bool → Except Fault Program
  | 0, program, _ => .ok program
  | n + 1, program, b => do
    let (program, changes) ← optimize settings program b
    if !changes then pure program else optimizeLoop settings n program changes

/-- `optimize` of the command, for a number of passes. -/
def optimizeProgram (settings : OptimizerSettings) (n : Nat) (program : Program) :
    Except Fault Program := optimizeLoop settings n program false

end Rounds

end Lsql.Opt
