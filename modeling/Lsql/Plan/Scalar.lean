import Lsql.Exec.Scalar
import Lsql.Ir.Relation

/-!
# Lsql.Plan.Scalar

From the scalars and aggregates of the intermediate representation to evaluated expressions
(`planScalar` and `planAggregate` of `back/exec/plan/plan.cpp`).

A field becomes a slot of the input's schema. A cached scalar becomes a `LazyScalar` over a slot of
the scope's context, one slot for all equal scalars; where there is no scope it is planned as the
scalar that it holds.
-/

namespace Lsql.Plan

open Lsql.Exec (Scalar Aggregate ScalarContext)

/-- `ScalarScope`: the slots of the context, and the scalars that they belong to. -/
structure ScalarScope where
  context : ScalarContext
  expressions : List (Ir.Scalar × Nat)

namespace ScalarScope

def empty : ScalarScope := { context := [], expressions := [] }

/-- `slot`. -/
def slot (scope : ScalarScope) (scalar : Ir.Scalar) : Nat × ScalarScope :=
  match scope.expressions.find? fun e => e.1.equal scalar with
  | some e => (e.2, scope)
  | none =>
    let id := scope.context.length
    (id, { context := scope.context ++ [none], expressions := scope.expressions ++ [(scalar, id)] })

end ScalarScope

/-- The function call of a planned call, by the concept that its executor satisfies. -/
def planCall [Platform] (f : Function) (valueType : ValueType) (args : List Scalar) :
    Except Fault Scalar := do
  let executor ← buildScalar f
  match executor, args with
  | .unary execute, [arg] => pure (.unary valueType execute arg)
  | .binary execute, [left, right] => pure (.binary valueType execute left right)
  | .nary execute, args => pure (.nary valueType execute args)
  | _, _ => .error (.panic "verify(args.size()) failed ")

section Plan

variable [Platform] (schema : Schema)

mutual

/-- `planScalar`; the scope is `nullptr` where an operation has none. -/
def planScalar : Ir.Scalar → Option ScalarScope → Except Fault (Scalar × Option ScalarScope)
  | .field id t, scope =>
    match schema.slot id with
    | some slot => .ok (.identifier slot id t, scope)
    | none => .error (.panic "verify(slot.has_value()) failed ")
  | .value v _, scope => .ok (.value v, scope)
  | .cached s _, none => planScalar s none
  | .cached s _, some scope => do
    let (id, scope) := scope.slot s
    let (scalar, scope) ← planScalar s (some scope)
    pure (.lazy id scalar, scope)
  | .coalesce args t, scope => do
    let (args, scope) ← expressionList args scope
    pure (.coalesce t args, scope)
  | .fnCall f args t, scope => do
    let (args, scope) ← expressionList args scope
    let call ← planCall f t args
    pure (call, scope)

/-- `expressionList`. -/
def expressionList : List Ir.Scalar → Option ScalarScope →
    Except Fault (List Scalar × Option ScalarScope)
  | [], scope => .ok ([], scope)
  | item :: list, scope => do
    let (e, scope) ← planScalar item scope
    let (es, scope) ← expressionList list scope
    pure (e :: es, scope)

end

/-- `planAggregate`, without the field that the aggregate is put out under. -/
def planAggregate (node : Ir.AggregateNode) (t : ValueType) (scope : Option ScalarScope) :
    Except Fault (Aggregate × Option ScalarScope) :=
  match node with
  | .fnCall f args => do
    let (args, scope) ← expressionList schema args scope
    let start ← buildAggregate f
    if start.isNullary then
      match args with
      | [] => pure (.nullary t start, scope)
      | _ => .error (.panic "verify(args.empty()) failed ")
    else
      match args with
      | [arg] => pure (.unary t start arg, scope)
      | _ => .error (.panic "verify(args.size() == 1) failed ")
  | .const v nullIfEmpty => .ok (.const v nullIfEmpty, scope)

end Plan

end Lsql.Plan
