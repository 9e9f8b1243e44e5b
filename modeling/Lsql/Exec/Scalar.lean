import Lsql.Core.Function
import Lsql.Core.Schema
import Lsql.Exec.Record

/-!
# Lsql.Exec.Scalar

The evaluated expressions (`back/exec/expr`).

A scalar is evaluated on a record in a context: a `LazyScalar` evaluates its expression once per
record and keeps the value in a slot of the `ScalarContext`, which the operator that owns the
context resets when it turns to the next record.
-/

namespace Lsql.Exec

/-- The slots of a `ScalarContext`. -/
abbrev ScalarContext := List (Option Value)

/-- `ScalarContext::reset`. -/
def ScalarContext.reset (ctx : ScalarContext) : ScalarContext := ctx.map fun _ => none

/-- `exec::Scalar`. A function call keeps the function that its executor is built from. -/
inductive Scalar
  /-- `IdentifierScalar`. -/
  | identifier (slot : Nat) (id : FieldId) (type : ValueType)
  /-- `ValueScalar`. -/
  | value (v : Value)
  /-- `LazyScalar`. -/
  | lazy (id : Nat) (scalar : Scalar)
  /-- `CoalesceScalar`. -/
  | coalesce (type : ValueType) (args : List Scalar)
  /-- `UnaryFnScalar`. -/
  | unary (type : ValueType) (execute : Value → Except Fault Value) (arg : Scalar)
  /-- `BinaryFnScalar`. -/
  | binary (type : ValueType) (execute : Value → Value → Except Fault Value) (left right : Scalar)
  /-- `NaryFnScalar`. -/
  | nary (type : ValueType) (execute : List Value → Except Fault Value) (args : List Scalar)

namespace Scalar

mutual

/-- `eval`, with the context before and after. -/
def eval (record : Record) : Scalar → ScalarContext → Except Fault (Value × ScalarContext)
  | identifier slot _ _, ctx => do
    let v ← record.get slot
    pure (v, ctx)
  | value v, ctx => .ok (v, ctx)
  | lazy id scalar, ctx =>
    match ctx[id]? with
    | none => .error (.exception "vector::_M_range_check")
    | some (some v) => .ok (v, ctx)
    | some none => do
      let (v, ctx) ← scalar.eval record ctx
      pure (v, ctx.set id (some v))
  | coalesce _ args, ctx => evalFirst record args ctx
  | unary _ execute arg, ctx => do
    let (v, ctx) ← arg.eval record ctx
    let res ← execute v
    pure (res, ctx)
  | binary _ execute left right, ctx => do
    let (l, ctx) ← left.eval record ctx
    let (r, ctx) ← right.eval record ctx
    let res ← execute l r
    pure (res, ctx)
  | nary _ execute args, ctx => do
    let (vs, ctx) ← evalAll record args ctx
    let res ← execute vs
    pure (res, ctx)

/-- The loop of `CoalesceScalar::eval`. -/
def evalFirst (record : Record) :
    List Scalar → ScalarContext → Except Fault (Value × ScalarContext)
  | [], ctx => .ok (.null, ctx)
  | arg :: args, ctx => do
    let (v, ctx) ← arg.eval record ctx
    if v.isNull then evalFirst record args ctx else pure (v, ctx)

/-- The arguments, from left to right. -/
def evalAll (record : Record) :
    List Scalar → ScalarContext → Except Fault (List Value × ScalarContext)
  | [], ctx => .ok ([], ctx)
  | arg :: args, ctx => do
    let (v, ctx) ← arg.eval record ctx
    let (vs, ctx) ← evalAll record args ctx
    pure (v :: vs, ctx)

end

/-- The values of a list of expressions that use no context: the keys of the operators. -/
def key (record : Record) (scalars : List Scalar) : Except Fault (List Value) := do
  let (vs, _) ← evalAll record scalars []
  pure vs

end Scalar

/-! ### Aggregates -/

/-- `exec::Aggregate`. -/
inductive Aggregate
  /-- `NullaryFnAggregate`. -/
  | nullary (type : ValueType) (start : FnAggregator)
  /-- `UnaryFnAggregate`. -/
  | unary (type : ValueType) (start : FnAggregator) (arg : Scalar)
  /-- `ConstAggregate`. -/
  | const (value : Value) (nullIfEmpty : Bool)

/-- `exec::Aggregator`. -/
inductive Aggregator
  | nullary (state : FnAggregator)
  | unary (arg : Scalar) (state : FnAggregator)
  | const (value : Value) (nullIfEmpty : Bool) (count : Nat)

/-- `Aggregate::aggregator`. -/
def Aggregate.aggregator : Aggregate → Aggregator
  | nullary _ start => .nullary start
  | unary _ start arg => .unary arg start
  | const value nullIfEmpty => .const value nullIfEmpty 0

namespace Aggregator

variable [Platform]

/-- The largest value of `int`. -/
def intMax : Nat := 2147483647

/-- `feed`. The counter of a `ConstAggregate` is an `int`. -/
def feed (record : Record) : Aggregator → ScalarContext →
    Except Fault (Aggregator × ScalarContext)
  | nullary state, ctx => do
    let state ← state.feed .null
    pure (nullary state, ctx)
  | unary arg state, ctx => do
    let (v, ctx) ← arg.eval record ctx
    let state ← state.feed v
    pure (unary arg state, ctx)
  | const value nullIfEmpty count, ctx =>
    if count < intMax then .ok (const value nullIfEmpty (count + 1), ctx)
    else .error (.undefined "signed overflow")

/-- `for (auto&& aggregator : aggregators_) aggregator->feed(*record)`. -/
def feedAll (record : Record) : List Aggregator → ScalarContext →
    Except Fault (List Aggregator × ScalarContext)
  | [], ctx => .ok ([], ctx)
  | a :: as, ctx => do
    let (a, ctx) ← a.feed record ctx
    let (as, ctx) ← feedAll record as ctx
    pure (a :: as, ctx)

/-- `get`. -/
def get : Aggregator → Except Fault Value
  | nullary state => state.get
  | unary _ state => state.get
  | const value nullIfEmpty count =>
    if nullIfEmpty && count = 0 then .ok .null else .ok value

end Aggregator

end Lsql.Exec
