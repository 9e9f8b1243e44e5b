import Lsql.Plan.Requests
import Lsql.Plan.Scalar
import Lsql.Storage.LineSource

/-!
# Lsql.Plan.Planner

`Planner`: from a program of the intermediate representation to a table of operations
(`back/exec/plan/plan.cpp`).

Each relation becomes an operation behind those of its sources; a reference to a named relation is the
operation that the name stands for, so that operations are shared. A query requests its relation
once it is planned.
-/

namespace Lsql.Plan

open Lsql.Exec (Scalar)

/-- `Settings`. -/
structure Settings where
  defaultTimeRange : Option TimeRange

/-- The members of `Planner`. -/
structure Planner where
  operations : List Operation
  namedOps : String → Option Nat
  topOperations : List Nat

/-- `Planner(settings)`. -/
def Planner.empty : Planner := { operations := [], namedOps := fun _ => none, topOperations := [] }

section Lists

variable [Platform] (schema : Schema)

/-- `projectorsList`. -/
def projectorsList : List Ir.Projector → Option ScalarScope →
    Except Fault (List ScalarProjector × Option ScalarScope)
  | [], scope => .ok ([], scope)
  | item :: list, scope => do
    let (expr, scope) ← planScalar schema item.expr scope
    let (proj, scope) ← projectorsList list scope
    pure ({ fieldId := item.aliasFieldId, expr := expr } :: proj, scope)

/-- `aggregatesList`. -/
def aggregatesList : List Ir.Aggregate → Option ScalarScope →
    Except Fault (List AggregateProjector × Option ScalarScope)
  | [], scope => .ok ([], scope)
  | item :: list, scope => do
    let (expr, scope) ← planAggregate schema item.node item.valueType scope
    let (proj, scope) ← aggregatesList list scope
    pure ({ fieldId := item.outputFieldId, expr := expr } :: proj, scope)

end Lists

/-- `scope.context`. -/
def contextOf (scope : Option ScalarScope) : Exec.ScalarContext :=
  match scope with
  | some scope => scope.context
  | none => []

/-- `source->schema`. -/
def schemaAt (ops : List Operation) (i : Nat) : Schema := (ops[i]?.map Operation.schema).getD .empty

/-- `return arc(Operation{...})`. -/
def addOperation (ops : List Operation) (node : OperationNode) (schema : Schema) :
    Nat × List Operation :=
  (ops.length, ops ++ [newOperation ops node schema])

section Relations

variable [Platform] (settings : Settings) (namedOps : String → Option Nat)

mutual

/-- The overloads of `planRelation`. -/
def planRelation : Ir.Relation → List Operation → Except Fault (Nat × List Operation)
  | .empty s, ops => .ok (addOperation ops (.values []) s)
  | .values vs _ s, ops => .ok (addOperation ops (.values vs) s)
  | .projection r ps s, ops => do
    let (source, ops) ← planRelation r ops
    let (projectors, scope) ← projectorsList (schemaAt ops source) ps (some .empty)
    pure (addOperation ops (.projection source projectors (contextOf scope)) s)
  | .aggregate r as s, ops => do
    let (source, ops) ← planRelation r ops
    let (projectors, scope) ← aggregatesList (schemaAt ops source) as (some .empty)
    pure (addOperation ops (.aggregate source projectors (contextOf scope)) s)
  | .group r as ks s, ops => do
    let (source, ops) ← planRelation r ops
    -- the schema of the relation, where the other overloads take that of the operation
    let (aggregates, scope) ← aggregatesList r.schema as (some .empty)
    let (groupKey, _) ← projectorsList r.schema ks none
    pure (addOperation ops (.group source aggregates groupKey (contextOf scope)) s)
  | .limit r n s, ops => do
    let (source, ops) ← planRelation r ops
    pure (addOperation ops (.limit source n) s)
  | .filter r c s, ops => do
    let (source, ops) ← planRelation r ops
    let (condition, scope) ← planScalar (schemaAt ops source) c (some .empty)
    pure (addOperation ops (.filter source condition (contextOf scope)) s)
  | .sort r ks desc s, ops => do
    let (source, ops) ← planRelation r ops
    let (sortKey, _) ← expressionList (schemaAt ops source) ks none
    pure (addOperation ops (.sort source sortKey desc) s)
  | .topK r ks desc n s, ops => do
    let (source, ops) ← planRelation r ops
    let (sortKey, _) ← expressionList (schemaAt ops source) ks none
    pure (addOperation ops (.topK source sortKey desc n.toNat) s)
  | .semiJoin r m e f s, ops => do
    let (source, ops) ← planRelation r ops
    let (matched, ops) ← planRelation m ops
    let (scalar, _) ← planScalar (schemaAt ops source) e none
    pure (addOperation ops (.hashSemiJoin matched source scalar f) s)
  | .markJoin r m e o f s, ops => do
    let (source, ops) ← planRelation r ops
    let (matched, ops) ← planRelation m ops
    let (scalar, _) ← planScalar (schemaAt ops source) e none
    pure (addOperation ops (.hashMarkJoin matched source scalar f o) s)
  | .leftJoin l r lk rk s, ops => do
    let (left, ops) ← planRelation l ops
    let (right, ops) ← planRelation r ops
    let (leftKey, _) ← planScalar (schemaAt ops left) lk none
    let (rightKey, _) ← planScalar (schemaAt ops right) rk none
    pure (addOperation ops (.hashLeftJoin left right leftKey rightKey) s)
  | .unionAll rs s, ops => do
    let (sources, ops) ← planAll rs ops
    pure (addOperation ops (.unionAll sources) s)
  | .unionAllSortedBy l r ks desc s, ops => do
    let (left, ops) ← planRelation l ops
    let (right, ops) ← planRelation r ops
    let (sortKey, _) ← expressionList (schemaAt ops left) ks none
    pure (addOperation ops (.mergeSorted left right sortKey desc) s)
  | .file path range timeFormat s, ops =>
    let timeRange :=
      if range.isNone && !Storage.isProbablyArchive (Bytes.ofString path) then
        settings.defaultTimeRange
      else range
    .ok (addOperation ops (.log path timeRange timeFormat) s)
  | .stream command s, ops => .ok (addOperation ops (.stream command) s)
  | .materialize r s, ops => do
    let (source, ops) ← planRelation r ops
    pure (addOperation ops (.materialize source) s)
  | .namedRelationReference name _, ops => do
    require (namedOps name).isSome ("no such named relation " ++ name)
    pure ((namedOps name).getD 0, ops)

/-- The loop over the sources of a union. -/
def planAll : List Ir.Relation → List Operation → Except Fault (List Nat × List Operation)
  | [], ops => .ok ([], ops)
  | r :: rs, ops => do
    let (source, ops) ← planRelation r ops
    let (sources, ops) ← planAll rs ops
    pure (source :: sources, ops)

end

end Relations

section Programs

variable [Platform] [HashOrder] (settings : Settings)

/-- `planStatement`. -/
def planStatement (planner : Planner) : Ir.Statement → Except Fault Planner
  | .namedRelation name r => do
    let (op, ops) ← planRelation settings planner.namedOps r planner.operations
    pure { planner with operations := ops, namedOps := Function.update planner.namedOps name (some op) }
  | .query r => do
    let (rel, ops) ← planRelation settings planner.namedOps r planner.operations
    let ops ← requestTop ops rel
    pure { planner with operations := ops, topOperations := planner.topOperations ++ [rel] }

/-- `plan`, without the field binding that it hands on. -/
def plan (program : Ir.Program) : Except Fault Planner :=
  program.statements.foldlM (planStatement settings) .empty

end Programs

end Lsql.Plan
