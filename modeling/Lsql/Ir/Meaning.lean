import Lsql.Core.ValueOrder
import Lsql.Flow.Fallible
import Lsql.Ir.Relation

/-!
# Lsql.Ir.Meaning

The meaning of a relation: the sequences of rows that it can put out.

A row gives a value to every field. A sequence holds an item for every row, which is a failure where
the row cannot be computed; a consumer that never comes to a failure is not concerned with it, so a
limit cuts off what lies behind it. Several sequences are possible where the order is left open: rows
with equal sort keys come in any order, the inputs of `UNION ALL` are interleaved in any way, groups
come in any order. A sort whose keys hold a NaN, and a sorted merge of inputs that are not sorted,
promise no order at all.

`Step` is the meaning of an operator on the sequences of its sources; `Emits` is the meaning of a
relation.
-/

namespace Lsql.Ir

open Flow (collect expand Interleave Shuffle)

/-- A row: the value of every field. -/
abbrev Row := FieldId → Value

/-- A row, or the failure to compute it. -/
abbrev Item := Except Fault Row

namespace Row

/-- A row as a record that scalars are evaluated on. -/
def record (row : Row) : FieldId → Except Fault Value := fun id => .ok (row id)

/-- Values under their fields. -/
def ofValues (ids : List FieldId) (vs : List Value) : Row := fun id =>
  ((ids.zip vs).lookup id).getD .null

/-- A row of a left join: the fields of the right side from there, all others from the left. -/
def join (right : Schema) (l r : Row) : Row := fun id => if right.contains id then r id else l id

end Row

/-! ### Rows one at a time -/

section Rows

variable [Platform]

/-- The truth of a condition. -/
def Scalar.test (condition : Scalar) (row : Row) : Except Fault Bool := do
  let v ← condition.eval row.record
  v.getBool

/-- `Filter`. -/
def filterRow (condition : Scalar) (row : Row) : List Item :=
  match condition.test row with
  | .ok true => [.ok row]
  | .ok false => []
  | .error e => [.error e]

/-- `Projection`. -/
def projectRow (projectors : List Projector) (row : Row) : Item := do
  let vs ← Scalar.evalAll row.record (projectors.map Projector.expr)
  pure (.ofValues (projectors.map Projector.aliasFieldId) vs)

/-- Whether a value is among those that have been collected. -/
def isMatch (values : List Value) (v : Value) : Bool := values.any fun m => v.equal m

/-- `HashSemiJoin`. -/
def semiJoinRow (expr : Scalar) (values : List Value) (row : Row) : List Item :=
  match expr.eval row.record with
  | .ok v => if isMatch values v then [.ok row] else []
  | .error e => [.error e]

/-- `HashMarkJoin`. -/
def markJoinRow (expr : Scalar) (outputFieldId : FieldId) (values : List Value) (row : Row) : Item :=
  do
    let v ← expr.eval row.record
    pure (Function.update row outputFieldId (.boolean (isMatch values v)))

/-- `HashLeftJoin`: a null key has no match. -/
def leftJoinRow (leftKey : Scalar) (right : Schema) (rows : List (Row × Value)) (row : Row) :
    List Item :=
  match leftKey.eval row.record with
  | .error e => [.error e]
  | .ok v =>
    let matching := if v.isNull then [] else rows.filter fun p => v.equal p.2
    if matching.isEmpty then [.ok (row.join right fun _ => .null)]
    else matching.map fun p => .ok (row.join right p.1)

/-! ### Aggregates -/

/-- The argument that an aggregator is fed; `COUNT(*)` has none. -/
def aggregateArg (args : List Scalar) (row : Row) : Except Fault Value :=
  match args with
  | [] => .ok .null
  | arg :: _ => arg.eval row.record

/-- Feeding the rows in order. -/
def feedRows (args : List Scalar) : FnAggregator → List Row → Except Fault FnAggregator
  | state, [] => .ok state
  | state, row :: rows => do
    let v ← aggregateArg args row
    let state ← state.feed v
    feedRows args state rows

/-- The value of an aggregate over rows. -/
def Aggregate.over (a : Aggregate) (rows : List Row) : Except Fault Value :=
  match a.node with
  | .fnCall f args => do
    let start ← buildAggregate f
    let state ← feedRows args start rows
    state.get
  | .const v nullIfEmpty => .ok (if nullIfEmpty && rows.isEmpty then .null else v)

/-- The values of aggregates over rows. -/
def aggregatesOver (aggregates : List Aggregate) (rows : List Row) : Except Fault (List Value) :=
  aggregates.mapM fun a => a.over rows

/-- `==` on vectors of values. -/
def equalKeys : List Value → List Value → Bool
  | [], [] => true
  | a :: as, b :: bs => a.equal b && equalKeys as bs
  | _, _ => false

/-- A row joins its group, or starts one. -/
def insertRow (key : List Value) (row : Row) :
    List (List Value × List Row) → List (List Value × List Row)
  | [] => [(key, [row])]
  | g :: gs => if equalKeys g.1 key then (g.1, g.2 ++ [row]) :: gs else g :: insertRow key row gs

/-- The groups of rows with their keys. -/
def groupRows (gs : List (List Value × List Row)) : List (Row × List Value) →
    List (List Value × List Row)
  | [] => gs
  | p :: ps => groupRows (insertRow p.2 p.1 gs) ps

/-- The row of a group: the aggregates, then the key. -/
def groupRow (aggregates : List Aggregate) (groupList : List Projector)
    (g : List Value × List Row) : Item := do
  let vs ← aggregatesOver aggregates g.2
  pure (.ofValues (aggregates.map Aggregate.outputFieldId ++ groupList.map Projector.aliasFieldId)
    (vs ++ g.1))

/-! ### Keys and orders -/

/-- A row with something that is computed from it. -/
def attach {κ : Type} (key : Row → Except Fault κ) (item : Item) : Except Fault (Row × κ) := do
  let row ← item
  let k ← key row
  pure (row, k)

/-- A vector of scalars as a key. -/
def keyOf (scalars : List Scalar) (row : Row) : Except Fault (List Value) :=
  Scalar.evalAll row.record scalars

/-- One key may stand before another. -/
def MayPrecede (desc : Bool) (a b : List Value) : Prop :=
  keyOrder a b ≠ (if desc then .lt else .gt)

instance (desc : Bool) (a b : List Value) : Decidable (MayPrecede desc a b) :=
  inferInstanceAs (Decidable (_ ≠ _))

/-- Rows in the order of their keys. -/
def Ordered (desc : Bool) (pairs : List (Row × List Value)) : Prop :=
  pairs.Pairwise fun p q => MayPrecede desc p.2 q.2

/-- Keys without a NaN. -/
def AllComparable (pairs : List (Row × List Value)) : Prop := ∀ p ∈ pairs, Comparable p.2

/-- `Sort`. -/
inductive Sorts (orderList : List Scalar) (desc : Bool) (s : List Item) : List Item → Prop
  | fault {e : Fault} :
      collect (s.map (attach (keyOf orderList))) = .error e → Sorts orderList desc s [.error e]
  | sorted {pairs w : List (Row × List Value)} :
      collect (s.map (attach (keyOf orderList))) = .ok pairs → w.Perm pairs →
      (AllComparable pairs → Ordered desc w) → Sorts orderList desc s (w.map fun p => .ok p.1)

/-- A sequence of rows with keys that is sorted. -/
def IsSorted (desc : Bool) (s : List (Except Fault (Row × List Value))) : Prop :=
  ∃ pairs, collect s = .ok pairs ∧ AllComparable pairs ∧ Ordered desc pairs

/-- `MergeSorted`. -/
def Merges (orderList : List Scalar) (desc : Bool) (s t u : List Item) : Prop :=
  ∃ w, Interleave (s.map (attach (keyOf orderList))) (t.map (attach (keyOf orderList))) w ∧
    (IsSorted desc (s.map (attach (keyOf orderList))) →
      IsSorted desc (t.map (attach (keyOf orderList))) → IsSorted desc w) ∧
    u = w.map (Except.map Prod.fst)

/-- `Group`. -/
inductive Groups (aggregates : List Aggregate) (groupList : List Projector) (s : List Item) :
    List Item → Prop
  | fault {e : Fault} :
      collect (s.map (attach (keyOf (groupList.map Projector.expr)))) = .error e →
      Groups aggregates groupList s [.error e]
  | groups {pairs : List (Row × List Value)} {gs : List (List Value × List Row)} :
      collect (s.map (attach (keyOf (groupList.map Projector.expr)))) = .ok pairs →
      gs.Perm (groupRows [] pairs) →
      Groups aggregates groupList s (gs.map (groupRow aggregates groupList))

/-- What is made of all the rows of a sequence. -/
def whenCollected {α : Type} (s : List (Except Fault α)) (f : List α → List Item) : List Item :=
  match collect s with
  | .ok rows => f rows
  | .error e => [.error e]

end Rows

/-! ### Relations -/

/-- What a program reads: files and the output of commands. -/
structure Data where
  file : String → Option Plan.TimeRange → Option TimeFormat → Schema → List Item
  stream : String → Schema → List Item

/-- What a statement reads: the data, and the named relations that have been defined before. -/
structure Env extends Data where
  named : String → List Item → Prop

section Meaning

variable [Platform]

/-- The meaning of an operator: from sequences of its sources to a sequence of its own. -/
def Step (env : Env) : Relation → List (List Item) → List Item → Prop
  | .empty _, [], u => u = []
  | .values vs id _, [], u => u = vs.map fun v => .ok (.ofValues [id] [v])
  | .projection _ ps _, [s], u => u = expand (fun row => [projectRow ps row]) s
  | .aggregate _ as _, [s], u => u = whenCollected s fun rows =>
      [do
        let vs ← aggregatesOver as rows
        pure (.ofValues (as.map Aggregate.outputFieldId) vs)]
  | .group _ as ks _, [s], u => Groups as ks s u
  | .limit _ n _, [s], u => u = s.take n.toNat
  | .filter _ c _, [s], u => u = expand (filterRow c) s
  | .sort _ ks desc _, [s], u => Sorts ks desc s u
  | .topK _ ks desc n _, [s], u => ∃ w, Sorts ks desc s w ∧ u = w.take n.toNat
  | .semiJoin _ _ e f _, [s, t], u => u = whenCollected t fun rows =>
      -- without values to match, the first row already ends the output
      if rows.isEmpty then [] else expand (semiJoinRow e (rows.map fun row => row f)) s
  | .markJoin _ _ e o f _, [s, t], u => u = whenCollected t fun rows =>
      expand (fun row => [markJoinRow e o (rows.map fun row => row f) row]) s
  | .leftJoin _ r lk rk _, [s, t], u =>
      u = whenCollected (t.map (attach fun row => rk.eval row.record)) fun rows =>
        expand (leftJoinRow lk r.schema rows) s
  | .unionAll _ _, ss, u => Shuffle ss u
  | .unionAllSortedBy _ _ ks desc _, [s, t], u => Merges ks desc s t u
  | .file path range format schema, [], u => u = env.file path range format schema
  | .stream command schema, [], u => u = env.stream command schema
  | .namedRelationReference name _, [], u => env.named name u
  | .materialize _ _, [s], u => u = s
  | _, _, _ => False

/-- A relation can put out a sequence. -/
inductive Emits (env : Env) : Relation → List Item → Prop
  | node {r : Relation} {ss : List (List Item)} {u : List Item} :
      List.Forall₂ (Emits env) r.sources ss → Step env r ss u → Emits env r u

/-! ### Programs -/

/-- The definition of a named relation. -/
def Env.define (env : Env) (name : String) (r : Relation) : Env :=
  { env with named := Function.update env.named name (Emits env r) }

/-- The relations that statements answer with, each with what it reads. -/
def queries (env : Env) : List Statement → List (Env × Relation)
  | [] => []
  | .namedRelation name r :: ss => queries (env.define name r) ss
  | .query r :: ss => (env, r) :: queries env ss

/-- One run of statements, with the output of the queries: a named relation puts out one sequence,
which all references to it read. -/
inductive Runs : Env → List Statement → List (List Item) → Prop
  | nil {env : Env} : Runs env [] []
  | namedRelation {env : Env} {name : String} {r : Relation} {u : List Item} {ss : List Statement}
      {us : List (List Item)} :
      Emits env r u → Runs { env with named := Function.update env.named name fun v => v = u } ss us →
      Runs env (.namedRelation name r :: ss) us
  | query {env : Env} {r : Relation} {u : List Item} {ss : List Statement}
      {us : List (List Item)} :
      Emits env r u → Runs env ss us → Runs env (.query r :: ss) (u :: us)

/-- The relations that a program answers with. -/
def Program.queries (data : Data) (program : Program) : List (Env × Relation) :=
  Ir.queries { data with named := fun _ _ => False } program.statements

/-- One run of a program. -/
def Program.Runs (data : Data) (program : Program) (us : List (List Item)) : Prop :=
  Ir.Runs { data with named := fun _ _ => False } program.statements us

end Meaning

end Lsql.Ir
