import Lsql.Exec.Scalar
import Lsql.Flow.Prog

/-!
# Lsql.Phys.Ops

The physical operators (`back/exec/phys/ops`), each with its state as a structure and the body of
its `consume` or `push`.

Where two operators share a state object (the two halves of a join, a collector and its emitters),
the object is a `Cell` that the bodies read and write. The bodies are written in the order of the
source; `Fault` stands for an exception, which ends the program.
-/

namespace Lsql.Phys

open Lsql.Exec Flow

/-- The state objects that operators share. -/
inductive Cell
  | unused
  /-- `HashSemiJoinState`. -/
  | semiJoin (values : List Value)
  /-- `HashMarkJoinState`. -/
  | markJoin (values : List Value)
  /-- `HashLeftJoinState`. -/
  | leftJoin (rows : List (Value × List Record))
  /-- `MaterializeState`. -/
  | materialize (records : List Record)
  /-- `AggregateState`. -/
  | aggregate (values : List Value)
  deriving DecidableEq, Repr

/-- The body of a call. -/
abbrev Body (α : Type) := Prog Fault Cell Record α

/-- The library algorithms whose result the standard leaves open. -/
class Algorithms where
  /-- `std::sort`. -/
  sort : {α : Type} → (α → α → Bool) → List α → List α
  sort_perm : ∀ {α : Type} (less : α → α → Bool) (l : List α), (sort less l).Perm l
  /-- `top` and `pop` of a `std::priority_queue`. -/
  pop : {α : Type} → (α → α → Bool) → List α → Option (α × List α)
  pop_perm : ∀ {α : Type} (less : α → α → Bool) (l : List α),
    (pop less l).elim (l = []) fun p => (p.1 :: p.2).Perm l
  /-- The iteration order of a `std::unordered_map`. -/
  mapOrder : {α : Type} → List α → List α
  mapOrder_perm : ∀ {α : Type} (l : List α), (mapOrder l).Perm l

/-! ### Hash sets and maps of values -/

/-- `values.contains(v)`. -/
def containsValue (values : List Value) (v : Value) : Bool := values.any v.equal

/-- `values.insert(v)`. -/
def insertValue (values : List Value) (v : Value) : List Value :=
  if containsValue values v then values else values ++ [v]

/-- `rows.find(key)`. -/
def findRows (rows : List (Value × List Record)) (key : Value) : Option (List Record) :=
  (rows.find? fun row => key.equal row.1).map Prod.snd

/-- `rows[key].push_back(record)`. -/
def pushRow (rows : List (Value × List Record)) (key : Value) (record : Record) :
    List (Value × List Record) :=
  if rows.any fun row => key.equal row.1 then
    rows.map fun row => if key.equal row.1 then (row.1, row.2 ++ [record]) else row
  else
    rows ++ [(key, [record])]

/-- `==` on `std::vector<Value>`. -/
def equalKeys : List Value → List Value → Bool
  | [], [] => true
  | a :: as, b :: bs => a.equal b && equalKeys as bs
  | _, _ => false

/-! ### Limit -/

structure Limit where
  currLimit : Int
  deriving DecidableEq

/-- `Limit::consume`. -/
def Limit.consume (self : Limit) : Option Record → Body (Limit × Bool)
  | none => do
    let cont ← Prog.send none
    pure (self, cont)
  | some record =>
    if self.currLimit = 0 then do
      let cont ← Prog.send none
      pure (self, cont)
    else do
      let self : Limit := { currLimit := self.currLimit - 1 }
      let cont ← Prog.send (some record)
      if !cont then pure (self, false)
      else if self.currLimit = 0 then do
        let cont ← Prog.send none
        pure (self, cont)
      else do
        let cont ← Prog.isActive
        pure (self, cont)

/-! ### Filter -/

structure Filter where
  condition : Scalar
  scalarContext : ScalarContext

/-- `condition_->eval(*record).get<bool>()`, after the context is reset. -/
def Filter.test (self : Filter) (record : Record) : Except Fault (Bool × ScalarContext) := do
  let (v, ctx) ← self.condition.eval record self.scalarContext.reset
  let holds ← v.getBool
  pure (holds, ctx)

/-- `Filter::consume`. -/
def Filter.consume (self : Filter) : Option Record → Body (Filter × Bool)
  | none => do
    let cont ← Prog.send none
    pure (self, cont)
  | some record => do
    let (holds, ctx) ← Prog.lift (self.test record)
    let self : Filter := { self with scalarContext := ctx }
    if holds then do
      let cont ← Prog.send (some record)
      pure (self, cont)
    else do
      let cont ← Prog.isActive
      pure (self, cont)

/-! ### Projection -/

structure Projection where
  scalars : List (Option Scalar)
  scalarContext : ScalarContext
  record : List Value

/-- The loop over the scalars; the value of one that is not required stays as it was. -/
def Projection.evalAll (record : Record) :
    List (Option Scalar) → List Value → ScalarContext → Except Fault (List Value × ScalarContext)
  | some scalar :: scalars, _ :: values, ctx => do
    let (v, ctx) ← scalar.eval record ctx
    let (vs, ctx) ← evalAll record scalars values ctx
    pure (v :: vs, ctx)
  | none :: scalars, v :: values, ctx => do
    let (vs, ctx) ← evalAll record scalars values ctx
    pure (v :: vs, ctx)
  | _, values, ctx => .ok (values, ctx)

/-- `Projection::consume`. -/
def Projection.consume (self : Projection) : Option Record → Body (Projection × Bool)
  | none => do
    let cont ← Prog.send none
    pure (self, cont)
  | some record => do
    let (values, ctx) ← Prog.lift
      (evalAll record self.scalars self.record self.scalarContext.reset)
    let cont ← Prog.send (some (.vec values))
    pure ({ self with record := values, scalarContext := ctx }, cont)

/-! ### UnionAll -/

structure UnionAll where
  inputs : Nat
  streamFinished : Bool
  eofCount : Nat
  deriving DecidableEq

/-- `UnionAll::consume`, the same for every input. -/
def UnionAll.consume (self : UnionAll) (record : Option Record) : Body (UnionAll × Bool) :=
  if self.streamFinished then pure (self, false)
  else
    match record with
    | none =>
      let self : UnionAll := { self with eofCount := self.eofCount + 1 }
      if self.eofCount = self.inputs then do
        let _ ← Prog.send none
        pure ({ self with streamFinished := true }, false)
      else
        pure (self, false)
    | some record => do
      let cont ← Prog.send (some record)
      if !cont then pure ({ self with streamFinished := true }, false)
      else pure (self, true)

/-! ### Joins -/

/-- Reading the set that a semi-join or a mark join has built. -/
def Cell.values : Cell → Except Fault (List Value)
  | semiJoin values => .ok values
  | markJoin values => .ok values
  | _ => .error (.undefined "another state object")

/-- `HashSemiJoinBuild::consume`. -/
def HashSemiJoinBuild.consume : Option Record → Body Bool
  | none => pure false
  | some record => do
    let values ← Prog.lift ((← Prog.read).values)
    let v ← Prog.lift (record.get 0)
    Prog.write (.semiJoin (insertValue values v))
    pure true

/-- `HashMarkJoinBuild::consume`. -/
def HashMarkJoinBuild.consume : Option Record → Body Bool
  | none => pure false
  | some record => do
    let values ← Prog.lift ((← Prog.read).values)
    let v ← Prog.lift (record.get 0)
    Prog.write (.markJoin (insertValue values v))
    pure true

/-- Evaluating a key that uses no context. -/
def evalKey (key : Scalar) (record : Record) : Except Fault Value := do
  let (v, _) ← key.eval record []
  pure v

/-- `HashSemiJoinProbe::consume`. -/
def HashSemiJoinProbe.consume (joinKey : Scalar) : Option Record → Body Bool
  | none => Prog.send none
  | some record => do
    let values ← Prog.lift ((← Prog.read).values)
    if values.isEmpty then Prog.send none
    else do
      let v ← Prog.lift (evalKey joinKey record)
      if containsValue values v then do
        let cont ← Prog.send (some record)
        if !cont then pure false else pure true
      else do
        let act ← Prog.isActive
        if !act then pure false else pure true

/-- `HashMarkJoinProbe::consume`. -/
def HashMarkJoinProbe.consume (joinKey : Scalar) (outputSlot : Nat) : Option Record → Body Bool
  | none => Prog.send none
  | some record => do
    let values ← Prog.lift ((← Prog.read).values)
    let v ← Prog.lift (evalKey joinKey record)
    let cont ← Prog.send (some (.mark (.boolean (containsValue values v)) outputSlot record))
    if !cont then pure false else pure true

/-- Reading the rows that a left join has built. -/
def Cell.rows : Cell → Except Fault (List (Value × List Record))
  | leftJoin rows => .ok rows
  | _ => .error (.undefined "another state object")

/-- `HashLeftJoinBuild::consume`. -/
def HashLeftJoinBuild.consume (key : Scalar) : Option Record → Body Bool
  | none => pure false
  | some record => do
    let v ← Prog.lift (evalKey key record)
    if v.type ≠ .null then
      let rows ← Prog.lift ((← Prog.read).rows)
      Prog.write (.leftJoin (pushRow rows v record))
      pure true
    else
      pure true

/-- `HashLeftJoinProbe::consume`. -/
def HashLeftJoinProbe.consume (key : Scalar) (leftColumns : Nat) : Option Record → Body Bool
  | none => Prog.send none
  | some record => do
    let v ← Prog.lift (evalKey key record)
    let rows ← Prog.lift ((← Prog.read).rows)
    match findRows rows v with
    | none => Prog.send (some (.leftJoinNull record leftColumns))
    | some matching =>
      if v.type = .null then Prog.send (some (.leftJoinNull record leftColumns))
      else Prog.sendAll ((matching.map fun right => .leftJoin record right leftColumns).map some)

/-! ### Aggregate -/

structure AggregateCollector where
  aggregators : List Aggregator
  scalarContext : ScalarContext

/-- `AggregateCollector::consume`. -/
def AggregateCollector.consume [Platform] (self : AggregateCollector) :
    Option Record → Body (AggregateCollector × Bool)
  | some record => do
    let (aggregators, ctx) ← Prog.lift
      (Aggregator.feedAll record self.aggregators self.scalarContext.reset)
    let cont ← Prog.isActive
    pure ({ aggregators := aggregators, scalarContext := ctx }, cont)
  | none => do
    let values ← Prog.lift (self.aggregators.mapM Aggregator.get)
    Prog.write (.aggregate values)
    let cont ← Prog.send (some (.aggregate values))
    if cont then
      let _ ← Prog.send none
      pure ({ self with aggregators := [] }, false)
    else
      pure ({ self with aggregators := [] }, false)

/-- Reading an aggregate's state. -/
def Cell.aggregateValues : Cell → Except Fault (List Value)
  | aggregate values => .ok values
  | _ => .error (.undefined "another state object")

/-- `AggregateEmitter::push`. -/
def AggregateEmitter.push : Body Unit := do
  let act ← Prog.isActive
  if act then
    let values ← Prog.lift ((← Prog.read).aggregateValues)
    let cont ← Prog.send (some (.aggregate values))
    if cont then
      let _ ← Prog.send none
      pure ()
    else
      pure ()
  else
    pure ()

/-! ### Materialize -/

/-- Reading the materialized records. -/
def Cell.records : Cell → Except Fault (List Record)
  | materialize records => .ok records
  | _ => .error (.undefined "another state object")

/-- `MaterializeCollector::consume`. -/
def MaterializeCollector.consume : Option Record → Body Bool
  | none => do
    let act ← Prog.isActive
    if act then
      let _ ← Prog.send none
      pure false
    else
      pure false
  | some record => do
    let records ← Prog.lift ((← Prog.read).records)
    Prog.write (.materialize (records ++ [record]))
    let act ← Prog.isActive
    if act then
      let _ ← Prog.send (some record)
      pure true
    else
      pure true

/-- `MaterializeEmitter::push`. -/
def MaterializeEmitter.push : Body Unit := do
  let records ← Prog.lift ((← Prog.read).records)
  let cont ← Prog.sendAll (records.map some)
  if cont then
    let _ ← Prog.send none
    pure ()
  else
    pure ()

/-! ### Values -/

/-- `Values::push`. -/
def Values.push (values : List Value) : Body Unit := do
  let act ← Prog.isActive
  Prog.lift (verify act "verify(active()) failed ")
  let cont ← Prog.sendAll ((values.map Record.value).map some)
  if cont then
    let _ ← Prog.send none
    pure ()
  else
    pure ()

/-! ### Sort and TopK -/

/-- A record with its sort key. -/
abbrev Keyed := Record × List Value

/-- `Sort`. -/
structure SortOp where
  sortKey : List Scalar
  desc : Bool
  records : List Keyed

/-- The comparator of `Sort`: `l.second > r.second` or `l.second < r.second`. -/
def SortOp.less (desc : Bool) (l r : Keyed) : Bool :=
  if desc then keyLess r.2 l.2 else keyLess l.2 r.2

/-- `Sort::consume`. -/
def SortOp.consume [Algorithms] (self : SortOp) : Option Record → Body (SortOp × Bool)
  | some record => do
    let key ← Prog.lift (Scalar.key record self.sortKey)
    let act ← Prog.isActive
    if !act then pure ({ self with records := [] }, false)
    else pure ({ self with records := self.records ++ [(record, key)] }, true)
  | none => do
    let sorted := Algorithms.sort (SortOp.less self.desc) self.records
    let cont ← Prog.sendAll ((sorted.map Prod.fst).map some)
    if !cont then pure ({ self with records := [] }, false)
    else do
      let cont ← Prog.send none
      pure ({ self with records := [] }, cont)

/-- `TopK`, with the elements of its `BoundedPriorityQueue`. -/
structure TopK where
  sortKey : List Scalar
  desc : Bool
  maxSize : Nat
  heap : List Keyed

namespace TopK

/-- `BoundedPriorityQueue::Comparator`. -/
def comparator (desc : Bool) (l r : Keyed) : Bool :=
  if desc then keyLess r.2 l.2 else keyLess l.2 r.2

/-- `BoundedPriorityQueue::better`. -/
def better (desc : Bool) (a b : List Value) : Bool := if desc then keyLess b a else keyLess a b

/-- `BoundedPriorityQueue::push`. -/
def pushHeap [Algorithms] (self : TopK) (record : Record) (key : List Value) : List Keyed :=
  if self.heap.length < self.maxSize then self.heap ++ [(record, key)]
  else
    match Algorithms.pop (comparator self.desc) self.heap with
    | none => self.heap
    | some (top, rest) =>
      if better self.desc key top.2 then rest ++ [(record, key)] else self.heap

/-- The loop of `BoundedPriorityQueue::drain`: the worst element first. -/
def popAll [Algorithms] (desc : Bool) : Nat → List Keyed → List Keyed
  | 0, _ => []
  | n + 1, heap =>
    match Algorithms.pop (comparator desc) heap with
    | none => []
    | some (top, rest) => top :: popAll desc n rest

/-- `BoundedPriorityQueue::drain`. -/
def drain [Algorithms] (self : TopK) : List Record :=
  ((popAll self.desc self.heap.length self.heap).map Prod.fst).reverse

/-- `TopK::consume`. -/
def consume [Algorithms] (self : TopK) : Option Record → Body (TopK × Bool)
  | some record => do
    let act ← Prog.isActive
    if !act then pure ({ self with heap := [] }, false)
    else do
      let key ← Prog.lift (Scalar.key record self.sortKey)
      pure ({ self with heap := self.pushHeap record key }, true)
  | none => do
    let cont ← Prog.sendAll (self.drain.map some)
    if !cont then pure ({ self with heap := [] }, false)
    else do
      let cont ← Prog.send none
      pure ({ self with heap := [] }, cont)

end TopK

/-! ### Group -/

/-- One entry of `Groups`. -/
abbrev GroupEntry := List Value × List (Option Aggregator)

structure Group where
  aggregates : List (Option Aggregate)
  groupKey : List Scalar
  scalarContext : ScalarContext
  groups : List GroupEntry

namespace Group

/-- The values of the group key, in the operator's context. -/
def getKey (self : Group) (record : Record) : Except Fault (List Value × ScalarContext) :=
  Scalar.evalAll record self.groupKey self.scalarContext.reset

/-- `aggregators`, filled if it is empty. -/
def start (self : Group) (aggregators : List (Option Aggregator)) : List (Option Aggregator) :=
  if aggregators.isEmpty then self.aggregates.map (Option.map Aggregate.aggregator)
  else aggregators

/-- Feeding the aggregators that are present. -/
def feedAll [Platform] (record : Record) : List (Option Aggregator) → ScalarContext →
    Except Fault (List (Option Aggregator) × ScalarContext)
  | [], ctx => .ok ([], ctx)
  | none :: as, ctx => do
    let (as, ctx) ← feedAll record as ctx
    pure (none :: as, ctx)
  | some a :: as, ctx => do
    let (a, ctx) ← a.feed record ctx
    let (as, ctx) ← feedAll record as ctx
    pure (some a :: as, ctx)

/-- `groups_[key]`, as the entries before it, its aggregators and the entries after it. -/
def split (key : List Value) :
    List GroupEntry → List GroupEntry × GroupEntry × List GroupEntry
  | [] => ([], (key, []), [])
  | e :: es =>
    if equalKeys e.1 key then ([], e, es)
    else
      let (before, found, after) := split key es
      (e :: before, found, after)

/-- One record. -/
def feed [Platform] (self : Group) (record : Record) : Except Fault Group := do
  let (key, ctx) ← self.getKey record
  let (before, found, after) := split key self.groups
  let (aggregators, ctx) ← feedAll record (self.start found.2) ctx
  pure { self with scalarContext := ctx, groups := before ++ (found.1, aggregators) :: after }

/-- The record of a group: the aggregates, then the key. -/
def result [Platform] (e : GroupEntry) : Except Fault Record := do
  let values ← e.2.mapM fun a => match a with
    | some a => a.get
    | none => .ok .null
  pure (.vec (values ++ e.1))

/-- The loop over the groups at the end of the stream. -/
def emitAll [Platform] : List GroupEntry → Body Bool
  | [] => pure true
  | e :: es => do
    let record ← Prog.lift (result e)
    let cont ← Prog.send (some record)
    if !cont then pure false else emitAll es

/-- `Group::consume`. -/
def consume [Platform] [Algorithms] (self : Group) : Option Record → Body (Group × Bool)
  | some record => do
    let self ← Prog.lift (self.feed record)
    let act ← Prog.isActive
    if !act then pure ({ self with groups := [] }, false)
    else pure (self, true)
  | none => do
    let cont ← emitAll (Algorithms.mapOrder self.groups)
    if !cont then pure ({ self with groups := [] }, false)
    else do
      let cont ← Prog.send none
      pure ({ self with groups := [] }, cont)

end Group

/-! ### The output -/

/-- `ConsumerBridge`: hands the values of the output columns to a consumer. -/
structure ConsumerBridge where
  columns : Nat
  consumed : List (List Value)
  isDone : Bool
  deriving DecidableEq

/-- `ConsumerBridge::consume`. -/
def ConsumerBridge.consume (self : ConsumerBridge) :
    Option Record → Body (ConsumerBridge × Bool)
  | none => pure ({ self with isDone := true }, false)
  | some record => do
    let values ← Prog.lift ((List.range self.columns).mapM record.get)
    pure ({ self with consumed := self.consumed ++ [values] }, true)

end Lsql.Phys
