import Lsql.Flow.Alike
import Lsql.Opt.ScalarCache
import Lsql.Phys.Run
import Lsql.Plan.Caching

/-!
# Lsql.Phys.Caching

Operators with and without cached scalars.

The projectors of a projection, the condition of a filter and the aggregates of an aggregate or a
group share a context of slots (`ScopedNode`). An operator that is built from what the pass
`scalarCache` has left of them is compared with the operator that is built without slots from what
the pass found: whatever records come and whoever waits for the output, nobody can tell them apart,
as long as no two scalars that share a slot differ in value on a record.
-/

namespace Lsql.Phys

open Lsql.Exec Lsql.Plan Flow

/-! ### Operators whose scalars are alike -/

section Alike

variable {Good : Record → Prop} {P : Record → ScalarContext → Prop} {n : Nat}

/-- Two planned scalars with the same value on every good record, the second one in the contexts
that `P` allows. -/
def Same (Good : Record → Prop) (P : Record → ScalarContext → Prop) (e₀ e : Scalar) : Prop :=
  ∀ record, Good record → ∀ ctx₀ ctx, P record ctx →
    Outcome (fun x y => x.1 = y.1 ∧ P record y.2) (e₀.eval record ctx₀) (e.eval record ctx)

/-- The contexts that an operator starts a record with, and those that it is left with. -/
structure Resets (P : Record → ScalarContext → Prop) (n : Nat) : Prop where
  reset : ∀ (record : Record) (ctx : ScalarContext), ctx.length = n → P record ctx.reset
  length : ∀ (record : Record) (ctx : ScalarContext), P record ctx → ctx.length = n

theorem Same.evalAll {es₀ es : List Scalar} (h : List.Forall₂ (Same Good P) es₀ es)
    {record : Record} (hgood : Good record) {ctx₀ ctx : ScalarContext} (hctx : P record ctx) :
    Outcome (fun x y => x.1 = y.1 ∧ P record y.2) (Scalar.evalAll record es₀ ctx₀)
      (Scalar.evalAll record es ctx) := by
  induction h generalizing ctx₀ ctx with
  | nil => exact .ok ⟨rfl, hctx⟩
  | cons he _ ih =>
      refine (he record hgood ctx₀ ctx hctx).bind ?_
      rintro ⟨v, ctx₁⟩ ⟨w, ctx₂⟩ ⟨hvw, hctx₂⟩
      refine (ih hctx₂).bind ?_
      rintro ⟨vs, ctx₃⟩ ⟨ws, ctx₄⟩ ⟨hvws, hctx₄⟩
      exact .ok ⟨congrArg₂ List.cons hvw hvws, hctx₄⟩

/-! #### Projections and filters -/

/-- Projections whose scalars are alike. -/
structure Projection.Like (Good : Record → Prop) (P : Record → ScalarContext → Prop) (n : Nat)
    (a b : Projection) : Prop where
  scalars : List.Forall₂ (Option.Rel (Same Good P)) a.scalars b.scalars
  record : a.record = b.record
  context : b.scalarContext.length = n

theorem Projection.evalAll_alike {es₀ es : List (Option Scalar)}
    (h : List.Forall₂ (Option.Rel (Same Good P)) es₀ es) {record : Record} (hgood : Good record)
    (vs : List Value) {ctx₀ ctx : ScalarContext} (hctx : P record ctx) :
    Outcome (fun x y => x.1 = y.1 ∧ P record y.2) (Projection.evalAll record es₀ vs ctx₀)
      (Projection.evalAll record es vs ctx) := by
  induction h generalizing vs ctx₀ ctx with
  | nil => cases vs <;> exact .ok ⟨rfl, hctx⟩
  | cons he _ ih =>
      cases he with
      | none =>
          cases vs with
          | nil => exact .ok ⟨rfl, hctx⟩
          | cons v vs =>
              refine (ih vs hctx).bind ?_
              rintro ⟨us, ctx₁⟩ ⟨ws, ctx₂⟩ ⟨husws, hctx₂⟩
              exact .ok ⟨congrArg (v :: ·) husws, hctx₂⟩
      | some he =>
          cases vs with
          | nil => exact .ok ⟨rfl, hctx⟩
          | cons v vs =>
              refine (he record hgood ctx₀ ctx hctx).bind ?_
              rintro ⟨u, ctx₁⟩ ⟨w, ctx₂⟩ ⟨huw, hctx₂⟩
              refine (ih vs hctx₂).bind ?_
              rintro ⟨us, ctx₃⟩ ⟨ws, ctx₄⟩ ⟨husws, hctx₄⟩
              exact .ok ⟨congrArg₂ List.cons huw husws, hctx₄⟩

theorem Projection.consume_alike (hP : Resets P n) {a b : Projection} (h : Like Good P n a b)
    {item : Option Record} (hgood : ∀ record ∈ item, Good record) :
    Prog.Alike (fun r r' => Like Good P n r.1 r'.1 ∧ r.2 = r'.2) (a.consume item)
      (b.consume item) := by
  cases item with
  | none => exact .emit none fun _ => .done ⟨h, rfl⟩
  | some record =>
      have hreset := hP.reset record b.scalarContext h.context
      rw [Projection.consume, Projection.consume, h.record]
      refine (Prog.Alike.lift (evalAll_alike h.scalars (hgood record rfl) b.record hreset)).bind ?_
      rintro ⟨vs, ctx₀⟩ ⟨ws, ctx⟩ ⟨hvws, hctx⟩
      obtain rfl : vs = ws := hvws
      exact .emit _ fun _ => .done ⟨⟨h.scalars, rfl, hP.length record ctx hctx⟩, rfl⟩

/-- Filters whose conditions are alike. -/
structure Filter.Like (Good : Record → Prop) (P : Record → ScalarContext → Prop) (n : Nat)
    (a b : Filter) : Prop where
  condition : Same Good P a.condition b.condition
  context : b.scalarContext.length = n

theorem Filter.consume_alike (hP : Resets P n) {a b : Filter} (h : Like Good P n a b)
    {item : Option Record} (hgood : ∀ record ∈ item, Good record) :
    Prog.Alike (fun r r' => Like Good P n r.1 r'.1 ∧ r.2 = r'.2) (a.consume item)
      (b.consume item) := by
  cases item with
  | none => exact .emit none fun _ => .done ⟨h, rfl⟩
  | some record =>
      have htest : Outcome (fun x y => x.1 = y.1 ∧ P record y.2) (a.test record)
          (b.test record) := by
        refine (h.condition record (hgood record rfl) a.scalarContext.reset _
          (hP.reset record b.scalarContext h.context)).bind ?_
        rintro ⟨v, ctx₀⟩ ⟨w, ctx⟩ ⟨hvw, hctx⟩
        obtain rfl : v = w := hvw
        change Outcome _ (v.getBool >>= _) (v.getBool >>= _)
        cases v.getBool with
        | error e => exact .error e
        | ok holds => exact .ok ⟨rfl, hctx⟩
      refine (Prog.Alike.lift htest).bind ?_
      rintro ⟨holds, ctx₀⟩ ⟨holds', ctx⟩ ⟨hholds, hctx⟩
      obtain rfl : holds = holds' := hholds
      cases holds with
      | true => exact .emit _ fun _ => .done ⟨⟨h.condition, hP.length record ctx hctx⟩, rfl⟩
      | false => exact .active fun _ => .done ⟨⟨h.condition, hP.length record ctx hctx⟩, rfl⟩

/-! #### Aggregators -/

/-- Aggregates with arguments that are alike. -/
inductive AggregateLike (Good : Record → Prop) (P : Record → ScalarContext → Prop) :
    Aggregate → Aggregate → Prop
  | nullary (t t' : ValueType) (start : FnAggregator) :
      AggregateLike Good P (.nullary t start) (.nullary t' start)
  | unary (t t' : ValueType) (start : FnAggregator) {e₀ e : Scalar} : Same Good P e₀ e →
      AggregateLike Good P (.unary t start e₀) (.unary t' start e)
  | const (v : Value) (nullIfEmpty : Bool) :
      AggregateLike Good P (.const v nullIfEmpty) (.const v nullIfEmpty)

/-- Aggregators in the same state, with arguments that are alike. -/
inductive AggregatorLike (Good : Record → Prop) (P : Record → ScalarContext → Prop) :
    Aggregator → Aggregator → Prop
  | nullary (state : FnAggregator) : AggregatorLike Good P (.nullary state) (.nullary state)
  | unary (state : FnAggregator) {e₀ e : Scalar} : Same Good P e₀ e →
      AggregatorLike Good P (.unary e₀ state) (.unary e state)
  | const (v : Value) (nullIfEmpty : Bool) (count : Nat) :
      AggregatorLike Good P (.const v nullIfEmpty count) (.const v nullIfEmpty count)

theorem AggregateLike.aggregator {a b : Aggregate} (h : AggregateLike Good P a b) :
    AggregatorLike Good P a.aggregator b.aggregator := by
  cases h with
  | nullary t t' start => exact .nullary start
  | unary t t' start he => exact .unary start he
  | const v nullIfEmpty => exact .const v nullIfEmpty 0

variable [Platform]

theorem AggregatorLike.get {a b : Aggregator} (h : AggregatorLike Good P a b) : a.get = b.get := by
  cases h <;> rfl

theorem AggregatorLike.feed {a b : Aggregator} (h : AggregatorLike Good P a b) {record : Record}
    (hgood : Good record) {ctx₀ ctx : ScalarContext} (hctx : P record ctx) :
    Outcome (fun x y => AggregatorLike Good P x.1 y.1 ∧ P record y.2) (a.feed record ctx₀)
      (b.feed record ctx) := by
  cases h with
  | nullary state =>
      rw [Aggregator.feed, Aggregator.feed]
      cases state.feed .null with
      | error e => exact .error e
      | ok state => exact .ok ⟨.nullary state, hctx⟩
  | unary state he =>
      refine (he record hgood ctx₀ ctx hctx).bind ?_
      rintro ⟨v, ctx₁⟩ ⟨w, ctx₂⟩ ⟨hvw, hctx₂⟩
      obtain rfl : v = w := hvw
      change Outcome _ (state.feed v >>= _) (state.feed v >>= _)
      cases state.feed v with
      | error e => exact .error e
      | ok state => exact .ok ⟨.unary state he, hctx₂⟩
  | const v nullIfEmpty count =>
      rw [Aggregator.feed, Aggregator.feed]
      split
      · exact .ok ⟨.const v nullIfEmpty _, hctx⟩
      · exact .error _

theorem feedAll_alike {as bs : List Aggregator} (h : List.Forall₂ (AggregatorLike Good P) as bs)
    {record : Record} (hgood : Good record) {ctx₀ ctx : ScalarContext} (hctx : P record ctx) :
    Outcome (fun x y => List.Forall₂ (AggregatorLike Good P) x.1 y.1 ∧ P record y.2)
      (Aggregator.feedAll record as ctx₀) (Aggregator.feedAll record bs ctx) := by
  induction h generalizing ctx₀ ctx with
  | nil => exact .ok ⟨.nil, hctx⟩
  | cons hab _ ih =>
      refine (hab.feed hgood hctx).bind ?_
      rintro ⟨a', ctx₁⟩ ⟨b', ctx₂⟩ ⟨hab', hctx₂⟩
      refine (ih hctx₂).bind ?_
      rintro ⟨as', ctx₃⟩ ⟨bs', ctx₄⟩ ⟨habs, hctx₄⟩
      exact .ok ⟨.cons hab' habs, hctx₄⟩

/-- Collectors whose aggregators are alike. -/
structure AggregateCollector.Like (Good : Record → Prop) (P : Record → ScalarContext → Prop) (n : Nat)
    (a b : AggregateCollector) : Prop where
  aggregators : List.Forall₂ (AggregatorLike Good P) a.aggregators b.aggregators
  context : b.scalarContext.length = n

theorem AggregateCollector.consume_alike (hP : Resets P n) {a b : AggregateCollector}
    (h : Like Good P n a b) {item : Option Record} (hgood : ∀ record ∈ item, Good record) :
    Prog.Alike (fun r r' => Like Good P n r.1 r'.1 ∧ r.2 = r'.2) (a.consume item)
      (b.consume item) := by
  cases item with
  | none =>
      rw [AggregateCollector.consume, AggregateCollector.consume,
        mapM_eq h.aggregators fun _ _ hxy => hxy.get]
      refine (Prog.Alike.refl (R := Eq) (fun _ => rfl) _).bind ?_
      rintro vs _ rfl
      refine .store _ (.emit _ fun cont => ?_)
      cases cont with
      | true => exact .emit none fun _ => .done ⟨⟨.nil, h.context⟩, rfl⟩
      | false => exact .done ⟨⟨.nil, h.context⟩, rfl⟩
  | some record =>
      have hreset := hP.reset record b.scalarContext h.context
      refine (Prog.Alike.lift (feedAll_alike h.aggregators (hgood record rfl) hreset)).bind ?_
      rintro ⟨as, ctx₀⟩ ⟨bs, ctx⟩ ⟨habs, hctx⟩
      exact .active fun _ => .done ⟨⟨habs, hP.length record ctx hctx⟩, rfl⟩

/-! #### Groups -/

/-- Entries with the same key whose aggregators are alike. -/
def EntryLike (Good : Record → Prop) (P : Record → ScalarContext → Prop) (a b : GroupEntry) : Prop :=
  a.1 = b.1 ∧ List.Forall₂ (Option.Rel (AggregatorLike Good P)) a.2 b.2

/-- Groups whose keys and aggregates are alike. -/
structure Group.Like (Good : Record → Prop) (P : Record → ScalarContext → Prop) (n : Nat)
    (a b : Group) : Prop where
  aggregates : List.Forall₂ (Option.Rel (AggregateLike Good P)) a.aggregates b.aggregates
  groupKey : List.Forall₂ (Same Good P) a.groupKey b.groupKey
  groups : List.Forall₂ (EntryLike Good P) a.groups b.groups
  context : b.scalarContext.length = n

namespace Group

theorem feedAll_alike {as bs : List (Option Aggregator)}
    (h : List.Forall₂ (Option.Rel (AggregatorLike Good P)) as bs) {record : Record}
    (hgood : Good record) {ctx₀ ctx : ScalarContext} (hctx : P record ctx) :
    Outcome (fun x y => List.Forall₂ (Option.Rel (AggregatorLike Good P)) x.1 y.1 ∧ P record y.2)
      (feedAll record as ctx₀) (feedAll record bs ctx) := by
  induction h generalizing ctx₀ ctx with
  | nil => exact .ok ⟨.nil, hctx⟩
  | cons hab _ ih =>
      cases hab with
      | none =>
          refine (ih hctx).bind ?_
          rintro ⟨as', ctx₃⟩ ⟨bs', ctx₄⟩ ⟨habs, hctx₄⟩
          exact .ok ⟨.cons .none habs, hctx₄⟩
      | some hab =>
          refine (hab.feed hgood hctx).bind ?_
          rintro ⟨a', ctx₁⟩ ⟨b', ctx₂⟩ ⟨hab', hctx₂⟩
          refine (ih hctx₂).bind ?_
          rintro ⟨as', ctx₃⟩ ⟨bs', ctx₄⟩ ⟨habs, hctx₄⟩
          exact .ok ⟨.cons (.some hab') habs, hctx₄⟩

omit [Platform] in
theorem split_alike (key : List Value) {as bs : List GroupEntry}
    (h : List.Forall₂ (EntryLike Good P) as bs) :
    List.Forall₂ (EntryLike Good P) (split key as).1 (split key bs).1 ∧
      EntryLike Good P (split key as).2.1 (split key bs).2.1 ∧
      List.Forall₂ (EntryLike Good P) (split key as).2.2 (split key bs).2.2 := by
  induction h with
  | nil => exact ⟨.nil, ⟨rfl, .nil⟩, .nil⟩
  | @cons e e' es es' he hes ih =>
      rw [split, split, he.1]
      split
      · exact ⟨.nil, he, hes⟩
      · exact ⟨.cons he ih.1, ih.2.1, ih.2.2⟩

omit [Platform] in
theorem start_alike {a b : Group} (h : Like Good P n a b) {as bs : List (Option Aggregator)}
    (has : List.Forall₂ (Option.Rel (AggregatorLike Good P)) as bs) :
    List.Forall₂ (Option.Rel (AggregatorLike Good P)) (a.start as) (b.start bs) := by
  cases has with
  | nil =>
      refine List.forall₂_map_left_iff.mpr (List.forall₂_map_right_iff.mpr ?_)
      refine h.aggregates.imp fun x y hxy => ?_
      cases hxy with
      | none => exact .none
      | some hxy => exact .some hxy.aggregator
  | cons hab habs => exact .cons hab habs

theorem feed_alike (hP : Resets P n) {a b : Group} (h : Like Good P n a b) {record : Record}
    (hgood : Good record) : Outcome (Like Good P n) (a.feed record) (b.feed record) := by
  have hreset := hP.reset record b.scalarContext h.context
  refine (Same.evalAll h.groupKey hgood hreset).bind ?_
  rintro ⟨key, ctx₀⟩ ⟨key', ctx⟩ ⟨hkeys, hctx⟩
  obtain rfl : key = key' := hkeys
  obtain ⟨hbefore, hfound, hafter⟩ := split_alike key h.groups
  refine (feedAll_alike (start_alike h hfound.2) hgood hctx).bind ?_
  rintro ⟨as, ctx₁⟩ ⟨bs, ctx₂⟩ ⟨habs, hctx₂⟩
  exact .ok ⟨h.aggregates, h.groupKey,
    List.rel_append hbefore (.cons ⟨hfound.1, habs⟩ hafter), hP.length record ctx₂ hctx₂⟩

theorem result_alike {a b : GroupEntry} (h : EntryLike Good P a b) : result a = result b := by
  rw [result, result, h.1, mapM_eq h.2 fun x y hxy => ?_]
  cases hxy with
  | none => rfl
  | some hxy => exact hxy.get

theorem consume_alike [Algorithms] (hP : Resets P n) {a b : Group} (h : Like Good P n a b)
    {record : Record} (hgood : Good record) :
    Prog.Alike (fun r r' => Like Good P n r.1 r'.1 ∧ r.2 = r'.2) (a.consume (some record))
      (b.consume (some record)) := by
  refine (Prog.Alike.lift (feed_alike hP h hgood)).bind fun a' b' h' => ?_
  refine .active fun act => ?_
  cases act with
  | true => exact .done ⟨h', rfl⟩
  | false => exact .done ⟨⟨h'.aggregates, h'.groupKey, .nil, h'.context⟩, rfl⟩

end Group

/-! #### Operators -/

/-- Operators that evaluate scalars that are alike. -/
inductive OperatorLike (Good : Record → Prop) (P : Record → ScalarContext → Prop) (n : Nat) :
    Operator → Operator → Prop
  | projection {a b : Projection} : Projection.Like Good P n a b →
      OperatorLike Good P n (.projection a) (.projection b)
  | filter {a b : Filter} : Filter.Like Good P n a b →
      OperatorLike Good P n (.filter a) (.filter b)
  | aggregateCollector {a b : AggregateCollector} : AggregateCollector.Like Good P n a b →
      OperatorLike Good P n (.aggregateCollector a) (.aggregateCollector b)
  | group {a b : Group} : Group.Like Good P n a b → OperatorLike Good P n (.group a) (.group b)

theorem OperatorLike.consume [Algorithms] (hP : Resets P n) {a b : Operator}
    (h : OperatorLike Good P n a b) {record : Record} (hgood : Good record) :
    Prog.Alike (fun r r' => OperatorLike Good P n r.1 r'.1 ∧ r.2 = r'.2)
      (a.consume 0 (some record)) (b.consume 0 (some record)) := by
  have hitem : ∀ r ∈ some record, Good r := fun r hr => Option.mem_some_iff.mp hr ▸ hgood
  cases h with
  | projection h =>
      exact (Projection.consume_alike hP h hitem).bind fun x y hxy =>
        .done ⟨.projection hxy.1, hxy.2⟩
  | filter h =>
      exact (Filter.consume_alike hP h hitem).bind fun x y hxy => .done ⟨.filter hxy.1, hxy.2⟩
  | aggregateCollector h =>
      exact (AggregateCollector.consume_alike hP h hitem).bind fun x y hxy =>
        .done ⟨.aggregateCollector hxy.1, hxy.2⟩
  | group h =>
      exact (Group.consume_alike hP h hgood).bind fun x y hxy => .done ⟨.group hxy.1, hxy.2⟩

/-- What an operator has made of its input for the end of the stream: the aggregates, or the records
of the groups, which come in the order of the map. -/
def Operator.collected : Operator → List (Except Fault Record)
  | aggregateCollector self => [(self.aggregators.mapM Aggregator.get).map Record.aggregate]
  | group self => self.groups.map Group.result
  | _ => []

theorem OperatorLike.collected {a b : Operator} (h : OperatorLike Good P n a b) :
    a.collected = b.collected := by
  cases h with
  | projection h => rfl
  | filter h => rfl
  | @aggregateCollector a b h =>
      rw [Operator.collected, Operator.collected, mapM_eq h.aggregators fun _ _ hxy => hxy.get]
  | @group a b h =>
      rw [Operator.collected, Operator.collected]
      rw [← List.forall₂_eq_eq_eq]
      exact List.forall₂_map_left_iff.mpr (List.forall₂_map_right_iff.mpr
        (h.groups.imp fun _ _ he => Group.result_alike he))

end Alike

/-! ### Nodes with a scope -/

/-- The parts of a relation that a scope is made for, with the columns that are required of it. -/
inductive ScopedNode
  | projection (projectors : List Ir.Projector) (required : FieldSet)
  | filter (condition : Ir.Scalar)
  | aggregate (aggregates : List Ir.Aggregate)
  | group (aggregates : List Ir.Aggregate) (groupList : List Ir.Projector) (required : FieldSet)

namespace ScopedNode

/-- The scalars that are evaluated on every record with the slots of the scope. -/
def scalars : ScopedNode → List Ir.Scalar
  | projection ps required =>
    (ps.filter fun p => required.contains p.aliasFieldId).map Ir.Projector.expr
  | filter c => [c]
  | aggregate as => as.flatMap Ir.Aggregate.args
  | group as _ required =>
    (as.filter fun a => required.contains a.outputFieldId).flatMap Ir.Aggregate.args

/-- What the pass `scalarCache` does to the relation. -/
def updateCache [DescriptionHash] (settings : Opt.OptimizerSettings) :
    ScopedNode → Opt.Pass ScopedNode
  | projection ps required => do
    let ps ← Opt.ScalarCache.updateCache settings Opt.ScalarCache.projectors ps
    pure (projection ps required)
  | filter c => do
    let c ← Opt.ScalarCache.updateCache settings Opt.ScalarCache.condition c
    pure (filter c)
  | aggregate as => do
    let as ← Opt.ScalarCache.updateCache settings Opt.ScalarCache.aggregates as
    pure (aggregate as)
  | group as ks required => do
    let as ← Opt.ScalarCache.updateCache settings Opt.ScalarCache.aggregates as
    pure (group as ks required)

variable [Platform]

/-- The operator that is planned and built, over records of a schema: with the slots of a scope, or
with none. -/
def operator (schema : Schema) (scope : Option ScalarScope) : ScopedNode → Except Fault Operator
  | projection ps required => do
    let (projectors, scope) ← projectorsList schema ps scope
    pure (.projection { scalars := Builder.requiredScalars projectors required,
                        scalarContext := contextOf scope, record := projectors.map fun _ => .null })
  | filter c => do
    let (condition, scope) ← planScalar schema c scope
    pure (.filter { condition := condition, scalarContext := contextOf scope })
  | aggregate as => do
    let (aggregates, scope) ← aggregatesList schema as scope
    pure (.aggregateCollector { aggregators := aggregates.map fun a => a.expr.aggregator,
                                scalarContext := contextOf scope })
  | group as ks required => do
    let (aggregates, scope) ← aggregatesList schema as scope
    let (groupKey, _) ← projectorsList schema ks none
    pure (.group { aggregates := Builder.requiredAggregates aggregates required,
                   groupKey := groupKey.map ScalarProjector.expr, scalarContext := contextOf scope,
                   groups := [] })

end ScopedNode

/-! ### What is planned with slots and without -/

section Tracks

open Opt.ScalarCache (SameProjector SameAggregate)

variable [Platform] {schema : Schema} {scope : ScalarScope} {Good : Record → Prop}
  {used : List Ir.Scalar}

/-- The contexts of a scope on records of a schema. -/
def SlotsOn (schema : Schema) (scope : ScalarScope) (scalars : List Ir.Scalar) (record : Record)
    (ctx : ScalarContext) : Prop :=
  Slots scope (fieldsOf schema record) (usesAll (fieldsOf schema record) scalars) ctx

theorem slotsOn_resets (schema : Schema) (scope : ScalarScope) (scalars : List Ir.Scalar) :
    Resets (SlotsOn schema scope scalars) scope.expressions.length where
  reset _ _ h := slots_reset h
  length _ _ h := h.length

omit [Platform] in
theorem gives_outcome {α : Type} {P Q : ScalarContext → Prop} {x : Except Fault α}
    {y₀ y : Except Fault (α × ScalarContext)} (h₀ : Gives Q x y₀) (h : Gives P x y) :
    Outcome (fun a b => a.1 = b.1 ∧ P b.2) y₀ y := by
  cases x with
  | error e =>
      cases y₀ with
      | ok p => exact h₀.elim
      | error e₀ =>
          cases y with
          | ok p => exact h.elim
          | error e₁ =>
              obtain rfl : e₀ = e := h₀
              obtain rfl : e₁ = e₀ := h
              exact .error e₁
  | ok a =>
      cases y₀ with
      | error e => exact h₀.elim
      | ok p₀ =>
          cases y with
          | error e => exact h.elim
          | ok p => exact .ok ⟨h₀.1.trans h.1.symm, h.2⟩

/-- What holds of a scope on the records that come: equal scalars have the same value. -/
structure Shares (schema : Schema) (scope : ScalarScope) (scalars : List Ir.Scalar)
    (Good : Record → Prop) : Prop where
  numbered : scope.Numbered
  agree : ∀ record, Good record →
    Agree (fieldsOf schema record) (usesAll (fieldsOf schema record) scalars)

variable {scalars : List Ir.Scalar}

theorem Shares.same (h : Shares schema scope scalars Good) {s₀ s : Ir.Scalar} {e₀ e : Scalar}
    (h₀ : TracksIn schema none s₀ e₀) (he : TracksIn schema (some scope) s e)
    (hsame : Opt.ScalarCache.SameValue s₀ s) (hs : s ∈ scalars) :
    Same Good (SlotsOn schema scope scalars) e₀ e := by
  intro record hgood ctx₀ ctx hctx
  have hplain := h₀ record (uses (fieldsOf schema record) s₀) (fun _ => True) trivial
    (List.Subset.refl _) ctx₀ trivial
  have hcached := he record _ (SlotsOn schema scope scalars record)
    ⟨h.numbered, h.agree record hgood, rfl⟩
    (fun a ha => (mem_usesAll _).mpr ⟨s, hs, ha⟩) ctx hctx
  rw [hsame] at hcached
  exact gives_outcome hplain hcached

/-- A key is planned without slots. -/
theorem same_key {s : Ir.Scalar} {e₀ e : Scalar} (h₀ : TracksIn schema none s e₀)
    (h : TracksIn schema none s e) (P : Record → ScalarContext → Prop) : Same Good P e₀ e := by
  intro record _ ctx₀ ctx hctx
  exact gives_outcome
    (h₀ record (uses (fieldsOf schema record) s) (fun _ => True) trivial (List.Subset.refl _) ctx₀
      trivial)
    (h record (uses (fieldsOf schema record) s) (P record) trivial (List.Subset.refl _) ctx hctx)

theorem Shares.requiredScalars (h : Shares schema scope scalars Good) {required : FieldSet}
    {ps ps' : List Ir.Projector} {qs₀ qs : List ScalarProjector}
    (h₀ : List.Forall₂ (ProjectorTracks schema none) ps qs₀)
    (hsame : List.Forall₂ SameProjector ps ps')
    (hqs : List.Forall₂ (ProjectorTracks schema (some scope)) ps' qs)
    (hscalars : ∀ p ∈ ps', required.contains p.aliasFieldId = true → p.expr ∈ scalars) :
    List.Forall₂ (Option.Rel (Same Good (SlotsOn schema scope scalars)))
      (Builder.requiredScalars qs₀ required) (Builder.requiredScalars qs required) := by
  induction hsame generalizing qs₀ qs with
  | nil =>
      cases h₀
      cases hqs
      exact .nil
  | @cons p p' ps ps' hp _ ih =>
      cases h₀ with
      | @cons _ q₀ _ qs₀ hq₀ h₀ =>
          cases hqs with
          | @cons _ q _ qs hq hqs =>
              refine .cons ?_ (ih h₀ hqs fun p hp => hscalars p (List.mem_cons_of_mem _ hp))
              beta_reduce
              rw [hq₀.fieldId, hq.fieldId, hp.field]
              split
              next hreq =>
                exact .some (h.same hq₀.expr hq.expr hp.expr
                  (hscalars p' List.mem_cons_self (hp.field ▸ hreq)))
              · exact .none

/-- Aggregates that are planned from the same aggregate. -/
theorem Shares.aggregate (h : Shares schema scope scalars Good) {a a' : Ir.Aggregate}
    {e₀ e : Aggregate} (h₀ : AggregateTracks schema none a.node e₀) (hsame : SameAggregate a a')
    (he : AggregateTracks schema (some scope) a'.node e) (hscalars : ∀ s ∈ a'.args, s ∈ scalars) :
    AggregateLike Good (SlotsOn schema scope scalars) e₀ e := by
  cases hsame with
  | const v nullIfEmpty id t =>
      cases h₀ with
      | const =>
          cases he with
          | const => exact .const v nullIfEmpty
  | fnCall f id t hargs =>
      cases h₀ with
      | @nullary _ t₀ _ hstart₀ =>
          cases hargs with
          | nil =>
              cases he with
              | @nullary _ t' _ hstart =>
                  cases hstart₀.symm.trans hstart
                  exact .nullary t₀ t' _
      | @unary _ t₀ _ s₀ _ hstart₀ hs₀ =>
          cases hargs with
          | @cons _ s _ _ hs hnil =>
              cases hnil with
              | nil =>
                  cases he with
                  | @unary _ t' _ _ _ hstart hs' =>
                      cases hstart₀.symm.trans hstart
                      exact .unary t₀ t' _ (h.same hs₀ hs' hs (hscalars s List.mem_cons_self))

/-- Planned aggregates of the same fields, from aggregates with the same values. -/
theorem Shares.aggregates (needed : FieldId → Prop) (h : Shares schema scope scalars Good)
    {as as' : List Ir.Aggregate} {qs₀ qs : List AggregateProjector}
    (h₀ : List.Forall₂ (fun a p => p.fieldId = a.outputFieldId ∧
      AggregateTracks schema none a.node p.expr) as qs₀)
    (hsame : List.Forall₂ SameAggregate as as')
    (hqs : List.Forall₂ (fun a p => p.fieldId = a.outputFieldId ∧
      AggregateTracks schema (some scope) a.node p.expr) as' qs)
    (hscalars : ∀ a ∈ as', needed a.outputFieldId → ∀ s ∈ a.args, s ∈ scalars) :
    List.Forall₂ (fun q₀ q => q₀.fieldId = q.fieldId ∧ (needed q.fieldId →
      AggregateLike Good (SlotsOn schema scope scalars) q₀.expr q.expr)) qs₀ qs := by
  induction hsame generalizing qs₀ qs with
  | nil =>
      cases h₀
      cases hqs
      exact .nil
  | @cons a a' as as' ha _ ih =>
      cases h₀ with
      | @cons _ q₀ _ qs₀ hq₀ h₀ =>
          cases hqs with
          | @cons _ q _ qs hq hqs =>
              have hfield : a'.outputFieldId = a.outputFieldId := by cases ha <;> rfl
              refine .cons ⟨?_, fun hneeded => ?_⟩
                (ih h₀ hqs fun a ha => hscalars a (List.mem_cons_of_mem _ ha))
              · rw [hq₀.1, hq.1, hfield]
              · exact h.aggregate hq₀.2 ha hq.2 (hscalars a' List.mem_cons_self (hq.1 ▸ hneeded))

end Tracks

/-! ### Cached evaluation is evaluation -/

section Transparent

open Opt.ScalarCache (updateCache_kept projectors_kept condition_kept aggregates_kept)

variable [Platform] [DescriptionHash] {schema : Schema} {settings : Opt.OptimizerSettings}
  {node node' : ScopedNode} {op₀ op : Operator} {b b' : Bool}

/-- The operators are related: on records on which scalars that share a slot have the same value. -/
theorem ScopedNode.operator_alike (hpass : node.updateCache settings b = .ok (node', b'))
    (hplain : node.operator schema none = .ok op₀)
    (hcached : node'.operator schema (some .empty) = .ok op) {Good : Record → Prop}
    (hagree : ∀ record, Good record →
      Agree (fieldsOf schema record) (usesAll (fieldsOf schema record) node'.scalars)) :
    ∃ scope, OperatorLike Good (SlotsOn schema scope node'.scalars) scope.expressions.length op₀ op := by
  cases node with
  | projection ps required =>
      obtain ⟨ps', b₁, hps, hnode⟩ := Opt.Pass.bind_ok.mp hpass
      cases hnode
      obtain ⟨⟨qs₀, out₀⟩, hqs₀, hop₀⟩ := bind_eq_ok.mp hplain
      cases hop₀
      obtain ⟨⟨qs, out⟩, hqs, hop⟩ := bind_eq_ok.mp hcached
      cases hop
      obtain ⟨scope, rfl, hnumbered, htracks⟩ := (projectorsList_tracks hqs).fresh
      have hsame := updateCache_kept projectors_kept hps
      refine ⟨scope, .projection ⟨?_, ?_, hnumbered.length_context⟩⟩
      · refine Shares.requiredScalars ⟨hnumbered, hagree⟩ (projectorsList_tracks hqs₀).plain hsame
          htracks fun p hp hreq => ?_
        exact List.mem_map_of_mem (List.mem_filter.mpr ⟨hp, hreq⟩)
      · rw [List.map_const', List.map_const', ← (projectorsList_tracks hqs₀).plain.length_eq,
          hsame.length_eq, htracks.length_eq]
  | filter c =>
      obtain ⟨c', b₁, hc, hnode⟩ := Opt.Pass.bind_ok.mp hpass
      cases hnode
      obtain ⟨⟨e₀, out₀⟩, he₀, hop₀⟩ := bind_eq_ok.mp hplain
      cases hop₀
      obtain ⟨⟨e, out⟩, he, hop⟩ := bind_eq_ok.mp hcached
      cases hop
      obtain ⟨scope, rfl, hnumbered, htracks⟩ := (planScalar_tracks c' he).fresh
      have hshares : Shares schema scope [c'] Good := ⟨hnumbered, hagree⟩
      exact ⟨scope, .filter ⟨hshares.same (planScalar_tracks c he₀).plain htracks
        (updateCache_kept condition_kept hc) (List.mem_singleton_self c'),
        hnumbered.length_context⟩⟩
  | aggregate as =>
      obtain ⟨as', b₁, has, hnode⟩ := Opt.Pass.bind_ok.mp hpass
      cases hnode
      obtain ⟨⟨qs₀, out₀⟩, hqs₀, hop₀⟩ := bind_eq_ok.mp hplain
      cases hop₀
      obtain ⟨⟨qs, out⟩, hqs, hop⟩ := bind_eq_ok.mp hcached
      cases hop
      obtain ⟨scope, rfl, hnumbered, htracks⟩ := (aggregatesList_tracks hqs).fresh
      have halike := Shares.aggregates (fun _ => True) ⟨hnumbered, hagree⟩
        (aggregatesList_tracks hqs₀).plain (updateCache_kept aggregates_kept has) htracks
        fun a ha _ s hs => List.mem_flatMap.mpr ⟨a, ha, hs⟩
      refine ⟨scope, .aggregateCollector ⟨?_, hnumbered.length_context⟩⟩
      exact List.forall₂_map_left_iff.mpr (List.forall₂_map_right_iff.mpr
        (halike.imp fun q₀ q hq => (hq.2 trivial).aggregator))
  | group as ks required =>
      obtain ⟨as', b₁, has, hnode⟩ := Opt.Pass.bind_ok.mp hpass
      cases hnode
      obtain ⟨⟨qs₀, out₀⟩, hqs₀, hrest₀⟩ := bind_eq_ok.mp hplain
      obtain ⟨⟨keys, outKeys⟩, hkeys, hop₀⟩ := bind_eq_ok.mp hrest₀
      cases hop₀
      obtain ⟨⟨qs, out⟩, hqs, hrest⟩ := bind_eq_ok.mp hcached
      obtain ⟨⟨keys', outKeys'⟩, hkeys', hop⟩ := bind_eq_ok.mp hrest
      cases hop
      cases hkeys.symm.trans hkeys'
      obtain ⟨scope, rfl, hnumbered, htracks⟩ := (aggregatesList_tracks hqs).fresh
      have halike := Shares.aggregates (fun id => required.contains id = true)
        ⟨hnumbered, hagree⟩ (aggregatesList_tracks hqs₀).plain
        (updateCache_kept aggregates_kept has) htracks
        fun a ha hreq s hs => List.mem_flatMap.mpr ⟨a, List.mem_filter.mpr ⟨ha, hreq⟩, hs⟩
      refine ⟨scope, .group ⟨?_, ?_, .nil, hnumbered.length_context⟩⟩
      · refine List.forall₂_map_left_iff.mpr (List.forall₂_map_right_iff.mpr
          (halike.imp fun q₀ q hq => ?_))
        rw [hq.1]
        split
        next hreq => exact .some (hq.2 hreq)
        · exact .none
      · have htracked := (projectorsList_tracks hkeys).plain
        exact List.forall₂_map_left_iff.mpr (List.forall₂_map_right_iff.mpr
          (forall₂_comp (fun k p k' hk hk' => same_key hk.expr hk'.expr _) htracked.flip htracked))

/-- **Caching is transparent** where scalars that share a slot have the same value. An operator that
is built from what the pass leaves answers every sequence of records as the operator that is built
without slots from what the pass found: it sends the same records on and fails alike, whoever waits
for them, and it has collected the same. -/
theorem scalarCache_transparent [Algorithms] (hpass : node.updateCache settings b = .ok (node', b'))
    (hplain : node.operator schema none = .ok op₀)
    (hcached : node'.operator schema (some .empty) = .ok op) (records : List Record)
    (hagree : ∀ record ∈ records,
      Agree (fieldsOf schema record) (usesAll (fieldsOf schema record) node'.scalars))
    (accept : List (Option Record) → Bool) (c : Cell) (d : Prog.Downstream Record) :
    Outcome (fun x y => (x.1.1.collected = y.1.1.collected ∧ x.1.2 = y.1.2) ∧ x.2 = y.2)
      (Prog.feed accept (fun self => self.consume 0) (records.map some) op₀ c d)
      (Prog.feed accept (fun self => self.consume 0) (records.map some) op c d) := by
  obtain ⟨scope, halike⟩ := ScopedNode.operator_alike hpass hplain hcached hagree
  refine (Prog.feed_alike (fun item hitem a b hab => ?_) accept halike c d).mono
    fun x y hxy => ⟨⟨hxy.1.1.collected, hxy.1.2⟩, hxy.2⟩
  obtain ⟨record, hrecord, rfl⟩ := List.mem_map.mp hitem
  exact hab.consume (slotsOn_resets schema scope _) hrecord

end Transparent

/-! ### Zeros of both signs -/

/-- A platform that prints the zeros as `std::to_string` does. -/
@[reducible] def printsZeros : Platform :=
  { Platform.inert with
    floatToString := fun x => Bytes.ofString (if x.sign then "-0.000000" else "0.000000") }

/-- `STRING(COALESCE(x, zero))`. -/
def textOr (zero : BitVec 32) : Ir.Scalar :=
  .fnCall (.cast .string)
    [.coalesce [.field 1 .floating, .value (.floating ⟨zero⟩) .floating] .floating] .string

/-- The text of a number, with `0.0` and with another zero for null. -/
def texts (zero : BitVec 32) : List Ir.Projector := [⟨2, textOr 0⟩, ⟨3, textOr zero⟩]

def cachedTexts (zero : BitVec 32) : List Ir.Projector :=
  [⟨2, .cached (textOr 0) .string⟩, ⟨3, .cached (textOr zero) .string⟩]

def bothFields : FieldSet := FieldSet.emptySet.addAll [2, 3]

theorem updateCache_texts {zero : BitVec 32} (hzero : zero = 0 ∨ zero = 0x80000000) :
    @ScopedNode.updateCache DescriptionHash.constant {} (.projection (texts zero) bothFields) false =
      .ok (.projection (cachedTexts zero) bothFields, true) := by
  have hbuild : @Opt.ScalarCache.buildCache DescriptionHash.constant _ {} Opt.ScalarCache.projectors
      (Opt.ScalarCache.projectors.map Opt.ScalarCache.stripCache (texts zero)) =
        .ok (cachedTexts zero) := by
    rcases hzero with rfl | rfl
    · exact (@Opt.ScalarCache.buildCache_of_sorted DescriptionHash.constant _ _ _ _ _ _ rfl rfl
        (by decide)).trans rfl
    · exact (@Opt.ScalarCache.buildCache_of_sorted DescriptionHash.constant _ _ _ _ _ _ rfl rfl
        (by decide)).trans rfl
  refine Opt.Pass.bind_ok.mpr ⟨cachedTexts zero, true, ?_, rfl⟩
  unfold Opt.ScalarCache.updateCache
  rw [hbuild]
  rcases hzero with rfl | rfl <;> rfl

/-- The same zero twice. -/
theorem scalarCache_transparent_texts :
    ∃ op₀ op, @ScopedNode.operator printsZeros (.withField 1) none
        (.projection (texts 0) bothFields) = .ok op₀ ∧
      @ScopedNode.operator printsZeros (.withField 1) (some .empty)
        (.projection (cachedTexts 0) bothFields) = .ok op ∧
      Outcome (fun x y => (@Operator.collected printsZeros x.1.1 =
          @Operator.collected printsZeros y.1.1 ∧ x.1.2 = y.1.2) ∧ x.2 = y.2)
        (Prog.feed (fun _ => true) (fun self => @Operator.consume printsZeros Algorithms.plain self 0)
          ([.vec [.null], .vec [.floating .one]].map some) op₀ .unused .fresh)
        (Prog.feed (fun _ => true) (fun self => @Operator.consume printsZeros Algorithms.plain self 0)
          ([.vec [.null], .vec [.floating .one]].map some) op .unused .fresh) := by
  obtain ⟨op₀, hop₀⟩ := exists_of_isOk (x := @ScopedNode.operator printsZeros (.withField 1) none
    (.projection (texts 0) bothFields)) rfl
  obtain ⟨op, hop⟩ := exists_of_isOk (x := @ScopedNode.operator printsZeros (.withField 1)
    (some .empty) (.projection (cachedTexts 0) bothFields)) rfl
  refine ⟨op₀, op, hop₀, hop, @scalarCache_transparent printsZeros DescriptionHash.constant _ {} _ _
    _ _ false true Algorithms.plain (updateCache_texts (.inl rfl)) hop₀ hop _ ?_ _ _ _⟩
  intro record _ s hs s' hs' _
  have hone : ∀ t ∈ @usesAll printsZeros (fieldsOf (.withField 1) record)
      [.cached (textOr 0) .string, .cached (textOr 0) .string], t = textOr 0 := by
    simp [usesAll, uses, usesFirst, textOr]
  rw [hone s hs, hone s' hs']

/-- What a projection puts out for records. -/
def ScopedNode.output [Platform] [Algorithms] (schema : Schema) (scope : Option ScalarScope)
    (node : ScopedNode) (records : List Record) : Except Fault (List (Option Record)) := do
  let op ← node.operator schema scope
  let r ← Prog.feed (fun _ => true) (fun self => self.consume 0) (records.map some) op .unused .fresh
  pure r.2.2.out

/-- `0.0` and `-0.0` share a slot. -/
theorem zeros_share_slot :
    @ScopedNode.updateCache DescriptionHash.constant {} (.projection (texts 0x80000000) bothFields)
        false = .ok (.projection (cachedTexts 0x80000000) bothFields, true) ∧
      ∃ out out',
        @ScopedNode.output printsZeros Algorithms.plain (.withField 1) none
          (.projection (texts 0x80000000) bothFields) [.vec [.null]] = .ok out ∧
        @ScopedNode.output printsZeros Algorithms.plain (.withField 1) (some .empty)
          (.projection (cachedTexts 0x80000000) bothFields) [.vec [.null]] = .ok out' ∧
        out = [some (.vec [.string (Bytes.ofString "0.000000"),
          .string (Bytes.ofString "-0.000000")])] ∧ out' ≠ out :=
  ⟨updateCache_texts (.inr rfl), _, _, rfl, rfl, rfl, by decide⟩

end Lsql.Phys
