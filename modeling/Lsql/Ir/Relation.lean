import Lsql.Ir.Typing
import Lsql.Plan.Operation

/-!
# Lsql.Ir.Relation

The relations and programs of the intermediate representation (`ir/Relations.h`, `ir/Aggregates.h`,
`ir/Statement.h`).

A relation is an operator on relations (`sources`, in the order of the node's fields) with a schema.
What does not depend on the operator is stated for the list of the sources: `withSources` puts others
in their place.
-/

namespace Lsql.Ir

/-- `Projector`. -/
structure Projector where
  aliasFieldId : FieldId
  expr : Scalar

/-- `AggregateNode`. -/
inductive AggregateNode
  /-- `FnCallAggregate`. -/
  | fnCall (function : Function) (args : List Scalar)
  /-- `ConstAggregate`. -/
  | const (value : Value) (nullIfEmpty : Bool)

/-- `ir::Aggregate`. -/
structure Aggregate where
  node : AggregateNode
  outputFieldId : FieldId
  valueType : ValueType

/-- `ir::Relation`, with one constructor for each node; the last field is `schema`. -/
inductive Relation
  | empty (schema : Schema)
  | values (values : List Value) (outputId : FieldId) (schema : Schema)
  | projection (source : Relation) (projectors : List Projector) (schema : Schema)
  | aggregate (source : Relation) (aggregates : List Aggregate) (schema : Schema)
  | group (source : Relation) (aggregates : List Aggregate) (groupList : List Projector)
    (schema : Schema)
  | limit (source : Relation) (limit : Int) (schema : Schema)
  | filter (source : Relation) (condition : Scalar) (schema : Schema)
  | sort (source : Relation) (orderList : List Scalar) (desc : Bool) (schema : Schema)
  | topK (source : Relation) (orderList : List Scalar) (desc : Bool) (topCount : Int)
    (schema : Schema)
  | semiJoin (source matched : Relation) (expr : Scalar) (matchFieldId : FieldId) (schema : Schema)
  | markJoin (source matched : Relation) (expr : Scalar) (outputFieldId matchFieldId : FieldId)
    (schema : Schema)
  | leftJoin (left right : Relation) (leftKey rightKey : Scalar) (schema : Schema)
  | unionAll (sources : List Relation) (schema : Schema)
  | unionAllSortedBy (left right : Relation) (orderList : List Scalar) (desc : Bool)
    (schema : Schema)
  | file (path : String) (range : Option Plan.TimeRange) (timeFormat : Option TimeFormat)
    (schema : Schema)
  | stream (command : String) (schema : Schema)
  | namedRelationReference (name : String) (schema : Schema)
  | materialize (source : Relation) (schema : Schema)

namespace Relation

/-- `schema`. -/
def schema : Relation → Schema
  | empty s | values _ _ s | projection _ _ s | aggregate _ _ s | group _ _ _ s | limit _ _ s
  | filter _ _ s | sort _ _ _ s | topK _ _ _ _ s | semiJoin _ _ _ _ s | markJoin _ _ _ _ _ s
  | leftJoin _ _ _ _ s | unionAll _ s | unionAllSortedBy _ _ _ _ s | file _ _ _ s | stream _ s
  | namedRelationReference _ s | materialize _ s => s

/-- The relations that a relation is computed from. -/
def sources : Relation → List Relation
  | projection r _ _ | aggregate r _ _ | group r _ _ _ | limit r _ _ | filter r _ _ | sort r _ _ _
  | topK r _ _ _ _ | materialize r _ => [r]
  | semiJoin r m _ _ _ | markJoin r m _ _ _ _ => [r, m]
  | leftJoin l r _ _ _ | unionAllSortedBy l r _ _ _ => [l, r]
  | unionAll rs _ => rs
  | empty _ | values _ _ _ | file _ _ _ _ | stream _ _ | namedRelationReference _ _ => []

/-- The same operator on other relations. -/
def withSources : Relation → List Relation → Relation
  | projection _ ps s, [r] => projection r ps s
  | aggregate _ as s, [r] => aggregate r as s
  | group _ as ks s, [r] => group r as ks s
  | limit _ n s, [r] => limit r n s
  | filter _ c s, [r] => filter r c s
  | sort _ ks desc s, [r] => sort r ks desc s
  | topK _ ks desc n s, [r] => topK r ks desc n s
  | materialize _ s, [r] => materialize r s
  | semiJoin _ _ e f s, [r, m] => semiJoin r m e f s
  | markJoin _ _ e o f s, [r, m] => markJoin r m e o f s
  | leftJoin _ _ lk rk s, [l, r] => leftJoin l r lk rk s
  | unionAllSortedBy _ _ ks desc s, [l, r] => unionAllSortedBy l r ks desc s
  | unionAll _ s, rs => unionAll rs s
  | self, _ => self

/-- Induction with a hypothesis for every source. -/
@[elab_as_elim] theorem induction {motive : Relation → Prop}
    (h : ∀ r, (∀ q ∈ r.sources, motive q) → motive r) (r : Relation) : motive r := by
  have hone : ∀ {q : Relation}, motive q → ∀ p ∈ [q], motive p := by
    intro q hq p hp
    rw [List.mem_singleton.mp hp]
    exact hq
  have htwo : ∀ {q q' : Relation}, motive q → motive q' → ∀ p ∈ [q, q'], motive p := by
    intro q q' hq hq' p hp
    rcases List.mem_cons.mp hp with rfl | hp
    · exact hq
    · exact hone hq' p hp
  refine @Relation.rec motive (fun rs => ∀ q ∈ rs, motive q) ?_ ?_ ?_ ?_ ?_ ?_ ?_ ?_ ?_ ?_ ?_ ?_
    ?_ ?_ ?_ ?_ ?_ ?_ ?_ ?_ r
  case refine_1 | refine_2 | refine_15 | refine_16 | refine_17 =>
    intros
    exact h _ fun q hq => absurd hq List.not_mem_nil
  case refine_13 => exact fun _ _ ih => h _ ih
  case refine_19 => exact fun q hq => absurd hq List.not_mem_nil
  case refine_20 =>
    intro q qs ih ihs p hp
    rcases List.mem_cons.mp hp with rfl | hp
    · exact ih
    · exact ihs p hp
  case refine_10 | refine_11 | refine_12 | refine_14 =>
    intros
    exact h _ (htwo ‹_› ‹_›)
  all_goals
    intros
    exact h _ (hone ‹_›)

/-- A property of every node of a relation. -/
inductive Everywhere (P : Relation → Prop) : Relation → Prop
  | node {r : Relation} : P r → (∀ q ∈ r.sources, Everywhere P q) → Everywhere P r

namespace Everywhere

variable {P : Relation → Prop} {r : Relation}

theorem here (h : r.Everywhere P) : P r := by
  cases h with
  | node h _ => exact h

theorem source (h : r.Everywhere P) {q : Relation} (hq : q ∈ r.sources) : q.Everywhere P := by
  cases h with
  | node _ h => exact h q hq

theorem mono {Q : Relation → Prop} (h : r.Everywhere P) (hPQ : ∀ q, P q → Q q) :
    r.Everywhere Q := by
  induction r using Relation.induction with
  | h r ih => exact .node (hPQ r h.here) fun q hq => ih q hq (h.source hq)

theorem of_forall (h : ∀ r, P r) (r : Relation) : r.Everywhere P := by
  induction r using Relation.induction with
  | h r ih => exact .node (h r) ih

end Everywhere

@[simp] theorem withSources_self (r : Relation) : r.withSources r.sources = r := by
  cases r <;> rfl

variable {r : Relation} {qs : List Relation}

/-- Other sources leave the schema as it is. -/
@[simp] theorem schema_withSources : (r.withSources qs).schema = r.schema := by
  unfold withSources
  split <;> rfl

theorem withSources_withSources {ps : List Relation} (h : qs.length = r.sources.length)
    (h' : ps.length = r.sources.length) : (r.withSources qs).withSources ps = r.withSources ps := by
  cases r with
  | semiJoin | markJoin | leftJoin | unionAllSortedBy =>
      obtain ⟨q, q', rfl⟩ := List.length_eq_two.mp h
      obtain ⟨p, p', rfl⟩ := List.length_eq_two.mp h'
      rfl
  | unionAll rs s => rfl
  | empty | values | file | stream | namedRelationReference =>
      cases List.length_eq_zero_iff.mp h
      rfl
  | _ =>
      obtain ⟨q, rfl⟩ := List.length_eq_one_iff.mp h
      obtain ⟨p, rfl⟩ := List.length_eq_one_iff.mp h'
      rfl

theorem sources_withSources (h : qs.length = r.sources.length) :
    (r.withSources qs).sources = qs := by
  cases r
  case unionAll => rfl
  all_goals
    rcases qs with _ | ⟨q, _ | ⟨q', _ | ⟨q'', qs⟩⟩⟩
    all_goals first
      | rfl
      | simp [sources] at h

end Relation

/-! ### Programs -/

/-- `Statement`. -/
inductive Statement
  /-- `NamedRelationStatement`. -/
  | namedRelation (name : String) (relation : Relation)
  /-- `QueryStatement`. -/
  | query (relation : Relation)

/-- `ir::Program`. -/
structure Program where
  statements : List Statement
  fieldBinding : FieldBinding

end Lsql.Ir
