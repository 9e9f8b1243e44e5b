import Lsql.Plan.Admissible

/-!
# Lsql.Plan.Totality

Planning comes to an end (`Planner` in `back/exec/plan/plan.cpp`).

Of a well-formed program the planner makes a table whose operations ask for fields of their sources,
in phases in which those can be read, however the named relations are shared; it stops on nothing but
an invalid pattern.
-/

namespace Lsql

namespace Ir

/-- What the planner relies on at a node: its scalars can be planned over its sources, its columns are
theirs unless it computes them, a name that it refers to is known, and the columns that it reads from
a file or a stream have names. -/
def Relation.PlannableNode (binding : FieldBinding) (named : String → Option Schema) :
    Relation → Prop
  | .empty _ | .values _ _ _ => True
  | .projection r ps _ => ∀ p ∈ ps, p.expr.Plannable r.schema
  | .aggregate r as _ => ∀ a ∈ as, a.Plannable r.schema
  | .group r as ks _ => (∀ a ∈ as, a.Plannable r.schema) ∧ ∀ k ∈ ks, k.expr.Plannable r.schema
  | .limit r _ s | .materialize r s => s.fields ⊆ r.schema.fields
  | .filter r c s => s.fields ⊆ r.schema.fields ∧ c.Plannable r.schema
  | .sort r ks _ s | .topK r ks _ _ s =>
    s.fields ⊆ r.schema.fields ∧ ∀ k ∈ ks, k.Plannable r.schema
  | .semiJoin r m e f s =>
    s.fields ⊆ r.schema.fields ∧ e.Plannable r.schema ∧ f ∈ m.schema.fields
  | .markJoin r m e o f s =>
    o ∈ s.fields ∧ s.fields ⊆ o :: r.schema.fields ∧ e.Plannable r.schema ∧ f ∈ m.schema.fields
  | .leftJoin l r lk rk _ => lk.Plannable l.schema ∧ rk.Plannable r.schema
  | .unionAll rs s => rs ≠ [] ∧ ∀ r ∈ rs, s.fields ⊆ r.schema.fields
  | .unionAllSortedBy l r ks _ s =>
    s.fields ⊆ l.schema.fields ∧ s.fields ⊆ r.schema.fields ∧
      (∀ k ∈ ks, k.Plannable l.schema) ∧ ∀ k ∈ ks, k.ReadsIn r.schema
  | .file _ _ _ s | .stream _ s => ∀ id ∈ s.fields, (binding.entry id).isSome = true
  | .namedRelationReference name s => ∃ t, named name = some t ∧ s.fields ⊆ t.fields

/-- A relation that can be planned. -/
abbrev Relation.Plannable (binding : FieldBinding) (named : String → Option Schema) (r : Relation) :
    Prop := r.Everywhere (Relation.PlannableNode binding named)

/-- Statements that can be planned, with the schemas of the relations that have been named before. -/
def PlannableStatements (binding : FieldBinding) (named : String → Option Schema) :
    List Statement → Prop
  | [] => True
  | .namedRelation name r :: ss =>
    r.Plannable binding named ∧
      PlannableStatements binding (Function.update named name (some r.schema)) ss
  | .query r :: ss => r.Plannable binding named ∧ PlannableStatements binding named ss

/-- A program that can be planned. -/
def Program.Plannable (program : Program) : Prop :=
  PlannableStatements program.fieldBinding (fun _ => none) program.statements

end Ir

namespace Plan

open Lsql.Exec Flow

variable [HashOrder]

/-! ### Tables that the planner makes -/

/-- A table that the planner can have made so far. -/
structure Table (binding : FieldBinding) (ops : List Operation) : Prop where
  planned : Planned ops
  wellPlanned : WellPlanned binding ops

theorem Table.ready {binding : FieldBinding} {ops : List Operation} (h : Table binding ops) :
    Ready binding ops := ⟨h.planned.sound_supplied.1, h.wellPlanned⟩

/-- An operation that has the columns of a schema. -/
def Offers (ops : List Operation) (i : Nat) (schema : Schema) : Prop :=
  ∃ op, ops[i]? = some op ∧ schema.fields ⊆ op.schema.fields

section Offers

variable {ops ops' : List Operation} {i : Nat} {schema : Schema}

omit [HashOrder] in
theorem Offers.later (h : Offers ops i schema) (hext : Extends ops ops') : Offers ops' i schema := by
  obtain ⟨op, hop, hsub⟩ := h
  obtain ⟨op', hop', hlater⟩ := hext i op hop
  exact ⟨op', hop', hlater.schema ▸ hsub⟩

omit [HashOrder] in
theorem Offers.lt (h : Offers ops i schema) : i < ops.length := by
  obtain ⟨op, hop, -⟩ := h
  exact (List.getElem?_eq_some_iff.mp hop).1

omit [HashOrder] in
theorem Offers.subset (h : Offers ops i schema) : schema.fields ⊆ (schemaAt ops i).fields := by
  obtain ⟨op, hop, hsub⟩ := h
  rwa [schemaAt_eq hop]

end Offers

/-- The operations that names stand for. -/
def Knows (ops : List Operation) (namedOps : String → Option Nat) (named : String → Option Schema) :
    Prop :=
  ∀ name t, named name = some t → ∃ i, namedOps name = some i ∧ Offers ops i t

omit [HashOrder] in
theorem Knows.later {ops ops' : List Operation} {namedOps : String → Option Nat}
    {named : String → Option Schema} (h : Knows ops namedOps named) (hext : Extends ops ops') :
    Knows ops' namedOps named := fun name t ht => by
  obtain ⟨i, hi, hoffers⟩ := h name t ht
  exact ⟨i, hi, hoffers.later hext⟩

/-- What planning a relation makes of a table: an operation with the columns of the relation. -/
structure Makes (binding : FieldBinding) (ops : List Operation) (schema : Schema)
    (made : Nat × List Operation) : Prop where
  table : Table binding made.2
  extends' : Extends ops made.2
  offers : Offers made.2 made.1 schema

/-- A new operation, over operations that are there. -/
theorem Table.addOperation {binding : FieldBinding} {ops₀ ops : List Operation}
    (h : Table binding ops) (hext : Extends ops₀ ops) {node : OperationNode} {schema : Schema}
    (hsources : ∀ j ∈ node.sources, j < ops.length)
    (hnode : node.WellPlanned binding (schemaAt ops) schema) :
    Makes binding ops₀ schema (addOperation ops node schema) := by
  have hmore := extends_append ops (newOperation ops node schema)
  refine ⟨⟨.operation node schema h.planned hsources, fun i op hop => ?_⟩, hext.trans hmore, ?_⟩
  · rcases getElem?_concat_eq_some.mp hop with hop | ⟨-, rfl⟩
    · exact h.wellPlanned.later h.ready.sound hmore hop (Later.refl op)
    · exact hnode.congr fun j hj => schemaAt_later hmore (hsources j hj)
  · exact ⟨_, getElem?_concat_eq_some.mpr (.inr ⟨rfl, rfl⟩), List.Subset.refl _⟩

/-! ### Expressions over a source -/

section Sources

variable {a b : Schema}

theorem Asks.within {s : Ir.Scalar} {e : Scalar} (h : Asks s e) (hreads : s.ReadsIn a)
    (hsub : a.fields ⊆ b.fields) : Within b e.requiredFields := fun f hf =>
  hsub (hreads f (h f hf))

theorem asks_within {list : List Ir.Scalar} {es : List Scalar} (h : List.Forall₂ Asks list es)
    (hreads : ∀ s ∈ list, s.ReadsIn a) (hsub : a.fields ⊆ b.fields) :
    ∀ e ∈ es, Within b e.requiredFields := fun e he => by
  obtain ⟨s, hs, hasks⟩ := forall₂_mem_right h he
  exact hasks.within (hreads s hs) hsub

theorem projectors_within {list : List Ir.Projector} {ps : List ScalarProjector}
    (h : List.Forall₂ (fun p q => Asks p.expr q.expr) list ps)
    (hlist : ∀ p ∈ list, p.expr.Plannable a) (hsub : a.fields ⊆ b.fields) :
    ∀ q ∈ ps, Within b q.expr.requiredFields := fun q hq => by
  obtain ⟨p, hp, hasks⟩ := forall₂_mem_right h hq
  exact hasks.within (hlist p hp).reads hsub

theorem aggregates_within {list : List Ir.Aggregate} {ps : List AggregateProjector}
    (h : List.Forall₂ (fun a q => AsksAggregate a q.expr) list ps)
    (hlist : ∀ x ∈ list, x.Plannable a) (hsub : a.fields ⊆ b.fields) :
    ∀ q ∈ ps, Within b q.expr.requiredFields := fun q hq f hf => by
  obtain ⟨x, hx, hasks⟩ := forall₂_mem_right h hq
  obtain ⟨s, hs, hf⟩ := hasks f hf
  exact hsub ((hlist x hx).args s hs |>.reads f hf)

end Sources

/-! ### Planning a relation -/

section Relations

variable [Platform] {settings : Settings} {namedOps : String → Option Nat} {binding : FieldBinding}
  {named : String → Option Schema}

/-- Planning a relation, whatever has been planned before. -/
def PlansAlways (settings : Settings) (namedOps : String → Option Nat) (binding : FieldBinding)
    (named : String → Option Schema) (r : Ir.Relation) : Prop :=
  ∀ ops, Table binding ops → Knows ops namedOps named →
    Ends BadPattern (Makes binding ops r.schema) (planRelation settings namedOps r ops)

/-- The loop over the sources of a union. -/
theorem planAll_ends {rs : List Ir.Relation}
    (hrs : ∀ r ∈ rs, PlansAlways settings namedOps binding named r) {ops : List Operation}
    (htable : Table binding ops) (hknows : Knows ops namedOps named) :
    Ends BadPattern (fun made => Table binding made.2 ∧ Extends ops made.2 ∧
      List.Forall₂ (fun r i => Offers made.2 i r.schema) rs made.1)
      (planAll settings namedOps rs ops) := by
  induction rs generalizing ops with
  | nil => exact ⟨htable, Extends.refl ops, .nil⟩
  | cons r rs ih =>
      refine (hrs r List.mem_cons_self ops htable hknows).bind ?_
      rintro ⟨source, ops₁⟩ hsource
      refine (ih (fun q hq => hrs q (List.mem_cons_of_mem r hq)) hsource.table
        (hknows.later hsource.extends')).bind ?_
      rintro ⟨sources, ops₂⟩ ⟨htable₂, hext₂, hsources⟩
      exact ⟨htable₂, hsource.extends'.trans hext₂, .cons (hsource.offers.later hext₂) hsources⟩

/-- By induction on the relation, with one case for each overload. -/
theorem planRelation_ends {r : Ir.Relation} (h : r.Plannable binding named) :
    PlansAlways settings namedOps binding named r := by
  induction r using Ir.Relation.induction with
  | h r ih =>
      have hnode := h.here
      have ih := fun q hq => ih q hq (h.source hq)
      intro ops htable hknows
      have hsource := fun q hq => ih q hq ops htable hknows
      -- one more source, behind the first one
      have hsecond : ∀ q ∈ r.sources, ∀ {schema : Schema} {made : Nat × List Operation},
          Makes binding ops schema made → Ends BadPattern (fun made' => Table binding made'.2 ∧
            Extends ops made'.2 ∧ Offers made'.2 made.1 schema ∧ Offers made'.2 made'.1 q.schema)
            (planRelation settings namedOps q made.2) := by
        intro q hq schema made hmade
        refine (ih q hq made.2 hmade.table (hknows.later hmade.extends')).mono ?_
        exact fun made' _ hmade' => ⟨hmade'.table, hmade.extends'.trans hmade'.extends',
          hmade.offers.later hmade'.extends', hmade'.offers⟩
      unfold Ir.Relation.PlannableNode at hnode
      cases r with
      | empty s =>
          exact htable.addOperation (Extends.refl ops) (fun _ hj => absurd hj List.not_mem_nil) trivial
      | values vs id s =>
          exact htable.addOperation (Extends.refl ops) (fun _ hj => absurd hj List.not_mem_nil) trivial
      | file path range timeFormat s =>
          exact htable.addOperation (Extends.refl ops) (fun _ hj => absurd hj List.not_mem_nil) hnode
      | stream command s =>
          exact htable.addOperation (Extends.refl ops) (fun _ hj => absurd hj List.not_mem_nil) hnode
      | namedRelationReference name s =>
          obtain ⟨t, ht, hsub⟩ := hnode
          obtain ⟨i, hi, op, hop, hfields⟩ := hknows name t ht
          have hmade : Makes binding ops s (i, ops) :=
            ⟨htable, Extends.refl ops, op, hop, List.Subset.trans hsub hfields⟩
          rw [planRelation, hi]
          exact hmade
      | projection q ps s =>
          refine (hsource q List.mem_cons_self).bind ?_
          rintro ⟨i, ops₁⟩ hi
          have hps := fun p hp => (hnode p hp).mono hi.offers.subset
          refine (projectorsList_ends hps (some .empty)).bind ?_
          rintro ⟨qs, scope⟩ hqs
          exact hi.table.addOperation hi.extends' (List.forall_mem_singleton.mpr hi.offers.lt)
            (projectors_within hqs hnode hi.offers.subset)
      | aggregate q as s =>
          refine (hsource q List.mem_cons_self).bind ?_
          rintro ⟨i, ops₁⟩ hi
          have has := fun a ha => (hnode a ha).mono hi.offers.subset
          refine (aggregatesList_ends has (some .empty)).bind ?_
          rintro ⟨qs, scope⟩ hqs
          exact hi.table.addOperation hi.extends' (List.forall_mem_singleton.mpr hi.offers.lt)
            (aggregates_within hqs hnode hi.offers.subset)
      | group q as ks s =>
          refine (hsource q List.mem_cons_self).bind ?_
          rintro ⟨i, ops₁⟩ hi
          refine (aggregatesList_ends hnode.1 (some .empty)).bind ?_
          rintro ⟨qs, scope⟩ hqs
          refine (projectorsList_ends hnode.2 none).bind ?_
          rintro ⟨keys, _⟩ hkeys
          exact hi.table.addOperation hi.extends' (List.forall_mem_singleton.mpr hi.offers.lt)
            ⟨aggregates_within hqs hnode.1 hi.offers.subset,
              projectors_within hkeys hnode.2 hi.offers.subset⟩
      | limit q n s =>
          refine (hsource q List.mem_cons_self).bind ?_
          rintro ⟨i, ops₁⟩ hi
          exact hi.table.addOperation hi.extends' (List.forall_mem_singleton.mpr hi.offers.lt)
            (List.Subset.trans hnode hi.offers.subset)
      | materialize q s =>
          refine (hsource q List.mem_cons_self).bind ?_
          rintro ⟨i, ops₁⟩ hi
          exact hi.table.addOperation hi.extends' (List.forall_mem_singleton.mpr hi.offers.lt)
            (List.Subset.trans hnode hi.offers.subset)
      | filter q c s =>
          refine (hsource q List.mem_cons_self).bind ?_
          rintro ⟨i, ops₁⟩ hi
          refine (planScalar_ends (hnode.2.mono hi.offers.subset) (some .empty)).bind ?_
          rintro ⟨condition, scope⟩ hcondition
          exact hi.table.addOperation hi.extends' (List.forall_mem_singleton.mpr hi.offers.lt)
            ⟨List.Subset.trans hnode.1 hi.offers.subset,
              Asks.within hcondition hnode.2.reads hi.offers.subset⟩
      | sort q ks desc s =>
          refine (hsource q List.mem_cons_self).bind ?_
          rintro ⟨i, ops₁⟩ hi
          have hks := fun k hk => (hnode.2 k hk).mono hi.offers.subset
          refine (expressionList_ends hks none).bind ?_
          rintro ⟨sortKey, _⟩ hkey
          exact hi.table.addOperation hi.extends' (List.forall_mem_singleton.mpr hi.offers.lt)
            ⟨List.Subset.trans hnode.1 hi.offers.subset,
              asks_within hkey (fun k hk => (hnode.2 k hk).reads) hi.offers.subset⟩
      | topK q ks desc n s =>
          refine (hsource q List.mem_cons_self).bind ?_
          rintro ⟨i, ops₁⟩ hi
          have hks := fun k hk => (hnode.2 k hk).mono hi.offers.subset
          refine (expressionList_ends hks none).bind ?_
          rintro ⟨sortKey, _⟩ hkey
          exact hi.table.addOperation hi.extends' (List.forall_mem_singleton.mpr hi.offers.lt)
            ⟨List.Subset.trans hnode.1 hi.offers.subset,
              asks_within hkey (fun k hk => (hnode.2 k hk).reads) hi.offers.subset⟩
      | semiJoin q m e f s =>
          obtain ⟨hsub, he, hf⟩ := hnode
          refine (hsource _ List.mem_cons_self).bind ?_
          rintro ⟨i, ops₁⟩ hfirst
          refine (hsecond _ (List.mem_cons_of_mem _ List.mem_cons_self) hfirst).bind ?_
          rintro ⟨j, ops₂⟩ ⟨htable₂, hext, hi, hj⟩
          refine (planScalar_ends (he.mono hi.subset) none).bind ?_
          rintro ⟨scalar, _⟩ hscalar
          exact htable₂.addOperation hext (by simp [OperationNode.sources, hi.lt, hj.lt])
            ⟨hj.subset hf, List.Subset.trans hsub hi.subset, Asks.within hscalar he.reads hi.subset⟩
      | markJoin q m e o f s =>
          obtain ⟨ho, hsub, he, hf⟩ := hnode
          refine (hsource _ List.mem_cons_self).bind ?_
          rintro ⟨i, ops₁⟩ hfirst
          refine (hsecond _ (List.mem_cons_of_mem _ List.mem_cons_self) hfirst).bind ?_
          rintro ⟨j, ops₂⟩ ⟨htable₂, hext, hi, hj⟩
          refine (planScalar_ends (he.mono hi.subset) none).bind ?_
          rintro ⟨scalar, _⟩ hscalar
          exact htable₂.addOperation hext (by simp [OperationNode.sources, hi.lt, hj.lt])
            ⟨hj.subset hf, ho, List.Subset.trans hsub (List.cons_subset_cons o hi.subset),
              Asks.within hscalar he.reads hi.subset⟩
      | leftJoin l q lk rk s =>
          obtain ⟨hlk, hrk⟩ := hnode
          refine (hsource _ List.mem_cons_self).bind ?_
          rintro ⟨i, ops₁⟩ hfirst
          refine (hsecond _ (List.mem_cons_of_mem _ List.mem_cons_self) hfirst).bind ?_
          rintro ⟨j, ops₂⟩ ⟨htable₂, hext, hi, hj⟩
          refine (planScalar_ends (hlk.mono hi.subset) none).bind ?_
          rintro ⟨leftKey, _⟩ hleft
          refine (planScalar_ends (hrk.mono hj.subset) none).bind ?_
          rintro ⟨rightKey, _⟩ hright
          exact htable₂.addOperation hext (by simp [OperationNode.sources, hi.lt, hj.lt])
            ⟨Asks.within hleft hlk.reads hi.subset, Asks.within hright hrk.reads hj.subset⟩
      | unionAll rs s =>
          refine (planAll_ends ih htable hknows).bind ?_
          rintro ⟨sources, ops₁⟩ ⟨htable₁, hext, hsources⟩
          have hoffers : ∀ i ∈ sources, Offers ops₁ i s := fun i hi => by
            obtain ⟨q, hq, op, hop, hfields⟩ := forall₂_mem_right hsources hi
            exact ⟨op, hop, List.Subset.trans (hnode.2 q hq) hfields⟩
          have hne : sources ≠ [] := by
            rintro rfl
            exact hnode.1 (List.forall₂_nil_right_iff.mp hsources)
          exact htable₁.addOperation hext (fun i hi => (hoffers i hi).lt)
            ⟨hne, fun i hi => (hoffers i hi).subset⟩
      | unionAllSortedBy l q ks desc s =>
          obtain ⟨hl, hr, hks, hksr⟩ := hnode
          refine (hsource _ List.mem_cons_self).bind ?_
          rintro ⟨i, ops₁⟩ hfirst
          refine (hsecond _ (List.mem_cons_of_mem _ List.mem_cons_self) hfirst).bind ?_
          rintro ⟨j, ops₂⟩ ⟨htable₂, hext, hi, hj⟩
          have hks' := fun k hk => (hks k hk).mono hi.subset
          refine (expressionList_ends hks' none).bind ?_
          rintro ⟨sortKey, _⟩ hkey
          exact htable₂.addOperation hext (by simp [OperationNode.sources, hi.lt, hj.lt])
            ⟨⟨List.Subset.trans hl hi.subset,
                asks_within hkey (fun k hk => (hks k hk).reads) hi.subset⟩,
              List.Subset.trans hr hj.subset, asks_within hkey hksr hj.subset⟩

end Relations

/-! ### Planning a program -/

section Programs

variable [Platform] {settings : Settings} {binding : FieldBinding} {named : String → Option Schema}

/-- What the planner has between two statements. -/
structure Planner.Sane (binding : FieldBinding) (named : String → Option Schema)
    (planner : Planner) : Prop where
  table : Table binding planner.operations
  knows : Knows planner.operations planner.namedOps named
  tops : ∀ i ∈ planner.topOperations, ∃ op, planner.operations[i]? = some op ∧
    op.minPhase ∈ op.phases

omit [Platform] in
theorem sane_empty : Planner.empty.Sane binding fun _ => none where
  table := ⟨.empty, fun _ _ h => by cases h⟩
  knows _ _ h := by cases h
  tops _ h := absurd h List.not_mem_nil

omit [HashOrder] [Platform] in
/-- The queries before stay requested. -/
theorem tops_later {ops ops' : List Operation} {tops : List Nat}
    (h : ∀ i ∈ tops, ∃ op, ops[i]? = some op ∧ op.minPhase ∈ op.phases) (hext : Extends ops ops') :
    ∀ i ∈ tops, ∃ op, ops'[i]? = some op ∧ op.minPhase ∈ op.phases := by
  intro i hi
  obtain ⟨op, hop, hphase⟩ := h i hi
  obtain ⟨op', hop', hlater⟩ := hext i op hop
  exact ⟨op', hop', hlater.minPhase ▸ hlater.phases hphase⟩

theorem planStatements_end {ss : List Ir.Statement} (h : Ir.PlannableStatements binding named ss)
    {planner : Planner} (hsane : planner.Sane binding named) :
    Ends BadPattern (fun planner' => ∃ named', planner'.Sane binding named')
      (ss.foldlM (planStatement settings) planner) := by
  induction ss generalizing named planner with
  | nil => exact ⟨named, hsane⟩
  | cons s ss ih =>
      rw [List.foldlM_cons]
      cases s with
      | namedRelation name r =>
          obtain ⟨hr, hss⟩ := h
          refine Ends.bind (P := fun planner' => planner'.Sane binding
            (Function.update named name (some r.schema))) ?_ fun planner' hsane' => ih hss hsane'
          refine (planRelation_ends hr planner.operations hsane.table hsane.knows).bind ?_
          rintro ⟨i, ops⟩ hmade
          refine ⟨hmade.table, fun n t ht => ?_, tops_later hsane.tops hmade.extends'⟩
          by_cases hn : n = name
          · subst hn
            rw [Function.update_self] at ht
            obtain rfl := Option.some.inj ht
            exact ⟨i, Function.update_self .., hmade.offers⟩
          · rw [Function.update_of_ne hn] at ht
            obtain ⟨j, hj, hoffers⟩ := hsane.knows n t ht
            refine ⟨j, ?_, hoffers.later hmade.extends'⟩
            show Function.update planner.namedOps name (some i) n = some j
            rw [Function.update_of_ne hn, hj]
      | query r =>
          obtain ⟨hr, hss⟩ := h
          refine Ends.bind (P := fun planner' => planner'.Sane binding named) ?_
            fun planner' hsane' => ih hss hsane'
          refine (planRelation_ends hr planner.operations hsane.table hsane.knows).bind ?_
          rintro ⟨i, ops⟩ hmade
          obtain ⟨op, hop, -⟩ := hmade.offers
          obtain ⟨ops', hops', hready, hext, op', hop', hphase⟩ :=
            requestTop_granted hmade.table.ready hop
          have hext' : Extends planner.operations ops' := hmade.extends'.trans hext
          dsimp only
          rw [hops', ok_bind]
          refine ⟨⟨.query i hmade.table.planned hops', hready.planned⟩, hsane.knows.later hext',
            fun j hj => ?_⟩
          rcases List.mem_append.mp hj with hj | hj
          · exact tops_later hsane.tops hext' j hj
          · rw [List.mem_singleton.mp hj]
            exact ⟨op', hop', hphase⟩

/-- The plan that the planner of a program hands on. -/
structure Planner.HandsOn (planner : Planner) (program : Ir.Program) (plan : Lsql.Plan) : Prop where
  operations : plan.operations = planner.operations
  topOperations : plan.topOperations = planner.topOperations
  fieldBinding : plan.fieldBinding = program.fieldBinding

/-- The operation that a join collects before it answers. -/
def OperationNode.buildSide : OperationNode → Option Nat
  | .hashMarkJoin matched _ _ _ _ | .hashSemiJoin matched _ _ _ => some matched
  | .hashLeftJoin _ right _ _ => some right
  | _ => none

/-- A plan whose operations have what they ask for. Every request is admissible and has been granted,
the results are requested, and a join is required in phases behind that in which it collects. -/
structure Complete (plan : Lsql.Plan) : Prop where
  admissible : ∀ (i : Nat) (op : Operation) (phase : Nat), plan.operations[i]? = some op →
    phase ∈ op.phases → ∀ r ∈ requestsOf plan.operations op phase,
      Admissible plan.operations r ∧ Satisfied plan.operations r
  tops : ∀ i ∈ plan.topOperations, ∃ op, plan.operations[i]? = some op ∧ op.minPhase ∈ op.phases
  joins : ∀ (i : Nat) (op : Operation) (side : Nat), plan.operations[i]? = some op →
    op.node.buildSide = some side → ∀ phase ∈ op.phases, plan.minPhase side < phase
  sound : Sound plan.operations
  wellPlanned : WellPlanned plan.fieldBinding plan.operations

omit [Platform] in
/-- Phases are counted behind the phase of the collecting side. -/
theorem Ready.joins {ops : List Operation} (h : Ready binding ops) {i side phase : Nat}
    {op : Operation} (hop : ops[i]? = some op) (hside : op.node.buildSide = some side)
    (hphase : phase ∈ op.phases) : minPhaseAt ops side < phase := by
  have hle := h.sound.minPhase_le i op hop phase hphase
  have hfirst := h.sound.firstPhase i op hop
  cases hnode : op.node with rw [hnode] at hside hfirst
  | hashMarkJoin | hashSemiJoin | hashLeftJoin =>
      cases hside
      rw [OperationNode.firstPhase] at hfirst
      omega
  | _ => cases hside

omit [Platform] in
theorem Table.complete {plan : Lsql.Plan} (h : Table plan.fieldBinding plan.operations)
    (htops : ∀ i ∈ plan.topOperations, ∃ op, plan.operations[i]? = some op ∧
      op.minPhase ∈ op.phases) : Complete plan where
  admissible i op phase hop hphase r hr := by
    obtain ⟨hsound, hsupplied⟩ := h.planned.sound_supplied
    exact ⟨admissible_requests hsound h.wellPlanned hop (hsound.minPhase_le i op hop phase hphase)
      (hsound.inSchema i op hop phase) r hr, hsupplied i phase op hop hphase r hr⟩
  tops := htops
  joins i op side hop hside phase hphase := h.ready.joins hop hside hphase
  sound := h.ready.sound
  wellPlanned := h.wellPlanned

/-- The planner completes a program, or stops on an invalid pattern. -/
theorem plan_ends {program : Ir.Program} (h : program.Plannable) :
    Ends BadPattern (fun planner => ∃ plan, planner.HandsOn program plan ∧ Complete plan)
      (plan settings program) := by
  refine (planStatements_end h sane_empty).mono fun planner _ hsane => ?_
  obtain ⟨named, htable, -, htops⟩ := hsane
  have hsound := htable.ready.sound
  have hwellFormed : ∀ op ∈ planner.operations, op.WellFormed := by
    intro op hop
    obtain ⟨i, hi⟩ := List.mem_iff_getElem?.mp hop
    refine ⟨fun sources hnode => ?_, hsound.minPhase_le i op hi⟩
    have hplanned := htable.wellPlanned i op hi
    rw [hnode] at hplanned
    exact hplanned.1
  refine ⟨⟨planner.operations, planner.topOperations, program.fieldBinding, hsound.acyclic,
    hwellFormed⟩, ⟨rfl, rfl, rfl⟩, Table.complete htable htops⟩

end Programs

/-! ### What a complete plan has -/

section Complete

variable {plan : Lsql.Plan} {op : Operation}

/-- What an operation reads is what it requests. -/
theorem reads_requested {e : Nat × Nat} (he : e ∈ plan.reads op) (hphases : op.phases ≠ []) :
    ∃ phase ∈ op.phases, ∃ r ∈ requestsOf plan.operations op phase,
      r.emitter = e.1 ∧ r.phase = e.2 := by
  obtain ⟨first, hfirst⟩ := List.exists_mem_of_ne_nil _ hphases
  unfold Plan.reads at he
  unfold requestsOf
  cases hnode : op.node with rw [hnode] at he
  | aggregate | materialize =>
      rw [List.mem_singleton.mp he]
      exact ⟨first, hfirst, _, List.mem_singleton_self _, rfl, rfl⟩
  | projection | filter | group | limit | sort | topK =>
      obtain ⟨phase, hphase, he⟩ := List.mem_flatMap.mp he
      rw [List.mem_singleton.mp he]
      exact ⟨phase, hphase, _, List.mem_singleton_self _, rfl, rfl⟩
  | hashMarkJoin | hashSemiJoin =>
      rcases List.mem_cons.mp he with rfl | he
      · exact ⟨first, hfirst, _, List.mem_cons_self, rfl, rfl⟩
      · obtain ⟨phase, hphase, he⟩ := List.mem_flatMap.mp he
        rw [List.mem_singleton.mp he]
        exact ⟨phase, hphase, _, List.mem_cons_of_mem _ List.mem_cons_self, rfl, rfl⟩
  | hashLeftJoin =>
      rcases List.mem_cons.mp he with rfl | he
      · exact ⟨first, hfirst, _, List.mem_cons_of_mem _ List.mem_cons_self, rfl, rfl⟩
      · obtain ⟨phase, hphase, he⟩ := List.mem_flatMap.mp he
        rw [List.mem_singleton.mp he]
        exact ⟨phase, hphase, _, List.mem_cons_self, rfl, rfl⟩
  | mergeSorted =>
      obtain ⟨phase, hphase, he⟩ := List.mem_flatMap.mp he
      rcases List.mem_cons.mp he with rfl | he
      · exact ⟨phase, hphase, _, List.mem_cons_self, rfl, rfl⟩
      · rw [List.mem_singleton.mp he]
        exact ⟨phase, hphase, _, List.mem_cons_of_mem _ List.mem_cons_self, rfl, rfl⟩
  | unionAll =>
      obtain ⟨phase, hphase, he⟩ := List.mem_flatMap.mp he
      obtain ⟨source, hsource, rfl⟩ := List.mem_map.mp he
      exact ⟨phase, hphase, _, List.mem_map_of_mem hsource, rfl, rfl⟩
  | log | stream | values => cases he

omit [HashOrder] in
/-- Each source of an operation that is required is read. -/
theorem source_read {i : Nat} (hi : i ∈ op.node.sources) (hphases : op.phases ≠ []) :
    ∃ phase, (i, phase) ∈ plan.reads op := by
  obtain ⟨first, hfirst⟩ := List.exists_mem_of_ne_nil _ hphases
  unfold Plan.reads
  cases hnode : op.node with
    (rw [hnode] at hi; simp only [OperationNode.sources, List.mem_cons, List.not_mem_nil, or_false] at hi)
  | aggregate | materialize => exact ⟨_, List.mem_singleton.mpr (by rw [hi])⟩
  | projection | filter | group | limit | sort | topK =>
      exact ⟨first, List.mem_flatMap.mpr ⟨first, hfirst, by simp [hi]⟩⟩
  | hashMarkJoin | hashSemiJoin | hashLeftJoin =>
      rcases hi with rfl | rfl
      · exact ⟨_, List.mem_cons_self⟩
      · exact ⟨first, List.mem_cons_of_mem _ (List.mem_flatMap.mpr ⟨first, hfirst, by simp⟩)⟩
  | mergeSorted =>
      refine ⟨first, List.mem_flatMap.mpr ⟨first, hfirst, ?_⟩⟩
      rcases hi with rfl | rfl <;> simp
  | unionAll =>
      exact ⟨first, List.mem_flatMap.mpr ⟨first, hfirst, List.mem_map_of_mem hi⟩⟩

/-- Every phase in which an operation is read is one in which it is required. -/
theorem Complete.reads (h : Complete plan) {i : Nat} (hop : plan.operations[i]? = some op)
    (hphases : op.phases ≠ []) : ∀ e ∈ plan.reads op, e.1 ∈ op.node.sources ∧
      ∃ source, plan.operations[e.1]? = some source ∧ e.2 ∈ source.phases := by
  intro e he
  obtain ⟨phase, hphase, r, hr, hemitter, hat⟩ := reads_requested he hphases
  obtain ⟨source, hsource, hmem, -⟩ := (h.admissible i op phase hop hphase r hr).2
  exact ⟨hemitter ▸ emitter_mem hr, source, hemitter ▸ hsource, hat ▸ hmem⟩

/-- Every operation that a result is computed from is required. -/
theorem Complete.used (h : Complete plan) {i : Nat} (hused : plan.Used i) :
    ∃ op, plan.operations[i]? = some op ∧ op.phases ≠ [] := by
  induction hused with
  | top hi =>
      obtain ⟨op, hop, hphase⟩ := h.tops _ hi
      exact ⟨op, hop, List.ne_nil_of_mem hphase⟩
  | source _ hop hi ih =>
      obtain ⟨op', hop', hphases⟩ := ih
      obtain rfl := Option.some.inj (hop.symm.trans hop')
      obtain ⟨phase, hread⟩ := source_read hi hphases
      obtain ⟨-, source, hsource, hmem⟩ := h.reads hop hphases _ hread
      exact ⟨source, hsource, List.ne_nil_of_mem hmem⟩

end Complete

end Plan

end Lsql
