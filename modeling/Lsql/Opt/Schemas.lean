import Mathlib.Logic.Relation
import Lsql.Ir.Schemas
import Lsql.Opt.ChangeFlag

/-!
# Lsql.Opt.Schemas

What the passes do to schemas.

A rule replaces a relation in its place in the tree, and what has been computed from the columns of the
relation stays. Every rule puts a relation with the same columns there, but for one: a filter that is
always true gives way to its source, and a mark join below a filter has a column more than the filter
(`ShowsAll`). As long as that does not happen the columns of every statement stay what they are, and
every schema is still the one that would be computed from those of its sources.
-/

namespace Lsql.Opt

open Ir

/-- What is known of all that a pass may leave. -/
def Pass.Leaves {α : Type} (p : Pass α) (P : α → Prop) : Prop :=
  ∀ b a b', p b = .ok (a, b') → P a

namespace Pass.Leaves

variable {α β : Type} {p : Pass α} {f : α → Pass β} {P P' : α → Prop} {Q : β → Prop}

theorem pure {a : α} (h : P a) : Leaves (Pure.pure a) P := by
  intro b a' b' hrun
  obtain ⟨rfl, -⟩ := Pass.pure_ok.mp hrun
  exact h

theorem bind (hp : Leaves p P) (hf : ∀ a, P a → Leaves (f a) Q) : Leaves (p >>= f) Q := by
  intro b y b' hrun
  obtain ⟨a, b₁, ha, hy⟩ := Pass.bind_ok.mp hrun
  exact hf a (hp b a b₁ ha) b₁ y b' hy

theorem mono (hp : Leaves p P) (h : ∀ a, P a → P' a) : Leaves p P' :=
  fun b a b' hrun => h a (hp b a b' hrun)

theorem lift {x : Except Fault α} (h : ∀ a, x = .ok a → P a) : Leaves (liftM x) P :=
  fun _ a _ hrun => h a (Pass.lift_ok.mp hrun).1

theorem changed {g : Unit → Pass β} (h : Leaves (g ()) Q) : Leaves (Pass.setChanges >>= g) Q := by
  intro b y b' hrun
  rw [Pass.setChanges_bind] at hrun
  exact h true y b' hrun

theorem trivial (p : Pass α) : Leaves p fun _ => True := fun _ _ _ _ => True.intro

theorem each {g : α → Pass α} {R : α → α → Prop} {as : List α}
    (h : ∀ a ∈ as, Leaves (g a) (R a)) : Leaves (Pass.each g as) (List.Forall₂ R as) := by
  induction as with
  | nil => exact .pure .nil
  | cons a as ih =>
      refine (h a List.mem_cons_self).bind fun a' ha => ?_
      refine (ih fun c hc => h c (List.mem_cons_of_mem _ hc)).bind fun as' has => ?_
      exact .pure (.cons ha has)

theorem result (hp : Leaves p P) {a : α} (h : p.result = .ok a) : P a := by
  obtain ⟨b, hrun⟩ := Pass.result_ok.mp h
  exact hp false a b hrun

end Pass.Leaves

open Pass (Leaves)

/-! ### Traversals -/

/-- What a rule leaves fits in the place of what it was given. -/
def Fitting (named : String → Option Schema) (r r' : Relation) : Prop :=
  r'.Fits named ∧ Relation.Replaces r r'

/-- A rule that leaves what fits, on relations with a property. -/
def KeepsSchemas (rule : Relation → Pass Relation) (C : Relation → Prop) : Prop :=
  ∀ named r, r.Fits named → C r → Leaves (rule r) (Fitting named r)

section Traversals

variable {rule : Relation → Pass Relation} {C : Relation → Prop} {named : String → Option Schema}

theorem Fitting.refl {r : Relation} (h : r.Fits named) : Fitting named r r := ⟨h, .refl r⟩

/-- One traversal. What the rule asks of a node depends on the columns of its sources only. -/
theorem visit_fitting
    (hC : ∀ r qs, C r → List.Forall₂ Relation.Replaces r.sources qs → C (r.withSources qs))
    (hrule : KeepsSchemas rule C) {r : Relation} (hr : r.Fits named) (h : r.Everywhere C) :
    Leaves (visit rule r) (Fitting named r) := by
  induction r using Relation.induction with
  | h r ih =>
      rw [visit_eq, visitAll_eq]
      have hsources := Leaves.each fun q hq => ih q hq (hr.source hq) (h.source hq)
      refine hsources.bind fun qs hqs => ?_
      have hwith := hr.withSources hqs
      have hrun := hrule named _ hwith (hC r qs h.here (hqs.imp fun _ _ hq => hq.2))
      exact hrun.mono fun r' hr' => ⟨hr'.1, (Relation.Replaces.withSources r qs).trans hr'.2⟩

/-- A property of the relations of all statements. -/
def Throughout (C : Relation → Prop) (statements : List Statement) : Prop :=
  ∀ s ∈ statements, (relationOf s).Everywhere C

theorem visitStatements_fitting
    (hC : ∀ r qs, C r → List.Forall₂ Relation.Replaces r.sources qs → C (r.withSources qs))
    (hrule : KeepsSchemas rule C) {ss : List Statement} (hss : FittingStatements named ss)
    (h : Throughout C ss) :
    Leaves (visitStatements rule ss) fun ss' =>
      FittingStatements named ss' ∧ ss'.map Statement.schema = ss.map Statement.schema := by
  induction ss generalizing named with
  | nil => exact .pure ⟨trivial, rfl⟩
  | cons s ss ih =>
      have hs := h s List.mem_cons_self
      have hrest := fun t ht => h t (List.mem_cons_of_mem _ ht)
      rw [visitStatements]
      cases s with
      | namedRelation name r =>
          have hvisit : Leaves (visitStatement rule (.namedRelation name r)) fun s' =>
              ∃ r', s' = .namedRelation name r' ∧ Fitting named r r' :=
            (visit_fitting hC hrule hss.1 hs).bind fun r' hr' => .pure ⟨r', rfl, hr'⟩
          refine hvisit.bind fun s' hs' => ?_
          obtain ⟨r', rfl, hr'⟩ := hs'
          refine (ih hss.2 hrest).bind fun ss' hss' => .pure ⟨⟨hr'.1, ?_⟩, ?_⟩
          · rw [hr'.2.schema]
            exact hss'.1
          · rw [List.map_cons, List.map_cons, hss'.2]
            exact congrArg (· :: _) hr'.2.schema
      | query r =>
          have hvisit : Leaves (visitStatement rule (.query r)) fun s' =>
              ∃ r', s' = .query r' ∧ Fitting named r r' :=
            (visit_fitting hC hrule hss.1 hs).bind fun r' hr' => .pure ⟨r', rfl, hr'⟩
          refine hvisit.bind fun s' hs' => ?_
          obtain ⟨r', rfl, hr'⟩ := hs'
          refine (ih hss.2 hrest).bind fun ss' hss' => .pure ⟨⟨hr'.1, hss'.1⟩, ?_⟩
          rw [List.map_cons, List.map_cons, hss'.2]
          exact congrArg (· :: _) hr'.2.schema

/-- A program that fits, with the columns of another one. -/
def SameSchemas (program program' : Program) : Prop :=
  program'.Fits ∧ program'.schemas = program.schemas

theorem visitProgram_sameSchemas
    (hC : ∀ r qs, C r → List.Forall₂ Relation.Replaces r.sources qs → C (r.withSources qs))
    (hrule : KeepsSchemas rule C) {program : Program} (hfits : program.Fits)
    (h : Throughout C program.statements) :
    Leaves (visitProgram rule program) (SameSchemas program) :=
  (visitStatements_fitting hC hrule hfits h).bind fun _ hss => .pure hss

/-- A rule that asks for nothing. -/
theorem visitProgram_keeps (hrule : KeepsSchemas rule fun _ => True) {program : Program}
    (hfits : program.Fits) : Leaves (visitProgram rule program) (SameSchemas program) :=
  visitProgram_sameSchemas (fun _ _ _ _ => trivial) hrule hfits
    fun _ _ => Relation.Everywhere.of_forall (fun _ => trivial) _

end Traversals

/-! ### Rules that stay inside a node -/

section Members

variable {named : String → Option Schema} {onScalar : Scalar → Pass Scalar}
  {onAggregate : Aggregate → Pass Aggregate}

theorem map_eq_of_forall₂ {α β : Type} {f : α → β} {as as' : List α}
    (h : List.Forall₂ (fun a a' => f a' = f a) as as') : as'.map f = as.map f := by
  induction h with
  | nil => rfl
  | cons ha _ ih => rw [List.map_cons, List.map_cons, ha, ih]

theorem visitExpr_aliases (ps : List Projector) :
    Leaves (Pass.each (visitExpr onScalar) ps) fun ps' =>
      ps'.map Projector.aliasFieldId = ps.map Projector.aliasFieldId := by
  have hone : ∀ p ∈ ps, Leaves (visitExpr onScalar p) fun p' => p'.aliasFieldId = p.aliasFieldId :=
    fun p _ => (Leaves.trivial _).bind fun _ _ => .pure rfl
  exact (Leaves.each hone).mono fun _ => map_eq_of_forall₂

theorem onAggregate_fields
    (h : ∀ a, Leaves (onAggregate a) fun a' => a'.outputFieldId = a.outputFieldId)
    (as : List Aggregate) :
    Leaves (Pass.each onAggregate as) fun as' =>
      as'.map Aggregate.outputFieldId = as.map Aggregate.outputFieldId :=
  (Leaves.each fun a _ => h a).mono fun _ => map_eq_of_forall₂

variable {r q q' : Relation}

/-- A node with the same sources and the same columns. -/
theorem fitting_one {r' : Relation} (hr : r.Fits named) (hsources : r.sources = [q])
    (hsources' : r'.sources = [q]) (h : r'.FitsNode named) (hreplaces : Relation.Replaces r r') :
    Fitting named r r' := by
  refine ⟨Relation.fits_one h hsources' (hr.source ?_), hreplaces⟩
  rw [hsources]
  exact List.mem_cons_self

theorem fitting_two {r' : Relation} (hr : r.Fits named) (hsources : r.sources = [q, q'])
    (hsources' : r'.sources = [q, q']) (h : r'.FitsNode named)
    (hreplaces : Relation.Replaces r r') : Fitting named r r' := by
  refine ⟨Relation.fits_two h hsources' (hr.source ?_) (hr.source ?_), hreplaces⟩
  · rw [hsources]
    exact List.mem_cons_self
  · rw [hsources]
    exact List.mem_cons_of_mem _ List.mem_cons_self

/-- Rewriting scalars and aggregates changes no column. -/
theorem visitMembers_keeps
    (h : ∀ a, Leaves (onAggregate a) fun a' => a'.outputFieldId = a.outputFieldId) :
    KeepsSchemas (visitMembers onScalar onAggregate) fun _ => True := by
  intro named r hr _
  have hnode := hr.here
  cases r with
  | projection r ps s =>
      refine (visitExpr_aliases ps).bind fun ps' hps => .pure ?_
      exact fitting_one hr rfl rfl (Eq.trans hnode hps.symm) ⟨rfl, fun h => h⟩
  | aggregate r as s =>
      refine (onAggregate_fields h as).bind fun as' has => .pure ?_
      exact fitting_one hr rfl rfl (Eq.trans hnode has.symm) ⟨rfl, fun h => h⟩
  | group r as ks s =>
      refine (onAggregate_fields h as).bind fun as' has => ?_
      refine (visitExpr_aliases ks).bind fun ks' hks => .pure ?_
      refine fitting_one hr rfl rfl (Eq.trans hnode ?_) ⟨rfl, fun h => h⟩
      rw [has, hks]
  | filter r c s | sort r ks desc s | topK r ks desc n s =>
      exact (Leaves.trivial _).bind fun _ _ => .pure
        (fitting_one hr rfl rfl hnode ⟨rfl, fun h => h⟩)
  | semiJoin r m e f s | markJoin r m e o f s | unionAllSortedBy l r ks desc s =>
      exact (Leaves.trivial _).bind fun _ _ => .pure
        (fitting_two hr rfl rfl hnode ⟨rfl, fun h => h⟩)
  | leftJoin l r lk rk s =>
      exact (Leaves.trivial _).bind fun _ _ => (Leaves.trivial _).bind fun _ _ => .pure
        (fitting_two hr rfl rfl hnode ⟨rfl, fun h => h⟩)
  | _ => exact .pure (.refl hr)

theorem visitAggregateArgs_field (a : Aggregate) :
    Leaves (visitAggregateArgs onScalar a) fun a' => a'.outputFieldId = a.outputFieldId := by
  obtain ⟨node, id, t⟩ := a
  cases node with
  | const v nullIfEmpty => exact .pure rfl
  | fnCall f args => exact (Leaves.trivial _).bind fun _ _ => .pure rfl

end Members

section Passes

variable {named : String → Option Schema}

theorem constScalarFold_sameSchemas [Platform] {program : Program} (h : program.Fits) :
    Leaves (constScalarFold program) (SameSchemas program) := by
  have hrule : ConstScalarFold.visitNode =
      visitMembers ConstScalarFold.visit (visitAggregateArgs ConstScalarFold.visit) :=
    funext constFold_visitNode_eq
  rw [constScalarFold, hrule]
  exact visitProgram_keeps (visitMembers_keeps visitAggregateArgs_field) h

theorem scalarSimplify_sameSchemas {program : Program} (h : program.Fits) :
    Leaves (scalarSimplify program) (SameSchemas program) :=
  visitProgram_keeps (visitMembers_keeps visitAggregateArgs_field) h

theorem constAggregate_field (a : Aggregate) :
    Leaves (ConstAggregateFold.optimize a) fun a' => a'.outputFieldId = a.outputFieldId := by
  unfold ConstAggregateFold.optimize
  split
  · exact .pure rfl
  split
  · exact .pure rfl
  split
  · exact .pure rfl
  split
  · refine (Leaves.trivial _).bind fun value _ => .changed ?_
    split
    · exact .pure rfl
    · exact .pure rfl
  · exact .changed ((Leaves.trivial _).bind fun _ _ => .pure rfl)
  · exact .changed ((Leaves.trivial _).bind fun _ _ => .pure rfl)
  · exact .pure rfl

theorem constAggregateFold_sameSchemas {program : Program} (h : program.Fits) :
    Leaves (constAggregateFold program) (SameSchemas program) :=
  visitProgram_keeps (visitMembers_keeps constAggregate_field) h

/-! ### Aggregates that are computed once -/

section Deduplicate

open AggregateDeduplicate

variable [DescriptionHash] {q : Relation}

omit [DescriptionHash] in
theorem restoredAll_aliases {as rs : List Aggregate} (h : rs.length = as.length) :
    (restoredAll as rs).map Projector.aliasFieldId = as.map Aggregate.outputFieldId := by
  induction as generalizing rs with
  | nil => simp [restoredAll]
  | cons a as ih =>
      cases rs with
      | nil => cases h
      | cons r rs => exact congrArg (a.outputFieldId :: ·) (ih (Nat.succ.inj h))

/-- An aggregation is put back together by a projection with its columns. -/
theorem deduplicate_fitting {as : List Aggregate} {ks : List Projector}
    {node : List Aggregate → Schema → Relation} {s : Schema}
    (hsources : ∀ as s, (node as s).sources = [q]) (hschema : ∀ as s, (node as s).schema = s)
    (hmark : ∀ as s, ¬ (node as s).IsMark)
    (hnode : ∀ as s, (node as s).FitsNode named ↔
      s.fields = as.map Aggregate.outputFieldId ++ ks.map Projector.aliasFieldId)
    (hr : (node as s).Fits named) :
    Leaves (deduplicate as ks node s) (Fitting named (node as s)) := by
  have hq : q.Fits named := by
    refine hr.source ?_
    rw [hsources]
    exact List.mem_cons_self
  have hfields := (hnode as s).mp hr.here
  obtain ⟨kept, rs, hmerged, hl⟩ := visitAggregates_merged as [] []
  have hlocals : visitAggregates ⟨[], [], []⟩ as = ⟨entriesOf kept, kept, restoredAll as rs⟩ := hl
  unfold deduplicate
  split
  · exact .pure (.refl hr)
  rw [hlocals]
  dsimp only
  split
  next hall =>
    -- nothing has been merged
    obtain ⟨new, hkept, hsub⟩ := hmerged.new
    rw [List.nil_append] at hkept
    have hle := hsub.length_le
    rw [← hkept] at hle
    have hsame := (hmerged.eq_of_all_kept (by rw [List.length_nil]; omega)).2
    rw [List.nil_append] at hsame
    rw [hsame]
    exact .pure (.refl hr)
  · refine Leaves.bind (.lift fun _ h => schemaFor_fields h) fun own hown => ?_
    refine Leaves.bind (.lift fun _ h => schemaFor_fields h) fun keys hkeys => ?_
    refine Leaves.bind (.lift fun _ h => Schema.appendAll_eq_ok.mp h) fun inner hinner => ?_
    refine .changed (.pure ⟨Relation.fits_one ?_ rfl (Relation.fits_one ?_ (hsources _ _) hq), ?_⟩)
    · show s.fields = List.map Projector.aliasFieldId (restoredAll as rs ++ ks.map _)
      rw [List.map_append, restoredAll_aliases hmerged.length_eq, List.map_map, hfields]
      rfl
    · exact (hnode kept inner).mpr (by rw [hinner, hown, hkeys])
    · exact ⟨(hschema as s).symm, fun h => absurd h (hmark as s)⟩

theorem deduplicate_keeps : KeepsSchemas AggregateDeduplicate.rule fun _ => True := by
  intro named r hr _
  cases r with
  | aggregate r as s =>
      refine @deduplicate_fitting _ _ r as [] (fun kept t => .aggregate r kept t) s (fun _ _ => rfl)
        (fun _ _ => rfl) (fun _ _ h => h) (fun as s => ?_) hr
      rw [List.map_nil, List.append_nil]
      exact Iff.rfl
  | group r as ks s =>
      exact @deduplicate_fitting _ _ r as ks (fun kept t => .group r kept ks t) s (fun _ _ => rfl)
        (fun _ _ => rfl) (fun _ _ h => h) (fun _ _ => Iff.rfl) hr
  | _ => exact .pure (.refl hr)

end Deduplicate

/-! ### Relations that do nothing -/

section Simplify

open RelationSimplify

/-- A filter that is always true has the columns of its source. -/
def ShowsAll : Relation → Prop
  | .filter r (.value v _) s => v.equal (.boolean true) = true → s = r.schema
  | _ => True

theorem showsAll_withSources (r : Relation) (qs : List Relation) (h : ShowsAll r)
    (hqs : List.Forall₂ Relation.Replaces r.sources qs) : ShowsAll (r.withSources qs) := by
  cases r with
  | filter r c s =>
      obtain ⟨q, rfl, hq⟩ := forall₂_one hqs
      cases c with
      | value v t => exact fun hv => (h hv).trans hq.schema.symm
      | _ => trivial
  | _ =>
      unfold Relation.withSources
      split <;> trivial

theorem flattenSources_leaves (rs : List Relation) :
    Leaves (flattenSources rs) fun rs' => rs' = rs.flatMap nestedSources := by
  intro b rs' b' hrun
  obtain ⟨b₁, heq⟩ := flattenSources_eq rs b
  cases heq.symm.trans hrun
  rfl

theorem relationSimplify_keeps : KeepsSchemas RelationSimplify.rule ShowsAll := by
  intro named r hr hshows
  cases r with
  | projection r ps s =>
      rw [RelationSimplify.rule, optimizeProjection]
      split
      next hforward =>
        unfold isForwardingProjection at hforward
        split at hforward
        · cases hforward
        next hschema =>
          have hsame : s = r.schema := not_not.mp hschema
          exact .changed (.pure ⟨hr.source List.mem_cons_self, hsame.symm, fun h => h.elim⟩)
      · exact .pure (.refl hr)
  | filter r c s =>
      cases c with
      | value v t =>
          refine (Leaves.trivial _).bind fun _ _ => .changed ?_
          split
          next hv =>
            exact .pure ⟨hr.source List.mem_cons_self, (hshows hv).symm, fun h => h.elim⟩
          · exact .pure ⟨Relation.fits_leaf trivial rfl, rfl, fun h => h.elim⟩
      | _ => exact .pure (.refl hr)
  | unionAll rs s =>
      rw [RelationSimplify.rule]
      refine (flattenSources_leaves rs).bind fun rs' hrs => .pure ?_
      have hnested : ∀ q ∈ rs', q.Fits named ∧ q.schema = s := by
        intro q hq
        rw [hrs] at hq
        obtain ⟨r, hmem, hq⟩ := List.mem_flatMap.mp hq
        have hsource := hr.source hmem
        cases r with
        | unionAll nested t =>
            exact ⟨hsource.source hq, (hsource.here q hq).trans (hr.here _ hmem)⟩
        | _ =>
            rw [List.mem_singleton.mp hq]
            exact ⟨hsource, hr.here _ hmem⟩
      exact ⟨.node (fun q hq => (hnested q hq).2) fun q hq => (hnested q hq).1, rfl,
        fun h => h.elim⟩
  | _ => exact .pure (.refl hr)

end Simplify

/-! ### Filters -/

section Pushdown

open FilterPushdown

/-- A filter over a relation that is no mark join has its columns. -/
theorem filter_schema {r : Relation} {c : Scalar} {s : Schema}
    (hr : (Relation.filter r c s).Fits named) (hmark : ¬ r.IsMark) : s = r.schema :=
  hr.here.2.resolve_right hmark

/-- A filter with the columns of its source. -/
theorem fits_addFilter {r : Relation} (c : Scalar) (hr : r.Fits named) :
    (Relation.filter r c r.schema).Fits named :=
  Relation.fits_one ⟨List.prefix_refl _, .inl rfl⟩ rfl hr

theorem keepFilter_fitting {remaining : Option Scalar} {r : Relation} {s : Schema}
    (hr : r.Fits named) (hs : s = r.schema) :
    (keepFilter remaining r s).Fits named ∧ (keepFilter remaining r s).schema = s := by
  subst hs
  cases remaining with
  | none => exact ⟨hr, rfl⟩
  | some c => exact ⟨fits_addFilter c hr, rfl⟩

/-- Whatever becomes of a filter has its columns. The induction is over the source of the filter, as it
goes further down. -/
theorem pushdown_fitting {c : Scalar} {s : Schema} {r : Relation}
    (hr : (Relation.filter r c s).Fits named) :
    Leaves (FilterPushdown.pushdown c s r) fun r' => r'.Fits named ∧ r'.schema = s := by
  induction r using Relation.induction generalizing c s with
  | h r ih =>
      have hsource := hr.source List.mem_cons_self
      cases r with
      | unionAll sources t =>
          have hs := filter_schema hr fun h => h
          have hall : ∀ {rs : List Relation}, (∀ r ∈ rs, r ∈ sources) →
              Leaves (addFilterAll c rs) fun rs' => ∀ q ∈ rs', q.Fits named ∧ q.schema = t := by
            intro rs
            induction rs with
            | nil => exact fun _ => .pure fun q hq => absurd hq List.not_mem_nil
            | cons r rs ihrs =>
                intro hmem
                have hr' := hmem r List.mem_cons_self
                have hrest := ihrs fun q hq => hmem q (List.mem_cons_of_mem _ hq)
                refine (ih r hr' (fits_addFilter c (hsource.source hr'))).bind fun q hq => ?_
                refine hrest.bind fun qs hqs => .pure (List.forall_mem_cons.mpr ⟨?_, hqs⟩)
                exact ⟨hq.1, hq.2.trans (hsource.here r hr')⟩
          rw [FilterPushdown.pushdown]
          refine (hall fun _ h => h).bind fun rs hrs => .changed (.pure ⟨?_, hs.symm⟩)
          exact .node (fun q hq => (hrs q hq).2) fun q hq => (hrs q hq).1
      | unionAllSortedBy left right ks desc t =>
          have hs := filter_schema hr fun h => h
          have hleft := hsource.source List.mem_cons_self
          have hright := hsource.source (List.mem_cons_of_mem _ List.mem_cons_self)
          rw [FilterPushdown.pushdown]
          refine (ih left List.mem_cons_self (fits_addFilter c hleft)).bind fun l hl => ?_
          refine (ih right (List.mem_cons_of_mem _ List.mem_cons_self)
            (fits_addFilter c hright)).bind fun r hr => .changed (.pure ⟨?_, hs.symm⟩)
          exact Relation.fits_two ⟨hl.2.trans hsource.here.1, hr.2.trans hsource.here.2⟩ rfl hl.1 hr.1
      | projection source ps t =>
          have hs := filter_schema hr fun h => h
          rw [FilterPushdown.pushdown]
          refine (Leaves.trivial _).bind fun fields _ => (Leaves.trivial _).bind fun split _ => ?_
          split
          · exact .pure ⟨hr, rfl⟩
          · refine (Leaves.trivial _).bind fun pushable _ => ?_
            have hbelow := hsource.source List.mem_cons_self
            refine (ih source List.mem_cons_self (fits_addFilter pushable hbelow)).bind
              fun q hq => .changed (.pure ?_)
            exact keepFilter_fitting (Relation.fits_one hsource.here rfl hq.1) hs
      | leftJoin left right lk rk t =>
          have hs := filter_schema hr fun h => h
          rw [FilterPushdown.pushdown]
          refine (Leaves.trivial _).bind fun split _ => ?_
          split
          · exact .pure ⟨hr, rfl⟩
          next pushable _ =>
            have hleft := hsource.source List.mem_cons_self
            have hright := hsource.source (List.mem_cons_of_mem _ List.mem_cons_self)
            refine (ih left List.mem_cons_self (fits_addFilter pushable hleft)).bind
              fun q hq => .changed (.pure ?_)
            refine keepFilter_fitting (Relation.fits_two ?_ rfl hq.1 hright) hs
            show t.fields = q.schema.fields ++ right.schema.fields
            rw [hq.2]
            exact hsource.here
      | sort source ks desc t =>
          have hs := filter_schema hr fun h => h
          rw [FilterPushdown.pushdown]
          have hbelow := hsource.source List.mem_cons_self
          refine (ih source List.mem_cons_self (fits_addFilter c hbelow)).bind
            fun q hq => .changed (.pure ⟨?_, hs.symm⟩)
          exact Relation.fits_one (Eq.trans hsource.here hq.2.symm) rfl hq.1
      | _ => exact .pure ⟨hr, rfl⟩

theorem filterPushdown_keeps : KeepsSchemas FilterPushdown.rule fun _ => True := by
  intro named r hr _
  cases r with
  | filter r c s =>
      exact (pushdown_fitting hr).mono fun r' hr' => ⟨hr'.1, hr'.2, fun h => h.elim⟩
  | _ => exact .pure (.refl hr)

end Pushdown

/-! ### Limits -/

section Limits

open LimitPushdown

theorem ensureLimited_fitting (n : Int) {r : Relation} (hr : r.Fits named) :
    Leaves (ensureLimited n r) fun r' => r'.Fits named ∧ r'.schema = r.schema := by
  unfold ensureLimited
  split
  · split
    · exact .changed (.pure ⟨Relation.fits_one hr.here rfl (hr.source List.mem_cons_self), rfl⟩)
    · exact .pure ⟨hr, rfl⟩
  · split
    · exact .changed (.pure ⟨Relation.fits_one hr.here rfl (hr.source List.mem_cons_self), rfl⟩)
    · exact .pure ⟨hr, rfl⟩
  · exact .changed (.pure ⟨Relation.fits_one rfl rfl hr, rfl⟩)

theorem ensureAllLimited_fitting (n : Int) {rs : List Relation} {s : Schema}
    (hrs : ∀ r ∈ rs, r.Fits named ∧ r.schema = s) :
    Leaves (ensureAllLimited n rs) fun rs' => ∀ r ∈ rs', r.Fits named ∧ r.schema = s := by
  induction rs with
  | nil => exact .pure fun r hr => absurd hr List.not_mem_nil
  | cons r rs ih =>
      obtain ⟨hr, hrest⟩ := List.forall_mem_cons.mp hrs
      refine (ensureLimited_fitting n hr.1).bind fun q hq => (ih hrest).bind fun qs hqs => ?_
      exact .pure (List.forall_mem_cons.mpr ⟨⟨hq.1, hq.2.trans hr.2⟩, hqs⟩)

theorem limitPushdown_keeps : KeepsSchemas LimitPushdown.rule fun _ => True := by
  intro named r hr _
  cases r with
  | limit r n s =>
      have hs : s = r.schema := hr.here
      have hsource := hr.source List.mem_cons_self
      rw [LimitPushdown.rule]
      cases r with
      | projection source ps t =>
          have hbelow := hsource.source List.mem_cons_self
          refine .changed (.pure ⟨Relation.fits_one ?_ rfl (Relation.fits_one rfl rfl hbelow), rfl,
            fun h => h.elim⟩)
          rw [hs]
          exact hsource.here
      | sort source ks desc t | limit source m t | topK source ks desc m t =>
          have hbelow := hsource.source List.mem_cons_self
          exact .changed (.pure ⟨Relation.fits_one (hs.trans hsource.here) rfl hbelow, rfl,
            fun h => h.elim⟩)
      | unionAll sources t =>
          have hall := fun q hq => And.intro (hsource.source hq) (hsource.here q hq)
          refine (ensureAllLimited_fitting n hall).bind fun rs hrs => .pure ⟨?_, rfl, fun h => h.elim⟩
          refine Relation.fits_one hs rfl ?_
          exact .node (fun q hq => (hrs q hq).2) fun q hq => (hrs q hq).1
      | unionAllSortedBy left right ks desc t =>
          have hleft := hsource.source List.mem_cons_self
          have hright := hsource.source (List.mem_cons_of_mem _ List.mem_cons_self)
          refine (ensureLimited_fitting n hleft).bind fun l hl => ?_
          refine (ensureLimited_fitting n hright).bind fun r hr => .pure ⟨?_, rfl, fun h => h.elim⟩
          refine Relation.fits_one hs rfl (Relation.fits_two ?_ rfl hl.1 hr.1)
          exact ⟨hl.2.trans hsource.here.1, hr.2.trans hsource.here.2⟩
      | _ => exact .pure (.refl hr)
  | _ => exact .pure (.refl hr)

end Limits

/-! ### Caches -/

section Caches

open ScalarCache

variable [DescriptionHash] [Platform]

theorem scalarCache_keeps (settings : OptimizerSettings) :
    KeepsSchemas (ScalarCache.rule settings) fun _ => True := by
  intro named r hr _
  have haggregates : ∀ as, Leaves (updateCache settings aggregates as) fun as' =>
      as'.map Aggregate.outputFieldId = as.map Aggregate.outputFieldId := by
    intro as b as' b' hrun
    refine map_eq_of_forall₂ ((updateCache_kept aggregates_kept hrun).imp fun a a' ha => ?_)
    cases ha <;> rfl
  cases r with
  | projection r ps s =>
      have haliases : Leaves (updateCache settings projectors ps) fun ps' =>
          ps'.map Projector.aliasFieldId = ps.map Projector.aliasFieldId :=
        fun b ps' b' hrun => map_eq_of_forall₂
          ((updateCache_kept projectors_kept hrun).imp fun _ _ hp => hp.field)
      refine haliases.bind fun ps' hps => .pure ?_
      exact fitting_one hr rfl rfl (Eq.trans hr.here hps.symm) ⟨rfl, fun h => h⟩
  | filter r c s =>
      exact (Leaves.trivial _).bind fun _ _ => .pure
        (fitting_one hr rfl rfl hr.here ⟨rfl, fun h => h⟩)
  | aggregate r as s =>
      refine (haggregates as).bind fun as' has => .pure ?_
      exact fitting_one hr rfl rfl (Eq.trans hr.here has.symm) ⟨rfl, fun h => h⟩
  | group r as ks s =>
      refine (haggregates as).bind fun as' has => .pure ?_
      refine fitting_one hr rfl rfl (Eq.trans hr.here ?_) ⟨rfl, fun h => h⟩
      rw [has]
  | _ => exact .pure (.refl hr)

end Caches

/-! ### Projections in one -/

section Collapse

open ProjectionCollapse

theorem collapseAll_aliases {inner : List (FieldId × Address × Scalar)} {i : Nat}
    {ps ps' : List Projector} {state : Memo Scalar × (Memo Scalar × Unit)}
    (h : collapseAll inner i ps state = .ok ps') :
    ps'.map Projector.aliasFieldId = ps.map Projector.aliasFieldId := by
  induction ps generalizing i state ps' with
  | nil =>
      cases h
      rfl
  | cons p ps ih =>
      obtain ⟨collapsed, -, h⟩ := bind_eq_ok.mp h
      obtain ⟨rest, hrest, hpure⟩ := bind_eq_ok.mp h
      cases hpure
      rw [List.map_cons, List.map_cons, ih hrest]

theorem projectionCollapse_keeps (settings : OptimizerSettings) :
    KeepsSchemas (ProjectionCollapse.rule settings) fun _ => True := by
  intro named r hr _
  unfold ProjectionCollapse.rule
  split
  next source inner t outer s =>
    refine (Leaves.trivial _).bind fun innerCost _ => (Leaves.trivial _).bind fun outerCost _ => ?_
    refine Leaves.bind (.lift fun _ h => collapseAll_aliases h) fun collapsed hcollapsed => ?_
    refine (Leaves.trivial _).bind fun collapsedCost _ => ?_
    split
    · exact .pure (.refl hr)
    · have hbelow := (hr.source List.mem_cons_self).source List.mem_cons_self
      refine .changed (.pure ⟨Relation.fits_one ?_ rfl hbelow, rfl, fun h => h.elim⟩)
      exact Eq.trans hr.here hcollapsed.symm
  · exact .pure (.refl hr)

end Collapse

/-! ### Empty relations -/

section Prune

open EmptyRelationPrune

theorem makeEmpty_fitting (r : Relation) : Leaves (makeEmpty r) (Fitting named r) :=
  .changed (.pure ⟨Relation.fits_leaf trivial rfl, rfl, fun _ => trivial⟩)

theorem emptyIf_fitting {c : Prop} [Decidable c] {r : Relation} (hr : r.Fits named) :
    Leaves (if c then makeEmpty r else pure r) (Fitting named r) := by
  split
  · exact makeEmpty_fitting r
  · exact .pure (.refl hr)

theorem prune_keeps : KeepsSchemas EmptyRelationPrune.rule fun _ => True := by
  intro named r hr _
  cases r with
  | projection r ps s | group r as ks s | filter r c s | sort r ks desc s | materialize r s =>
      rw [EmptyRelationPrune.rule, pruneSimple]
      split
      · exact .pure (.refl hr)
      · exact makeEmpty_fitting _
  | unionAll rs s =>
      have hkept : ∀ q ∈ rs.filter fun r => !isEmpty r, q.Fits named ∧ q.schema = s := by
        intro q hq
        have hmem := List.mem_of_mem_filter hq
        exact ⟨hr.source hmem, hr.here q hmem⟩
      rw [EmptyRelationPrune.rule, pruneUnionAll]
      split
      · exact makeEmpty_fitting _
      next source hone =>
        rw [hone] at hkept
        obtain ⟨hfits, hschema⟩ := hkept source List.mem_cons_self
        exact .changed (.pure ⟨hfits, hschema, fun h => h.elim⟩)
      · have hunion : Fitting named (.unionAll rs s)
            (.unionAll (rs.filter fun r => !isEmpty r) s) :=
          ⟨.node (fun q hq => (hkept q hq).2) fun q hq => (hkept q hq).1, rfl, fun h => h.elim⟩
        split
        · exact .changed (.pure hunion)
        · exact .pure hunion
  | unionAllSortedBy left right ks desc s =>
      have hleft := hr.source List.mem_cons_self
      have hright := hr.source (List.mem_cons_of_mem _ List.mem_cons_self)
      rw [EmptyRelationPrune.rule, pruneUnionAllSortedBy]
      split
      · exact makeEmpty_fitting _
      split
      · exact .changed (.pure ⟨hright, hr.here.2, fun h => h.elim⟩)
      split
      · exact .changed (.pure ⟨hleft, hr.here.1, fun h => h.elim⟩)
      · exact .pure (.refl hr)
  | topK | limit | semiJoin | leftJoin | markJoin => exact emptyIf_fitting hr
  | _ => exact .pure (.refl hr)

end Prune

/-! ### Runs -/

theorem SameSchemas.refl {program : Program} (h : program.Fits) : SameSchemas program program :=
  ⟨h, rfl⟩

theorem SameSchemas.trans {program program' program'' : Program} (h : SameSchemas program program')
    (h' : SameSchemas program' program'') : SameSchemas program program'' :=
  ⟨h'.1, h'.2.trans h.2⟩

section Runs

variable [Platform] [DescriptionHash] {settings : OptimizerSettings} {program program' : Program}

/-- One pass, whichever it is. `relationSimplify` is given programs in which a filter that is always
true has the columns of its source. -/
inductive PassStep (settings : OptimizerSettings) (program program' : Program) : Prop
  | step {pass : Program → Pass Program} : pass ∈ passes settings →
      (pass = RelationSimplify.relationSimplify → Throughout ShowsAll program.statements) →
      (pass program).result = .ok program' → PassStep settings program program'

/-- **One pass.** The columns of all statements stay what they are, and every schema is still the one
that the sources give. -/
theorem PassStep.sameSchemas (h : PassStep settings program program') (hfits : program.Fits) :
    SameSchemas program program' := by
  obtain ⟨hpass, hshows, hrun⟩ := h
  simp only [passes, List.mem_cons, List.not_mem_nil, or_false] at hpass
  rcases hpass with rfl | rfl | rfl | rfl | rfl | rfl | rfl | rfl | rfl | rfl | rfl
  · exact (constScalarFold_sameSchemas hfits).result hrun
  · exact (scalarSimplify_sameSchemas hfits).result hrun
  · exact (constScalarFold_sameSchemas hfits).result hrun
  · exact (constAggregateFold_sameSchemas hfits).result hrun
  · exact (visitProgram_keeps deduplicate_keeps hfits).result hrun
  · exact (visitProgram_sameSchemas showsAll_withSources relationSimplify_keeps hfits
      (hshows rfl)).result hrun
  · exact (visitProgram_keeps filterPushdown_keeps hfits).result hrun
  · exact (visitProgram_keeps limitPushdown_keeps hfits).result hrun
  · exact (visitProgram_keeps (scalarCache_keeps settings) hfits).result hrun
  · exact (visitProgram_keeps (projectionCollapse_keeps settings) hfits).result hrun
  · exact (visitProgram_keeps prune_keeps hfits).result hrun

/-- Passes in any order. -/
theorem run_sameSchemas (h : Relation.ReflTransGen (PassStep settings) program program')
    (hfits : program.Fits) : SameSchemas program program' := by
  induction h with
  | refl => exact .refl hfits
  | tail _ hstep ih => exact ih.trans (hstep.sameSchemas ih.1)

end Runs

end Passes

end Lsql.Opt
