import Lsql.Opt.Optimize
import Lsql.Opt.RelationPasses

/-!
# Lsql.Opt.ChangeFlag

Every pass reports what it changes, so that a round that reports nothing has changed nothing, and no
later round would.
-/

namespace Lsql.Opt

open Ir

/-! ### Reports -/

/-- If nothing is reported at the end of a pass, then nothing was reported before it, and `P` is known
of what it has made. -/
def Reports {α : Type} (p : Pass α) (P : α → Prop) : Prop :=
  ∀ b a, p b = .ok (a, false) → b = false ∧ P a

/-- A pass that reports whenever it makes something else of its input. -/
def ReportsChanges {α : Type} (pass : α → Pass α) : Prop := ∀ a, Reports (pass a) fun a' => a' = a

namespace Reports

variable {α β : Type} {P P' : α → Prop} {Q : β → Prop} {p : Pass α} {f : α → Pass β}

theorem pure {a : α} (h : P a) : Reports (Pure.pure a) P := by
  intro b a' hrun
  obtain ⟨rfl, rfl⟩ := Pass.pure_ok.mp hrun
  exact ⟨rfl, h⟩

theorem mono (h : Reports p P) (hP : ∀ a, P a → P' a) : Reports p P' := by
  intro b a hrun
  obtain ⟨hb, ha⟩ := h b a hrun
  exact ⟨hb, hP a ha⟩

/-- What a pass keeps to, without what it makes. -/
theorem keeps (h : Reports p P) : Reports p fun _ => True := h.mono fun _ _ => trivial

/-- The second part has to keep the flag whatever the first part has made, but needs to answer for its
result only if the first part has answered for its own. -/
theorem bind (hp : Reports p P) (hf : ∀ a, Reports (f a) fun y => P a → Q y) :
    Reports (p >>= f) Q := by
  intro b y hrun
  obtain ⟨a, b₁, ha, hy⟩ := Pass.bind_ok.mp hrun
  obtain ⟨rfl, hQ⟩ := hf a b₁ y hy
  obtain ⟨hb, hP⟩ := hp b a ha
  exact ⟨hb, hQ hP⟩

/-- What a pass asks of code without reports. -/
theorem lift {x : Except Fault α} (hf : ∀ a, x = .ok a → Reports (f a) Q) :
    Reports ((liftM x : Pass α) >>= f) Q := by
  intro b y hrun
  obtain ⟨a, b₁, ha, hy⟩ := Pass.bind_ok.mp hrun
  obtain ⟨hx, rfl⟩ := Pass.lift_ok.mp ha
  exact hf a hx b y hy

/-- Behind a report nothing has to be known of the result. -/
theorem changed {g : Unit → Pass β} (h : Reports (g ()) fun _ => True) :
    Reports (Pass.setChanges >>= g) Q := by
  intro b y hrun
  obtain ⟨htrue, -⟩ := h true y hrun
  cases htrue

theorem changed_pure {y : β} : Reports (do
    Pass.setChanges
    Pure.pure y) Q := changed (pure trivial)

/-- A walk over a vector, from what is known of its elements. -/
theorem each {f : α → Pass α} {as : List α} (h : ∀ a ∈ as, Reports (f a) fun a' => a' = a) :
    Reports (Pass.each f as) fun as' => as' = as := by
  induction as with
  | nil => exact pure rfl
  | cons a as ih =>
      have has := ih fun a ha => h a (List.mem_cons_of_mem _ ha)
      refine (h a List.mem_cons_self).bind fun a' => has.bind fun as' => pure fun has' ha' => ?_
      rw [has', ha']

theorem failed {e : Fault} : Reports (throw e : Pass α) P := by
  intro b a hrun
  cases hrun

end Reports

namespace ReportsChanges

theorem pure {α : Type} : ReportsChanges (Pure.pure : α → Pass α) := fun _ => Reports.pure rfl

theorem each {α : Type} {f : α → Pass α} (h : ReportsChanges f) :
    ReportsChanges (Pass.each f) := fun _ => .each fun a _ => h a

/-- A walk into one field of a node, if the node with the field as it was is the node. -/
theorem field {α β : Type} {pass : α → Pass α} (h : ReportsChanges pass) (a : α) {node : α → β}
    {self : β} (hself : node a = self) :
    Reports (do
      let a ← pass a
      Pure.pure (node a)) fun y => y = self :=
  (h a).bind fun a' => .pure fun ha => by rw [ha, hself]

end ReportsChanges

/-! ### Traversals -/

section Traversals

variable {rule : Relation → Pass Relation}

theorem visitAll_eq (rule : Relation → Pass Relation) (rs : List Relation) :
    visitAll rule rs = Pass.each (visit rule) rs := by
  induction rs with
  | nil => rfl
  | cons r rs ih => rw [visitAll, Pass.each, ih]

theorem visitStatements_eq (rule : Relation → Pass Relation) (ss : List Statement) :
    visitStatements rule ss = Pass.each (visitStatement rule) ss := by
  induction ss with
  | nil => rfl
  | cons s ss ih => rw [visitStatements, Pass.each, ih]

/-- A traversal reports what its rule reports. -/
theorem visit_reports (h : ReportsChanges rule) : ReportsChanges (visit rule) := by
  intro r
  induction r using Relation.induction with
  | h r ih =>
      have hsources : Reports (visitAll rule r.sources) fun qs => qs = r.sources := by
        rw [visitAll_eq]
        exact .each ih
      rw [visit_eq]
      refine hsources.bind fun qs => (h _).mono fun r' hr' hqs => ?_
      rw [hr', hqs, Relation.withSources_self]

theorem visitStatement_reports (h : ReportsChanges rule) :
    ReportsChanges (visitStatement rule) := by
  intro s
  cases s with
  | namedRelation name r => exact (visit_reports h).field r rfl
  | query r => exact (visit_reports h).field r rfl

theorem visitStatements_reports (h : ReportsChanges rule) :
    ReportsChanges (visitStatements rule) := by
  intro ss
  rw [visitStatements_eq]
  exact (visitStatement_reports h).each ss

theorem visitProgram_reports (h : ReportsChanges rule) : ReportsChanges (visitProgram rule) :=
  fun program => (visitStatements_reports h).field program.statements rfl

/-- A walk over a scalar, from what it does behind the arguments of a node. -/
theorem scalar_reports {walk : Scalar → Pass Scalar}
    {onCoalesce : List Scalar → ValueType → Pass Scalar}
    {onCall : Function → List Scalar → ValueType → Pass Scalar}
    (hfield : ∀ id t, walk (.field id t) = pure (.field id t))
    (hvalue : ∀ v t, walk (.value v t) = pure (.value v t))
    (hcoalesce : ∀ args t, walk (.coalesce args t) =
      (Pass.each walk args >>= fun args => onCoalesce args t))
    (hcall : ∀ f args t, walk (.fnCall f args t) =
      (Pass.each walk args >>= fun args => onCall f args t))
    (hcached : ∀ s t, walk (.cached s t) = (do
      let s ← walk s
      pure (.cached s t)))
    (honCoalesce : ∀ args t, Reports (onCoalesce args t) fun s' => s' = .coalesce args t)
    (honCall : ∀ f args t, Reports (onCall f args t) fun s' => s' = .fnCall f args t) :
    ReportsChanges walk := by
  intro s
  induction s using Scalar.induction with
  | field id t =>
      rw [hfield]
      exact .pure rfl
  | value v t =>
      rw [hvalue]
      exact .pure rfl
  | coalesce args t ih =>
      rw [hcoalesce]
      refine (Reports.each ih).bind fun args' => (honCoalesce args' t).mono fun s' hs' h => ?_
      rw [hs', h]
  | fnCall f args t ih =>
      rw [hcall]
      refine (Reports.each ih).bind fun args' => (honCall f args' t).mono fun s' hs' h => ?_
      rw [hs', h]
  | cached s t ih =>
      rw [hcached]
      refine ih.bind fun s' => .pure fun hs => ?_
      rw [hs]

variable {onScalar : Scalar → Pass Scalar} {onAggregate : Aggregate → Pass Aggregate}

theorem visitExpr_reports (h : ReportsChanges onScalar) : ReportsChanges (visitExpr onScalar) :=
  fun p => h.field p.expr rfl

theorem visitAggregateArgs_reports (h : ReportsChanges onScalar) :
    ReportsChanges (visitAggregateArgs onScalar) := by
  intro a
  obtain ⟨node, id, t⟩ := a
  cases node with
  | const v nullIfEmpty => exact .pure rfl
  | fnCall f args => exact h.each.field args rfl

theorem visitMembers_reports (h : ReportsChanges onScalar) (h' : ReportsChanges onAggregate) :
    ReportsChanges (visitMembers onScalar onAggregate) := by
  intro r
  cases r with
  | projection r ps s => exact (visitExpr_reports h).each.field ps rfl
  | aggregate r as s => exact h'.each.field as rfl
  | group r as ks s =>
      refine (h'.each as).bind fun as' => ((visitExpr_reports h).each ks).bind fun ks' => .pure ?_
      intro hks has
      rw [hks, has]
  | filter r c s => exact h.field c rfl
  | sort r ks desc s => exact h.each.field ks rfl
  | topK r ks desc n s => exact h.each.field ks rfl
  | semiJoin r m e f s => exact h.field e rfl
  | markJoin r m e o f s => exact h.field e rfl
  | leftJoin l r lk rk s =>
      refine (h lk).bind fun lk' => (h rk).bind fun rk' => .pure ?_
      intro hrk hlk
      rw [hrk, hlk]
  | unionAllSortedBy l r ks desc s => exact h.each.field ks rfl
  | empty | values | limit | unionAll | file | stream | namedRelationReference | materialize =>
      exact .pure rfl

end Traversals

/-! ### The passes -/

theorem constFold_visitAll_eq [Platform] (args : List Scalar) :
    ConstScalarFold.visitAll args = Pass.each ConstScalarFold.visit args := by
  induction args with
  | nil => rfl
  | cons a as ih => rw [ConstScalarFold.visitAll, Pass.each, ih]

theorem constFold_visitNode_eq [Platform] (r : Relation) :
    ConstScalarFold.visitNode r =
      visitMembers ConstScalarFold.visit (visitAggregateArgs ConstScalarFold.visit) r := by
  have haggregate : ConstScalarFold.visitAggregate = visitAggregateArgs ConstScalarFold.visit := by
    funext a
    obtain ⟨node, id, t⟩ := a
    cases node with
    | const v nullIfEmpty => rfl
    | fnCall f args =>
        show (ConstScalarFold.visitAll args >>= _) = _
        rw [constFold_visitAll_eq]
        rfl
  cases r <;> simp only [ConstScalarFold.visitNode, visitMembers, haggregate, constFold_visitAll_eq] <;> rfl

theorem constFold_optimize_reports [Platform] (f : Function) (args : List Scalar) (t : ValueType) :
    Reports (ConstScalarFold.optimize f args t) fun s' => s' = .fnCall f args t := by
  unfold ConstScalarFold.optimize
  split
  · exact .pure rfl
  · split
    · exact .pure rfl
    · exact .lift fun executor _ => .changed (.lift fun result _ => .pure trivial)

theorem constFold_visit_reports [Platform] : ReportsChanges ConstScalarFold.visit := by
  refine scalar_reports (fun _ _ => rfl) (fun _ _ => rfl) (fun args t => ?_) (fun f args t => ?_)
    (fun _ _ => rfl) (fun _ _ => .pure rfl) constFold_optimize_reports
  · rw [ConstScalarFold.visit, constFold_visitAll_eq]
  · rw [ConstScalarFold.visit, constFold_visitAll_eq]

theorem constScalarFold_reports [Platform] : ReportsChanges constScalarFold := by
  refine visitProgram_reports fun r => ?_
  rw [constFold_visitNode_eq]
  exact visitMembers_reports constFold_visit_reports
    (visitAggregateArgs_reports constFold_visit_reports) r

theorem booleanBinary_reports (args : List Scalar) (self : Scalar) (conjunction : Bool) :
    Reports (ScalarSimplify.simplifyBooleanBinary args self conjunction) fun s' => s' = self := by
  unfold ScalarSimplify.simplifyBooleanBinary
  split
  · split
    · exact .changed_pure
    · split
      · exact .changed_pure
      · exact .pure rfl
  · exact .failed

theorem doubleNegation_reports (args : List Scalar) (self : Scalar) :
    Reports (ScalarSimplify.simplifyDoubleNegation args self) fun s' => s' = self := by
  unfold ScalarSimplify.simplifyDoubleNegation
  split
  · exact .changed_pure
  · exact .failed
  · exact .pure rfl
  · exact .failed

theorem optimizeFnCall_reports (f : Function) (args : List Scalar) (t : ValueType) :
    Reports (ScalarSimplify.optimizeFnCall f args t) fun s' => s' = .fnCall f args t := by
  unfold ScalarSimplify.optimizeFnCall
  split
  · split
    · split
      · exact .changed_pure
      · exact .pure rfl
    · exact .failed
  · exact booleanBinary_reports args _ true
  · exact booleanBinary_reports args _ false
  · exact doubleNegation_reports args _
  · exact .changed_pure
  · exact .pure rfl

/-- What the loop keeps are alternatives, in their order. -/
theorem keepAlternatives_sublist {kept args all : List Scalar}
    (h : ScalarSimplify.keepAlternatives kept args = .kept all) :
    ∃ more, all = kept ++ more ∧ List.Sublist more args := by
  induction args generalizing kept with
  | nil =>
      cases h
      exact ⟨[], (List.append_nil _).symm, .refl []⟩
  | cons a as ih =>
      have hdropped : ScalarSimplify.keepAlternatives kept as = .kept all →
          ∃ more, all = kept ++ more ∧ List.Sublist more (a :: as) := by
        intro h
        obtain ⟨more, hall, hmore⟩ := ih h
        exact ⟨more, hall, hmore.cons a⟩
      unfold ScalarSimplify.keepAlternatives at h
      split at h
      · cases ‹a :: as = []›
      · -- a constant ends the loop, if it is not a null
        cases ‹a :: as = _›
        split at h
        · exact hdropped h
        · split at h
          · cases h
          · cases h
            exact ⟨[_], rfl, List.singleton_sublist.mpr List.mem_cons_self⟩
      · cases ‹a :: as = _›
        split at h
        · exact hdropped h
        · obtain ⟨more, hall, hmore⟩ := ih h
          exact ⟨a :: more, by rw [hall, List.append_assoc, List.singleton_append], hmore.cons_cons a⟩

theorem optimizeCoalesce_reports (args : List Scalar) (t : ValueType) :
    Reports (ScalarSimplify.optimizeCoalesce args t) fun s' => s' = .coalesce args t := by
  unfold ScalarSimplify.optimizeCoalesce
  split
  · exact .changed_pure
  · exact .changed_pure
  · exact .changed_pure
  · rename_i kept _ _ hkept
    split
    · exact .changed_pure
    · -- as many alternatives as before are the same alternatives
      rename_i hlength
      obtain ⟨more, rfl, hsublist⟩ := keepAlternatives_sublist hkept
      rw [hsublist.eq_of_length (Decidable.not_not.mp hlength)]
      exact .pure rfl

theorem simplify_visitAll_eq (args : List Scalar) :
    ScalarSimplify.visitAll args = Pass.each ScalarSimplify.visit args := by
  induction args with
  | nil => rfl
  | cons a as ih => rw [ScalarSimplify.visitAll, Pass.each, ih]

theorem simplify_visit_reports : ReportsChanges ScalarSimplify.visit := by
  refine scalar_reports (fun _ _ => rfl) (fun _ _ => rfl) (fun args t => ?_) (fun f args t => ?_)
    (fun _ _ => rfl) optimizeCoalesce_reports optimizeFnCall_reports
  · rw [ScalarSimplify.visit, simplify_visitAll_eq]
  · rw [ScalarSimplify.visit, simplify_visitAll_eq]

theorem scalarSimplify_reports : ReportsChanges scalarSimplify :=
  visitProgram_reports (visitMembers_reports simplify_visit_reports
    (visitAggregateArgs_reports simplify_visit_reports))

theorem constAggregate_optimize_reports : ReportsChanges ConstAggregateFold.optimize := by
  intro a
  unfold ConstAggregateFold.optimize
  split
  · exact .pure rfl
  · split
    · exact .pure rfl
    · split
      · exact .pure rfl
      · split
        · refine .lift fun value _ => .changed ?_
          split
          · exact .pure trivial
          · exact .pure trivial
        · exact .changed (.lift fun value _ => .pure trivial)
        · exact .changed (.lift fun value _ => .pure trivial)
        · exact .pure rfl

theorem constAggregateFold_reports : ReportsChanges constAggregateFold :=
  visitProgram_reports (visitMembers_reports .pure constAggregate_optimize_reports)

section Deduplicate

open AggregateDeduplicate

variable [DescriptionHash]

/-- What is kept of the aggregates are aggregates, in their order. -/
theorem visitAggregates_sublist (l : Locals) (as : List Aggregate) :
    ∃ more, (visitAggregates l as).aggregates = l.aggregates ++ more ∧ List.Sublist more as := by
  induction as generalizing l with
  | nil => exact ⟨[], (List.append_nil _).symm, .refl []⟩
  | cons a as ih =>
      rw [visitAggregates]
      obtain ⟨more, hmore, hsublist⟩ := ih (visitAggregate l a)
      rw [hmore]
      unfold visitAggregate
      split
      · exact ⟨more, rfl, hsublist.cons a⟩
      · exact ⟨a :: more, by simp, hsublist.cons_cons a⟩

theorem deduplicate_reports (as : List Aggregate) (groupList : List Projector)
    (node : List Aggregate → Schema → Relation) (s : Schema) :
    Reports (deduplicate as groupList node s) fun r => r = node as s := by
  unfold deduplicate
  split
  · exact .pure rfl
  · obtain ⟨more, hmore, hsublist⟩ := visitAggregates_sublist ⟨[], [], []⟩ as
    rw [List.nil_append] at hmore
    simp only [hmore]
    split
    · -- nothing is left out
      rename_i hlength
      have hle := hsublist.length_le
      rw [hsublist.eq_of_length (by omega)]
      exact .pure rfl
    · exact .lift fun own _ => .lift fun keys _ => .lift fun inner _ => .changed_pure

theorem aggregateDeduplicate_reports : ReportsChanges aggregateDeduplicate := by
  refine visitProgram_reports fun r => ?_
  unfold AggregateDeduplicate.rule
  split
  · exact deduplicate_reports _ _ _ _
  · exact deduplicate_reports _ _ _ _
  · exact .pure rfl

end Deduplicate

theorem flattenSources_reports : ReportsChanges RelationSimplify.flattenSources := by
  intro rs
  induction rs with
  | nil => exact .pure rfl
  | cons r rs ih =>
      unfold RelationSimplify.flattenSources
      split
      · cases ‹r :: rs = []›
      · cases ‹r :: rs = _›
        exact .changed (ih.keeps.bind fun rs' => .pure fun _ => trivial)
      · cases ‹r :: rs = _›
        exact ih.bind fun rs' => .pure fun hrs => by rw [hrs]

theorem relationSimplify_reports : ReportsChanges RelationSimplify.relationSimplify := by
  refine visitProgram_reports fun r => ?_
  unfold RelationSimplify.rule
  split
  · unfold RelationSimplify.optimizeProjection
    split
    · exact .changed_pure
    · exact .pure rfl
  · unfold RelationSimplify.optimizeFilter
    split
    · refine .lift fun x _ => .changed ?_
      split
      · exact .pure trivial
      · exact .pure trivial
    · exact .pure rfl
  · exact flattenSources_reports.field _ rfl
  · exact .pure rfl

section Filters

open FilterPushdown

/-- A filter that stays where it is has been left as it is, and one that moves is reported, whatever
becomes of it further down. -/
theorem pushdown_reports (c : Scalar) (s : Schema) (r : Relation) :
    Reports (pushdown c s r) fun r' => r' = .filter r c s := by
  induction r using Relation.induction generalizing c s with
  | h r ih =>
      cases r with
      | unionAll sources t =>
          rw [pushdown]
          have hall : ∀ {rs : List Relation}, (∀ r ∈ rs, r ∈ sources) →
              Reports (addFilterAll c rs) fun _ => True := by
            intro rs
            induction rs with
            | nil => exact fun _ => .pure trivial
            | cons r rs ihrs =>
                intro hmem
                have hrest := ihrs fun q hq => hmem q (List.mem_cons_of_mem _ hq)
                have hr := ih r (hmem r List.mem_cons_self) c r.schema
                exact hr.keeps.bind fun _ => hrest.bind fun _ => .pure fun _ _ => trivial
          exact (hall fun _ h => h).bind fun _ => .changed_pure
      | unionAllSortedBy left right ks desc t =>
          rw [pushdown]
          have hleft := ih left List.mem_cons_self c left.schema
          have hright := ih right (List.mem_cons_of_mem _ List.mem_cons_self) c right.schema
          exact hleft.keeps.bind fun _ => hright.keeps.bind fun _ => .changed_pure
      | projection source ps t =>
          rw [pushdown]
          refine .lift fun fields _ => .lift fun split _ => ?_
          split
          · exact .pure rfl
          · refine .lift fun pushable _ => ?_
            have hsource := ih source List.mem_cons_self pushable source.schema
            exact hsource.keeps.bind fun _ => .changed_pure
      | leftJoin left right lk rk t =>
          rw [pushdown]
          refine .lift fun split _ => ?_
          split
          · exact .pure rfl
          · rename_i pushable _
            have hleft := ih left List.mem_cons_self pushable left.schema
            exact hleft.keeps.bind fun _ => .changed_pure
      | sort source ks desc t =>
          rw [pushdown]
          have hsource := ih source List.mem_cons_self c source.schema
          exact hsource.keeps.bind fun _ => .changed_pure
      | _ => exact .pure rfl

theorem filterPushdown_reports : ReportsChanges filterPushdown := by
  refine visitProgram_reports fun r => ?_
  unfold FilterPushdown.rule
  split
  · exact pushdown_reports _ _ _
  · exact .pure rfl

end Filters

section Limits

open LimitPushdown

theorem ensureLimited_reports (n : Int) : ReportsChanges (ensureLimited n) := by
  intro r
  unfold ensureLimited
  split
  · split
    · exact .changed_pure
    · exact .pure rfl
  · split
    · exact .changed_pure
    · exact .pure rfl
  · exact .changed_pure

theorem ensureAllLimited_eq (n : Int) (rs : List Relation) :
    ensureAllLimited n rs = Pass.each (ensureLimited n) rs := by
  induction rs with
  | nil => rfl
  | cons r rs ih => rw [ensureAllLimited, Pass.each, ih]

theorem limitPushdown_reports : ReportsChanges limitPushdown := by
  refine visitProgram_reports fun r => ?_
  unfold LimitPushdown.rule
  split
  · unfold LimitPushdown.pushdown
    split
    · exact .changed_pure
    · exact .changed_pure
    · exact .changed_pure
    · exact .changed_pure
    · -- the limit stays above a union, so that only its inputs may have been changed
      rw [ensureAllLimited_eq]
      exact (ensureLimited_reports _).each.field _ rfl
    · refine (ensureLimited_reports _ _).bind fun left' =>
        (ensureLimited_reports _ _).bind fun right' => .pure ?_
      intro hright hleft
      rw [hright, hleft]
    · exact .pure rfl
  · exact .pure rfl

end Limits

section Caches

open ScalarCache

variable [DescriptionHash]

theorem updateCache_reports {α : Type} (settings : OptimizerSettings) (scope : Scope α) :
    ReportsChanges (updateCache settings scope) := by
  intro a
  refine .lift fun currentCost _ => .lift fun candidate _ => .lift fun candidateCost _ => ?_
  split
  · exact .changed_pure
  · exact .pure rfl

theorem scalarCache_reports (settings : OptimizerSettings) :
    ReportsChanges (scalarCache settings) := by
  refine visitProgram_reports fun r => ?_
  unfold ScalarCache.rule
  split
  · exact (updateCache_reports settings _).field _ rfl
  · exact (updateCache_reports settings _).field _ rfl
  · exact (updateCache_reports settings _).field _ rfl
  · exact (updateCache_reports settings _).field _ rfl
  · exact .pure rfl

end Caches

theorem projectionCollapse_reports (settings : OptimizerSettings) :
    ReportsChanges (ProjectionCollapse.projectionCollapse settings) := by
  refine visitProgram_reports fun r => ?_
  unfold ProjectionCollapse.rule
  split
  · refine .lift fun innerCost _ => .lift fun outerCost _ => .lift fun collapsed _ =>
      .lift fun collapsedCost _ => ?_
    split
    · exact .pure rfl
    · exact .changed_pure
  · exact .pure rfl

section Prune

open EmptyRelationPrune

theorem emptyIf_reports (c : Prop) [Decidable c] (r : Relation) :
    Reports (if c then makeEmpty r else pure r) fun r' => r' = r := by
  split
  · exact .changed_pure
  · exact .pure rfl

theorem pruneUnionAll_reports (sources : List Relation) (s : Schema) :
    Reports (pruneUnionAll sources s) fun r' => r' = .unionAll sources s := by
  unfold pruneUnionAll
  split
  · exact .changed_pure
  · exact .changed_pure
  · split
    · exact .changed_pure
    · -- as many sources as before are the same sources
      rename_i hlength
      rw [List.filter_sublist.eq_of_length (Decidable.not_not.mp hlength)]
      exact .pure rfl

theorem pruneUnionAllSortedBy_reports (left right self : Relation) :
    Reports (pruneUnionAllSortedBy left right self) fun r' => r' = self := by
  unfold pruneUnionAllSortedBy
  split
  · exact .changed_pure
  · split
    · exact .changed_pure
    · split
      · exact .changed_pure
      · exact .pure rfl

theorem prune_reports : ReportsChanges EmptyRelationPrune.rule := by
  have hsimple : ∀ source r, Reports (pruneSimple source r) fun r' => r' = r := by
    intro source r
    unfold pruneSimple
    split
    · exact .pure rfl
    · exact .changed_pure
  intro r
  cases r with
  | projection r ps s => exact hsimple r _
  | group r as ks s => exact hsimple r _
  | filter r c s => exact hsimple r _
  | sort r ks desc s => exact hsimple r _
  | materialize r s => exact hsimple r _
  | unionAll rs s => exact pruneUnionAll_reports rs s
  | unionAllSortedBy l r ks desc s => exact pruneUnionAllSortedBy_reports l r _
  | topK r ks desc n s => exact emptyIf_reports _ _
  | limit r n s => exact emptyIf_reports _ _
  | semiJoin r m e f s => exact emptyIf_reports _ _
  | leftJoin l r lk rk s => exact emptyIf_reports _ _
  | markJoin r m e o f s => exact emptyIf_reports _ _
  | empty | values | aggregate | file | stream | namedRelationReference => exact .pure rfl

end Prune

/-! ### Rounds -/

theorem runInTurn_reports {ps : List (Program → Pass Program)}
    (h : ∀ pass ∈ ps, ReportsChanges pass) : ReportsChanges (runInTurn ps) := by
  induction ps with
  | nil => exact .pure
  | cons pass ps ih =>
      intro program
      have hrest := ih fun p hp => h p (List.mem_cons_of_mem _ hp)
      exact (h pass List.mem_cons_self program).bind fun a => (hrest a).mono fun y hy ha =>
        hy.trans ha

section Rounds

variable [Platform] [DescriptionHash] {settings : OptimizerSettings}

theorem passes_report {pass : Program → Pass Program} (h : pass ∈ passes settings) :
    ReportsChanges pass := by
  simp only [passes, List.mem_cons, List.not_mem_nil, or_false] at h
  rcases h with rfl | rfl | rfl | rfl | rfl | rfl | rfl | rfl | rfl | rfl | rfl
  · exact constScalarFold_reports
  · exact scalarSimplify_reports
  · exact constScalarFold_reports
  · exact constAggregateFold_reports
  · exact aggregateDeduplicate_reports
  · exact relationSimplify_reports
  · exact filterPushdown_reports
  · exact limitPushdown_reports
  · exact scalarCache_reports settings
  · exact projectionCollapse_reports settings
  · exact visitProgram_reports prune_reports

/-- A round that ends with a clear flag has changed nothing. -/
theorem optimize_unchanged {program program' : Program} {b : Bool}
    (h : optimize settings program b = .ok (program', false)) : program' = program := by
  rw [optimize_eq] at h
  obtain ⟨_, b₁, hnext, hrun⟩ := Pass.bind_ok.mp h
  exact (runInTurn_reports (fun _ => passes_report) program b₁ program' hrun).2

/-- Further rounds behind one that has changed nothing. -/
theorem times_unchanged {program : Program}
    (h : optimize settings program false = .ok (program, false)) (n : Nat) :
    Pass.times (optimize settings) n program = .ok program := by
  induction n with
  | zero => rfl
  | succ n ih =>
      rw [Pass.times, Pass.result_ok.mpr ⟨false, h⟩, ok_bind]
      exact ih

/-- The loop, which stops early, ends as all rounds would. -/
theorem optimizeLoop_eq (n : Nat) (program : Program) (b : Bool) :
    optimizeLoop settings n program b = Pass.times (optimize settings) n program := by
  induction n generalizing program b with
  | zero => rfl
  | succ n ih =>
      rw [optimizeLoop, optimize_flag, Pass.times, Pass.result]
      cases hround : optimize settings program false with
      | error e => rfl
      | ok r =>
          obtain ⟨program', changes⟩ := r
          cases changes with
          | true => exact ih program' true
          | false =>
              cases optimize_unchanged hround
              exact (times_unchanged hround n).symm

/-- **The flag is faithful**: a pass, and a round of all passes, that ends without a report hands back
the program that it was given, and the loop that stops behind such a round makes of a program what
the whole number of rounds makes of it. -/
theorem flag_faithful (settings : OptimizerSettings) :
    (∀ pass ∈ passes settings, ∀ program b program',
      pass program b = .ok (program', false) → program' = program) ∧
    (∀ program b program',
      optimize settings program b = .ok (program', false) → program' = program) ∧
    ∀ n program, optimizeProgram settings n program =
      Pass.times (optimize settings) n program :=
  ⟨fun _ hpass program b program' h => (passes_report hpass program b program' h).2,
    fun _ _ _ h => optimize_unchanged h, fun n program => optimizeLoop_eq n program false⟩

end Rounds

/-- A query that no pass has anything to do on. -/
def settled : Program := singleQuery (.limit log 10 oneColumn)

theorem flag_faithful_settled :
    ∃ program', @optimize Platform.inert DescriptionHash.constant {} settled true =
        .ok (program', false) ∧
      program' = settled :=
  ⟨settled, rfl, (@flag_faithful Platform.inert DescriptionHash.constant {}).2.1 settled true
    settled rfl⟩

end Lsql.Opt
