import Lsql.Ir.ScalarHash
import Lsql.Opt.ScalarCost
import Lsql.Opt.Traversal

/-!
# Lsql.Opt.ScalarCache

The pass that decides which scalars are worth a cache (`optimize/scalar_cache.cpp`).

The scalars of a node share the values of their cached scalars. The pass takes the caches off a copy
of them, puts new ones around the expressions that occur more than once, the most expensive ones
first, each only if it pays, and keeps the copy if it has become cheaper than what was there. A cache
does not change a value (`updateCache_same`).
-/

namespace Lsql.Opt.ScalarCache

open Ir
open ScalarCostEstimator (estimateAll)

/-! ### Walks over a scalar -/

mutual

/-- `CacheStripper::visit`. -/
def stripCache : Scalar → Scalar
  | .field id t => .field id t
  | .value v t => .value v t
  | .coalesce args t => .coalesce (stripCacheAll args) t
  | .fnCall f args t => .fnCall f (stripCacheAll args) t
  | .cached s _ => stripCache s

def stripCacheAll : List Scalar → List Scalar
  | [] => []
  | a :: as => stripCache a :: stripCacheAll as

end

/-- `RepeatedExpression`. -/
structure RepeatedExpression where
  scalar : Scalar
  count : Nat
  cost : Int

section Collector

variable [DescriptionHash]

/-- The lookup of `indices`: the number of an equal expression among those with the same hash. -/
def indexOf (expressions : List RepeatedExpression) (s : Scalar) : Option Nat :=
  expressions.findIdx? fun e => e.scalar.hash == s.hash && s.equal e.scalar

/-- `indices.try_emplace`, with what follows of it. -/
def collectOne (est : ScalarCostEstimator) (addr : Address) (s : Scalar)
    (expressions : List RepeatedExpression) : Except Fault (List RepeatedExpression) :=
  match indexOf expressions s with
  | some i => .ok (expressions.modify i fun e => { e with count := e.count + 1 })
  | none => do
    let cost ← est.cost addr
    pure (expressions ++ [{ scalar := s, count := 1, cost }])

mutual

/-- `ExpressionCollector::visit`. -/
def collect (est : ScalarCostEstimator) (addr : Address) :
    Scalar → List RepeatedExpression → Except Fault (List RepeatedExpression)
  | .field _ _, expressions => .ok expressions
  | .value _ _, expressions => .ok expressions
  | .coalesce args t, expressions => do
    let expressions ← collectOne est addr (.coalesce args t) expressions
    collectAll est addr 0 args expressions
  | .fnCall f args t, expressions => do
    let expressions ← collectOne est addr (.fnCall f args t) expressions
    collectAll est addr 0 args expressions
  | .cached s t, expressions => do
    let expressions ← collectOne est addr (.cached s t) expressions
    collect est (0 :: addr) s expressions

def collectAll (est : ScalarCostEstimator) (addr : Address) (i : Nat) :
    List Scalar → List RepeatedExpression → Except Fault (List RepeatedExpression)
  | [], expressions => .ok expressions
  | a :: as, expressions => do
    let expressions ← collect est (i :: addr) a expressions
    collectAll est addr (i + 1) as expressions

end

end Collector

/-- A cache around a scalar that is the expression once its own caches are off. -/
def wrap (expression s descended : Scalar) : Scalar :=
  if (stripCache s).equal expression then .cached s s.valueType else descended

mutual

/-- `ExpressionCacher::visit`. -/
def cacheExpression (expression : Scalar) : Scalar → Scalar
  | .field id t => .field id t
  | .value v t => .value v t
  | .coalesce args t =>
    wrap expression (.coalesce args t) (.coalesce (cacheExpressionAll expression args) t)
  | .fnCall f args t =>
    wrap expression (.fnCall f args t) (.fnCall f (cacheExpressionAll expression args) t)
  | .cached s t => wrap expression (.cached s t) (.cached (cacheExpression expression s) t)

def cacheExpressionAll (expression : Scalar) : List Scalar → List Scalar
  | [] => []
  | a :: as => cacheExpression expression a :: cacheExpressionAll expression as

end

/-! ### Scopes -/

/-- What a node holds scalars in: a vector of projectors or of aggregates, or a condition. -/
structure Scope (α : Type) where
  /-- The scalars that a walker meets, in this order. -/
  scalars : α → List Scalar
  /-- What a walker that rewrites each of them leaves. -/
  map : (Scalar → Scalar) → α → α
  scalars_map : ∀ (f : Scalar → Scalar) (a : α), scalars (map f a) = (scalars a).map f

/-- A projector with another scalar. -/
def mapProjector (f : Scalar → Scalar) (p : Projector) : Projector := { p with expr := f p.expr }

/-- An aggregate with other arguments. -/
def mapAggregate (f : Scalar → Scalar) (a : Aggregate) : Aggregate :=
  match a.node with
  | .const _ _ => a
  | .fnCall g args => { a with node := .fnCall g (args.map f) }

theorem args_mapAggregate (f : Scalar → Scalar) (a : Aggregate) :
    (mapAggregate f a).args = a.args.map f := by
  obtain ⟨node, id, t⟩ := a
  cases node <;> rfl

theorem exprs_map (f : Scalar → Scalar) (ps : List Projector) :
    (ps.map (mapProjector f)).map Projector.expr = (ps.map Projector.expr).map f := by
  rw [List.map_map, List.map_map]
  rfl

theorem allArgs_map (f : Scalar → Scalar) (as : List Aggregate) :
    (as.map (mapAggregate f)).flatMap Aggregate.args = (as.flatMap Aggregate.args).map f := by
  rw [List.flatMap_map, List.map_flatMap]
  exact congrArg (fun g => as.flatMap g) (funext (args_mapAggregate f))

/-- `projection.projectors`. -/
def projectors : Scope (List Projector) where
  scalars ps := ps.map Projector.expr
  map f ps := ps.map (mapProjector f)
  scalars_map := exprs_map

/-- `*filter.condition`. -/
def condition : Scope Scalar where
  scalars s := [s]
  map f s := f s
  scalars_map _ _ := rfl

/-- `aggregate.aggregates` and `group.aggregates`. -/
def aggregates : Scope (List Aggregate) where
  scalars as := as.flatMap Aggregate.args
  map f as := as.map (mapAggregate f)
  scalars_map := allArgs_map

/-! ### The pass -/

section Pass

variable [DescriptionHash] {α : Type}

/-- `scopeCost`. -/
def scopeCost (settings : OptimizerSettings) (scope : Scope α) (a : α) : Except Fault Int := do
  let estimator ← estimateAll settings 0 (scope.scalars a) {}
  pure estimator.totalCost

/-- An expression that occurs often enough for its cost to be worth a cache. -/
def mayPay (settings : OptimizerSettings) (e : RepeatedExpression) : Bool :=
  !(e.count < 2 || e.cost * ((e.count : Int) - 1) ≤ settings.cachedScalarCostOverhead * e.count)

/-- The loop of `buildCache`: each expression is cached if the scope becomes cheaper by it. -/
def cacheRepeated (settings : OptimizerSettings) (scope : Scope α) :
    List RepeatedExpression → Int → α → Except Fault α
  | [], _, a => .ok a
  | e :: es, cost, a =>
    if mayPay settings e then do
      let candidate := scope.map (cacheExpression e.scalar) a
      let candidateCost ← scopeCost settings scope candidate
      if candidateCost < cost then cacheRepeated settings scope es candidateCost candidate
      else cacheRepeated settings scope es cost a
    else cacheRepeated settings scope es cost a

/-- `std::stable_sort` by falling costs. -/
def byCost (expressions : List RepeatedExpression) : List RepeatedExpression :=
  expressions.mergeSort fun left right => right.cost ≤ left.cost

/-- `buildCache`. -/
def buildCache (settings : OptimizerSettings) (scope : Scope α) (a : α) : Except Fault α := do
  let estimator ← estimateAll settings 0 (scope.scalars a) {}
  let expressions ← collectAll estimator [] 0 (scope.scalars a) []
  cacheRepeated settings scope (byCost expressions) estimator.totalCost a

/-- `Optimizer::updateCache`. -/
def updateCache (settings : OptimizerSettings) (scope : Scope α) (a : α) : Pass α := do
  let currentCost ← scopeCost settings scope a
  let candidate ← buildCache settings scope (scope.map stripCache a)
  let candidateCost ← scopeCost settings scope candidate
  if candidateCost < currentCost then do
    Pass.setChanges
    pure candidate
  else pure a

/-- `Optimizer::visit`, behind the traversal. -/
def rule (settings : OptimizerSettings) : Relation → Pass Relation
  | .projection r ps s => do
    let ps ← updateCache settings projectors ps
    pure (.projection r ps s)
  | .filter r c s => do
    let c ← updateCache settings condition c
    pure (.filter r c s)
  | .aggregate r as s => do
    let as ← updateCache settings aggregates as
    pure (.aggregate r as s)
  | .group r as ks s => do
    let as ← updateCache settings aggregates as
    pure (.group r as ks s)
  | rel => pure rel

/-- `scalarCache`. -/
def scalarCache (settings : OptimizerSettings) (program : Program) : Pass Program :=
  visitProgram (rule settings) program

end Pass

/-- Expressions that have been collected in the order of their costs. -/
theorem buildCache_of_sorted [DescriptionHash] {α : Type} {scope : Scope α}
    {settings : OptimizerSettings} {a : α} {est : ScalarCostEstimator}
    {es : List RepeatedExpression} (hest : estimateAll settings 0 (scope.scalars a) {} = .ok est)
    (hes : collectAll est [] 0 (scope.scalars a) [] = .ok es)
    (hsorted : es.Pairwise fun left right => right.cost ≤ left.cost) :
    buildCache settings scope a = cacheRepeated settings scope es est.totalCost a := by
  have hsort : byCost es = es :=
    List.mergeSort_of_pairwise (hsorted.imp fun h => decide_eq_true h)
  rw [buildCache, hest, ok_bind, hes, ok_bind, hsort]

/-! ### Caches and values -/

theorem stripCacheAll_eq (args : List Scalar) : stripCacheAll args = args.map stripCache := by
  induction args with
  | nil => rfl
  | cons a as ih => rw [stripCacheAll, ih, List.map_cons]

theorem cacheExpressionAll_eq (expression : Scalar) (args : List Scalar) :
    cacheExpressionAll expression args = args.map (cacheExpression expression) := by
  induction args with
  | nil => rfl
  | cons a as ih => rw [cacheExpressionAll, ih, List.map_cons]

section Values

variable [Platform] {record : FieldId → Except Fault Value}

/-- Scalars with the same value on every record. -/
def SameValue (s s' : Scalar) : Prop := ∀ record, s'.eval record = s.eval record

/-- Arguments that are rewritten one by one. -/
theorem forall₂_map {f : Scalar → Scalar} {args : List Scalar}
    (h : ∀ a ∈ args, (f a).eval record = a.eval record) :
    List.Forall₂ (fun a b => a.eval record = b.eval record) (args.map f) args := by
  rw [List.forall₂_map_left_iff, List.forall₂_same]
  exact h

theorem stripCache_same (s : Scalar) : SameValue s (stripCache s) := by
  intro record
  induction s using Scalar.induction with
  | field id t => rfl
  | value v t => rfl
  | coalesce args t ih =>
      rw [stripCache, Scalar.eval, Scalar.eval, stripCacheAll_eq,
        Scalar.evalFirst_congr (forall₂_map ih)]
  | fnCall f args t ih =>
      rw [stripCache, Scalar.eval, Scalar.eval, stripCacheAll_eq,
        Scalar.evalAll_congr (forall₂_map ih)]
  | cached s t ih =>
      rw [stripCache, Scalar.eval]
      exact ih

theorem wrap_eval {expression s descended : Scalar}
    (h : descended.eval record = s.eval record) :
    (wrap expression s descended).eval record = s.eval record := by
  unfold wrap
  split
  · rw [Scalar.eval]
  · exact h

theorem cacheExpression_same (expression s : Scalar) :
    SameValue s (cacheExpression expression s) := by
  intro record
  induction s using Scalar.induction with
  | field id t => rfl
  | value v t => rfl
  | coalesce args t ih =>
      rw [cacheExpression]
      refine wrap_eval ?_
      rw [Scalar.eval, Scalar.eval, cacheExpressionAll_eq, Scalar.evalFirst_congr (forall₂_map ih)]
  | fnCall f args t ih =>
      rw [cacheExpression]
      refine wrap_eval ?_
      rw [Scalar.eval, Scalar.eval, cacheExpressionAll_eq, Scalar.evalAll_congr (forall₂_map ih)]
  | cached s t ih =>
      rw [cacheExpression]
      refine wrap_eval ?_
      rw [Scalar.eval, Scalar.eval]
      exact ih

/-- Scopes whose scalars have the same values. -/
def SameValues {α : Type} (scope : Scope α) (a a' : α) : Prop :=
  List.Forall₂ SameValue (scope.scalars a) (scope.scalars a')

variable {α : Type} {scope : Scope α} {settings : OptimizerSettings}

/-- What a rewriting of scalars to scalars with the same values keeps of a scope. -/
structure Kept (scope : Scope α) (Q : α → α → Prop) : Prop where
  refl : ∀ a, Q a a
  trans : ∀ a a' a'', Q a a' → Q a' a'' → Q a a''
  map : ∀ f : Scalar → Scalar, (∀ s, SameValue s (f s)) → ∀ a, Q a (scope.map f a)

theorem sameValues_kept (scope : Scope α) : Kept scope (SameValues scope) where
  refl _ := List.forall₂_same.mpr fun _ _ _ => rfl
  trans _ _ _ h h' := forall₂_comp (fun _ _ _ hs hs' record => (hs' record).trans (hs record)) h h'
  map f hf a := by
    rw [SameValues, scope.scalars_map, List.forall₂_map_right_iff]
    exact List.forall₂_same.mpr fun s _ => hf s

variable {Q : α → α → Prop}

/-- What the loop keeps, whatever it decides for an expression. -/
theorem cacheRepeated_kept (hQ : Kept scope Q) {es : List RepeatedExpression} {cost : Int} {a a' : α}
    (h : cacheRepeated settings scope es cost a = .ok a') : Q a a' := by
  induction es generalizing cost a with
  | nil =>
      cases h
      exact hQ.refl _
  | cons e es ih =>
      rw [cacheRepeated] at h
      split at h
      · obtain ⟨candidateCost, -, h⟩ := bind_eq_ok.mp h
        split at h
        · exact hQ.trans _ _ _ (hQ.map _ (cacheExpression_same e.scalar) a) (ih h)
        · exact ih h
      · exact ih h

section Hashed

variable [DescriptionHash]

theorem buildCache_kept (hQ : Kept scope Q) {a a' : α}
    (h : buildCache settings scope a = .ok a') : Q a a' := by
  obtain ⟨estimator, -, h⟩ := bind_eq_ok.mp h
  obtain ⟨expressions, -, h⟩ := bind_eq_ok.mp h
  exact cacheRepeated_kept hQ h

theorem updateCache_kept (hQ : Kept scope Q) {a a' : α} {b b' : Bool}
    (h : updateCache settings scope a b = .ok (a', b')) : Q a a' := by
  obtain ⟨currentCost, b₁, -, h⟩ := Pass.bind_ok.mp h
  obtain ⟨candidate, b₂, hbuild, h⟩ := Pass.bind_ok.mp h
  obtain ⟨candidateCost, b₃, -, h⟩ := Pass.bind_ok.mp h
  split at h
  · cases h
    exact hQ.trans _ _ _ (hQ.map _ stripCache_same a) (buildCache_kept hQ (Pass.lift_ok.mp hbuild).1)
  · cases h
    exact hQ.refl _

/-- **The pass changes no value**: what it leaves in a scope has the values of what it found. -/
theorem updateCache_same {a a' : α} {b b' : Bool}
    (h : updateCache settings scope a b = .ok (a', b')) : SameValues scope a a' :=
  updateCache_kept (sameValues_kept scope) h

end Hashed

/-! ### What is kept of the scopes of the nodes -/

/-- Projectors of the same field with the same value. -/
structure SameProjector (p p' : Projector) : Prop where
  field : p'.aliasFieldId = p.aliasFieldId
  expr : SameValue p.expr p'.expr

theorem projectors_kept : Kept projectors (List.Forall₂ SameProjector) where
  refl _ := List.forall₂_same.mpr fun _ _ => ⟨rfl, fun _ => rfl⟩
  trans _ _ _ h h' := forall₂_comp (fun _ _ _ hp hp' => ⟨hp'.field.trans hp.field, fun record =>
    (hp'.expr record).trans (hp.expr record)⟩) h h'
  map f hf ps := by
    refine List.forall₂_map_right_iff.mpr (List.forall₂_same.mpr fun p _ => ?_)
    exact ⟨rfl, hf p.expr⟩

theorem condition_kept : Kept condition SameValue where
  refl _ _ := rfl
  trans _ _ _ h h' record := (h' record).trans (h record)
  map _ hf s := hf s

/-- Aggregates of the same field whose arguments have the same values. -/
inductive SameAggregate : Aggregate → Aggregate → Prop
  | const (v : Value) (nullIfEmpty : Bool) (id : FieldId) (t : ValueType) :
      SameAggregate ⟨.const v nullIfEmpty, id, t⟩ ⟨.const v nullIfEmpty, id, t⟩
  | fnCall (f : Function) (id : FieldId) (t : ValueType) {args args' : List Scalar} :
      List.Forall₂ SameValue args args' →
      SameAggregate ⟨.fnCall f args, id, t⟩ ⟨.fnCall f args', id, t⟩

theorem SameAggregate.map {f : Scalar → Scalar} (hf : ∀ s, SameValue s (f s)) (a : Aggregate) :
    SameAggregate a (mapAggregate f a) := by
  obtain ⟨node, id, t⟩ := a
  cases node with
  | const v nullIfEmpty => exact .const v nullIfEmpty id t
  | fnCall g args =>
      exact .fnCall g id t (List.forall₂_map_right_iff.mpr (List.forall₂_same.mpr fun s _ => hf s))

theorem SameAggregate.refl (a : Aggregate) : SameAggregate a a := by
  obtain ⟨node, id, t⟩ := a
  cases node with
  | const v nullIfEmpty => exact .const v nullIfEmpty id t
  | fnCall g args => exact .fnCall g id t (List.forall₂_same.mpr fun _ _ _ => rfl)

theorem SameAggregate.trans {a b c : Aggregate} (h : SameAggregate a b) (h' : SameAggregate b c) :
    SameAggregate a c := by
  cases h with
  | const v nullIfEmpty id t => exact h'
  | fnCall g id t hargs =>
      cases h' with
      | fnCall _ _ _ hargs' =>
          exact .fnCall g id t (forall₂_comp (fun _ _ _ hs hs' record =>
            (hs' record).trans (hs record)) hargs hargs')

theorem aggregates_kept : Kept aggregates (List.Forall₂ SameAggregate) where
  refl _ := List.forall₂_same.mpr fun a _ => .refl a
  trans _ _ _ h h' := forall₂_comp (fun _ _ _ ha ha' => ha.trans ha') h h'
  map _ hf _ := List.forall₂_map_right_iff.mpr (List.forall₂_same.mpr fun a _ => .map hf a)

end Values

end Lsql.Opt.ScalarCache
