import Lsql.Core.Accepts
import Lsql.Opt.Traversal

/-!
# Lsql.Opt.ConstScalarFold

The pass that folds calls over constants (`optimize/const_scalar_fold.cpp`).

A call whose arguments are all constants, or have become so, is executed when the query is optimized
and replaced by its result. The result is exact. But the call is executed whether or not a record will
ever need it, and if the function does not answer on its arguments the pass ends with the function's
exception: a program is folded if and only if every call over constants in it is one that its function
accepts (`AcceptsConstants`).
-/

namespace Lsql.Opt.ConstScalarFold

open Ir
open Pass (CompletesIff)

/-! ### The pass -/

/-- The values of arguments that are all `ValueScalar`. -/
def constants : List Scalar → Option (List Value)
  | [] => some []
  | .value v _ :: args => (constants args).map fun vs => v :: vs
  | _ :: _ => none

/-- `Optimizer::optimize`. -/
def optimize [Platform] (function : Function) (args : List Scalar) (valueType : ValueType) : Pass Scalar :=
  if !function.isScalar then pure (.fnCall function args valueType)
  else
    match constants args with
    | none => pure (.fnCall function args valueType)
    | some values => do
      let executor ← liftM (buildScalar function)
      Pass.setChanges
      let result ← liftM (executor.execute values)
      pure (.value result valueType)

section Visit

variable [Platform]

mutual

/-- `visit(ir::Scalar&)`. -/
def visit : Scalar → Pass Scalar
  | .field id t => pure (.field id t)
  | .value v t => pure (.value v t)
  | .coalesce args t => do
    let args ← visitAll args
    pure (.coalesce args t)
  | .fnCall f args t => do
    let args ← visitAll args
    optimize f args t
  | .cached s t => do
    let s ← visit s
    pure (.cached s t)

def visitAll : List Scalar → Pass (List Scalar)
  | [] => pure []
  | a :: as => do
    let a ← visit a
    let as ← visitAll as
    pure (a :: as)

end

end Visit

/-! ### Calls over constants -/

mutual

/-- A constant, or a call over constants. -/
def isConstant : Scalar → Bool
  | .value _ _ => true
  | .fnCall f args _ => f.isScalar && areConstant args
  | .field _ _ | .coalesce _ _ | .cached _ _ => false

def areConstant : List Scalar → Bool
  | [] => true
  | a :: as => isConstant a && areConstant as

end

variable [Platform]

/-- The record that a scalar without fields is evaluated on. -/
def noRecord : FieldId → Except Fault Value := fun _ => .ok .null

mutual

/-- Every call over constants in a scalar is one that its function accepts. -/
def AcceptsConstants : Scalar → Prop
  | .field _ _ | .value _ _ => True
  | .coalesce args _ => AllAcceptConstants args
  | .fnCall f args _ => AllAcceptConstants args ∧ (f.isScalar = true → areConstant args = true →
      ∀ vs, Scalar.evalAll noRecord args = .ok vs → f.Accepts vs)
  | .cached s _ => AcceptsConstants s

def AllAcceptConstants : List Scalar → Prop
  | [] => True
  | a :: as => AcceptsConstants a ∧ AllAcceptConstants as

end

/-! ### What a fold makes -/

mutual

/-- A scalar in which some calls have been replaced by what they evaluate to on every record. -/
inductive Folded : Scalar → Scalar → Prop
  | field (id : FieldId) (t : ValueType) : Folded (.field id t) (.field id t)
  | value (v : Value) (t : ValueType) : Folded (.value v t) (.value v t)
  | coalesce {args args' : List Scalar} (t : ValueType) : AllFolded args args' →
      Folded (.coalesce args t) (.coalesce args' t)
  | fnCall {args args' : List Scalar} (f : Function) (t : ValueType) : AllFolded args args' →
      Folded (.fnCall f args t) (.fnCall f args' t)
  | cached {s s' : Scalar} (t : ValueType) : Folded s s' → Folded (.cached s t) (.cached s' t)
  | constant {f : Function} {args : List Scalar} {v : Value} (t : ValueType) :
      (∀ record, (Scalar.fnCall f args t).eval record = .ok v) →
      Folded (.fnCall f args t) (.value v t)

inductive AllFolded : List Scalar → List Scalar → Prop
  | nil : AllFolded [] []
  | cons {a a' : Scalar} {as as' : List Scalar} : Folded a a' → AllFolded as as' →
      AllFolded (a :: as) (a' :: as')

end

mutual

theorem Folded.eval_eq {s s' : Scalar} (h : Folded s s') (record : FieldId → Except Fault Value) :
    s'.eval record = s.eval record := by
  cases h with
  | field id t => rfl
  | value v t => rfl
  | coalesce t hargs =>
      rw [Scalar.eval, Scalar.eval]
      exact Scalar.evalFirst_congr (hargs.eval_eq record)
  | fnCall f t hargs => rw [Scalar.eval, Scalar.eval, Scalar.evalAll_congr (hargs.eval_eq record)]
  | cached t hs => exact hs.eval_eq record
  | constant t hv => exact (hv record).symm

theorem AllFolded.eval_eq {as as' : List Scalar} (h : AllFolded as as')
    (record : FieldId → Except Fault Value) :
    List.Forall₂ (fun a' a => a'.eval record = a.eval record) as' as := by
  cases h with
  | nil => exact .nil
  | cons ha has => exact .cons (ha.eval_eq record) (has.eval_eq record)

end

theorem AllFolded.evalAll_eq {as as' : List Scalar} (h : AllFolded as as')
    (record : FieldId → Except Fault Value) :
    Scalar.evalAll record as' = Scalar.evalAll record as :=
  Scalar.evalAll_congr (h.eval_eq record)

theorem Folded.valueType_eq {s s' : Scalar} (h : Folded s s') : s'.valueType = s.valueType := by
  cases h <;> rfl

/-! ### One scalar -/

theorem constants_eq_some {args : List Scalar} {vs : List Value} (h : constants args = some vs)
    (record : FieldId → Except Fault Value) : Scalar.evalAll record args = .ok vs := by
  induction args generalizing vs with
  | nil =>
      cases h
      rfl
  | cons a args ih =>
      cases a with
      | value v t =>
          obtain ⟨us, hus, rfl⟩ := Option.map_eq_some_iff.mp h
          rw [Scalar.evalAll, Scalar.eval, ih hus]
          rfl
      | _ => cases h

/-- What is known of a scalar after its fold: it has become a constant if it was made of constants. -/
structure FoldOf (s s' : Scalar) : Prop where
  folded : Folded s s'
  constant_iff : (∃ v t, s' = .value v t) ↔ isConstant s = true

structure FoldsOf (as as' : List Scalar) : Prop where
  folded : AllFolded as as'
  constant_iff : (∃ vs, constants as' = some vs) ↔ areConstant as = true

omit [Platform] in
theorem constant_iff_of_not {s s' : Scalar} (hs' : ∀ v t, s' ≠ .value v t)
    (hs : isConstant s = false) : (∃ v t, s' = .value v t) ↔ isConstant s = true := by
  refine iff_of_false (fun h => ?_) (by simp [hs])
  obtain ⟨v, t, h⟩ := h
  exact hs' v t h

/-- The call is executed, whatever becomes of it. -/
theorem execute_eq (f : Function) (values : List Value) (t : ValueType) (b : Bool) :
    (do
      let executor ← liftM (buildScalar f)
      Pass.setChanges
      let result ← liftM (executor.execute values)
      pure (.value result t) : Pass Scalar) b =
      (f.apply values).map fun v => (.value v t, true) := by
  rw [Function.apply]
  cases buildScalar f with
  | error e => rfl
  | ok executor =>
      rw [ok_bind]
      show (do
        Pass.setChanges
        let result ← liftM (executor.execute values)
        pure (.value result t) : Pass Scalar) b = _
      cases executor.execute values <;> rfl

theorem execute_completesIff {f : Function} {values : List Value} {t : ValueType}
    {R : Scalar → Prop} (hR : ∀ v, f.apply values = .ok v → R (.value v t)) :
    CompletesIff (do
      let executor ← liftM (buildScalar f)
      Pass.setChanges
      let result ← liftM (executor.execute values)
      pure (.value result t)) (f.Accepts values) R := by
  intro b
  rw [execute_eq, ← Function.answers_apply]
  cases happly : f.apply values with
  | error e =>
      refine ⟨fun h => absurd h (not_answers_error e), fun r hr => ?_⟩
      cases hr
  | ok v => exact ⟨fun _ => ⟨_, _, rfl, hR v happly⟩, fun _ _ => answers_ok v⟩

theorem optimize_completesIff {f : Function} {args args' : List Scalar} {t : ValueType}
    (hargs : FoldsOf args args') :
    CompletesIff (optimize f args' t) (f.isScalar = true → areConstant args = true →
      ∀ vs, Scalar.evalAll noRecord args = .ok vs → f.Accepts vs) (FoldOf (.fnCall f args t)) := by
  have hkept : isConstant (.fnCall f args t) = false →
      FoldOf (.fnCall f args t) (.fnCall f args' t) := by
    intro hconst
    refine ⟨.fnCall f t hargs.folded, constant_iff_of_not (fun v u h => ?_) hconst⟩
    cases h
  rw [optimize]
  cases hscalar : f.isScalar with
  | false =>
      rw [Bool.not_false, if_pos rfl]
      refine (CompletesIff.pure (hkept ?_)).congr (iff_of_true ?_ trivial) fun _ h => h
      · rw [isConstant, hscalar, Bool.false_and]
      · intro h
        cases h
  | true =>
      rw [Bool.not_true, if_neg Bool.false_ne_true]
      cases hvalues : constants args' with
      | none =>
          have hconst : areConstant args = false := by
            rw [← Bool.not_eq_true, ← hargs.constant_iff, hvalues]
            simp
          refine (CompletesIff.pure (hkept ?_)).congr (iff_of_true ?_ trivial) fun _ h => h
          · rw [isConstant, hconst, Bool.and_false]
          · intro _ h
            rw [hconst] at h
            cases h
      | some values =>
          have hconst : areConstant args = true := hargs.constant_iff.mp ⟨values, hvalues⟩
          have heval : ∀ record, Scalar.evalAll record args = .ok values := fun record =>
            (hargs.folded.evalAll_eq record).symm.trans (constants_eq_some hvalues record)
          refine (execute_completesIff (R := FoldOf (.fnCall f args t)) fun v hv => ?_).congr ?_
            fun _ h => h
          · refine ⟨.constant t fun record => ?_, iff_of_true ⟨v, t, rfl⟩ ?_⟩
            · rw [Scalar.eval, heval record, ok_bind, hv]
            · rw [isConstant, hscalar, hconst, Bool.and_self]
          · constructor
            · exact fun h => h rfl hconst values (heval noRecord)
            · intro h _ _ vs hvs
              cases (heval noRecord).symm.trans hvs
              exact h

mutual

/-- **One scalar is folded if and only if its calls over constants are accepted.** -/
theorem visit_completesIff : ∀ s : Scalar,
    CompletesIff (visit s) (AcceptsConstants s) (FoldOf s)
  | .field id t => by
      refine (CompletesIff.pure ⟨.field id t, constant_iff_of_not (fun v u h => ?_) rfl⟩).congr .rfl
        fun _ h => h
      cases h
  | .value v t =>
      (CompletesIff.pure ⟨.value v t, iff_of_true ⟨v, t, rfl⟩ rfl⟩).congr .rfl fun _ h => h
  | .coalesce args t => by
      refine (visitAll_completesIff args).map fun args' h =>
        ⟨.coalesce t h.folded, constant_iff_of_not (fun v u h => ?_) rfl⟩
      cases h
  | .fnCall f args t => (visitAll_completesIff args).bind fun args' h => optimize_completesIff h
  | .cached s t => by
      refine (visit_completesIff s).map fun s' h =>
        ⟨.cached t h.folded, constant_iff_of_not (fun v u h => ?_) rfl⟩
      cases h

theorem visitAll_completesIff : ∀ as : List Scalar,
    CompletesIff (visitAll as) (AllAcceptConstants as) (FoldsOf as)
  | [] => (CompletesIff.pure ⟨.nil, iff_of_true ⟨[], rfl⟩ rfl⟩).congr .rfl fun _ h => h
  | a :: as => by
      refine (visit_completesIff a).bind fun a' ha => ?_
      refine (visitAll_completesIff as).map fun as' has => ⟨.cons ha.folded has.folded, ?_⟩
      rw [areConstant, Bool.and_eq_true, ← ha.constant_iff, ← has.constant_iff]
      constructor
      · intro h
        obtain ⟨vs, hvs⟩ := h
        cases a' with
        | value v t =>
            obtain ⟨us, hus, rfl⟩ := Option.map_eq_some_iff.mp hvs
            exact ⟨⟨v, t, rfl⟩, us, hus⟩
        | _ => cases hvs
      · intro h
        obtain ⟨⟨v, t, rfl⟩, us, hus⟩ := h
        exact ⟨v :: us, by rw [constants, hus]; rfl⟩

end

/-! ### The scalars of a relation -/

/-- `visit` of a projector. -/
def visitProjector (p : Projector) : Pass Projector := do
  let expr ← visit p.expr
  pure { p with expr }

/-- `visit` of an aggregate. -/
def visitAggregate (a : Aggregate) : Pass Aggregate :=
  match a.node with
  | .const _ _ => pure a
  | .fnCall f args => do
    let args ← visitAll args
    pure { a with node := .fnCall f args }

/-- `Base::visit` of a relation, past its sources. -/
def visitNode : Relation → Pass Relation
  | .projection r ps s => do
    let ps ← Pass.each visitProjector ps
    pure (.projection r ps s)
  | .aggregate r as s => do
    let as ← Pass.each visitAggregate as
    pure (.aggregate r as s)
  | .group r as ks s => do
    let as ← Pass.each visitAggregate as
    let ks ← Pass.each visitProjector ks
    pure (.group r as ks s)
  | .filter r c s => do
    let c ← visit c
    pure (.filter r c s)
  | .sort r ks desc s => do
    let ks ← visitAll ks
    pure (.sort r ks desc s)
  | .topK r ks desc n s => do
    let ks ← visitAll ks
    pure (.topK r ks desc n s)
  | .semiJoin r m e f s => do
    let e ← visit e
    pure (.semiJoin r m e f s)
  | .markJoin r m e o f s => do
    let e ← visit e
    pure (.markJoin r m e o f s)
  | .leftJoin l r lk rk s => do
    let lk ← visit lk
    let rk ← visit rk
    pure (.leftJoin l r lk rk s)
  | .unionAllSortedBy l r ks desc s => do
    let ks ← visitAll ks
    pure (.unionAllSortedBy l r ks desc s)
  | self => pure self

/-- `constScalarFold`. -/
def constScalarFold (program : Program) : Except Fault Program :=
  (Opt.visitProgram visitNode program).result

/-! ### When a program is folded -/

/-- The calls over constants in an aggregate. -/
def AggregateAccepts (a : Aggregate) : Prop :=
  match a.node with
  | .const _ _ => True
  | .fnCall _ args => AllAcceptConstants args

/-- The calls over constants in a relation, its sources apart. -/
def NodeAccepts : Relation → Prop
  | .projection _ ps _ => ∀ p ∈ ps, AcceptsConstants p.expr
  | .aggregate _ as _ => ∀ a ∈ as, AggregateAccepts a
  | .group _ as ks _ => (∀ a ∈ as, AggregateAccepts a) ∧ ∀ k ∈ ks, AcceptsConstants k.expr
  | .filter _ c _ => AcceptsConstants c
  | .sort _ ks _ _ | .topK _ ks _ _ _ | .unionAllSortedBy _ _ ks _ _ => AllAcceptConstants ks
  | .semiJoin _ _ e _ _ | .markJoin _ _ e _ _ _ => AcceptsConstants e
  | .leftJoin _ _ lk rk _ => AcceptsConstants lk ∧ AcceptsConstants rk
  | .empty _ | .values _ _ _ | .limit _ _ _ | .unionAll _ _ | .file _ _ _ _ | .stream _ _
  | .namedRelationReference _ _ | .materialize _ _ => True

/-- The calls over constants in a program. -/
def ProgramAccepts (program : Program) : Prop :=
  ∀ s ∈ program.statements, (relationOf s).Everywhere NodeAccepts

/-! ### What is folded -/

/-- A projector whose expression is folded. -/
def FoldedProjector (p p' : Projector) : Prop :=
  p'.aliasFieldId = p.aliasFieldId ∧ Folded p.expr p'.expr

/-- An aggregate whose arguments are folded. -/
inductive FoldedAggregate : Aggregate → Aggregate → Prop
  | const (v : Value) (nullIfEmpty : Bool) (id : FieldId) (t : ValueType) :
      FoldedAggregate ⟨.const v nullIfEmpty, id, t⟩ ⟨.const v nullIfEmpty, id, t⟩
  | fnCall {args args' : List Scalar} (f : Function) (id : FieldId) (t : ValueType) :
      AllFolded args args' → FoldedAggregate ⟨.fnCall f args, id, t⟩ ⟨.fnCall f args', id, t⟩

/-- A relation whose own scalars are folded. -/
inductive FoldedNode : Relation → Relation → Prop
  | projection {ps ps' : List Projector} (r : Relation) (s : Schema) :
      List.Forall₂ FoldedProjector ps ps' → FoldedNode (.projection r ps s) (.projection r ps' s)
  | aggregate {as as' : List Aggregate} (r : Relation) (s : Schema) :
      List.Forall₂ FoldedAggregate as as' → FoldedNode (.aggregate r as s) (.aggregate r as' s)
  | group {as as' : List Aggregate} {ks ks' : List Projector} (r : Relation) (s : Schema) :
      List.Forall₂ FoldedAggregate as as' → List.Forall₂ FoldedProjector ks ks' →
      FoldedNode (.group r as ks s) (.group r as' ks' s)
  | filter {c c' : Scalar} (r : Relation) (s : Schema) : Folded c c' →
      FoldedNode (.filter r c s) (.filter r c' s)
  | sort {ks ks' : List Scalar} (r : Relation) (desc : Bool) (s : Schema) : AllFolded ks ks' →
      FoldedNode (.sort r ks desc s) (.sort r ks' desc s)
  | topK {ks ks' : List Scalar} (r : Relation) (desc : Bool) (n : Int) (s : Schema) :
      AllFolded ks ks' → FoldedNode (.topK r ks desc n s) (.topK r ks' desc n s)
  | semiJoin {e e' : Scalar} (r m : Relation) (f : FieldId) (s : Schema) : Folded e e' →
      FoldedNode (.semiJoin r m e f s) (.semiJoin r m e' f s)
  | markJoin {e e' : Scalar} (r m : Relation) (o f : FieldId) (s : Schema) : Folded e e' →
      FoldedNode (.markJoin r m e o f s) (.markJoin r m e' o f s)
  | leftJoin {lk lk' rk rk' : Scalar} (l r : Relation) (s : Schema) : Folded lk lk' →
      Folded rk rk' → FoldedNode (.leftJoin l r lk rk s) (.leftJoin l r lk' rk' s)
  | unionAllSortedBy {ks ks' : List Scalar} (l r : Relation) (desc : Bool) (s : Schema) :
      AllFolded ks ks' →
      FoldedNode (.unionAllSortedBy l r ks desc s) (.unionAllSortedBy l r ks' desc s)
  | other (r : Relation) : FoldedNode r r

/-- A relation that is folded, sources and all. -/
inductive FoldedRelation : Relation → Relation → Prop
  | node {r r' : Relation} {qs : List Relation} : List.Forall₂ FoldedRelation r.sources qs →
      FoldedNode (r.withSources qs) r' → FoldedRelation r r'

theorem visitProjector_completesIff (p : Projector) :
    CompletesIff (visitProjector p) (AcceptsConstants p.expr) (FoldedProjector p) :=
  (visit_completesIff p.expr).map fun _ h => ⟨rfl, h.folded⟩

theorem visitAggregate_completesIff (a : Aggregate) :
    CompletesIff (visitAggregate a) (AggregateAccepts a) (FoldedAggregate a) := by
  obtain ⟨node, id, t⟩ := a
  cases node with
  | const v nullIfEmpty => exact .pure (.const v nullIfEmpty id t)
  | fnCall f args => exact (visitAll_completesIff args).map fun _ h => .fnCall f id t h.folded

theorem visitNode_completesIff (r : Relation) :
    CompletesIff (visitNode r) (NodeAccepts r) (FoldedNode r) := by
  cases r with
  | projection r ps s =>
      exact (Pass.each_completesIff fun p _ => visitProjector_completesIff p).map fun _ h => .projection r s h
  | aggregate r as s =>
      exact (Pass.each_completesIff fun a _ => visitAggregate_completesIff a).map fun _ h => .aggregate r s h
  | group r as ks s =>
      exact (Pass.each_completesIff fun a _ => visitAggregate_completesIff a).bind fun _ has =>
        (Pass.each_completesIff fun p _ => visitProjector_completesIff p).map fun _ hks => .group r s has hks
  | filter r c s => exact (visit_completesIff c).map fun _ h => .filter r s h.folded
  | sort r ks desc s => exact (visitAll_completesIff ks).map fun _ h => .sort r desc s h.folded
  | topK r ks desc n s => exact (visitAll_completesIff ks).map fun _ h => .topK r desc n s h.folded
  | semiJoin r m e f s => exact (visit_completesIff e).map fun _ h => .semiJoin r m f s h.folded
  | markJoin r m e o f s => exact (visit_completesIff e).map fun _ h => .markJoin r m o f s h.folded
  | leftJoin l r lk rk s =>
      exact (visit_completesIff lk).bind fun _ hlk =>
        (visit_completesIff rk).map fun _ hrk => .leftJoin l r s hlk.folded hrk.folded
  | unionAllSortedBy l r ks desc s =>
      exact (visitAll_completesIff ks).map fun _ h => .unionAllSortedBy l r desc s h.folded
  | _ => exact .pure (.other _)

theorem nodeAccepts_withSources (r : Relation) (qs : List Relation) :
    NodeAccepts (r.withSources qs) ↔ NodeAccepts r := by
  unfold Relation.withSources
  split <;> exact .rfl

omit [Platform] in
theorem everywhere_iff {P : Relation → Prop} {r : Relation} :
    r.Everywhere P ↔ (∀ q ∈ r.sources, q.Everywhere P) ∧ P r := by
  constructor
  · exact fun h => ⟨fun q hq => h.source hq, h.here⟩
  · exact fun h => .node h.2 h.1

/-- **A relation is folded if and only if its calls over constants are accepted.** -/
theorem visitRelation_completesIff (r : Relation) :
    CompletesIff (Opt.visit visitNode r) (r.Everywhere NodeAccepts) (FoldedRelation r) := by
  have heach : ∀ qs, Opt.visitAll visitNode qs = Pass.each (Opt.visit visitNode) qs := by
    intro qs
    induction qs with
    | nil => rfl
    | cons q qs ih => rw [Opt.visitAll, Pass.each, ih]
  induction r using Relation.induction with
  | h r ih =>
      rw [Opt.visit_eq, heach, everywhere_iff]
      refine (Pass.each_completesIff ih).bind fun qs hqs => ?_
      exact (visitNode_completesIff _).congr (nodeAccepts_withSources r qs).symm
        fun r' hr' => .node hqs hr'

/-- A statement whose relation is folded. -/
inductive FoldedStatement : Statement → Statement → Prop
  | namedRelation {r r' : Relation} (name : String) : FoldedRelation r r' →
      FoldedStatement (.namedRelation name r) (.namedRelation name r')
  | query {r r' : Relation} : FoldedRelation r r' → FoldedStatement (.query r) (.query r')

/-- A program whose statements are folded. -/
structure FoldedProgram (p p' : Program) : Prop where
  statements : List.Forall₂ FoldedStatement p.statements p'.statements
  fieldBinding : p'.fieldBinding = p.fieldBinding

theorem visitProgram_completesIff (program : Program) :
    CompletesIff (Opt.visitProgram visitNode program) (ProgramAccepts program)
      (FoldedProgram program) := by
  have heach : ∀ ss, Opt.visitStatements visitNode ss =
      Pass.each (Opt.visitStatement visitNode) ss := by
    intro ss
    induction ss with
    | nil => rfl
    | cons s ss ih => rw [Opt.visitStatements, Pass.each, ih]
  have hstatement : ∀ s, CompletesIff (Opt.visitStatement visitNode s)
      ((relationOf s).Everywhere NodeAccepts) (FoldedStatement s) := by
    intro s
    cases s with
    | namedRelation name r =>
        exact (visitRelation_completesIff r).map fun _ h => .namedRelation name h
    | query r => exact (visitRelation_completesIff r).map fun _ h => .query h
  rw [Opt.visitProgram, heach]
  exact (Pass.each_completesIff fun s _ => hstatement s).map fun _ h => ⟨h, rfl⟩

/-! ### What a folded program answers -/

theorem projectorExprs_folded {ps ps' : List Projector} (h : List.Forall₂ FoldedProjector ps ps') :
    AllFolded (ps.map Projector.expr) (ps'.map Projector.expr) := by
  induction h with
  | nil => exact .nil
  | cons hp _ ih => exact .cons hp.2 ih

theorem projectorAliases_folded {ps ps' : List Projector}
    (h : List.Forall₂ FoldedProjector ps ps') :
    ps'.map Projector.aliasFieldId = ps.map Projector.aliasFieldId := by
  induction h with
  | nil => rfl
  | cons hp _ ih => rw [List.map_cons, List.map_cons, hp.1, ih]

theorem projectRow_folded {ps ps' : List Projector} (h : List.Forall₂ FoldedProjector ps ps') :
    projectRow ps' = projectRow ps := by
  funext row
  rw [projectRow, projectRow, (projectorExprs_folded h).evalAll_eq, projectorAliases_folded h]

theorem keyOf_folded {ks ks' : List Scalar} (h : AllFolded ks ks') : keyOf ks' = keyOf ks := by
  funext row
  exact h.evalAll_eq row.record

theorem filterRow_folded {c c' : Scalar} (h : Folded c c') : filterRow c' = filterRow c := by
  funext row
  rw [filterRow, filterRow, Scalar.test, Scalar.test, h.eval_eq]

theorem semiJoinRow_folded {e e' : Scalar} (h : Folded e e') : semiJoinRow e' = semiJoinRow e := by
  funext values row
  rw [semiJoinRow, semiJoinRow, h.eval_eq]

theorem markJoinRow_folded {e e' : Scalar} (h : Folded e e') : markJoinRow e' = markJoinRow e := by
  funext o values row
  rw [markJoinRow, markJoinRow, h.eval_eq]

theorem leftJoinRow_folded {lk lk' : Scalar} (h : Folded lk lk') :
    leftJoinRow lk' = leftJoinRow lk := by
  funext right rows row
  rw [leftJoinRow, leftJoinRow, h.eval_eq]

theorem evalRow_folded {s s' : Scalar} (h : Folded s s') :
    (fun row : Row => s'.eval row.record) = fun row : Row => s.eval row.record := by
  funext row
  exact h.eval_eq row.record

theorem feedRows_folded {args args' : List Scalar} (h : AllFolded args args')
    (state : FnAggregator) (rows : List Row) : feedRows args' state rows = feedRows args state rows := by
  have harg : aggregateArg args' = aggregateArg args := by
    funext row
    cases h with
    | nil => rfl
    | cons ha _ => exact ha.eval_eq row.record
  induction rows generalizing state with
  | nil => rfl
  | cons row rows ih =>
      rw [feedRows, feedRows, harg]
      simp only [ih]

theorem over_folded {a a' : Aggregate} (h : FoldedAggregate a a') (rows : List Row) :
    a'.over rows = a.over rows := by
  cases h with
  | const v nullIfEmpty id t => rfl
  | fnCall f id t hargs => simp only [Aggregate.over, feedRows_folded hargs]

theorem aggregatesOver_folded {as as' : List Aggregate} (h : List.Forall₂ FoldedAggregate as as') :
    aggregatesOver as' = aggregatesOver as := by
  funext rows
  induction h with
  | nil => rfl
  | cons ha _ ih =>
      rw [aggregatesOver] at ih ⊢
      rw [List.mapM_cons, aggregatesOver, List.mapM_cons, over_folded ha, ih]
      rfl

theorem outputFieldIds_folded {as as' : List Aggregate}
    (h : List.Forall₂ FoldedAggregate as as') :
    as'.map Aggregate.outputFieldId = as.map Aggregate.outputFieldId := by
  induction h with
  | nil => rfl
  | cons ha _ ih =>
      rw [List.map_cons, List.map_cons, ih]
      cases ha <;> rfl

theorem groupRow_folded {as as' : List Aggregate} {ks ks' : List Projector}
    (has : List.Forall₂ FoldedAggregate as as') (hks : List.Forall₂ FoldedProjector ks ks') :
    groupRow as' ks' = groupRow as ks := by
  funext g
  rw [groupRow, groupRow, aggregatesOver_folded has, outputFieldIds_folded has,
    projectorAliases_folded hks]

theorem sorts_folded {ks ks' : List Scalar} (h : AllFolded ks ks') {desc : Bool}
    {s u : List Item} : Sorts ks' desc s u ↔ Sorts ks desc s u := by
  have hkey := keyOf_folded h
  constructor
  · intro hs
    cases hs with
    | fault he => exact .fault (hkey ▸ he)
    | sorted hpairs hperm hord => exact .sorted (hkey ▸ hpairs) hperm hord
  · intro hs
    cases hs with
    | fault he => exact .fault (hkey.symm ▸ he)
    | sorted hpairs hperm hord => exact .sorted (hkey.symm ▸ hpairs) hperm hord

theorem groups_folded {as as' : List Aggregate} {ks ks' : List Projector}
    (has : List.Forall₂ FoldedAggregate as as') (hks : List.Forall₂ FoldedProjector ks ks')
    {s u : List Item} : Groups as' ks' s u ↔ Groups as ks s u := by
  have hkey := keyOf_folded (projectorExprs_folded hks)
  have hrow := groupRow_folded has hks
  constructor
  · intro h
    cases h with
    | fault he => exact .fault (hkey ▸ he)
    | groups hpairs hperm =>
        rw [hrow]
        exact .groups (hkey ▸ hpairs) hperm
  · intro h
    cases h with
    | fault he => exact .fault (hkey.symm ▸ he)
    | groups hpairs hperm =>
        rw [← hrow]
        exact .groups (hkey.symm ▸ hpairs) hperm

/-- The operator with folded scalars. -/
theorem step_folded {r r' : Relation} (h : FoldedNode r r') (env : Env) (ss : List (List Item))
    (u : List Item) : Step env r' ss u ↔ Step env r ss u := by
  rcases ss with _ | ⟨x, _ | ⟨y, _ | ⟨z, ss⟩⟩⟩
  · cases h <;> exact .rfl
  · cases h with
    | projection _ _ h => rw [Step, Step, projectRow_folded h]
    | aggregate _ _ h =>
        rw [Step, Step, aggregatesOver_folded h, outputFieldIds_folded h]
    | group _ _ has hks => exact groups_folded has hks
    | filter _ _ h => rw [Step, Step, filterRow_folded h]
    | sort _ _ _ h => exact sorts_folded h
    | topK _ _ _ _ h =>
        exact exists_congr fun w => and_congr_left fun _ => sorts_folded h
    | _ => exact .rfl
  · cases h with
    | semiJoin _ _ _ _ h => rw [Step, Step, semiJoinRow_folded h]
    | markJoin _ _ _ _ _ h => rw [Step, Step, markJoinRow_folded h]
    | leftJoin _ _ _ hl hr => rw [Step, Step, leftJoinRow_folded hl, evalRow_folded hr]
    | unionAllSortedBy _ _ _ _ h => rw [Step, Step, Merges, Merges, keyOf_folded h]
    | _ => exact .rfl
  · cases h <;> exact .rfl

theorem FoldedNode.sources_eq {r r' : Relation} (h : FoldedNode r r') :
    r'.sources = r.sources := by
  cases h <;> rfl

theorem FoldedNode.schema_eq {r r' : Relation} (h : FoldedNode r r') : r'.schema = r.schema := by
  cases h <;> rfl

theorem FoldedRelation.schema_eq {r r' : Relation} (h : FoldedRelation r r') :
    r'.schema = r.schema := by
  cases h with
  | node _ hnode => rw [hnode.schema_eq, Relation.schema_withSources]

/-- An operator looks at its sources only for the columns of the right side of a left join. -/
theorem step_withSources {r : Relation} {qs : List Relation}
    (h : List.Forall₂ FoldedRelation r.sources qs) (env : Env) (ss : List (List Item))
    (u : List Item) : Step env (r.withSources qs) ss u ↔ Step env r ss u := by
  cases r with
  | leftJoin l r lk rk s =>
      obtain ⟨l', r', rfl, -, hr⟩ := forall₂_two h
      rcases ss with _ | ⟨x, _ | ⟨y, _ | ⟨z, ss⟩⟩⟩
      · exact .rfl
      · exact .rfl
      · show Step env (.leftJoin l' r' lk rk s) [x, y] u ↔ _
        rw [Step, Step, hr.schema_eq]
      · exact .rfl
  | semiJoin | markJoin | unionAllSortedBy =>
      obtain ⟨q, q', rfl, -, -⟩ := forall₂_two h
      rcases ss with _ | ⟨x, _ | ⟨y, _ | ⟨z, ss⟩⟩⟩ <;> exact .rfl
  | unionAll rs s => exact .rfl
  | empty | values | file | stream | namedRelationReference =>
      cases h
      exact .rfl
  | projection | aggregate | group | limit | filter | sort | topK | materialize =>
      obtain ⟨q, rfl, -⟩ := forall₂_one h
      rcases ss with _ | ⟨x, _ | ⟨y, ss⟩⟩ <;> exact .rfl

/-- **A folded relation puts out what the relation puts out.** -/
theorem emits_folded {r r' : Relation} (h : FoldedRelation r r') (env : Env) (u : List Item) :
    Emits env r' u ↔ Emits env r u := by
  have hall : ∀ {rs qs : List Relation}, List.Forall₂ FoldedRelation rs qs →
      (∀ q ∈ rs, ∀ {q' : Relation}, FoldedRelation q q' → ∀ u, Emits env q' u ↔ Emits env q u) →
      ∀ ss, List.Forall₂ (Emits env) qs ss ↔ List.Forall₂ (Emits env) rs ss := by
    intro rs qs hqs
    induction hqs with
    | nil => exact fun _ _ => .rfl
    | cons hq _ ihqs =>
        intro ih ss
        have hhead := ih _ List.mem_cons_self hq
        have htail := ihqs fun p hp => ih p (List.mem_cons_of_mem _ hp)
        simp only [List.forall₂_cons_left_iff, hhead, htail]
  induction r using Relation.induction generalizing r' u with
  | h r ih =>
      cases h with
      | @node _ _ qs hqs hnode =>
          have hsources : r'.sources = qs :=
            hnode.sources_eq.trans (Relation.sources_withSources hqs.length_eq.symm)
          have hstep : ∀ ss, Step env r' ss u ↔ Step env r ss u := fun ss =>
            (step_folded hnode env ss u).trans (step_withSources hqs env ss u)
          have hsame := hall hqs fun q hq _ hq' u => ih q hq hq' u
          constructor
          · intro h
            obtain ⟨ss, hss, hu⟩ := h.inv
            rw [hsources] at hss
            exact .node ((hsame ss).mp hss) ((hstep ss).mp hu)
          · intro h
            obtain ⟨ss, hss, hu⟩ := h.inv
            refine .node ?_ ((hstep ss).mpr hu)
            rw [hsources]
            exact (hsame ss).mpr hss

theorem runs_folded {ss ss' : List Statement} (h : List.Forall₂ FoldedStatement ss ss') (env : Env)
    (us : List (List Item)) : Ir.Runs env ss' us ↔ Ir.Runs env ss us := by
  induction h generalizing env us with
  | nil =>
      constructor
      · intro h
        cases h
        exact .nil
      · intro h
        cases h
        exact .nil
  | cons hs _ ih =>
      constructor
      · intro h
        cases hs with
        | namedRelation name hr =>
            cases h with
            | namedRelation hu hus => exact .namedRelation ((emits_folded hr _ _).mp hu) ((ih _ _).mp hus)
        | query hr =>
            cases h with
            | query hu hus => exact .query ((emits_folded hr _ _).mp hu) ((ih _ _).mp hus)
      · intro h
        cases hs with
        | namedRelation name hr =>
            cases h with
            | namedRelation hu hus =>
                exact .namedRelation ((emits_folded hr _ _).mpr hu) ((ih _ _).mpr hus)
        | query hr =>
            cases h with
            | query hu hus => exact .query ((emits_folded hr _ _).mpr hu) ((ih _ _).mpr hus)

/-- What folding promises: it completes, every call that it replaces is replaced by what the call
evaluates to on every record, and the program answers what it answered. -/
def FoldsExactly (program : Program) : Prop :=
  ∃ program', constScalarFold program = .ok program' ∧ FoldedProgram program program' ∧
    ∀ data us, program'.Runs data us ↔ program.Runs data us

/-- **A program is folded exactly if and only if its calls over constants are accepted.** -/
theorem constScalarFold_iff (program : Program) :
    FoldsExactly program ↔ ProgramAccepts program := by
  constructor
  · intro h
    obtain ⟨program', hfold, -, -⟩ := h
    obtain ⟨b, hb⟩ := Pass.result_ok.mp hfold
    exact (visitProgram_completesIff program false).2 _ hb
  · intro h
    obtain ⟨program', b, hb, hfolded⟩ := (visitProgram_completesIff program false).1 h
    exact ⟨program', Pass.result_ok.mpr ⟨b, hb⟩, hfolded,
      fun data us => runs_folded hfolded.statements _ us⟩

/-! ### A query that is not folded -/

/-- `SUBSTR('abc', 5, 1)`. -/
def shortSubstr : Scalar := .fnCall (.substr 5 1) [.value (.string [97, 98, 99]) .string] .string

/-- `SELECT SUBSTR('abc', 5, 1) AS s FROM 'empty.log'`. -/
def substrOfEmpty : Program :=
  { statements := [.query (.projection
      (.file "empty.log" none none (.withField 1))
      [{ aliasFieldId := 2, expr := shortSubstr }] (.withField 2))],
    fieldBinding := ⟨[("a", .string), ("s", .string)]⟩ }

omit [Platform] in
/-- The program is well-formed and answers with no rows, but it does not get past the fold. -/
theorem not_foldsExactly_substrOfEmpty :
    substrOfEmpty.WellFormed ∧ shortSubstr.Typed (fun _ => .string) ∧
    @Program.Runs Platform.inert { file := fun _ _ _ _ => [], stream := fun _ _ => [] } substrOfEmpty
      [[]] ∧
    @constScalarFold Platform.inert substrOfEmpty = .error (.exception "std::out_of_range") ∧
    ¬ @FoldsExactly Platform.inert substrOfEmpty := by
  have hfold : @constScalarFold Platform.inert substrOfEmpty =
      .error (.exception "std::out_of_range") := rfl
  refine ⟨⟨?_, trivial⟩, ⟨⟨.inr rfl, trivial⟩, rfl⟩, ?_, hfold, fun h => ?_⟩
  · refine .node ⟨rfl, fun p hp => ?_⟩ fun q hq => ?_
    · cases List.mem_singleton.mp hp
      intro id hid
      exact absurd hid List.not_mem_nil
    · cases List.mem_singleton.mp hq
      exact .node trivial fun q hq => absurd hq List.not_mem_nil
  · have hfile : @Emits Platform.inert
        { file := fun _ _ _ _ => [], stream := fun _ _ => [], named := fun _ _ => False }
        (.file "empty.log" none none (.withField 1)) [] :=
      (@emits_none Platform.inert _ _ _ rfl).mpr rfl
    refine @Ir.Runs.query Platform.inert _ _ _ _ _ ?_ (@Ir.Runs.nil Platform.inert _)
    exact (@emits_projection Platform.inert _ _ _ _ _).mpr ⟨[], hfile, rfl⟩
  · obtain ⟨program', hprogram', -⟩ := h
    rw [hfold] at hprogram'
    cases hprogram'

end Lsql.Opt.ConstScalarFold
