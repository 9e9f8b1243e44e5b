import Lsql.Front.Bound
import Lsql.Phys.SemiJoin
import Lsql.Plan.Scalar

/-!
# Lsql.Front.LowerWhere

From a bound condition to relations (`front/sql/lower/Expressions.cpp`, `lowerWhere` of
`front/sql/lower/Relations.cpp`).

An `IN` that is the whole condition becomes a semi-join. Anywhere else it becomes a mark join under the
source, and a field in its place; the condition is then put on a filter.
-/

namespace Lsql.Front

open Lsql.Ir (Relation)

/-- `common::lower::function` of a binary operator. -/
def binaryFunction (type : BinaryExprType) (argType : ValueType) : Function :=
  match type with
  | .equal => .equal
  | .notEqual => .notEqual
  | .less => .less argType
  | .greater => .greater argType
  | .lessEqual => .lessEqual argType
  | .greaterEqual => .greaterEqual argType
  | .and => .and
  | .or => .or
  | .divide => .divide argType
  | .add => .add argType
  | .subtract => .subtract argType

/-- `common::lower::function` of a unary operator. -/
def unaryFunction : UnaryExprType → Function
  | .booleanNegate => .booleanNegate

/-- What a bound relation is lowered to, given the fields that are known so far. -/
abbrev Lowering := FieldBinding → Except Fault (Relation × FieldBinding)

/-- `bound::Expr`, with one constructor for each node. The relation of an `IN` is there as its
lowering, which has a scope of its own. -/
inductive Expr
  | identifier (fieldId : FieldId) (valueType : ValueType)
  | value (value : Value) (valueType : ValueType)
  | fnCall (func : Function) (args : List Expr) (valueType : ValueType)
  /-- `InExpr`. -/
  | inMatch (expr : Expr) (matched : Lowering) (matchFieldId : FieldId)
  | like (expr : Expr) (regex : Bytes) (valueType : ValueType)
  | binary (type : BinaryExprType) (left right : Expr) (valueType : ValueType)
  | unary (type : UnaryExprType) (expr : Expr) (valueType : ValueType)

/-- `lower::Context`. -/
structure Context where
  binding : FieldBinding
  currRelation : Option Relation
  currFieldSet : FieldSet

namespace Context

/-- `pullRelation`. -/
def pullRelation (ctx : Context) : Except Fault (Relation × Context) :=
  match ctx.currRelation with
  | some r => .ok (r, { ctx with currRelation := none })
  | none => .error (.panic "verify(curr_relation_slot_.has_value()) failed ")

/-- `setRelation`. -/
def setRelation (ctx : Context) (r : Relation) : Except Fault Context := do
  verify ctx.currRelation.isNone "verify(!curr_relation_slot_.has_value()) failed "
  pure { ctx with currRelation := some r }

/-- Lowering a relation of its own scope. -/
def lower (ctx : Context) (l : Lowering) : Except Fault (Relation × Context) := do
  let (r, binding) ← l ctx.binding
  pure (r, { ctx with binding })

/-- `binding()->addAnonymous`. -/
def addAnonymous (ctx : Context) (pre : String) (type : ValueType) :
    Except Fault (FieldId × Context) := do
  let (id, binding) ← ctx.binding.addAnonymous pre type
  pure (id, { ctx with binding })

end Context

/-- `LowerExprResult`. -/
abbrev LowerExprResult := Ir.Scalar × List Ir.Aggregate

mutual

/-- `lowerToIR` of an expression. -/
def lowerExpr : Expr → Context → Except Fault (LowerExprResult × Context)
  | .identifier id t, ctx => do
    verify (ctx.currFieldSet.contains id)
      "verify(ctx.currFieldSet().contains(e.field_id)) failed unknown identifier: "
    pure ((.field id t, []), ctx)
  | .value v t, ctx => .ok ((.value v t, []), ctx)
  | .fnCall f args t, ctx => do
    let ((scalars, aggregates), ctx) ← lowerExprs args ctx
    verify aggregates.isEmpty "verify(aggregates.empty()) failed "
    if f.isScalar then pure ((.fnCall f scalars t, aggregates), ctx)
    else
      let (id, ctx) ← ctx.addAnonymous "fn_call_aggr" t
      pure ((.field id t, aggregates ++ [⟨.fnCall f scalars, id, t⟩]), ctx)
  | .inMatch e matched f, ctx => do
    let (outputId, ctx) ← ctx.addAnonymous "mark_join" .boolean
    let ((expr, aggregates), ctx) ← lowerExpr e ctx
    verify aggregates.isEmpty "verify(aggregates.empty()) failed "
    let (matched, ctx) ← ctx.lower matched
    let (source, ctx) ← ctx.pullRelation
    let schema ← source.schema.append outputId
    let ctx ← ctx.setRelation (.markJoin source matched expr outputId f schema)
    pure ((.field outputId .boolean, []), ctx)
  | .like e regex t, ctx => do
    let ((arg, aggregates), ctx) ← lowerExpr e ctx
    pure ((.fnCall (.like regex) [arg] t, aggregates), ctx)
  | .binary type left right t, ctx => do
    let ((left, al), ctx) ← lowerExpr left ctx
    let ((right, ar), ctx) ← lowerExpr right ctx
    pure ((.fnCall (binaryFunction type left.valueType) [left, right] t, al ++ ar), ctx)
  | .unary type e t, ctx => do
    let ((arg, aggregates), ctx) ← lowerExpr e ctx
    pure ((.fnCall (unaryFunction type) [arg] t, aggregates), ctx)

/-- `lowerToIR` of a list of expressions. -/
def lowerExprs : List Expr → Context → Except Fault ((List Ir.Scalar × List Ir.Aggregate) × Context)
  | [], ctx => .ok (([], []), ctx)
  | e :: es, ctx => do
    let ((expr, aggregates), ctx) ← lowerExpr e ctx
    let ((exprs, aggrs), ctx) ← lowerExprs es ctx
    pure ((expr :: exprs, aggregates ++ aggrs), ctx)

end

/-- The current relation, for the time of a condition, with its own fields in scope. -/
def withFields (ctx : Context) (schema : Schema) : Context :=
  { ctx with currFieldSet := schema.fieldSet }

/-- `lowerWhere`: an `IN` as the whole condition is a semi-join. -/
def lowerWhere (condition : Expr) (ctx : Context) : Except Fault Context := do
  let (source, _) ← ctx.pullRelation
  let schema := source.schema
  let inner := withFields ctx schema
  match condition with
  | .inMatch e matched f => do
    let (matched, inner) ← inner.lower matched
    verify (matched.schema.contains f) "verify(match.schema.contains(in->match_field_id)) failed "
    let ((key, aggregates), inner) ← lowerExpr e inner
    verify aggregates.isEmpty "verify(aggregates.empty()) failed "
    let (source, inner) ← inner.pullRelation
    let inner ← inner.setRelation (.semiJoin source matched key f schema)
    pure { inner with currFieldSet := ctx.currFieldSet }
  | condition => do
    let ((condition, aggregates), inner) ← lowerExpr condition inner
    verify aggregates.isEmpty "verify(aggregates.empty()) failed "
    let (source, inner) ← inner.pullRelation
    let inner ← inner.setRelation (.filter source condition schema)
    pure { inner with currFieldSet := ctx.currFieldSet }

/-! ### Expressions without a relation of their own -/

mutual

/-- No `IN` and no aggregate. -/
def Expr.plain : Expr → Bool
  | .identifier _ _ | .value _ _ => true
  | .fnCall f args _ => f.isScalar && plainAll args
  | .inMatch _ _ _ => false
  | .like e _ _ => e.plain
  | .binary _ l r _ => l.plain && r.plain
  | .unary _ e _ => e.plain

def plainAll : List Expr → Bool
  | [] => true
  | e :: es => e.plain && plainAll es

end

mutual

/-- A plain expression leaves the context alone, and needs no more of it than the fields. -/
theorem lowerExpr_plain : ∀ (e : Expr), e.plain = true → ∀ {ctx : Context}
    {r : LowerExprResult × Context}, lowerExpr e ctx = .ok r →
      r.2 = ctx ∧ ∀ ctx' : Context, ctx'.currFieldSet = ctx.currFieldSet →
        lowerExpr e ctx' = .ok (r.1, ctx')
  | .identifier id t, _, ctx, r, h => by
      rw [lowerExpr] at h
      obtain ⟨u, hu, h⟩ := bind_eq_ok.mp h
      cases h
      refine ⟨rfl, fun ctx' hctx => ?_⟩
      rw [lowerExpr, hctx, hu]
      rfl
  | .value v t, _, ctx, r, h => by
      cases h
      exact ⟨rfl, fun ctx' _ => rfl⟩
  | .fnCall f args t, hp, ctx, r, h => by
      rw [Expr.plain, Bool.and_eq_true] at hp
      rw [lowerExpr] at h
      obtain ⟨⟨⟨scalars, aggregates⟩, ctx₁⟩, hargs, h⟩ := bind_eq_ok.mp h
      obtain ⟨u, hu, h⟩ := bind_eq_ok.mp h
      rw [if_pos hp.1] at h
      cases h
      obtain ⟨hctx₁, hall⟩ := lowerExprs_plain args hp.2 hargs
      refine ⟨hctx₁, fun ctx' hctx => ?_⟩
      rw [lowerExpr, hall ctx' hctx, ok_bind]
      show (verify aggregates.isEmpty _ >>= _) = _
      rw [hu, ok_bind, if_pos hp.1]
      rfl
  | .inMatch _ _ _, hp, _, _, _ => by cases hp
  | .like e regex t, hp, ctx, r, h => by
      rw [lowerExpr] at h
      obtain ⟨⟨⟨arg, aggregates⟩, ctx₁⟩, harg, h⟩ := bind_eq_ok.mp h
      cases h
      obtain ⟨hctx₁, hall⟩ := lowerExpr_plain e hp harg
      refine ⟨hctx₁, fun ctx' hctx => ?_⟩
      rw [lowerExpr, hall ctx' hctx]
      rfl
  | .binary type left right t, hp, ctx, r, h => by
      rw [Expr.plain, Bool.and_eq_true] at hp
      rw [lowerExpr] at h
      obtain ⟨⟨⟨l, al⟩, ctx₁⟩, hl, h⟩ := bind_eq_ok.mp h
      obtain ⟨⟨⟨r', ar⟩, ctx₂⟩, hr, h⟩ := bind_eq_ok.mp h
      cases h
      obtain ⟨hctx₁, hleft⟩ := lowerExpr_plain left hp.1 hl
      obtain ⟨hctx₂, hright⟩ := lowerExpr_plain right hp.2 hr
      cases hctx₁
      refine ⟨hctx₂, fun ctx' hctx => ?_⟩
      rw [lowerExpr, hleft ctx' hctx, ok_bind]
      show (lowerExpr right ctx' >>= _) = _
      rw [hright ctx' hctx]
      rfl
  | .unary type e t, hp, ctx, r, h => by
      rw [lowerExpr] at h
      obtain ⟨⟨⟨arg, aggregates⟩, ctx₁⟩, harg, h⟩ := bind_eq_ok.mp h
      cases h
      obtain ⟨hctx₁, hall⟩ := lowerExpr_plain e hp harg
      refine ⟨hctx₁, fun ctx' hctx => ?_⟩
      rw [lowerExpr, hall ctx' hctx]
      rfl

theorem lowerExprs_plain : ∀ (es : List Expr), plainAll es = true → ∀ {ctx : Context}
    {r : (List Ir.Scalar × List Ir.Aggregate) × Context}, lowerExprs es ctx = .ok r →
      r.2 = ctx ∧ ∀ ctx' : Context, ctx'.currFieldSet = ctx.currFieldSet →
        lowerExprs es ctx' = .ok (r.1, ctx')
  | [], _, ctx, r, h => by
      cases h
      exact ⟨rfl, fun ctx' _ => rfl⟩
  | e :: es, hp, ctx, r, h => by
      rw [plainAll, Bool.and_eq_true] at hp
      rw [lowerExprs] at h
      obtain ⟨⟨⟨expr, aggregates⟩, ctx₁⟩, he, h⟩ := bind_eq_ok.mp h
      obtain ⟨⟨⟨exprs, aggrs⟩, ctx₂⟩, hes, h⟩ := bind_eq_ok.mp h
      cases h
      obtain ⟨hctx₁, hhead⟩ := lowerExpr_plain e hp.1 he
      obtain ⟨hctx₂, htail⟩ := lowerExprs_plain es hp.2 hes
      cases hctx₁
      refine ⟨hctx₂, fun ctx' hctx => ?_⟩
      rw [lowerExprs, hhead ctx' hctx, ok_bind]
      show (lowerExprs es ctx' >>= _) = _
      rw [htail ctx' hctx]
      rfl

end

/-! ### An `IN` inside a larger condition -/

/-- A condition that says nothing but the `IN` in it. -/
inductive Wraps (inner : Expr) : Expr → Prop
  | self : Wraps inner inner
  | notNot {e : Expr} {t u : ValueType} : Wraps inner e →
      Wraps inner (.unary .booleanNegate (.unary .booleanNegate e t) u)
  | andTrue {e : Expr} {t u : ValueType} : Wraps inner e →
      Wraps inner (.binary .and e (.value (.boolean true) t) u)
  | trueAnd {e : Expr} {t u : ValueType} : Wraps inner e →
      Wraps inner (.binary .and (.value (.boolean true) t) e u)
  | orFalse {e : Expr} {t u : ValueType} : Wraps inner e →
      Wraps inner (.binary .or e (.value (.boolean false) t) u)
  | falseOr {e : Expr} {t u : ValueType} : Wraps inner e →
      Wraps inner (.binary .or (.value (.boolean false) t) e u)

/-- What such a condition is lowered to. -/
inductive WrapsScalar (inner : Ir.Scalar) : Ir.Scalar → Prop
  | self : WrapsScalar inner inner
  | notNot {s : Ir.Scalar} {t u : ValueType} : WrapsScalar inner s →
      WrapsScalar inner (.fnCall .booleanNegate [.fnCall .booleanNegate [s] t] u)
  | andTrue {s : Ir.Scalar} {t u : ValueType} : WrapsScalar inner s →
      WrapsScalar inner (.fnCall .and [s, .value (.boolean true) t] u)
  | trueAnd {s : Ir.Scalar} {t u : ValueType} : WrapsScalar inner s →
      WrapsScalar inner (.fnCall .and [.value (.boolean true) t, s] u)
  | orFalse {s : Ir.Scalar} {t u : ValueType} : WrapsScalar inner s →
      WrapsScalar inner (.fnCall .or [s, .value (.boolean false) t] u)
  | falseOr {s : Ir.Scalar} {t u : ValueType} : WrapsScalar inner s →
      WrapsScalar inner (.fnCall .or [.value (.boolean false) t, s] u)

theorem lowerExpr_wraps {inner e : Expr} (h : Wraps inner e) {ctx ctx' : Context} {s : Ir.Scalar}
    {aggregates : List Ir.Aggregate} (hlower : lowerExpr e ctx = .ok ((s, aggregates), ctx')) :
    ∃ s₀, lowerExpr inner ctx = .ok ((s₀, aggregates), ctx') ∧ WrapsScalar s₀ s := by
  induction h generalizing s aggregates with
  | self => exact ⟨s, hlower, .self⟩
  | notNot _ ih =>
      rw [lowerExpr] at hlower
      obtain ⟨⟨⟨arg, as⟩, ctx₁⟩, harg, hlower⟩ := bind_eq_ok.mp hlower
      cases hlower
      rw [lowerExpr] at harg
      obtain ⟨⟨⟨arg, as⟩, ctx₁⟩, hinner, harg⟩ := bind_eq_ok.mp harg
      cases harg
      obtain ⟨s₀, hs₀, hwraps⟩ := ih hinner
      exact ⟨s₀, hs₀, .notNot hwraps⟩
  | andTrue _ ih =>
      rw [lowerExpr] at hlower
      obtain ⟨⟨⟨l, al⟩, ctx₁⟩, hl, hlower⟩ := bind_eq_ok.mp hlower
      cases hlower
      obtain ⟨s₀, hs₀, hwraps⟩ := ih hl
      exact ⟨s₀, (List.append_nil al).symm ▸ hs₀, .andTrue hwraps⟩
  | trueAnd _ ih =>
      rw [lowerExpr] at hlower
      obtain ⟨⟨⟨l, al⟩, ctx₁⟩, hl, hlower⟩ := bind_eq_ok.mp hlower
      cases hl
      obtain ⟨⟨⟨r, ar⟩, ctx₂⟩, hr, hlower⟩ := bind_eq_ok.mp hlower
      cases hlower
      obtain ⟨s₀, hs₀, hwraps⟩ := ih hr
      exact ⟨s₀, hs₀, .trueAnd hwraps⟩
  | orFalse _ ih =>
      rw [lowerExpr] at hlower
      obtain ⟨⟨⟨l, al⟩, ctx₁⟩, hl, hlower⟩ := bind_eq_ok.mp hlower
      cases hlower
      obtain ⟨s₀, hs₀, hwraps⟩ := ih hl
      exact ⟨s₀, (List.append_nil al).symm ▸ hs₀, .orFalse hwraps⟩
  | falseOr _ ih =>
      rw [lowerExpr] at hlower
      obtain ⟨⟨⟨l, al⟩, ctx₁⟩, hl, hlower⟩ := bind_eq_ok.mp hlower
      cases hl
      obtain ⟨⟨⟨r, ar⟩, ctx₂⟩, hr, hlower⟩ := bind_eq_ok.mp hlower
      cases hlower
      obtain ⟨s₀, hs₀, hwraps⟩ := ih hr
      exact ⟨s₀, hs₀, .falseOr hwraps⟩

/-! ### Its plan -/

section Plan

variable [Platform] {schema : Schema} {o : FieldId} {slot : Nat}

open Lsql.Plan (planScalar planCall ScalarScope)
open Lsql.Phys (IsMark)

theorem planScalar_unary {f : Function} {execute : Value → Except Fault Value}
    (hf : buildScalar f = .ok (.unary execute)) {s : Ir.Scalar} {t : ValueType}
    {scope scope' : Option ScalarScope} {p : Exec.Scalar}
    (h : planScalar schema (.fnCall f [s] t) scope = .ok (p, scope')) :
    ∃ arg, planScalar schema s scope = .ok (arg, scope') ∧ p = .unary t execute arg := by
  rw [planScalar] at h
  obtain ⟨⟨args, scope₁⟩, hargs, h⟩ := bind_eq_ok.mp h
  obtain ⟨call, hcall, h⟩ := bind_eq_ok.mp h
  cases h
  obtain ⟨⟨arg, scope₂⟩, harg, hargs⟩ := bind_eq_ok.mp hargs
  cases hargs
  rw [planCall, hf] at hcall
  cases hcall
  exact ⟨arg, harg, rfl⟩

theorem planScalar_binary {f : Function} {execute : Value → Value → Except Fault Value}
    (hf : buildScalar f = .ok (.binary execute)) {l r : Ir.Scalar} {t : ValueType}
    {scope scope' : Option ScalarScope} {p : Exec.Scalar}
    (h : planScalar schema (.fnCall f [l, r] t) scope = .ok (p, scope')) :
    ∃ left right scope₁, planScalar schema l scope = .ok (left, scope₁) ∧
      planScalar schema r scope₁ = .ok (right, scope') ∧ p = .binary t execute left right := by
  rw [planScalar] at h
  obtain ⟨⟨args, scope₁⟩, hargs, h⟩ := bind_eq_ok.mp h
  obtain ⟨call, hcall, h⟩ := bind_eq_ok.mp h
  cases h
  obtain ⟨⟨left, scope₂⟩, hleft, hargs⟩ := bind_eq_ok.mp hargs
  obtain ⟨⟨rest, scope₃⟩, hrest, hargs⟩ := bind_eq_ok.mp hargs
  obtain ⟨⟨right, scope₄⟩, hright, hrest⟩ := bind_eq_ok.mp hrest
  cases hrest
  cases hargs
  rw [planCall, hf] at hcall
  cases hcall
  exact ⟨left, right, scope₂, hleft, hright, rfl⟩

/-- The plan of a condition that says nothing but the mark evaluates to the mark. -/
theorem isMark_of_wraps (hslot : schema.slot o = some slot) {s : Ir.Scalar}
    (h : WrapsScalar (.field o .boolean) s) {scope scope' : Option ScalarScope} {p : Exec.Scalar}
    (hplan : planScalar schema s scope = .ok (p, scope')) : IsMark p slot := by
  induction h generalizing p scope scope' with
  | self =>
      rw [planScalar, hslot] at hplan
      cases hplan
      intro b record ctx
      show (Exec.Record.get _ _ >>= _) = _
      rw [Exec.Record.get, if_pos rfl]
      rfl
  | notNot _ ih =>
      obtain ⟨q, hq, rfl⟩ := planScalar_unary rfl hplan
      obtain ⟨arg, harg, rfl⟩ := planScalar_unary rfl hq
      intro b record ctx
      rw [Exec.Scalar.eval, Exec.Scalar.eval, ih harg b record ctx]
      cases b <;> rfl
  | andTrue _ ih =>
      obtain ⟨l, r, scope₁, hl, hr, rfl⟩ := planScalar_binary rfl hplan
      cases hr
      intro b record ctx
      rw [Exec.Scalar.eval, ih hl b record ctx]
      cases b <;> rfl
  | trueAnd _ ih =>
      obtain ⟨l, r, scope₁, hl, hr, rfl⟩ := planScalar_binary rfl hplan
      cases hl
      intro b record ctx
      rw [Exec.Scalar.eval, Exec.Scalar.eval, ok_bind]
      show (Exec.Scalar.eval _ _ _ >>= _) = _
      rw [ih hr b record ctx]
      cases b <;> rfl
  | orFalse _ ih =>
      obtain ⟨l, r, scope₁, hl, hr, rfl⟩ := planScalar_binary rfl hplan
      cases hr
      intro b record ctx
      rw [Exec.Scalar.eval, ih hl b record ctx]
      cases b <;> rfl
  | falseOr _ ih =>
      obtain ⟨l, r, scope₁, hl, hr, rfl⟩ := planScalar_binary rfl hplan
      cases hl
      intro b record ctx
      rw [Exec.Scalar.eval, Exec.Scalar.eval, ok_bind]
      show (Exec.Scalar.eval _ _ _ >>= _) = _
      rw [ih hr b record ctx]
      cases b <;> rfl

end Plan

/-! ### Both ways to a condition -/

theorem pullRelation_eq_ok {ctx ctx' : Context} {r : Relation} :
    ctx.pullRelation = .ok (r, ctx') ↔
      ctx.currRelation = some r ∧ ctx' = { ctx with currRelation := none } := by
  rw [Context.pullRelation]
  cases ctx.currRelation with
  | none => simp
  | some q => simp [eq_comm]

/-- What is left of the context after an `IN` inside a larger condition. -/
theorem lowerExpr_inMatch {e : Expr} {matched : Lowering} {f : FieldId} {ctx ctx' : Context}
    {s : Ir.Scalar} {aggregates : List Ir.Aggregate}
    (h : lowerExpr (.inMatch e matched f) ctx = .ok ((s, aggregates), ctx')) :
    ∃ o ctx₁ key ctx₂ b b' m source schema, lowerExpr e ctx₁ = .ok ((key, []), ctx₂) ∧
      ctx₁.currRelation = ctx.currRelation ∧ ctx₁.currFieldSet = ctx.currFieldSet ∧
      matched b = .ok (m, b') ∧ ctx₂.currRelation = some source ∧
      source.schema.append o = .ok schema ∧ s = .field o .boolean ∧
      ctx'.currRelation = some (.markJoin source m key o f schema) := by
  rw [lowerExpr] at h
  obtain ⟨⟨o, ctx₁⟩, hanon, h⟩ := bind_eq_ok.mp h
  obtain ⟨⟨⟨key, as⟩, ctx₂⟩, hkey, h⟩ := bind_eq_ok.mp h
  obtain ⟨u, hempty, h⟩ := bind_eq_ok.mp h
  obtain ⟨⟨m, ctx₃⟩, hmatched, h⟩ := bind_eq_ok.mp h
  obtain ⟨⟨source, ctx₄⟩, hpull, h⟩ := bind_eq_ok.mp h
  obtain ⟨schema, hschema, h⟩ := bind_eq_ok.mp h
  obtain ⟨ctx₅, hset, h⟩ := bind_eq_ok.mp h
  cases h
  obtain ⟨⟨id, binding⟩, -, hanon⟩ := bind_eq_ok.mp hanon
  cases hanon
  obtain ⟨⟨m', b'⟩, hm, hmatched⟩ := bind_eq_ok.mp hmatched
  cases hmatched
  obtain ⟨v, -, hset⟩ := bind_eq_ok.mp hset
  cases hset
  have hnone : as = [] := List.isEmpty_iff.mp (verify_eq_ok.mp hempty)
  subst hnone
  exact ⟨_, _, key, ctx₂, _, b', m, source, schema, hkey, rfl, rfl, hm,
    (pullRelation_eq_ok.mp hpull).1, hschema, rfl, rfl⟩

/-- What is left of the context after an `IN` as the whole condition. -/
theorem lowerWhere_inMatch {e : Expr} {matched : Lowering} {f : FieldId} {ctx ctx' : Context}
    {r : Relation} (hr : ctx.currRelation = some r)
    (h : lowerWhere (.inMatch e matched f) ctx = .ok ctx') :
    ∃ ctx₁ key ctx₂ b b' m source, lowerExpr e ctx₁ = .ok ((key, []), ctx₂) ∧
      ctx₁.currRelation = some r ∧ ctx₁.currFieldSet = r.schema.fieldSet ∧
      matched b = .ok (m, b') ∧ ctx₂.currRelation = some source ∧
      ctx'.currRelation = some (.semiJoin source m key f r.schema) := by
  rw [lowerWhere, pullRelation_eq_ok.mpr ⟨hr, rfl⟩, ok_bind] at h
  obtain ⟨⟨m, ctx₁⟩, hmatched, h⟩ := bind_eq_ok.mp h
  obtain ⟨u, -, h⟩ := bind_eq_ok.mp h
  obtain ⟨⟨⟨key, as⟩, ctx₂⟩, hkey, h⟩ := bind_eq_ok.mp h
  obtain ⟨v, hempty, h⟩ := bind_eq_ok.mp h
  obtain ⟨⟨source, ctx₃⟩, hpull, h⟩ := bind_eq_ok.mp h
  obtain ⟨ctx₄, hset, h⟩ := bind_eq_ok.mp h
  cases h
  obtain ⟨⟨m', b'⟩, hm, hmatched⟩ := bind_eq_ok.mp hmatched
  cases hmatched
  obtain ⟨w, -, hset⟩ := bind_eq_ok.mp hset
  cases hset
  have hnone : as = [] := List.isEmpty_iff.mp (verify_eq_ok.mp hempty)
  subst hnone
  exact ⟨_, key, ctx₂, _, b', m, source, hkey, hr, rfl, hm, (pullRelation_eq_ok.mp hpull).1, rfl⟩

/-- A condition that is not an `IN` is put on a filter. -/
theorem lowerWhere_filter {inner cond : Expr} (hwraps : Wraps inner cond) (hne : cond ≠ inner)
    {ctx ctx' : Context} {r : Relation} (hr : ctx.currRelation = some r)
    (h : lowerWhere cond ctx = .ok ctx') :
    ∃ c ctx₁ source, lowerExpr cond (withFields ctx r.schema) = .ok ((c, []), ctx₁) ∧
      ctx₁.currRelation = some source ∧ ctx'.currRelation = some (.filter source c r.schema) := by
  have hfilter : (do
      let ((condition, aggregates), inner) ← lowerExpr cond (withFields ctx r.schema)
      verify aggregates.isEmpty "verify(aggregates.empty()) failed "
      let (source, inner) ← inner.pullRelation
      let inner ← inner.setRelation (.filter source condition r.schema)
      pure { inner with currFieldSet := ctx.currFieldSet } : Except Fault Context) = .ok ctx' := by
    rw [lowerWhere, pullRelation_eq_ok.mpr ⟨hr, rfl⟩, ok_bind] at h
    cases hwraps with
    | self => exact absurd rfl hne
    | notNot | andTrue | trueAnd | orFalse | falseOr => exact h
  obtain ⟨⟨⟨c, as⟩, ctx₁⟩, hc, h⟩ := bind_eq_ok.mp hfilter
  obtain ⟨v, hempty, h⟩ := bind_eq_ok.mp h
  obtain ⟨⟨source, ctx₃⟩, hpull, h⟩ := bind_eq_ok.mp h
  obtain ⟨ctx₄, hset, h⟩ := bind_eq_ok.mp h
  cases h
  obtain ⟨w, -, hset⟩ := bind_eq_ok.mp hset
  cases hset
  have hnone : as = [] := List.isEmpty_iff.mp (verify_eq_ok.mp hempty)
  subst hnone
  exact ⟨c, ctx₁, source, hc, (pullRelation_eq_ok.mp hpull).1, rfl⟩

section Where

variable [Platform]

open Lsql.Plan (planScalar ScalarScope)
open Lsql.Phys (SameRows semiRun markedRun sentRecords evalKey IsMark)

/-- A semi-join and a mark join under a filter, both of one `IN`: the filter is on the mark, and on
any records the two send the same ones. They part where nothing is matched against and the key of a
record cannot be evaluated, which only the mark join does. -/
def SameIn (schema : Schema) (o : FieldId) (c : Ir.Scalar) : Prop :=
  ∀ {scope scope' : Option ScalarScope} {condition : Exec.Scalar},
    planScalar schema c scope = .ok (condition, scope') → ∃ slot, schema.slot o = some slot ∧
      IsMark condition slot ∧
      ∀ (accept : List (Option Exec.Record) → Bool) (key : Exec.Scalar) (ctx : Exec.ScalarContext)
        (matches' sources : List Exec.Record),
        SameRows (semiRun accept key matches' sources)
            (markedRun accept key slot condition ctx matches' sources) ∨
          matches' = [] ∧
            (∃ r c d, semiRun accept key matches' sources = .ok (r, c, d) ∧ sentRecords d = []) ∧
            ∃ record ∈ sources, ∃ e, evalKey key record = .error e ∧
              markedRun accept key slot condition ctx matches' sources = .error e

theorem sameIn {schema₀ schema : Schema} {o : FieldId} (hschema : schema₀.append o = .ok schema)
    {c : Ir.Scalar} (hwraps : WrapsScalar (.field o .boolean) c) : SameIn schema o c := by
  obtain ⟨slot, hslot⟩ : ∃ slot, schema.slot o = some slot := by
    have hmem : o ∈ schema.fields := by simp [(Schema.append_eq_ok.mp hschema).2]
    obtain ⟨i, hi⟩ := List.mem_iff_getElem?.mp hmem
    exact ⟨i, Schema.slot_eq_some.mpr hi⟩
  intro scope scope' condition hplan
  refine ⟨slot, hslot, isMark_of_wraps hslot hwraps hplan, ?_⟩
  intro accept key ctx matches' sources
  obtain h | h := Phys.semiRun_or accept key (isMark_of_wraps hslot hwraps hplan) ctx matches' sources
  · exact .inl h.1
  · exact .inr h

/-- **An `IN` as the whole condition and inside a larger one.** -/
theorem lowerWhere_sameIn {ctx st₁ st₂ : Context} {r : Relation} (hr : ctx.currRelation = some r)
    {e cond : Expr} {matched : Lowering} {f : FieldId} (hwraps : Wraps (.inMatch e matched f) cond)
    (hne : cond ≠ .inMatch e matched f) (h₁ : lowerWhere (.inMatch e matched f) ctx = .ok st₁)
    (h₂ : lowerWhere cond ctx = .ok st₂) :
    ∃ source₁ m₁ key₁ source₂ m₂ key₂ o c schema,
      st₁.currRelation = some (.semiJoin source₁ m₁ key₁ f r.schema) ∧
      st₂.currRelation = some (.filter (.markJoin source₂ m₂ key₂ o f schema) c r.schema) ∧
      (∃ b b', matched b = .ok (m₁, b')) ∧ (∃ b b', matched b = .ok (m₂, b')) ∧
      (e.plain = true → source₁ = r ∧ source₂ = r ∧ key₂ = key₁) ∧
      SameIn schema o c := by
  obtain ⟨ctx₁, key₁, ctx₁', b₁, b₁', m₁, source₁, hkey₁, hcurr₁, hfields₁, hm₁, hsource₁, hst₁⟩ :=
    lowerWhere_inMatch hr h₁
  obtain ⟨c, ctx₃, source, hc, hsource, hst₂⟩ := lowerWhere_filter hwraps hne hr h₂
  obtain ⟨s₀, hs₀, hscalar⟩ := lowerExpr_wraps hwraps hc
  obtain ⟨o, ctx₂, key₂, ctx₂', b₂, b₂', m₂, source₂, schema, hkey₂, hcurr₂, hfields₂, hm₂, hsource₂,
    hschema, rfl, hmark⟩ := lowerExpr_inMatch hs₀
  cases hsource.symm.trans hmark
  refine ⟨source₁, m₁, key₁, source₂, m₂, key₂, o, c, schema, hst₁, hst₂, ⟨b₁, b₁', hm₁⟩,
    ⟨b₂, b₂', hm₂⟩, fun hplain => ?_, sameIn hschema hscalar⟩
  -- a plain key is lowered to one scalar, and leaves the source alone
  obtain ⟨hctx₁, hall⟩ := lowerExpr_plain e hplain hkey₁
  have hkey := (hall ctx₂ (hfields₂.trans hfields₁.symm)).symm.trans hkey₂
  cases hctx₁
  cases hkey
  refine ⟨?_, ?_, rfl⟩
  · exact Option.some.inj (hsource₁.symm.trans hcurr₁)
  · exact Option.some.inj (hsource₂.symm.trans (hcurr₂.trans hr))

end Where

/-- A table with one column of text. -/
def table : Relation := .stream "cat table" (.withField 1)

/-- `substr(a, 5, 1) IN (an empty file)`. -/
def inEmpty : Expr :=
  .inMatch (.fnCall (.substr 5 1) [.identifier 1 .string] .string)
    (fun b => .ok (.file "empty" none none (.withField 2), b)) 2

/-- The context in which the condition on the table is lowered. -/
def tableContext : Context :=
  { binding := ⟨[("a", .string), ("b", .string)]⟩, currRelation := some table,
    currFieldSet := .emptySet }

/-- The same condition, negated twice. -/
def notNotInEmpty : Expr := .unary .booleanNegate (.unary .booleanNegate inEmpty .boolean) .boolean

theorem lowerWhere_sameIn_inEmpty : ∃ st₁ st₂, lowerWhere inEmpty tableContext = .ok st₁ ∧
    lowerWhere notNotInEmpty tableContext = .ok st₂ ∧
    ∃ source₁ m₁ key₁ source₂ m₂ key₂ o c schema,
      st₁.currRelation = some (.semiJoin source₁ m₁ key₁ 2 table.schema) ∧
      st₂.currRelation = some (.filter (.markJoin source₂ m₂ key₂ o 2 schema) c table.schema) ∧
      @SameIn Platform.inert schema o c := by
  obtain ⟨st₁, h₁⟩ : ∃ st₁, lowerWhere inEmpty tableContext = .ok st₁ := ⟨_, rfl⟩
  obtain ⟨st₂, h₂⟩ : ∃ st₂, lowerWhere notNotInEmpty tableContext = .ok st₂ := ⟨_, rfl⟩
  have hne : notNotInEmpty ≠ inEmpty := by
    intro h
    cases h
  obtain ⟨source₁, m₁, key₁, source₂, m₂, key₂, o, c, schema, hst₁, hst₂, -, -, -, hsame⟩ :=
    @lowerWhere_sameIn Platform.inert tableContext st₁ st₂ table rfl _ notNotInEmpty _ 2
      (.notNot .self) hne h₁ h₂
  exact ⟨st₁, st₂, h₁, h₂, source₁, m₁, key₁, source₂, m₂, key₂, o, c, schema, hst₁, hst₂, hsame⟩

/-- The key of a short text cannot be evaluated: one condition has no rows, the other one fails. -/
theorem not_sameRows_inEmpty :
    ∃ st₁ st₂ m scalar o c schema key condition,
      lowerWhere inEmpty tableContext = .ok st₁ ∧ lowerWhere notNotInEmpty tableContext = .ok st₂ ∧
      st₁.currRelation = some (.semiJoin table m scalar 2 table.schema) ∧
      st₂.currRelation = some (.filter (.markJoin table m scalar o 2 schema) c table.schema) ∧
      @Plan.planScalar Platform.inert table.schema scalar none = .ok (key, none) ∧
      @Plan.planScalar Platform.inert schema c none = .ok (condition, none) ∧
      schema.slot o = some 1 ∧
      ¬ Phys.SameRows (Phys.semiRun (fun _ => true) key [] [.vec [.string [97]]])
        (Phys.markedRun (fun _ => true) key 1 condition [] [] [.vec [.string [97]]]) := by
  refine ⟨_, _, _, _, _, _, _, _, _, rfl, rfl, rfl, rfl, rfl, rfl, rfl, fun h => ?_⟩
  change Phys.SameRows (.ok _) (.error _) at h
  cases h

end Lsql.Front
