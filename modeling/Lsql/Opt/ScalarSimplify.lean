import Lsql.Ir.Typing
import Lsql.Opt.Pass

/-!
# Lsql.Opt.ScalarSimplify

`scalarSimplify` (`optimize/scalar_simplify.cpp`): identities of boolean operators, identity casts
and the alternatives of `coalesce`.

The rules are applied bottom-up. The rewritten scalar has the value of the original wherever the
original has one (`simplify_eval`), provided that no alternative is dropped that only compares equal
to an earlier one: `operator==` on scalars compares their constants as values, for which `0.0` and
`-0.0` are equal (`signedZeros`).
-/

namespace Lsql.Opt.ScalarSimplify

open Ir

/-! ### The rules -/

/-- A `ValueScalar` that holds a boolean. -/
def booleanConstant : Scalar → Option Bool
  | .value (.boolean x) _ => some x
  | _ => none

/-- `simplifyBooleanBinary`. -/
def simplifyBooleanBinary (args : List Scalar) (self : Scalar) (conjunction : Bool) :
    Pass Scalar :=
  match args with
  | [left, right] =>
    match booleanConstant left with
    | some x => do
      Pass.setChanges
      pure (if x == conjunction then right else left)
    | none =>
      match booleanConstant right with
      | some x => do
        Pass.setChanges
        pure (if x == conjunction then left else right)
      | none => pure self
  | _ => throw (.undefined "verify_dbg(call.args.size() == 2)")

/-- `simplifyDoubleNegation`. -/
def simplifyDoubleNegation (args : List Scalar) (self : Scalar) : Pass Scalar :=
  match args with
  | [.fnCall .booleanNegate (inner :: _) _] => do
    Pass.setChanges
    pure inner
  | [.fnCall .booleanNegate [] _] => throw (.undefined "inner->args[0]")
  | [_] => pure self
  | _ => throw (.undefined "verify_dbg(call.args.size() == 1)")

/-- `optimize(ir::FnCallScalar&)`. -/
def optimizeFnCall (function : Function) (args : List Scalar) (type : ValueType) : Pass Scalar :=
  let self : Scalar := .fnCall function args type
  match function with
  | .cast castTo =>
    match args with
    | [arg] =>
      if arg.valueType = castTo then do
        Pass.setChanges
        pure arg
      else
        pure self
    | _ => throw (.undefined "verify_dbg(s.args.size() == 1)")
  | .and => simplifyBooleanBinary args self true
  | .or => simplifyBooleanBinary args self false
  | .booleanNegate => simplifyDoubleNegation args self
  | .coalesce => do
    Pass.setChanges
    pure (.coalesce args type)
  | _ => pure self

/-- What the loop over the alternatives ends in: a constant to return at once, or the alternatives
that are kept. -/
inductive Alternatives
  | constant (value : Value)
  | kept (args : List Scalar)

/-- The loop over the alternatives. -/
def keepAlternatives (kept : List Scalar) : List Scalar → Alternatives
  | [] => .kept kept
  | .value v t :: as =>
    if v.isNull then keepAlternatives kept as
    else if kept.isEmpty then .constant v
    else .kept (kept ++ [.value v t])
  | a :: as =>
    if kept.any fun previous => previous.equal a then keepAlternatives kept as
    else keepAlternatives (kept ++ [a]) as

/-- `optimize(ir::CoalesceScalar&)`. -/
def optimizeCoalesce (args : List Scalar) (type : ValueType) : Pass Scalar :=
  match keepAlternatives [] args with
  | .constant v => do
    Pass.setChanges
    pure (.value v type)
  | .kept [] => do
    Pass.setChanges
    pure (.value .null type)
  | .kept [s] => do
    Pass.setChanges
    pure s
  | .kept kept =>
    if kept.length ≠ args.length then do
      Pass.setChanges
      pure (.coalesce kept type)
    else
      pure (.coalesce kept type)

mutual

/-- `visit(ir::Scalar&)`. -/
def visit : Scalar → Pass Scalar
  | .field id t => pure (.field id t)
  | .value v t => pure (.value v t)
  | .coalesce args t => do
    let args ← visitAll args
    optimizeCoalesce args t
  | .fnCall f args t => do
    let args ← visitAll args
    optimizeFnCall f args t
  | .cached s t => do
    let s ← visit s
    pure (.cached s t)

def visitAll : List Scalar → Pass (List Scalar)
  | [] => pure []
  | a :: as => do
    let a ← visit a
    let as ← visitAll as
    pure (a :: as)

end

/-- One pass over a scalar. -/
def simplify (s : Scalar) : Except Fault Scalar := (visit s).result

/-- A number of passes. -/
def simplifyTimes : Nat → Scalar → Except Fault Scalar
  | 0, s => .ok s
  | n + 1, s => do
    let s ← simplify s
    simplifyTimes n s

/-! ### What a rule has to keep -/

section Types

variable {types : FieldId → ValueType}

/-- A scalar that is well typed, of the type of the original one or of the type `Null`. -/
structure KeepsType (types : FieldId → ValueType) (s s' : Scalar) : Prop where
  typed : s'.Typed types
  type : s'.valueType = s.valueType ∨ s'.valueType = .null

theorem KeepsType.refl {s : Scalar} (h : s.Typed types) : KeepsType types s s := ⟨h, .inl rfl⟩

theorem KeepsType.fits {s s' : Scalar} (h : KeepsType types s s') {t : ValueType}
    (hfits : s.valueType.fits t = true) : s'.valueType.fits t = true := by
  rcases h.type with he | he
  · rwa [he]
  · simp [ValueType.fits, he]

theorem KeepsType.trans {s s' s'' : Scalar} (h : KeepsType types s s')
    (h' : KeepsType types s' s'') : KeepsType types s s'' := by
  refine ⟨h'.typed, ?_⟩
  rcases h'.type with he | he
  · rw [he]
    exact h.type
  · exact .inr he

theorem KeepsType.of_fits {s s' : Scalar} (h : s'.Typed types)
    (hfits : s'.valueType.fits s.valueType = true) : KeepsType types s s' := by
  refine ⟨h, ?_⟩
  simpa [ValueType.fits, or_comm] using hfits

end Types

section Rules

variable [Platform] {types : FieldId → ValueType} {record : FieldId → Except Fault Value}

/-- The values of one scalar, wherever it has one, are those of the other. -/
def Agrees (types : FieldId → ValueType) (s s' : Scalar) : Prop :=
  ∀ record, Scalar.TypedRecord types record → ∀ v, s.eval record = .ok v → s'.eval record = .ok v

theorem Agrees.refl (s : Scalar) : Agrees types s s := fun _ _ _ h => h

theorem Agrees.trans {s s' s'' : Scalar} (h : Agrees types s s') (h' : Agrees types s' s'') :
    Agrees types s s'' := fun record hrecord v hv => h' record hrecord v (h record hrecord v hv)

/-- What a rule makes of a scalar. -/
def Rewritten (types : FieldId → ValueType) (s : Scalar) (p : Pass Scalar) : Prop :=
  ∀ b, ∃ s' b', p b = .ok (s', b') ∧ KeepsType types s s' ∧ Agrees types s s'

theorem rewritten_self {s : Scalar} (h : s.Typed types) : Rewritten types s (pure s) :=
  fun b => ⟨s, b, rfl, .refl h, .refl s⟩

theorem rewritten_changed {s s' : Scalar} (h : KeepsType types s s') (heval : Agrees types s s') :
    Rewritten types s (do
      Pass.setChanges
      pure s') := fun _ => ⟨s', true, rfl, h, heval⟩

/-! ### Boolean operators -/

theorem eval_fnCall_ok {f : Function} {args : List Scalar} {t : ValueType} {v : Value}
    (h : (Scalar.fnCall f args t).eval record = .ok v) :
    ∃ vs, List.Forall₂ (fun a v => a.eval record = .ok v) args vs ∧ f.apply vs = .ok v := by
  rw [Scalar.eval] at h
  obtain ⟨vs, hvs, hv⟩ := bind_eq_ok.mp h
  exact ⟨vs, Scalar.evalAll_ok.mp hvs, hv⟩

theorem eval_unary_ok {f : Function} {a : Scalar} {t : ValueType} {v : Value}
    (h : (Scalar.fnCall f [a] t).eval record = .ok v) :
    ∃ x, a.eval record = .ok x ∧ f.apply [x] = .ok v := by
  obtain ⟨vs, hvs, hv⟩ := eval_fnCall_ok h
  obtain ⟨x, vs, hx, hnil, rfl⟩ := List.forall₂_cons_left_iff.mp hvs
  cases List.forall₂_nil_left_iff.mp hnil
  exact ⟨x, hx, hv⟩

theorem eval_binary_ok {f : Function} {l r : Scalar} {t : ValueType} {v : Value}
    (h : (Scalar.fnCall f [l, r] t).eval record = .ok v) :
    ∃ x y, l.eval record = .ok x ∧ r.eval record = .ok y ∧ f.apply [x, y] = .ok v := by
  obtain ⟨vs, hvs, hv⟩ := eval_fnCall_ok h
  obtain ⟨x, vs, hx, htail, rfl⟩ := List.forall₂_cons_left_iff.mp hvs
  obtain ⟨y, vs, hy, hnil, rfl⟩ := List.forall₂_cons_left_iff.mp htail
  cases List.forall₂_nil_left_iff.mp hnil
  exact ⟨x, y, hx, hy, hv⟩

omit [Platform] in
theorem booleanConstant_eq {s : Scalar} {x : Bool} (h : booleanConstant s = some x) :
    ∃ t, s = .value (.boolean x) t := by
  unfold booleanConstant at h
  split at h
  · cases h
    exact ⟨_, rfl⟩
  · cases h

/-- The function that `simplifyBooleanBinary` is called for. -/
def booleanBinary (conjunction : Bool) : Function := if conjunction then .and else .or

/-- `And` (`Or`) of booleans, as `conjunction` has it; nothing else has a value. -/
theorem apply_boolean {conjunction : Bool} {x y v : Value}
    (h : (booleanBinary conjunction).apply [x, y] = .ok v) :
    ∃ p, x = .boolean p ∧
      (p = conjunction → ∃ q, y = .boolean q ∧ v = .boolean q) ∧
      (p = !conjunction → v = .boolean !conjunction) := by
  cases conjunction with
  | true =>
      obtain ⟨p, hp, hrest⟩ := bind_eq_ok.mp (show andExecutor x y = .ok v from h)
      refine ⟨p, Value.type_of_getBool hp, fun hpc => ?_, fun hpc => ?_⟩
      · subst hpc
        obtain ⟨q, hq, hv⟩ := bind_eq_ok.mp hrest
        cases hv
        exact ⟨q, Value.type_of_getBool hq, rfl⟩
      · subst hpc
        cases hrest
        rfl
  | false =>
      obtain ⟨p, hp, hrest⟩ := bind_eq_ok.mp (show orExecutor x y = .ok v from h)
      refine ⟨p, Value.type_of_getBool hp, fun hpc => ?_, fun hpc => ?_⟩
      · subst hpc
        obtain ⟨q, hq, hv⟩ := bind_eq_ok.mp hrest
        cases hv
        exact ⟨q, Value.type_of_getBool hq, rfl⟩
      · subst hpc
        cases hrest
        rfl

omit [Platform] in
theorem booleanBinary_args {conjunction : Bool} {args : List Scalar} {t : ValueType}
    (h : (booleanBinary conjunction).hasType (args.map Scalar.valueType) t = true) :
    ∃ l r, args = [l, r] ∧ l.valueType.fits .boolean = true ∧ r.valueType.fits .boolean = true ∧
      t = .boolean := by
  match args with
  | [l, r] =>
    refine ⟨l, r, rfl, ?_⟩
    cases conjunction <;> simpa [booleanBinary, Function.hasType, and_assoc] using h
  | [] => cases conjunction <;> simp [booleanBinary, Function.hasType] at h
  | [l] => cases conjunction <;> simp [booleanBinary, Function.hasType] at h
  | _ :: _ :: _ :: _ => cases conjunction <;> simp [booleanBinary, Function.hasType] at h

theorem simplifyBooleanBinary_rewritten {conjunction : Bool} {args : List Scalar} {t : ValueType}
    (htyped : (Scalar.fnCall (booleanBinary conjunction) args t).Typed types) :
    Rewritten types (.fnCall (booleanBinary conjunction) args t)
      (simplifyBooleanBinary args (.fnCall (booleanBinary conjunction) args t) conjunction) := by
  obtain ⟨hargs, htype⟩ := htyped
  obtain ⟨l, r, rfl, hl, hr, rfl⟩ := booleanBinary_args htype
  have hall := Scalar.typedAll_iff.mp hargs
  have keepsLeft : KeepsType types (.fnCall (booleanBinary conjunction) [l, r] .boolean) l :=
    .of_fits (hall l (by simp)) hl
  have keepsRight : KeepsType types (.fnCall (booleanBinary conjunction) [l, r] .boolean) r :=
    .of_fits (hall r (by simp)) hr
  rw [simplifyBooleanBinary]
  cases hleft : booleanConstant l with
  | some x =>
      obtain ⟨u, rfl⟩ := booleanConstant_eq hleft
      by_cases hx : x = conjunction
      · subst hx
        simp only [beq_self_eq_true, if_true]
        refine rewritten_changed keepsRight fun record _ v h => ?_
        obtain ⟨p, q, hp, hq, hv⟩ := eval_binary_ok h
        cases hp
        obtain ⟨p, hp, hsame, -⟩ := apply_boolean hv
        cases hp
        obtain ⟨q', rfl, rfl⟩ := hsame rfl
        exact hq
      · have hne : x = !conjunction := by simpa using Bool.eq_not_of_ne hx
        subst hne
        simp only [Bool.not_beq_self, Bool.false_eq_true, if_false]
        refine rewritten_changed keepsLeft fun record _ v h => ?_
        obtain ⟨p, q, hp, hq, hv⟩ := eval_binary_ok h
        cases hp
        obtain ⟨p, hp, -, hother⟩ := apply_boolean hv
        cases hp
        rw [hother rfl]
        rfl
  | none =>
      cases hright : booleanConstant r with
      | none => exact rewritten_self ⟨hargs, htype⟩
      | some x =>
          obtain ⟨u, rfl⟩ := booleanConstant_eq hright
          by_cases hx : x = conjunction
          · subst hx
            simp only [beq_self_eq_true, if_true]
            refine rewritten_changed keepsLeft fun record _ v h => ?_
            obtain ⟨p, q, hp, hq, hv⟩ := eval_binary_ok h
            cases hq
            obtain ⟨p, rfl, hsame, hother⟩ := apply_boolean hv
            by_cases hpx : p = x
            · obtain ⟨q', hq', rfl⟩ := hsame hpx
              cases hq'
              rw [hp, hpx]
            · have hpx : p = !x := by simpa using Bool.eq_not_of_ne hpx
              rw [hp, hother hpx, hpx]
          · have hne : x = !conjunction := by simpa using Bool.eq_not_of_ne hx
            subst hne
            simp only [Bool.not_beq_self, Bool.false_eq_true, if_false]
            refine rewritten_changed keepsRight fun record _ v h => ?_
            obtain ⟨p, q, hp, hq, hv⟩ := eval_binary_ok h
            cases hq
            obtain ⟨p, rfl, hsame, hother⟩ := apply_boolean hv
            by_cases hpx : p = conjunction
            · obtain ⟨q', hq', rfl⟩ := hsame hpx
              cases hq'
              rfl
            · have hpx : p = !conjunction := by simpa using Bool.eq_not_of_ne hpx
              rw [hother hpx]
              rfl

/-! ### Negations and casts -/

theorem apply_negate {x v : Value} (h : Function.booleanNegate.apply [x] = .ok v) :
    ∃ p, x = .boolean p ∧ v = .boolean !p := by
  obtain ⟨p, hp, hv⟩ := bind_eq_ok.mp (show booleanNegateExecutor x = .ok v from h)
  cases hv
  exact ⟨p, Value.type_of_getBool hp, rfl⟩

omit [Platform] in
theorem negate_args {args : List Scalar} {t : ValueType}
    (h : Function.booleanNegate.hasType (args.map Scalar.valueType) t = true) :
    ∃ a, args = [a] ∧ a.valueType.fits .boolean = true ∧ t = .boolean := by
  match args with
  | [a] => exact ⟨a, rfl, by simpa [Function.hasType] using h⟩
  | [] => simp [Function.hasType] at h
  | _ :: _ :: _ => simp [Function.hasType] at h

theorem simplifyDoubleNegation_rewritten {args : List Scalar} {t : ValueType}
    (htyped : (Scalar.fnCall .booleanNegate args t).Typed types) :
    Rewritten types (.fnCall .booleanNegate args t)
      (simplifyDoubleNegation args (.fnCall .booleanNegate args t)) := by
  obtain ⟨hargs, htype⟩ := htyped
  obtain ⟨a, rfl, ha, rfl⟩ := negate_args htype
  have hatyped : a.Typed types := Scalar.typedAll_iff.mp hargs a (by simp)
  unfold simplifyDoubleNegation
  split
  next innerArgs inner rest u heq =>
    cases heq
    obtain ⟨hinner, hinnerType⟩ := hatyped
    obtain ⟨c, hc, hcfits, rfl⟩ := negate_args hinnerType
    cases hc
    refine rewritten_changed (.of_fits (Scalar.typedAll_iff.mp hinner _ (by simp)) hcfits)
      fun record _ v h => ?_
    obtain ⟨x, hx, hv⟩ := eval_unary_ok h
    obtain ⟨y, hy, hxy⟩ := eval_unary_ok hx
    obtain ⟨p, rfl, rfl⟩ := apply_negate hxy
    obtain ⟨q, hq, rfl⟩ := apply_negate hv
    cases hq
    rw [hy, Bool.not_not]
  next u heq =>
    cases heq
    obtain ⟨-, hinnerType⟩ := hatyped
    obtain ⟨c, hc, -⟩ := negate_args hinnerType
    cases hc
  next => exact rewritten_self ⟨hargs, htype⟩
  next hone => exact absurd rfl (hone a)

/-- A cast of a value of the type that it has. -/
theorem apply_cast_self {x v : Value} {t : ValueType} (hx : x.HasType t)
    (h : (Function.cast t).apply [x] = .ok v) : v = x := by
  have h : castExecutor t x = .ok v := h
  rcases hx with rfl | rfl
  · cases h
    rfl
  · cases x <;> cases h <;> rfl

theorem castIdentity_rewritten {castTo t : ValueType} {arg : Scalar}
    (htyped : (Scalar.fnCall (.cast castTo) [arg] t).Typed types)
    (hcast : arg.valueType = castTo) :
    KeepsType types (.fnCall (.cast castTo) [arg] t) arg ∧
      Agrees types (.fnCall (.cast castTo) [arg] t) arg := by
  obtain ⟨hargs, htype⟩ := htyped
  have harg : arg.Typed types := Scalar.typedAll_iff.mp hargs arg (by simp)
  have ht : t = castTo := Function.hasType_resultType htype rfl
  refine ⟨⟨harg, .inl (hcast.trans ht.symm)⟩, fun record hrecord v h => ?_⟩
  obtain ⟨x, hx, hv⟩ := eval_unary_ok h
  have hxt := harg.eval hrecord hx
  rw [hcast] at hxt
  rw [hx, apply_cast_self hxt hv]

omit [Platform] in
theorem cast_args {castTo t : ValueType} {args : List Scalar}
    (h : (Function.cast castTo).hasType (args.map Scalar.valueType) t = true) :
    ∃ a, args = [a] := by
  match args with
  | [a] => exact ⟨a, rfl⟩
  | [] => simp [Function.hasType] at h
  | _ :: _ :: _ => simp [Function.hasType] at h

/-! ### Alternatives -/

theorem evalFirst_append (as bs : List Scalar) :
    Scalar.evalFirst record (as ++ bs) = (do
      let v ← Scalar.evalFirst record as
      if v.isNull then Scalar.evalFirst record bs else pure v) := by
  induction as with
  | nil => rfl
  | cons a as ih =>
      rw [List.cons_append, Scalar.evalFirst, Scalar.evalFirst]
      cases a.eval record with
      | error e => rfl
      | ok v =>
          cases hv : v.isNull with
          | true => simp only [ok_bind, hv, if_true, ih]
          | false => simp [hv]

/-- If no alternative has a value, each of them is null. -/
theorem evalFirst_null {as : List Scalar} (h : Scalar.evalFirst record as = .ok .null) {a : Scalar}
    (ha : a ∈ as) : a.eval record = .ok .null := by
  induction as with
  | nil => cases ha
  | cons b bs ih =>
      obtain ⟨v, hv, hrest⟩ := bind_eq_ok.mp h
      split at hrest
      next hnull =>
        rcases List.mem_cons.mp ha with rfl | ha
        · rw [hv, Value.isNull_iff.mp hnull]
        · exact ih hrest ha
      next hnull =>
        cases hrest
        exact absurd rfl hnull

/-- Evaluating all alternatives, as the function does, gives what evaluating them one after another
does. -/
theorem evalFirst_of_all {as : List Scalar} {vs : List Value} {v : Value}
    (hvs : List.Forall₂ (fun a v => a.eval record = .ok v) as vs)
    (h : coalesceExecutor vs = .ok v) : Scalar.evalFirst record as = .ok v := by
  induction hvs with
  | nil =>
      cases h
      rfl
  | @cons a w as ws hw _ ih =>
      rw [Scalar.evalFirst, hw]
      rw [coalesceExecutor] at h ih
      cases hnull : w.isNull with
      | true =>
          simp only [List.find?_cons, hnull, Bool.not_true] at h
          simp only [ok_bind, hnull, if_true]
          exact ih h
      | false =>
          simp only [List.find?_cons, hnull, Bool.not_false, Option.getD_some] at h
          simpa [hnull] using h

theorem coalesceNode_rewritten {args : List Scalar} {t : ValueType}
    (htyped : (Scalar.fnCall .coalesce args t).Typed types) :
    KeepsType types (.fnCall .coalesce args t) (.coalesce args t) ∧
      Agrees types (.fnCall .coalesce args t) (.coalesce args t) := by
  obtain ⟨hargs, htype⟩ := htyped
  refine ⟨⟨⟨hargs, fun a ha => ?_⟩, .inl rfl⟩, fun record _ v h => ?_⟩
  · have hall : (args.map Scalar.valueType).all (fun a => a.fits t) = true := htype
    exact List.all_eq_true.mp hall _ (List.mem_map_of_mem ha)
  · obtain ⟨vs, hvs, hv⟩ := eval_fnCall_ok h
    exact evalFirst_of_all hvs hv

/-- The function rules. -/
theorem optimizeFnCall_rewritten {f : Function} {args : List Scalar} {t : ValueType}
    (htyped : (Scalar.fnCall f args t).Typed types) :
    Rewritten types (.fnCall f args t) (optimizeFnCall f args t) := by
  unfold optimizeFnCall
  dsimp only
  split
  next castTo =>
    obtain ⟨arg, rfl⟩ := cast_args htyped.2
    dsimp only
    split
    next hcast =>
      obtain ⟨hkeeps, hagrees⟩ := castIdentity_rewritten htyped hcast
      exact rewritten_changed hkeeps hagrees
    next => exact rewritten_self htyped
  next => exact @simplifyBooleanBinary_rewritten _ _ true _ _ htyped
  next => exact @simplifyBooleanBinary_rewritten _ _ false _ _ htyped
  next => exact simplifyDoubleNegation_rewritten htyped
  next =>
    obtain ⟨hkeeps, hagrees⟩ := coalesceNode_rewritten htyped
    exact rewritten_changed hkeeps hagrees
  next => exact rewritten_self htyped

/-- What the loop over the alternatives ends in, on a record. -/
def Alternatives.eval (record : FieldId → Except Fault Value) : Alternatives → Except Fault Value
  | .constant v => .ok v
  | .kept args => Scalar.evalFirst record args

/-- Every alternative that compares equal to one kept before it is the same scalar. -/
def DropsCopies (kept : List Scalar) : List Scalar → Prop
  | [] => True
  | .value v _ :: as => v.isNull = true → DropsCopies kept as
  | a :: as =>
    if kept.any fun previous => previous.equal a then a ∈ kept ∧ DropsCopies kept as
    else DropsCopies (kept ++ [a]) as

/-- Dropping an alternative that has no value of its own. -/
theorem evalFirst_drop {kept as : List Scalar} {a : Scalar} {v : Value}
    (ha : Scalar.evalFirst record kept = .ok .null → ∀ w, a.eval record = .ok w → w = .null)
    (h : Scalar.evalFirst record (kept ++ a :: as) = .ok v) :
    Scalar.evalFirst record (kept ++ as) = .ok v := by
  rw [evalFirst_append] at h ⊢
  obtain ⟨w, hw, hrest⟩ := bind_eq_ok.mp h
  rw [hw, ok_bind]
  cases hnull : w.isNull with
  | false => simpa [hnull] using hrest
  | true =>
      rw [hnull, if_pos rfl] at hrest
      rw [if_pos rfl]
      obtain ⟨u, hu, hrest⟩ := bind_eq_ok.mp hrest
      rw [Value.isNull_iff.mp hnull] at hw
      cases ha hw u hu
      simpa using hrest

theorem keepAlternatives_eval {kept rest : List Scalar} {v : Value}
    (hcopies : DropsCopies kept rest)
    (h : Scalar.evalFirst record (kept ++ rest) = .ok v) :
    (keepAlternatives kept rest).eval record = .ok v := by
  fun_induction keepAlternatives kept rest with
  | case1 kept =>
      rw [List.append_nil] at h
      exact h
  | case2 kept w t as hnull ih =>
      refine ih (hcopies hnull) (evalFirst_drop (fun _ u hu => ?_) h)
      cases hu
      exact Value.isNull_iff.mp hnull
  | case3 kept w t as hnull hempty =>
      rw [List.isEmpty_iff.mp hempty, List.nil_append, Scalar.evalFirst, Scalar.eval, ok_bind,
        if_neg hnull] at h
      exact h
  | case4 kept w t as hnull hempty =>
      -- nothing behind a constant is evaluated
      have hcut : Scalar.evalFirst record (.value w t :: as) =
          Scalar.evalFirst record [.value w t] := by
        simp [Scalar.evalFirst, Scalar.eval, hnull]
      rw [evalFirst_append, hcut, ← evalFirst_append] at h
      exact h
  | case5 kept a as hconstant hdup ih =>
      rw [DropsCopies, if_pos hdup] at hcopies
      · refine ih hcopies.2 (evalFirst_drop (fun hkept u hu => ?_) h)
        rw [evalFirst_null hkept hcopies.1] at hu
        exact (Except.ok.inj hu).symm
      · exact hconstant
  | case6 kept a as hconstant hdup ih =>
      rw [DropsCopies, if_neg hdup] at hcopies
      · refine ih hcopies ?_
        rwa [List.append_assoc, List.singleton_append]
      · exact hconstant

omit [Platform] in
theorem keepAlternatives_kept {kept rest args : List Scalar}
    (h : keepAlternatives kept rest = .kept args) : ∀ a ∈ args, a ∈ kept ∨ a ∈ rest := by
  fun_induction keepAlternatives kept rest with
  | case1 kept =>
      cases h
      exact fun a ha => .inl ha
  | case2 kept w t as hnull ih =>
      exact fun a ha => (ih h a ha).imp_right (List.mem_cons_of_mem _)
  | case3 kept w t as hnull hempty => cases h
  | case4 kept w t as hnull hempty =>
      cases h
      intro a ha
      rcases List.mem_append.mp ha with ha | ha
      · exact .inl ha
      · exact .inr (List.mem_singleton.mp ha ▸ List.mem_cons_self)
  | case5 kept a as hconstant hdup ih =>
      exact fun b hb => (ih h b hb).imp_right (List.mem_cons_of_mem _)
  | case6 kept a as hconstant hdup ih =>
      intro b hb
      rcases ih h b hb with hb | hb
      · rcases List.mem_append.mp hb with hb | hb
        · exact .inl hb
        · exact .inr (List.mem_singleton.mp hb ▸ List.mem_cons_self)
      · exact .inr (List.mem_cons_of_mem _ hb)

omit [Platform] in
theorem keepAlternatives_constant {kept rest : List Scalar} {v : Value}
    (h : keepAlternatives kept rest = .constant v) : ∃ t, .value v t ∈ rest := by
  fun_induction keepAlternatives kept rest with
  | case1 kept => cases h
  | case2 kept w t as hnull ih =>
      obtain ⟨u, hu⟩ := ih h
      exact ⟨u, List.mem_cons_of_mem _ hu⟩
  | case3 kept w t as hnull hempty =>
      cases h
      exact ⟨t, List.mem_cons_self⟩
  | case4 kept w t as hnull hempty => cases h
  | case5 kept a as hconstant hdup ih =>
      obtain ⟨u, hu⟩ := ih h
      exact ⟨u, List.mem_cons_of_mem _ hu⟩
  | case6 kept a as hconstant hdup ih =>
      obtain ⟨u, hu⟩ := ih h
      exact ⟨u, List.mem_cons_of_mem _ hu⟩

/-- The rule for the node. -/
theorem optimizeCoalesce_rewritten {args : List Scalar} {t : ValueType}
    (htyped : (Scalar.coalesce args t).Typed types) (b : Bool) :
    ∃ s' b', optimizeCoalesce args t b = .ok (s', b') ∧ KeepsType types (.coalesce args t) s' ∧
      (DropsCopies [] args → Agrees types (.coalesce args t) s') := by
  obtain ⟨hargs, hfits⟩ := htyped
  have hargs := Scalar.typedAll_iff.mp hargs
  have heval : DropsCopies [] args → ∀ record v,
      (Scalar.coalesce args t).eval record = .ok v →
      (keepAlternatives [] args).eval record = .ok v := by
    intro hcopies record v h
    exact keepAlternatives_eval hcopies h
  unfold optimizeCoalesce
  cases halts : keepAlternatives [] args with
  | constant w =>
      rw [halts] at heval
      obtain ⟨u, hw⟩ := keepAlternatives_constant halts
      have hwt : w.HasType t := (hargs _ hw).of_fits (hfits _ hw)
      exact ⟨_, _, rfl, ⟨hwt, .inl rfl⟩, fun hcopies record _ v h => heval hcopies record v h⟩
  | kept kept =>
      rw [halts] at heval
      have hmem : ∀ a ∈ kept, a ∈ args := fun a ha =>
        (keepAlternatives_kept halts a ha).resolve_left List.not_mem_nil
      have hkeeps : KeepsType types (.coalesce args t) (.coalesce kept t) :=
        ⟨⟨Scalar.typedAll_iff.mpr fun a ha => hargs a (hmem a ha),
          fun a ha => hfits a (hmem a ha)⟩, .inl rfl⟩
      match kept with
      | [] =>
        exact ⟨_, _, rfl, ⟨.inl rfl, .inl rfl⟩, fun hcopies record _ v h => heval hcopies record v h⟩
      | [s] =>
        refine ⟨_, _, rfl, .of_fits (hargs s (hmem s (by simp))) (hfits s (hmem s (by simp))),
          fun hcopies record _ v h => ?_⟩
        obtain ⟨w, hw, hv⟩ := bind_eq_ok.mp (heval hcopies record v h)
        split at hv
        next hnull =>
          cases hv
          rw [hw, Value.isNull_iff.mp hnull]
        next =>
          cases hv
          exact hw
      | a :: a' :: as =>
        dsimp only
        split
        · exact ⟨_, _, rfl, hkeeps, fun hcopies record _ v h => heval hcopies record v h⟩
        · exact ⟨_, _, rfl, hkeeps, fun hcopies record _ v h => heval hcopies record v h⟩

/-! ### A pass -/

mutual

/-- In one pass, every alternative that a node drops as a duplicate is a copy of one that it keeps. -/
def OnlyCopies : Scalar → Prop
  | .field _ _ => True
  | .value _ _ => True
  | .coalesce args _ =>
    OnlyCopiesAll args ∧ ∀ b args' b', visitAll args b = .ok (args', b') → DropsCopies [] args'
  | .fnCall _ args _ => OnlyCopiesAll args
  | .cached s _ => OnlyCopies s

def OnlyCopiesAll : List Scalar → Prop
  | [] => True
  | a :: as => OnlyCopies a ∧ OnlyCopiesAll as

end

omit [Platform] in
theorem coalesce_keepsType {args args' : List Scalar} {t : ValueType}
    (htyped : (Scalar.coalesce args t).Typed types)
    (hkeeps : List.Forall₂ (KeepsType types) args args') :
    KeepsType types (.coalesce args t) (.coalesce args' t) := by
  refine ⟨⟨Scalar.typedAll_iff.mpr fun a' ha' => ?_, fun a' ha' => ?_⟩, .inl rfl⟩
  · obtain ⟨a, -, ha⟩ := forall₂_mem_right hkeeps ha'
    exact ha.typed
  · obtain ⟨a, hmem, ha⟩ := forall₂_mem_right hkeeps ha'
    exact ha.fits (htyped.2 a hmem)

omit [Platform] in
theorem fnCall_keepsType {f : Function} {args args' : List Scalar} {t : ValueType}
    (htyped : (Scalar.fnCall f args t).Typed types)
    (hkeeps : List.Forall₂ (KeepsType types) args args') :
    KeepsType types (.fnCall f args t) (.fnCall f args' t) := by
  refine ⟨⟨Scalar.typedAll_iff.mpr fun a' ha' => ?_, ?_⟩, .inl rfl⟩
  · obtain ⟨a, -, ha⟩ := forall₂_mem_right hkeeps ha'
    exact ha.typed
  · refine Function.hasType_of_null (List.forall₂_map_left_iff.mpr
      (List.forall₂_map_right_iff.mpr (hkeeps.imp fun a a' ha => ha.type))) htyped.2

theorem evalFirst_agrees {args args' : List Scalar} {v : Value}
    (hargs : List.Forall₂ (fun a a' => ∀ v, a.eval record = .ok v → a'.eval record = .ok v)
      args args')
    (h : Scalar.evalFirst record args = .ok v) : Scalar.evalFirst record args' = .ok v := by
  induction hargs with
  | nil => exact h
  | cons ha _ ih =>
      obtain ⟨w, hw, hrest⟩ := bind_eq_ok.mp h
      rw [Scalar.evalFirst, ha w hw, ok_bind]
      split at hrest
      next hnull =>
        rw [if_pos hnull]
        exact ih hrest
      next hnull =>
        rw [if_neg hnull]
        exact hrest

theorem evalAll_agrees {args args' : List Scalar} {vs : List Value}
    (hargs : List.Forall₂ (fun a a' => ∀ v, a.eval record = .ok v → a'.eval record = .ok v)
      args args')
    (h : Scalar.evalAll record args = .ok vs) : Scalar.evalAll record args' = .ok vs := by
  induction hargs generalizing vs with
  | nil => exact h
  | cons ha _ ih =>
      obtain ⟨w, hw, hrest⟩ := bind_eq_ok.mp h
      obtain ⟨ws, hws, hvs⟩ := bind_eq_ok.mp hrest
      rw [Scalar.evalAll, ha w hw, ok_bind, ih hws]
      exact hvs

/-- What one pass makes of a scalar. -/
def Visited (types : FieldId → ValueType) (s : Scalar) : Prop :=
  ∀ b, ∃ s' b', visit s b = .ok (s', b') ∧ KeepsType types s s' ∧
    (OnlyCopies s → Agrees types s s')

theorem visitAll_spec {args : List Scalar} (hargs : ∀ a ∈ args, Visited types a) (b : Bool) :
    ∃ args' b', visitAll args b = .ok (args', b') ∧ List.Forall₂ (KeepsType types) args args' ∧
      (OnlyCopiesAll args → List.Forall₂ (Agrees types) args args') := by
  induction args generalizing b with
  | nil => exact ⟨[], b, rfl, .nil, fun _ => .nil⟩
  | cons a as ih =>
      obtain ⟨a', b₁, ha, hkeeps, hagrees⟩ := hargs a List.mem_cons_self b
      obtain ⟨as', b₂, has, hkeepsAll, hagreesAll⟩ :=
        ih (fun c hc => hargs c (List.mem_cons_of_mem _ hc)) b₁
      refine ⟨a' :: as', b₂, ?_, .cons hkeeps hkeepsAll,
        fun hcopies => .cons (hagrees hcopies.1) (hagreesAll hcopies.2)⟩
      rw [visitAll]
      exact Pass.bind_ok.mpr ⟨a', b₁, ha, Pass.bind_ok.mpr ⟨as', b₂, has, rfl⟩⟩

/-- **One pass.** It completes on every well-typed scalar. -/
theorem visit_spec {s : Scalar} (h : s.Typed types) : Visited types s := by
  induction s using Scalar.induction with
  | field id t => exact fun b => ⟨_, b, rfl, .refl h, fun _ => .refl _⟩
  | value v t => exact fun b => ⟨_, b, rfl, .refl h, fun _ => .refl _⟩
  | coalesce args t ih =>
      intro b
      obtain ⟨args', b₁, hvisit, hkeepsAll, hagreesAll⟩ :=
        visitAll_spec (fun a ha => ih a ha (Scalar.typedAll_iff.mp h.1 a ha)) b
      have hkeeps := coalesce_keepsType h hkeepsAll
      obtain ⟨s', b', hs', hkeeps', hagrees'⟩ := optimizeCoalesce_rewritten hkeeps.typed b₁
      refine ⟨s', b', ?_, hkeeps.trans hkeeps', fun hcopies => ?_⟩
      · rw [visit]
        exact Pass.bind_ok.mpr ⟨args', b₁, hvisit, hs'⟩
      · refine Agrees.trans (fun record hrecord v hv => ?_) (hagrees' (hcopies.2 b args' b₁ hvisit))
        exact evalFirst_agrees ((hagreesAll hcopies.1).imp fun a a' ha => ha record hrecord) hv
  | fnCall f args t ih =>
      intro b
      obtain ⟨args', b₁, hvisit, hkeepsAll, hagreesAll⟩ :=
        visitAll_spec (fun a ha => ih a ha (Scalar.typedAll_iff.mp h.1 a ha)) b
      have hkeeps := fnCall_keepsType h hkeepsAll
      obtain ⟨s', b', hs', hkeeps', hagrees'⟩ := optimizeFnCall_rewritten hkeeps.typed b₁
      refine ⟨s', b', ?_, hkeeps.trans hkeeps', fun hcopies => ?_⟩
      · rw [visit]
        exact Pass.bind_ok.mpr ⟨args', b₁, hvisit, hs'⟩
      · refine Agrees.trans (fun record hrecord v hv => ?_) hagrees'
        obtain ⟨vs, hvs, hf⟩ := bind_eq_ok.mp hv
        refine bind_eq_ok.mpr ⟨vs, ?_, hf⟩
        exact evalAll_agrees ((hagreesAll hcopies).imp fun a a' ha => ha record hrecord) hvs
  | cached s t ih =>
      intro b
      obtain ⟨s', b', hvisit, hkeeps, hagrees⟩ := ih h.1 b
      refine ⟨.cached s' t, b', ?_, ⟨⟨hkeeps.typed, hkeeps.fits h.2⟩, .inl rfl⟩, fun hcopies => ?_⟩
      · rw [visit]
        exact Pass.bind_ok.mpr ⟨s', b', hvisit, rfl⟩
      · exact fun record hrecord v hv => hagrees hcopies record hrecord v hv

/-! ### Any number of passes -/

/-- `OnlyCopies` in each of a number of passes. -/
def OnlyCopiesTimes : Nat → Scalar → Prop
  | 0, _ => True
  | n + 1, s => OnlyCopies s ∧ ∀ s', simplify s = .ok s' → OnlyCopiesTimes n s'

/-- The simplified scalar has the value of the original wherever the original has one, and its type
unless it is always null. -/
structure Preserves (types : FieldId → ValueType) (s s' : Scalar) : Prop where
  value : Agrees types s s'
  type : s'.valueType = s.valueType ∨
    ∀ record, Scalar.TypedRecord types record → ∀ v, s'.eval record = .ok v → v = .null

theorem simplifyTimes_spec (n : Nat) {s : Scalar} (h : s.Typed types) :
    ∃ s', simplifyTimes n s = .ok s' ∧ KeepsType types s s' ∧
      (OnlyCopiesTimes n s → Agrees types s s') := by
  induction n generalizing s with
  | zero => exact ⟨s, rfl, .refl h, fun _ => .refl s⟩
  | succ n ih =>
      obtain ⟨s₁, b, hvisit, hkeeps, hagrees⟩ := visit_spec h false
      have hpass : simplify s = .ok s₁ := Pass.result_ok.mpr ⟨b, hvisit⟩
      obtain ⟨s', hs', hkeeps', hagrees'⟩ := ih hkeeps.typed
      refine ⟨s', ?_, hkeeps.trans hkeeps', fun hcopies => ?_⟩
      · rw [simplifyTimes, hpass, ok_bind, hs']
      · exact (hagrees hcopies.1).trans (hagrees' (hcopies.2 s₁ hpass))

/-- **Meaning is preserved** by any number of passes that drop only copies. -/
theorem simplify_eval (n : Nat) {s : Scalar} (h : s.Typed types) (hcopies : OnlyCopiesTimes n s) :
    ∃ s', simplifyTimes n s = .ok s' ∧ Preserves types s s' := by
  obtain ⟨s', hs', hkeeps, hagrees⟩ := simplifyTimes_spec n h
  refine ⟨s', hs', hagrees hcopies, ?_⟩
  rcases hkeeps.type with ht | ht
  · exact .inl ht
  · exact .inr fun record hrecord v hv => hkeeps.typed.eval_null hrecord ht hv

end Rules

/-- `coalesce(x, NOT NOT y, x)`. -/
def repeatedField : Scalar :=
  .coalesce [.field 0 .boolean,
    .fnCall .booleanNegate [.fnCall .booleanNegate [.field 1 .boolean] .boolean] .boolean,
    .field 0 .boolean] .boolean

theorem simplify_eval_repeatedField :
    ∃ s', simplifyTimes 2 repeatedField = .ok s' ∧
      @Preserves Platform.inert (fun _ => .boolean) repeatedField s' := by
  refine @simplify_eval Platform.inert (fun _ => .boolean) 2 repeatedField ?_ ⟨?_, ?_⟩
  · simp [repeatedField, Scalar.Typed, Scalar.TypedAll, Function.hasType, ValueType.fits]
  · refine ⟨⟨trivial, ⟨⟨trivial, trivial⟩, trivial⟩, trivial, trivial⟩, fun b args' b' h => ?_⟩
    cases h
    exact ⟨List.mem_cons_self, trivial⟩
  · intro s' h
    cases h
    refine ⟨⟨⟨trivial, trivial, trivial⟩, fun b args' b' h => ?_⟩, fun s' h => trivial⟩
    cases h
    trivial

/-! ### Signed zeros -/

/-- The platform's `std::to_string`, on the two zeros. -/
@[reducible] def zeroTexts : Platform :=
  { Platform.inert with
    floatToString := fun x => Bytes.ofString (if x.sign then "-0.000000" else "0.000000") }

/-- `splitPart(string(zero), '-', 1)`. -/
def partBehindSign (zero : Float32Bits) : Scalar :=
  .fnCall (.splitPart 45 1) [.fnCall (.cast .string) [.value (.floating zero) .floating] .string]
    .string

/-- `coalesce` of the parts for `0.0` and for `-0.0`. -/
def signedZeros : Scalar :=
  .coalesce [partBehindSign .zero, partBehindSign ⟨0x80000000⟩] .string

/-- The part for `-0.0` is the value of `signedZeros`; simplified, it is null. -/
theorem signedZeros_changed :
    signedZeros.Typed (fun _ => .null) ∧
      @Scalar.eval zeroTexts (fun _ => .ok .null) signedZeros =
        .ok (.string (Bytes.ofString "0.000000")) ∧
      ∃ s', simplifyTimes 1 signedZeros = .ok s' ∧
        @Scalar.eval zeroTexts (fun _ => .ok .null) s' = .ok .null := by
  refine ⟨?_, rfl, partBehindSign .zero, rfl, rfl⟩
  simp [signedZeros, partBehindSign, Scalar.Typed, Scalar.TypedAll, Function.hasType,
    ValueType.fits, Value.HasType]

end Lsql.Opt.ScalarSimplify
