import Lsql.Core.ValueHash
import Lsql.Opt.Pass
import Lsql.Plan.Scalar

/-!
# Lsql.Opt.ConstAggregateFold

The pass that folds aggregates over constants (`optimize/const_aggregate_fold.cpp`).

`MIN` and `MAX` of a constant, and `COUNT` of a null, become a `ConstAggregate`, which holds the
answer and counts the records to know whether there were any; `COUNT` of any other constant becomes
`COUNT(*)`. The counter of a `ConstAggregate` is an `int`, and every record raises it, so a
`ConstAggregate` does not get past `intMax` records; the aggregators that it replaces count in 64 bits
or not at all.
-/

namespace Lsql.Opt.ConstAggregateFold

open Ir
open Exec (Aggregator Record ScalarContext)

/-! ### The pass -/

/-- `std::holds_alternative<ir::ValueScalar>(arg.node)`. -/
def isValue : Scalar → Bool
  | .value _ _ => true
  | _ => false

/-- `std::get<ir::ValueScalar>(a.args[0].node).value`. -/
def firstValue : List Scalar → Except Fault Value
  | [] => .error (.undefined "read past the end of a vector")
  | .value v _ :: _ => .ok v
  | _ :: _ => .error (.exception "std::get: wrong index for variant")

/-- `Optimizer::optimize`. -/
def optimize (self : Aggregate) : Pass Aggregate :=
  match self.node with
  | .const _ _ => pure self
  | .fnCall f args =>
    if f.isScalar then pure self
    else if !args.all isValue then pure self
    else
      match f with
      | .countNonNull => do
        let value ← firstValue args
        Pass.setChanges
        if value.isNull then
          pure { self with node := .const (.integer 0) false }
        else
          pure { self with node := .fnCall .countAll [] }
      | .min _ => do
        Pass.setChanges
        let value ← firstValue args
        pure { self with node := .const value true }
      | .max _ => do
        Pass.setChanges
        let value ← firstValue args
        pure { self with node := .const value true }
      | _ => pure self

/-! ### Aggregates over records -/

section Records

variable [Platform]

/-- What an aggregator answers over records: the context is reset for each record that it is fed. -/
def answer : Aggregator → ScalarContext → List Record → Except Fault Value
  | a, _, [] => a.get
  | a, ctx, record :: records => do
    let (a, ctx) ← a.feed record ctx.reset
    answer a ctx records

/-- The slots of a scope. -/
def contextOf (scope : Option Plan.ScalarScope) : ScalarContext :=
  (scope.map Plan.ScalarScope.context).getD []

/-- What an aggregate answers over records, from its planning on. -/
def valueOver (schema : Schema) (a : Aggregate) (records : List Record) : Except Fault Value := do
  let (planned, scope) ← Plan.planAggregate schema a.node a.valueType (some .empty)
  answer planned.aggregator (contextOf scope) records

/-- What the state of a function answers after a number of copies of a value. -/
def answerCopies (v : Value) : Nat → FnAggregator → Except Fault Value
  | 0, state => state.get
  | n + 1, state => do
    let state ← state.feed v
    answerCopies v n state

/-- An aggregator over a constant is fed copies of it. -/
theorem answer_value (v : Value) (state : FnAggregator) (ctx : ScalarContext)
    (records : List Record) :
    answer (.unary (.value v) state) ctx records = answerCopies v records.length state := by
  induction records generalizing state ctx with
  | nil => rfl
  | cons record records ih =>
      rw [answer, Aggregator.feed, Exec.Scalar.eval, ok_bind, List.length_cons, answerCopies]
      show (state.feed v >>= _) >>= _ = _
      cases state.feed v with
      | error e => rfl
      | ok state => exact ih state ctx.reset

/-- An aggregator without an argument is fed nothing, once for each record. -/
theorem answer_nullary (state : FnAggregator) (ctx : ScalarContext) (records : List Record) :
    answer (.nullary state) ctx records = answerCopies .null records.length state := by
  induction records generalizing state ctx with
  | nil => rfl
  | cons record records ih =>
      rw [answer, Aggregator.feed, List.length_cons, answerCopies]
      cases state.feed .null with
      | error e => rfl
      | ok state => exact ih state ctx.reset

/-- A `ConstAggregate` answers as long as its counter holds the number of records. -/
theorem answer_const_ok {v : Value} {nullIfEmpty : Bool} {count : Nat} {ctx : ScalarContext}
    {records : List Record} (h : count + records.length ≤ Aggregator.intMax) :
    answer (.const v nullIfEmpty count) ctx records =
      .ok (if nullIfEmpty && count + records.length = 0 then .null else v) := by
  induction records generalizing count ctx with
  | nil =>
      rw [answer, Aggregator.get]
      split
      next hempty => exact (congrArg Except.ok (if_pos hempty)).symm
      next hempty => exact (congrArg Except.ok (if_neg hempty)).symm
  | cons record records ih =>
      rw [List.length_cons] at h ⊢
      have hroom : count < Aggregator.intMax := by omega
      have hsum : count + 1 + records.length = count + (records.length + 1) := by omega
      rw [answer, Aggregator.feed, if_pos hroom, ok_bind]
      show answer (.const v nullIfEmpty (count + 1)) ctx.reset records = _
      rw [ih (hsum ▸ h), hsum]

/-- One record too many overflows it. -/
theorem answer_const_overflow {v : Value} {nullIfEmpty : Bool} {count : Nat} {ctx : ScalarContext}
    {records : List Record} (hcount : count ≤ Aggregator.intMax)
    (h : Aggregator.intMax < count + records.length) :
    answer (.const v nullIfEmpty count) ctx records = .error (.undefined "signed overflow") := by
  induction records generalizing count ctx with
  | nil => exact absurd h (by simpa using hcount)
  | cons record records ih =>
      rw [List.length_cons] at h
      rw [answer, Aggregator.feed]
      split
      next hroom => exact ih hroom (by omega)
      next => rfl

/-! ### The aggregators that are replaced -/

/-- Copies that leave the state as it is. -/
theorem answerCopies_of_feed {v : Value} {state : FnAggregator} (h : state.feed v = .ok state)
    (n : Nat) : answerCopies v n state = state.get := by
  induction n with
  | zero => rfl
  | succ n ih => rw [answerCopies, h, ok_bind, ih]

/-- `COUNT` of a value that is not null counts what `COUNT(*)` counts. -/
theorem answerCopies_count {v : Value} (hv : v.isNull = false) (n : Nat) (count : Int64) :
    answerCopies .null n (.countAll count) = answerCopies v n (.countNonNull count) := by
  induction n generalizing count with
  | zero => rfl
  | succ n ih =>
      rw [answerCopies, answerCopies, FnAggregator.feed, FnAggregator.feed, hv]
      show (checkedInt64 (count.toInt + 1) >>= _) >>= _ = (checkedInt64 (count.toInt + 1) >>= _) >>= _
      cases checkedInt64 (count.toInt + 1) with
      | error e => rfl
      | ok count => exact ih count

omit [Platform] in
/-- Reading a value as an operand keeps all but the way its string is held. -/
theorem toValue_get {T : Operand} {v : Value} {x : T.Carrier} (h : T.get v = .ok x) :
    T.toValue x = v.owned := by
  cases T <;> cases v <;> cases h <;> rfl

omit [Platform] in
theorem isNull_of_comparable {argType : ValueType} {T : Operand} {v : Value}
    (hT : Operand.comparable argType = some T) (hv : v.type = argType) : v.isNull = false := by
  subst hv
  cases v <;> first | rfl | cases hT

/-- What `MIN` and `MAX` share: they keep one of the values that they have seen, so the first copy is
taken over and the others change nothing. -/
theorem answerCopies_extremum {argType : ValueType} {T : Operand} {v : Value}
    {state : Option T.Carrier → FnAggregator} {pick : T.Carrier → T.Carrier → T.Carrier}
    (hpick : ∀ x, pick x x = x)
    (hget : ∀ res, (state res).get = .ok (res.elim .null T.toValue))
    (hnull : ∀ res, (state res).feed .null = .ok (state res))
    (hfeed : ∀ res w, w.isNull = false → (state res).feed w =
      (T.get w >>= fun x => .ok (state (some (res.elim x fun y => pick y x)))))
    (hT : Operand.comparable argType = some T) (hv : v.HasType argType) (n : Nat) :
    answerCopies v n (state none) = .ok (if n = 0 then .null else v.owned) := by
  rcases hv with rfl | hv
  · rw [answerCopies_of_feed (hnull none), hget]
    split <;> rfl
  · obtain ⟨x, hx⟩ := Operand.get_of_type (hv.trans (Operand.valueType_of_comparable hT).symm)
    have hfeed : ∀ res, (state res).feed v = .ok (state (some (res.elim x fun y => pick y x))) := by
      intro res
      rw [hfeed res v (isNull_of_comparable hT hv), hx, ok_bind]
    have hrest : (state (some x)).feed v = .ok (state (some x)) := by
      rw [hfeed, Option.elim_some, hpick]
    cases n with
    | zero => exact hget none
    | succ n =>
        rw [answerCopies, hfeed, ok_bind, Option.elim_none, answerCopies_of_feed hrest, hget,
          Option.elim_some, toValue_get hx, if_neg n.succ_ne_zero]

theorem answerCopies_min {argType : ValueType} {T : Operand} {v : Value}
    (hT : Operand.comparable argType = some T) (hv : v.HasType argType) (n : Nat) :
    answerCopies v n (.min T none) = .ok (if n = 0 then .null else v.owned) := by
  refine @answerCopies_extremum _ argType T v (.min T) (fun y x => if T.less x y then x else y)
    (fun x => ite_self x) ?_ (fun res => rfl) ?_ hT hv n
  · intro res
    cases res <;> rfl
  · intro res w hw
    rw [FnAggregator.feed, hw]
    cases res <;> rfl

theorem answerCopies_max {argType : ValueType} {T : Operand} {v : Value}
    (hT : Operand.comparable argType = some T) (hv : v.HasType argType) (n : Nat) :
    answerCopies v n (.max T none) = .ok (if n = 0 then .null else v.owned) := by
  refine @answerCopies_extremum _ argType T v (.max T) (fun y x => if T.less y x then x else y)
    (fun x => ite_self x) ?_ (fun res => rfl) ?_ hT hv n
  · intro res
    cases res <;> rfl
  · intro res w hw
    rw [FnAggregator.feed, hw]
    cases res <;> rfl

/-! ### The fold -/

/-- What binding promises of an aggregate's argument. -/
def ArgumentFits (f : Function) (args : List Scalar) : Prop :=
  match f, args with
  | .countAll, [] => True
  | .countNonNull, [_] => True
  | .percentile _ argType, [arg] | .min argType, [arg] | .max argType, [arg]
  | .sum argType, [arg] => arg.valueType.fits argType = true
  | _, _ => False

/-- The calls over constants that become a `ConstAggregate`. -/
def becomesConst (f : Function) (args : List Scalar) : Bool :=
  match f with
  | .min _ | .max _ => true
  | .countNonNull => args.all fun arg => match arg with
    | .value v _ => v.isNull
    | _ => false
  | _ => false

/-- The folded aggregate answers over a number of records what the aggregate answers, if it does. -/
def Preserves (schema : Schema) (a : Aggregate) (n : Nat) : Prop :=
  ∃ a', (optimize a).result = .ok a' ∧ ∀ records : List Record, records.length = n →
    ∀ v, valueOver schema a records = .ok v →
      ∃ v', valueOver schema a' records = .ok v' ∧ v'.owned = v.owned

/-- What an aggregate answers that calls a function with one constant. -/
theorem valueOver_call {schema : Schema} {a : Aggregate} {f : Function} {v : Value}
    {t : ValueType} {start : FnAggregator} (hnode : a.node = .fnCall f [.value v t])
    (hstart : buildAggregate f = .ok start) (hunary : start.isNullary = false)
    (records : List Record) :
    valueOver schema a records = answerCopies v records.length start := by
  have hplan : Plan.planAggregate schema a.node a.valueType (some .empty) =
      .ok (.unary a.valueType start (.value v), some .empty) := by
    simp only [hnode, Plan.planAggregate, Plan.expressionList, Plan.planScalar, ok_bind,
      pure_eq_ok, hstart, hunary]
    rfl
  rw [valueOver, hplan]
  exact answer_value v start _ records

/-- What `COUNT(*)` answers. -/
theorem valueOver_countAll {schema : Schema} {a : Aggregate} (hnode : a.node = .fnCall .countAll [])
    (records : List Record) :
    valueOver schema a records = answerCopies .null records.length (.countAll 0) := by
  rw [valueOver, hnode]
  exact answer_nullary (.countAll 0) [] records

/-- What a `ConstAggregate` answers. -/
theorem valueOver_const {schema : Schema} {a : Aggregate} {v : Value} {nullIfEmpty : Bool}
    (hnode : a.node = .const v nullIfEmpty) (records : List Record) :
    valueOver schema a records = answer (.const v nullIfEmpty 0) [] records := by
  rw [valueOver, hnode]
  rfl

/-- A function that cannot be built answers nothing. -/
theorem valueOver_unbuilt {schema : Schema} {a : Aggregate} {f : Function} {args : List Scalar}
    {e : Fault} (hnode : a.node = .fnCall f args) (hstart : buildAggregate f = .error e)
    (records : List Record) (v : Value) : valueOver schema a records ≠ .ok v := by
  intro h
  obtain ⟨p, hp, -⟩ := bind_eq_ok.mp h
  rw [hnode, Plan.planAggregate, hstart] at hp
  obtain ⟨q, -, hq⟩ := bind_eq_ok.mp hp
  cases hq

variable {schema : Schema} {a a' : Aggregate} {n : Nat}

theorem preserves_of_same (ha' : (optimize a).result = .ok a')
    (h : ∀ records, valueOver schema a' records = valueOver schema a records) :
    Preserves schema a n :=
  ⟨a', ha', fun records _ v hv => ⟨v, (h records).trans hv, rfl⟩⟩

/-- The step to a `ConstAggregate`: what it holds is what the aggregate answers, as long as its counter
lasts. -/
theorem preserves_const_iff {v : Value} {nullIfEmpty : Bool} (ha' : (optimize a).result = .ok a')
    (hnode : a'.node = .const v nullIfEmpty)
    (hvalue : ∀ records : List Record, valueOver schema a records =
      .ok (if nullIfEmpty && records.length = 0 then .null else v.owned)) :
    Preserves schema a n ↔ n ≤ Aggregator.intMax := by
  constructor
  · rintro ⟨a₁, ha₁, h⟩
    cases ha'.symm.trans ha₁
    by_contra hn
    obtain ⟨v', hv', -⟩ := h (List.replicate n .empty) List.length_replicate _ (hvalue _)
    rw [valueOver_const hnode, answer_const_overflow (Nat.zero_le _)] at hv'
    · cases hv'
    · rw [List.length_replicate]
      omega
  · intro hn
    refine ⟨a', ha', fun records hlength w hw => ?_⟩
    rw [hvalue, Except.ok.injEq] at hw
    refine ⟨_, (valueOver_const hnode records).trans (answer_const_ok (by omega)), ?_⟩
    rw [← hw, Nat.zero_add]
    split
    · rfl
    · cases v <;> rfl

/-- An aggregate that is left as it is. -/
theorem preserves_of_kept {f : Function} {args : List Scalar} (hnode : a.node = .fnCall f args)
    (hf : ∀ self : Aggregate, self.node = .fnCall f args → optimize self = pure self) :
    Preserves schema a n :=
  preserves_of_same (Pass.result_ok.mpr ⟨false, by rw [hf a hnode]; rfl⟩) fun _ => rfl

/-- `MIN` and `MAX`: the argument's type has an executor, or there is nothing to preserve. -/
theorem preserves_extremum_iff {f : Function} {argType t : ValueType} {v : Value}
    {start : Operand → FnAggregator} (hnode : a.node = .fnCall f [.value v t])
    (hfold : (optimize a).result = .ok { a with node := .const v true })
    (hbuild : buildAggregate f = (dispatch Operand.comparable argType >>= fun T => .ok (start T)))
    (hunary : ∀ T, (start T).isNullary = false)
    (hanswer : ∀ T, Operand.comparable argType = some T → ∀ n,
      answerCopies v n (start T) = .ok (if n = 0 then .null else v.owned)) :
    Preserves schema a n ↔ n ≤ Aggregator.intMax ∨ (buildAggregate f).isOk = false := by
  cases hT : dispatch Operand.comparable argType with
  | error e =>
      rw [hT] at hbuild
      refine iff_of_true ⟨_, hfold, fun records _ w hw => ?_⟩ (.inr (by rw [hbuild]; rfl))
      exact absurd hw (valueOver_unbuilt hnode hbuild records w)
  | ok T =>
      rw [hT] at hbuild
      have hvalue : ∀ records : List Record, valueOver schema a records =
          .ok (if true && records.length = 0 then .null else v.owned) := by
        intro records
        rw [valueOver_call hnode hbuild (hunary T), hanswer T (dispatch_eq_ok.mp hT)]
        simp
      rw [preserves_const_iff hfold rfl hvalue, hbuild]
      exact ⟨.inl, fun h => h.elim id fun h => by cases h⟩

/-- `COUNT`. -/
theorem preserves_count_iff {v : Value} {t : ValueType}
    (hnode : a.node = .fnCall .countNonNull [.value v t]) :
    Preserves schema a n ↔ n ≤ Aggregator.intMax ∨ v.isNull = false := by
  cases hv : v.isNull with
  | true =>
      have hfold : (optimize a).result = .ok { a with node := .const (.integer 0) false } := by
        rw [optimize, hnode]
        simp [Function.isScalar, isValue, firstValue, hv, Pass.result_ok, Pass.bind_ok,
          Pass.setChanges, Pass.lift_ok, Pass.pure_ok]
      cases Value.isNull_iff.mp hv
      have hvalue : ∀ records : List Record, valueOver schema a records =
          .ok (if false && records.length = 0 then .null else (Value.integer 0).owned) := by
        intro records
        rw [valueOver_call hnode rfl rfl, answerCopies_of_feed rfl]
        rfl
      rw [preserves_const_iff hfold rfl hvalue]
      simp
  | false =>
      have hfold : (optimize a).result = .ok { a with node := .fnCall .countAll [] } := by
        rw [optimize, hnode]
        simp [Function.isScalar, isValue, firstValue, hv, Pass.result_ok, Pass.bind_ok,
          Pass.setChanges, Pass.lift_ok, Pass.pure_ok]
      refine iff_of_true (preserves_of_same hfold fun records => ?_) (.inr rfl)
      rw [valueOver_countAll rfl, valueOver_call hnode rfl rfl, answerCopies_count hv]

omit [Platform] in
theorem value_of_isValue {types : FieldId → ValueType} {arg : Scalar}
    (h : [arg].all isValue = true) (htyped : Scalar.TypedAll types [arg]) :
    ∃ v t, arg = .value v t ∧ v.HasType t := by
  cases arg with
  | value v t => exact ⟨v, t, rfl, htyped.1⟩
  | _ => cases h

/-- **When the fold preserves an aggregate over constants.** -/
theorem preserves_iff {types : FieldId → ValueType} {f : Function} {args : List Scalar}
    (hnode : a.node = .fnCall f args) (hconst : args.all isValue = true)
    (htyped : Scalar.TypedAll types args) (hfits : ArgumentFits f args) :
    Preserves schema a n ↔ n ≤ Aggregator.intMax ∨ becomesConst f args = false ∨
      (buildAggregate f).isOk = false := by
  have hone : ∀ {arg argType}, args = [arg] → arg.valueType.fits argType = true →
      ∃ v t, args = [.value v t] ∧ v.HasType argType := by
    intro arg argType hargs hfit
    subst hargs
    obtain ⟨v, t, rfl, hv⟩ := value_of_isValue hconst htyped
    exact ⟨v, t, rfl, hv.of_fits hfit⟩
  cases f with
  | countAll | percentile _ _ | sum _ =>
      refine iff_of_true (preserves_of_kept hnode fun self h => ?_) (.inr (.inl rfl))
      rw [optimize, h]
      simp [Function.isScalar]
  | countNonNull =>
      rcases args with _ | ⟨arg, _ | ⟨arg', args⟩⟩
      · exact absurd hfits id
      · obtain ⟨v, t, rfl, -⟩ := value_of_isValue hconst htyped
        rw [preserves_count_iff hnode]
        simp [becomesConst, buildAggregate, Except.isOk, Except.toBool]
      · exact absurd hfits id
  | min argType =>
      rcases args with _ | ⟨arg, _ | ⟨arg', args⟩⟩
      · exact absurd hfits id
      · obtain ⟨v, t, hargs, hv⟩ := hone rfl hfits
        rw [hargs] at hnode
        have hfold : (optimize a).result = .ok { a with node := .const v true } := by
          rw [optimize, hnode]
          rfl
        rw [preserves_extremum_iff hnode hfold rfl (fun T => rfl)
          fun T hT n => answerCopies_min hT hv n]
        simp [becomesConst]
      · exact absurd hfits id
  | max argType =>
      rcases args with _ | ⟨arg, _ | ⟨arg', args⟩⟩
      · exact absurd hfits id
      · obtain ⟨v, t, hargs, hv⟩ := hone rfl hfits
        rw [hargs] at hnode
        have hfold : (optimize a).result = .ok { a with node := .const v true } := by
          rw [optimize, hnode]
          rfl
        rw [preserves_extremum_iff hnode hfold rfl (fun T => rfl)
          fun T hT n => answerCopies_max hT hv n]
        simp [becomesConst]
      · exact absurd hfits id
  | _ => cases args <;> exact absurd hfits id

end Records

/-- `MIN(1)`. -/
def minOfOne : Aggregate where
  node := .fnCall (.min .integer) [.value (.integer 1) .integer]
  outputFieldId := 1
  valueType := .integer

theorem preserves_minOfOne : @Preserves Platform.inert Schema.empty minOfOne 3 :=
  (@preserves_iff Platform.inert Schema.empty minOfOne 3 (fun _ => .integer) (.min .integer) _ rfl rfl
    ⟨.inr rfl, trivial⟩ rfl).mpr (.inl (by decide))

/-- One record more than the counter of a `ConstAggregate` can hold. -/
theorem not_preserves_minOfOne : ¬ @Preserves Platform.inert Schema.empty minOfOne 2147483648 := by
  have hfold : (optimize minOfOne).result = .ok { minOfOne with node := .const (.integer 1) true } :=
    rfl
  rw [@preserves_extremum_iff Platform.inert Schema.empty minOfOne 2147483648 (.min .integer) .integer
    .integer (.integer 1) (fun T => .min T none) rfl hfold rfl (fun T => rfl)
    fun T hT n => @answerCopies_min Platform.inert .integer T (.integer 1) hT (.inr rfl) n]
  decide

end Lsql.Opt.ConstAggregateFold
