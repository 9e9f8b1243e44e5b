import Lsql.Core.Accepts

/-!
# Lsql.Core.Arithmetic

When the arithmetic of 64-bit integers is exact (`core/function/build/Add.h`, `Subtract.h`,
`Divide.h`, `Sum.h`).

The executors answer null for a null operand, and the division also for a zero divisor. Nothing else
is looked at before the processor computes: a sum or a difference outside of the signed range is
undefined, and so is the one quotient that is outside of it.
-/

namespace Lsql

/-! ### Signed results -/

/-- A result that is representable is computed exactly. -/
theorem checkedInt64_eq_ok {x : Int} {c : Int64} :
    checkedInt64 x = .ok c ↔ InInt64 x ∧ c.toInt = x := by
  rw [checkedInt64, InInt64]
  split
  next h =>
      have hexact : (Int64.ofInt x).toInt = x := Int64.toInt_ofInt_of_le h.1 (Int.lt_add_one_of_le h.2)
      constructor
      · intro hok
        cases hok
        exact ⟨h, hexact⟩
      · rintro ⟨-, hc⟩
        rw [← hexact] at hc
        rw [Int64.toInt_inj.mp hc]
  next h =>
      constructor
      · intro hok
        cases hok
      · rintro ⟨hin, -⟩
        exact absurd hin h

/-- An integer that is held is representable. -/
theorem inInt64_toInt (x : Int64) : InInt64 x.toInt := ⟨x.minValue_le_toInt, x.toInt_le⟩

/-- The only quotient of representable integers that is not representable. -/
theorem inInt64_tdiv {a b : Int64} (hb : b ≠ 0) :
    InInt64 (a.toInt.tdiv b.toInt) ↔ ¬ (a = Int64.minValue ∧ b = -1) := by
  have ha := inInt64_toInt a
  constructor
  · rintro h ⟨rfl, rfl⟩
    exact absurd h (by unfold InInt64; decide)
  · intro h
    by_cases hminus : b = -1
    · subst hminus
      -- the quotient is the negated dividend
      have hne : a.toInt ≠ Int64.minValue.toInt := fun heq => h ⟨Int64.toInt_inj.mp heq, rfl⟩
      have hquotient : a.toInt.tdiv (-1 : Int64).toInt = -a.toInt := by
        rw [show (-1 : Int64).toInt = -1 from rfl, Int.tdiv_neg, Int.tdiv_one]
      rw [hquotient, InInt64]
      rw [InInt64] at ha
      have hmin : Int64.minValue.toInt = -9223372036854775808 := rfl
      have hmax : Int64.maxValue.toInt = 9223372036854775807 := rfl
      omega
    · by_cases hone : b = 1
      · subst hone
        rw [show (1 : Int64).toInt = 1 from rfl, Int.tdiv_one]
        exact ha
      · -- every other divisor at least halves the dividend
        have hsize : (a.toInt.tdiv b.toInt).natAbs ≤ a.toInt.natAbs / 2 := by
          rw [Int.natAbs_tdiv]
          refine Nat.div_le_div_left ?_ (by decide)
          have h0 : b.toInt ≠ 0 := fun heq => hb (Int64.toInt_inj.mp heq)
          have h1 : b.toInt ≠ 1 := fun heq => hone (Int64.toInt_inj.mp heq)
          have h2 : b.toInt ≠ -1 := fun heq => hminus (Int64.toInt_inj.mp heq)
          omega
        rw [InInt64] at ha ⊢
        have hmin : Int64.minValue.toInt = -9223372036854775808 := rfl
        have hmax : Int64.maxValue.toInt = 9223372036854775807 := rfl
        omega

/-! ### Integers and nulls -/

/-- An integer, or null. -/
def nullable : Option Int64 → Value
  | none => .null
  | some x => .integer x

@[simp] theorem nullable_none : nullable none = .null := rfl

@[simp] theorem nullable_some (x : Int64) : nullable (some x) = .integer x := rfl

theorem nullable_injective {x y : Option Int64} (h : nullable x = nullable y) : x = y := by
  cases x <;> cases y <;> cases h <;> rfl

/-- A computation gives null, or the integer that is asked for, without leaving the signed range. -/
def Exact (answer : Option Int) (run : Except Fault Value) : Prop :=
  ∃ result, run = .ok (nullable result) ∧ result.map Int64.toInt = answer

theorem exact_null : Exact none (.ok .null) := ⟨none, rfl, rfl⟩

/-- An answer of the processor is exact if it is representable. -/
theorem exact_checkedInt64 {x : Int} :
    Exact (some x) (checkedInt64 x >>= fun c => pure (Operand.int64.toValue c)) ↔ InInt64 x := by
  constructor
  · rintro ⟨result, hrun, -⟩
    obtain ⟨c, hc, -⟩ := bind_eq_ok.mp hrun
    exact (checkedInt64_eq_ok.mp hc).1
  · intro h
    obtain ⟨c, hc⟩ := answers_checkedInt64.mpr h
    refine ⟨some c, ?_, ?_⟩
    · rw [hc]
      rfl
    · exact congrArg some (checkedInt64_eq_ok.mp hc).2

/-! ### Exact answers -/

/-- The sum of two operands. -/
def exactSum (l r : Option Int64) : Option Int := do
  let a ← l
  let b ← r
  pure (a.toInt + b.toInt)

/-- The difference of two operands. -/
def exactDifference (l r : Option Int64) : Option Int := do
  let a ← l
  let b ← r
  pure (a.toInt - b.toInt)

/-- The truncated quotient of two operands; there is none for a zero divisor. -/
def exactQuotient (l r : Option Int64) : Option Int := do
  let a ← l
  let b ← r
  if b.toInt = 0 then none else pure (a.toInt.tdiv b.toInt)

/-- The sum of the integers of a sequence. -/
def exactTotal (xs : List (Option Int64)) : Int :=
  (xs.reduceOption.map Int64.toInt).foldr (fun x sum => x + sum) 0

@[simp] theorem exactTotal_nil : exactTotal [] = 0 := rfl

@[simp] theorem exactTotal_none (xs : List (Option Int64)) :
    exactTotal (none :: xs) = exactTotal xs := rfl

@[simp] theorem exactTotal_some (x : Int64) (xs : List (Option Int64)) :
    exactTotal (some x :: xs) = x.toInt + exactTotal xs := rfl

/-- The exact answer, if there is one, is representable. -/
def Representable (answer : Option Int) : Prop := ∀ x, answer = some x → InInt64 x

theorem representable_none : Representable none := fun _ h => by cases h

theorem representable_some {x : Int} : Representable (some x) ↔ InInt64 x := by
  constructor
  · intro h
    exact h x rfl
  · rintro h y hy
    cases hy
    exact h

/-! ### The executors -/

section Executors

variable [Platform]

theorem exact_add_iff (l r : Option Int64) :
    Exact (exactSum l r) (addExecutor .int64 (nullable l) (nullable r)) ↔
      Representable (exactSum l r) := by
  cases l with
  | none => exact iff_of_true exact_null representable_none
  | some a =>
      cases r with
      | none => exact iff_of_true exact_null representable_none
      | some b => exact exact_checkedInt64.trans representable_some.symm

theorem exact_subtract_iff (l r : Option Int64) :
    Exact (exactDifference l r) (subtractExecutor .int64 (nullable l) (nullable r)) ↔
      Representable (exactDifference l r) := by
  cases l with
  | none => exact iff_of_true exact_null representable_none
  | some a =>
      cases r with
      | none => exact iff_of_true exact_null representable_none
      | some b => exact exact_checkedInt64.trans representable_some.symm

theorem exact_divide_iff (l r : Option Int64) :
    Exact (exactQuotient l r) (divideExecutor .int64 (nullable l) (nullable r)) ↔
      ¬ (l = some Int64.minValue ∧ r = some (-1)) := by
  cases l with
  | none => exact iff_of_true exact_null fun h => by cases h.1
  | some a =>
      cases r with
      | none => exact iff_of_true exact_null fun h => by cases h.2
      | some b =>
          by_cases hb : b = 0
          · subst hb
            refine iff_of_true exact_null ?_
            rintro ⟨-, hr⟩
            exact absurd hr (by decide)
          · have hzero : b.toInt ≠ 0 := fun heq => hb (Int64.toInt_inj.mp heq)
            have hanswer : exactQuotient (some a) (some b) = some (a.toInt.tdiv b.toInt) :=
              if_neg hzero
            have hrun : divideExecutor .int64 (nullable (some a)) (nullable (some b)) =
                checkedInt64 (a.toInt.tdiv b.toInt) >>= fun c => pure (Operand.int64.toValue c) := by
              show (if (b == 0) = true then _ else _) = _
              rw [if_neg (by simpa using hb)]
              rfl
            rw [hanswer, hrun, exact_checkedInt64, inInt64_tdiv hb]
            simp

/-! ### The aggregator -/

/-- `SUM` of a sequence: the aggregator is fed the values one by one. -/
def sumOf (values : List Value) : Except Fault Value := do
  let start ← buildAggregate (.sum .integer)
  let fed ← values.foldlM FnAggregator.feed start
  fed.get

/-- Every total on the way, from a value on. -/
def TotalsFit (s : Int) (xs : List (Option Int64)) : Prop := ∀ n, InInt64 (s + exactTotal (xs.take n))

omit [Platform] in
theorem totalsFit_none {s : Int} {xs : List (Option Int64)} :
    TotalsFit s (none :: xs) ↔ TotalsFit s xs := by
  constructor
  · intro h n
    exact h (n + 1)
  · intro h n
    cases n with
    | zero => exact h 0
    | succ n => exact h n

omit [Platform] in
theorem totalsFit_some {s : Int} {x : Int64} {xs : List (Option Int64)} :
    TotalsFit s (some x :: xs) ↔ InInt64 s ∧ TotalsFit (s + x.toInt) xs := by
  have hnext (n : Nat) : s + exactTotal ((some x :: xs).take (n + 1)) =
      s + x.toInt + exactTotal (xs.take n) := by
    rw [List.take_succ_cons, exactTotal_some, Int.add_assoc]
  constructor
  · intro h
    refine ⟨?_, fun n => ?_⟩
    · simpa using h 0
    · rw [← hnext]
      exact h (n + 1)
  · rintro ⟨hs, h⟩ n
    cases n with
    | zero => simpa using hs
    | succ n =>
        rw [hnext]
        exact h n

/-- **The running total**, from a state of the aggregator on. -/
theorem exact_feed_iff (s : Int64) (xs : List (Option Int64)) :
    Exact (some (s.toInt + exactTotal xs))
        ((xs.map nullable).foldlM FnAggregator.feed (.sum .int64 s) >>= FnAggregator.get) ↔
      TotalsFit s.toInt xs := by
  induction xs generalizing s with
  | nil =>
      refine iff_of_true ⟨some s, rfl, ?_⟩ fun n => ?_
      · simp
      · simpa using inInt64_toInt s
  | cons x xs ih =>
      cases x with
      | none =>
          rw [totalsFit_none, ← ih]
          rfl
      | some x =>
          have hfeed : FnAggregator.feed (.sum .int64 s) (nullable (some x)) =
              checkedInt64 (s.toInt + x.toInt) >>= fun c => pure (.sum .int64 c) := rfl
          rw [totalsFit_some, and_iff_right (inInt64_toInt s), exactTotal_some, ← Int.add_assoc,
            List.map_cons, List.foldlM_cons, hfeed]
          by_cases hin : InInt64 (s.toInt + x.toInt)
          · obtain ⟨c, hc⟩ := answers_checkedInt64.mpr hin
            rw [hc, ← (checkedInt64_eq_ok.mp hc).2, ← ih]
            rfl
          · -- the addition is undefined, and the total that it does not reach is out of range
            refine iff_of_false ?_ ?_
            · rintro ⟨result, hrun, -⟩
              have hover : checkedInt64 (s.toInt + x.toInt) =
                  .error (.undefined "signed overflow") := if_neg hin
              rw [hover] at hrun
              cases hrun
            · intro h
              have hfirst := h 0
              rw [List.take_zero, exactTotal_nil, Int.add_zero] at hfirst
              exact hin hfirst

theorem exact_sum_iff (xs : List (Option Int64)) :
    Exact (some (exactTotal xs)) (sumOf (xs.map nullable)) ↔
      ∀ n, InInt64 (exactTotal (xs.take n)) := by
  have h := exact_feed_iff 0 xs
  simp only [TotalsFit, show (0 : Int64).toInt = 0 from rfl, Int.zero_add] at h
  exact h

/-! ### Exactness -/

/-- **Arithmetic is exact where it is representable**: sums and differences whose exact value is in
the signed range, every quotient but that of the least integer by `-1`, and the sums of the sequences
none of whose running totals leaves the range. -/
theorem arithmetic_exact_iff (l r : Option Int64) (xs : List (Option Int64)) :
    (Exact (exactSum l r) (addExecutor .int64 (nullable l) (nullable r)) ↔
      Representable (exactSum l r)) ∧
    (Exact (exactDifference l r) (subtractExecutor .int64 (nullable l) (nullable r)) ↔
      Representable (exactDifference l r)) ∧
    (Exact (exactQuotient l r) (divideExecutor .int64 (nullable l) (nullable r)) ↔
      ¬ (l = some Int64.minValue ∧ r = some (-1))) ∧
    (Exact (some (exactTotal xs)) (sumOf (xs.map nullable)) ↔
      ∀ n, InInt64 (exactTotal (xs.take n))) :=
  ⟨exact_add_iff l r, exact_subtract_iff l r, exact_divide_iff l r, exact_sum_iff xs⟩

end Executors

/-- The operations fail at the ends of the range: the least integer divided by `-1` traps, and sums and
differences overflow. -/
theorem arithmetic_not_exact :
    ¬ Exact (exactQuotient (some Int64.minValue) (some (-1)))
      (@divideExecutor Platform.inert .int64 (.integer Int64.minValue) (.integer (-1))) ∧
    ¬ Exact (exactSum (some Int64.maxValue) (some 1))
      (@addExecutor Platform.inert .int64 (.integer Int64.maxValue) (.integer 1)) ∧
    ¬ Exact (exactDifference (some Int64.minValue) (some 1))
      (@subtractExecutor Platform.inert .int64 (.integer Int64.minValue) (.integer 1)) ∧
    ¬ Exact (some (exactTotal [some Int64.maxValue, none, some 1, some (-1)]))
      (@sumOf Platform.inert [.integer Int64.maxValue, .null, .integer 1, .integer (-1)]) := by
  refine ⟨?_, ?_, ?_, ?_⟩ <;>
    rintro ⟨result, hrun, -⟩ <;> cases hrun

end Lsql
