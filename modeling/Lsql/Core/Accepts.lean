import Lsql.Core.Function

/-!
# Lsql.Core.Accepts

On which values a scalar function answers (`core/function/build`).

The executors differ in what they make of null: text functions, casts and arithmetic answer null, while
`SUBSTR`, `RSUBSTR`, `LIKE`, the comparisons and the boolean operators read the value as if it were
there. Apart from that a function fails on a value of another type, on an invalid expression, on an
offset past the end of a text, and where 64-bit arithmetic has no result.
-/

namespace Lsql

/-- A computation answers. -/
def Answers {α : Type} (x : Except Fault α) : Prop := ∃ a, x = .ok a

section Answers

variable {α β : Type} {x : Except Fault α} {f : α → Except Fault β}

@[simp] theorem answers_ok (a : α) : Answers (.ok a : Except Fault α) := ⟨a, rfl⟩

@[simp] theorem not_answers_error (e : Fault) : ¬ Answers (.error e : Except Fault α) := by
  intro h
  obtain ⟨a, ha⟩ := h
  cases ha

theorem answers_bind : Answers (x >>= f) ↔ ∃ a, x = .ok a ∧ Answers (f a) := by
  cases x with
  | error e => simp [Answers]
  | ok a => simp

theorem answers_bind_pure {g : α → β} : Answers (x >>= fun a => .ok (g a)) ↔ Answers x := by
  cases x with
  | error e => simp
  | ok a => simp

end Answers

/-! ### Reading a value -/

theorem answers_getBool {v : Value} : Answers v.getBool ↔ v.type = .boolean := by
  cases v <;> simp [Value.getBool]

theorem answers_getView {v : Value} : Answers v.getView ↔ v.type = .string := by
  cases v <;> simp [Value.getView]

theorem Operand.answers_get {T : Operand} {v : Value} :
    Answers (T.get v) ↔ v.type = T.valueType := by
  constructor
  · intro h
    obtain ⟨_, ha⟩ := h
    exact type_of_get ha
  · exact get_of_type

/-- Null, or a text. -/
def Value.isTextOrNull (v : Value) : Bool := v.isNull || v.type == .string

theorem answers_text {v : Value} {f : Bytes → Except Fault Value}
    (hf : ∀ s, v.getView = .ok s → Answers (f s)) :
    Answers (if v.isNull then .ok .null else v.getView >>= f) ↔ v.isTextOrNull = true := by
  cases v with
  | string s => simpa [Value.isTextOrNull, Value.isNull, Value.getView] using hf s rfl
  | pinned s => simpa [Value.isTextOrNull, Value.isNull, Value.getView] using hf s.view rfl
  | _ => simp [Value.isTextOrNull, Value.isNull, Value.getView]

theorem answers_substr {v : Value} {pos : Nat} {len : Option Nat} :
    Answers (v.substr pos len) ↔ ∃ s, v.getView = .ok s ∧ pos ≤ s.length := by
  cases v with
  | string s =>
      show Answers (if pos ≤ s.length then _ else _) ↔ _
      by_cases h : pos ≤ s.length <;> simp [Value.getView, h]
  | pinned s =>
      show Answers (if pos ≤ s.view.length then _ else _) ↔ _
      by_cases h : pos ≤ s.view.length <;> simp [Value.getView, h]
  | _ => simp [Value.substr, Value.getView]

/-- The offset stays within the text. -/
theorem skipParts_length {separator : UInt8} {n offset : Nat} {curr : Bytes} {p : Nat × Bytes}
    (h : skipParts separator n offset curr = some p) :
    p.1 + p.2.length = offset + curr.length := by
  induction n generalizing offset curr with
  | zero =>
      cases h
      rfl
  | succ n ih =>
      rw [skipParts] at h
      split at h
      · cases h
      next sep hsep =>
        have hlt : sep < curr.length := (List.findIdx?_eq_some_iff_getElem.mp hsep).1
        rw [ih h, List.length_drop]
        omega

/-! ### What each function answers on -/

/-- A result of 64-bit arithmetic. -/
def InInt64 (x : Int) : Prop := Int64.minValue.toInt ≤ x ∧ x ≤ Int64.maxValue.toInt

theorem answers_checkedInt64 {x : Int} : Answers (checkedInt64 x) ↔ InInt64 x := by
  rw [checkedInt64, InInt64]
  split
  next h => exact iff_of_true ⟨_, rfl⟩ h
  next h => exact iff_of_false (not_answers_error _) h

/-- Two operands whose sum, difference or quotient `f` fits, if they are integers. -/
def Fits (f : Int → Int → Int) (l r : Value) : Prop :=
  ∀ a b, l = .integer a → r = .integer b → InInt64 (f a.toInt b.toInt)

/-- Null on one side, or two operands of the type with a result. -/
def TakesOperands (f : Int → Int → Int) (t : ValueType) (l r : Value) : Prop :=
  l.isNull = true ∨ r.isNull = true ∨ l.type = t ∧ r.type = t ∧ Fits f l r

/-- A divisor, and a dividend that is read only if the divisor is not zero. -/
def TakesDivision (t : ValueType) (l r : Value) : Prop :=
  l.isNull = true ∨ r.isNull = true ∨ r.type = t ∧
    (r = .integer 0 ∨ (∃ x : Float32Bits, r = .floating x ∧ x.compare .zero = some .eq) ∨
      l.type = t ∧ Fits Int.tdiv l r)

/-- A condition on the only one of some values. -/
def OnOne (P : Value → Prop) : List Value → Prop
  | [v] => P v
  | _ => False

/-- A condition on the only two of some values. -/
def OnTwo (P : Value → Value → Prop) : List Value → Prop
  | [l, r] => P l r
  | _ => False

/-- What a comparison accepts: operands of a type that can be compared. -/
def TakesComparable (t : ValueType) (l r : Value) : Prop :=
  (Operand.comparable t).isSome = true ∧ l.type = t ∧ r.type = t

/-- The values that a scalar function answers on. -/
def Function.Accepts [Platform] : Function → List Value → Prop
  | .lower | .splitPart _ _ | .jsonValue _ => OnOne fun v => v.isTextOrNull = true
  | .substr start _ => OnOne fun v => ∃ s, v.getView = .ok s ∧ start ≤ s.length
  | .coalesce => fun _ => True
  | .rSubstr regex => OnOne fun v => Platform.regexValid regex = true ∧ ∃ s, v.getView = .ok s ∧
      ∀ m, Platform.regexFind regex s = some m → m.1 ≤ s.length
  | .like regex => OnOne fun v => Platform.regexValid regex = true ∧ v.type = .string
  | .cast castTo => OnOne fun v => ∀ x, v = .floating x → castTo = .integer → Answers x.toInt64
  | .parseTimestamp format => OnOne fun v => v.isNull = true ∨
      ∃ s, v.getView = .ok s ∧ Answers (timestampFromString s format)
  | .booleanNegate => OnOne fun v => v.type = .boolean
  | .equal | .notEqual => OnTwo fun _ _ => True
  | .less t | .greater t | .lessEqual t | .greaterEqual t => OnTwo (TakesComparable t)
  | .and => OnTwo fun l r => l = .boolean false ∨ l = .boolean true ∧ r.type = .boolean
  | .or => OnTwo fun l r => l = .boolean true ∨ l = .boolean false ∧ r.type = .boolean
  | .add t => OnTwo fun l r =>
      (Operand.addable t).isSome = true ∧ TakesOperands (· + ·) t l r
  | .subtract t => OnTwo fun l r =>
      (Operand.subtractable t).isSome = true ∧ TakesOperands (· - ·) t l r
  | .divide t => OnTwo fun l r => (Operand.subtractable t).isSome = true ∧ TakesDivision t l r
  | .percentile _ _ | .countNonNull | .countAll | .min _ | .max _ | .sum _ => fun _ => False

theorem answers_lower {v : Value} : Answers (lowerExecutor v) ↔ v.isTextOrNull = true :=
  answers_text fun _ _ => ⟨_, rfl⟩

theorem answers_splitPart {separator : UInt8} {index : Nat} {v : Value} :
    Answers (splitPartExecutor separator index v) ↔ v.isTextOrNull = true := by
  refine answers_text fun s hs => ?_
  cases hparts : skipParts separator index 0 s with
  | none => exact ⟨_, rfl⟩
  | some p =>
      have hlength := skipParts_length hparts
      exact answers_substr.mpr ⟨s, hs, by omega⟩

theorem answers_booleanNegate {v : Value} :
    Answers (booleanNegateExecutor v) ↔ v.type = .boolean := by
  rw [← answers_getBool]
  exact answers_bind_pure

theorem answers_comparison {T : Operand} {holds : T.Carrier → T.Carrier → Bool} {l r : Value} :
    Answers (comparisonExecutor T holds l r) ↔ l.type = T.valueType ∧ r.type = T.valueType := by
  rw [comparisonExecutor, ← Operand.answers_get, ← Operand.answers_get, answers_bind]
  simp only [pure_eq_ok, answers_bind_pure]
  constructor
  · intro h
    obtain ⟨a, ha, hr⟩ := h
    exact ⟨⟨a, ha⟩, hr⟩
  · intro h
    obtain ⟨⟨a, ha⟩, hr⟩ := h
    exact ⟨a, ha, hr⟩

theorem answers_and {l r : Value} :
    Answers (andExecutor l r) ↔ l = .boolean false ∨ l = .boolean true ∧ r.type = .boolean := by
  cases l with
  | boolean x =>
      cases x with
      | false => simp [andExecutor, Value.getBool]
      | true =>
          rw [← answers_getBool]
          simp [andExecutor, Value.getBool, answers_bind_pure]
  | _ => simp [andExecutor, Value.getBool]

theorem answers_or {l r : Value} :
    Answers (orExecutor l r) ↔ l = .boolean true ∨ l = .boolean false ∧ r.type = .boolean := by
  cases l with
  | boolean x =>
      cases x with
      | true => simp [orExecutor, Value.getBool]
      | false =>
          rw [← answers_getBool]
          simp [orExecutor, Value.getBool, answers_bind_pure]
  | _ => simp [orExecutor, Value.getBool]

section Functions

variable [Platform]

theorem answers_jsonValue {path : Bytes} {v : Value} :
    Answers (jsonValueExecutor path v) ↔ v.isTextOrNull = true := by
  refine answers_text fun s _ => ?_
  cases Platform.jsonAtPointer path s with
  | none => exact ⟨_, rfl⟩
  | some selection => cases selection <;> exact ⟨_, rfl⟩

theorem answers_rSubstr {regex : Bytes} {v : Value} :
    Answers (rSubstrExecutor regex v) ↔ ∃ s, v.getView = .ok s ∧
      ∀ m, Platform.regexFind regex s = some m → m.1 ≤ s.length := by
  rw [rSubstrExecutor, answers_bind]
  refine exists_congr fun s => and_congr_right fun hs => ?_
  cases hfind : Platform.regexFind regex s with
  | none => simp
  | some m =>
      show Answers (v.substr m.1 (some m.2)) ↔ _
      rw [answers_substr, hs]
      simp

theorem answers_like {regex : Bytes} {v : Value} :
    Answers (likeExecutor regex v) ↔ v.type = .string := by
  rw [← answers_getView]
  exact answers_bind_pure

theorem answers_cast {castTo : ValueType} {v : Value} :
    Answers (castExecutor castTo v) ↔
      ∀ x, v = .floating x → castTo = .integer → Answers x.toInt64 := by
  have hcast : Answers (castExecutor castTo v) ↔ Answers (Lsql.cast v castTo) := answers_bind_pure
  rw [hcast]
  cases v with
  | floating x =>
      cases castTo with
      | integer =>
          have hint : Answers (Lsql.cast (.floating x) .integer) ↔ Answers x.toInt64 :=
            answers_bind_pure
          rw [hint]
          simp
      | _ => simp [Lsql.cast]
  | null => simp [Lsql.cast]
  | string s => simp [Lsql.cast]
  | pinned s => simp [Lsql.cast]
  | integer x => cases castTo <;> simp [Lsql.cast]
  | boolean x => cases castTo <;> simp [Lsql.cast]

theorem answers_parseTimestamp {format : TimeFormat} {v : Value} :
    Answers (parseTimestampExecutor format v) ↔ v.isNull = true ∨
      ∃ s, v.getView = .ok s ∧ Answers (timestampFromString s format) := by
  rw [parseTimestampExecutor]
  cases hnull : v.isNull with
  | true => simp
  | false =>
      rw [if_neg Bool.false_ne_true, answers_bind]
      simp only [Bool.false_eq_true, false_or, pure_eq_ok, answers_bind_pure]

/-! ### Arithmetic -/

omit [Platform] in
/-- A value that was read holds an integer where the operand is one. -/
theorem Operand.integer_of_get {T : Operand} {v : Value} {x : T.Carrier} (h : T.get v = .ok x)
    (i : Int64) : T.toValue x = .integer i ↔ v = .integer i := by
  cases T with
  | int64 =>
      cases v <;> cases h
      rfl
  | float =>
      cases v <;> cases h
      rfl
  | view =>
      cases v <;> cases h
      · rfl
      · exact iff_of_false (fun he => by cases he) (fun he => by cases he)

omit [Platform] in
theorem fits_of_get {f : Int → Int → Int} {T : Operand} {l r : Value} {a b : T.Carrier}
    (hl : T.get l = .ok a) (hr : T.get r = .ok b) :
    Fits f (T.toValue a) (T.toValue b) ↔ Fits f l r := by
  simp only [Fits, Operand.integer_of_get hl, Operand.integer_of_get hr]

omit [Platform] in
theorem answers_operands {f : Int → Int → Int} {T : Operand}
    {op : T.Carrier → T.Carrier → Except Fault T.Carrier} {l r : Value}
    (hop : ∀ a b, Answers (op a b) ↔ Fits f (T.toValue a) (T.toValue b)) :
    Answers (if l.isNull || r.isNull then .ok .null else do
      let a ← T.get l
      let b ← T.get r
      let c ← op a b
      pure (T.toValue c)) ↔ TakesOperands f T.valueType l r := by
  rw [TakesOperands]
  cases hl : l.isNull with
  | true => simp
  | false =>
      cases hr : r.isNull with
      | true => simp
      | false =>
          simp only [Bool.or_self, Bool.false_eq_true, if_false, false_or, pure_eq_ok, answers_bind,
            answers_ok, and_true]
          constructor
          · intro h
            obtain ⟨a, ha, b, hb, h⟩ := h
            exact ⟨Operand.type_of_get ha, Operand.type_of_get hb,
              (fits_of_get ha hb).mp ((hop a b).mp h)⟩
          · intro h
            obtain ⟨htl, htr, h⟩ := h
            obtain ⟨a, ha⟩ := Operand.get_of_type htl
            obtain ⟨b, hb⟩ := Operand.get_of_type htr
            exact ⟨a, ha, b, hb, (hop a b).mpr ((fits_of_get ha hb).mpr h)⟩

omit [Platform] in
theorem answers_op {f : Int → Int → Int} {op : (T : Operand) → T.Carrier → T.Carrier →
      Except Fault T.Carrier} (hint : ∀ a b : Int64, op .int64 a b = checkedInt64 (f a.toInt b.toInt))
    {T : Operand} (hother : T ≠ .int64 → ∀ a b, Answers (op T a b)) (a b : T.Carrier) :
    Answers (op T a b) ↔ Fits f (T.toValue a) (T.toValue b) := by
  cases T with
  | int64 =>
      rw [hint, answers_checkedInt64]
      constructor
      · intro h x y hx hy
        cases hx
        cases hy
        exact h
      · intro h
        exact h a b rfl rfl
  | float | view =>
      refine iff_of_true (hother (fun h => by cases h) a b) fun x y hx _ => ?_
      cases hx

theorem answers_add {T : Operand} {l r : Value} :
    Answers (addExecutor T l r) ↔ TakesOperands (· + ·) T.valueType l r := by
  refine answers_operands (answers_op (fun _ _ => rfl) fun hT a b => ?_)
  cases T with
  | int64 => exact absurd rfl hT
  | float | view => exact ⟨_, rfl⟩

theorem answers_subtract {T : Operand} (hT : T ≠ .view) {l r : Value} :
    Answers (subtractExecutor T l r) ↔ TakesOperands (· - ·) T.valueType l r := by
  refine answers_operands (answers_op (fun _ _ => rfl) fun hint a b => ?_)
  cases T with
  | int64 => exact absurd rfl hint
  | view => exact absurd rfl hT
  | float => exact ⟨_, rfl⟩

omit [Platform] in
theorem isZero_of_get {T : Operand} {r : Value} {x : T.Carrier} (h : T.get r = .ok x) :
    T.isZero x = true ↔ r = .integer 0 ∨
      ∃ y : Float32Bits, r = .floating y ∧ y.compare .zero = some .eq := by
  cases T with
  | int64 =>
      cases r <;> cases h
      simp [Operand.isZero]
  | float =>
      cases r <;> cases h
      simp [Operand.isZero]
  | view => cases r <;> cases h <;> simp [Operand.isZero]

theorem answers_divide {T : Operand} (hT : T ≠ .view) {l r : Value} :
    Answers (divideExecutor T l r) ↔ TakesDivision T.valueType l r := by
  have hdiv : ∀ a b : T.Carrier, Answers (T.div a b) ↔ Fits Int.tdiv (T.toValue a) (T.toValue b) := by
    refine answers_op (fun _ _ => rfl) fun hint a b => ?_
    cases T with
    | int64 => exact absurd rfl hint
    | view => exact absurd rfl hT
    | float => exact ⟨_, rfl⟩
  rw [divideExecutor, TakesDivision]
  cases hl : l.isNull with
  | true => simp
  | false =>
      cases hr : r.isNull with
      | true => simp
      | false =>
          simp only [Bool.or_self, Bool.false_eq_true, if_false, false_or, pure_eq_ok, answers_bind]
          constructor
          · intro h
            obtain ⟨b, hb, h⟩ := h
            refine ⟨Operand.type_of_get hb, ?_⟩
            split at h
            next hzero => exact ((isZero_of_get hb).mp hzero).imp_right .inl
            next hzero =>
              obtain ⟨a, ha, hc⟩ := answers_bind.mp h
              have hans : Answers (T.div a b) := answers_bind_pure.mp hc
              exact .inr (.inr ⟨Operand.type_of_get ha, (fits_of_get ha hb).mp ((hdiv a b).mp hans)⟩)
          · intro h
            obtain ⟨htr, h⟩ := h
            obtain ⟨b, hb⟩ := Operand.get_of_type htr
            refine ⟨b, hb, ?_⟩
            split
            next hzero => exact ⟨_, rfl⟩
            next hzero =>
              rw [isZero_of_get hb] at hzero
              obtain h | h | ⟨htl, h⟩ := h
              · exact absurd (.inl h) hzero
              · exact absurd (.inr h) hzero
              · obtain ⟨a, ha⟩ := Operand.get_of_type htl
                refine answers_bind.mpr ⟨a, ha, answers_bind_pure.mpr ?_⟩
                exact (hdiv a b).mpr ((fits_of_get ha hb).mpr h)

/-! ### Every function -/

theorem answers_error {f : Function} {e : Fault} (h : buildScalar f = .error e) (vs : List Value) :
    ¬ Answers (f.apply vs) := by
  rw [Function.apply, h]
  exact not_answers_error e

theorem answers_unary {f : Function} {execute : Value → Except Fault Value} {P : Value → Prop}
    (h : buildScalar f = .ok (.unary execute)) (hP : ∀ v, Answers (execute v) ↔ P v)
    (vs : List Value) : Answers (f.apply vs) ↔ OnOne P vs := by
  rw [Function.apply, h, ok_bind]
  rcases vs with _ | ⟨v, _ | ⟨w, vs⟩⟩
  · exact iff_of_false (not_answers_error _) id
  · exact hP v
  · exact iff_of_false (not_answers_error _) id

theorem answers_binary {f : Function} {execute : Value → Value → Except Fault Value}
    {P : Value → Value → Prop} (h : buildScalar f = .ok (.binary execute))
    (hP : ∀ l r, Answers (execute l r) ↔ P l r) (vs : List Value) :
    Answers (f.apply vs) ↔ OnTwo P vs := by
  rw [Function.apply, h, ok_bind]
  rcases vs with _ | ⟨u, _ | ⟨v, _ | ⟨w, vs⟩⟩⟩
  · exact iff_of_false (not_answers_error _) id
  · exact iff_of_false (not_answers_error _) id
  · exact hP u v
  · exact iff_of_false (not_answers_error _) id

omit [Platform] in
theorem not_onOne {P : Value → Prop} (h : ∀ v, ¬ P v) (vs : List Value) : ¬ OnOne P vs := by
  rcases vs with _ | ⟨v, _ | ⟨w, vs⟩⟩
  · exact id
  · exact h v
  · exact id

omit [Platform] in
theorem not_onTwo {P : Value → Value → Prop} (h : ∀ l r, ¬ P l r) (vs : List Value) :
    ¬ OnTwo P vs := by
  rcases vs with _ | ⟨u, _ | ⟨v, _ | ⟨w, vs⟩⟩⟩
  · exact id
  · exact id
  · exact h u v
  · exact id

/-- A function with a regular expression. -/
theorem answers_pattern {f : Function} {regex : Bytes} {execute : Value → Except Fault Value}
    {P : Value → Prop}
    (h : buildScalar f = buildPattern regex >>= fun _ => .ok (.unary execute))
    (hP : ∀ v, Answers (execute v) ↔ P v) (vs : List Value) :
    Answers (f.apply vs) ↔ OnOne (fun v => Platform.regexValid regex = true ∧ P v) vs := by
  cases hvalid : Platform.regexValid regex with
  | true =>
      have hbuild : buildScalar f = .ok (.unary execute) := by
        rw [h, buildPattern, hvalid]
        rfl
      exact answers_unary hbuild (fun v => (hP v).trans (by simp)) vs
  | false =>
      have hbuild : buildScalar f = .error (.exception "reflex::regex_error") := by
        rw [h, buildPattern, hvalid]
        rfl
      exact iff_of_false (answers_error hbuild vs) (not_onOne (by simp) vs)

/-- A function of two operands, of a type that the concept covers. -/
theorem answers_dispatch {f : Function} {concept : ValueType → Option Operand} {t : ValueType}
    {P : Value → Value → Prop} (execute : Operand → Value → Value → Except Fault Value)
    (h : buildScalar f = dispatch concept t >>= fun T => .ok (.binary (execute T)))
    (hP : ∀ T, concept t = some T → ∀ l r, Answers (execute T l r) ↔ P l r) (vs : List Value) :
    Answers (f.apply vs) ↔ OnTwo (fun l r => (concept t).isSome = true ∧ P l r) vs := by
  cases hT : concept t with
  | some T =>
      have hbuild : buildScalar f = .ok (.binary (execute T)) := by
        rw [h, dispatch, hT]
        rfl
      exact answers_binary hbuild (fun l r => (hP T hT l r).trans (by simp)) vs
  | none =>
      have hbuild : buildScalar f = .error (.panic "un-covered dispatch variant") := by
        rw [h, dispatch, hT]
        rfl
      exact iff_of_false (answers_error hbuild vs) (not_onTwo (by simp) vs)

omit [Platform] in
theorem Operand.ne_view {t : ValueType} {T : Operand} (h : subtractable t = some T) : T ≠ .view := by
  intro he
  subst he
  cases t <;> cases h

/-- **A scalar function answers on the values that it accepts**, and on no others. -/
theorem Function.answers_apply (f : Function) (vs : List Value) :
    Answers (f.apply vs) ↔ f.Accepts vs := by
  have hcompare : ∀ {T : Operand} {t : ValueType}, Operand.comparable t = some T →
      ∀ {holds : T.Carrier → T.Carrier → Bool} (l r : Value),
        Answers (comparisonExecutor T holds l r) ↔ l.type = t ∧ r.type = t := by
    intro T t hT holds l r
    rw [answers_comparison, Operand.valueType_of_comparable hT]
  cases f with
  | lower => exact answers_unary rfl (fun _ => answers_lower) vs
  | splitPart separator index => exact answers_unary rfl (fun _ => answers_splitPart) vs
  | substr start length => exact answers_unary rfl (fun _ => answers_substr) vs
  | cast castTo => exact answers_unary rfl (fun _ => answers_cast) vs
  | jsonValue path => exact answers_unary rfl (fun _ => answers_jsonValue) vs
  | parseTimestamp format => exact answers_unary rfl (fun _ => answers_parseTimestamp) vs
  | booleanNegate => exact answers_unary rfl (fun _ => answers_booleanNegate) vs
  | coalesce => exact iff_of_true ⟨_, rfl⟩ trivial
  | rSubstr regex => exact answers_pattern rfl (fun _ => answers_rSubstr) vs
  | like regex => exact answers_pattern rfl (fun _ => answers_like) vs
  | equal => exact answers_binary rfl (fun _ _ => iff_of_true ⟨_, rfl⟩ trivial) vs
  | notEqual => exact answers_binary rfl (fun _ _ => iff_of_true ⟨_, rfl⟩ trivial) vs
  | and => exact answers_binary rfl (fun _ _ => answers_and) vs
  | or => exact answers_binary rfl (fun _ _ => answers_or) vs
  | less t => exact answers_dispatch lessExecutor rfl (fun _ hT => hcompare hT) vs
  | greater t => exact answers_dispatch greaterExecutor rfl (fun _ hT => hcompare hT) vs
  | lessEqual t =>
      exact answers_dispatch lessEqualExecutor rfl (fun _ hT => hcompare hT) vs
  | greaterEqual t =>
      exact answers_dispatch greaterEqualExecutor rfl (fun _ hT => hcompare hT) vs
  | add t =>
      refine answers_dispatch addExecutor rfl (fun T hT l r => ?_) vs
      rw [← Operand.valueType_of_addable hT]
      exact answers_add
  | subtract t =>
      refine answers_dispatch subtractExecutor rfl (fun T hT l r => ?_) vs
      rw [← Operand.valueType_of_subtractable hT]
      exact answers_subtract (Operand.ne_view hT)
  | divide t =>
      refine answers_dispatch divideExecutor rfl (fun T hT l r => ?_) vs
      rw [← Operand.valueType_of_subtractable hT]
      exact answers_divide (Operand.ne_view hT)
  | percentile ps t => exact iff_of_false (not_answers_error _) id
  | countNonNull => exact iff_of_false (not_answers_error _) id
  | countAll => exact iff_of_false (not_answers_error _) id
  | min t => exact iff_of_false (not_answers_error _) id
  | max t => exact iff_of_false (not_answers_error _) id
  | sum t => exact iff_of_false (not_answers_error _) id

end Functions

end Lsql
