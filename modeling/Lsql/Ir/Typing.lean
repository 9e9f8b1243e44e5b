import Lsql.Ir.Scalar

/-!
# Lsql.Ir.Typing

The static types of scalars.

The binder gives every expression a type and lowering keeps it in the scalar. A value of a type is a
value of that type or null, so an expression of the type `Null` can stand wherever a value of another
type is expected (`ValueType.fits`): a rewrite may put one there. `Scalar.Typed` is what binding and
lowering promise; `Scalar.Typed.eval` is type soundness.
-/

namespace Lsql

/-- Where a value of one type may stand for a value of another. -/
def ValueType.fits (actual expected : ValueType) : Bool := actual == .null || actual == expected

@[simp] theorem ValueType.fits_self (t : ValueType) : t.fits t = true := by simp [fits]

/-- A value of a type: null, or a value that has the type. -/
def Value.HasType (v : Value) (t : ValueType) : Prop := v = .null ∨ v.type = t

namespace Value

theorem hasType_null (t : ValueType) : Value.null.HasType t := .inl rfl

theorem hasType_type (v : Value) : v.HasType v.type := .inr rfl

theorem HasType.of_fits {v : Value} {a t : ValueType} (h : v.HasType a) (hfits : a.fits t = true) :
    v.HasType t := by
  rcases h with h | h
  · exact .inl h
  · simp only [ValueType.fits, Bool.or_eq_true, beq_iff_eq] at hfits
    rcases hfits with rfl | rfl
    · cases v <;> first | exact .inl rfl | cases h
    · exact .inr h

/-- Only null has the type `Null`. -/
theorem HasType.eq_null {v : Value} (h : v.HasType .null) : v = .null := by
  rcases h with h | h
  · exact h
  · cases v <;> first | rfl | cases h

theorem type_of_getBool {v : Value} {x : Bool} (h : v.getBool = .ok x) : v = .boolean x := by
  cases v <;> cases h
  rfl

end Value

namespace Function

/-- Whether a function takes arguments of given types and then has a given result type. -/
def hasType : Function → List ValueType → ValueType → Bool
  | lower, [a], t => a.fits .string && t == .string
  | splitPart _ _, [a], t => a.fits .string && t == .string
  | substr _ _, [a], t => a.fits .string && t == .string
  | coalesce, as, t => as.all fun a => a.fits t
  | rSubstr _, [a], t => a.fits .string && t == .string
  | like _, [a], t => a.fits .string && t == .boolean
  | cast castTo, [_], t => t == castTo
  | jsonValue _, [a], t => a.fits .string && t == .string
  | parseTimestamp _, [a], t => a.fits .string && t == .integer
  | booleanNegate, [a], t => a.fits .boolean && t == .boolean
  | equal, [_, _], t => t == .boolean
  | notEqual, [_, _], t => t == .boolean
  | less argType, [a, b], t => a.fits argType && b.fits argType && t == .boolean
  | greater argType, [a, b], t => a.fits argType && b.fits argType && t == .boolean
  | lessEqual argType, [a, b], t => a.fits argType && b.fits argType && t == .boolean
  | greaterEqual argType, [a, b], t => a.fits argType && b.fits argType && t == .boolean
  | and, [a, b], t => a.fits .boolean && b.fits .boolean && t == .boolean
  | or, [a, b], t => a.fits .boolean && b.fits .boolean && t == .boolean
  | divide argType, [a, b], t => a.fits argType && b.fits argType && t == argType
  | add argType, [a, b], t => a.fits argType && b.fits argType && t == argType
  | subtract argType, [a, b], t => a.fits argType && b.fits argType && t == argType
  | _, _, _ => false

/-- The type of a function's results, where it does not depend on the arguments. -/
def resultType : Function → Option ValueType
  | lower | splitPart _ _ | substr _ _ | rSubstr _ | jsonValue _ => some .string
  | like _ | booleanNegate | equal | notEqual | and | or => some .boolean
  | less _ | greater _ | lessEqual _ | greaterEqual _ => some .boolean
  | parseTimestamp _ => some .integer
  | cast t | divide t | add t | subtract t => some t
  | _ => none

theorem hasType_resultType {f : Function} {ts : List ValueType} {t r : ValueType}
    (h : f.hasType ts t = true) (hr : f.resultType = some r) : t = r := by
  cases f <;> cases hr
  all_goals
    rcases ts with _ | ⟨a, _ | ⟨b, _ | ⟨c, ts⟩⟩⟩ <;> simp [hasType] at h
    simp [h]

theorem fits_of_null {a a' t : ValueType} (h : a' = a ∨ a' = .null) (hfits : a.fits t = true) :
    a'.fits t = true := by
  rcases h with rfl | rfl
  · exact hfits
  · rfl

/-- Null may take the place of any argument. -/
theorem hasType_of_null {f : Function} {ts ts' : List ValueType} {t : ValueType}
    (hts : List.Forall₂ (fun a a' => a' = a ∨ a' = .null) ts ts') (h : f.hasType ts t = true) :
    f.hasType ts' t = true := by
  cases f
  case coalesce =>
    refine List.all_eq_true.mpr fun a' ha' => ?_
    obtain ⟨a, ha, hor⟩ := forall₂_mem_right hts ha'
    exact fits_of_null hor (List.all_eq_true.mp h a ha)
  all_goals
    cases hts with
    | nil => cases h
    | cons ha hrest =>
        cases hrest with
        | nil =>
            simp only [hasType, Bool.and_eq_true, Bool.false_eq_true] at h ⊢
            try exact h
            try exact ⟨fits_of_null ha h.1, h.2⟩
        | cons hb hrest =>
            cases hrest with
            | nil =>
                simp only [hasType, Bool.and_eq_true, Bool.false_eq_true] at h ⊢
                try exact h
                try exact ⟨⟨fits_of_null ha h.1.1, fits_of_null hb h.1.2⟩, h.2⟩
            | cons => cases h

end Function

/-! ### The types of results -/

section Results

variable {v l r res : Value} {t : ValueType}

theorem Value.substr_hasType {pos : Nat} {len : Option Nat} (h : v.substr pos len = .ok res) :
    res.HasType .string := by
  cases v <;> simp only [Value.substr] at h
  case string s =>
    split at h <;> cases h
    exact .inr rfl
  case pinned s =>
    split at h <;> cases h
    exact .inr rfl
  all_goals cases h

/-- What the executors share that answer null for null and else read a string. -/
theorem stringExecutor_hasType {f : Bytes → Except Fault Value}
    (hf : ∀ s w, f s = .ok w → w.HasType t)
    (h : (if v.isNull then Except.ok Value.null else v.getView >>= f) = .ok res) :
    res.HasType t := by
  split at h
  · cases h
    exact .inl rfl
  · obtain ⟨s, -, hs⟩ := bind_eq_ok.mp h
    exact hf s res hs

theorem comparisonExecutor_hasType {T : Operand} {holds : T.Carrier → T.Carrier → Bool}
    (h : comparisonExecutor T holds l r = .ok res) : res.HasType .boolean := by
  obtain ⟨a, -, ha⟩ := bind_eq_ok.mp h
  obtain ⟨b, -, hb⟩ := bind_eq_ok.mp ha
  cases hb
  exact .inr rfl

variable [Platform]

theorem addExecutor_hasType {T : Operand} (h : addExecutor T l r = .ok res) :
    res.HasType T.valueType := by
  unfold addExecutor at h
  split at h
  · cases h
    exact .inl rfl
  · obtain ⟨a, -, ha⟩ := bind_eq_ok.mp h
    obtain ⟨b, -, hb⟩ := bind_eq_ok.mp ha
    obtain ⟨c, -, hc⟩ := bind_eq_ok.mp hb
    cases hc
    exact .inr (Operand.type_toValue T c)

theorem subtractExecutor_hasType {T : Operand} (h : subtractExecutor T l r = .ok res) :
    res.HasType T.valueType := by
  unfold subtractExecutor at h
  split at h
  · cases h
    exact .inl rfl
  · obtain ⟨a, -, ha⟩ := bind_eq_ok.mp h
    obtain ⟨b, -, hb⟩ := bind_eq_ok.mp ha
    obtain ⟨c, -, hc⟩ := bind_eq_ok.mp hb
    cases hc
    exact .inr (Operand.type_toValue T c)

theorem divideExecutor_hasType {T : Operand} (h : divideExecutor T l r = .ok res) :
    res.HasType T.valueType := by
  unfold divideExecutor at h
  split at h
  · cases h
    exact .inl rfl
  · obtain ⟨divisor, -, hdivisor⟩ := bind_eq_ok.mp h
    split at hdivisor
    · cases hdivisor
      exact .inl rfl
    · obtain ⟨a, -, ha⟩ := bind_eq_ok.mp hdivisor
      obtain ⟨c, -, hc⟩ := bind_eq_ok.mp ha
      cases hc
      exact .inr (Operand.type_toValue T c)

theorem castString_hasType {s rest : Bytes} (hv : v.type = .string)
    (h : castString v s rest t = some res) : res.HasType t := by
  cases t <;> simp only [castString, Option.map_eq_some_iff, Option.some.injEq] at h
  case string =>
    subst h
    exact .inr hv
  case integer =>
    obtain ⟨x, -, rfl⟩ := h
    exact .inr rfl
  case floating =>
    obtain ⟨x, -, rfl⟩ := h
    exact .inr rfl
  all_goals
    subst h
    exact .inr rfl

theorem castExecutor_hasType (h : castExecutor t v = .ok res) : res.HasType t := by
  obtain ⟨w, hw, hres⟩ := bind_eq_ok.mp h
  cases hres
  cases w with
  | none => exact .inl rfl
  | some w =>
      change w.HasType t
      cases v with
      | null =>
          cases hw
          exact .inl rfl
      | string s => exact castString_hasType rfl (Except.ok.inj hw)
      | pinned s => exact castString_hasType rfl (Except.ok.inj hw)
      | integer x =>
          cases t <;> cases hw
          all_goals exact .inr rfl
      | boolean x =>
          cases t <;> cases hw
          all_goals exact .inr rfl
      | floating x =>
          cases t with
          | integer =>
              obtain ⟨i, -, hi⟩ := bind_eq_ok.mp hw
              cases hi
              exact .inr rfl
          | _ =>
              cases hw
              exact .inr rfl

/-- Taking an executor that was built apart. -/
theorem Function.apply_unary {f : Function} {vs : List Value} {execute : Value → Except Fault Value}
    (hf : buildScalar f = .ok (.unary execute)) (h : f.apply vs = .ok res) :
    ∃ v, vs = [v] ∧ execute v = .ok res := by
  rw [Function.apply, hf] at h
  match vs, h with
  | [v], h => exact ⟨v, rfl, h⟩

theorem Function.apply_binary {f : Function} {vs : List Value}
    {execute : Value → Value → Except Fault Value}
    (hf : buildScalar f = .ok (.binary execute)) (h : f.apply vs = .ok res) :
    ∃ l r, vs = [l, r] ∧ execute l r = .ok res := by
  rw [Function.apply, hf] at h
  match vs, h with
  | [l, r], h => exact ⟨l, r, rfl, h⟩

omit [Platform] in
theorem dispatch_eq_ok {concept : ValueType → Option Operand} {T : Operand} :
    dispatch concept t = .ok T ↔ concept t = some T := by
  unfold dispatch
  cases concept t <;> simp

/-- The functions that are built for an operand type. -/
theorem Function.apply_dispatched {f : Function} {vs : List Value} {argType : ValueType}
    {concept : ValueType → Option Operand} {execute : Operand → Value → Value → Except Fault Value}
    (hf : buildScalar f = (dispatch concept argType >>= fun T => pure (.binary (execute T))))
    (h : f.apply vs = .ok res) :
    ∃ T l r, concept argType = some T ∧ vs = [l, r] ∧ execute T l r = .ok res := by
  cases hT : dispatch concept argType with
  | error e =>
      rw [Function.apply, hf, hT] at h
      cases h
  | ok T =>
      rw [hT] at hf
      obtain ⟨l, r, hvs, hres⟩ := apply_binary hf h
      exact ⟨T, l, r, dispatch_eq_ok.mp hT, hvs, hres⟩

/-- The functions that are built from a regular expression. -/
theorem Function.apply_pattern {f : Function} {vs : List Value} {regex : Bytes}
    {execute : Value → Except Fault Value}
    (hf : buildScalar f = (buildPattern regex >>= fun _ => pure (.unary execute)))
    (h : f.apply vs = .ok res) : ∃ v, vs = [v] ∧ execute v = .ok res := by
  cases hp : buildPattern regex with
  | error e =>
      rw [Function.apply, hf, hp] at h
      cases h
  | ok u =>
      rw [hp] at hf
      exact apply_unary hf h

omit [Platform] in
theorem coalesceExecutor_hasType {vs : List Value} {ts : List ValueType}
    (hvs : List.Forall₂ Value.HasType vs ts) (hts : ts.all (fun a => a.fits t) = true)
    (h : coalesceExecutor vs = .ok res) : res.HasType t := by
  cases h
  cases hfind : vs.find? fun v => !v.isNull with
  | none => exact .inl rfl
  | some v =>
      obtain ⟨a, ha, hva⟩ := forall₂_mem_left hvs (List.mem_of_find?_eq_some hfind)
      exact hva.of_fits (List.all_eq_true.mp hts a ha)

/-- The result of a function has the function's type. -/
theorem Function.apply_hasType {f : Function} {vs : List Value} {ts : List ValueType}
    (hts : f.hasType ts t = true) (hvs : List.Forall₂ Value.HasType vs ts)
    (h : f.apply vs = .ok res) : res.HasType t := by
  have hr : ∀ {r : ValueType}, f.resultType = some r → t = r := fun hr => hasType_resultType hts hr
  cases f with
  | lower =>
      obtain ⟨v, -, hv⟩ := apply_unary rfl h
      rw [hr rfl]
      refine stringExecutor_hasType (fun s w hw => ?_) hv
      cases hw
      exact .inr rfl
  | splitPart separator index =>
      obtain ⟨v, -, hv⟩ := apply_unary rfl h
      rw [hr rfl]
      refine stringExecutor_hasType (fun s w hw => ?_) hv
      split at hw
      · cases hw
        exact .inl rfl
      · exact Value.substr_hasType hw
  | substr start length =>
      obtain ⟨v, -, hv⟩ := apply_unary rfl h
      rw [hr rfl]
      exact Value.substr_hasType hv
  | coalesce => exact coalesceExecutor_hasType hvs hts h
  | rSubstr regex =>
      obtain ⟨v, -, hv⟩ := apply_pattern rfl h
      rw [hr rfl]
      obtain ⟨s, -, hs⟩ := bind_eq_ok.mp hv
      split at hs
      · cases hs
        exact .inl rfl
      · exact Value.substr_hasType hs
  | like regex =>
      obtain ⟨v, -, hv⟩ := apply_pattern rfl h
      rw [hr rfl]
      obtain ⟨s, -, hs⟩ := bind_eq_ok.mp hv
      cases hs
      exact .inr rfl
  | cast castTo =>
      obtain ⟨v, -, hv⟩ := apply_unary rfl h
      rw [hr rfl]
      exact castExecutor_hasType hv
  | jsonValue path =>
      obtain ⟨v, -, hv⟩ := apply_unary rfl h
      rw [hr rfl]
      refine stringExecutor_hasType (fun s w hw => ?_) hv
      split at hw <;> cases hw
      all_goals first
        | exact .inl rfl
        | exact .inr rfl
  | parseTimestamp format =>
      obtain ⟨v, -, hv⟩ := apply_unary rfl h
      rw [hr rfl]
      refine stringExecutor_hasType (fun s w hw => ?_) hv
      obtain ⟨ts, -, hts⟩ := bind_eq_ok.mp hw
      cases hts
      exact .inr rfl
  | booleanNegate =>
      obtain ⟨v, -, hv⟩ := apply_unary rfl h
      rw [hr rfl]
      obtain ⟨x, -, hx⟩ := bind_eq_ok.mp hv
      cases hx
      exact .inr rfl
  | equal =>
      obtain ⟨l, r, -, hv⟩ := apply_binary rfl h
      rw [hr rfl]
      cases hv
      exact .inr rfl
  | notEqual =>
      obtain ⟨l, r, -, hv⟩ := apply_binary rfl h
      rw [hr rfl]
      cases hv
      exact .inr rfl
  | and =>
      obtain ⟨l, r, -, hv⟩ := apply_binary rfl h
      rw [hr rfl]
      obtain ⟨x, -, hx⟩ := bind_eq_ok.mp hv
      cases x with
      | false =>
          cases hx
          exact .inr rfl
      | true =>
          obtain ⟨y, -, hy⟩ := bind_eq_ok.mp hx
          cases hy
          exact .inr rfl
  | or =>
      obtain ⟨l, r, -, hv⟩ := apply_binary rfl h
      rw [hr rfl]
      obtain ⟨x, -, hx⟩ := bind_eq_ok.mp hv
      cases x with
      | true =>
          cases hx
          exact .inr rfl
      | false =>
          obtain ⟨y, -, hy⟩ := bind_eq_ok.mp hx
          cases hy
          exact .inr rfl
  | less argType | greater argType | lessEqual argType | greaterEqual argType =>
      obtain ⟨T, l, r, -, -, hv⟩ := apply_dispatched rfl h
      rw [hr rfl]
      exact comparisonExecutor_hasType hv
  | add argType =>
      obtain ⟨T, l, r, hT, -, hv⟩ := apply_dispatched rfl h
      rw [hr rfl, ← Operand.valueType_of_addable hT]
      exact addExecutor_hasType hv
  | subtract argType =>
      obtain ⟨T, l, r, hT, -, hv⟩ := apply_dispatched rfl h
      rw [hr rfl, ← Operand.valueType_of_subtractable hT]
      exact subtractExecutor_hasType hv
  | divide argType =>
      obtain ⟨T, l, r, hT, -, hv⟩ := apply_dispatched rfl h
      rw [hr rfl, ← Operand.valueType_of_subtractable hT]
      exact divideExecutor_hasType hv
  | _ => simp [hasType] at hts

end Results

/-! ### Well-typed scalars -/

namespace Ir.Scalar

mutual

/-- The types of a scalar and its parts agree, with the types that the fields have in the binding. -/
def Typed (types : FieldId → ValueType) : Scalar → Prop
  | field id t => t = types id
  | value v t => v.HasType t
  | coalesce args t => TypedAll types args ∧ ∀ a ∈ args, a.valueType.fits t = true
  | fnCall f args t => TypedAll types args ∧ f.hasType (args.map valueType) t = true
  | cached s t => s.Typed types ∧ s.valueType.fits t = true

def TypedAll (types : FieldId → ValueType) : List Scalar → Prop
  | [] => True
  | a :: as => a.Typed types ∧ TypedAll types as

end

theorem typedAll_iff {types : FieldId → ValueType} {args : List Scalar} :
    TypedAll types args ↔ ∀ a ∈ args, a.Typed types := by
  induction args with
  | nil => simp [TypedAll]
  | cons a as ih => simp [TypedAll, ih]

/-- A record whose fields have their types. -/
def TypedRecord (types : FieldId → ValueType) (record : FieldId → Except Fault Value) : Prop :=
  ∀ id v, record id = .ok v → v.HasType (types id)

section Soundness

variable [Platform] {types : FieldId → ValueType} {record : FieldId → Except Fault Value}

/-- What a coalesce returns is null or one of its alternatives' values. -/
theorem evalFirst_ok {args : List Scalar} {v : Value} (h : evalFirst record args = .ok v) :
    v = .null ∨ ∃ a ∈ args, a.eval record = .ok v := by
  induction args with
  | nil =>
      cases h
      exact .inl rfl
  | cons a as ih =>
      obtain ⟨w, hw, hrest⟩ := bind_eq_ok.mp h
      split at hrest
      · rcases ih hrest with hv | ⟨b, hb, hv⟩
        · exact .inl hv
        · exact .inr ⟨b, List.mem_cons_of_mem _ hb, hv⟩
      · cases hrest
        exact .inr ⟨a, List.mem_cons_self, hw⟩

/-- **Type soundness.** The value of a well-typed scalar on a well-typed record has the type of the
scalar. -/
theorem Typed.eval {s : Scalar} (hs : s.Typed types) (hrecord : TypedRecord types record)
    {v : Value} (h : s.eval record = .ok v) : v.HasType s.valueType := by
  induction s using Scalar.induction generalizing v with
  | field id t =>
      rw [Typed] at hs
      rw [valueType_field, hs]
      exact hrecord id v h
  | value w t =>
      rw [Typed] at hs
      cases h
      exact hs
  | coalesce args t ih =>
      obtain ⟨hargs, hfits⟩ := hs
      rw [Scalar.eval] at h
      rcases evalFirst_ok h with rfl | ⟨a, ha, hv⟩
      · exact .inl rfl
      · exact (ih a ha (typedAll_iff.mp hargs a ha) hv).of_fits (hfits a ha)
  | fnCall f args t ih =>
      obtain ⟨hargs, hf⟩ := hs
      rw [Scalar.eval] at h
      obtain ⟨vs, hvs, hres⟩ := bind_eq_ok.mp h
      refine Function.apply_hasType hf (List.forall₂_map_right_iff.mpr ?_) hres
      rw [evalAll_ok] at hvs
      have hforall := List.forall₂_iff_zip.mp hvs.flip
      refine List.forall₂_iff_zip.mpr ⟨hforall.1, fun {w a} hmem => ?_⟩
      have ha : a ∈ args := (List.of_mem_zip hmem).2
      exact ih a ha (typedAll_iff.mp hargs a ha) (hforall.2 hmem)
  | cached s t ih =>
      obtain ⟨hs, hfits⟩ := hs
      exact (ih hs h).of_fits hfits

/-- A well-typed scalar of the type `Null` is null. -/
theorem Typed.eval_null {s : Scalar} (hs : s.Typed types) (hrecord : TypedRecord types record)
    (ht : s.valueType = .null) {v : Value} (h : s.eval record = .ok v) : v = .null :=
  (ht ▸ hs.eval hrecord h).eq_null

end Soundness

end Ir.Scalar

end Lsql
