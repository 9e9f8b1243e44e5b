import Lsql.Core.Function
import Lsql.Core.JsonPath

/-!
# Lsql.Core.Numeral

The texts that the C library reads as numbers, and the search for the longest one that a run of
bytes starts with.

`isNumeral` is the grammar of the subject sequence of `strtof` in the "C" locale: an optional sign,
and a decimal or hexadecimal number with an optional exponent, an infinity or a NaN.
-/

namespace Lsql

/-! ### The longest accepted beginning -/

section LongestMatch

variable {α : Type*}

/-- The length of the longest beginning of a list that is accepted. -/
def longestMatch (accepts : List α → Bool) : List α → Option Nat
  | [] => if accepts [] then some 0 else none
  | x :: xs =>
    match longestMatch (fun ys => accepts (x :: ys)) xs with
    | some n => some (n + 1)
    | none => if accepts [] then some 0 else none

theorem longestMatch_eq_none {accepts : List α → Bool} {xs : List α}
    (h : longestMatch accepts xs = none) (n : Nat) : accepts (xs.take n) = false := by
  induction xs generalizing accepts n with
  | nil => simpa [longestMatch] using h
  | cons x xs ih =>
      rw [longestMatch] at h
      split at h
      · cases h
      · rename_i hxs
        cases n with
        | zero => simpa using h
        | succ n => simpa using ih hxs n

theorem longestMatch_eq_some {accepts : List α → Bool} {xs : List α} {n : Nat}
    (h : longestMatch accepts xs = some n) :
    n ≤ xs.length ∧ accepts (xs.take n) = true ∧
      ∀ m, n < m → m ≤ xs.length → accepts (xs.take m) = false := by
  induction xs generalizing accepts n with
  | nil =>
      simp only [longestMatch, Option.ite_none_right_eq_some, Option.some.injEq] at h
      obtain ⟨h, rfl⟩ := h
      exact ⟨Nat.le_refl 0, by simpa using h, fun m hm hle => absurd hle (Nat.not_le.mpr hm)⟩
  | cons x xs ih =>
      rw [longestMatch] at h
      split at h
      · -- the longest match reaches into the tail
        rename_i k hk
        cases h
        obtain ⟨hle, haccepts, hlongest⟩ := ih hk
        refine ⟨by simpa using hle, by simpa using haccepts, ?_⟩
        intro m hm hle
        obtain ⟨m, rfl⟩ : ∃ j, m = j + 1 := ⟨m - 1, by omega⟩
        simpa using hlongest m (by omega) (by simpa using hle)
      · rename_i hnone
        simp only [Option.ite_none_right_eq_some, Option.some.injEq] at h
        obtain ⟨h, rfl⟩ := h
        refine ⟨by simp, by simpa using h, ?_⟩
        intro m hm _
        obtain ⟨m, rfl⟩ : ∃ j, m = j + 1 := ⟨m - 1, by omega⟩
        simpa using longestMatch_eq_none hnone m

/-- The longest accepted beginning of `xs ++ ys` is `xs` when it is accepted and cannot be
continued. -/
theorem longestMatch_append_eq_length {accepts : List α → Bool} {xs ys : List α} :
    longestMatch accepts (xs ++ ys) = some xs.length ↔
      accepts xs = true ∧ ∀ n, 0 < n → n ≤ ys.length → accepts (xs ++ ys.take n) = false := by
  constructor
  · intro h
    obtain ⟨-, haccepts, hlongest⟩ := longestMatch_eq_some h
    refine ⟨by simpa using haccepts, ?_⟩
    intro n hpos hle
    have hlonger := hlongest (xs.length + n) (by omega) (by simpa using hle)
    rwa [List.take_length_add_append] at hlonger
  · rintro ⟨haccepts, hlongest⟩
    cases hfound : longestMatch accepts (xs ++ ys) with
    | none =>
        have := longestMatch_eq_none hfound xs.length
        simp [haccepts] at this
    | some k =>
        obtain ⟨hle, hk, hrest⟩ := longestMatch_eq_some hfound
        have hnot : ¬ k < xs.length := fun hlt => by
          have := hrest xs.length hlt (by simp)
          simp [haccepts] at this
        have hnot' : ¬ xs.length < k := fun hlt => by
          obtain ⟨j, rfl⟩ : ∃ j, k = xs.length + j := ⟨k - xs.length, by omega⟩
          rw [List.length_append] at hle
          rw [List.take_length_add_append, hlongest j (by omega) (by omega)] at hk
          cases hk
        congr 1
        omega

end LongestMatch

/-! ### Numerals -/

/-- `std::isspace`. -/
def isSpace (c : UInt8) : Bool := c = 32 || decide (9 ≤ c ∧ c ≤ 13)

/-- A hexadecimal digit in lower case. -/
def isHexDigit (c : UInt8) : Bool := isDigit c || decide (97 ≤ c ∧ c ≤ 102)

/-- What follows an optional sign. -/
def unsigned : Bytes → Bytes
  | 43 :: s => s
  | 45 :: s => s
  | s => s

/-- Digits with at most one point among them, and at least one digit. -/
def isMantissa (digit : UInt8 → Bool) (s : Bytes) : Bool :=
  let digits := s.filter (· ≠ 46)
  !digits.isEmpty && digits.all digit && decide (s.count 46 ≤ 1)

/-- Nothing, or a mark with a decimal exponent. -/
def isExponent : Bytes → Bool
  | [] => true
  | _ :: s => !(unsigned s).isEmpty && (unsigned s).all isDigit

/-- A mantissa, and the exponent that `mark` starts. -/
def isNumber (digit : UInt8 → Bool) (mark : UInt8) (s : Bytes) : Bool :=
  isMantissa digit (s.takeWhile (· ≠ mark)) && isExponent (s.dropWhile (· ≠ mark))

/-- `nan`, or `nan(..)` with letters, digits and underscores. -/
def isNan (s : Bytes) : Bool :=
  s.take 3 == Bytes.ofString "nan" &&
    (s.length == 3 ||
      (s[3]? == some 40 && s.getLast? == some 41 && decide (5 ≤ s.length) &&
        (s.drop 4).dropLast.all fun c => isDigit c || decide (97 ≤ c ∧ c ≤ 122) || c == 95))

/-- A whole text that `strtof` converts. -/
def isNumeral (s : Bytes) : Bool :=
  let t := (unsigned s).map toLower
  isNumber isDigit 101 t ||
    (t.take 2 == Bytes.ofString "0x" && isNumber isHexDigit 112 (t.drop 2)) ||
    t == Bytes.ofString "inf" || t == Bytes.ofString "infinity" || isNan t

/-! ### A numeral contains no blank -/

theorem isSpace_toLower (c : UInt8) : isSpace (toLower c) = isSpace c := by
  have hall : ∀ n : Fin 256, isSpace (toLower (UInt8.ofFin n)) = isSpace (UInt8.ofFin n) := by
    decide +kernel
  exact hall c.toFin

/-- No byte of the text is a blank. -/
def Solid (s : Bytes) : Prop := ∀ c ∈ s, isSpace c = false

theorem Solid.append {s t : Bytes} (hs : Solid s) (ht : Solid t) : Solid (s ++ t) := by
  intro c hc
  exact (List.mem_append.mp hc).elim (hs c) (ht c)

theorem solid_of_all {s : Bytes} (h : (s.all fun c => !isSpace c) = true) : Solid s := by
  intro c hc
  simpa using List.all_eq_true.mp h c hc

theorem solid_of_bound {s : Bytes} (h : ∀ c ∈ s, 33 ≤ c) : Solid s := by
  intro c hc
  have := h c hc
  simp only [isSpace, Bool.or_eq_false_iff, decide_eq_false_iff_not]
  grind

theorem bound_of_isDigit {c : UInt8} (h : isDigit c = true) : 33 ≤ c := by
  simp only [isDigit, decide_eq_true_eq] at h
  grind

theorem bound_of_isHexDigit {c : UInt8} (h : isHexDigit c = true) : 33 ≤ c := by
  simp only [isHexDigit, Bool.or_eq_true, decide_eq_true_eq] at h
  rcases h with h | h
  · exact bound_of_isDigit h
  · grind

theorem solid_of_unsigned {s : Bytes} (h : Solid (unsigned s)) : Solid s := by
  unfold unsigned at h
  split at h
  · exact List.forall_mem_cons.mpr ⟨rfl, h⟩
  · exact List.forall_mem_cons.mpr ⟨rfl, h⟩
  · exact h

theorem solid_of_isMantissa {digit : UInt8 → Bool} (hdigit : ∀ c, digit c = true → 33 ≤ c)
    {s : Bytes} (h : isMantissa digit s = true) : Solid s := by
  simp only [isMantissa, Bool.and_eq_true, List.all_eq_true, List.mem_filter] at h
  apply solid_of_bound
  intro c hc
  by_cases hpoint : c = 46
  · subst hpoint
    decide
  · exact hdigit c (h.1.2 c ⟨hc, by simpa using hpoint⟩)

theorem solid_of_isExponent {mark : UInt8} (hmark : isSpace mark = false) {s : Bytes}
    (hs : ∀ c ∈ s.head?, c = mark) (h : isExponent s = true) : Solid s := by
  cases s with
  | nil => simp [Solid]
  | cons c s =>
      simp only [isExponent, Bool.and_eq_true, List.all_eq_true] at h
      have htail : Solid s :=
        solid_of_unsigned (solid_of_bound fun d hd => bound_of_isDigit (h.2 d hd))
      rw [hs c rfl]
      exact List.forall_mem_cons.mpr ⟨hmark, htail⟩

theorem solid_of_isNumber {digit : UInt8 → Bool} (hdigit : ∀ c, digit c = true → 33 ≤ c)
    {mark : UInt8} (hmark : isSpace mark = false) {s : Bytes}
    (h : isNumber digit mark s = true) : Solid s := by
  simp only [isNumber, Bool.and_eq_true] at h
  rw [← List.takeWhile_append_dropWhile (p := fun c => decide (c ≠ mark)) (l := s)]
  refine (solid_of_isMantissa hdigit h.1).append (solid_of_isExponent hmark ?_ h.2)
  intro c hc
  have := List.head?_dropWhile_not (fun c => decide (c ≠ mark)) s
  rw [hc] at this
  simpa using this

theorem solid_of_isNan {s : Bytes} (h : isNan s = true) : Solid s := by
  simp only [isNan, Bool.and_eq_true, Bool.or_eq_true, beq_iff_eq, decide_eq_true_eq,
    List.all_eq_true] at h
  obtain ⟨hword, htail⟩ := h
  have hstart : Solid (s.take 3) := by
    rw [hword]
    exact solid_of_all rfl
  rw [← List.take_append_drop 3 s]
  refine hstart.append ?_
  rcases htail with hlength | ⟨⟨⟨hopen, hclose⟩, hlength⟩, hinner⟩
  · simp [Solid, List.drop_of_length_le (Nat.le_of_eq hlength)]
  · -- the bracketed characters
    have hsplit : s.drop 3 = 40 :: s.drop 4 := by
      obtain ⟨hlt, hget⟩ := List.getElem?_eq_some_iff.mp hopen
      rw [List.drop_eq_getElem_cons hlt, hget]
    have hne : s.drop 4 ≠ [] := by
      rw [ne_eq, List.drop_eq_nil_iff]
      omega
    have hlast : (s.drop 4).getLast hne = 41 := by
      rw [List.getLast_drop, ← Option.some_inj, ← List.getLast?_eq_some_getLast, hclose]
    rw [hsplit]
    refine List.forall_mem_cons.mpr ⟨rfl, ?_⟩
    rw [← List.dropLast_concat_getLast hne, hlast]
    refine Solid.append (solid_of_bound fun c hc => ?_) (by simp [Solid, isSpace])
    rcases hinner c hc with (hdigit | hletter) | hline
    · exact bound_of_isDigit hdigit
    · grind
    · grind

/-- A numeral contains no blank. -/
theorem isNumeral.solid {s : Bytes} (h : isNumeral s = true) : Solid s := by
  apply solid_of_unsigned
  have hmapped : Solid ((unsigned s).map toLower) := by
    simp only [isNumeral, Bool.or_eq_true, Bool.and_eq_true, beq_iff_eq] at h
    rcases h with (((hdecimal | ⟨hmark, hhex⟩) | hinf) | hinf) | hnan
    · exact solid_of_isNumber (fun _ => bound_of_isDigit) rfl hdecimal
    · rw [← List.take_append_drop 2 ((unsigned s).map toLower), hmark]
      exact (solid_of_all rfl).append (solid_of_isNumber (fun _ => bound_of_isHexDigit) rfl hhex)
    · rw [hinf]
      exact solid_of_all rfl
    · rw [hinf]
      exact solid_of_all rfl
    · exact solid_of_isNan hnan
  intro c hc
  rw [← isSpace_toLower]
  exact hmapped _ (List.mem_map_of_mem hc)

theorem isNumeral_nil : isNumeral [] = false := by
  decide

end Lsql
