import Mathlib.Data.List.TakeWhile
import Lsql.Core.Numeral

/-!
# Lsql.Core.FloatCast

`Float(s)` on a string (`core/value/cast.cpp`, `util/string_cast.h`): `strtof` is called on a view
that nothing ends, and where it stops is compared with the end of the view.

What `strtof` does is a hypothesis on the platform, over a function `convert` that gives each numeral
its number and says whether the number is out of range.
-/

namespace Lsql

/-- The characters of a string value. -/
def Value.characters : Value → Bytes
  | .string s => s
  | .pinned s => s.view
  | _ => []

/-- What lies behind them in memory. -/
def Value.following : Value → Bytes
  | .string _ => nul
  | .pinned s => s.rest
  | _ => []

section Strtof

variable (convert : Bytes → Float32Bits × Bool)

/-- `std::strtof`: skips blanks, converts the longest numeral behind them and reports where it
stopped, which is at its argument when there is no numeral. -/
def strtofOf (bytes : Bytes) : Float32Bits × Nat × Bool :=
  let blanks := bytes.takeWhile isSpace
  let text := bytes.dropWhile isSpace
  match longestMatch isNumeral text with
  | some n => ((convert (text.take n)).1, blanks.length + n, (convert (text.take n)).2)
  | none => (.zero, 0, false)

/-- As a whole the text of one finite number. -/
def IsFiniteNumber (s : Bytes) : Prop := isNumeral s = true ∧ (convert s).1.isFinite = true

instance (s : Bytes) : Decidable (IsFiniteNumber convert s) :=
  inferInstanceAs (Decidable (_ ∧ _))

/-- What `Float` is to return for the characters of a string. -/
def floatOf (s : Bytes) : Value :=
  if s ≠ [] ∧ s.head?.all (!isSpace ·) ∧ s.getLast?.all (!isSpace ·) ∧ IsFiniteNumber convert s then
    .floating (convert s).1
  else
    .null

/-- No numeral continues `s` into the bytes behind it. -/
def EndsHere (s rest : Bytes) : Prop :=
  ∀ n, 0 < n → n ≤ rest.length → isNumeral (s ++ rest.take n) = false

/-- `strtof` converts `s` to a finite number and stops at its end. -/
def Converts (s rest : Bytes) : Prop :=
  IsFiniteNumber convert s ∧ (convert s).2 = false ∧ EndsHere s rest

/-- A number starts behind blanks. -/
def StartsNumber (rest : Bytes) : Prop := ∃ n, isNumeral ((rest.dropWhile isSpace).take n) = true

/-- The texts that `Float` reads as it should: the empty text only where a number follows it in
memory, a text that starts with a blank only where what comes after its blanks is no number in
range that ends with it, and a finite number only where it is in range and what follows in memory
does not continue it. -/
structure ReadByItself (s rest : Bytes) : Prop where
  empty : s = [] → StartsNumber rest
  blank : s.head?.any isSpace = true → ¬ Converts convert (s.dropWhile isSpace) rest
  number : IsFiniteNumber convert s → (convert s).2 = false ∧ EndsHere s rest

end Strtof

/-! ### The strict parser -/

variable {convert : Bytes → Float32Bits × Bool}

theorem isFiniteNumber_clean {s : Bytes} (h : IsFiniteNumber convert s) :
    s ≠ [] ∧ s.head?.all (!isSpace ·) ∧ s.getLast?.all (!isSpace ·) := by
  have hsolid := isNumeral.solid h.1
  refine ⟨?_, ?_, ?_⟩
  · rintro rfl
    cases isNumeral_nil.symm.trans h.1
  · rw [Option.all_eq_true]
    intro c hc
    simpa using hsolid c (List.mem_of_head? hc)
  · rw [Option.all_eq_true]
    intro c hc
    simpa using hsolid c (List.mem_of_getLast? hc)

theorem floatOf_eq_of_isFiniteNumber {s : Bytes} (h : IsFiniteNumber convert s) :
    floatOf convert s = .floating (convert s).1 :=
  if_pos ⟨(isFiniteNumber_clean h).1, (isFiniteNumber_clean h).2.1, (isFiniteNumber_clean h).2.2, h⟩

theorem floatOf_eq_null {s : Bytes} (h : ¬ IsFiniteNumber convert s) : floatOf convert s = .null :=
  if_neg fun hall => h hall.2.2.2

section Platform

variable [Platform] (hstrtof : ∀ bytes, Platform.strtof bytes = strtofOf convert bytes)

include hstrtof

/-- Behind blanks, a text that starts with no blank is read exactly when it converts. -/
theorem parseFloatStrict_blanks {blanks text rest : Bytes} (hblanks : ∀ c ∈ blanks, isSpace c = true)
    (hne : text ≠ []) (htext : text.head?.any isSpace = false) (x : Float32Bits) :
    parseFloatStrict (blanks ++ text) rest = some x ↔
      Converts convert text rest ∧ x = (convert text).1 := by
  have hspan : ((blanks ++ text) ++ rest).takeWhile isSpace = blanks ∧
      ((blanks ++ text) ++ rest).dropWhile isSpace = text ++ rest := by
    obtain ⟨c, text, rfl⟩ := List.exists_cons_of_ne_nil hne
    have hc : isSpace c = false := by simpa using htext
    simp [List.takeWhile_append_of_pos hblanks, List.dropWhile_append_of_pos hblanks, hc]
  simp only [parseFloatStrict, hstrtof, strtofOf, hspan.1, hspan.2, List.length_append]
  cases hfound : longestMatch isNumeral (text ++ rest) with
  | none =>
      -- nothing is read, and the text is not empty
      have hlength : 0 < text.length := List.length_pos_iff.mpr hne
      have hno : isNumeral text = false := by simpa using longestMatch_eq_none hfound text.length
      simp [Converts, IsFiniteNumber, hno, show (0 : Nat) ≠ blanks.length + text.length by omega]
  | some n =>
      by_cases hn : n = text.length
      · subst hn
        obtain ⟨hnumeral, hends⟩ := longestMatch_append_eq_length.mp hfound
        simp only [ne_eq, not_true_eq_false, if_false, List.take_left']
        simp only [Converts, IsFiniteNumber, EndsHere, hnumeral, true_and]
        grind
      · -- the longest numeral ends elsewhere
        have hnot : ¬ Converts convert text rest := by
          rintro ⟨hfinite, -, hends⟩
          have := longestMatch_append_eq_length.mpr ⟨hfinite.1, hends⟩
          rw [hfound, Option.some_inj] at this
          exact hn this
        simp [hnot, hn]

/-- A text of blanks is not read. -/
theorem parseFloatStrict_allBlank {s rest : Bytes} (hs : ∀ c ∈ s, isSpace c = true) (hne : s ≠ []) :
    parseFloatStrict s rest = none := by
  have hlength : 0 < s.length := List.length_pos_iff.mpr hne
  simp only [parseFloatStrict, hstrtof, strtofOf, List.takeWhile_append_of_pos hs,
    List.dropWhile_append_of_pos hs, List.length_append]
  cases hfound : longestMatch isNumeral (rest.dropWhile isSpace) with
  | none => simp [show (0 : Nat) ≠ s.length by omega]
  | some n =>
      -- a numeral is not empty, so the reading goes past the blanks
      have hpos : 0 < n := by
        obtain ⟨-, hnumeral, -⟩ := longestMatch_eq_some hfound
        rcases Nat.eq_zero_or_pos n with rfl | hpos
        · cases isNumeral_nil.symm.trans hnumeral
        · exact hpos
      simp only [show s.length + (rest.takeWhile isSpace).length + n ≠ s.length by omega, ne_eq,
        not_false_eq_true, if_true]

/-- The empty text is read as zero unless a number starts behind it. -/
theorem parseFloatStrict_nil {rest : Bytes} :
    parseFloatStrict [] rest = none ↔ StartsNumber rest := by
  simp only [parseFloatStrict, hstrtof, strtofOf, List.nil_append, List.length_nil]
  cases hfound : longestMatch isNumeral (rest.dropWhile isSpace) with
  | none =>
      have hno : ¬ StartsNumber rest := by
        rintro ⟨n, hn⟩
        cases (longestMatch_eq_none hfound n).symm.trans hn
      simp [hno, Float32Bits.isFinite, Float32Bits.magnitude, Float32Bits.zero]
  | some n =>
      obtain ⟨-, hnumeral, -⟩ := longestMatch_eq_some hfound
      have hpos : n ≠ 0 := by
        rintro rfl
        cases isNumeral_nil.symm.trans hnumeral
      have hstarts : StartsNumber rest := ⟨n, hnumeral⟩
      simp [hstarts, hpos]

/-! ### The cast -/

omit hstrtof in
theorem castExecutor_floating {v : Value} (hv : v.type = .string) :
    castExecutor .floating v =
      .ok (((parseFloatStrict v.characters v.following).map Value.floating).getD .null) := by
  cases v with
  | string s => rfl
  | pinned s => rfl
  | null => cases hv
  | integer x => cases hv
  | floating x => cases hv
  | boolean x => cases hv

omit [Platform] hstrtof in
/-- The result is null exactly when nothing is read. -/
theorem getD_floating_eq_null {read : Option Float32Bits} :
    (read.map Value.floating).getD .null = .null ↔ read = none := by
  cases read <;> simp

/-- A text that is not empty is read exactly when what comes after its blanks converts. -/
theorem parseFloatStrict_eq_none_iff {s rest : Bytes} (hne : s ≠ []) :
    parseFloatStrict s rest = none ↔ ¬ Converts convert (s.dropWhile isSpace) rest := by
  have hblanks : ∀ c ∈ s.takeWhile isSpace, isSpace c = true :=
    fun c hc => List.mem_takeWhile_imp hc
  have hsplit : s.takeWhile isSpace ++ s.dropWhile isSpace = s := List.takeWhile_append_dropWhile
  by_cases htext : s.dropWhile isSpace = []
  · -- blanks only
    have hnot : ¬ Converts convert (s.dropWhile isSpace) rest := by
      intro h
      exact (isFiniteNumber_clean h.1).1 htext
    rw [htext, List.append_nil] at hsplit
    rw [hsplit] at hblanks
    simp [hnot, parseFloatStrict_allBlank hstrtof hblanks hne]
  · have hhead : (s.dropWhile isSpace).head?.any isSpace = false := by
      rw [List.head?_eq_some_head htext]
      exact List.head_dropWhile_not isSpace htext
    have hread (x : Float32Bits) :
        parseFloatStrict (s.takeWhile isSpace ++ s.dropWhile isSpace) rest = some x ↔
          Converts convert (s.dropWhile isSpace) rest ∧ x = (convert (s.dropWhile isSpace)).1 :=
      parseFloatStrict_blanks hstrtof hblanks htext hhead x
    simp only [hsplit] at hread
    rw [Option.eq_none_iff_forall_ne_some]
    constructor
    · intro h hconverts
      exact h _ ((hread _).mpr ⟨hconverts, rfl⟩)
    · intro h x hx
      exact h ((hread x).mp hx).1

/-- A text that starts with no blank is read as it should be exactly when a finite number in it is in
range and not continued behind it. -/
theorem read_eq_floatOf_text {s rest : Bytes} (hne : s ≠ [])
    (hs : s.head?.any isSpace = false) :
    ((parseFloatStrict s rest).map Value.floating).getD .null = floatOf convert s ↔
      (IsFiniteNumber convert s → (convert s).2 = false ∧ EndsHere s rest) := by
  have hread (x : Float32Bits) :
      parseFloatStrict s rest = some x ↔ Converts convert s rest ∧ x = (convert s).1 :=
    parseFloatStrict_blanks hstrtof (List.forall_mem_nil _) hne hs x
  by_cases hfinite : IsFiniteNumber convert s
  · rw [floatOf_eq_of_isFiniteNumber hfinite]
    have hconverts : Converts convert s rest ↔ (convert s).2 = false ∧ EndsHere s rest :=
      and_iff_right hfinite
    rw [← hconverts]
    constructor
    · intro h _
      cases hparsed : parseFloatStrict s rest with
      | none =>
          rw [hparsed] at h
          cases h
      | some x => exact ((hread x).mp hparsed).1
    · intro h
      rw [(hread _).mpr ⟨h hfinite, rfl⟩]
      rfl
  · -- no finite number, so nothing is read
    have hnone : parseFloatStrict s rest = none := by
      rw [Option.eq_none_iff_forall_ne_some]
      intro x hx
      exact hfinite ((hread x).mp hx).1.1
    rw [floatOf_eq_null hfinite, getD_floating_eq_null]
    simp [hnone, hfinite]

/-- `Float` on a string gives what the characters of the string alone are documented to give exactly
when the string is read by itself. -/
theorem float_eq_floatOf_iff {v : Value} (hv : v.type = .string) :
    castExecutor .floating v = .ok (floatOf convert v.characters) ↔
      ReadByItself convert v.characters v.following := by
  rw [castExecutor_floating hv, Except.ok.injEq]
  generalize v.characters = s
  generalize v.following = rest
  by_cases hne : s = []
  · subst hne
    have hnot : ¬ IsFiniteNumber convert [] := fun h => (isFiniteNumber_clean h).1 rfl
    rw [floatOf_eq_null hnot, getD_floating_eq_null, parseFloatStrict_nil hstrtof]
    constructor
    · intro hstarts
      exact ⟨fun _ => hstarts, (by simp), fun hfinite => absurd hfinite hnot⟩
    · intro h
      exact h.empty rfl
  by_cases hblank : s.head?.any isSpace = true
  · -- a blank comes first: no number, whatever comes after the blanks
    have hnot : ¬ IsFiniteNumber convert s := by
      intro h
      have := (isFiniteNumber_clean h).2.1
      cases hhead : s.head? <;> simp_all
    rw [floatOf_eq_null hnot, getD_floating_eq_null, parseFloatStrict_eq_none_iff hstrtof hne]
    constructor
    · intro hconverts
      exact ⟨fun h => absurd h hne, fun _ => hconverts, fun hfinite => absurd hfinite hnot⟩
    · intro h
      exact h.blank hblank
  · rw [read_eq_floatOf_text hstrtof hne (Bool.eq_false_iff.mpr hblank)]
    constructor
    · intro h
      exact ⟨fun hnil => absurd hnil hne, fun hb => absurd hb hblank, h⟩
    · intro h
      exact h.number

end Platform

/-! ### Runs -/

/-- The numbers of some numerals. -/
def sampleNumbers (s : Bytes) : Float32Bits × Bool :=
  if s = Bytes.ofString "1" then (.one, false)
  else if s = Bytes.ofString "12" then (⟨0x41400000⟩, false)
  else (.zero, false)

@[reducible] def samplePlatform : Platform :=
  { Platform.inert with strtof := strtofOf sampleNumbers }

theorem float_eq_floatOf_iff_one :
    @castExecutor samplePlatform .floating (.string (Bytes.ofString "1")) =
        .ok (floatOf sampleNumbers (Bytes.ofString "1")) ↔
      ReadByItself sampleNumbers (Bytes.ofString "1") nul :=
  @float_eq_floatOf_iff sampleNumbers samplePlatform (fun _ => rfl) (.string (Bytes.ofString "1")) rfl

/-- The empty text is read as zero, a blank in front of a number is skipped, and a view is not read
when a digit lies behind it. -/
theorem float_reads_past_view :
    @castExecutor samplePlatform .floating (.string []) = .ok (.floating .zero) ∧
      floatOf sampleNumbers [] = .null ∧
      @castExecutor samplePlatform .floating (.string (Bytes.ofString " 1")) = .ok (.floating .one) ∧
      floatOf sampleNumbers (Bytes.ofString " 1") = .null ∧
      @castExecutor samplePlatform .floating
        (.pinned ⟨Bytes.ofString "1", Bytes.ofString "2"⟩) = .ok .null ∧
      floatOf sampleNumbers (Bytes.ofString "1") = .floating .one := by
  decide +kernel

end Lsql
