import Mathlib.Data.List.TakeWhile
import Lsql.Core.Value

/-!
# Lsql.Output.JsonText

Reading JSON texts, byte by byte: strings with their escapes, numbers, the literals, arrays and
objects, with blanks between them.

A number without a fraction and an exponent is an integer; of another one the text is kept. The
members of an object are kept in order. Bytes of a string that are neither a quote, a backslash nor
a control character stand for themselves.
-/

namespace Lsql.JsonText

/-- A JSON value. -/
inductive Json
  | null
  | boolean (x : Bool)
  | integer (x : Int)
  | decimal (token : Bytes)
  | string (s : Bytes)
  | array (values : List Json)
  | object (members : List (Bytes × Json))

/-! ### Symbols -/

def quote : UInt8 := 34
def backslash : UInt8 := 92
def comma : UInt8 := 44
def colon : UInt8 := 58
def openBrace : UInt8 := 123
def closeBrace : UInt8 := 125
def openBracket : UInt8 := 91
def closeBracket : UInt8 := 93
def minus : UInt8 := 45

def isBlank (c : UInt8) : Bool := c = 32 || c = 9 || c = 10 || c = 13

def isDigit (c : UInt8) : Bool := decide (48 ≤ c ∧ c ≤ 57)

/-! ### Strings -/

/-- The value of a hexadecimal digit. -/
def hexValue (c : UInt8) : Option Nat :=
  if 48 ≤ c ∧ c ≤ 57 then some (c.toNat - 48)
  else if 65 ≤ c ∧ c ≤ 70 then some (c.toNat - 55)
  else if 97 ≤ c ∧ c ≤ 102 then some (c.toNat - 87)
  else none

/-- The code unit of four hexadecimal digits. -/
def codeUnit : Bytes → Option (Nat × Bytes)
  | a :: b :: c :: d :: rest => do
    let a ← hexValue a
    let b ← hexValue b
    let c ← hexValue c
    let d ← hexValue d
    some (((a * 16 + b) * 16 + c) * 16 + d, rest)
  | _ => none

/-- The bytes of a code point. -/
def utf8 (n : Nat) : Bytes :=
  if n < 0x80 then [UInt8.ofNat n]
  else if n < 0x800 then [UInt8.ofNat (0xC0 + n / 64), UInt8.ofNat (0x80 + n % 64)]
  else if n < 0x10000 then
    [UInt8.ofNat (0xE0 + n / 4096), UInt8.ofNat (0x80 + n / 64 % 64), UInt8.ofNat (0x80 + n % 64)]
  else
    [UInt8.ofNat (0xF0 + n / 262144), UInt8.ofNat (0x80 + n / 4096 % 64),
      UInt8.ofNat (0x80 + n / 64 % 64), UInt8.ofNat (0x80 + n % 64)]

/-- The character of a `\u` escape, behind the `u`: a surrogate needs another one behind it. -/
def unicodeEscape (s : Bytes) : Option (Bytes × Bytes) :=
  (codeUnit s).bind fun (high, rest) =>
    if high < 0xD800 ∨ 0xE000 ≤ high then some (utf8 high, rest)
    else if 0xDC00 ≤ high then none
    else
      match rest with
      | 92 :: 117 :: rest =>
        (codeUnit rest).bind fun (low, rest) =>
          if 0xDC00 ≤ low ∧ low < 0xE000 then
            some (utf8 (0x10000 + (high - 0xD800) * 1024 + (low - 0xDC00)), rest)
          else none
      | _ => none

/-- The character that a letter behind a backslash stands for. -/
def shortEscape (c : UInt8) : Option UInt8 :=
  if c = quote ∨ c = backslash ∨ c = 47 then some c
  else if c = 98 then some 8
  else if c = 102 then some 12
  else if c = 110 then some 10
  else if c = 114 then some 13
  else if c = 116 then some 9
  else none

/-- One character of a string, and what follows it. -/
def character : Bytes → Option (Bytes × Bytes)
  | [] => none
  | c :: rest =>
    if c = backslash then
      match rest with
      | [] => none
      | d :: rest => if d = 117 then unicodeEscape rest else (shortEscape d).map fun c => ([c], rest)
    else if c = quote ∨ c < 32 then none
    else some ([c], rest)

/-- The characters up to the closing quote, and what follows it. -/
def stringBody : Nat → Bytes → Option (Bytes × Bytes)
  | 0, _ => none
  | fuel + 1, s =>
    if s.head? = some quote then some ([], s.drop 1)
    else
      (character s).bind fun (c, rest) =>
        (stringBody fuel rest).map fun (body, rest) => (c ++ body, rest)

/-! ### Numbers -/

def isNumberByte (c : UInt8) : Bool := isDigit c || c = minus || c = 43 || c = 46 || c = 69 || c = 101

def digitsValue (digits : Bytes) : Nat := digits.foldl (fun n c => n * 10 + (c.toNat - 48)) 0

def allDigits (s : Bytes) : Bool := !s.isEmpty && s.all isDigit

/-- An exponent with its mark and its sign, or nothing. -/
def isExponent : Bytes → Bool
  | [] => true
  | c :: s =>
    (c = 69 || c = 101) &&
      allDigits (if s.head? = some 43 ∨ s.head? = some minus then s.drop 1 else s)

/-- What follows the integer of a number: a fraction and an exponent. -/
def isFraction (s : Bytes) : Bool :=
  if s.head? = some 46 then
    let digits := (s.drop 1).takeWhile isDigit
    !digits.isEmpty && isExponent ((s.drop 1).dropWhile isDigit)
  else isExponent s

/-- The number of a token: an integer has no zero in front. -/
def number (token : Bytes) : Option Json :=
  let negative := token.head? = some minus
  let s := if negative then token.drop 1 else token
  let digits := s.takeWhile isDigit
  let rest := s.dropWhile isDigit
  if digits.isEmpty ∨ (digits.head? = some 48 ∧ digits ≠ [48]) then none
  else if rest.isEmpty then
    some (.integer (if negative then -(digitsValue digits : Int) else digitsValue digits))
  else if isFraction rest then some (.decimal token)
  else none

/-! ### Values -/

/-- The rest behind blanks and a symbol. -/
def expect (symbol : UInt8) (s : Bytes) : Option Bytes :=
  let s := s.dropWhile isBlank
  if s.head? = some symbol then some (s.drop 1) else none

/-- The rest behind a word. -/
def word (text : String) (s : Bytes) : Option Bytes :=
  if s.take (Bytes.ofString text).length = Bytes.ofString text then
    some (s.drop (Bytes.ofString text).length)
  else none

/-- A value that is neither a string nor composed. -/
def atom (s : Bytes) : Option (Json × Bytes) :=
  if s.head?.any isNumberByte then
    (number (s.takeWhile isNumberByte)).map (·, s.dropWhile isNumberByte)
  else
    ((word "null" s).map (Json.null, ·)).or
      (((word "true" s).map (Json.boolean true, ·)).or
        ((word "false" s).map (Json.boolean false, ·)))

mutual

/-- A value, and what follows it. -/
def value : Nat → Bytes → Option (Json × Bytes)
  | 0, _ => none
  | fuel + 1, s =>
    let s := s.dropWhile isBlank
    if s.head? = some quote then
      (stringBody s.length (s.drop 1)).map fun (body, rest) => (.string body, rest)
    else if s.head? = some openBrace then
      match expect closeBrace (s.drop 1) with
      | some rest => some (.object [], rest)
      | none => (members fuel (s.drop 1)).map fun (ms, rest) => (.object ms, rest)
    else if s.head? = some openBracket then
      match expect closeBracket (s.drop 1) with
      | some rest => some (.array [], rest)
      | none => (elements fuel (s.drop 1)).map fun (vs, rest) => (.array vs, rest)
    else atom s

/-- The members of an object up to its end. -/
def members : Nat → Bytes → Option (List (Bytes × Json) × Bytes)
  | 0, _ => none
  | fuel + 1, s => do
    let s ← expect quote s
    let (name, s) ← stringBody (s.length + 1) s
    let s ← expect colon s
    let (v, s) ← value fuel s
    match expect comma s with
    | some s => (members fuel s).map fun (ms, rest) => ((name, v) :: ms, rest)
    | none => (expect closeBrace s).map fun rest => ([(name, v)], rest)

/-- The elements of an array up to its end. -/
def elements : Nat → Bytes → Option (List Json × Bytes)
  | 0, _ => none
  | fuel + 1, s => do
    let (v, s) ← value fuel s
    match expect comma s with
    | some s => (elements fuel s).map fun (vs, rest) => (v :: vs, rest)
    | none => (expect closeBracket s).map fun rest => ([v], rest)

end

/-- A whole text. -/
def parse (s : Bytes) : Option Json :=
  (value (s.length + 1) s).bind fun (v, rest) => if rest.all isBlank then some v else none

/-! ### Reading what has been written -/

/-- The digits of an integer: no zero stands in front of others. -/
structure IsDecimal (digits : Bytes) : Prop where
  digit : ∀ c ∈ digits, isDigit c = true
  ne_nil : digits ≠ []
  zero : digits.head? = some 48 → digits = [48]

theorem IsDecimal.head? {digits : Bytes} (h : IsDecimal digits) : digits.head? ≠ some minus := by
  intro hminus
  cases h.digit _ (List.mem_of_head? hminus)

theorem IsDecimal.span {digits : Bytes} (h : IsDecimal digits) :
    digits.takeWhile isDigit = digits ∧ digits.dropWhile isDigit = [] :=
  ⟨List.takeWhile_eq_self_iff.mpr h.digit, List.dropWhile_eq_nil_iff.mpr h.digit⟩

theorem IsDecimal.accepted {digits : Bytes} (h : IsDecimal digits) :
    ¬ (digits.isEmpty = true ∨ (digits.head? = some 48 ∧ digits ≠ [48])) := by
  rintro (hempty | ⟨hzero, hne⟩)
  · exact h.ne_nil (List.isEmpty_iff.mp hempty)
  · exact hne (h.zero hzero)

theorem number_decimal {digits : Bytes} (h : IsDecimal digits) :
    number digits = some (.integer (digitsValue digits)) := by
  simp only [number, h.head?, h.span.1, h.span.2, if_false, if_neg h.accepted, List.isEmpty_nil,
    if_true]

theorem number_minus {digits : Bytes} (h : IsDecimal digits) :
    number (minus :: digits) = some (.integer (-(digitsValue digits))) := by
  simp only [number, List.head?_cons, if_true, List.drop_one, List.tail_cons, h.span.1, h.span.2,
    if_neg h.accepted, List.isEmpty_nil]

/-- Blanks are skipped only where a blank comes first. -/
theorem dropWhile_isBlank {s : Bytes} (h : s.head?.any isBlank = false) : s.dropWhile isBlank = s := by
  cases s with
  | nil => rfl
  | cons c s =>
      have hc : isBlank c = false := by simpa using h
      simp [hc]

theorem expect_cons {symbol : UInt8} (h : isBlank symbol = false) (s : Bytes) :
    expect symbol (symbol :: s) = some s := by
  simp [expect, h]

theorem expect_of_ne {symbol c : UInt8} (hc : isBlank c = false) (hne : c ≠ symbol) (s : Bytes) :
    expect symbol (c :: s) = none := by
  simp [expect, hc, hne]

/-- What stands behind a value: a symbol that ends numbers. -/
def Delimited (rest : Bytes) : Prop := rest.head?.any isNumberByte = false

/-- A token of number bytes is read to its end. -/
theorem atom_number {token rest : Bytes} {v : Json} (hne : token ≠ [])
    (htoken : ∀ c ∈ token, isNumberByte c = true) (hrest : Delimited rest)
    (hnumber : number token = some v) : atom (token ++ rest) = some (v, rest) := by
  have hspan : (token ++ rest).takeWhile isNumberByte = token ∧
      (token ++ rest).dropWhile isNumberByte = rest := by
    rw [List.takeWhile_append_of_pos htoken, List.dropWhile_append_of_pos htoken]
    cases rest with
    | nil => simp
    | cons c rest =>
        have hc : isNumberByte c = false := by simpa [Delimited] using hrest
        simp [hc]
  have hhead : (token ++ rest).head?.any isNumberByte = true := by
    obtain ⟨c, token, rfl⟩ := List.exists_cons_of_ne_nil hne
    simpa using htoken c List.mem_cons_self
  rw [atom, if_pos hhead, hspan.1, hspan.2, hnumber]
  rfl

theorem isNumberByte_symbols {c : UInt8} (h : isNumberByte c = true) :
    isBlank c = false ∧ c ≠ quote ∧ c ≠ openBrace ∧ c ≠ openBracket := by
  have hall : ∀ n : Fin 256, isNumberByte (UInt8.ofFin n) = true →
      isBlank (UInt8.ofFin n) = false ∧ UInt8.ofFin n ≠ quote ∧ UInt8.ofFin n ≠ openBrace ∧
        UInt8.ofFin n ≠ openBracket := by
    decide +kernel
  exact hall c.toFin h

/-- A number is read as a value. -/
theorem value_number (fuel : Nat) {token rest : Bytes} {v : Json} (hne : token ≠ [])
    (htoken : ∀ c ∈ token, isNumberByte c = true) (hrest : Delimited rest)
    (hnumber : number token = some v) : value (fuel + 1) (token ++ rest) = some (v, rest) := by
  have hatom := atom_number hne htoken hrest hnumber
  obtain ⟨c, token, rfl⟩ := List.exists_cons_of_ne_nil hne
  obtain ⟨hblank, hquote, hbrace, hbracket⟩ := isNumberByte_symbols (htoken c List.mem_cons_self)
  rw [List.cons_append] at hatom ⊢
  have hhead : (c :: (token ++ rest)).head?.any isBlank = false := hblank
  rw [value, dropWhile_isBlank hhead]
  simp [hquote, hbrace, hbracket, hatom]

end Lsql.JsonText
