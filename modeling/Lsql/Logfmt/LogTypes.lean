import Lsql.Core.TimeFormat

/-!
# Lsql.Logfmt.LogTypes

The log formats (`back/logfmt`): how a line is read as key-value pairs, and how the format of a log
is detected from a line.

A parser hands every pair to a callback and returns whether the line was well formed; the model
returns the list of callbacks it made and that result. A value that is a view is a piece of the line
and carries its offset in it, since the value that is stored may be a view into the line's page.
-/

namespace Lsql.Logfmt

/-- `LogType`, in the source's order. -/
inductive LogType
  | tskv
  | tsLogfmt
  | jsonl
  | csv
  | tsv
  deriving DecidableEq, Repr

/-- `timeFormat`: how the timestamps of a log are written. -/
def LogType.timeFormat : LogType → Option TimeFormat
  | .tskv => some .SQL
  | .tsLogfmt => some .ORACLE
  | .jsonl | .csv | .tsv => none

/-- A `std::string_view` into a line. -/
structure View where
  offset : Nat
  bytes : Bytes
  deriving DecidableEq, Repr

namespace View

/-- The view of a whole line. -/
def whole (line : Bytes) : View := ⟨0, line⟩

/-- `substr(pos)`, for a position within the view. -/
def drop (v : View) (pos : Nat) : View := ⟨v.offset + pos, v.bytes.drop pos⟩

/-- `substr(0, n)`. -/
def take (v : View) (n : Nat) : View := ⟨v.offset, v.bytes.take n⟩

/-- `find(symbol)`. -/
def find (v : View) (symbol : UInt8) : Option Nat := v.bytes.idxOf? symbol

theorem find_lt {v : View} {symbol : UInt8} {i : Nat} (h : v.find symbol = some i) :
    i < v.bytes.length := by
  simp only [find, List.idxOf?, List.findIdx?_eq_some_iff_getElem] at h
  exact h.1

end View

/-- What a parser passes to its callback as the value of a key. -/
inductive FieldText
  | view (v : View)
  | owned (s : Bytes)
  | null
  deriving DecidableEq, Repr

/-- The callbacks that a parser made, and what it returned. -/
abbrev Parsed := List (Bytes × FieldText) × Bool

/-- What a callback was given. -/
def FieldText.bytes : FieldText → Bytes
  | .view v => v.bytes
  | .owned s => s
  | .null => []

/-- The columns that are reported, as names and texts. -/
def reported (callbacks : List (Bytes × FieldText)) : List (Bytes × Bytes) :=
  callbacks.map fun (name, value) => (name, value.bytes)

theorem reported_append (xs ys : List (Bytes × FieldText)) :
    reported (xs ++ ys) = reported xs ++ reported ys :=
  List.map_append

/-! ### Symbols -/

def tab : UInt8 := 9
def newline : UInt8 := 10
def carriageReturn : UInt8 := 13
def space : UInt8 := 32
def quote : UInt8 := 34
def comma : UInt8 := 44
def equals : UInt8 := 61
def openBracket : UInt8 := 91
def openBrace : UInt8 := 123

/-- `AnonColumnNames`, which has 32 elements. -/
def anonColumnName (i : Nat) : Bytes := Bytes.ofString ("anon" ++ toString (i + 1))

def anonColumns : Nat := 32

/-! ### TSKV and TS_LOGFMT -/

/-- The tokens of `while (!curr.empty())`: what stands before each separator, and what follows the
last one unless it is empty. -/
def tokens (sep : UInt8) : Nat → Bytes → Bytes → List View
  | offset, token, [] => if token.isEmpty then [] else [⟨offset, token⟩]
  | offset, token, b :: bs =>
    if b = sep then ⟨offset, token⟩ :: tokens sep (offset + token.length + 1) [] bs
    else tokens sep offset (token ++ [b]) bs

/-- The loop over the tokens: `key=value`, or the value of an anonymous column. -/
def keyValues : Nat → List View → List (Bytes × FieldText)
  | _, [] => []
  | anonIndex, token :: rest =>
    match token.find equals with
    | none =>
      if anonIndex < anonColumns then
        (anonColumnName anonIndex, .view token) :: keyValues (anonIndex + 1) rest
      else
        keyValues anonIndex rest
    | some eq => ((token.take eq).bytes, .view (token.drop (eq + 1))) :: keyValues anonIndex rest

/-- `LogTypeImpl<LogType::TSKV>::parseKeyValue`. -/
def parseTskv (line : Bytes) : Parsed := (keyValues 0 (tokens tab 0 [] line), true)

/-- `line.contains(pattern)`. -/
def containsBytes (line pattern : Bytes) : Bool := line.tails.any pattern.isPrefixOf

/-- `LogTypeImpl<LogType::TSKV>::detectLogType`. -/
def detectTskv (line : Bytes) : Bool :=
  let marker := Bytes.ofString "tskv"
  let hasMarker := line == marker || (marker ++ [tab]).isPrefixOf line ||
    (tab :: marker).isSuffixOf line || containsBytes line (tab :: (marker ++ [tab]))
  hasMarker && (parseTskv line).2

/-- `LogTypeImpl<LogType::TS_LOGFMT>::parseKeyValue`. -/
def parseTsLogfmt (line : Bytes) : Parsed :=
  if line.length < 21 then ([], false)
  else
    let timestamp := (Bytes.ofString "timestamp", FieldText.view (((View.whole line).drop 1).take 20))
    let rest := (View.whole line).drop 21
    match rest.find space with
    | none => ([timestamp], true)
    | some sep =>
      let curr := rest.drop (sep + 1)
      (timestamp :: keyValues 0 (tokens space curr.offset [] curr.bytes), true)

/-- `LogTypeImpl<LogType::TS_LOGFMT>::detectLogType`. -/
def detectTsLogfmt (line : Bytes) : Bool :=
  [openBracket].isPrefixOf line && (parseTsLogfmt line).2

/-! ### JSONL -/

def isJsonSpace (b : UInt8) : Bool := b = space || b = tab || b = carriageReturn || b = newline

/-- `raw.substr(0, raw.find_last_not_of(" \t\r\n") + 1)`. -/
def trimRight (raw : Bytes) : Bytes := (raw.reverse.dropWhile isJsonSpace).reverse

/-- The callback for one field of an object. -/
def jsonField (line : Bytes) : JsonFieldValue → FieldText
  | .string decoded => .owned decoded
  | .raw offset size =>
    let raw := trimRight ((line.drop offset).take size)
    if raw = Bytes.ofString "null" then .null else .view ⟨offset, raw⟩

/-- `LogTypeImpl<LogType::JSONL>::parseKeyValue`. -/
def parseJsonl [Platform] (line : Bytes) : Parsed :=
  let (fields, ok) := Platform.jsonObject line
  (fields.map fun (key, value) => (key, jsonField line value), ok)

/-- `LogTypeImpl<LogType::JSONL>::detectLogType`. -/
def detectJsonl [Platform] (line : Bytes) : Bool :=
  match line.dropWhile isJsonSpace with
  | [] => false
  | b :: _ => b = openBrace && (parseJsonl line).2

/-! ### CSV -/

/-- The search for the quote that closes a field: its position, and whether an escaped quote was
met. -/
def closingQuote : Nat → Bool → Bytes → Option (Nat × Bool)
  | _, _, [] => none
  | position, escaped, [b] => if b = quote then some (position, escaped) else none
  | position, escaped, b :: b' :: bs =>
    if b = quote then
      if b' = quote then closingQuote (position + 2) true bs else some (position, escaped)
    else closingQuote (position + 1) escaped (b' :: bs)

/-- The value of an escaped field: the symbol after a quote is skipped. -/
def unescape : Bytes → Bytes
  | [] => []
  | [b] => [b]
  | b :: b' :: bs => if b = quote then b :: unescape bs else b :: unescape (b' :: bs)

/-- One column: the field, whether it is escaped, and the position of the separator after it. With
`none` the line is malformed. -/
def csvColumn (line : View) : Option (View × Bool × Option Nat) :=
  if line.bytes.head? = some quote then
    match closingQuote 1 false (line.bytes.drop 1) with
    | none => none
    | some (position, escaped) =>
      let field := (line.drop 1).take (position - 1)
      let separator := position + 1
      if separator = line.bytes.length then some (field, escaped, none)
      else if line.bytes[separator]? ≠ some comma then none
      else some (field, escaped, some separator)
  else
    let separator := line.find comma
    let field := match separator with
      | some i => line.take i
      | none => line
    if field.bytes.contains quote then none else some (field, false, separator)

theorem csvColumn_separator {line field : View} {escaped : Bool} {i : Nat}
    (h : csvColumn line = some (field, escaped, some i)) : i < line.bytes.length := by
  unfold csvColumn at h
  by_cases hquote : line.bytes.head? = some quote
  · rw [if_pos hquote] at h
    cases hclose : closingQuote 1 false (line.bytes.drop 1) with
    | none =>
        simp only [hclose] at h
        cases h
    | some found =>
        simp only [hclose] at h
        split at h
        · cases h
        · split at h
          · cases h
          next hcomma =>
            obtain ⟨-, -, rfl⟩ : _ ∧ _ ∧ found.1 + 1 = i := by simpa using h
            by_contra hlen
            simp [List.getElem?_eq_none (Nat.le_of_not_lt hlen)] at hcomma
  · rw [if_neg hquote] at h
    simp only [Option.ite_none_left_eq_some, Option.some.injEq, Prod.mk.injEq] at h
    exact View.find_lt h.2.2.2

/-- `line.find_first_of("\r\n") != npos`. -/
def hasLineBreak (bytes : Bytes) : Bool := bytes.any fun b => b = carriageReturn || b = newline

/-- The callback for a column. -/
def csvField (columnIndex : Nat) (field : View) (escaped : Bool) : List (Bytes × FieldText) :=
  if columnIndex < anonColumns then
    [(anonColumnName columnIndex, if escaped then .owned (unescape field.bytes) else .view field)]
  else []

/-- The loop over the columns. -/
def csvColumns (columnIndex : Nat) (line : View) : Parsed :=
  match _h : csvColumn line with
  | none => ([], false)
  | some (field, escaped, none) =>
    if hasLineBreak field.bytes then ([], false)
    else (csvField columnIndex field escaped, true)
  | some (field, escaped, some i) =>
    if hasLineBreak field.bytes then ([], false)
    else
      let (rest, ok) := csvColumns (columnIndex + 1) (line.drop (i + 1))
      (csvField columnIndex field escaped ++ rest, ok)
termination_by line.bytes.length
decreasing_by
  have := csvColumn_separator _h
  simp only [View.drop, List.length_drop]
  omega

/-- `line.remove_suffix(1)` if the line ends with `\r`. -/
def dropReturn (line : Bytes) : Bytes :=
  if [carriageReturn].isSuffixOf line then line.dropLast else line

/-- `LogTypeImpl<LogType::CSV>::parseKeyValue`. -/
def parseCsv (line : Bytes) : Parsed := csvColumns 0 (View.whole (dropReturn line))

/-- `hasUnquotedTabs`. -/
def hasUnquotedTabs : Bool → Bytes → Bool
  | _, [] => false
  | quoted, b :: bs =>
    if b = quote then hasUnquotedTabs (!quoted) bs
    else if b = tab && !quoted then true
    else hasUnquotedTabs quoted bs

/-- `LogTypeImpl<LogType::CSV>::detectLogType`, with `countColumns`. -/
def detectCsv (line : Bytes) : Bool :=
  if !line.contains comma || hasUnquotedTabs false line then false
  else
    let (columns, ok) := parseCsv line
    ok && decide (1 < columns.length)

/-! ### TSV -/

/-- The columns of a line, the last one included. -/
def columns (sep : UInt8) : Nat → Bytes → Bytes → List View
  | offset, column, [] => [⟨offset, column⟩]
  | offset, column, b :: bs =>
    if b = sep then ⟨offset, column⟩ :: columns sep (offset + column.length + 1) [] bs
    else columns sep offset (column ++ [b]) bs

/-- `LogTypeImpl<LogType::TSV>::parseKeyValue`. -/
def parseTsv (line : Bytes) : Parsed :=
  let line := dropReturn line
  if hasLineBreak line then ([], false)
  else
    (((columns tab 0 [] line).take anonColumns).mapIdx fun i column =>
      (anonColumnName i, FieldText.view column), true)

/-- `LogTypeImpl<LogType::TSV>::detectLogType`. -/
def detectTsv (line : Bytes) : Bool := line.contains tab && (parseTsv line).2

/-! ### The table of formats -/

namespace LogType

variable [Platform]

/-- `parseKeyValueFunc`. -/
def parseKeyValue : LogType → Bytes → Parsed
  | tskv => parseTskv
  | tsLogfmt => parseTsLogfmt
  | jsonl => parseJsonl
  | csv => parseCsv
  | tsv => parseTsv

/-- `LogTypeImpl<T>::detectLogType`. -/
def detects : LogType → Bytes → Bool
  | tskv => detectTskv
  | tsLogfmt => detectTsLogfmt
  | jsonl => detectJsonl
  | csv => detectCsv
  | tsv => detectTsv

/-- All formats, in the order in which they are tried. -/
def all : List LogType := [tskv, tsLogfmt, jsonl, csv, tsv]

/-- `detectLogType`: the first format that recognises the line. -/
def detect (line : Bytes) : Option LogType := all.find? fun type => type.detects line

/-- A format is detected only on a line that it parses. -/
theorem parses_of_detects {type : LogType} {line : Bytes} (h : type.detects line = true) :
    (type.parseKeyValue line).2 = true := by
  cases type with
  | tskv => rfl
  | tsLogfmt => exact (Bool.and_eq_true _ _ ▸ h).2
  | jsonl =>
      simp only [detects, detectJsonl] at h
      split at h
      · cases h
      · exact (Bool.and_eq_true _ _ ▸ h).2
  | csv =>
      simp only [detects, detectCsv] at h
      split at h
      · cases h
      · exact (Bool.and_eq_true _ _ ▸ h).1
  | tsv => exact (Bool.and_eq_true _ _ ▸ h).2

theorem parses_of_detect {type : LogType} {line : Bytes} (h : detect line = some type) :
    (type.parseKeyValue line).2 = true := by
  have hdetects := List.find?_some h
  exact parses_of_detects hdetects

end LogType

end Lsql.Logfmt
