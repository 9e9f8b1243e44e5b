import Mathlib.Tactic.IntervalCases
import Lsql.Core.Schema
import Lsql.Exec.Record
import Lsql.Output.JsonText
import Lsql.Core.Platform

/-!
# Lsql.Output.JSONFormatter

The records of a query as JSON lines (`output/JSONFormatter.h`).

The names of the columns are escaped once, the values with every record. What a line is read as is
`JsonText.parse`.
-/

namespace Lsql.Output

/-! ### The formatter -/

/-- `hex[n]`. -/
def hexDigit (n : UInt8) : UInt8 := if n < 10 then 48 + n else 55 + n

/-- `switch (c)`: what is appended for a byte. -/
def escapedByte (c : UInt8) : Bytes :=
  if c = 34 then [92, 34]
  else if c = 92 then [92, 92]
  else if c = 47 then [92, 47]
  else if c = 8 then [92, 98]
  else if c = 12 then [92, 102]
  else if c = 10 then [92, 110]
  else if c = 13 then [92, 114]
  else if c = 9 then [92, 116]
  else if c < 0x20 then [92, 117, 48, 48, hexDigit (c >>> 4), hexDigit (c &&& 0x0F)]
  else [c]

/-- `appendJSONEscaped`. -/
def appendJSONEscaped (output input : Bytes) : Bytes :=
  input.foldl (fun output c => output ++ escapedByte c) output

/-- `appendJSONValue`. -/
def appendJSONValue [Platform] (output : Bytes) : Value → Bytes
  | .null => output ++ Bytes.ofString "null"
  | .boolean x => output ++ Bytes.ofString (if x then "true" else "false")
  | .integer x => output ++ Bytes.ofString (toString x.toInt)
  | .floating x => output ++ Platform.floatToString x
  | .string s => appendJSONEscaped (output ++ [34]) s ++ [34]
  | .pinned s => appendJSONEscaped (output ++ [34]) s.view ++ [34]

/-- `JSONFormatter`. -/
structure JSONFormatter where
  fieldPrefixes : List Bytes

namespace JSONFormatter

/-- The constructor, with `binding->name(id)` as a function. -/
def build (name : FieldId → Except Fault Bytes) (schema : Schema) : Except Fault JSONFormatter := do
  let prefixes ← schema.fields.mapM fun id => do
    let name ← name id
    pure (appendJSONEscaped [34] name ++ [34, 58])
  pure ⟨prefixes⟩

/-- The loop over the fields from the `i`-th one on. The prefixes are indexed without a check. -/
def appendFields [Platform] (formatter : JSONFormatter) :
    Nat → List (FieldId × Value) → Bytes → Except Fault Bytes
  | _, [], buffer => .ok buffer
  | i, (_, value) :: r, buffer =>
    match formatter.fieldPrefixes[i]? with
    | none => .error (.undefined "read past the end of the field prefixes")
    | some fieldStart =>
      let buffer := if i ≠ 0 then buffer ++ [44] else buffer
      formatter.appendFields (i + 1) r (appendJSONValue (buffer ++ fieldStart) value)

/-- `consume`: the text that is pushed to the sink. The sizes are compared in debug builds only. -/
def consume [Platform] (formatter : JSONFormatter) (r : List (FieldId × Value)) :
    Except Fault Bytes := do
  let buffer ← formatter.appendFields 0 r [123]
  pure (buffer ++ [125])

end JSONFormatter

/-- `ConsumerBridge`: the record of a query with the fields of the schema. -/
def bridgeRecord (schema : Schema) (record : Exec.Record) : Except Fault (List (FieldId × Value)) :=
  schema.fields.zipIdx.mapM fun (id, slot) => do
    let value ← record.get slot
    pure (id, value)

/-! ### Escaped texts -/

theorem appendJSONEscaped_eq (output input : Bytes) :
    appendJSONEscaped output input = output ++ input.flatMap escapedByte := by
  induction input generalizing output with
  | nil => simp [appendJSONEscaped]
  | cons c input ih =>
      have hstep : appendJSONEscaped output (c :: input) =
          appendJSONEscaped (output ++ escapedByte c) input := rfl
      rw [hstep, ih]
      simp

/-- A text in which every quote and every backslash belongs to an escape, and that has no control
character. -/
inductive Escaped : Bytes → Prop
  | nil : Escaped []
  | plain {c : UInt8} {rest : Bytes} (hquote : c ≠ 34) (hbackslash : c ≠ 92) (hcontrol : 32 ≤ c)
      (hrest : Escaped rest) : Escaped (c :: rest)
  | escape {c : UInt8} {rest : Bytes} (hcontrol : 32 ≤ c) (hrest : Escaped rest) :
      Escaped (92 :: c :: rest)

/-- The cases of `switch (c)`. -/
theorem escapedByte_cases (c : UInt8) :
    (∃ d, escapedByte c = [92, d] ∧ 32 ≤ d ∧ d ≠ 117 ∧ JsonText.shortEscape d = some c) ∨
      (c < 32 ∧ escapedByte c = [92, 117, 48, 48, hexDigit (c >>> 4), hexDigit (c &&& 0x0F)]) ∨
      (c ≠ 34 ∧ c ≠ 92 ∧ 32 ≤ c ∧ escapedByte c = [c]) := by
  by_cases hshort : c ∈ ([34, 92, 47, 8, 12, 10, 13, 9] : List UInt8)
  · left
    simp only [List.mem_cons, List.not_mem_nil, or_false] at hshort
    rcases hshort with rfl | rfl | rfl | rfl | rfl | rfl | rfl | rfl
    all_goals exact ⟨_, rfl, by decide, by decide, rfl⟩
  · right
    simp only [List.mem_cons, List.not_mem_nil, or_false, not_or] at hshort
    obtain ⟨h34, h92, h47, h8, h12, h10, h13, h9⟩ := hshort
    by_cases hcontrol : c < 0x20
    · left
      simp [escapedByte, h34, h92, h47, h8, h12, h10, h13, h9, hcontrol]
    · right
      refine ⟨h34, h92, UInt8.not_lt.mp hcontrol, ?_⟩
      simp [escapedByte, h34, h92, h47, h8, h12, h10, h13, h9, hcontrol]

/-- The two digits of a control character. -/
theorem hexDigits_control (c : UInt8) (h : c < 32) :
    JsonText.hexValue (hexDigit (c >>> 4)) = some (c.toNat / 16) ∧
      JsonText.hexValue (hexDigit (c &&& 0x0F)) = some (c.toNat % 16) ∧
      (32 : UInt8) ≤ hexDigit (c >>> 4) ∧ (32 : UInt8) ≤ hexDigit (c &&& 0x0F) ∧
      hexDigit (c >>> 4) ≠ 34 ∧ hexDigit (c >>> 4) ≠ 92 ∧ hexDigit (c &&& 0x0F) ≠ 34 ∧
      hexDigit (c &&& 0x0F) ≠ 92 := by
  have hall : ∀ n : Fin 256, UInt8.ofFin n < 32 →
      JsonText.hexValue (hexDigit (UInt8.ofFin n >>> 4)) = some ((UInt8.ofFin n).toNat / 16) ∧
        JsonText.hexValue (hexDigit (UInt8.ofFin n &&& 0x0F)) = some ((UInt8.ofFin n).toNat % 16) ∧
        (32 : UInt8) ≤ hexDigit (UInt8.ofFin n >>> 4) ∧
        (32 : UInt8) ≤ hexDigit (UInt8.ofFin n &&& 0x0F) ∧
        hexDigit (UInt8.ofFin n >>> 4) ≠ 34 ∧ hexDigit (UInt8.ofFin n >>> 4) ≠ 92 ∧
        hexDigit (UInt8.ofFin n &&& 0x0F) ≠ 34 ∧ hexDigit (UInt8.ofFin n &&& 0x0F) ≠ 92 := by
    decide +kernel
  exact hall c.toFin h

/-- What is appended for a byte is read as this byte. -/
theorem character_escapedByte (c : UInt8) (rest : Bytes) :
    JsonText.character (escapedByte c ++ rest) = some ([c], rest) := by
  rcases escapedByte_cases c with ⟨d, heq, -, hd, hshort⟩ | ⟨hcontrol, heq⟩ | ⟨hquote, hback, hle, heq⟩
  · rw [heq]
    simp [JsonText.character, JsonText.backslash, hd, hshort]
  · obtain ⟨hhigh, hlow, -⟩ := hexDigits_control c hcontrol
    have hsmall : c.toNat < 32 := hcontrol
    have hvalue : c.toNat / 16 * 16 + c.toNat % 16 = c.toNat := Nat.div_add_mod' _ _
    have hzero : JsonText.hexValue 48 = some 0 := rfl
    have hunit : JsonText.codeUnit
        (48 :: 48 :: hexDigit (c >>> 4) :: hexDigit (c &&& 0x0F) :: rest) = some (c.toNat, rest) := by
      simp [JsonText.codeUnit, hzero, hhigh, hlow, hvalue]
    have hutf8 : JsonText.utf8 c.toNat = [c] := by
      rw [JsonText.utf8, if_pos (by omega), UInt8.ofNat_toNat]
    rw [heq]
    simp only [List.cons_append, List.nil_append, JsonText.character, JsonText.backslash, if_true,
      JsonText.unicodeEscape, hunit, Option.bind_some]
    rw [if_pos (Or.inl (by omega)), hutf8]
  · rw [heq]
    simp [JsonText.character, JsonText.backslash, JsonText.quote, hquote, hback, UInt8.not_lt.mpr hle]

theorem head?_escapedByte (c : UInt8) (rest : Bytes) :
    (escapedByte c ++ rest).head? ≠ some JsonText.quote := by
  rcases escapedByte_cases c with ⟨d, heq, -⟩ | ⟨-, heq⟩ | ⟨hquote, -, -, heq⟩
  · rw [heq]
    simp [JsonText.quote]
  · rw [heq]
    simp [JsonText.quote]
  · rw [heq]
    simpa [JsonText.quote] using hquote

theorem length_escapedByte_pos (c : UInt8) : 0 < (escapedByte c).length := by
  rcases escapedByte_cases c with ⟨d, heq, -⟩ | ⟨-, heq⟩ | ⟨-, -, -, heq⟩
  all_goals simp [heq]

/-- **An escaped text is read back, up to the quote behind it.** -/
theorem stringBody_escaped (input rest : Bytes) {fuel : Nat} (hfuel : input.length < fuel) :
    JsonText.stringBody fuel (appendJSONEscaped [] input ++ JsonText.quote :: rest) =
      some (input, rest) := by
  rw [appendJSONEscaped_eq, List.nil_append]
  induction input generalizing fuel with
  | nil =>
      obtain ⟨fuel, rfl⟩ : ∃ k, fuel = k + 1 := ⟨fuel - 1, by simp at hfuel; omega⟩
      simp [JsonText.stringBody]
  | cons c input ih =>
      obtain ⟨fuel, rfl⟩ : ∃ k, fuel = k + 1 := ⟨fuel - 1, by simp at hfuel; omega⟩
      rw [List.flatMap_cons, List.append_assoc, JsonText.stringBody, if_neg (head?_escapedByte c _),
        character_escapedByte]
      simp only [Option.bind_some, ih (by simpa using hfuel), Option.map_some, List.singleton_append]

theorem escaped_append {s t : Bytes} (hs : Escaped s) (ht : Escaped t) : Escaped (s ++ t) := by
  induction hs with
  | nil => exact ht
  | plain hquote hbackslash hcontrol _ ih => exact .plain hquote hbackslash hcontrol ih
  | escape hcontrol _ ih => exact .escape hcontrol ih

theorem Escaped.control {s : Bytes} (h : Escaped s) : ∀ c ∈ s, 32 ≤ c := by
  induction h with
  | nil => exact fun _ h => absurd h List.not_mem_nil
  | plain _ _ hcontrol _ ih => exact List.forall_mem_cons.mpr ⟨hcontrol, ih⟩
  | escape hcontrol _ ih =>
      exact List.forall_mem_cons.mpr ⟨by decide, List.forall_mem_cons.mpr ⟨hcontrol, ih⟩⟩

theorem escaped_escapedByte (c : UInt8) : Escaped (escapedByte c) := by
  rcases escapedByte_cases c with ⟨d, heq, hd, -⟩ | ⟨hcontrol, heq⟩ | ⟨hquote, hback, hle, heq⟩
  · rw [heq]
    exact .escape hd .nil
  · obtain ⟨-, -, hhigh, hlow, hh34, hh92, hl34, hl92⟩ := hexDigits_control c hcontrol
    rw [heq]
    refine .escape (by decide) (.plain (by decide) (by decide) (by decide) ?_)
    exact .plain (by decide) (by decide) (by decide) (.plain hh34 hh92 hhigh (.plain hl34 hl92 hlow .nil))
  · rw [heq]
    exact .plain hquote hback hle .nil

/-- **An escaped text has no quote, no backslash and no control character of its own.** -/
theorem escaped_appendJSONEscaped (input : Bytes) : Escaped (appendJSONEscaped [] input) := by
  rw [appendJSONEscaped_eq, List.nil_append]
  induction input with
  | nil => exact .nil
  | cons c input ih => exact escaped_append (escaped_escapedByte c) ih

/-! ### Integers -/

theorem ofString_repr (n : Nat) :
    Bytes.ofString n.repr =
      if n < 10 then [UInt8.ofNat (48 + n)]
      else Bytes.ofString (n / 10).repr ++ [UInt8.ofNat (48 + n % 10)] := by
  have hdigit (m : Nat) (hm : m < 10) : UInt8.ofNat (Nat.digitChar m).toNat = UInt8.ofNat (48 + m) := by
    rw [Nat.toNat_digitChar_of_lt_ten hm]
  simp only [Bytes.ofString, Nat.toList_repr]
  split
  · rename_i hlt
    rw [Nat.toDigits_of_lt_base hlt, List.map_singleton, hdigit n hlt]
  · rename_i hge
    rw [Nat.toDigits_of_base_le (by decide) (Nat.not_lt.mp hge), List.map_append,
      List.map_singleton, hdigit _ (Nat.mod_lt n (by decide))]

/-- The text of a natural number is its decimal digits. -/
theorem decimal_spec (n : Nat) :
    JsonText.IsDecimal (Bytes.ofString n.repr) ∧ JsonText.digitsValue (Bytes.ofString n.repr) = n := by
  have hone (m : Nat) (hm : m < 10) :
      JsonText.isDigit (UInt8.ofNat (48 + m)) = true ∧ (UInt8.ofNat (48 + m)).toNat - 48 = m ∧
        (UInt8.ofNat (48 + m) = 48 → m = 0) := by
    interval_cases m <;> decide
  induction n using Nat.strong_induction_on with
  | _ n ih =>
      rw [ofString_repr]
      split
      · rename_i hlt
        obtain ⟨hdigit, hvalue, -⟩ := hone n hlt
        refine ⟨⟨List.forall_mem_singleton.mpr hdigit, by simp, fun h => by rw [Option.some.inj h]⟩, ?_⟩
        show 0 * 10 + ((UInt8.ofNat (48 + n)).toNat - 48) = n
        omega
      · rename_i hge
        obtain ⟨hdecimal, hvalue⟩ := ih (n / 10) (by omega)
        obtain ⟨hdigit, hlast, -⟩ := hone (n % 10) (Nat.mod_lt n (by decide))
        refine ⟨⟨?_, by simp, ?_⟩, ?_⟩
        · exact List.forall_mem_append.mpr ⟨hdecimal.digit, List.forall_mem_singleton.mpr hdigit⟩
        · intro h
          rw [List.head?_append_of_ne_nil _ hdecimal.ne_nil] at h
          -- a single zero in front would be the number zero
          rw [hdecimal.zero h] at hvalue
          have : n / 10 = 0 := hvalue.symm
          omega
        · simp only [JsonText.digitsValue, List.foldl_append, List.foldl_cons, List.foldl_nil]
          rw [show List.foldl _ 0 (Bytes.ofString (n / 10).repr) = n / 10 from hvalue, hlast]
          omega

/-- The text of an integer is the token that is read as it. -/
theorem number_toString (x : Int) :
    JsonText.number (Bytes.ofString (toString x)) = some (.integer x) := by
  rw [Int.toString_eq_repr, Int.repr_eq_if]
  split
  · rename_i hpos
    obtain ⟨hdecimal, hvalue⟩ := decimal_spec x.toNat
    rw [JsonText.number_decimal hdecimal, hvalue, Int.toNat_of_nonneg hpos]
  · rename_i hneg
    obtain ⟨hdecimal, hvalue⟩ := decimal_spec (-x).toNat
    have htext : Bytes.ofString ("-" ++ (-x).toNat.repr) =
        JsonText.minus :: Bytes.ofString (-x).toNat.repr := by
      simp [Bytes.ofString, JsonText.minus]
    rw [htext, JsonText.number_minus hdecimal, hvalue, Int.toNat_of_nonneg (by omega), Int.neg_neg]

/-! ### Values -/

/-- What a value is in JSON. -/
inductive Denotes : Value → JsonText.Json → Prop
  | null : Denotes .null .null
  | boolean (x : Bool) : Denotes (.boolean x) (.boolean x)
  | integer (x : Int64) : Denotes (.integer x) (.integer x.toInt)
  | string (s : Bytes) : Denotes (.string s) (.string s)
  | pinned (s : PinnedString) : Denotes (.pinned s) (.string s.view)

/-- A value of a type whose text does not depend on the platform. -/
theorem exists_denotes {v : Value} (h : v.type ≠ .floating) : ∃ j, Denotes v j := by
  cases v with
  | null => exact ⟨_, .null⟩
  | integer x => exact ⟨_, .integer x⟩
  | floating x => exact absurd rfl h
  | boolean x => exact ⟨_, .boolean x⟩
  | string s => exact ⟨_, .string s⟩
  | pinned s => exact ⟨_, .pinned s⟩

section Values

variable [Platform]

theorem appendJSONValue_eq (output : Bytes) (v : Value) :
    appendJSONValue output v = output ++ appendJSONValue [] v := by
  cases v <;> simp [appendJSONValue, appendJSONEscaped_eq]

omit [Platform] in
theorem length_le_escaped (input : Bytes) : input.length ≤ (appendJSONEscaped [] input).length := by
  rw [appendJSONEscaped_eq, List.nil_append]
  induction input with
  | nil => simp
  | cons c input ih =>
      have := length_escapedByte_pos c
      simp only [List.flatMap_cons, List.length_append, List.length_cons]
      omega

omit [Platform] in
/-- The text of an integer is made of number bytes. -/
theorem toString_bytes (x : Int) :
    Bytes.ofString (toString x) ≠ [] ∧
      ∀ c ∈ Bytes.ofString (toString x), JsonText.isNumberByte c = true := by
  have hnumber {c : UInt8} (h : JsonText.isDigit c = true) : JsonText.isNumberByte c = true := by
    simp [JsonText.isNumberByte, h]
  rw [Int.toString_eq_repr, Int.repr_eq_if]
  split
  · have hdecimal := (decimal_spec x.toNat).1
    exact ⟨hdecimal.ne_nil, fun c hc => hnumber (hdecimal.digit c hc)⟩
  · have hdecimal := (decimal_spec (-x).toNat).1
    have htext : Bytes.ofString ("-" ++ (-x).toNat.repr) =
        JsonText.minus :: Bytes.ofString (-x).toNat.repr := by
      simp [Bytes.ofString, JsonText.minus]
    rw [htext]
    exact ⟨by simp, List.forall_mem_cons.mpr ⟨rfl, fun c hc => hnumber (hdecimal.digit c hc)⟩⟩

omit [Platform] in
/-- A string between quotes is read as a value. -/
theorem value_string (fuel : Nat) (s rest : Bytes) :
    JsonText.value (fuel + 1) (JsonText.quote :: (appendJSONEscaped [] s ++ JsonText.quote :: rest)) =
      some (.string s, rest) := by
  have hlength : s.length <
      (JsonText.quote :: (appendJSONEscaped [] s ++ JsonText.quote :: rest)).length := by
    have := length_le_escaped s
    simp only [List.length_cons, List.length_append]
    omega
  have hbody := stringBody_escaped s rest hlength
  rw [JsonText.value, JsonText.dropWhile_isBlank rfl]
  simp only [List.head?_cons, if_true, List.drop_one, List.tail_cons, hbody, Option.map_some]

/-- The text of a value is read as the value, up to a symbol that ends it. -/
theorem value_appendJSONValue (fuel : Nat) {v : Value} {j : JsonText.Json} (h : Denotes v j)
    {rest : Bytes} (hrest : JsonText.Delimited rest) :
    JsonText.value (fuel + 1) (appendJSONValue [] v ++ rest) = some (j, rest) := by
  cases h with
  | null => rfl
  | boolean x =>
      cases x with
      | true => rfl
      | false => rfl
  | integer x =>
      obtain ⟨hne, hbytes⟩ := toString_bytes x.toInt
      exact JsonText.value_number fuel hne hbytes hrest (number_toString x.toInt)
  | string s =>
      have htext : appendJSONValue [] (.string s) ++ rest =
          JsonText.quote :: (appendJSONEscaped [] s ++ JsonText.quote :: rest) := by
        simp [appendJSONValue, appendJSONEscaped_eq, JsonText.quote]
      rw [htext, value_string]
  | pinned s =>
      have htext : appendJSONValue [] (.pinned s) ++ rest =
          JsonText.quote :: (appendJSONEscaped [] s.view ++ JsonText.quote :: rest) := by
        simp [appendJSONValue, appendJSONEscaped_eq, JsonText.quote]
      rw [htext, value_string]

/-! ### Lines -/

/-- The text of a member. -/
def memberText (name : Bytes) (v : Value) : Bytes :=
  appendJSONEscaped [34] name ++ [34, 58] ++ appendJSONValue [] v

/-- What the loop appends for the fields, and the end of the line behind them. -/
def membersText : List (Bytes × Value) → Bytes
  | [] => [125]
  | [(name, v)] => memberText name v ++ [125]
  | (name, v) :: field :: fields => memberText name v ++ 44 :: membersText (field :: fields)

theorem memberText_append (name : Bytes) (v : Value) (tail : Bytes) :
    memberText name v ++ tail =
      JsonText.quote :: (appendJSONEscaped [] name ++
        JsonText.quote :: JsonText.colon :: (appendJSONValue [] v ++ tail)) := by
  simp [memberText, appendJSONEscaped_eq, JsonText.quote, JsonText.colon]

/-- A member is read, and then the comma or the brace behind it. -/
theorem members_memberText {name : Bytes} {v : Value} {j : JsonText.Json} (hdenotes : Denotes v j)
    (fuel : Nat) {tail : Bytes} (htail : JsonText.Delimited tail) :
    JsonText.members (fuel + 2) (memberText name v ++ tail) =
      (JsonText.expect JsonText.comma tail).elim
        ((JsonText.expect JsonText.closeBrace tail).map fun rest => ([(name, j)], rest))
        fun s => (JsonText.members (fuel + 1) s).map fun (ms, rest) => ((name, j) :: ms, rest) := by
  have hvalue := value_appendJSONValue fuel hdenotes htail
  rw [memberText_append, JsonText.members]
  generalize htext : appendJSONEscaped [] name ++
    JsonText.quote :: JsonText.colon :: (appendJSONValue [] v ++ tail) = text
  have hquote : JsonText.expect JsonText.quote (JsonText.quote :: text) = some text :=
    JsonText.expect_cons rfl text
  have hbody : JsonText.stringBody (text.length + 1) text =
      some (name, JsonText.colon :: (appendJSONValue [] v ++ tail)) := by
    have hlength : name.length < text.length + 1 := by
      have := length_le_escaped name
      rw [← htext, List.length_append]
      omega
    have hbody := stringBody_escaped name (JsonText.colon :: (appendJSONValue [] v ++ tail)) hlength
    rwa [htext] at hbody
  have hcolon : JsonText.expect JsonText.colon (JsonText.colon :: (appendJSONValue [] v ++ tail)) =
      some (appendJSONValue [] v ++ tail) :=
    JsonText.expect_cons rfl _
  simp only [Option.bind_eq_bind, hquote, Option.bind_some, hbody, hcolon, hvalue]
  cases JsonText.expect JsonText.comma tail with
  | none => rfl
  | some s => rfl

/-- Members are read one by one. -/
theorem members_membersText {fields : List (Bytes × Value)} {ms : List (Bytes × JsonText.Json)}
    (h : List.Forall₂ (fun f m => m.1 = f.1 ∧ Denotes f.2 m.2) fields ms) (hne : fields ≠ [])
    {fuel : Nat} (hfuel : fields.length < fuel) :
    JsonText.members fuel (membersText fields) = some (ms, []) := by
  induction h generalizing fuel with
  | nil => exact absurd rfl hne
  | @cons field member fields ms hfield hrest ih =>
      obtain ⟨name, v⟩ := field
      obtain ⟨name', j⟩ := member
      obtain ⟨rfl, hdenotes⟩ := hfield
      obtain ⟨fuel, rfl⟩ : ∃ k, fuel = k + 2 := ⟨fuel - 2, by simp at hfuel; omega⟩
      cases hrest with
      | nil => exact members_memberText hdenotes fuel rfl
      | @cons next nextMember fields ms hnext hrest =>
          have htail : JsonText.Delimited (44 :: membersText (next :: fields)) := rfl
          have hread := @members_memberText _ name' _ _ hdenotes fuel _ htail
          have hcomma : JsonText.expect JsonText.comma (44 :: membersText (next :: fields)) =
              some (membersText (next :: fields)) :=
            JsonText.expect_cons rfl _
          rw [hcomma, Option.elim_some, ih (by simp) (by simpa using hfuel)] at hread
          exact hread

theorem length_le_membersText (fields : List (Bytes × Value)) :
    fields.length ≤ (membersText fields).length := by
  induction fields with
  | nil => simp
  | cons field fields ih =>
      cases fields with
      | nil => simp [membersText]
      | cons next fields =>
          simp only [membersText, List.length_append, List.length_cons] at ih ⊢
          omega

/-- The line of fields is read as the object of its members. -/
theorem parse_line {fields : List (Bytes × Value)} {ms : List (Bytes × JsonText.Json)}
    (h : List.Forall₂ (fun f m => m.1 = f.1 ∧ Denotes f.2 m.2) fields ms) :
    JsonText.parse (123 :: membersText fields) = some (.object ms) := by
  cases fields with
  | nil =>
      cases h
      rfl
  | cons field fields =>
      have hfuel : (field :: fields).length < (123 :: membersText (field :: fields)).length := by
        exact Nat.lt_succ_of_le (length_le_membersText (field :: fields))
      have hmembers := members_membersText h (by simp) hfuel
      -- the first member starts with a quote, so the object is not empty
      have hstart : ∃ rest, membersText (field :: fields) = 34 :: rest := by
        cases fields with
        | nil => exact ⟨_, memberText_append _ _ _⟩
        | cons next fields => exact ⟨_, memberText_append _ _ _⟩
      have hopen : JsonText.expect JsonText.closeBrace (membersText (field :: fields)) = none := by
        obtain ⟨rest, hrest⟩ := hstart
        rw [hrest]
        exact JsonText.expect_of_ne rfl (by decide) rest
      generalize membersText (field :: fields) = text at hmembers hopen ⊢
      have hmembers : JsonText.members (text.length + 1) text = some (ms, []) := hmembers
      have hvalue : JsonText.value ((123 :: text).length + 1) (123 :: text) = some (.object ms, []) := by
        have hblank : (123 :: text).head?.any JsonText.isBlank = false := rfl
        rw [JsonText.value, JsonText.dropWhile_isBlank hblank]
        simp [JsonText.quote, JsonText.openBrace, hopen, hmembers]
      rw [JsonText.parse, hvalue]
      rfl

theorem membersText_cons (name : Bytes) (v : Value) (fields : List (Bytes × Value)) :
    membersText ((name, v) :: fields) =
      memberText name v ++ (fields.flatMap fun f => 44 :: memberText f.1 f.2) ++ [125] := by
  induction fields generalizing name v with
  | nil => simp [membersText]
  | cons field fields ih => rw [membersText, ih, List.flatMap_cons]; simp

/-- What the loop appends behind the first field. -/
theorem appendFields_succ {formatter : JSONFormatter} {names : List Bytes} {r : List (FieldId × Value)}
    {i : Nat} (hprefixes : formatter.fieldPrefixes.drop (i + 1) =
      names.map fun name => appendJSONEscaped [34] name ++ [34, 58])
    (hlength : names.length = r.length) (buffer : Bytes) :
    formatter.appendFields (i + 1) r buffer =
      .ok (buffer ++ (names.zip (r.map Prod.snd)).flatMap fun f => 44 :: memberText f.1 f.2) := by
  induction r generalizing i names buffer with
  | nil =>
      rw [List.length_eq_zero_iff.mp hlength]
      simp [JSONFormatter.appendFields]
  | cons field r ih =>
      obtain ⟨name, names, rfl⟩ := List.exists_cons_of_length_eq_add_one hlength
      obtain ⟨id, v⟩ := field
      have hthis : formatter.fieldPrefixes[i + 1]? =
          some (appendJSONEscaped [34] name ++ [34, 58]) := by
        rw [← List.head?_drop, hprefixes]
        rfl
      have hnext : formatter.fieldPrefixes.drop (i + 1 + 1) =
          names.map fun name => appendJSONEscaped [34] name ++ [34, 58] := by
        rw [← List.drop_drop, hprefixes]
        rfl
      rw [JSONFormatter.appendFields, hthis]
      simp only [ne_eq, Nat.add_eq_zero_iff, Nat.one_ne_zero, and_false, not_false_eq_true, if_true]
      rw [ih hnext (by simpa using hlength), appendJSONValue_eq]
      simp [memberText]

/-- The line of a record. -/
theorem consume_eq {formatter : JSONFormatter} {names : List Bytes} {r : List (FieldId × Value)}
    (hprefixes : formatter.fieldPrefixes =
      names.map fun name => appendJSONEscaped [34] name ++ [34, 58])
    (hlength : names.length = r.length) :
    formatter.consume r = .ok (123 :: membersText (names.zip (r.map Prod.snd))) := by
  cases r with
  | nil =>
      rw [List.length_eq_zero_iff.mp hlength]
      rfl
  | cons field r =>
      obtain ⟨name, names, rfl⟩ := List.exists_cons_of_length_eq_add_one hlength
      obtain ⟨id, v⟩ := field
      have hthis : formatter.fieldPrefixes[0]? =
          some (appendJSONEscaped [34] name ++ [34, 58]) := by
        rw [hprefixes]
        rfl
      have hnext : formatter.fieldPrefixes.drop (0 + 1) =
          names.map fun name => appendJSONEscaped [34] name ++ [34, 58] := by
        rw [hprefixes]
        rfl
      have hlength : names.length = r.length := by simpa using hlength
      rw [JSONFormatter.consume, JSONFormatter.appendFields, hthis]
      simp only [ne_eq, not_true_eq_false, if_false]
      rw [appendFields_succ hnext hlength, appendJSONValue_eq]
      simp [membersText_cons, memberText]

omit [Platform] in
theorem build_eq_ok {name : FieldId → Except Fault Bytes} {schema : Schema}
    {formatter : JSONFormatter} (h : JSONFormatter.build name schema = .ok formatter) :
    ∃ names, List.Forall₂ (fun id n => name id = .ok n) schema.fields names ∧
      formatter.fieldPrefixes = names.map fun name => appendJSONEscaped [34] name ++ [34, 58] := by
  obtain ⟨prefixes, hprefixes, hformatter⟩ := bind_eq_ok.mp h
  have hall := mapM_eq_ok.mp hprefixes
  rw [← Except.ok.inj hformatter]
  clear h hformatter hprefixes
  generalize schema.fields = fields at hall
  induction hall with
  | nil => exact ⟨[], .nil, rfl⟩
  | @cons id fieldStart fields prefixes hfield _ ih =>
      obtain ⟨names, hnames, heq⟩ := ih
      obtain ⟨n, hn, hstart⟩ := bind_eq_ok.mp hfield
      refine ⟨n :: names, .cons hn hnames, ?_⟩
      rw [List.map_cons, ← Except.ok.inj hstart]
      exact congrArg (List.cons _) heq

omit [Platform] in
/-- A record with a value for every field of the schema. -/
theorem bridgeRecord_eq_ok {schema : Schema} {record : Exec.Record} {values : List Value}
    (h : List.Forall₂ (fun p v => record.get p.2 = .ok v) schema.fields.zipIdx values) :
    bridgeRecord schema record = .ok (schema.fields.zip values) := by
  have hfields : schema.fields = schema.fields.zipIdx.map Prod.fst := by simp
  rw [bridgeRecord, mapM_eq_ok]
  conv => rhs; rw [hfields]
  generalize schema.fields.zipIdx = slots at h
  induction h with
  | nil => exact .nil
  | cons hvalue _ ih => exact .cons (bind_eq_ok.mpr ⟨_, hvalue, rfl⟩) ih

omit [Platform] in
theorem forall₂_zip_left {α β γ : Type} {R : β → γ → Prop} {bs : List β} {cs : List γ}
    (h : List.Forall₂ R bs cs) (as : List α) :
    List.Forall₂ (fun p q => q.1 = p.1 ∧ R p.2 q.2) (as.zip bs) (as.zip cs) := by
  induction h generalizing as with
  | nil => simp
  | cons hfirst _ ih =>
      cases as with
      | nil => exact .nil
      | cons a as => exact .cons ⟨rfl, hfirst⟩ (ih as)

/-- **JSON output can be read back**: an escaped text is read as the text, has no quote, backslash or
control character of its own, and the line of a record is read as the object whose members are the
names and the values of the record in order. -/
theorem consume_parses :
    (∀ input rest fuel, input.length < fuel →
        JsonText.stringBody fuel (appendJSONEscaped [] input ++ JsonText.quote :: rest) =
          some (input, rest)) ∧
      (∀ input, Escaped (appendJSONEscaped [] input) ∧ ∀ c ∈ appendJSONEscaped [] input, 32 ≤ c) ∧
      ∀ name schema formatter record values, JSONFormatter.build name schema = .ok formatter →
        List.Forall₂ (fun p v => record.get p.2 = .ok v) schema.fields.zipIdx values →
          (∀ v ∈ values, v.type ≠ .floating) →
            ∃ r line names denoted, bridgeRecord schema record = .ok r ∧
              formatter.consume r = .ok line ∧
              List.Forall₂ (fun id n => name id = .ok n) schema.fields names ∧
              List.Forall₂ Denotes values denoted ∧
              JsonText.parse line = some (.object (names.zip denoted)) := by
  refine ⟨fun input rest fuel hfuel => stringBody_escaped input rest hfuel,
    fun input => ⟨escaped_appendJSONEscaped input, (escaped_appendJSONEscaped input).control⟩, ?_⟩
  intro name schema formatter record values hbuild hvalues hfloat
  obtain ⟨names, hnames, hprefixes⟩ := build_eq_ok hbuild
  obtain ⟨denoted, hdenoted⟩ := exists_forall₂ fun v hv => exists_denotes (hfloat v hv)
  have hlength : schema.fields.length = values.length :=
    List.length_zipIdx.symm.trans hvalues.length_eq
  have hzip : (schema.fields.zip values).map Prod.snd = values := List.map_snd_zip (by omega)
  have hnamesLength : names.length = (schema.fields.zip values).length := by
    rw [List.length_zip, ← hlength, Nat.min_self, hnames.length_eq]
  refine ⟨_, _, names, denoted, bridgeRecord_eq_ok hvalues, consume_eq hprefixes hnamesLength, hnames,
    hdenoted, parse_line ?_⟩
  rw [hzip]
  exact forall₂_zip_left hdenoted names

end Values

/-- Columns `a"b` and the byte 255, with a line break and a negative number. -/
def twoColumns : Schema := ⟨[1, 2], by simp⟩

def columnName (id : FieldId) : Except Fault Bytes :=
  .ok (if id = 1 then [97, 34, 98] else [255])

theorem consume_parses_twoColumns : ∃ formatter r line names denoted,
    JSONFormatter.build columnName twoColumns = .ok formatter ∧
      bridgeRecord twoColumns (.vec [.string [10, 34], .integer (-5)]) = .ok r ∧
      @JSONFormatter.consume Platform.inert formatter r = .ok line ∧
      List.Forall₂ (fun id n => columnName id = .ok n) twoColumns.fields names ∧
      List.Forall₂ Denotes [.string [10, 34], .integer (-5)] denoted ∧
      JsonText.parse line = some (.object (names.zip denoted)) := by
  have hbuild : JSONFormatter.build columnName twoColumns =
      .ok ⟨[[34, 97, 92, 34, 98, 34, 58], [34, 255, 34, 58]]⟩ := rfl
  obtain ⟨r, line, names, denoted, h⟩ := (@consume_parses Platform.inert).2.2 columnName twoColumns _
    (.vec [.string [10, 34], .integer (-5)]) [.string [10, 34], .integer (-5)] hbuild
    (.cons rfl (.cons rfl .nil)) (by simp)
  exact ⟨_, r, line, names, denoted, hbuild, h⟩

end Lsql.Output
