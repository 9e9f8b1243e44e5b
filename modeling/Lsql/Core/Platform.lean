import Lsql.Core.Value

/-!
# Lsql.Core.Platform

What the program takes from code outside its repository: the regular-expression matcher, the JSON
reader, the C library's float and calendar functions and the float unit.

The functions are the fields of a class, so every definition that rests on them carries the
platform as an inferred parameter. Nothing is assumed about them here; a result that needs a
property of one states it as a hypothesis.
-/

namespace Lsql

/-- `struct tm`, with the fields that the program sets. -/
structure BrokenDownTime where
  year : Int
  mon : Int
  mday : Int
  hour : Int
  min : Int
  sec : Int
  deriving DecidableEq, Repr

/-- What `at_pointer` selects in a JSON document, by `json_type`. -/
inductive JsonSelection
  | string (decoded : Bytes)
  | number (rawToken : Bytes)
  | boolean (x : Bool)
  /-- An array or an object, with its raw text. -/
  | composite (raw : Bytes)
  | null
  deriving DecidableEq, Repr

/-- The value of one field of a JSON object: a decoded string, or the position of the raw text in
the line. -/
inductive JsonFieldValue
  | string (decoded : Bytes)
  | raw (offset size : Nat)
  deriving DecidableEq, Repr

/-- The functions of the libraries, the C runtime and the processor. -/
class Platform where
  /-- `reflex::Pattern(regex)` does not throw. -/
  regexValid : Bytes → Bool
  /-- `reflex::Matcher(&pattern, input).matches() != 0`. -/
  regexMatches : Bytes → Bytes → Bool
  /-- `matcher.find()`, as `first()` and `size()` of the match. -/
  regexFind : Bytes → Bytes → Option (Nat × Nat)
  /-- `parser.iterate(json).at_pointer(path)`, with the path first. -/
  jsonAtPointer : Bytes → Bytes → Option JsonSelection
  /-- Reading a line as one JSON object: the fields read, in order, and whether the object was read
  to its end with nothing behind it. -/
  jsonObject : Bytes → List (Bytes × JsonFieldValue) × Bool
  /-- `std::strtof` on the bytes from an address on: the value, the number of bytes read, and
  whether `errno` is `ERANGE`. -/
  strtof : Bytes → Float32Bits × Nat × Bool
  /-- `std::to_string(float)`. -/
  floatToString : Float32Bits → Bytes
  /-- `std::ostream << float`. -/
  floatStream : Float32Bits → Bytes
  floatOfInt : Int64 → Float32Bits
  floatAdd : Float32Bits → Float32Bits → Float32Bits
  floatSub : Float32Bits → Float32Bits → Float32Bits
  floatMul : Float32Bits → Float32Bits → Float32Bits
  floatDiv : Float32Bits → Float32Bits → Float32Bits
  mktime : BrokenDownTime → Int64
  /-- `std::string().capacity()`. -/
  smallStringCapacity : Nat

/-- A platform for computations that do not consult it. -/
@[reducible] def Platform.inert : Platform where
  regexValid _ := true
  regexMatches _ _ := false
  regexFind _ _ := none
  jsonAtPointer _ _ := none
  jsonObject _ := ([], false)
  strtof _ := (.zero, 0, false)
  floatToString _ := []
  floatStream _ := []
  floatOfInt _ := .zero
  floatAdd _ _ := .zero
  floatSub _ _ := .zero
  floatMul _ _ := .zero
  floatDiv _ _ := .zero
  mktime _ := 0
  smallStringCapacity := 15

/-! ### Conversions that the bit pattern decides -/

namespace Float32Bits

/-- `std::isfinite`. -/
def isFinite (x : Float32Bits) : Bool := decide (x.magnitude < 0x7f800000)

/-- `abs`. -/
def abs (x : Float32Bits) : Float32Bits := ⟨BitVec.ofNat 32 x.magnitude⟩

/-- The number rounded towards zero. -/
def truncate (x : Float32Bits) : Int :=
  let exponent := x.magnitude / 0x800000
  let significand := x.magnitude % 0x800000 + 0x800000
  let size : Nat :=
    if exponent = 0 then 0
    else if 150 ≤ exponent then significand <<< (exponent - 150)
    else significand >>> (150 - exponent)
  if x.sign then -size else size

/-- `int64_t(x)`: undefined unless the truncated number is representable. -/
def toInt64 (x : Float32Bits) : Except Fault Int64 :=
  if x.isFinite && decide (Int64.minValue.toInt ≤ x.truncate) &&
      decide (x.truncate ≤ Int64.maxValue.toInt) then
    .ok (Int64.ofInt x.truncate)
  else
    .error (.undefined "float to integer conversion out of range")

end Float32Bits

end Lsql
