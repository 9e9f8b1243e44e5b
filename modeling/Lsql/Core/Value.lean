import Mathlib.Data.List.Basic
import Lsql.Core.Fault

/-!
# Lsql.Core.Value

The values that flow through a query (`core/value`).

A `Value` is one of the six alternatives of the source's `std::variant`; a string is held either
as an owned `std::string` or as a `PinnedString`, a view into a page whose bytes go on behind the
view. Strings are byte strings. A `float` is its IEEE 754 single-precision bit pattern: comparison
and equality are computed from the bits, arithmetic and conversions belong to the platform
(`Lsql.Core.Platform`).
-/

namespace Lsql

/-- The bytes of a `std::string` or a `std::string_view`. -/
abbrev Bytes := List UInt8

/-- The bytes of an ASCII text. -/
def Bytes.ofString (s : String) : Bytes := s.toList.map fun c => UInt8.ofNat c.toNat

/-- Bytes as part of a message. -/
def Bytes.toText (s : Bytes) : String := String.ofList (s.map fun b => Char.ofNat b.toNat)

/-- `ValueType`, in the source's order. -/
inductive ValueType
  | null
  | boolean
  | integer
  | floating
  | string
  deriving DecidableEq, Repr

/-! ### Single-precision floats -/

/-- A `float`, as its bit pattern. -/
structure Float32Bits where
  bits : BitVec 32
  deriving DecidableEq, Repr

namespace Float32Bits

/-- Everything but the sign bit. -/
def magnitude (x : Float32Bits) : Nat := x.bits.toNat % 0x80000000

def sign (x : Float32Bits) : Bool := x.bits.msb

/-- All exponent bits set and a non-zero mantissa. -/
def isNaN (x : Float32Bits) : Bool := decide (0x7f800000 < x.magnitude)

/-- The bit pattern as a signed magnitude, which is monotone in the number it encodes; both zeros
are `0`. -/
def rank (x : Float32Bits) : Int := if x.sign then -x.magnitude else x.magnitude

def zero : Float32Bits := ⟨0⟩

def one : Float32Bits := ⟨0x3f800000⟩

/-- `a <=> b` on floats: unordered as soon as one side is NaN. -/
def compare (a b : Float32Bits) : Option Ordering :=
  if a.isNaN || b.isNaN then none else some (Ord.compare a.rank b.rank)

end Float32Bits

/-! ### Values -/

/-- `PinnedString`: a view, and the bytes that follow it in the page that it pins. -/
structure PinnedString where
  view : Bytes
  rest : Bytes
  deriving DecidableEq, Repr

/-- `Value`, with the alternatives of its `StorageVariant` in the source's order. -/
inductive Value
  | null
  | integer (x : Int64)
  | floating (x : Float32Bits)
  | boolean (x : Bool)
  | string (s : Bytes)
  | pinned (s : PinnedString)
  deriving DecidableEq, Repr

namespace Value

/-- `Value::type`. -/
def type : Value → ValueType
  | null => .null
  | integer _ => .integer
  | floating _ => .floating
  | boolean _ => .boolean
  | string _ => .string
  | pinned _ => .string

@[simp] theorem type_null : Value.null.type = .null := rfl
@[simp] theorem type_integer (x : Int64) : (Value.integer x).type = .integer := rfl
@[simp] theorem type_floating (x : Float32Bits) : (Value.floating x).type = .floating := rfl
@[simp] theorem type_boolean (x : Bool) : (Value.boolean x).type = .boolean := rfl
@[simp] theorem type_string (s : Bytes) : (Value.string s).type = .string := rfl
@[simp] theorem type_pinned (s : PinnedString) : (Value.pinned s).type = .string := rfl

/-- `val_.index()`. -/
def index : Value → Nat
  | null => 0
  | integer _ => 1
  | floating _ => 2
  | boolean _ => 3
  | string _ => 4
  | pinned _ => 5

/-- `Value::operator<=>`; `none` is `std::partial_ordering::unordered`. -/
def compare : Value → Value → Option Ordering
  | null, null => some .eq
  | integer a, integer b => some (Ord.compare a.toInt b.toInt)
  | floating a, floating b => a.compare b
  | boolean a, boolean b => some (Ord.compare a b)
  | string a, string b => some (Ord.compare a b)
  | pinned a, pinned b => some (Ord.compare a.view b.view)
  | pinned a, string b => some (Ord.compare a.view b)
  | string a, pinned b => some (Ord.compare a b.view)
  | a, b => some (Ord.compare a.index b.index)

/-- `Value::operator==`. -/
def equal : Value → Value → Bool
  | null, null => true
  | integer a, integer b => a == b
  | floating a, floating b => a.compare b == some .eq
  | boolean a, boolean b => a == b
  | string a, string b => a == b
  | pinned a, pinned b => a.view == b.view
  | pinned a, string b => a.view == b
  | string a, pinned b => a == b.view
  | _, _ => false

/-- `value == vnull`. -/
def isNull : Value → Bool
  | null => true
  | _ => false

@[simp] theorem isNull_null : Value.null.isNull = true := rfl

theorem isNull_iff {v : Value} : v.isNull = true ↔ v = .null := by
  cases v <;> simp [isNull]

theorem equal_null_right (v : Value) : v.equal .null = v.isNull := by
  cases v <;> rfl

/-! ### Reading one alternative -/

/-- `Value::get<bool>`: `std::get` throws when another alternative is held. -/
def getBool : Value → Except Fault Bool
  | boolean x => .ok x
  | _ => .error (.exception "std::get: wrong index for variant")

/-- `Value::get<int64_t>`. -/
def getInt : Value → Except Fault Int64
  | integer x => .ok x
  | _ => .error (.exception "std::get: wrong index for variant")

/-- `Value::get<float>`. -/
def getFloat : Value → Except Fault Float32Bits
  | floating x => .ok x
  | _ => .error (.exception "std::get: wrong index for variant")

/-- `Value::get<std::string_view>`: terminates the process when no string is held. -/
def getView : Value → Except Fault Bytes
  | string s => .ok s
  | pinned s => .ok s.view
  | _ => .error (.panic "does not hold string")

/-- `Value::substr`: `std::string::substr` and `std::string_view::substr` throw when the offset
lies past the end. -/
def substr (v : Value) (pos : Nat) (len : Option Nat) : Except Fault Value :=
  let cut (s : Bytes) : Bytes := match len with
    | some n => (s.drop pos).take n
    | none => s.drop pos
  match v with
  | string s =>
    if pos ≤ s.length then .ok (string (cut s)) else .error (.exception "std::out_of_range")
  | pinned s =>
    if pos ≤ s.view.length then
      .ok (pinned { view := cut s.view, rest := s.view.drop (pos + (cut s.view).length) ++ s.rest })
    else
      .error (.exception "std::out_of_range")
  | _ => .error (.panic "")

end Value

/-! ### Vectors of values -/

/-- `<=>` on `std::vector<Value>`: lexicographic, stopping at the first pair that is not equal. -/
def compareKeys : List Value → List Value → Option Ordering
  | [], [] => some .eq
  | [], _ :: _ => some .lt
  | _ :: _, [] => some .gt
  | a :: as, b :: bs =>
    match a.compare b with
    | some .eq => compareKeys as bs
    | r => r

/-- `a < b` on `std::vector<Value>`. -/
def keyLess (a b : List Value) : Bool := compareKeys a b == some .lt

end Lsql
