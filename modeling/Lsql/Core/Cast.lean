import Lsql.Core.Platform

/-!
# Lsql.Core.Cast

`cast` between value types (`core/value/cast.cpp`) and the strict number parsers that it uses
(`util/string_cast.h`).
-/

namespace Lsql

/-- The number that a non-empty run of decimal digits denotes. -/
def parseDigits : Bytes → Option Nat
  | [] => none
  | ds => ds.foldl (fun acc b => do
      let n ← acc
      if 48 ≤ b ∧ b ≤ 57 then some (n * 10 + (b.toNat - 48)) else none) (some 0)

/-- `util::parseInt64Strict`: `std::from_chars` over the whole text. -/
def parseInt64Strict (s : Bytes) : Option Int64 := do
  let value : Int ← match s with
    | 45 :: ds => (parseDigits ds).map fun n => -(n : Int)
    | ds => (parseDigits ds).map fun n => (n : Int)
  if Int64.minValue.toInt ≤ value ∧ value ≤ Int64.maxValue.toInt then
    some (Int64.ofInt value)
  else
    none

/-- `util::parseFloatStrict`: `strtof` starts at the view's first byte and is not told where the
view ends; `rest` is what lies behind it. -/
def parseFloatStrict [Platform] (s rest : Bytes) : Option Float32Bits :=
  let (value, consumed, erange) := Platform.strtof (s ++ rest)
  if consumed ≠ s.length then none
  else if erange then none
  else if !value.isFinite then none
  else some value

/-- The byte that ends a `std::string`. -/
def nul : Bytes := [0]

/-- The conversions of a string, with the bytes behind it. -/
def castString [Platform] (val : Value) (s rest : Bytes) : ValueType → Option Value
  | .string => some val
  | .integer => (parseInt64Strict s).map Value.integer
  | .boolean => some (.boolean (!s.isEmpty))
  | .floating => (parseFloatStrict s rest).map Value.floating
  | .null => some .null

/-- `cast`. -/
def cast [Platform] (val : Value) (castTo : ValueType) : Except Fault (Option Value) :=
  match val with
  | .null => .ok (some .null)
  | .string s => .ok (castString val s nul castTo)
  | .pinned s => .ok (castString val s.view s.rest castTo)
  | .integer x => match castTo with
    | .string => .ok (some (.string (Bytes.ofString (toString x.toInt))))
    | .integer => .ok (some val)
    | .boolean => .ok (some (.boolean (x != 0)))
    | .floating => .ok (some (.floating (Platform.floatOfInt x)))
    | .null => .ok (some .null)
  | .floating x => match castTo with
    | .string => .ok (some (.string (Platform.floatToString x)))
    | .integer => do
      let i ← x.toInt64
      pure (some (.integer i))
    | .boolean => .ok (some (.boolean (x.compare .zero != some .eq)))
    | .floating => .ok (some val)
    | .null => .ok (some .null)
  | .boolean x => match castTo with
    | .string => .ok (some (.string (Bytes.ofString (if x then "true" else "false"))))
    | .integer => .ok (some (.integer (if x then 1 else 0)))
    | .boolean => .ok (some val)
    | .floating => .ok (some (.floating (if x then .one else .zero)))
    | .null => .ok (some .null)

end Lsql
