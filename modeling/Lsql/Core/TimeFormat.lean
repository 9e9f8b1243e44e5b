import Lsql.Core.Platform

/-!
# Lsql.Core.TimeFormat

The time formats (`core/time_formats`): reading a timestamp from a string.

The conversions index the string at fixed offsets. `std::string_view::operator[]` checks nothing,
so a string that is too short is read past its end.
-/

namespace Lsql

/-- `TimeFormat`. -/
inductive TimeFormat
  | SQL
  | ORACLE
  | ISO8601
  deriving DecidableEq, Repr

/-- `timeFormatRegex`. -/
def timeFormatRegex : TimeFormat → Bytes
  | .SQL =>
    Bytes.ofString "\\d\x7b4\x7d-\\d\x7b2\x7d-\\d\x7b2\x7d \\d\x7b2\x7d:\\d\x7b2\x7d:\\d\x7b2\x7d"
  | .ORACLE =>
    Bytes.ofString "\\d\x7b4\x7d-\\w\x7b3\x7d-\\d\x7b2\x7d \\d\x7b2\x7d:\\d\x7b2\x7d:\\d\x7b2\x7d"
  | .ISO8601 =>
    Bytes.ofString "\\d\x7b4\x7d-\\d\x7b2\x7d-\\d\x7b2\x7dT\\d\x7b2\x7d:\\d\x7b2\x7d:\\d\x7b2\x7d"

/-- `s[i]`. -/
def byteAt (s : Bytes) (i : Nat) : Except Fault UInt8 :=
  match s[i]? with
  | some b => .ok b
  | none => .error (.undefined "read past the end of a string view")

/-- `s[i] - '0'`. -/
def digitAt (s : Bytes) (i : Nat) : Except Fault Int := do
  let b ← byteAt s i
  pure ((b.toNat : Int) - 48)

/-- `(s[i] - '0') * 10 + (s[i + 1] - '0')`. -/
def twoDigitsAt (s : Bytes) (i : Nat) : Except Fault Int := do
  let a ← digitAt s i
  let b ← digitAt s (i + 1)
  pure (a * 10 + b)

/-- The four digits of the year, less 1900. -/
def yearOf (s : Bytes) : Except Fault Int := do
  let a ← digitAt s 0
  let b ← digitAt s 1
  let c ← digitAt s 2
  let d ← digitAt s 3
  pure (a * 1000 + b * 100 + c * 10 + d - 1900)

/-- `month_map` of the ORACLE format. -/
def monthMap : List (Bytes × Int) :=
  [("Jan", 1), ("Feb", 2), ("Mar", 3), ("Apr", 4), ("May", 5), ("Jun", 6), ("Jul", 7), ("Aug", 8),
    ("Sep", 9), ("Oct", 10), ("Nov", 11), ("Dec", 12)].map fun (name, i) =>
      (Bytes.ofString name, i)

/-- `timestampFromString<TimeFormat::SQL>` and `timestampFromString<TimeFormat::ISO8601>`, which
read the same offsets. -/
def timestampFromNumericString [Platform] (s : Bytes) : Except Fault Int64 := do
  let year ← yearOf s
  let mon ← twoDigitsAt s 5
  let mday ← twoDigitsAt s 8
  let hour ← twoDigitsAt s 11
  let min ← twoDigitsAt s 14
  let sec ← twoDigitsAt s 17
  pure (Platform.mktime { year, mon := mon - 1, mday, hour, min, sec })

/-- `timestampFromString<TimeFormat::ORACLE>`. A month that the map lacks is left at `-1`. -/
def timestampFromOracleString [Platform] (s : Bytes) : Except Fault Int64 := do
  let year ← yearOf s
  let a ← byteAt s 5
  let b ← byteAt s 6
  let c ← byteAt s 7
  let mon : Int := match monthMap.find? fun m => m.1 == [a, b, c] with
    | some m => m.2 - 1
    | none => -1
  let mday ← twoDigitsAt s 9
  let hour ← twoDigitsAt s 12
  let min ← twoDigitsAt s 15
  let sec ← twoDigitsAt s 18
  pure (Platform.mktime { year, mon, mday, hour, min, sec })

/-- `timestampFromString`. -/
def timestampFromString [Platform] (s : Bytes) : TimeFormat → Except Fault Int64
  | .SQL => timestampFromNumericString s
  | .ORACLE => timestampFromOracleString s
  | .ISO8601 => timestampFromNumericString s

/-- The number of bytes that a conversion reads. -/
def TimeFormat.minSize : TimeFormat → Nat
  | .SQL => 19
  | .ORACLE => 20
  | .ISO8601 => 19

end Lsql
