import Lsql.Core.Value

/-!
# Lsql.Core.JsonPath

From a JSON path to a JSON pointer (`util/json.h`).
-/

namespace Lsql

/-- `'~'`, `'/'`, `'.'`, `'['`, `']'`, `'$'`, `'0'` and `'1'`. -/
def tilde : UInt8 := 126
def slash : UInt8 := 47
def dot : UInt8 := 46
def leftBracket : UInt8 := 91
def rightBracket : UInt8 := 93
def dollar : UInt8 := 36
def digitZero : UInt8 := 48
def digitOne : UInt8 := 49

/-- Whether every `~` of a pointer is followed by `0` or `1`. -/
def tildesEscaped : Bytes → Bool
  | [] => true
  | c :: rest =>
    (c != tilde || rest.head? == some digitZero || rest.head? == some digitOne) &&
      tildesEscaped rest

/-- `append_segment`. -/
def pointerSegment (segment : Bytes) : Bytes :=
  slash :: segment.flatMap fun c =>
    if c = tilde then [tilde, digitZero] else if c = slash then [tilde, digitOne] else [c]

def isDigit (c : UInt8) : Bool := decide (48 ≤ c ∧ c ≤ 57)

/-- One segment of a path, and what follows it. -/
def pathSegment : Bytes → Option (Bytes × Bytes)
  | [] => none
  | c :: rest =>
    if c = leftBracket then
      let digits := rest.takeWhile isDigit
      match rest.dropWhile isDigit with
      | [] => none
      | close :: rest => if digits.isEmpty || close != rightBracket then none else some (digits, rest)
    else
      let name := (c :: rest).takeWhile fun c => c != dot && c != leftBracket
      if name.isEmpty then none else some (name, (c :: rest).drop name.length)

/-- `while (pos < path.size())`. Every round takes at least one byte. -/
def pathSegments : Nat → Bytes → Option Bytes
  | 0, _ => none
  | fuel + 1, path => do
    let (segment, rest) ← pathSegment path
    match rest with
    | [] => some (pointerSegment segment)
    | c :: rest =>
      if c = dot then
        match rest with
        | [] => none
        | next :: _ =>
          if next = dot || next = leftBracket then none
          else
            let pointer ← pathSegments fuel rest
            some (pointerSegment segment ++ pointer)
      else if c = leftBracket then
        let pointer ← pathSegments fuel (c :: rest)
        some (pointerSegment segment ++ pointer)
      else none

/-- `jsonPathToPointer`. -/
def jsonPathToPointer (path : Bytes) : Option Bytes :=
  match path with
  | [] => some []
  | first :: rest =>
    if first = slash then if tildesEscaped path then some path else none
    else if first = dollar then
      match rest with
      | [] => some []
      | c :: rest' =>
        if c = dot then pathSegments (path.length + 1) rest'
        else if c = leftBracket then pathSegments (path.length + 1) rest
        else none
    else if first = dot then pathSegments (path.length + 1) rest
    else pathSegments (path.length + 1) path

end Lsql
