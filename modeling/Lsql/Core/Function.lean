import Lsql.Core.Cast
import Lsql.Core.TimeFormat

/-!
# Lsql.Core.Function

The functions of the language (`core/function`): their descriptions, the executors of the scalar
ones and the aggregators of the others.

The executor templates of the source are instantiated at one of three C++ types, `Operand` here.
Which types a template accepts is a concept (`Comparable`, `Addable`, ...); `dispatch` terminates the
process when the argument type that the binder recorded satisfies none.
-/

namespace Lsql

/-! ### Descriptions -/

/-- `func::Function`. -/
inductive Function
  | lower
  | splitPart (separator : UInt8) (index : Nat)
  | substr (start length : Nat)
  | coalesce
  | rSubstr (regex : Bytes)
  | like (regex : Bytes)
  | cast (castTo : ValueType)
  | jsonValue (path : Bytes)
  | parseTimestamp (format : TimeFormat)
  | booleanNegate
  | equal
  | notEqual
  | less (argType : ValueType)
  | greater (argType : ValueType)
  | lessEqual (argType : ValueType)
  | greaterEqual (argType : ValueType)
  | and
  | or
  | divide (argType : ValueType)
  | add (argType : ValueType)
  | subtract (argType : ValueType)
  | percentile (percentiles : List Float32Bits) (argType : ValueType)
  | countNonNull
  | countAll
  | min (argType : ValueType)
  | max (argType : ValueType)
  | sum (argType : ValueType)
  deriving DecidableEq, Repr

/-- `func::isScalar`. -/
def Function.isScalar : Function → Bool
  | .percentile _ _ | .countNonNull | .countAll | .min _ | .max _ | .sum _ => false
  | _ => true

/-! ### The operand types of the templates -/

/-- The C++ types that the templates are instantiated at. -/
inductive Operand
  | int64
  | float
  | view
  deriving DecidableEq, Repr

namespace Operand

/-- The values of an operand type. -/
abbrev Carrier : Operand → Type
  | int64 => Int64
  | float => Float32Bits
  | view => Bytes

/-- `valueType<T>()`. -/
def valueType : Operand → ValueType
  | int64 => .integer
  | float => .floating
  | view => .string

/-- `Value(x)`. -/
def toValue : (T : Operand) → T.Carrier → Value
  | int64, x => .integer x
  | float, x => .floating x
  | view, x => .string x

@[simp] theorem type_toValue (T : Operand) (x : T.Carrier) : (T.toValue x).type = T.valueType := by
  cases T <;> rfl

/-- `value.get<T>()`. -/
def get : (T : Operand) → Value → Except Fault T.Carrier
  | int64, v => v.getInt
  | float, v => v.getFloat
  | view, v => v.getView

/-- `a <=> b`. -/
def compare : (T : Operand) → T.Carrier → T.Carrier → Option Ordering
  | int64, a, b => some (Ord.compare a.toInt b.toInt)
  | float, a, b => a.compare b
  | view, a, b => some (Ord.compare a b)

/-- `a < b`. -/
def less (T : Operand) (a b : T.Carrier) : Bool := T.compare a b == some .lt

/-- `a <= b`. -/
def lessEqual (T : Operand) (a b : T.Carrier) : Bool :=
  T.compare a b == some .lt || T.compare a b == some .eq

/-- Reading a value of the type that the operand type stands for. -/
theorem get_of_type {T : Operand} {v : Value} (h : v.type = T.valueType) :
    ∃ x, T.get v = .ok x := by
  cases T <;> cases v <;> first | exact ⟨_, rfl⟩ | cases h

/-- Nothing else can be read. -/
theorem type_of_get {T : Operand} {v : Value} {x : T.Carrier} (h : T.get v = .ok x) :
    v.type = T.valueType := by
  cases T <;> cases v <;> first | rfl | cases h

/-! ### Concepts -/

/-- `Comparable`. -/
def comparable : ValueType → Option Operand
  | .integer => some int64
  | .floating => some float
  | .string => some view
  | _ => none

/-- `Addable`. -/
def addable : ValueType → Option Operand
  | .integer => some int64
  | .floating => some float
  | .string => some view
  | _ => none

/-- `Subtractable` and `Dividable`. -/
def subtractable : ValueType → Option Operand
  | .integer => some int64
  | .floating => some float
  | _ => none

theorem valueType_of_comparable {t : ValueType} {T : Operand} (h : comparable t = some T) :
    T.valueType = t := by
  cases t <;> cases h <;> rfl

theorem valueType_of_addable {t : ValueType} {T : Operand} (h : addable t = some T) :
    T.valueType = t := by
  cases t <;> cases h <;> rfl

theorem valueType_of_subtractable {t : ValueType} {T : Operand} (h : subtractable t = some T) :
    T.valueType = t := by
  cases t <;> cases h <;> rfl

end Operand

/-- `dispatch`: the template instance for a value type. -/
def dispatch (concept : ValueType → Option Operand) (t : ValueType) : Except Fault Operand :=
  match concept t with
  | some T => .ok T
  | none => .error (.panic "un-covered dispatch variant")

/-! ### 64-bit arithmetic -/

/-- A result of signed arithmetic; overflow is undefined. -/
def checkedInt64 (x : Int) : Except Fault Int64 :=
  if Int64.minValue.toInt ≤ x ∧ x ≤ Int64.maxValue.toInt then .ok (Int64.ofInt x)
  else .error (.undefined "signed overflow")

namespace Operand

variable [Platform]

/-- `U(a) + U(b)`. -/
def add : (T : Operand) → T.Carrier → T.Carrier → Except Fault T.Carrier
  | int64, a, b => checkedInt64 (a.toInt + b.toInt)
  | float, a, b => .ok (Platform.floatAdd a b)
  | view, a, b => .ok (a ++ b)

/-- `a - b`, for the subtractable types. -/
def sub : (T : Operand) → T.Carrier → T.Carrier → Except Fault T.Carrier
  | int64, a, b => checkedInt64 (a.toInt - b.toInt)
  | float, a, b => .ok (Platform.floatSub a b)
  | view, _, _ => .error (.panic "un-covered dispatch variant")

/-- `a / b`, for the dividable types; the quotient truncates. -/
def div : (T : Operand) → T.Carrier → T.Carrier → Except Fault T.Carrier
  | int64, a, b => checkedInt64 (Int.tdiv a.toInt b.toInt)
  | float, a, b => .ok (Platform.floatDiv a b)
  | view, _, _ => .error (.panic "un-covered dispatch variant")

/-- `x == T(0)`, for the dividable types. -/
def isZero : (T : Operand) → T.Carrier → Bool
  | int64, x => x == 0
  | float, x => x.compare .zero == some .eq
  | view, _ => false

end Operand

/-! ### Scalar executors -/

/-- An executor, by the concept it satisfies. -/
inductive Executor
  | unary (execute : Value → Except Fault Value)
  | binary (execute : Value → Value → Except Fault Value)
  | nary (execute : List Value → Except Fault Value)

/-- `std::tolower` in the C locale. -/
def toLower (b : UInt8) : UInt8 := if 65 ≤ b ∧ b ≤ 90 then b + 32 else b

/-- `LowerExecutor`. -/
def lowerExecutor (value : Value) : Except Fault Value :=
  if value.isNull then .ok .null
  else do
    let view ← value.getView
    pure (.string (view.map toLower))

/-- `curr.find(separator)`. -/
def findByte (separator : UInt8) (curr : Bytes) : Option Nat :=
  curr.findIdx? (· == separator)

/-- The loop of `SplitPartExecutor`: skips `n` parts, and returns the offset and the rest. -/
def skipParts (separator : UInt8) : Nat → Nat → Bytes → Option (Nat × Bytes)
  | 0, offset, curr => some (offset, curr)
  | n + 1, offset, curr =>
    match findByte separator curr with
    | none => none
    | some sep => skipParts separator n (offset + sep + 1) (curr.drop (sep + 1))

/-- `SplitPartExecutor`. -/
def splitPartExecutor (separator : UInt8) (index : Nat) (value : Value) : Except Fault Value :=
  if value.isNull then .ok .null
  else do
    let view ← value.getView
    match skipParts separator index 0 view with
    | none => pure .null
    | some (offset, curr) => value.substr offset (findByte separator curr)

/-- `SubstrExecutor`. -/
def substrExecutor (start length : Nat) (value : Value) : Except Fault Value :=
  value.substr start (some length)

/-- `CoalesceExecutor`. -/
def coalesceExecutor (values : List Value) : Except Fault Value :=
  .ok ((values.find? fun v => !v.isNull).getD .null)

/-- `CastExecutor`. -/
def castExecutor [Platform] (castTo : ValueType) (value : Value) : Except Fault Value := do
  let res ← Lsql.cast value castTo
  pure (res.getD .null)

/-- `RSubstrExecutor`. -/
def rSubstrExecutor [Platform] (regex : Bytes) (value : Value) : Except Fault Value := do
  let view ← value.getView
  match Platform.regexFind regex view with
  | none => pure .null
  | some (first, size) => value.substr first (some size)

/-- `LikeExecutor`. -/
def likeExecutor [Platform] (regex : Bytes) (value : Value) : Except Fault Value := do
  let view ← value.getView
  pure (.boolean (Platform.regexMatches regex view))

/-- `s.find_last_not_of(" \t\r\n")` and the prefix that it ends. -/
def trimRight (s : Bytes) : Bytes :=
  (s.reverse.dropWhile fun b => b == 32 || b == 9 || b == 13 || b == 10).reverse

/-- `JSONValueExecutor`. -/
def jsonValueExecutor [Platform] (path : Bytes) (value : Value) : Except Fault Value :=
  if value.isNull then .ok .null
  else do
    let view ← value.getView
    match Platform.jsonAtPointer path view with
    | none => pure .null
    | some (.string decoded) => pure (.string decoded)
    | some (.number rawToken) => pure (.string (trimRight rawToken))
    | some (.boolean x) => pure (.string (Bytes.ofString (if x then "true" else "false")))
    | some (.composite raw) => pure (.string raw)
    | some .null => pure .null

/-- `ParseTimestampExecutor`. -/
def parseTimestampExecutor [Platform] (format : TimeFormat) (value : Value) :
    Except Fault Value :=
  if value.isNull then .ok .null
  else do
    let view ← value.getView
    let ts ← timestampFromString view format
    pure (.integer ts)

/-- `BooleanNegateExecutor`. -/
def booleanNegateExecutor (value : Value) : Except Fault Value := do
  let x ← value.getBool
  pure (.boolean !x)

/-- `EqualExecutor`. -/
def equalExecutor (a b : Value) : Except Fault Value := .ok (.boolean (a.equal b))

/-- `NotEqualExecutor`. -/
def notEqualExecutor (a b : Value) : Except Fault Value := .ok (.boolean !(a.equal b))

/-- What the four comparison executors share: they read both operands without looking for null. -/
def comparisonExecutor (T : Operand) (holds : T.Carrier → T.Carrier → Bool) (l r : Value) :
    Except Fault Value := do
  let a ← T.get l
  let b ← T.get r
  pure (.boolean (holds a b))

/-- `LessExecutor`. -/
def lessExecutor (T : Operand) : Value → Value → Except Fault Value :=
  comparisonExecutor T fun a b => T.less a b

/-- `GreaterExecutor`. -/
def greaterExecutor (T : Operand) : Value → Value → Except Fault Value :=
  comparisonExecutor T fun a b => T.less b a

/-- `LessEqualExecutor`. -/
def lessEqualExecutor (T : Operand) : Value → Value → Except Fault Value :=
  comparisonExecutor T fun a b => T.lessEqual a b

/-- `GreaterEqualExecutor`. -/
def greaterEqualExecutor (T : Operand) : Value → Value → Except Fault Value :=
  comparisonExecutor T fun a b => T.lessEqual b a

/-- `AndExecutor`: the right operand is read only if the left one is true. -/
def andExecutor (a b : Value) : Except Fault Value := do
  let x ← a.getBool
  if x then
    let y ← b.getBool
    pure (.boolean y)
  else
    pure (.boolean false)

/-- `OrExecutor`: the right operand is read only if the left one is false. -/
def orExecutor (a b : Value) : Except Fault Value := do
  let x ← a.getBool
  if x then
    pure (.boolean true)
  else
    let y ← b.getBool
    pure (.boolean y)

/-- `AddExecutor`. -/
def addExecutor [Platform] (T : Operand) (l r : Value) : Except Fault Value :=
  if l.isNull || r.isNull then .ok .null
  else do
    let a ← T.get l
    let b ← T.get r
    let c ← T.add a b
    pure (T.toValue c)

/-- `SubtractExecutor`. -/
def subtractExecutor [Platform] (T : Operand) (l r : Value) : Except Fault Value :=
  if l.isNull || r.isNull then .ok .null
  else do
    let a ← T.get l
    let b ← T.get r
    let c ← T.sub a b
    pure (T.toValue c)

/-- `DivideExecutor`. -/
def divideExecutor [Platform] (T : Operand) (l r : Value) : Except Fault Value :=
  if l.isNull || r.isNull then .ok .null
  else do
    let divisor ← T.get r
    if T.isZero divisor then
      pure .null
    else
      let a ← T.get l
      let c ← T.div a divisor
      pure (T.toValue c)

/-- The construction of a `reflex::Pattern`, which throws on an invalid expression. -/
def buildPattern [Platform] (regex : Bytes) : Except Fault Unit :=
  require (Platform.regexValid regex) "reflex::regex_error"

/-- `func::buildScalar`. -/
def buildScalar [Platform] : Function → Except Fault Executor
  | .lower => .ok (.unary lowerExecutor)
  | .splitPart separator index => .ok (.unary (splitPartExecutor separator index))
  | .substr start length => .ok (.unary (substrExecutor start length))
  | .coalesce => .ok (.nary coalesceExecutor)
  | .rSubstr regex => do
    buildPattern regex
    pure (.unary (rSubstrExecutor regex))
  | .like regex => do
    buildPattern regex
    pure (.unary (likeExecutor regex))
  | .cast castTo => .ok (.unary (castExecutor castTo))
  | .jsonValue path => .ok (.unary (jsonValueExecutor path))
  | .parseTimestamp format => .ok (.unary (parseTimestampExecutor format))
  | .booleanNegate => .ok (.unary booleanNegateExecutor)
  | .equal => .ok (.binary equalExecutor)
  | .notEqual => .ok (.binary notEqualExecutor)
  | .less argType => do
    let T ← dispatch Operand.comparable argType
    pure (.binary (lessExecutor T))
  | .greater argType => do
    let T ← dispatch Operand.comparable argType
    pure (.binary (greaterExecutor T))
  | .lessEqual argType => do
    let T ← dispatch Operand.comparable argType
    pure (.binary (lessEqualExecutor T))
  | .greaterEqual argType => do
    let T ← dispatch Operand.comparable argType
    pure (.binary (greaterEqualExecutor T))
  | .and => .ok (.binary andExecutor)
  | .or => .ok (.binary orExecutor)
  | .divide argType => do
    let T ← dispatch Operand.subtractable argType
    pure (.binary (divideExecutor T))
  | .add argType => do
    let T ← dispatch Operand.addable argType
    pure (.binary (addExecutor T))
  | .subtract argType => do
    let T ← dispatch Operand.subtractable argType
    pure (.binary (subtractExecutor T))
  | _ => .error (.panic "not a supported scalar")

/-- `func::execute`, which verifies the number of values. -/
def Executor.execute : Executor → List Value → Except Fault Value
  | .unary execute, [v] => execute v
  | .binary execute, [l, r] => execute l r
  | .nary execute, vs => execute vs
  | _, _ => .error (.panic "verify(values.size()) failed ")

/-- A scalar function applied to values. -/
def Function.apply [Platform] (f : Function) (vs : List Value) : Except Fault Value := do
  let executor ← buildScalar f
  executor.execute vs

/-! ### Aggregators -/

/-- The aggregators, with their state. -/
inductive FnAggregator
  | countAll (count : Int64)
  | countNonNull (count : Int64)
  | percentile (T : Operand) (percentiles : List Float32Bits) (values : List T.Carrier)
  | min (T : Operand) (res : Option T.Carrier)
  | max (T : Operand) (res : Option T.Carrier)
  | sum (T : Operand) (sum : T.Carrier)

/-- `U()`, what a sum starts from. -/
def Operand.zero : (T : Operand) → T.Carrier
  | .int64 => 0
  | .float => .zero
  | .view => []

/-- `func::buildAggregate`, applied to `aggregator()`: the state that an aggregate starts in. -/
def buildAggregate : Function → Except Fault FnAggregator
  | .countNonNull => .ok (.countNonNull 0)
  | .countAll => .ok (.countAll 0)
  | .percentile percentiles argType => do
    let T ← dispatch Operand.comparable argType
    pure (.percentile T percentiles [])
  | .min argType => do
    let T ← dispatch Operand.comparable argType
    pure (.min T none)
  | .max argType => do
    let T ← dispatch Operand.comparable argType
    pure (.max T none)
  | .sum argType => do
    let T ← dispatch Operand.addable argType
    pure (.sum T T.zero)
  | _ => .error (.panic "not a supported aggregate")

namespace FnAggregator

/-- A nullary aggregator is fed no argument. -/
def isNullary : FnAggregator → Bool
  | countAll _ => true
  | _ => false

variable [Platform]

/-- `feed`. -/
def feed (a : FnAggregator) (value : Value) : Except Fault FnAggregator :=
  match a with
  | countAll count => do
    let count ← checkedInt64 (count.toInt + 1)
    pure (countAll count)
  | countNonNull count =>
    if value.isNull then .ok (countNonNull count)
    else do
      let count ← checkedInt64 (count.toInt + 1)
      pure (countNonNull count)
  | percentile T percentiles values =>
    if value.isNull then .ok (percentile T percentiles values)
    else do
      let next ← T.get value
      pure (percentile T percentiles (values ++ [next]))
  | min T res =>
    if value.isNull then .ok (min T res)
    else do
      let next ← T.get value
      pure (min T (some (match res with
        | some x => if T.less next x then next else x
        | none => next)))
  | max T res =>
    if value.isNull then .ok (max T res)
    else do
      let next ← T.get value
      pure (max T (some (match res with
        | some x => if T.less x next then next else x
        | none => next)))
  | sum T s =>
    if value.isNull then .ok (sum T s)
    else do
      let next ← T.get value
      let s ← T.add s next
      pure (sum T s)

/-- `1e-6f`. -/
def threshold : Float32Bits := ⟨0x358637bd⟩

/-- The position of a percentile among `size` sorted values. -/
def percentilePosition (size : Nat) (p : Float32Bits) : Except Fault Nat :=
  if p.abs.compare threshold == some .lt then .ok 0
  else if (Platform.floatSub p .one).abs.compare threshold == some .lt then .ok (size - 1)
  else do
    let pos ← (Platform.floatMul (Platform.floatOfInt (Int64.ofNat size)) p).toInt64
    if pos.toInt < 0 then .error (.undefined "iterator before the first element")
    else pure (Nat.min (size - 1) pos.toInt.toNat)

/-- `std::ostream << x`. -/
def stream : (T : Operand) → T.Carrier → Bytes
  | .int64, x => Bytes.ofString (toString x.toInt)
  | .float, x => Platform.floatStream x
  | .view, x => x

/-- Whether `<` orders the values, as `std::nth_element` requires. -/
def sortable : (T : Operand) → List T.Carrier → Bool
  | .float, values => decide (values.length ≤ 1) || values.all fun x => !x.isNaN
  | _, _ => true

/-- The value at a percentile. -/
def percentileValue (T : Operand) (values : List T.Carrier) (p : Float32Bits) :
    Except Fault T.Carrier := do
  let pos ← percentilePosition values.length p
  match (values.mergeSort fun a b => !T.less b a)[pos]? with
  | some x => pure x
  | none => .error (.undefined "iterator past the last element")

/-- `get`. -/
def get (a : FnAggregator) : Except Fault Value :=
  match a with
  | countAll count => .ok (.integer count)
  | countNonNull count => .ok (.integer count)
  | percentile T percentiles values =>
    if values.isEmpty then .ok .null
    else if !sortable T values then .error (.undefined "comparison is not a strict weak order")
    else do
      let result ← percentiles.mapM (percentileValue T values)
      if result.isEmpty then
        pure (.string [])
      else
        pure (.string ([91] ++ List.intercalate [44] (result.map (stream T)) ++ [93]))
  | min T res => .ok (match res with
    | some x => T.toValue x
    | none => .null)
  | max T res => .ok (match res with
    | some x => T.toValue x
    | none => .null)
  | sum T s => .ok (T.toValue s)

end FnAggregator

end Lsql
