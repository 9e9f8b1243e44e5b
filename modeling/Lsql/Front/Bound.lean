import Mathlib.Algebra.Ring.Int.Defs
import Mathlib.Algebra.Ring.Nat
import Lsql.Core.Function
import Lsql.Core.JsonPath
import Lsql.Front.Ast
import Lsql.Front.FieldSets
import Lsql.Plan.Operation

/-!
# Lsql.Front.Bound

The syntax of a bound program (`front/sql/bound`, `front/common/bound`), and what the binder makes of
a call or an operator (`front/common/bind/Expressions.h`).
-/

namespace Lsql.Front

/-- `BinaryExprType`. -/
inductive BinaryExprType
  | equal | notEqual | less | greater | lessEqual | greaterEqual | and | or | divide | add | subtract
  deriving DecidableEq, Repr

/-- `UnaryExprType`. -/
inductive UnaryExprType
  | booleanNegate
  deriving DecidableEq, Repr

/-- `ExprKindLevel`. -/
inductive ExprKindLevel
  | const
  | row
  | group
  deriving DecidableEq, Repr

/-- `BoundExprInfo`. -/
structure BoundExprInfo where
  valueType : ValueType
  level : ExprKindLevel
  requiredFields : FieldSet

namespace Bound

mutual

/-- `bound::Expr`, with one constructor for each node. -/
inductive Expr
  | identifier (fieldId : FieldId) (info : BoundExprInfo)
  | value (value : Value) (info : BoundExprInfo)
  /-- `InExpr`. -/
  | inMatch (expr : Expr) (matched : Relation) (matchFieldId : FieldId) (info : BoundExprInfo)
  | fnCall (func : Function) (args : List Expr) (info : BoundExprInfo)
  | like (expr : Expr) (regex : Bytes) (info : BoundExprInfo)
  | binary (type : BinaryExprType) (left right : Expr) (info : BoundExprInfo)
  | unary (type : UnaryExprType) (expr : Expr) (info : BoundExprInfo)

/-- `bound::Projector`. -/
inductive Projector
  | star
  | identifier (fieldId : FieldId)
  | expr (aliasFieldId : FieldId) (expr : Expr)

/-- `bound::Relation`, with one constructor for each node; the last field is `fields_out`. -/
inductive Relation
  | adhoc (values : List Value) (outputFieldId : FieldId) (fieldsOut : RelationFieldSet)
  | select (projectors : List Projector) (source : Relation) (limit : Option Int)
    (whereCond having : Option Expr) (orderList : Option (List Expr)) (orderDesc : Bool)
    (groupList : Option (List Projector)) (aggregate : Bool) (fieldsOut : RelationFieldSet)
  | aliased (aliasName : String) (source : Relation) (fieldsOut : RelationFieldSet)
  | unionAll (left right : Relation) (fieldsOut : RelationFieldSet)
  | leftJoin (left right : Relation) (leftKey rightKey : Expr) (fieldsOut : RelationFieldSet)
  | unionAllSortedBy (left right : Relation) (orderList : List Expr) (desc : Bool)
    (fieldsOut : RelationFieldSet)
  | file (path : String) (range : Option Plan.TimeRange) (timeFormat : Option TimeFormat)
    (fieldsOut : RelationFieldSet)
  | stream (command : String) (fieldsOut : RelationFieldSet)
  | namedRelationReference (name : String) (fieldsOut : RelationFieldSet)
  | materialize (relation : Relation) (fieldsOut : RelationFieldSet)

end

/-- `bound::Statement`. -/
inductive Statement
  | namedRelation (name : String) (relation : Relation)
  | query (relation : Relation)

/-- `value_type`, `level` and `required_fields`. -/
def Expr.info : Expr → BoundExprInfo
  | .identifier _ info | .value _ info | .inMatch _ _ _ info | .fnCall _ _ info | .like _ _ info
  | .binary _ _ _ info | .unary _ _ info => info

def Expr.valueType (e : Expr) : ValueType := e.info.valueType

def Expr.level (e : Expr) : ExprKindLevel := e.info.level

def Expr.requiredFields (e : Expr) : FieldSet := e.info.requiredFields

/-- `fields_out`. -/
def Relation.fieldsOut : Relation → RelationFieldSet
  | .adhoc _ _ f | .select _ _ _ _ _ _ _ _ _ f | .aliased _ _ f | .unionAll _ _ f
  | .leftJoin _ _ _ _ f | .unionAllSortedBy _ _ _ _ f | .file _ _ _ f | .stream _ f
  | .namedRelationReference _ f | .materialize _ f => f

end Bound

open Binder

/-! ### Levels -/

/-- `composable`. -/
def ExprKindLevel.composable (a b : ExprKindLevel) : Bool := a == b || a == .const || b == .const

/-- `composed`, of levels that are composable. -/
def ExprKindLevel.composed (a b : ExprKindLevel) : ExprKindLevel :=
  if a = b then a else if a = .const then b else a

/-- The loop of `composedLevel`. -/
def composedLevelFrom (level : ExprKindLevel) : List Bound.Expr → Binder ExprKindLevel
  | [] => pure level
  | arg :: args => do
    requireAt (level.composable arg.level) "different expression kinds not allowed"
    composedLevelFrom (level.composed arg.level) args

/-- `composedLevel`. -/
def composedLevel (args : List Bound.Expr) : Binder ExprKindLevel := composedLevelFrom .const args

/-! ### The types of the operators -/

/-- `enum_name`. -/
def ValueType.enumName : ValueType → String
  | .null => "Null"
  | .boolean => "Boolean"
  | .integer => "Integer"
  | .floating => "Floating"
  | .string => "String"

def UnaryExprType.enumName : UnaryExprType → String
  | .booleanNegate => "BooleanNegate"

def BinaryExprType.enumName : BinaryExprType → String
  | .equal => "Equal"
  | .notEqual => "NotEqual"
  | .less => "Less"
  | .greater => "Greater"
  | .lessEqual => "LessEqual"
  | .greaterEqual => "GreaterEqual"
  | .and => "And"
  | .or => "Or"
  | .divide => "Divide"
  | .add => "Add"
  | .subtract => "Subtract"

/-- `exprType`. -/
def unaryExprType : Ast.UnaryExprType → UnaryExprType
  | .not => .booleanNegate

def binaryExprType : Ast.BinaryExprType → BinaryExprType
  | .equal => .equal
  | .notEqual => .notEqual
  | .less => .less
  | .greater => .greater
  | .lessEqual => .lessEqual
  | .greaterEqual => .greaterEqual
  | .and => .and
  | .or => .or
  | .divide => .divide
  | .plus => .add
  | .minus => .subtract

/-- `UnaryExprTraits`: the result type, for an operand type that is allowed. -/
def unaryExprTraits : UnaryExprType → ValueType → Option ValueType
  | .booleanNegate, t => if t = .boolean then some .boolean else none

/-- `BinaryExprTraits`. -/
def binaryExprTraits (type : BinaryExprType) (l r : ValueType) : Option ValueType :=
  match type with
  | .equal | .notEqual => if l = .null || r = .null || l = r then some .boolean else none
  | .less | .greater | .lessEqual | .greaterEqual =>
    if l = r && (Operand.comparable l).isSome then some .boolean else none
  | .and | .or => if l = .boolean && r = .boolean then some .boolean else none
  | .divide | .subtract => if l = r && (Operand.subtractable l).isSome then some l else none
  | .add => if l = r && (Operand.addable l).isSome then some l else none

/-- `valueType` of a unary operator. -/
def unaryValueType (arg : ValueType) (type : UnaryExprType) : Binder ValueType :=
  match unaryExprTraits type arg with
  | some t => pure t
  | none => throwAt ("unsupported operand type " ++ ValueType.enumName arg ++
      " for unary operation " ++ type.enumName)

/-- `valueType` of a binary operator. -/
def binaryValueType (l r : ValueType) (type : BinaryExprType) : Binder ValueType :=
  match binaryExprTraits type l r with
  | some t => pure t
  | none => throwAt ("unsupported operand types " ++ ValueType.enumName l ++ ", " ++
      ValueType.enumName r ++ " for binary operation " ++ type.enumName)

/-! ### Operators -/

section Bind

variable [HashOrder]

/-- `requiredFieldsOf` a vector of expressions. -/
def requiredFieldsOf (exprs : List Bound.Expr) : FieldSet :=
  exprs.foldl (fun fields e => fields.merge e.requiredFields) .emptySet

/-- `bindInExpr`. -/
def bindInExpr (arg : Bound.Expr) : Binder BoundExprInfo := do
  requireAt (arg.level != .group) "in key expression cannot be aggregate"
  pure { valueType := .boolean, level := .row, requiredFields := arg.requiredFields }

/-- `bindLikeExpr`. -/
def bindLikeExpr (arg : Bound.Expr) : Binder BoundExprInfo := do
  requireAt (arg.valueType == .string) "like argument should be String"
  pure { valueType := .boolean, level := arg.level, requiredFields := arg.requiredFields }

/-- `bindUnaryExpr`. -/
def bindUnaryExpr (arg : Bound.Expr) (type : Ast.UnaryExprType) :
    Binder (BoundExprInfo × UnaryExprType) := do
  let valueType ← unaryValueType arg.valueType (unaryExprType type)
  pure ({ valueType := valueType, level := arg.level, requiredFields := arg.requiredFields },
    unaryExprType type)

/-- `bindBinaryExpr`. -/
def bindBinaryExpr (l r : Bound.Expr) (type : Ast.BinaryExprType) :
    Binder (BoundExprInfo × BinaryExprType) := do
  let valueType ← binaryValueType l.valueType r.valueType (binaryExprType type)
  requireAt (l.level.composable r.level)
    "binary operations require same expression level on both sides"
  pure ({
    valueType := valueType
    level := l.level.composed r.level
    requiredFields := l.requiredFields.merge r.requiredFields }, binaryExprType type)

/-! ### Calls -/

/-- `getLiteral`. -/
def getLiteral : Bound.Expr → Binder Value
  | .value v _ => pure v
  | _ => throwAt "expected literal argument"

/-- `getLiteral(arg).get<T>()`, for an argument that has been found to have that type. -/
def getLiteralAs {α : Type} (get : Value → Except Fault α) (arg : Bound.Expr) : Binder α := do
  let v ← getLiteral arg
  fromExcept (get v)

/-- What a call is bound to: `BoundExprInfo`, the function and the arguments it is given. -/
abbrev BoundCall := BoundExprInfo × Function × List Bound.Expr

/-- `args[i]`. -/
def argAt (args : List Bound.Expr) (i : Nat) : Binder Bound.Expr := fun s =>
  match args[i]? with
  | some arg => .ok (arg, s)
  | none => .error (.undefined "read past the end of a vector")

def bindLower (args : List Bound.Expr) (level : ExprKindLevel) : Binder BoundCall := do
  requireAt (args.length == 1) "lower expects exactly 1 argument"
  let arg ← argAt args 0
  requireAt (arg.valueType == .string) "lower's argument should be String"
  pure (⟨.string, level, arg.requiredFields⟩, .lower, args)

def bindSplitPart (args : List Bound.Expr) : Binder BoundCall := do
  requireAt (args.length == 3) "splitpart expects exactly 3 arguments"
  let arg ← argAt args 0
  let separatorArg ← argAt args 1
  let indexArg ← argAt args 2
  requireAt (arg.valueType == .string) "splitpart's first argument should be String"
  requireAt (separatorArg.level == .const) "splitpart's separator must be constant"
  requireAt (separatorArg.valueType == .string) "splitpart's separator should be String"
  requireAt (indexArg.level == .const) "splitpart's index must be constant"
  requireAt (indexArg.valueType == .integer) "splitpart's index should be Integer"
  let separator ← getLiteralAs Value.getView separatorArg
  requireAt (separator.length == 1) "splitpart's separator must be one character"
  let index ← getLiteralAs Value.getInt indexArg
  requireAt (decide (0 ≤ index.toInt)) "splitpart's index must not be negative"
  pure (⟨.string, arg.level, arg.requiredFields⟩,
    .splitPart (separator.headD 0) index.toInt.toNat, [arg])

/-- `std::string::npos`, as a length. -/
def npos : Nat := 2 ^ 64 - 1

/-- The type of the third argument of `substr`, if it is there. -/
def checkLengthArg (args : List Bound.Expr) : Binder Unit :=
  if args.length == 3 then do
    let lengthArg ← argAt args 2
    requireAt (lengthArg.valueType == .integer) "3rd arg should be integer"
  else pure ()

/-- The third argument of `substr`. It is a `size_t`, so that the check `length >= 0` never fails. -/
def substrLength (args : List Bound.Expr) : Binder Nat :=
  if args.length == 3 then do
    let lengthArg ← argAt args 2
    let length ← getLiteralAs Value.getInt lengthArg
    pure (length.toInt % 2 ^ 64).toNat
  else pure npos

def bindSubstr (args : List Bound.Expr) (level : ExprKindLevel) : Binder BoundCall := do
  requireAt (decide (2 ≤ args.length) && decide (args.length ≤ 3)) "2-3 arguments required"
  let arg ← argAt args 0
  let startArg ← argAt args 1
  requireAt (arg.valueType == .string) "1st arg should be string"
  requireAt (startArg.valueType == .integer) "2nd arg should be integer"
  checkLengthArg args
  let start ← getLiteralAs Value.getInt startArg
  requireAt (decide (0 ≤ start.toInt)) "negative pos is not allowed"
  let length ← substrLength args
  pure (⟨.string, level, requiredFieldsOf [arg]⟩, .substr start.toInt.toNat length, [arg])

/-- The types of the arguments that are not always null. -/
def nonNullTypes (args : List Bound.Expr) : List ValueType :=
  ((args.map Bound.Expr.valueType).filter fun t => t != .null).dedup

def bindCoalesce (args : List Bound.Expr) (level : ExprKindLevel) : Binder BoundCall := do
  let types := nonNullTypes args
  requireAt (decide (types.length ≤ 1)) "coalesce arguments must have the same type"
  pure (⟨types.headD .null, level, requiredFieldsOf args⟩, .coalesce, args)

/-- The loop over the percentiles. -/
def percentileArgs : List Bound.Expr → Binder (List Float32Bits)
  | [] => pure []
  | arg :: args => do
    requireAt (arg.valueType == .floating)
      "percentile's arguments in positions >=1 must be floating"
    let p ← getLiteralAs Value.getFloat arg
    requireAt (Operand.float.lessEqual .zero p && Operand.float.lessEqual p .one)
      "percentile value must be in [0, 1]"
    let ps ← percentileArgs args
    pure (p :: ps)

def bindPercentile (args : List Bound.Expr) : Binder BoundCall := do
  requireAt (decide (1 < args.length)) "percentile must be given at least one percentile"
  let arg ← argAt args 0
  requireAt (arg.level != .group) "percentile does not accept aggregates"
  requireAt (Operand.comparable arg.valueType).isSome "percentile argument must be comparable"
  let percentiles ← percentileArgs (args.drop 1)
  pure (⟨.string, .group, requiredFieldsOf [arg]⟩, .percentile percentiles arg.valueType, [arg])

def bindRSubstr (args : List Bound.Expr) (level : ExprKindLevel) : Binder BoundCall := do
  requireAt (args.length == 2) "rsubstr expects exactly 2 arguments"
  let arg ← argAt args 0
  let regexArg ← argAt args 1
  requireAt (arg.valueType == .string) "rsubstr's first argument should be String"
  requireAt (regexArg.level == .const) "rsubstr's second argument should be a constant"
  requireAt (regexArg.valueType == .string) "rsubstr's second argument should be String"
  let regex ← getLiteralAs Value.getView regexArg
  pure (⟨.string, level, requiredFieldsOf [arg]⟩, .rSubstr regex, [arg])

def bindJsonValue (args : List Bound.Expr) : Binder BoundCall := do
  requireAt (args.length == 2) "json_value expects exactly 2 arguments"
  let arg ← argAt args 0
  let pathArg ← argAt args 1
  requireAt (arg.valueType == .string) "json_value's first argument should be String"
  requireAt (pathArg.level == .const) "json_value's path must be constant"
  requireAt (pathArg.valueType == .string) "json_value's path should be String"
  let path ← getLiteralAs Value.getView pathArg
  match jsonPathToPointer path with
  | none => throwAt ("invalid JSON path '" ++ path.toText ++ "'")
  | some pointer => pure (⟨.string, arg.level, arg.requiredFields⟩, .jsonValue pointer, [arg])

def bindCountAll (args : List Bound.Expr) : Binder BoundCall := do
  requireAt (args.length == 0) "no arguments expected for count_all"
  pure (⟨.integer, .group, .emptySet⟩, .countAll, [])

def bindCountNonNull (args : List Bound.Expr) : Binder BoundCall := do
  requireAt (args.length == 1) "1 argument expected for count_nonnull"
  let arg ← argAt args 0
  pure (⟨.integer, .group, arg.requiredFields⟩, .countNonNull, args)

/-- The aggregate functions `min`, `max` and `sum`. -/
def bindAggregateFn (name : String) (function : ValueType → Function) (args : List Bound.Expr) :
    Binder BoundCall := do
  requireAt (args.length == 1) "function expects 1 argument"
  let arg ← argAt args 0
  requireAt (arg.level != .group) (name ++ " operation does not accept aggregates")
  pure (⟨arg.valueType, .group, arg.requiredFields⟩, function arg.valueType, args)

/-- `enum_cast<TimeFormat>`. -/
def timeFormatOfName (name : Bytes) : Option TimeFormat :=
  if name = Bytes.ofString "SQL" then some .SQL
  else if name = Bytes.ofString "ORACLE" then some .ORACLE
  else if name = Bytes.ofString "ISO8601" then some .ISO8601
  else none

def bindParseTimestamp (args : List Bound.Expr) : Binder BoundCall := do
  requireAt (args.length == 2) "function expects 2 arguments"
  let arg ← argAt args 0
  let formatArg ← argAt args 1
  requireAt (arg.valueType == .string) "the first argument must be string"
  requireAt (formatArg.level == .const) "the second argument must be constant"
  requireAt (formatArg.valueType == .string) "the argument must be string"
  let name ← getLiteralAs Value.getView formatArg
  match timeFormatOfName name with
  | none => throwAt ("invalid time format '" ++ name.toText ++ "'")
  | some format => pure (⟨.integer, arg.level, requiredFieldsOf [arg]⟩, .parseTimestamp format, [arg])

/-- `cast_fns`. -/
def castFns : List (String × ValueType) :=
  [("null", .null), ("int", .integer), ("float", .floating), ("bool", .boolean),
    ("string", .string)]

def bindCastFn (fnName : String) (args : List Bound.Expr) (level : ExprKindLevel) :
    Binder BoundCall :=
  match castFns.lookup fnName with
  | none => throwAt ("unknown function name '" ++ fnName ++ "'")
  | some castTo => do
    requireAt (args.length == 1) ("'" ++ fnName ++ "' expects 1 argument")
    pure (⟨castTo, level, requiredFieldsOf args⟩, .cast castTo, args)

/-- `isBuiltinFunction`. -/
def isBuiltinFunction (name : String) : Bool :=
  ["lower", "splitpart", "substr", "coalesce", "percentile", "rsubstr", "json_value", "count_all",
    "count_nonnull", "min", "max", "sum", "parse_timestamp", "null", "int", "float", "bool",
    "string"].contains name

/-- `bindFnCallExpr`. -/
def bindFnCallExpr (fnName : String) (args : List Bound.Expr) : Binder BoundCall := do
  let level ← composedLevel args
  if fnName = "lower" then bindLower args level
  else if fnName = "splitpart" then bindSplitPart args
  else if fnName = "substr" then bindSubstr args level
  else if fnName = "coalesce" then bindCoalesce args level
  else if fnName = "percentile" then bindPercentile args
  else if fnName = "rsubstr" then bindRSubstr args level
  else if fnName = "json_value" then bindJsonValue args
  else if fnName = "count_all" then bindCountAll args
  else if fnName = "count_nonnull" then bindCountNonNull args
  else if fnName = "min" then bindAggregateFn "min" .min args
  else if fnName = "max" then bindAggregateFn "max" .max args
  else if fnName = "sum" then bindAggregateFn "sum" .sum args
  else if fnName = "parse_timestamp" then bindParseTimestamp args
  else bindCastFn fnName args level

end Bind

end Lsql.Front
