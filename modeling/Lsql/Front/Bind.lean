import Lsql.Core.Numeral
import Lsql.Core.TimeFormat
import Lsql.Front.Macros
import Lsql.Storage.LineSource

/-!
# Lsql.Front.Bind

Binding a program (`front/sql/bind`).

The names of an expression are resolved in a chain of field sets, which the innermost relation around
it determines; a subquery does not see the fields of the query around it. What a relation provides is
known when it has been bound, except for the fields that are required of a file or a stream later on.
-/

namespace Lsql.Front

open Binder
open Ast (Literal FileTimeRange)

/-! ### Literals -/

/-- `removeQuotes`. -/
def removeQuotes (s : Bytes) : Except Fault Bytes := do
  require (decide (2 ≤ s.length)) "string literal is too small"
  require (s.head? == some 39 && s.getLast? == some 39) "invalid string literal"
  pure (s.drop 1).dropLast

/-- The value of a sequence of digits. -/
def digitsValue (digits : Bytes) : Nat :=
  digits.foldl (fun n c => n * 10 + (c.toNat - 48)) 0

/-- `std::stoll`. -/
def stoll (s : Bytes) : Except Fault Int64 := do
  let s := s.dropWhile isSpace
  let negative := s.head? == some 45
  let s := if negative || s.head? == some 43 then s.drop 1 else s
  let digits := s.takeWhile isDigit
  require (!digits.isEmpty) "stoll"
  let n : Int := if negative then -(digitsValue digits : Int) else digitsValue digits
  require (decide (Int64.minValue.toInt ≤ n) && decide (n ≤ Int64.maxValue.toInt)) "stoll"
  pure (Int64.ofInt n)

/-- `parseLiteral`. -/
def parseLiteral [Platform] (literal : Literal) : Except Fault (Option Value) :=
  match literal.type with
  | .null => pure (some .null)
  | .string => do
    let s ← removeQuotes literal.valueStr
    pure (some (.string s))
  | .integer => do
    let x ← stoll literal.valueStr
    pure (some (.integer x))
  | .floating => pure (some (.floating (Platform.strtof literal.valueStr).1))
  | .boolean =>
    if literal.valueStr = Bytes.ofString "true" then pure (some (.boolean true))
    else if literal.valueStr = Bytes.ofString "false" then pure (some (.boolean false))
    else pure none

/-- A literal, or the error that it is none. -/
def bindLiteral [Platform] (literal : Literal) : Binder Value := do
  let value ← fromExcept (parseLiteral literal)
  match value with
  | none => throwAt ("invalid literal '" ++ literal.valueStr.toText ++ "'")
  | some value => pure value

/-- The loop over the literals of an `AdhocRelation`, with the type of the first. -/
def bindLiterals [Platform] : Option ValueType → List Literal → Binder (List Value)
  | _, [] => pure []
  | type, literal :: literals => do
    let value ← bindLiteral literal
    let type := type.getD value.type
    requireAt (value.type == type) "Ad hoc relation should contain entries of the same type"
    let values ← bindLiterals (some type) literals
    pure (value :: values)

/-! ### Files -/

/-- The time range of a `FileRelation`. -/
def bindRange [Platform] (path : String) : Option FileTimeRange → Binder (Option Plan.TimeRange)
  | none => pure none
  | some range => do
    requireAt (!Storage.isProbablyArchive (Bytes.ofString path))
      "time intervals cannot be applied to archives"
    let tsFrom ← fromExcept (timestampFromString range.tsFrom .ISO8601)
    match range.intervalS with
    | none => pure (some { tsFrom := tsFrom, tsTo := Int64.maxValue })
    | some interval => do
      let tsTo ← fromExcept (checkedInt64 (tsFrom.toInt + interval))
      pure (some { tsFrom := tsFrom, tsTo := tsTo })

/-- The time format of a `FileRelation`. -/
def bindTimeFormat : Option String → Binder (Option TimeFormat)
  | none => pure none
  | some name =>
    match timeFormatOfName (Bytes.ofString name) with
    | none => throwAt ("invalid time format '" ++ name ++ "'")
    | some format => pure (some format)

/-! ### Projectors -/

namespace Bound

/-- `outputFieldsOf` a projector. -/
def Projector.outputField : Projector → Option FieldId
  | .star => none
  | .identifier id => some id
  | .expr id _ => some id

/-- The fields of a list of projectors, in their order. -/
def outputFields (projectors : List Projector) : List FieldId :=
  projectors.filterMap Projector.outputField

/-- `outputFieldsOf`. -/
def outputFieldsOf (projectors : List Projector) : FieldSet :=
  FieldSet.emptySet.addAll (outputFields projectors)

def Projector.isStar : Projector → Bool
  | .star => true
  | _ => false

/-- A projector that holds an aggregate. -/
def Projector.isGroup : Projector → Bool
  | .expr _ e => e.level == .group
  | _ => false

end Bound

open Bound (outputFieldsOf)

/-- `to_string(id, binding)`. -/
def describeField (id : FieldId) : Binder String := do
  let name ← nameOf id
  let type ← typeOf id
  pure (name ++ "(" ++ toString id ++ "," ++ ValueType.enumName type ++ ")")

/-- The fields of an expression are among those of a `GROUP BY`. -/
def requireGrouped (allowed : FieldSet) : List FieldId → Binder Unit
  | [] => pure ()
  | id :: ids =>
    if allowed.contains id then requireGrouped allowed ids
    else do
      let field ← describeField id
      throwAt ("GROUP BY: unknown identifier " ++ field)

section Bind

variable [HashOrder]

/-- The keys of a `GROUP BY`. -/
def checkGroupKeys : List Bound.Projector → Binder Unit
  | [] => pure ()
  | p :: ps => do
    requireAt (!p.isStar) "star projectors are not allowed in GROUP BY"
    checkGroupKeys ps

/-- A projector of a `SELECT` with a `GROUP BY`. -/
def checkGroupedProjector (keys : FieldSet) : Bound.Projector → Binder Unit
  | .star => pure ()
  | .identifier id => requireGrouped keys [id]
  | .expr _ e => if e.level != .row then pure () else requireGrouped keys e.requiredFields.fieldIds

def checkGroupedProjectors (keys : FieldSet) : List Bound.Projector → Binder Unit
  | [] => pure ()
  | p :: ps => do
    checkGroupedProjector keys p
    checkGroupedProjectors keys ps

/-- A projector of a `SELECT` that holds an aggregate. -/
def checkAggregateProjector : Bound.Projector → Binder Unit
  | .star => throwAt "star projectors are not allowed in aggregates"
  | .identifier _ => throwAt "identifier projectors are not allowed in aggregates"
  | .expr _ e => requireAt (e.level != .row) "row projectors are not allowed in aggregates"

def checkAggregateProjectors : List Bound.Projector → Binder Unit
  | [] => pure ()
  | p :: ps => do
    checkAggregateProjector p
    checkAggregateProjectors ps

/-- The condition of a `WHERE`. -/
def checkWhere : Option Bound.Expr → Binder Unit
  | none => pure ()
  | some cond => do
    requireAt (cond.valueType == .boolean) "WHERE condition must be boolean"
    requireAt (cond.level != .group) "WHERE condition cannot be aggregate"

/-- The condition of a `HAVING`. -/
def checkHaving (allowed : FieldSet) : Option Bound.Expr → Binder Unit
  | none => pure ()
  | some cond => do
    requireAt (cond.valueType == .boolean) "HAVING condition must be boolean"
    if cond.level == .row then requireGrouped allowed cond.requiredFields.fieldIds else pure ()

def checkLimit : Option Int → Binder Unit
  | none => pure ()
  | some limit => requireAt (decide (0 ≤ limit)) "limit cannot be negative"

/-- The expressions of an `ORDER BY`. -/
def checkOrderBy : List Bound.Expr → Binder Unit
  | [] => pure ()
  | e :: es => do
    requireAt (e.level != .group) "ORDER BY cannot use aggregate expression here"
    checkOrderBy es

/-- What depends on whether a `SELECT` groups. -/
structure SelectParts where
  projectors : List Bound.Projector
  having : Option Bound.Expr
  aggregate : Bool
  orderByVisible : FieldSetChain
  fieldsOut : RelationFieldSet

/-- A `SELECT` without a `GROUP BY`, with its projectors. -/
def simpleSelect (source : RelationFieldSet) (projectors : List Bound.Projector) (having : Bool) :
    Binder SelectParts := do
  requireAt (!projectors.isEmpty) "SELECT requires at least one projector"
  requireAt (!having) "HAVING requires GROUP BY"
  let own := outputFieldsOf projectors
  if projectors.any Bound.Projector.isGroup then do
    checkAggregateProjectors projectors
    pure ⟨projectors, none, true, [.fixed own], .fixed own⟩
  else
    pure ⟨projectors, none, false, [.fixed own, source],
      if projectors.any Bound.Projector.isStar then .combined own [source] else .fixed own⟩

variable [Platform]

mutual

/-- `bindExpr`, where names are looked up in `chain`. -/
def bindExpr (chain : FieldSetChain) : Ast.Expr String → Binder Bound.Expr
  | .identifier identifier => do
    let maybeType ← typeOfSourceField identifier chain
    match maybeType with
    | none => throwAt ("unknown identifier '" ++ identifier ++ "'")
    | some type => do
      let id ← getOrAdd identifier type
      pure (.identifier id ⟨type, .row, .withField id⟩)
  | .literal literal => do
    let value ← bindLiteral literal
    pure (.value value ⟨value.type, .const, .emptySet⟩)
  | .inMatch expr matched => do
    let expr ← bindExpr chain expr
    let matched ← bindRelation matched
    let info ← bindInExpr expr
    pure (.inMatch expr matched unknownFieldId info)
  | .like expr regex => do
    let arg ← bindExpr chain expr
    let info ← bindLikeExpr arg
    pure (.like arg regex info)
  | .fnCall func args => do
    let args ← bindExprs chain args
    let (info, func, dynamic) ← bindFnCallExpr func args
    pure (.fnCall func dynamic info)
  | .binary type left right => do
    let left ← bindExpr chain left
    let right ← bindExpr chain right
    let (info, type) ← bindBinaryExpr left right type
    pure (.binary type left right info)
  | .unary type expr => do
    let arg ← bindExpr chain expr
    let (info, type) ← bindUnaryExpr arg type
    pure (.unary type arg info)

/-- `bindExprs`. -/
def bindExprs (chain : FieldSetChain) : List (Ast.Expr String) → Binder (List Bound.Expr)
  | [] => pure []
  | e :: es => do
    let e ← bindExpr chain e
    let es ← bindExprs chain es
    pure (e :: es)

def bindExprOption (chain : FieldSetChain) : Option (Ast.Expr String) → Binder (Option Bound.Expr)
  | none => pure none
  | some e => do
    let e ← bindExpr chain e
    pure (some e)

def bindExprsOption (chain : FieldSetChain) :
    Option (List (Ast.Expr String)) → Binder (Option (List Bound.Expr))
  | none => pure none
  | some es => do
    let es ← bindExprs chain es
    pure (some es)

/-- `bindProjector`. -/
def bindProjector (chain : FieldSetChain) : Ast.Projector String → Binder Bound.Projector
  | .star => pure .star
  | .identifier identifier => do
    let maybeType ← typeOfSourceField identifier chain
    match maybeType with
    | none => throwAt ("unknown identifier '" ++ identifier ++ "'")
    | some type => do
      let id ← getOrAdd identifier type
      pure (.identifier id)
  | .expr aliasName expr => do
    let expr ← bindExpr chain expr
    let id ← getOrAdd aliasName expr.valueType
    pure (.expr id expr)

/-- `bindProjectors`. -/
def bindProjectors (chain : FieldSetChain) :
    List (Ast.Projector String) → Binder (List Bound.Projector)
  | [] => pure []
  | p :: ps => do
    let p ← bindProjector chain p
    let ps ← bindProjectors chain ps
    pure (p :: ps)

def bindProjectorsOption (chain : FieldSetChain) :
    Option (List (Ast.Projector String)) → Binder (Option (List Bound.Projector))
  | none => pure none
  | some ps => do
    let ps ← bindProjectors chain ps
    pure (some ps)

/-- `bindRelation`. -/
def bindRelation : Ast.Relation String → Binder Bound.Relation
  | .adhoc literals => do
    let values ← bindLiterals none literals
    let id ← getOrAdd "anon" ((values.head?.map Value.type).getD .null)
    pure (.adhoc values id (.fixed (.withField id)))
  | .select projectors source limit whereCond having orderList orderDesc groupList => do
    let source ← bindRelation source
    let whereCond ← bindExprOption [source.fieldsOut] whereCond
    checkWhere whereCond
    checkLimit limit
    let groupList ← bindProjectorsOption [source.fieldsOut] groupList
    let parts ← match groupList with
      | none => do
        let projectors ← bindProjectors [source.fieldsOut] projectors
        simpleSelect source.fieldsOut projectors having.isSome
      | some groupKey => do
        checkGroupKeys groupKey
        let keys := outputFieldsOf groupKey
        let projectors ← bindProjectors [.fixed keys, source.fieldsOut] projectors
        requireAt (!projectors.isEmpty) "SELECT requires at least one projector"
        checkGroupedProjectors keys projectors
        let visible := (outputFieldsOf projectors).merge keys
        let having ← bindExprOption [.fixed visible, source.fieldsOut] having
        checkHaving visible having
        pure ⟨projectors, having, true, [.fixed visible], .fixed (outputFieldsOf projectors)⟩
    let orderList ← bindExprsOption parts.orderByVisible orderList
    checkOrderBy (orderList.getD [])
    pure (.select parts.projectors source limit whereCond parts.having orderList orderDesc groupList
      parts.aggregate parts.fieldsOut)
  | .aliased aliasName source => do
    let source ← bindRelation source
    pure (.aliased aliasName source (.aliased (aliasName ++ ".") source.fieldsOut))
  | .leftJoin left right condition => do
    let left ← bindRelation left
    let right ← bindRelation right
    let fields := RelationFieldSet.combined .emptySet [left.fieldsOut, right.fieldsOut]
    match condition with
    | .binary .equal first second => do
      let first ← bindExpr [fields] first
      let second ← bindExpr [fields] second
      requireAt (first.level != .group && second.level != .group)
        "LEFT JOIN keys cannot be aggregate expressions"
      let _ ← bindBinaryExpr first second .equal
      pure (.leftJoin left right first second fields)
    | _ => throwAt "LEFT JOIN ON requires a single equality"
  | .unionAll left right => do
    let left ← bindRelation left
    let right ← bindRelation right
    pure (.unionAll left right (.combined .emptySet [left.fieldsOut, right.fieldsOut]))
  | .unionAllSortedBy left right orderList desc => do
    let left ← bindRelation left
    let right ← bindRelation right
    let fields := RelationFieldSet.combined .emptySet [left.fieldsOut, right.fieldsOut]
    let orderList ← bindExprs [fields] orderList
    requireAt (!orderList.isEmpty) "order list cannot be empty"
    pure (.unionAllSortedBy left right orderList desc fields)
  | .file path range timeFormat => do
    let range ← bindRange path range
    let timeFormat ← bindTimeFormat timeFormat
    let fields ← newOpen
    pure (.file path range timeFormat fields)
  | .stream command => do
    let fields ← newOpen
    pure (.stream command fields)
  | .namedRelationReference name => do
    let s ← get
    match s.named.lookup name with
    | none => throwAt ("unknown named relation '" ++ name ++ "'")
    | some fields => pure (.namedRelationReference name fields)
  | .materialize relation => do
    let arg ← bindRelation relation
    pure (.materialize arg arg.fieldsOut)

end

/-- `bindStatement`. -/
def bindStatement : Ast.Statement String → Binder Bound.Statement
  | .macroDefinition _ _ _ => throwAt "macro definition must be expanded before binding"
  | .query relation => do
    let relation ← bindRelation relation
    pure (.query relation)
  | .namedRelation name relation => do
    let relation ← bindRelation relation
    let s ← get
    requireAt (s.named.lookup name).isNone ("duplicate named relation '" ++ name ++ "'")
    set { s with named := s.named ++ [(name, relation.fieldsOut)] }
    pure (.namedRelation name relation)

/-- The loop over the statements. -/
def bindStatements : Ast.Program String → Binder (List Bound.Statement)
  | [] => pure []
  | statement :: program => do
    let statement ← bindStatement statement
    let statements ← bindStatements program
    pure (statement :: statements)

/-! ### After the binding -/

/-- `visit(bound::InExpr)`, behind the visit of its parts. -/
def postRunIn (expr : Bound.Expr) (matched : Bound.Relation) : Binder FieldId := do
  let matchFields ← matched.fieldsOut.fields
  requireAt (matchFields.size == 1)
    ("in match should contain one column, got " ++ toString matchFields.size)
  let matchField := matchFields.fieldIds.headD unknownFieldId
  let type ← typeOf matchField
  requireAt (expr.valueType == type) "in key type mismatch"
  pure matchField

/-- The search for a field of both inputs of a `LEFT JOIN`. -/
def requireDisjoint (rightFields : FieldSet) : List FieldId → Binder Unit
  | [] => pure ()
  | id :: ids => do
    let name ← nameOf id
    requireAt (!rightFields.contains id) ("LEFT JOIN inputs have overlapping field '" ++ name ++
      "'; use aliases or explicit projections")
    requireDisjoint rightFields ids

/-- `fits`. -/
def keyFits (key : Bound.Expr) (fields : FieldSet) : Bool :=
  key.requiredFields.fieldIds.all fun id => fields.contains id

/-- `visit(bound::LeftJoinRelation)`, behind the visit of its parts: the keys of the left and of the
right input. -/
def postRunJoin (left right : Bound.Relation) (leftKey rightKey : Bound.Expr) :
    Binder (Bound.Expr × Bound.Expr) := do
  let leftFields ← left.fieldsOut.fields
  let rightFields ← right.fieldsOut.fields
  requireDisjoint rightFields leftFields.fieldIds
  let forward := keyFits leftKey leftFields && keyFits rightKey rightFields
  let reverse := keyFits rightKey leftFields && keyFits leftKey rightFields
  requireAt (forward || reverse) "LEFT JOIN keys must each reference only their own input"
  pure (if forward then (leftKey, rightKey) else (rightKey, leftKey))

mutual

/-- `PostrunWalker::visit(expr)`. -/
def postRunExpr : Bound.Expr → Binder Bound.Expr
  | .identifier id info => pure (.identifier id info)
  | .value v info => pure (.value v info)
  | .inMatch expr matched _ info => do
    let expr ← postRunExpr expr
    let matched ← postRunRelation matched
    let matchField ← postRunIn expr matched
    pure (.inMatch expr matched matchField info)
  | .fnCall func args info => do
    let args ← postRunExprs args
    pure (.fnCall func args info)
  | .like expr regex info => do
    let expr ← postRunExpr expr
    pure (.like expr regex info)
  | .binary type left right info => do
    let left ← postRunExpr left
    let right ← postRunExpr right
    pure (.binary type left right info)
  | .unary type expr info => do
    let expr ← postRunExpr expr
    pure (.unary type expr info)

def postRunExprs : List Bound.Expr → Binder (List Bound.Expr)
  | [] => pure []
  | e :: es => do
    let e ← postRunExpr e
    let es ← postRunExprs es
    pure (e :: es)

def postRunExprOption : Option Bound.Expr → Binder (Option Bound.Expr)
  | none => pure none
  | some e => do
    let e ← postRunExpr e
    pure (some e)

def postRunExprsOption : Option (List Bound.Expr) → Binder (Option (List Bound.Expr))
  | none => pure none
  | some es => do
    let es ← postRunExprs es
    pure (some es)

/-- `PostrunWalker::visit(projector)`. -/
def postRunProjector : Bound.Projector → Binder Bound.Projector
  | .star => pure .star
  | .identifier id => pure (.identifier id)
  | .expr id e => do
    let e ← postRunExpr e
    pure (.expr id e)

def postRunProjectors : List Bound.Projector → Binder (List Bound.Projector)
  | [] => pure []
  | p :: ps => do
    let p ← postRunProjector p
    let ps ← postRunProjectors ps
    pure (p :: ps)

def postRunProjectorsOption : Option (List Bound.Projector) → Binder (Option (List Bound.Projector))
  | none => pure none
  | some ps => do
    let ps ← postRunProjectors ps
    pure (some ps)

/-- `PostrunWalker::visit(relation)`. -/
def postRunRelation : Bound.Relation → Binder Bound.Relation
  | .adhoc values id f => pure (.adhoc values id f)
  | .select projectors source limit whereCond having orderList orderDesc groupList aggregate f => do
    let projectors ← postRunProjectors projectors
    let source ← postRunRelation source
    let whereCond ← postRunExprOption whereCond
    let having ← postRunExprOption having
    let orderList ← postRunExprsOption orderList
    let groupList ← postRunProjectorsOption groupList
    pure (.select projectors source limit whereCond having orderList orderDesc groupList aggregate f)
  | .aliased aliasName source f => do
    let source ← postRunRelation source
    pure (.aliased aliasName source f)
  | .unionAll left right f => do
    let left ← postRunRelation left
    let right ← postRunRelation right
    pure (.unionAll left right f)
  | .leftJoin left right leftKey rightKey f => do
    let left ← postRunRelation left
    let right ← postRunRelation right
    let leftKey ← postRunExpr leftKey
    let rightKey ← postRunExpr rightKey
    let (leftKey, rightKey) ← postRunJoin left right leftKey rightKey
    pure (.leftJoin left right leftKey rightKey f)
  | .unionAllSortedBy left right orderList desc f => do
    let left ← postRunRelation left
    let right ← postRunRelation right
    let orderList ← postRunExprs orderList
    pure (.unionAllSortedBy left right orderList desc f)
  | .file path range timeFormat f => pure (.file path range timeFormat f)
  | .stream command f => pure (.stream command f)
  | .namedRelationReference name f => pure (.namedRelationReference name f)
  | .materialize relation f => do
    let relation ← postRunRelation relation
    pure (.materialize relation f)

end

/-- `postRun`. -/
def postRun : List Bound.Statement → Binder (List Bound.Statement)
  | [] => pure []
  | .namedRelation name relation :: statements => do
    let relation ← postRunRelation relation
    let statements ← postRun statements
    pure (.namedRelation name relation :: statements)
  | .query relation :: statements => do
    let relation ← postRunRelation relation
    let statements ← postRun statements
    pure (.query relation :: statements)

/-- Binding the statements of a program without macros. -/
def bindExpanded (program : Ast.Program String) : Binder (List Bound.Statement) := do
  let statements ← bindStatements program
  postRun statements

/-- A context without fields and relations. -/
def BindState.empty : BindState := ⟨.empty, [], []⟩

/-- `bind`. -/
def bind (program : Ast.Program String) : Except Fault (List Bound.Statement × BindState) := do
  let program ← expandMacros program
  bindExpanded program .empty

end Bind

end Lsql.Front
