import Lsql.Front.Bind
import Lsql.Front.LowerWhere

/-!
# Lsql.Front.Lower

From a bound program to relations (`front/sql/lower`).

A relation is lowered with its own current relation, which the parts of a `SELECT` are put on one
after another. An `IN` inside an expression puts a mark join on the current relation, whichever that
is when the expression is lowered.
-/

namespace Lsql.Front.Lower

/-- `lower::Context`, with the fields of the open field sets that the bound relations share. -/
structure LowerState where
  binding : FieldBinding
  openFields : List FieldSet
  namedRelations : List (String × Schema)
  currRelation : Option Ir.Relation
  currFieldSet : Option FieldSet

/-- A computation with the `Context`. -/
abbrev Lowerer (α : Type) := StateT LowerState (Except Fault) α

/-! ### The context -/

section Context

variable {α : Type}

/-- `currRelation`. -/
def currRelation : Lowerer Ir.Relation := fun s =>
  match s.currRelation with
  | some r => .ok (r, s)
  | none => .error (.panic "verify(curr_relation_slot_.has_value()) failed ")

/-- `pullRelation`. -/
def pullRelation : Lowerer Ir.Relation := do
  let r ← currRelation
  modify fun s => { s with currRelation := none }
  pure r

/-- `setRelation`. -/
def setRelation (r : Ir.Relation) : Lowerer Unit := fun s => do
  verify s.currRelation.isNone "verify(!curr_relation_slot_.has_value()) failed "
  pure ((), { s with currRelation := some r })

/-- What is done while a `ScopedRelation` lives. -/
def scopedRelation (curr : Ir.Relation) (x : Lowerer α) : Lowerer α := fun s => do
  let (a, s') ← x { s with currRelation := some curr }
  pure (a, { s' with currRelation := s.currRelation })

/-- `currFieldSet`. -/
def currFieldSet : Lowerer FieldSet := fun s =>
  match s.currFieldSet with
  | some fields => .ok (fields, s)
  | none => .error (.panic "verify(curr_field_set_slot_) failed ")

/-- What is done while a `ScopedFieldSet` lives. -/
def scopedFieldSet (curr : FieldSet) (x : Lowerer α) : Lowerer α := fun s => do
  let (a, s') ← x { s with currFieldSet := some curr }
  pure (a, { s' with currFieldSet := s.currFieldSet })

/-- `binding()->type(id)`. -/
def typeOf (id : FieldId) : Lowerer ValueType := fun s => do
  let type ← s.binding.type id
  pure (type, s)

/-- `binding()->name(id)`. -/
def nameOf (id : FieldId) : Lowerer String := fun s => do
  let name ← s.binding.name id
  pure (name, s)

/-- `binding()->getOrAdd(name, type)`. -/
def getOrAdd (name : String) (type : ValueType) : Lowerer FieldId := fun s =>
  .ok ((s.binding.getOrAdd name type).1, { s with binding := (s.binding.getOrAdd name type).2 })

/-- `binding()->addAnonymous(prefix, type)`. -/
def addAnonymous (pre : String) (type : ValueType) : Lowerer FieldId := fun s => do
  let (id, binding) ← s.binding.addAnonymous pre type
  pure (id, { s with binding })

/-- `insert`. -/
def insert (name : String) (schema : Schema) : Lowerer Unit := fun s => do
  require (s.namedRelations.lookup name).isNone ("duplicate named relation '" ++ name)
  pure ((), { s with namedRelations := s.namedRelations ++ [(name, schema)] })

/-- `find`. -/
def find (name : String) : Lowerer Schema := fun s =>
  match s.namedRelations.lookup name with
  | some schema => .ok (schema, s)
  | none => .error (.exception ("unknown named relation '" ++ name ++ "'"))

/-- `fields_out->fields()`. -/
def fieldsOf [HashOrder] (fieldsOut : RelationFieldSet) : Lowerer FieldSet := fun s => do
  let (fields, bound) ← fieldsOut.fields ⟨s.binding, s.openFields, []⟩
  pure (fields, { s with binding := bound.binding })

/-- What is done for a part of a `SELECT` that may be missing. -/
def whenPresent (part : Option α) (f : α → Lowerer Unit) : Lowerer Unit :=
  match part with
  | some part => f part
  | none => pure ()

end Context

/-! ### Expressions -/

/-- `bound::Expr`, with one constructor for each node. The relation of an `IN` is there as its
lowering. -/
inductive Expr
  | identifier (fieldId : FieldId) (valueType : ValueType)
  | value (value : Value) (valueType : ValueType)
  | fnCall (func : Function) (args : List Expr) (valueType : ValueType)
  /-- `InExpr`. -/
  | inMatch (expr : Expr) (matched : Lowerer Ir.Relation) (matchFieldId : FieldId)
  | like (expr : Expr) (regex : Bytes) (valueType : ValueType)
  | binary (type : BinaryExprType) (left right : Expr) (valueType : ValueType)
  | unary (type : UnaryExprType) (expr : Expr) (valueType : ValueType)

mutual

/-- `lowerToIR` of an expression. -/
def lowerExpr : Expr → Lowerer LowerExprResult
  | .identifier id t => do
    let fields ← currFieldSet
    verify (fields.contains id)
      "verify(ctx.currFieldSet().contains(e.field_id)) failed unknown identifier: "
    pure (.field id t, [])
  | .value v t => pure (.value v t, [])
  | .fnCall f args t => do
    let (scalars, aggregates) ← lowerExprs args
    verify aggregates.isEmpty "verify(aggregates.empty()) failed "
    if f.isScalar then pure (.fnCall f scalars t, aggregates)
    else do
      let id ← addAnonymous "fn_call_aggr" t
      pure (.field id t, aggregates ++ [⟨.fnCall f scalars, id, t⟩])
  | .inMatch e matched f => do
    let outputId ← addAnonymous "mark_join" .boolean
    let (expr, aggregates) ← lowerExpr e
    verify aggregates.isEmpty "verify(aggregates.empty()) failed "
    let matched ← matched
    let source ← pullRelation
    let schema ← source.schema.append outputId
    setRelation (.markJoin source matched expr outputId f schema)
    pure (.field outputId .boolean, [])
  | .like e regex t => do
    let (arg, aggregates) ← lowerExpr e
    pure (.fnCall (.like regex) [arg] t, aggregates)
  | .binary type left right t => do
    let (left, al) ← lowerExpr left
    let (right, ar) ← lowerExpr right
    pure (.fnCall (binaryFunction type left.valueType) [left, right] t, al ++ ar)
  | .unary type e t => do
    let (arg, aggregates) ← lowerExpr e
    pure (.fnCall (unaryFunction type) [arg] t, aggregates)

/-- `lowerToIR` of a list of expressions. -/
def lowerExprs : List Expr → Lowerer (List Ir.Scalar × List Ir.Aggregate)
  | [] => pure ([], [])
  | e :: es => do
    let (expr, aggregates) ← lowerExpr e
    let (exprs, aggrs) ← lowerExprs es
    pure (expr :: exprs, aggregates ++ aggrs)

end

/-- Expressions where an aggregate is an error. -/
def lowerRowExpr (e : Expr) : Lowerer Ir.Scalar := do
  let (expr, aggregates) ← lowerExpr e
  verify aggregates.isEmpty "verify(aggregates.empty()) failed "
  pure expr

def lowerRowExprs (es : List Expr) : Lowerer (List Ir.Scalar) := do
  let (exprs, aggregates) ← lowerExprs es
  verify aggregates.isEmpty "verify(aggregates.empty()) failed "
  pure exprs

section Lowering

variable [HashOrder]

/-- What `extractAggregates` leaves of an expression: the expression, its required fields, and the
aggregates that were in it. -/
structure Extracted (ε : Type) where
  expr : ε
  requiredFields : FieldSet
  aggregates : List Ir.Aggregate

mutual

/-- `extractAggregates`. The fields of a node are merged anew from those of its parts. -/
def extractAggregates : Expr → Lowerer (Extracted Expr)
  | .identifier id t => pure ⟨.identifier id t, .withField id, []⟩
  | .value v t => pure ⟨.value v t, .emptySet, []⟩
  | .fnCall f args t =>
    if !f.isScalar then do
      let (scalar, aggregates) ← lowerExpr (.fnCall f args t)
      match scalar with
      | .field id u => pure ⟨.identifier id u, .withField id, aggregates⟩
      | _ => throw (.exception "std::get: wrong index for variant")
    else do
      let args ← extractAll .emptySet args
      pure ⟨.fnCall f args.expr t, args.requiredFields, args.aggregates⟩
  | .inMatch e matched f => do
    let e ← extractAggregates e
    pure ⟨.inMatch e.expr matched f, .merge .emptySet e.requiredFields, e.aggregates⟩
  | .like e regex t => do
    let e ← extractAggregates e
    pure ⟨.like e.expr regex t, .merge .emptySet e.requiredFields, e.aggregates⟩
  | .binary type left right t => do
    let left ← extractAggregates left
    let right ← extractAggregates right
    pure ⟨.binary type left.expr right.expr t,
      (FieldSet.emptySet.merge left.requiredFields).merge right.requiredFields,
      left.aggregates ++ right.aggregates⟩
  | .unary type e t => do
    let e ← extractAggregates e
    pure ⟨.unary type e.expr t, .merge .emptySet e.requiredFields, e.aggregates⟩

/-- `extract_child` on the arguments of a call. -/
def extractAll (fields : FieldSet) : List Expr → Lowerer (Extracted (List Expr))
  | [] => pure ⟨[], fields, []⟩
  | e :: es => do
    let e ← extractAggregates e
    let es ← extractAll (fields.merge e.requiredFields) es
    pure ⟨e.expr :: es.expr, es.requiredFields, e.aggregates ++ es.aggregates⟩

end

/-! ### Projectors -/

/-- `bound::Projector`. -/
inductive Projector
  | star
  | identifier (fieldId : FieldId)
  | expr (aliasFieldId : FieldId) (expr : Expr)

/-- `ir::schemaFor`. -/
def schemaFor (ids : List FieldId) : Except Fault Schema := Schema.empty.appendAll ids

/-- A projector that hands a field on. -/
def fieldProjector (id : FieldId) : Lowerer Ir.Projector := do
  let type ← typeOf id
  pure ⟨id, .field id type⟩

def fieldProjectors : List FieldId → Lowerer (List Ir.Projector)
  | [] => pure []
  | id :: ids => do
    let p ← fieldProjector id
    let ps ← fieldProjectors ids
    pure (p :: ps)

/-- `lowerToIR` of a projector. -/
def lowerProjector (starFields : FieldSet) :
    Projector → Lowerer (List Ir.Projector × List Ir.Aggregate)
  | .star => do
    let ps ← fieldProjectors starFields.fieldIds
    pure (ps, [])
  | .identifier id => do
    let p ← fieldProjector id
    pure ([p], [])
  | .expr aliasId e => do
    let (expr, aggregates) ← lowerExpr e
    pure ([⟨aliasId, expr⟩], aggregates)

/-- `lowerToIR` of projectors. -/
def lowerProjectors (starFields : FieldSet) :
    List Projector → Lowerer (List Ir.Projector × List Ir.Aggregate)
  | [] => pure ([], [])
  | p :: ps => do
    let (exprs, aggrs) ← lowerProjector starFields p
    let (exprs', aggrs') ← lowerProjectors starFields ps
    pure (exprs ++ exprs', aggrs ++ aggrs')

/-- `identityProjectorsFor`. -/
def identityProjectorsFor (ps : List Ir.Projector) : Lowerer (List Ir.Projector) :=
  fieldProjectors (ps.map Ir.Projector.aliasFieldId)

/-- `addAllAsFieldScalars`. -/
def addAllAsFieldScalars (fields : FieldSet) (ps : List Ir.Projector) :
    Lowerer (List Ir.Projector) := do
  let set ← schemaFor (ps.map Ir.Projector.aliasFieldId)
  let more ← fieldProjectors (fields.fieldIds.filter fun id => !set.contains id)
  pure (ps ++ more)

/-- `setProjection`. -/
def setProjection (projectors : List Ir.Projector) : Lowerer Unit := do
  let schema ← schemaFor (projectors.map Ir.Projector.aliasFieldId)
  let source ← pullRelation
  setRelation (.projection source projectors schema)

/-! ### The parts of a `SELECT` -/

/-- `lowerWhere`. -/
def lowerWhere (condition : Expr) : Lowerer Unit := do
  let curr ← currRelation
  let schema := curr.schema
  scopedFieldSet schema.fieldSet (match condition with
    | .inMatch e matched f => do
      let matched ← matched
      verify (matched.schema.contains f) "verify(match.schema.contains(in->match_field_id)) failed "
      let key ← lowerRowExpr e
      let source ← pullRelation
      setRelation (.semiJoin source matched key f schema)
    | condition => do
      let condition ← lowerRowExpr condition
      let source ← pullRelation
      setRelation (.filter source condition schema))

/-- `bound::OrderBy`, with the fields that its expressions require. -/
structure OrderBy where
  orderList : List Expr
  requiredFields : List FieldSet
  desc : Bool

/-- `bound::SelectRelation` without its source. -/
structure Select where
  projectors : List Projector
  limit : Option Int
  whereCond : Option Expr
  having : Option Expr
  orderBy : Option OrderBy
  groupBy : Option (List Projector)
  aggregate : Bool

/-- `prepareGroupKeys`. -/
def prepareGroupKeys (groupList : List Projector) : Lowerer (List Ir.Projector) := do
  let curr ← currRelation
  let fields := curr.schema.fieldSet
  scopedFieldSet fields do
    let (keys, aggregates) ← lowerProjectors fields groupList
    verify aggregates.isEmpty "verify(aggregates.empty()) failed "
    let groupKeys ← identityProjectorsFor keys
    let curr ← currRelation
    let keys ← addAllAsFieldScalars curr.schema.fieldSet keys
    setProjection keys
    pure groupKeys

/-- The `ORDER BY` of `lowerSelectOutput`. -/
def lowerOrderBy (orderBy : OrderBy) : Lowerer Unit := do
  let curr ← currRelation
  scopedFieldSet curr.schema.fieldSet do
    let orderList ← lowerRowExprs orderBy.orderList
    let curr ← currRelation
    let schema := curr.schema
    let source ← pullRelation
    setRelation (.sort source orderList orderBy.desc schema)

/-- `lowerSelectOutput`. The condition of a `HAVING` comes without its aggregates. -/
def lowerSelectOutput (projectors : List Ir.Projector) (having : Option (Extracted Expr))
    (orderBy : Option OrderBy) : Lowerer Unit := do
  let finalProjectors ← identityProjectorsFor projectors
  let required := (having.map Extracted.requiredFields).toList ++
    (orderBy.map OrderBy.requiredFields).getD []
  let projectors ← addAllAsFieldScalars (required.foldl FieldSet.merge .emptySet) projectors
  setProjection projectors
  whenPresent having fun having => lowerWhere having.expr
  whenPresent orderBy lowerOrderBy
  if having.isSome || orderBy.isSome then setProjection finalProjectors else pure ()

/-- The aggregates of a `HAVING`. -/
def extractHaving : Option Expr → Lowerer (Option (Extracted Expr))
  | none => pure none
  | some condition => do
    let having ← extractAggregates condition
    pure (some having)

/-- `lowerGroupedSelect`. -/
def lowerGroupedSelect (select : Select) (groupBy : List Projector) : Lowerer Unit := do
  let groupKeys ← prepareGroupKeys groupBy
  let groupSchema ← schemaFor (groupKeys.map Ir.Projector.aliasFieldId)
  let curr ← currRelation
  scopedFieldSet curr.schema.fieldSet do
    let (projectors, aggregates) ← lowerProjectors groupSchema.fieldSet select.projectors
    let having ← extractHaving select.having
    let aggregates := aggregates ++ (having.map Extracted.aggregates).getD []
    let own ← schemaFor (aggregates.map Ir.Aggregate.outputFieldId)
    let schema ← own.concat groupSchema
    let source ← pullRelation
    setRelation (.group source aggregates groupKeys schema)
    lowerSelectOutput projectors having select.orderBy

/-- The aggregates of a `SELECT` without a `GROUP BY`. -/
def lowerAggregates (select : Select) (aggregates : List Ir.Aggregate) : Lowerer Unit :=
  if select.aggregate then do
    verify select.orderBy.isNone "verify(!select.order_by) failed "
    verify (!aggregates.isEmpty) "verify(!aggregates.empty()) failed "
    let schema ← schemaFor (aggregates.map Ir.Aggregate.outputFieldId)
    let source ← pullRelation
    setRelation (.aggregate source aggregates schema)
  else verify aggregates.isEmpty "verify(aggregates.empty()) failed "

/-- `lowerUngroupedSelect`. -/
def lowerUngroupedSelect (select : Select) (sourceFields : FieldSet) : Lowerer Unit := do
  let curr ← currRelation
  scopedFieldSet curr.schema.fieldSet do
    let (projectors, aggregates) ← lowerProjectors sourceFields select.projectors
    lowerAggregates select aggregates
    lowerSelectOutput projectors none select.orderBy

/-- What a `SELECT` selects, with or without a `GROUP BY`. -/
def lowerSelected (select : Select) (sourceFields : FieldSet) : Lowerer Unit :=
  match select.groupBy with
  | some groupBy => lowerGroupedSelect select groupBy
  | none => lowerUngroupedSelect select sourceFields

/-- The `LIMIT` of a `SELECT`. -/
def lowerLimit (limit : Int) : Lowerer Unit := do
  let curr ← currRelation
  let schema := curr.schema
  let source ← pullRelation
  setRelation (.limit source limit schema)

/-- `lowerToIR` of a `SelectRelation`, with its source lowered. -/
def lowerSelect (source : Ir.Relation) (select : Select) : Lowerer Ir.Relation :=
  scopedRelation source do
    let curr ← currRelation
    let sourceFields := curr.schema.fieldSet
    whenPresent select.whereCond lowerWhere
    lowerSelected select sourceFields
    whenPresent select.limit lowerLimit
    pullRelation

/-! ### Other relations -/

/-- The projectors of an `AliasRelation`. -/
def aliasProjectors (aliasName : String) : List FieldId → Lowerer (List Ir.Projector)
  | [] => pure []
  | id :: ids => do
    let name ← nameOf id
    let type ← typeOf id
    let aliasId ← getOrAdd (aliasName ++ "." ++ name) type
    let ps ← aliasProjectors aliasName ids
    pure (⟨aliasId, .field id type⟩ :: ps)

/-- `lowerToIR` of an `AliasRelation`, with its source lowered. -/
def lowerAlias (aliasName : String) (source : Ir.Relation) : Lowerer Ir.Relation := do
  let projectors ← aliasProjectors aliasName source.schema.fields
  let schema ← schemaFor (projectors.map Ir.Projector.aliasFieldId)
  pure (.projection source projectors schema)

/-- `lower_input` of a `LeftJoinRelation`, with the input lowered: the input with what its key has put
on it, the key, and the schema that the input had before. -/
def lowerInput (source : Ir.Relation) (key : Expr) : Lowerer (Ir.Relation × Ir.Scalar × Schema) :=
  scopedRelation source do
    let curr ← currRelation
    let outputSchema := curr.schema
    scopedFieldSet outputSchema.fieldSet do
      let key ← lowerRowExpr key
      let input ← pullRelation
      pure (input, key, outputSchema)

/-- The join of two inputs. -/
def joinInputs (left right : Ir.Relation × Ir.Scalar × Schema) : Lowerer Ir.Relation := do
  let schema ← left.1.schema.concat right.1.schema
  let outputSchema ← left.2.2.concat right.2.2
  let joined := Ir.Relation.leftJoin left.1 right.1 left.2.1 right.2.1 schema
  if schema = outputSchema then pure joined
  else do
    let projectors ← fieldProjectors outputSchema.fields
    pure (.projection joined projectors outputSchema)

/-- `lowerToIR` of a `UnionAllRelation`, with its inputs lowered. -/
def lowerUnionAll (left right : Ir.Relation) : Lowerer Ir.Relation := do
  verify (left.schema = right.schema) "verify(left.schema == right.schema) failed "
  pure (.unionAll [left, right] left.schema)

/-- `lowerToIR` of a `UnionAllSortedByRelation`, with its inputs lowered. -/
def lowerUnionAllSortedBy (left right : Ir.Relation) (orderList : List Expr) (desc : Bool) :
    Lowerer Ir.Relation := do
  verify (left.schema = right.schema) "verify(left.schema == right.schema) failed "
  scopedFieldSet left.schema.fieldSet do
    let orderList ← lowerRowExprs orderList
    pure (.unionAllSortedBy left right orderList desc left.schema)

/-! ### Relations -/

mutual

/-- `lowerToIR` of a relation. -/
def lowerRelation : Bound.Relation → Lowerer Ir.Relation
  | .adhoc values id _ => do
    let schema ← Schema.empty.append id
    pure (.values values id schema)
  | .select projectors source limit whereCond having orderList orderDesc groupList aggregate _ => do
    let source ← lowerRelation source
    lowerSelect source {
      projectors := projectorsOf projectors
      limit
      whereCond := exprOptionOf whereCond
      having := exprOptionOf having
      orderBy := orderByOf orderDesc orderList
      groupBy := projectorsOptionOf groupList
      aggregate }
  | .aliased aliasName source _ => do
    let source ← lowerRelation source
    lowerAlias aliasName source
  | .leftJoin left right leftKey rightKey _ => do
    let left ← lowerRelation left
    let left ← lowerInput left (exprOf leftKey)
    let right ← lowerRelation right
    let right ← lowerInput right (exprOf rightKey)
    joinInputs left right
  | .unionAll left right _ => do
    let left ← lowerRelation left
    let right ← lowerRelation right
    lowerUnionAll left right
  | .unionAllSortedBy left right orderList desc _ => do
    let left ← lowerRelation left
    let right ← lowerRelation right
    lowerUnionAllSortedBy left right (exprsOf orderList) desc
  | .file path range timeFormat fieldsOut => do
    let fields ← fieldsOf fieldsOut
    pure (.file path range timeFormat (.fromFieldSet fields))
  | .stream command fieldsOut => do
    let fields ← fieldsOf fieldsOut
    pure (.stream command (.fromFieldSet fields))
  | .namedRelationReference name _ => do
    let schema ← find name
    pure (.namedRelationReference name schema)
  | .materialize relation _ => do
    let source ← lowerRelation relation
    pure (.materialize source source.schema)

/-- An expression with the relations in it lowered where they stand. -/
def exprOf : Bound.Expr → Expr
  | .identifier id info => .identifier id info.valueType
  | .value v info => .value v info.valueType
  | .inMatch e matched f _ => .inMatch (exprOf e) (lowerRelation matched) f
  | .fnCall f args info => .fnCall f (exprsOf args) info.valueType
  | .like e regex info => .like (exprOf e) regex info.valueType
  | .binary type left right info => .binary type (exprOf left) (exprOf right) info.valueType
  | .unary type e info => .unary type (exprOf e) info.valueType

def exprsOf : List Bound.Expr → List Expr
  | [] => []
  | e :: es => exprOf e :: exprsOf es

def exprOptionOf : Option Bound.Expr → Option Expr
  | none => none
  | some e => some (exprOf e)

def orderByOf (desc : Bool) : Option (List Bound.Expr) → Option OrderBy
  | none => none
  | some es => some ⟨exprsOf es, es.map Bound.Expr.requiredFields, desc⟩

def projectorOf : Bound.Projector → Projector
  | .star => .star
  | .identifier id => .identifier id
  | .expr id e => .expr id (exprOf e)

def projectorsOf : List Bound.Projector → List Projector
  | [] => []
  | p :: ps => projectorOf p :: projectorsOf ps

def projectorsOptionOf : Option (List Bound.Projector) → Option (List Projector)
  | none => none
  | some ps => some (projectorsOf ps)

end

/-! ### Programs -/

/-- `lowerToIR` of a statement. -/
def lowerStatement : Bound.Statement → Lowerer Ir.Statement
  | .query relation => do
    let r ← lowerRelation relation
    pure (.query r)
  | .namedRelation name relation => do
    let r ← lowerRelation relation
    insert name r.schema
    pure (.namedRelation name r)

def lowerStatements : List Bound.Statement → Lowerer (List Ir.Statement)
  | [] => pure []
  | s :: ss => do
    let s ← lowerStatement s
    let ss ← lowerStatements ss
    pure (s :: ss)

/-- `lowerToIR` of a program, from what the binder has left. -/
def lowerProgram (statements : List Bound.Statement) (bound : BindState) :
    Except Fault Ir.Program := do
  let (statements, s) ← lowerStatements statements ⟨bound.binding, bound.openFields, [], none, none⟩
  pure { statements, fieldBinding := s.binding }

end Lowering

end Lsql.Front.Lower
