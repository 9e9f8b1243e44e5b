import Lsql.Core.Value

/-!
# Lsql.Front.Ast

The syntax of a program (`front/sql/ast`), and the walk through it (`util/TreeWalker.h`).

The identifiers of a tree are a parameter: a tree as it is parsed has strings for them. An expression
stands in the clauses of the innermost relation around it, and a subquery is a relation of its own;
the walk counts the relations that it has entered.
-/

namespace Lsql.Front.Ast

/-- `BinaryExprType`. -/
inductive BinaryExprType
  | equal | notEqual | less | greater | lessEqual | greaterEqual | and | or | divide | plus | minus
  deriving DecidableEq, Repr

/-- `UnaryExprType`. -/
inductive UnaryExprType
  | not
  deriving DecidableEq, Repr

/-- `Literal`. -/
structure Literal where
  type : ValueType
  valueStr : Bytes
  deriving DecidableEq, Repr

/-- `FileTimeRange`. -/
structure FileTimeRange where
  tsFrom : Bytes
  intervalS : Option Int
  deriving DecidableEq, Repr

mutual

/-- `ast::Expr`, with one constructor for each node. -/
inductive Expr (ι : Type)
  | identifier (identifier : ι)
  | literal (literal : Literal)
  /-- `InExpr`. -/
  | inMatch (expr : Expr ι) (matched : Relation ι)
  | like (expr : Expr ι) (regex : Bytes)
  | fnCall (func : String) (args : List (Expr ι))
  | binary (type : BinaryExprType) (left right : Expr ι)
  | unary (type : UnaryExprType) (expr : Expr ι)

/-- `ast::Projector`. -/
inductive Projector (ι : Type)
  | star
  | identifier (identifier : ι)
  | expr (aliasName : String) (expr : Expr ι)

/-- `ast::Relation`, with one constructor for each node. The parts of `OrderBy` and `GroupBy` are
fields of `select`. -/
inductive Relation (ι : Type)
  | adhoc (literals : List Literal)
  | select (projectors : List (Projector ι)) (source : Relation ι) (limit : Option Int)
    (whereCond having : Option (Expr ι)) (orderList : Option (List (Expr ι))) (orderDesc : Bool)
    (groupList : Option (List (Projector ι)))
  /-- `AliasRelation`. -/
  | aliased (aliasName : String) (source : Relation ι)
  | unionAll (left right : Relation ι)
  | leftJoin (left right : Relation ι) (condition : Expr ι)
  | unionAllSortedBy (left right : Relation ι) (orderList : List (Expr ι)) (desc : Bool)
  | file (path : String) (range : Option FileTimeRange) (timeFormat : Option String)
  | stream (command : String)
  | namedRelationReference (name : String)
  | materialize (relation : Relation ι)

end

/-- `ast::Statement`. -/
inductive Statement (ι : Type)
  | namedRelation (name : String) (relation : Relation ι)
  | macroDefinition (name : String) (parameters : List String) (body : Expr ι)
  | query (relation : Relation ι)

/-- `ast::Program`. -/
abbrev Program (ι : Type) := List (Statement ι)

/-! ### The walk -/

/-- A visitor: what it makes of an identifier in an expression or in a select list, in that many
relations, and of a call whose arguments it has visited. -/
structure Walker (m : Type → Type) (ι κ : Type) where
  identifier : Nat → ι → m (Expr κ)
  projector : Nat → ι → m (Projector κ)
  call : String → List (Expr κ) → m (Expr κ)

section Walk

variable {m : Type → Type} [Monad m] {ι κ : Type}

mutual

/-- `visit(expr)`. -/
def Expr.walk (w : Walker m ι κ) (depth : Nat) : Expr ι → m (Expr κ)
  | .identifier x => w.identifier depth x
  | .literal l => pure (.literal l)
  | .inMatch e r => do
    let e ← e.walk w depth
    let r ← r.walk w (depth + 1)
    pure (.inMatch e r)
  | .like e regex => do
    let e ← e.walk w depth
    pure (.like e regex)
  | .fnCall func args => do
    let args ← walkExprs w depth args
    w.call func args
  | .binary type l r => do
    let l ← l.walk w depth
    let r ← r.walk w depth
    pure (.binary type l r)
  | .unary type e => do
    let e ← e.walk w depth
    pure (.unary type e)

/-- `visit(projector)`. -/
def Projector.walk (w : Walker m ι κ) (depth : Nat) : Projector ι → m (Projector κ)
  | .star => pure .star
  | .identifier x => w.projector depth x
  | .expr aliasName e => do
    let e ← e.walk w depth
    pure (.expr aliasName e)

/-- `visit(relation)`: the expressions of a relation are in that many relations, itself included. -/
def Relation.walk (w : Walker m ι κ) (depth : Nat) : Relation ι → m (Relation κ)
  | .adhoc literals => pure (.adhoc literals)
  | .select projectors source limit whereCond having orderList orderDesc groupList => do
    let projectors ← walkProjectors w depth projectors
    let source ← source.walk w (depth + 1)
    let whereCond ← walkExprOption w depth whereCond
    let having ← walkExprOption w depth having
    let orderList ← walkExprsOption w depth orderList
    let groupList ← walkProjectorsOption w depth groupList
    pure (.select projectors source limit whereCond having orderList orderDesc groupList)
  | .aliased aliasName source => do
    let source ← source.walk w (depth + 1)
    pure (.aliased aliasName source)
  | .unionAll l r => do
    let l ← l.walk w (depth + 1)
    let r ← r.walk w (depth + 1)
    pure (.unionAll l r)
  | .leftJoin l r condition => do
    let l ← l.walk w (depth + 1)
    let r ← r.walk w (depth + 1)
    let condition ← condition.walk w depth
    pure (.leftJoin l r condition)
  | .unionAllSortedBy l r orderList desc => do
    let l ← l.walk w (depth + 1)
    let r ← r.walk w (depth + 1)
    let orderList ← walkExprs w depth orderList
    pure (.unionAllSortedBy l r orderList desc)
  | .file path range timeFormat => pure (.file path range timeFormat)
  | .stream command => pure (.stream command)
  | .namedRelationReference name => pure (.namedRelationReference name)
  | .materialize relation => do
    let relation ← relation.walk w (depth + 1)
    pure (.materialize relation)

def walkExprs (w : Walker m ι κ) (depth : Nat) : List (Expr ι) → m (List (Expr κ))
  | [] => pure []
  | e :: es => do
    let e ← e.walk w depth
    let es ← walkExprs w depth es
    pure (e :: es)

def walkProjectors (w : Walker m ι κ) (depth : Nat) : List (Projector ι) → m (List (Projector κ))
  | [] => pure []
  | p :: ps => do
    let p ← p.walk w depth
    let ps ← walkProjectors w depth ps
    pure (p :: ps)

def walkExprOption (w : Walker m ι κ) (depth : Nat) : Option (Expr ι) → m (Option (Expr κ))
  | none => pure none
  | some e => do
    let e ← e.walk w depth
    pure (some e)

def walkExprsOption (w : Walker m ι κ) (depth : Nat) : Option (List (Expr ι)) → m (Option (List (Expr κ)))
  | none => pure none
  | some es => do
    let es ← walkExprs w depth es
    pure (some es)

def walkProjectorsOption (w : Walker m ι κ) (depth : Nat) :
    Option (List (Projector ι)) → m (Option (List (Projector κ)))
  | none => pure none
  | some ps => do
    let ps ← walkProjectors w depth ps
    pure (some ps)

end

end Walk

end Lsql.Front.Ast
