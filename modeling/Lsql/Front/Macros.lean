import Lsql.Front.Bound

/-!
# Lsql.Front.Macros

The expansion of macros (`front/sql/bind/expand_macros.cpp`).

A macro is expanded by putting the arguments of a call in the place of the parameters, in a copy of
the body. The body has been expanded when it was defined, the arguments before the call.
-/

namespace Lsql.Front

open Ast (Expr Projector Relation Statement Program Walker)

/-- `ParameterSubstituter`, with its `arguments`. -/
def parameterSubstituter (arguments : List (String × Expr String)) : Walker Id String String where
  identifier _ identifier := (arguments.lookup identifier).getD (.identifier identifier)
  projector _ identifier :=
    match arguments.lookup identifier with
    | some argument => .expr identifier argument
    | none => .identifier identifier
  call func args := .fnCall func args

/-- `MacroBodyValidator`. -/
def macroBodyValidator (parameters : List String) : Walker (Except Fault) String String where
  identifier relationDepth identifier := do
    require (decide (0 < relationDepth) || parameters.contains identifier)
      ("unknown macro parameter '" ++ identifier ++ "'; pass fields as macro arguments")
    pure (.identifier identifier)
  projector _ identifier := pure (.identifier identifier)
  call func args := pure (.fnCall func args)

/-- `MacroDefinitionStatement`, with an expanded body. -/
structure MacroDefinition where
  name : String
  parameters : List String
  body : Expr String

/-- `definitions.find(name)`. -/
def findDefinition (definitions : List MacroDefinition) (name : String) : Option MacroDefinition :=
  definitions.find? fun definition => definition.name == name

/-- The body of a macro with the arguments in the place of the parameters. -/
def MacroDefinition.substitute (definition : MacroDefinition) (args : List (Expr String)) :
    Expr String :=
  definition.body.walk (parameterSubstituter (definition.parameters.zip args)) 0

/-- `MacroExpander::visit`. -/
def macroExpander (definitions : List MacroDefinition) : Walker (Except Fault) String String where
  identifier _ identifier := pure (.identifier identifier)
  projector _ identifier := pure (.identifier identifier)
  call func args :=
    match findDefinition definitions func with
    | none => do
      require (isBuiltinFunction func)
        ("unknown function or macro '" ++ func ++ "'; macros must be defined before use")
      pure (.fnCall func args)
    | some definition => do
      require (args.length == definition.parameters.length)
        ("macro '" ++ func ++ "' expects " ++ toString definition.parameters.length ++
          " arguments, got " ++ toString args.length)
      pure (definition.substitute args)

/-- The loop over the parameters. -/
def checkParameters (parameters : List String) : List String → Except Fault Unit
  | [] => pure ()
  | parameter :: rest => do
    require (!parameters.contains parameter) ("duplicate macro parameter '" ++ parameter ++ "'")
    checkParameters (parameter :: parameters) rest

/-- `MacroExpander::define`. -/
def defineMacro (definitions : List MacroDefinition) (name : String) (parameters : List String)
    (body : Expr String) : Except Fault (List MacroDefinition) := do
  require (!isBuiltinFunction name && name != "count")
    ("macro '" ++ name ++ "' conflicts with a built-in function")
  require (findDefinition definitions name).isNone ("duplicate macro '" ++ name ++ "'")
  checkParameters [] parameters
  let _ ← body.walk (macroBodyValidator parameters) 0
  let body ← body.walk (macroExpander definitions) 0
  pure (definitions ++ [⟨name, parameters, body⟩])

/-- `expander.visit(statement)`. -/
def expandRelation (definitions : List MacroDefinition) (relation : Relation String) :
    Except Fault (Relation String) :=
  relation.walk (macroExpander definitions) 1

/-- The loop over the statements. -/
def expandStatements (definitions : List MacroDefinition) :
    Program String → Except Fault (Program String)
  | [] => pure []
  | .macroDefinition name parameters body :: program => do
    let definitions ← defineMacro definitions name parameters body
    expandStatements definitions program
  | .namedRelation name relation :: program => do
    let relation ← expandRelation definitions relation
    let program ← expandStatements definitions program
    pure (.namedRelation name relation :: program)
  | .query relation :: program => do
    let relation ← expandRelation definitions relation
    let program ← expandStatements definitions program
    pure (.query relation :: program)

/-- `expandMacros`. -/
def expandMacros (program : Program String) : Except Fault (Program String) :=
  expandStatements [] program

end Lsql.Front
