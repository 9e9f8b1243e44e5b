import Lsql.Front.Calls
import Lsql.Front.Hygiene

/-!
# Lsql.Front.Expansion

What the expansion of macros leaves of a program: no macro, and no call but those of the built-in
functions.
-/

namespace Lsql.Front

open Ast

/-! ### Macros and calls of a program -/

/-- The macros that are defined, each with the number of its parameters. -/
def declaredMacros : Program String → List (String × Nat)
  | [] => []
  | .macroDefinition name parameters _ :: program =>
    (name, parameters.length) :: declaredMacros program
  | .namedRelation _ _ :: program => declaredMacros program
  | .query _ :: program => declaredMacros program

/-- A call of a built-in function. -/
def Builtin (call : String × Nat) : Prop := isBuiltinFunction call.1 = true

/-- Behind these declarations a call has the declared number of arguments, or it is one of a
function. -/
def ResolvesCall (declared : List (String × Nat)) (call : String × Nat) : Prop :=
  (∀ arity, declared.lookup call.1 = some arity → call.2 = arity) ∧
    (declared.lookup call.1 = none → Builtin call)

/-! ### Substitution at once -/

/-- The place of a parameter, or a name that stays. -/
def hole (parameters : List String) (x : String) : String ⊕ Fin parameters.length :=
  if h : x ∈ parameters then .inr ⟨parameters.idxOf x, List.idxOf_lt_length_of_mem h⟩ else .inl x

/-- The visitor that finds the places of the parameters. -/
def punching (parameters : List String) : Walker Id String (String ⊕ Fin parameters.length) :=
  .rename fun _ => hole parameters

/-- The visitor that puts the arguments in their places. A place holds no name, and an argument no
place. -/
def filling (parameters : List String) (args : Fin parameters.length → Ast.Expr String) :
    Walker Id (String ⊕ Fin parameters.length) String where
  identifier _ := Sum.elim Ast.Expr.identifier args
  projector _ := Sum.elim Projector.identifier fun i => .expr (parameters.get i) (args i)
  call func args := .fnCall func args

/-- A parameter has the argument at its first place. -/
theorem lookup_zip_of_mem {α : Type} {names : List String} {as : List α} {x : String}
    (h : x ∈ names) : (names.zip as).lookup x = as[names.idxOf x]? := by
  induction names generalizing as with
  | nil => cases h
  | cons name names ih =>
      cases as with
      | nil => rfl
      | cons a as =>
          rw [List.zip_cons_cons, List.lookup_cons]
          by_cases hname : x = name
          · subst hname
            simp
          · rw [beq_false_of_ne hname, List.idxOf_cons_ne _ (Ne.symm hname), List.getElem?_cons_succ]
            exact ih ((List.mem_cons.mp h).resolve_left hname)

theorem mem_of_lookup_zip {α : Type} {names : List String} {as : List α} {x : String} {a : α}
    (h : (names.zip as).lookup x = some a) : a ∈ as := by
  by_cases hx : x ∈ names
  · rw [lookup_zip_of_mem hx] at h
    exact List.mem_of_getElem? h
  · rw [lookup_zip_of_not_mem hx] at h
    cases h

section Filling

variable {parameters : List String} {args : List (Ast.Expr String)}
  (hlength : args.length = parameters.length)

theorem lookup_zip_eq_hole (x : String) :
    (parameters.zip args).lookup x =
      (hole parameters x).elim (fun _ => none) fun i => some (args.get (i.cast hlength.symm)) := by
  by_cases hx : x ∈ parameters
  · have hlt : parameters.idxOf x < args.length := hlength ▸ List.idxOf_lt_length_of_mem hx
    rw [lookup_zip_of_mem hx, hole, dif_pos hx, List.getElem?_eq_getElem hlt]
    rfl
  · rw [lookup_zip_of_not_mem hx, hole, dif_neg hx]
    rfl

/-- The name that a place has been made from. -/
theorem get_of_hole {x : String} {i : Fin parameters.length} (h : hole parameters x = .inr i) :
    parameters.get i = x := by
  rw [hole] at h
  split at h
  · cases h
    simp
  · cases h

theorem eq_of_hole {x y : String} (h : hole parameters x = .inl y) : y = x := by
  rw [hole] at h
  split at h
  · cases h
  · cases h
    rfl

theorem fuses_filling :
    Fuses (punching parameters) (filling parameters fun i => args.get (i.cast hlength.symm))
      (parameterSubstituter (parameters.zip args)) where
  identifier depth x := by
    show ((filling parameters _).identifier depth (hole parameters x)).run = (List.lookup x _).getD _
    rw [lookup_zip_eq_hole hlength]
    cases hx : hole parameters x with
    | inl y =>
        cases eq_of_hole hx
        rfl
    | inr i => rfl
  projector depth x := by
    show ((filling parameters _).projector depth (hole parameters x)).run = _
    simp only [parameterSubstituter, lookup_zip_eq_hole hlength]
    cases hx : hole parameters x with
    | inl y =>
        cases eq_of_hole hx
        rfl
    | inr i =>
        show Projector.expr (parameters.get i) _ = .expr x _
        rw [get_of_hole hx]
  call _ _ _ := rfl

/-- **All arguments are put in their places at once.** -/
theorem MacroDefinition.substitute_eq_fill (definition : MacroDefinition)
    (hlength : args.length = definition.parameters.length) :
    definition.substitute args =
      (definition.body.rewrite (punching definition.parameters) 0).rewrite
        (filling definition.parameters fun i => args.get (i.cast hlength.symm)) 0 :=
  (Ast.Expr.rewrite_rewrite (fuses_filling hlength) 0 definition.body).symm

end Filling

/-! ### The calls that the expansion leaves -/

/-- What a definition declares. -/
def MacroDefinition.declared (definition : MacroDefinition) : String × Nat :=
  (definition.name, definition.parameters.length)

/-- Definitions whose bodies call built-in functions only. -/
def AllBuiltin (definitions : List MacroDefinition) : Prop :=
  ∀ definition ∈ definitions, Each Builtin definition.body.calls

theorem lookup_declared (definitions : List MacroDefinition) (name : String) :
    (definitions.map MacroDefinition.declared).lookup name =
      (findDefinition definitions name).map fun definition => definition.parameters.length := by
  induction definitions with
  | nil => rfl
  | cons definition definitions ih =>
      rw [List.map_cons, MacroDefinition.declared, List.lookup_cons, findDefinition,
        List.find?_cons]
      by_cases hname : name = definition.name
      · subst hname
        simp
      · rw [beq_false_of_ne hname, beq_false_of_ne (Ne.symm hname)]
        exact ih

theorem substituter_brings {parameters : List String} {args : List (Ast.Expr String)}
    (hargs : ∀ e ∈ args, Each Builtin e.calls) :
    Brings (parameterSubstituter (parameters.zip args)) Builtin Builtin where
  identifier depth x := by
    show Each Builtin ((List.lookup x (parameters.zip args)).getD (.identifier x)).calls
    cases hlookup : (parameters.zip args).lookup x with
    | none => exact each_nil
    | some e => exact hargs e (mem_of_lookup_zip hlookup)
  projector depth x := by
    simp only [parameterSubstituter]
    cases hlookup : (parameters.zip args).lookup x with
    | none => exact each_nil
    | some e => exact hargs e (mem_of_lookup_zip hlookup)
  call func es hfunc hes := each_cons.mpr ⟨hfunc, each_callsOfExprs.mpr hes⟩

theorem substitute_builtin {definition : MacroDefinition} {args : List (Ast.Expr String)}
    (hbody : Each Builtin definition.body.calls) (hargs : ∀ e ∈ args, Each Builtin e.calls) :
    Each Builtin (definition.substitute args).calls :=
  Ast.Expr.calls_rewrite (substituter_brings hargs) 0 definition.body hbody

/-- The visitor lets a call pass only if it resolves. -/
theorem macroExpander_passes (definitions : List MacroDefinition) :
    Passes (macroExpander definitions) (ResolvesCall (definitions.map MacroDefinition.declared)) := by
  intro func args e h
  simp only [macroExpander] at h
  simp only [ResolvesCall, lookup_declared]
  cases hfind : findDefinition definitions func with
  | none =>
      rw [hfind] at h
      obtain ⟨_, hbuiltin, -⟩ := bind_eq_ok.mp h
      exact ⟨by simp, fun _ => require_eq_ok.mp hbuiltin⟩
  | some definition =>
      rw [hfind] at h
      obtain ⟨_, harity, -⟩ := bind_eq_ok.mp h
      have hlength : args.length = definition.parameters.length := by
        simpa using require_eq_ok.mp harity
      exact ⟨by simp [hlength], by simp⟩

/-- Calls that resolve become calls of built-in functions. -/
theorem callExpander_brings {definitions : List MacroDefinition} (h : AllBuiltin definitions) :
    Brings (callExpander definitions) (ResolvesCall (definitions.map MacroDefinition.declared))
      Builtin where
  identifier _ _ := each_nil
  projector _ _ := each_nil
  call func args hresolves hargs := by
    simp only [callExpander]
    cases hfind : findDefinition definitions func with
    | none =>
        have hbuiltin : Builtin (func, args.length) :=
          hresolves.2 (by rw [lookup_declared, hfind, Option.map_none])
        exact each_cons.mpr ⟨hbuiltin, each_callsOfExprs.mpr hargs⟩
    | some definition =>
        exact substitute_builtin (h definition (List.mem_of_find?_eq_some hfind)) hargs

/-! ### One statement -/

/-- An expression that has been expanded has called what resolves, and calls what is built in. -/
theorem expandExpr_spec {definitions : List MacroDefinition} (hall : AllBuiltin definitions)
    {depth : Nat} {e e' : Ast.Expr String} (h : e.walk (macroExpander definitions) depth = .ok e') :
    Each (ResolvesCall (definitions.map MacroDefinition.declared)) e.calls ∧ Each Builtin e'.calls := by
  have hresolves := Ast.Expr.calls_walk (macroExpander_passes definitions) depth e h
  refine ⟨hresolves, ?_⟩
  rw [Ast.Expr.walk_follows (macroExpander_follows definitions) depth e h]
  exact Ast.Expr.calls_rewrite (callExpander_brings hall) depth e hresolves

theorem expandRelation_spec {definitions : List MacroDefinition} (hall : AllBuiltin definitions)
    {r r' : Relation String} (h : expandRelation definitions r = .ok r') :
    Each (ResolvesCall (definitions.map MacroDefinition.declared)) r.calls ∧ Each Builtin r'.calls := by
  have hresolves := Relation.calls_walk (macroExpander_passes definitions) 1 r h
  refine ⟨hresolves, ?_⟩
  rw [Relation.walk_follows (macroExpander_follows definitions) 1 r h]
  exact Relation.calls_rewrite (callExpander_brings hall) 1 r hresolves

/-- What is added is declared, calls built-in functions only, and has a name of its own. -/
theorem defineMacro_spec {definitions definitions' : List MacroDefinition}
    (hall : AllBuiltin definitions) {name : String} {parameters : List String}
    {body : Ast.Expr String} (h : defineMacro definitions name parameters body = .ok definitions') :
    Each (ResolvesCall (definitions.map MacroDefinition.declared)) body.calls ∧
      AllBuiltin definitions' ∧
      definitions'.map MacroDefinition.declared =
        definitions.map MacroDefinition.declared ++ [(name, parameters.length)] ∧
      isBuiltinFunction name = false ∧
      (definitions.map MacroDefinition.declared).lookup name = none := by
  obtain ⟨_, hname, hrest⟩ := bind_eq_ok.mp h
  obtain ⟨_, hnew, -⟩ := bind_eq_ok.mp hrest
  obtain ⟨body', hbody, rfl⟩ := defineMacro_eq_ok h
  obtain ⟨hresolves, hbuiltin⟩ := expandExpr_spec hall hbody
  refine ⟨hresolves, ?_, by simp [MacroDefinition.declared], ?_, ?_⟩
  · intro definition hdefinition
    rcases List.mem_append.mp hdefinition with hold | hnew
    · exact hall definition hold
    · rw [List.mem_singleton.mp hnew]
      exact hbuiltin
  · have := require_eq_ok.mp hname
    simp only [Bool.and_eq_true, Bool.not_eq_true'] at this
    exact this.1
  · rw [lookup_declared, Option.map_eq_none_iff, ← Option.isNone_iff_eq_none]
    exact require_eq_ok.mp hnew

/-! ### Programs -/

def IsMacro (statement : Statement String) : Prop :=
  ∃ name parameters body, statement = .macroDefinition name parameters body

theorem expandStatements_builtin {definitions : List MacroDefinition} (hall : AllBuiltin definitions)
    {program result : Program String} (h : expandStatements definitions program = .ok result) :
    ∀ statement ∈ result, ¬ IsMacro statement ∧ Each Builtin statement.calls := by
  induction program generalizing definitions result with
  | nil =>
      cases h
      exact fun _ hmem => absurd hmem List.not_mem_nil
  | cons statement program ih =>
      cases statement with
      | macroDefinition name parameters body =>
          obtain ⟨definitions', hdefine, h⟩ := bind_eq_ok.mp h
          exact ih (defineMacro_spec hall hdefine).2.1 h
      | namedRelation name relation =>
          obtain ⟨relation', hrelation, h⟩ := bind_eq_ok.mp h
          obtain ⟨rest, hrest, h⟩ := bind_eq_ok.mp h
          cases h
          refine List.forall_mem_cons.mpr ⟨⟨?_, (expandRelation_spec hall hrelation).2⟩, ih hall hrest⟩
          rintro ⟨_, _, _, ⟨⟩⟩
      | query relation =>
          obtain ⟨relation', hrelation, h⟩ := bind_eq_ok.mp h
          obtain ⟨rest, hrest, h⟩ := bind_eq_ok.mp h
          cases h
          refine List.forall_mem_cons.mpr ⟨⟨?_, (expandRelation_spec hall hrelation).2⟩, ih hall hrest⟩
          rintro ⟨_, _, _, ⟨⟩⟩

/-- The rest of a program is expanded behind the macros of its beginning. -/
theorem expandStatements_append {definitions : List MacroDefinition} (hall : AllBuiltin definitions)
    {before rest result : Program String}
    (h : expandStatements definitions (before ++ rest) = .ok result) :
    ∃ definitions' result', AllBuiltin definitions' ∧
      definitions'.map MacroDefinition.declared =
        definitions.map MacroDefinition.declared ++ declaredMacros before ∧
      expandStatements definitions' rest = .ok result' := by
  induction before generalizing definitions result with
  | nil => exact ⟨definitions, result, hall, (List.append_nil _).symm, h⟩
  | cons statement before ih =>
      cases statement with
      | macroDefinition name parameters body =>
          obtain ⟨definitions₁, hdefine, h⟩ := bind_eq_ok.mp h
          obtain ⟨-, hall₁, hdeclared, -⟩ := defineMacro_spec hall hdefine
          obtain ⟨definitions', result', hall', hdeclared', hrest⟩ := ih hall₁ h
          refine ⟨definitions', result', hall', ?_, hrest⟩
          rw [hdeclared', hdeclared, List.append_assoc]
          rfl
      | namedRelation name relation =>
          obtain ⟨relation', -, h⟩ := bind_eq_ok.mp h
          obtain ⟨expanded, h, -⟩ := bind_eq_ok.mp h
          exact ih hall h
      | query relation =>
          obtain ⟨relation', -, h⟩ := bind_eq_ok.mp h
          obtain ⟨expanded, h, -⟩ := bind_eq_ok.mp h
          exact ih hall h

/-- No macro of the rest of a program has the name of a function or of a macro in front. -/
theorem expandStatements_new {definitions : List MacroDefinition} (hall : AllBuiltin definitions)
    {program result : Program String} (h : expandStatements definitions program = .ok result) :
    ∀ declared ∈ declaredMacros program, isBuiltinFunction declared.1 = false ∧
      (definitions.map MacroDefinition.declared).lookup declared.1 = none := by
  induction program generalizing definitions result with
  | nil => exact fun _ hmem => absurd hmem List.not_mem_nil
  | cons statement program ih =>
      cases statement with
      | macroDefinition name parameters body =>
          obtain ⟨definitions', hdefine, h⟩ := bind_eq_ok.mp h
          obtain ⟨-, hall', hdeclared, hname, hnew⟩ := defineMacro_spec hall hdefine
          refine List.forall_mem_cons.mpr ⟨⟨hname, hnew⟩, fun declared hmem => ?_⟩
          obtain ⟨hfunction, hlookup⟩ := ih hall' h declared hmem
          rw [hdeclared, List.lookup_append, Option.or_eq_none_iff] at hlookup
          exact ⟨hfunction, hlookup.1⟩
      | namedRelation name relation =>
          obtain ⟨relation', -, h⟩ := bind_eq_ok.mp h
          obtain ⟨expanded, h, -⟩ := bind_eq_ok.mp h
          exact ih hall h
      | query relation =>
          obtain ⟨relation', -, h⟩ := bind_eq_ok.mp h
          obtain ⟨expanded, h, -⟩ := bind_eq_ok.mp h
          exact ih hall h

/-- The calls of the first statement resolve behind the macros in front. -/
theorem expandStatements_head {definitions : List MacroDefinition} (hall : AllBuiltin definitions)
    {statement : Statement String} {after result : Program String}
    (h : expandStatements definitions (statement :: after) = .ok result) :
    Each (ResolvesCall (definitions.map MacroDefinition.declared)) statement.calls := by
  cases statement with
  | macroDefinition name parameters body =>
      obtain ⟨definitions', hdefine, h⟩ := bind_eq_ok.mp h
      exact (defineMacro_spec hall hdefine).1
  | namedRelation name relation =>
      obtain ⟨relation', hrelation, -⟩ := bind_eq_ok.mp h
      exact (expandRelation_spec hall hrelation).1
  | query relation =>
      obtain ⟨relation', hrelation, -⟩ := bind_eq_ok.mp h
      exact (expandRelation_spec hall hrelation).1

/-- **The expansion of an accepted program has no macro and calls built-in functions only; every call
of the program is one of a function or of a macro in front, with the declared number of arguments,
and none of a macro that the same or a later statement defines; and arguments are substituted all
at once.** -/
theorem expandMacros_eliminates_macros :
    (∀ program result, expandMacros program = .ok result →
      (∀ statement ∈ result, ¬ IsMacro statement ∧ ∀ call ∈ statement.calls, Builtin call) ∧
        ∀ before statement after, program = before ++ statement :: after →
          ∀ call ∈ statement.calls, ResolvesCall (declaredMacros before) call ∧
            call.1 ∉ (declaredMacros (statement :: after)).map Prod.fst) ∧
      ∀ (definition : MacroDefinition) (args : List (Ast.Expr String))
        (hlength : args.length = definition.parameters.length),
        definition.substitute args =
          (definition.body.rewrite (punching definition.parameters) 0).rewrite
            (filling definition.parameters fun i => args.get (i.cast hlength.symm)) 0 := by
  have hnone : AllBuiltin [] := fun _ hmem => absurd hmem List.not_mem_nil
  refine ⟨fun program result h => ⟨expandStatements_builtin hnone h, ?_⟩,
    fun definition args hlength => definition.substitute_eq_fill hlength⟩
  rintro before statement after rfl call hcall
  obtain ⟨definitions, result', hall, hdeclared, hrest⟩ := expandStatements_append hnone h
  rw [List.map_nil, List.nil_append] at hdeclared
  have hresolves := expandStatements_head hall hrest call hcall
  have hnew := expandStatements_new hall hrest
  rw [hdeclared] at hresolves hnew
  refine ⟨hresolves, fun hlater => ?_⟩
  obtain ⟨declared, hmem, hname⟩ := List.mem_map.mp hlater
  obtain ⟨hfunction, hlookup⟩ := hnew declared hmem
  rw [hname] at hfunction hlookup
  -- neither a function nor a macro in front
  have hbuiltin : isBuiltinFunction call.1 = true := hresolves.2 hlookup
  rw [hfunction] at hbuiltin
  cases hbuiltin

/-- `def twice(a, b) = a + b`, `def both(b, a) = twice(a, b)` and `SELECT both(a, lower(b)) AS r FROM
'f.log'`. -/
def crossedMacros : Program String :=
  [.macroDefinition "twice" ["a", "b"] (.binary .plus (.identifier "a") (.identifier "b")),
    .macroDefinition "both" ["b", "a"] (.fnCall "twice" [.identifier "a", .identifier "b"]),
    .query (.select [.expr "r" (.fnCall "both" [.identifier "a", .fnCall "lower" [.identifier "b"]])]
      (.file "f.log" none none) none none none none false none)]

/-- The arguments are crossed, and neither is substituted again. -/
def crossedExpanded : Program String :=
  [.query (.select [.expr "r" (.binary .plus (.fnCall "lower" [.identifier "b"]) (.identifier "a"))]
    (.file "f.log" none none) none none none none false none)]

theorem expandMacros_crossedMacros : expandMacros crossedMacros = .ok crossedExpanded := by
  rfl

theorem expandMacros_eliminates_macros_crossed :
    (∀ statement ∈ crossedExpanded,
        ¬ IsMacro statement ∧ ∀ call ∈ statement.calls, Builtin call) ∧
      (MacroDefinition.mk "twice" ["a", "b"]
          (.binary .plus (.identifier "a") (.identifier "b"))).substitute
          [.identifier "b", .identifier "a"] =
        ((Ast.Expr.binary .plus (.identifier "a") (.identifier "b")).rewrite
            (punching ["a", "b"]) 0).rewrite
          (filling ["a", "b"] fun i => [Ast.Expr.identifier "b", .identifier "a"].get i) 0 :=
  ⟨(expandMacros_eliminates_macros.1 crossedMacros crossedExpanded expandMacros_crossedMacros).1,
    expandMacros_eliminates_macros.2 ⟨"twice", ["a", "b"], _⟩
      [.identifier "b", .identifier "a"] rfl⟩

end Lsql.Front
