import Lsql.Front.Bind
import Lsql.Front.Walks

/-!
# Lsql.Front.Hygiene

Whether the expansion of macros captures fields.

The binder looks an identifier up in the innermost relation around it only. So a reference is a name
with the number of relations between it and the relation that it belongs to. A macro is a template
over references: a parameter in it belongs to the query that calls the macro, whatever the number of
relations around it in the body. An argument that is put under relations of the body still belongs to
the calling query, which is then that many relations further outside.
-/

namespace Lsql.Front

open Ast

/-! ### References -/

/-- The field of that name of the relation behind `out` others. -/
structure Reference where
  out : Nat
  name : String
  deriving DecidableEq, Repr

/-- What an identifier stands for in a macro with these parameters, under `depth` relations. -/
def reference (parameters : List String) (depth : Nat) (name : String) : Reference :=
  ⟨if name ∈ parameters then depth else 0, name⟩

/-- The visitor that finds out what the identifiers of a text stand for. -/
def reading (parameters : List String) : Walker Id String Reference :=
  .rename (reference parameters)

/-- The visitor that moves an expression under `k` more relations. -/
def lifting (k : Nat) : Walker Id Reference Reference :=
  .rename fun depth r => if depth ≤ r.out then ⟨r.out + k, r.name⟩ else r

/-- The argument for a reference under `depth` relations, if it stands for a parameter. -/
def movedArgument (arguments : List (String × Ast.Expr Reference)) (depth : Nat) (r : Reference) :
    Option (Ast.Expr Reference) :=
  if r.out = depth then
    (arguments.lookup r.name).map fun argument => argument.rewrite (lifting depth) 0
  else none

/-- The visitor that puts arguments in the place of parameters and does not capture. -/
def instantiation (arguments : List (String × Ast.Expr Reference)) : Walker Id Reference Reference where
  identifier depth r := (movedArgument arguments depth r).getD (.identifier r)
  projector depth r :=
    match movedArgument arguments depth r with
    | some argument => .expr r.name argument
    | none => .identifier r
  call func args := .fnCall func args

/-- The visitor that writes references as identifiers. -/
def forgetting : Walker Id Reference String := .rename fun _ r => r.name

/-! ### What a program means -/

/-- A macro whose identifiers are references. -/
structure Template where
  name : String
  parameters : List String
  body : Ast.Expr Reference

/-- The expansion that does not capture, in a macro with these parameters or in a query. -/
def hygienicExpander (templates : List Template) (parameters : List String) :
    Walker Id String Reference where
  identifier depth x := .identifier (reference parameters depth x)
  projector depth x := .identifier (reference parameters depth x)
  call func args :=
    match templates.find? fun template => template.name == func with
    | none => .fnCall func args
    | some template => template.body.rewrite (instantiation (template.parameters.zip args)) 0

/-- The macros of a program, behind those that have been defined before. -/
def templatesFrom (templates : List Template) : Program String → List Template
  | [] => templates
  | .macroDefinition name parameters body :: program =>
    templatesFrom (templates ++
      [⟨name, parameters, body.rewrite (hygienicExpander templates parameters) 0⟩]) program
  | .namedRelation _ _ :: program => templatesFrom templates program
  | .query _ :: program => templatesFrom templates program

/-- The other statements of a program, expanded without capture. -/
def meaningFrom (templates : List Template) : Program String → Program Reference
  | [] => []
  | .macroDefinition name parameters body :: program =>
    meaningFrom (templates ++
      [⟨name, parameters, body.rewrite (hygienicExpander templates parameters) 0⟩]) program
  | .namedRelation name relation :: program =>
    .namedRelation name (relation.rewrite (hygienicExpander templates []) 1) ::
      meaningFrom templates program
  | .query relation :: program =>
    .query (relation.rewrite (hygienicExpander templates []) 1) :: meaningFrom templates program

/-! ### What the expansion returns -/

/-- The references of a statement that has been expanded. -/
def resolveStatement : Statement String → Statement Reference
  | .macroDefinition name parameters body =>
    .macroDefinition name parameters (body.rewrite (reading parameters) 0)
  | .namedRelation name relation => .namedRelation name (relation.rewrite (reading []) 1)
  | .query relation => .query (relation.rewrite (reading []) 1)

/-- The references of a macro whose body has been expanded. -/
def MacroDefinition.resolve (definition : MacroDefinition) : Template :=
  ⟨definition.name, definition.parameters, definition.body.rewrite (reading definition.parameters) 0⟩

/-- `expander.definitions` behind a program. -/
def definitionsFrom (definitions : List MacroDefinition) :
    Program String → Except Fault (List MacroDefinition)
  | [] => pure definitions
  | .macroDefinition name parameters body :: program => do
    let definitions ← defineMacro definitions name parameters body
    definitionsFrom definitions program
  | .namedRelation _ _ :: program => definitionsFrom definitions program
  | .query _ :: program => definitionsFrom definitions program

/-- The identifiers of every macro body and of every statement stand for the same fields behind the
expansion as they do where they are written. -/
def Hygienic (program : Program String) : Prop :=
  ∀ definitions expanded, definitionsFrom [] program = .ok definitions →
    expandMacros program = .ok expanded →
      definitions.map MacroDefinition.resolve = templatesFrom [] program ∧
        expanded.map resolveStatement = meaningFrom [] program

/-! ### When nothing is captured -/

/-- References to the innermost relation, or to the calling query if they have the name of a
parameter. -/
def CaptureFree (parameters : List String) (references : List (Nat × Reference)) : Prop :=
  ∀ p ∈ references, p.2.out = if p.2.name ∈ parameters then p.1 else 0

def Template.CaptureFree (template : Template) : Prop :=
  Front.CaptureFree template.parameters (template.body.identifiers 0)

def statementReferences : Statement Reference → List (Nat × Reference)
  | .macroDefinition _ _ body => body.identifiers 0
  | .namedRelation _ relation => relation.identifiers 1
  | .query relation => relation.identifiers 1

/-- Expanded without capture, a program has no argument with a field of the calling query under a
relation of a macro body, and no macro body with a field of another macro that has the name of one of
its parameters. -/
def NothingToCapture (program : Program String) : Prop :=
  (∀ template ∈ templatesFrom [] program, template.CaptureFree) ∧
    ∀ statement ∈ meaningFrom [] program, CaptureFree [] (statementReferences statement)

/-! ### Forgetting -/

theorem forgetting_depthFree : DepthFree forgetting where
  identifier _ _ _ := rfl
  projector _ _ _ := rfl

/-- A walk behind a renaming, where both do what one renaming does. -/
theorem fuses_forgetting {ι : Type} {f : Nat → ι → Reference} {g : Nat → ι → String}
    (h : ∀ depth x, (f depth x).name = g depth x) : Fuses (.rename f) forgetting (.rename g) where
  identifier depth x := congrArg Ast.Expr.identifier (h depth x)
  projector depth x := congrArg Projector.identifier (h depth x)
  call _ _ _ := rfl

/-- What has been moved is written as before. -/
theorem forget_lift (k depth depth' : Nat) (e : Ast.Expr Reference) :
    (e.rewrite (lifting k) depth).rewrite forgetting depth' = e.rewrite forgetting depth' := by
  have hname : ∀ (depth : Nat) (r : Reference),
      (if depth ≤ r.out then (⟨r.out + k, r.name⟩ : Reference) else r).name = r.name := by
    intro depth r
    split
    · rfl
    · rfl
  rw [Ast.Expr.rewrite_depth forgetting_depthFree depth' depth,
    Ast.Expr.rewrite_depth forgetting_depthFree depth' depth]
  exact Ast.Expr.rewrite_rewrite (fuses_forgetting hname) depth e

theorem rewriteExprs_eq_map {ι κ : Type} (w : Walker Id ι κ) (depth : Nat) (es : List (Ast.Expr ι)) :
    rewriteExprs w depth es = es.map (Ast.Expr.rewrite w depth) := by
  induction es with
  | nil => rfl
  | cons e es ih => exact congrArg (e.rewrite w depth :: ·) ih

section Lookup

variable {α β : Type}

theorem lookup_zip_map (f : α → β) (names : List String) (as : List α) (x : String) :
    (names.zip (as.map f)).lookup x = ((names.zip as).lookup x).map f := by
  induction names generalizing as with
  | nil => rfl
  | cons name names ih =>
      cases as with
      | nil => rfl
      | cons a as =>
          rw [List.map_cons, List.zip_cons_cons, List.zip_cons_cons, List.lookup_cons,
            List.lookup_cons, ih]
          split
          · rfl
          · rfl

theorem lookup_zip_of_not_mem {names : List String} {as : List α} {x : String} (h : x ∉ names) :
    (names.zip as).lookup x = none := by
  induction names generalizing as with
  | nil => rfl
  | cons name names ih =>
      obtain ⟨hne, hnot⟩ := not_or.mp (List.mem_cons.not.mp h)
      cases as with
      | nil => rfl
      | cons a as =>
          rw [List.zip_cons_cons, List.lookup_cons, beq_false_of_ne hne]
          exact ih hnot

end Lookup

/-! ### One call -/

/-- Reading a body and instantiating it. -/
def instantiateRead (parameters : List String) (arguments : List (String × Ast.Expr Reference)) :
    Walker Id String Reference where
  identifier depth x := (instantiation arguments).identifier depth (reference parameters depth x)
  projector depth x := (instantiation arguments).projector depth (reference parameters depth x)
  call func args := .fnCall func args

theorem fuses_instantiation (parameters : List String)
    (arguments : List (String × Ast.Expr Reference)) :
    Fuses (reading parameters) (instantiation arguments) (instantiateRead parameters arguments) where
  identifier _ _ := rfl
  projector _ _ := rfl
  call _ _ _ := rfl

/-- The argument of a parameter is written as it is, wherever it has been moved to. -/
theorem forget_movedArgument (parameters : List String) (args : List (Ast.Expr Reference))
    (depth : Nat) (x : String) :
    (movedArgument (parameters.zip args) depth (reference parameters depth x)).map
        (Ast.Expr.rewrite forgetting depth) =
      (parameters.zip (args.map (Ast.Expr.rewrite forgetting 0))).lookup x := by
  rw [lookup_zip_map, movedArgument]
  by_cases hx : x ∈ parameters
  · have hout : (reference parameters depth x).out = depth := if_pos hx
    rw [if_pos hout, Option.map_map]
    show Option.map _ ((parameters.zip args).lookup x) = _
    refine congrArg (Option.map · _) (funext fun argument => ?_)
    show (argument.rewrite (lifting depth) 0).rewrite forgetting depth = _
    rw [forget_lift, Ast.Expr.rewrite_depth forgetting_depthFree depth 0]
  · show Option.map _ (if _ then Option.map _ ((parameters.zip args).lookup x) else none) = _
    rw [lookup_zip_of_not_mem hx]
    split
    · rfl
    · rfl

/-- Behind an instantiation an identifier is written as behind a substitution. -/
theorem fuses_substituter (parameters : List String) (args : List (Ast.Expr Reference)) :
    Fuses (instantiateRead parameters (parameters.zip args)) forgetting
      (parameterSubstituter (parameters.zip (args.map (Ast.Expr.rewrite forgetting 0)))) where
  identifier depth x := by
    have hargument := forget_movedArgument parameters args depth x
    show Ast.Expr.rewrite forgetting depth
      ((movedArgument (parameters.zip args) depth (reference parameters depth x)).getD
        (.identifier (reference parameters depth x))) = (List.lookup x _).getD (.identifier x)
    rw [← hargument]
    cases movedArgument (parameters.zip args) depth (reference parameters depth x) with
    | none => rfl
    | some argument => rfl
  projector depth x := by
    have hargument := forget_movedArgument parameters args depth x
    show Projector.rewrite forgetting depth
      ((instantiation (parameters.zip args)).projector depth (reference parameters depth x)).run =
        ((parameterSubstituter _).projector depth x).run
    simp only [instantiation, parameterSubstituter, ← hargument]
    cases movedArgument (parameters.zip args) depth (reference parameters depth x) with
    | none => rfl
    | some argument => rfl
  call _ _ _ := rfl

/-- **What the expansion makes of a call is how the call without capture is written.** -/
theorem forget_instantiate (definition : MacroDefinition) (args : List (Ast.Expr Reference))
    (depth : Nat) :
    ((definition.resolve.body.rewrite (instantiation (definition.parameters.zip args)) 0).rewrite
      forgetting depth) = definition.substitute (rewriteExprs forgetting depth args) := by
  have hargs : rewriteExprs forgetting depth args = args.map (Ast.Expr.rewrite forgetting 0) := by
    rw [rewriteExprs_depth forgetting_depthFree depth 0, rewriteExprs_eq_map]
  show Ast.Expr.rewrite forgetting depth (Ast.Expr.rewrite (instantiation _) 0
    (definition.body.rewrite (reading definition.parameters) 0)) = _
  rw [Ast.Expr.rewrite_depth forgetting_depthFree depth 0,
    Ast.Expr.rewrite_rewrite (fuses_instantiation _ _) 0,
    Ast.Expr.rewrite_rewrite (fuses_substituter _ _) 0, hargs]
  rfl

/-! ### One walk -/

/-- The expansion of calls, without the checks. -/
def callExpander (definitions : List MacroDefinition) : Walker Id String String where
  identifier _ x := .identifier x
  projector _ x := .identifier x
  call func args :=
    match findDefinition definitions func with
    | none => .fnCall func args
    | some definition => definition.substitute args

theorem macroExpander_follows (definitions : List MacroDefinition) :
    Follows (macroExpander definitions) (callExpander definitions) where
  identifier h := (Except.ok.inj h).symm
  projector h := (Except.ok.inj h).symm
  call {func args e} h := by
    simp only [macroExpander] at h
    simp only [callExpander]
    cases hfind : findDefinition definitions func with
    | none =>
        rw [hfind] at h
        obtain ⟨-, -, h⟩ := bind_eq_ok.mp h
        exact (Except.ok.inj h).symm
    | some definition =>
        rw [hfind] at h
        obtain ⟨-, -, h⟩ := bind_eq_ok.mp h
        exact (Except.ok.inj h).symm

theorem findDefinition_resolve (definitions : List MacroDefinition) (func : String) :
    (definitions.map MacroDefinition.resolve).find? (fun template => template.name == func) =
      (findDefinition definitions func).map MacroDefinition.resolve := by
  rw [List.find?_map, findDefinition]
  rfl

/-- Behind the expansion without capture a text is written as behind the expansion. -/
theorem fuses_expander (definitions : List MacroDefinition) (parameters : List String) :
    Fuses (hygienicExpander (definitions.map MacroDefinition.resolve) parameters) forgetting
      (callExpander definitions) where
  identifier _ _ := rfl
  projector _ _ := rfl
  call depth func args := by
    simp only [hygienicExpander, callExpander, findDefinition_resolve]
    cases findDefinition definitions func with
    | none => rfl
    | some definition => exact forget_instantiate definition args depth

/-- Reading what has been written. -/
theorem fuses_reading (parameters : List String) :
    Fuses forgetting (reading parameters)
      (.rename fun depth r => reference parameters depth r.name) where
  identifier _ _ := rfl
  projector _ _ := rfl
  call _ _ _ := rfl

theorem kept_iff_captureFree {parameters : List String} {references : List (Nat × Reference)} :
    Kept (fun depth r => reference parameters depth r.name) references ↔
      CaptureFree parameters references := by
  refine forall₂_congr fun p _ => ?_
  show (⟨_, _⟩ : Reference) = ⟨p.2.out, p.2.name⟩ ↔ _
  rw [Reference.mk.injEq, and_iff_left rfl, eq_comm]

/-- **The body of a macro keeps its meaning exactly if nothing can be captured.** -/
theorem expr_hygienic_iff {definitions : List MacroDefinition} {parameters : List String}
    {body body' : Ast.Expr String} {depth : Nat}
    (h : body.walk (macroExpander definitions) depth = .ok body') :
    body'.rewrite (reading parameters) depth =
        body.rewrite (hygienicExpander (definitions.map MacroDefinition.resolve) parameters) depth ↔
      CaptureFree parameters ((body.rewrite
        (hygienicExpander (definitions.map MacroDefinition.resolve) parameters) depth).identifiers
          depth) := by
  rw [Ast.Expr.walk_follows (macroExpander_follows definitions) depth body h,
    ← Ast.Expr.rewrite_rewrite (fuses_expander definitions parameters) depth body,
    Ast.Expr.rewrite_rewrite (fuses_reading parameters) depth, Ast.Expr.rename_eq_self,
    kept_iff_captureFree]

/-- **A relation keeps its meaning exactly if nothing can be captured.** -/
theorem relation_hygienic_iff {definitions : List MacroDefinition} (parameters : List String)
    {relation relation' : Relation String} {depth : Nat}
    (h : relation.walk (macroExpander definitions) depth = .ok relation') :
    relation'.rewrite (reading parameters) depth =
        relation.rewrite (hygienicExpander (definitions.map MacroDefinition.resolve) parameters)
          depth ↔
      CaptureFree parameters ((relation.rewrite
        (hygienicExpander (definitions.map MacroDefinition.resolve) parameters) depth).identifiers
          depth) := by
  rw [Relation.walk_follows (macroExpander_follows definitions) depth relation h,
    ← Relation.rewrite_rewrite (fuses_expander definitions parameters) depth relation,
    Relation.rewrite_rewrite (fuses_reading parameters) depth, Relation.rename_eq_self,
    kept_iff_captureFree]

/-! ### Programs -/

theorem templatesFrom_starts (templates : List Template) (program : Program String) :
    templates <+: templatesFrom templates program := by
  induction program generalizing templates with
  | nil => exact List.prefix_refl _
  | cons statement program ih =>
      cases statement with
      | macroDefinition name parameters body => exact (List.prefix_append _ _).trans (ih _)
      | namedRelation name relation => exact ih _
      | query relation => exact ih _

/-- What `define` adds is the macro with the expanded body. -/
theorem defineMacro_eq_ok {definitions definitions' : List MacroDefinition} {name : String}
    {parameters : List String} {body : Ast.Expr String}
    (h : defineMacro definitions name parameters body = .ok definitions') :
    ∃ body', body.walk (macroExpander definitions) 0 = .ok body' ∧
      definitions' = definitions ++ [⟨name, parameters, body'⟩] := by
  obtain ⟨-, -, h⟩ := bind_eq_ok.mp h
  obtain ⟨-, -, h⟩ := bind_eq_ok.mp h
  obtain ⟨-, -, h⟩ := bind_eq_ok.mp h
  obtain ⟨-, -, h⟩ := bind_eq_ok.mp h
  obtain ⟨body', hbody, h⟩ := bind_eq_ok.mp h
  exact ⟨body', hbody, (Except.ok.inj h).symm⟩

theorem definitionsFrom_starts {definitions definitions' : List MacroDefinition}
    {program : Program String} (h : definitionsFrom definitions program = .ok definitions') :
    definitions <+: definitions' := by
  induction program generalizing definitions with
  | nil => exact Except.ok.inj h ▸ List.prefix_refl _
  | cons statement program ih =>
      cases statement with
      | macroDefinition name parameters body =>
          obtain ⟨definitions₁, hdefine, h⟩ := bind_eq_ok.mp h
          obtain ⟨body', -, rfl⟩ := defineMacro_eq_ok hdefine
          exact (List.prefix_append _ _).trans (ih h)
      | namedRelation name relation => exact ih h
      | query relation => exact ih h

/-- Behind a program that has been expanded, its macros have been defined. -/
theorem definitionsFrom_of_expandStatements {definitions : List MacroDefinition}
    {program expanded : Program String}
    (h : expandStatements definitions program = .ok expanded) :
    ∃ definitions', definitionsFrom definitions program = .ok definitions' := by
  induction program generalizing definitions expanded with
  | nil => exact ⟨definitions, rfl⟩
  | cons statement program ih =>
      cases statement with
      | macroDefinition name parameters body =>
          obtain ⟨definitions₁, hdefine, h⟩ := bind_eq_ok.mp h
          obtain ⟨definitions', hdefinitions⟩ := ih h
          exact ⟨definitions', bind_eq_ok.mpr ⟨definitions₁, hdefine, hdefinitions⟩⟩
      | namedRelation name relation =>
          obtain ⟨relation', -, h⟩ := bind_eq_ok.mp h
          obtain ⟨expanded', h, -⟩ := bind_eq_ok.mp h
          exact ih h
      | query relation =>
          obtain ⟨relation', -, h⟩ := bind_eq_ok.mp h
          obtain ⟨expanded', h, -⟩ := bind_eq_ok.mp h
          exact ih h

/-- What a text stands for as it is written is nothing to capture. -/
theorem MacroDefinition.resolve_captureFree (definition : MacroDefinition) :
    definition.resolve.CaptureFree := by
  refine kept_iff_captureFree.mp ((Ast.Expr.rename_eq_self 0 _).mp ?_)
  exact Ast.Expr.rewrite_rewrite (fuses_rename _ _) 0 definition.body

/-- A macro that is defined behind macros that keep their meaning. -/
theorem resolve_eq_iff {definitions : List MacroDefinition} (name : String)
    (parameters : List String) {body body' : Ast.Expr String}
    (h : body.walk (macroExpander definitions) 0 = .ok body') :
    (MacroDefinition.mk name parameters body').resolve =
        ⟨name, parameters, body.rewrite
          (hygienicExpander (definitions.map MacroDefinition.resolve) parameters) 0⟩ ↔
      Template.CaptureFree ⟨name, parameters, body.rewrite
        (hygienicExpander (definitions.map MacroDefinition.resolve) parameters) 0⟩ := by
  rw [MacroDefinition.resolve, Template.mk.injEq, and_iff_right rfl, and_iff_right rfl]
  exact expr_hygienic_iff h

/-- Lists that continue two lists of one length are equal only if these are. -/
theorem eq_of_prefix_of_length_eq {α : Type} {xs ys zs : List α} (hx : xs <+: zs) (hy : ys <+: zs)
    (hlength : xs.length = ys.length) : xs = ys :=
  (List.prefix_of_prefix_length_le hx hy (Nat.le_of_eq hlength)).eq_of_length hlength

/-- The statements of a program behind macros that keep their meaning. -/
theorem hygienicFrom_iff {definitions definitions' : List MacroDefinition}
    {program expanded : Program String}
    (hdefinitions : definitionsFrom definitions program = .ok definitions')
    (hexpanded : expandStatements definitions program = .ok expanded) :
    (definitions'.map MacroDefinition.resolve =
          templatesFrom (definitions.map MacroDefinition.resolve) program ∧
        expanded.map resolveStatement =
          meaningFrom (definitions.map MacroDefinition.resolve) program) ↔
      (∀ template ∈ templatesFrom (definitions.map MacroDefinition.resolve) program,
          template.CaptureFree) ∧
        ∀ statement ∈ meaningFrom (definitions.map MacroDefinition.resolve) program,
          CaptureFree [] (statementReferences statement) := by
  induction program generalizing definitions expanded with
  | nil =>
      cases hdefinitions
      cases hexpanded
      refine iff_of_true ⟨rfl, rfl⟩ ⟨fun template htemplate => ?_, fun _ h => absurd h List.not_mem_nil⟩
      obtain ⟨definition, -, rfl⟩ := List.mem_map.mp htemplate
      exact definition.resolve_captureFree
  | cons statement program ih =>
      cases statement with
      | macroDefinition name parameters body =>
          obtain ⟨definitions₁, hdefine, hdefinitions⟩ := bind_eq_ok.mp hdefinitions
          obtain ⟨definitions₂, hdefine', hexpanded⟩ := bind_eq_ok.mp hexpanded
          cases hdefine.symm.trans hdefine'
          obtain ⟨body', hbody, rfl⟩ := defineMacro_eq_ok hdefine
          have hiff := resolve_eq_iff name parameters hbody
          have ih := ih hdefinitions hexpanded
          by_cases hsame : (MacroDefinition.mk name parameters body').resolve =
              ⟨name, parameters, body.rewrite
                (hygienicExpander (definitions.map MacroDefinition.resolve) parameters) 0⟩
          · rw [List.map_append, List.map_singleton, hsame] at ih
            exact ih
          · -- the macro has another meaning in both readings of the program
            refine iff_of_false (fun hboth => hsame ?_) (fun hfree => hsame (hiff.mpr ?_))
            · have hleft := (definitionsFrom_starts hdefinitions).map MacroDefinition.resolve
              rw [hboth.1] at hleft
              have heq := eq_of_prefix_of_length_eq hleft (templatesFrom_starts _ program) (by
                rw [List.length_map, List.length_append, List.length_append, List.length_map]
                rfl)
              rw [List.map_append] at heq
              exact (List.cons.inj (List.append_cancel_left heq)).1
            · refine hfree.1 _ ((templatesFrom_starts _ program).subset ?_)
              exact List.mem_append_right _ (List.mem_singleton.mpr rfl)
      | namedRelation name relation =>
          obtain ⟨relation', hrelation, hexpanded⟩ := bind_eq_ok.mp hexpanded
          obtain ⟨expanded', hexpanded', heq⟩ := bind_eq_ok.mp hexpanded
          cases heq
          have ih := ih hdefinitions hexpanded'
          have hiff := relation_hygienic_iff [] hrelation
          show (_ ∧ Statement.namedRelation name (relation'.rewrite (reading []) 1) :: _ =
            Statement.namedRelation name (relation.rewrite _ 1) :: _) ↔ _ ∧ ∀ s ∈ _ :: _, _
          rw [List.cons.injEq, Statement.namedRelation.injEq, and_iff_right rfl, hiff,
            List.forall_mem_cons, and_left_comm]
          exact (and_congr_right fun _ => ih).trans and_left_comm
      | query relation =>
          obtain ⟨relation', hrelation, hexpanded⟩ := bind_eq_ok.mp hexpanded
          obtain ⟨expanded', hexpanded', heq⟩ := bind_eq_ok.mp hexpanded
          cases heq
          have ih := ih hdefinitions hexpanded'
          have hiff := relation_hygienic_iff [] hrelation
          show (_ ∧ Statement.query (relation'.rewrite (reading []) 1) :: _ =
            Statement.query (relation.rewrite _ 1) :: _) ↔ _ ∧ ∀ s ∈ _ :: _, _
          rw [List.cons.injEq, Statement.query.injEq, hiff, List.forall_mem_cons, and_left_comm]
          exact (and_congr_right fun _ => ih).trans and_left_comm

/-- **The expansion of an accepted program captures nothing exactly if the program gives it nothing
to capture.** -/
theorem hygienic_iff_nothingToCapture [HashOrder] [Platform] (program : Program String) :
    ((∀ result, bind program = .ok result → Hygienic program) ↔
      ∀ result, bind program = .ok result → NothingToCapture program) := by
  refine forall₂_congr fun result h => ?_
  obtain ⟨expanded, hexpanded, -⟩ := bind_eq_ok.mp h
  obtain ⟨definitions, hdefinitions⟩ := definitionsFrom_of_expandStatements hexpanded
  have hiff := hygienicFrom_iff hdefinitions hexpanded
  constructor
  · intro hygienic
    exact hiff.mp (hygienic definitions expanded hdefinitions hexpanded)
  · intro hnothing definitions' expanded' hdefinitions' hexpanded'
    cases hdefinitions.symm.trans hdefinitions'
    cases hexpanded.symm.trans hexpanded'
    exact hiff.mpr hnothing

/-! ### A field that is captured -/

/-- `def m(a) = 'k' IN (SELECT key FROM 'f.log' WHERE key = a)` and
`SELECT m(uid) AS r FROM 'g.log'`. -/
def memberQuery : Program String :=
  [.macroDefinition "m" ["a"] (.inMatch (.literal ⟨.string, Bytes.ofString "'k'"⟩)
      (.select [.identifier "key"] (.file "f.log" none none) none
        (some (.binary .equal (.identifier "key") (.identifier "a"))) none none false none)),
    .query (.select [.expr "r" (.fnCall "m" [.identifier "uid"])] (.file "g.log" none none)
      none none none none false none)]

/-- **A field of the calling query that becomes one of the subquery.** The program is accepted, since
a file has any field. -/
theorem memberQuery_captures :
    (∃ result, @bind HashOrder.insertion Platform.inert memberQuery = .ok result) ∧
      ¬ Hygienic memberQuery := by
  have haccepted : (@bind HashOrder.insertion Platform.inert memberQuery).isOk = true := by
    decide +kernel
  cases hbind : @bind HashOrder.insertion Platform.inert memberQuery with
  | error fault =>
      rw [hbind] at haccepted
      cases haccepted
  | ok result =>
      refine ⟨⟨result, rfl⟩, fun hygienic => ?_⟩
      obtain ⟨expanded, hexpanded, -⟩ := bind_eq_ok.mp hbind
      obtain ⟨definitions, hdefinitions⟩ := definitionsFrom_of_expandStatements hexpanded
      obtain ⟨-, hfree⟩ := (hygienicFrom_iff hdefinitions hexpanded).mp
        (hygienic definitions expanded hdefinitions hexpanded)
      have hmoved : (2, (⟨1, "uid"⟩ : Reference)) ∈
          (meaningFrom [] memberQuery).flatMap statementReferences := by decide +kernel
      obtain ⟨statement, hstatement, hreference⟩ := List.mem_flatMap.mp hmoved
      cases hfree statement hstatement _ hreference

end Lsql.Front
