import Lsql.Opt.EmptyRelationPrune
import Lsql.Opt.RelationSimplify

/-!
# Lsql.Opt.RelationPasses

`relationSimplify` and `emptyRelationPrune` in any order and any number of rounds: the rows stay what
they are, as long as the simplification meets no constant condition that is not a Boolean.
-/

namespace Lsql.Opt

open Ir
open RelationSimplify (BooleanConstant)

/-- The passes that drop relations. -/
inductive RelationPass
  | relationSimplify
  | emptyRelationPrune
  deriving DecidableEq, Repr

/-- One pass over a program. -/
def RelationPass.run : RelationPass → Program → Pass Program
  | relationSimplify => RelationSimplify.relationSimplify
  | emptyRelationPrune => EmptyRelationPrune.emptyRelationPrune

/-- Passes, one after the other. -/
def runPasses : List RelationPass → Program → Except Fault Program
  | [], program => pure program
  | pass :: passes, program => do
    let program ← (pass.run program).result
    runPasses passes program

/-- Every filter of a program with a constant condition has a Boolean for it. -/
def ConstantsBoolean (program : Program) : Prop :=
  ∀ s ∈ program.statements, (relationOf s).Everywhere BooleanConstant

/-- `ConstantsBoolean` whenever the program is simplified. -/
def ConstantsStayBoolean : List RelationPass → Program → Prop
  | [], _ => True
  | pass :: passes, program =>
    (pass = .relationSimplify → ConstantsBoolean program) ∧
      ∀ program', (pass.run program).result = .ok program' → ConstantsStayBoolean passes program'

/-- What holds of every node that a rule completes for holds all over a program that it completes
for. -/
theorem visitStatements_everywhere {rule : Relation → Pass Relation} {P : Relation → Prop}
    (hvisit : ∀ {r r' : Relation} {b b' : Bool}, visit rule r b = .ok (r', b') → r.Everywhere P)
    {ss ss' : List Statement} {b b' : Bool} (h : visitStatements rule ss b = .ok (ss', b')) :
    ∀ s ∈ ss, (relationOf s).Everywhere P := by
  induction ss generalizing ss' b b' with
  | nil => exact fun s hs => absurd hs List.not_mem_nil
  | cons s ss ih =>
      rw [visitStatements] at h
      obtain ⟨s', b₁, hs', hrest⟩ := Pass.bind_ok.mp h
      obtain ⟨rest, b₂, hrest, -⟩ := Pass.bind_ok.mp hrest
      intro t ht
      rcases List.mem_cons.mp ht with rfl | ht
      · cases t with
        | namedRelation name r =>
            obtain ⟨r', b₃, hr', -⟩ := Pass.bind_ok.mp hs'
            exact hvisit hr'
        | query r =>
            obtain ⟨r', b₃, hr', -⟩ := Pass.bind_ok.mp hs'
            exact hvisit hr'
      · exact ih hrest t ht

/-- A simplification that completes has met Booleans only. -/
theorem relationSimplify_boolean {program program' : Program}
    (h : (RelationPass.relationSimplify.run program).result = .ok program') :
    ConstantsBoolean program := by
  obtain ⟨b, h⟩ := Pass.result_ok.mp h
  obtain ⟨ss', b', hss', -⟩ := Pass.bind_ok.mp h
  exact visitStatements_everywhere RelationSimplify.visit_boolean hss'

section Rows

variable [Platform]

theorem run_sameRows (pass : RelationPass) {program : Program} (h : program.WellFormed)
    (hconstants : pass = .relationSimplify → ConstantsBoolean program) :
    ∃ program', (pass.run program).result = .ok program' ∧ program'.WellFormed ∧
      ∀ data, List.Forall₂ SameRows (program.queries data) (program'.queries data) := by
  cases pass with
  | relationSimplify =>
      obtain ⟨program', b', hrun, hwf, hrows⟩ := visitProgram_rewrites
        (fun named r hr hC => RelationSimplify.visit_rewrites hr hC) h (hconstants rfl) false
      exact ⟨program', Pass.result_ok.mpr ⟨b', hrun⟩, hwf, hrows⟩
  | emptyRelationPrune =>
      obtain ⟨program', b', hrun, hwf, hrows⟩ := @visitProgram_rewrites _ _ (fun _ => True)
        (fun named r hr _ => EmptyRelationPrune.visit_rewrites hr) program h
        (fun _ _ => trivial) false
      exact ⟨program', Pass.result_ok.mpr ⟨b', hrun⟩, hwf, hrows⟩

theorem runPasses_rewrites (passes : List RelationPass) {program : Program}
    (h : program.WellFormed) (hconstants : ConstantsStayBoolean passes program) :
    ∃ program', runPasses passes program = .ok program' ∧
      ∀ data, List.Forall₂ SameRows (program.queries data) (program'.queries data) := by
  induction passes generalizing program with
  | nil => exact ⟨program, rfl, fun data => sameRows_refl h data⟩
  | cons pass passes ih =>
      obtain ⟨program₁, hrun, hwf, hrows⟩ := run_sameRows pass h hconstants.1
      obtain ⟨program', hruns, hrows'⟩ := ih hwf (hconstants.2 program₁ hrun)
      refine ⟨program', ?_, fun data => sameRows_trans (hrows data) (hrows' data)⟩
      rw [runPasses, hrun, ok_bind]
      exact hruns

omit [Platform] in
/-- Passes that complete have met Booleans only. -/
theorem runPasses_boolean (passes : List RelationPass) {program program' : Program}
    (h : runPasses passes program = .ok program') : ConstantsStayBoolean passes program := by
  induction passes generalizing program with
  | nil => trivial
  | cons pass passes ih =>
      obtain ⟨program₁, hrun, hruns⟩ := bind_eq_ok.mp h
      refine ⟨fun hpass => ?_, fun program₂ hrun₂ => ?_⟩
      · subst hpass
        exact relationSimplify_boolean hrun
      · rw [hrun] at hrun₂
        cases hrun₂
        exact ih hruns

/-- **Rows are kept.** Any passes in any order complete, and each query puts out rows that it may
have put out before, in that order and with the same values in its columns, exactly if no
simplification meets a constant condition that is not a Boolean. -/
theorem runPasses_sameRows (passes : List RelationPass) {program : Program}
    (h : program.WellFormed) :
    (∃ program', runPasses passes program = .ok program' ∧
      ∀ data, List.Forall₂ SameRows (program.queries data) (program'.queries data)) ↔
    ConstantsStayBoolean passes program := by
  constructor
  · rintro ⟨program', hruns, -⟩
    exact runPasses_boolean passes hruns
  · exact runPasses_rewrites passes h

end Rows

/-- A column. -/
def oneColumn : Schema := .withField 1

/-- The records of a log. -/
def log : Relation := .file "a.log" none none oneColumn

/-- A program with one query. -/
def singleQuery (r : Relation) : Program where
  statements := [.query r]
  fieldBinding := ⟨[("uid", .string)]⟩

/-- A union in a union, with an empty source, behind a condition that is true. -/
def unions : Relation :=
  .filter (.unionAll [.unionAll [log, .empty oneColumn] oneColumn, log] oneColumn)
    (.value (.boolean true) .boolean) oneColumn

theorem log_everywhere {P : Relation → Prop} (h : P log) : log.Everywhere P :=
  .node h (by simp [log, Relation.sources])

theorem unions_everywhere {P : Relation → Prop} (hfilter : P unions)
    (hunion : P (.unionAll [.unionAll [log, .empty oneColumn] oneColumn, log] oneColumn))
    (hnested : P (.unionAll [log, .empty oneColumn] oneColumn)) (hlog : P log)
    (hempty : P (.empty oneColumn)) : unions.Everywhere P := by
  have hlog := log_everywhere hlog
  have hempty : (Relation.empty oneColumn).Everywhere P :=
    .node hempty (by simp [Relation.sources])
  have hnested : (Relation.unionAll [log, .empty oneColumn] oneColumn).Everywhere P :=
    .node hnested (by simp [Relation.sources, hlog, hempty])
  have hunion : (Relation.unionAll [.unionAll [log, .empty oneColumn] oneColumn, log]
      oneColumn).Everywhere P := .node hunion (by simp [Relation.sources, hlog, hnested])
  exact .node hfilter (by simp [unions, Relation.sources, hunion])

theorem unions_wellFormed : (singleQuery unions).WellFormed := by
  refine ⟨unions_everywhere ⟨List.Subset.refl _, ?_⟩ ⟨List.cons_ne_nil _ _, ?_⟩
    ⟨List.cons_ne_nil _ _, ?_⟩ trivial trivial, trivial⟩
  · exact fun id hid => absurd hid List.not_mem_nil
  · simp [Relation.schema, log]
  · simp [Relation.schema, log]

theorem runPasses_sameRows_unions :
    ∃ program', runPasses [.relationSimplify, .emptyRelationPrune] (singleQuery unions) =
        .ok program' ∧
      ∀ data, List.Forall₂ (@SameRows Platform.inert)
        (@Program.queries Platform.inert data (singleQuery unions))
        (@Program.queries Platform.inert data program') := by
  refine (@runPasses_sameRows Platform.inert _ (singleQuery unions) unions_wellFormed).mpr
    ⟨fun _ s hs => ?_, fun p hp => ⟨fun h => ?_, fun _ _ => trivial⟩⟩
  · rw [List.mem_singleton.mp hs]
    exact unions_everywhere ⟨true, rfl⟩ trivial trivial trivial trivial
  · cases h

/-! ### A constant that is null -/

/-- A condition that is null. -/
def nullCondition : Relation := .filter log (.value .null .boolean) oneColumn

/-- No input has a record. -/
def noRecords : Data where
  file _ _ _ _ := []
  stream _ _ := []

/-- Without records there is nothing that a null condition is asked of, and nothing comes out; the
simplification fails. -/
theorem nullCondition_fails :
    (singleQuery nullCondition).WellFormed ∧
      (∀ q ∈ @Program.queries Platform.inert noRecords (singleQuery nullCondition),
        ∀ u, @Emits Platform.inert q.1 q.2 u ↔ u = []) ∧
      ¬ ∃ program', runPasses [.relationSimplify] (singleQuery nullCondition) = .ok program' := by
  refine ⟨⟨?_, trivial⟩, fun q hq u => ?_, ?_⟩
  · refine .node ⟨List.Subset.refl _, fun id hid => absurd hid List.not_mem_nil⟩ ?_
    simpa [nullCondition, Relation.sources] using log_everywhere trivial
  · rw [List.mem_singleton.mp hq]
    refine (@emits_filter Platform.inert _ _ _ _ _).trans ?_
    constructor
    · rintro ⟨v, hv, rfl⟩
      rw [(@emits_none Platform.inert _ log _ rfl).mp hv]
      rfl
    · rintro rfl
      exact ⟨[], (@emits_none Platform.inert _ log _ rfl).mpr rfl, rfl⟩
  · rintro ⟨program', h⟩
    cases h

end Lsql.Opt
