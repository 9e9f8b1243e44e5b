import Lsql.Front.LowerFits
import Lsql.Opt.Schemas
import Lsql.Opt.TopCounts

/-!
# Lsql.Front.Compile

From a parsed program to the one that is planned (`parseQuery` of `cli/lsql.cpp`, `optimize` of
`cli/run.h`).
-/

namespace Lsql.Front

open Lsql.Opt (OptimizerSettings ProgramTopCounted TopCounted)

section Compile

variable [HashOrder]

/-- The lowering makes no `TopK` at all. -/
theorem lowerProgram_topCounted {statements : List Bound.Statement} {bound : BindState}
    {program : Ir.Program} (h : Lower.lowerProgram statements bound = .ok program) :
    ProgramTopCounted program := by
  have hnone : ∀ q : Ir.Relation, Lower.NoTopK q → TopCounted q := by
    intro q hq
    cases q with
    | topK => exact absurd hq id
    | _ => trivial
  have hone : ∀ s, Lower.Keeps (Lower.lowerStatement s) fun s' =>
      (Opt.relationOf s').Everywhere TopCounted := by
    intro s
    cases s with
    | query r =>
        exact (Lower.lowerRelation_keeps r).bind fun r' hr' => .pure (hr'.mono hnone)
    | namedRelation name r =>
        exact (Lower.lowerRelation_keeps r).bind fun r' hr' =>
          (Lower.insert_keeps name r'.schema).bind fun _ _ => .pure (hr'.mono hnone)
  have hall : ∀ ss, Lower.Keeps (Lower.lowerStatements ss) fun ss' =>
      ∀ s ∈ ss', (Opt.relationOf s).Everywhere TopCounted := by
    intro ss
    induction ss with
    | nil => exact .pure fun s hs => absurd hs List.not_mem_nil
    | cons s ss ih =>
        exact (hone s).bind fun s' hs' => ih.bind fun ss' hss' =>
          .pure (List.forall_mem_cons.mpr ⟨hs', hss'⟩)
  obtain ⟨⟨lowered, s'⟩, hrun, hpure⟩ := bind_eq_ok.mp h
  cases hpure
  exact (hall statements _ _ _ (fun r hr => by cases hr) hrun).2

variable [Platform] [DescriptionHash]

/-- The program that is handed to the planner, with the number of passes that the configuration
names. -/
def compile (settings : OptimizerSettings) (passes : Nat) (program : Ast.Program String) :
    Except Fault Ir.Program := do
  let (statements, bound) ← bind program
  let program ← Lower.lowerProgram statements bound
  Opt.optimizeProgram settings passes program

/-- **No `TopK` of no rows is planned**, whatever the program and the number of passes. -/
theorem compile_topCounted {settings : OptimizerSettings} {passes : Nat}
    {program : Ast.Program String} {planned : Ir.Program}
    (h : compile settings passes program = .ok planned) : ProgramTopCounted planned := by
  obtain ⟨⟨statements, bound⟩, -, h⟩ := bind_eq_ok.mp h
  obtain ⟨lowered, hlowered, hoptimized⟩ := bind_eq_ok.mp h
  exact Opt.optimizeLoop_topCounted (fun _ => lowerProgram_topCounted hlowered) hoptimized

/-- **The optimizer keeps the columns of every statement**, whichever of the passes are run on a lowered
program, how often and in which order, and it leaves every schema the one that the sources of its node
give. -/
theorem optimized_columns {settings : OptimizerSettings} {statements : List Bound.Statement}
    {bound : BindState} {lowered optimized : Ir.Program}
    (hlower : Lower.lowerProgram statements bound = .ok lowered)
    (hpasses : Relation.ReflTransGen (Opt.PassStep settings) lowered optimized) :
    optimized.schemas = lowered.schemas ∧ optimized.Fits := by
  obtain ⟨hfits, hschemas⟩ := Opt.run_sameSchemas hpasses (Lower.lowerProgram_fits hlower)
  exact ⟨hschemas, hfits⟩

end Compile

/-- `SELECT x FROM 'a.log' ORDER BY x` with a limit. -/
def firstRows (limit : Int) : Ast.Statement String :=
  .query (.select [.identifier "x"] (.file "a.log" none none) (some limit) none none
    (some [.identifier "x"]) false none)

theorem compile_topCounted_firstRows :
    ∃ planned, @compile .insertion Platform.inert .constant {} 2 [firstRows 0, firstRows 3] =
        .ok planned ∧
      ProgramTopCounted planned := by
  have hok : (@compile .insertion Platform.inert .constant {} 2 [firstRows 0, firstRows 3]).isOk =
      true := by decide +kernel
  obtain ⟨planned, hplanned⟩ := exists_of_isOk hok
  exact ⟨planned, hplanned, @compile_topCounted .insertion Platform.inert .constant {} 2
    [firstRows 0, firstRows 3] planned hplanned⟩

/-- A program that has been bound and lowered. -/
def lowered [HashOrder] [Platform] (program : Ast.Program String) : Except Fault Ir.Program := do
  let (statements, bound) ← bind program
  Lower.lowerProgram statements bound

theorem limitPushdown_ne_relationSimplify :
    Opt.LimitPushdown.limitPushdown ≠ Opt.RelationSimplify.relationSimplify := by
  intro heq
  -- only one of them looks at a condition that is null
  have hsame := congrArg (fun pass => (pass (Opt.singleQuery Opt.nullCondition)).result.isOk) heq
  exact Bool.noConfusion (show true = false from hsame)

theorem optimized_columns_firstRows :
    ∃ program optimized, @lowered .insertion .inert [firstRows 3] = .ok program ∧
      (Opt.LimitPushdown.limitPushdown program).result = .ok optimized ∧
      optimized.schemas = program.schemas := by
  have hok : ((@lowered .insertion .inert [firstRows 3]).bind fun program =>
      (Opt.LimitPushdown.limitPushdown program).result).isOk = true := by decide +kernel
  obtain ⟨optimized, h⟩ := exists_of_isOk hok
  obtain ⟨program, hprogram, hoptimized⟩ := bind_eq_ok.mp h
  obtain ⟨⟨statements, bound⟩, -, hlower⟩ := bind_eq_ok.mp hprogram
  have hmem : Opt.LimitPushdown.limitPushdown ∈ @Opt.passes .inert .constant {} := by
    simp only [Opt.passes, List.mem_cons, true_or, or_true]
  have hstep : @Opt.PassStep .inert .constant {} program optimized :=
    @Opt.PassStep.step .inert .constant {} program optimized _ hmem
      (fun heq => absurd heq limitPushdown_ne_relationSimplify) hoptimized
  exact ⟨program, optimized, hprogram, hoptimized,
    (@optimized_columns .insertion .inert .constant {} statements bound program optimized hlower
      (.single hstep)).1⟩

end Lsql.Front
