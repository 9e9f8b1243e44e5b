import Lsql.Opt.Optimize

/-!
# Lsql.Opt.TopCounts

No `TopK` of no rows is left behind a round of the optimizer.

`limitPushdown` makes a `TopK` of a sort under a limit, whatever the limit is, and makes the counts of
others smaller. Which of the passes behind it see the result does not matter: `emptyRelationPrune` is
the last one, and it visits every relation of the program.
-/

namespace Lsql.Opt

open Ir

/-- A relation that is not a `TopK` with a `top_count` of 0. -/
def TopCounted : Relation → Prop
  | .topK _ _ _ topCount _ => topCount ≠ 0
  | _ => True

/-- No relation of a program is such a `TopK`. -/
def ProgramTopCounted (program : Program) : Prop :=
  ∀ s ∈ program.statements, (relationOf s).Everywhere TopCounted

/-! ### Traversals -/

section Traversal

variable {rule : Relation → Pass Relation} {P : Relation → Prop}

/-- What a rule makes of a node whose sources have the property all over has it all over, and so has
what a traversal makes of a relation. -/
theorem visit_makes
    (hrule : ∀ r r' b b', (∀ q ∈ r.sources, q.Everywhere P) → rule r b = .ok (r', b') →
      r'.Everywhere P)
    {r r' : Relation} {b b' : Bool} (h : visit rule r b = .ok (r', b')) : r'.Everywhere P := by
  induction r using Relation.induction generalizing r' b b' with
  | h r ih =>
      have hall : ∀ {qs qs' : List Relation} {b b' : Bool}, (∀ q ∈ qs, q ∈ r.sources) →
          visitAll rule qs b = .ok (qs', b') →
          qs'.length = qs.length ∧ ∀ q ∈ qs', q.Everywhere P := by
        intro qs
        induction qs with
        | nil =>
            intro qs' b b' _ hvisit
            cases hvisit
            exact ⟨rfl, fun q hq => absurd hq List.not_mem_nil⟩
        | cons q qs ihqs =>
            intro qs' b b' hmem hvisit
            rw [visitAll] at hvisit
            obtain ⟨q', b₁, hq', hvisit⟩ := Pass.bind_ok.mp hvisit
            obtain ⟨rest, b₂, hrest, hvisit⟩ := Pass.bind_ok.mp hvisit
            obtain ⟨rfl, -⟩ := Pass.pure_ok.mp hvisit
            obtain ⟨hlength, hrest⟩ :=
              ihqs (fun p hp => hmem p (List.mem_cons_of_mem _ hp)) hrest
            refine ⟨congrArg Nat.succ hlength, List.forall_mem_cons.mpr ⟨?_, hrest⟩⟩
            exact ih q (hmem q List.mem_cons_self) hq'
      rw [visit_eq] at h
      obtain ⟨qs, b₁, hqs, hr⟩ := Pass.bind_ok.mp h
      obtain ⟨hlength, hqs⟩ := hall (fun _ hq => hq) hqs
      refine hrule _ _ _ _ ?_ hr
      rw [Relation.sources_withSources hlength]
      exact hqs

theorem visitProgram_makes
    (hrule : ∀ r r' b b', (∀ q ∈ r.sources, q.Everywhere P) → rule r b = .ok (r', b') →
      r'.Everywhere P)
    {program program' : Program} {b b' : Bool}
    (h : visitProgram rule program b = .ok (program', b')) :
    ∀ s ∈ program'.statements, (relationOf s).Everywhere P := by
  have hstatements : ∀ {ss ss' : List Statement} {b b' : Bool},
      visitStatements rule ss b = .ok (ss', b') → ∀ s ∈ ss', (relationOf s).Everywhere P := by
    intro ss
    induction ss with
    | nil =>
        intro ss' b b' hvisit
        cases hvisit
        exact fun s hs => absurd hs List.not_mem_nil
    | cons s ss ih =>
        intro ss' b b' hvisit
        rw [visitStatements] at hvisit
        obtain ⟨s', b₁, hs', hvisit⟩ := Pass.bind_ok.mp hvisit
        obtain ⟨rest, b₂, hrest, hvisit⟩ := Pass.bind_ok.mp hvisit
        obtain ⟨rfl, -⟩ := Pass.pure_ok.mp hvisit
        refine List.forall_mem_cons.mpr ⟨?_, ih hrest⟩
        cases s with
        | namedRelation name r =>
            obtain ⟨r', b₃, hr', hpure⟩ := Pass.bind_ok.mp hs'
            obtain ⟨rfl, -⟩ := Pass.pure_ok.mp hpure
            exact visit_makes hrule hr'
        | query r =>
            obtain ⟨r', b₃, hr', hpure⟩ := Pass.bind_ok.mp hs'
            obtain ⟨rfl, -⟩ := Pass.pure_ok.mp hpure
            exact visit_makes hrule hr'
  obtain ⟨ss', b₁, hss', hpure⟩ := Pass.bind_ok.mp h
  obtain ⟨rfl, -⟩ := Pass.pure_ok.mp hpure
  exact hstatements hss'

end Traversal

/-! ### The last pass of a round -/

section Prune

open EmptyRelationPrune

variable {r r' : Relation} {b b' : Bool}

theorem makeEmpty_topCounted {self : Relation} (h : makeEmpty self b = .ok (r', b')) :
    r'.Everywhere TopCounted := by
  cases h
  exact .node trivial fun q hq => absurd hq List.not_mem_nil

/-- A relation becomes empty, or stays if it is none that becomes empty. -/
theorem emptyIf_topCounted {c : Prop} [Decidable c] (self : Relation)
    (hself : ¬ c → self.Everywhere TopCounted)
    (h : (if c then makeEmpty self else pure self) b = .ok (r', b')) :
    r'.Everywhere TopCounted := by
  split at h
  · exact makeEmpty_topCounted h
  · cases h
    exact hself ‹_›

theorem pruneUnionAll_topCounted {sources : List Relation} {s : Schema}
    (hsources : ∀ q ∈ sources, q.Everywhere TopCounted)
    (h : pruneUnionAll sources s b = .ok (r', b')) : r'.Everywhere TopCounted := by
  have hkept : ∀ q ∈ sources.filter (fun r => !isEmpty r), q.Everywhere TopCounted :=
    fun q hq => hsources q (List.mem_of_mem_filter hq)
  unfold pruneUnionAll at h
  generalize sources.filter (fun r => !isEmpty r) = kept at h hkept
  rcases kept with _ | ⟨source, _ | ⟨next, rest⟩⟩
  · exact makeEmpty_topCounted h
  · cases h
    exact hkept _ List.mem_cons_self
  · simp only at h
    split at h
    · cases h
      exact .node trivial hkept
    · cases h
      exact .node trivial hkept

theorem pruneUnionAllSortedBy_topCounted {left right self : Relation}
    (hleft : left.Everywhere TopCounted) (hright : right.Everywhere TopCounted)
    (hself : self.Everywhere TopCounted)
    (h : pruneUnionAllSortedBy left right self b = .ok (r', b')) : r'.Everywhere TopCounted := by
  unfold pruneUnionAllSortedBy at h
  split at h
  · exact makeEmpty_topCounted h
  · split at h
    · cases h
      exact hright
    · split at h
      · cases h
        exact hleft
      · cases h
        exact hself

theorem prune_topCounted (hsources : ∀ q ∈ r.sources, q.Everywhere TopCounted)
    (h : EmptyRelationPrune.rule r b = .ok (r', b')) : r'.Everywhere TopCounted := by
  have hsimple : ∀ {source : Relation}, r.Everywhere TopCounted →
      pruneSimple source r b = .ok (r', b') → r'.Everywhere TopCounted := by
    intro source hself h
    unfold pruneSimple at h
    split at h
    · cases h
      exact hself
    · exact makeEmpty_topCounted h
  cases r with
  | projection r ps s => exact hsimple (.node trivial hsources) h
  | group r as ks s => exact hsimple (.node trivial hsources) h
  | filter r c s => exact hsimple (.node trivial hsources) h
  | sort r ks desc s => exact hsimple (.node trivial hsources) h
  | materialize r s => exact hsimple (.node trivial hsources) h
  | unionAll rs s => exact pruneUnionAll_topCounted hsources h
  | unionAllSortedBy left right ks desc s =>
      have hself : (Relation.unionAllSortedBy left right ks desc s).Everywhere TopCounted :=
        .node trivial hsources
      exact pruneUnionAllSortedBy_topCounted (hsources left List.mem_cons_self)
        (hsources right (List.mem_cons_of_mem _ List.mem_cons_self)) hself h
  | topK r ks desc n s =>
      refine emptyIf_topCounted (.topK r ks desc n s) (fun hcond => .node ?_ hsources) h
      -- a count of 0 has been taken for an empty relation
      intro hzero
      rw [hzero] at hcond
      exact hcond (Bool.or_true _)
  | limit r n s => exact emptyIf_topCounted (.limit r n s) (fun _ => .node trivial hsources) h
  | semiJoin r m e f s =>
      exact emptyIf_topCounted (.semiJoin r m e f s) (fun _ => .node trivial hsources) h
  | leftJoin l r lk rk s =>
      exact emptyIf_topCounted (.leftJoin l r lk rk s) (fun _ => .node trivial hsources) h
  | markJoin r m e o f s =>
      exact emptyIf_topCounted (.markJoin r m e o f s) (fun _ => .node trivial hsources) h
  | empty | values | aggregate | file | stream | namedRelationReference =>
      cases h
      exact .node trivial hsources

end Prune

/-! ### Rounds -/

/-- The last one of a number of passes has made the result. -/
theorem runInTurn_last {ps : List (Program → Pass Program)} {last : Program → Pass Program}
    {program program' : Program} {b b' : Bool}
    (h : runInTurn (ps ++ [last]) program b = .ok (program', b')) :
    ∃ before b₁, last before b₁ = .ok (program', b') := by
  induction ps generalizing program b with
  | nil =>
      obtain ⟨made, b₁, hlast, hpure⟩ := Pass.bind_ok.mp h
      obtain ⟨rfl, rfl⟩ := Pass.pure_ok.mp hpure
      exact ⟨program, b, hlast⟩
  | cons pass ps ih =>
      obtain ⟨made, b₁, -, hrest⟩ := Pass.bind_ok.mp h
      exact ih hrest

section Rounds

variable [Platform] [DescriptionHash] {settings : OptimizerSettings} {program program' : Program}

/-- A round leaves no `TopK` of no rows, whatever it has been given. -/
theorem optimize_topCounted {b b' : Bool}
    (h : optimize settings program b = .ok (program', b')) : ProgramTopCounted program' := by
  have hlast : passes settings =
      (passes settings).dropLast ++ [EmptyRelationPrune.emptyRelationPrune] := rfl
  rw [optimize_eq, hlast] at h
  obtain ⟨_, b₁, -, hrun⟩ := Pass.bind_ok.mp h
  obtain ⟨before, b₂, hprune⟩ := runInTurn_last hrun
  exact visitProgram_makes (fun _ _ _ _ => prune_topCounted) hprune

/-- The loop leaves none if a round has been run, and otherwise none that was not there before. -/
theorem optimizeLoop_topCounted {n : Nat} {b : Bool} (hstart : n = 0 → ProgramTopCounted program)
    (h : optimizeLoop settings n program b = .ok program') : ProgramTopCounted program' := by
  induction n generalizing program b with
  | zero =>
      cases h
      exact hstart rfl
  | succ n ih =>
      rw [optimizeLoop] at h
      obtain ⟨⟨next, changes⟩, hround, h⟩ := bind_eq_ok.mp h
      have hnext := optimize_topCounted hround
      cases changes with
      | false =>
          cases h
          exact hnext
      | true => exact ih (fun _ => hnext) h

end Rounds

end Lsql.Opt
