import Lsql.Ir.Refinement
import Lsql.Opt.Pass

/-!
# Lsql.Opt.Traversal

What the passes over relations share (`util/TreeWalker.h`): the sources of a relation are rewritten
first, then a rule rewrites the relation itself. What a rule promises of one node is what the pass
promises of a relation (`visit_spec`) and of a program.
-/

namespace Lsql.Opt

open Ir

mutual

/-- `visit(ir::Relation&)`: `Base::visit`, then the rule. -/
def visit (rule : Relation → Pass Relation) : Relation → Pass Relation
  | .empty s => rule (.empty s)
  | .values vs id s => rule (.values vs id s)
  | .projection r ps s => do
    let r ← visit rule r
    rule (.projection r ps s)
  | .aggregate r as s => do
    let r ← visit rule r
    rule (.aggregate r as s)
  | .group r as ks s => do
    let r ← visit rule r
    rule (.group r as ks s)
  | .limit r n s => do
    let r ← visit rule r
    rule (.limit r n s)
  | .filter r c s => do
    let r ← visit rule r
    rule (.filter r c s)
  | .sort r ks desc s => do
    let r ← visit rule r
    rule (.sort r ks desc s)
  | .topK r ks desc n s => do
    let r ← visit rule r
    rule (.topK r ks desc n s)
  | .semiJoin r m e f s => do
    let r ← visit rule r
    let m ← visit rule m
    rule (.semiJoin r m e f s)
  | .markJoin r m e o f s => do
    let r ← visit rule r
    let m ← visit rule m
    rule (.markJoin r m e o f s)
  | .leftJoin l r lk rk s => do
    let l ← visit rule l
    let r ← visit rule r
    rule (.leftJoin l r lk rk s)
  | .unionAll rs s => do
    let rs ← visitAll rule rs
    rule (.unionAll rs s)
  | .unionAllSortedBy l r ks desc s => do
    let l ← visit rule l
    let r ← visit rule r
    rule (.unionAllSortedBy l r ks desc s)
  | .file path range format s => rule (.file path range format s)
  | .stream command s => rule (.stream command s)
  | .namedRelationReference name s => rule (.namedRelationReference name s)
  | .materialize r s => do
    let r ← visit rule r
    rule (.materialize r s)

def visitAll (rule : Relation → Pass Relation) : List Relation → Pass (List Relation)
  | [] => pure []
  | r :: rs => do
    let r ← visit rule r
    let rs ← visitAll rule rs
    pure (r :: rs)

end

/-- The traversal, in one equation for all operators. -/
theorem visit_eq (rule : Relation → Pass Relation) (r : Relation) :
    visit rule r = (visitAll rule r.sources >>= fun qs => rule (r.withSources qs)) := by
  cases r <;> simp [visit, visitAll, Relation.sources, Relation.withSources]

section Spec

variable {rule : Relation → Pass Relation} {Pre Loc : Relation → Prop}
  {Q : Relation → Relation → Prop}

theorem visitAll_ok {qs : List Relation}
    (h : ∀ q ∈ qs, ∀ b, ∃ q' b', visit rule q b = .ok (q', b') ∧ Q q q') (b : Bool) :
    ∃ qs' b', visitAll rule qs b = .ok (qs', b') ∧ List.Forall₂ Q qs qs' := by
  induction qs generalizing b with
  | nil => exact ⟨[], b, rfl, .nil⟩
  | cons q qs ih =>
      obtain ⟨q', b₁, hq, hqq⟩ := h q List.mem_cons_self b
      obtain ⟨qs', b₂, hqs, hall⟩ := ih (fun p hp => h p (List.mem_cons_of_mem _ hp)) b₁
      refine ⟨q' :: qs', b₂, ?_, .cons hqq hall⟩
      rw [visitAll]
      exact Pass.bind_ok.mpr ⟨q', b₁, hq, Pass.bind_ok.mpr ⟨qs', b₂, hqs, rfl⟩⟩

/-- **What a traversal does.** `Pre` is what is known of a relation before, `Loc` what the rule needs
to know of a node whose sources have been rewritten. -/
theorem visit_spec
    (hsource : ∀ r, Pre r → ∀ q ∈ r.sources, Pre q)
    (hnode : ∀ r qs, Pre r → List.Forall₂ Q r.sources qs →
      Loc (r.withSources qs) ∧ Q r (r.withSources qs))
    (hrule : ∀ r, Loc r → ∀ b, ∃ r' b', rule r b = .ok (r', b') ∧ Q r r')
    (htrans : ∀ r r' r'', Q r r' → Q r' r'' → Q r r'')
    {r : Relation} (h : Pre r) : ∀ b, ∃ r' b', visit rule r b = .ok (r', b') ∧ Q r r' := by
  induction r using Relation.induction with
  | h r ih =>
      intro b
      obtain ⟨qs, b₁, hqs, hall⟩ := visitAll_ok (fun q hq => ih q hq (hsource r h q hq)) b
      obtain ⟨hloc, hq⟩ := hnode r qs h hall
      obtain ⟨r', b', hr', hq'⟩ := hrule _ hloc b₁
      refine ⟨r', b', ?_, htrans _ _ _ hq hq'⟩
      rw [visit_eq]
      exact Pass.bind_ok.mpr ⟨qs, b₁, hqs, hr'⟩

/-- A traversal that completes has applied the rule to every node. -/
theorem visit_everywhere {P : Relation → Prop}
    (hrule : ∀ r r' b b', rule r b = .ok (r', b') → P r)
    (hsources : ∀ r qs, P (r.withSources qs) → P r)
    {r r' : Relation} {b b' : Bool} (h : visit rule r b = .ok (r', b')) : r.Everywhere P := by
  have hall : ∀ {qs qs' : List Relation} {b b' : Bool},
      (∀ q ∈ qs, ∀ {q' : Relation} {b b' : Bool}, visit rule q b = .ok (q', b') →
        q.Everywhere P) →
      visitAll rule qs b = .ok (qs', b') → ∀ q ∈ qs, q.Everywhere P := by
    intro qs
    induction qs with
    | nil => exact fun _ _ q hq => absurd hq List.not_mem_nil
    | cons p qs ihqs =>
        intro qs' b b' ih hvisit q hq
        rw [visitAll] at hvisit
        obtain ⟨p', b₁, hp, hrest⟩ := Pass.bind_ok.mp hvisit
        obtain ⟨rest, b₂, hrest, -⟩ := Pass.bind_ok.mp hrest
        rcases List.mem_cons.mp hq with rfl | hq
        · exact ih _ List.mem_cons_self hp
        · exact ihqs (fun p hp => ih p (List.mem_cons_of_mem _ hp)) hrest q hq
  induction r using Relation.induction generalizing r' b b' with
  | h r ih =>
      rw [visit_eq] at h
      obtain ⟨qs, b₁, hqs, hr⟩ := Pass.bind_ok.mp h
      exact .node (hsources r qs (hrule _ _ _ _ hr)) (hall (fun q hq => ih q hq) hqs)

end Spec

/-! ### Rewrites -/

/-- A relation that is well-formed and may stand for another. -/
def Rewrites [Platform] (named : String → Option Schema) (r r' : Relation) : Prop :=
  r'.WellFormed named ∧
    ∀ env env' : Env, env'.Total named → env.Refines named env' → Refines env env' r r'

namespace Rewrites

variable [Platform] {named : String → Option Schema} {r r' r'' : Relation}

theorem trans (h : Rewrites named r r') (h' : Rewrites named r' r'') : Rewrites named r r'' :=
  ⟨h'.1, fun env env' htotal henv =>
    (h.2 env env' htotal henv).trans (h'.2 env' env' htotal (.refl named env'))⟩

/-- What is shown in one environment. -/
theorem of_refines (hwf : r.WellFormed named) (hwf' : r'.WellFormed named)
    (h : ∀ env : Env, env.Total named → Refines env env r r') : Rewrites named r r' :=
  ⟨hwf', fun _ env' htotal henv => (Refines.refl henv hwf).trans (h env' htotal)⟩

theorem refl (h : r.WellFormed named) : Rewrites named r r :=
  ⟨h, fun _ _ _ henv => .refl henv h⟩

/-- The sources of a relation, rewritten. -/
theorem node (h : r.WellFormed named) {qs : List Relation}
    (hqs : List.Forall₂ (Rewrites named) r.sources qs) :
    Rewrites named r (r.withSources qs) := by
  have hlength := hqs.length_eq.symm
  refine ⟨.node ?_ ?_, fun env env' htotal henv =>
    .node henv h.here (hqs.imp fun q q' hq => hq.2 env env' htotal henv)⟩
  · -- the columns of the new sources do not depend on the data
    let data : Data := { file := fun _ _ _ _ => [], stream := fun _ _ => [] }
    let env : Env := { data with named := fun _ _ => True }
    have htotal : env.Total named := fun _ _ _ => ⟨[], trivial⟩
    refine h.here.withSources (hqs.imp fun q q' hq => ?_)
    have hrefines := hq.2 env env htotal (.refl named env)
    exact ⟨hrefines.schema, hrefines.exposed⟩
  · rw [Relation.sources_withSources hlength]
    intro q' hq'
    obtain ⟨q, -, hq⟩ := forall₂_mem_right hqs hq'
    exact hq.1

/-- A relation that may put out nothing, or a failure at once. -/
theorem empty (h : r.WellFormed named)
    (hemits : ∀ env : Env, env.Total named →
      ∃ u, Emits env r u ∧ Flow.Approx (AgreeOn r.schema) u ([] : List Item)) :
    Rewrites named r (.empty r.schema) := by
  refine .of_refines h (.node trivial fun q hq => absurd hq List.not_mem_nil) fun env htotal =>
    ⟨List.Subset.refl _, fun id hid => Relation.mem_exposed_of_schema hid, fun u hu => ?_⟩
  rw [emits_empty.mp hu]
  exact hemits env htotal

end Rewrites

/-- A traversal with a rule that rewrites every well-formed node of which `P` holds. -/
theorem visit_rewrites [Platform] {rule : Relation → Pass Relation}
    {named : String → Option Schema} {P : Relation → Prop}
    (hP : ∀ r qs, P r → P (r.withSources qs))
    (hrule : ∀ r, r.WellFormed named → P r → ∀ b, ∃ r' b', rule r b = .ok (r', b') ∧
      Rewrites named r r')
    {r : Relation} (h : r.WellFormed named) (hr : r.Everywhere P) :
    ∀ b, ∃ r' b', visit rule r b = .ok (r', b') ∧ Rewrites named r r' := by
  refine @visit_spec rule (fun r => r.WellFormed named ∧ r.Everywhere P)
    (fun r => r.WellFormed named ∧ P r) (Rewrites named) ?_ ?_ ?_ ?_ r ⟨h, hr⟩
  · exact fun r hr q hq => ⟨hr.1.source hq, hr.2.source hq⟩
  · intro r qs hr hqs
    have hnode := Rewrites.node hr.1 hqs
    exact ⟨⟨hnode.1, hP r qs hr.2.here⟩, hnode⟩
  · exact fun r hr => hrule r hr.1 hr.2
  · exact fun r r' r'' => Rewrites.trans

/-! ### Programs -/

/-- The relation of a statement. -/
def relationOf : Statement → Relation
  | .namedRelation _ r => r
  | .query r => r

/-- A statement, through its relation. -/
def visitStatement (rule : Relation → Pass Relation) : Statement → Pass Statement
  | .namedRelation name r => do
    let r ← visit rule r
    pure (.namedRelation name r)
  | .query r => do
    let r ← visit rule r
    pure (.query r)

/-- The loop over the statements. -/
def visitStatements (rule : Relation → Pass Relation) : List Statement → Pass (List Statement)
  | [] => pure []
  | s :: ss => do
    let s ← visitStatement rule s
    let ss ← visitStatements rule ss
    pure (s :: ss)

/-- A pass over a program. -/
def visitProgram (rule : Relation → Pass Relation) (program : Program) : Pass Program := do
  let statements ← visitStatements rule program.statements
  pure { program with statements }

theorem visitProgram_ok {rule : Relation → Pass Relation} {program : Program}
    {statements : List Statement} {b b' : Bool}
    (h : visitStatements rule program.statements b = .ok (statements, b')) :
    visitProgram rule program b = .ok ({ program with statements }, b') :=
  Pass.bind_ok.mpr ⟨statements, b', h, rfl⟩

section Rewritten

variable [Platform]

/-- Queries that may stand for each other, and put something out. -/
def SameRows (q q' : Env × Relation) : Prop :=
  Refines q.1 q'.1 q.2 q'.2 ∧ ∃ u', Emits q'.1 q'.2 u'

theorem SameRows.trans {q q' q'' : Env × Relation} (h : SameRows q q') (h' : SameRows q' q'') :
    SameRows q q'' := ⟨h.1.trans h'.1, h'.2⟩

theorem sameRows_trans {qs qs' qs'' : List (Env × Relation)} (h : List.Forall₂ SameRows qs qs')
    (h' : List.Forall₂ SameRows qs' qs'') : List.Forall₂ SameRows qs qs'' :=
  forall₂_comp (fun _ _ _ hq hq' => hq.trans hq') h h'

theorem queries_refl {named : String → Option Schema} {env : Env} (htotal : env.Total named)
    {ss : List Statement} (h : WellFormedStatements named ss) :
    List.Forall₂ SameRows (queries env ss) (queries env ss) := by
  induction ss generalizing named env with
  | nil => exact .nil
  | cons s ss ih =>
      cases s with
      | namedRelation name r => exact ih (total_define htotal h.1) h.2
      | query r =>
          exact .cons ⟨.refl (.refl named env) h.1, exists_emits htotal h.1⟩ (ih htotal h.2)

theorem sameRows_refl {program : Program} (h : program.WellFormed) (data : Data) :
    List.Forall₂ SameRows (program.queries data) (program.queries data) :=
  queries_refl (fun name t ht => by cases ht) h

/-- Statements whose relations have been rewritten one by one. -/
theorem visitStatements_rewrites {rule : Relation → Pass Relation} {C : Relation → Prop}
    (hvisit : ∀ named r, Relation.WellFormed named r → C r → ∀ b, ∃ r' b',
      visit rule r b = .ok (r', b') ∧ Rewrites named r r')
    {named : String → Option Schema} {ss : List Statement} (h : WellFormedStatements named ss)
    (hC : ∀ s ∈ ss, C (relationOf s)) (b : Bool) :
    ∃ ss' b', visitStatements rule ss b = .ok (ss', b') ∧
      (∀ named', Extends named named' → WellFormedStatements named' ss') ∧
      ∀ env env' : Env, env'.Total named → env.Refines named env' →
        List.Forall₂ SameRows (queries env ss) (queries env' ss') := by
  induction ss generalizing named b with
  | nil => exact ⟨[], b, rfl, fun _ _ => trivial, fun _ _ _ _ => .nil⟩
  | cons s ss ih =>
      have hCs := hC s List.mem_cons_self
      have hCrest := fun t ht => hC t (List.mem_cons_of_mem _ ht)
      cases s with
      | namedRelation name r =>
          obtain ⟨hr, hss⟩ := h
          obtain ⟨r', b₁, hvr, hwf', hrw⟩ := hvisit named r hr hCs b
          obtain ⟨ss', b₂, hvs, hwfs, hqueries⟩ := ih hss hCrest b₁
          refine ⟨.namedRelation name r' :: ss', b₂, ?_, fun named' hext => ⟨hwf'.extend hext, ?_⟩,
            fun env env' htotal henv => ?_⟩
          · rw [visitStatements]
            exact Pass.bind_ok.mpr ⟨_, b₁, Pass.bind_ok.mpr ⟨r', b₁, hvr, rfl⟩,
              Pass.bind_ok.mpr ⟨ss', b₂, hvs, rfl⟩⟩
          · let env : Env := { file := fun _ _ _ _ => [], stream := fun _ _ => [],
                               named := fun _ _ => True }
            have hsub := (hrw env env (fun _ _ _ => ⟨[], trivial⟩) (.refl named env)).schema
            exact hwfs _ (hext.update hsub)
          · exact hqueries _ _ (total_define htotal hwf') (refines_define henv (hrw env env' htotal henv))
      | query r =>
          obtain ⟨hr, hss⟩ := h
          obtain ⟨r', b₁, hvr, hwf', hrw⟩ := hvisit named r hr hCs b
          obtain ⟨ss', b₂, hvs, hwfs, hqueries⟩ := ih hss hCrest b₁
          refine ⟨.query r' :: ss', b₂, ?_,
            fun named' hext => ⟨hwf'.extend hext, hwfs _ hext⟩,
            fun env env' htotal henv => .cons ?_ (hqueries _ _ htotal henv)⟩
          · rw [visitStatements]
            exact Pass.bind_ok.mpr ⟨_, b₁, Pass.bind_ok.mpr ⟨r', b₁, hvr, rfl⟩,
              Pass.bind_ok.mpr ⟨ss', b₂, hvs, rfl⟩⟩
          · exact ⟨hrw env env' htotal henv, exists_emits htotal hwf'⟩

/-- A program whose relations have been rewritten one by one. -/
theorem visitProgram_rewrites {rule : Relation → Pass Relation} {C : Relation → Prop}
    (hvisit : ∀ named r, Relation.WellFormed named r → C r → ∀ b, ∃ r' b',
      visit rule r b = .ok (r', b') ∧ Rewrites named r r')
    {program : Program} (h : program.WellFormed)
    (hC : ∀ s ∈ program.statements, C (relationOf s)) (b : Bool) :
    ∃ program' b', visitProgram rule program b = .ok (program', b') ∧ program'.WellFormed ∧
      ∀ data, List.Forall₂ SameRows (program.queries data) (program'.queries data) := by
  obtain ⟨ss', b', hvisit, hwf, hqueries⟩ := visitStatements_rewrites hvisit h hC b
  refine ⟨_, b', visitProgram_ok hvisit, hwf _ (.refl _), fun data => ?_⟩
  exact hqueries _ _ (fun name t ht => by cases ht) (.refl _ _)

end Rewritten

end Lsql.Opt
