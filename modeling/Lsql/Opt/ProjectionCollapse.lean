import Lsql.Opt.ScalarCost
import Lsql.Opt.Traversal

/-!
# Lsql.Opt.ProjectionCollapse

The pass that makes one projection of two (`optimize/projection_collapse.cpp`), if the evaluation is
not taken to cost more.

The outer scalars are copied with the inner ones in the place of their fields. Both walks keep the
copies of the nodes that they have left by address and hand them over to the copy of the parent.
-/

namespace Lsql.Opt.ProjectionCollapse

open Ir

/-! ### The walks -/

section Walks

variable {σ : Type}

/-- `takeScalar`. -/
def takeScalar (addr : Address) (scalars : Memo Scalar) : Except Fault (Scalar × Memo Scalar) :=
  scalars.extract addr "verify(!scalar.empty()) failed "

/-- `takeArgs`. -/
def takeArgs (addr : Address) (n : Nat) (scalars : Memo Scalar) :
    Except Fault (List Scalar × Memo Scalar) :=
  scalars.extractAll addr "verify(!scalar.empty()) failed " 0 n

/-- The end of `CloneScalarView::visit`. -/
def keep (addr : Address) (s : Scalar) (scalars : Memo Scalar) : Except Fault (Memo Scalar) :=
  scalars.emplace addr s "verify(scalars_.emplace(&s, std::move(scalar)).second) failed "

mutual

/-- `CloneScalarView::visit`, with the `view` of a field and what it keeps for itself. -/
def visitScalar (view : FieldId → ValueType → σ → Except Fault (Scalar × σ)) (addr : Address) :
    Scalar → Memo Scalar × σ → Except Fault (Memo Scalar × σ)
  | .field id t, (scalars, own) => do
    let (scalar, own) ← view id t own
    let scalars ← keep addr scalar scalars
    pure (scalars, own)
  | .value v t, (scalars, own) => do
    let scalars ← keep addr (.value v t) scalars
    pure (scalars, own)
  | .coalesce args t, state => do
    let (scalars, own) ← visitArgs view addr 0 args state
    let (args, scalars) ← takeArgs addr args.length scalars
    let scalars ← keep addr (.coalesce args t) scalars
    pure (scalars, own)
  | .fnCall f args t, state => do
    let (scalars, own) ← visitArgs view addr 0 args state
    let (args, scalars) ← takeArgs addr args.length scalars
    let scalars ← keep addr (.fnCall f args t) scalars
    pure (scalars, own)
  | .cached s t, state => do
    let (scalars, own) ← visitScalar view (0 :: addr) s state
    let (s, scalars) ← takeScalar (0 :: addr) scalars
    let scalars ← keep addr (.cached s t) scalars
    pure (scalars, own)

def visitArgs (view : FieldId → ValueType → σ → Except Fault (Scalar × σ)) (addr : Address)
    (i : Nat) : List Scalar → Memo Scalar × σ → Except Fault (Memo Scalar × σ)
  | [], state => .ok state
  | a :: as, state => do
    let state ← visitScalar view (i :: addr) a state
    visitArgs view addr (i + 1) as state

end

/-- `CloneScalarView::clone`. -/
def clone (view : FieldId → ValueType → σ → Except Fault (Scalar × σ)) (addr : Address) (s : Scalar)
    (state : Memo Scalar × σ) : Except Fault (Scalar × (Memo Scalar × σ)) := do
  let (scalars, own) ← visitScalar view addr s state
  let (s, scalars) ← takeScalar addr scalars
  pure (s, (scalars, own))

end Walks

/-- `CloneScalarView::view` of a field. -/
def viewField (id : FieldId) (t : ValueType) (own : Unit) : Except Fault (Scalar × Unit) :=
  .ok (.field id t, own)

/-- `inner`: the scalars of the inner projection by their fields. The first one of a field stays, as
`emplace` has it. -/
def innerScalars (projectors : List Projector) : List (FieldId × Address × Scalar) :=
  projectors.zipIdx.map fun p => (p.1.aliasFieldId, [p.2], p.1.expr)

/-- `ScalarCollapser::view` of a field. Its own state is `clone`. -/
def viewInner (inner : List (FieldId × Address × Scalar)) (id : FieldId) (_ : ValueType)
    (own : Memo Scalar × Unit) : Except Fault (Scalar × (Memo Scalar × Unit)) :=
  match inner.lookup id with
  | some (addr, s) => clone viewField addr s own
  | none => .error (.panic "verify(it != inner.end()) failed ")

/-- `collapse`, for one projector after the other. -/
def collapseAll (inner : List (FieldId × Address × Scalar)) (i : Nat) :
    List Projector → Memo Scalar × (Memo Scalar × Unit) → Except Fault (List Projector)
  | [], _ => .ok []
  | p :: ps, state => do
    let (expr, state) ← clone (viewInner inner) [i] p.expr state
    let ps ← collapseAll inner (i + 1) ps state
    pure ({ aliasFieldId := p.aliasFieldId, expr } :: ps)

/-- The projectors of the two projections in one. -/
def collapseProjectors (inner outer : List Projector) : Except Fault (List Projector) :=
  collapseAll (innerScalars inner) 0 outer ([], ([], ()))

/-- `totalCost` of projectors. -/
def projectorsCost (settings : OptimizerSettings) (projectors : List Projector) :
    Except Fault Int := do
  let estimator ← ScalarCostEstimator.estimateAll settings 0 (projectors.map Projector.expr) {}
  pure estimator.totalCost

/-- `Optimizer::optimize`, behind the traversal. -/
def rule (settings : OptimizerSettings) : Relation → Pass Relation
  | .projection (.projection source inner t) outer s => do
    let innerCost ← projectorsCost settings inner
    let outerCost ← projectorsCost settings outer
    let collapsed ← collapseProjectors inner outer
    let collapsedCost ← projectorsCost settings collapsed
    if collapsedCost > innerCost + outerCost + settings.projectionCostOverhead then
      pure (.projection (.projection source inner t) outer s)
    else do
      Pass.setChanges
      pure (.projection source collapsed s)
  | rel => pure rel

/-- `projectionCollapse`. -/
def projectionCollapse (settings : OptimizerSettings) (program : Program) : Pass Program :=
  visitProgram (rule settings) program

/-! ### What the walks make of a scalar -/

section Spec

variable {σ : Type} {view : FieldId → ValueType → σ → Except Fault (Scalar × σ)}
  {f : FieldId → ValueType → Scalar} {addr : Address} {scalars : Memo Scalar} {own : σ}

/-- The view of every field that is read succeeds and leaves its state as it is. -/
def Views (view : FieldId → ValueType → σ → Except Fault (Scalar × σ)) (own : σ)
    (f : FieldId → ValueType → Scalar) (ids : List FieldId) : Prop :=
  ∀ id ∈ ids, ∀ t, view id t own = .ok (f id t, own)

theorem visitArgs_ok {args : List Scalar}
    (ih : ∀ a ∈ args, ∀ addr scalars, Memo.Fresh addr scalars → Views view own f a.fields →
      visitScalar view addr a (scalars, own) = .ok ((addr, a.mapFields f) :: scalars, own))
    (hviews : Views view own f (Scalar.fieldsAll args)) {i : Nat}
    (hfresh : ∀ j, i ≤ j → Memo.Fresh (j :: addr) scalars) :
    visitArgs view addr i args (scalars, own) =
      .ok (Memo.kept addr i (args.map (Scalar.mapFields f)) scalars, own) := by
  induction args generalizing i scalars with
  | nil => rfl
  | cons a as ihs =>
      have hhead : Views view own f a.fields := fun id hid =>
        hviews id (List.mem_append_left _ hid)
      have htail : Views view own f (Scalar.fieldsAll as) := fun id hid =>
        hviews id (List.mem_append_right _ hid)
      rw [visitArgs, ih a List.mem_cons_self _ _ (hfresh i (Nat.le_refl i)) hhead, ok_bind]
      refine ihs (fun b hb => ih b (List.mem_cons_of_mem _ hb)) htail fun j hj => ?_
      exact (hfresh j (by omega)).cons_sibling (by omega)

theorem takeArgs_ok (xs : List Scalar) {n : Nat} (h : n = xs.length) :
    takeArgs addr n (Memo.kept addr 0 xs scalars) = .ok (xs, scalars) := by
  subst h
  exact Memo.extractAll_kept 0 xs scalars

/-- **A walk keeps the copy of a scalar for it**, and leaves what it has kept before. -/
theorem visitScalar_ok {s : Scalar} (hfresh : scalars.Fresh addr)
    (hviews : Views view own f s.fields) :
    visitScalar view addr s (scalars, own) = .ok ((addr, s.mapFields f) :: scalars, own) := by
  induction s using Scalar.induction generalizing addr scalars with
  | field id t =>
      rw [visitScalar, hviews id List.mem_cons_self t, ok_bind]
      dsimp only
      rw [keep, Memo.emplace_ok hfresh]
      rfl
  | value v t =>
      rw [visitScalar, keep, Memo.emplace_ok hfresh]
      rfl
  | coalesce args t ih =>
      have hargs := visitArgs_ok (fun a ha _ _ => ih a ha) hviews fun j (_ : 0 ≤ j) => hfresh.child j
      rw [visitScalar, hargs, ok_bind]
      dsimp only
      rw [takeArgs_ok _ (List.length_map _).symm, ok_bind]
      dsimp only
      rw [keep, Memo.emplace_ok hfresh, Scalar.mapFields, Scalar.mapFieldsAll_eq_map]
      rfl
  | fnCall fn args t ih =>
      have hargs := visitArgs_ok (fun a ha _ _ => ih a ha) hviews fun j (_ : 0 ≤ j) => hfresh.child j
      rw [visitScalar, hargs, ok_bind]
      dsimp only
      rw [takeArgs_ok _ (List.length_map _).symm, ok_bind]
      dsimp only
      rw [keep, Memo.emplace_ok hfresh, Scalar.mapFields, Scalar.mapFieldsAll_eq_map]
      rfl
  | cached s t ih =>
      rw [visitScalar, ih (hfresh.child 0) hviews, ok_bind]
      dsimp only
      rw [takeScalar, Memo.extract_self, ok_bind]
      dsimp only
      rw [keep, Memo.emplace_ok hfresh]
      rfl

theorem clone_ok {s : Scalar} (hfresh : scalars.Fresh addr) (hviews : Views view own f s.fields) :
    clone view addr s (scalars, own) = .ok (s.mapFields f, (scalars, own)) := by
  rw [clone, visitScalar_ok hfresh hviews, ok_bind]
  dsimp only
  rw [takeScalar, Memo.extract_self]
  rfl

end Spec

/-! ### The collapsed projectors -/

/-- The scalar of the inner projection for a field. -/
def innerScalar (inner : List Projector) (id : FieldId) (t : ValueType) : Scalar :=
  match inner.find? fun p => p.aliasFieldId == id with
  | some p => p.expr
  | none => .field id t

/-- The outer projectors, with the inner scalars in the place of their fields. -/
def collapsed (inner outer : List Projector) : List Projector :=
  outer.map fun p => { p with expr := p.expr.mapFields (innerScalar inner) }

variable {inner outer : List Projector}

theorem find_alias {id : FieldId} (h : id ∈ inner.map Projector.aliasFieldId) :
    ∃ p ∈ inner, p.aliasFieldId = id ∧ inner.find? (fun p => p.aliasFieldId == id) = some p := by
  obtain ⟨q, hq, rfl⟩ := List.mem_map.mp h
  cases hfind : inner.find? fun p => p.aliasFieldId == q.aliasFieldId with
  | none =>
      have hnone := List.find?_eq_none.mp hfind q hq
      exact absurd (beq_self_eq_true _) hnone
  | some p =>
      have halias := List.find?_some hfind
      exact ⟨p, List.mem_of_find?_eq_some hfind, beq_iff_eq.mp halias, rfl⟩

theorem lookup_innerScalars {id : FieldId} {p : Projector}
    (h : inner.find? (fun p => p.aliasFieldId == id) = some p) :
    ∃ addr, (innerScalars inner).lookup id = some (addr, p.expr) := by
  unfold innerScalars
  suffices hfrom : ∀ (ps : List Projector) (i : Nat),
      ps.find? (fun p => p.aliasFieldId == id) = some p →
      ∃ addr, ((ps.zipIdx i).map fun p => (p.1.aliasFieldId, [p.2], p.1.expr)).lookup id =
        some (addr, p.expr) from hfrom inner 0 h
  intro ps
  induction ps with
  | nil => exact fun i h => by cases h
  | cons q ps ih =>
      intro i h
      rw [List.zipIdx_cons, List.map_cons, List.lookup_cons]
      rw [List.find?_cons] at h
      by_cases hq : q.aliasFieldId = id
      · subst hq
        rw [beq_self_eq_true] at h ⊢
        cases h
        exact ⟨_, rfl⟩
      · rw [beq_false_of_ne hq] at h
        rw [beq_false_of_ne (Ne.symm hq)]
        exact ih (i + 1) h

theorem viewInner_ok {ids : List FieldId} (h : ∀ id ∈ ids, id ∈ inner.map Projector.aliasFieldId) :
    Views (viewInner (innerScalars inner)) ([], ()) (innerScalar inner) ids := by
  intro id hid t
  obtain ⟨p, -, -, hfind⟩ := find_alias (h id hid)
  obtain ⟨addr, hlookup⟩ := lookup_innerScalars hfind
  have hclone : clone viewField addr p.expr ([], ()) = .ok (p.expr, ([], ())) := by
    rw [clone_ok (f := .field) (Memo.fresh_nil addr) fun _ _ _ => rfl, Scalar.mapFields_field]
  rw [viewInner, hlookup, innerScalar, hfind]
  exact hclone

/-- **The copies are made**: no node is met twice, and every field is one of the inner projection. -/
theorem collapseProjectors_ok
    (h : ∀ p ∈ outer, ∀ id ∈ p.expr.fields, id ∈ inner.map Projector.aliasFieldId) :
    collapseProjectors inner outer = .ok (collapsed inner outer) := by
  suffices hfrom : ∀ (ps : List Projector) (i : Nat), (∀ p ∈ ps, p ∈ outer) →
      collapseAll (innerScalars inner) i ps ([], ([], ())) = .ok (collapsed inner ps) from
    hfrom outer 0 fun _ hp => hp
  intro ps
  induction ps with
  | nil => exact fun _ _ => rfl
  | cons p ps ih =>
      intro i hps
      have hclone := clone_ok (Memo.fresh_nil [i])
        (viewInner_ok (h p (hps p List.mem_cons_self)))
      rw [collapseAll, hclone, ok_bind]
      dsimp only
      rw [ih (i + 1) fun q hq => hps q (List.mem_cons_of_mem _ hq), ok_bind]
      rfl

/-! ### Values -/

section Values

variable [Platform] {row row₁ : Row}

/-- The scalar of the inner projection has the value that the inner projection puts in the field. -/
theorem eval_innerScalar (hrow : projectRow inner row = .ok row₁) {id : FieldId}
    (hid : id ∈ inner.map Projector.aliasFieldId) (t : ValueType) :
    (innerScalar inner id t).eval row.record = .ok (row₁ id) := by
  obtain ⟨vs, hvalues, he⟩ := bind_eq_ok.mp hrow
  cases he
  have hvs := List.forall₂_map_left_iff.mp (Scalar.evalAll_ok.mp hvalues)
  obtain ⟨p, -, -, hfind⟩ := find_alias hid
  rw [innerScalar, hfind]
  clear hrow hid hvalues
  induction hvs with
  | nil => cases hfind
  | @cons q v ps vs hv hvs ih =>
      unfold Row.ofValues at ih ⊢
      rw [List.find?_cons] at hfind
      rw [List.map_cons, List.zip_cons_cons, List.lookup_cons]
      by_cases hq : q.aliasFieldId = id
      · subst hq
        rw [beq_self_eq_true] at hfind ⊢
        cases hfind
        exact hv
      · rw [beq_false_of_ne hq] at hfind
        rw [beq_false_of_ne (Ne.symm hq)]
        exact ih hfind

/-- **One projection does what two did.** -/
theorem projectRow_collapsed (hrow : projectRow inner row = .ok row₁)
    (h : ∀ p ∈ outer, ∀ id ∈ p.expr.fields, id ∈ inner.map Projector.aliasFieldId) :
    projectRow (collapsed inner outer) row = projectRow outer row₁ := by
  have haliases : (collapsed inner outer).map Projector.aliasFieldId =
      outer.map Projector.aliasFieldId := by
    rw [collapsed, List.map_map]
    rfl
  have hvalues : Scalar.evalAll row.record ((collapsed inner outer).map Projector.expr) =
      Scalar.evalAll row₁.record (outer.map Projector.expr) := by
    refine Scalar.evalAll_congr ?_
    rw [collapsed, List.map_map, List.forall₂_map_left_iff, List.forall₂_map_right_iff]
    refine List.forall₂_same.mpr fun p hp => Scalar.eval_mapFields fun id hid t => ?_
    exact eval_innerScalar hrow (h p hp id hid) t
  rw [projectRow, projectRow, haliases, hvalues]

/-- What a stack of projections makes of a record, from the bottom up. -/
def stackRow : Relation → Row → Item
  | .projection r ps _, row => do
    let row ← stackRow r row
    projectRow ps row
  | _, row => .ok row

end Values

/-! ### Stacks -/

/-- What a stack of projections stands on. -/
def stackBase : Relation → Relation
  | .projection r _ _ => stackBase r
  | r => r

/-- A relation that is no projection. -/
def IsBase (r : Relation) : Prop := ∀ q ps s, r ≠ .projection q ps s

theorem IsBase.stackBase {r : Relation} (h : IsBase r) : stackBase r = r := by
  cases r with
  | projection q ps s => exact absurd rfl (h q ps s)
  | _ => rfl

theorem IsBase.withSources {r : Relation} (h : IsBase r) (qs : List Relation) :
    IsBase (r.withSources qs) := by
  intro q ps s heq
  unfold Relation.withSources at heq
  split at heq
  all_goals first
    | exact h q ps s heq
    | exact h _ _ _ rfl
    | cases heq

theorem isBase_or (r : Relation) : (∃ q ps s, r = .projection q ps s) ∨ IsBase r := by
  cases r with
  | projection q ps s => exact .inl ⟨q, ps, s, rfl⟩
  | _ => exact .inr fun _ _ _ h => by cases h

/-- Induction from stack to stack. -/
@[elab_as_elim] theorem stack_induction {motive : Relation → Prop}
    (h : ∀ r, (∀ q ∈ (stackBase r).sources, motive q) → motive r) (r : Relation) : motive r := by
  suffices hboth : motive r ∧ ∀ q ∈ (stackBase r).sources, motive q from hboth.1
  induction r using Relation.induction with
  | h r ih =>
      suffices hsources : ∀ q ∈ (stackBase r).sources, motive q from ⟨h r hsources, hsources⟩
      rcases isBase_or r with ⟨q, ps, s, rfl⟩ | hr
      · exact (ih q List.mem_cons_self).2
      · rw [hr.stackBase]
        exact fun q hq => (ih q hq).1

variable [Platform]

theorem IsBase.stackRow {r : Relation} (h : IsBase r) (row : Row) : stackRow r row = .ok row := by
  cases r with
  | projection q ps s => exact absurd rfl (h q ps s)
  | _ => rfl

/-- Every stack of projections of a relation has become one that puts the same value in every slot,
whatever the record is. -/
inductive SameValues : Relation → Relation → Prop
  | stack {r r' : Relation} {qs : List Relation} :
      r'.schema = r.schema →
      (∀ row row', stackRow r row = .ok row' → stackRow r' row = .ok row') →
      stackBase r' = (stackBase r).withSources qs →
      List.Forall₂ SameValues (stackBase r).sources qs → SameValues r r'

namespace SameValues

variable {r r' r'' : Relation}

theorem schema (h : SameValues r r') : r'.schema = r.schema := by
  cases h with
  | stack hschema _ _ _ => exact hschema

/-- The same operator, on sources whose stacks have changed. -/
theorem node {qs : List Relation} (h : List.Forall₂ SameValues r.sources qs) :
    SameValues r (r.withSources qs) := by
  rcases isBase_or r with ⟨q, ps, s, rfl⟩ | hr
  · obtain ⟨q', rfl, hq⟩ := forall₂_one h
    cases hq with
    | stack _ hrows hbase hsources =>
        refine .stack rfl (fun row row' hrow => ?_) hbase hsources
        obtain ⟨row₁, hrow₁, hrow⟩ := bind_eq_ok.mp hrow
        exact bind_eq_ok.mpr ⟨row₁, hrows row row₁ hrow₁, hrow⟩
  · have hr' := hr.withSources qs
    refine .stack Relation.schema_withSources (fun row row' hrow => ?_) ?_ (hr.stackBase.symm ▸ h)
    · rw [hr.stackRow] at hrow
      rw [hr'.stackRow]
      exact hrow
    · rw [hr'.stackBase, hr.stackBase]

theorem refl (r : Relation) : SameValues r r := by
  induction r using stack_induction with
  | h r ih =>
      refine .stack rfl (fun _ _ hrow => hrow) ?_ (List.forall₂_same.mpr ih)
      exact (Relation.withSources_self _).symm

theorem trans (h : SameValues r r') (h' : SameValues r' r'') : SameValues r r'' := by
  induction r using stack_induction generalizing r' r'' with
  | h r ih =>
      cases h with
      | @stack _ _ qs hschema hrows hbase hsources =>
          cases h' with
          | @stack _ _ qs' hschema' hrows' hbase' hsources' =>
              have hlength := hsources.length_eq.symm
              rw [hbase, Relation.sources_withSources hlength] at hsources'
              have hlength' := hsources'.length_eq.symm.trans hlength
              have hall : List.Forall₂ SameValues (stackBase r).sources qs' :=
                @forall₂_comp_of_mem _ _ _ SameValues SameValues SameValues _ _ _
                  (fun q hq _ _ h h' => ih q hq h h') hsources hsources'
              refine .stack (hschema'.trans hschema)
                (fun row row' hrow => hrows' row row' (hrows row row' hrow)) ?_ hall
              rw [hbase', hbase, Relation.withSources_withSources hlength hlength']

end SameValues

/-! ### Relations -/

/-- A projection computes its columns from those of its source, and its casts are casts. -/
def ProjectionNode : Relation → Prop
  | .projection r ps s => s.fields = ps.map Projector.aliasFieldId ∧
    ∀ p ∈ ps, p.expr.ReadsIn r.schema ∧ p.expr.CastsUnary
  | _ => True

theorem projectionNode_withSources {r : Relation} {qs : List Relation}
    (h : List.Forall₂ SameValues r.sources qs) (hr : ProjectionNode r) :
    ProjectionNode (r.withSources qs) := by
  rcases isBase_or r with ⟨q, ps, s, rfl⟩ | hbase
  · obtain ⟨q', rfl, hq⟩ := forall₂_one h
    refine ⟨hr.1, fun p hp => ⟨?_, (hr.2 p hp).2⟩⟩
    rw [hq.schema]
    exact (hr.2 p hp).1
  · have hnone := hbase.withSources qs
    cases hnew : r.withSources qs with
    | projection q ps s => exact absurd hnew (hnone q ps s)
    | _ => trivial

omit [Platform] in
theorem projectorsCost_ok (settings : OptimizerSettings) {ps : List Projector}
    (h : ∀ p ∈ ps, p.expr.CastsUnary) : ∃ c, projectorsCost settings ps = .ok c := by
  have hunary : ∀ s ∈ ps.map Projector.expr, s.CastsUnary := by
    intro s hs
    obtain ⟨p, hp, rfl⟩ := List.mem_map.mp hs
    exact h p hp
  obtain ⟨est, hest⟩ := @ScalarCostEstimator.estimateAll_ok settings {} _ hunary 0
    fun j _ => Memo.fresh_nil [j]
  refine ⟨est.totalCost, ?_⟩
  rw [projectorsCost, hest]
  rfl

omit [Platform] in
/-- The projectors of two projections in one read what the inner ones read. -/
theorem collapsed_projectionNode {r : Relation} {t s : Schema}
    (h : (Relation.projection (.projection r inner t) outer s).Everywhere ProjectionNode) :
    (Relation.projection r (collapsed inner outer) s).Everywhere ProjectionNode := by
  obtain ⟨hfields, houter⟩ := h.here
  have hsource := h.source List.mem_cons_self
  obtain ⟨hinnerFields, hinner⟩ := hsource.here
  refine .node ⟨?_, fun p hp => ?_⟩ fun q hq => hsource.source hq
  · rw [hfields, collapsed, List.map_map]
    rfl
  · obtain ⟨q, hq, rfl⟩ := List.mem_map.mp hp
    have halias : ∀ id ∈ q.expr.fields, id ∈ inner.map Projector.aliasFieldId :=
      fun id hid => hinnerFields ▸ (houter q hq).1 id hid
    have hscalar : ∀ id ∈ q.expr.fields, ∀ t, ∃ p ∈ inner, innerScalar inner id t = p.expr := by
      intro id hid t
      obtain ⟨p, hp, -, hfind⟩ := find_alias (halias id hid)
      refine ⟨p, hp, ?_⟩
      rw [innerScalar, hfind]
    constructor
    · intro id hid
      obtain ⟨id', hid', u, hmem⟩ := Scalar.mem_fields_mapFields hid
      obtain ⟨p, hp, he⟩ := hscalar id' hid' u
      rw [he] at hmem
      exact (hinner p hp).1 id hmem
    · refine (houter q hq).2.mapFields fun id hid t => ?_
      obtain ⟨p, hp, he⟩ := hscalar id hid t
      rw [he]
      exact (hinner p hp).2

/-- Two layers of a stack have become one. -/
theorem sameValues_collapsed {r : Relation} {t s : Schema}
    (h : ∀ p ∈ outer, ∀ id ∈ p.expr.fields, id ∈ inner.map Projector.aliasFieldId) :
    SameValues (.projection (.projection r inner t) outer s)
      (.projection r (collapsed inner outer) s) := by
  have hbase := (Relation.withSources_self (stackBase r)).symm
  refine .stack rfl (fun row row' hrow => ?_) hbase (List.forall₂_same.mpr fun q _ => .refl q)
  obtain ⟨row₂, hrow₂, hrow⟩ := bind_eq_ok.mp hrow
  obtain ⟨row₁, hrow₁, hinner⟩ := bind_eq_ok.mp hrow₂
  refine bind_eq_ok.mpr ⟨row₁, hrow₁, ?_⟩
  rw [projectRow_collapsed hinner h]
  exact hrow

omit [Platform] in
theorem rule_projection (settings : OptimizerSettings) {r : Relation} {t s : Schema}
    {c₁ c₂ c₃ : Int} {ps : List Projector} (hc₁ : projectorsCost settings inner = .ok c₁)
    (hc₂ : projectorsCost settings outer = .ok c₂) (hps : collapseProjectors inner outer = .ok ps)
    (hc₃ : projectorsCost settings ps = .ok c₃) (b : Bool) :
    rule settings (.projection (.projection r inner t) outer s) b =
      if c₃ > c₁ + c₂ + settings.projectionCostOverhead then
        .ok (.projection (.projection r inner t) outer s, b)
      else .ok (.projection r ps s, true) := by
  have hlift : ∀ {α β : Type} {x : Except Fault α} {a : α} {f : α → Pass β}, x = .ok a →
      ((liftM x : Pass α) >>= f) b = f a b := by
    intro α β x a f hx
    subst hx
    rfl
  rw [rule, hlift hc₁, hlift hc₂, hlift hps, hlift hc₃]
  split <;> rfl

/-- One projection on another is replaced, or kept if the evaluation is taken to cost more. -/
theorem rule_ok (settings : OptimizerSettings) {r : Relation} (h : r.Everywhere ProjectionNode)
    (b : Bool) : ∃ r' b', rule settings r b = .ok (r', b') ∧
      r'.Everywhere ProjectionNode ∧ SameValues r r' := by
  rcases isBase_or r with ⟨q, outer, s, rfl⟩ | hbase
  · rcases isBase_or q with ⟨q, inner, t, rfl⟩ | hq
    · have houter := h.here.2
      have hinner := (h.source List.mem_cons_self).here
      have halias : ∀ p ∈ outer, ∀ id ∈ p.expr.fields, id ∈ inner.map Projector.aliasFieldId :=
        fun p hp id hid => hinner.1 ▸ (houter p hp).1 id hid
      have hcollapsed := collapsed_projectionNode h
      obtain ⟨c₁, hc₁⟩ := projectorsCost_ok settings fun p hp => (hinner.2 p hp).2
      obtain ⟨c₂, hc₂⟩ := projectorsCost_ok settings fun p hp => (houter p hp).2
      obtain ⟨c₃, hc₃⟩ := projectorsCost_ok settings fun p hp => (hcollapsed.here.2 p hp).2
      rw [rule_projection settings hc₁ hc₂ (collapseProjectors_ok halias) hc₃]
      split
      · exact ⟨_, b, rfl, h, .refl _⟩
      · exact ⟨_, true, rfl, hcollapsed, sameValues_collapsed halias⟩
    · refine ⟨_, b, ?_, h, .refl _⟩
      cases q with
      | projection q ps s => exact absurd rfl (hq q ps s)
      | _ => rfl
  · refine ⟨_, b, ?_, h, .refl _⟩
    cases r with
    | projection q ps s => exact absurd rfl (hbase q ps s)
    | _ => rfl

/-- A relation after the pass. -/
theorem visit_ok (settings : OptimizerSettings) {r : Relation} (h : r.Everywhere ProjectionNode) :
    ∀ b, ∃ r' b', visit (rule settings) r b = .ok (r', b') ∧
      r'.Everywhere ProjectionNode ∧ SameValues r r' := by
  refine @visit_spec (rule settings) (Relation.Everywhere ProjectionNode)
    (Relation.Everywhere ProjectionNode)
    (fun r r' => r'.Everywhere ProjectionNode ∧ SameValues r r') ?_ ?_ ?_ ?_ r h
  · exact fun r hr q hq => hr.source hq
  · intro r qs hr hqs
    have hsame : List.Forall₂ SameValues r.sources qs := hqs.imp fun q q' hq => hq.2
    have hnode : (r.withSources qs).Everywhere ProjectionNode := by
      refine .node (projectionNode_withSources hsame hr.here) fun q' hq' => ?_
      rw [Relation.sources_withSources hqs.length_eq.symm] at hq'
      obtain ⟨q, -, hq⟩ := forall₂_mem_right hqs hq'
      exact hq.1
    exact ⟨hnode, hnode, .node hsame⟩
  · exact fun r hr => rule_ok settings hr
  · exact fun r r' r'' hr hr' => ⟨hr'.1, hr.2.trans hr'.2⟩

/-! ### Programs -/

/-- A statement whose stacks of projections have changed. -/
inductive StatementSameValues : Statement → Statement → Prop
  | namedRelation {name : String} {r r' : Relation} : SameValues r r' →
      StatementSameValues (.namedRelation name r) (.namedRelation name r')
  | query {r r' : Relation} : SameValues r r' → StatementSameValues (.query r) (.query r')

theorem StatementSameValues.trans {s s' s'' : Statement} (h : StatementSameValues s s')
    (h' : StatementSameValues s' s'') : StatementSameValues s s'' := by
  cases h with
  | namedRelation h =>
      cases h' with
      | namedRelation h' => exact .namedRelation (h.trans h')
  | query h =>
      cases h' with
      | query h' => exact .query (h.trans h')

theorem StatementSameValues.refl (s : Statement) : StatementSameValues s s := by
  cases s with
  | namedRelation name r => exact .namedRelation (.refl r)
  | query r => exact .query (.refl r)

/-- The projections of a program compute their columns from those of their sources. -/
def ProgramProjections (program : Program) : Prop :=
  ∀ s ∈ program.statements, (relationOf s).Everywhere ProjectionNode

theorem visitStatements_ok (settings : OptimizerSettings) {ss : List Statement}
    (h : ∀ s ∈ ss, (relationOf s).Everywhere ProjectionNode) (b : Bool) :
    ∃ ss' b', visitStatements (rule settings) ss b = .ok (ss', b') ∧
      (∀ s ∈ ss', (relationOf s).Everywhere ProjectionNode) ∧
      List.Forall₂ StatementSameValues ss ss' := by
  induction ss generalizing b with
  | nil => exact ⟨[], b, rfl, fun _ hs => absurd hs List.not_mem_nil, .nil⟩
  | cons s ss ih =>
      have hstatement : ∃ s' b', visitStatement (rule settings) s b = .ok (s', b') ∧
          (relationOf s').Everywhere ProjectionNode ∧ StatementSameValues s s' := by
        obtain ⟨r', b₁, hr', hnode, hsame⟩ := visit_ok settings (h s List.mem_cons_self) b
        cases s with
        | namedRelation name r =>
            exact ⟨.namedRelation name r', b₁, Pass.bind_ok.mpr ⟨r', b₁, hr', rfl⟩, hnode,
              .namedRelation hsame⟩
        | query r =>
            exact ⟨.query r', b₁, Pass.bind_ok.mpr ⟨r', b₁, hr', rfl⟩, hnode, .query hsame⟩
      obtain ⟨s', b₁, hs', hnode, hsame⟩ := hstatement
      obtain ⟨ss', b₂, hss', hnodes, hall⟩ := ih (fun t ht => h t (List.mem_cons_of_mem _ ht)) b₁
      refine ⟨s' :: ss', b₂, ?_, List.forall_mem_cons.mpr ⟨hnode, hnodes⟩, .cons hsame hall⟩
      rw [visitStatements]
      exact Pass.bind_ok.mpr ⟨s', b₁, hs', Pass.bind_ok.mpr ⟨ss', b₂, hss', rfl⟩⟩

/-- `SELECT b AS c, Coalesce(b, a) AS d FROM (SELECT a, Lower(a) AS b FROM 'a.log')`, with `Lower(a)`
cached. -/
def twoLayers : Program where
  statements := [.query (.projection
    (.projection (.file "a.log" none none ⟨[1], by decide⟩)
      [⟨2, .field 1 .string⟩,
        ⟨3, .cached (.fnCall .lower [.field 1 .string] .string) .string⟩] ⟨[2, 3], by decide⟩)
    [⟨4, .field 3 .string⟩, ⟨5, .coalesce [.field 3 .string, .field 2 .string] .string⟩]
    ⟨[4, 5], by decide⟩)]
  fieldBinding := ⟨[]⟩

end Lsql.Opt.ProjectionCollapse
