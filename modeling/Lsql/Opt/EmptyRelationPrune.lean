import Lsql.Opt.Traversal

/-!
# Lsql.Opt.EmptyRelationPrune

The pass that propagates empty relations (`optimize/empty_relation_prune.cpp`).

An operator that makes its rows of those of an empty source is empty itself. An aggregate is left
alone, for it has a row without a source's; so are a left join and a mark join of which only the
other side is empty.
-/

namespace Lsql.Opt.EmptyRelationPrune

open Ir
open Flow (Approx Interleave Shuffle)

/-! ### The pass -/

/-- `Optimizer::isEmpty`. -/
def isEmpty : Relation → Bool
  | .empty _ => true
  | _ => false

/-- `self.node = ir::EmptyRelation{}`. -/
def makeEmpty (self : Relation) : Pass Relation := do
  Pass.setChanges
  pure (.empty self.schema)

/-- `Optimizer::pruneSimple`. -/
def pruneSimple (source self : Relation) : Pass Relation :=
  if !isEmpty source then pure self else makeEmpty self

/-- `Optimizer::prune(ir::UnionAllRelation&)`. -/
def pruneUnionAll (sources : List Relation) (schema : Schema) : Pass Relation :=
  match sources.filter fun r => !isEmpty r with
  | [] => makeEmpty (.unionAll sources schema)
  | [source] => do
    Pass.setChanges
    pure source
  | nonEmpty =>
    if nonEmpty.length ≠ sources.length then do
      Pass.setChanges
      pure (.unionAll nonEmpty schema)
    else pure (.unionAll nonEmpty schema)

/-- `Optimizer::prune(ir::UnionAllSortedByRelation&)`. -/
def pruneUnionAllSortedBy (left right : Relation) (self : Relation) : Pass Relation :=
  if isEmpty left && isEmpty right then makeEmpty self
  else if isEmpty left then do
    Pass.setChanges
    pure right
  else if isEmpty right then do
    Pass.setChanges
    pure left
  else pure self

/-- `Optimizer::visit`, behind the traversal. -/
def rule (self : Relation) : Pass Relation :=
  match self with
  | .projection source _ _ | .group source _ _ _ | .filter source _ _ | .sort source _ _ _
  | .materialize source _ => pruneSimple source self
  | .unionAll sources schema => pruneUnionAll sources schema
  | .unionAllSortedBy left right _ _ _ => pruneUnionAllSortedBy left right self
  | .topK source _ _ topCount _ =>
    if isEmpty source || topCount == 0 then makeEmpty self else pure self
  | .limit source limit _ => if isEmpty source || limit == 0 then makeEmpty self else pure self
  | .semiJoin source matched _ _ _ =>
    if isEmpty source || isEmpty matched then makeEmpty self else pure self
  | .leftJoin left _ _ _ _ => if isEmpty left then makeEmpty self else pure self
  | .markJoin source _ _ _ _ _ => if isEmpty source then makeEmpty self else pure self
  | _ => pure self

/-- `emptyRelationPrune`. -/
def emptyRelationPrune (program : Program) : Pass Program := visitProgram rule program

theorem eq_empty {r : Relation} (h : isEmpty r) : r = .empty r.schema := by
  cases r with
  | empty s => rfl
  | _ => cases h

variable [Platform]

/-! ### Operators on empty sources -/

section Nothing

variable {R : Row → Row → Prop}

omit [Platform] in
/-- Nothing is made of the rows that have been collected. -/
theorem whenCollected_nothing {α : Type} {s : List (Except Fault α)} {f : List α → List Item}
    (h : ∀ rows, f rows = []) : Approx R (whenCollected s f) ([] : List Item) := by
  unfold whenCollected
  split
  next rows _ =>
    rw [h rows]
    exact .nil
  · exact .fault

theorem sorts_nothing (ks : List Scalar) (desc : Bool) : Sorts ks desc [] [] :=
  @Sorts.sorted _ ks desc [] [] [] rfl .nil fun _ => .nil

theorem groups_nothing (as : List Aggregate) (ks : List Projector) : Groups as ks [] [] :=
  @Groups.groups _ as ks [] [] [] rfl .nil

/-- An item whose key cannot be computed becomes a failure. -/
theorem keyed_approx {schema : Schema} (ks : List Scalar) (u : List Item) :
    Approx (AgreeOn schema) ((u.map (attach (keyOf ks))).map (Except.map Prod.fst)) u := by
  induction u with
  | nil => exact .nil
  | cons x u ih =>
      cases x with
      | error e => exact .fault
      | ok row =>
          cases hk : keyOf ks row with
          | error e =>
              simp only [List.map_cons, attach, ok_bind, hk, error_bind]
              exact .fault
          | ok k =>
              simp only [List.map_cons, attach, ok_bind, hk, pure_eq_ok]
              exact .ok (.refl schema row) ih

end Nothing

section Empty

variable {named : String → Option Schema} {r : Relation}

/-- What empties an operator: a source without rows, or a count of none. -/
inductive Emptied : Relation → Prop
  | projection {t : Schema} {ps : List Projector} {s : Schema} :
      Emptied (.projection (.empty t) ps s)
  | group {t : Schema} {as : List Aggregate} {ks : List Projector} {s : Schema} :
      Emptied (.group (.empty t) as ks s)
  | filter {t : Schema} {c : Scalar} {s : Schema} : Emptied (.filter (.empty t) c s)
  | sort {t : Schema} {ks : List Scalar} {desc : Bool} {s : Schema} :
      Emptied (.sort (.empty t) ks desc s)
  | materialize {t s : Schema} : Emptied (.materialize (.empty t) s)
  | topKSource {t : Schema} {ks : List Scalar} {desc : Bool} {n : Int} {s : Schema} :
      Emptied (.topK (.empty t) ks desc n s)
  | topKCount {r : Relation} {ks : List Scalar} {desc : Bool} {s : Schema} :
      Emptied (.topK r ks desc 0 s)
  | limitSource {t : Schema} {n : Int} {s : Schema} : Emptied (.limit (.empty t) n s)
  | limitCount {r : Relation} {s : Schema} : Emptied (.limit r 0 s)
  | semiJoinSource {t : Schema} {m : Relation} {e : Scalar} {f : FieldId} {s : Schema} :
      Emptied (.semiJoin (.empty t) m e f s)
  | semiJoinMatch {r : Relation} {t : Schema} {e : Scalar} {f : FieldId} {s : Schema} :
      Emptied (.semiJoin r (.empty t) e f s)
  | leftJoin {t : Schema} {r : Relation} {lk rk : Scalar} {s : Schema} :
      Emptied (.leftJoin (.empty t) r lk rk s)
  | markJoin {t : Schema} {m : Relation} {e : Scalar} {o f : FieldId} {s : Schema} :
      Emptied (.markJoin (.empty t) m e o f s)

theorem emptied_emits (h : r.WellFormed named) (hr : Emptied r) {env : Env}
    (htotal : env.Total named) :
    ∃ u, Emits env r u ∧ Approx (AgreeOn r.schema) u ([] : List Item) := by
  have hempty : ∀ t, Emits env (.empty t) [] := fun t => emits_empty.mpr rfl
  cases hr with
  | projection => exact ⟨[], emits_projection.mpr ⟨[], hempty _, rfl⟩, .nil⟩
  | group => exact ⟨[], (emits_one rfl).mpr ⟨[], hempty _, groups_nothing _ _⟩, .nil⟩
  | filter => exact ⟨[], emits_filter.mpr ⟨[], hempty _, rfl⟩, .nil⟩
  | sort => exact ⟨[], emits_sort.mpr ⟨[], hempty _, sorts_nothing _ _⟩, .nil⟩
  | materialize => exact ⟨[], emits_materialize.mpr (hempty _), .nil⟩
  | @topKSource t ks desc n s =>
      refine ⟨[], emits_topK.mpr ⟨[], hempty _, [], sorts_nothing _ _, ?_⟩, .nil⟩
      rw [List.take_nil]
  | @topKCount r ks desc s =>
      obtain ⟨v, hv⟩ := exists_emits htotal (h.source List.mem_cons_self)
      obtain ⟨w, hw⟩ := exists_sorts ks desc v
      exact ⟨[], emits_topK.mpr ⟨v, hv, w, hw, rfl⟩, .nil⟩
  | limitSource =>
      refine ⟨[], emits_limit.mpr ⟨[], hempty _, ?_⟩, .nil⟩
      rw [List.take_nil]
  | limitCount =>
      obtain ⟨v, hv⟩ := exists_emits htotal (h.source List.mem_cons_self)
      exact ⟨[], emits_limit.mpr ⟨v, hv, rfl⟩, .nil⟩
  | @semiJoinSource t m e f s =>
      have hm : m ∈ (Relation.semiJoin (.empty t) m e f s).sources := by
        simp [Relation.sources]
      obtain ⟨v, hv⟩ := exists_emits htotal (h.source hm)
      refine ⟨_, (emits_two rfl).mpr ⟨[], v, hempty _, hv, rfl⟩, whenCollected_nothing ?_⟩
      intro rows
      split <;> rfl
  | semiJoinMatch =>
      obtain ⟨v, hv⟩ := exists_emits htotal (h.source List.mem_cons_self)
      exact ⟨[], (emits_two rfl).mpr ⟨v, [], hv, hempty _, rfl⟩, .nil⟩
  | @leftJoin t r lk rk s =>
      have hm : r ∈ (Relation.leftJoin (.empty t) r lk rk s).sources := by
        simp [Relation.sources]
      obtain ⟨v, hv⟩ := exists_emits htotal (h.source hm)
      exact ⟨_, (emits_two rfl).mpr ⟨[], v, hempty _, hv, rfl⟩,
        whenCollected_nothing fun rows => rfl⟩
  | @markJoin t m e o f s =>
      have hm : m ∈ (Relation.markJoin (.empty t) m e o f s).sources := by
        simp [Relation.sources]
      obtain ⟨v, hv⟩ := exists_emits htotal (h.source hm)
      exact ⟨_, (emits_two rfl).mpr ⟨[], v, hempty _, hv, rfl⟩,
        whenCollected_nothing fun rows => rfl⟩

/-- The step of an operator that may have been emptied. -/
theorem makeEmpty_rewrites {c : Bool} (h : r.WellFormed named) (hr : c → Emptied r) (b : Bool) :
    ∃ r' b', (if c then makeEmpty r else pure r : Pass Relation) b = .ok (r', b') ∧
      Rewrites named r r' := by
  cases c with
  | true => exact ⟨_, true, rfl, .empty h fun _ htotal => emptied_emits h (hr rfl) htotal⟩
  | false => exact ⟨r, b, rfl, .refl h⟩

theorem pruneSimple_rewrites {source : Relation} (h : r.WellFormed named)
    (hr : isEmpty source → Emptied r) (b : Bool) :
    ∃ r' b', pruneSimple source r b = .ok (r', b') ∧ Rewrites named r r' := by
  obtain ⟨r', b', hr', hrewrites⟩ := makeEmpty_rewrites h hr b
  refine ⟨r', b', ?_, hrewrites⟩
  rw [← hr', pruneSimple]
  cases isEmpty source <;> rfl

end Empty

/-! ### Unions -/

section Unions

variable {named : String → Option Schema} {env : Env} {rs : List Relation} {s : Schema}

/-- Empty sources put nothing into a union. -/
theorem emits_nonEmpty {ss : List (List Item)} {u : List Item}
    (hss : List.Forall₂ (Emits env) (rs.filter fun r => !isEmpty r) ss) (hu : Shuffle ss u) :
    ∃ ss', List.Forall₂ (Emits env) rs ss' ∧ Shuffle ss' u := by
  induction rs generalizing ss u with
  | nil => exact ⟨ss, hss, hu⟩
  | cons r rs ih =>
      rw [List.filter_cons] at hss
      by_cases hr : isEmpty r
      · rw [hr, Bool.not_true, if_neg Bool.false_ne_true] at hss
        obtain ⟨ss', hss', hshuffle⟩ := ih hss hu
        have hnothing : Emits env r [] := by
          rw [eq_empty hr]
          exact emits_empty.mpr rfl
        exact ⟨[] :: ss', .cons hnothing hss', .cons hshuffle (.all_right u)⟩
      · rw [Bool.eq_false_iff.mpr hr, Bool.not_false, if_pos rfl] at hss
        cases hss with
        | cons hs hrest =>
            cases hu with
            | cons htail hint =>
                obtain ⟨ss', hss', hshuffle⟩ := ih hrest htail
                exact ⟨_ :: ss', .cons hs hss', .cons hshuffle hint⟩

/-- What a union without its empty sources puts out, the union does. -/
theorem refines_nonEmpty {r' : Relation} (hschema : s.fields ⊆ r'.schema.fields)
    (hexposed : r'.exposed ⊆ (Relation.unionAll rs s).exposed)
    (hemits : ∀ u, Emits env r' u → ∃ ss,
      List.Forall₂ (Emits env) (rs.filter fun r => !isEmpty r) ss ∧ Shuffle ss u) :
    Refines env env (.unionAll rs s) r' where
  schema := hschema
  exposed := hexposed
  emits u hu := by
    obtain ⟨ss, hss, hshuffle⟩ := hemits u hu
    obtain ⟨ss', hss', hshuffle⟩ := emits_nonEmpty hss hshuffle
    exact ⟨u, emits_unionAll.mpr ⟨ss', hss', hshuffle⟩, .refl (AgreeOn.refl s) u⟩

omit [Platform] in
theorem exposed_nonEmpty :
    (Relation.unionAll (rs.filter fun r => !isEmpty r) s).exposed ⊆
      (Relation.unionAll rs s).exposed := by
  rw [Relation.exposed, Relation.exposed]
  refine Relation.append_subset_append (List.Subset.refl _) fun id hid => ?_
  obtain ⟨q, hq, hid⟩ := Relation.mem_exposedAll.mp hid
  exact Relation.mem_exposedAll.mpr ⟨q, (List.mem_filter.mp hq).1, hid⟩

theorem union_nonEmpty_rewrites (h : (Relation.unionAll rs s).WellFormed named)
    (hne : (rs.filter fun r => !isEmpty r) ≠ []) :
    Rewrites named (.unionAll rs s) (.unionAll (rs.filter fun r => !isEmpty r) s) := by
  have hmem : ∀ {q}, q ∈ (rs.filter fun r => !isEmpty r) → q ∈ rs :=
    fun hq => (List.mem_filter.mp hq).1
  refine .of_refines h (.node ⟨hne, fun q hq => h.here.2 q (hmem hq)⟩ fun q hq =>
    h.source (hmem hq)) fun env _ => ?_
  exact refines_nonEmpty (List.Subset.refl _) exposed_nonEmpty fun u hu => emits_unionAll.mp hu

theorem union_single_rewrites (h : (Relation.unionAll rs s).WellFormed named) {r : Relation}
    (hr : (rs.filter fun r => !isEmpty r) = [r]) : Rewrites named (.unionAll rs s) r := by
  have hmem : r ∈ rs := by
    have hmem : r ∈ (rs.filter fun r => !isEmpty r) := by
      rw [hr]
      exact List.mem_cons_self
    exact (List.mem_filter.mp hmem).1
  refine .of_refines h (h.source hmem) fun env _ => refines_nonEmpty (h.here.2 r hmem) ?_ ?_
  · intro id hid
    rw [Relation.exposed]
    exact List.mem_append_right _ (Relation.mem_exposedAll.mpr ⟨r, hmem, hid⟩)
  · intro u hu
    rw [hr]
    exact ⟨[u], .cons hu .nil, Shuffle.single.mpr rfl⟩

theorem pruneUnionAll_rewrites (h : (Relation.unionAll rs s).WellFormed named) (b : Bool) :
    ∃ r' b', pruneUnionAll rs s b = .ok (r', b') ∧ Rewrites named (.unionAll rs s) r' := by
  unfold pruneUnionAll
  cases hf : rs.filter fun r => !isEmpty r with
  | nil =>
      refine ⟨.empty s, true, rfl, Rewrites.empty h fun env _ => ⟨[], ?_, .nil⟩⟩
      have hss : List.Forall₂ (Emits env) (rs.filter fun r => !isEmpty r) [] := by
        rw [hf]
        exact .nil
      exact emits_unionAll.mpr (emits_nonEmpty hss .nil)
  | cons q qs =>
      cases qs with
      | nil => exact ⟨q, true, rfl, union_single_rewrites h hf⟩
      | cons q' qs =>
          have hrewrites := union_nonEmpty_rewrites h (by rw [hf]; exact List.cons_ne_nil _ _)
          rw [hf] at hrewrites
          by_cases hlength : (q :: q' :: qs).length ≠ rs.length
          · exact ⟨_, true, by simp only [if_pos hlength]; rfl, hrewrites⟩
          · exact ⟨_, b, by simp only [if_neg hlength]; rfl, hrewrites⟩

variable {l r : Relation} {ks : List Scalar} {desc : Bool}

theorem merge_left_rewrites (h : (Relation.unionAllSortedBy l r ks desc s).WellFormed named)
    (hr : isEmpty r) : Rewrites named (.unionAllSortedBy l r ks desc s) l := by
  refine .of_refines h (h.source List.mem_cons_self) fun env _ => ⟨h.here.1, ?_, fun u hu => ?_⟩
  · rw [Relation.exposed]
    exact fun id hid => List.mem_append_right _ (List.mem_append_left _ hid)
  · have hr : Emits env r [] := by
      rw [eq_empty hr]
      exact emits_empty.mpr rfl
    refine ⟨_, emits_unionAllSortedBy.mpr ⟨u, [], hu, hr, _, .all_left _, ?_, rfl⟩, ?_⟩
    · exact fun hsorted _ => hsorted
    · exact keyed_approx ks u

theorem merge_right_rewrites (h : (Relation.unionAllSortedBy l r ks desc s).WellFormed named)
    (hl : isEmpty l) : Rewrites named (.unionAllSortedBy l r ks desc s) r := by
  have hmem : r ∈ (Relation.unionAllSortedBy l r ks desc s).sources := by
    simp [Relation.sources]
  refine .of_refines h (h.source hmem) fun env _ => ⟨h.here.2.1, ?_, fun u hu => ?_⟩
  · rw [Relation.exposed]
    exact fun id hid => List.mem_append_right _ (List.mem_append_right _ hid)
  · have hl : Emits env l [] := by
      rw [eq_empty hl]
      exact emits_empty.mpr rfl
    refine ⟨_, emits_unionAllSortedBy.mpr ⟨[], u, hl, hu, _, .all_right _, ?_, rfl⟩, ?_⟩
    · exact fun _ hsorted => hsorted
    · exact keyed_approx ks u

theorem pruneUnionAllSortedBy_rewrites
    (h : (Relation.unionAllSortedBy l r ks desc s).WellFormed named) (b : Bool) :
    ∃ r' b', pruneUnionAllSortedBy l r (.unionAllSortedBy l r ks desc s) b = .ok (r', b') ∧
      Rewrites named (.unionAllSortedBy l r ks desc s) r' := by
  unfold pruneUnionAllSortedBy
  by_cases hl : isEmpty l <;> by_cases hr : isEmpty r
  · refine ⟨.empty s, true, by rw [hl, hr]; rfl, Rewrites.empty h fun env _ => ⟨[], ?_, .nil⟩⟩
    rw [eq_empty hl, eq_empty hr]
    refine emits_unionAllSortedBy.mpr ⟨[], [], emits_empty.mpr rfl, emits_empty.mpr rfl, [], .nil,
      fun hsorted _ => hsorted, rfl⟩
  · exact ⟨r, true, by rw [hl, Bool.eq_false_iff.mpr hr]; rfl, merge_right_rewrites h hl⟩
  · exact ⟨l, true, by rw [Bool.eq_false_iff.mpr hl, hr]; rfl, merge_left_rewrites h hr⟩
  · exact ⟨_, b, by rw [Bool.eq_false_iff.mpr hl, Bool.eq_false_iff.mpr hr]; rfl, .refl h⟩

end Unions

/-! ### One pass -/

section OnePass

variable {named : String → Option Schema} {r : Relation}

theorem rule_rewrites (h : r.WellFormed named) (b : Bool) :
    ∃ r' b', rule r b = .ok (r', b') ∧ Rewrites named r r' := by
  cases r with
  | unionAll rs s => exact pruneUnionAll_rewrites h b
  | unionAllSortedBy l r ks desc s => exact pruneUnionAllSortedBy_rewrites h b
  | projection r ps s | group r as ks s | filter r c s | sort r ks desc s | materialize r s =>
      refine pruneSimple_rewrites h (fun hr => ?_) b
      rw [eq_empty hr]
      constructor
  | topK r ks desc n s =>
      refine makeEmpty_rewrites h (fun hc => ?_) b
      rcases Bool.or_eq_true_iff.mp hc with hr | hn
      · rw [eq_empty hr]
        exact .topKSource
      · rw [eq_of_beq hn]
        exact .topKCount
  | limit r n s =>
      refine makeEmpty_rewrites h (fun hc => ?_) b
      rcases Bool.or_eq_true_iff.mp hc with hr | hn
      · rw [eq_empty hr]
        exact .limitSource
      · rw [eq_of_beq hn]
        exact .limitCount
  | semiJoin r m e f s =>
      refine makeEmpty_rewrites h (fun hc => ?_) b
      rcases Bool.or_eq_true_iff.mp hc with hr | hm
      · rw [eq_empty hr]
        exact .semiJoinSource
      · rw [eq_empty hm]
        exact .semiJoinMatch
  | leftJoin l r lk rk s =>
      refine makeEmpty_rewrites h (fun hl => ?_) b
      rw [eq_empty hl]
      exact .leftJoin
  | markJoin r m e o f s =>
      refine makeEmpty_rewrites h (fun hr => ?_) b
      rw [eq_empty hr]
      exact .markJoin
  | _ => exact ⟨_, b, rfl, .refl h⟩

theorem visit_rewrites (h : r.WellFormed named) :
    ∀ b, ∃ r' b', visit rule r b = .ok (r', b') ∧ Rewrites named r r' :=
  @Opt.visit_rewrites _ rule named (fun _ => True) (fun _ _ h => h)
    (fun _ hwf _ => rule_rewrites hwf) r h (.of_forall (fun _ => trivial) r)

end OnePass

end Lsql.Opt.EmptyRelationPrune
