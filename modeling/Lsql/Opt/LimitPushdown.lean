import Lsql.Flow.Cut
import Lsql.Opt.Traversal

/-!
# Lsql.Opt.LimitPushdown

The pass that moves limits towards the sources (`optimize/limit_pushdown.cpp`).

A limit is fused with a sort, a `TopK` or another limit below it, goes below a projection, and is
copied into the inputs of a union or a sorted merge, where the limit itself stays. What the rewritten
relation puts out the original may put out too (`limitPushdown_refines`): an interleaving of inputs
that have been cut off begins as one of the whole inputs does. A `TopK` of no rows, which its operator
refuses to be built with, puts out none: `emptyRelationPrune` takes it away in the same round.
-/

namespace Lsql.Opt.LimitPushdown

open Ir
open Flow (Cut Interleave Shuffle SortedMerge collect)

/-! ### The pass -/

/-- `Optimizer::ensureLimited`. -/
def ensureLimited (lim : Int) : Relation → Pass Relation
  | .limit source limit schema =>
    if lim < limit then do
      Pass.setChanges
      pure (.limit source lim schema)
    else pure (.limit source limit schema)
  | .topK source orderList desc topCount schema =>
    if lim < topCount then do
      Pass.setChanges
      pure (.topK source orderList desc lim schema)
    else pure (.topK source orderList desc topCount schema)
  | node => do
    Pass.setChanges
    pure (.limit node lim node.schema)

/-- `ensureLimited` on the sources of a union. -/
def ensureAllLimited (lim : Int) : List Relation → Pass (List Relation)
  | [] => pure []
  | source :: sources => do
    let source ← ensureLimited lim source
    let sources ← ensureAllLimited lim sources
    pure (source :: sources)

/-- `Optimizer::pushdown`, on a limit with this schema and its source. -/
def pushdown (lim : Int) (schema : Schema) : Relation → Pass Relation
  | .projection source projectors _ => do
    Pass.setChanges
    pure (.projection (.limit source lim source.schema) projectors schema)
  | .sort source orderList desc _ => do
    Pass.setChanges
    pure (.topK source orderList desc lim schema)
  | .limit source limit _ => do
    Pass.setChanges
    pure (.limit source (min lim limit) schema)
  | .topK source orderList desc topCount _ => do
    Pass.setChanges
    pure (.topK source orderList desc (min lim topCount) schema)
  | .unionAll sources s => do
    let sources ← ensureAllLimited lim sources
    pure (.limit (.unionAll sources s) lim schema)
  | .unionAllSortedBy left right orderList desc s => do
    let left ← ensureLimited lim left
    let right ← ensureLimited lim right
    pure (.limit (.unionAllSortedBy left right orderList desc s) lim schema)
  | source => pure (.limit source lim schema)

/-- `Optimizer::visit`, behind the traversal. -/
def rule : Relation → Pass Relation
  | .limit source limit schema => pushdown limit schema source
  | rel => pure rel

/-- `limitPushdown`. -/
def limitPushdown (program : Program) : Pass Program := visitProgram rule program

variable [Platform]

/-! ### Relations that put out no more -/

/-- The same data, and named relations that put out no more than before, but something. -/
structure EnvNarrows (env env' : Env) : Prop where
  data : env'.toData = env.toData
  named : ∀ name u, env'.named name u → env.named name u
  some : ∀ name, (∃ u, env.named name u) → ∃ u, env'.named name u

/-- A relation with the same columns that puts out no more than another one, but something. -/
structure Narrows (env env' : Env) (r r' : Relation) : Prop where
  schema : r'.schema = r.schema
  emits : ∀ u, Emits env' r' u → Emits env r u
  some : (∃ u, Emits env r u) → ∃ u, Emits env' r' u

omit [Platform] in
theorem EnvNarrows.refl (env : Env) : EnvNarrows env env :=
  ⟨rfl, fun _ _ h => h, fun _ h => h⟩

theorem Narrows.trans {env env' env'' : Env} {r r' r'' : Relation} (h : Narrows env env' r r')
    (h' : Narrows env' env'' r' r'') : Narrows env env'' r r'' where
  schema := h'.schema.trans h.schema
  emits u hu := h.emits u (h'.emits u hu)
  some hr := h'.some (h.some hr)

section Congruence

variable {env env' : Env} {r : Relation} {qs : List Relation}

/-- The operator on other sources does to the same sequences what it did before. -/
theorem Step.of_withSources (henv : EnvNarrows env env')
    (hqs : List.Forall₂ (Narrows env env') r.sources qs) {ss : List (List Item)}
    (hss : ss.length = r.sources.length) {u : List Item}
    (h : Step env' (r.withSources qs) ss u) : Step env r ss u := by
  cases r with
  | empty s | values vs id s =>
      cases hqs
      cases List.length_eq_zero_iff.mp hss
      exact h
  | file path range format s | stream command s =>
      cases hqs
      cases List.length_eq_zero_iff.mp hss
      simp only [Relation.withSources, Step, henv.data] at h
      exact h
  | namedRelationReference name s =>
      cases hqs
      cases List.length_eq_zero_iff.mp hss
      exact henv.named name u h
  | leftJoin l r lk rk s =>
      obtain ⟨q, p, rfl, -, hp⟩ := forall₂_two hqs
      obtain ⟨s, t, rfl⟩ := List.length_eq_two.mp hss
      simp only [Relation.withSources, Step, hp.schema] at h
      exact h
  | unionAll rs s => exact h
  | semiJoin | markJoin | unionAllSortedBy =>
      obtain ⟨q, p, rfl, -, -⟩ := forall₂_two hqs
      obtain ⟨s, t, rfl⟩ := List.length_eq_two.mp hss
      exact h
  | _ =>
      obtain ⟨q, rfl, -⟩ := forall₂_one hqs
      obtain ⟨s, rfl⟩ := List.length_eq_one_iff.mp hss
      exact h

omit [Platform] in
theorem withSources_named {name : String} {s : Schema} {qs : List Relation}
    (h : r.withSources qs = .namedRelationReference name s) :
    r = .namedRelationReference name s := by
  unfold Relation.withSources at h
  split at h <;> first | exact h | cases h

/-- Sources may be narrowed. -/
theorem Narrows.node (henv : EnvNarrows env env')
    (hqs : List.Forall₂ (Narrows env env') r.sources qs) :
    Narrows env env' r (r.withSources qs) where
  schema := Relation.schema_withSources
  emits u hu := by
    obtain ⟨ss, hss, hstep⟩ := hu.inv
    rw [Relation.sources_withSources hqs.length_eq.symm] at hss
    have hsources : List.Forall₂ (Emits env) r.sources ss :=
      forall₂_comp (fun q q' u hq hu => hq.emits u hu) hqs hss
    exact .node hsources (Step.of_withSources henv hqs hsources.length_eq.symm hstep)
  some := by
    rintro ⟨u, hu⟩
    obtain ⟨ss, hss, hstep⟩ := hu.inv
    have hsome : ∀ q' ∈ qs, ∃ u, Emits env' q' u := by
      intro q' hq'
      obtain ⟨q, hq, hnarrows⟩ := forall₂_mem_right hqs hq'
      obtain ⟨v, -, hv⟩ := forall₂_mem_left hss hq
      exact hnarrows.some ⟨v, hv⟩
    obtain ⟨ss', hss'⟩ := exists_forall₂ hsome
    have hlength := hss'.length_eq.symm
    rw [← Relation.sources_withSources hqs.length_eq.symm] at hss' hlength
    have hnamed : ∀ name s, r.withSources qs = .namedRelationReference name s →
        ∃ u, env'.named name u := by
      intro name s hr
      cases withSources_named hr
      cases hss
      exact henv.some name ⟨u, hstep⟩
    obtain ⟨u', hu'⟩ := exists_step_of_named hnamed hlength
    exact ⟨u', .node hss' hu'⟩

theorem Narrows.refl (henv : EnvNarrows env env') (r : Relation) : Narrows env env' r r := by
  induction r using Relation.induction with
  | h r ih =>
      have hnode := Narrows.node henv (List.forall₂_same.mpr ih)
      rwa [Relation.withSources_self] at hnode

end Congruence

/-! ### Limits -/

section Limits

variable {env : Env} {r : Relation} {u : List Item}

omit [Platform] in
/-- The smaller limit decides. -/
theorem take_take_min (v : List Item) (m n : Int) :
    (v.take m.toNat).take n.toNat = v.take (min n m).toNat := by
  rw [List.take_take]
  congr 1
  omega

omit [Platform] in
/-- What is cut off from a sequence of rows with keys that is sorted leaves one. -/
theorem isSorted_cut {n : Nat} {desc : Bool} {pairs : List (Row × List Value)}
    {k : List (Except Fault (Row × List Value))} (hc : AllComparable pairs)
    (ho : Ordered desc pairs) (h : Cut n (pairs.map .ok) k) :
    ∃ pairs', k = pairs'.map .ok ∧ Cut n pairs pairs' ∧ IsSorted desc k := by
  obtain ⟨pairs', rfl, hcut⟩ := h.of_map
  refine ⟨pairs', rfl, hcut, pairs', Flow.collect_map_ok pairs', ?_, ?_⟩
  · obtain ⟨rest, rfl, -⟩ := hcut
    exact fun p hp => hc p (List.mem_append_left rest hp)
  · obtain ⟨rest, rfl, -⟩ := hcut
    exact (List.pairwise_append.mp ho).1

/-- A merge of inputs that have been cut off begins as one of the whole inputs does. -/
theorem merges_uncut {n : Nat} {ks : List Scalar} {desc : Bool} {s t s' t' u' : List Item}
    (hs : Cut n s s') (ht : Cut n t t') (h : Merges ks desc s' t' u') :
    ∃ u, Merges ks desc s t u ∧ u.take n = u'.take n := by
  obtain ⟨w', hint, hsorted, rfl⟩ := h
  have hs := hs.map (attach (keyOf ks))
  have ht := ht.map (attach (keyOf ks))
  by_cases hboth : IsSorted desc (s.map (attach (keyOf ks))) ∧
      IsSorted desc (t.map (attach (keyOf ks)))
  · obtain ⟨⟨ps, hps, hcp, hop⟩, ⟨qs, hqs, hcq, hoq⟩⟩ := hboth
    have hps := Flow.collect_eq_ok hps
    have hqs := Flow.collect_eq_ok hqs
    rw [hps] at hs
    rw [hqs] at ht
    obtain ⟨ps', hps', hcutp, hsp⟩ := isSorted_cut hcp hop hs
    obtain ⟨qs', hqs', hcutq, hsq⟩ := isSorted_cut hcq hoq ht
    obtain ⟨ws', hws', -, hows⟩ := hsorted hsp hsq
    have hws' := Flow.collect_eq_ok hws'
    subst hws'
    rw [hps', hqs'] at hint
    obtain ⟨m', hm', hint⟩ := hint.of_map
    have hm' : ws' = m' := List.map_injective_iff.mpr (fun _ _ h => Except.ok.inj h) hm'
    subst hm'
    obtain ⟨m, hm, htake⟩ := SortedMerge.uncut (orderedOn_mayPrecede desc) ⟨hint, hows⟩ hcutp hcutq
      (fun _ _ => trivial) (fun _ _ => trivial) hop hoq
    refine ⟨_, ⟨m.map .ok, ?_, fun _ _ => ⟨m, Flow.collect_map_ok m, ?_, hm.sorted⟩, rfl⟩, ?_⟩
    · rw [hps, hqs]
      exact hm.interleave.map Except.ok
    · intro p hp
      rcases List.mem_append.mp (hm.interleave.perm.subset hp) with hp | hp
      · exact hcp p hp
      · exact hcq p hp
    · rw [← List.map_take, ← List.map_take, ← List.map_take, ← List.map_take, htake]
  · obtain ⟨w, hw, hcut⟩ := hint.uncut hs ht
    refine ⟨_, ⟨w, hw, fun hs ht => absurd ⟨hs, ht⟩ hboth, rfl⟩, ?_⟩
    rw [← List.map_take, ← List.map_take, hcut.take_eq]

/-- A relation that puts out what another one does, where rows behind the first `n` may be cut
off. -/
structure CutsOff (env : Env) (n : Nat) (r r' : Relation) : Prop where
  schema : r'.schema = r.schema
  emits : ∀ u', Emits env r' u' → ∃ u, Emits env r u ∧ Cut n u u'
  some : (∃ u, Emits env r u) → ∃ u, Emits env r' u

theorem CutsOff.refl (n : Nat) (r : Relation) : CutsOff env n r r :=
  ⟨rfl, fun u hu => ⟨u, hu, .refl n u⟩, fun h => h⟩

/-- A limit in place of a larger one. -/
theorem limit_cutsOff {lim limit : Int} (h : lim < limit) (s : Schema) :
    CutsOff env lim.toNat (.limit r limit s) (.limit r lim s) where
  schema := rfl
  emits u' hu' := by
    obtain ⟨v, hv, rfl⟩ := emits_limit.mp hu'
    refine ⟨_, emits_limit.mpr ⟨v, hv, rfl⟩, ?_⟩
    have hcut := Cut.take lim.toNat lim.toNat (v.take limit.toNat) le_rfl
    rwa [take_take_min, min_eq_left h.le] at hcut
  some := by
    rintro ⟨u, hu⟩
    obtain ⟨v, hv, -⟩ := emits_limit.mp hu
    exact ⟨_, emits_limit.mpr ⟨v, hv, rfl⟩⟩

theorem topK_cutsOff {lim topCount : Int} (h : lim < topCount) (ks : List Scalar) (desc : Bool)
    (s : Schema) :
    CutsOff env lim.toNat (.topK r ks desc topCount s) (.topK r ks desc lim s) where
  schema := rfl
  emits u' hu' := by
    obtain ⟨v, hv, w, hw, rfl⟩ := emits_topK.mp hu'
    refine ⟨_, emits_topK.mpr ⟨v, hv, w, hw, rfl⟩, ?_⟩
    have hcut := Cut.take lim.toNat lim.toNat (w.take topCount.toNat) le_rfl
    rwa [take_take_min, min_eq_left h.le] at hcut
  some := by
    rintro ⟨u, hu⟩
    obtain ⟨v, hv, w, hw, -⟩ := emits_topK.mp hu
    exact ⟨_, emits_topK.mpr ⟨v, hv, w, hw, rfl⟩⟩

/-- A limit on any relation. -/
theorem limited_cutsOff (lim : Int) (r : Relation) :
    CutsOff env lim.toNat r (.limit r lim r.schema) where
  schema := rfl
  emits u' hu' := by
    obtain ⟨v, hv, rfl⟩ := emits_limit.mp hu'
    exact ⟨v, hv, .take _ _ v le_rfl⟩
  some := by
    rintro ⟨v, hv⟩
    exact ⟨_, emits_limit.mpr ⟨v, hv, rfl⟩⟩

theorem ensureLimited_spec (lim : Int) (r : Relation) (b : Bool) :
    ∃ r' b', ensureLimited lim r b = .ok (r', b') ∧ ∀ env, CutsOff env lim.toNat r r' := by
  cases r with
  | limit r limit s =>
      by_cases h : lim < limit
      · refine ⟨.limit r lim s, true, ?_, fun env => limit_cutsOff h s⟩
        simp only [ensureLimited, if_pos h]
        rfl
      · refine ⟨.limit r limit s, b, ?_, fun env => .refl _ _⟩
        simp only [ensureLimited, if_neg h]
        rfl
  | topK r ks desc topCount s =>
      by_cases h : lim < topCount
      · refine ⟨.topK r ks desc lim s, true, ?_, fun env => topK_cutsOff h ks desc s⟩
        simp only [ensureLimited, if_pos h]
        rfl
      · refine ⟨.topK r ks desc topCount s, b, ?_, fun env => .refl _ _⟩
        simp only [ensureLimited, if_neg h]
        rfl
  | _ => exact ⟨_, true, rfl, fun env => limited_cutsOff lim _⟩

theorem ensureAllLimited_spec (lim : Int) (rs : List Relation) (b : Bool) :
    ∃ rs' b', ensureAllLimited lim rs b = .ok (rs', b') ∧
      ∀ env, List.Forall₂ (CutsOff env lim.toNat) rs rs' := by
  induction rs generalizing b with
  | nil => exact ⟨[], b, rfl, fun _ => .nil⟩
  | cons r rs ih =>
      obtain ⟨r', b₁, hr, hcut⟩ := ensureLimited_spec lim r b
      obtain ⟨rs', b₂, hrs, hcuts⟩ := ih b₁
      refine ⟨r' :: rs', b₂, ?_, fun env => .cons (hcut env) (hcuts env)⟩
      rw [ensureAllLimited]
      exact Pass.bind_ok.mpr ⟨r', b₁, hr, Pass.bind_ok.mpr ⟨rs', b₂, hrs, rfl⟩⟩

end Limits

/-! ### The rules -/

section Rules

variable {env : Env} {r : Relation}

/-- What a limit puts out is decided by the sequences of its source. -/
theorem limit_narrows {r r' : Relation} {lim : Int} {s : Schema} (hschema : r'.schema = s)
    (h : ∀ u, Emits env r' u → ∃ v, Emits env r v ∧ u = v.take lim.toNat)
    (hsome : (∃ v, Emits env r v) → ∃ u, Emits env r' u) :
    Narrows env env (.limit r lim s) r' where
  schema := hschema
  emits u hu := emits_limit.mpr (h u hu)
  some := by
    rintro ⟨u, hu⟩
    obtain ⟨v, hv, -⟩ := emits_limit.mp hu
    exact hsome ⟨v, hv⟩

theorem limit_projection (lim : Int) (ps : List Projector) (s t : Schema) :
    Narrows env env (.limit (.projection r ps t) lim s)
      (.projection (.limit r lim r.schema) ps s) := by
  refine limit_narrows rfl (fun u hu => ?_) ?_
  · obtain ⟨w, hw, rfl⟩ := emits_projection.mp hu
    obtain ⟨v, hv, rfl⟩ := emits_limit.mp hw
    refine ⟨_, emits_projection.mpr ⟨v, hv, rfl⟩, ?_⟩
    -- a row for a row: the first rows are made of the first rows
    rw [Flow.expand_single, Flow.expand_single, List.map_take]
  · rintro ⟨w, hw⟩
    obtain ⟨v, hv, -⟩ := emits_projection.mp hw
    exact ⟨_, emits_projection.mpr ⟨_, emits_limit.mpr ⟨v, hv, rfl⟩, rfl⟩⟩

theorem limit_sort (lim : Int) (ks : List Scalar) (desc : Bool) (s t : Schema) :
    Narrows env env (.limit (.sort r ks desc t) lim s) (.topK r ks desc lim s) := by
  refine limit_narrows rfl (fun u hu => ?_) ?_
  · obtain ⟨v, hv, w, hw, rfl⟩ := emits_topK.mp hu
    exact ⟨w, emits_sort.mpr ⟨v, hv, hw⟩, rfl⟩
  · rintro ⟨w, hw⟩
    obtain ⟨v, hv, hw⟩ := emits_sort.mp hw
    exact ⟨_, emits_topK.mpr ⟨v, hv, w, hw, rfl⟩⟩

theorem limit_limit (lim limit : Int) (s t : Schema) :
    Narrows env env (.limit (.limit r limit t) lim s) (.limit r (min lim limit) s) := by
  refine limit_narrows rfl (fun u hu => ?_) ?_
  · obtain ⟨v, hv, rfl⟩ := emits_limit.mp hu
    exact ⟨_, emits_limit.mpr ⟨v, hv, rfl⟩, (take_take_min v limit lim).symm⟩
  · rintro ⟨w, hw⟩
    obtain ⟨v, hv, -⟩ := emits_limit.mp hw
    exact ⟨_, emits_limit.mpr ⟨v, hv, rfl⟩⟩

theorem limit_topK (lim topCount : Int) (ks : List Scalar) (desc : Bool) (s t : Schema) :
    Narrows env env (.limit (.topK r ks desc topCount t) lim s)
      (.topK r ks desc (min lim topCount) s) := by
  refine limit_narrows rfl (fun u hu => ?_) ?_
  · obtain ⟨v, hv, w, hw, rfl⟩ := emits_topK.mp hu
    exact ⟨_, emits_topK.mpr ⟨v, hv, w, hw, rfl⟩, (take_take_min w topCount lim).symm⟩
  · rintro ⟨u, hu⟩
    obtain ⟨v, hv, w, hw, -⟩ := emits_topK.mp hu
    exact ⟨_, emits_topK.mpr ⟨v, hv, w, hw, rfl⟩⟩

/-- The limit stays on a source that begins as the old one does. -/
theorem limit_source {r' : Relation} (lim : Int) (s : Schema)
    (h : ∀ u', Emits env r' u' → ∃ u, Emits env r u ∧ u.take lim.toNat = u'.take lim.toNat)
    (hsome : (∃ u, Emits env r u) → ∃ u, Emits env r' u) :
    Narrows env env (.limit r lim s) (.limit r' lim s) := by
  refine limit_narrows rfl (fun u hu => ?_) (fun hr => ?_)
  · obtain ⟨v', hv', rfl⟩ := emits_limit.mp hu
    obtain ⟨v, hv, htake⟩ := h v' hv'
    exact ⟨v, hv, htake.symm⟩
  · obtain ⟨u, hu⟩ := hsome hr
    exact ⟨_, emits_limit.mpr ⟨u, hu, rfl⟩⟩

/-- What sources put out that have been cut off. -/
theorem emits_of_cutsOff {n : Nat} {qs qs' : List Relation}
    (h : List.Forall₂ (CutsOff env n) qs qs') {ss' : List (List Item)}
    (hss' : List.Forall₂ (Emits env) qs' ss') :
    ∃ ss, List.Forall₂ (Emits env) qs ss ∧ List.Forall₂ (Cut n) ss ss' := by
  induction h generalizing ss' with
  | nil =>
      cases hss'
      exact ⟨[], .nil, .nil⟩
  | cons hq _ ih =>
      cases hss' with
      | cons hs' hrest =>
          obtain ⟨s, hs, hcut⟩ := hq.emits _ hs'
          obtain ⟨ss, hss, hcuts⟩ := ih hrest
          exact ⟨s :: ss, .cons hs hss, .cons hcut hcuts⟩

theorem limit_unionAll (lim : Int) (s t : Schema) {rs rs' : List Relation}
    (h : List.Forall₂ (CutsOff env lim.toNat) rs rs') :
    Narrows env env (.limit (.unionAll rs t) lim s) (.limit (.unionAll rs' t) lim s) := by
  refine limit_source lim s (fun u' hu' => ?_) ?_
  · obtain ⟨ss', hss', hshuffle⟩ := emits_unionAll.mp hu'
    obtain ⟨ss, hss, hcuts⟩ := emits_of_cutsOff h hss'
    obtain ⟨u, hu, hcut⟩ := hshuffle.uncut hcuts
    exact ⟨u, emits_unionAll.mpr ⟨ss, hss, hu⟩, hcut.take_eq.symm⟩
  · rintro ⟨u, hu⟩
    obtain ⟨ss, hss, -⟩ := emits_unionAll.mp hu
    have hsome : ∀ r' ∈ rs', ∃ u, Emits env r' u := by
      intro r' hr'
      obtain ⟨r, hr, hcut⟩ := forall₂_mem_right h hr'
      obtain ⟨v, -, hv⟩ := forall₂_mem_left hss hr
      exact hcut.some ⟨v, hv⟩
    obtain ⟨ss', hss'⟩ := exists_forall₂ hsome
    obtain ⟨u', hu'⟩ := Shuffle.exists_any ss'
    exact ⟨u', emits_unionAll.mpr ⟨ss', hss', hu'⟩⟩

theorem limit_unionAllSortedBy (lim : Int) (ks : List Scalar) (desc : Bool) (s t : Schema)
    {l r l' r' : Relation} (hl : CutsOff env lim.toNat l l') (hr : CutsOff env lim.toNat r r') :
    Narrows env env (.limit (.unionAllSortedBy l r ks desc t) lim s)
      (.limit (.unionAllSortedBy l' r' ks desc t) lim s) := by
  refine limit_source lim s (fun u' hu' => ?_) ?_
  · obtain ⟨v', w', hv', hw', hmerge⟩ := emits_unionAllSortedBy.mp hu'
    obtain ⟨v, hv, hcutv⟩ := hl.emits v' hv'
    obtain ⟨w, hw, hcutw⟩ := hr.emits w' hw'
    obtain ⟨u, hu, htake⟩ := merges_uncut hcutv hcutw hmerge
    exact ⟨u, emits_unionAllSortedBy.mpr ⟨v, w, hv, hw, hu⟩, htake⟩
  · rintro ⟨u, hu⟩
    obtain ⟨v, w, hv, hw, -⟩ := emits_unionAllSortedBy.mp hu
    obtain ⟨v', hv'⟩ := hl.some ⟨v, hv⟩
    obtain ⟨w', hw'⟩ := hr.some ⟨w, hw⟩
    obtain ⟨u', hu'⟩ := exists_merges ks desc v' w'
    exact ⟨u', emits_unionAllSortedBy.mpr ⟨v', w', hv', hw', hu'⟩⟩

theorem pushdown_spec (lim : Int) (s : Schema) (r : Relation) (b : Bool) :
    ∃ r' b', pushdown lim s r b = .ok (r', b') ∧ ∀ env, Narrows env env (.limit r lim s) r' := by
  cases r with
  | projection r ps t => exact ⟨_, true, rfl, fun env => limit_projection lim ps s t⟩
  | sort r ks desc t => exact ⟨_, true, rfl, fun env => limit_sort lim ks desc s t⟩
  | limit r limit t => exact ⟨_, true, rfl, fun env => limit_limit lim limit s t⟩
  | topK r ks desc topCount t =>
      exact ⟨_, true, rfl, fun env => limit_topK lim topCount ks desc s t⟩
  | unionAll rs t =>
      obtain ⟨rs', b', hrs', hcuts⟩ := ensureAllLimited_spec lim rs b
      refine ⟨_, b', ?_, fun env => limit_unionAll lim s t (hcuts env)⟩
      rw [pushdown]
      exact Pass.bind_ok.mpr ⟨rs', b', hrs', rfl⟩
  | unionAllSortedBy l r ks desc t =>
      obtain ⟨l', b₁, hl', hl⟩ := ensureLimited_spec lim l b
      obtain ⟨r', b₂, hr', hr⟩ := ensureLimited_spec lim r b₁
      refine ⟨_, b₂, ?_, fun env => limit_unionAllSortedBy lim ks desc s t (hl env) (hr env)⟩
      rw [pushdown]
      exact Pass.bind_ok.mpr ⟨l', b₁, hl', Pass.bind_ok.mpr ⟨r', b₂, hr', rfl⟩⟩
  | _ => exact ⟨_, b, rfl, fun env => .refl (.refl env) _⟩

theorem rule_spec (r : Relation) (b : Bool) :
    ∃ r' b', rule r b = .ok (r', b') ∧ ∀ env, Narrows env env r r' := by
  cases r with
  | limit r lim s => exact pushdown_spec lim s r b
  | _ => exact ⟨_, b, rfl, fun env => .refl (.refl env) _⟩

/-- One pass over a relation. -/
theorem visit_narrows (r : Relation) (b : Bool) :
    ∃ r' b', visit rule r b = .ok (r', b') ∧
      ∀ env env', EnvNarrows env env' → Narrows env env' r r' := by
  refine @visit_spec rule (fun _ => True) (fun _ => True)
    (fun r r' => ∀ env env', EnvNarrows env env' → Narrows env env' r r') ?_ ?_ ?_ ?_ r trivial b
  · exact fun _ _ _ _ => trivial
  · intro r qs _ hqs
    exact ⟨trivial, fun env env' henv => .node henv (hqs.imp fun q q' hq => hq env env' henv)⟩
  · intro r _ b
    obtain ⟨r', b', hr', hnarrows⟩ := rule_spec r b
    exact ⟨r', b', hr', fun env env' henv => (Narrows.refl henv r).trans (hnarrows env')⟩
  · intro r r' r'' h h' env env' henv
    exact (h env env' henv).trans (h' env' env' (.refl env'))

end Rules

/-! ### Programs -/

section Programs

variable {env env' : Env} {name : String} {r r' : Relation} {ss ss' : List Statement}

/-- A statement whose relation has been narrowed. -/
inductive StatementNarrows : Statement → Statement → Prop
  | namedRelation {name : String} {r r' : Relation} :
      (∀ env env', EnvNarrows env env' → Narrows env env' r r') →
      StatementNarrows (.namedRelation name r) (.namedRelation name r')
  | query {r r' : Relation} : (∀ env env', EnvNarrows env env' → Narrows env env' r r') →
      StatementNarrows (.query r) (.query r')

theorem StatementNarrows.refl (s : Statement) : StatementNarrows s s := by
  cases s with
  | namedRelation name r => exact .namedRelation fun env env' henv => .refl henv r
  | query r => exact .query fun env env' henv => .refl henv r

theorem StatementNarrows.trans {s s' s'' : Statement} (h : StatementNarrows s s')
    (h' : StatementNarrows s' s'') : StatementNarrows s s'' := by
  cases h with
  | namedRelation h =>
      cases h' with
      | namedRelation h' =>
          exact .namedRelation fun env env' henv => (h env env' henv).trans (h' _ _ (.refl env'))
  | query h =>
      cases h' with
      | query h' => exact .query fun env env' henv => (h env env' henv).trans (h' _ _ (.refl env'))

omit [Platform] in
/-- A name for sequences that are no more than before, but some. -/
theorem EnvNarrows.update (henv : EnvNarrows env env') (name : String) {S S' : List Item → Prop}
    (hsub : ∀ u, S' u → S u) (hsome : (∃ u, S u) → ∃ u, S' u) :
    EnvNarrows { env with named := Function.update env.named name S }
      { env' with named := Function.update env'.named name S' } where
  data := henv.data
  named n u hu := by
    change Function.update env'.named name S' n u at hu
    show Function.update env.named name S n u
    by_cases hn : n = name
    · subst hn
      rw [Function.update_self] at hu ⊢
      exact hsub u hu
    · rw [Function.update_of_ne hn] at hu ⊢
      exact henv.named n u hu
  some n hu := by
    change ∃ u, Function.update env.named name S n u at hu
    show ∃ u, Function.update env'.named name S' n u
    by_cases hn : n = name
    · subst hn
      rw [Function.update_self] at hu ⊢
      exact hsome hu
    · rw [Function.update_of_ne hn] at hu ⊢
      exact henv.some n hu

theorem EnvNarrows.define (henv : EnvNarrows env env') (name : String) (r : Relation) :
    EnvNarrows (env.define name r) (env'.define name r) :=
  henv.update name (Narrows.refl henv r).emits (Narrows.refl henv r).some

/-- A name for one of the sequences that a relation puts out. -/
theorem EnvNarrows.single {r : Relation} {u : List Item} (hu : Emits env r u) (name : String) :
    EnvNarrows (env.define name r)
      { env with named := Function.update env.named name fun v => v = u } := by
  refine (EnvNarrows.refl env).update name (fun v hv => ?_) fun _ => ⟨u, rfl⟩
  subst hv
  exact hu

theorem queries_narrow (h : List.Forall₂ StatementNarrows ss ss') (henv : EnvNarrows env env') :
    List.Forall₂ (fun q q' => Narrows q.1 q'.1 q.2 q'.2) (queries env ss) (queries env' ss') := by
  induction h generalizing env env' with
  | nil => exact .nil
  | cons hs _ ih =>
      cases hs with
      | namedRelation hr => exact ih (henv.update _ (hr env env' henv).emits (hr env env' henv).some)
      | query hr => exact .cons (hr env env' henv) (ih henv)

theorem runs_narrow (h : List.Forall₂ StatementNarrows ss ss') (henv : EnvNarrows env env')
    {us : List (List Item)} (hruns : Runs env' ss' us) : Runs env ss us := by
  induction h generalizing env env' us with
  | nil =>
      cases hruns
      exact .nil
  | cons hs _ ih =>
      cases hs with
      | @namedRelation name r r' hr =>
          cases hruns with
          | @namedRelation _ _ _ u _ _ hu hrest =>
              have hsame := @EnvNarrows.update env env' henv name (fun v => v = u) _
                (fun _ h => h) (fun h => h)
              exact .namedRelation ((hr env env' henv).emits u hu) (ih hsame hrest)
      | query hr =>
          cases hruns with
          | query hu hrest => exact .query ((hr env env' henv).emits _ hu) (ih henv hrest)

theorem visitStatements_narrows (ss : List Statement) (b : Bool) :
    ∃ ss' b', visitStatements rule ss b = .ok (ss', b') ∧
      List.Forall₂ StatementNarrows ss ss' := by
  induction ss generalizing b with
  | nil => exact ⟨[], b, rfl, .nil⟩
  | cons s ss ih =>
      have hstatement : ∃ s' b', visitStatement rule s b = .ok (s', b') ∧
          StatementNarrows s s' := by
        cases s with
        | namedRelation name r =>
            obtain ⟨r', b₁, hr', hnarrows⟩ := visit_narrows r b
            exact ⟨.namedRelation name r', b₁, Pass.bind_ok.mpr ⟨r', b₁, hr', rfl⟩,
              .namedRelation hnarrows⟩
        | query r =>
            obtain ⟨r', b₁, hr', hnarrows⟩ := visit_narrows r b
            exact ⟨.query r', b₁, Pass.bind_ok.mpr ⟨r', b₁, hr', rfl⟩, .query hnarrows⟩
      obtain ⟨s', b₁, hs', hnarrows⟩ := hstatement
      obtain ⟨ss', b₂, hss', hall⟩ := ih b₁
      refine ⟨s' :: ss', b₂, ?_, .cons hnarrows hall⟩
      rw [visitStatements]
      exact Pass.bind_ok.mpr ⟨s', b₁, hs', Pass.bind_ok.mpr ⟨ss', b₂, hss', rfl⟩⟩

/-- A program whose statements have been narrowed. -/
def ProgramNarrows (program program' : Program) : Prop :=
  List.Forall₂ StatementNarrows program.statements program'.statements

theorem limitPushdown_narrows (program : Program) (b : Bool) :
    ∃ program' b', limitPushdown program b = .ok (program', b') ∧
      ProgramNarrows program program' := by
  obtain ⟨ss', b', hss', hall⟩ := visitStatements_narrows program.statements b
  exact ⟨_, b', visitProgram_ok hss', hall⟩

/-- **Moving limits is a refinement.** After any number of passes, a query puts out only what it may
have put out before, and something if it did; and what one run of the program puts out, one run of
the original may put out. -/
theorem limitPushdown_refines (n : Nat) (program : Program) :
    ∃ program', Pass.times limitPushdown n program = .ok program' ∧ ∀ data,
      List.Forall₂ (fun q q' => Narrows q.1 q'.1 q.2 q'.2) (program.queries data)
        (program'.queries data) ∧
      ∀ us, program'.Runs data us → program.Runs data us := by
  have hrefl : ∀ p, ProgramNarrows p p := fun p => List.forall₂_same.mpr fun s _ => .refl s
  have htrans : ∀ p p' p'', ProgramNarrows p p' → ProgramNarrows p' p'' → ProgramNarrows p p'' :=
    fun p p' p'' h h' => forall₂_comp (fun _ _ _ hs hs' => hs.trans hs') h h'
  obtain ⟨program', hprogram', hall⟩ :=
    Pass.times_spec hrefl htrans limitPushdown_narrows n program
  refine ⟨program', hprogram', fun data => ⟨queries_narrow hall (.refl _), fun us hus => ?_⟩⟩
  exact runs_narrow hall (.refl _) hus

end Programs

end Lsql.Opt.LimitPushdown
