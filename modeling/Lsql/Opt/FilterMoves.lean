import Lsql.Opt.FilterPushdown
import Lsql.Opt.LimitPushdown

/-!
# Lsql.Opt.FilterMoves

`filterPushdown` on filters, relations and programs: the pass completes and keeps the rows, as long as
the parts of conditions that it moves are true or false on the rows where it moves them.
-/

namespace Lsql.Opt.FilterPushdown

open Ir
open Flow (Approx)
open LimitPushdown (EnvNarrows Narrows)

section Moves

variable [Platform] {named : String → Option Schema} {env env' : Env}

/-! ### One filter -/

section OneFilter

omit [Platform] in
theorem forwardedFields_sublist (ps : List Projector) :
    ((forwardedFields ps).map Prod.fst).Sublist (ps.map Projector.aliasFieldId) := by
  induction ps with
  | nil => exact .slnil
  | cons q ps ih =>
      cases hexpr : q.expr with
      | field i ty =>
          have hhere : forwardedFields (q :: ps) = (q.aliasFieldId, i) :: forwardedFields ps := by
            simp [forwardedFields, hexpr]
          rw [hhere]
          exact ih.cons_cons _
      | _ =>
          have hhere : forwardedFields (q :: ps) = forwardedFields ps := by
            simp [forwardedFields, hexpr]
          rw [hhere]
          exact ih.cons _

omit [Platform] in
/-- The part of a condition that goes below a projection can be renamed. -/
theorem rebind_forwarded {ps : List Projector} {fields schema : Schema} {p : Scalar}
    (hfields : Schema.empty.appendAll ((forwardedFields ps).map Prod.fst) = .ok fields)
    (hp : p.ReadsIn fields) (hps : ∀ q ∈ ps, q.expr.ReadsIn schema) :
    ∃ p', rebind (forwardedFields ps) p = .ok p' ∧ Rebound (forwardedFields ps) p p' ∧
      p'.ReadsIn schema := by
  have hlookup : ∀ id ∈ p.fields, ∃ id', (forwardedFields ps).lookup id = some id' := by
    intro id hid
    have hmem := hp id hid
    rw [Schema.appendAll_eq_ok.mp hfields, Schema.empty, List.nil_append] at hmem
    obtain ⟨q, hq, rfl⟩ := List.mem_map.mp hmem
    cases hnone : (forwardedFields ps).lookup q.1 with
    | some id' => exact ⟨id', rfl⟩
    | none =>
        have hne := List.lookup_eq_none_iff.mp hnone q hq
        rw [bne_self_eq_false] at hne
        cases hne
  obtain ⟨p', hp', hrebound⟩ := rebind_ok hlookup
  refine ⟨p', hp', hrebound, hrebound.readsIn schema fun q hq => ?_⟩
  obtain ⟨o, ho, ty, hexpr⟩ := forwardedFields_source hq
  refine hps o ho q.2 ?_
  rw [hexpr]
  exact List.mem_cons_self

/-- What is known of a filter that is moved. -/
structure Movable (named : String → Option Schema) (env : Env) (c : Scalar) (s : Schema)
    (r : Relation) : Prop where
  wellFormed : (Relation.filter r c s).WellFormed named
  condition : AndsBinary c
  binary : r.Everywhere BinaryNode
  clean : r.Everywhere (Clean env)
  decides : Decides env c r
  pushes : PushesDecided env c r

variable {c : Scalar} {s : Schema} {r : Relation}

theorem Movable.source (h : Movable named env c s r) : r.WellFormed named :=
  h.wellFormed.source List.mem_cons_self

/-- A condition for a source. -/
theorem Movable.below (h : Movable named env c s r) {q : Relation} (hq : q ∈ r.sources)
    {c' : Scalar} (hreads : c'.ReadsIn q.schema) (hcondition : AndsBinary c')
    (hdecides : Decides env c' q) (hpushes : PushesDecided env c' q) :
    Movable named env c' q.schema q where
  wellFormed := filtered_wellFormed (h.source.source hq) hreads
  condition := hcondition
  binary := h.binary.source hq
  clean := h.clean.source hq
  decides := hdecides
  pushes := hpushes

/-- A filter that stays where it is. -/
theorem Movable.stays (h : Movable named env c s r) :
    Replaces named env env (.filter r c s) (.filter r c s) := by
  have hr : ∀ q ∈ (Relation.filter r c s).sources, q = r := fun q hq => List.mem_singleton.mp hq
  refine ⟨h.wellFormed, .refl (.refl named env) h.wellFormed,
    .node (h.clean.here.filter h.decides) fun q hq => ?_, .node h.condition fun q hq => ?_⟩
  · rw [hr q hq]
    exact h.clean
  · rw [hr q hq]
    exact h.binary

theorem pushesDecidedAll_iff {rs : List Relation} :
    PushesDecidedAll env c rs ↔ ∀ r ∈ rs, PushesDecided env c r := by
  induction rs with
  | nil => simp [PushesDecidedAll]
  | cons r rs ih => simp [PushesDecidedAll, ih]

theorem addFilterAll_ok {rs : List Relation}
    (h : ∀ r ∈ rs, ∀ b, ∃ r' b', pushdown c r.schema r b = .ok (r', b') ∧
      Replaces named env env (filtered c r) r') (b : Bool) :
    ∃ rs' b', addFilterAll c rs b = .ok (rs', b') ∧
      List.Forall₂ (Replaces named env env) (rs.map (filtered c)) rs' := by
  induction rs generalizing b with
  | nil => exact ⟨[], b, rfl, .nil⟩
  | cons r rs ih =>
      obtain ⟨r', b₁, hr, hreplaces⟩ := h r List.mem_cons_self b
      obtain ⟨rs', b₂, hrs, hall⟩ := ih (fun q hq => h q (List.mem_cons_of_mem _ hq)) b₁
      refine ⟨r' :: rs', b₂, ?_, .cons hreplaces hall⟩
      rw [addFilterAll]
      exact Pass.bind_ok.mpr ⟨r', b₁, hr, Pass.bind_ok.mpr ⟨rs', b₂, hrs, rfl⟩⟩

/-- Below a union. -/
theorem pushdown_union {rs : List Relation} {t : Schema} (htotal : env.Total named)
    (h : Movable named env c s (.unionAll rs t))
    (ih : ∀ r ∈ rs, ∀ {c s}, Movable named env c s r → ∀ b, ∃ r' b',
      pushdown c s r b = .ok (r', b') ∧ Replaces named env env (.filter r c s) r') (b : Bool) :
    ∃ r' b', pushdown c s (.unionAll rs t) b = .ok (r', b') ∧
      Replaces named env env (.filter (.unionAll rs t) c s) r' := by
  have hclean := h.clean.here.filter (s := s) h.decides
  have hpushes := h.pushes
  rw [PushesDecided] at hpushes
  have hsource : ∀ r ∈ rs, Movable named env c r.schema r := fun r hr =>
    h.below hr (h.wellFormed.here.2.mono (h.source.here.2 r hr)) h.condition
      (h.decides.union htotal h.source hr) (pushesDecidedAll_iff.mp hpushes r hr)
  obtain ⟨rs', b₁, hrs, hall⟩ := addFilterAll_ok (fun r hr => ih r hr (hsource r hr)) b
  refine ⟨.unionAll rs' t, true, ?_, ?_⟩
  · rw [pushdown]
    exact Pass.bind_ok.mpr ⟨rs', b₁, hrs, rfl⟩
  · exact @Replaces.withSources _ named env env _ (.unionAll (rs.map (filtered c)) t) rs' hclean
      (.refl named env) (union_filter_wellFormed h.wellFormed) trivial (refines_union h.wellFormed) hall

/-- Below a sorted merge. -/
theorem pushdown_merge {l : Relation} {ks : List Scalar} {desc : Bool} {t : Schema}
    (htotal : env.Total named) (h : Movable named env c s (.unionAllSortedBy l r ks desc t))
    (ih : ∀ q ∈ [l, r], ∀ {c s}, Movable named env c s q → ∀ b, ∃ q' b',
      pushdown c s q b = .ok (q', b') ∧ Replaces named env env (.filter q c s) q') (b : Bool) :
    ∃ r' b', pushdown c s (.unionAllSortedBy l r ks desc t) b = .ok (r', b') ∧
      Replaces named env env (.filter (.unionAllSortedBy l r ks desc t) c s) r' := by
  have hclean := h.clean.here.filter (s := s) h.decides
  have hr : r ∈ [l, r] := List.mem_cons_of_mem _ List.mem_cons_self
  have hpushes := h.pushes
  rw [PushesDecided] at hpushes
  obtain ⟨hcl, hcr⟩ := h.decides.merge htotal h.source h.clean.here
  have hleft : Movable named env c l.schema l := h.below List.mem_cons_self
    (h.wellFormed.here.2.mono h.source.here.1) h.condition hcl hpushes.1
  have hright : Movable named env c r.schema r := h.below hr
    (h.wellFormed.here.2.mono h.source.here.2.1) h.condition hcr hpushes.2
  obtain ⟨l', b₁, hl', hrl⟩ := ih l List.mem_cons_self hleft b
  obtain ⟨r', b₂, hr', hrr⟩ := ih r hr hright b₁
  refine ⟨.unionAllSortedBy l' r' ks desc t, true, ?_, ?_⟩
  · rw [pushdown]
    exact Pass.bind_ok.mpr ⟨l', b₁, hl', Pass.bind_ok.mpr ⟨r', b₂, hr', rfl⟩⟩
  · exact @Replaces.withSources _ named env env _
      (.unionAllSortedBy (filtered c l) (filtered c r) ks desc t) [l', r'] hclean
      (.refl named env) (merge_filter_wellFormed h.wellFormed) trivial
      (refines_merge htotal h.wellFormed h.clean.here h.decides) (.cons hrl (.cons hrr .nil))

/-- Below a sort. -/
theorem pushdown_sort {ks : List Scalar} {desc : Bool} {t : Schema}
    (h : Movable named env c s (.sort r ks desc t))
    (ih : ∀ {c s}, Movable named env c s r → ∀ b, ∃ q' b',
      pushdown c s r b = .ok (q', b') ∧ Replaces named env env (.filter r c s) q') (b : Bool) :
    ∃ r' b', pushdown c s (.sort r ks desc t) b = .ok (r', b') ∧
      Replaces named env env (.filter (.sort r ks desc t) c s) r' := by
  have hclean := h.clean.here.filter (s := s) h.decides
  have hpushes := h.pushes
  rw [PushesDecided] at hpushes
  have hsource : Movable named env c r.schema r := h.below List.mem_cons_self
    (h.wellFormed.here.2.mono h.source.here.1) h.condition (h.decides.sort h.clean.here) hpushes
  obtain ⟨r', b₁, hr', hreplaces⟩ := ih hsource b
  refine ⟨.sort r' ks desc t, true, ?_, ?_⟩
  · rw [pushdown]
    exact Pass.bind_ok.mpr ⟨r', b₁, hr', rfl⟩
  · exact @Replaces.withSources _ named env env _ (.sort (filtered c r) ks desc t) [r'] hclean
      (.refl named env) (sort_filter_wellFormed h.wellFormed) trivial
      (refines_sort h.wellFormed h.clean.here h.decides) (.cons hreplaces .nil)

/-- Below a projection. -/
theorem pushdown_projection {ps : List Projector} {t : Schema}
    (h : Movable named env c s (.projection r ps t))
    (ih : ∀ {c s}, Movable named env c s r → ∀ b, ∃ q' b',
      pushdown c s r b = .ok (q', b') ∧ Replaces named env env (.filter r c s) q') (b : Bool) :
    ∃ r' b', pushdown c s (.projection r ps t) b = .ok (r', b') ∧
      Replaces named env env (.filter (.projection r ps t) c s) r' := by
  obtain ⟨hfieldsOf, hreads⟩ := h.source.here
  have hnodup : (ps.map Projector.aliasFieldId).Nodup := hfieldsOf ▸ t.nodup
  have hpushes := h.pushes
  rw [PushesDecided] at hpushes
  have hforwarded : (Schema.empty.fields ++ (forwardedFields ps).map Prod.fst).Nodup := by
    simpa [Schema.empty] using hnodup.sublist (forwardedFields_sublist ps)
  obtain ⟨fields, hfields⟩ := Schema.appendAll_ok_iff.mpr hforwarded
  obtain ⟨split, hsplit⟩ := @splitCondition_ok fields _ h.condition
  have hsplits := splits_of_ok hsplit
  cases hp : split.pushable with
  | none =>
      refine ⟨_, b, ?_, h.stays⟩
      rw [pushdown]
      refine Pass.bind_ok.mpr ⟨fields, b, Pass.lift_ok.mpr ⟨hfields, rfl⟩, ?_⟩
      refine Pass.bind_ok.mpr ⟨split, b, Pass.lift_ok.mpr ⟨hsplit, rfl⟩, ?_⟩
      rw [hp]
      rfl
  | some p =>
      obtain ⟨p', hp', hrebound, hreads'⟩ :=
        rebind_forwarded hfields (hsplits.pushable_readsIn p hp) hreads
      obtain ⟨hdecides, hpushes⟩ := hpushes fields split p p' hfields hsplit hp hp'
      have hsource : Movable named env p' r.schema r := h.below List.mem_cons_self hreads'
        (hrebound.binary ((hsplits.binary h.condition).1 p hp)) hdecides hpushes
      obtain ⟨r', b₁, hr', hreplaces⟩ := ih hsource b
      refine ⟨keepFilter split.remaining (.projection r' ps t) s, true, ?_,
        replaces_split h.wellFormed h.condition h.clean.here h.decides hsplits hp
          (hdecides.projection hnodup hrebound) ?_⟩
      · rw [pushdown]
        refine Pass.bind_ok.mpr ⟨fields, b, Pass.lift_ok.mpr ⟨hfields, rfl⟩, ?_⟩
        refine Pass.bind_ok.mpr ⟨split, b, Pass.lift_ok.mpr ⟨hsplit, rfl⟩, ?_⟩
        rw [hp]
        refine Pass.bind_ok.mpr ⟨p', b, Pass.lift_ok.mpr ⟨hp', rfl⟩, ?_⟩
        exact Pass.bind_ok.mpr ⟨r', b₁, hr', rfl⟩
      · have hwf : (Relation.projection (filtered p' r) ps t).WellFormed named := by
          refine .node h.source.here fun q hq => ?_
          rw [List.mem_singleton.mp hq]
          exact hsource.wellFormed
        exact @Replaces.withSources _ named env env _ (.projection (filtered p' r) ps t) [r']
          (h.clean.here.filter (hdecides.projection hnodup hrebound)) (.refl named env) hwf trivial
          (refines_projection hnodup hrebound) (.cons hreplaces .nil)

/-- Into the left side of a left join. -/
theorem pushdown_leftJoin {l : Relation} {lk rk : Scalar} {t : Schema}
    (h : Movable named env c s (.leftJoin l r lk rk t))
    (ih : ∀ {c s}, Movable named env c s l → ∀ b, ∃ q' b',
      pushdown c s l b = .ok (q', b') ∧ Replaces named env env (.filter l c s) q') (b : Bool) :
    ∃ r' b', pushdown c s (.leftJoin l r lk rk t) b = .ok (r', b') ∧
      Replaces named env env (.filter (.leftJoin l r lk rk t) c s) r' := by
  obtain ⟨-, -, -, hdisjoint⟩ := h.source.here
  have hpushes := h.pushes
  rw [PushesDecided] at hpushes
  obtain ⟨split, hsplit⟩ := @splitCondition_ok l.schema _ h.condition
  have hsplits := splits_of_ok hsplit
  cases hp : split.pushable with
  | none =>
      refine ⟨_, b, ?_, h.stays⟩
      rw [pushdown]
      refine Pass.bind_ok.mpr ⟨split, b, Pass.lift_ok.mpr ⟨hsplit, rfl⟩, ?_⟩
      rw [hp]
      rfl
  | some p =>
      obtain ⟨hdecides, hpushes⟩ := hpushes split p hsplit hp
      have hreads := hsplits.pushable_readsIn p hp
      have hsource : Movable named env p l.schema l := h.below List.mem_cons_self hreads
        ((hsplits.binary h.condition).1 p hp) hdecides hpushes
      obtain ⟨l', b₁, hl', hreplaces⟩ := ih hsource b
      have hdecides' : Decides env p (.leftJoin l r lk rk t) := hdecides.leftJoin hreads hdisjoint
      refine ⟨keepFilter split.remaining (.leftJoin l' r lk rk t) s, true, ?_,
        replaces_split h.wellFormed h.condition h.clean.here h.decides hsplits hp hdecides' ?_⟩
      · rw [pushdown]
        refine Pass.bind_ok.mpr ⟨split, b, Pass.lift_ok.mpr ⟨hsplit, rfl⟩, ?_⟩
        rw [hp]
        exact Pass.bind_ok.mpr ⟨l', b₁, hl', rfl⟩
      · have hr : r ∈ (Relation.leftJoin l r lk rk t).sources := by
          simp [Relation.sources]
        have hwf : (Relation.leftJoin (filtered p l) r lk rk t).WellFormed named :=
          leftJoin_filter_wellFormed h.source hreads
        have hright : Replaces named env env r r :=
          ⟨h.source.source hr, .refl (.refl named env) (h.source.source hr), h.clean.source hr,
            h.binary.source hr⟩
        exact @Replaces.withSources _ named env env _ (.leftJoin (filtered p l) r lk rk t) [l', r]
          (h.clean.here.filter hdecides') (.refl named env) hwf trivial
          (refines_leftJoin hreads hdisjoint) (.cons hreplaces (.cons hright .nil))

/-- **A filter is moved.** -/
theorem pushdown_spec (htotal : env.Total named) (h : Movable named env c s r) (b : Bool) :
    ∃ r' b', pushdown c s r b = .ok (r', b') ∧ Replaces named env env (.filter r c s) r' := by
  induction r using Relation.induction generalizing c s b with
  | h r ih =>
      cases r with
      | unionAll rs t => exact pushdown_union htotal h (fun r hr _ _ => ih r hr) b
      | unionAllSortedBy l r ks desc t => exact pushdown_merge htotal h (fun q hq _ _ => ih q hq) b
      | sort r ks desc t => exact pushdown_sort h (ih r List.mem_cons_self) b
      | projection r ps t => exact pushdown_projection h (ih r List.mem_cons_self) b
      | leftJoin l r lk rk t => exact pushdown_leftJoin h (ih l List.mem_cons_self) b
      | _ => exact ⟨_, b, rfl, h.stays⟩

end OneFilter

/-! ### The filters of a relation -/

section Relations

variable {c : Scalar} {s : Schema} {r r' : Relation}

/-- What a filter does without a failure it has decided. -/
theorem Clean.decides (h : Clean env (.filter r c s)) : Decides env c r := by
  intro v hv row hrow
  cases hc : c.test row with
  | ok b => exact ⟨b, rfl⟩
  | error e =>
      have hout : .error e ∈ Flow.expand (filterRow c) v := by
        rw [expand_filterRow]
        refine List.mem_filterMap.mpr ⟨.ok row, hrow, ?_⟩
        rw [filterItem, hc]
      obtain ⟨row', hrow'⟩ := h _ (emits_filter.mpr ⟨v, hv, rfl⟩) _ hout
      cases hrow'

/-- Whenever a filter is visited, the parts of its condition that are moved are true or false where
they are moved to. Its source has been visited before. -/
def FilterDecided (env : Env) : Relation → Prop
  | .filter source condition _ => ∀ source' b b', visit rule source b = .ok (source', b') →
    PushesDecided env condition source'
  | _ => True

omit [Platform] in
/-- Only a filter becomes a filter with new sources. -/
theorem filter_of_withSources {qs : List Relation} {q : Relation}
    (h : r.withSources qs = .filter q c s) : ∃ q₀, r = .filter q₀ c s := by
  unfold Relation.withSources at h
  split at h
  all_goals cases h
  all_goals exact ⟨_, rfl⟩

/-- **A relation is rewritten.** The induction is on the relation: when the rule meets a filter, its
source has been rewritten already. -/
theorem visit_replaces (htotal : env'.Total named) (henv : env.Refines named env')
    (hwf : r.WellFormed named) (hbinary : r.Everywhere BinaryNode)
    (hclean : r.Everywhere (Clean env)) (hdecided : r.Everywhere (FilterDecided env')) (b : Bool) :
    ∃ r' b', visit rule r b = .ok (r', b') ∧ Replaces named env env' r r' := by
  induction r using Relation.induction generalizing b with
  | h r ih =>
      have hsources : ∀ q ∈ r.sources, ∀ b, ∃ q' b', visit rule q b = .ok (q', b') ∧
          (Replaces named env env' q q' ∧ ∃ b b', visit rule q b = .ok (q', b')) := by
        intro q hq b
        obtain ⟨q', b', hvisit, hreplaces⟩ := ih q hq (hwf.source hq) (hbinary.source hq)
          (hclean.source hq) (hdecided.source hq) b
        exact ⟨q', b', hvisit, hreplaces, b, b', hvisit⟩
      obtain ⟨qs, b₁, hqs, hall⟩ := visitAll_ok hsources b
      have hnode : Replaces named env env' r (r.withSources qs) :=
        .withSources hclean.here henv hwf hbinary.here (.refl (.refl named env) hwf)
          (hall.imp fun q q' hq => hq.1)
      suffices hrule : ∃ r' b', rule (r.withSources qs) b₁ = .ok (r', b') ∧
          Replaces named env' env' (r.withSources qs) r' by
        obtain ⟨r', b', hr', hreplaces⟩ := hrule
        refine ⟨r', b', ?_, hnode.trans hreplaces⟩
        rw [visit_eq]
        exact Pass.bind_ok.mpr ⟨qs, b₁, hqs, hr'⟩
      have hsame : Replaces named env' env' (r.withSources qs) (r.withSources qs) :=
        ⟨hnode.wellFormed, .refl (.refl named env') hnode.wellFormed, hnode.clean, hnode.binary⟩
      cases hr : r.withSources qs with
      | filter q' c s =>
          obtain ⟨q, rfl⟩ := filter_of_withSources hr
          obtain ⟨q₁, rfl, -, b₂, b₃, hvisit⟩ := forall₂_one hall
          cases hr
          exact pushdown_spec htotal
            { wellFormed := hnode.wellFormed
              condition := hnode.binary.here
              binary := hnode.binary.source List.mem_cons_self
              clean := hnode.clean.source List.mem_cons_self
              decides := hnode.clean.here.decides
              pushes := hdecided.here _ b₂ b₃ hvisit } b₁
      | _ => exact ⟨_, b₁, rfl, hr ▸ hsame⟩

end Relations

/-! ### Statements -/

section Programs

variable {ss : List Statement}

/-- Every scalar of the statements evaluates on the rows that it gets. -/
def EvaluatesFrom (env : Env) : List Statement → Prop
  | [] => True
  | .namedRelation name r :: ss =>
    r.Everywhere (Clean env) ∧ EvaluatesFrom (env.define name r) ss
  | .query r :: ss => r.Everywhere (Clean env) ∧ EvaluatesFrom env ss

/-- `FilterDecided` all over the statements, with what the rewritten ones before them put out. -/
def DecidedFrom (env : Env) : List Statement → Prop
  | [] => True
  | .namedRelation name r :: ss => r.Everywhere (FilterDecided env) ∧
    ∀ r' b b', visit rule r b = .ok (r', b') → DecidedFrom (env.define name r') ss
  | .query r :: ss => r.Everywhere (FilterDecided env) ∧ DecidedFrom env ss

/-- Statements whose filters have been moved. -/
theorem visitStatements_ok (htotal : env'.Total named) (henv : env.Refines named env')
    (hwf : WellFormedStatements named ss)
    (hbinary : ∀ s ∈ ss, (relationOf s).Everywhere BinaryNode)
    (hevaluates : EvaluatesFrom env ss) (hdecided : DecidedFrom env' ss) (b : Bool) :
    ∃ ss' b', visitStatements rule ss b = .ok (ss', b') ∧
      (∀ named', Extends named named' → WellFormedStatements named' ss') ∧
      (∀ s ∈ ss', (relationOf s).Everywhere BinaryNode) ∧
      EvaluatesFrom env' ss' ∧ List.Forall₂ SameRows (queries env ss) (queries env' ss') := by
  induction ss generalizing named env env' b with
  | nil => exact ⟨[], b, rfl, fun _ _ => trivial, fun _ h => absurd h List.not_mem_nil, trivial, .nil⟩
  | cons s ss ih =>
      have hbinarys := hbinary s List.mem_cons_self
      have hbinaryss := fun t ht => hbinary t (List.mem_cons_of_mem _ ht)
      cases s with
      | namedRelation name r =>
          obtain ⟨hr, hss⟩ := hwf
          obtain ⟨r', b₁, hvr, hreplaces⟩ :=
            visit_replaces htotal henv hr hbinarys hevaluates.1 hdecided.1 b
          obtain ⟨ss', b₂, hvs, hwf', hbinary', hevaluates', hqueries⟩ :=
            ih (total_define htotal hreplaces.wellFormed) (refines_define henv hreplaces.refines) hss
              hbinaryss hevaluates.2 (hdecided.2 r' b b₁ hvr) b₁
          refine ⟨.namedRelation name r' :: ss', b₂, ?_,
            fun named' hext => ⟨hreplaces.wellFormed.extend hext,
              hwf' _ (hext.update hreplaces.refines.schema)⟩,
            List.forall_mem_cons.mpr ⟨hreplaces.binary, hbinary'⟩,
            ⟨hreplaces.clean, hevaluates'⟩, hqueries⟩
          rw [visitStatements]
          exact Pass.bind_ok.mpr ⟨_, b₁, Pass.bind_ok.mpr ⟨r', b₁, hvr, rfl⟩,
            Pass.bind_ok.mpr ⟨ss', b₂, hvs, rfl⟩⟩
      | query r =>
          obtain ⟨hr, hss⟩ := hwf
          obtain ⟨r', b₁, hvr, hreplaces⟩ :=
            visit_replaces htotal henv hr hbinarys hevaluates.1 hdecided.1 b
          obtain ⟨ss', b₂, hvs, hwf', hbinary', hevaluates', hqueries⟩ :=
            ih htotal henv hss hbinaryss hevaluates.2 hdecided.2 b₁
          refine ⟨.query r' :: ss', b₂, ?_,
            fun named' hext => ⟨hreplaces.wellFormed.extend hext, hwf' _ hext⟩,
            List.forall_mem_cons.mpr ⟨hreplaces.binary, hbinary'⟩,
            ⟨hreplaces.clean, hevaluates'⟩,
            .cons ⟨hreplaces.refines, exists_emits htotal hreplaces.wellFormed⟩ hqueries⟩
          rw [visitStatements]
          exact Pass.bind_ok.mpr ⟨_, b₁, Pass.bind_ok.mpr ⟨r', b₁, hvr, rfl⟩,
            Pass.bind_ok.mpr ⟨ss', b₂, hvs, rfl⟩⟩

/-! ### One run of the statements -/

section Narrowed

variable {env₁ : Env}

theorem Clean.narrow (henv : EnvNarrows env env₁) {r : Relation} (h : Clean env r) : Clean env₁ r :=
  fun u hu => h u ((Narrows.refl henv r).emits u hu)

theorem Decides.narrow (henv : EnvNarrows env env₁) {c : Scalar} {r : Relation}
    (h : Decides env c r) : Decides env₁ c r :=
  fun u hu => h u ((Narrows.refl henv r).emits u hu)

theorem pushesDecided_narrow (henv : EnvNarrows env env₁) {c : Scalar} {r : Relation}
    (h : PushesDecided env c r) : PushesDecided env₁ c r := by
  induction r using Relation.induction generalizing c with
  | h r ih =>
      cases r with
      | unionAll rs s =>
          rw [PushesDecided] at h ⊢
          exact pushesDecidedAll_iff.mpr fun q hq => ih q hq (pushesDecidedAll_iff.mp h q hq)
      | unionAllSortedBy l r ks desc s =>
          have hr : r ∈ [l, r] := List.mem_cons_of_mem _ List.mem_cons_self
          rw [PushesDecided] at h ⊢
          exact ⟨ih l List.mem_cons_self h.1, ih r hr h.2⟩
      | projection r ps s =>
          rw [PushesDecided] at h ⊢
          intro fields split pushable renamed hfields hsplit hpushable hrenamed
          have hsource := h fields split pushable renamed hfields hsplit hpushable hrenamed
          exact ⟨hsource.1.narrow henv, ih r List.mem_cons_self hsource.2⟩
      | leftJoin l r lk rk s =>
          rw [PushesDecided] at h ⊢
          intro split pushable hsplit hpushable
          have hsource := h split pushable hsplit hpushable
          exact ⟨hsource.1.narrow henv, ih l List.mem_cons_self hsource.2⟩
      | sort r ks desc s =>
          rw [PushesDecided] at h ⊢
          exact ih r List.mem_cons_self h
      | _ => trivial

theorem filterDecided_narrow (henv : EnvNarrows env env₁) {r : Relation} (h : FilterDecided env r) :
    FilterDecided env₁ r := by
  cases r with
  | filter q c s => exact fun q' b b' hvisit => pushesDecided_narrow henv (h q' b b' hvisit)
  | _ => trivial

theorem evaluatesFrom_narrow (henv : EnvNarrows env env₁) (h : EvaluatesFrom env ss) :
    EvaluatesFrom env₁ ss := by
  induction ss generalizing env env₁ with
  | nil => trivial
  | cons s ss ih =>
      cases s with
      | namedRelation name r =>
          exact ⟨h.1.mono fun q hq => hq.narrow henv, ih (henv.define name r) h.2⟩
      | query r => exact ⟨h.1.mono fun q hq => hq.narrow henv, ih henv h.2⟩

theorem decidedFrom_narrow (henv : EnvNarrows env env₁) (h : DecidedFrom env ss) :
    DecidedFrom env₁ ss := by
  induction ss generalizing env env₁ with
  | nil => trivial
  | cons s ss ih =>
      cases s with
      | namedRelation name r =>
          refine ⟨h.1.mono fun q hq => filterDecided_narrow henv hq, fun r' b b' hvisit => ?_⟩
          exact ih (henv.define name r') (h.2 r' b b' hvisit)
      | query r => exact ⟨h.1.mono fun q hq => filterDecided_narrow henv hq, ih henv h.2⟩

end Narrowed

/-- The same rows in the same order, with the same values in these columns. -/
def SameRowsOn (schema : Schema) (u u' : List Item) : Prop :=
  ∃ rows rows', u = rows.map .ok ∧ u' = rows'.map .ok ∧ List.Forall₂ (AgreeOn schema) rows rows'

omit [Platform] in
theorem sameRowsOn_of_approx {schema : Schema} {u u' : List Item}
    (hu : ∀ x ∈ u, ∃ row, x = .ok row) (h : Approx (AgreeOn schema) u u') :
    SameRowsOn schema u u' := by
  induction h with
  | nil => exact ⟨[], [], rfl, rfl, .nil⟩
  | @ok row row' u u' hrow _ ih =>
      obtain ⟨rows, rows', rfl, rfl, hrows⟩ := ih fun x hx => hu x (List.mem_cons_of_mem _ hx)
      exact ⟨row :: rows, row' :: rows', rfl, rfl, .cons hrow hrows⟩
  | fault =>
      obtain ⟨row, hrow⟩ := hu _ List.mem_cons_self
      cases hrow

omit [Platform] in
theorem SameRowsOn.trans {schema schema' : Schema} {u u' u'' : List Item}
    (h : SameRowsOn schema u u') (hsub : schema.fields ⊆ schema'.fields)
    (h' : SameRowsOn schema' u' u'') : SameRowsOn schema u u'' := by
  obtain ⟨rows, rows', rfl, rfl, hrows⟩ := h
  obtain ⟨rows₁, rows'', he, rfl, hrows'⟩ := h'
  rw [List.map_inj_right fun _ _ => Except.ok.inj] at he
  subst he
  exact ⟨rows, rows'', rfl, rfl, forall₂_comp (fun _ _ _ ha hb => ha.trans (hb.mono hsub)) hrows hrows'⟩

/-- The columns that queries answer with. -/
def querySchemas : List Statement → List Schema
  | [] => []
  | .namedRelation _ _ :: ss => querySchemas ss
  | .query r :: ss => r.schema :: querySchemas ss

/-- Output of queries that is the same in their columns. -/
inductive SameOutputs : List Schema → List (List Item) → List (List Item) → Prop
  | nil : SameOutputs [] [] []
  | cons {schema : Schema} {schemas : List Schema} {u u' : List Item} {us us' : List (List Item)} :
      SameRowsOn schema u u' → SameOutputs schemas us us' →
      SameOutputs (schema :: schemas) (u :: us) (u' :: us')

omit [Platform] in
theorem SameOutputs.trans {schemas schemas' : List Schema} {us us' us'' : List (List Item)}
    (h : SameOutputs schemas us us')
    (hsub : List.Forall₂ (fun s s' : Schema => s.fields ⊆ s'.fields) schemas schemas')
    (h' : SameOutputs schemas' us' us'') : SameOutputs schemas us us'' := by
  induction h generalizing schemas' us'' with
  | nil =>
      cases hsub
      exact h'
  | cons hu _ ih =>
      cases hsub with
      | cons hs hsub =>
          cases h' with
          | cons hu' h' => exact .cons (hu.trans hs hu') (ih hsub h')

/-- What one run of the new statements puts out, one run of the old ones may put out. -/
theorem visitStatements_runs {ss' : List Statement} {b b' : Bool}
    (hvisit : visitStatements rule ss b = .ok (ss', b')) (htotal : env'.Total named)
    (henv : env.Refines named env') (hwf : WellFormedStatements named ss)
    (hbinary : ∀ s ∈ ss, (relationOf s).Everywhere BinaryNode)
    (hevaluates : EvaluatesFrom env ss) (hdecided : DecidedFrom env' ss) {us' : List (List Item)}
    (hruns : Runs env' ss' us') : ∃ us, Runs env ss us ∧ SameOutputs (querySchemas ss) us us' := by
  induction ss generalizing named env env' ss' us' b b' with
  | nil =>
      cases hvisit
      cases hruns
      exact ⟨[], .nil, .nil⟩
  | cons s ss ih =>
      have hbinarys := hbinary s List.mem_cons_self
      have hbinaryss := fun t ht => hbinary t (List.mem_cons_of_mem _ ht)
      rw [visitStatements] at hvisit
      obtain ⟨s', b₁, hs, hvisit⟩ := Pass.bind_ok.mp hvisit
      obtain ⟨rest, b₂, hrest, hvisit⟩ := Pass.bind_ok.mp hvisit
      cases hvisit
      cases s with
      | namedRelation name r =>
          obtain ⟨r', b₃, hr, hs⟩ := Pass.bind_ok.mp hs
          cases hs
          obtain ⟨hwfr, hwfss⟩ := hwf
          obtain ⟨r'', b₄, hr'', hreplaces⟩ :=
            visit_replaces htotal henv hwfr hbinarys hevaluates.1 hdecided.1 b
          rw [hr] at hr''
          cases hr''
          cases hruns with
          | @namedRelation _ _ _ u' _ _ hu' hruns =>
              -- both references read one sequence
              obtain ⟨u, hu, happrox⟩ := hreplaces.refines.emits u' hu'
              have htotal' : Env.Total (Function.update named name (some r.schema))
                  { env' with named := Function.update env'.named name fun v => v = u' } := by
                intro n t ht
                obtain ⟨v, hv⟩ := total_define htotal hreplaces.wellFormed n t ht
                exact (EnvNarrows.single hu' name).some n ⟨v, hv⟩
              obtain ⟨us, hus, hsame⟩ := ih hrest htotal' (refines_single henv happrox) hwfss
                hbinaryss (evaluatesFrom_narrow (.single hu name) hevaluates.2)
                (decidedFrom_narrow (.single hu' name) (hdecided.2 r' b b₁ hr)) hruns
              exact ⟨us, .namedRelation hu hus, hsame⟩
      | query r =>
          obtain ⟨r', b₃, hr, hs⟩ := Pass.bind_ok.mp hs
          cases hs
          obtain ⟨hwfr, hwfss⟩ := hwf
          obtain ⟨r'', b₄, hr'', hreplaces⟩ :=
            visit_replaces htotal henv hwfr hbinarys hevaluates.1 hdecided.1 b
          rw [hr] at hr''
          cases hr''
          cases hruns with
          | query hu' hruns =>
              obtain ⟨u, hu, happrox⟩ := hreplaces.refines.emits _ hu'
              obtain ⟨us, hus, hsame⟩ :=
                ih hrest htotal henv hwfss hbinaryss hevaluates.2 hdecided.2 hruns
              refine ⟨u :: us, .query hu hus, .cons ?_ hsame⟩
              exact sameRowsOn_of_approx (hevaluates.1.here u hu) happrox

/-! ### Programs -/

/-- A program whose conditions are `And`s of two, as they are bound. -/
def ProgramBinary (program : Program) : Prop :=
  ∀ s ∈ program.statements, (relationOf s).Everywhere BinaryNode

/-- Every scalar of a program evaluates on the rows that it gets. -/
def Evaluates (data : Data) (program : Program) : Prop :=
  EvaluatesFrom { data with named := fun _ _ => False } program.statements

/-- In each of a number of passes, the parts of conditions that are moved are true or false where they
are moved to. -/
def StaysDecided (data : Data) : Nat → Program → Prop
  | 0, _ => True
  | n + 1, program => DecidedFrom { data with named := fun _ _ => False } program.statements ∧
    ∀ program', (filterPushdown program).result = .ok program' → StaysDecided data n program'

theorem querySchemas_subset {env env' : Env} {ss ss' : List Statement}
    (h : List.Forall₂ SameRows (queries env ss) (queries env' ss')) :
    List.Forall₂ (fun s s' : Schema => s.fields ⊆ s'.fields) (querySchemas ss)
      (querySchemas ss') := by
  have hmap : ∀ (ss : List Statement) (env : Env),
      querySchemas ss = (queries env ss).map fun q => q.2.schema := by
    intro ss
    induction ss with
    | nil => exact fun _ => rfl
    | cons s ss ih =>
        intro env
        cases s with
        | namedRelation name r => exact ih _
        | query r => exact congrArg _ (ih env)
  rw [hmap ss env, hmap ss' env', List.forall₂_map_left_iff, List.forall₂_map_right_iff]
  exact h.imp fun q q' hq => hq.1.schema

theorem sameOutputs_refl {env : Env} {us : List (List Item)} (hevaluates : EvaluatesFrom env ss)
    (hruns : Runs env ss us) : SameOutputs (querySchemas ss) us us := by
  induction hruns with
  | nil => exact .nil
  | @namedRelation env name r u ss us hu _ ih =>
      exact ih (evaluatesFrom_narrow (.single hu name) hevaluates.2)
  | @query env r u ss us hu _ ih =>
      refine .cons ?_ (ih hevaluates.2)
      exact sameRowsOn_of_approx (hevaluates.1.here u hu) (.refl (AgreeOn.refl r.schema) u)

/-- One pass over a program. -/
theorem filterPushdown_keeps {program : Program} {data : Data} (hwf : program.WellFormed)
    (hbinary : ProgramBinary program) (hevaluates : Evaluates data program)
    (hdecided : DecidedFrom { data with named := fun _ _ => False } program.statements) :
    ∃ program', (filterPushdown program).result = .ok program' ∧ program'.WellFormed ∧
      ProgramBinary program' ∧ Evaluates data program' ∧
      List.Forall₂ SameRows (program.queries data) (program'.queries data) ∧
      ∀ us', program'.Runs data us' → ∃ us, program.Runs data us ∧
        SameOutputs (querySchemas program.statements) us us' := by
  have htotal : Env.Total (fun _ => none) { data with named := fun _ _ => False } :=
    fun name t ht => by cases ht
  obtain ⟨ss', b', hvisit, hwf', hbinary', hevaluates', hqueries⟩ :=
    visitStatements_ok htotal (.refl _ _) hwf hbinary hevaluates hdecided false
  refine ⟨{ program with statements := ss' }, Pass.result_ok.mpr ⟨b', visitProgram_ok hvisit⟩,
    hwf' _ (.refl _), hbinary', hevaluates', hqueries, fun us' hruns => ?_⟩
  exact visitStatements_runs hvisit htotal (.refl _ _) hwf hbinary hevaluates hdecided hruns

/-- **Moving filters keeps the rows.** Any number of passes complete. Each query puts out the rows that
it may have put out before, in that order and with the same values in its columns, and no failure; and
what one run of the program puts out, one run of the original may put out. -/
theorem filterPushdown_sameRows (n : Nat) {program : Program} {data : Data}
    (hwf : program.WellFormed) (hbinary : ProgramBinary program)
    (hevaluates : Evaluates data program) (hdecided : StaysDecided data n program) :
    ∃ program', Pass.times filterPushdown n program = .ok program' ∧ Evaluates data program' ∧
      List.Forall₂ SameRows (program.queries data) (program'.queries data) ∧
      ∀ us', program'.Runs data us' → ∃ us, program.Runs data us ∧
        SameOutputs (querySchemas program.statements) us us' := by
  induction n generalizing program with
  | zero =>
      refine ⟨program, rfl, hevaluates, sameRows_refl hwf data, fun us' hruns => ⟨us', hruns, ?_⟩⟩
      exact sameOutputs_refl hevaluates hruns
  | succ n ih =>
      obtain ⟨program₁, hpass, hwf₁, hbinary₁, hevaluates₁, hrows, hruns⟩ :=
        filterPushdown_keeps hwf hbinary hevaluates hdecided.1
      obtain ⟨program', htimes, hevaluates', hrows', hruns'⟩ :=
        ih hwf₁ hbinary₁ hevaluates₁ (hdecided.2 program₁ hpass)
      refine ⟨program', ?_, hevaluates', sameRows_trans hrows hrows', fun us'' hus'' => ?_⟩
      · rw [Pass.times, hpass, ok_bind]
        exact htimes
      · obtain ⟨us', hus', hsame'⟩ := hruns' us'' hus''
        obtain ⟨us, hus, hsame⟩ := hruns us' hus'
        exact ⟨us, hus, hsame.trans (querySchemas_subset hrows) hsame'⟩

end Programs

end Moves

/-! ### A filter on a left join -/

/-- The records of the left log. -/
def leftLog : Relation := .file "left.log" none none ⟨[1, 3], by decide⟩

/-- The records of the right log. -/
def rightLog : Relation := .file "right.log" none none ⟨[2, 4], by decide⟩

/-- `left LEFT JOIN right ON left.k = right.k` -/
def joined : Relation :=
  .leftJoin leftLog rightLog (.field 3 .string) (.field 4 .string) ⟨[1, 3, 2, 4], by decide⟩

/-- A field that is some text. -/
def isText (id : FieldId) (text : Bytes) : Scalar :=
  .fnCall .equal [.field id .string, .value (.string text) .string] .boolean

/-- `right.y = 'a' AND condition`. -/
def bothHold (condition : Scalar) : Scalar := .fnCall .and [isText 2 [97], condition] .boolean

/-- `SELECT * FROM left LEFT JOIN right ON left.k = right.k WHERE right.y = 'a' AND condition`. -/
def joinedFilter (condition : Scalar) : Program where
  statements := [.query (.filter joined (bothHold condition) ⟨[1, 3, 2, 4], by decide⟩)]
  fieldBinding := ⟨[]⟩

/-- A record with a key, `left.x` and `right.y`. -/
def oneRow (x y : Value) : Row := fun id => if id = 1 then x else if id = 2 then y else .string [107]

/-- Both logs have one record. -/
def oneRecord (x y : Value) : Data where
  file _ _ _ _ := [.ok (oneRow x y)]
  stream _ _ := []

section JoinedFilter

variable {condition : Scalar}

theorem joined_everywhere {P : Relation → Prop} (hjoined : P joined) (hleft : P leftLog)
    (hright : P rightLog) : joined.Everywhere P := by
  have hleft : leftLog.Everywhere P := .node hleft (by simp [leftLog, Relation.sources])
  have hright : rightLog.Everywhere P := .node hright (by simp [rightLog, Relation.sources])
  exact .node hjoined (by simp [joined, Relation.sources, hleft, hright])

theorem joinedFilter_everywhere {P : Relation → Prop} {s : Schema}
    (hfilter : P (.filter joined (bothHold condition) s)) (hjoined : joined.Everywhere P) :
    (Relation.filter joined (bothHold condition) s).Everywhere P := by
  refine .node hfilter fun q hq => ?_
  rw [List.mem_singleton.mp hq]
  exact hjoined

theorem joinedFilter_wellFormed (h : condition.fields = [1]) :
    (joinedFilter condition).WellFormed := by
  refine ⟨joinedFilter_everywhere ⟨List.Subset.refl _, ?_⟩ ?_, trivial⟩
  · have hfields : (bothHold condition).fields = [2, 1] := by
      simp [bothHold, isText, Scalar.fields, Scalar.fieldsAll, h]
    intro id hid
    rw [hfields] at hid
    revert id
    decide
  · refine joined_everywhere ⟨List.Subset.refl _, ?_, ?_, ?_⟩ trivial trivial
    · exact fun id hid => List.mem_singleton.mp hid ▸ by decide
    · exact fun id hid => List.mem_singleton.mp hid ▸ by decide
    · simp [Relation.exposed, rightLog, leftLog, Relation.schema]

theorem joinedFilter_binary (h : AndsBinary condition) : ProgramBinary (joinedFilter condition) := by
  intro s hs
  rw [List.mem_singleton.mp hs]
  exact joinedFilter_everywhere ⟨trivial, h⟩ (joined_everywhere trivial trivial trivial)

variable [Platform] {env : Env} {x y : Value}

/-- The left join of the two records. -/
theorem emits_joined (henv : env.toData = oneRecord x y) {u : List Item} :
    Emits env joined u ↔ u = [.ok (oneRow x y)] := by
  have hlog : ∀ path schema v, Emits env (.file path none none schema) v ↔
      v = [.ok (oneRow x y)] := by
    intro path schema v
    rw [emits_none rfl]
    show v = env.file path none none schema ↔ _
    rw [henv]
    exact Iff.rfl
  have hrow : (oneRow x y).join rightLog.schema (oneRow x y) = oneRow x y := by
    funext id
    unfold Row.join
    split <;> rfl
  have hkey : ∀ id : FieldId, (oneRow x y).record id = .ok (oneRow x y id) := fun _ => rfl
  have hjoin : whenCollected ([.ok (oneRow x y)].map
        (attach fun row => (Scalar.field 4 .string).eval row.record))
      (fun rows => Flow.expand (leftJoinRow (.field 3 .string) rightLog.schema rows)
        [.ok (oneRow x y)]) = [.ok (oneRow x y)] := by
    show [Except.ok ((oneRow x y).join rightLog.schema (oneRow x y))] = _
    rw [hrow]
  rw [joined, emits_two rfl]
  constructor
  · intro h
    obtain ⟨v, w, hv, hw, hu⟩ := h
    rw [(hlog _ _ v).mp hv, (hlog _ _ w).mp hw] at hu
    exact hu.trans hjoin
  · intro h
    exact ⟨_, _, (hlog _ _ _).mpr rfl, (hlog _ _ _).mpr rfl, h.trans hjoin.symm⟩

/-- What the filter leaves of the joined row. -/
theorem emits_joinedFilter (henv : env.toData = oneRecord x y) {s : Schema} {u : List Item} :
    Emits env (.filter joined (bothHold condition) s) u ↔
      u = filterRow (bothHold condition) (oneRow x y) := by
  rw [emits_filter]
  constructor
  · intro h
    obtain ⟨v, hv, rfl⟩ := h
    rw [(emits_joined henv).mp hv, Flow.expand_ok, Flow.expand_nil, List.append_nil]
  · intro h
    refine ⟨_, (emits_joined henv).mpr rfl, ?_⟩
    rw [h, Flow.expand_ok, Flow.expand_nil, List.append_nil]

/-- A condition that is true or false on the joined row evaluates. -/
theorem joinedFilter_evaluates (h : ∃ b, (bothHold condition).test (oneRow x y) = .ok b) :
    Evaluates (oneRecord x y) (joinedFilter condition) := by
  have hlog : ∀ path schema, Clean { oneRecord x y with named := fun _ _ => False }
      (.file path none none schema) := by
    intro path schema u hu z hz
    rw [(emits_none rfl).mp hu] at hz
    exact ⟨_, List.mem_singleton.mp hz⟩
  have hjoined : Clean { oneRecord x y with named := fun _ _ => False } joined := by
    intro u hu z hz
    rw [(emits_joined rfl).mp hu] at hz
    exact ⟨_, List.mem_singleton.mp hz⟩
  refine ⟨joinedFilter_everywhere (hjoined.filter fun u hu row hrow => ?_)
    (joined_everywhere hjoined (hlog _ _) (hlog _ _)), trivial⟩
  rw [(emits_joined rfl).mp hu] at hrow
  cases List.mem_singleton.mp hrow
  exact h

end JoinedFilter

/-- `left.x = 'b'` is true or false on every row. -/
theorem filterPushdown_sameRows_isText :
    ∃ program', Pass.times filterPushdown 1 (joinedFilter (isText 1 [98])) = .ok program' ∧
      @Evaluates Platform.inert (oneRecord (.string [98]) (.string [97])) program' ∧
      List.Forall₂ (@SameRows Platform.inert)
        (@Program.queries Platform.inert (oneRecord (.string [98]) (.string [97]))
          (joinedFilter (isText 1 [98])))
        (@Program.queries Platform.inert (oneRecord (.string [98]) (.string [97])) program') ∧
      ∀ us', @Program.Runs Platform.inert (oneRecord (.string [98]) (.string [97])) program' us' →
        ∃ us, @Program.Runs Platform.inert (oneRecord (.string [98]) (.string [97]))
          (joinedFilter (isText 1 [98])) us ∧
          SameOutputs (querySchemas (joinedFilter (isText 1 [98])).statements) us us' := by
  refine @filterPushdown_sameRows Platform.inert 1 (joinedFilter (isText 1 [98]))
    (oneRecord (.string [98]) (.string [97])) (joinedFilter_wellFormed rfl)
    (joinedFilter_binary trivial)
    (@joinedFilter_evaluates _ Platform.inert _ _ ⟨true, by decide⟩) ⟨⟨?_, trivial⟩, fun _ _ => trivial⟩
  refine joinedFilter_everywhere (fun source' b b' hvisit => ?_)
    (joined_everywhere trivial trivial trivial)
  -- the source has no filters of its own
  have hsource : visit rule joined b = .ok (joined, b) := rfl
  rw [hsource] at hvisit
  cases hvisit
  intro split pushable hsplit hpushable
  have hparts : splitCondition leftLog.schema (bothHold (isText 1 [98])) =
      .ok ⟨some (isText 1 [98]), some (isText 2 [97])⟩ := rfl
  rw [hparts] at hsplit
  cases hsplit
  cases hpushable
  exact ⟨fun u _ row _ => ⟨_, rfl⟩, trivial⟩

/-! ### A condition that is null -/

/-- `Bool(left.x)` -/
def boolX : Scalar := .fnCall (.cast .boolean) [.field 1 .string] .boolean

/-- `right.y` is not `'a'`, so the row is dropped, whatever `left.x` is. In front of the join there is
only `left.x` to decide, and it is null. -/
theorem boolX_fails :
    (joinedFilter boolX).WellFormed ∧ ProgramBinary (joinedFilter boolX) ∧
      @Evaluates Platform.inert (oneRecord .null (.string [98])) (joinedFilter boolX) ∧
      ∃ program', Pass.times filterPushdown 1 (joinedFilter boolX) = .ok program' ∧
        ¬ List.Forall₂ (@SameRows Platform.inert)
          (@Program.queries Platform.inert (oneRecord .null (.string [98])) (joinedFilter boolX))
          (@Program.queries Platform.inert (oneRecord .null (.string [98])) program') := by
  refine ⟨joinedFilter_wellFormed rfl, joinedFilter_binary trivial,
    @joinedFilter_evaluates _ Platform.inert _ _ ⟨false, by decide⟩, _, rfl, fun h => ?_⟩
  cases h with
  | cons hquery _ =>
      have hrefines := hquery.1
      have hleft : @Emits Platform.inert
          { oneRecord .null (.string [98]) with named := fun _ _ => False } (filtered boolX leftLog)
          [.error (.exception "std::get: wrong index for variant")] := by
        refine (@emits_filter Platform.inert _ _ _ _ _).mpr
          ⟨[.ok (oneRow .null (.string [98]))], ?_, rfl⟩
        exact (@emits_none Platform.inert _ _ _ rfl).mpr rfl
      have hright : @Emits Platform.inert
          { oneRecord .null (.string [98]) with named := fun _ _ => False } rightLog [.ok (oneRow .null (.string [98]))] :=
        (@emits_none Platform.inert _ _ _ rfl).mpr rfl
      obtain ⟨u, hu, happrox⟩ := @Refines.emits Platform.inert _ _ _ _ hrefines _
        ((@emits_filter Platform.inert _ _ _ _ _).mpr
          ⟨_, (@emits_two Platform.inert _ _ _ _ _ rfl).mpr ⟨_, _, hleft, hright, rfl⟩, rfl⟩)
      rw [(@emits_joinedFilter _ Platform.inert _ _ _ rfl _ _).mp hu] at happrox
      cases happrox

end Lsql.Opt.FilterPushdown
