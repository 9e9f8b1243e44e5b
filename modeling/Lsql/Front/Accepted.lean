import Lsql.Front.BindSpec

/-!
# Lsql.Front.Accepted

What a program that is accepted has been bound to.

The walk behind the binding checks the relations and does not change their field sets. A relation
that is named is known to the statements behind it.
-/

namespace Lsql.Front

open Binder

namespace Bound

/-- Projectors that the walk behind the binding has replaced. -/
structure ProjectorsKept (ps ps' : List Projector) : Prop where
  outputs : outputFields ps' = outputFields ps
  star : ps'.any Projector.isStar = ps.any Projector.isStar

theorem ProjectorsKept.outputFieldsOf {ps ps' : List Projector} (h : ProjectorsKept ps ps') :
    outputFieldsOf ps' = outputFieldsOf ps := by
  rw [Bound.outputFieldsOf, h.outputs, Bound.outputFieldsOf]

theorem ProjectorsKept.cons {p p' : Projector} {ps ps' : List Projector}
    (hp : ProjectorsKept [p] [p']) (hps : ProjectorsKept ps ps') :
    ProjectorsKept (p :: ps) (p' :: ps') where
  outputs := by
    rw [outputFields_cons p', outputFields_cons p, hp.outputs, hps.outputs]
  star := by
    have hone : p'.isStar = p.isStar := by
      simpa only [List.any_cons, List.any_nil, Bool.or_false] using hp.star
    rw [List.any_cons, List.any_cons, hone, hps.star]

theorem allWellBound_append {known : List RelationFieldSet} {s : BindState}
    {rs rs' : List Relation} :
    AllWellBound known s (rs ++ rs') ↔ AllWellBound known s rs ∧ AllWellBound known s rs' :=
  List.forall_mem_append

theorem allWellBound_cons {known : List RelationFieldSet} {s : BindState} {r : Relation}
    {rs : List Relation} :
    AllWellBound known s (r :: rs) ↔ r.WellBound known s ∧ AllWellBound known s rs :=
  List.forall_mem_cons

theorem Relation.WellBound.extends {known : List RelationFieldSet} {s s' : BindState} {r : Relation}
    (h : r.WellBound known s) (hext : s.Extends s') : r.WellBound known s' :=
  ⟨h.shaped, h.valid.extends hext⟩

theorem AllWellBound.before {known : List RelationFieldSet} {s s' : BindState} {rs : List Relation}
    (h : AllWellBound known s rs) (hbefore : s.Before s') : AllWellBound known s' rs := fun r hr =>
  ⟨(h r hr).shaped, (h r hr).valid.before hbefore⟩

end Bound

open Bound (AllWellBound ProjectorsKept allWellBound_nil allWellBound_append allWellBound_cons)

/-! ### The walk behind the binding -/

section Checks

variable {s : BindState}

theorem requireAt_state {s' : BindState} {cond : Bool} {message : String} {u : Unit}
    (h : requireAt cond message s = .ok (u, s')) : s' = s := by
  rw [requireAt] at h
  split at h
  next =>
    cases h
    rfl
  next => cases h

theorem nameOf_ensures (hs : s.Valid) (id : FieldId) : Ensures (nameOf id) s fun _ _ => True :=
  fromExcept_ensures hs (s.binding.name id)

theorem typeOf_ensures (hs : s.Valid) (id : FieldId) : Ensures (typeOf id) s fun _ _ => True :=
  fromExcept_ensures hs (s.binding.type id)

theorem requireDisjoint_ensures (hs : s.Valid) (rightFields : FieldSet) (ids : List FieldId) :
    Ensures (requireDisjoint rightFields ids) s fun _ _ => True := by
  induction ids generalizing s with
  | nil => exact .pure hs trivial
  | cons id ids ih =>
      refine (nameOf_ensures hs id).bind fun _ s hs _ _ => ?_
      refine (requireAt_ensures hs _ _).bind fun _ s hs _ _ => ?_
      exact ih hs

variable [HashOrder]

theorem postRunIn_ensures (hs : s.Valid) (expr : Bound.Expr) {matched : Bound.Relation}
    (hmatched : matched.fieldsOut.Valid s) :
    Ensures (postRunIn expr matched) s fun _ _ => True := by
  refine (RelationFieldSet.fields_computes hs _ hmatched).ensures.bind fun _ s hs _ _ => ?_
  refine (requireAt_ensures hs _ _).bind fun _ s hs _ _ => ?_
  refine (typeOf_ensures hs _).bind fun _ s hs _ _ => ?_
  refine (requireAt_ensures hs _ _).bind fun _ s hs _ _ => ?_
  exact .pure hs trivial

theorem postRunJoin_ensures (hs : s.Valid) {left right : Bound.Relation}
    (hleft : left.fieldsOut.Valid s) (hright : right.fieldsOut.Valid s)
    (leftKey rightKey : Bound.Expr) :
    Ensures (postRunJoin left right leftKey rightKey) s fun keys _ =>
      keys = (leftKey, rightKey) ∨ keys = (rightKey, leftKey) := by
  refine (RelationFieldSet.fields_computes hs _ hleft).ensures.bind fun _ s hs hext _ => ?_
  refine (RelationFieldSet.fields_computes hs _ (hright.extends hext)).ensures.bind
    fun _ s hs _ _ => ?_
  refine (requireDisjoint_ensures hs _ _).bind fun _ s hs _ _ => ?_
  refine (requireAt_ensures hs _ _).bind fun _ s hs _ _ => ?_
  refine .pure hs ?_
  split
  · exact .inl rfl
  · exact .inr rfl

end Checks

section PostRun

variable [HashOrder] {known : List RelationFieldSet}

mutual

theorem postRunExpr_ensures {s : BindState} (hs : s.Valid) : ∀ e : Bound.Expr,
    AllWellBound known s e.relations →
    Ensures (postRunExpr e) s fun e' s' => AllWellBound known s' e'.relations
  | .identifier _ _, he => .pure hs he
  | .value _ _, he => .pure hs he
  | .inMatch expr matched _ _, he => by
      obtain ⟨hexpr, hmatched⟩ := allWellBound_append.mp he
      refine (postRunExpr_ensures hs expr hexpr).bind fun expr s₁ hs₁ hext₁ hexpr => ?_
      refine (postRunRelation_ensures hs₁ matched (hmatched.extends hext₁)).bind
        fun matched s₂ hs₂ hext₂ hmatched => ?_
      have hfields := (hmatched.1 matched matched.mem_relations).valid
      refine (postRunIn_ensures hs₂ expr hfields).bind fun _ s₃ hs₃ hext₃ _ => ?_
      exact .pure hs₃ ((hexpr.extends (hext₂.trans hext₃)).append (hmatched.1.extends hext₃))
  | .fnCall _ args _, he =>
      (postRunExprs_ensures hs args he).bind fun _ _ hs₁ _ hargs => .pure hs₁ hargs
  | .like expr _ _, he =>
      (postRunExpr_ensures hs expr he).bind fun _ _ hs₁ _ hexpr => .pure hs₁ hexpr
  | .binary _ left right _, he => by
      obtain ⟨hleft, hright⟩ := allWellBound_append.mp he
      refine (postRunExpr_ensures hs left hleft).bind fun left s₁ hs₁ hext₁ hleft => ?_
      refine (postRunExpr_ensures hs₁ right (hright.extends hext₁)).bind
        fun right s₂ hs₂ hext₂ hright => ?_
      exact .pure hs₂ ((hleft.extends hext₂).append hright)
  | .unary _ expr _, he =>
      (postRunExpr_ensures hs expr he).bind fun _ _ hs₁ _ hexpr => .pure hs₁ hexpr

theorem postRunExprs_ensures {s : BindState} (hs : s.Valid) : ∀ es : List Bound.Expr,
    AllWellBound known s (Bound.relationsOfExprs es) →
    Ensures (postRunExprs es) s fun es' s' => AllWellBound known s' (Bound.relationsOfExprs es')
  | [], hes => .pure hs hes
  | e :: es, hes => by
      obtain ⟨he, hes⟩ := allWellBound_append.mp hes
      refine (postRunExpr_ensures hs e he).bind fun e s₁ hs₁ hext₁ he => ?_
      refine (postRunExprs_ensures hs₁ es (hes.extends hext₁)).bind fun es s₂ hs₂ hext₂ hes => ?_
      exact .pure hs₂ ((he.extends hext₂).append hes)

theorem postRunExprOption_ensures {s : BindState} (hs : s.Valid) : ∀ e : Option Bound.Expr,
    AllWellBound known s (Bound.relationsOfExprOption e) →
    Ensures (postRunExprOption e) s fun e' s' =>
      AllWellBound known s' (Bound.relationsOfExprOption e')
  | none, he => .pure hs he
  | some e, he => (postRunExpr_ensures hs e he).bind fun _ _ hs₁ _ he => .pure hs₁ he

theorem postRunExprsOption_ensures {s : BindState} (hs : s.Valid) :
    ∀ es : Option (List Bound.Expr), AllWellBound known s (Bound.relationsOfExprsOption es) →
    Ensures (postRunExprsOption es) s fun es' s' =>
      AllWellBound known s' (Bound.relationsOfExprsOption es')
  | none, hes => .pure hs hes
  | some es, hes => (postRunExprs_ensures hs es hes).bind fun _ _ hs₁ _ hes => .pure hs₁ hes

theorem postRunProjector_ensures {s : BindState} (hs : s.Valid) : ∀ p : Bound.Projector,
    AllWellBound known s p.relations →
    Ensures (postRunProjector p) s fun p' s' =>
      AllWellBound known s' p'.relations ∧ ProjectorsKept [p] [p']
  | .star, hp => .pure hs ⟨hp, rfl, rfl⟩
  | .identifier _, hp => .pure hs ⟨hp, rfl, rfl⟩
  | .expr _ e, hp =>
      (postRunExpr_ensures hs e hp).bind fun _ _ hs₁ _ he => .pure hs₁ ⟨he, rfl, rfl⟩

theorem postRunProjectors_ensures {s : BindState} (hs : s.Valid) : ∀ ps : List Bound.Projector,
    AllWellBound known s (Bound.relationsOfProjectors ps) →
    Ensures (postRunProjectors ps) s fun ps' s' =>
      AllWellBound known s' (Bound.relationsOfProjectors ps') ∧ ProjectorsKept ps ps'
  | [], hps => .pure hs ⟨hps, rfl, rfl⟩
  | p :: ps, hps => by
      obtain ⟨hp, hps⟩ := allWellBound_append.mp hps
      refine (postRunProjector_ensures hs p hp).bind fun p s₁ hs₁ hext₁ hp => ?_
      refine (postRunProjectors_ensures hs₁ ps (hps.extends hext₁)).bind
        fun ps s₂ hs₂ hext₂ hps => ?_
      exact .pure hs₂ ⟨(hp.1.extends hext₂).append hps.1, hp.2.cons hps.2⟩

theorem postRunProjectorsOption_ensures {s : BindState} (hs : s.Valid) :
    ∀ ps : Option (List Bound.Projector),
    AllWellBound known s (Bound.relationsOfProjectorsOption ps) →
    Ensures (postRunProjectorsOption ps) s fun ps' s' =>
      AllWellBound known s' (Bound.relationsOfProjectorsOption ps')
  | none, hps => .pure hs hps
  | some ps, hps => (postRunProjectors_ensures hs ps hps).bind fun _ _ hs₁ _ hps => .pure hs₁ hps.1

/-- **The walk leaves the field set of every relation as it is.** -/
theorem postRunRelation_ensures {s : BindState} (hs : s.Valid) : ∀ r : Bound.Relation,
    AllWellBound known s r.relations →
    Ensures (postRunRelation r) s fun r' s' =>
      AllWellBound known s' r'.relations ∧ r'.fieldsOut = r.fieldsOut
  | .adhoc _ _ _, h => .pure hs ⟨h, rfl⟩
  | .select projectors source limit whereCond having orderList orderDesc groupList aggregate f,
      h => by
      obtain ⟨⟨hshape, hvalid⟩, h⟩ := allWellBound_cons.mp h
      simp only [allWellBound_append] at h
      obtain ⟨⟨⟨⟨⟨hprojectors, hsource⟩, hwhere⟩, hhaving⟩, horder⟩, hgroup⟩ := h
      refine (postRunProjectors_ensures hs projectors hprojectors).bind
        fun projectors' s₁ hs₁ hext₁ hprojectors => ?_
      refine (postRunRelation_ensures hs₁ source (hsource.extends hext₁)).bind
        fun source' s₂ hs₂ hext₂ hsource => ?_
      have hext₁₂ := hext₁.trans hext₂
      refine (postRunExprOption_ensures hs₂ whereCond (hwhere.extends hext₁₂)).bind
        fun whereCond s₃ hs₃ hext₃ hwhere => ?_
      have hext₁₃ := hext₁₂.trans hext₃
      refine (postRunExprOption_ensures hs₃ having (hhaving.extends hext₁₃)).bind
        fun having s₄ hs₄ hext₄ hhaving => ?_
      have hext₁₄ := hext₁₃.trans hext₄
      refine (postRunExprsOption_ensures hs₄ orderList (horder.extends hext₁₄)).bind
        fun orderList s₅ hs₅ hext₅ horder => ?_
      have hext₁₅ := hext₁₄.trans hext₅
      refine (postRunProjectorsOption_ensures hs₅ groupList (hgroup.extends hext₁₅)).bind
        fun groupList s₆ hs₆ hext₆ hgroup => ?_
      have hext₅₆ := hext₅.trans hext₆
      have hext₄₆ := hext₄.trans hext₅₆
      have hext₃₆ := hext₃.trans hext₄₆
      refine .pure hs₆ ⟨.cons ⟨?_, hvalid.extends (hext₁₅.trans hext₆)⟩
        ((((((hprojectors.1.extends (hext₂.trans hext₃₆)).append (hsource.1.extends hext₃₆)).append
          (hwhere.extends hext₄₆)).append (hhaving.extends hext₅₆)).append
            (horder.extends hext₆)).append hgroup), rfl⟩
      rw [Bound.Relation.Shaped, hprojectors.2.outputFieldsOf, hprojectors.2.star, hsource.2]
      exact hshape
  | .aliased aliasName source f, h => by
      obtain ⟨⟨hshape, hvalid⟩, hsource⟩ := allWellBound_cons.mp h
      refine (postRunRelation_ensures hs source hsource).bind fun source' s₁ hs₁ hext₁ hsource => ?_
      refine .pure hs₁ ⟨.cons ⟨?_, hvalid.extends hext₁⟩ hsource.1, rfl⟩
      rw [Bound.Relation.Shaped, hsource.2]
      exact hshape
  | .unionAll left right f, h => by
      obtain ⟨⟨hshape, hvalid⟩, h⟩ := allWellBound_cons.mp h
      obtain ⟨hleft, hright⟩ := allWellBound_append.mp h
      refine (postRunRelation_ensures hs left hleft).bind fun left' s₁ hs₁ hext₁ hleft => ?_
      refine (postRunRelation_ensures hs₁ right (hright.extends hext₁)).bind
        fun right' s₂ hs₂ hext₂ hright => ?_
      refine .pure hs₂ ⟨.cons ⟨?_, hvalid.extends (hext₁.trans hext₂)⟩
        ((hleft.1.extends hext₂).append hright.1), rfl⟩
      rw [Bound.Relation.Shaped, hleft.2, hright.2]
      exact hshape
  | .leftJoin left right leftKey rightKey f, h => by
      obtain ⟨⟨hshape, hvalid⟩, h⟩ := allWellBound_cons.mp h
      simp only [allWellBound_append] at h
      obtain ⟨⟨⟨hleft, hright⟩, hleftKey⟩, hrightKey⟩ := h
      refine (postRunRelation_ensures hs left hleft).bind fun left' s₁ hs₁ hext₁ hleft => ?_
      refine (postRunRelation_ensures hs₁ right (hright.extends hext₁)).bind
        fun right' s₂ hs₂ hext₂ hright => ?_
      have hext₁₂ := hext₁.trans hext₂
      refine (postRunExpr_ensures hs₂ leftKey (hleftKey.extends hext₁₂)).bind
        fun leftKey s₃ hs₃ hext₃ hleftKey => ?_
      refine (postRunExpr_ensures hs₃ rightKey (hrightKey.extends (hext₁₂.trans hext₃))).bind
        fun rightKey s₄ hs₄ hext₄ hrightKey => ?_
      have hext₃₄ := hext₃.trans hext₄
      have hleft₄ := hleft.1.extends (hext₂.trans hext₃₄)
      have hright₄ := hright.1.extends hext₃₄
      refine (postRunJoin_ensures hs₄ (hleft₄ left' left'.mem_relations).valid
        (hright₄ right' right'.mem_relations).valid leftKey rightKey).bind
          fun keys s₅ hs₅ hext₅ hkeys => ?_
      have hparts := (hleft₄.extends hext₅).append (hright₄.extends hext₅)
      have hleftKey₅ := hleftKey.extends (hext₄.trans hext₅)
      have hrightKey₅ := hrightKey.extends hext₅
      have hshape' : (Bound.Relation.leftJoin left' right' keys.1 keys.2 f).Shaped known := by
        rw [Bound.Relation.Shaped, hleft.2, hright.2]
        exact hshape
      have hvalid₅ := hvalid.extends ((hext₁₂.trans hext₃₄).trans hext₅)
      -- the keys may have been swapped
      rcases hkeys with rfl | rfl
      · exact .pure hs₅ ⟨.cons ⟨hshape', hvalid₅⟩ ((hparts.append hleftKey₅).append hrightKey₅), rfl⟩
      · exact .pure hs₅ ⟨.cons ⟨hshape', hvalid₅⟩ ((hparts.append hrightKey₅).append hleftKey₅), rfl⟩
  | .unionAllSortedBy left right orderList desc f, h => by
      obtain ⟨⟨hshape, hvalid⟩, h⟩ := allWellBound_cons.mp h
      simp only [allWellBound_append] at h
      obtain ⟨⟨hleft, hright⟩, horder⟩ := h
      refine (postRunRelation_ensures hs left hleft).bind fun left' s₁ hs₁ hext₁ hleft => ?_
      refine (postRunRelation_ensures hs₁ right (hright.extends hext₁)).bind
        fun right' s₂ hs₂ hext₂ hright => ?_
      have hext₁₂ := hext₁.trans hext₂
      refine (postRunExprs_ensures hs₂ orderList (horder.extends hext₁₂)).bind
        fun orderList s₃ hs₃ hext₃ horder => ?_
      refine .pure hs₃ ⟨.cons ⟨?_, hvalid.extends (hext₁₂.trans hext₃)⟩
        (((hleft.1.extends (hext₂.trans hext₃)).append (hright.1.extends hext₃)).append horder), rfl⟩
      rw [Bound.Relation.Shaped, hleft.2, hright.2]
      exact hshape
  | .file _ _ _ _, h => .pure hs ⟨h, rfl⟩
  | .stream _ _, h => .pure hs ⟨h, rfl⟩
  | .namedRelationReference _ _, h => .pure hs ⟨h, rfl⟩
  | .materialize relation f, h => by
      obtain ⟨⟨hshape, hvalid⟩, hrelation⟩ := allWellBound_cons.mp h
      refine (postRunRelation_ensures hs relation hrelation).bind
        fun relation' s₁ hs₁ hext₁ hrelation => ?_
      refine .pure hs₁ ⟨.cons ⟨?_, hvalid.extends hext₁⟩ hrelation.1, rfl⟩
      rw [Bound.Relation.Shaped, hrelation.2]
      exact hshape

end

end PostRun

/-! ### Programs -/

namespace Bound

def Statement.relation : Statement → Relation
  | .query relation => relation
  | .namedRelation _ relation => relation

/-- The relations of a program. -/
def relationsOfStatements (statements : List Statement) : List Relation :=
  statements.flatMap fun statement => statement.relation.relations

/-- Statements as the binder returns them. -/
def StatementsWellBound (s : BindState) : List RelationFieldSet → List Statement → Prop
  | _, [] => True
  | known, .query relation :: statements =>
    AllWellBound known s relation.relations ∧ StatementsWellBound s known statements
  | known, .namedRelation _ relation :: statements =>
    AllWellBound known s relation.relations ∧
      StatementsWellBound s (known ++ [relation.fieldsOut]) statements

theorem StatementsWellBound.before {s s' : BindState} (hbefore : s.Before s')
    {known : List RelationFieldSet} {statements : List Statement}
    (h : StatementsWellBound s known statements) : StatementsWellBound s' known statements := by
  induction statements generalizing known with
  | nil => trivial
  | cons statement statements ih =>
      cases statement with
      | query relation => exact ⟨h.1.before hbefore, ih h.2⟩
      | namedRelation name relation => exact ⟨h.1.before hbefore, ih h.2⟩

end Bound

open Bound (StatementsWellBound)

section Programs

variable [HashOrder]

theorem postRun_ensures {known : List RelationFieldSet} {s : BindState} (hs : s.Valid)
    {statements : List Bound.Statement} (h : StatementsWellBound s known statements) :
    Ensures (postRun statements) s fun statements' s' =>
      StatementsWellBound s' known statements' := by
  induction statements generalizing known s with
  | nil => exact .pure hs trivial
  | cons statement statements ih =>
      cases statement with
      | query relation =>
          refine (postRunRelation_ensures hs relation h.1).bind fun relation s₁ hs₁ hext₁ hr => ?_
          refine (ih hs₁ (h.2.before hext₁.toBefore)).bind fun statements s₂ hs₂ hext₂ hrest => ?_
          exact .pure hs₂ ⟨hr.1.extends hext₂, hrest⟩
      | namedRelation name relation =>
          refine (postRunRelation_ensures hs relation h.1).bind fun relation s₁ hs₁ hext₁ hr => ?_
          refine (ih hs₁ (h.2.before hext₁.toBefore)).bind fun statements s₂ hs₂ hext₂ hrest => ?_
          refine .pure hs₂ ⟨hr.1.extends hext₂, ?_⟩
          rw [hr.2]
          exact hrest

variable [Platform]

/-- The statements of a program, each with the relations that have been named before it. -/
theorem bindStatements_spec {known : List RelationFieldSet} {program : Ast.Program String}
    {s s' : BindState} {statements : List Bound.Statement} (hs : Ready known s)
    (h : bindStatements program s = .ok (statements, s')) :
    s'.Valid ∧ s.Before s' ∧ StatementsWellBound s' known statements := by
  induction program generalizing known s statements with
  | nil =>
      cases h
      exact ⟨hs.valid, .refl _, trivial⟩
  | cons statement program ih =>
      obtain ⟨bound, s₁, hbound, h⟩ := binder_bind_ok.mp h
      obtain ⟨rest, s₂, hrest, h⟩ := binder_bind_ok.mp h
      cases h
      cases statement with
      | macroDefinition name params body => cases hbound
      | query relation =>
          obtain ⟨relation, s₁', hrelation, h⟩ := binder_bind_ok.mp hbound
          cases h
          obtain ⟨hs₁, hext, hr⟩ := bindRelation_ensures hs _ _ _ hrelation
          obtain ⟨hs₂, hbefore, hstatements⟩ := ih (hs.extends hs₁ hext) hrest
          exact ⟨hs₂, hext.toBefore.trans hbefore, hr.before hbefore, hstatements⟩
      | namedRelation name relation =>
          obtain ⟨relation, s₁', hrelation, hnamed⟩ := binder_bind_ok.mp hbound
          obtain ⟨hs₁, hext, hr⟩ := bindRelation_ensures hs _ _ _ hrelation
          obtain ⟨t, s₂', hget, hnamed⟩ := binder_bind_ok.mp hnamed
          cases hget
          obtain ⟨u, s₂', hrequire, hnamed⟩ := binder_bind_ok.mp hnamed
          obtain rfl : s₂' = s₁' := requireAt_state hrequire
          obtain ⟨u, s₃, hset, hnamed⟩ := binder_bind_ok.mp hnamed
          cases hset
          cases hnamed
          have hadded : s₂'.Before
              { s₂' with named := s₂'.named ++ [(name, relation.fieldsOut)] } :=
            ⟨List.prefix_refl _, fun hfields => ⟨_, hfields, fun _ hid => hid⟩⟩
          have hready : Ready (known ++ [relation.fieldsOut])
              { s₂' with named := s₂'.named ++ [(name, relation.fieldsOut)] } := {
            valid := ⟨hs₁.nodup, hs₁.opened⟩
            known_eq := by rw [List.map_append, hext.named, hs.known_eq]; rfl
            known_valid := by
              intro f hf
              rcases List.mem_append.mp hf with hf | hf
              · exact ((hs.known_valid f hf).extends hext).before hadded
              · rw [List.mem_singleton.mp hf]
                exact (hr relation relation.mem_relations).valid.before hadded }
          obtain ⟨hs₂, hbefore, hstatements⟩ := ih hready hrest
          have hafter := hadded.trans hbefore
          exact ⟨hs₂, hext.toBefore.trans hafter, hr.before hafter, hstatements⟩

/-- **Every relation of an accepted program has the field set that its parts determine.** -/
theorem bind_spec {program : Ast.Program String} {statements : List Bound.Statement} {s : BindState}
    (h : bind program = .ok (statements, s)) : s.Valid ∧ StatementsWellBound s [] statements := by
  obtain ⟨expanded, -, h⟩ := bind_eq_ok.mp h
  obtain ⟨bound, s₁, hbound, hpost⟩ := binder_bind_ok.mp h
  have hready : Ready [] BindState.empty := {
    valid := ⟨List.nodup_nil, fun hfields => by cases hfields⟩
    known_eq := rfl
    known_valid := fun _ hf => absurd hf List.not_mem_nil }
  obtain ⟨hs₁, -, hstatements⟩ := bindStatements_spec hready hbound
  obtain ⟨hs, -, hstatements⟩ := postRun_ensures hs₁ hstatements _ _ hpost
  exact ⟨hs, hstatements⟩

end Programs

end Lsql.Front
