import Lsql.Front.BindSpec
import Lsql.Front.LowerSpec
import Lsql.Ir.Schemas

/-!
# Lsql.Front.LowerFits

Every schema that the lowering makes is the one that the sources of its node give, and the columns of a
`SELECT` are those of its list.

The current relation of the context is followed through the lowering (`Runs`). An expression leaves it
as it is but for mark joins, one for each `IN` that is not the whole condition (`Marked`); what is put
on top of it afterwards has the schema that it had before.
-/

namespace Lsql.Front.Lower

/-! ### States -/

/-- The schemas of the relations that have been named. -/
def LowerState.schemaOf (s : LowerState) : String → Option Schema :=
  fun name => s.namedRelations.lookup name

/-- A later state of the lowering of a relation: fields have been added to the binding. -/
structure LowerState.Amid (s t : LowerState) : Prop where
  binding : s.binding.entries <+: t.binding.entries
  nodup : s.binding.entries.Nodup → t.binding.entries.Nodup
  openFields : t.openFields = s.openFields
  named : t.namedRelations = s.namedRelations

namespace LowerState.Amid

variable {s t u : LowerState}

theorem refl (s : LowerState) : s.Amid s := ⟨List.prefix_refl _, fun h => h, rfl, rfl⟩

theorem trans (h : s.Amid t) (h' : t.Amid u) : s.Amid u :=
  ⟨h.binding.trans h'.binding, fun hs => h'.nodup (h.nodup hs), h'.openFields.trans h.openFields,
    h'.named.trans h.named⟩

theorem schemaOf (h : s.Amid t) : t.schemaOf = s.schemaOf := by
  unfold LowerState.schemaOf
  rw [h.named]

end LowerState.Amid

/-- A relation under mark joins. -/
inductive Marked (named : String → Option Schema) (r : Ir.Relation) : Ir.Relation → Prop
  | refl : Marked named r r
  | join {q m : Ir.Relation} {e : Ir.Scalar} {o f : FieldId} {s : Schema} : Marked named r q →
      m.Fits named → s.fields = q.schema.fields ++ [o] → Marked named r (.markJoin q m e o f s)

namespace Marked

variable {named : String → Option Schema} {r q p : Ir.Relation}

theorem trans (h : Marked named r q) (h' : Marked named q p) : Marked named r p := by
  induction h' with
  | refl => exact h
  | join _ hm hs ih => exact .join ih hm hs

theorem fits (h : Marked named r q) (hr : r.Fits named) : q.Fits named := by
  induction h with
  | refl => exact hr
  | join _ hm hs ih => exact Ir.Relation.fits_two hs rfl ih hm

theorem isPrefix (h : Marked named r q) : r.schema.fields <+: q.schema.fields := by
  induction h with
  | refl => exact List.prefix_refl _
  | @join q m e o f s _ _ hs ih =>
      show _ <+: s.fields
      rw [hs]
      exact ih.trans (List.prefix_append _ _)

/-- What a filter on top with the columns of the relation needs. -/
theorem hides (h : Marked named r q) : r.schema = q.schema ∨ q.IsMark := by
  cases h with
  | refl => exact .inl rfl
  | join => exact .inr trivial

end Marked

/-! ### Rules -/

/-- What a computation does to the context, from a current relation on, and what it returns. -/
def Runs {α : Type} (named : String → Option Schema) (c : Option Ir.Relation) (x : Lowerer α)
    (Q : α → Option Ir.Relation → Prop) : Prop :=
  ∀ s a s', s.schemaOf = named → s.currRelation = c → x s = .ok (a, s') →
    s.Amid s' ∧ Q a s'.currRelation

/-- A computation that puts mark joins on the current relation, if it does anything to it. -/
def Marking {α : Type} (named : String → Option Schema) (x : Lowerer α) (Q : α → Prop) : Prop :=
  ∀ c, Runs named c x fun a c' => Option.Rel (Marked named) c c' ∧ Q a

section Rules

variable {α β : Type} {named : String → Option Schema} {c : Option Ir.Relation} {r : Ir.Relation}
  {x : Lowerer α} {f : α → Lowerer β} {P P' : α → Option Ir.Relation → Prop}
  {Q : β → Option Ir.Relation → Prop} {R : α → Prop} {T : β → Prop}

namespace Runs

theorem pure {a : α} (h : P a c) : Runs named c (Pure.pure a) P := by
  intro s a' s' _ hc hrun
  cases hrun
  exact ⟨.refl s, hc.symm ▸ h⟩

theorem bind (hx : Runs named c x P) (hf : ∀ a c', P a c' → Runs named c' (f a) Q) :
    Runs named c (x >>= f) Q := by
  intro s b s' hnamed hc hrun
  obtain ⟨a, t, ha, hb⟩ := lowerer_bind_ok.mp hrun
  obtain ⟨hamid, hP⟩ := hx s a t hnamed hc ha
  obtain ⟨hamid', hQ⟩ := hf a _ hP t b s' (hamid.schemaOf.trans hnamed) rfl hb
  exact ⟨hamid.trans hamid', hQ⟩

theorem mono (hx : Runs named c x P) (h : ∀ a c', P a c' → P' a c') : Runs named c x P' := by
  intro s a s' hnamed hc hrun
  obtain ⟨hamid, hP⟩ := hx s a s' hnamed hc hrun
  exact ⟨hamid, h _ _ hP⟩

/-- Code that does not touch the context. -/
theorem lift {y : Except Fault α} (h : ∀ a, y = .ok a → P a c) : Runs named c (liftM y) P := by
  intro s a s' _ hc hrun
  obtain ⟨a', hy, hpure⟩ := bind_eq_ok.mp hrun
  cases hpure
  exact ⟨.refl s, hc.symm ▸ h a hy⟩

/-- Code that leaves the current relation as it is. -/
theorem frame (h : ∀ s a s', x s = .ok (a, s') → s.Amid s' ∧ s'.currRelation = s.currRelation) :
    Runs named c x fun _ c' => c' = c := by
  intro s a s' _ hc hrun
  obtain ⟨hamid, hcurr⟩ := h s a s' hrun
  exact ⟨hamid, hcurr.trans hc⟩

end Runs

theorem optionRel_refl (c : Option Ir.Relation) : Option.Rel (Marked named) c c := by
  cases c with
  | none => exact .none
  | some r => exact .some .refl

theorem optionRel_trans {c c' c'' : Option Ir.Relation} (h : Option.Rel (Marked named) c c')
    (h' : Option.Rel (Marked named) c' c'') : Option.Rel (Marked named) c c'' := by
  cases h with
  | none =>
      cases h'
      exact .none
  | some h =>
      cases h' with
      | some h' => exact .some (h.trans h')

namespace Marking

theorem pure {a : α} (h : R a) : Marking named (Pure.pure a) R :=
  fun c => Runs.pure ⟨optionRel_refl c, h⟩

theorem bind (hx : Marking named x R) (hf : ∀ a, R a → Marking named (f a) T) :
    Marking named (x >>= f) T := fun c =>
  (hx c).bind fun a c' ha => (hf a ha.2 c').mono fun _ _ hb => ⟨optionRel_trans ha.1 hb.1, hb.2⟩

theorem lift {y : Except Fault α} (h : ∀ a, y = .ok a → R a) : Marking named (liftM y) R :=
  fun c => Runs.lift fun a ha => ⟨optionRel_refl c, h a ha⟩

theorem failed {e : Fault} : Marking named (throw e : Lowerer α) R := by
  intro _ s a s' _ _ hrun
  cases hrun

theorem frame (h : ∀ s a s', x s = .ok (a, s') → s.Amid s' ∧ s'.currRelation = s.currRelation) :
    Marking named x fun _ => True :=
  fun _ => (Runs.frame h).mono fun _ c' hc => ⟨hc ▸ optionRel_refl c', trivial⟩

theorem mono {R' : α → Prop} (hx : Marking named x R) (h : ∀ a, R a → R' a) :
    Marking named x R' := fun c => (hx c).mono fun _ _ ha => ⟨ha.1, h _ ha.2⟩

/-- What it does to a relation. -/
theorem on (hx : Marking named x R) (r : Ir.Relation) :
    Runs named (some r) x fun a c' => ∃ q, c' = some q ∧ Marked named r q ∧ R a := by
  refine (hx (some r)).mono fun a c' ha => ?_
  obtain ⟨hrel, ha⟩ := ha
  cases hrel with
  | @some _ q hq => exact ⟨q, rfl, hq, ha⟩

/-- It does something, and something else is done to what it leaves. -/
theorem bindRuns (hx : Marking named x R)
    (hf : ∀ a q, Marked named r q → R a → Runs named (some q) (f a) Q) :
    Runs named (some r) (x >>= f) Q := by
  refine (hx.on r).bind fun a c' ha => ?_
  obtain ⟨q, rfl, hq, ha⟩ := ha
  exact hf a q hq ha

end Marking

/-- Code that does not touch the context, and something else behind it. -/
theorem lift_bindRuns {y : Except Fault α} (hf : ∀ a, y = .ok a → Runs named c (f a) Q) :
    Runs named c (liftM y >>= f) Q := by
  refine Runs.bind (P := fun a c' => y = .ok a ∧ c' = c) (Runs.lift fun a ha => ⟨ha, rfl⟩) ?_
  rintro a c' ⟨ha, rfl⟩
  exact hf a ha

/-! ### The context -/

theorem currRelation_bindRuns {g : Ir.Relation → Lowerer β}
    (hg : Runs named (some r) (g r) Q) : Runs named (some r) (currRelation >>= g) Q := by
  intro s b s' hnamed hc hrun
  obtain ⟨a, t, ha, hb⟩ := lowerer_bind_ok.mp hrun
  unfold currRelation at ha
  rw [hc] at ha
  cases ha
  exact hg s b s' hnamed hc hb

/-- Without a current relation there is no result. -/
theorem pullRelation_bindRuns {g : Ir.Relation → Lowerer β}
    (hg : ∀ r, c = some r → Runs named none (g r) Q) : Runs named c (pullRelation >>= g) Q := by
  intro s b s' hnamed hc hrun
  obtain ⟨a, t, ha, hb⟩ := lowerer_bind_ok.mp hrun
  obtain ⟨a', t', ha', hrest⟩ := lowerer_bind_ok.mp ha
  unfold currRelation at ha'
  split at ha'
  next hr =>
    cases ha'
    cases hrest
    obtain ⟨hamid, hQ⟩ := hg a (hc.symm.trans hr) { s with currRelation := none } b s' hnamed rfl hb
    exact ⟨⟨hamid.binding, hamid.nodup, hamid.openFields, hamid.named⟩, hQ⟩
  · cases ha'

theorem pullRelation_runs {P : Ir.Relation → Option Ir.Relation → Prop} (h : P r none) :
    Runs named (some r) pullRelation P := by
  have hrun := @pullRelation_bindRuns _ named (some r) P Pure.pure fun q hq => by
    cases hq
    exact .pure h
  rwa [bind_pure] at hrun

theorem setRelation_runs (r : Ir.Relation) :
    Runs named c (setRelation r) fun _ c' => c' = some r := by
  intro s a s' _ _ hrun
  obtain ⟨_, -, hpure⟩ := bind_eq_ok.mp hrun
  cases hpure
  exact ⟨⟨List.prefix_refl _, fun h => h, rfl, rfl⟩, rfl⟩

/-- Another relation on top of the current one. -/
theorem replaceRelation_runs (g : Ir.Relation → Ir.Relation) : Runs named (some r)
    (do
      let source ← pullRelation
      setRelation (g source)) fun _ c' => c' = some (g r) := by
  refine pullRelation_bindRuns fun q hq => ?_
  cases hq
  exact setRelation_runs (g r)

theorem scopedFieldSet_runs {curr : FieldSet} (hx : Runs named c x P) :
    Runs named c (scopedFieldSet curr x) P := by
  intro s a s' hnamed hc hrun
  obtain ⟨⟨a', t⟩, ha', hpure⟩ := bind_eq_ok.mp hrun
  cases hpure
  obtain ⟨hamid, hP⟩ := hx { s with currFieldSet := some curr } _ _ hnamed hc ha'
  exact ⟨⟨hamid.binding, hamid.nodup, hamid.openFields, hamid.named⟩, hP⟩

theorem scopedFieldSet_marking {curr : FieldSet} (hx : Marking named x R) :
    Marking named (scopedFieldSet curr x) R := fun c => scopedFieldSet_runs (hx c)

/-- What is done in a scope of its own leaves the current relation alone. -/
theorem scopedRelation_marking (hx : Runs named (some r) x fun a _ => R a) :
    Marking named (scopedRelation r x) R := by
  intro c s a s' hnamed hc hrun
  obtain ⟨⟨a', t⟩, ha', hpure⟩ := bind_eq_ok.mp hrun
  cases hpure
  obtain ⟨hamid, hR⟩ := hx { s with currRelation := some r } _ _ hnamed rfl ha'
  refine ⟨⟨hamid.binding, hamid.nodup, hamid.openFields, hamid.named⟩, ?_, hR⟩
  show Option.Rel _ _ s.currRelation
  rw [hc]
  exact optionRel_refl c

theorem verify_marking (cond : Bool) (message : String) :
    Marking named (liftM (verify cond message)) fun _ => True := .lift fun _ _ => trivial

end Rules

section Reads

variable {named : String → Option Schema}

theorem currFieldSet_marking : Marking named currFieldSet fun _ => True := by
  refine .frame fun s a s' hrun => ?_
  unfold currFieldSet at hrun
  split at hrun
  · cases hrun
    exact ⟨.refl s, rfl⟩
  · cases hrun

theorem typeOf_marking (id : FieldId) : Marking named (typeOf id) fun _ => True := by
  refine .frame fun s a s' hrun => ?_
  obtain ⟨type, -, hpure⟩ := bind_eq_ok.mp hrun
  cases hpure
  exact ⟨.refl s, rfl⟩

theorem nameOf_marking (id : FieldId) : Marking named (nameOf id) fun _ => True := by
  refine .frame fun s a s' hrun => ?_
  obtain ⟨name, -, hpure⟩ := bind_eq_ok.mp hrun
  cases hpure
  exact ⟨.refl s, rfl⟩

theorem getOrAdd_marking (name : String) (type : ValueType) :
    Marking named (getOrAdd name type) fun _ => True := by
  refine .frame fun s a s' hrun => ?_
  cases hrun
  exact ⟨⟨(s.binding.getOrAdd_spec name type).2, FieldBinding.getOrAdd_nodup, rfl, rfl⟩, rfl⟩

theorem addAnonymous_marking (pre : String) (type : ValueType) :
    Marking named (addAnonymous pre type) fun _ => True := by
  refine .frame fun s a s' hrun => ?_
  obtain ⟨added, hadd, hpure⟩ := bind_eq_ok.mp hrun
  cases hpure
  obtain ⟨_, hverify, hadd⟩ := bind_eq_ok.mp hadd
  cases hadd
  have hfresh := verify_eq_ok.mp hverify
  refine ⟨⟨List.prefix_append _ _, fun hs => ?_, rfl, rfl⟩, rfl⟩
  refine hs.append (List.nodup_singleton _) ?_
  simpa [FieldBinding.hasField] using hfresh

theorem find_marking (name : String) : Marking named (find name) fun s => named name = some s := by
  intro c s a s' hnamed hc hrun
  unfold find at hrun
  split at hrun
  next schema hlookup =>
    cases hrun
    refine ⟨.refl s, hc ▸ optionRel_refl _, ?_⟩
    rw [← hnamed]
    exact hlookup
  · cases hrun

/-- A state of the binder in which only the binding has grown. -/
structure OnlyBinds (s t : BindState) : Prop extends BindState.Grows s t where
  nodup : s.binding.entries.Nodup → t.binding.entries.Nodup

theorem OnlyBinds.refl (s : BindState) : OnlyBinds s s := ⟨.refl s, fun h => h⟩

theorem OnlyBinds.trans {s t u : BindState} (h : OnlyBinds s t) (h' : OnlyBinds t u) :
    OnlyBinds s u := ⟨h.toGrows.trans h'.toGrows, fun hs => h'.nodup (h.nodup hs)⟩

section Fields

variable [HashOrder]

omit [HashOrder] in
theorem fromExcept_onlyBinds {α : Type} {x : Except Fault α} {s t : BindState} {a : α}
    (h : Binder.fromExcept x s = .ok (a, t)) : OnlyBinds s t := by
  cases x with
  | error e => cases h
  | ok x =>
      cases h
      exact .refl s

omit [HashOrder] in
theorem aliasFields_onlyBinds {aliasPrefix : String} {ids : List FieldId} {done fields : FieldSet}
    {s t : BindState}
    (h : RelationFieldSet.aliasFields aliasPrefix ids done s = .ok (fields, t)) :
    OnlyBinds s t := by
  induction ids generalizing done s with
  | nil =>
      cases h
      exact .refl _
  | cons id ids ih =>
      obtain ⟨name, s₁, hname, h⟩ := binder_bind_ok.mp h
      obtain ⟨type, s₂, htype, h⟩ := binder_bind_ok.mp h
      obtain ⟨aliasId, s₃, hadd, h⟩ := binder_bind_ok.mp h
      cases hadd
      have hgrows : OnlyBinds s₂ { s₂ with
          binding := (s₂.binding.getOrAdd (aliasPrefix ++ name) type).2 } :=
        ⟨⟨(s₂.binding.getOrAdd_spec _ _).2, rfl, rfl⟩, FieldBinding.getOrAdd_nodup⟩
      exact (((fromExcept_onlyBinds hname).trans (fromExcept_onlyBinds htype)).trans hgrows).trans
        (ih h)

mutual

/-- The fields of a field set may have to be given identifiers first. -/
theorem fields_onlyBinds : ∀ (r : RelationFieldSet) {s t : BindState} {fields : FieldSet},
    r.fields s = .ok (fields, t) → OnlyBinds s t
  | .fixed _, s, _, _, h => by
      cases h
      exact .refl s
  | .opened cell, s, _, _, h => by
      rw [RelationFieldSet.fields] at h
      unfold Binder.openFieldsOf at h
      split at h
      · cases h
        exact .refl s
      · cases h
  | .aliased aliasPrefix source, _, _, _, h => by
      rw [RelationFieldSet.fields] at h
      obtain ⟨sourceFields, s₁, hsource, h⟩ := binder_bind_ok.mp h
      exact (fields_onlyBinds source hsource).trans (aliasFields_onlyBinds h)
  | .combined ownFields sources, _, _, _, h => by
      rw [RelationFieldSet.fields] at h
      exact mergeFields_onlyBinds sources h

theorem mergeFields_onlyBinds : ∀ (rs : List RelationFieldSet) {s t : BindState}
    {merged fields : FieldSet}, RelationFieldSet.mergeFields merged rs s = .ok (fields, t) →
      OnlyBinds s t
  | [], s, _, _, _, h => by
      rw [RelationFieldSet.mergeFields] at h
      cases h
      exact .refl s
  | source :: sources, _, _, _, _, h => by
      rw [RelationFieldSet.mergeFields] at h
      obtain ⟨sourceFields, s₁, hsource, h⟩ := binder_bind_ok.mp h
      exact (fields_onlyBinds source hsource).trans (mergeFields_onlyBinds sources h)

end

theorem fieldsOf_marking (fieldsOut : RelationFieldSet) :
    Marking named (fieldsOf fieldsOut) fun _ => True := by
  refine .frame fun s a s' hrun => ?_
  obtain ⟨found, hfields, hpure⟩ := bind_eq_ok.mp hrun
  cases hpure
  have hgrows := fields_onlyBinds fieldsOut hfields
  exact ⟨⟨hgrows.binding, hgrows.nodup, rfl, rfl⟩, rfl⟩

end Fields

end Reads

/-! ### Expressions -/

mutual

/-- The relations in an expression are lowered in scopes of their own, and fit. -/
def Expr.Sound (named : String → Option Schema) : Expr → Prop
  | .identifier _ _ | .value _ _ => True
  | .fnCall _ args _ => AllSound named args
  | .inMatch e matched _ => e.Sound named ∧ Marking named matched fun m => m.Fits named
  | .like e _ _ | .unary _ e _ => e.Sound named
  | .binary _ left right _ => left.Sound named ∧ right.Sound named

def AllSound (named : String → Option Schema) : List Expr → Prop
  | [] => True
  | e :: es => e.Sound named ∧ AllSound named es

end

section Exprs

variable {named : String → Option Schema}

/-- The join of an `IN`, on top of the current relation. -/
theorem markJoin_marking {m : Ir.Relation} (hm : m.Fits named) (e : Ir.Scalar) (o f : FieldId) :
    Marking named (do
      let source ← pullRelation
      let schema ← source.schema.append o
      setRelation (.markJoin source m e o f schema)) fun _ => True := by
  intro c
  refine pullRelation_bindRuns fun r hr => ?_
  subst hr
  refine lift_bindRuns fun schema hschema => (setRelation_runs _).mono fun _ c' hc => ?_
  subst hc
  exact ⟨.some (.join .refl hm (Schema.append_eq_ok.mp hschema).2), trivial⟩

mutual

theorem lowerExpr_marking : ∀ e : Expr, e.Sound named → Marking named (lowerExpr e) fun _ => True
  | .identifier id t, _ => by
      rw [lowerExpr]
      exact currFieldSet_marking.bind fun _ _ => (verify_marking _ _).bind fun _ _ => .pure trivial
  | .value v t, _ => by
      rw [lowerExpr]
      exact .pure trivial
  | .fnCall f args t, h => by
      rw [lowerExpr]
      refine (lowerExprs_marking args h).bind fun lowered _ => (verify_marking _ _).bind fun _ _ => ?_
      split
      · exact .pure trivial
      · exact (addAnonymous_marking _ _).bind fun _ _ => .pure trivial
  | .inMatch e matched f, h => by
      rw [lowerExpr]
      refine (addAnonymous_marking _ _).bind fun outputId _ => ?_
      refine (lowerExpr_marking e h.1).bind fun lowered _ => (verify_marking _ _).bind fun _ _ => ?_
      refine h.2.bind fun matched hmatched => ?_
      have hjoin := (markJoin_marking hmatched lowered.1 outputId f).bind
        (T := fun _ => True)
        (f := fun _ => Pure.pure (Ir.Scalar.field outputId .boolean, ([] : List Ir.Aggregate)))
        fun _ _ => Marking.pure trivial
      simpa only [bind_assoc] using hjoin
  | .like e regex t, h => by
      rw [lowerExpr]
      exact (lowerExpr_marking e h).bind fun _ _ => .pure trivial
  | .binary type left right t, h => by
      rw [lowerExpr]
      exact (lowerExpr_marking left h.1).bind fun _ _ =>
        (lowerExpr_marking right h.2).bind fun _ _ => .pure trivial
  | .unary type e t, h => by
      rw [lowerExpr]
      exact (lowerExpr_marking e h).bind fun _ _ => .pure trivial

theorem lowerExprs_marking : ∀ es : List Expr, AllSound named es →
    Marking named (lowerExprs es) fun _ => True
  | [], _ => by
      rw [lowerExprs]
      exact .pure trivial
  | e :: es, h => by
      rw [lowerExprs]
      exact (lowerExpr_marking e h.1).bind fun _ _ => (lowerExprs_marking es h.2).bind fun _ _ =>
        .pure trivial

end

theorem lowerRowExpr_marking {e : Expr} (h : e.Sound named) :
    Marking named (lowerRowExpr e) fun _ => True :=
  (lowerExpr_marking e h).bind fun _ _ => (verify_marking _ _).bind fun _ _ => .pure trivial

theorem lowerRowExprs_marking {es : List Expr} (h : AllSound named es) :
    Marking named (lowerRowExprs es) fun _ => True :=
  (lowerExprs_marking es h).bind fun _ _ => (verify_marking _ _).bind fun _ _ => .pure trivial

variable [HashOrder]

mutual

theorem extractAggregates_marking : ∀ e : Expr, e.Sound named →
    Marking named (extractAggregates e) fun extracted => extracted.expr.Sound named
  | .identifier id t, _ => by
      rw [extractAggregates]
      exact .pure trivial
  | .value v t, _ => by
      rw [extractAggregates]
      exact .pure trivial
  | .fnCall f args t, h => by
      rw [extractAggregates]
      split
      · refine (lowerExpr_marking (.fnCall f args t) h).bind fun lowered _ => ?_
        obtain ⟨scalar, aggregates⟩ := lowered
        cases scalar with
        | field id u => exact .pure trivial
        | _ => exact .failed
      · exact (extractAll_marking _ args h).bind fun extracted hargs => .pure hargs
  | .inMatch e matched f, h => by
      rw [extractAggregates]
      exact (extractAggregates_marking e h.1).bind fun extracted he => .pure ⟨he, h.2⟩
  | .like e regex t, h => by
      rw [extractAggregates]
      exact (extractAggregates_marking e h).bind fun extracted he => .pure he
  | .binary type left right t, h => by
      rw [extractAggregates]
      exact (extractAggregates_marking left h.1).bind fun _ hl =>
        (extractAggregates_marking right h.2).bind fun _ hr => .pure ⟨hl, hr⟩
  | .unary type e t, h => by
      rw [extractAggregates]
      exact (extractAggregates_marking e h).bind fun extracted he => .pure he

theorem extractAll_marking (fields : FieldSet) : ∀ es : List Expr, AllSound named es →
    Marking named (extractAll fields es) fun extracted => AllSound named extracted.expr
  | [], _ => by
      rw [extractAll]
      exact .pure trivial
  | e :: es, h => by
      rw [extractAll]
      exact (extractAggregates_marking e h.1).bind fun _ he =>
        (extractAll_marking _ es h.2).bind fun _ hes => .pure ⟨he, hes⟩

end

end Exprs

/-! ### Projectors -/

/-- The columns of a projector, with those of a star. -/
def Projector.slots (star : List FieldId) : Projector → List FieldId
  | .star => star
  | .identifier id => [id]
  | .expr id _ => [id]

/-- The columns of a list of projectors, in their order. -/
def slotsOf (star : List FieldId) (ps : List Projector) : List FieldId :=
  ps.flatMap (Projector.slots star)

def Projector.Sound (named : String → Option Schema) : Projector → Prop
  | .expr _ e => e.Sound named
  | _ => True

/-- The columns of projectors. -/
abbrev aliases (ps : List Ir.Projector) : List FieldId := ps.map Ir.Projector.aliasFieldId

section Projectors

variable {named : String → Option Schema}

theorem fieldProjector_marking (id : FieldId) :
    Marking named (fieldProjector id) fun p => p.aliasFieldId = id :=
  (typeOf_marking id).bind fun _ _ => .pure rfl

theorem fieldProjectors_marking (ids : List FieldId) :
    Marking named (fieldProjectors ids) fun ps => aliases ps = ids := by
  induction ids with
  | nil => exact .pure rfl
  | cons id ids ih =>
      exact (fieldProjector_marking id).bind fun p hp => ih.bind fun ps hps => .pure (congrArg₂ List.cons hp hps)

theorem lowerProjector_marking [HashOrder] (starFields : FieldSet) {p : Projector}
    (h : p.Sound named) : Marking named (lowerProjector starFields p) fun lowered =>
      aliases lowered.1 = p.slots starFields.fieldIds := by
  cases p with
  | star => exact (fieldProjectors_marking _).bind fun _ hps => .pure hps
  | identifier id => exact (fieldProjector_marking id).bind fun _ hp => .pure (congrArg (fun i => [i]) hp)
  | expr id e => exact (lowerExpr_marking e h).bind fun _ _ => .pure rfl

theorem lowerProjectors_marking [HashOrder] (starFields : FieldSet) {ps : List Projector}
    (h : ∀ p ∈ ps, p.Sound named) : Marking named (lowerProjectors starFields ps) fun lowered =>
      aliases lowered.1 = slotsOf starFields.fieldIds ps := by
  induction ps with
  | nil => exact .pure rfl
  | cons p ps ih =>
      refine (lowerProjector_marking starFields (h p List.mem_cons_self)).bind fun first hfirst => ?_
      refine (ih fun q hq => h q (List.mem_cons_of_mem _ hq)).bind fun rest hrest => .pure ?_
      calc aliases (first.1 ++ rest.1) = aliases first.1 ++ aliases rest.1 := List.map_append
        _ = p.slots starFields.fieldIds ++ slotsOf starFields.fieldIds ps := by rw [hfirst, hrest]
        _ = slotsOf starFields.fieldIds (p :: ps) := List.flatMap_cons.symm

/-- What is added behind the projectors. Without fields there is nothing. -/
theorem addAllAsFieldScalars_marking [HashOrder] (fields : FieldSet) (ps : List Ir.Projector) :
    Marking named (addAllAsFieldScalars fields ps) fun ps' =>
      fields = .emptySet → ps' = ps := by
  refine Marking.bind (.lift fun _ _ => trivial) fun set (_ : True) => ?_
  refine (fieldProjectors_marking _).bind fun more hmore => .pure fun hfields => ?_
  have hnone : (FieldSet.emptySet).fieldIds = [] :=
    List.Perm.eq_nil FieldSet.emptySet.fieldIds_perm
  rw [hfields, hnone, List.filter_nil, List.map_eq_nil_iff] at hmore
  rw [hmore, List.append_nil]

end Projectors

/-! ### The parts of a `SELECT` -/

section Parts

variable {named : String → Option Schema} {r : Ir.Relation}

/-- A computation that leaves a relation that fits, with a property of its columns. -/
abbrev RunsFit {α : Type} (named : String → Option Schema) (r : Ir.Relation) (x : Lowerer α)
    (P : α → List FieldId → Prop) : Prop :=
  Runs named (some r) x fun a c' => ∃ q, c' = some q ∧ q.Fits named ∧ P a q.schema.fields

theorem RunsFit.bind {α β : Type} {x : Lowerer α} {f : α → Lowerer β}
    {P : α → List FieldId → Prop} {Q : β → Option Ir.Relation → Prop}
    (hx : RunsFit named r x P)
    (hf : ∀ a q, q.Fits named → P a q.schema.fields → Runs named (some q) (f a) Q) :
    Runs named (some r) (x >>= f) Q := by
  refine Runs.bind hx fun a c' ha => ?_
  obtain ⟨q, rfl, hq, ha⟩ := ha
  exact hf a q hq ha

theorem setProjection_fit (hr : r.Fits named) (ps : List Ir.Projector) :
    RunsFit named r (setProjection ps) fun _ ids => ids = aliases ps := by
  refine lift_bindRuns fun schema hschema => ?_
  refine (replaceRelation_runs _).mono fun _ c' hc => ⟨_, hc, ?_⟩
  have hfields := Schema.appendAll_eq_ok.mp hschema
  exact ⟨Ir.Relation.fits_one hfields rfl hr, hfields⟩

/-- A condition leaves the columns as they are. -/
theorem lowerWhere_fit (hr : r.Fits named) {condition : Expr} (h : condition.Sound named) :
    RunsFit named r (lowerWhere condition) fun _ ids => ids = r.schema.fields := by
  refine currRelation_bindRuns (scopedFieldSet_runs ?_)
  split
  · -- the whole condition is an `IN`
    refine h.2.bindRuns fun matched q hq hmatched => ?_
    refine (verify_marking _ _).bindRuns fun _ q₁ hq₁ _ => ?_
    refine (lowerRowExpr_marking h.1).bindRuns fun key q₂ hq₂ _ => ?_
    have hmarked := (hq.trans hq₁).trans hq₂
    refine (replaceRelation_runs _).mono fun _ c' hc => ⟨_, hc, ?_, rfl⟩
    exact Ir.Relation.fits_two hmarked.isPrefix rfl (hmarked.fits hr) hmatched
  · refine (lowerRowExpr_marking h).bindRuns fun _ q hq _ => ?_
    refine (replaceRelation_runs _).mono fun _ c' hc => ⟨_, hc, ?_, rfl⟩
    exact Ir.Relation.fits_one ⟨hq.isPrefix, hq.hides⟩ rfl (hq.fits hr)

theorem lowerOrderBy_fit (hr : r.Fits named) {orderBy : OrderBy}
    (h : AllSound named orderBy.orderList) :
    RunsFit named r (lowerOrderBy orderBy) fun _ _ => True := by
  refine currRelation_bindRuns (scopedFieldSet_runs ?_)
  refine (lowerRowExprs_marking h).bindRuns fun _ q hq _ => currRelation_bindRuns ?_
  refine (replaceRelation_runs _).mono fun _ c' hc => ⟨_, hc, ?_, trivial⟩
  exact Ir.Relation.fits_one rfl rfl (hq.fits hr)

theorem lowerLimit_fit (hr : r.Fits named) (limit : Int) :
    RunsFit named r (lowerLimit limit) fun _ ids => ids = r.schema.fields := by
  refine currRelation_bindRuns ((replaceRelation_runs _).mono fun _ c' hc => ⟨_, hc, ?_, rfl⟩)
  exact Ir.Relation.fits_one rfl rfl hr

theorem whenPresent_fit {α : Type} (hr : r.Fits named) {part : Option α} {f : α → Lowerer Unit}
    {P : List FieldId → Prop} (hnone : part = none → P r.schema.fields)
    (hsome : ∀ p, part = some p → RunsFit named r (f p) fun _ ids => P ids) :
    RunsFit named r (whenPresent part f) fun _ ids => P ids := by
  cases part with
  | none => exact Runs.pure ⟨r, rfl, hr, hnone rfl⟩
  | some p => exact hsome p rfl

theorem lowerAggregates_fit (hr : r.Fits named) (select : Select) (aggregates : List Ir.Aggregate) :
    RunsFit named r (lowerAggregates select aggregates) fun _ _ => True := by
  unfold lowerAggregates
  split
  · refine lift_bindRuns fun _ _ => lift_bindRuns fun _ _ => lift_bindRuns fun schema hschema => ?_
    refine (replaceRelation_runs _).mono fun _ c' hc => ⟨_, hc, ?_, trivial⟩
    exact Ir.Relation.fits_one (Schema.appendAll_eq_ok.mp hschema) rfl hr
  · exact Runs.lift fun _ _ => ⟨r, rfl, hr, trivial⟩

variable [HashOrder]

/-- The keys of a `GROUP BY` are computed below the aggregation; it gets their fields. -/
theorem prepareGroupKeys_fit (hr : r.Fits named) {groupList : List Projector}
    (h : ∀ p ∈ groupList, p.Sound named) :
    RunsFit named r (prepareGroupKeys groupList) fun keys _ =>
      aliases keys = slotsOf (HashOrder.order r.schema.fields) groupList := by
  refine currRelation_bindRuns (scopedFieldSet_runs ?_)
  refine (lowerProjectors_marking _ h).bindRuns fun lowered q hq hlowered => ?_
  refine (verify_marking _ _).bindRuns fun _ q₁ hq₁ _ => ?_
  refine (fieldProjectors_marking _).bindRuns fun groupKeys q₂ hq₂ hkeys => ?_
  refine currRelation_bindRuns ?_
  refine (addAllAsFieldScalars_marking _ _).bindRuns fun keys q₃ hq₃ _ => ?_
  have hfits := (((hq.trans hq₁).trans hq₂).trans hq₃).fits hr
  refine (setProjection_fit hfits keys).bind fun _ q₄ hq₄ _ => Runs.pure ⟨q₄, rfl, hq₄, ?_⟩
  exact hkeys.trans hlowered

/-- What is selected, whatever is needed besides for a `HAVING` or an `ORDER BY`. -/
theorem lowerSelectOutput_fit (hr : r.Fits named) (ps : List Ir.Projector)
    {having : Option (Extracted Expr)} {orderBy : Option OrderBy}
    (hhaving : ∀ e ∈ having, e.expr.Sound named)
    (horderBy : ∀ o ∈ orderBy, AllSound named o.orderList) :
    RunsFit named r (lowerSelectOutput ps having orderBy) fun _ ids => ids = aliases ps := by
  refine (fieldProjectors_marking _).bindRuns fun final q hq hfinal => ?_
  refine (addAllAsFieldScalars_marking _ _).bindRuns fun projectors q₁ hq₁ hprojectors => ?_
  refine (setProjection_fit ((hq.trans hq₁).fits hr) projectors).bind fun _ q₂ hq₂ hids => ?_
  have hwhere : RunsFit named q₂ (whenPresent having fun having => lowerWhere having.expr)
      fun _ ids => ids = aliases projectors :=
    whenPresent_fit hq₂ (fun _ => hids) fun e he =>
      (lowerWhere_fit hq₂ (hhaving e he)).mono fun _ c' hc => by
        obtain ⟨q, rfl, hq, hids'⟩ := hc
        exact ⟨q, rfl, hq, hids'.trans hids⟩
  refine hwhere.bind fun _ q₃ hq₃ hids₃ => ?_
  have horder : RunsFit named q₃ (whenPresent orderBy lowerOrderBy) fun _ ids =>
      orderBy = none → ids = aliases projectors := by
    refine whenPresent_fit hq₃ (fun _ _ => hids₃) fun o ho => ?_
    refine (lowerOrderBy_fit hq₃ (horderBy o ho)).mono fun _ c' hc => ?_
    obtain ⟨q, rfl, hq, -⟩ := hc
    exact ⟨q, rfl, hq, fun hnone => by cases ho.symm.trans hnone⟩
  refine horder.bind fun _ q₄ hq₄ hids₄ => ?_
  split
  · refine (setProjection_fit hq₄ final).mono fun _ c' hc => ?_
    obtain ⟨q, rfl, hq, hids'⟩ := hc
    exact ⟨q, rfl, hq, hids'.trans hfinal⟩
  next hneither =>
    -- neither a `HAVING` nor an `ORDER BY`: nothing has been added
    cases having with
    | some e => exact absurd rfl hneither
    | none =>
        cases orderBy with
        | some o => exact absurd rfl hneither
        | none =>
            refine Runs.pure ⟨q₄, rfl, hq₄, ?_⟩
            rw [hids₄ rfl, hprojectors rfl]

theorem extractHaving_marking {having : Option Expr} (h : ∀ e ∈ having, e.Sound named) :
    Marking named (extractHaving having) fun having => ∀ e ∈ having, e.expr.Sound named := by
  cases having with
  | none => exact .pure fun e he => by cases he
  | some condition =>
      refine (extractAggregates_marking condition (h _ rfl)).bind fun extracted hextracted =>
        .pure ?_
      intro e he
      cases he
      exact hextracted

/-- The expressions of a `SELECT`. -/
structure Select.Sound (named : String → Option Schema) (select : Select) : Prop where
  projectors : ∀ p ∈ select.projectors, p.Sound named
  whereCond : ∀ e ∈ select.whereCond, e.Sound named
  having : ∀ e ∈ select.having, e.Sound named
  orderBy : ∀ o ∈ select.orderBy, AllSound named o.orderList
  groupBy : ∀ ps ∈ select.groupBy, ∀ p ∈ ps, p.Sound named

/-- What a star stands for: the columns of the source, or the keys of a `GROUP BY`. -/
def Select.star (select : Select) (source : List FieldId) : List FieldId :=
  match select.groupBy with
  | none => HashOrder.order source
  | some groupBy => HashOrder.order (slotsOf (HashOrder.order source) groupBy)

/-- The columns of a `SELECT`, over the columns of its source. -/
def Select.slots (select : Select) (source : List FieldId) : List FieldId :=
  slotsOf (select.star source) select.projectors

theorem lowerGroupedSelect_fit (hr : r.Fits named) {select : Select} (h : select.Sound named)
    {groupBy : List Projector} (hgroupBy : select.groupBy = some groupBy) :
    RunsFit named r (lowerGroupedSelect select groupBy) fun _ ids =>
      ids = select.slots r.schema.fields := by
  refine (prepareGroupKeys_fit hr (h.groupBy _ hgroupBy)).bind fun groupKeys q hq hkeys => ?_
  refine lift_bindRuns fun groupSchema hgroupSchema => ?_
  have hgroup := Schema.appendAll_eq_ok.mp hgroupSchema
  refine currRelation_bindRuns (scopedFieldSet_runs ?_)
  refine (lowerProjectors_marking _ h.projectors).bindRuns fun lowered q₁ hq₁ hlowered => ?_
  refine (extractHaving_marking h.having).bindRuns fun having q₂ hq₂ hhaving => ?_
  refine lift_bindRuns fun own hown => lift_bindRuns fun schema hschema => ?_
  have hfits := (hq₁.trans hq₂).fits hq
  refine pullRelation_bindRuns fun source hsource => ?_
  cases hsource
  refine (setRelation_runs _).bind fun _ c' hc => ?_
  subst hc
  refine (lowerSelectOutput_fit (Ir.Relation.fits_one ?_ rfl hfits) lowered.1 hhaving
    h.orderBy).mono fun _ c' hc => ?_
  · rw [Ir.Relation.FitsNode, Schema.appendAll_eq_ok.mp hschema, Schema.appendAll_eq_ok.mp hown,
      hgroup]
    rfl
  · obtain ⟨q, rfl, hq, hids⟩ := hc
    refine ⟨q, rfl, hq, hids.trans (hlowered.trans ?_)⟩
    have hstar : groupSchema.fieldSet.fieldIds = select.star r.schema.fields := by
      rw [Select.star, hgroupBy]
      show HashOrder.order groupSchema.fields = _
      rw [hgroup]
      exact congrArg HashOrder.order hkeys
    rw [hstar]
    rfl

theorem lowerUngroupedSelect_fit (hr : r.Fits named) {select : Select} (h : select.Sound named)
    (hgroupBy : select.groupBy = none) {sourceFields : FieldSet} {source : List FieldId}
    (hsource : sourceFields.fieldIds = HashOrder.order source) :
    RunsFit named r (lowerUngroupedSelect select sourceFields) fun _ ids =>
      ids = select.slots source := by
  refine currRelation_bindRuns (scopedFieldSet_runs ?_)
  refine (lowerProjectors_marking _ h.projectors).bindRuns fun lowered q hq hlowered => ?_
  refine (lowerAggregates_fit (hq.fits hr) select lowered.2).bind fun _ q₁ hq₁ _ => ?_
  refine (lowerSelectOutput_fit hq₁ lowered.1 (fun e he => by cases he) h.orderBy).mono
    fun _ c' hc => ?_
  obtain ⟨q₂, rfl, hq₂, hids⟩ := hc
  refine ⟨q₂, rfl, hq₂, hids.trans (hlowered.trans ?_)⟩
  rw [Select.slots, Select.star, hgroupBy, hsource]

/-- **A `SELECT` over a source that fits.** -/
theorem lowerSelect_marking (hr : r.Fits named) {select : Select} (h : select.Sound named) :
    Marking named (lowerSelect r select) fun ir =>
      ir.Fits named ∧ ir.schema.fields = select.slots r.schema.fields := by
  refine scopedRelation_marking (currRelation_bindRuns ?_)
  have hwhere : RunsFit named r (whenPresent select.whereCond lowerWhere) fun _ ids =>
      ids = r.schema.fields :=
    whenPresent_fit hr (fun _ => rfl) fun e he => lowerWhere_fit hr (h.whereCond e he)
  refine hwhere.bind fun _ q hq hids => ?_
  have hselected : RunsFit named q (lowerSelected select r.schema.fieldSet) fun _ ids =>
      ids = select.slots r.schema.fields := by
    unfold lowerSelected
    split
    next groupBy hgroupBy =>
      rw [← hids]
      exact lowerGroupedSelect_fit hq h hgroupBy
    next hgroupBy => exact lowerUngroupedSelect_fit hq h hgroupBy rfl
  refine hselected.bind fun _ q₁ hq₁ hids₁ => ?_
  have hlimit : RunsFit named q₁ (whenPresent select.limit lowerLimit) fun _ ids =>
      ids = q₁.schema.fields :=
    whenPresent_fit hq₁ (fun _ => rfl) fun n _ => lowerLimit_fit hq₁ n
  refine hlimit.bind fun _ q₂ hq₂ hids₂ => pullRelation_runs ?_
  exact ⟨hq₂, hids₂.trans hids₁⟩

end Parts

/-! ### Relations -/

section Relations

variable {named : String → Option Schema}

/-- An input of a join: what its key needs is put on it, and its columns before that are kept. -/
theorem lowerInput_marking {source : Ir.Relation} (hsource : source.Fits named) {key : Expr}
    (hkey : key.Sound named) : Marking named (lowerInput source key) fun input =>
      input.1.Fits named ∧ input.2.2 = source.schema := by
  refine scopedRelation_marking (currRelation_bindRuns (scopedFieldSet_runs ?_))
  refine (lowerRowExpr_marking hkey).bindRuns fun _ q hq _ => pullRelation_bindRuns fun r hr => ?_
  cases hr
  exact .pure ⟨hq.fits hsource, rfl⟩

theorem joinInputs_marking {left right : Ir.Relation × Ir.Scalar × Schema}
    (hleft : left.1.Fits named) (hright : right.1.Fits named) :
    Marking named (joinInputs left right) fun ir =>
      ir.Fits named ∧ ir.schema.fields = left.2.2.fields ++ right.2.2.fields := by
  refine Marking.bind (.lift fun schema h => h) fun schema hschema => ?_
  refine Marking.bind (.lift fun outputSchema h => h) fun outputSchema houtput => ?_
  have hjoined : (Ir.Relation.leftJoin left.1 right.1 left.2.1 right.2.1 schema).Fits named :=
    Ir.Relation.fits_two (Schema.appendAll_eq_ok.mp hschema) rfl hleft hright
  have hfields := Schema.appendAll_eq_ok.mp houtput
  dsimp only
  split
  next hsame =>
    refine .pure ⟨hjoined, ?_⟩
    rw [← hfields, ← hsame]
    rfl
  next =>
    refine (fieldProjectors_marking _).bind fun projectors hprojectors => .pure ⟨?_, hfields⟩
    exact Ir.Relation.fits_one hprojectors.symm rfl hjoined

theorem lowerUnionAll_marking {left right : Ir.Relation} (hleft : left.Fits named)
    (hright : right.Fits named) : Marking named (lowerUnionAll left right) fun ir =>
      ir.Fits named ∧ ir.schema = left.schema ∧ left.schema = right.schema := by
  refine Marking.bind (.lift fun _ h => verify_eq_ok.mp h) fun _ hsame => ?_
  have hsame := of_decide_eq_true hsame
  refine .pure ⟨?_, rfl, hsame⟩
  refine .node (fun r hr => ?_) fun r hr => ?_
  all_goals
    rcases List.mem_pair.mp hr with rfl | rfl
  · rfl
  · exact hsame.symm
  · exact hleft
  · exact hright

theorem lowerUnionAllSortedBy_marking {left right : Ir.Relation} (hleft : left.Fits named)
    (hright : right.Fits named) {orderList : List Expr} (horder : AllSound named orderList)
    (desc : Bool) : Marking named (lowerUnionAllSortedBy left right orderList desc) fun ir =>
      ir.Fits named ∧ ir.schema = left.schema ∧ left.schema = right.schema := by
  refine Marking.bind (.lift fun _ h => verify_eq_ok.mp h) fun _ hsame => ?_
  have hsame := of_decide_eq_true hsame
  refine scopedFieldSet_marking ((lowerRowExprs_marking horder).bind fun _ _ =>
    .pure ⟨?_, rfl, hsame⟩)
  exact Ir.Relation.fits_two ⟨rfl, hsame.symm⟩ rfl hleft hright

theorem aliasProjectors_marking (aliasName : String) (ids : List FieldId) :
    Marking named (aliasProjectors aliasName ids) fun _ => True := by
  induction ids with
  | nil => exact .pure trivial
  | cons id ids ih =>
      exact (nameOf_marking id).bind fun _ _ => (typeOf_marking id).bind fun _ _ =>
        (getOrAdd_marking _ _).bind fun _ _ => ih.bind fun _ _ => .pure trivial

theorem lowerAlias_marking {source : Ir.Relation} (hsource : source.Fits named)
    (aliasName : String) : Marking named (lowerAlias aliasName source) fun ir =>
      ir.Fits named := by
  refine (aliasProjectors_marking _ _).bind fun projectors _ => ?_
  refine Marking.bind (.lift fun schema h => h) fun schema hschema => .pure ?_
  exact Ir.Relation.fits_one (Schema.appendAll_eq_ok.mp hschema) rfl hsource

variable [HashOrder]

mutual

/-- **The schemas of a lowered relation fit together.** -/
theorem lowerRelation_marking : ∀ r : Bound.Relation,
    Marking named (lowerRelation r) fun ir => ir.Fits named
  | .adhoc values id _ => by
      rw [lowerRelation]
      refine Marking.bind (.lift fun schema h => h) fun schema hschema => .pure ?_
      exact Ir.Relation.fits_leaf (Schema.append_eq_ok.mp hschema).2 rfl
  | .select projectors source limit whereCond having orderList orderDesc groupList aggregate _ => by
      rw [lowerRelation]
      refine (lowerRelation_marking source).bind fun source hsource => ?_
      refine (lowerSelect_marking hsource ?_).mono fun _ h => h.1
      exact {
        projectors := projectorsOf_sound projectors
        whereCond := exprOptionOf_sound whereCond
        having := exprOptionOf_sound having
        orderBy := orderByOf_sound orderDesc orderList
        groupBy := projectorsOptionOf_sound groupList }
  | .aliased aliasName source _ => by
      rw [lowerRelation]
      exact (lowerRelation_marking source).bind fun _ hsource => lowerAlias_marking hsource aliasName
  | .leftJoin left right leftKey rightKey _ => by
      rw [lowerRelation]
      refine (lowerRelation_marking left).bind fun left hleft => ?_
      refine (lowerInput_marking hleft (exprOf_sound leftKey)).bind fun left hleft => ?_
      refine (lowerRelation_marking right).bind fun right hright => ?_
      refine (lowerInput_marking hright (exprOf_sound rightKey)).bind fun right hright => ?_
      exact (joinInputs_marking hleft.1 hright.1).mono fun _ h => h.1
  | .unionAll left right _ => by
      rw [lowerRelation]
      refine (lowerRelation_marking left).bind fun left hleft => ?_
      refine (lowerRelation_marking right).bind fun right hright => ?_
      exact (lowerUnionAll_marking hleft hright).mono fun _ h => h.1
  | .unionAllSortedBy left right orderList desc _ => by
      rw [lowerRelation]
      refine (lowerRelation_marking left).bind fun left hleft => ?_
      refine (lowerRelation_marking right).bind fun right hright => ?_
      exact (lowerUnionAllSortedBy_marking hleft hright (exprsOf_sound orderList) desc).mono
        fun _ h => h.1
  | .file path range timeFormat fieldsOut => by
      rw [lowerRelation]
      exact (fieldsOf_marking fieldsOut).bind fun _ _ => .pure (Ir.Relation.fits_leaf trivial rfl)
  | .stream command fieldsOut => by
      rw [lowerRelation]
      exact (fieldsOf_marking fieldsOut).bind fun _ _ => .pure (Ir.Relation.fits_leaf trivial rfl)
  | .namedRelationReference name _ => by
      rw [lowerRelation]
      exact (find_marking name).bind fun _ h => .pure (Ir.Relation.fits_leaf h rfl)
  | .materialize relation _ => by
      rw [lowerRelation]
      exact (lowerRelation_marking relation).bind fun _ hsource =>
        .pure (Ir.Relation.fits_one rfl rfl hsource)

theorem exprOf_sound : ∀ e : Bound.Expr, (exprOf e).Sound named
  | .identifier _ _ => trivial
  | .value _ _ => trivial
  | .inMatch e matched _ _ => ⟨exprOf_sound e, lowerRelation_marking matched⟩
  | .fnCall _ args _ => exprsOf_sound args
  | .like e _ _ => exprOf_sound e
  | .binary _ left right _ => ⟨exprOf_sound left, exprOf_sound right⟩
  | .unary _ e _ => exprOf_sound e

theorem exprsOf_sound : ∀ es : List Bound.Expr, AllSound named (exprsOf es)
  | [] => trivial
  | e :: es => ⟨exprOf_sound e, exprsOf_sound es⟩

theorem exprOptionOf_sound : ∀ e : Option Bound.Expr, ∀ e' ∈ exprOptionOf e, e'.Sound named
  | none, _, h => by cases h
  | some e, _, h => by
      cases h
      exact exprOf_sound e

theorem orderByOf_sound (desc : Bool) : ∀ es : Option (List Bound.Expr),
    ∀ o ∈ orderByOf desc es, AllSound named o.orderList
  | none, _, h => by cases h
  | some es, _, h => by
      cases h
      exact exprsOf_sound es

theorem projectorOf_sound : ∀ p : Bound.Projector, (projectorOf p).Sound named
  | .star => trivial
  | .identifier _ => trivial
  | .expr _ e => exprOf_sound e

theorem projectorsOf_sound : ∀ ps : List Bound.Projector, ∀ p ∈ projectorsOf ps, p.Sound named
  | [], _, h => absurd h List.not_mem_nil
  | p :: ps, q, h => by
      rw [projectorsOf, List.mem_cons] at h
      rcases h with rfl | h
      · exact projectorOf_sound p
      · exact projectorsOf_sound ps q h

theorem projectorsOptionOf_sound : ∀ ps : Option (List Bound.Projector),
    ∀ ps' ∈ projectorsOptionOf ps, ∀ p ∈ ps', p.Sound named
  | none, _, h => by cases h
  | some ps, _, h => by
      cases h
      exact projectorsOf_sound ps

end

end Relations

/-! ### Programs -/

section Programs

/-- A relation that is named is found under its name from then on. -/
theorem insert_schemaOf {name : String} {schema : Schema} {s s' : LowerState} {u : Unit}
    (h : insert name schema s = .ok (u, s')) :
    s'.schemaOf = Function.update s.schemaOf name (some schema) := by
  obtain ⟨_, hrequire, hpure⟩ := bind_eq_ok.mp h
  cases hpure
  have hnew := Option.isNone_iff_eq_none.mp (require_eq_ok.mp hrequire)
  funext name'
  show (s.namedRelations ++ [(name, schema)]).lookup name' = _
  rw [List.lookup_append]
  by_cases hname : name' = name
  · subst hname
    rw [hnew, Function.update_self, Option.none_or, List.lookup_cons_self]
  · have hother : [(name, schema)].lookup name' = none := by
      rw [List.lookup_cons, beq_false_of_ne hname]
      rfl
    rw [Function.update_of_ne hname, hother, Option.or_none]
    rfl

variable [HashOrder]

theorem lowerStatements_fit {statements : List Bound.Statement} {irs : List Ir.Statement}
    {s s' : LowerState} (h : lowerStatements statements s = .ok (irs, s')) :
    Ir.FittingStatements s.schemaOf irs := by
  induction statements generalizing irs s with
  | nil =>
      cases h
      trivial
  | cons statement statements ih =>
      obtain ⟨first, s₁, hfirst, h⟩ := lowerer_bind_ok.mp h
      obtain ⟨rest, s₂, hrest, h⟩ := lowerer_bind_ok.mp h
      cases h
      cases statement with
      | query relation =>
          obtain ⟨r, t, hr, hfirst⟩ := lowerer_bind_ok.mp hfirst
          cases hfirst
          obtain ⟨hamid, -, hfits⟩ := lowerRelation_marking relation _ _ _ _ rfl rfl hr
          refine ⟨hfits, ?_⟩
          rw [← hamid.schemaOf]
          exact ih hrest
      | namedRelation name relation =>
          obtain ⟨r, t, hr, hfirst⟩ := lowerer_bind_ok.mp hfirst
          obtain ⟨u, t', hinsert, hfirst⟩ := lowerer_bind_ok.mp hfirst
          cases hfirst
          obtain ⟨hamid, -, hfits⟩ := lowerRelation_marking relation _ _ _ _ rfl rfl hr
          refine ⟨hfits, ?_⟩
          rw [← hamid.schemaOf, ← insert_schemaOf hinsert]
          exact ih hrest

theorem lowerProgram_fits {statements : List Bound.Statement} {bound : BindState}
    {program : Ir.Program} (h : lowerProgram statements bound = .ok program) : program.Fits := by
  obtain ⟨lowered, hlowered, hpure⟩ := bind_eq_ok.mp h
  cases hpure
  exact lowerStatements_fit hlowered

end Programs

end Lsql.Front.Lower
