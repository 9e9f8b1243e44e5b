import Lsql.Front.Checked

/-!
# Lsql.Front.LowerTyped

The lowering of a checked program is well typed.

What is typed are the fields of the binding, which grows until the whole program has been lowered: a
fact holds for every typing of the fields that agrees with the binding so far (`Always`), and so for
the binding at the end. The current relation of the context and the open field sets are part of the
invariant (`LowerState.Typed`).
-/

namespace Lsql.Front.Lower

open Bound (FieldTyped)

/-! ### Typings of the fields -/

/-- A typing of the fields that a binding does not contradict. -/
def Agrees (types : FieldId → ValueType) (b : FieldBinding) : Prop :=
  ∀ id t, FieldTyped b id t → types id = t

/-- What holds whatever fields are added. -/
def Always (b : FieldBinding) (P : (FieldId → ValueType) → Prop) : Prop :=
  ∀ types, Agrees types b → P types

section Typings

variable {b b' : FieldBinding} {P Q : (FieldId → ValueType) → Prop}

theorem Agrees.before {types : FieldId → ValueType} (h : Agrees types b')
    (hb : b.entries <+: b'.entries) : Agrees types b := fun id t ht => h id t (ht.mono hb)

theorem Always.mono (h : Always b P) (hb : b.entries <+: b'.entries) : Always b' P :=
  fun types htypes => h types (htypes.before hb)

theorem agrees_fieldType (b : FieldBinding) : Agrees (Ir.fieldType b) b := by
  rintro id t ⟨name, hname⟩
  unfold Ir.fieldType
  rw [hname]
  rfl

end Typings

/-! ### States -/

/-- The current relation is well typed, and what is read are strings. -/
structure LowerState.Typed (s : LowerState) : Prop where
  curr : ∀ r, s.currRelation = some r → Always s.binding r.Typed
  opened : ∀ fields ∈ s.openFields, ∀ id ∈ fields, FieldTyped s.binding id .string

/-- What a computation returns, from a binding on, to which it may only add fields. -/
def Yields {α : Type} (b : FieldBinding) (x : Lowerer α) (Q : FieldBinding → α → Prop) : Prop :=
  ∀ s a s', s.binding = b → s.Typed → x s = .ok (a, s') →
    b.entries <+: s'.binding.entries ∧ s'.Typed ∧ Q s'.binding a

section Rules

variable {α β : Type} {b : FieldBinding} {x : Lowerer α} {f : α → Lowerer β}
  {P P' : FieldBinding → α → Prop} {Q : FieldBinding → β → Prop}

/-- The invariant, with more fields. -/
theorem LowerState.Typed.grow {s : LowerState} (h : s.Typed) {b : FieldBinding}
    (hb : s.binding.entries <+: b.entries) : LowerState.Typed { s with binding := b } where
  curr r hr := (h.curr r hr).mono hb
  opened fields hfields id hid := (h.opened fields hfields id hid).mono hb

namespace Yields

theorem pure {a : α} (h : P b a) : Yields b (Pure.pure a) P := by
  intro s a' s' hb hs hrun
  cases hrun
  subst hb
  exact ⟨List.prefix_refl _, hs, h⟩

theorem bind (hx : Yields b x P)
    (hf : ∀ a b', b.entries <+: b'.entries → P b' a → Yields b' (f a) Q) :
    Yields b (x >>= f) Q := by
  intro s y s' hb hs hrun
  obtain ⟨a, t, ha, hy⟩ := lowerer_bind_ok.mp hrun
  obtain ⟨hgrows, ht, hP⟩ := hx s a t hb hs ha
  obtain ⟨hgrows', hs', hQ⟩ := hf a _ hgrows hP t y s' rfl ht hy
  exact ⟨hgrows.trans hgrows', hs', hQ⟩

theorem mono (hx : Yields b x P) (h : ∀ b' a, P b' a → P' b' a) : Yields b x P' := by
  intro s a s' hb hs hrun
  obtain ⟨hgrows, hs', hP⟩ := hx s a s' hb hs hrun
  exact ⟨hgrows, hs', h _ _ hP⟩

/-- Code that does not touch the context, and something else behind it. -/
theorem lifted {y : Except Fault α} (hf : ∀ a, y = .ok a → Yields b (f a) Q) :
    Yields b (liftM y >>= f) Q := by
  intro s z s' hb hs hrun
  obtain ⟨a, t, ha, hz⟩ := lowerer_bind_ok.mp hrun
  obtain ⟨a', hy, hpure⟩ := bind_eq_ok.mp ha
  cases hpure
  exact hf _ hy s z s' hb hs hz

theorem lift {y : Except Fault α} (h : ∀ a, y = .ok a → P b a) : Yields b (liftM y) P := by
  intro s a s' hb hs hrun
  obtain ⟨a', hy, hpure⟩ := bind_eq_ok.mp hrun
  cases hpure
  subst hb
  exact ⟨List.prefix_refl _, hs, h _ hy⟩

theorem failed {e : Fault} : Yields b (throw e : Lowerer α) P := by
  intro s a s' _ _ hrun
  cases hrun

/-- Code that only reads the context. -/
theorem reading (h : ∀ s a s', s.binding = b → s.Typed → x s = .ok (a, s') → s' = s ∧ P b a) :
    Yields b x P := by
  intro s a s' hb hs hrun
  obtain ⟨rfl, hP⟩ := h s a s' hb hs hrun
  subst hb
  exact ⟨List.prefix_refl _, hs, hP⟩

end Yields

/-! ### The context -/

theorem currRelation_yields : Yields b currRelation fun b' r => Always b' r.Typed := by
  refine .reading fun s r s' hb hs hrun => ?_
  unfold currRelation at hrun
  split at hrun
  next hr =>
    cases hrun
    subst hb
    exact ⟨rfl, hs.curr _ hr⟩
  · cases hrun

theorem pullRelation_yields : Yields b pullRelation fun b' r => Always b' r.Typed := by
  intro s r s' hb hs hrun
  obtain ⟨r', t, hr, hrest⟩ := lowerer_bind_ok.mp hrun
  obtain ⟨hgrows, ht, hr'⟩ := currRelation_yields s r' t hb hs hr
  cases hrest
  exact ⟨hgrows, ⟨fun _ hnone => (by cases hnone), ht.opened⟩, hr'⟩

theorem setRelation_yields {r : Ir.Relation} (hr : Always b r.Typed) :
    Yields b (setRelation r) fun _ _ => True := by
  intro s u s' hb hs hrun
  obtain ⟨_, -, hpure⟩ := bind_eq_ok.mp hrun
  cases hpure
  subst hb
  refine ⟨List.prefix_refl _, ⟨fun q hq => ?_, hs.opened⟩, trivial⟩
  cases hq
  exact hr

theorem scopedRelation_yields {r : Ir.Relation} (hr : Always b r.Typed) (hx : Yields b x P) :
    Yields b (scopedRelation r x) P := by
  intro s a s' hb hs hrun
  obtain ⟨⟨a', t⟩, ha', hpure⟩ := bind_eq_ok.mp hrun
  cases hpure
  subst hb
  have hstart : LowerState.Typed { s with currRelation := some r } := by
    refine ⟨fun q hq => ?_, hs.opened⟩
    cases hq
    exact hr
  obtain ⟨hgrows, ht, hP⟩ := hx { s with currRelation := some r } _ _ rfl hstart ha'
  exact ⟨hgrows, ⟨fun q hq => (hs.curr q hq).mono hgrows, ht.opened⟩, hP⟩

theorem scopedFieldSet_yields {fields : FieldSet} (hx : Yields b x P) :
    Yields b (scopedFieldSet fields x) P := by
  intro s a s' hb hs hrun
  obtain ⟨⟨a', t⟩, ha', hpure⟩ := bind_eq_ok.mp hrun
  cases hpure
  obtain ⟨hgrows, ht, hP⟩ := hx { s with currFieldSet := some fields } _ _ hb ⟨hs.curr, hs.opened⟩ ha'
  exact ⟨hgrows, ⟨ht.curr, ht.opened⟩, hP⟩

theorem currFieldSet_yields : Yields b currFieldSet fun _ _ => True := by
  refine .reading fun s a s' _ _ hrun => ?_
  unfold currFieldSet at hrun
  split at hrun
  · cases hrun
    exact ⟨rfl, trivial⟩
  · cases hrun

theorem verify_yields (cond : Bool) (message : String) :
    Yields b (liftM (verify cond message)) fun _ _ => True := .lift fun _ _ => trivial

theorem typeOf_yields (id : FieldId) : Yields b (typeOf id) fun b' t => FieldTyped b' id t := by
  refine .reading fun s t s' hb _ hrun => ?_
  obtain ⟨type, htype, hpure⟩ := bind_eq_ok.mp hrun
  cases hpure
  subst hb
  refine ⟨rfl, ?_⟩
  unfold FieldBinding.type at htype
  split at htype
  next e he =>
    cases htype
    exact ⟨e.1, he⟩
  · cases htype

theorem nameOf_yields (id : FieldId) : Yields b (nameOf id) fun _ _ => True := by
  refine .reading fun s name s' _ _ hrun => ?_
  obtain ⟨_, -, hpure⟩ := bind_eq_ok.mp hrun
  cases hpure
  exact ⟨rfl, trivial⟩

theorem find_yields (name : String) : Yields b (find name) fun _ _ => True := by
  refine .reading fun s schema s' _ _ hrun => ?_
  unfold find at hrun
  split at hrun
  · cases hrun
    exact ⟨rfl, trivial⟩
  · cases hrun

theorem getOrAdd_yields (name : String) (type : ValueType) :
    Yields b (getOrAdd name type) fun b' id => FieldTyped b' id type := by
  intro s id s' hb hs hrun
  cases hrun
  subst hb
  obtain ⟨hentry, hgrows⟩ := s.binding.getOrAdd_spec name type
  exact ⟨hgrows, hs.grow hgrows, name, hentry⟩

theorem addAnonymous_yields (pre : String) (type : ValueType) :
    Yields b (addAnonymous pre type) fun b' id => FieldTyped b' id type := by
  intro s id s' hb hs hrun
  obtain ⟨added, hadd, hpure⟩ := bind_eq_ok.mp hrun
  cases hpure
  obtain ⟨_, -, hadd⟩ := bind_eq_ok.mp hadd
  cases hadd
  subst hb
  have hgrows : s.binding.entries <+: s.binding.entries ++
      [(pre ++ "_" ++ toString s.binding.nextId, type)] := List.prefix_append _ _
  have hentry : FieldTyped ⟨s.binding.entries ++ [(pre ++ "_" ++ toString s.binding.nextId, type)]⟩
      s.binding.nextId type := by
    refine ⟨pre ++ "_" ++ toString s.binding.nextId, ?_⟩
    rw [FieldBinding.entry_eq_some]
    exact ⟨Nat.succ_ne_zero _, List.getElem?_concat_length⟩
  exact ⟨hgrows, hs.grow hgrows, hentry⟩

end Rules

/-! ### Expressions -/

/-- The type of an expression. -/
def Expr.valueType : Expr → ValueType
  | .identifier _ t | .value _ t | .fnCall _ _ t | .like _ _ t | .binary _ _ _ t | .unary _ _ t => t
  | .inMatch _ _ _ => .boolean

mutual

/-- The types of an expression and its parts agree, and the relations in it are lowered to well-typed
ones. -/
def Expr.WellTyped (b : FieldBinding) : Expr → Prop
  | .identifier id t => FieldTyped b id t
  | .value v t => t = v.type
  | .fnCall f args t => AllWellTyped b args ∧ f.returns (args.map Expr.valueType) t = true
  | .inMatch e matched _ =>
    e.WellTyped b ∧ ∀ b' : FieldBinding, b.entries <+: b'.entries →
      Yields b' matched fun b'' r => Always b'' r.Typed
  | .like e _ t => e.WellTyped b ∧ e.valueType = .string ∧ t = .boolean
  | .binary type l r t =>
    l.WellTyped b ∧ r.WellTyped b ∧ binaryExprTraits type l.valueType r.valueType = some t
  | .unary type e t => e.WellTyped b ∧ unaryExprTraits type e.valueType = some t

def AllWellTyped (b : FieldBinding) : List Expr → Prop
  | [] => True
  | e :: es => e.WellTyped b ∧ AllWellTyped b es

end

/-- A scalar of a type. -/
def HasScalarType (b : FieldBinding) (e : Ir.Scalar) (t : ValueType) : Prop :=
  Always b e.Typed ∧ e.valueType = t

/-- Well-typed aggregates. -/
def TypedAggregates (b : FieldBinding) (as : List Ir.Aggregate) : Prop :=
  ∀ a ∈ as, Always b a.Typed

section Exprs

variable {b b' : FieldBinding}

mutual

theorem wellTyped_mono (hb : b.entries <+: b'.entries) : ∀ e : Expr, e.WellTyped b → e.WellTyped b'
  | .identifier _ _, he => FieldTyped.mono hb he
  | .value _ _, he => he
  | .fnCall _ args _, he => ⟨allWellTyped_mono hb args he.1, he.2⟩
  | .inMatch e _ _, he => ⟨wellTyped_mono hb e he.1, fun _ hb' => he.2 _ (hb.trans hb')⟩
  | .like e _ _, he => ⟨wellTyped_mono hb e he.1, he.2⟩
  | .binary _ l r _, he => ⟨wellTyped_mono hb l he.1, wellTyped_mono hb r he.2.1, he.2.2⟩
  | .unary _ e _, he => ⟨wellTyped_mono hb e he.1, he.2⟩

theorem allWellTyped_mono (hb : b.entries <+: b'.entries) : ∀ es : List Expr,
    AllWellTyped b es → AllWellTyped b' es
  | [], _ => trivial
  | e :: es, hes => ⟨wellTyped_mono hb e hes.1, allWellTyped_mono hb es hes.2⟩

end

theorem HasScalarType.mono (hb : b.entries <+: b'.entries) {e : Ir.Scalar} {t : ValueType}
    (h : HasScalarType b e t) : HasScalarType b' e t := ⟨h.1.mono hb, h.2⟩

theorem TypedAggregates.mono (hb : b.entries <+: b'.entries) {as : List Ir.Aggregate}
    (h : TypedAggregates b as) : TypedAggregates b' as := fun a ha => (h a ha).mono hb

theorem TypedAggregates.append {as as' : List Ir.Aggregate} (h : TypedAggregates b as)
    (h' : TypedAggregates b as') : TypedAggregates b (as ++ as') := List.forall_mem_append.mpr ⟨h, h'⟩

theorem typedAggregates_nil : TypedAggregates b [] := fun _ ha => absurd ha List.not_mem_nil

/-- A field of a type is a scalar of that type. -/
theorem FieldTyped.scalar {id : FieldId} {t : ValueType} (h : FieldTyped b id t) :
    HasScalarType b (.field id t) t := ⟨fun _ htypes => (htypes id t h).symm, rfl⟩

/-- What an operator is lowered to takes the operands that the binder has allowed. -/
theorem binaryFunction_returns {type : BinaryExprType} {l r t : ValueType}
    (h : binaryExprTraits type l r = some t) : (binaryFunction type l).hasType [l, r] t = true := by
  cases type
  case equal | notEqual =>
    obtain ⟨-, ht⟩ := Option.ite_none_right_eq_some.mp h
    cases ht
    rfl
  all_goals
    obtain ⟨hcond, ht⟩ := Option.ite_none_right_eq_some.mp h
    obtain ⟨hl, hr⟩ := Bool.and_eq_true_iff.mp hcond
    cases ht
    cases of_decide_eq_true hl
  case and | or =>
    cases of_decide_eq_true hr
    rfl
  all_goals
    simp [binaryFunction, Function.hasType]

theorem unaryFunction_returns {type : UnaryExprType} {l t : ValueType}
    (h : unaryExprTraits type l = some t) : (unaryFunction type).hasType [l] t = true := by
  cases type
  obtain ⟨rfl, ht⟩ := Option.ite_none_right_eq_some.mp h
  cases ht
  rfl

/-- A call of a scalar function on scalars of the right types. -/
theorem hasScalarType_fnCall {f : Function} {args : List Ir.Scalar} {t : ValueType}
    (hargs : ∀ a ∈ args, Always b a.Typed)
    (hf : f.hasType (args.map Ir.Scalar.valueType) t = true) :
    HasScalarType b (.fnCall f args t) t :=
  ⟨fun types htypes => ⟨Ir.Scalar.typedAll_iff.mpr fun a ha => hargs a ha types htypes, hf⟩, rfl⟩

/-- Scalars of the types of expressions. -/
def HaveScalarTypes (b : FieldBinding) (es : List Ir.Scalar) (ts : List ValueType) : Prop :=
  (∀ e ∈ es, Always b e.Typed) ∧ es.map Ir.Scalar.valueType = ts

/-- A call of an aggregate function is lowered to a field of its own. -/
theorem aggregateCall_yields {f : Function} {args : List Expr} {t : ValueType}
    (hargs : Yields b (lowerExprs args) fun b' lowered =>
      HaveScalarTypes b' lowered.1 (args.map Expr.valueType) ∧ TypedAggregates b' lowered.2)
    (hf : f.isScalar = false) (hreturns : f.aggregatesTo (args.map Expr.valueType) t = true) :
    Yields b (lowerExpr (.fnCall f args t)) fun b' lowered =>
      (∃ id, lowered.1 = .field id t ∧ FieldTyped b' id t) ∧ TypedAggregates b' lowered.2 := by
  rw [lowerExpr]
  refine hargs.bind fun lowered _ _ hlowered => (verify_yields _ _).bind fun _ _ hb _ => ?_
  rw [hf, if_neg Bool.false_ne_true]
  refine (addAnonymous_yields _ t).bind fun id _ hb' hid => .pure ⟨⟨id, rfl, hid⟩, ?_⟩
  refine (hlowered.2.mono (hb.trans hb')).append ?_
  refine List.forall_mem_singleton.mpr fun types htypes => ⟨(htypes id t hid).symm, ?_, ?_⟩
  · exact Ir.Scalar.typedAll_iff.mpr fun a ha =>
      (hlowered.1.1 a ha).mono (hb.trans hb') types htypes
  · rw [hlowered.1.2]
    exact hreturns

mutual

/-- **An expression is lowered to a scalar of its type.** -/
theorem lowerExpr_yields : ∀ (e : Expr) (b : FieldBinding), e.WellTyped b →
    Yields b (lowerExpr e) fun b' lowered =>
      HasScalarType b' lowered.1 e.valueType ∧ TypedAggregates b' lowered.2
  | .identifier id t, _, he => by
      rw [lowerExpr]
      refine currFieldSet_yields.bind fun fields _ hb _ => ?_
      refine (verify_yields _ _).bind fun _ _ hb' _ => .pure ⟨?_, typedAggregates_nil⟩
      exact FieldTyped.scalar (he.mono (hb.trans hb'))
  | .value v t, _, he => by
      rw [lowerExpr]
      exact .pure ⟨⟨fun _ _ => .inr he.symm, rfl⟩, typedAggregates_nil⟩
  | .fnCall f args t, _, he => by
      have hargs := lowerExprs_yields args _ he.1
      have hreturns := he.2
      unfold Function.returns at hreturns
      split at hreturns
      next hscalar =>
        rw [lowerExpr]
        refine hargs.bind fun lowered _ _ hlowered => (verify_yields _ _).bind fun _ _ hb _ => ?_
        rw [if_pos hscalar]
        refine .pure ⟨hasScalarType_fnCall (fun a ha => (hlowered.1.1 a ha).mono hb) ?_,
          hlowered.2.mono hb⟩
        rw [hlowered.1.2]
        exact hreturns
      next hscalar =>
        refine (aggregateCall_yields hargs (Bool.eq_false_iff.mpr hscalar) hreturns).mono
          fun _ lowered hlowered => ⟨?_, hlowered.2⟩
        obtain ⟨id, hid, htype⟩ := hlowered.1
        rw [hid]
        exact FieldTyped.scalar htype
  | .inMatch e matched f, _, he => by
      rw [lowerExpr]
      refine (addAnonymous_yields _ .boolean).bind fun outputId _ hb₁ hid => ?_
      refine (lowerExpr_yields e _ (wellTyped_mono hb₁ e he.1)).bind fun lowered _ hb₂ hkey => ?_
      refine (verify_yields _ _).bind fun _ _ hb₃ _ => ?_
      have hb₁₃ := (hb₁.trans hb₂).trans hb₃
      refine (he.2 _ hb₁₃).bind fun m _ hb₄ hm => ?_
      refine pullRelation_yields.bind fun source _ hb₅ hsource => .lifted fun schema _ => ?_
      have hb₃₅ := (hb₃.trans hb₄).trans hb₅
      have hid := hid.mono (hb₂.trans hb₃₅)
      refine (setRelation_yields fun types htypes => ?_).bind fun _ _ hb₆ _ =>
        .pure ⟨FieldTyped.scalar (hid.mono hb₆), typedAggregates_nil⟩
      refine .node ⟨hkey.1.1.mono hb₃₅ types htypes, htypes outputId _ hid⟩ fun q hq => ?_
      rcases List.mem_pair.mp hq with rfl | rfl
      · exact hsource types htypes
      · exact hm.mono hb₅ types htypes
  | .like e regex t, _, he => by
      rw [lowerExpr]
      refine (lowerExpr_yields e _ he.1).bind fun lowered _ _ harg => .pure ⟨?_, harg.2⟩
      refine hasScalarType_fnCall (List.forall_mem_singleton.mpr harg.1.1) ?_
      rw [List.map_singleton, harg.1.2, he.2.1, he.2.2]
      rfl
  | .binary type left right t, _, he => by
      rw [lowerExpr]
      refine (lowerExpr_yields left _ he.1).bind fun l _ hb hl => ?_
      refine (lowerExpr_yields right _ (wellTyped_mono hb right he.2.1)).bind fun r _ hb' hr => ?_
      refine .pure ⟨hasScalarType_fnCall ?_ ?_, (hl.2.mono hb').append hr.2⟩
      · exact List.forall_mem_cons.mpr ⟨hl.1.1.mono hb', List.forall_mem_singleton.mpr hr.1.1⟩
      · rw [List.map_cons, List.map_singleton, hl.1.2, hr.1.2]
        exact binaryFunction_returns he.2.2
  | .unary type e t, _, he => by
      rw [lowerExpr]
      refine (lowerExpr_yields e _ he.1).bind fun lowered _ _ harg => .pure ⟨?_, harg.2⟩
      refine hasScalarType_fnCall (List.forall_mem_singleton.mpr harg.1.1) ?_
      rw [List.map_singleton, harg.1.2]
      exact unaryFunction_returns he.2

theorem lowerExprs_yields : ∀ (es : List Expr) (b : FieldBinding), AllWellTyped b es →
    Yields b (lowerExprs es) fun b' lowered =>
      HaveScalarTypes b' lowered.1 (es.map Expr.valueType) ∧ TypedAggregates b' lowered.2
  | [], _, _ => by
      rw [lowerExprs]
      exact .pure ⟨⟨fun _ he => absurd he List.not_mem_nil, rfl⟩, typedAggregates_nil⟩
  | e :: es, _, hes => by
      rw [lowerExprs]
      refine (lowerExpr_yields e _ hes.1).bind fun first _ hb hfirst => ?_
      refine (lowerExprs_yields es _ (allWellTyped_mono hb es hes.2)).bind fun rest _ hb' hrest => ?_
      refine .pure ⟨⟨List.forall_mem_cons.mpr ⟨hfirst.1.1.mono hb', hrest.1.1⟩, ?_⟩,
        (hfirst.2.mono hb').append hrest.2⟩
      rw [List.map_cons, List.map_cons, hfirst.1.2, hrest.1.2]

end

theorem lowerRowExpr_yields {e : Expr} (he : e.WellTyped b) :
    Yields b (lowerRowExpr e) fun b' s => HasScalarType b' s e.valueType :=
  (lowerExpr_yields e b he).bind fun _ _ _ hlowered => (verify_yields _ _).bind fun _ _ hb _ =>
    .pure (hlowered.1.mono hb)

theorem lowerRowExprs_yields {es : List Expr} (hes : AllWellTyped b es) :
    Yields b (lowerRowExprs es) fun b' ss => ∀ s ∈ ss, Always b' s.Typed :=
  (lowerExprs_yields es b hes).bind fun _ _ _ hlowered => (verify_yields _ _).bind fun _ _ hb _ =>
    .pure fun s hs => (hlowered.1.1 s hs).mono hb

variable [HashOrder]

mutual

/-- What is left of an expression without its aggregates has the same type. -/
theorem extractAggregates_yields : ∀ (e : Expr) (b : FieldBinding), e.WellTyped b →
    Yields b (extractAggregates e) fun b' extracted =>
      (extracted.expr.WellTyped b' ∧ extracted.expr.valueType = e.valueType) ∧
        TypedAggregates b' extracted.aggregates
  | .identifier id t, _, he => by
      rw [extractAggregates]
      exact .pure ⟨⟨he, rfl⟩, typedAggregates_nil⟩
  | .value v t, _, he => by
      rw [extractAggregates]
      exact .pure ⟨⟨he, rfl⟩, typedAggregates_nil⟩
  | .fnCall f args t, _, he => by
      rw [extractAggregates]
      have hreturns := he.2
      split
      next haggregate =>
        have hf := (Bool.not_eq_true' f.isScalar).mp haggregate
        rw [Function.returns, hf, if_neg Bool.false_ne_true] at hreturns
        refine (aggregateCall_yields (lowerExprs_yields args _ he.1) hf hreturns).bind
          fun lowered _ _ hlowered => ?_
        obtain ⟨scalar, aggregates⟩ := lowered
        obtain ⟨⟨id, rfl, hid⟩, haggregates⟩ := hlowered
        exact .pure ⟨⟨hid, rfl⟩, haggregates⟩
      · refine (extractAll_yields args .emptySet _ he.1).bind fun extracted _ _ hargs => ?_
        refine .pure ⟨⟨⟨hargs.1.1, ?_⟩, rfl⟩, hargs.2⟩
        rw [hargs.1.2]
        exact hreturns
  | .inMatch e matched f, _, he => by
      rw [extractAggregates]
      refine (extractAggregates_yields e _ he.1).bind fun extracted _ hb hextracted => ?_
      exact .pure ⟨⟨⟨hextracted.1.1, fun _ hb' => he.2 _ (hb.trans hb')⟩, rfl⟩, hextracted.2⟩
  | .like e regex t, _, he => by
      rw [extractAggregates]
      refine (extractAggregates_yields e _ he.1).bind fun extracted _ _ hextracted => ?_
      refine .pure ⟨⟨⟨hextracted.1.1, ?_⟩, rfl⟩, hextracted.2⟩
      rw [hextracted.1.2]
      exact he.2
  | .binary type left right t, _, he => by
      rw [extractAggregates]
      refine (extractAggregates_yields left _ he.1).bind fun l _ hb hl => ?_
      refine (extractAggregates_yields right _ (wellTyped_mono hb right he.2.1)).bind
        fun r _ hb' hr => ?_
      refine .pure ⟨⟨⟨wellTyped_mono hb' _ hl.1.1, hr.1.1, ?_⟩, rfl⟩, (hl.2.mono hb').append hr.2⟩
      rw [hl.1.2, hr.1.2]
      exact he.2.2
  | .unary type e t, _, he => by
      rw [extractAggregates]
      refine (extractAggregates_yields e _ he.1).bind fun extracted _ _ hextracted => ?_
      refine .pure ⟨⟨⟨hextracted.1.1, ?_⟩, rfl⟩, hextracted.2⟩
      rw [hextracted.1.2]
      exact he.2

theorem extractAll_yields : ∀ (es : List Expr) (fields : FieldSet) (b : FieldBinding),
    AllWellTyped b es → Yields b (extractAll fields es) fun b' extracted =>
      (AllWellTyped b' extracted.expr ∧
        extracted.expr.map Expr.valueType = es.map Expr.valueType) ∧
        TypedAggregates b' extracted.aggregates
  | [], _, _, _ => by
      rw [extractAll]
      exact .pure ⟨⟨trivial, rfl⟩, typedAggregates_nil⟩
  | e :: es, _, _, hes => by
      rw [extractAll]
      refine (extractAggregates_yields e _ hes.1).bind fun first _ hb hfirst => ?_
      refine (extractAll_yields es _ _ (allWellTyped_mono hb es hes.2)).bind fun rest _ hb' hrest => ?_
      refine .pure ⟨⟨⟨wellTyped_mono hb' _ hfirst.1.1, hrest.1.1⟩, ?_⟩,
        (hfirst.2.mono hb').append hrest.2⟩
      rw [List.map_cons, List.map_cons, hfirst.1.2, hrest.1.2]

end

end Exprs

/-! ### Projectors -/

/-- An alias has the type of its expression. -/
def Projector.WellTyped (b : FieldBinding) : Projector → Prop
  | .star | .identifier _ => True
  | .expr id e => e.WellTyped b ∧ FieldTyped b id e.valueType

/-- Well-typed projectors. -/
def TypedProjectors (b : FieldBinding) (ps : List Ir.Projector) : Prop := ∀ p ∈ ps, Always b p.Typed

section Projectors

variable {b b' : FieldBinding}

theorem TypedProjectors.mono (hb : b.entries <+: b'.entries) {ps : List Ir.Projector}
    (h : TypedProjectors b ps) : TypedProjectors b' ps := fun p hp => (h p hp).mono hb

theorem TypedProjectors.append {ps ps' : List Ir.Projector} (h : TypedProjectors b ps)
    (h' : TypedProjectors b ps') : TypedProjectors b (ps ++ ps') := List.forall_mem_append.mpr ⟨h, h'⟩

theorem typedProjectors_nil : TypedProjectors b [] := fun _ hp => absurd hp List.not_mem_nil

theorem Projector.WellTyped.mono (hb : b.entries <+: b'.entries) {p : Projector}
    (h : p.WellTyped b) : p.WellTyped b' := by
  cases p with
  | star | identifier id => trivial
  | expr id e => exact ⟨wellTyped_mono hb e h.1, h.2.mono hb⟩

/-- A scalar under a field of its type. -/
theorem HasScalarType.projector {e : Ir.Scalar} {id : FieldId} {t : ValueType}
    (he : HasScalarType b e t) (hid : FieldTyped b id t) : Always b (Ir.Projector.mk id e).Typed := by
  intro types htypes
  refine ⟨he.1 types htypes, ?_⟩
  show e.valueType.fits (types id) = true
  rw [he.2, htypes id t hid]
  exact ValueType.fits_self t

theorem fieldProjector_yields (id : FieldId) :
    Yields b (fieldProjector id) fun b' p => Always b' p.Typed :=
  (typeOf_yields id).bind fun _ _ _ hid => .pure ((FieldTyped.scalar hid).projector hid)

theorem fieldProjectors_yields (ids : List FieldId) :
    Yields b (fieldProjectors ids) TypedProjectors := by
  induction ids generalizing b with
  | nil => exact .pure typedProjectors_nil
  | cons id ids ih =>
      exact (fieldProjector_yields id).bind fun p _ _ hp => ih.bind fun ps _ hb hps =>
        .pure (List.forall_mem_cons.mpr ⟨hp.mono hb, hps⟩)

theorem lowerProjector_yields [HashOrder] (starFields : FieldSet) {p : Projector}
    (h : p.WellTyped b) : Yields b (lowerProjector starFields p) fun b' lowered =>
      TypedProjectors b' lowered.1 ∧ TypedAggregates b' lowered.2 := by
  cases p with
  | star =>
      exact (fieldProjectors_yields _).bind fun _ _ _ hps => .pure ⟨hps, typedAggregates_nil⟩
  | identifier id =>
      exact (fieldProjector_yields id).bind fun _ _ _ hp =>
        .pure ⟨List.forall_mem_singleton.mpr hp, typedAggregates_nil⟩
  | expr id e =>
      refine (lowerExpr_yields e _ h.1).bind fun lowered _ hb hlowered => .pure ⟨?_, hlowered.2⟩
      exact List.forall_mem_singleton.mpr (hlowered.1.projector (h.2.mono hb))

theorem lowerProjectors_yields [HashOrder] (starFields : FieldSet) {ps : List Projector}
    (h : ∀ p ∈ ps, p.WellTyped b) : Yields b (lowerProjectors starFields ps) fun b' lowered =>
      TypedProjectors b' lowered.1 ∧ TypedAggregates b' lowered.2 := by
  induction ps generalizing b with
  | nil => exact .pure ⟨typedProjectors_nil, typedAggregates_nil⟩
  | cons p ps ih =>
      rw [List.forall_mem_cons] at h
      refine (lowerProjector_yields starFields h.1).bind fun first _ hb hfirst => ?_
      refine (ih fun q hq => (h.2 q hq).mono hb).bind fun rest _ hb' hrest => .pure ?_
      exact ⟨(hfirst.1.mono hb').append hrest.1, (hfirst.2.mono hb').append hrest.2⟩

theorem addAllAsFieldScalars_yields [HashOrder] (fields : FieldSet) {ps : List Ir.Projector}
    (h : TypedProjectors b ps) : Yields b (addAllAsFieldScalars fields ps) TypedProjectors :=
  .lifted fun _ _ => (fieldProjectors_yields _).bind fun _ _ hb hmore =>
    .pure ((h.mono hb).append hmore)

theorem setProjection_yields {ps : List Ir.Projector} (h : TypedProjectors b ps) :
    Yields b (setProjection ps) fun _ _ => True := by
  refine .lifted fun schema _ => pullRelation_yields.bind fun source _ hb hsource => ?_
  refine setRelation_yields fun types htypes => .node (fun p hp => (h p hp).mono hb types htypes) ?_
  exact List.forall_mem_singleton.mpr (hsource types htypes)

end Projectors

/-! ### The parts of a `SELECT` -/

/-- The parts of a `SELECT` are well typed. -/
structure Select.WellTyped (b : FieldBinding) (select : Select) : Prop where
  projectors : ∀ p ∈ select.projectors, p.WellTyped b
  whereCond : ∀ e ∈ select.whereCond, e.WellTyped b
  having : ∀ e ∈ select.having, e.WellTyped b
  orderBy : ∀ o ∈ select.orderBy, AllWellTyped b o.orderList
  groupBy : ∀ ps ∈ select.groupBy, ∀ p ∈ ps, p.WellTyped b

section Parts

variable {b b' : FieldBinding}

theorem Select.WellTyped.mono (hb : b.entries <+: b'.entries) {select : Select}
    (h : select.WellTyped b) : select.WellTyped b' where
  projectors p hp := (h.projectors p hp).mono hb
  whereCond e he := wellTyped_mono hb e (h.whereCond e he)
  having e he := wellTyped_mono hb e (h.having e he)
  orderBy o ho := allWellTyped_mono hb o.orderList (h.orderBy o ho)
  groupBy ps hps p hp := (h.groupBy ps hps p hp).mono hb

/-- A node on top of the current relation. -/
theorem onTop_yields {g : Ir.Relation → Ir.Relation} (hsources : ∀ r, (g r).sources = [r])
    (hg : Always b fun types => ∀ r, (g r).TypedNode types) :
    Yields b (do
      let source ← pullRelation
      setRelation (g source)) fun _ _ => True := by
  refine pullRelation_yields.bind fun source _ hb hsource => setRelation_yields fun types htypes => ?_
  refine .node (hg.mono hb types htypes source) ?_
  rw [hsources]
  exact List.forall_mem_singleton.mpr (hsource types htypes)

theorem lowerWhere_yields {condition : Expr} (h : condition.WellTyped b) :
    Yields b (lowerWhere condition) fun _ _ => True := by
  refine currRelation_yields.bind fun curr _ hb _ => scopedFieldSet_yields ?_
  have h := wellTyped_mono hb condition h
  split
  · refine (h.2 _ (List.prefix_refl _)).bind fun m _ hb₁ hm => ?_
    refine (verify_yields _ _).bind fun _ _ hb₂ _ => ?_
    refine (lowerRowExpr_yields (wellTyped_mono (hb₁.trans hb₂) _ h.1)).bind fun key _ hb₃ hkey => ?_
    refine pullRelation_yields.bind fun source _ hb₄ hsource => setRelation_yields fun types htypes => ?_
    refine .node (hkey.1.mono hb₄ types htypes) fun q hq => ?_
    rcases List.mem_pair.mp hq with rfl | rfl
    · exact hsource types htypes
    · exact hm.mono ((hb₂.trans hb₃).trans hb₄) types htypes
  · refine (lowerRowExpr_yields h).bind fun c _ _ hc => ?_
    exact onTop_yields (g := fun source => .filter source c curr.schema) (fun _ => rfl)
      fun types htypes _ => hc.1 types htypes

theorem lowerOrderBy_yields {orderBy : OrderBy} (h : AllWellTyped b orderBy.orderList) :
    Yields b (lowerOrderBy orderBy) fun _ _ => True := by
  refine currRelation_yields.bind fun curr _ hb _ => scopedFieldSet_yields ?_
  refine (lowerRowExprs_yields (allWellTyped_mono hb _ h)).bind fun keys _ _ hkeys => ?_
  refine currRelation_yields.bind fun curr' _ hb' _ => ?_
  exact onTop_yields (g := fun source => .sort source keys orderBy.desc curr'.schema) (fun _ => rfl)
    fun types htypes _ k hk => (hkeys k hk).mono hb' types htypes

theorem lowerLimit_yields (limit : Int) : Yields b (lowerLimit limit) fun _ _ => True :=
  currRelation_yields.bind fun curr _ _ _ =>
    onTop_yields (g := fun source => .limit source limit curr.schema) (fun _ => rfl)
      fun _ _ _ => trivial

theorem whenPresent_yields {α : Type} {part : Option α} {f : α → Lowerer Unit}
    (h : ∀ p ∈ part, Yields b (f p) fun _ _ => True) :
    Yields b (whenPresent part f) fun _ _ => True := by
  cases part with
  | none => exact .pure trivial
  | some p => exact h p rfl

theorem lowerAggregates_yields (select : Select) {as : List Ir.Aggregate}
    (h : TypedAggregates b as) : Yields b (lowerAggregates select as) fun _ _ => True := by
  unfold lowerAggregates
  split
  · refine .lifted fun _ _ => .lifted fun _ _ => .lifted fun schema _ => ?_
    exact onTop_yields (g := fun source => .aggregate source as schema) (fun _ => rfl)
      fun types htypes _ a ha => h a ha types htypes
  · exact verify_yields _ _

variable [HashOrder]

theorem prepareGroupKeys_yields {groupList : List Projector} (h : ∀ p ∈ groupList, p.WellTyped b) :
    Yields b (prepareGroupKeys groupList) TypedProjectors := by
  refine currRelation_yields.bind fun curr _ hb _ => scopedFieldSet_yields ?_
  refine (lowerProjectors_yields _ fun p hp => (h p hp).mono hb).bind fun lowered _ _ hlowered => ?_
  refine (verify_yields _ _).bind fun _ _ hb₁ _ => ?_
  refine (fieldProjectors_yields _).bind fun groupKeys _ hb₂ hkeys => ?_
  refine currRelation_yields.bind fun curr' _ hb₃ _ => ?_
  refine (addAllAsFieldScalars_yields _ (hlowered.1.mono ((hb₁.trans hb₂).trans hb₃))).bind
    fun keys _ hb₄ hkeys' => ?_
  exact (setProjection_yields hkeys').bind fun _ _ hb₅ _ =>
    .pure (hkeys.mono ((hb₃.trans hb₄).trans hb₅))

theorem lowerSelectOutput_yields {ps : List Ir.Projector} (hps : TypedProjectors b ps)
    {having : Option (Extracted Expr)} (hhaving : ∀ e ∈ having, e.expr.WellTyped b)
    {orderBy : Option OrderBy} (horder : ∀ o ∈ orderBy, AllWellTyped b o.orderList) :
    Yields b (lowerSelectOutput ps having orderBy) fun _ _ => True := by
  refine (fieldProjectors_yields _).bind fun final _ hb₁ hfinal => ?_
  refine (addAllAsFieldScalars_yields _ (hps.mono hb₁)).bind fun projectors _ hb₂ hprojectors => ?_
  refine (setProjection_yields hprojectors).bind fun _ _ hb₃ _ => ?_
  have hb₁₃ := (hb₁.trans hb₂).trans hb₃
  refine (whenPresent_yields fun e he => lowerWhere_yields
    (wellTyped_mono hb₁₃ _ (hhaving e he))).bind fun _ _ hb₄ _ => ?_
  refine (whenPresent_yields fun o ho => lowerOrderBy_yields
    (allWellTyped_mono (hb₁₃.trans hb₄) _ (horder o ho))).bind fun _ _ hb₅ _ => ?_
  split
  · exact setProjection_yields (hfinal.mono (((hb₂.trans hb₃).trans hb₄).trans hb₅))
  · exact .pure trivial

theorem extractHaving_yields {having : Option Expr} (h : ∀ e ∈ having, e.WellTyped b) :
    Yields b (extractHaving having) fun b' extracted =>
      (∀ e ∈ extracted, e.expr.WellTyped b') ∧
        TypedAggregates b' ((extracted.map Extracted.aggregates).getD []) := by
  cases having with
  | none => exact .pure ⟨fun e he => (by cases he), typedAggregates_nil⟩
  | some condition =>
      refine (extractAggregates_yields condition _ (h _ rfl)).bind fun extracted _ _ hextracted =>
        .pure ⟨fun e he => ?_, hextracted.2⟩
      cases he
      exact hextracted.1.1

theorem lowerGroupedSelect_yields {select : Select} (h : select.WellTyped b)
    {groupBy : List Projector} (hgroupBy : select.groupBy = some groupBy) :
    Yields b (lowerGroupedSelect select groupBy) fun _ _ => True := by
  refine (prepareGroupKeys_yields (h.groupBy _ hgroupBy)).bind fun groupKeys _ hb₁ hkeys => ?_
  refine .lifted fun groupSchema _ => currRelation_yields.bind fun curr _ hb₂ _ => ?_
  have h := h.mono (hb₁.trans hb₂)
  refine scopedFieldSet_yields ?_
  refine (lowerProjectors_yields _ h.projectors).bind fun lowered _ hb₃ hlowered => ?_
  refine (extractHaving_yields fun e he => wellTyped_mono hb₃ e (h.having e he)).bind
    fun having _ hb₄ hhaving => .lifted fun own _ => .lifted fun schema _ => ?_
  refine pullRelation_yields.bind fun source _ hb₅ hsource => ?_
  have hb₄₅ := hb₄.trans hb₅
  have hb₃₅ := hb₃.trans hb₄₅
  have haggregates := (hlowered.2.mono hb₄₅).append (hhaving.2.mono hb₅)
  have hkeys := hkeys.mono (hb₂.trans hb₃₅)
  refine (setRelation_yields fun types htypes => ?_).bind fun _ _ hb₆ _ => ?_
  · refine .node ⟨fun a ha => haggregates a ha types htypes, fun k hk => hkeys k hk types htypes⟩ ?_
    exact List.forall_mem_singleton.mpr (hsource types htypes)
  · refine lowerSelectOutput_yields (hlowered.1.mono (hb₄₅.trans hb₆))
      (fun e he => wellTyped_mono (hb₅.trans hb₆) _ (hhaving.1 e he)) fun o ho => ?_
    exact allWellTyped_mono (hb₃₅.trans hb₆) _ (h.orderBy o ho)

theorem lowerUngroupedSelect_yields {select : Select} (h : select.WellTyped b)
    (sourceFields : FieldSet) :
    Yields b (lowerUngroupedSelect select sourceFields) fun _ _ => True := by
  refine currRelation_yields.bind fun curr _ hb _ => scopedFieldSet_yields ?_
  have h := h.mono hb
  refine (lowerProjectors_yields _ h.projectors).bind fun lowered _ hb₁ hlowered => ?_
  refine (lowerAggregates_yields select hlowered.2).bind fun _ _ hb₂ _ => ?_
  refine lowerSelectOutput_yields (hlowered.1.mono hb₂) (fun e he => by cases he) fun o ho => ?_
  exact allWellTyped_mono (hb₁.trans hb₂) _ (h.orderBy o ho)

theorem lowerSelect_yields {source : Ir.Relation} (hsource : Always b source.Typed)
    {select : Select} (h : select.WellTyped b) :
    Yields b (lowerSelect source select) fun b' r => Always b' r.Typed := by
  refine scopedRelation_yields hsource (currRelation_yields.bind fun curr _ hb₁ _ => ?_)
  have h := h.mono hb₁
  refine (whenPresent_yields fun e he => lowerWhere_yields (h.whereCond e he)).bind fun _ b₂ hb₂ _ => ?_
  have h := h.mono hb₂
  have hselected : Yields b₂ (lowerSelected select curr.schema.fieldSet) fun _ _ => True := by
    unfold lowerSelected
    split
    next groupBy hgroupBy => exact lowerGroupedSelect_yields h hgroupBy
    · exact lowerUngroupedSelect_yields h _
  refine hselected.bind fun _ _ _ _ => ?_
  exact (whenPresent_yields fun n _ => lowerLimit_yields n).bind fun _ _ _ _ => pullRelation_yields

end Parts

/-! ### Relations -/

section Relations

variable {b : FieldBinding} {names : List (String × RelationFieldSet)}

theorem aliasProjectors_yields (aliasName : String) (ids : List FieldId) :
    Yields b (aliasProjectors aliasName ids) TypedProjectors := by
  induction ids generalizing b with
  | nil => exact .pure typedProjectors_nil
  | cons id ids ih =>
      refine (nameOf_yields id).bind fun name _ _ _ => (typeOf_yields id).bind fun t _ _ ht => ?_
      refine (getOrAdd_yields _ t).bind fun aliasId _ hb haliasId => ih.bind fun ps _ hb' hps => ?_
      refine .pure (List.forall_mem_cons.mpr ⟨?_, hps⟩)
      exact (FieldTyped.scalar (ht.mono (hb.trans hb'))).projector (haliasId.mono hb')

theorem lowerAlias_yields {source : Ir.Relation} (hsource : Always b source.Typed)
    (aliasName : String) :
    Yields b (lowerAlias aliasName source) fun b' r => Always b' r.Typed := by
  refine (aliasProjectors_yields _ _).bind fun ps _ hb hps => .lifted fun schema _ => .pure ?_
  intro types htypes
  exact .node (fun p hp => hps p hp types htypes)
    (List.forall_mem_singleton.mpr (hsource.mono hb types htypes))

/-- An input of a join, with its key. -/
def InputTyped (b : FieldBinding) (input : Ir.Relation × Ir.Scalar × Schema) : Prop :=
  Always b input.1.Typed ∧ Always b input.2.1.Typed

theorem lowerInput_yields {source : Ir.Relation} (hsource : Always b source.Typed) {key : Expr}
    (hkey : key.WellTyped b) : Yields b (lowerInput source key) InputTyped := by
  refine scopedRelation_yields hsource (currRelation_yields.bind fun curr _ hb _ => ?_)
  refine scopedFieldSet_yields ((lowerRowExpr_yields (wellTyped_mono hb key hkey)).bind
    fun key _ _ hkey => ?_)
  exact pullRelation_yields.bind fun input _ hb' hinput => .pure ⟨hinput, hkey.1.mono hb'⟩

theorem joinInputs_yields {left right : Ir.Relation × Ir.Scalar × Schema}
    (hleft : InputTyped b left) (hright : InputTyped b right) :
    Yields b (joinInputs left right) fun b' r => Always b' r.Typed := by
  refine .lifted fun schema _ => .lifted fun outputSchema _ => ?_
  have hjoined : Always b (Ir.Relation.leftJoin left.1 right.1 left.2.1 right.2.1 schema).Typed := by
    intro types htypes
    refine .node ⟨hleft.2 types htypes, hright.2 types htypes⟩ fun q hq => ?_
    rcases List.mem_pair.mp hq with rfl | rfl
    · exact hleft.1 types htypes
    · exact hright.1 types htypes
  split
  · exact .pure hjoined
  · refine (fieldProjectors_yields _).bind fun ps _ hb hps => .pure fun types htypes => ?_
    exact .node (fun p hp => hps p hp types htypes)
      (List.forall_mem_singleton.mpr (hjoined.mono hb types htypes))

theorem lowerUnionAll_yields {left right : Ir.Relation} (hleft : Always b left.Typed)
    (hright : Always b right.Typed) :
    Yields b (lowerUnionAll left right) fun b' r => Always b' r.Typed := by
  refine .lifted fun _ _ => .pure fun types htypes => .node trivial fun q hq => ?_
  rcases List.mem_pair.mp hq with rfl | rfl
  · exact hleft types htypes
  · exact hright types htypes

theorem lowerUnionAllSortedBy_yields {left right : Ir.Relation} (hleft : Always b left.Typed)
    (hright : Always b right.Typed) {orderList : List Expr} (horder : AllWellTyped b orderList)
    (desc : Bool) :
    Yields b (lowerUnionAllSortedBy left right orderList desc) fun b' r => Always b' r.Typed := by
  refine .lifted fun _ _ => scopedFieldSet_yields ?_
  refine (lowerRowExprs_yields horder).bind fun keys _ hb hkeys => .pure fun types htypes => ?_
  refine .node (fun k hk => hkeys k hk types htypes) fun q hq => ?_
  rcases List.mem_pair.mp hq with rfl | rfl
  · exact hleft.mono hb types htypes
  · exact hright.mono hb types htypes

variable [HashOrder]

/-- The fields that are asked of a file or a stream are strings. -/
theorem openedFields_yields (cell : Nat) :
    Yields b (fieldsOf (.opened cell)) fun b' fields => ∀ id ∈ fields, FieldTyped b' id .string := by
  refine .reading fun s fields s' hb hs hrun => ?_
  obtain ⟨⟨fields', t⟩, hfields, hpure⟩ := bind_eq_ok.mp hrun
  cases hpure
  rw [RelationFieldSet.fields] at hfields
  unfold Binder.openFieldsOf at hfields
  split at hfields
  next hget =>
    cases hfields
    subst hb
    exact ⟨rfl, hs.opened _ (List.mem_of_getElem? hget)⟩
  · cases hfields

theorem exprOf_valueType {e : Bound.Expr} (he : e.Checked names b) :
    (exprOf e).valueType = e.valueType := by
  cases e with
  | inMatch e matched f info => exact he.2.2.symm
  | _ => rfl

theorem exprsOf_valueType {es : List Bound.Expr} (hes : Bound.CheckedExprs names b es) :
    (exprsOf es).map Expr.valueType = es.map Bound.Expr.valueType := by
  induction es with
  | nil => rfl
  | cons e es ih => exact congrArg₂ List.cons (exprOf_valueType hes.1) (ih hes.2)

mutual

/-- **A checked relation is lowered to a well-typed one.** -/
theorem lowerRelation_yields : ∀ (r : Bound.Relation) (b : FieldBinding), r.Checked names b →
    Yields b (lowerRelation r) fun b' ir => Always b' ir.Typed
  | .adhoc values id _, _, hr => by
      obtain ⟨t, hid, hvalues⟩ := hr
      rw [lowerRelation]
      refine .lifted fun schema _ => .pure fun types htypes => ?_
      refine .node (fun v hv => .inr ?_) fun q hq => absurd hq List.not_mem_nil
      rw [htypes id t hid]
      exact hvalues v hv
  | .select projectors source limit whereCond having orderList orderDesc groupList aggregate _, _,
      hr => by
      obtain ⟨-, hps, hsource, hwhere, hhaving, horder, hgroup⟩ := hr
      rw [lowerRelation]
      refine (lowerRelation_yields source _ hsource).bind fun source _ hb hsource => ?_
      refine lowerSelect_yields hsource (Select.WellTyped.mono hb ?_)
      exact {
        projectors := projectorsOf_wellTyped projectors _ hps
        whereCond := exprOptionOf_wellTyped whereCond _ hwhere
        having := exprOptionOf_wellTyped having _ hhaving
        orderBy := orderByOf_wellTyped orderDesc orderList _ horder
        groupBy := projectorsOptionOf_wellTyped groupList _ hgroup }
  | .aliased aliasName source _, _, hr => by
      rw [lowerRelation]
      exact (lowerRelation_yields source _ hr).bind fun _ _ _ hsource =>
        lowerAlias_yields hsource aliasName
  | .leftJoin left right leftKey rightKey _, _, hr => by
      obtain ⟨hleft, hright, hleftKey, hrightKey⟩ := hr
      rw [lowerRelation]
      refine (lowerRelation_yields left _ hleft).bind fun left _ hb₁ hleft => ?_
      refine (lowerInput_yields hleft (wellTyped_mono hb₁ _
        (exprOf_wellTyped leftKey _ hleftKey))).bind fun left _ hb₂ hleft => ?_
      have hb₁₂ := hb₁.trans hb₂
      refine (lowerRelation_yields right _ (Bound.checkedRelation_mono hb₁₂ right hright)).bind
        fun right _ hb₃ hright => ?_
      refine (lowerInput_yields hright (wellTyped_mono (hb₁₂.trans hb₃) _
        (exprOf_wellTyped rightKey _ hrightKey))).bind fun right _ hb₄ hright => ?_
      have hb₃₄ := hb₃.trans hb₄
      exact joinInputs_yields ⟨hleft.1.mono hb₃₄, hleft.2.mono hb₃₄⟩ hright
  | .unionAll left right _, _, hr => by
      rw [lowerRelation]
      refine (lowerRelation_yields left _ hr.1).bind fun left _ hb hleft => ?_
      refine (lowerRelation_yields right _ (Bound.checkedRelation_mono hb right hr.2)).bind
        fun right _ hb' hright => lowerUnionAll_yields (hleft.mono hb') hright
  | .unionAllSortedBy left right orderList desc _, _, hr => by
      rw [lowerRelation]
      refine (lowerRelation_yields left _ hr.1).bind fun left _ hb hleft => ?_
      refine (lowerRelation_yields right _ (Bound.checkedRelation_mono hb right hr.2.1)).bind
        fun right _ hb' hright => lowerUnionAllSortedBy_yields (hleft.mono hb') hright ?_ desc
      exact allWellTyped_mono (hb.trans hb') _ (exprsOf_wellTyped orderList _ hr.2.2)
  | .file path range timeFormat fieldsOut, _, hr => by
      obtain ⟨cell, rfl⟩ := hr
      rw [lowerRelation]
      refine (openedFields_yields cell).bind fun fields _ _ hfields => .pure fun types htypes => ?_
      refine .node (fun id hid => ?_) fun q hq => absurd hq List.not_mem_nil
      exact htypes id .string (hfields id (FieldSet.mem_fieldIds.mp hid))
  | .stream command fieldsOut, _, hr => by
      obtain ⟨cell, rfl⟩ := hr
      rw [lowerRelation]
      refine (openedFields_yields cell).bind fun fields _ _ hfields => .pure fun types htypes => ?_
      refine .node (fun id hid => ?_) fun q hq => absurd hq List.not_mem_nil
      exact htypes id .string (hfields id (FieldSet.mem_fieldIds.mp hid))
  | .namedRelationReference name _, _, _ => by
      rw [lowerRelation]
      exact (find_yields name).bind fun _ _ _ _ => .pure fun _ _ =>
        .node trivial fun q hq => absurd hq List.not_mem_nil
  | .materialize relation _, _, hr => by
      rw [lowerRelation]
      exact (lowerRelation_yields relation _ hr).bind fun source _ _ hsource =>
        .pure fun types htypes => .node trivial (List.forall_mem_singleton.mpr (hsource types htypes))

theorem exprOf_wellTyped : ∀ (e : Bound.Expr) (b : FieldBinding), e.Checked names b →
    (exprOf e).WellTyped b
  | .identifier _ _, _, he => he
  | .value _ _, _, he => he
  | .inMatch e matched _ _, _, he => ⟨exprOf_wellTyped e _ he.1, fun b' hb =>
      lowerRelation_yields matched b' (Bound.checkedRelation_mono hb matched he.2.1)⟩
  | .fnCall f args info, _, he => by
      refine ⟨exprsOf_wellTyped args _ he.1, ?_⟩
      rw [exprsOf_valueType he.1]
      exact he.2
  | .like e _ _, _, he => by
      refine ⟨exprOf_wellTyped e _ he.1, ?_⟩
      rw [exprOf_valueType he.1]
      exact he.2
  | .binary _ left right _, _, he => by
      refine ⟨exprOf_wellTyped left _ he.1, exprOf_wellTyped right _ he.2.1, ?_⟩
      rw [exprOf_valueType he.1, exprOf_valueType he.2.1]
      exact he.2.2
  | .unary _ e _, _, he => by
      refine ⟨exprOf_wellTyped e _ he.1, ?_⟩
      rw [exprOf_valueType he.1]
      exact he.2

theorem exprsOf_wellTyped : ∀ (es : List Bound.Expr) (b : FieldBinding),
    Bound.CheckedExprs names b es → AllWellTyped b (exprsOf es)
  | [], _, _ => trivial
  | e :: es, _, hes => ⟨exprOf_wellTyped e _ hes.1, exprsOf_wellTyped es _ hes.2⟩

theorem exprOptionOf_wellTyped : ∀ (e : Option Bound.Expr) (b : FieldBinding),
    Bound.CheckedExprOption names b e → ∀ e' ∈ exprOptionOf e, e'.WellTyped b
  | none, _, _, _, h => by cases h
  | some e, _, he, _, h => by
      cases h
      exact exprOf_wellTyped e _ he

theorem orderByOf_wellTyped (desc : Bool) : ∀ (es : Option (List Bound.Expr)) (b : FieldBinding),
    Bound.CheckedExprsOption names b es → ∀ o ∈ orderByOf desc es, AllWellTyped b o.orderList
  | none, _, _, _, h => by cases h
  | some es, _, hes, _, h => by
      cases h
      exact exprsOf_wellTyped es _ hes

theorem projectorOf_wellTyped : ∀ (p : Bound.Projector) (b : FieldBinding), p.Checked names b →
    (projectorOf p).WellTyped b
  | .star, _, _ => trivial
  | .identifier _, _, _ => trivial
  | .expr _ e, _, hp => by
      refine ⟨exprOf_wellTyped e _ hp.1, ?_⟩
      rw [exprOf_valueType hp.1]
      exact hp.2

theorem projectorsOf_wellTyped : ∀ (ps : List Bound.Projector) (b : FieldBinding),
    Bound.CheckedProjectors names b ps → ∀ p ∈ projectorsOf ps, p.WellTyped b
  | [], _, _, _, h => absurd h List.not_mem_nil
  | p :: ps, _, hps, q, h => by
      rw [projectorsOf, List.mem_cons] at h
      rcases h with rfl | h
      · exact projectorOf_wellTyped p _ hps.1
      · exact projectorsOf_wellTyped ps _ hps.2 q h

theorem projectorsOptionOf_wellTyped : ∀ (ps : Option (List Bound.Projector)) (b : FieldBinding),
    Bound.CheckedProjectorsOption names b ps →
    ∀ ps' ∈ projectorsOptionOf ps, ∀ p ∈ ps', p.WellTyped b
  | none, _, _, _, h => by cases h
  | some ps, _, hps, _, h => by
      cases h
      exact projectorsOf_wellTyped ps _ hps

end

end Relations

/-! ### Programs -/

section Programs

variable [HashOrder]

/-- A statement of a type at the end. -/
theorem lowerStatements_typed {statements : List Bound.Statement} {irs : List Ir.Statement}
    {names : List (String × RelationFieldSet)} {s s' : LowerState} (hs : s.Typed)
    (hchecked : Bound.CheckedStatements s.binding names statements)
    (h : lowerStatements statements s = .ok (irs, s')) :
    s.binding.entries <+: s'.binding.entries ∧
      ∀ ir ∈ irs, Always s'.binding ir.Typed := by
  induction statements generalizing names irs s with
  | nil =>
      cases h
      exact ⟨List.prefix_refl _, fun _ hir => absurd hir List.not_mem_nil⟩
  | cons statement statements ih =>
      obtain ⟨first, s₁, hfirst, h⟩ := lowerer_bind_ok.mp h
      obtain ⟨rest, s₂, hrest, h⟩ := lowerer_bind_ok.mp h
      cases h
      cases statement with
      | query relation =>
          obtain ⟨r, t, hr, hfirst⟩ := lowerer_bind_ok.mp hfirst
          cases hfirst
          obtain ⟨hb, hs₁, htyped⟩ := lowerRelation_yields relation _ hchecked.1 _ _ _ rfl hs hr
          obtain ⟨hb', hrest⟩ := ih hs₁ (hchecked.2.mono hb) hrest
          exact ⟨hb.trans hb', List.forall_mem_cons.mpr ⟨htyped.mono hb', hrest⟩⟩
      | namedRelation name relation =>
          obtain ⟨r, t, hr, hfirst⟩ := lowerer_bind_ok.mp hfirst
          obtain ⟨u, t', hinsert, hfirst⟩ := lowerer_bind_ok.mp hfirst
          cases hfirst
          obtain ⟨hb, hs₁, htyped⟩ := lowerRelation_yields relation _ hchecked.1 _ _ _ rfl hs hr
          obtain ⟨_, -, hpure⟩ := bind_eq_ok.mp hinsert
          cases hpure
          have hs₂ : LowerState.Typed { t with
              namedRelations := t.namedRelations ++ [(name, r.schema)] } := ⟨hs₁.curr, hs₁.opened⟩
          obtain ⟨hb', hrest⟩ := ih hs₂ (hchecked.2.mono hb) hrest
          exact ⟨hb.trans hb', List.forall_mem_cons.mpr ⟨htyped.mono hb', hrest⟩⟩

variable [Platform]

theorem lowerProgram_typed {program : Ast.Program String} {statements : List Bound.Statement}
    {bound : BindState} (hbind : bind program = .ok (statements, bound)) {lowered : Ir.Program}
    (hlower : lowerProgram statements bound = .ok lowered) : lowered.Typed := by
  obtain ⟨⟨irs, s⟩, hirs, hpure⟩ := bind_eq_ok.mp hlower
  cases hpure
  have hstart : LowerState.Typed ⟨bound.binding, bound.openFields, [], none, none⟩ := by
    refine ⟨fun r hr => (by cases hr), fun fields hfields id hid => ?_⟩
    obtain ⟨cell, hcell⟩ := List.getElem?_of_mem hfields
    exact (bind_spec hbind).1.opened hcell id hid
  intro ir hir
  exact (lowerStatements_typed hstart (bind_checked hbind) hirs).2 ir hir _ (agrees_fieldType _)

/-- **Type soundness.** In every row of every answer of an accepted program each field holds null or a
value of its type. -/
theorem answers_typed {program : Ast.Program String} {statements : List Bound.Statement}
    {bound : BindState} (hbind : bind program = .ok (statements, bound)) {lowered : Ir.Program}
    (hlower : lowerProgram statements bound = .ok lowered) {data : Ir.Data} (hdata : data.HoldsStrings)
    {q : Ir.Env × Ir.Relation} (hq : q ∈ lowered.queries data) {u : List Ir.Item}
    (hu : Ir.Emits q.1 q.2 u) {row : Ir.Row} (hrow : .ok row ∈ u) {id : FieldId} {name : String}
    {type : ValueType} (hid : lowered.fieldBinding.entry id = some (name, type)) :
    (row id).HasType type := by
  have htyped := (lowerProgram_typed hbind hlower).answers hdata hq hu row hrow id
  rwa [agrees_fieldType _ id type ⟨name, hid⟩] at htyped

end Programs

/-- An ad hoc relation with the value 7. -/
def seven : Ast.Statement String := .query (.adhoc [⟨.integer, Bytes.ofString "7"⟩])

/-- Logs without lines. -/
def noLogs : Ir.Data := ⟨fun _ _ _ _ => [], fun _ _ => []⟩

theorem noLogs_holdsStrings : noLogs.HoldsStrings :=
  ⟨fun _ _ _ _ _ h => absurd h List.not_mem_nil, fun _ _ _ h => absurd h List.not_mem_nil⟩

theorem answers_typed_seven : ∃ statements bound lowered,
    @bind .insertion .inert [seven] = .ok (statements, bound) ∧
      @lowerProgram .insertion statements bound = .ok lowered ∧
      ∃ q ∈ @Ir.Program.queries .inert noLogs lowered, ∃ u row, @Ir.Emits .inert q.1 q.2 u ∧
        .ok row ∈ u ∧ (row 1).HasType .integer := by
  have hbind : @bind .insertion .inert [seven] = .ok ([.query (.adhoc [.integer 7] 1
      (.fixed (.withField 1)))], ⟨⟨[("anon", .integer)]⟩, [], []⟩) := rfl
  have hlower : @lowerProgram .insertion [.query (.adhoc [.integer 7] 1 (.fixed (.withField 1)))]
      ⟨⟨[("anon", .integer)]⟩, [], []⟩ = .ok ⟨[.query (.values [.integer 7] 1
        ⟨[1], List.nodup_singleton 1⟩)], ⟨[("anon", .integer)]⟩⟩ := rfl
  have hemits : @Ir.Emits .inert { noLogs with named := fun _ _ => False }
      (.values [.integer 7] 1 ⟨[1], List.nodup_singleton 1⟩)
      [.ok (.ofValues [1] [.integer 7])] := @Ir.Emits.node .inert _ _ [] _ .nil rfl
  refine ⟨_, _, _, hbind, hlower, _, List.mem_cons_self, _, _, hemits, List.mem_cons_self, ?_⟩
  exact @answers_typed .insertion .inert _ _ _ hbind _ hlower noLogs noLogs_holdsStrings _
    List.mem_cons_self _ hemits _ List.mem_cons_self 1 "anon" .integer rfl

end Lsql.Front.Lower
