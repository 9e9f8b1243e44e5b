import Mathlib.Data.List.Dedup
import Lsql.Front.Accepted
import Lsql.Front.LowerFits
import Lsql.Ir.TypedRows

/-!
# Lsql.Front.Checked

What the binder has checked: the static types of a bound program.

`Checked` says of a bound tree what its nodes say of the types of their parts: an identifier has the
type of its field, an operator and a call have a result type that their arguments allow, an alias has
the type of its expression. Every tree that the binder returns is checked, and what runs after the
binding keeps it so.

The binding only grows (`Binds`), so that what has been found of a field stays true.
-/

namespace Lsql

/-- Whether a function, or an aggregate function, takes arguments of given types and has a given result
type. -/
def Function.returns (f : Function) (types : List ValueType) (t : ValueType) : Bool :=
  if f.isScalar then f.hasType types t else f.aggregatesTo types t

namespace Front

open Binder

namespace Bound

/-- A field of a type. -/
def FieldTyped (b : FieldBinding) (id : FieldId) (t : ValueType) : Prop :=
  ∃ name, b.entry id = some (name, t)

theorem FieldTyped.mono {b b' : FieldBinding} (h : b.entries <+: b'.entries) {id : FieldId}
    {t : ValueType} (hid : FieldTyped b id t) : FieldTyped b' id t := by
  obtain ⟨name, hname⟩ := hid
  exact ⟨name, FieldBinding.entry_of_prefix h hname⟩

/-- A `SELECT` without a `GROUP BY` has no star if it aggregates, and no `HAVING`. One with a `GROUP BY`
aggregates. -/
structure SelectShape (star grouped aggregate having : Bool) : Prop where
  star : grouped = false → aggregate = true → star = false
  aggregate : grouped = true → aggregate = true
  having : grouped = false → having = false

mutual

/-- The types of an expression and of its parts agree. `names` are the relations that have been named
before. -/
def Expr.Checked (names : List (String × RelationFieldSet)) (b : FieldBinding) : Expr → Prop
  | .identifier id info => FieldTyped b id info.valueType
  | .value v info => info.valueType = v.type
  | .inMatch e m _ info => e.Checked names b ∧ m.Checked names b ∧ info.valueType = .boolean
  | .fnCall f args info =>
    CheckedExprs names b args ∧ f.returns (args.map Expr.valueType) info.valueType = true
  | .like e _ info => e.Checked names b ∧ e.valueType = .string ∧ info.valueType = .boolean
  | .binary type l r info =>
    l.Checked names b ∧ r.Checked names b ∧
      binaryExprTraits type l.valueType r.valueType = some info.valueType
  | .unary type e info =>
    e.Checked names b ∧ unaryExprTraits type e.valueType = some info.valueType

def CheckedExprs (names : List (String × RelationFieldSet)) (b : FieldBinding) : List Expr → Prop
  | [] => True
  | e :: es => e.Checked names b ∧ CheckedExprs names b es

def CheckedExprOption (names : List (String × RelationFieldSet)) (b : FieldBinding) :
    Option Expr → Prop
  | none => True
  | some e => e.Checked names b

def CheckedExprsOption (names : List (String × RelationFieldSet)) (b : FieldBinding) :
    Option (List Expr) → Prop
  | none => True
  | some es => CheckedExprs names b es

/-- An alias has the type of its expression. -/
def Projector.Checked (names : List (String × RelationFieldSet)) (b : FieldBinding) :
    Projector → Prop
  | .star => True
  | .identifier _ => True
  | .expr id e => e.Checked names b ∧ FieldTyped b id e.valueType

def CheckedProjectors (names : List (String × RelationFieldSet)) (b : FieldBinding) :
    List Projector → Prop
  | [] => True
  | p :: ps => p.Checked names b ∧ CheckedProjectors names b ps

def CheckedProjectorsOption (names : List (String × RelationFieldSet)) (b : FieldBinding) :
    Option (List Projector) → Prop
  | none => True
  | some ps => CheckedProjectors names b ps

/-- The expressions in a relation are checked, and a reference is to a relation that has been named. -/
def Relation.Checked (names : List (String × RelationFieldSet)) (b : FieldBinding) : Relation → Prop
  | .adhoc vs id _ => ∃ t, FieldTyped b id t ∧ ∀ v ∈ vs, v.type = t
  | .select ps source _ whereCond having orderList _ groupList aggregate _ =>
    SelectShape (ps.any Projector.isStar) groupList.isSome aggregate having.isSome ∧
      CheckedProjectors names b ps ∧ source.Checked names b ∧ CheckedExprOption names b whereCond ∧
        CheckedExprOption names b having ∧ CheckedExprsOption names b orderList ∧
          CheckedProjectorsOption names b groupList
  | .aliased _ source _ => source.Checked names b
  | .unionAll left right _ => left.Checked names b ∧ right.Checked names b
  | .leftJoin left right leftKey rightKey _ =>
    left.Checked names b ∧ right.Checked names b ∧ leftKey.Checked names b ∧
      rightKey.Checked names b
  | .unionAllSortedBy left right orderList _ _ =>
    left.Checked names b ∧ right.Checked names b ∧ CheckedExprs names b orderList
  | .file _ _ _ f | .stream _ f => ∃ cell, f = .opened cell
  | .namedRelationReference name f => names.lookup name = some f
  | .materialize relation _ => relation.Checked names b

end

section Growing

variable {names : List (String × RelationFieldSet)} {b b' : FieldBinding}

mutual

/-- More fields do not change anything. -/
theorem checkedExpr_mono (h : b.entries <+: b'.entries) : ∀ e : Expr,
    e.Checked names b → e.Checked names b'
  | .identifier _ _, he => FieldTyped.mono h he
  | .value _ _, he => he
  | .inMatch e m _ _, he => ⟨checkedExpr_mono h e he.1, checkedRelation_mono h m he.2.1, he.2.2⟩
  | .fnCall _ args _, he => ⟨checkedExprs_mono h args he.1, he.2⟩
  | .like e _ _, he => ⟨checkedExpr_mono h e he.1, he.2⟩
  | .binary _ l r _, he => ⟨checkedExpr_mono h l he.1, checkedExpr_mono h r he.2.1, he.2.2⟩
  | .unary _ e _, he => ⟨checkedExpr_mono h e he.1, he.2⟩

theorem checkedExprs_mono (h : b.entries <+: b'.entries) : ∀ es : List Expr,
    CheckedExprs names b es → CheckedExprs names b' es
  | [], _ => trivial
  | e :: es, hes => ⟨checkedExpr_mono h e hes.1, checkedExprs_mono h es hes.2⟩

theorem checkedExprOption_mono (h : b.entries <+: b'.entries) : ∀ e : Option Expr,
    CheckedExprOption names b e → CheckedExprOption names b' e
  | none, _ => trivial
  | some e, he => checkedExpr_mono h e he

theorem checkedExprsOption_mono (h : b.entries <+: b'.entries) : ∀ es : Option (List Expr),
    CheckedExprsOption names b es → CheckedExprsOption names b' es
  | none, _ => trivial
  | some es, hes => checkedExprs_mono h es hes

theorem checkedProjector_mono (h : b.entries <+: b'.entries) : ∀ p : Projector,
    p.Checked names b → p.Checked names b'
  | .star, _ => trivial
  | .identifier _, _ => trivial
  | .expr _ e, hp => ⟨checkedExpr_mono h e hp.1, hp.2.mono h⟩

theorem checkedProjectors_mono (h : b.entries <+: b'.entries) : ∀ ps : List Projector,
    CheckedProjectors names b ps → CheckedProjectors names b' ps
  | [], _ => trivial
  | p :: ps, hps => ⟨checkedProjector_mono h p hps.1, checkedProjectors_mono h ps hps.2⟩

theorem checkedProjectorsOption_mono (h : b.entries <+: b'.entries) :
    ∀ ps : Option (List Projector),
      CheckedProjectorsOption names b ps → CheckedProjectorsOption names b' ps
  | none, _ => trivial
  | some ps, hps => checkedProjectors_mono h ps hps

theorem checkedRelation_mono (h : b.entries <+: b'.entries) : ∀ r : Relation,
    r.Checked names b → r.Checked names b'
  | .adhoc _ _ _, hr => by
      obtain ⟨t, ht, hvs⟩ := hr
      exact ⟨t, ht.mono h, hvs⟩
  | .select ps source _ whereCond having orderList _ groupList _ _, hr =>
      ⟨hr.1, checkedProjectors_mono h ps hr.2.1, checkedRelation_mono h source hr.2.2.1,
        checkedExprOption_mono h whereCond hr.2.2.2.1, checkedExprOption_mono h having hr.2.2.2.2.1,
        checkedExprsOption_mono h orderList hr.2.2.2.2.2.1,
        checkedProjectorsOption_mono h groupList hr.2.2.2.2.2.2⟩
  | .aliased _ source _, hr => checkedRelation_mono h source hr
  | .unionAll left right _, hr =>
      ⟨checkedRelation_mono h left hr.1, checkedRelation_mono h right hr.2⟩
  | .leftJoin left right leftKey rightKey _, hr =>
      ⟨checkedRelation_mono h left hr.1, checkedRelation_mono h right hr.2.1,
        checkedExpr_mono h leftKey hr.2.2.1, checkedExpr_mono h rightKey hr.2.2.2⟩
  | .unionAllSortedBy left right orderList _ _, hr =>
      ⟨checkedRelation_mono h left hr.1, checkedRelation_mono h right hr.2.1,
        checkedExprs_mono h orderList hr.2.2⟩
  | .file _ _ _ _, hr => hr
  | .stream _ _, hr => hr
  | .namedRelationReference _ _, hr => hr
  | .materialize relation _, hr => checkedRelation_mono h relation hr

end

theorem checkedExprs_iff {es : List Expr} :
    CheckedExprs names b es ↔ ∀ e ∈ es, e.Checked names b := by
  induction es with
  | nil => exact ⟨fun _ _ he => absurd he List.not_mem_nil, fun _ => trivial⟩
  | cons e es ih => rw [CheckedExprs, ih, List.forall_mem_cons]

end Growing

end Bound

open Bound

/-! ### Rules -/

/-- What a computation of the binder returns, from a binding on, to which it may only add fields. -/
def Binds {α : Type} (names : List (String × RelationFieldSet)) (b : FieldBinding) (m : Binder α)
    (Q : FieldBinding → α → Prop) : Prop :=
  ∀ s a s', s.named = names → s.binding = b → m s = .ok (a, s') →
    s'.named = names ∧ b.entries <+: s'.binding.entries ∧ Q s'.binding a

section Rules

variable {α β : Type} {names : List (String × RelationFieldSet)} {b : FieldBinding} {m : Binder α}
  {f : α → Binder β} {P P' : FieldBinding → α → Prop} {Q : FieldBinding → β → Prop}

namespace Binds

theorem pure {a : α} (h : P b a) : Binds names b (Pure.pure a) P := by
  intro s a' s' hnamed hb hrun
  cases hrun
  subst hb
  exact ⟨hnamed, List.prefix_refl _, h⟩

theorem bind (hm : Binds names b m P)
    (hf : ∀ a b', b.entries <+: b'.entries → P b' a → Binds names b' (f a) Q) :
    Binds names b (m >>= f) Q := by
  intro s y s' hnamed hb hrun
  obtain ⟨a, t, ha, hy⟩ := binder_bind_ok.mp hrun
  obtain ⟨hnamed', hgrows, hP⟩ := hm s a t hnamed hb ha
  obtain ⟨hnamed'', hgrows', hQ⟩ := hf a _ hgrows hP t y s' hnamed' rfl hy
  exact ⟨hnamed'', hgrows.trans hgrows', hQ⟩

theorem mono (hm : Binds names b m P) (h : ∀ b' a, P b' a → P' b' a) : Binds names b m P' := by
  intro s a s' hnamed hb hrun
  obtain ⟨hnamed', hgrows, hP⟩ := hm s a s' hnamed hb hrun
  exact ⟨hnamed', hgrows, h _ _ hP⟩

theorem thrown {message : String} : Binds names b (throwAt message : Binder α) P := by
  intro s a s' _ _ hrun
  cases hrun

theorem ite {c : Prop} [Decidable c] {m' : Binder α} (hm : c → Binds names b m P)
    (hm' : ¬c → Binds names b m' P) : Binds names b (if c then m else m') P := by
  split
  · exact hm ‹_›
  · exact hm' ‹_›

/-- Code that does not touch the state, and something else behind it. -/
theorem except {x : Except Fault α} (hf : ∀ a, x = .ok a → Binds names b (f a) Q) :
    Binds names b (fromExcept x >>= f) Q := by
  intro s y s' hnamed hb hrun
  obtain ⟨a, t, ha, hy⟩ := binder_bind_ok.mp hrun
  cases x with
  | error e => cases ha
  | ok x =>
      cases ha
      exact hf _ rfl s y s' hnamed hb hy

/-- What follows a check. -/
theorem required {c : Bool} {message : String} {g : Unit → Binder β}
    (hg : c = true → Binds names b (g ()) Q) : Binds names b (requireAt c message >>= g) Q := by
  intro s y s' hnamed hb hrun
  obtain ⟨u, t, hu, hy⟩ := binder_bind_ok.mp hrun
  cases c with
  | false => cases hu
  | true =>
      cases hu
      exact hg rfl s y s' hnamed hb hy

/-- A check behind which nothing follows. -/
theorem checked {c : Bool} {message : String} :
    Binds names b (requireAt c message) fun _ _ => c = true := by
  intro s u s' hnamed hb hrun
  cases c with
  | false => cases hrun
  | true =>
      cases hrun
      subst hb
      exact ⟨hnamed, List.prefix_refl _, rfl⟩

/-- An argument of a call. -/
theorem argument {args : List Bound.Expr} {i : Nat} {g : Bound.Expr → Binder β}
    (hg : ∀ arg, args[i]? = some arg → Binds names b (g arg) Q) :
    Binds names b (argAt args i >>= g) Q := by
  intro s y s' hnamed hb hrun
  obtain ⟨arg, t, harg, hy⟩ := binder_bind_ok.mp hrun
  unfold argAt at harg
  split at harg
  next hget =>
    cases harg
    exact hg arg hget s y s' hnamed hb hy
  · cases harg

/-- A literal argument. -/
theorem literal {get : Value → Except Fault α} {arg : Bound.Expr}
    (hf : ∀ a, Binds names b (f a) Q) : Binds names b (getLiteralAs get arg >>= f) Q := by
  intro s y s' hnamed hb hrun
  obtain ⟨a, t, ha, hy⟩ := binder_bind_ok.mp hrun
  obtain ⟨v, t', hv, ha⟩ := binder_bind_ok.mp ha
  unfold getLiteral at hv
  split at hv
  · cases hv
    cases hget : get v with
    | error e =>
        rw [hget] at ha
        cases ha
    | ok x =>
        rw [hget] at ha
        cases ha
        exact hf _ s y s' hnamed hb hy
  · cases hv

/-- Adding a field. -/
theorem added {name : String} {type : ValueType} :
    Binds names b (getOrAdd name type) fun b' id => b'.entry id = some (name, type) := by
  intro s a s' hnamed hb hrun
  cases hrun
  subst hb
  obtain ⟨hentry, hgrows⟩ := s.binding.getOrAdd_spec name type
  exact ⟨hnamed, hgrows, hentry⟩

end Binds

end Rules

/-! ### Names -/

section Names

variable {names : List (String × RelationFieldSet)} {b : FieldBinding}

theorem nameOf_binds (id : FieldId) : Binds names b (nameOf id) fun _ _ => True := by
  intro s a s' hnamed hb hrun
  have hgrows := (Lower.fromExcept_onlyBinds hrun).toGrows
  exact ⟨hgrows.named.trans hnamed, hb ▸ hgrows.binding, trivial⟩

theorem typeOf_binds (id : FieldId) : Binds names b (typeOf id) fun _ _ => True := by
  intro s a s' hnamed hb hrun
  have hgrows := (Lower.fromExcept_onlyBinds hrun).toGrows
  exact ⟨hgrows.named.trans hnamed, hb ▸ hgrows.binding, trivial⟩

theorem sourceField_binds (aliasPrefix : String) (id : FieldId) :
    Binds names b (RelationFieldSet.sourceField aliasPrefix id) fun _ _ => True := by
  refine (nameOf_binds id).bind fun name b₁ _ _ => ?_
  split
  · exact .pure trivial
  · exact (typeOf_binds id).bind fun _ _ _ _ => Binds.added.bind fun _ _ _ _ => .pure trivial

theorem findField_binds (name : String) (ids : List FieldId) :
    Binds names b (findField name ids) fun _ _ => True := by
  induction ids generalizing b with
  | nil => exact .pure trivial
  | cons id ids ih =>
      exact (nameOf_binds id).bind fun _ _ _ _ => .ite (fun _ => .pure trivial) fun _ => ih

theorem verify_binds (cond : Bool) (message : String) :
    Binds names b (Binder.verify cond message) fun _ _ => True := by
  intro s u s' hnamed hb hrun
  cases cond with
  | false => cases hrun
  | true =>
      cases hrun
      exact ⟨hnamed, hb ▸ List.prefix_refl _, trivial⟩

theorem addOpen_binds (cell : Nat) (id : FieldId) :
    Binds names b (addOpen cell id) fun _ _ => True := by
  intro s u s' hnamed hb hrun
  cases hrun
  exact ⟨hnamed, hb ▸ List.prefix_refl _, trivial⟩

mutual

theorem canProvide_binds : ∀ (r : RelationFieldSet) {id : FieldId} {b : FieldBinding},
    Binds names b (r.canProvide id) fun _ _ => True
  | .fixed _, _, _ => by
      rw [RelationFieldSet.canProvide]
      exact .pure trivial
  | .opened _, id, _ => by
      rw [RelationFieldSet.canProvide]
      exact (typeOf_binds id).bind fun _ _ _ _ => .pure trivial
  | .aliased aliasPrefix source, id, _ => by
      rw [RelationFieldSet.canProvide]
      refine (sourceField_binds aliasPrefix id).bind fun sourceId _ _ _ => ?_
      cases sourceId with
      | none => exact .pure trivial
      | some sourceId => exact canProvide_binds source
  | .combined _ sources, _, _ => by
      rw [RelationFieldSet.canProvide]
      exact .ite (fun _ => .pure trivial) fun _ => anyProvides_binds sources

theorem anyProvides_binds : ∀ (rs : List RelationFieldSet) {id : FieldId} {b : FieldBinding},
    Binds names b (RelationFieldSet.anyProvides id rs) fun _ _ => True
  | [], _, _ => by
      rw [RelationFieldSet.anyProvides]
      exact .pure trivial
  | source :: sources, _, _ => by
      rw [RelationFieldSet.anyProvides]
      exact (canProvide_binds source).bind fun _ _ _ _ =>
        .ite (fun _ => .pure trivial) fun _ => anyProvides_binds sources

end

mutual

theorem require_binds : ∀ (r : RelationFieldSet) {id : FieldId} {b : FieldBinding},
    Binds names b (r.require id) fun _ _ => True
  | .fixed _, _, _ => by
      rw [RelationFieldSet.require]
      exact verify_binds _ _
  | .opened cell, id, _ => by
      rw [RelationFieldSet.require]
      exact (canProvide_binds _).bind fun _ _ _ _ => (verify_binds _ _).bind fun _ _ _ _ =>
        addOpen_binds cell id
  | .aliased aliasPrefix source, id, _ => by
      rw [RelationFieldSet.require]
      refine (sourceField_binds aliasPrefix id).bind fun sourceId _ _ _ => ?_
      cases sourceId with
      | none =>
          intro s a s' _ _ hrun
          cases hrun
      | some sourceId => exact require_binds source
  | .combined ownFields sources, _, _ => by
      rw [RelationFieldSet.require]
      exact (canProvide_binds _).bind fun _ _ _ _ => (verify_binds _ _).bind fun _ _ _ _ =>
        .ite (fun _ => .pure trivial) fun _ => requireAll_binds sources

theorem requireAll_binds : ∀ (rs : List RelationFieldSet) {id : FieldId} {b : FieldBinding},
    Binds names b (RelationFieldSet.requireAll id rs) fun _ _ => True
  | [], _, _ => by
      rw [RelationFieldSet.requireAll]
      exact .pure trivial
  | source :: sources, _, _ => by
      rw [RelationFieldSet.requireAll]
      exact (canProvide_binds source).bind fun _ _ _ _ =>
        .ite (fun _ => (require_binds source).bind fun _ _ _ _ => requireAll_binds sources)
          fun _ => requireAll_binds sources

end

variable [HashOrder]

theorem fields_binds (r : RelationFieldSet) : Binds names b r.fields fun _ _ => True := by
  intro s a s' hnamed hb hrun
  have hgrows := (Lower.fields_onlyBinds r hrun).toGrows
  exact ⟨hgrows.named.trans hnamed, hb ▸ hgrows.binding, trivial⟩

/-- Looking a name up may give identifiers to fields. -/
theorem typeOfSourceField_binds (name : String) (chain : FieldSetChain) :
    Binds names b (typeOfSourceField name chain) fun _ _ => True := by
  induction chain generalizing b with
  | nil => exact .pure trivial
  | cons current parent ih =>
      refine (fields_binds current).bind fun fields _ _ _ => ?_
      refine (findField_binds name _).bind fun found _ _ _ => ?_
      cases found with
      | some id =>
          exact (require_binds current).bind fun _ _ _ _ => (typeOf_binds id).bind fun _ _ _ _ =>
            .pure trivial
      | none =>
          refine Binds.added.bind fun id _ _ _ => (canProvide_binds current).bind fun _ _ _ _ => ?_
          exact .ite (fun _ => (require_binds current).bind fun _ _ _ _ => .pure trivial) fun _ => ih

end Names

/-! ### Calls and operators -/

/-- A call reads some of the arguments, and their types give it its own. -/
def CallChecked (args : List Bound.Expr) (call : BoundCall) : Prop :=
  (∀ a ∈ call.2.2, a ∈ args) ∧
    call.2.1.returns (call.2.2.map Bound.Expr.valueType) call.1.valueType = true

section Calls

variable {names : List (String × RelationFieldSet)} {b : FieldBinding} {args : List Bound.Expr}
  {arg : Bound.Expr}

theorem callChecked_one {i : Nat} (harg : args[i]? = some arg) {info : BoundExprInfo} {f : Function}
    (h : f.returns [arg.valueType] info.valueType = true) : CallChecked args (info, f, [arg]) :=
  ⟨List.forall_mem_singleton.mpr (List.mem_of_getElem? harg), h⟩

theorem callChecked_all {info : BoundExprInfo} {f : Function}
    (h : f.returns (args.map Bound.Expr.valueType) info.valueType = true) :
    CallChecked args (info, f, args) := ⟨fun _ ha => ha, h⟩

/-- The only argument. -/
theorem eq_singleton (hlength : (args.length == 1) = true) (harg : args[0]? = some arg) :
    args = [arg] := by
  obtain ⟨a, rfl⟩ := List.length_eq_one_iff.mp (beq_iff_eq.mp hlength)
  cases harg
  rfl

theorem composedLevelFrom_binds (args : List Bound.Expr) (level : ExprKindLevel) :
    Binds names b (composedLevelFrom level args) fun _ _ => True := by
  induction args generalizing level with
  | nil => exact .pure trivial
  | cons arg args ih => exact .required fun _ => ih _

theorem bindLower_binds (args : List Bound.Expr) (level : ExprKindLevel) :
    Binds names b (bindLower args level) fun _ => CallChecked args := by
  refine .required fun hlength => .argument fun arg harg => .required fun htype => .pure ?_
  rw [eq_singleton hlength harg]
  refine callChecked_all ?_
  rw [List.map_singleton, beq_iff_eq.mp htype]
  rfl

theorem bindSplitPart_binds (args : List Bound.Expr) :
    Binds names b (bindSplitPart args) fun _ => CallChecked args := by
  refine .required fun _ => .argument fun arg harg => .argument fun _ _ => .argument fun _ _ => ?_
  refine .required fun htype => .required fun _ => .required fun _ => .required fun _ => ?_
  refine .required fun _ => .literal fun _ => .required fun _ => .literal fun _ => ?_
  refine .required fun _ => .pure (callChecked_one harg ?_)
  rw [beq_iff_eq.mp htype]
  rfl

theorem checkLengthArg_binds (args : List Bound.Expr) :
    Binds names b (checkLengthArg args) fun _ _ => True := by
  refine .ite (fun _ => .argument fun _ _ => ?_) fun _ => .pure trivial
  exact Binds.checked.mono fun _ _ _ => trivial

theorem substrLength_binds (args : List Bound.Expr) :
    Binds names b (substrLength args) fun _ _ => True :=
  .ite (fun _ => .argument fun _ _ => .literal fun _ => .pure trivial) fun _ => .pure trivial

theorem percentileArgs_binds (args : List Bound.Expr) :
    Binds names b (percentileArgs args) fun _ _ => True := by
  induction args generalizing b with
  | nil => exact .pure trivial
  | cons arg args ih =>
      exact .required fun _ => .literal fun _ => .required fun _ => ih.bind fun _ _ _ _ =>
        .pure trivial

theorem bindCountAll_binds (args : List Bound.Expr) :
    Binds names b (bindCountAll args) fun _ => CallChecked args :=
  .required fun _ => .pure ⟨fun _ ha => absurd ha List.not_mem_nil, rfl⟩

theorem bindCountNonNull_binds (args : List Bound.Expr) :
    Binds names b (bindCountNonNull args) fun _ => CallChecked args := by
  refine .required fun hlength => .argument fun arg harg => .pure ?_
  rw [eq_singleton hlength harg]
  exact callChecked_all rfl

/-- `min`, `max` and `sum` have the type of their argument. -/
theorem bindAggregateFn_binds (function : ValueType → Function)
    (hfunction : ∀ t, (function t).returns [t] t = true) (name : String) (args : List Bound.Expr) :
    Binds names b (bindAggregateFn name function args) fun _ => CallChecked args := by
  refine .required fun hlength => .argument fun arg harg => .required fun _ => .pure ?_
  rw [eq_singleton hlength harg]
  exact callChecked_all (hfunction arg.valueType)

theorem bindRSubstr_binds (args : List Bound.Expr) (level : ExprKindLevel) [HashOrder] :
    Binds names b (bindRSubstr args level) fun _ => CallChecked args := by
  refine .required fun _ => .argument fun arg harg => .argument fun _ _ => ?_
  refine .required fun htype => .required fun _ => .required fun _ => .literal fun _ => ?_
  refine .pure (callChecked_one harg ?_)
  rw [beq_iff_eq.mp htype]
  rfl

theorem bindJsonValue_binds (args : List Bound.Expr) :
    Binds names b (bindJsonValue args) fun _ => CallChecked args := by
  refine .required fun _ => .argument fun arg harg => .argument fun _ _ => ?_
  refine .required fun htype => .required fun _ => .required fun _ => .literal fun path => ?_
  split
  · exact .thrown
  · refine .pure (callChecked_one harg ?_)
    rw [beq_iff_eq.mp htype]
    rfl

variable [HashOrder]

theorem bindSubstr_binds (args : List Bound.Expr) (level : ExprKindLevel) :
    Binds names b (bindSubstr args level) fun _ => CallChecked args := by
  refine .required fun _ => .argument fun arg harg => .argument fun _ _ => ?_
  refine .required fun htype => .required fun _ => (checkLengthArg_binds args).bind fun _ _ _ _ => ?_
  refine .literal fun _ => .required fun _ => (substrLength_binds args).bind fun _ _ _ _ => ?_
  refine .pure (callChecked_one harg ?_)
  rw [beq_iff_eq.mp htype]
  rfl

omit [HashOrder] in
/-- With at most one type that is not that of null, every argument has it or is always null. -/
theorem fits_of_nonNullTypes (h : (nonNullTypes args).length ≤ 1) (harg : arg ∈ args) :
    arg.valueType.fits ((nonNullTypes args).headD .null) = true := by
  by_cases hnull : arg.valueType = .null
  · rw [hnull]
    rfl
  have hmem : arg.valueType ∈ nonNullTypes args := by
    unfold nonNullTypes
    rw [List.mem_dedup, List.mem_filter]
    exact ⟨List.mem_map_of_mem harg, bne_iff_ne.mpr hnull⟩
  obtain ⟨t, ht⟩ := List.length_eq_one_iff.mp
    (Nat.le_antisymm h (List.length_pos_of_mem hmem))
  rw [ht, List.mem_singleton] at hmem
  rw [ht, hmem]
  exact ValueType.fits_self t

theorem bindCoalesce_binds (args : List Bound.Expr) (level : ExprKindLevel) :
    Binds names b (bindCoalesce args level) fun _ => CallChecked args := by
  refine .required fun htypes => .pure (callChecked_all ?_)
  refine List.all_eq_true.mpr fun t ht => ?_
  obtain ⟨arg, harg, rfl⟩ := List.mem_map.mp ht
  exact fits_of_nonNullTypes (of_decide_eq_true htypes) harg

theorem bindPercentile_binds (args : List Bound.Expr) :
    Binds names b (bindPercentile args) fun _ => CallChecked args := by
  refine .required fun _ => .argument fun arg harg => .required fun _ => .required fun _ => ?_
  refine (percentileArgs_binds _).bind fun _ _ _ _ => .pure (callChecked_one harg ?_)
  show (arg.valueType.fits arg.valueType && true) = true
  rw [ValueType.fits_self]
  rfl

theorem bindParseTimestamp_binds (args : List Bound.Expr) :
    Binds names b (bindParseTimestamp args) fun _ => CallChecked args := by
  refine .required fun _ => .argument fun arg harg => .argument fun _ _ => ?_
  refine .required fun htype => .required fun _ => .required fun _ => .literal fun name => ?_
  split
  · exact .thrown
  · refine .pure (callChecked_one harg ?_)
    rw [beq_iff_eq.mp htype]
    rfl

theorem bindCastFn_binds (fnName : String) (args : List Bound.Expr) (level : ExprKindLevel) :
    Binds names b (bindCastFn fnName args level) fun _ => CallChecked args := by
  rw [bindCastFn]
  split
  · exact .thrown
  next castTo _ =>
    refine .required fun hlength => .pure (callChecked_all ?_)
    obtain ⟨arg, rfl⟩ := List.length_eq_one_iff.mp (beq_iff_eq.mp hlength)
    exact beq_self_eq_true castTo

/-- **A call has the type that its function gives for the types of the arguments.** -/
theorem bindFnCallExpr_binds (fnName : String) (args : List Bound.Expr) :
    Binds names b (bindFnCallExpr fnName args) fun _ => CallChecked args := by
  refine (composedLevelFrom_binds args .const).bind fun level _ _ _ => ?_
  refine .ite (fun _ => bindLower_binds args level) fun _ => ?_
  refine .ite (fun _ => bindSplitPart_binds args) fun _ => ?_
  refine .ite (fun _ => bindSubstr_binds args level) fun _ => ?_
  refine .ite (fun _ => bindCoalesce_binds args level) fun _ => ?_
  refine .ite (fun _ => bindPercentile_binds args) fun _ => ?_
  refine .ite (fun _ => bindRSubstr_binds args level) fun _ => ?_
  refine .ite (fun _ => bindJsonValue_binds args) fun _ => ?_
  refine .ite (fun _ => bindCountAll_binds args) fun _ => ?_
  refine .ite (fun _ => bindCountNonNull_binds args) fun _ => ?_
  have haggregate : ∀ t : ValueType, (t.fits t && t == t) = true := fun t => by
    rw [ValueType.fits_self, beq_self_eq_true]
    rfl
  refine .ite (fun _ => bindAggregateFn_binds .min haggregate "min" args) fun _ => ?_
  refine .ite (fun _ => bindAggregateFn_binds .max haggregate "max" args) fun _ => ?_
  refine .ite (fun _ => bindAggregateFn_binds .sum haggregate "sum" args) fun _ => ?_
  refine .ite (fun _ => bindParseTimestamp_binds args) fun _ => ?_
  exact bindCastFn_binds fnName args level

omit [HashOrder] in
theorem bindInExpr_binds (arg : Bound.Expr) :
    Binds names b (bindInExpr arg) fun _ info => info.valueType = .boolean :=
  .required fun _ => .pure rfl

omit [HashOrder] in
theorem bindLikeExpr_binds (arg : Bound.Expr) :
    Binds names b (bindLikeExpr arg) fun _ info =>
      arg.valueType = .string ∧ info.valueType = .boolean :=
  .required fun htype => .pure ⟨beq_iff_eq.mp htype, rfl⟩

omit [HashOrder] in
theorem bindUnaryExpr_binds (arg : Bound.Expr) (type : Ast.UnaryExprType) :
    Binds names b (bindUnaryExpr arg type) fun _ info =>
      unaryExprTraits info.2 arg.valueType = some info.1.valueType := by
  have htype : Binds names b (unaryValueType arg.valueType (unaryExprType type)) fun _ t =>
      unaryExprTraits (unaryExprType type) arg.valueType = some t := by
    rw [unaryValueType]
    split
    next ht => exact .pure ht
    · exact .thrown
  exact htype.bind fun _ _ _ ht => .pure ht

theorem bindBinaryExpr_binds (l r : Bound.Expr) (type : Ast.BinaryExprType) :
    Binds names b (bindBinaryExpr l r type) fun _ info =>
      binaryExprTraits info.2 l.valueType r.valueType = some info.1.valueType := by
  have htype : Binds names b (binaryValueType l.valueType r.valueType (binaryExprType type)) fun _ t =>
      binaryExprTraits (binaryExprType type) l.valueType r.valueType = some t := by
    rw [binaryValueType]
    split
    next ht => exact .pure ht
    · exact .thrown
  exact htype.bind fun _ _ _ ht => .required fun _ => .pure ht

end Calls

/-! ### The binder -/

section Checks

variable {names : List (String × RelationFieldSet)} {b : FieldBinding}

theorem requireGrouped_binds (allowed : FieldSet) (ids : List FieldId) :
    Binds names b (requireGrouped allowed ids) fun _ _ => True := by
  induction ids with
  | nil => exact .pure trivial
  | cons id ids ih =>
      refine .ite (fun _ => ih) fun _ => ?_
      intro s u s' _ _ hrun
      obtain ⟨field, t, -, hthrow⟩ := binder_bind_ok.mp hrun
      cases hthrow

theorem checkGroupKeys_binds (ps : List Bound.Projector) :
    Binds names b (checkGroupKeys ps) fun _ _ => True := by
  induction ps with
  | nil => exact .pure trivial
  | cons p ps ih => exact .required fun _ => ih

theorem checkAggregateProjectors_binds (ps : List Bound.Projector) :
    Binds names b (checkAggregateProjectors ps) fun _ _ => ps.any Bound.Projector.isStar = false := by
  induction ps generalizing b with
  | nil => exact .pure rfl
  | cons p ps ih =>
      cases p with
      | star => exact Binds.bind (P := fun _ _ => False) .thrown fun _ _ _ hfalse => hfalse.elim
      | identifier id =>
          exact Binds.bind (P := fun _ _ => False) .thrown fun _ _ _ hfalse => hfalse.elim
      | expr id e => exact .required fun _ => ih

theorem checkWhere_binds (cond : Option Bound.Expr) :
    Binds names b (checkWhere cond) fun _ _ => True := by
  cases cond with
  | none => exact .pure trivial
  | some cond => exact .required fun _ => Binds.checked.mono fun _ _ _ => trivial

theorem checkLimit_binds (limit : Option Int) : Binds names b (checkLimit limit) fun _ _ => True := by
  cases limit with
  | none => exact .pure trivial
  | some limit => exact Binds.checked.mono fun _ _ _ => trivial

theorem checkOrderBy_binds (es : List Bound.Expr) :
    Binds names b (checkOrderBy es) fun _ _ => True := by
  induction es with
  | nil => exact .pure trivial
  | cons e es ih => exact .required fun _ => ih

variable [HashOrder]

theorem checkGroupedProjectors_binds (keys : FieldSet) (ps : List Bound.Projector) :
    Binds names b (checkGroupedProjectors keys ps) fun _ _ => True := by
  induction ps generalizing b with
  | nil => exact .pure trivial
  | cons p ps ih =>
      have hp : Binds names b (checkGroupedProjector keys p) fun _ _ => True := by
        cases p with
        | star => exact .pure trivial
        | identifier id => exact requireGrouped_binds keys [id]
        | expr id e => exact .ite (fun _ => .pure trivial) fun _ => requireGrouped_binds keys _
      exact hp.bind fun _ _ _ _ => ih

theorem checkHaving_binds (allowed : FieldSet) (cond : Option Bound.Expr) :
    Binds names b (checkHaving allowed cond) fun _ _ => True := by
  cases cond with
  | none => exact .pure trivial
  | some cond =>
      exact .required fun _ => .ite (fun _ => requireGrouped_binds allowed _) fun _ => .pure trivial

omit [HashOrder] in
/-- The projectors of a `SELECT` without a `GROUP BY` stay what they are. -/
theorem simpleSelect_binds (source : RelationFieldSet) (projectors : List Bound.Projector)
    (having : Bool) : Binds names b (simpleSelect source projectors having) fun _ parts =>
      SelectShape (projectors.any Projector.isStar) false parts.aggregate false ∧
        parts.projectors = projectors ∧ parts.having = none := by
  refine .required fun _ => .required fun _ => .ite (fun _ => ?_) fun _ => .pure ⟨?_, rfl, rfl⟩
  · refine (checkAggregateProjectors_binds projectors).bind fun _ _ _ hstar => ?_
    exact .pure ⟨⟨fun _ _ => hstar, fun h => absurd h Bool.false_ne_true, fun h => h⟩, rfl, rfl⟩
  · exact ⟨fun _ h => absurd h Bool.false_ne_true, fun h => absurd h Bool.false_ne_true, fun h => h⟩

end Checks

section Bind

variable [Platform] {names : List (String × RelationFieldSet)} {b : FieldBinding}

theorem bindLiteral_binds (literal : Ast.Literal) :
    Binds names b (bindLiteral literal) fun _ _ => True := by
  refine .except fun value _ => ?_
  cases value with
  | none => exact .thrown
  | some value => exact .pure trivial

/-- The literals of an ad hoc relation have the type of the first. -/
theorem bindLiterals_binds (type : Option ValueType) (literals : List Ast.Literal) :
    Binds names b (bindLiterals type literals) fun _ vs =>
      ∀ v ∈ vs, v.type = type.getD ((vs.head?.map Value.type).getD .null) := by
  induction literals generalizing type b with
  | nil => exact .pure fun v hv => absurd hv List.not_mem_nil
  | cons literal literals ih =>
      refine (bindLiteral_binds literal).bind fun value _ _ _ => ?_
      refine .required fun htype => (ih (some (type.getD value.type))).bind fun vs _ _ hvs => .pure ?_
      rw [List.forall_mem_cons]
      exact ⟨beq_iff_eq.mp htype, hvs⟩

theorem bindRange_binds (path : String) (range : Option Ast.FileTimeRange) :
    Binds names b (bindRange path range) fun _ _ => True := by
  cases range with
  | none => exact .pure trivial
  | some range =>
      refine .required fun _ => .except fun tsFrom _ => ?_
      split
      · exact .pure trivial
      · exact .except fun _ _ => .pure trivial

omit [Platform] in
theorem bindTimeFormat_binds (timeFormat : Option String) :
    Binds names b (bindTimeFormat timeFormat) fun _ _ => True := by
  cases timeFormat with
  | none => exact .pure trivial
  | some name =>
      rw [bindTimeFormat]
      split
      · exact .thrown
      · exact .pure trivial

omit [Platform] in
theorem newOpen_binds : Binds names b newOpen fun _ f => ∃ cell, f = .opened cell := by
  intro s f s' hnamed hb hrun
  cases hrun
  exact ⟨hnamed, hb ▸ List.prefix_refl _, _, rfl⟩

variable [HashOrder]

mutual

theorem bindExpr_binds : ∀ (e : Ast.Expr String) (chain : FieldSetChain) (b : FieldBinding),
    Binds names b (bindExpr chain e) fun b' e => e.Checked names b'
  | .identifier identifier, chain, _ => by
      rw [bindExpr]
      refine (typeOfSourceField_binds identifier chain).bind fun type _ _ _ => ?_
      cases type with
      | none => exact .thrown
      | some type => exact Binds.added.bind fun id _ _ hid => .pure ⟨identifier, hid⟩
  | .literal literal, _, _ => by
      rw [bindExpr]
      exact (bindLiteral_binds literal).bind fun _ _ _ _ => .pure rfl
  | .inMatch expr matched, chain, _ => by
      rw [bindExpr]
      refine (bindExpr_binds expr chain _).bind fun e _ _ he => ?_
      refine (bindRelation_binds matched _).bind fun m _ hb hm => ?_
      refine (bindInExpr_binds e).bind fun info _ hb' hinfo => ?_
      exact .pure ⟨checkedExpr_mono (hb.trans hb') e he, checkedRelation_mono hb' m hm, hinfo⟩
  | .like expr regex, chain, _ => by
      rw [bindExpr]
      refine (bindExpr_binds expr chain _).bind fun e _ _ he => ?_
      refine (bindLikeExpr_binds e).bind fun info _ hb hinfo => ?_
      exact .pure ⟨checkedExpr_mono hb e he, hinfo⟩
  | .fnCall func args, chain, _ => by
      rw [bindExpr]
      refine (bindExprs_binds args chain _).bind fun args _ _ hargs => ?_
      refine (bindFnCallExpr_binds func args).bind fun call _ hb hcall => .pure ⟨?_, hcall.2⟩
      have hargs := checkedExprs_iff.mp (checkedExprs_mono hb args hargs)
      exact checkedExprs_iff.mpr fun a ha => hargs a (hcall.1 a ha)
  | .binary type left right, chain, _ => by
      rw [bindExpr]
      refine (bindExpr_binds left chain _).bind fun l _ _ hl => ?_
      refine (bindExpr_binds right chain _).bind fun r _ hb hr => ?_
      refine (bindBinaryExpr_binds l r type).bind fun info _ hb' hinfo => ?_
      exact .pure ⟨checkedExpr_mono (hb.trans hb') l hl, checkedExpr_mono hb' r hr, hinfo⟩
  | .unary type expr, chain, _ => by
      rw [bindExpr]
      refine (bindExpr_binds expr chain _).bind fun e _ _ he => ?_
      refine (bindUnaryExpr_binds e type).bind fun info _ hb hinfo => ?_
      exact .pure ⟨checkedExpr_mono hb e he, hinfo⟩

theorem bindExprs_binds : ∀ (es : List (Ast.Expr String)) (chain : FieldSetChain)
    (b : FieldBinding), Binds names b (bindExprs chain es) fun b' es => CheckedExprs names b' es
  | [], _, _ => .pure trivial
  | e :: es, chain, _ => by
      rw [bindExprs]
      refine (bindExpr_binds e chain _).bind fun e _ _ he => ?_
      refine (bindExprs_binds es chain _).bind fun es _ hb hes => ?_
      exact .pure ⟨checkedExpr_mono hb e he, hes⟩

theorem bindExprOption_binds : ∀ (e : Option (Ast.Expr String)) (chain : FieldSetChain)
    (b : FieldBinding),
    Binds names b (bindExprOption chain e) fun b' e => CheckedExprOption names b' e
  | none, _, _ => .pure trivial
  | some e, chain, _ => by
      rw [bindExprOption]
      exact (bindExpr_binds e chain _).bind fun _ _ _ he => .pure he

theorem bindExprsOption_binds : ∀ (es : Option (List (Ast.Expr String))) (chain : FieldSetChain)
    (b : FieldBinding),
    Binds names b (bindExprsOption chain es) fun b' es => CheckedExprsOption names b' es
  | none, _, _ => .pure trivial
  | some es, chain, _ => by
      rw [bindExprsOption]
      exact (bindExprs_binds es chain _).bind fun _ _ _ hes => .pure hes

theorem bindProjector_binds : ∀ (p : Ast.Projector String) (chain : FieldSetChain)
    (b : FieldBinding), Binds names b (bindProjector chain p) fun b' p => p.Checked names b'
  | .star, _, _ => .pure trivial
  | .identifier identifier, chain, _ => by
      rw [bindProjector]
      refine (typeOfSourceField_binds identifier chain).bind fun type _ _ _ => ?_
      cases type with
      | none => exact .thrown
      | some type => exact Binds.added.bind fun _ _ _ _ => .pure trivial
  | .expr aliasName expr, chain, _ => by
      rw [bindProjector]
      refine (bindExpr_binds expr chain _).bind fun e _ _ he => ?_
      refine Binds.added.bind fun id _ hb hid => ?_
      exact .pure ⟨checkedExpr_mono hb e he, aliasName, hid⟩

theorem bindProjectors_binds : ∀ (ps : List (Ast.Projector String)) (chain : FieldSetChain)
    (b : FieldBinding),
    Binds names b (bindProjectors chain ps) fun b' ps => CheckedProjectors names b' ps
  | [], _, _ => .pure trivial
  | p :: ps, chain, _ => by
      rw [bindProjectors]
      refine (bindProjector_binds p chain _).bind fun p _ _ hp => ?_
      refine (bindProjectors_binds ps chain _).bind fun ps _ hb hps => ?_
      exact .pure ⟨checkedProjector_mono hb p hp, hps⟩

theorem bindProjectorsOption_binds : ∀ (ps : Option (List (Ast.Projector String)))
    (chain : FieldSetChain) (b : FieldBinding),
    Binds names b (bindProjectorsOption chain ps) fun b' ps => CheckedProjectorsOption names b' ps
  | none, _, _ => .pure trivial
  | some ps, chain, _ => by
      rw [bindProjectorsOption]
      exact (bindProjectors_binds ps chain _).bind fun _ _ _ hps => .pure hps

/-- **The relations that the binder returns are checked.** -/
theorem bindRelation_binds : ∀ (r : Ast.Relation String) (b : FieldBinding),
    Binds names b (bindRelation r) fun b' r => r.Checked names b'
  | .adhoc literals, _ => by
      rw [bindRelation]
      refine (bindLiterals_binds none literals).bind fun vs _ _ hvs => ?_
      exact Binds.added.bind fun id _ _ hid => .pure ⟨_, ⟨_, hid⟩, hvs⟩
  | .select projectors source limit whereCond having orderList orderDesc groupList, _ => by
      rw [bindRelation]
      refine (bindRelation_binds source _).bind fun source _ _ hsource => ?_
      refine (bindExprOption_binds whereCond _ _).bind fun whereCond _ hb₁ hwhere => ?_
      refine (checkWhere_binds whereCond).bind fun _ _ hb₂ _ => ?_
      refine (checkLimit_binds limit).bind fun _ _ hb₃ _ => ?_
      refine (bindProjectorsOption_binds groupList _ _).bind fun groupList b₄ hb₄ hgroup => ?_
      have hsource := checkedRelation_mono (((hb₁.trans hb₂).trans hb₃).trans hb₄) source hsource
      have hwhere := checkedExprOption_mono ((hb₂.trans hb₃).trans hb₄) whereCond hwhere
      -- what follows the two ways of binding the projectors
      have hrest : ∀ (parts : SelectParts) b₅, b₄.entries <+: b₅.entries →
          SelectShape (parts.projectors.any Projector.isStar) groupList.isSome parts.aggregate
              parts.having.isSome ∧ CheckedProjectors names b₅ parts.projectors ∧
            CheckedExprOption names b₅ parts.having →
          Binds names b₅ (do
            let orderList ← bindExprsOption parts.orderByVisible orderList
            checkOrderBy (orderList.getD [])
            pure (Bound.Relation.select parts.projectors source limit whereCond parts.having
              orderList orderDesc groupList parts.aggregate parts.fieldsOut))
            fun b' r => r.Checked names b' := by
        intro parts b₅ hb₅ hparts
        refine (bindExprsOption_binds orderList _ _).bind fun orderList _ hb₆ horder => ?_
        refine (checkOrderBy_binds _).bind fun _ _ hb₇ _ => .pure ?_
        have hb₅₇ := hb₆.trans hb₇
        have hb₄₇ := hb₅.trans hb₅₇
        exact ⟨hparts.1, checkedProjectors_mono hb₅₇ _ hparts.2.1,
          checkedRelation_mono hb₄₇ source hsource, checkedExprOption_mono hb₄₇ whereCond hwhere,
          checkedExprOption_mono hb₅₇ _ hparts.2.2,
          checkedExprsOption_mono hb₇ orderList horder,
          checkedProjectorsOption_mono hb₄₇ groupList hgroup⟩
      cases groupList with
      | none =>
          refine (bindProjectors_binds projectors _ _).bind fun projectors _ hb₅ hps => ?_
          refine (simpleSelect_binds _ projectors _).bind fun parts _ hb₆ hparts => ?_
          refine hrest parts _ (hb₅.trans hb₆) ?_
          rw [hparts.2.1, hparts.2.2]
          exact ⟨hparts.1, checkedProjectors_mono hb₆ projectors hps, trivial⟩
      | some groupKey =>
          refine (checkGroupKeys_binds groupKey).bind fun _ _ hb₅ _ => ?_
          refine (bindProjectors_binds projectors _ _).bind fun projectors _ hb₆ hps => ?_
          refine .required fun _ => (checkGroupedProjectors_binds _ projectors).bind
            fun _ _ hb₇ _ => ?_
          refine (bindExprOption_binds having _ _).bind fun having _ hb₈ hhaving => ?_
          refine (checkHaving_binds _ having).bind fun _ _ hb₉ _ => ?_
          have hb₇₉ := (hb₇.trans hb₈).trans hb₉
          exact hrest _ _ ((hb₅.trans hb₆).trans hb₇₉)
            ⟨⟨fun h => absurd h.symm Bool.false_ne_true, fun _ => rfl,
                fun h => absurd h.symm Bool.false_ne_true⟩,
              checkedProjectors_mono hb₇₉ projectors hps, checkedExprOption_mono hb₉ having hhaving⟩
  | .aliased _ source, _ => by
      rw [bindRelation]
      exact (bindRelation_binds source _).bind fun _ _ _ hsource => .pure hsource
  | .leftJoin left right condition, _ => by
      rw [bindRelation.eq_def]
      refine (bindRelation_binds left _).bind fun left _ _ hleft => ?_
      refine (bindRelation_binds right _).bind fun right _ hb₁ hright => ?_
      cases condition with
      | binary type first second =>
          cases type with
          | equal =>
              refine (bindExpr_binds first _ _).bind fun first _ hb₂ hfirst => ?_
              refine (bindExpr_binds second _ _).bind fun second _ hb₃ hsecond => ?_
              refine .required fun _ => (bindBinaryExpr_binds first second .equal).bind
                fun _ _ hb₄ _ => .pure ?_
              have hb₃₄ := hb₃.trans hb₄
              have hb₂₄ := hb₂.trans hb₃₄
              exact ⟨checkedRelation_mono (hb₁.trans hb₂₄) left hleft,
                checkedRelation_mono hb₂₄ right hright, checkedExpr_mono hb₃₄ first hfirst,
                checkedExpr_mono hb₄ second hsecond⟩
          | _ => exact .thrown
      | _ => exact .thrown
  | .unionAll left right, _ => by
      rw [bindRelation]
      refine (bindRelation_binds left _).bind fun left _ _ hleft => ?_
      refine (bindRelation_binds right _).bind fun right _ hb hright => ?_
      exact .pure ⟨checkedRelation_mono hb left hleft, hright⟩
  | .unionAllSortedBy left right orderList desc, _ => by
      rw [bindRelation]
      refine (bindRelation_binds left _).bind fun left _ _ hleft => ?_
      refine (bindRelation_binds right _).bind fun right _ hb hright => ?_
      refine (bindExprs_binds orderList _ _).bind fun orderList _ hb' horder => ?_
      exact .required fun _ => .pure ⟨checkedRelation_mono (hb.trans hb') left hleft,
        checkedRelation_mono hb' right hright, horder⟩
  | .file path range timeFormat, _ => by
      rw [bindRelation]
      refine (bindRange_binds path range).bind fun _ _ _ _ => ?_
      refine (bindTimeFormat_binds timeFormat).bind fun _ _ _ _ => ?_
      exact newOpen_binds.bind fun _ _ _ hf => .pure hf
  | .stream _, _ => by
      rw [bindRelation]
      exact newOpen_binds.bind fun _ _ _ hf => .pure hf
  | .namedRelationReference name, _ => by
      intro s r s' hnamed hb hrun
      rw [bindRelation] at hrun
      obtain ⟨t, s₁, hget, hrun⟩ := binder_bind_ok.mp hrun
      cases hget
      cases hlookup : s.named.lookup name with
      | none =>
          simp only [hlookup] at hrun
          cases hrun
      | some f =>
          simp only [hlookup] at hrun
          cases hrun
          exact ⟨hnamed, hb ▸ List.prefix_refl _, hnamed ▸ hlookup⟩
  | .materialize relation, _ => by
      rw [bindRelation]
      exact (bindRelation_binds relation _).bind fun _ _ _ hrelation => .pure hrelation

end

end Bind

/-! ### After the binding -/

section PostRun

variable [HashOrder] {names known : List (String × RelationFieldSet)} {b : FieldBinding}

theorem postRunIn_binds (expr : Bound.Expr) (matched : Bound.Relation) :
    Binds known b (postRunIn expr matched) fun _ _ => True :=
  (fields_binds _).bind fun _ _ _ _ => .required fun _ => (typeOf_binds _).bind fun _ _ _ _ =>
    .required fun _ => .pure trivial

omit [HashOrder] in
theorem requireDisjoint_binds (rightFields : FieldSet) (ids : List FieldId) :
    Binds known b (requireDisjoint rightFields ids) fun _ _ => True := by
  induction ids generalizing b with
  | nil => exact .pure trivial
  | cons id ids ih => exact (nameOf_binds id).bind fun _ _ _ _ => .required fun _ => ih

/-- The keys of a join may be swapped. -/
theorem postRunJoin_binds (left right : Bound.Relation) (leftKey rightKey : Bound.Expr) :
    Binds known b (postRunJoin left right leftKey rightKey) fun _ keys =>
      keys = (leftKey, rightKey) ∨ keys = (rightKey, leftKey) := by
  refine (fields_binds _).bind fun _ _ _ _ => (fields_binds _).bind fun _ _ _ _ => ?_
  refine (requireDisjoint_binds _ _).bind fun _ _ _ _ => .required fun _ => .pure ?_
  split
  · exact .inl rfl
  · exact .inr rfl

mutual

theorem postRunExpr_binds : ∀ (e : Bound.Expr) (b : FieldBinding), e.Checked names b →
    Binds known b (postRunExpr e) fun b' e' => e'.Checked names b' ∧ e'.valueType = e.valueType
  | .identifier _ _, _, he => .pure ⟨he, rfl⟩
  | .value _ _, _, he => .pure ⟨he, rfl⟩
  | .inMatch expr matched _ info, _, he => by
      rw [postRunExpr]
      refine (postRunExpr_binds expr _ he.1).bind fun expr _ hb hexpr => ?_
      refine (postRunRelation_binds matched _ (checkedRelation_mono hb matched he.2.1)).bind
        fun matched _ hb' hmatched => ?_
      refine (postRunIn_binds expr matched).bind fun _ _ hb'' _ => .pure ⟨⟨?_, ?_, he.2.2⟩, rfl⟩
      · exact checkedExpr_mono (hb'.trans hb'') expr hexpr.1
      · exact checkedRelation_mono hb'' matched hmatched.1
  | .fnCall func args info, _, he => by
      rw [postRunExpr]
      refine (postRunExprs_binds args _ he.1).bind fun args _ _ hargs => .pure ⟨⟨hargs.1, ?_⟩, rfl⟩
      rw [hargs.2]
      exact he.2
  | .like expr regex info, _, he => by
      rw [postRunExpr]
      refine (postRunExpr_binds expr _ he.1).bind fun expr _ _ hexpr => .pure ⟨⟨hexpr.1, ?_⟩, rfl⟩
      rw [hexpr.2]
      exact he.2
  | .binary type left right info, _, he => by
      rw [postRunExpr]
      refine (postRunExpr_binds left _ he.1).bind fun left _ hb hleft => ?_
      refine (postRunExpr_binds right _ (checkedExpr_mono hb right he.2.1)).bind
        fun right _ hb' hright => .pure ⟨⟨checkedExpr_mono hb' left hleft.1, hright.1, ?_⟩, rfl⟩
      rw [hleft.2, hright.2]
      exact he.2.2
  | .unary type expr info, _, he => by
      rw [postRunExpr]
      refine (postRunExpr_binds expr _ he.1).bind fun expr _ _ hexpr => .pure ⟨⟨hexpr.1, ?_⟩, rfl⟩
      rw [hexpr.2]
      exact he.2

theorem postRunExprs_binds : ∀ (es : List Bound.Expr) (b : FieldBinding), CheckedExprs names b es →
    Binds known b (postRunExprs es) fun b' es' =>
      CheckedExprs names b' es' ∧ es'.map Bound.Expr.valueType = es.map Bound.Expr.valueType
  | [], _, _ => .pure ⟨trivial, rfl⟩
  | e :: es, _, hes => by
      rw [postRunExprs]
      refine (postRunExpr_binds e _ hes.1).bind fun e _ hb he => ?_
      refine (postRunExprs_binds es _ (checkedExprs_mono hb es hes.2)).bind fun es _ hb' hes =>
        .pure ⟨⟨checkedExpr_mono hb' e he.1, hes.1⟩, ?_⟩
      rw [List.map_cons, List.map_cons, he.2, hes.2]

theorem postRunExprOption_binds : ∀ (e : Option Bound.Expr) (b : FieldBinding),
    CheckedExprOption names b e →
    Binds known b (postRunExprOption e) fun b' e' =>
      CheckedExprOption names b' e' ∧ e'.isSome = e.isSome
  | none, _, _ => .pure ⟨trivial, rfl⟩
  | some e, _, he => by
      rw [postRunExprOption]
      exact (postRunExpr_binds e _ he).bind fun _ _ _ he => .pure ⟨he.1, rfl⟩

theorem postRunExprsOption_binds : ∀ (es : Option (List Bound.Expr)) (b : FieldBinding),
    CheckedExprsOption names b es →
    Binds known b (postRunExprsOption es) fun b' es' => CheckedExprsOption names b' es'
  | none, _, _ => .pure trivial
  | some es, _, hes => by
      rw [postRunExprsOption]
      exact (postRunExprs_binds es _ hes).bind fun _ _ _ hes => .pure hes.1

theorem postRunProjector_binds : ∀ (p : Bound.Projector) (b : FieldBinding), p.Checked names b →
    Binds known b (postRunProjector p) fun b' p' => p'.Checked names b' ∧ p'.isStar = p.isStar
  | .star, _, _ => .pure ⟨trivial, rfl⟩
  | .identifier _, _, _ => .pure ⟨trivial, rfl⟩
  | .expr id e, _, hp => by
      rw [postRunProjector]
      refine (postRunExpr_binds e _ hp.1).bind fun e' _ hb he => .pure ⟨⟨he.1, ?_⟩, rfl⟩
      rw [he.2]
      exact hp.2.mono hb

theorem postRunProjectors_binds : ∀ (ps : List Bound.Projector) (b : FieldBinding),
    CheckedProjectors names b ps →
    Binds known b (postRunProjectors ps) fun b' ps' =>
      CheckedProjectors names b' ps' ∧ ps'.any Projector.isStar = ps.any Projector.isStar
  | [], _, _ => .pure ⟨trivial, rfl⟩
  | p :: ps, _, hps => by
      rw [postRunProjectors]
      refine (postRunProjector_binds p _ hps.1).bind fun p _ hb hp => ?_
      refine (postRunProjectors_binds ps _ (checkedProjectors_mono hb ps hps.2)).bind
        fun ps _ hb' hps => .pure ⟨⟨checkedProjector_mono hb' p hp.1, hps.1⟩, ?_⟩
      rw [List.any_cons, List.any_cons, hp.2, hps.2]

theorem postRunProjectorsOption_binds : ∀ (ps : Option (List Bound.Projector)) (b : FieldBinding),
    CheckedProjectorsOption names b ps →
    Binds known b (postRunProjectorsOption ps) fun b' ps' =>
      CheckedProjectorsOption names b' ps' ∧ ps'.isSome = ps.isSome
  | none, _, _ => .pure ⟨trivial, rfl⟩
  | some ps, _, hps => by
      rw [postRunProjectorsOption]
      exact (postRunProjectors_binds ps _ hps).bind fun _ _ _ hps => .pure ⟨hps.1, rfl⟩

/-- What runs after the binding keeps a relation checked, and its field set. -/
theorem postRunRelation_binds : ∀ (r : Bound.Relation) (b : FieldBinding), r.Checked names b →
    Binds known b (postRunRelation r) fun b' r' =>
      r'.Checked names b' ∧ r'.fieldsOut = r.fieldsOut
  | .adhoc _ _ _, _, hr => .pure ⟨hr, rfl⟩
  | .select projectors source limit whereCond having orderList orderDesc groupList aggregate f, _,
      hr => by
      obtain ⟨hshape, hps, hsource, hwhere, hhaving, horder, hgroup⟩ := hr
      rw [postRunRelation]
      refine (postRunProjectors_binds projectors _ hps).bind fun projectors _ hb₁ hps => ?_
      refine (postRunRelation_binds source _ (checkedRelation_mono hb₁ source hsource)).bind
        fun source _ hb₂ hsource => ?_
      have hb₁₂ := hb₁.trans hb₂
      refine (postRunExprOption_binds whereCond _ (checkedExprOption_mono hb₁₂ whereCond hwhere)).bind
        fun whereCond _ hb₃ hwhere => ?_
      have hb₁₃ := hb₁₂.trans hb₃
      refine (postRunExprOption_binds having _ (checkedExprOption_mono hb₁₃ having hhaving)).bind
        fun having _ hb₄ hhaving => ?_
      have hb₁₄ := hb₁₃.trans hb₄
      refine (postRunExprsOption_binds orderList _
        (checkedExprsOption_mono hb₁₄ orderList horder)).bind fun orderList _ hb₅ horder => ?_
      have hb₁₅ := hb₁₄.trans hb₅
      refine (postRunProjectorsOption_binds groupList _
        (checkedProjectorsOption_mono hb₁₅ groupList hgroup)).bind fun groupList _ hb₆ hgroup => ?_
      have hb₅₆ := hb₅.trans hb₆
      have hb₄₆ := hb₄.trans hb₅₆
      have hb₃₆ := hb₃.trans hb₄₆
      rw [← hps.2, ← hgroup.2, ← hhaving.2] at hshape
      exact .pure ⟨⟨hshape, checkedProjectors_mono (hb₂.trans hb₃₆) projectors hps.1,
        checkedRelation_mono hb₃₆ source hsource.1, checkedExprOption_mono hb₄₆ whereCond hwhere.1,
        checkedExprOption_mono hb₅₆ having hhaving.1, checkedExprsOption_mono hb₆ orderList horder,
        hgroup.1⟩, rfl⟩
  | .aliased _ source _, _, hr => by
      rw [postRunRelation]
      exact (postRunRelation_binds source _ hr).bind fun _ _ _ hsource => .pure ⟨hsource.1, rfl⟩
  | .unionAll left right _, _, hr => by
      rw [postRunRelation]
      refine (postRunRelation_binds left _ hr.1).bind fun left _ hb hleft => ?_
      refine (postRunRelation_binds right _ (checkedRelation_mono hb right hr.2)).bind
        fun right _ hb' hright => .pure ⟨⟨checkedRelation_mono hb' left hleft.1, hright.1⟩, rfl⟩
  | .leftJoin left right leftKey rightKey _, _, hr => by
      obtain ⟨hleft, hright, hleftKey, hrightKey⟩ := hr
      rw [postRunRelation]
      refine (postRunRelation_binds left _ hleft).bind fun left _ hb₁ hleft => ?_
      refine (postRunRelation_binds right _ (checkedRelation_mono hb₁ right hright)).bind
        fun right _ hb₂ hright => ?_
      have hb₁₂ := hb₁.trans hb₂
      refine (postRunExpr_binds leftKey _ (checkedExpr_mono hb₁₂ leftKey hleftKey)).bind
        fun leftKey _ hb₃ hleftKey => ?_
      refine (postRunExpr_binds rightKey _
        (checkedExpr_mono (hb₁₂.trans hb₃) rightKey hrightKey)).bind fun rightKey _ hb₄ hrightKey => ?_
      refine (postRunJoin_binds left right leftKey rightKey).bind fun keys _ hb₅ hkeys => .pure ?_
      have hb₄₅ := hb₄.trans hb₅
      have hb₃₅ := hb₃.trans hb₄₅
      have hleft := checkedRelation_mono (hb₂.trans hb₃₅) left hleft.1
      have hright := checkedRelation_mono hb₃₅ right hright.1
      have hleftKey := checkedExpr_mono hb₄₅ leftKey hleftKey.1
      have hrightKey := checkedExpr_mono hb₅ rightKey hrightKey.1
      rcases hkeys with rfl | rfl
      · exact ⟨⟨hleft, hright, hleftKey, hrightKey⟩, rfl⟩
      · exact ⟨⟨hleft, hright, hrightKey, hleftKey⟩, rfl⟩
  | .unionAllSortedBy left right orderList desc _, _, hr => by
      rw [postRunRelation]
      refine (postRunRelation_binds left _ hr.1).bind fun left _ hb₁ hleft => ?_
      refine (postRunRelation_binds right _ (checkedRelation_mono hb₁ right hr.2.1)).bind
        fun right _ hb₂ hright => ?_
      refine (postRunExprs_binds orderList _
        (checkedExprs_mono (hb₁.trans hb₂) orderList hr.2.2)).bind fun orderList _ hb₃ horder => ?_
      exact .pure ⟨⟨checkedRelation_mono (hb₂.trans hb₃) left hleft.1,
        checkedRelation_mono hb₃ right hright.1, horder.1⟩, rfl⟩
  | .file _ _ _ _, _, hr => .pure ⟨hr, rfl⟩
  | .stream _ _, _, hr => .pure ⟨hr, rfl⟩
  | .namedRelationReference _ _, _, hr => .pure ⟨hr, rfl⟩
  | .materialize relation _, _, hr => by
      rw [postRunRelation]
      exact (postRunRelation_binds relation _ hr).bind fun _ _ _ hrelation => .pure ⟨hrelation.1, rfl⟩

end

end PostRun

/-! ### Programs -/

namespace Bound

/-- Statements whose relations are checked, with the field sets of the relations that have been named
before. -/
def CheckedStatements (b : FieldBinding) :
    List (String × RelationFieldSet) → List Statement → Prop
  | _, [] => True
  | names, .namedRelation name r :: ss =>
    r.Checked names b ∧ CheckedStatements b (names ++ [(name, r.fieldsOut)]) ss
  | names, .query r :: ss => r.Checked names b ∧ CheckedStatements b names ss

theorem CheckedStatements.mono {b b' : FieldBinding} (h : b.entries <+: b'.entries)
    {names : List (String × RelationFieldSet)} {ss : List Statement}
    (hss : CheckedStatements b names ss) : CheckedStatements b' names ss := by
  induction ss generalizing names with
  | nil => trivial
  | cons s ss ih =>
      cases s with
      | namedRelation name r => exact ⟨checkedRelation_mono h r hss.1, ih hss.2⟩
      | query r => exact ⟨checkedRelation_mono h r hss.1, ih hss.2⟩

end Bound

section Programs

variable [HashOrder]

theorem postRun_checked {names : List (String × RelationFieldSet)}
    {statements statements' : List Bound.Statement} {s s' : BindState}
    (hss : CheckedStatements s.binding names statements)
    (h : postRun statements s = .ok (statements', s')) :
    s.binding.entries <+: s'.binding.entries ∧
      CheckedStatements s'.binding names statements' := by
  induction statements generalizing names statements' s with
  | nil =>
      cases h
      exact ⟨List.prefix_refl _, trivial⟩
  | cons statement statements ih =>
      cases statement with
      | namedRelation name r =>
          obtain ⟨r', t, hr, h⟩ := binder_bind_ok.mp h
          obtain ⟨rest, u, hrest, h⟩ := binder_bind_ok.mp h
          cases h
          obtain ⟨-, hb, hr'⟩ := postRunRelation_binds r _ hss.1 s r' t rfl rfl hr
          obtain ⟨hb', hrest'⟩ := ih (hss.2.mono hb) hrest
          refine ⟨hb.trans hb', checkedRelation_mono hb' r' hr'.1, ?_⟩
          rw [hr'.2]
          exact hrest'
      | query r =>
          obtain ⟨r', t, hr, h⟩ := binder_bind_ok.mp h
          obtain ⟨rest, u, hrest, h⟩ := binder_bind_ok.mp h
          cases h
          obtain ⟨-, hb, hr'⟩ := postRunRelation_binds r _ hss.1 s r' t rfl rfl hr
          obtain ⟨hb', hrest'⟩ := ih (hss.2.mono hb) hrest
          exact ⟨hb.trans hb', checkedRelation_mono hb' r' hr'.1, hrest'⟩

variable [Platform]

theorem bindStatements_checked {program : Ast.Program String} {statements : List Bound.Statement}
    {s s' : BindState} (h : bindStatements program s = .ok (statements, s')) :
    s.binding.entries <+: s'.binding.entries ∧
      CheckedStatements s'.binding s.named statements := by
  induction program generalizing statements s with
  | nil =>
      cases h
      exact ⟨List.prefix_refl _, trivial⟩
  | cons statement program ih =>
      obtain ⟨first, t, hfirst, h⟩ := binder_bind_ok.mp h
      obtain ⟨rest, u, hrest, h⟩ := binder_bind_ok.mp h
      cases h
      cases statement with
      | macroDefinition name params body => cases hfirst
      | query relation =>
          obtain ⟨r, t', hr, hfirst⟩ := binder_bind_ok.mp hfirst
          cases hfirst
          obtain ⟨hnamed, hb, hr'⟩ := bindRelation_binds relation _ s r t rfl rfl hr
          obtain ⟨hb', hrest'⟩ := ih hrest
          refine ⟨hb.trans hb', checkedRelation_mono hb' r hr', ?_⟩
          rw [← hnamed]
          exact hrest'
      | namedRelation name relation =>
          obtain ⟨r, t', hr, hfirst⟩ := binder_bind_ok.mp hfirst
          obtain ⟨hnamed, hb, hr'⟩ := bindRelation_binds relation _ s r t' rfl rfl hr
          obtain ⟨state, t'', hget, hfirst⟩ := binder_bind_ok.mp hfirst
          cases hget
          obtain ⟨_, t'', hrequire, hfirst⟩ := binder_bind_ok.mp hfirst
          cases requireAt_state hrequire
          obtain ⟨_, t'', hset, hfirst⟩ := binder_bind_ok.mp hfirst
          cases hset
          cases hfirst
          obtain ⟨hb', hrest'⟩ := ih hrest
          refine ⟨hb.trans hb', checkedRelation_mono hb' r hr', ?_⟩
          rw [← hnamed]
          exact hrest'

/-- **The types of a bound program have been checked.** -/
theorem bind_checked {program : Ast.Program String} {statements : List Bound.Statement}
    {bound : BindState} (h : bind program = .ok (statements, bound)) :
    CheckedStatements bound.binding [] statements := by
  obtain ⟨expanded, -, h⟩ := bind_eq_ok.mp h
  obtain ⟨statements₀, t, hbind, hpost⟩ := binder_bind_ok.mp h
  exact (postRun_checked (bindStatements_checked hbind).2 hpost).2

end Programs

end Front

end Lsql
