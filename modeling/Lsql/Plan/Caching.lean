import Lsql.Exec.Context
import Lsql.Ir.ScalarHash
import Lsql.Plan.Planner

/-!
# Lsql.Plan.Caching

The values of cached scalars in the slots of a scope.

A slot belongs to one scalar of the scope and to all scalars that are equal to it; the first of them
that is evaluated on a record fills it, and the others read it. `Slots` is what holds of a context
between two evaluations. It gives every scalar its own value as long as equal scalars have the same
value on the record (`Agree`); `0.0 == -0.0`, so that equal scalars may differ.
-/

namespace Lsql.Plan

open Lsql.Exec (Scalar Record ScalarContext)

/-! ### Evaluation with slots -/

/-- A record as the scalars of the intermediate representation read it. -/
def fieldsOf (schema : Schema) (record : Record) (id : FieldId) : Except Fault Value :=
  match schema.slot id with
  | some slot => record.get slot
  | none => .error (.panic "verify(slot.has_value()) failed ")

/-- An evaluation in a context, against a value: `P` holds of the context behind it. -/
def Gives {α : Type} (P : ScalarContext → Prop) :
    Except Fault α → Except Fault (α × ScalarContext) → Prop
  | .ok a, .ok (b, ctx) => b = a ∧ P ctx
  | .error e, .error f => f = e
  | _, _ => False

section Gives

variable {α β : Type} {P : ScalarContext → Prop} {x : Except Fault α}
  {y : Except Fault (α × ScalarContext)}

theorem Gives.pure {a : α} {ctx : ScalarContext} (h : P ctx) :
    Gives P (.ok a) (.ok (a, ctx)) := ⟨rfl, h⟩

theorem Gives.bind {f : α → Except Fault β}
    {g : α × ScalarContext → Except Fault (β × ScalarContext)} (h : Gives P x y)
    (hfg : ∀ a ctx, x = .ok a → P ctx → Gives P (f a) (g (a, ctx))) :
    Gives P (x >>= f) (y >>= g) := by
  cases x with
  | error e =>
      cases y with
      | error e' => exact h
      | ok p => exact h.elim
  | ok a =>
      cases y with
      | error e => exact h.elim
      | ok p =>
          obtain ⟨b, ctx⟩ := p
          obtain ⟨rfl, hctx⟩ := h
          exact hfg b ctx rfl hctx

/-- A step that only changes the context. -/
theorem Gives.store {g : α → ScalarContext → ScalarContext} (h : Gives P x y)
    (hg : ∀ a ctx, x = .ok a → P ctx → P (g a ctx)) :
    Gives P x (y >>= fun p => .ok (p.1, g p.1 p.2)) := by
  have hbind := h.bind (f := .ok) (g := fun p => .ok (p.1, g p.1 p.2)) fun a ctx ha hctx =>
    .pure (hg a ctx ha hctx)
  cases x with
  | error e => exact hbind
  | ok a => exact hbind

/-- A step that leaves the context alone. -/
theorem Gives.lift (x : Except Fault α) {ctx : ScalarContext} (h : P ctx) :
    Gives P x (x >>= fun a => .ok (a, ctx)) := by
  cases x with
  | error e => exact rfl
  | ok a => exact .pure h

end Gives

/-! ### The scalars that are evaluated -/

section Uses

variable [Platform] (fields : FieldId → Except Fault Value)

mutual

/-- The cached scalars whose values an evaluation without slots computes on the way. -/
def uses : Ir.Scalar → List Ir.Scalar
  | .field _ _ => []
  | .value _ _ => []
  | .coalesce args _ => usesFirst args
  | .fnCall _ args _ => usesAll args
  | .cached s _ => s :: uses s

/-- The alternatives of a `coalesce`, up to the first that is not null. -/
def usesFirst : List Ir.Scalar → List Ir.Scalar
  | [] => []
  | a :: as => uses a ++ if (a.eval fields).toOption = some .null then usesFirst as else []

def usesAll : List Ir.Scalar → List Ir.Scalar
  | [] => []
  | a :: as => uses a ++ usesAll as

end

/-- Scalars that may share a slot have the same value. -/
def Agree (used : List Ir.Scalar) : Prop :=
  ∀ s ∈ used, ∀ s' ∈ used, s.equal s' = true → s.eval fields = s'.eval fields

theorem mem_usesAll {args : List Ir.Scalar} {s : Ir.Scalar} :
    s ∈ usesAll fields args ↔ ∃ a ∈ args, s ∈ uses fields a := by
  induction args with
  | nil => simp [usesAll]
  | cons a as ih => simp [usesAll, ih]

end Uses

/-! ### Scopes -/

/-- A scope later in the planning: it has more slots. -/
def ScalarScope.Later (a b : ScalarScope) : Prop := a.expressions <+: b.expressions

/-- The slots are numbered in the order in which they were added. -/
structure ScalarScope.Numbered (scope : ScalarScope) : Prop where
  context : scope.context = List.replicate scope.expressions.length none
  ids : scope.expressions.map Prod.snd = List.range scope.expressions.length

namespace ScalarScope

theorem Later.refl (a : ScalarScope) : a.Later a := List.prefix_rfl

theorem Later.trans {a b c : ScalarScope} (h : a.Later b) (h' : b.Later c) : a.Later c :=
  List.IsPrefix.trans h h'

theorem numbered_empty : empty.Numbered := ⟨rfl, rfl⟩

theorem Numbered.length_context {scope : ScalarScope} (h : scope.Numbered) :
    scope.context.length = scope.expressions.length := by
  rw [h.context, List.length_replicate]

theorem Numbered.getElem? {scope : ScalarScope} (h : scope.Numbered) {e : Ir.Scalar × Nat}
    (he : e ∈ scope.expressions) : scope.expressions[e.2]? = some e := by
  obtain ⟨i, hi, rfl⟩ := List.getElem_of_mem he
  have hid : (scope.expressions.map Prod.snd)[i]? = some i := by
    rw [h.ids, List.getElem?_range hi]
  rw [List.getElem?_map, List.getElem?_eq_getElem hi] at hid
  rw [Option.some.inj hid, List.getElem?_eq_getElem hi]

theorem Numbered.lt {scope : ScalarScope} (h : scope.Numbered) {e : Ir.Scalar × Nat}
    (he : e ∈ scope.expressions) : e.2 < scope.expressions.length :=
  (List.getElem?_eq_some_iff.mp (h.getElem? he)).1

/-- A slot belongs to one scalar. -/
theorem Numbered.unique {scope : ScalarScope} (h : scope.Numbered) {s s' : Ir.Scalar} {id : Nat}
    (hs : (s, id) ∈ scope.expressions) (hs' : (s', id) ∈ scope.expressions) : s = s' := by
  have heq : some (s, id) = some (s', id) := (h.getElem? hs).symm.trans (h.getElem? hs')
  cases heq
  rfl

/-- A slot that a scalar has been given in a scope. -/
def Holds (scope : ScalarScope) (id : Nat) (s : Ir.Scalar) : Prop :=
  ∃ shared, (shared, id) ∈ scope.expressions ∧ (shared = s ∨ shared.equal s = true)

theorem Holds.later {a b : ScalarScope} (h : a.Later b) {id : Nat} {s : Ir.Scalar}
    (hs : a.Holds id s) : b.Holds id s := by
  obtain ⟨shared, hmem, heq⟩ := hs
  exact ⟨shared, h.subset hmem, heq⟩

theorem slot_spec (scope : ScalarScope) (s : Ir.Scalar) :
    scope.Later (scope.slot s).2 ∧ (scope.Numbered → (scope.slot s).2.Numbered) ∧
      (scope.slot s).2.Holds (scope.slot s).1 s := by
  unfold slot
  split
  next e he =>
    have hequal := List.find?_some he
    exact ⟨.refl scope, fun h => h, e.1, List.mem_of_find?_eq_some he, .inr hequal⟩
  next hnone =>
    refine ⟨List.prefix_append _ _, fun h => ⟨?_, ?_⟩, s, by simp, .inl rfl⟩
    · rw [List.length_append, List.length_singleton, List.replicate_succ', h.context]
    · rw [List.map_append, h.ids, List.length_append, List.length_singleton, List.range_succ,
        List.map_singleton, h.context, List.length_replicate]

/-- Scalars with the same slot have the same value if equal scalars have. -/
theorem Holds.eval_eq [Platform] {scope : ScalarScope} (h : scope.Numbered) {id : Nat}
    {s s' : Ir.Scalar} {fields : FieldId → Except Fault Value} {used : List Ir.Scalar}
    (hagree : Agree fields used) (hs : scope.Holds id s) (hs' : scope.Holds id s')
    (hmem : s ∈ used) (hmem' : s' ∈ used) : s.eval fields = s'.eval fields := by
  obtain ⟨shared, hshared, heq⟩ := hs
  obtain ⟨shared', hshared', heq'⟩ := hs'
  cases h.unique hshared hshared'
  rcases heq with rfl | heq <;> rcases heq' with rfl | heq'
  · rfl
  · exact hagree _ hmem _ hmem' heq'
  · exact (hagree _ hmem' _ hmem heq).symm
  · exact hagree _ hmem _ hmem' (Ir.Scalar.equal_trans (s.equal_symm shared ▸ heq) heq')

end ScalarScope

/-- Between two evaluations on a record: a slot that is filled holds the value of the scalars that it
belongs to. -/
structure Slots [Platform] (scope : ScalarScope) (fields : FieldId → Except Fault Value)
    (used : List Ir.Scalar) (ctx : ScalarContext) : Prop where
  length : ctx.length = scope.expressions.length
  filled : ∀ id v, ctx[id]? = some (some v) →
    ∃ s ∈ used, scope.Holds id s ∧ s.eval fields = .ok v

section Slots

variable [Platform] {scope : ScalarScope} {fields : FieldId → Except Fault Value}
  {used : List Ir.Scalar} {ctx : ScalarContext}

/-- A context that has been reset. -/
theorem slots_reset (h : ctx.length = scope.expressions.length) :
    Slots scope fields used ctx.reset where
  length := by rw [ScalarContext.reset_eq, List.length_replicate, h]
  filled id v hv := by
    rw [ScalarContext.reset_eq, List.getElem?_replicate] at hv
    split at hv
    · cases hv
    · cases hv

theorem Slots.set (h : Slots scope fields used ctx) {id : Nat} {s : Ir.Scalar} {v : Value}
    (hs : scope.Holds id s) (hmem : s ∈ used) (hv : s.eval fields = .ok v) :
    Slots scope fields used (ctx.set id (some v)) where
  length := by rw [List.length_set, h.length]
  filled i w hw := by
    rw [List.getElem?_set] at hw
    split at hw
    next heq =>
      split at hw
      · cases hw
        exact heq ▸ ⟨s, hmem, hs, hv⟩
      · cases hw
    · exact h.filled i w hw

end Slots

/-! ### Planned scalars -/

section Tracks

variable [Platform] (fields : FieldId → Except Fault Value) (record : Record)
  (P : ScalarContext → Prop) (used : List Ir.Scalar)

/-- A planned scalar gives the value of the scalar that it is planned from, where `P` holds of the
context. -/
def Tracks (s : Ir.Scalar) (e : Scalar) : Prop :=
  uses fields s ⊆ used → ∀ ctx, P ctx → Gives P (s.eval fields) (e.eval record ctx)

variable {fields record P used} {args : List Ir.Scalar} {es : List Scalar} {ctx : ScalarContext}

theorem Tracks.evalAll (h : List.Forall₂ (Tracks fields record P used) args es)
    (hused : usesAll fields args ⊆ used) (hctx : P ctx) :
    Gives P (Ir.Scalar.evalAll fields args) (Scalar.evalAll record es ctx) := by
  induction h generalizing ctx with
  | nil => exact .pure hctx
  | @cons a e as es hae _ ih =>
      rw [usesAll, List.append_subset] at hused
      refine (hae hused.1 ctx hctx).bind fun v ctx₁ _ hctx₁ => ?_
      exact (ih hused.2 hctx₁).bind fun vs ctx₂ _ hctx₂ => .pure hctx₂

theorem Tracks.evalFirst (h : List.Forall₂ (Tracks fields record P used) args es)
    (hused : usesFirst fields args ⊆ used) (hctx : P ctx) :
    Gives P (Ir.Scalar.evalFirst fields args) (Scalar.evalFirst record es ctx) := by
  induction h generalizing ctx with
  | nil => exact .pure hctx
  | @cons a e as es hae _ ih =>
      rw [usesFirst, List.append_subset] at hused
      refine (hae hused.1 ctx hctx).bind fun v ctx₁ hv hctx₁ => ?_
      rw [hv] at hused
      change Gives P (if v.isNull then _ else _) (if v.isNull then _ else _)
      split
      next hnull =>
        refine ih ?_ hctx₁
        rw [Value.isNull_iff.mp hnull] at hused
        exact hused.2
      · exact .pure hctx₁

/-- A call on planned arguments. -/
theorem Tracks.call {f : Function} {t : ValueType} {call : Scalar}
    (h : List.Forall₂ (Tracks fields record P used) args es)
    (hcall : planCall f t es = .ok call) : Tracks fields record P used (.fnCall f args t) call := by
  intro hused ctx hctx
  have hall := Tracks.evalAll h hused hctx
  obtain ⟨executor, hexecutor, hrest⟩ := bind_eq_ok.mp hcall
  have happly : ∀ vs, f.apply vs = executor.execute vs := by
    intro vs
    rw [Function.apply, hexecutor, ok_bind]
  rw [Ir.Scalar.eval]
  cases executor with
  | nary execute =>
      cases hrest
      exact hall.bind fun vs ctx₁ _ hctx₁ => by
        rw [happly]
        exact .lift _ hctx₁
  | unary execute =>
      rcases h with _ | @⟨a, arg, _, _, ha, _ | _⟩
      · cases hrest
      · cases hrest
        rw [uses, usesAll, usesAll, List.append_nil] at hused
        simp only [Ir.Scalar.evalAll, bind_assoc, ok_bind, pure_eq_ok, happly]
        exact (ha hused ctx hctx).bind fun v ctx₁ _ hctx₁ => .lift _ hctx₁
      · cases hrest
  | binary execute =>
      rcases h with _ | @⟨a, left, _, _, ha, _ | @⟨b, right, _, _, hb, _ | _⟩⟩
      · cases hrest
      · cases hrest
      · cases hrest
        rw [uses, usesAll, usesAll, usesAll, List.append_nil, List.append_subset] at hused
        simp only [Ir.Scalar.evalAll, bind_assoc, ok_bind, pure_eq_ok, happly]
        refine (ha hused.1 ctx hctx).bind fun v ctx₁ _ hctx₁ => ?_
        exact (hb hused.2 ctx₁ hctx₁).bind fun w ctx₂ _ hctx₂ => .lift _ hctx₂
      · cases hrest

end Tracks

/-! ### Planning with a scope -/

section Planning

variable [Platform] {schema : Schema}

/-- A scope later in the planning: it has more slots. -/
def LaterScope : Option ScalarScope → Option ScalarScope → Prop
  | none, none => True
  | some a, some b => a.Later b
  | _, _ => False

/-- What a planned scalar needs of the contexts that it is evaluated in: nothing where it was planned
without a scope. -/
def Fits (schema : Schema) (scope : Option ScalarScope) (record : Record) (used : List Ir.Scalar)
    (P : ScalarContext → Prop) : Prop :=
  match scope with
  | none => True
  | some scope => scope.Numbered ∧ Agree (fieldsOf schema record) used ∧
      P = Slots scope (fieldsOf schema record) used

/-- A scalar and what it is planned as. -/
def TracksIn (schema : Schema) (scope : Option ScalarScope) (s : Ir.Scalar) (e : Scalar) : Prop :=
  ∀ record used P, Fits schema scope record used P →
    Tracks (fieldsOf schema record) record P used s e

/-- Planning adds slots, and `Good` holds of every later scope. -/
structure PlansTo (scope out : Option ScalarScope) (Good : Option ScalarScope → Prop) : Prop where
  later : LaterScope scope out
  numbered : (∀ s ∈ scope, s.Numbered) → ∀ s ∈ out, s.Numbered
  good : ∀ final, LaterScope out final → Good final

section PlansTo

variable {scope out out' : Option ScalarScope} {Good Good' : Option ScalarScope → Prop}

omit [Platform]

theorem LaterScope.refl (scope : Option ScalarScope) : LaterScope scope scope := by
  cases scope with
  | none => trivial
  | some s => exact ScalarScope.Later.refl s

theorem LaterScope.trans {a b c : Option ScalarScope} (h : LaterScope a b) (h' : LaterScope b c) :
    LaterScope a c := by
  cases a <;> cases b <;> cases c <;> first
    | trivial
    | exact h.elim
    | exact h'.elim
    | exact ScalarScope.Later.trans h h'

theorem PlansTo.here (h : ∀ final, LaterScope scope final → Good final) :
    PlansTo scope scope Good :=
  ⟨.refl scope, fun h => h, h⟩

theorem PlansTo.next (h : PlansTo scope out Good) (h' : PlansTo out out' Good') :
    PlansTo scope out' fun final => Good final ∧ Good' final where
  later := h.later.trans h'.later
  numbered hscope := h'.numbered (h.numbered hscope)
  good final hfinal := ⟨h.good final (h'.later.trans hfinal), h'.good final hfinal⟩

theorem PlansTo.mono (h : PlansTo scope out Good) (hgood : ∀ final, Good final → Good' final) :
    PlansTo scope out Good' :=
  ⟨h.later, h.numbered, fun final hfinal => hgood final (h.good final hfinal)⟩

/-- Planning with a scope of its own. -/
theorem PlansTo.fresh (h : PlansTo (some .empty) out Good) :
    ∃ scope, out = some scope ∧ scope.Numbered ∧ Good (some scope) := by
  cases out with
  | none => exact h.later.elim
  | some scope =>
      refine ⟨scope, rfl, ?_, h.good _ (.refl _)⟩
      exact h.numbered (fun s hs => Option.mem_some_iff.mp hs ▸ ScalarScope.numbered_empty) scope rfl

/-- Planning without a scope. -/
theorem PlansTo.plain (h : PlansTo none out Good) : Good none := by
  cases out with
  | none => exact h.good none trivial
  | some scope => exact h.later.elim

end PlansTo

section Lists

variable {scope out : Option ScalarScope}

theorem expressionList_tracks_of {list : List Ir.Scalar} {es : List Scalar}
    (ih : ∀ s ∈ list, ∀ {scope out e}, planScalar schema s scope = .ok (e, out) →
      PlansTo scope out fun final => TracksIn schema final s e)
    (h : expressionList schema list scope = .ok (es, out)) :
    PlansTo scope out fun final => List.Forall₂ (TracksIn schema final) list es := by
  induction list generalizing scope es with
  | nil =>
      cases h
      exact .here fun _ _ => .nil
  | cons s list ihs =>
      obtain ⟨⟨e, out₁⟩, hs, hrest⟩ := bind_eq_ok.mp h
      obtain ⟨⟨es', out₂⟩, hlist, hes⟩ := bind_eq_ok.mp hrest
      cases hes
      exact ((ih s List.mem_cons_self hs).next
        (ihs (fun t ht => ih t (List.mem_cons_of_mem _ ht)) hlist)).mono
          fun _ h => List.Forall₂.cons h.1 h.2

/-- A cached scalar in a slot that belongs to it. -/
theorem tracksIn_lazy {scope : ScalarScope} {id : Nat} {s : Ir.Scalar} {t : ValueType} {e : Scalar}
    (hslot : scope.Holds id s) (h : TracksIn schema (some scope) s e) :
    TracksIn schema (some scope) (.cached s t) (.lazy id e) := by
  intro record used P hfits hused ctx hctx
  have htracks := h record used P hfits
  obtain ⟨hnumbered, hagree, rfl⟩ := hfits
  have hmem : s ∈ used := hused List.mem_cons_self
  rw [Ir.Scalar.eval, Scalar.eval]
  split
  next hnone =>
    obtain ⟨shared, hshared, -⟩ := hslot
    have hlt := hnumbered.lt hshared
    rw [← hctx.length] at hlt
    exact absurd hlt (Nat.not_lt.mpr (List.getElem?_eq_none_iff.mp hnone))
  next v hfull =>
    obtain ⟨s', hmem', hslot', hv⟩ := hctx.filled _ v hfull
    rw [hslot.eval_eq hnumbered hagree hslot' hmem hmem', hv]
    exact .pure hctx
  next =>
    exact (htracks (fun a ha => hused (List.mem_cons_of_mem _ ha)) ctx hctx).store
      fun v ctx₁ hv hctx₁ => hctx₁.set hslot hmem hv

/-- What is planned gives the values of the scalar that it is planned from. -/
theorem planScalar_tracks (s : Ir.Scalar) {scope out : Option ScalarScope} {e : Scalar}
    (h : planScalar schema s scope = .ok (e, out)) :
    PlansTo scope out fun final => TracksIn schema final s e := by
  induction s using Ir.Scalar.induction generalizing scope out e with
  | field id t =>
      rw [planScalar] at h
      split at h
      next slot hslot =>
        cases h
        refine .here fun final _ record used P _ _ ctx hctx => ?_
        rw [Ir.Scalar.eval, fieldsOf, hslot, Scalar.eval]
        exact .lift _ hctx
      · cases h
  | value v t =>
      cases h
      exact .here fun final _ record used P _ _ ctx hctx => .pure hctx
  | coalesce args t ih =>
      obtain ⟨⟨es, out₁⟩, hargs, he⟩ := bind_eq_ok.mp h
      cases he
      refine (expressionList_tracks_of ih hargs).mono fun final hes record used P hfits hused ctx
        hctx => ?_
      exact Tracks.evalFirst (hes.imp fun _ _ hs => hs record used P hfits) hused hctx
  | fnCall f args t ih =>
      obtain ⟨⟨es, out₁⟩, hargs, hrest⟩ := bind_eq_ok.mp h
      obtain ⟨call, hcall, he⟩ := bind_eq_ok.mp hrest
      cases he
      refine (expressionList_tracks_of ih hargs).mono fun final hes record used P hfits => ?_
      exact Tracks.call (hes.imp fun _ _ hs => hs record used P hfits) hcall
  | cached s t ih =>
      cases scope with
      | none =>
          refine (ih h).mono fun final hs record used P hfits hused ctx hctx => ?_
          exact hs record used P hfits (fun a ha => hused (List.mem_cons_of_mem _ ha)) ctx hctx
      | some scope =>
          obtain ⟨⟨e', out₁⟩, hs, he⟩ := bind_eq_ok.mp h
          cases he
          obtain ⟨hlater, hnumbered, hholds⟩ := scope.slot_spec s
          have hplans := ih hs
          refine ⟨LaterScope.trans (b := some (scope.slot s).2) hlater hplans.later,
            fun hscope => hplans.numbered fun _ h => Option.mem_some_iff.mp h ▸
              hnumbered (hscope scope rfl), fun final hfinal => ?_⟩
          have hchain := hplans.later.trans hfinal
          cases final with
          | none => exact hchain.elim
          | some final => exact tracksIn_lazy (hholds.later hchain) (hplans.good _ hfinal)

theorem expressionList_tracks {list : List Ir.Scalar} {es : List Scalar}
    (h : expressionList schema list scope = .ok (es, out)) :
    PlansTo scope out fun final => List.Forall₂ (TracksIn schema final) list es :=
  expressionList_tracks_of (fun s _ _ _ _ hs => planScalar_tracks s hs) h

/-- A projector and what it is planned as. -/
structure ProjectorTracks (schema : Schema) (scope : Option ScalarScope) (p : Ir.Projector)
    (q : ScalarProjector) : Prop where
  fieldId : q.fieldId = p.aliasFieldId
  expr : TracksIn schema scope p.expr q.expr

theorem projectorsList_tracks {list : List Ir.Projector} {proj : List ScalarProjector}
    (h : projectorsList schema list scope = .ok (proj, out)) :
    PlansTo scope out fun final => List.Forall₂ (ProjectorTracks schema final) list proj := by
  induction list generalizing scope proj with
  | nil =>
      cases h
      exact .here fun _ _ => .nil
  | cons p list ih =>
      obtain ⟨⟨e, out₁⟩, hp, hrest⟩ := bind_eq_ok.mp h
      obtain ⟨⟨proj', out₂⟩, hlist, hproj⟩ := bind_eq_ok.mp hrest
      cases hproj
      exact ((planScalar_tracks p.expr hp).next (ih hlist)).mono fun _ h =>
        List.Forall₂.cons ⟨rfl, h.1⟩ h.2

/-- An aggregate and what it is planned as. -/
inductive AggregateTracks (schema : Schema) (scope : Option ScalarScope) :
    Ir.AggregateNode → Exec.Aggregate → Prop
  | const (v : Value) (nullIfEmpty : Bool) :
      AggregateTracks schema scope (.const v nullIfEmpty) (.const v nullIfEmpty)
  | nullary {f : Function} {t : ValueType} {start : FnAggregator} :
      buildAggregate f = .ok start → AggregateTracks schema scope (.fnCall f []) (.nullary t start)
  | unary {f : Function} {t : ValueType} {start : FnAggregator} {s : Ir.Scalar} {e : Scalar} :
      buildAggregate f = .ok start → TracksIn schema scope s e →
      AggregateTracks schema scope (.fnCall f [s]) (.unary t start e)

theorem planAggregate_tracks {node : Ir.AggregateNode} {t : ValueType} {a : Exec.Aggregate}
    (h : planAggregate schema node t scope = .ok (a, out)) :
    PlansTo scope out fun final => AggregateTracks schema final node a := by
  cases node with
  | const v nullIfEmpty =>
      cases h
      exact .here fun _ _ => .const v nullIfEmpty
  | fnCall f args =>
      obtain ⟨⟨es, out₁⟩, hargs, hrest⟩ := bind_eq_ok.mp h
      obtain ⟨start, hstart, hrest⟩ := bind_eq_ok.mp hrest
      have hplans := expressionList_tracks hargs
      change (if start.isNullary then _ else _) = _ at hrest
      split at hrest
      · rcases es with _ | ⟨e, es⟩
        · cases hrest
          refine hplans.mono fun final hes => ?_
          cases hes
          exact .nullary hstart
        · cases hrest
      · rcases es with _ | ⟨e, _ | ⟨e', es⟩⟩
        · cases hrest
        · cases hrest
          refine hplans.mono fun final hes => ?_
          cases hes with
          | cons he hnil =>
              cases hnil
              exact .unary hstart he
        · cases hrest

theorem aggregatesList_tracks {list : List Ir.Aggregate} {proj : List AggregateProjector}
    (h : aggregatesList schema list scope = .ok (proj, out)) :
    PlansTo scope out fun final => List.Forall₂ (fun a p => p.fieldId = a.outputFieldId ∧
      AggregateTracks schema final a.node p.expr) list proj := by
  induction list generalizing scope proj with
  | nil =>
      cases h
      exact .here fun _ _ => .nil
  | cons a list ih =>
      obtain ⟨⟨e, out₁⟩, ha, hrest⟩ := bind_eq_ok.mp h
      obtain ⟨⟨proj', out₂⟩, hlist, hproj⟩ := bind_eq_ok.mp hrest
      cases hproj
      exact ((planAggregate_tracks ha).next (ih hlist)).mono fun _ h =>
        List.Forall₂.cons ⟨rfl, h.1⟩ h.2

end Lists

end Planning

end Lsql.Plan
