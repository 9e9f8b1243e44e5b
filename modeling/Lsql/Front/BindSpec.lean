import Lsql.Front.Bind
import Lsql.Front.Columns

/-!
# Lsql.Front.BindSpec

What the binder makes of a program, whatever the program.

The state only grows, and the field set of every relation is built from those of its parts. A
reference has the field set of a relation that has been named before.
-/

namespace Lsql.Front

open Binder
open Ast (Literal FileTimeRange)

namespace Bound

/-! ### The relations of a tree -/

mutual

/-- All relations in an expression. -/
def Expr.relations : Expr → List Relation
  | .identifier _ _ => []
  | .value _ _ => []
  | .inMatch expr matched _ _ => expr.relations ++ matched.relations
  | .fnCall _ args _ => relationsOfExprs args
  | .like expr _ _ => expr.relations
  | .binary _ left right _ => left.relations ++ right.relations
  | .unary _ expr _ => expr.relations

def relationsOfExprs : List Expr → List Relation
  | [] => []
  | e :: es => e.relations ++ relationsOfExprs es

def relationsOfExprOption : Option Expr → List Relation
  | none => []
  | some e => e.relations

def relationsOfExprsOption : Option (List Expr) → List Relation
  | none => []
  | some es => relationsOfExprs es

def Projector.relations : Projector → List Relation
  | .star => []
  | .identifier _ => []
  | .expr _ e => e.relations

def relationsOfProjectors : List Projector → List Relation
  | [] => []
  | p :: ps => p.relations ++ relationsOfProjectors ps

def relationsOfProjectorsOption : Option (List Projector) → List Relation
  | none => []
  | some ps => relationsOfProjectors ps

/-- All relations in a relation, itself included. -/
def Relation.relations : Relation → List Relation
  | .adhoc values id f => [.adhoc values id f]
  | .select projectors source limit whereCond having orderList orderDesc groupList aggregate f =>
    .select projectors source limit whereCond having orderList orderDesc groupList aggregate f ::
      (relationsOfProjectors projectors ++ source.relations ++ relationsOfExprOption whereCond ++
        relationsOfExprOption having ++ relationsOfExprsOption orderList ++
        relationsOfProjectorsOption groupList)
  | .aliased aliasName source f => .aliased aliasName source f :: source.relations
  | .unionAll left right f => .unionAll left right f :: (left.relations ++ right.relations)
  | .leftJoin left right leftKey rightKey f =>
    .leftJoin left right leftKey rightKey f ::
      (left.relations ++ right.relations ++ leftKey.relations ++ rightKey.relations)
  | .unionAllSortedBy left right orderList desc f =>
    .unionAllSortedBy left right orderList desc f ::
      (left.relations ++ right.relations ++ relationsOfExprs orderList)
  | .file path range timeFormat f => [.file path range timeFormat f]
  | .stream command f => [.stream command f]
  | .namedRelationReference name f => [.namedRelationReference name f]
  | .materialize relation f => .materialize relation f :: relation.relations

end

theorem Relation.mem_relations (r : Relation) : r ∈ r.relations := by
  cases r <;> exact List.mem_cons_self

theorem mem_relationsOfExprs {es : List Expr} {r : Relation} :
    r ∈ relationsOfExprs es ↔ ∃ e ∈ es, r ∈ e.relations := by
  induction es with
  | nil => simp [relationsOfExprs]
  | cons e es ih => simp [relationsOfExprs, ih]

/-- The relations that the rows of a relation come from. -/
def Relation.sources : Relation → List Relation
  | .adhoc _ _ _ => []
  | .select _ source _ _ _ _ _ _ _ _ => [source]
  | .aliased _ source _ => [source]
  | .unionAll left right _ => [left, right]
  | .leftJoin left right _ _ _ => [left, right]
  | .unionAllSortedBy left right _ _ _ => [left, right]
  | .file _ _ _ _ => []
  | .stream _ _ => []
  | .namedRelationReference _ _ => []
  | .materialize relation _ => [relation]

section Induction

variable {P Q : Relation → Prop}

/-- `Q` passes from the sources of a relation to the relation, if that has `P`. -/
abbrev Passes (P Q : Relation → Prop) : Prop := ∀ r, P r → (∀ q ∈ r.sources, Q q) → Q r

mutual

theorem Expr.relations_induction (h : Passes P Q) : ∀ e : Expr, (∀ r ∈ e.relations, P r) →
    ∀ r ∈ e.relations, Q r
  | .identifier _ _, _ => fun _ hr => absurd hr List.not_mem_nil
  | .value _ _, _ => fun _ hr => absurd hr List.not_mem_nil
  | .inMatch expr matched _ _, hP => by
      rw [Expr.relations, List.forall_mem_append] at hP ⊢
      exact ⟨Expr.relations_induction h expr hP.1, Relation.relations_induction h matched hP.2⟩
  | .fnCall _ args _, hP => relationsOfExprs_induction h args hP
  | .like expr _ _, hP => Expr.relations_induction h expr hP
  | .binary _ left right _, hP => by
      rw [Expr.relations, List.forall_mem_append] at hP ⊢
      exact ⟨Expr.relations_induction h left hP.1, Expr.relations_induction h right hP.2⟩
  | .unary _ expr _, hP => Expr.relations_induction h expr hP

theorem relationsOfExprs_induction (h : Passes P Q) : ∀ es : List Expr,
    (∀ r ∈ relationsOfExprs es, P r) → ∀ r ∈ relationsOfExprs es, Q r
  | [], _ => fun _ hr => absurd hr List.not_mem_nil
  | e :: es, hP => by
      rw [relationsOfExprs, List.forall_mem_append] at hP ⊢
      exact ⟨Expr.relations_induction h e hP.1, relationsOfExprs_induction h es hP.2⟩

theorem relationsOfExprOption_induction (h : Passes P Q) : ∀ e : Option Expr,
    (∀ r ∈ relationsOfExprOption e, P r) → ∀ r ∈ relationsOfExprOption e, Q r
  | none, _ => fun _ hr => absurd hr List.not_mem_nil
  | some e, hP => Expr.relations_induction h e hP

theorem relationsOfExprsOption_induction (h : Passes P Q) : ∀ es : Option (List Expr),
    (∀ r ∈ relationsOfExprsOption es, P r) → ∀ r ∈ relationsOfExprsOption es, Q r
  | none, _ => fun _ hr => absurd hr List.not_mem_nil
  | some es, hP => relationsOfExprs_induction h es hP

theorem Projector.relations_induction (h : Passes P Q) : ∀ p : Projector,
    (∀ r ∈ p.relations, P r) → ∀ r ∈ p.relations, Q r
  | .star, _ => fun _ hr => absurd hr List.not_mem_nil
  | .identifier _, _ => fun _ hr => absurd hr List.not_mem_nil
  | .expr _ e, hP => Expr.relations_induction h e hP

theorem relationsOfProjectors_induction (h : Passes P Q) : ∀ ps : List Projector,
    (∀ r ∈ relationsOfProjectors ps, P r) → ∀ r ∈ relationsOfProjectors ps, Q r
  | [], _ => fun _ hr => absurd hr List.not_mem_nil
  | p :: ps, hP => by
      rw [relationsOfProjectors, List.forall_mem_append] at hP ⊢
      exact ⟨Projector.relations_induction h p hP.1, relationsOfProjectors_induction h ps hP.2⟩

theorem relationsOfProjectorsOption_induction (h : Passes P Q) : ∀ ps : Option (List Projector),
    (∀ r ∈ relationsOfProjectorsOption ps, P r) → ∀ r ∈ relationsOfProjectorsOption ps, Q r
  | none, _ => fun _ hr => absurd hr List.not_mem_nil
  | some ps, hP => relationsOfProjectors_induction h ps hP

/-- A property that passes from the sources of a relation to the relation. -/
theorem Relation.relations_induction (h : Passes P Q) : ∀ r : Relation,
    (∀ q ∈ r.relations, P q) → ∀ q ∈ r.relations, Q q
  | .adhoc values id f, hP => by
      rw [Relation.relations, List.forall_mem_singleton] at hP ⊢
      exact h _ hP fun _ hq => absurd hq List.not_mem_nil
  | .select projectors source limit whereCond having orderList orderDesc groupList aggregate f,
      hP => by
      simp only [Relation.relations, List.forall_mem_cons, List.forall_mem_append] at hP ⊢
      obtain ⟨hself, ⟨⟨⟨⟨hprojectors, hsource⟩, hwhere⟩, hhaving⟩, horder⟩, hgroup⟩ := hP
      have hsource' := Relation.relations_induction h source hsource
      refine ⟨h _ hself ?_, ⟨⟨⟨⟨relationsOfProjectors_induction h projectors hprojectors, hsource'⟩,
        relationsOfExprOption_induction h whereCond hwhere⟩,
        relationsOfExprOption_induction h having hhaving⟩,
        relationsOfExprsOption_induction h orderList horder⟩,
        relationsOfProjectorsOption_induction h groupList hgroup⟩
      exact List.forall_mem_singleton.mpr (hsource' _ source.mem_relations)
  | .aliased aliasName source f, hP => by
      rw [Relation.relations, List.forall_mem_cons] at hP ⊢
      have hsource := Relation.relations_induction h source hP.2
      exact ⟨h _ hP.1 (List.forall_mem_singleton.mpr (hsource _ source.mem_relations)), hsource⟩
  | .unionAll left right f, hP => by
      rw [Relation.relations, List.forall_mem_cons, List.forall_mem_append] at hP ⊢
      have hleft := Relation.relations_induction h left hP.2.1
      have hright := Relation.relations_induction h right hP.2.2
      exact ⟨h _ hP.1 (List.forall_mem_cons.mpr ⟨hleft _ left.mem_relations,
        List.forall_mem_singleton.mpr (hright _ right.mem_relations)⟩), hleft, hright⟩
  | .leftJoin left right leftKey rightKey f, hP => by
      simp only [Relation.relations, List.forall_mem_cons, List.forall_mem_append] at hP ⊢
      obtain ⟨hself, ⟨⟨hl, hr⟩, hleftKey⟩, hrightKey⟩ := hP
      have hleft := Relation.relations_induction h left hl
      have hright := Relation.relations_induction h right hr
      exact ⟨h _ hself (List.forall_mem_cons.mpr ⟨hleft _ left.mem_relations,
        List.forall_mem_singleton.mpr (hright _ right.mem_relations)⟩), ⟨⟨hleft, hright⟩,
        Expr.relations_induction h leftKey hleftKey⟩, Expr.relations_induction h rightKey hrightKey⟩
  | .unionAllSortedBy left right orderList desc f, hP => by
      simp only [Relation.relations, List.forall_mem_cons, List.forall_mem_append] at hP ⊢
      obtain ⟨hself, ⟨hl, hr⟩, horder⟩ := hP
      have hleft := Relation.relations_induction h left hl
      have hright := Relation.relations_induction h right hr
      exact ⟨h _ hself (List.forall_mem_cons.mpr ⟨hleft _ left.mem_relations,
        List.forall_mem_singleton.mpr (hright _ right.mem_relations)⟩), ⟨hleft, hright⟩,
        relationsOfExprs_induction h orderList horder⟩
  | .file path range timeFormat f, hP => by
      rw [Relation.relations, List.forall_mem_singleton] at hP ⊢
      exact h _ hP fun _ hq => absurd hq List.not_mem_nil
  | .stream command f, hP => by
      rw [Relation.relations, List.forall_mem_singleton] at hP ⊢
      exact h _ hP fun _ hq => absurd hq List.not_mem_nil
  | .namedRelationReference name f, hP => by
      rw [Relation.relations, List.forall_mem_singleton] at hP ⊢
      exact h _ hP fun _ hq => absurd hq List.not_mem_nil
  | .materialize relation f, hP => by
      rw [Relation.relations, List.forall_mem_cons] at hP ⊢
      have hsource := Relation.relations_induction h relation hP.2
      exact ⟨h _ hP.1 (List.forall_mem_singleton.mpr (hsource _ relation.mem_relations)), hsource⟩

end

end Induction

/-! ### The field set of a relation -/

/-- The field set of a relation is built from those of its sources. `known` are the field sets of the
relations that have been named before. -/
def Relation.Shaped (known : List RelationFieldSet) : Relation → Prop
  | .adhoc _ id f => f = .fixed (.withField id)
  | .select projectors source _ _ _ _ _ _ aggregate f =>
    f = if aggregate = false ∧ projectors.any Projector.isStar = true then
        .combined (outputFieldsOf projectors) [source.fieldsOut]
      else .fixed (outputFieldsOf projectors)
  | .aliased aliasName source f => f = .aliased (aliasName ++ ".") source.fieldsOut
  | .unionAll left right f => f = .combined .emptySet [left.fieldsOut, right.fieldsOut]
  | .leftJoin left right _ _ f => f = .combined .emptySet [left.fieldsOut, right.fieldsOut]
  | .unionAllSortedBy left right _ _ f => f = .combined .emptySet [left.fieldsOut, right.fieldsOut]
  | .file _ _ _ f => ∃ cell, f = .opened cell
  | .stream _ f => ∃ cell, f = .opened cell
  | .namedRelationReference _ f => f ∈ known
  | .materialize relation f => f = relation.fieldsOut

/-- A relation as the binder returns it. -/
structure Relation.WellBound (known : List RelationFieldSet) (s : BindState) (r : Relation) :
    Prop where
  shaped : r.Shaped known
  valid : r.fieldsOut.Valid s

/-- Every relation of a tree is as the binder returns it. -/
def AllWellBound (known : List RelationFieldSet) (s : BindState) (rs : List Relation) : Prop :=
  ∀ r ∈ rs, r.WellBound known s

theorem AllWellBound.extends {known : List RelationFieldSet} {s s' : BindState} {rs : List Relation}
    (h : AllWellBound known s rs) (hext : s.Extends s') : AllWellBound known s' rs := fun r hr =>
  ⟨(h r hr).shaped, (h r hr).valid.extends hext⟩

theorem allWellBound_nil (known : List RelationFieldSet) (s : BindState) :
    AllWellBound known s [] := fun _ hr => absurd hr List.not_mem_nil

theorem AllWellBound.append {known : List RelationFieldSet} {s : BindState} {rs rs' : List Relation}
    (h : AllWellBound known s rs) (h' : AllWellBound known s rs') :
    AllWellBound known s (rs ++ rs') := List.forall_mem_append.mpr ⟨h, h'⟩

theorem AllWellBound.cons {known : List RelationFieldSet} {s : BindState} {r : Relation}
    {rs : List Relation} (h : r.WellBound known s) (h' : AllWellBound known s rs) :
    AllWellBound known s (r :: rs) := List.forall_mem_cons.mpr ⟨h, h'⟩

theorem outputFields_cons (p : Projector) (ps : List Projector) :
    outputFields (p :: ps) = outputFields [p] ++ outputFields ps :=
  List.filterMap_append (l := [p])

/-- The output fields of projectors that the binding has. -/
def OutputsValid (s : BindState) (projectors : List Projector) : Prop :=
  ∀ id ∈ outputFields projectors, ∃ c, s.binding.entry id = some c

theorem OutputsValid.fieldSet {s : BindState} {projectors : List Projector}
    (h : OutputsValid s projectors) : FieldSetValid s.binding (outputFieldsOf projectors) := by
  intro id hid
  rw [outputFieldsOf, FieldSet.mem_addAll] at hid
  exact hid.elim (fun hid => absurd hid (FieldSet.not_mem_emptySet id)) (h id)

theorem OutputsValid.extends {s s' : BindState} {projectors : List Projector}
    (h : OutputsValid s projectors) (hext : s.Extends s') : OutputsValid s' projectors := by
  intro id hid
  obtain ⟨c, hc⟩ := h id hid
  exact ⟨c, hext.entry hc⟩

end Bound

open Bound (AllWellBound OutputsValid allWellBound_nil outputFieldsOf)

theorem fieldSetValid_merge [HashOrder] {b : FieldBinding} {fields fields' : FieldSet}
    (h : FieldSetValid b fields) (h' : FieldSetValid b fields') :
    FieldSetValid b (fields.merge fields') := fun id hid =>
  (FieldSet.mem_merge.mp hid).elim (h id) (h' id)

/-! ### Calls and operators -/

namespace Binder

variable {s : BindState}

theorem fromExcept_ensures {α : Type} (hs : s.Valid) (x : Except Fault α) :
    Ensures (fromExcept x) s fun _ _ => True := by
  intro a s' h
  rw [fromExcept] at h
  cases x with
  | error e => cases h
  | ok x =>
      cases h
      exact ⟨hs, .refl s, trivial⟩

end Binder

section Calls

variable {s : BindState}

theorem argAt_ensures (hs : s.Valid) (args : List Bound.Expr) (i : Nat) :
    Ensures (argAt args i) s fun arg _ => arg ∈ args := by
  intro arg s' h
  rw [argAt] at h
  cases harg : args[i]? with
  | none =>
      rw [harg] at h
      cases h
  | some arg' =>
      rw [harg] at h
      cases h
      exact ⟨hs, .refl s, List.mem_of_getElem? harg⟩

theorem getLiteralAs_ensures {α : Type} (hs : s.Valid) (get : Value → Except Fault α)
    (arg : Bound.Expr) : Ensures (getLiteralAs get arg) s fun _ _ => True := by
  have hliteral : Ensures (getLiteral arg) s fun _ _ => True := by
    rw [getLiteral.eq_def]
    split
    · exact .pure hs trivial
    · exact throwAt_ensures _ _
  exact hliteral.bind fun v s hs _ _ => fromExcept_ensures hs (get v)

theorem composedLevelFrom_ensures (hs : s.Valid) (args : List Bound.Expr) (level : ExprKindLevel) :
    Ensures (composedLevelFrom level args) s fun _ _ => True := by
  induction args generalizing level s with
  | nil => exact .pure hs trivial
  | cons arg args ih => exact (requireAt_ensures hs _ _).bind fun _ s hs _ _ => ih hs _

variable [HashOrder]

/-- What a call is bound to reads some of its arguments. -/
def ArgsAmong (args : List Bound.Expr) (call : BoundCall) : Prop := ∀ a ∈ call.2.2, a ∈ args

omit [HashOrder] in
theorem argsAmong_one {args : List Bound.Expr} {arg : Bound.Expr} (h : arg ∈ args)
    (info : BoundExprInfo) (f : Function) : ArgsAmong args (info, f, [arg]) :=
  List.forall_mem_singleton.mpr h

omit [HashOrder] in
theorem argsAmong_all (args : List Bound.Expr) (info : BoundExprInfo) (f : Function) :
    ArgsAmong args (info, f, args) := fun _ h => h

omit [HashOrder] in
theorem bindLower_ensures (hs : s.Valid) (args : List Bound.Expr) (level : ExprKindLevel) :
    Ensures (bindLower args level) s fun call _ => ArgsAmong args call := by
  refine (requireAt_ensures hs _ _).bind fun _ s hs _ _ => ?_
  refine (argAt_ensures hs _ _).bind fun arg s hs _ _ => ?_
  refine (requireAt_ensures hs _ _).bind fun _ s hs _ _ => ?_
  exact .pure hs (argsAmong_all _ _ _)

omit [HashOrder] in
theorem bindSplitPart_ensures (hs : s.Valid) (args : List Bound.Expr) :
    Ensures (bindSplitPart args) s fun call _ => ArgsAmong args call := by
  refine (requireAt_ensures hs _ _).bind fun _ s hs _ _ => ?_
  refine (argAt_ensures hs _ _).bind fun arg s hs _ harg => ?_
  refine (argAt_ensures hs _ _).bind fun _ s hs _ _ => ?_
  refine (argAt_ensures hs _ _).bind fun _ s hs _ _ => ?_
  refine (requireAt_ensures hs _ _).bind fun _ s hs _ _ => ?_
  refine (requireAt_ensures hs _ _).bind fun _ s hs _ _ => ?_
  refine (requireAt_ensures hs _ _).bind fun _ s hs _ _ => ?_
  refine (requireAt_ensures hs _ _).bind fun _ s hs _ _ => ?_
  refine (requireAt_ensures hs _ _).bind fun _ s hs _ _ => ?_
  refine (getLiteralAs_ensures hs _ _).bind fun _ s hs _ _ => ?_
  refine (requireAt_ensures hs _ _).bind fun _ s hs _ _ => ?_
  refine (getLiteralAs_ensures hs _ _).bind fun _ s hs _ _ => ?_
  refine (requireAt_ensures hs _ _).bind fun _ s hs _ _ => ?_
  exact .pure hs (argsAmong_one harg _ _)

omit [HashOrder] in
theorem checkLengthArg_ensures (hs : s.Valid) (args : List Bound.Expr) :
    Ensures (checkLengthArg args) s fun _ _ => True := by
  rw [checkLengthArg]
  split
  · refine (argAt_ensures hs _ _).bind fun _ s hs _ _ => ?_
    exact (requireAt_ensures hs _ _).mono fun _ _ _ _ _ => trivial
  · exact .pure hs trivial

omit [HashOrder] in
theorem substrLength_ensures (hs : s.Valid) (args : List Bound.Expr) :
    Ensures (substrLength args) s fun _ _ => True := by
  rw [substrLength]
  split
  · refine (argAt_ensures hs _ _).bind fun _ s hs _ _ => ?_
    refine (getLiteralAs_ensures hs _ _).bind fun _ s hs _ _ => ?_
    exact .pure hs trivial
  · exact .pure hs trivial

theorem bindSubstr_ensures (hs : s.Valid) (args : List Bound.Expr) (level : ExprKindLevel) :
    Ensures (bindSubstr args level) s fun call _ => ArgsAmong args call := by
  refine (requireAt_ensures hs _ _).bind fun _ s hs _ _ => ?_
  refine (argAt_ensures hs _ _).bind fun arg s hs _ harg => ?_
  refine (argAt_ensures hs _ _).bind fun _ s hs _ _ => ?_
  refine (requireAt_ensures hs _ _).bind fun _ s hs _ _ => ?_
  refine (requireAt_ensures hs _ _).bind fun _ s hs _ _ => ?_
  refine (checkLengthArg_ensures hs _).bind fun _ s hs _ _ => ?_
  refine (getLiteralAs_ensures hs _ _).bind fun _ s hs _ _ => ?_
  refine (requireAt_ensures hs _ _).bind fun _ s hs _ _ => ?_
  refine (substrLength_ensures hs _).bind fun _ s hs _ _ => ?_
  exact .pure hs (argsAmong_one harg _ _)

theorem bindCoalesce_ensures (hs : s.Valid) (args : List Bound.Expr) (level : ExprKindLevel) :
    Ensures (bindCoalesce args level) s fun call _ => ArgsAmong args call := by
  refine (requireAt_ensures hs _ _).bind fun _ s hs _ _ => ?_
  exact .pure hs (argsAmong_all _ _ _)

omit [HashOrder] in
theorem percentileArgs_ensures (hs : s.Valid) (args : List Bound.Expr) :
    Ensures (percentileArgs args) s fun _ _ => True := by
  induction args generalizing s with
  | nil => exact .pure hs trivial
  | cons arg args ih =>
      refine (requireAt_ensures hs _ _).bind fun _ s hs _ _ => ?_
      refine (getLiteralAs_ensures hs _ _).bind fun _ s hs _ _ => ?_
      refine (requireAt_ensures hs _ _).bind fun _ s hs _ _ => ?_
      refine (ih hs).bind fun _ s hs _ _ => ?_
      exact .pure hs trivial

theorem bindPercentile_ensures (hs : s.Valid) (args : List Bound.Expr) :
    Ensures (bindPercentile args) s fun call _ => ArgsAmong args call := by
  refine (requireAt_ensures hs _ _).bind fun _ s hs _ _ => ?_
  refine (argAt_ensures hs _ _).bind fun arg s hs _ harg => ?_
  refine (requireAt_ensures hs _ _).bind fun _ s hs _ _ => ?_
  refine (requireAt_ensures hs _ _).bind fun _ s hs _ _ => ?_
  refine (percentileArgs_ensures hs _).bind fun _ s hs _ _ => ?_
  exact .pure hs (argsAmong_one harg _ _)

theorem bindRSubstr_ensures (hs : s.Valid) (args : List Bound.Expr) (level : ExprKindLevel) :
    Ensures (bindRSubstr args level) s fun call _ => ArgsAmong args call := by
  refine (requireAt_ensures hs _ _).bind fun _ s hs _ _ => ?_
  refine (argAt_ensures hs _ _).bind fun arg s hs _ harg => ?_
  refine (argAt_ensures hs _ _).bind fun _ s hs _ _ => ?_
  refine (requireAt_ensures hs _ _).bind fun _ s hs _ _ => ?_
  refine (requireAt_ensures hs _ _).bind fun _ s hs _ _ => ?_
  refine (requireAt_ensures hs _ _).bind fun _ s hs _ _ => ?_
  refine (getLiteralAs_ensures hs _ _).bind fun _ s hs _ _ => ?_
  exact .pure hs (argsAmong_one harg _ _)

omit [HashOrder] in
theorem bindJsonValue_ensures (hs : s.Valid) (args : List Bound.Expr) :
    Ensures (bindJsonValue args) s fun call _ => ArgsAmong args call := by
  refine (requireAt_ensures hs _ _).bind fun _ s hs _ _ => ?_
  refine (argAt_ensures hs _ _).bind fun arg s hs _ harg => ?_
  refine (argAt_ensures hs _ _).bind fun _ s hs _ _ => ?_
  refine (requireAt_ensures hs _ _).bind fun _ s hs _ _ => ?_
  refine (requireAt_ensures hs _ _).bind fun _ s hs _ _ => ?_
  refine (requireAt_ensures hs _ _).bind fun _ s hs _ _ => ?_
  refine (getLiteralAs_ensures hs _ _).bind fun path s hs _ _ => ?_
  split
  · exact throwAt_ensures _ _
  · exact .pure hs (argsAmong_one harg _ _)

omit [HashOrder] in
theorem bindCountAll_ensures (hs : s.Valid) (args : List Bound.Expr) :
    Ensures (bindCountAll args) s fun call _ => ArgsAmong args call := by
  refine (requireAt_ensures hs _ _).bind fun _ s hs _ _ => ?_
  exact .pure hs fun _ h => absurd h List.not_mem_nil

omit [HashOrder] in
theorem bindCountNonNull_ensures (hs : s.Valid) (args : List Bound.Expr) :
    Ensures (bindCountNonNull args) s fun call _ => ArgsAmong args call := by
  refine (requireAt_ensures hs _ _).bind fun _ s hs _ _ => ?_
  refine (argAt_ensures hs _ _).bind fun _ s hs _ _ => ?_
  exact .pure hs (argsAmong_all _ _ _)

omit [HashOrder] in
theorem bindAggregateFn_ensures (hs : s.Valid) (name : String) (f : ValueType → Function)
    (args : List Bound.Expr) :
    Ensures (bindAggregateFn name f args) s fun call _ => ArgsAmong args call := by
  refine (requireAt_ensures hs _ _).bind fun _ s hs _ _ => ?_
  refine (argAt_ensures hs _ _).bind fun _ s hs _ _ => ?_
  refine (requireAt_ensures hs _ _).bind fun _ s hs _ _ => ?_
  exact .pure hs (argsAmong_all _ _ _)

theorem bindParseTimestamp_ensures (hs : s.Valid) (args : List Bound.Expr) :
    Ensures (bindParseTimestamp args) s fun call _ => ArgsAmong args call := by
  refine (requireAt_ensures hs _ _).bind fun _ s hs _ _ => ?_
  refine (argAt_ensures hs _ _).bind fun arg s hs _ harg => ?_
  refine (argAt_ensures hs _ _).bind fun _ s hs _ _ => ?_
  refine (requireAt_ensures hs _ _).bind fun _ s hs _ _ => ?_
  refine (requireAt_ensures hs _ _).bind fun _ s hs _ _ => ?_
  refine (requireAt_ensures hs _ _).bind fun _ s hs _ _ => ?_
  refine (getLiteralAs_ensures hs _ _).bind fun name s hs _ _ => ?_
  split
  · exact throwAt_ensures _ _
  · exact .pure hs (argsAmong_one harg _ _)

theorem bindCastFn_ensures (hs : s.Valid) (fnName : String) (args : List Bound.Expr)
    (level : ExprKindLevel) :
    Ensures (bindCastFn fnName args level) s fun call _ => ArgsAmong args call := by
  rw [bindCastFn]
  split
  · exact throwAt_ensures _ _
  · refine (requireAt_ensures hs _ _).bind fun _ s hs _ _ => ?_
    exact .pure hs (argsAmong_all _ _ _)

/-- **A call reads some of its arguments.** -/
theorem bindFnCallExpr_ensures (hs : s.Valid) (fnName : String) (args : List Bound.Expr) :
    Ensures (bindFnCallExpr fnName args) s fun call _ => ArgsAmong args call := by
  refine (composedLevelFrom_ensures hs args .const).bind fun level s hs _ _ => ?_
  refine (bindLower_ensures hs args level).ite ?_
  refine (bindSplitPart_ensures hs args).ite ?_
  refine (bindSubstr_ensures hs args level).ite ?_
  refine (bindCoalesce_ensures hs args level).ite ?_
  refine (bindPercentile_ensures hs args).ite ?_
  refine (bindRSubstr_ensures hs args level).ite ?_
  refine (bindJsonValue_ensures hs args).ite ?_
  refine (bindCountAll_ensures hs args).ite ?_
  refine (bindCountNonNull_ensures hs args).ite ?_
  refine (bindAggregateFn_ensures hs "min" .min args).ite ?_
  refine (bindAggregateFn_ensures hs "max" .max args).ite ?_
  refine (bindAggregateFn_ensures hs "sum" .sum args).ite ?_
  refine (bindParseTimestamp_ensures hs args).ite ?_
  exact bindCastFn_ensures hs fnName args level

omit [HashOrder] in
theorem bindInExpr_ensures (hs : s.Valid) (arg : Bound.Expr) :
    Ensures (bindInExpr arg) s fun _ _ => True :=
  (requireAt_ensures hs _ _).bind fun _ _ hs _ _ => .pure hs trivial

omit [HashOrder] in
theorem bindLikeExpr_ensures (hs : s.Valid) (arg : Bound.Expr) :
    Ensures (bindLikeExpr arg) s fun _ _ => True :=
  (requireAt_ensures hs _ _).bind fun _ _ hs _ _ => .pure hs trivial

omit [HashOrder] in
theorem bindUnaryExpr_ensures (hs : s.Valid) (arg : Bound.Expr) (type : Ast.UnaryExprType) :
    Ensures (bindUnaryExpr arg type) s fun _ _ => True := by
  have htype : Ensures (unaryValueType arg.valueType (unaryExprType type)) s fun _ _ => True := by
    rw [unaryValueType]
    split
    · exact .pure hs trivial
    · exact throwAt_ensures _ _
  exact htype.bind fun _ s hs _ _ => .pure hs trivial

theorem bindBinaryExpr_ensures (hs : s.Valid) (l r : Bound.Expr) (type : Ast.BinaryExprType) :
    Ensures (bindBinaryExpr l r type) s fun _ _ => True := by
  have htype : Ensures (binaryValueType l.valueType r.valueType (binaryExprType type)) s
      fun _ _ => True := by
    rw [binaryValueType]
    split
    · exact .pure hs trivial
    · exact throwAt_ensures _ _
  refine htype.bind fun _ s hs _ _ => ?_
  refine (requireAt_ensures hs _ _).bind fun _ s hs _ _ => ?_
  exact .pure hs trivial

end Calls

/-! ### Checks -/

section Checks

variable {s : BindState}

theorem describeField_ensures (id : FieldId) (message : String) :
    Ensures (describeField id >>= fun field => (throwAt (message ++ field) : Binder Unit)) s
      fun _ _ => True := by
  intro u s' h
  obtain ⟨field, t, -, hthrow⟩ := binder_bind_ok.mp h
  cases hthrow

theorem requireGrouped_ensures (hs : s.Valid) (allowed : FieldSet) (ids : List FieldId) :
    Ensures (requireGrouped allowed ids) s fun _ _ => True := by
  induction ids with
  | nil => exact .pure hs trivial
  | cons id ids ih => exact ih.ite (describeField_ensures id _)

theorem checkGroupKeys_ensures (hs : s.Valid) (ps : List Bound.Projector) :
    Ensures (checkGroupKeys ps) s fun _ _ => True := by
  induction ps generalizing s with
  | nil => exact .pure hs trivial
  | cons p ps ih => exact (requireAt_ensures hs _ _).bind fun _ s hs _ _ => ih hs

theorem checkAggregateProjectors_ensures (hs : s.Valid) (ps : List Bound.Projector) :
    Ensures (checkAggregateProjectors ps) s fun _ _ => True := by
  induction ps generalizing s with
  | nil => exact .pure hs trivial
  | cons p ps ih =>
      have hp : Ensures (checkAggregateProjector p) s fun _ _ => True := by
        cases p with
        | star => exact throwAt_ensures _ _
        | identifier id => exact throwAt_ensures _ _
        | expr id e => exact (requireAt_ensures hs _ _).mono fun _ _ _ _ _ => trivial
      exact hp.bind fun _ s hs _ _ => ih hs

theorem checkWhere_ensures (hs : s.Valid) (cond : Option Bound.Expr) :
    Ensures (checkWhere cond) s fun _ _ => True := by
  cases cond with
  | none => exact .pure hs trivial
  | some cond =>
      refine (requireAt_ensures hs _ _).bind fun _ s hs _ _ => ?_
      exact (requireAt_ensures hs _ _).mono fun _ _ _ _ _ => trivial

theorem checkLimit_ensures (hs : s.Valid) (limit : Option Int) :
    Ensures (checkLimit limit) s fun _ _ => True := by
  cases limit with
  | none => exact .pure hs trivial
  | some limit => exact (requireAt_ensures hs _ _).mono fun _ _ _ _ _ => trivial

theorem checkOrderBy_ensures (hs : s.Valid) (es : List Bound.Expr) :
    Ensures (checkOrderBy es) s fun _ _ => True := by
  induction es generalizing s with
  | nil => exact .pure hs trivial
  | cons e es ih => exact (requireAt_ensures hs _ _).bind fun _ s hs _ _ => ih hs

variable [HashOrder]

theorem checkGroupedProjectors_ensures (hs : s.Valid) (keys : FieldSet)
    (ps : List Bound.Projector) : Ensures (checkGroupedProjectors keys ps) s fun _ _ => True := by
  induction ps generalizing s with
  | nil => exact .pure hs trivial
  | cons p ps ih =>
      have hp : Ensures (checkGroupedProjector keys p) s fun _ _ => True := by
        cases p with
        | star => exact .pure hs trivial
        | identifier id => exact requireGrouped_ensures hs keys [id]
        | expr id e => exact (Ensures.pure hs trivial).ite (requireGrouped_ensures hs keys _)
      exact hp.bind fun _ s hs _ _ => ih hs

theorem checkHaving_ensures (hs : s.Valid) (allowed : FieldSet) (cond : Option Bound.Expr) :
    Ensures (checkHaving allowed cond) s fun _ _ => True := by
  cases cond with
  | none => exact .pure hs trivial
  | some cond =>
      refine (requireAt_ensures hs _ _).bind fun _ s hs _ _ => ?_
      exact (requireGrouped_ensures hs allowed _).ite (.pure hs trivial)

end Checks

/-! ### The binder -/

/-- A state in which relations have been named. -/
structure Ready (known : List RelationFieldSet) (s : BindState) : Prop where
  valid : s.Valid
  known_eq : s.named.map Prod.snd = known
  known_valid : ∀ f ∈ known, f.Valid s

theorem Ready.extends {known : List RelationFieldSet} {s s' : BindState} (h : Ready known s)
    (hs' : s'.Valid) (hext : s.Extends s') : Ready known s' where
  valid := hs'
  known_eq := by rw [hext.named, h.known_eq]
  known_valid f hf := (h.known_valid f hf).extends hext

/-- The field set of a name is one of those that have been named. -/
theorem mem_of_lookup {named : List (String × RelationFieldSet)} {name : String}
    {f : RelationFieldSet} (h : named.lookup name = some f) : f ∈ named.map Prod.snd := by
  induction named with
  | nil => cases h
  | cons entry named ih =>
      rw [List.lookup_cons] at h
      split at h
      next =>
        cases h
        exact List.mem_cons_self
      next => exact List.mem_cons_of_mem _ (ih h)

/-- A chain whose field sets the state has. -/
def ChainValid (s : BindState) (chain : FieldSetChain) : Prop := ∀ r ∈ chain, r.Valid s

theorem ChainValid.extends {s s' : BindState} {chain : FieldSetChain} (h : ChainValid s chain)
    (hext : s.Extends s') : ChainValid s' chain := fun r hr => (h r hr).extends hext

theorem chainValid_one {s : BindState} {r : RelationFieldSet} (h : r.Valid s) :
    ChainValid s [r] := List.forall_mem_singleton.mpr h

theorem chainValid_two {s : BindState} {r r' : RelationFieldSet} (h : r.Valid s)
    (h' : r'.Valid s) : ChainValid s [r, r'] :=
  List.forall_mem_cons.mpr ⟨h, chainValid_one h'⟩

/-- What the part of a `SELECT` behind its projectors returns. -/
structure PartsBound (known : List RelationFieldSet) (source : RelationFieldSet) (s : BindState)
    (parts : SelectParts) : Prop where
  projectors : AllWellBound known s (Bound.relationsOfProjectors parts.projectors)
  having : AllWellBound known s (Bound.relationsOfExprOption parts.having)
  outputs : OutputsValid s parts.projectors
  chain : ChainValid s parts.orderByVisible
  fieldsOut : parts.fieldsOut = if parts.aggregate = false ∧
      parts.projectors.any Bound.Projector.isStar = true then
    .combined (outputFieldsOf parts.projectors) [source] else .fixed (outputFieldsOf parts.projectors)

theorem PartsBound.fieldsOut_valid {known : List RelationFieldSet} {source : RelationFieldSet}
    {s : BindState} {parts : SelectParts} (h : PartsBound known source s parts)
    (hsource : source.Valid s) : parts.fieldsOut.Valid s := by
  rw [h.fieldsOut]
  split
  · exact ⟨h.outputs.fieldSet, hsource, trivial⟩
  · exact h.outputs.fieldSet

theorem simpleSelect_ensures {known : List RelationFieldSet} {s : BindState} (hs : s.Valid)
    {source : RelationFieldSet} (hsource : source.Valid s) {projectors : List Bound.Projector}
    (hprojectors : AllWellBound known s (Bound.relationsOfProjectors projectors))
    (houtputs : OutputsValid s projectors) (having : Bool) :
    Ensures (simpleSelect source projectors having) s fun parts s' =>
      PartsBound known source s' parts := by
  refine (requireAt_ensures hs _ _).bind fun _ s₁ hs₁ hext₁ _ => ?_
  refine (requireAt_ensures hs₁ _ _).bind fun _ s₂ hs₂ hext₂ _ => ?_
  have hext := hext₁.trans hext₂
  refine Ensures.ite ?_ ?_
  · refine (checkAggregateProjectors_ensures hs₂ _).bind fun _ s₃ hs₃ hext₃ _ => ?_
    have hext' := hext.trans hext₃
    exact .pure hs₃ {
      projectors := hprojectors.extends hext'
      having := allWellBound_nil _ _
      outputs := houtputs.extends hext'
      chain := chainValid_one (houtputs.extends hext').fieldSet
      fieldsOut := rfl }
  · refine .pure hs₂ {
      projectors := hprojectors.extends hext
      having := allWellBound_nil _ _
      outputs := houtputs.extends hext
      chain := chainValid_two (houtputs.extends hext).fieldSet (hsource.extends hext)
      fieldsOut := ?_ }
    show (if _ then _ else _) = if false = false ∧ _ then _ else _
    simp only [true_and]

theorem newOpen_ensures {s : BindState} (hs : s.Valid) :
    Ensures newOpen s fun f s' => (∃ cell, f = .opened cell) ∧ f.Valid s' := by
  intro f s' h
  cases h
  have hlast : (s.openFields ++ [FieldSet.emptySet])[s.openFields.length]? = some .emptySet :=
    List.getElem?_concat_length
  refine ⟨⟨hs.nodup, fun hfields id hid => ?_⟩, ⟨⟨List.prefix_refl _, fun hfields => ?_⟩, rfl⟩,
    ⟨_, rfl⟩, _, hlast⟩
  · rename_i cell fields
    by_cases hcell : cell < s.openFields.length
    · exact hs.opened ((List.getElem?_append_left hcell).symm.trans hfields) id hid
    · have hempty : fields ∈ [FieldSet.emptySet] :=
        List.mem_of_getElem? ((List.getElem?_append_right (Nat.le_of_not_lt hcell)).symm.trans hfields)
      rw [List.mem_singleton.mp hempty] at hid
      exact absurd hid (FieldSet.not_mem_emptySet id)
  · refine ⟨_, ?_, fun _ hid => hid⟩
    rw [List.getElem?_append_left (List.getElem?_eq_some_iff.mp hfields).1]
    exact hfields

section Bind

variable [HashOrder] [Platform] {known : List RelationFieldSet}

omit [HashOrder] in
theorem bindLiteral_ensures {s : BindState} (hs : s.Valid) (literal : Literal) :
    Ensures (bindLiteral literal) s fun _ _ => True := by
  refine (fromExcept_ensures hs _).bind fun value s hs _ _ => ?_
  cases value with
  | none => exact throwAt_ensures _ _
  | some value => exact .pure hs trivial

omit [HashOrder] in
theorem bindLiterals_ensures {s : BindState} (hs : s.Valid) (type : Option ValueType)
    (literals : List Literal) : Ensures (bindLiterals type literals) s fun _ _ => True := by
  induction literals generalizing type s with
  | nil => exact .pure hs trivial
  | cons literal literals ih =>
      refine (bindLiteral_ensures hs literal).bind fun value s hs _ _ => ?_
      refine (requireAt_ensures hs _ _).bind fun _ s hs _ _ => ?_
      refine (ih hs _).bind fun _ s hs _ _ => ?_
      exact .pure hs trivial

omit [HashOrder] in
theorem bindRange_ensures {s : BindState} (hs : s.Valid) (path : String)
    (range : Option FileTimeRange) : Ensures (bindRange path range) s fun _ _ => True := by
  cases range with
  | none => exact .pure hs trivial
  | some range =>
      refine (requireAt_ensures hs _ _).bind fun _ s hs _ _ => ?_
      refine (fromExcept_ensures hs _).bind fun _ s hs _ _ => ?_
      split
      · exact .pure hs trivial
      · refine (fromExcept_ensures hs _).bind fun _ s hs _ _ => ?_
        exact .pure hs trivial

omit [HashOrder] [Platform] in
theorem bindTimeFormat_ensures {s : BindState} (hs : s.Valid) (timeFormat : Option String) :
    Ensures (bindTimeFormat timeFormat) s fun _ _ => True := by
  cases timeFormat with
  | none => exact .pure hs trivial
  | some name =>
      rw [bindTimeFormat]
      split
      · exact throwAt_ensures _ _
      · exact .pure hs trivial

omit [Platform] in
/-- The field of a name that has been resolved. -/
theorem resolveName_ensures {s : BindState} (hs : s.Valid) {chain : FieldSetChain}
    (hchain : ChainValid s chain) (name : String) :
    Ensures (typeOfSourceField name chain) s fun _ _ => True :=
  (typeOfSourceField_ensures hs hchain).mono fun _ _ _ _ _ => trivial

omit [HashOrder] [Platform] in
/-- The field set over two relations. -/
theorem combined_valid {s : BindState} {left right : Bound.Relation}
    (hleft : AllWellBound known s left.relations) (hright : AllWellBound known s right.relations) :
    (RelationFieldSet.combined .emptySet [left.fieldsOut, right.fieldsOut]).Valid s :=
  ⟨fun id hid => absurd hid (FieldSet.not_mem_emptySet id),
    (hleft left left.mem_relations).valid, (hright right right.mem_relations).valid, trivial⟩

mutual

theorem bindExpr_ensures {s : BindState} (hs : Ready known s) {chain : FieldSetChain}
    (hchain : ChainValid s chain) : ∀ e : Ast.Expr String,
    Ensures (bindExpr chain e) s fun b s' => AllWellBound known s' b.relations
  | .identifier identifier => by
      refine (resolveName_ensures hs.valid hchain identifier).bind fun type s₁ hs₁ _ _ => ?_
      cases type with
      | none => exact throwAt_ensures _ _
      | some type =>
          refine (getOrAdd_computes hs₁ identifier type).ensures.bind fun id s₂ hs₂ _ _ => ?_
          exact .pure hs₂ (allWellBound_nil _ _)
  | .literal literal => by
      refine (bindLiteral_ensures hs.valid literal).bind fun value s₁ hs₁ _ _ => ?_
      exact .pure hs₁ (allWellBound_nil _ _)
  | .inMatch expr matched => by
      refine (bindExpr_ensures hs hchain expr).bind fun expr s₁ hs₁ hext₁ hexpr => ?_
      refine (bindRelation_ensures (hs.extends hs₁ hext₁) matched).bind
        fun matched s₂ hs₂ hext₂ hmatched => ?_
      refine (bindInExpr_ensures hs₂ _).bind fun info s₃ hs₃ hext₃ _ => ?_
      exact .pure hs₃ ((hexpr.extends (hext₂.trans hext₃)).append (hmatched.extends hext₃))
  | .like expr regex => by
      refine (bindExpr_ensures hs hchain expr).bind fun expr s₁ hs₁ hext₁ hexpr => ?_
      refine (bindLikeExpr_ensures hs₁ _).bind fun info s₂ hs₂ hext₂ _ => ?_
      exact .pure hs₂ (hexpr.extends hext₂)
  | .fnCall func args => by
      refine (bindExprs_ensures hs hchain args).bind fun args s₁ hs₁ hext₁ hargs => ?_
      refine (bindFnCallExpr_ensures hs₁ func args).bind fun call s₂ hs₂ hext₂ hamong => ?_
      refine .pure hs₂ fun r hr => ?_
      obtain ⟨arg, harg, hr⟩ := Bound.mem_relationsOfExprs.mp hr
      exact hargs.extends hext₂ r (Bound.mem_relationsOfExprs.mpr ⟨arg, hamong arg harg, hr⟩)
  | .binary type left right => by
      refine (bindExpr_ensures hs hchain left).bind fun left s₁ hs₁ hext₁ hleft => ?_
      refine (bindExpr_ensures (hs.extends hs₁ hext₁) (hchain.extends hext₁) right).bind
        fun right s₂ hs₂ hext₂ hright => ?_
      refine (bindBinaryExpr_ensures hs₂ _ _ _).bind fun info s₃ hs₃ hext₃ _ => ?_
      exact .pure hs₃ ((hleft.extends (hext₂.trans hext₃)).append (hright.extends hext₃))
  | .unary type expr => by
      refine (bindExpr_ensures hs hchain expr).bind fun expr s₁ hs₁ hext₁ hexpr => ?_
      refine (bindUnaryExpr_ensures hs₁ _ _).bind fun info s₂ hs₂ hext₂ _ => ?_
      exact .pure hs₂ (hexpr.extends hext₂)

theorem bindExprs_ensures {s : BindState} (hs : Ready known s) {chain : FieldSetChain}
    (hchain : ChainValid s chain) : ∀ es : List (Ast.Expr String),
    Ensures (bindExprs chain es) s fun bs s' => AllWellBound known s' (Bound.relationsOfExprs bs)
  | [] => .pure hs.valid (allWellBound_nil _ _)
  | e :: es => by
      refine (bindExpr_ensures hs hchain e).bind fun e s₁ hs₁ hext₁ he => ?_
      refine (bindExprs_ensures (hs.extends hs₁ hext₁) (hchain.extends hext₁) es).bind
        fun es s₂ hs₂ hext₂ hes => ?_
      exact .pure hs₂ ((he.extends hext₂).append hes)

theorem bindExprOption_ensures {s : BindState} (hs : Ready known s) {chain : FieldSetChain}
    (hchain : ChainValid s chain) : ∀ e : Option (Ast.Expr String),
    Ensures (bindExprOption chain e) s fun b s' =>
      AllWellBound known s' (Bound.relationsOfExprOption b)
  | none => .pure hs.valid (allWellBound_nil _ _)
  | some e =>
      (bindExpr_ensures hs hchain e).bind fun _ _ hs₁ _ he => .pure hs₁ he

theorem bindExprsOption_ensures {s : BindState} (hs : Ready known s) {chain : FieldSetChain}
    (hchain : ChainValid s chain) : ∀ es : Option (List (Ast.Expr String)),
    Ensures (bindExprsOption chain es) s fun bs s' =>
      AllWellBound known s' (Bound.relationsOfExprsOption bs)
  | none => .pure hs.valid (allWellBound_nil _ _)
  | some es =>
      (bindExprs_ensures hs hchain es).bind fun _ _ hs₁ _ hes => .pure hs₁ hes

theorem bindProjector_ensures {s : BindState} (hs : Ready known s) {chain : FieldSetChain}
    (hchain : ChainValid s chain) : ∀ p : Ast.Projector String,
    Ensures (bindProjector chain p) s fun b s' =>
      AllWellBound known s' b.relations ∧ OutputsValid s' [b]
  | .star => .pure hs.valid ⟨allWellBound_nil _ _, fun _ hid => absurd hid List.not_mem_nil⟩
  | .identifier identifier => by
      refine (resolveName_ensures hs.valid hchain identifier).bind fun type s₁ hs₁ _ _ => ?_
      cases type with
      | none => exact throwAt_ensures _ _
      | some type =>
          refine (getOrAdd_computes hs₁ identifier type).ensures.bind fun id s₂ hs₂ _ hid => ?_
          exact .pure hs₂ ⟨allWellBound_nil _ _, List.forall_mem_singleton.mpr ⟨_, hid⟩⟩
  | .expr aliasName expr => by
      refine (bindExpr_ensures hs hchain expr).bind fun expr s₁ hs₁ _ hexpr => ?_
      refine (getOrAdd_computes hs₁ aliasName expr.valueType).ensures.bind
        fun id s₂ hs₂ hext₂ hid => ?_
      exact .pure hs₂ ⟨hexpr.extends hext₂, List.forall_mem_singleton.mpr ⟨_, hid⟩⟩

theorem bindProjectors_ensures {s : BindState} (hs : Ready known s) {chain : FieldSetChain}
    (hchain : ChainValid s chain) : ∀ ps : List (Ast.Projector String),
    Ensures (bindProjectors chain ps) s fun bs s' =>
      AllWellBound known s' (Bound.relationsOfProjectors bs) ∧ OutputsValid s' bs
  | [] => .pure hs.valid ⟨allWellBound_nil _ _, fun _ hid => absurd hid List.not_mem_nil⟩
  | p :: ps => by
      refine (bindProjector_ensures hs hchain p).bind fun p s₁ hs₁ hext₁ hp => ?_
      refine (bindProjectors_ensures (hs.extends hs₁ hext₁) (hchain.extends hext₁) ps).bind
        fun ps s₂ hs₂ hext₂ hps => ?_
      refine .pure hs₂ ⟨(hp.1.extends hext₂).append hps.1, fun id hid => ?_⟩
      rw [Bound.outputFields_cons] at hid
      rcases List.mem_append.mp hid with hid | hid
      · exact hp.2.extends hext₂ id hid
      · exact hps.2 id hid

theorem bindProjectorsOption_ensures {s : BindState} (hs : Ready known s) {chain : FieldSetChain}
    (hchain : ChainValid s chain) : ∀ ps : Option (List (Ast.Projector String)),
    Ensures (bindProjectorsOption chain ps) s fun bs s' =>
      AllWellBound known s' (Bound.relationsOfProjectorsOption bs) ∧
        ∀ ps ∈ bs, OutputsValid s' ps
  | none => .pure hs.valid ⟨allWellBound_nil _ _, fun _ hps => absurd hps (Option.not_mem_none _)⟩
  | some ps =>
      (bindProjectors_ensures hs hchain ps).bind fun _ _ hs₁ _ hps =>
        .pure hs₁ ⟨hps.1, fun _ h => Option.some.inj h ▸ hps.2⟩

theorem bindRelation_ensures {s : BindState} (hs : Ready known s) : ∀ r : Ast.Relation String,
    Ensures (bindRelation r) s fun b s' => AllWellBound known s' b.relations
  | .adhoc literals => by
      refine (bindLiterals_ensures hs.valid none literals).bind fun values s₁ hs₁ _ _ => ?_
      refine (getOrAdd_computes hs₁ _ _).ensures.bind fun id s₂ hs₂ _ hid => ?_
      refine .pure hs₂ (.cons ⟨rfl, fun x hx => ?_⟩ (allWellBound_nil _ _))
      rw [FieldSet.mem_withField.mp hx]
      exact ⟨_, hid⟩
  | .select projectors source limit whereCond having orderList orderDesc groupList => by
      refine (bindRelation_ensures hs source).bind fun source s₁ hs₁ hext₁ hsource => ?_
      have hr₁ := hs.extends hs₁ hext₁
      have hf₁ := (hsource source source.mem_relations).valid
      refine (bindExprOption_ensures hr₁ (chainValid_one hf₁) whereCond).bind
        fun whereCond s₂ hs₂ hext₂ hwhere => ?_
      refine (checkWhere_ensures hs₂ _).bind fun _ s₃ hs₃ hext₃ _ => ?_
      refine (checkLimit_ensures hs₃ _).bind fun _ s₄ hs₄ hext₄ _ => ?_
      have hext₁₄ := (hext₂.trans hext₃).trans hext₄
      have hr₄ := hr₁.extends hs₄ hext₁₄
      have hf₄ := hf₁.extends hext₁₄
      refine (bindProjectorsOption_ensures hr₄ (chainValid_one hf₄) groupList).bind
        fun groupList s₅ hs₅ hext₅ hgroup => ?_
      have hr₅ := hr₄.extends hs₅ hext₅
      have hf₅ := hf₄.extends hext₅
      -- what follows the two ways of binding the projectors
      have hrest : ∀ parts s₆, s₆.Valid → s₅.Extends s₆ →
          PartsBound known source.fieldsOut s₆ parts → Ensures (do
            let orderList ← bindExprsOption parts.orderByVisible orderList
            checkOrderBy (orderList.getD [])
            pure (Bound.Relation.select parts.projectors source limit whereCond parts.having
              orderList orderDesc groupList parts.aggregate parts.fieldsOut)) s₆
            fun b s' => AllWellBound known s' b.relations := by
        intro parts s₆ hs₆ hext₆ hparts
        refine (bindExprsOption_ensures (hr₅.extends hs₆ hext₆) hparts.chain orderList).bind
          fun orderList s₇ hs₇ hext₇ horder => ?_
        refine (checkOrderBy_ensures hs₇ _).bind fun _ s₈ hs₈ hext₈ _ => ?_
        have hext₆₈ := hext₇.trans hext₈
        have hext₅₈ := hext₆.trans hext₆₈
        have hext₁₈ := (hext₁₄.trans hext₅).trans hext₅₈
        have hwhere' := hwhere.extends (((hext₃.trans hext₄).trans hext₅).trans hext₅₈)
        refine .pure hs₈ (.cons ⟨hparts.fieldsOut, ?_⟩
          (((((hparts.projectors.extends hext₆₈).append (hsource.extends hext₁₈)).append
            hwhere').append (hparts.having.extends hext₆₈)).append
              (horder.extends hext₈) |>.append (hgroup.1.extends hext₅₈)))
        exact (hparts.fieldsOut_valid (hf₅.extends hext₆)).extends hext₆₈
      cases groupList with
      | none =>
          refine (bindProjectors_ensures hr₅ (chainValid_one hf₅) projectors).bind
            fun projectors s₆ hs₆ hext₆ hprojectors => ?_
          refine (simpleSelect_ensures hs₆ (hf₅.extends hext₆) hprojectors.1 hprojectors.2 _).bind
            fun parts s₇ hs₇ hext₇ hparts => ?_
          exact hrest parts s₇ hs₇ (hext₆.trans hext₇) hparts
      | some groupKey =>
          have hkeys := hgroup.2 groupKey rfl
          refine (checkGroupKeys_ensures hs₅ groupKey).bind fun _ s₆ hs₆ hext₆ _ => ?_
          have hr₆ := hr₅.extends hs₆ hext₆
          have hf₆ := hf₅.extends hext₆
          have hkeys₆ : (RelationFieldSet.fixed (outputFieldsOf groupKey)).Valid s₆ :=
            (hkeys.extends hext₆).fieldSet
          refine (bindProjectors_ensures hr₆ (chainValid_two hkeys₆ hf₆) projectors).bind
            fun projectors s₇ hs₇ hext₇ hprojectors => ?_
          refine (requireAt_ensures hs₇ _ _).bind fun _ s₈ hs₈ hext₈ _ => ?_
          refine (checkGroupedProjectors_ensures hs₈ _ projectors).bind
            fun _ s₉ hs₉ hext₉ _ => ?_
          have hext₇₉ := hext₈.trans hext₉
          have hext₆₉ := hext₇.trans hext₇₉
          have houtputs := hprojectors.2.extends hext₇₉
          have hvisible : (RelationFieldSet.fixed
              ((outputFieldsOf projectors).merge (outputFieldsOf groupKey))).Valid s₉ :=
            fieldSetValid_merge houtputs.fieldSet (hkeys₆.extends hext₆₉)
          refine (bindExprOption_ensures (hr₆.extends hs₉ hext₆₉)
            (chainValid_two hvisible (hf₆.extends hext₆₉)) having).bind
            fun having s₁₀ hs₁₀ hext₁₀ hhaving => ?_
          refine (checkHaving_ensures hs₁₀ _ having).bind fun _ s₁₁ hs₁₁ hext₁₁ _ => ?_
          have hext₉₁₁ := hext₁₀.trans hext₁₁
          refine hrest _ s₁₁ hs₁₁ (hext₆.trans (hext₆₉.trans hext₉₁₁)) {
            projectors := hprojectors.1.extends (hext₇₉.trans hext₉₁₁)
            having := hhaving.extends hext₁₁
            outputs := houtputs.extends hext₉₁₁
            chain := chainValid_one (hvisible.extends hext₉₁₁)
            fieldsOut := rfl }
  | .aliased aliasName source => by
      refine (bindRelation_ensures hs source).bind fun source s₁ hs₁ _ hsource => ?_
      exact .pure hs₁ (.cons ⟨rfl, (hsource source source.mem_relations).valid⟩ hsource)
  | .leftJoin left right condition => by
      rw [bindRelation.eq_def]
      refine (bindRelation_ensures hs left).bind fun left s₁ hs₁ hext₁ hleft => ?_
      have hr₁ := hs.extends hs₁ hext₁
      refine (bindRelation_ensures hr₁ right).bind fun right s₂ hs₂ hext₂ hright => ?_
      have hr₂ := hr₁.extends hs₂ hext₂
      have hleft₂ := hleft.extends hext₂
      have hfields := combined_valid hleft₂ hright
      cases condition with
      | binary type first second =>
          cases type with
          | equal =>
              refine (bindExpr_ensures hr₂ (chainValid_one hfields) first).bind
                fun first s₃ hs₃ hext₃ hfirst => ?_
              have hfields₃ := hfields.extends hext₃
              refine (bindExpr_ensures (hr₂.extends hs₃ hext₃) (chainValid_one hfields₃)
                second).bind fun second s₄ hs₄ hext₄ hsecond => ?_
              refine (requireAt_ensures hs₄ _ _).bind fun _ s₅ hs₅ hext₅ _ => ?_
              refine (bindBinaryExpr_ensures hs₅ _ _ _).bind fun _ s₆ hs₆ hext₆ _ => ?_
              have hext₄₆ := hext₅.trans hext₆
              have hext := (hext₃.trans hext₄).trans hext₄₆
              exact .pure hs₆ (.cons ⟨rfl, hfields.extends hext⟩
                ((((hleft₂.extends hext).append (hright.extends hext)).append
                  (hfirst.extends (hext₄.trans hext₄₆))).append (hsecond.extends hext₄₆)))
          | _ => exact throwAt_ensures _ _
      | _ => exact throwAt_ensures _ _
  | .unionAll left right => by
      refine (bindRelation_ensures hs left).bind fun left s₁ hs₁ hext₁ hleft => ?_
      refine (bindRelation_ensures (hs.extends hs₁ hext₁) right).bind
        fun right s₂ hs₂ hext₂ hright => ?_
      have hleft₂ := hleft.extends hext₂
      exact .pure hs₂ (.cons ⟨rfl, combined_valid hleft₂ hright⟩ (hleft₂.append hright))
  | .unionAllSortedBy left right orderList desc => by
      refine (bindRelation_ensures hs left).bind fun left s₁ hs₁ hext₁ hleft => ?_
      have hr₁ := hs.extends hs₁ hext₁
      refine (bindRelation_ensures hr₁ right).bind fun right s₂ hs₂ hext₂ hright => ?_
      have hleft₂ := hleft.extends hext₂
      have hfields := combined_valid hleft₂ hright
      refine (bindExprs_ensures (hr₁.extends hs₂ hext₂) (chainValid_one hfields) orderList).bind
        fun orderList s₃ hs₃ hext₃ horder => ?_
      refine (requireAt_ensures hs₃ _ _).bind fun _ s₄ hs₄ hext₄ _ => ?_
      have hext := hext₃.trans hext₄
      exact .pure hs₄ (.cons ⟨rfl, hfields.extends hext⟩
        (((hleft₂.extends hext).append (hright.extends hext)).append (horder.extends hext₄)))
  | .file path range timeFormat => by
      refine (bindRange_ensures hs.valid path range).bind fun range s₁ hs₁ _ _ => ?_
      refine (bindTimeFormat_ensures hs₁ timeFormat).bind fun timeFormat s₂ hs₂ _ _ => ?_
      refine (newOpen_ensures hs₂).bind fun fields s₃ hs₃ _ hfields => ?_
      exact .pure hs₃ (.cons ⟨hfields.1, hfields.2⟩ (allWellBound_nil _ _))
  | .stream command => by
      refine (newOpen_ensures hs.valid).bind fun fields s₁ hs₁ _ hfields => ?_
      exact .pure hs₁ (.cons ⟨hfields.1, hfields.2⟩ (allWellBound_nil _ _))
  | .namedRelationReference name => by
      intro b s' h
      rw [bindRelation] at h
      obtain ⟨t, s₁, hget, h⟩ := binder_bind_ok.mp h
      cases hget
      cases hlookup : s.named.lookup name with
      | none =>
          simp only [hlookup] at h
          cases h
      | some f =>
          simp only [hlookup] at h
          cases h
          have hf : f ∈ known := by
            rw [← hs.known_eq]
            exact mem_of_lookup hlookup
          exact ⟨hs.valid, .refl s, .cons ⟨hf, hs.known_valid f hf⟩ (allWellBound_nil _ _)⟩
  | .materialize relation => by
      refine (bindRelation_ensures hs relation).bind fun relation s₁ hs₁ _ hrelation => ?_
      exact .pure hs₁ (.cons ⟨rfl, (hrelation relation relation.mem_relations).valid⟩ hrelation)

end

end Bind

end Lsql.Front
