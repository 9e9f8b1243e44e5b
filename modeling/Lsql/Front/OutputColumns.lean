import Lsql.Front.Checked
import Lsql.Front.LowerColumns
import Lsql.Front.UniqueNames

/-!
# Lsql.Front.OutputColumns

The columns that the binder gives to a relation and those that the relation is lowered to.

They are computed apart from each other: the binder grows sets of fields while names are resolved, the
lowering lists slots. What the binder reports is always among the slots. The slots are no more than that
but for one form: a star in a `SELECT` with a `GROUP BY`, which the lowering takes for the keys and the
binder for nothing.
-/

namespace Lsql.Front

open Bound (outputFields outputFieldsOf)

namespace Bound

/-- A star over the keys of a `GROUP BY`. -/
def Relation.GroupedStar : Relation → Prop
  | .select projectors _ _ _ _ _ _ groupList _ _ =>
    groupList.isSome = true ∧ projectors.any Projector.isStar = true
  | _ => False

/-- No star over the keys of a `GROUP BY` is in a tree. -/
def Relation.Plain (r : Relation) : Prop := ∀ q ∈ r.relations, ¬ q.GroupedStar

theorem Relation.Plain.source {r : Relation} (h : r.Plain) : ∀ q ∈ r.sources, q.Plain :=
  fun _ hq p hp => h p (mem_relations_of_source hq hp)

end Bound

namespace Lower

/-- A slot for a column. -/
def SlotHas (b : FieldBinding) (ids : List FieldId) (c : Column) : Prop :=
  ∃ id ∈ ids, b.entry id = some c

/-- Every column of a field set has a slot; no other column has one, where that can be expected. -/
structure SameColumns (bound : BindState) (b : FieldBinding) (plain : Prop) (f : RelationFieldSet)
    (ids : List FieldId) : Prop where
  listed : ∀ c, f.Has bound c → SlotHas b ids c
  only : plain → ∀ c, SlotHas b ids c → f.Has bound c

section Columns

variable {bound : BindState} {b : FieldBinding} {plain : Prop}

/-- The output fields of projectors, with more fields in the binding. -/
theorem outputHas_iff (hgrown : bound.binding.entries <+: b.entries) {ps : List Bound.Projector}
    (hps : FieldSetValid bound.binding (outputFieldsOf ps)) {c : Column} :
    FieldSetHas bound.binding (outputFieldsOf ps) c ↔ SlotHas b (outputFields ps) c := by
  rw [fieldSetHas_outputFieldsOf]
  constructor
  · rintro ⟨id, hid, hc⟩
    exact ⟨id, hid, FieldBinding.entry_of_prefix hgrown hc⟩
  · rintro ⟨id, hid, hc⟩
    obtain ⟨c', hc'⟩ := hps id ((FieldSet.mem_addAll).mpr (.inr hid))
    cases (FieldBinding.entry_of_prefix hgrown hc').symm.trans hc
    exact ⟨id, hid, hc'⟩

/-- The columns of a list are the output fields of its projectors and what a star stands for. -/
theorem mem_boundSlots {star : List FieldId} {ps : List Bound.Projector} {id : FieldId} :
    id ∈ ps.flatMap (boundSlots star) ↔
      id ∈ outputFields ps ∨ ps.any Bound.Projector.isStar = true ∧ id ∈ star := by
  induction ps with
  | nil => exact ⟨fun h => absurd h List.not_mem_nil, fun h => h.elim (fun h => h) fun h => by cases h.1⟩
  | cons p ps ih =>
      rw [List.flatMap_cons, List.mem_append, ih, Bound.outputFields_cons, List.mem_append,
        List.any_cons, Bool.or_eq_true]
      cases p with
      | star =>
          show id ∈ star ∨ _ ↔ (id ∈ [] ∨ _) ∨ (true = true ∨ _) ∧ _
          simp only [List.not_mem_nil, false_or, true_or, true_and]
          tauto
      | identifier id' | expr id' e =>
          show id ∈ [id'] ∨ _ ↔ (id ∈ [id'] ∨ _) ∨ (false = true ∨ _) ∧ _
          rw [or_assoc, or_iff_right Bool.false_ne_true]

theorem slotHas_append {ids ids' : List FieldId} {c : Column} :
    SlotHas b (ids ++ ids') c ↔ SlotHas b ids c ∨ SlotHas b ids' c := by
  constructor
  · rintro ⟨id, hid, hc⟩
    exact (List.mem_append.mp hid).imp (fun hid => ⟨id, hid, hc⟩) fun hid => ⟨id, hid, hc⟩
  · rintro (⟨id, hid, hc⟩ | ⟨id, hid, hc⟩)
    · exact ⟨id, List.mem_append_left _ hid, hc⟩
    · exact ⟨id, List.mem_append_right _ hid, hc⟩

/-- A select list. -/
theorem slotHas_select [HashOrder] {groupList : Option (List Bound.Projector)}
    {ps : List Bound.Projector} {ids : List FieldId} {c : Column} :
    (SlotHas b (outputFields ps) c → SlotHas b (selectSlots groupList ps ids) c) ∧
      (groupList = none → (SlotHas b (selectSlots groupList ps ids) c ↔
        SlotHas b (outputFields ps) c ∨ ps.any Bound.Projector.isStar = true ∧ SlotHas b ids c)) := by
  refine ⟨?_, ?_⟩
  · rintro ⟨id, hid, hc⟩
    exact ⟨id, mem_boundSlots.mpr (.inl hid), hc⟩
  · rintro rfl
    constructor
    · rintro ⟨id, hid, hc⟩
      refine (mem_boundSlots.mp hid).imp (fun hid => ⟨id, hid, hc⟩) fun hid => ⟨hid.1, id, ?_, hc⟩
      exact (HashOrder.perm ids).mem_iff.mp hid.2
    · rintro (⟨id, hid, hc⟩ | ⟨hstar, id, hid, hc⟩)
      · exact ⟨id, mem_boundSlots.mpr (.inl hid), hc⟩
      · exact ⟨id, mem_boundSlots.mpr (.inr ⟨hstar, (HashOrder.perm ids).mem_iff.mpr hid⟩), hc⟩

/-- The columns of an alias. -/
theorem slotHas_aliased {aliasName : String} {ids ids' : List FieldId}
    (halias : List.Forall₂ (AliasOf b aliasName) ids ids') {c : Column} :
    SlotHas b ids' c ↔ ∃ name, c.1 = aliasName ++ "." ++ name ∧ SlotHas b ids (name, c.2) := by
  constructor
  · rintro ⟨id', hid', hc⟩
    obtain ⟨id, hid, name, type, hsource, hentry⟩ := forall₂_mem_right halias hid'
    cases hentry.symm.trans hc
    exact ⟨name, rfl, id, hid, hsource⟩
  · rintro ⟨name, hname, id, hid, hc⟩
    obtain ⟨id', hid', name', type, hsource, hentry⟩ := forall₂_mem_left halias hid
    cases hsource.symm.trans hc
    refine ⟨id', hid', hentry.trans ?_⟩
    rw [← hname]

/-- The relations that have been named are the same in both, with the same columns. -/
structure SameNames (bound : BindState) (b : FieldBinding) (plain : Prop)
    (names : List (String × RelationFieldSet)) (named : String → Option Schema) : Prop where
  unnamed : ∀ name, named name = none → names.lookup name = none
  columns : ∀ name f schema, names.lookup name = some f → named name = some schema →
    SameColumns bound b plain f schema.fields

/-- One more relation is named. -/
theorem SameNames.update {names : List (String × RelationFieldSet)} {named : String → Option Schema}
    (h : SameNames bound b plain names named) {name : String} (hnew : named name = none)
    {f : RelationFieldSet} {schema : Schema} (hf : SameColumns bound b plain f schema.fields) :
    SameNames bound b plain (names ++ [(name, f)])
      (Function.update named name (some schema)) where
  unnamed name' hname' := by
    have hne : name' ≠ name := by
      rintro rfl
      rw [Function.update_self] at hname'
      cases hname'
    rw [Function.update_of_ne hne] at hname'
    rw [List.lookup_append, h.unnamed name' hname', Option.none_or, List.lookup_cons,
      beq_false_of_ne hne]
    rfl
  columns name' f' schema' hf' hschema' := by
    rw [List.lookup_append] at hf'
    by_cases hne : name' = name
    · subst hne
      rw [h.unnamed name' hnew, Option.none_or, List.lookup_cons_self] at hf'
      rw [Function.update_self] at hschema'
      cases hf'
      cases hschema'
      exact hf
    · have hother : [(name, f)].lookup name' = none := by
        rw [List.lookup_cons, beq_false_of_ne hne]
        rfl
      rw [hother, Option.or_none] at hf'
      rw [Function.update_of_ne hne] at hschema'
      exact h.columns name' f' schema' hf' hschema'

/-- The fields that have been required of a file. -/
theorem sameColumns_opened [HashOrder] (hvalid : bound.Valid) (hgrown : bound.binding.entries <+: b.entries)
    {cell : Nat} {fields : FieldSet} (hcell : bound.openFields[cell]? = some fields) :
    SameColumns bound b plain (.opened cell) fields.fieldIds where
  listed c hc := by
    obtain ⟨fields', hcell', id, hid, hc⟩ := hc
    cases hcell.symm.trans hcell'
    exact ⟨id, FieldSet.mem_fieldIds.mpr hid, FieldBinding.entry_of_prefix hgrown hc⟩
  only _ c hc := by
    obtain ⟨id, hid, hc⟩ := hc
    rw [FieldSet.mem_fieldIds] at hid
    obtain ⟨name, hname⟩ := hvalid.opened hcell id hid
    cases (FieldBinding.entry_of_prefix hgrown hname).symm.trans hc
    exact ⟨fields, hcell, id, hid, hname⟩

/-- Two inputs. -/
theorem SameColumns.both [HashOrder] {f f' : RelationFieldSet} {ids ids' : List FieldId}
    (h : SameColumns bound b plain f ids) (h' : SameColumns bound b plain f' ids')
    {all : List FieldId} (hall : ∀ c, SlotHas b all c ↔ SlotHas b ids c ∨ SlotHas b ids' c) :
    SameColumns bound b plain (.combined .emptySet [f, f']) all where
  listed c hc := (hall c).mpr ((has_both.mp hc).imp (h.listed c) (h'.listed c))
  only hplain c hc := has_both.mpr (((hall c).mp hc).imp (h.only hplain c) (h'.only hplain c))

end Columns

section Relations

variable [HashOrder] {bound : BindState} {b : FieldBinding} {plain : Prop}
  {names : List (String × RelationFieldSet)} {known : List RelationFieldSet}
  {named : String → Option Schema}

/-- A `SELECT`. The shape of its list excludes a star beside aggregates. -/
theorem sameColumns_select (hgrown : bound.binding.entries <+: b.entries)
    {ps : List Bound.Projector} {source : Bound.Relation} {limit : Option Int}
    {whereCond having : Option Bound.Expr} {orderList : Option (List Bound.Expr)} {orderDesc : Bool}
    {groupList : Option (List Bound.Projector)} {aggregate : Bool} {f : RelationFieldSet}
    {ids : List FieldId}
    (hbound : (Bound.Relation.select ps source limit whereCond having orderList orderDesc groupList
      aggregate f).WellBound known bound)
    (hshape : Bound.SelectShape (ps.any Bound.Projector.isStar) groupList.isSome aggregate having.isSome)
    (hplain : plain → ¬ (Bound.Relation.select ps source limit whereCond having orderList orderDesc
      groupList aggregate f).GroupedStar)
    (hsource : SameColumns bound b plain source.fieldsOut ids) :
    SameColumns bound b plain f (selectSlots groupList ps ids) := by
  obtain ⟨rfl, hvalid⟩ := hbound
  rw [Bound.Relation.fieldsOut] at hvalid
  by_cases hstar : aggregate = false ∧ ps.any Bound.Projector.isStar = true
  · rw [if_pos hstar] at hvalid ⊢
    have hnone : groupList = none := by
      cases groupList with
      | none => rfl
      | some keys => exact absurd (hshape.aggregate rfl) (by simp [hstar.1])
    refine ⟨fun c hc => ?_, fun hp c hc => ?_⟩
    · refine (slotHas_select.2 hnone).mpr ?_
      rcases hc with hc | hc | hc
      · exact .inl ((outputHas_iff hgrown hvalid.1).mp hc)
      · exact .inr ⟨hstar.2, hsource.listed c hc⟩
      · exact hc.elim
    · rcases (slotHas_select.2 hnone).mp hc with hc | ⟨-, hc⟩
      · exact .inl ((outputHas_iff hgrown hvalid.1).mpr hc)
      · exact .inr (.inl (hsource.only hp c hc))
  · rw [if_neg hstar] at hvalid ⊢
    refine ⟨fun c hc => slotHas_select.1 ((outputHas_iff hgrown hvalid).mp hc), fun hp c hc => ?_⟩
    have hnostar : ps.any Bound.Projector.isStar = false := by
      cases hgroup : groupList with
      | none =>
          rw [hgroup] at hshape
          cases haggregate : aggregate with
          | false => exact Bool.eq_false_iff.mpr fun h => hstar ⟨haggregate, h⟩
          | true => exact hshape.star rfl haggregate
      | some keys =>
          refine Bool.eq_false_iff.mpr fun h => hplain hp ⟨?_, h⟩
          rw [hgroup]
          rfl
    obtain ⟨id, hid, hc⟩ := hc
    rcases mem_boundSlots.mp hid with hid | ⟨h, -⟩
    · exact (outputHas_iff hgrown hvalid).mpr ⟨id, hid, hc⟩
    · exact absurd h (Bool.eq_false_iff.mp hnostar)

/-- **The binder and the lowering agree on the columns of a relation**, without a star over the keys of
a `GROUP BY` in it. -/
theorem Slots.sameColumns (hvalid : bound.Valid) (hgrown : bound.binding.entries <+: b.entries)
    (hnames : SameNames bound b plain names named) {r : Bound.Relation} {ids : List FieldId}
    (h : Slots b bound.openFields named r ids) (hchecked : r.Checked names bound.binding)
    (hbound : Bound.AllWellBound known bound r.relations) (hplain : plain → r.Plain) :
    SameColumns bound b plain r.fieldsOut ids := by
  induction h with
  | @adhoc values id f =>
      obtain ⟨rfl, hid⟩ := hbound _ (Bound.Relation.mem_relations _)
      refine ⟨fun c hc => ?_, fun _ c hc => ?_⟩
      · obtain ⟨id', hid', hc⟩ := hc
        cases FieldSet.mem_withField.mp hid'
        exact ⟨id, List.mem_singleton_self id, FieldBinding.entry_of_prefix hgrown hc⟩
      · obtain ⟨id', hid', hc⟩ := hc
        cases List.mem_singleton.mp hid'
        obtain ⟨c', hc'⟩ := hid id (FieldSet.mem_withField.mpr rfl)
        cases (FieldBinding.entry_of_prefix hgrown hc').symm.trans hc
        exact ⟨id, FieldSet.mem_withField.mpr rfl, hc'⟩
  | @select ps source limit whereCond having orderList orderDesc groupList aggregate f ids _ ih =>
      have hself := hbound _ (Bound.Relation.mem_relations _)
      obtain ⟨hshape, -, hchecked, -⟩ := hchecked
      exact sameColumns_select hgrown hself hshape
        (fun hp => hplain hp _ (Bound.Relation.mem_relations _))
        (ih hchecked (hbound.source source List.mem_cons_self)
          fun hp => (hplain hp).source source List.mem_cons_self)
  | @aliased aliasName source f ids ids' _ halias ih =>
      obtain ⟨rfl, _⟩ := hbound _ (Bound.Relation.mem_relations _)
      have hsource := ih hchecked (hbound.source source List.mem_cons_self)
        fun hp => (hplain hp).source source List.mem_cons_self
      refine ⟨fun c hc => ?_, fun hp c hc => ?_⟩
      · obtain ⟨name, hname, hc⟩ := hc
        exact (slotHas_aliased halias).mpr ⟨name, hname, hsource.listed _ hc⟩
      · obtain ⟨name, hname, hc⟩ := (slotHas_aliased halias).mp hc
        exact ⟨name, hname, hsource.only hp _ hc⟩
  | @leftJoin left right leftKey rightKey f ids ids' _ _ ihl ihr =>
      obtain ⟨rfl, _⟩ := hbound _ (Bound.Relation.mem_relations _)
      exact (ihl hchecked.1 (hbound.source left List.mem_cons_self)
          fun hp => (hplain hp).source left List.mem_cons_self).both
        (ihr hchecked.2.1 (hbound.source right (List.mem_cons_of_mem _ List.mem_cons_self))
          fun hp => (hplain hp).source right (List.mem_cons_of_mem _ List.mem_cons_self))
        fun c => slotHas_append
  | @unionAll left right f ids _ _ ihl ihr =>
      obtain ⟨rfl, _⟩ := hbound _ (Bound.Relation.mem_relations _)
      exact (ihl hchecked.1 (hbound.source left List.mem_cons_self)
          fun hp => (hplain hp).source left List.mem_cons_self).both
        (ihr hchecked.2 (hbound.source right (List.mem_cons_of_mem _ List.mem_cons_self))
          fun hp => (hplain hp).source right (List.mem_cons_of_mem _ List.mem_cons_self))
        fun c => (or_self_iff).symm
  | @unionAllSortedBy left right orderList desc f ids _ _ ihl ihr =>
      obtain ⟨rfl, _⟩ := hbound _ (Bound.Relation.mem_relations _)
      exact (ihl hchecked.1 (hbound.source left List.mem_cons_self)
          fun hp => (hplain hp).source left List.mem_cons_self).both
        (ihr hchecked.2.1 (hbound.source right (List.mem_cons_of_mem _ List.mem_cons_self))
          fun hp => (hplain hp).source right (List.mem_cons_of_mem _ List.mem_cons_self))
        fun c => (or_self_iff).symm
  | file hcell => exact sameColumns_opened hvalid hgrown hcell
  | stream hcell => exact sameColumns_opened hvalid hgrown hcell
  | @reference name f schema hname => exact hnames.columns name f schema hchecked hname
  | @materialize relation f ids _ ih =>
      obtain ⟨rfl, _⟩ := hbound _ (Bound.Relation.mem_relations _)
      exact ih hchecked (hbound.source relation List.mem_cons_self)
        fun hp => (hplain hp).source relation List.mem_cons_self

end Relations

section Programs

variable [HashOrder]

/-- Statements, with their relations that have been named before. -/
theorem ProgramSlots.sameColumns {bound : BindState} (hvalid : bound.Valid) {b : FieldBinding}
    (hgrown : bound.binding.entries <+: b.entries) {plain : Prop}
    {names : List (String × RelationFieldSet)} {known : List RelationFieldSet}
    {named : String → Option Schema} (hnames : SameNames bound b plain names named)
    {statements : List Bound.Statement} {irs : List Ir.Statement}
    (h : ProgramSlots b bound.openFields named statements irs)
    (hchecked : Bound.CheckedStatements bound.binding names statements)
    (hbound : Bound.StatementsWellBound bound known statements)
    (hplain : plain → ∀ statement ∈ statements, statement.relation.Plain) :
    List.Forall₂ (fun statement ir => SameColumns bound b plain
      statement.relation.fieldsOut ir.schema.fields) statements irs := by
  induction h generalizing names known with
  | nil => exact .nil
  | query hr _ ih =>
      have hplains := fun hp => List.forall_mem_cons.mp (hplain hp)
      exact .cons (hr.sameColumns hvalid hgrown hnames hchecked.1 hbound.1 fun hp => (hplains hp).1)
        (ih hnames hchecked.2 hbound.2 fun hp => (hplains hp).2)
  | namedRelation hnew hr _ ih =>
      have hplains := fun hp => List.forall_mem_cons.mp (hplain hp)
      have hsame := hr.sameColumns hvalid hgrown hnames hchecked.1 hbound.1 fun hp => (hplains hp).1
      exact .cons hsame (ih (hnames.update hnew hsame) hchecked.2 hbound.2 fun hp => (hplains hp).2)

variable [Platform]

/-- **The columns that the binder reports of the statements of an accepted program have slots in what
the statements are lowered to**, and no other columns have if no relation of the program has a star over
the keys of a `GROUP BY`. -/
theorem statements_columns {program : Ast.Program String} {statements : List Bound.Statement}
    {bound : BindState} {ir : Ir.Program} (hbind : bind program = .ok (statements, bound))
    (hlower : lowerProgram statements bound = .ok ir) :
    List.Forall₂ (fun statement ir' => SameColumns bound ir.fieldBinding
      (∀ statement ∈ statements, statement.relation.Plain) statement.relation.fieldsOut
      ir'.schema.fields) statements ir.statements := by
  obtain ⟨hvalid, hbound⟩ := bind_spec hbind
  obtain ⟨hgrown, -, hslots⟩ := lowerProgram_slots hbind hlower
  refine hslots.sameColumns hvalid hgrown ⟨fun _ _ => rfl, fun name f schema hf => ?_⟩
    (bind_checked hbind) hbound fun hplain => hplain
  cases hf

end Programs

theorem statements_columns_starred : ∃ statements bound ir,
    @bind .insertion .inert [starred] = .ok (statements, bound) ∧
      @lowerProgram .insertion statements bound = .ok ir ∧
      List.Forall₂ (fun statement ir' => SameColumns bound ir.fieldBinding
        (∀ statement ∈ statements, statement.relation.Plain) statement.relation.fieldsOut
        ir'.schema.fields) statements ir.statements := by
  have hok : ((@bind .insertion .inert [starred]).bind fun r =>
      @lowerProgram .insertion r.1 r.2).isOk = true := by decide +kernel
  obtain ⟨ir, h⟩ := exists_of_isOk hok
  obtain ⟨⟨statements, bound⟩, hbind, hlower⟩ := bind_eq_ok.mp h
  exact ⟨statements, bound, ir, hbind, hlower,
    @statements_columns .insertion .inert [starred] statements bound ir hbind hlower⟩

end Lower

end Lsql.Front
