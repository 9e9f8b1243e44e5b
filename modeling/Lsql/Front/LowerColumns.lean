import Lsql.Front.Accepted
import Lsql.Front.LowerFits

/-!
# Lsql.Front.LowerColumns

The columns that a lowered relation has.

`Slots` reads them off the bound relation: a `SELECT` has those of its list, a join those of its inputs
one behind the other, an alias those of its source under other names. A file has the fields that the
whole program requires of it, in the order in which the set of them is iterated; both inputs of a union
have the same columns in the same slots.
-/

namespace Lsql.Front

/-- The relations of a source are among those of the tree. -/
theorem Bound.Relation.mem_relations_of_source {r q p : Bound.Relation} (hq : q ∈ r.sources)
    (hp : p ∈ q.relations) : p ∈ r.relations := by
  cases r <;> simp only [Bound.Relation.sources, List.mem_cons, List.not_mem_nil, or_false] at hq
  case select | aliased | materialize =>
    subst hq
    simp only [Bound.Relation.relations, List.mem_cons, List.mem_append, hp, true_or, or_true]
  case unionAll | leftJoin | unionAllSortedBy =>
    rcases hq with rfl | rfl <;>
      simp only [Bound.Relation.relations, List.mem_cons, List.mem_append, hp, true_or, or_true]

/-- What holds of all relations of a tree holds of those of a source. -/
theorem Bound.AllWellBound.source {known : List RelationFieldSet} {s : BindState} {r : Bound.Relation}
    (h : Bound.AllWellBound known s r.relations) : ∀ q ∈ r.sources,
    Bound.AllWellBound known s q.relations := fun _ hq p hp =>
  h p (Bound.Relation.mem_relations_of_source hq hp)

namespace Lower

/-- The columns of a projector, with those of a star. -/
def boundSlots (star : List FieldId) : Bound.Projector → List FieldId
  | .star => star
  | .identifier id => [id]
  | .expr id _ => [id]

/-- The columns of a select list over the columns of a source. A star stands for the columns of the
source, or for the keys of a `GROUP BY`. -/
def selectSlots (groupList : Option (List Bound.Projector)) (projectors : List Bound.Projector)
    (source : List FieldId) [HashOrder] : List FieldId :=
  let star := match groupList with
    | none => HashOrder.order source
    | some keys => HashOrder.order (keys.flatMap (boundSlots (HashOrder.order source)))
  projectors.flatMap (boundSlots star)

/-- A field is another one under an alias. -/
def AliasOf (b : FieldBinding) (aliasName : String) (source id : FieldId) : Prop :=
  ∃ name type, b.entry source = some (name, type) ∧
    b.entry id = some (aliasName ++ "." ++ name, type)

/-- The columns of a relation, slot for slot. -/
inductive Slots [HashOrder] (b : FieldBinding) (opened : List FieldSet)
    (named : String → Option Schema) : Bound.Relation → List FieldId → Prop
  | adhoc {values : List Value} {id : FieldId} {f : RelationFieldSet} :
      Slots b opened named (.adhoc values id f) [id]
  | select {projectors : List Bound.Projector} {source : Bound.Relation} {limit : Option Int}
      {whereCond having : Option Bound.Expr} {orderList : Option (List Bound.Expr)}
      {orderDesc : Bool} {groupList : Option (List Bound.Projector)} {aggregate : Bool}
      {f : RelationFieldSet} {ids : List FieldId} :
      Slots b opened named source ids →
      Slots b opened named (.select projectors source limit whereCond having orderList orderDesc
        groupList aggregate f) (selectSlots groupList projectors ids)
  | aliased {aliasName : String} {source : Bound.Relation} {f : RelationFieldSet}
      {ids ids' : List FieldId} :
      Slots b opened named source ids → List.Forall₂ (AliasOf b aliasName) ids ids' →
      Slots b opened named (.aliased aliasName source f) ids'
  | leftJoin {left right : Bound.Relation} {leftKey rightKey : Bound.Expr} {f : RelationFieldSet}
      {ids ids' : List FieldId} :
      Slots b opened named left ids → Slots b opened named right ids' →
      Slots b opened named (.leftJoin left right leftKey rightKey f) (ids ++ ids')
  | unionAll {left right : Bound.Relation} {f : RelationFieldSet} {ids : List FieldId} :
      Slots b opened named left ids → Slots b opened named right ids →
      Slots b opened named (.unionAll left right f) ids
  | unionAllSortedBy {left right : Bound.Relation} {orderList : List Bound.Expr} {desc : Bool}
      {f : RelationFieldSet} {ids : List FieldId} :
      Slots b opened named left ids → Slots b opened named right ids →
      Slots b opened named (.unionAllSortedBy left right orderList desc f) ids
  | file {path : String} {range : Option Plan.TimeRange} {timeFormat : Option TimeFormat}
      {cell : Nat} {fields : FieldSet} : opened[cell]? = some fields →
      Slots b opened named (.file path range timeFormat (.opened cell)) fields.fieldIds
  | stream {command : String} {cell : Nat} {fields : FieldSet} : opened[cell]? = some fields →
      Slots b opened named (.stream command (.opened cell)) fields.fieldIds
  | reference {name : String} {f : RelationFieldSet} {schema : Schema} : named name = some schema →
      Slots b opened named (.namedRelationReference name f) schema.fields
  | materialize {relation : Bound.Relation} {f : RelationFieldSet} {ids : List FieldId} :
      Slots b opened named relation ids → Slots b opened named (.materialize relation f) ids

section Slots

variable [HashOrder] {b b' : FieldBinding} {opened : List FieldSet}
  {named : String → Option Schema} {r : Bound.Relation} {ids ids' : List FieldId}

omit [HashOrder] in
theorem AliasOf.mono (h : b.entries <+: b'.entries) {aliasName : String} {source id : FieldId}
    (hid : AliasOf b aliasName source id) : AliasOf b' aliasName source id := by
  obtain ⟨name, type, hsource, hid⟩ := hid
  exact ⟨name, type, FieldBinding.entry_of_prefix h hsource, FieldBinding.entry_of_prefix h hid⟩

/-- Fields that are added later change nothing. -/
theorem Slots.mono (h : b.entries <+: b'.entries) (hr : Slots b opened named r ids) :
    Slots b' opened named r ids := by
  induction hr with
  | adhoc => exact .adhoc
  | select _ ih => exact .select ih
  | aliased _ halias ih => exact .aliased ih (halias.imp fun _ _ hid => hid.mono h)
  | leftJoin _ _ ihl ihr => exact .leftJoin ihl ihr
  | unionAll _ _ ihl ihr => exact .unionAll ihl ihr
  | unionAllSortedBy _ _ ihl ihr => exact .unionAllSortedBy ihl ihr
  | file hcell => exact .file hcell
  | stream hcell => exact .stream hcell
  | reference hname => exact .reference hname
  | materialize _ ih => exact .materialize ih

omit [HashOrder] in
theorem AliasOf.unique (hb : b.entries.Nodup) {aliasName : String} {source id id' : FieldId}
    (h : AliasOf b aliasName source id) (h' : AliasOf b aliasName source id') : id = id' := by
  obtain ⟨name, type, hsource, hid⟩ := h
  obtain ⟨name', type', hsource', hid'⟩ := h'
  cases hsource.symm.trans hsource'
  exact FieldBinding.entry_inj hb hid hid'

/-- The columns are determined by the bound relation. -/
theorem Slots.unique (hb : b.entries.Nodup) (h : Slots b opened named r ids)
    (h' : Slots b opened named r ids') : ids = ids' := by
  induction h generalizing ids' with
  | adhoc =>
      cases h'
      rfl
  | select _ ih =>
      cases h' with
      | select h' => rw [ih h']
  | aliased _ halias ih =>
      cases h' with
      | aliased h' halias' =>
          cases ih h'
          exact List.right_unique_forall₂' (fun _ _ _ h h' => h.unique hb h') halias halias'
  | leftJoin _ _ ihl ihr =>
      cases h' with
      | leftJoin hl hr => rw [ihl hl, ihr hr]
  | unionAll _ _ ihl _ =>
      cases h' with
      | unionAll hl _ => exact ihl hl
  | unionAllSortedBy _ _ ihl _ =>
      cases h' with
      | unionAllSortedBy hl _ => exact ihl hl
  | file hcell =>
      cases h' with
      | file hcell' => rw [Option.some.inj (hcell.symm.trans hcell')]
  | stream hcell =>
      cases h' with
      | stream hcell' => rw [Option.some.inj (hcell.symm.trans hcell')]
  | reference hname =>
      cases h' with
      | reference hname' => rw [Option.some.inj (hname.symm.trans hname')]
  | materialize _ ih =>
      cases h' with
      | materialize h' => exact ih h'

end Slots

/-! ### Lowering -/

section Lowering

variable {named : String → Option Schema}

/-- What is left of a computation that has returned. -/
theorem Marking.result {α : Type} {x : Lowerer α} {P : α → Prop} (h : Marking named x P)
    {s s' : LowerState} {a : α} (hnamed : s.schemaOf = named) (hrun : x s = .ok (a, s')) :
    s.Amid s' ∧ P a := by
  obtain ⟨hamid, -, ha⟩ := h s.currRelation s a s' hnamed rfl hrun
  exact ⟨hamid, ha⟩

theorem entry_of_name_type {b : FieldBinding} {id : FieldId} {name : String} {type : ValueType}
    (hname : b.name id = .ok name) (htype : b.type id = .ok type) :
    b.entry id = some (name, type) := by
  unfold FieldBinding.name at hname
  unfold FieldBinding.type at htype
  split at hname
  next c hc =>
    rw [hc] at htype
    cases hname
    cases htype
    exact hc
  · cases hname

theorem lift_ok {α : Type} {y : Except Fault α} {s s' : LowerState} {a : α}
    (h : (liftM y : Lowerer α) s = .ok (a, s')) : y = .ok a ∧ s' = s := by
  obtain ⟨a', hy, hpure⟩ := bind_eq_ok.mp h
  cases hpure
  exact ⟨hy, rfl⟩

/-- Every field gets another one of its type, under the name of the alias. -/
theorem aliasProjectors_aliasOf {aliasName : String} {ids : List FieldId} {s s' : LowerState}
    {ps : List Ir.Projector} (h : aliasProjectors aliasName ids s = .ok (ps, s')) :
    List.Forall₂ (AliasOf s'.binding aliasName) ids (aliases ps) := by
  induction ids generalizing s ps with
  | nil =>
      cases h
      exact .nil
  | cons id ids ih =>
      obtain ⟨name, s₁, hname, h⟩ := lowerer_bind_ok.mp h
      obtain ⟨type, s₂, htype, h⟩ := lowerer_bind_ok.mp h
      obtain ⟨aliasId, s₃, hadd, h⟩ := lowerer_bind_ok.mp h
      obtain ⟨rest, s₄, hrest, h⟩ := lowerer_bind_ok.mp h
      cases h
      cases hadd
      obtain ⟨name', hn, hpure⟩ := bind_eq_ok.mp hname
      cases hpure
      obtain ⟨type', ht, hpure⟩ := bind_eq_ok.mp htype
      cases hpure
      have hentry := entry_of_name_type hn ht
      obtain ⟨halias, hgrown⟩ := s.binding.getOrAdd_spec (aliasName ++ "." ++ name) type
      have hafter := (aliasProjectors_marking aliasName ids).result rfl hrest
      have hlater : s.binding.entries <+: s'.binding.entries := hgrown.trans hafter.1.binding
      exact .cons ⟨name, type, FieldBinding.entry_of_prefix hlater hentry,
        FieldBinding.entry_of_prefix hafter.1.binding halias⟩ (ih hrest)

variable [HashOrder]

/-- The columns of projectors and the columns of what they are lowered to. -/
theorem slotsOf_projectorsOf (star : List FieldId) (ps : List Bound.Projector) :
    slotsOf star (projectorsOf ps) = ps.flatMap (boundSlots star) := by
  induction ps with
  | nil => rfl
  | cons p ps ih =>
      have hp : (projectorOf p).slots star = boundSlots star p := by
        cases p <;> rfl
      rw [projectorsOf, List.flatMap_cons, ← ih, ← hp]
      rfl

/-- The fields of an open field set are those that have been required. -/
theorem fieldsOf_opened {cell : Nat} {s s' : LowerState} {fields : FieldSet}
    (h : fieldsOf (.opened cell) s = .ok (fields, s')) : s.openFields[cell]? = some fields := by
  obtain ⟨⟨fields', bound⟩, hfields, hpure⟩ := bind_eq_ok.mp h
  cases hpure
  rw [RelationFieldSet.fields] at hfields
  unfold Binder.openFieldsOf at hfields
  split at hfields
  next hcell =>
    cases hfields
    exact hcell
  · cases hfields

/-- **A lowered relation has the columns that the bound one lists.** -/
theorem lowerRelation_slots {known : List RelationFieldSet} {bound : BindState} :
    ∀ (r : Bound.Relation) {s s' : LowerState} {ir : Ir.Relation},
      Bound.AllWellBound known bound r.relations → lowerRelation r s = .ok (ir, s') →
      Slots s'.binding s.openFields s.schemaOf r ir.schema.fields
  | .adhoc values id f, s, s', ir, _, h => by
      rw [lowerRelation] at h
      obtain ⟨schema, s₁, hschema, h⟩ := lowerer_bind_ok.mp h
      cases h
      have hfields := (Schema.append_eq_ok.mp (lift_ok hschema).1).2
      show Slots _ _ _ _ schema.fields
      rw [hfields]
      exact .adhoc
  | .select projectors source limit whereCond having orderList orderDesc groupList aggregate f,
      s, s', ir, hr, h => by
      have hsource := (Bound.AllWellBound.source hr source List.mem_cons_self)
      rw [lowerRelation] at h
      obtain ⟨src, s₁, hsrc, h⟩ := lowerer_bind_ok.mp h
      have hslots := lowerRelation_slots source hsource hsrc
      obtain ⟨hamid, hfits⟩ := (lowerRelation_marking source).result rfl hsrc
      obtain ⟨hafter, -, hfields⟩ := (lowerSelect_marking hfits {
        projectors := projectorsOf_sound projectors
        whereCond := exprOptionOf_sound whereCond
        having := exprOptionOf_sound having
        orderBy := orderByOf_sound orderDesc orderList
        groupBy := projectorsOptionOf_sound groupList }).result hamid.schemaOf h
      have hselected : ir.schema.fields = selectSlots groupList projectors src.schema.fields := by
        rw [hfields, Select.slots, slotsOf_projectorsOf]
        cases groupList with
        | none => rfl
        | some keys =>
            simp only [Select.star, projectorsOptionOf, slotsOf_projectorsOf]
            rfl
      rw [hselected]
      exact .select (hslots.mono hafter.binding)
  | .aliased aliasName source f, s, s', ir, hr, h => by
      have hsource := (Bound.AllWellBound.source hr source List.mem_cons_self)
      rw [lowerRelation] at h
      obtain ⟨src, s₁, hsrc, h⟩ := lowerer_bind_ok.mp h
      have hslots := lowerRelation_slots source hsource hsrc
      obtain ⟨projectors, s₂, hprojectors, h⟩ := lowerer_bind_ok.mp h
      obtain ⟨schema, s₃, hlift, h⟩ := lowerer_bind_ok.mp h
      cases h
      obtain ⟨hschema, rfl⟩ := lift_ok hlift
      have hafter := (aliasProjectors_marking aliasName _).result rfl hprojectors
      refine .aliased (hslots.mono hafter.1.binding) ?_
      show List.Forall₂ _ _ schema.fields
      rw [Schema.appendAll_eq_ok.mp hschema]
      exact aliasProjectors_aliasOf hprojectors
  | .leftJoin left right leftKey rightKey f, s, s', ir, hr, h => by
      have hleft := Bound.AllWellBound.source hr left List.mem_cons_self
      have hright := Bound.AllWellBound.source hr right (List.mem_cons_of_mem _ List.mem_cons_self)
      rw [lowerRelation] at h
      obtain ⟨l, s₁, hl, h⟩ := lowerer_bind_ok.mp h
      obtain ⟨l', s₂, hl', h⟩ := lowerer_bind_ok.mp h
      obtain ⟨r, s₃, hr, h⟩ := lowerer_bind_ok.mp h
      obtain ⟨r', s₄, hr', h⟩ := lowerer_bind_ok.mp h
      have hleftSlots := lowerRelation_slots left hleft hl
      have hrightSlots := lowerRelation_slots right hright hr
      obtain ⟨hamid₁, hfits⟩ := (lowerRelation_marking left).result rfl hl
      obtain ⟨hamid₂, hinput, houtput⟩ :=
        (lowerInput_marking hfits (exprOf_sound leftKey)).result hamid₁.schemaOf hl'
      have hamid₁₂ := hamid₁.trans hamid₂
      obtain ⟨hamid₃, hfits'⟩ := (lowerRelation_marking right).result hamid₁₂.schemaOf hr
      have hamid₁₃ := hamid₁₂.trans hamid₃
      obtain ⟨hamid₄, hinput', houtput'⟩ :=
        (lowerInput_marking hfits' (exprOf_sound rightKey)).result hamid₁₃.schemaOf hr'
      have hamid₁₄ := hamid₁₃.trans hamid₄
      obtain ⟨hamid₅, -, hfields⟩ := (joinInputs_marking hinput hinput').result hamid₁₄.schemaOf h
      rw [hfields, houtput, houtput']
      rw [hamid₁₂.openFields, hamid₁₂.schemaOf] at hrightSlots
      exact .leftJoin
        (hleftSlots.mono (((hamid₂.trans hamid₃).trans hamid₄).trans hamid₅).binding)
        (hrightSlots.mono (hamid₄.trans hamid₅).binding)
  | .unionAll left right f, s, s', ir, hr, h => by
      have hleft := Bound.AllWellBound.source hr left List.mem_cons_self
      have hright := Bound.AllWellBound.source hr right (List.mem_cons_of_mem _ List.mem_cons_self)
      rw [lowerRelation] at h
      obtain ⟨l, s₁, hl, h⟩ := lowerer_bind_ok.mp h
      obtain ⟨r, s₂, hr, h⟩ := lowerer_bind_ok.mp h
      have hleftSlots := lowerRelation_slots left hleft hl
      have hrightSlots := lowerRelation_slots right hright hr
      obtain ⟨hamid₁, hfits⟩ := (lowerRelation_marking left).result rfl hl
      obtain ⟨hamid₂, hfits'⟩ := (lowerRelation_marking right).result hamid₁.schemaOf hr
      rw [hamid₁.openFields, hamid₁.schemaOf] at hrightSlots
      obtain ⟨hamid₃, hresult⟩ :=
        (lowerUnionAll_marking hfits hfits').result (hamid₁.trans hamid₂).schemaOf h
      rw [hresult.2.1]
      exact .unionAll (hleftSlots.mono (hamid₂.trans hamid₃).binding)
        (hresult.2.2 ▸ hrightSlots.mono hamid₃.binding)
  | .unionAllSortedBy left right orderList desc f, s, s', ir, hr, h => by
      have hleft := Bound.AllWellBound.source hr left List.mem_cons_self
      have hright := Bound.AllWellBound.source hr right (List.mem_cons_of_mem _ List.mem_cons_self)
      rw [lowerRelation] at h
      obtain ⟨l, s₁, hl, h⟩ := lowerer_bind_ok.mp h
      obtain ⟨r, s₂, hr, h⟩ := lowerer_bind_ok.mp h
      have hleftSlots := lowerRelation_slots left hleft hl
      have hrightSlots := lowerRelation_slots right hright hr
      obtain ⟨hamid₁, hfits⟩ := (lowerRelation_marking left).result rfl hl
      obtain ⟨hamid₂, hfits'⟩ := (lowerRelation_marking right).result hamid₁.schemaOf hr
      rw [hamid₁.openFields, hamid₁.schemaOf] at hrightSlots
      obtain ⟨hamid₃, hresult⟩ := (lowerUnionAllSortedBy_marking hfits hfits'
        (exprsOf_sound orderList) desc).result (hamid₁.trans hamid₂).schemaOf h
      rw [hresult.2.1]
      exact .unionAllSortedBy (hleftSlots.mono (hamid₂.trans hamid₃).binding)
        (hresult.2.2 ▸ hrightSlots.mono hamid₃.binding)
  | .file path range timeFormat f, s, s', ir, hr, h => by
      obtain ⟨cell, rfl⟩ := (hr _ (Bound.Relation.mem_relations _)).shaped
      rw [lowerRelation] at h
      obtain ⟨fields, s₁, hfields, h⟩ := lowerer_bind_ok.mp h
      cases h
      exact .file (fieldsOf_opened hfields)
  | .stream command f, s, s', ir, hr, h => by
      obtain ⟨cell, rfl⟩ := (hr _ (Bound.Relation.mem_relations _)).shaped
      rw [lowerRelation] at h
      obtain ⟨fields, s₁, hfields, h⟩ := lowerer_bind_ok.mp h
      cases h
      exact .stream (fieldsOf_opened hfields)
  | .namedRelationReference name f, s, s', ir, hr, h => by
      rw [lowerRelation] at h
      obtain ⟨schema, s₁, hschema, h⟩ := lowerer_bind_ok.mp h
      cases h
      exact .reference ((find_marking name).result rfl hschema).2
  | .materialize relation f, s, s', ir, hr, h => by
      have hsource := Bound.AllWellBound.source hr relation List.mem_cons_self
      rw [lowerRelation] at h
      obtain ⟨src, s₁, hsrc, h⟩ := lowerer_bind_ok.mp h
      have hslots := lowerRelation_slots relation hsource hsrc
      cases h
      exact .materialize hslots

end Lowering

/-! ### Programs -/

/-- The columns of the statements of a program, with the schemas of the relations that have been named
before. No name is given twice. -/
inductive ProgramSlots [HashOrder] (b : FieldBinding) (opened : List FieldSet) :
    (String → Option Schema) → List Bound.Statement → List Ir.Statement → Prop
  | nil {named : String → Option Schema} : ProgramSlots b opened named [] []
  | query {named : String → Option Schema} {r : Bound.Relation} {ir : Ir.Relation}
      {statements : List Bound.Statement} {irs : List Ir.Statement} :
      Slots b opened named r ir.schema.fields → ProgramSlots b opened named statements irs →
      ProgramSlots b opened named (.query r :: statements) (.query ir :: irs)
  | namedRelation {named : String → Option Schema} {name : String} {r : Bound.Relation}
      {ir : Ir.Relation} {statements : List Bound.Statement} {irs : List Ir.Statement} :
      named name = none → Slots b opened named r ir.schema.fields →
      ProgramSlots b opened (Function.update named name (some ir.schema)) statements irs →
      ProgramSlots b opened named (.namedRelation name r :: statements) (.namedRelation name ir :: irs)

section Programs

variable [HashOrder]

theorem ProgramSlots.unique {b : FieldBinding} {opened : List FieldSet} (hb : b.entries.Nodup)
    {named : String → Option Schema} {statements : List Bound.Statement}
    {irs irs' : List Ir.Statement} (h : ProgramSlots b opened named statements irs)
    (h' : ProgramSlots b opened named statements irs') :
    irs'.map Ir.Statement.schema = irs.map Ir.Statement.schema := by
  induction h generalizing irs' with
  | nil =>
      cases h'
      rfl
  | query hr _ ih =>
      cases h' with
      | query hr' hrest =>
          rw [List.map_cons, List.map_cons, ih hrest]
          exact congrArg (· :: _) (Schema.ext (hr'.unique hb hr))
  | namedRelation _ hr _ ih =>
      cases h' with
      | namedRelation _ hr' hrest =>
          have hschema := Schema.ext (hr'.unique hb hr)
          rw [hschema] at hrest
          rw [List.map_cons, List.map_cons, ih hrest]
          exact congrArg (· :: _) hschema

theorem lowerStatements_slots {known : List RelationFieldSet} {bound : BindState}
    {statements : List Bound.Statement} {irs : List Ir.Statement} {s s' : LowerState}
    (hbound : Bound.StatementsWellBound bound known statements)
    (h : lowerStatements statements s = .ok (irs, s')) :
    s.binding.entries <+: s'.binding.entries ∧
      (s.binding.entries.Nodup → s'.binding.entries.Nodup) ∧
      ∀ b : FieldBinding, s'.binding.entries <+: b.entries →
        ProgramSlots b s.openFields s.schemaOf statements irs := by
  induction statements generalizing known irs s with
  | nil =>
      cases h
      exact ⟨List.prefix_refl _, fun h => h, fun _ _ => .nil⟩
  | cons statement statements ih =>
      obtain ⟨first, s₁, hfirst, h⟩ := lowerer_bind_ok.mp h
      obtain ⟨rest, s₂, hrest, h⟩ := lowerer_bind_ok.mp h
      cases h
      cases statement with
      | query relation =>
          obtain ⟨r, t, hr, hpure⟩ := lowerer_bind_ok.mp hfirst
          cases hpure
          obtain ⟨hamid, -⟩ := (lowerRelation_marking relation).result rfl hr
          obtain ⟨hgrown, hnodup, hslots⟩ := ih hbound.2 hrest
          refine ⟨hamid.binding.trans hgrown, fun hs => hnodup (hamid.nodup hs), fun b hb => ?_⟩
          refine .query ((lowerRelation_slots relation hbound.1 hr).mono (hgrown.trans hb)) ?_
          rw [← hamid.openFields, ← hamid.schemaOf]
          exact hslots b hb
      | namedRelation name relation =>
          obtain ⟨r, t, hr, hfirst⟩ := lowerer_bind_ok.mp hfirst
          obtain ⟨u, t', hinsert, hpure⟩ := lowerer_bind_ok.mp hfirst
          cases hpure
          obtain ⟨hamid, -⟩ := (lowerRelation_marking relation).result rfl hr
          have hnamed := insert_schemaOf hinsert
          obtain ⟨_, hrequire, hpure⟩ := bind_eq_ok.mp hinsert
          cases hpure
          have hnew : s.schemaOf name = none := by
            rw [← hamid.schemaOf]
            exact Option.isNone_iff_eq_none.mp (require_eq_ok.mp hrequire)
          obtain ⟨hgrown, hnodup, hslots⟩ := ih hbound.2 hrest
          refine ⟨hamid.binding.trans hgrown, fun hs => hnodup (hamid.nodup hs), fun b hb => ?_⟩
          refine .namedRelation hnew ((lowerRelation_slots relation hbound.1 hr).mono (hgrown.trans hb)) ?_
          rw [← hamid.openFields, ← hamid.schemaOf, ← hnamed]
          exact hslots b hb

theorem lowerProgram_slots [Platform] {program : Ast.Program String}
    {statements : List Bound.Statement} {bound : BindState} {ir : Ir.Program}
    (hbind : bind program = .ok (statements, bound))
    (hlower : lowerProgram statements bound = .ok ir) :
    bound.binding.entries <+: ir.fieldBinding.entries ∧ ir.fieldBinding.entries.Nodup ∧
      ProgramSlots ir.fieldBinding bound.openFields (fun _ => none) statements ir.statements := by
  obtain ⟨⟨irs, s⟩, hlowered, hpure⟩ := bind_eq_ok.mp hlower
  cases hpure
  obtain ⟨hvalid, hbound⟩ := bind_spec hbind
  obtain ⟨hgrown, hnodup, hslots⟩ := lowerStatements_slots hbound hlowered
  exact ⟨hgrown, hnodup hvalid.nodup, hslots _ (List.prefix_refl _)⟩

/-- **The columns of the statements of an accepted program**, slot for slot, are those that the bound
statements list, and no others are. -/
theorem statements_slots [Platform] {program : Ast.Program String}
    {statements : List Bound.Statement} {bound : BindState} {ir : Ir.Program}
    (hbind : bind program = .ok (statements, bound))
    (hlower : lowerProgram statements bound = .ok ir) :
    ProgramSlots ir.fieldBinding bound.openFields (fun _ => none) statements ir.statements ∧
      ∀ irs, ProgramSlots ir.fieldBinding bound.openFields (fun _ => none) statements irs →
        irs.map Ir.Statement.schema = ir.schemas := by
  obtain ⟨-, hnodup, hslots⟩ := lowerProgram_slots hbind hlower
  exact ⟨hslots, fun irs hirs => hslots.unique hnodup hirs⟩

end Programs

/-- `SELECT *, LOWER(x) AS y FROM 'a.log' AS t` behind a query for the field `t.x`. -/
def starred : Ast.Statement String :=
  .query (.select [.star, .expr "y" (.fnCall "lower" [.identifier "t.x"])]
    (.aliased "t" (.file "a.log" none none)) none none none none false none)

theorem statements_slots_starred : ∃ statements bound ir,
    @bind .insertion .inert [starred] = .ok (statements, bound) ∧
      @lowerProgram .insertion statements bound = .ok ir ∧
      @ProgramSlots .insertion ir.fieldBinding bound.openFields (fun _ => none) statements
        ir.statements := by
  have hok : ((@bind .insertion .inert [starred]).bind fun r =>
      @lowerProgram .insertion r.1 r.2).isOk = true := by decide +kernel
  obtain ⟨ir, h⟩ := exists_of_isOk hok
  obtain ⟨⟨statements, bound⟩, hbind, hlower⟩ := bind_eq_ok.mp h
  exact ⟨statements, bound, ir, hbind, hlower,
    (@statements_slots .insertion .inert [starred] statements bound ir hbind hlower).1⟩

end Lower

end Lsql.Front
