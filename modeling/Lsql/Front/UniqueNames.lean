import Lsql.Front.Accepted

/-!
# Lsql.Front.UniqueNames

Whether a name stands for one column.

Fields are told apart by name and type, and a name is looked up among the fields of a set in the
order in which the set is iterated. Two fields of one name are possible exactly if a relation brings
them together: a select list that gives one name to two projectors, or to a projector beside a star,
or a join or a union of inputs that have the name in different types.
-/

namespace Lsql.Front

open RelationFieldSet (Has)

/-! ### Columns of one name -/

/-- No name has two types in two sets of columns. -/
def SameTypes (columns columns' : Column → Prop) : Prop :=
  ∀ name t t', columns (name, t) → columns' (name, t') → t = t'

/-- The columns of a list of projectors. -/
def OutputHas (s : BindState) (projectors : List Bound.Projector) (c : Column) : Prop :=
  ∃ id ∈ Bound.outputFields projectors, s.binding.entry id = some c

/-- The parts of a relation do not bring two columns of one name together. -/
def Bound.Relation.NoClash (s : BindState) : Bound.Relation → Prop
  | .select projectors source _ _ _ _ _ _ aggregate _ =>
    SameTypes (OutputHas s projectors) (OutputHas s projectors) ∧
      (aggregate = false → projectors.any Projector.isStar = true →
        SameTypes (OutputHas s projectors) (source.fieldsOut.Has s))
  | .unionAll left right _ => SameTypes (left.fieldsOut.Has s) (right.fieldsOut.Has s)
  | .leftJoin left right _ _ _ => SameTypes (left.fieldsOut.Has s) (right.fieldsOut.Has s)
  | .unionAllSortedBy left right _ _ _ => SameTypes (left.fieldsOut.Has s) (right.fieldsOut.Has s)
  | _ => True

/-- The output fields of a relation have different names. -/
def Bound.Relation.UniqueNames (s : BindState) (r : Bound.Relation) : Prop :=
  ∀ [HashOrder], ∃ fields s', r.fieldsOut.fields s = .ok (fields, s') ∧
    ∀ id ∈ fields, ∀ id' ∈ fields, s'.binding.name id = s'.binding.name id' → id = id'

/-- The type of a name that is looked up in a chain does not depend on the order of the fields, in
any state that the binder can have been in before. -/
def LookupsAgree (s : BindState) (chain : FieldSetChain) : Prop :=
  ∀ s₀ : BindState, s₀.Valid → s₀.Before s → (∀ f ∈ chain, f.Valid s₀) →
    ∀ (order order' : HashOrder) (name : String) (t t' : Option ValueType) (s₁ s₁' : BindState),
      @typeOfSourceField order name chain s₀ = .ok (t, s₁) →
        @typeOfSourceField order' name chain s₀ = .ok (t', s₁') → t = t'

theorem RelationFieldSet.Unambiguous.before {s₀ s : BindState} {f : RelationFieldSet}
    (h : f.Unambiguous s) (hbefore : s₀.Before s) : f.Unambiguous s₀ := fun name t t' ht ht' =>
  h name t t' (RelationFieldSet.has_before hbefore ht) (RelationFieldSet.has_before hbefore ht')

theorem lookupsAgree_of_unambiguous {s : BindState} {chain : FieldSetChain}
    (h : ∀ f ∈ chain, f.Unambiguous s) : LookupsAgree s chain := by
  intro s₀ hs₀ hbefore hvalid order order' name t t' s₁ s₁' hrun hrun'
  have hunambiguous : ∀ f ∈ chain, f.Unambiguous s₀ := fun f hf => (h f hf).before hbefore
  obtain ⟨-, -, ht⟩ := @typeOfSourceField_ensures order s₀ hs₀ name chain hvalid t s₁ hrun
  obtain ⟨-, -, ht'⟩ := @typeOfSourceField_ensures order' s₀ hs₀ name chain hvalid t' s₁' hrun'
  exact Resolves.unique hunambiguous ht ht'

/-- Names are unique exactly if no name has two types. -/
theorem Bound.Relation.uniqueNames_iff {s : BindState} (hs : s.Valid) {r : Bound.Relation}
    (hr : r.fieldsOut.Valid s) : r.UniqueNames s ↔ r.fieldsOut.Unambiguous s := by
  constructor
  · intro h name t t' ht ht'
    obtain ⟨fields, s', hrun, hnames⟩ := @h HashOrder.insertion
    obtain ⟨hs', -, -, hcolumns⟩ := (@RelationFieldSet.fields_computes HashOrder.insertion s hs _
      hr).ensures fields s' hrun
    obtain ⟨id, hid, hc⟩ := (hcolumns (name, t)).mpr ht
    obtain ⟨id', hid', hc'⟩ := (hcolumns (name, t')).mpr ht'
    have hsame : id = id' := hnames id hid id' hid' (by
      rw [FieldBinding.name_of_entry hc, FieldBinding.name_of_entry hc'])
    rw [hsame, hc'] at hc
    exact (congrArg Prod.snd (Option.some.inj hc)).symm
  · intro h order
    obtain ⟨fields, s', hrun, hs', -, hvalid, hcolumns⟩ :=
      RelationFieldSet.fields_computes hs _ hr
    refine ⟨fields, s', hrun, fun id hid id' hid' hname => ?_⟩
    obtain ⟨c, hc⟩ := hvalid id hid
    obtain ⟨c', hc'⟩ := hvalid id' hid'
    rw [FieldBinding.name_of_entry hc, FieldBinding.name_of_entry hc'] at hname
    have hfst : c.1 = c'.1 := Except.ok.inj hname
    have hsnd : c.2 = c'.2 := h c.1 c.2 c'.2 ((hcolumns c).mp ⟨id, hid, hc⟩) (by
      rw [hfst]
      exact (hcolumns c').mp ⟨id', hid', hc'⟩)
    have hcc : c = c' := Prod.ext hfst hsnd
    exact FieldBinding.entry_inj hs'.nodup hc (hcc ▸ hc')

/-! ### Relations -/

section Relations

variable {s : BindState} {known : List RelationFieldSet}

theorem fieldSetHas_outputFieldsOf {projectors : List Bound.Projector} {c : Column} :
    FieldSetHas s.binding (Bound.outputFieldsOf projectors) c ↔ OutputHas s projectors c := by
  refine exists_congr fun id => and_congr_left fun _ => ?_
  rw [Bound.outputFieldsOf, FieldSet.mem_addAll]
  exact or_iff_right (FieldSet.not_mem_emptySet id)

theorem fieldSetHas_emptySet {b : FieldBinding} {c : Column} :
    ¬ FieldSetHas b FieldSet.emptySet c := by
  rintro ⟨id, hid, -⟩
  exact FieldSet.not_mem_emptySet id hid

/-- The columns of a join or a union are those of both inputs. -/
theorem has_both {f f' : RelationFieldSet} {c : Column} :
    (RelationFieldSet.combined .emptySet [f, f']).Has s c ↔ f.Has s c ∨ f'.Has s c := by
  show FieldSetHas _ _ c ∨ f.Has s c ∨ f'.Has s c ∨ False ↔ _
  rw [or_iff_right fieldSetHas_emptySet, or_false]

theorem unambiguous_both {f f' : RelationFieldSet} :
    (RelationFieldSet.combined .emptySet [f, f']).Unambiguous s ↔
      f.Unambiguous s ∧ f'.Unambiguous s ∧ SameTypes (f.Has s) (f'.Has s) := by
  constructor
  · intro h
    refine ⟨fun name t t' ht ht' => ?_, fun name t t' ht ht' => ?_, fun name t t' ht ht' => ?_⟩
    · exact h name t t' (has_both.mpr (.inl ht)) (has_both.mpr (.inl ht'))
    · exact h name t t' (has_both.mpr (.inr ht)) (has_both.mpr (.inr ht'))
    · exact h name t t' (has_both.mpr (.inl ht)) (has_both.mpr (.inr ht'))
  · rintro ⟨hf, hf', hsame⟩ name t t' ht ht'
    rcases has_both.mp ht with ht | ht
    · rcases has_both.mp ht' with ht' | ht'
      · exact hf name t t' ht ht'
      · exact hsame name t t' ht ht'
    · rcases has_both.mp ht' with ht' | ht'
      · exact (hsame name t' t ht' ht).symm
      · exact hf' name t t' ht ht'

theorem unambiguous_fixed {projectors : List Bound.Projector} :
    (RelationFieldSet.fixed (Bound.outputFieldsOf projectors)).Unambiguous s ↔
      SameTypes (OutputHas s projectors) (OutputHas s projectors) := by
  show (∀ name t t', FieldSetHas _ _ _ → FieldSetHas _ _ _ → _) ↔ _
  simp only [fieldSetHas_outputFieldsOf]
  exact Iff.rfl

/-- The columns of a star are those of the source. -/
theorem unambiguous_star {projectors : List Bound.Projector} {f : RelationFieldSet} :
    (RelationFieldSet.combined (Bound.outputFieldsOf projectors) [f]).Unambiguous s ↔
      f.Unambiguous s ∧ SameTypes (OutputHas s projectors) (OutputHas s projectors) ∧
        SameTypes (OutputHas s projectors) (f.Has s) := by
  have hhas : ∀ c, (RelationFieldSet.combined (Bound.outputFieldsOf projectors) [f]).Has s c ↔
      OutputHas s projectors c ∨ f.Has s c := by
    intro c
    show FieldSetHas _ _ c ∨ f.Has s c ∨ False ↔ _
    rw [fieldSetHas_outputFieldsOf, or_false]
  constructor
  · intro h
    refine ⟨fun name t t' ht ht' => ?_, fun name t t' ht ht' => ?_, fun name t t' ht ht' => ?_⟩
    · exact h name t t' ((hhas _).mpr (.inr ht)) ((hhas _).mpr (.inr ht'))
    · exact h name t t' ((hhas _).mpr (.inl ht)) ((hhas _).mpr (.inl ht'))
    · exact h name t t' ((hhas _).mpr (.inl ht)) ((hhas _).mpr (.inr ht'))
  · rintro ⟨hf, hown, hsame⟩ name t t' ht ht'
    rcases (hhas _).mp ht with ht | ht
    · rcases (hhas _).mp ht' with ht' | ht'
      · exact hown name t t' ht ht'
      · exact hsame name t t' ht ht'
    · rcases (hhas _).mp ht' with ht' | ht'
      · exact (hsame name t' t ht' ht).symm
      · exact hf name t t' ht ht'

/-- An alias keeps names apart. -/
theorem unambiguous_aliased {aliasPrefix : String} {f : RelationFieldSet} (h : f.Unambiguous s) :
    (RelationFieldSet.aliased aliasPrefix f).Unambiguous s := by
  rintro name t t' ⟨source, hsource, ht⟩ ⟨source', hsource', ht'⟩
  have hsame : source = source' := String.append_right_inj aliasPrefix |>.mp
    (hsource.symm.trans hsource')
  exact h source t t' ht (hsame ▸ ht')

/-- The fields of a file or a stream are strings. -/
theorem unambiguous_opened (hs : s.Valid) (cell : Nat) :
    (RelationFieldSet.opened cell).Unambiguous s := by
  rintro name t t' ⟨fields, hfields, id, hid, hc⟩ ⟨fields', hfields', id', hid', hc'⟩
  have hstring : ∀ {x : FieldId} {gs : FieldSet} {u : ValueType}, s.openFields[cell]? = some gs →
      x ∈ gs → s.binding.entry x = some (name, u) → u = .string := by
    intro x gs u hgs hx hu
    obtain ⟨name', hname'⟩ := hs.opened hgs x hx
    exact (congrArg Prod.snd (Option.some.inj (hname'.symm.trans hu))).symm
  rw [hstring hfields hid hc, hstring hfields' hid' hc']

/-- **A relation over unambiguous sources is unambiguous unless its parts clash.** -/
theorem unambiguous_of_noClash (hs : s.Valid) (hknown : ∀ f ∈ known, f.Unambiguous s) :
    Bound.Passes (fun r => r.WellBound known s ∧ r.NoClash s)
      (fun r => r.fieldsOut.Unambiguous s) := by
  rintro r ⟨⟨hshape, -⟩, hclash⟩ hsources
  cases r with
  | adhoc values id f =>
      obtain rfl : f = .fixed (.withField id) := hshape
      rintro name t t' ⟨x, hx, hc⟩ ⟨x', hx', hc'⟩
      rw [FieldSet.mem_withField.mp hx] at hc
      rw [FieldSet.mem_withField.mp hx', hc] at hc'
      exact congrArg Prod.snd (Option.some.inj hc')
  | select projectors source limit whereCond having orderList orderDesc groupList aggregate f =>
      have hsource := hsources source List.mem_cons_self
      show f.Unambiguous s
      rw [show f = _ from hshape]
      split
      next hstar =>
        exact unambiguous_star.mpr ⟨hsource, hclash.1, hclash.2 hstar.1 hstar.2⟩
      next => exact unambiguous_fixed.mpr hclash.1
  | aliased aliasName source f =>
      show f.Unambiguous s
      rw [show f = _ from hshape]
      exact unambiguous_aliased (hsources source List.mem_cons_self)
  | unionAll left right f =>
      show f.Unambiguous s
      rw [show f = _ from hshape]
      exact unambiguous_both.mpr ⟨hsources left List.mem_cons_self,
        hsources right (List.mem_cons_of_mem _ List.mem_cons_self), hclash⟩
  | leftJoin left right leftKey rightKey f =>
      show f.Unambiguous s
      rw [show f = _ from hshape]
      exact unambiguous_both.mpr ⟨hsources left List.mem_cons_self,
        hsources right (List.mem_cons_of_mem _ List.mem_cons_self), hclash⟩
  | unionAllSortedBy left right orderList desc f =>
      show f.Unambiguous s
      rw [show f = _ from hshape]
      exact unambiguous_both.mpr ⟨hsources left List.mem_cons_self,
        hsources right (List.mem_cons_of_mem _ List.mem_cons_self), hclash⟩
  | file path range timeFormat f =>
      obtain ⟨cell, hcell⟩ := hshape
      show f.Unambiguous s
      rw [hcell]
      exact unambiguous_opened hs cell
  | stream command f =>
      obtain ⟨cell, hcell⟩ := hshape
      show f.Unambiguous s
      rw [hcell]
      exact unambiguous_opened hs cell
  | namedRelationReference name f => exact hknown f hshape
  | materialize relation f =>
      show f.Unambiguous s
      rw [show f = _ from hshape]
      exact hsources relation List.mem_cons_self

/-- The parts of an unambiguous relation do not clash. -/
theorem noClash_of_unambiguous {r : Bound.Relation} (hr : r.WellBound known s)
    (h : r.fieldsOut.Unambiguous s) : r.NoClash s := by
  have hshape := hr.shaped
  cases r with
  | select projectors source limit whereCond having orderList orderDesc groupList aggregate f =>
      have hf : f.Unambiguous s := h
      rw [show f = _ from hshape] at hf
      split at hf
      next =>
        obtain ⟨-, hown, hsame⟩ := unambiguous_star.mp hf
        exact ⟨hown, fun _ _ => hsame⟩
      next hstar =>
        exact ⟨unambiguous_fixed.mp hf, fun haggregate hany => absurd ⟨haggregate, hany⟩ hstar⟩
  | unionAll left right f =>
      have hf : f.Unambiguous s := h
      rw [show f = _ from hshape] at hf
      exact (unambiguous_both.mp hf).2.2
  | leftJoin left right leftKey rightKey f =>
      have hf : f.Unambiguous s := h
      rw [show f = _ from hshape] at hf
      exact (unambiguous_both.mp hf).2.2
  | unionAllSortedBy left right orderList desc f =>
      have hf : f.Unambiguous s := h
      rw [show f = _ from hshape] at hf
      exact (unambiguous_both.mp hf).2.2
  | _ => trivial

end Relations

/-! ### Programs -/

section Programs

variable {s : BindState}

theorem relationsOfStatements_cons {P : Bound.Relation → Prop} {statement : Bound.Statement}
    {statements : List Bound.Statement} :
    (∀ r ∈ Bound.relationsOfStatements (statement :: statements), P r) ↔
      (∀ r ∈ statement.relation.relations, P r) ∧
        ∀ r ∈ Bound.relationsOfStatements statements, P r := by
  rw [Bound.relationsOfStatements, List.flatMap_cons, List.forall_mem_append]
  exact Iff.rfl

namespace Bound.StatementsWellBound

theorem wellBound {known : List RelationFieldSet} {statements : List Bound.Statement}
    (h : StatementsWellBound s known statements) :
    ∀ r ∈ relationsOfStatements statements, ∃ known', r.WellBound known' s := by
  induction statements generalizing known with
  | nil => exact fun _ hr => absurd hr List.not_mem_nil
  | cons statement statements ih =>
      cases statement with
      | query relation =>
          exact relationsOfStatements_cons.mpr ⟨fun r hr => ⟨known, h.1 r hr⟩, ih h.2⟩
      | namedRelation name relation =>
          exact relationsOfStatements_cons.mpr ⟨fun r hr => ⟨known, h.1 r hr⟩, ih h.2⟩

/-- The relations of statements, where those that have been named before are unambiguous. -/
theorem unambiguous (hs : s.Valid) {known : List RelationFieldSet}
    {statements : List Bound.Statement} (h : StatementsWellBound s known statements)
    (hknown : ∀ f ∈ known, f.Unambiguous s)
    (hclash : ∀ r ∈ relationsOfStatements statements, r.NoClash s) :
    ∀ r ∈ relationsOfStatements statements, r.fieldsOut.Unambiguous s := by
  induction statements generalizing known with
  | nil => exact fun _ hr => absurd hr List.not_mem_nil
  | cons statement statements ih =>
      obtain ⟨hclash, hrest⟩ := relationsOfStatements_cons.mp hclash
      have hone : AllWellBound known s statement.relation.relations →
          ∀ r ∈ statement.relation.relations, r.fieldsOut.Unambiguous s := fun hall =>
        Relation.relations_induction (unambiguous_of_noClash hs hknown) statement.relation
          fun r hr => ⟨hall r hr, hclash r hr⟩
      cases statement with
      | query relation =>
          exact relationsOfStatements_cons.mpr ⟨hone h.1, ih h.2 hknown hrest⟩
      | namedRelation name relation =>
          have hrelation := hone h.1
          refine relationsOfStatements_cons.mpr ⟨hrelation, ih h.2 (fun f hf => ?_) hrest⟩
          rcases List.mem_append.mp hf with hf | hf
          · exact hknown f hf
          · rw [List.mem_singleton.mp hf]
            exact hrelation relation relation.mem_relations

end Bound.StatementsWellBound

/-- No relation of a program has two output fields of one name, and a name that is looked up in the
relations of the program has one type. -/
def Unambiguous (s : BindState) (statements : List Bound.Statement) : Prop :=
  (∀ r ∈ Bound.relationsOfStatements statements, r.UniqueNames s) ∧
    ∀ chain : FieldSetChain,
      (∀ f ∈ chain, ∃ r ∈ Bound.relationsOfStatements statements, f = r.fieldsOut) →
        LookupsAgree s chain

variable [HashOrder] [Platform]

/-- **Names are unambiguous in an accepted program exactly if no relation of it brings two columns
of one name together.** -/
theorem bind_unambiguous_iff {program : Ast.Program String} {statements : List Bound.Statement}
    (h : bind program = .ok (statements, s)) :
    Unambiguous s statements ↔
      ∀ r ∈ Bound.relationsOfStatements statements, r.NoClash s := by
  obtain ⟨hs, hstatements⟩ := bind_spec h
  have hbound := hstatements.wellBound
  constructor
  · rintro ⟨hunique, -⟩ r hr
    obtain ⟨known, hr'⟩ := hbound r hr
    exact noClash_of_unambiguous hr' ((Bound.Relation.uniqueNames_iff hs hr'.valid).mp (hunique r hr))
  · intro hclash
    have hunambiguous := hstatements.unambiguous hs (fun _ hf => absurd hf List.not_mem_nil) hclash
    refine ⟨fun r hr => ?_, fun chain hchain => lookupsAgree_of_unambiguous fun f hf => ?_⟩
    · obtain ⟨known, hr'⟩ := hbound r hr
      exact (Bound.Relation.uniqueNames_iff hs hr'.valid).mpr (hunambiguous r hr)
    · obtain ⟨r, hr, rfl⟩ := hchain f hf
      exact hunambiguous r hr

end Programs

/-- `SELECT * FROM 'g.log'`. -/
def selectStar : Ast.Program String :=
  [.query (.select [.star] (.file "g.log" none none) none none none none false none)]

/-- In a select list that is a star, nothing clashes. -/
theorem selectStar_unambiguous : ∃ statements s,
    @bind HashOrder.insertion Platform.inert selectStar = .ok (statements, s) ∧
      Unambiguous s statements := by
  refine ⟨_, _, rfl, (@bind_unambiguous_iff _ HashOrder.insertion Platform.inert selectStar _
    rfl).mpr fun r hr => ?_⟩
  have hnone : ∀ {s : BindState} {c : Column}, ¬ OutputHas s [.star] c := by
    rintro s c ⟨id, hid, -⟩
    exact absurd hid List.not_mem_nil
  rcases List.mem_cons.mp hr with rfl | hr
  · exact ⟨fun _ _ _ ht => absurd ht hnone, fun _ _ _ _ _ ht => absurd ht hnone⟩
  · obtain rfl := List.mem_singleton.mp hr
    trivial

/-! ### A name of two types -/

/-- `SELECT x FROM (SELECT x, int(x) AS x FROM 'g.log')`. -/
def selectTwice : Ast.Program String :=
  [.query (.select [.identifier "x"]
    (.select [.identifier "x", .expr "x" (.fnCall "int" [.identifier "x"])]
      (.file "g.log" none none) none none none none false none)
    none none none none false none)]

/-- The type of a name in a relation, in a given order of the fields. -/
def lookedUp (order : HashOrder) (s : BindState) (r : Bound.Relation) (name : String) :
    Option (Option ValueType) :=
  match @typeOfSourceField order name [r.fieldsOut] s with
  | .ok (type, _) => some type
  | .error _ => none

/-- A relation of a program in which `x` is a string or an integer, as its fields are iterated. -/
def hasTwoTypes (result : Except Fault (List Bound.Statement × BindState)) : Bool :=
  match result with
  | .ok (statements, s) => (Bound.relationsOfStatements statements).any fun r =>
      lookedUp HashOrder.insertion s r "x" == some (some .string) &&
        lookedUp HashOrder.backwards s r "x" == some (some .integer)
  | .error _ => false

theorem lookedUp_eq_some {order : HashOrder} {s : BindState} {r : Bound.Relation} {name : String}
    {type : Option ValueType} (h : lookedUp order s r name = some type) :
    ∃ s', @typeOfSourceField order name [r.fieldsOut] s = .ok (type, s') := by
  rw [lookedUp] at h
  split at h
  next type' s' hrun =>
    cases h
    exact ⟨s', hrun⟩
  next => cases h

/-- **A query that is accepted, with a relation that has two fields `x`.** Which of them the query
around it selects depends on the order of the fields. -/
theorem selectTwice_ambiguous : ∃ statements s,
    @bind HashOrder.insertion Platform.inert selectTwice = .ok (statements, s) ∧
      ∃ r ∈ Bound.relationsOfStatements statements,
        ¬ r.UniqueNames s ∧ ¬ LookupsAgree s [r.fieldsOut] := by
  have hrun : hasTwoTypes (@bind HashOrder.insertion Platform.inert selectTwice) = true := by
    decide +kernel
  cases hbind : @bind HashOrder.insertion Platform.inert selectTwice with
  | error fault =>
      rw [hbind] at hrun
      cases hrun
  | ok result =>
      obtain ⟨statements, s⟩ := result
      rw [hbind] at hrun
      obtain ⟨r, hr, htypes⟩ := List.any_eq_true.mp hrun
      obtain ⟨hstring, hinteger⟩ := Bool.and_eq_true_iff.mp htypes
      obtain ⟨s₁, hstring⟩ := lookedUp_eq_some (eq_of_beq hstring)
      obtain ⟨s₂, hinteger⟩ := lookedUp_eq_some (eq_of_beq hinteger)
      obtain ⟨hs, hstatements⟩ := @bind_spec HashOrder.insertion Platform.inert _ _ _ hbind
      obtain ⟨known, hbound⟩ := hstatements.wellBound r hr
      have hlookups : ¬ LookupsAgree s [r.fieldsOut] := by
        intro h
        cases h s hs (.refl s) (List.forall_mem_singleton.mpr hbound.valid) HashOrder.insertion
          HashOrder.backwards "x" _ _ s₁ s₂ hstring hinteger
      refine ⟨statements, s, rfl, r, hr, fun hunique => hlookups ?_, hlookups⟩
      refine lookupsAgree_of_unambiguous (List.forall_mem_singleton.mpr ?_)
      exact (Bound.Relation.uniqueNames_iff hs hbound.valid).mp hunique

end Lsql.Front
