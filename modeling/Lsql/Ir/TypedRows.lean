import Lsql.Ir.Refinement

/-!
# Lsql.Ir.TypedRows

Type soundness of relations: what a well-typed relation puts out has the types of its fields.

A field has one type in a whole program, so that a row can be typed without a schema: every field holds
null or a value of the field's type. `Emits.typed` carries this from the data and the named relations
through every operator.
-/

namespace Lsql

/-- Whether an aggregate function takes arguments of given types and then has a given result type. -/
def Function.aggregatesTo : Function → List ValueType → ValueType → Bool
  | .countAll, [], t => t == .integer
  | .countNonNull, [_], t => t == .integer
  | .percentile _ argType, [a], t => a.fits argType && t == .string
  | .min argType, [a], t | .max argType, [a], t | .sum argType, [a], t =>
    a.fits argType && t == argType
  | _, _, _ => false

/-- The type of what an aggregator returns. -/
def FnAggregator.resultType : FnAggregator → ValueType
  | .countAll _ | .countNonNull _ => .integer
  | .percentile _ _ _ => .string
  | .min T _ | .max T _ | .sum T _ => T.valueType

namespace FnAggregator

variable [Platform] {a a' : FnAggregator} {v : Value}

/-- An aggregator stays of its kind. -/
theorem feed_resultType (h : a.feed v = .ok a') : a'.resultType = a.resultType := by
  cases a with
  | countAll count =>
      obtain ⟨n, -, hpure⟩ := bind_eq_ok.mp h
      cases hpure
      rfl
  | countNonNull count =>
      rw [feed] at h
      split at h
      · cases h
        rfl
      · obtain ⟨n, -, hpure⟩ := bind_eq_ok.mp h
        cases hpure
        rfl
  | percentile T ps values | min T res | max T res =>
      rw [feed] at h
      split at h
      · cases h
        rfl
      · obtain ⟨n, -, hpure⟩ := bind_eq_ok.mp h
        cases hpure
        rfl
  | sum T s =>
      rw [feed] at h
      split at h
      · cases h
        rfl
      · obtain ⟨n, -, h⟩ := bind_eq_ok.mp h
        obtain ⟨s', -, hpure⟩ := bind_eq_ok.mp h
        cases hpure
        rfl

theorem get_hasType (h : a.get = .ok v) : v.HasType a.resultType := by
  cases a with
  | countAll count | countNonNull count =>
      cases h
      exact .inr rfl
  | percentile T ps values =>
      rw [get] at h
      split at h
      · cases h
        exact .inl rfl
      split at h
      · cases h
      obtain ⟨result, -, h⟩ := bind_eq_ok.mp h
      split at h
      · cases h
        exact .inr rfl
      · cases h
        exact .inr rfl
  | min T res | max T res =>
      cases h
      cases res with
      | none => exact .inl rfl
      | some x => exact .inr (Operand.type_toValue T x)
  | sum T s =>
      cases h
      exact .inr (Operand.type_toValue T s)

omit [Platform] in
theorem buildAggregate_resultType {f : Function} (h : buildAggregate f = .ok a)
    {ts : List ValueType} {t : ValueType} (ht : f.aggregatesTo ts t = true) : a.resultType = t := by
  have hlast : ∀ {p q : Bool}, (p && q) = true → q = true := fun h => (Bool.and_eq_true_iff.mp h).2
  cases f with
  | countAll | countNonNull =>
      cases h
      rcases ts with _ | ⟨b, _ | ⟨c, ts⟩⟩ <;> first
        | exact (beq_iff_eq.mp ht).symm
        | cases ht
  | percentile ps argType =>
      obtain ⟨T, -, hpure⟩ := bind_eq_ok.mp h
      cases hpure
      rcases ts with _ | ⟨b, _ | ⟨c, ts⟩⟩ <;> first
        | exact (beq_iff_eq.mp (hlast ht)).symm
        | cases ht
  | min argType | max argType =>
      obtain ⟨T, hT, hpure⟩ := bind_eq_ok.mp h
      cases hpure
      have hT := Operand.valueType_of_comparable (dispatch_eq_ok.mp hT)
      rcases ts with _ | ⟨b, _ | ⟨c, ts⟩⟩ <;> first
        | exact hT.trans (beq_iff_eq.mp (hlast ht)).symm
        | cases ht
  | sum argType =>
      obtain ⟨T, hT, hpure⟩ := bind_eq_ok.mp h
      cases hpure
      have hT := Operand.valueType_of_addable (dispatch_eq_ok.mp hT)
      rcases ts with _ | ⟨b, _ | ⟨c, ts⟩⟩ <;> first
        | exact hT.trans (beq_iff_eq.mp (hlast ht)).symm
        | cases ht
  | _ => cases h

end FnAggregator

namespace Ir

open Flow (collect expand Interleave Shuffle)

/-! ### Well-typed relations -/

/-- The type of an aggregate is that of its field, and its parts agree with it. -/
def Aggregate.Typed (types : FieldId → ValueType) (a : Aggregate) : Prop :=
  a.valueType = types a.outputFieldId ∧ match a.node with
    | .fnCall f args =>
      Scalar.TypedAll types args ∧ f.aggregatesTo (args.map Scalar.valueType) a.valueType = true
    | .const v _ => v.HasType a.valueType

/-- What a projector computes has the type of its field. -/
structure Projector.Typed (types : FieldId → ValueType) (p : Projector) : Prop where
  expr : p.expr.Typed types
  fits : p.expr.valueType.fits (types p.aliasFieldId) = true

/-- The scalars and the aggregates of a node are well typed. -/
def Relation.TypedNode (types : FieldId → ValueType) : Relation → Prop
  | .values vs id _ => ∀ v ∈ vs, v.HasType (types id)
  | .projection _ ps _ => ∀ p ∈ ps, p.Typed types
  | .aggregate _ as _ => ∀ a ∈ as, a.Typed types
  | .group _ as ks _ => (∀ a ∈ as, a.Typed types) ∧ ∀ k ∈ ks, k.Typed types
  | .filter _ c _ => c.Typed types
  | .sort _ ks _ _ | .topK _ ks _ _ _ | .unionAllSortedBy _ _ ks _ _ => ∀ k ∈ ks, k.Typed types
  | .semiJoin _ _ e _ _ => e.Typed types
  | .markJoin _ _ e o _ _ => e.Typed types ∧ types o = .boolean
  | .leftJoin _ _ lk rk _ => lk.Typed types ∧ rk.Typed types
  | .file _ _ _ s | .stream _ s => ∀ id ∈ s.fields, types id = .string
  | .empty _ | .limit _ _ _ | .unionAll _ _ | .namedRelationReference _ _ | .materialize _ _ => True

/-- Every node of a relation is well typed. -/
abbrev Relation.Typed (types : FieldId → ValueType) (r : Relation) : Prop :=
  r.Everywhere (Relation.TypedNode types)

/-! ### Rows -/

/-- A row whose fields have their types. -/
def TypedRow (types : FieldId → ValueType) (row : Row) : Prop :=
  ∀ id, (row id).HasType (types id)

/-- Every row of a sequence has the types of its fields. -/
def TypedItems (types : FieldId → ValueType) (u : List Item) : Prop :=
  ∀ row, .ok row ∈ u → TypedRow types row

section Rows

variable {types : FieldId → ValueType} {row : Row}

theorem TypedRow.record (h : TypedRow types row) : Scalar.TypedRecord types row.record := by
  intro id v hv
  cases hv
  exact h id

/-- Values that have the types of their fields. -/
theorem typedRow_ofValues {ids : List FieldId} {vs : List Value}
    (h : List.Forall₂ (fun id v => v.HasType (types id)) ids vs) :
    TypedRow types (.ofValues ids vs) := by
  intro id
  unfold Row.ofValues
  induction h with
  | nil => exact .inl rfl
  | @cons id' v ids vs hv _ ih =>
      rw [List.zip_cons_cons, List.lookup_cons]
      by_cases hid : id = id'
      · subst hid
        rw [beq_self_eq_true]
        exact hv
      · rw [beq_false_of_ne hid]
        exact ih

theorem TypedRow.join {right : Schema} {l r : Row} (hl : TypedRow types l) (hr : TypedRow types r) :
    TypedRow types (l.join right r) := by
  intro id
  unfold Row.join
  split
  · exact hr id
  · exact hl id

theorem typedRow_null : TypedRow types fun _ => .null := fun id => Value.hasType_null (types id)

theorem TypedItems.nil : TypedItems types [] := fun _ h => absurd h List.not_mem_nil

theorem TypedItems.append {u u' : List Item} (h : TypedItems types u) (h' : TypedItems types u') :
    TypedItems types (u ++ u') := fun row hrow =>
  (List.mem_append.mp hrow).elim (h row) (h' row)

theorem TypedItems.error {e : Fault} : TypedItems types [.error e] := fun row hrow => by
  cases List.mem_singleton.mp hrow

theorem TypedItems.subset {u u' : List Item} (h : TypedItems types u) (hsub : u' ⊆ u) :
    TypedItems types u' := fun row hrow => h row (hsub hrow)

/-- Every row makes rows that have the types of their fields. -/
theorem TypedItems.expand {s : List Item} (hs : TypedItems types s) {f : Row → List Item}
    (hf : ∀ row, TypedRow types row → TypedItems types (f row)) :
    TypedItems types (expand f s) := by
  intro row hrow
  obtain ⟨row', hrow', hmem⟩ := Flow.ok_mem_expand hrow
  exact hf row' (hs row' hrow') row hmem

theorem TypedItems.collected {s : List Item} (hs : TypedItems types s) {rows : List Row}
    (h : collect s = .ok rows) : ∀ row ∈ rows, TypedRow types row := by
  intro row hrow
  refine hs row ?_
  rw [Flow.collect_eq_ok h]
  exact List.mem_map_of_mem hrow

end Rows

/-! ### Operators -/

section Operators

variable [Platform] {types : FieldId → ValueType}

/-- The values of well-typed scalars. -/
theorem typed_evalAll {scalars : List Scalar} (hscalars : ∀ e ∈ scalars, e.Typed types) {row : Row}
    (hrow : TypedRow types row) {vs : List Value} (h : Scalar.evalAll row.record scalars = .ok vs) :
    List.Forall₂ (fun e v => v.HasType (Scalar.valueType e)) scalars vs := by
  induction scalars generalizing vs with
  | nil =>
      cases h
      exact .nil
  | cons e es ih =>
      obtain ⟨v, hv, h⟩ := bind_eq_ok.mp h
      obtain ⟨vs', hvs, hpure⟩ := bind_eq_ok.mp h
      cases hpure
      exact .cons ((hscalars e List.mem_cons_self).eval hrow.record hv)
        (ih (fun e' he' => hscalars e' (List.mem_cons_of_mem _ he')) hvs)

/-- The values of projectors, under their fields. -/
theorem typed_projectors {ps : List Projector} (hps : ∀ p ∈ ps, p.Typed types) {row : Row}
    (hrow : TypedRow types row) {vs : List Value}
    (h : Scalar.evalAll row.record (ps.map Projector.expr) = .ok vs) :
    List.Forall₂ (fun id v => v.HasType (types id)) (ps.map Projector.aliasFieldId) vs := by
  have hexprs : ∀ e ∈ ps.map Projector.expr, e.Typed types := fun e he => by
    obtain ⟨p, hp, rfl⟩ := List.mem_map.mp he
    exact (hps p hp).expr
  have hvs := typed_evalAll hexprs hrow h
  rw [List.forall₂_map_left_iff] at hvs ⊢
  exact ((List.forall₂_and_left _ _).mpr ⟨hps, hvs⟩).imp fun p v hpv => hpv.2.of_fits hpv.1.fits

theorem projectRow_typed {ps : List Projector} (hps : ∀ p ∈ ps, p.Typed types) {row : Row}
    (hrow : TypedRow types row) : TypedItems types [projectRow ps row] := by
  intro row' hrow'
  obtain ⟨vs, hvs, hpure⟩ := bind_eq_ok.mp (List.mem_singleton.mp hrow').symm
  cases hpure
  exact typedRow_ofValues (typed_projectors hps hrow hvs)

theorem filterRow_typed {c : Scalar} {row : Row} (hrow : TypedRow types row) :
    TypedItems types (filterRow c row) := by
  intro row' hrow'
  unfold filterRow at hrow'
  split at hrow'
  · cases List.mem_singleton.mp hrow'
    exact hrow
  · exact absurd hrow' List.not_mem_nil
  · cases List.mem_singleton.mp hrow'

theorem semiJoinRow_typed {e : Scalar} {values : List Value} {row : Row}
    (hrow : TypedRow types row) : TypedItems types (semiJoinRow e values row) := by
  intro row' hrow'
  unfold semiJoinRow at hrow'
  split at hrow'
  · split at hrow'
    · cases List.mem_singleton.mp hrow'
      exact hrow
    · exact absurd hrow' List.not_mem_nil
  · cases List.mem_singleton.mp hrow'

theorem markJoinRow_typed {e : Scalar} {o : FieldId} (ho : types o = .boolean)
    {values : List Value} {row : Row} (hrow : TypedRow types row) :
    TypedItems types [markJoinRow e o values row] := by
  intro row' hrow'
  obtain ⟨v, -, hpure⟩ := bind_eq_ok.mp (List.mem_singleton.mp hrow').symm
  cases hpure
  intro id
  by_cases hid : id = o
  · subst hid
    rw [Function.update_self, ho]
    exact .inr rfl
  · rw [Function.update_of_ne hid]
    exact hrow id

theorem leftJoinRow_typed {lk : Scalar} {right : Schema} {rows : List (Row × Value)}
    (hrows : ∀ p ∈ rows, TypedRow types p.1) {row : Row} (hrow : TypedRow types row) :
    TypedItems types (leftJoinRow lk right rows row) := by
  intro row' hrow'
  unfold leftJoinRow at hrow'
  split at hrow'
  · cases List.mem_singleton.mp hrow'
  next v _ =>
    -- the rows that match are among those of the right side
    have hmatching : ∀ {ps : List (Row × Value)}, ps ⊆ rows →
        TypedItems types (if ps.isEmpty then [.ok (row.join right fun _ => .null)]
          else ps.map fun p => .ok (row.join right p.1)) := by
      intro ps hps row' hrow'
      split at hrow'
      · cases List.mem_singleton.mp hrow'
        exact hrow.join typedRow_null
      · obtain ⟨p, hp, heq⟩ := List.mem_map.mp hrow'
        cases heq
        exact hrow.join (hrows p (hps hp))
    refine hmatching ?_ row' hrow'
    split
    · exact List.nil_subset _
    · exact fun p hp => List.mem_of_mem_filter hp

/-- What an aggregate returns has the type of its field. -/
theorem Aggregate.Typed.over {a : Aggregate} (ha : a.Typed types) {rows : List Row} {v : Value}
    (h : a.over rows = .ok v) : v.HasType (types a.outputFieldId) := by
  obtain ⟨htype, hnode⟩ := ha
  rw [← htype]
  have hfeed : ∀ {args : List Scalar} {rows : List Row} {x y : FnAggregator},
      feedRows args x rows = .ok y → y.resultType = x.resultType := by
    intro args rows
    induction rows with
    | nil =>
        intro x y h
        cases h
        rfl
    | cons row rows ih =>
        intro x y h
        obtain ⟨v, -, h⟩ := bind_eq_ok.mp h
        obtain ⟨z, hz, h⟩ := bind_eq_ok.mp h
        exact (ih h).trans (FnAggregator.feed_resultType hz)
  unfold Aggregate.over at h
  split at h
  next f args hfn =>
    rw [hfn] at hnode
    obtain ⟨start, hstart, h⟩ := bind_eq_ok.mp h
    obtain ⟨state, hstate, h⟩ := bind_eq_ok.mp h
    rw [← FnAggregator.buildAggregate_resultType hstart hnode.2, ← hfeed hstate]
    exact FnAggregator.get_hasType h
  next w nullIfEmpty hconst =>
    rw [hconst] at hnode
    cases h
    split
    · exact .inl rfl
    · exact hnode

theorem typed_aggregatesOver {as : List Aggregate} (has : ∀ a ∈ as, a.Typed types)
    {rows : List Row} {vs : List Value} (h : aggregatesOver as rows = .ok vs) :
    List.Forall₂ (fun id v => v.HasType (types id)) (as.map Aggregate.outputFieldId) vs := by
  induction as generalizing vs with
  | nil =>
      cases h
      exact .nil
  | cons a as ih =>
      rw [aggregatesOver, List.mapM_cons] at h
      obtain ⟨v, hv, h⟩ := bind_eq_ok.mp h
      obtain ⟨vs', hvs, hpure⟩ := bind_eq_ok.mp h
      cases hpure
      exact .cons ((has a List.mem_cons_self).over hv)
        (ih (fun a' ha' => has a' (List.mem_cons_of_mem _ ha')) hvs)

/-- The row of a group. -/
theorem groupRow_typed {as : List Aggregate} {ks : List Projector} (has : ∀ a ∈ as, a.Typed types)
    {g : List Value × List Row}
    (hkey : List.Forall₂ (fun id v => v.HasType (types id)) (ks.map Projector.aliasFieldId) g.1) :
    TypedItems types [groupRow as ks g] := by
  intro row hrow
  obtain ⟨vs, hvs, hpure⟩ := bind_eq_ok.mp (List.mem_singleton.mp hrow).symm
  cases hpure
  exact typedRow_ofValues (List.rel_append (typed_aggregatesOver has hvs) hkey)

omit [Platform] in
/-- A row joins a group by its key or starts one. -/
theorem forall_insertRow {P : List Value → Prop} {key : List Value} {row : Row} (hkey : P key)
    {gs : List (List Value × List Row)} (hgs : ∀ g ∈ gs, P g.1) :
    ∀ g ∈ insertRow key row gs, P g.1 := by
  induction gs with
  | nil =>
      intro g hg
      rw [List.mem_singleton.mp hg]
      exact hkey
  | cons g gs ih =>
      rw [List.forall_mem_cons] at hgs
      rw [insertRow]
      split
      · exact List.forall_mem_cons.mpr hgs
      · exact List.forall_mem_cons.mpr ⟨hgs.1, ih hgs.2⟩

omit [Platform] in
theorem forall_groupRows {P : List Value → Prop} {pairs : List (Row × List Value)}
    (hpairs : ∀ p ∈ pairs, P p.2) {gs : List (List Value × List Row)} (hgs : ∀ g ∈ gs, P g.1) :
    ∀ g ∈ groupRows gs pairs, P g.1 := by
  induction pairs generalizing gs with
  | nil => exact hgs
  | cons p pairs ih =>
      rw [List.forall_mem_cons] at hpairs
      exact ih hpairs.2 (forall_insertRow hpairs.1 hgs)

omit [Platform] in
/-- What is collected with a key comes from the rows. -/
theorem mem_collect_attach {κ : Type} {key : Row → Except Fault κ} {s : List Item}
    {pairs : List (Row × κ)} (h : collect (s.map (attach key)) = .ok pairs) {p : Row × κ}
    (hp : p ∈ pairs) : .ok p.1 ∈ s ∧ key p.1 = .ok p.2 := by
  have hmem : .ok p ∈ s.map (attach key) := by
    rw [Flow.collect_eq_ok h]
    exact List.mem_map_of_mem hp
  obtain ⟨item, hitem, hattach⟩ := List.mem_map.mp hmem
  obtain ⟨rfl, hkey⟩ := attach_ok.mp hattach
  exact ⟨hitem, hkey⟩

theorem Groups.typed {as : List Aggregate} {ks : List Projector} (has : ∀ a ∈ as, a.Typed types)
    (hks : ∀ k ∈ ks, k.Typed types) {s u : List Item} (hs : TypedItems types s)
    (h : Groups as ks s u) : TypedItems types u := by
  cases h with
  | fault _ => exact .error
  | groups hpairs hperm =>
      intro row hrow
      obtain ⟨g, hg, heq⟩ := List.mem_map.mp hrow
      refine groupRow_typed has ?_ row (List.mem_singleton.mpr heq.symm)
      refine forall_groupRows (P := fun key =>
        List.Forall₂ (fun id v => v.HasType (types id)) (ks.map Projector.aliasFieldId) key)
        (fun p hp => ?_) (fun g hg => absurd hg List.not_mem_nil) g (hperm.subset hg)
      obtain ⟨hrow, hkey⟩ := mem_collect_attach hpairs hp
      exact typed_projectors hks (hs p.1 hrow) hkey

theorem Sorts.typed {ks : List Scalar} {desc : Bool} {s u : List Item} (hs : TypedItems types s)
    (h : Sorts ks desc s u) : TypedItems types u := by
  cases h with
  | fault _ => exact .error
  | sorted hpairs hperm _ =>
      intro row hrow
      obtain ⟨p, hp, heq⟩ := List.mem_map.mp hrow
      cases heq
      exact hs p.1 (mem_collect_attach hpairs (hperm.subset hp)).1

theorem Merges.typed {ks : List Scalar} {desc : Bool} {s t u : List Item} (hs : TypedItems types s)
    (ht : TypedItems types t) (h : Merges ks desc s t u) : TypedItems types u := by
  obtain ⟨w, hw, -, rfl⟩ := h
  intro row hrow
  obtain ⟨item, hitem, heq⟩ := List.mem_map.mp hrow
  rcases item with e | p
  · cases heq
  cases heq
  have hrow : ∀ {l : List Item}, .ok p ∈ l.map (attach (keyOf ks)) → .ok p.1 ∈ l := by
    intro l hp
    obtain ⟨item, hitem, hattach⟩ := List.mem_map.mp hp
    rw [(attach_ok.mp hattach).1] at hitem
    exact hitem
  rcases List.mem_append.mp (hw.perm.subset hitem) with hp | hp
  · exact hs p.1 (hrow hp)
  · exact ht p.1 (hrow hp)

end Operators

/-! ### Relations and programs -/

/-- A row that holds strings, and only in the columns of a schema. -/
def StringsIn (schema : Schema) (row : Row) : Prop :=
  ∀ id, row id = .null ∨ id ∈ schema.fields ∧ (row id).type = .string

/-- What is read are strings. -/
structure Data.HoldsStrings (data : Data) : Prop where
  file : ∀ path range format schema row, .ok row ∈ data.file path range format schema →
    StringsIn schema row
  stream : ∀ command schema row, .ok row ∈ data.stream command schema → StringsIn schema row

/-- Strings are read, and what the named relations put out has the types of its fields. -/
structure Env.Typed (types : FieldId → ValueType) (env : Env) : Prop where
  data : env.toData.HoldsStrings
  named : ∀ name u, env.named name u → TypedItems types u

theorem StringsIn.typed {types : FieldId → ValueType} {schema : Schema} {row : Row}
    (h : StringsIn schema row) (hschema : ∀ id ∈ schema.fields, types id = .string) :
    TypedRow types row := fun id =>
  (h id).imp_right fun hid => hid.2.trans (hschema id hid.1).symm

/-- The type of a field. -/
def fieldType (binding : FieldBinding) (id : FieldId) : ValueType :=
  ((binding.entry id).map Prod.snd).getD .null

/-- The relation of a statement is well typed. -/
def Statement.Typed (types : FieldId → ValueType) : Statement → Prop
  | .namedRelation _ r => r.Typed types
  | .query r => r.Typed types

/-- The relations of a program are well typed. -/
def Program.Typed (program : Program) : Prop :=
  ∀ s ∈ program.statements, s.Typed (fieldType program.fieldBinding)

theorem whenCollected_typed {types : FieldId → ValueType} {κ : Type} {key : Row → Except Fault κ}
    {s : List Item} (hs : TypedItems types s) {f : List (Row × κ) → List Item}
    (hf : ∀ pairs, (∀ p ∈ pairs, TypedRow types p.1) → TypedItems types (f pairs)) :
    TypedItems types (whenCollected (s.map (attach key)) f) := by
  unfold whenCollected
  split
  next pairs hpairs => exact hf pairs fun p hp => hs p.1 (mem_collect_attach hpairs hp).1
  · exact .error

theorem whenCollected_typed_of_forall {types : FieldId → ValueType} {s : List Item}
    {f : List Row → List Item} (hf : ∀ rows, TypedItems types (f rows)) :
    TypedItems types (whenCollected s f) := by
  unfold whenCollected
  split
  next rows _ => exact hf rows
  · exact .error

section Relations

variable [Platform] {types : FieldId → ValueType} {env : Env}

/-- One operator. -/
theorem Step.typed (henv : env.Typed types) {r : Relation} (hr : r.TypedNode types)
    {ss : List (List Item)} (hlength : ss.length = r.sources.length)
    (hss : ∀ s ∈ ss, TypedItems types s) {u : List Item} (h : Step env r ss u) :
    TypedItems types u := by
  cases r with
  | unionAll rs s =>
      intro row hrow
      obtain ⟨l, hl, hrow⟩ := List.mem_flatten.mp ((Shuffle.perm h).subset hrow)
      exact hss l hl row hrow
  | empty s =>
      cases List.length_eq_zero_iff.mp hlength
      subst h
      exact .nil
  | values vs id s =>
      cases List.length_eq_zero_iff.mp hlength
      subst h
      intro row hrow
      obtain ⟨v, hv, heq⟩ := List.mem_map.mp hrow
      cases heq
      exact typedRow_ofValues (.cons (hr v hv) .nil)
  | file path range format s =>
      cases List.length_eq_zero_iff.mp hlength
      subst h
      exact fun row hrow => (henv.data.file path range format s row hrow).typed hr
  | stream command s =>
      cases List.length_eq_zero_iff.mp hlength
      subst h
      exact fun row hrow => (henv.data.stream command s row hrow).typed hr
  | namedRelationReference name s =>
      cases List.length_eq_zero_iff.mp hlength
      exact henv.named name u h
  | semiJoin r m e f s =>
      obtain ⟨s, t, rfl⟩ := List.length_eq_two.mp hlength
      subst h
      refine whenCollected_typed_of_forall fun rows => ?_
      split
      · exact .nil
      · exact (hss s List.mem_cons_self).expand fun row hrow => semiJoinRow_typed hrow
  | markJoin r m e o f s =>
      obtain ⟨s, t, rfl⟩ := List.length_eq_two.mp hlength
      subst h
      exact whenCollected_typed_of_forall fun rows =>
        (hss s List.mem_cons_self).expand fun row hrow => markJoinRow_typed hr.2 hrow
  | leftJoin l r lk rk s =>
      obtain ⟨s, t, rfl⟩ := List.length_eq_two.mp hlength
      subst h
      exact whenCollected_typed (hss t (List.mem_cons_of_mem _ List.mem_cons_self)) fun pairs hpairs =>
        (hss s List.mem_cons_self).expand fun row hrow => leftJoinRow_typed hpairs hrow
  | unionAllSortedBy l r ks desc s =>
      obtain ⟨s, t, rfl⟩ := List.length_eq_two.mp hlength
      exact Merges.typed (hss s List.mem_cons_self)
        (hss t (List.mem_cons_of_mem _ List.mem_cons_self)) h
  | projection r ps s =>
      obtain ⟨s, rfl⟩ := List.length_eq_one_iff.mp hlength
      subst h
      exact (hss s List.mem_cons_self).expand fun row hrow => projectRow_typed hr hrow
  | aggregate r as s =>
      obtain ⟨s, rfl⟩ := List.length_eq_one_iff.mp hlength
      subst h
      refine whenCollected_typed_of_forall fun rows row hrow => ?_
      obtain ⟨vs, hvs, hpure⟩ := bind_eq_ok.mp (List.mem_singleton.mp hrow).symm
      cases hpure
      exact typedRow_ofValues (typed_aggregatesOver hr hvs)
  | group r as ks s =>
      obtain ⟨s, rfl⟩ := List.length_eq_one_iff.mp hlength
      exact Groups.typed hr.1 hr.2 (hss s List.mem_cons_self) h
  | limit r n s =>
      obtain ⟨s, rfl⟩ := List.length_eq_one_iff.mp hlength
      subst h
      exact (hss s List.mem_cons_self).subset (List.take_subset _ _)
  | filter r c s =>
      obtain ⟨s, rfl⟩ := List.length_eq_one_iff.mp hlength
      subst h
      exact (hss s List.mem_cons_self).expand fun row hrow => filterRow_typed hrow
  | sort r ks desc s =>
      obtain ⟨s, rfl⟩ := List.length_eq_one_iff.mp hlength
      exact Sorts.typed (hss s List.mem_cons_self) h
  | topK r ks desc n s =>
      obtain ⟨s, rfl⟩ := List.length_eq_one_iff.mp hlength
      obtain ⟨w, hw, rfl⟩ := h
      exact (Sorts.typed (hss s List.mem_cons_self) hw).subset (List.take_subset _ _)
  | materialize r s =>
      obtain ⟨s, rfl⟩ := List.length_eq_one_iff.mp hlength
      subst h
      exact hss u List.mem_cons_self

/-- **Type soundness.** What a well-typed relation puts out has the types of its fields. -/
theorem Emits.typed (henv : env.Typed types) {r : Relation} (hr : r.Typed types) {u : List Item}
    (h : Emits env r u) : TypedItems types u := by
  induction r using Relation.induction generalizing u with
  | h r ih =>
      obtain ⟨ss, hss, hstep⟩ := h.inv
      refine hstep.typed henv hr.here hss.length_eq.symm fun s hs => ?_
      obtain ⟨q, hq, hqs⟩ := forall₂_mem_right hss hs
      exact ih q hq (hr.source hq) hqs

/-- A named relation that is well typed. -/
theorem Env.Typed.define (henv : env.Typed types) {name : String} {r : Relation}
    (hr : r.Typed types) : (env.define name r).Typed types where
  data := henv.data
  named other u hu := by
    by_cases hname : other = name
    · subst hname
      rw [named_define, Function.update_self] at hu
      exact hu.typed henv hr
    · rw [named_define, Function.update_of_ne hname] at hu
      exact henv.named other u hu

theorem typed_queries (henv : env.Typed types) {ss : List Statement}
    (hss : ∀ s ∈ ss, s.Typed types) : ∀ q ∈ queries env ss, q.1.Typed types ∧ q.2.Typed types := by
  induction ss generalizing env with
  | nil => exact fun q hq => absurd hq List.not_mem_nil
  | cons s ss ih =>
      rw [List.forall_mem_cons] at hss
      cases s with
      | namedRelation name r => exact ih (henv.define hss.1) hss.2
      | query r => exact List.forall_mem_cons.mpr ⟨⟨henv, hss.1⟩, ih henv hss.2⟩

/-- The answers of a well-typed program. -/
theorem Program.Typed.answers {program : Program} (h : program.Typed) {data : Data}
    (hdata : data.HoldsStrings) {q : Env × Relation}
    (hq : q ∈ program.queries data) {u : List Item} (hu : Emits q.1 q.2 u) :
    TypedItems (fieldType program.fieldBinding) u := by
  have hstart : Env.Typed (fieldType program.fieldBinding) { data with named := fun _ _ => False } :=
    ⟨hdata, fun _ _ hnamed => hnamed.elim⟩
  obtain ⟨henv, hr⟩ := typed_queries hstart h q hq
  exact hu.typed henv hr

end Relations

end Ir

end Lsql
