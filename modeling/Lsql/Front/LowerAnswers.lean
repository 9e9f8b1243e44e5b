import Lsql.Front.LowerSelect

/-!
# Lsql.Front.LowerAnswers

A program is lowered to one that answers what it asks for.

A relation is lowered to one that delivers rows that the bound relation may answer with, whatever the
relations below it deliver. Two forms are left out (`Readable`). A `SELECT` that groups or aggregates
cannot read an `IN` in its list: its join is put below the aggregation and its field is not handed on.
The keys of a sorted union cannot hold one at all: there is no current relation to put its join on.
-/

namespace Lsql.Front.Lower

open Bound (Evaluator World Shows Denotes Returns EntryOf Kept)
open Ir (Row Delivers)

/-! ### Aliases -/

section Aliases

variable {w : World} {b : FieldBinding} {fields : Option FieldSet}

theorem aliasProjectors_leads (aliasName : String) (ids : List FieldId) :
    Leads w b fields none (aliasProjectors aliasName ids) fun b' _ ps =>
      List.Forall₂ (fun id p => ∃ type, p.expr = .field id type) ids ps ∧
        List.Forall₂ (AliasOf b' aliasName) ids (aliases ps) := by
  refine Leads.also ?_ fun _ _ _ _ _ hrun => aliasProjectors_aliasOf hrun
  induction ids with
  | nil => exact .pure fun _ => .nil
  | cons id ids ih =>
      refine (nameOf_leads id).frameBind fun name _ _ => (typeOf_leads id).frameBind fun type _ _ => ?_
      refine (getOrAdd_leads _ type).frameBind fun aliasId _ _ => ih.frameBind fun ps _ hps => ?_
      exact .pure fun _ _ _ _ _ => .cons ⟨type, rfl⟩ hps

variable [Platform]

/-- The same rows under other names. -/
theorem lowerAlias_leads (aliasName : String) (source : Ir.Relation) :
    Leads w b fields none (lowerAlias aliasName source) fun b' _ q => ∃ ids',
      List.Forall₂ (AliasOf b' aliasName) source.schema.fields ids' ∧
        ∀ rows, Delivers w.env q rows → ∃ given, Delivers w.env source given ∧
          List.Forall₂ (fun row row' => List.Forall₂ (fun id id' => row' id' = row id)
            source.schema.fields ids') given rows := by
  refine (aliasProjectors_leads aliasName _).bind fun ps t' b₁ hps => ?_
  refine Leads.liftBind fun schema hschema => .pure fun b' hb => ?_
  obtain ⟨hfields, haliases⟩ := hps
  have hslots : schema.fields = aliases ps := Schema.appendAll_eq_ok.mp hschema
  have hnodup : (aliases ps).Nodup := hslots ▸ schema.nodup
  refine ⟨_, haliases.imp fun _ _ h => h.mono hb, fun rows hrows => ?_⟩
  obtain ⟨given, hgiven, hprojected⟩ := Ir.delivers_projection hrows
  refine ⟨given, hgiven, hprojected.imp fun row row' hrow => ?_⟩
  have hvalues := Ir.projectRow_values hnodup hrow
  rw [aliases, List.forall₂_map_right_iff]
  have hmem : ∀ p ∈ ps, p ∈ ps := fun _ h => h
  refine List.Forall₂.flip (((List.forall₂_and_left _ _).mpr ⟨hmem, List.Forall₂.flip hfields⟩).imp ?_)
  rintro p id ⟨hp, type, hexpr⟩
  have hvalue := hvalues p hp
  rw [hexpr] at hvalue
  exact (Except.ok.inj hvalue).symm

end Aliases

/-! ### Joins -/

section Joins

variable [Platform] {w : World} {b : FieldBinding} {fields : Option FieldSet}

/-- An input of a join, with its key. -/
theorem lowerInput_leads {key : Expr} {D : Evaluator → Prop} (hkey : key.Stands w b D)
    (source : Ir.Relation) :
    Leads w b fields none (lowerInput source key) fun b' _ input => input.2.2 = source.schema ∧
      Over w.env source input.1 ∧ Finally w b' (Computes w source.schema.fieldSet
        (key.withoutIn false) (some input.1) D (input.2.1, [])) := by
  have hwithin : Within source.schema.fieldSet (some source) := by
    rintro _ ⟨⟩ id hid
    exact hid
  refine scopedRelation_leads ?_
  refine currRelation_leads.bind fun curr _ _ hcurr => ?_
  obtain ⟨rfl, rfl⟩ := hcurr
  refine scopedFieldSet_leads ?_
  refine (lowerRowExpr_leads hkey (fun h => by cases h) hwithin).bind fun scalar t' b₁ hscalar => ?_
  obtain ⟨honto, hfinally⟩ := hscalar
  cases honto with
  | @some _ q hover =>
      refine pullRelation_leads.bind fun input _ _ hinput => .pure fun b' _ hb _ => ?_
      subst hinput
      exact ⟨rfl, hover, hfinally.before hb⟩

/-- Two rows have the same columns. -/
def SameOn (r : Ir.Relation) (row row' : Row) : Prop := ∀ id ∈ r.schema.fields, row id = row' id

/-- The rows of an input with the values of its key, as rows of the source. -/
theorem keyed_input {source input : Ir.Relation} {scalar : Ir.Scalar} {free : Bool}
    {D : Evaluator → Prop} (hover : Over w.env source input)
    (hkey : Computes w source.schema.fieldSet free (some input) D (scalar, []))
    {given : List Row} {keyed : List (Row × Value)} (hgiven : Delivers w.env input given)
    (hkeyed : Keyed (fun row : Row => scalar.eval row.record) given keyed) :
    ∃ rows ev keyed', Delivers w.env source rows ∧ D ev ∧ Keyed (fun row => ev row []) rows keyed' ∧
      List.Forall₂ (fun p q => SameOn source p.1 q.1 ∧ p.2 = q.2) keyed keyed' := by
  obtain ⟨rows, hrows, hshows⟩ := hover.rows given (Pool.of_delivers hgiven)
  obtain ⟨ev, hev, hlocal, hvalue⟩ := hkey given (Pool.of_delivers hgiven)
  obtain ⟨keyed', hkeyed', hforall⟩ := hkeyed.transfer (fun row => ev row [])
    (shows_flip hshows) fun row' row v hrow hv => by
      rw [hlocal row' row [] [] (fun id hid => (hrow.2 id hid).symm) .nil, ← hvalue.on hrow.1]
      exact hv
  exact ⟨rows, ev, keyed', hrows, hev, hkeyed', hforall.imp fun _ _ h => ⟨h.1.2, h.2⟩⟩

/-- What a left join of two inputs delivers. -/
def Joins (w : World) (left right q : Ir.Relation) (L R : Evaluator → Prop) : Prop :=
  ∀ rows, Delivers w.env q rows → ∃ ls rs lk rk lefts rights, Delivers w.env left ls ∧
    Delivers w.env right rs ∧ L lk ∧ R rk ∧ Keyed (fun row => lk row []) ls lefts ∧
    Keyed (fun row => rk row []) rs rights ∧
    List.Forall₂ (fun pair row => (∀ id ∈ left.schema.fields, row id = pair.1 id) ∧
      ∀ id ∈ right.schema.fields, row id = pair.2.getD (fun _ => .null) id)
      (lefts.flatMap (leftPairs rights)) rows

/-- The fields that the keys have been computed in are projected away. -/
theorem joinInputs_leads {left right : Ir.Relation} {l r : Ir.Relation × Ir.Scalar × Schema}
    (free free' : Bool) (L R : Evaluator → Prop) (hleft : l.2.2 = left.schema)
    (hright : r.2.2 = right.schema) (hl : Over w.env left l.1) (hr : Over w.env right r.1) :
    Leads w b fields none (joinInputs l r) fun _ _ q =>
      Computes w left.schema.fieldSet free (some l.1) L (l.2.1, []) →
      Computes w right.schema.fieldSet free' (some r.1) R (r.2.1, []) →
      Joins w left right q L R := by
  refine Leads.liftBind fun schema hschema => Leads.liftBind fun outputSchema houtput => ?_
  have hfields : schema.fields = l.1.schema.fields ++ r.1.schema.fields :=
    Schema.appendAll_eq_ok.mp hschema
  have houtputs : outputSchema.fields = left.schema.fields ++ right.schema.fields := by
    rw [Schema.appendAll_eq_ok.mp houtput, hleft, hright]
  have hdisjoint := (List.nodup_append.mp (hfields ▸ schema.nodup)).2.2
  -- the rows of the join itself
  have hjoined : Computes w left.schema.fieldSet free (some l.1) L (l.2.1, []) →
      Computes w right.schema.fieldSet free' (some r.1) R (r.2.1, []) →
      Joins w left right (.leftJoin l.1 r.1 l.2.1 r.2.1 schema) L R := by
    intro hcl hcr rows hrows
    obtain ⟨given, given', lefts, rights, hgiven, hgiven', hlefts, hrights, rfl⟩ :=
      Ir.delivers_leftJoin hrows
    obtain ⟨ls, lk, lefts', hls, hlk, hlefts', hforall⟩ := keyed_input hl hcl hgiven hlefts
    obtain ⟨rs, rk, rights', hrs, hrk, hrights', hforall'⟩ := keyed_input hr hcr hgiven' hrights
    refine ⟨ls, rs, lk, rk, lefts', rights', hls, hrs, hlk, hrk, hlefts', hrights', ?_⟩
    rw [List.forall₂_map_right_iff]
    have hpairs := leftPairs_transfer (R := SameOn left) (S := SameOn right) hforall hforall'
    refine List.Forall₂.flip (hpairs.imp ?_)
    rintro ⟨row, other⟩ ⟨row', other'⟩ ⟨hrow, hother⟩
    refine ⟨fun id hid => ?_, fun id hid => ?_⟩
    · have hnot : r.1.schema.contains id = false :=
        decide_eq_false fun hmem => hdisjoint id (hl.fields id hid) id hmem rfl
      rw [Ir.joinedRow, Ir.Row.join, hnot]
      exact hrow id hid
    · have hin : r.1.schema.contains id = true := decide_eq_true (hr.fields id hid)
      rw [Ir.joinedRow, Ir.Row.join, hin]
      cases hother with
      | none => rfl
      | some hother => exact hother id hid
  dsimp only
  split
  · exact .pure fun _ => hjoined
  · refine (fieldProjectors_leads _).frameBind fun ps _ hps => .pure fun _ _ hcl hcr rows hrows => ?_
    obtain ⟨given, hgiven, hprojected⟩ := Ir.delivers_projection hrows
    obtain ⟨ls, rs, lk, rk, lefts, rights, hls, hrs, hlk, hrk, hlefts, hrights, hpairs⟩ :=
      hjoined hcl hcr given hgiven
    refine ⟨ls, rs, lk, rk, lefts, rights, hls, hrs, hlk, hrk, hlefts, hrights, ?_⟩
    have hnodup : (aliases ps).Nodup := hps.1 ▸ outputSchema.nodup
    have hsame : ∀ row row' : Row, Ir.projectRow ps row = .ok row' →
        ∀ id ∈ outputSchema.fields, row' id = row id := fun row row' hrow id hid => by
      rw [← hps.1] at hid
      obtain ⟨p, hp, rfl⟩ := List.mem_map.mp hid
      obtain ⟨type, hexpr⟩ := hps.2 p hp
      have hvalue := Ir.projectRow_values hnodup hrow p hp
      rw [hexpr] at hvalue
      exact (Except.ok.inj hvalue).symm
    refine forall₂_join (fun row pair row' hpair hrow => ?_) (List.Forall₂.flip hpairs) hprojected
    refine ⟨fun id hid => ?_, fun id hid => ?_⟩
    · rw [hsame row row' hrow id (houtputs ▸ List.mem_append_left _ hid)]
      exact hpair.1 id hid
    · rw [hsame row row' hrow id (houtputs ▸ List.mem_append_right _ hid)]
      exact hpair.2 id hid

end Joins

/-! ### Unions -/

section Unions

variable [Platform] {w : World} {b : FieldBinding} {fields : Option FieldSet} {left right : Ir.Relation}

theorem lowerUnionAll_leads : Leads w b fields none (lowerUnionAll left right) fun _ _ q =>
    ∀ rows, Delivers w.env q rows → ∃ ls rs, Delivers w.env left ls ∧ Delivers w.env right rs ∧
      Flow.Shuffle [ls, rs] rows := by
  refine (verify_leads _ _).frameBind fun _ _ _ => .pure fun _ _ rows hrows => ?_
  obtain ⟨rss, hrss, hshuffle⟩ := Ir.delivers_unionAll hrows
  obtain ⟨ls, rs, rfl, hls, hrs⟩ := Ir.forall₂_two hrss
  exact ⟨ls, rs, hls, hrs, hshuffle⟩

/-- The keys of a union are computed without a current relation. -/
theorem lowerUnionAllSortedBy_leads {orderList : List Expr} {Ds : List (Evaluator → Prop)}
    (hkeys : AllStand w b orderList Ds) (hin : allWithoutIn true orderList = true) (desc : Bool) :
    Leads w b fields none (lowerUnionAllSortedBy left right orderList desc) fun b' _ q =>
      Finally w b' (∀ rows, Delivers w.env q rows → ∃ ls rs evs, Delivers w.env left ls ∧
        Delivers w.env right rs ∧ List.Forall₂ (fun D ev => D ev) Ds evs ∧
        MergedBy (fun row => evs.mapM fun ev => ev row []) desc ls rs rows) := by
  refine (verify_leads _ _).frameBind fun _ _ _ => scopedFieldSet_leads ?_
  refine (lowerRowExprs_leads hkeys (fun _ => hin) (fun _ h => by cases h)).bind
    fun keys t' b₁ hkeys => ?_
  obtain ⟨honto, hfinally⟩ := hkeys
  cases honto
  refine .pure fun b' hb _ hfinal rows hrows => ?_
  obtain ⟨ls, rs, hls, hrs, hmerged⟩ := Ir.delivers_unionAllSortedBy hrows
  obtain ⟨evs, hevs, -, hmatches⟩ := hfinally (hb.trans hfinal) (ls ++ rs) trivial
  refine ⟨ls, rs, evs, hls, hrs, hevs, hmerged.imp fun row hrow => ?_⟩
  exact (evalAll_matches hmatches (List.nil_subset _) (.inr hrow)
    fun _ ha => absurd ha List.not_mem_nil).symm

end Unions

/-! ### Leaves -/

section Leaves

variable {w : World} {b : FieldBinding} {fields : Option FieldSet}

theorem fieldsOf_leads [HashOrder] (cell : Nat) :
    Leads w b fields none (fieldsOf (.opened cell)) fun _ _ set => w.openFields[cell]? = some set := by
  refine .reading fun s set s' hs hrun => ?_
  have hset := fieldsOf_opened hrun
  obtain ⟨⟨fields', t⟩, hfields, hpure⟩ := bind_eq_ok.mp hrun
  cases hpure
  rw [RelationFieldSet.fields] at hfields
  unfold Binder.openFieldsOf at hfields
  split at hfields
  · cases hfields
    exact ⟨rfl, hs.opened ▸ hset⟩
  · cases hfields

theorem find_leads (name : String) :
    Leads w b fields none (find name) fun _ _ schema => w.schemaOf name = some schema := by
  refine .reading fun s schema s' hs hrun => ?_
  unfold find at hrun
  split at hrun
  next schema' hlookup =>
    cases hrun
    refine ⟨rfl, ?_⟩
    rw [← hs.named]
    exact hlookup
  · cases hrun

end Leaves

/-! ### Trees -/

section Trees

mutual

/-- There is no `IN`; or none outside of the arguments of aggregates. -/
def boundWithoutIn (everywhere : Bool) : Bound.Expr → Bool
  | .identifier _ _ | .value _ _ => true
  | .fnCall f args _ => !f.isScalar && !everywhere || boundAllWithoutIn everywhere args
  | .inMatch _ _ _ _ => false
  | .like e _ _ | .unary _ e _ => boundWithoutIn everywhere e
  | .binary _ left right _ => boundWithoutIn everywhere left && boundWithoutIn everywhere right

def boundAllWithoutIn (everywhere : Bool) : List Bound.Expr → Bool
  | [] => true
  | e :: es => boundWithoutIn everywhere e && boundAllWithoutIn everywhere es

end

/-- What a projector computes holds no `IN` outside of the arguments of aggregates. -/
def projectorWithoutIn : Bound.Projector → Bool
  | .expr _ e => boundWithoutIn false e
  | _ => true

/-- Every `IN` is read where its join is. -/
def Readable : Bound.Relation → Prop
  | .select projectors _ _ _ _ _ _ groupList aggregate _ =>
    groupList.isSome = true ∨ aggregate = true → projectors.all projectorWithoutIn = true
  | .unionAllSortedBy _ _ orderList _ _ => boundAllWithoutIn true orderList = true
  | _ => True

variable [HashOrder] {everywhere : Bool}

mutual

theorem exprOf_withoutIn : ∀ e : Bound.Expr,
    (exprOf e).withoutIn everywhere = boundWithoutIn everywhere e
  | .identifier _ _ | .value _ _ | .inMatch _ _ _ _ => rfl
  | .fnCall f args _ => by
      rw [exprOf, Expr.withoutIn, exprsOf_withoutIn args, boundWithoutIn]
  | .like e _ _ => exprOf_withoutIn e
  | .unary _ e _ => exprOf_withoutIn e
  | .binary _ left right _ => by
      rw [exprOf, Expr.withoutIn, exprOf_withoutIn left, exprOf_withoutIn right, boundWithoutIn]

theorem exprsOf_withoutIn : ∀ es : List Bound.Expr,
    allWithoutIn everywhere (exprsOf es) = boundAllWithoutIn everywhere es
  | [] => rfl
  | e :: es => by
      rw [exprsOf, allWithoutIn, exprOf_withoutIn e, exprsOf_withoutIn es, boundAllWithoutIn]

end

theorem projectorsOf_withoutIn (ps : List Bound.Projector) :
    (projectorsOf ps).all Projector.withoutIn = ps.all projectorWithoutIn := by
  induction ps with
  | nil => rfl
  | cons p ps ih =>
      have hp : (projectorOf p).withoutIn = projectorWithoutIn p := by
        cases p with
        | expr id e => exact exprOf_withoutIn e
        | _ => rfl
      rw [projectorsOf, List.all_cons, List.all_cons, hp, ih]

end Trees

/-! ### Relations -/

section Relations

variable [HashOrder] [Platform] {w : World} {b : FieldBinding}
  {names : List (String × RelationFieldSet)} {known : List RelationFieldSet} {bound : BindState}

/-- Relations as the binder returns them, with every `IN` where it can be read. -/
def AllReadable (known : List RelationFieldSet) (bound : BindState) (rs : List Bound.Relation) : Prop :=
  ∀ r ∈ rs, r.WellBound known bound ∧ Readable r

omit [Platform] in
/-- A lowered relation has the columns of the bound one. -/
theorem Leads.columns {r : Bound.Relation} {fields : Option FieldSet} {t : Option Ir.Relation}
    {P : FieldBinding → Option Ir.Relation → Ir.Relation → Prop}
    (hx : Leads w b fields t (lowerRelation r) P) (hr : AllReadable known bound r.relations) :
    Leads w b fields t (lowerRelation r) fun b' t' ir =>
      P b' t' ir ∧ Finally w b' (w.Columns r ir.schema.fields) := by
  refine hx.also fun s ir s' hopened hnamed hrun hfinal => ?_
  have hslots := lowerRelation_slots r (fun q hq => (hr q hq).1) hrun
  rw [hopened, hnamed] at hslots
  exact hslots.mono hfinal

omit [HashOrder] [Platform] in
theorem forall₂_meanings {α β : Type} {f : α → β → Prop} {as : List α} {bs : List β}
    (h : List.Forall₂ (fun D b => D b) (as.map f) bs) : List.Forall₂ f as bs := by
  rwa [List.forall₂_map_left_iff] at h

omit [HashOrder] [Platform] in
theorem optionRel_meanings {α β : Type} {f : α → β → Prop} {o : Option α} {o' : Option β}
    (h : Option.Rel (fun D b => D b) (o.map f) o') : Option.Rel f o o' := by
  cases o with
  | none =>
      cases h
      exact .none
  | some a =>
      cases h with
      | some h => exact .some h

omit [HashOrder] [Platform] in
theorem optionRel_forall₂_meanings {α β : Type} {f : α → β → Prop} {o : Option (List α)}
    {o' : Option (List β)}
    (h : Option.Rel (List.Forall₂ fun D b => D b) (o.map (List.map f)) o') :
    Option.Rel (List.Forall₂ f) o o' := by
  cases o with
  | none =>
      cases h
      exact .none
  | some as =>
      cases h with
      | some h => exact .some (forall₂_meanings h)

mutual

/-- **A relation is lowered to one that delivers what the bound relation returns.** -/
theorem lowerRelation_leads : ∀ (r : Bound.Relation) {fields : Option FieldSet},
    r.Checked names b → AllReadable known bound r.relations →
    Leads w b fields none (lowerRelation r) fun b' _ ir =>
      Finally w b' (∀ rows, Delivers w.env ir rows → Returns w r rows)
  | .adhoc values id f, _, _, _ => by
      rw [lowerRelation]
      refine Leads.liftBind fun schema _ => .pure fun _ _ rows hrows => ?_
      exact .adhoc (Ir.delivers_values hrows)
  | .select projectors source limit whereCond having orderList desc groupList aggregate f, _, hr,
      hread => by
      obtain ⟨hshape, hps, hsource, hwhere, hhaving, horder, hgroup⟩ := hr
      have hself := (hread _ (Bound.Relation.mem_relations _)).2
      unfold AllReadable at hread
      simp only [Bound.Relation.relations, List.forall_mem_cons, List.forall_mem_append] at hread
      obtain ⟨-, ⟨⟨⟨⟨hreadPs, hreadSource⟩, hreadWhere⟩, hreadHaving⟩, hreadOrder⟩, hreadGroup⟩ := hread
      rw [lowerRelation]
      refine ((lowerRelation_leads source hsource hreadSource).columns hreadSource).frameBind
        fun ir b₁ hir => ?_
      let m : SelectMeanings := {
        projectors := projectors.map (EntryOf (Denotes w))
        whereCond := whereCond.map (Denotes w)
        having := having.map (Denotes w)
        orderList := orderList.map (List.map (Denotes w))
        groupBy := groupList.map (List.map (EntryOf (Denotes w))) }
      have hstands : Select.Stands w b {
          projectors := projectorsOf projectors
          limit
          whereCond := exprOptionOf whereCond
          having := exprOptionOf having
          orderBy := orderByOf desc orderList
          groupBy := projectorsOptionOf groupList
          aggregate } m desc := {
        projectors := projectorsOf_stand projectors hps hreadPs
        whereCond := exprOptionOf_stands whereCond hwhere hreadWhere
        having := exprOptionOf_stands having hhaving hreadHaving
        orderBy := orderByOf_stands desc orderList horder hreadOrder
        groupBy := projectorsOptionOf_stand groupList hgroup hreadGroup
        grouped := fun hnone => by
          cases groupList with
          | some keys => cases hnone
          | none =>
              have hnoHaving := hshape.having rfl
              cases having with
              | none => rfl
              | some condition => cases hnoHaving
        withoutIn := fun h => by
          rw [projectorsOf_withoutIn]
          refine hself (h.imp_left fun hsome => ?_)
          cases groupList with
          | none => cases hsome
          | some keys => rfl }
      refine (lowerSelect_leads hstands ir).mono fun b' _ q hq hb hfinal rows hrows => ?_
      obtain ⟨given, condition, kept, hgiven, hcondition, hkept, keyEntries, keys, entries, cols,
        havingMeaning, orderBy, hkeyEntries, hkeys, hentries, hexpands, hhaving', horderBy,
        hselected⟩ := hq hfinal rows hrows
      exact .select (hir.1 (hb.trans hfinal) given hgiven) (hir.2 (hb.trans hfinal))
        (optionRel_meanings hcondition) hkept (optionRel_forall₂_meanings hkeyEntries) hkeys
        (forall₂_meanings hentries) hexpands (optionRel_meanings hhaving')
        (optionRel_forall₂_meanings horderBy) hselected
  | .aliased aliasName source f, _, hr, hread => by
      have hreadSource : AllReadable known bound source.relations := fun q hq =>
        hread q (List.mem_cons_of_mem _ hq)
      rw [lowerRelation]
      refine ((lowerRelation_leads source hr hreadSource).columns hreadSource).frameBind
        fun ir b₁ hir => ?_
      refine (lowerAlias_leads aliasName ir).mono fun b' _ q hq hb hfinal rows hrows => ?_
      obtain ⟨ids', haliases, hdelivers⟩ := hq
      obtain ⟨given, hgiven, hrenamed⟩ := hdelivers rows hrows
      exact .aliased (hir.1 (hb.trans hfinal) given hgiven) (hir.2 (hb.trans hfinal))
        (haliases.imp fun _ _ h => h.mono hfinal) hrenamed
  | .leftJoin left right leftKey rightKey f, _, hr, hread => by
      obtain ⟨hleft, hright, hleftKey, hrightKey⟩ := hr
      unfold AllReadable at hread
      simp only [Bound.Relation.relations, List.forall_mem_cons, List.forall_mem_append] at hread
      obtain ⟨-, ⟨⟨hreadLeft, hreadRight⟩, hreadLeftKey⟩, hreadRightKey⟩ := hread
      rw [lowerRelation]
      refine ((lowerRelation_leads left hleft hreadLeft).columns hreadLeft).frameBind
        fun l b₁ hl => ?_
      refine (lowerInput_leads (exprOf_stands leftKey hleftKey hreadLeftKey) l).frameBind
        fun l' b₂ hl' => ?_
      refine ((lowerRelation_leads right hright hreadRight).columns hreadRight).frameBind
        fun r b₃ hr => ?_
      refine (lowerInput_leads (exprOf_stands rightKey hrightKey hreadRightKey) r).frameBind
        fun r' b₄ hr' => ?_
      refine (joinInputs_leads ((exprOf leftKey).withoutIn false)
        ((exprOf rightKey).withoutIn false) (Denotes w leftKey) (Denotes w rightKey) hl'.1 hr'.1 hl'.2.1
        hr'.2.1).mono fun b' _ q hq hb₄ hb₃ hb₂ hb₁ hfinal rows hrows => ?_
      obtain ⟨ls, rs, lk, rk, lefts, rights, hls, hrs, hlk, hrk, hlefts, hrights, hpairs⟩ :=
        hq (hl'.2.2 (hb₂.trans hfinal)) (hr'.2.2 (hb₄.trans hfinal)) rows hrows
      exact .leftJoin (hl.1 (hb₁.trans hfinal) ls hls) (hr.1 (hb₃.trans hfinal) rs hrs)
        (hl.2 (hb₁.trans hfinal)) (hr.2 (hb₃.trans hfinal)) hlk hrk hlefts hrights hpairs
  | .unionAll left right f, _, hr, hread => by
      unfold AllReadable at hread
      simp only [Bound.Relation.relations, List.forall_mem_cons, List.forall_mem_append] at hread
      obtain ⟨-, hreadLeft, hreadRight⟩ := hread
      rw [lowerRelation]
      refine (lowerRelation_leads left hr.1 hreadLeft).frameBind fun l b₁ hl => ?_
      refine (lowerRelation_leads right hr.2 hreadRight).frameBind fun r b₂ hr => ?_
      refine lowerUnionAll_leads.mono fun b' _ q hq hb₂ hb₁ hfinal rows hrows => ?_
      obtain ⟨ls, rs, hls, hrs, hshuffle⟩ := hq rows hrows
      exact .unionAll (hl (hb₁.trans hfinal) ls hls) (hr (hb₂.trans hfinal) rs hrs) hshuffle
  | .unionAllSortedBy left right orderList desc f, _, hr, hread => by
      have hself := (hread _ (Bound.Relation.mem_relations _)).2
      unfold AllReadable at hread
      simp only [Bound.Relation.relations, List.forall_mem_cons, List.forall_mem_append] at hread
      obtain ⟨-, ⟨hreadLeft, hreadRight⟩, hreadOrder⟩ := hread
      rw [lowerRelation]
      refine (lowerRelation_leads left hr.1 hreadLeft).frameBind fun l b₁ hl => ?_
      refine (lowerRelation_leads right hr.2.1 hreadRight).frameBind fun r b₂ hr' => ?_
      have hin : allWithoutIn true (exprsOf orderList) = true := (exprsOf_withoutIn orderList).trans hself
      refine (lowerUnionAllSortedBy_leads (exprsOf_stand orderList hr.2.2 hreadOrder) hin desc).mono
        fun b' _ q hq hb₂ hb₁ hfinal rows hrows => ?_
      obtain ⟨ls, rs, evs, hls, hrs, hevs, hmerged⟩ := hq hfinal rows hrows
      exact .unionAllSortedBy (hl (hb₁.trans hfinal) ls hls) (hr' (hb₂.trans hfinal) rs hrs)
        (forall₂_meanings hevs) hmerged
  | .file path range timeFormat f, _, hr, _ => by
      obtain ⟨cell, rfl⟩ := hr
      rw [lowerRelation]
      refine (fieldsOf_leads cell).frameBind fun set _ hset => .pure fun _ _ _ rows hrows => ?_
      exact .file hset (Ir.delivers_file hrows).symm (.refl _ _)
  | .stream command f, _, hr, _ => by
      obtain ⟨cell, rfl⟩ := hr
      rw [lowerRelation]
      refine (fieldsOf_leads cell).frameBind fun set _ hset => .pure fun _ _ _ rows hrows => ?_
      exact .stream hset (Ir.delivers_stream hrows).symm (.refl _ _)
  | .namedRelationReference name f, _, _, _ => by
      rw [lowerRelation]
      refine (find_leads name).frameBind fun schema _ hschema => .pure fun _ _ _ rows hrows => ?_
      exact .reference hschema (Ir.delivers_reference hrows) (.refl _ _)
  | .materialize relation f, _, hr, hread => by
      rw [lowerRelation]
      refine (lowerRelation_leads relation hr fun q hq => hread q (List.mem_cons_of_mem _ hq)).frameBind
        fun ir b₁ hir => .pure fun b' hb hfinal rows hrows => ?_
      exact .materialize (hir (hb.trans hfinal) rows (Ir.delivers_materialize hrows))

/-- **An expression stands for what the bound expression denotes.** -/
theorem exprOf_stands : ∀ e : Bound.Expr, e.Checked names b → AllReadable known bound e.relations →
    (exprOf e).Stands w b (Denotes w e)
  | .identifier _ _, _, _ => .identifier
  | .value _ _, _, _ => .value
  | .inMatch e matched _ _, he, hread => by
      obtain ⟨hreadExpr, hreadMatched⟩ := List.forall_mem_append.mp hread
      refine ⟨Denotes w e, Returns w matched, exprOf_stands e he.1 hreadExpr, fun _ => ?_,
        fun _ _ hev hrows => .inMatch hev hrows⟩
      exact lowerRelation_leads matched he.2.1 hreadMatched
  | .fnCall f args _, he, hread =>
      ⟨args.map (Denotes w), exprsOf_stand args he.1 hread,
        fun _ hevs => .fnCall (forall₂_meanings hevs)⟩
  | .like e _ _, he, hread => ⟨_, exprOf_stands e he.1 hread, fun _ hev => .like hev⟩
  | .binary type left right _, he, hread => by
      obtain ⟨hreadLeft, hreadRight⟩ := List.forall_mem_append.mp hread
      refine ⟨_, _, exprOf_stands left he.1 hreadLeft, exprOf_stands right he.2.1 hreadRight,
        fun l r hl hr => ?_⟩
      rw [exprOf_valueType he.1]
      exact .binary hl hr
  | .unary _ e _, he, hread => ⟨_, exprOf_stands e he.1 hread, fun _ hev => .unary hev⟩

theorem exprsOf_stand : ∀ es : List Bound.Expr, Bound.CheckedExprs names b es →
    AllReadable known bound (Bound.relationsOfExprs es) →
    AllStand w b (exprsOf es) (es.map (Denotes w))
  | [], _, _ => rfl
  | e :: es, hes, hread => by
      obtain ⟨hreadExpr, hreadExprs⟩ := List.forall_mem_append.mp hread
      exact ⟨_, _, rfl, exprOf_stands e hes.1 hreadExpr, exprsOf_stand es hes.2 hreadExprs⟩

theorem exprOptionOf_stands : ∀ e : Option Bound.Expr, Bound.CheckedExprOption names b e →
    AllReadable known bound (Bound.relationsOfExprOption e) →
    Option.Rel (Expr.Stands w b) (exprOptionOf e) (e.map (Denotes w))
  | none, _, _ => .none
  | some e, he, hread => .some (exprOf_stands e he hread)

theorem orderByOf_stands (desc : Bool) : ∀ es : Option (List Bound.Expr),
    Bound.CheckedExprsOption names b es → AllReadable known bound (Bound.relationsOfExprsOption es) →
    Option.Rel (fun o Ds => AllStand w b o.orderList Ds ∧ o.desc = desc) (orderByOf desc es)
      (es.map (List.map (Denotes w)))
  | none, _, _ => .none
  | some es, hes, hread => .some ⟨exprsOf_stand es hes hread, rfl⟩

theorem projectorOf_stands : ∀ p : Bound.Projector, p.Checked names b →
    AllReadable known bound p.relations → (projectorOf p).Stands w b (EntryOf (Denotes w) p)
  | .star, _, _ => .star
  | .identifier _, _, _ => .identifier
  | .expr _ e, hp, hread => by
      obtain ⟨he, name, hname⟩ := hp
      refine ⟨?_, _, exprOf_stands e he hread, fun _ hev => .expr hev⟩
      rw [hname]
      exact Option.some_ne_none _

theorem projectorsOf_stand : ∀ ps : List Bound.Projector, Bound.CheckedProjectors names b ps →
    AllReadable known bound (Bound.relationsOfProjectors ps) →
    List.Forall₂ (Projector.Stands w b) (projectorsOf ps) (ps.map (EntryOf (Denotes w)))
  | [], _, _ => .nil
  | p :: ps, hps, hread => by
      obtain ⟨hreadProjector, hreadProjectors⟩ := List.forall_mem_append.mp hread
      exact .cons (projectorOf_stands p hps.1 hreadProjector)
        (projectorsOf_stand ps hps.2 hreadProjectors)

theorem projectorsOptionOf_stand : ∀ ps : Option (List Bound.Projector),
    Bound.CheckedProjectorsOption names b ps →
    AllReadable known bound (Bound.relationsOfProjectorsOption ps) →
    Option.Rel (List.Forall₂ (Projector.Stands w b)) (projectorsOptionOf ps)
      (ps.map (List.map (EntryOf (Denotes w))))
  | none, _, _ => .none
  | some ps, hps, hread => .some (projectorsOf_stand ps hps hread)

end

end Relations

/-! ### Programs -/

section Programs

variable [HashOrder] [Platform]

theorem lowerStatements_answers {statements : List Bound.Statement} {irs : List Ir.Statement}
    {names : List (String × RelationFieldSet)} {known : List RelationFieldSet} {bound : BindState}
    {s s' : LowerState} {w : World} {answers : List (List Row)}
    (hchecked : Bound.CheckedStatements s.binding names statements)
    (hbound : Bound.StatementsWellBound bound known statements)
    (hread : ∀ statement ∈ statements, ∀ r ∈ statement.relation.relations, Readable r)
    (hopened : s.openFields = w.openFields) (hnamed : s.schemaOf = w.schemaOf)
    (h : lowerStatements statements s = .ok (irs, s')) (hfinal : s'.binding.entries <+: w.binding.entries)
    (hanswers : Ir.Completes w.env irs answers) : Bound.Answers w statements answers := by
  induction statements generalizing names known irs s w answers with
  | nil =>
      cases h
      cases hanswers
      exact .nil
  | cons statement statements ih =>
      obtain ⟨first, s₁, hfirst, h⟩ := lowerer_bind_ok.mp h
      obtain ⟨rest, s₂, hrest, h⟩ := lowerer_bind_ok.mp h
      cases h
      rw [List.forall_mem_cons] at hread
      -- the relation of the first statement
      have hrelation : ∀ {r : Bound.Relation} {ir : Ir.Relation} {t : LowerState}
          {known' : List RelationFieldSet}, r.Checked names s.binding →
          Bound.AllWellBound known' bound r.relations → (∀ q ∈ r.relations, Readable q) →
          lowerRelation r s = .ok (ir, t) → s.binding.entries <+: t.binding.entries ∧
            t.openFields = w.openFields ∧ t.schemaOf = w.schemaOf ∧
            (t.binding.entries <+: w.binding.entries → w.Columns r ir.schema.fields ∧
              ∀ rows, Delivers w.env ir rows → Bound.Returns w r rows) := by
        intro r ir t known' hr hwell hreadable hrun
        have hs : Follows w s.binding s.currFieldSet none s :=
          ⟨List.prefix_refl _, hopened, hnamed, rfl, fun _ h => by cases h⟩
        have hall : AllReadable known' bound r.relations := fun q hq => ⟨hwell q hq, hreadable q hq⟩
        obtain ⟨hgrows, t', hs', -, hreturns, hcolumns⟩ :=
          ((lowerRelation_leads r hr hall).columns hall) s ir t hs hrun
        exact ⟨hgrows, hs'.opened, hs'.named, fun hb => ⟨hcolumns hb, hreturns hb⟩⟩
      cases statement with
      | query relation =>
          obtain ⟨r, t, hr, hpure⟩ := lowerer_bind_ok.mp hfirst
          cases hpure
          obtain ⟨hgrows, hopened', hnamed', hmeans⟩ :=
            hrelation hchecked.1 hbound.1 hread.1 hr
          obtain ⟨hlater, -, -⟩ := lowerStatements_slots hbound.2 hrest
          cases hanswers with
          | query hrows hanswers =>
              exact .query ((hmeans (hlater.trans hfinal)).2 _ hrows)
                (ih (hchecked.2.mono hgrows) hbound.2 hread.2 hopened' hnamed' hrest hfinal hanswers)
      | namedRelation name relation =>
          obtain ⟨r, t, hr, hfirst⟩ := lowerer_bind_ok.mp hfirst
          obtain ⟨u, t', hinsert, hpure⟩ := lowerer_bind_ok.mp hfirst
          cases hpure
          obtain ⟨hgrows, hopened', hnamed', hmeans⟩ :=
            hrelation hchecked.1 hbound.1 hread.1 hr
          have hdefined := insert_schemaOf hinsert
          obtain ⟨_, -, hpure⟩ := bind_eq_ok.mp hinsert
          cases hpure
          obtain ⟨hlater, -, -⟩ := lowerStatements_slots hbound.2 hrest
          cases hanswers with
          | @namedRelation _ _ _ rows _ _ hrows hanswers =>
              obtain ⟨hcolumns, hreturns⟩ := hmeans (hlater.trans hfinal)
              rw [hnamed'] at hdefined
              refine .namedRelation (hreturns _ hrows) hcolumns ?_
              exact ih (s := { t with namedRelations := t.namedRelations ++ [(name, r.schema)] })
                (w := w.define name r.schema rows) (hchecked.2.mono hgrows) hbound.2 hread.2 hopened'
                hdefined hrest hfinal hanswers

/-- **An accepted program is lowered to one that answers what it asks for.** Every run of the lowered
program in which nothing fails answers as the bound program may, where every `IN` can be read. -/
theorem lowered_answers {program : Ast.Program String} {statements : List Bound.Statement}
    {bound : BindState} {ir : Ir.Program} (hbind : bind program = .ok (statements, bound))
    (hlower : lowerProgram statements bound = .ok ir)
    (hread : ∀ statement ∈ statements, ∀ r ∈ statement.relation.relations, Readable r) {data : Ir.Data}
    {answers : List (List Row)} (h : ir.Completes data answers) :
    Bound.Answers ⟨{ data with named := fun _ _ => False }, ir.fieldBinding, bound.openFields,
      fun _ => none⟩ statements answers := by
  obtain ⟨⟨irs, s⟩, hlowered, hpure⟩ := bind_eq_ok.mp hlower
  cases hpure
  obtain ⟨-, hbound⟩ := bind_spec hbind
  exact lowerStatements_answers (bind_checked hbind) hbound hread rfl rfl hlowered
    (List.prefix_refl _) h

end Programs

/-- `SELECT anon FROM (7, 8) WHERE anon = 7`. -/
def onlySeven : Ast.Statement String :=
  .query (.select [.identifier "anon"]
    (.adhoc [⟨.integer, Bytes.ofString "7"⟩, ⟨.integer, Bytes.ofString "8"⟩]) none
    (some (.binary .equal (.identifier "anon") (.literal ⟨.integer, Bytes.ofString "7"⟩))) none none
    false none)

/-- The same with its fields resolved. -/
def onlySevenBound : Bound.Relation :=
  .select [.identifier 1] (.adhoc [.integer 7, .integer 8] 1 (.fixed (.withField 1))) none
    (some (.binary .equal (.identifier 1 ⟨.integer, .row, .withField 1⟩)
      (.value (.integer 7) ⟨.integer, .const, .emptySet⟩) ⟨.boolean, .row, .withField 1⟩)) none none
    false none false (.fixed (.withField 1))

/-- What it is lowered to. -/
def onlySevenLowered : Ir.Relation :=
  .projection (.filter (.values [.integer 7, .integer 8] 1 (.withField 1))
    (.fnCall .equal [.field 1 .integer, .value (.integer 7) .integer] .boolean) (.withField 1))
    [⟨1, .field 1 .integer⟩] (.withField 1)

theorem lowered_answers_onlySeven : @Bound.Answers .insertion .inert
    ⟨{ noLogs with named := fun _ _ => False }, ⟨[("anon", .integer)]⟩, [], fun _ => none⟩
    [.query onlySevenBound] [[.ofValues [1] [.integer 7]]] := by
  have hbind : @bind .insertion .inert [onlySeven] =
      .ok ([.query onlySevenBound], ⟨⟨[("anon", .integer)]⟩, [], []⟩) := rfl
  have hlower : @lowerProgram .insertion [.query onlySevenBound] ⟨⟨[("anon", .integer)]⟩, [], []⟩ =
      .ok ⟨[.query onlySevenLowered], ⟨[("anon", .integer)]⟩⟩ := rfl
  have hread : ∀ statement ∈ [Bound.Statement.query onlySevenBound],
      ∀ r ∈ statement.relation.relations, Readable r :=
    List.forall_mem_singleton.mpr (List.forall_mem_cons.mpr
      ⟨fun _ => rfl, List.forall_mem_singleton.mpr trivial⟩)
  let env : Ir.Env := { noLogs with named := fun _ _ => False }
  have hvalues : @Delivers .inert env
      (.values [.integer 7, .integer 8] 1 (.withField 1))
      [.ofValues [1] [.integer 7], .ofValues [1] [.integer 8]] :=
    @Delivers.node .inert _ _ [] _ .nil rfl
  have hfiltered : @Delivers .inert env (.filter (.values [.integer 7, .integer 8] 1 (.withField 1))
      (.fnCall .equal [.field 1 .integer, .value (.integer 7) .integer] .boolean) (.withField 1))
      [.ofValues [1] [.integer 7]] :=
    @Delivers.node .inert _ _ [_] _ (.cons hvalues .nil) rfl
  have hprojected : @Delivers .inert env onlySevenLowered [.ofValues [1] [.integer 7]] :=
    @Delivers.node .inert _ _ [_] _ (.cons hfiltered .nil) rfl
  exact @lowered_answers .insertion .inert [onlySeven] _ _ _ hbind hlower hread noLogs _
    (@Ir.Completes.query .inert _ _ _ _ _ hprojected (@Ir.Completes.nil .inert _))

end Lsql.Front.Lower
