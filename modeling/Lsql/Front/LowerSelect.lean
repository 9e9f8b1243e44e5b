import Lsql.Front.LowerMeaning

/-!
# Lsql.Front.LowerSelect

A `SELECT` is lowered to a relation that delivers what it asks for.

The parts of a `SELECT` are put on its source one after another. For each of them it is said what rows
it delivers, by the rows that the relation below it delivers. A `HAVING` and an `ORDER BY` read fields
that are not selected: a projected row is taken together with the row that it has been made from
(`Overlaid`), so that all fields are there until the last projection.
-/

namespace Lsql.Front.Lower

open Bound (Evaluator World ColumnMeaning Shows Expands Overlays Kept InOrder Units Selected visible
  orderKeys fieldValue foundIn)
open Ir (Row Delivers)

/-! ### Conditions -/

section Conditions

variable [Platform] {env : Ir.Env} {r q : Ir.Relation}

/-- A condition on rows, which has no aggregates. -/
def onRows (ev : Evaluator) (row : Row) : Except Fault Value := ev row []

/-- A relation delivers the rows of another one for which a condition is true, if there is one. -/
def Filters (env : Ir.Env) (D : Option (Evaluator → Prop)) (r q : Ir.Relation) : Prop :=
  ∀ rows, Delivers env q rows → ∃ given ev kept, Delivers env r given ∧
    Option.Rel (fun D ev => D ev) D ev ∧ (∀ e, ev = some e → Local r.schema.fieldSet e) ∧
    Kept (ev.map onRows) given kept ∧ Shows r.schema.fields kept rows

omit [Platform] in
theorem shows_flip {ids : List FieldId} {given rows : List Row} (h : Shows ids given rows) :
    List.Forall₂ (fun row' row : Row => row' ∈ rows ∧ ∀ id ∈ ids, row' id = row id) rows given :=
  (List.forall₂_and_left _ _).mpr ⟨fun _ h => h, List.Forall₂.flip h⟩

omit [Platform] in
/-- The rows that are kept of rows with more columns. -/
theorem keeps_below {given below rows : List Row} {ev : Evaluator}
    {condition : Row → Except Fault Value}
    (hshows : Shows r.schema.fields given below) (hlocal : Local r.schema.fieldSet ev)
    (hkeeps : Lsql.Keeps condition below rows)
    (hcondition : ∀ row ∈ below, condition row = ev row []) :
    ∃ kept, Kept (some (onRows ev)) given kept ∧ Shows r.schema.fields kept rows := by
  have hR : ∀ (row' row : Row) (v : Value),
      (row' ∈ below ∧ ∀ id ∈ r.schema.fields, row' id = row id) → condition row' = .ok v →
        onRows ev row = .ok v := fun row' row v h hv => by
    rw [← hv, hcondition row' h.1]
    exact hlocal row' row [] [] (fun id hid => (h.2 id hid).symm) .nil
  obtain ⟨kept, hkept, hrows⟩ := hkeeps.transfer (shows_flip hshows) hR
  exact ⟨kept, hkept, List.Forall₂.flip (hrows.imp fun _ _ h => h.2)⟩

variable {w : World} {b : FieldBinding} {fields : Option FieldSet}

/-- **A condition keeps the rows for which it is true.** -/
theorem lowerWhere_leads {condition : Expr} {D : Evaluator → Prop} (he : condition.Stands w b D) :
    Leads w b fields (some r) (lowerWhere condition) fun b' t' _ => ∃ q, t' = some q ∧
      q.schema = r.schema ∧ Finally w b' (Filters w.env (some D) r q) := by
  have hwithin : Within r.schema.fieldSet (some r) := by
    rintro _ ⟨⟩ id hid
    exact hid
  refine currRelation_leads.bind fun curr _ _ hcurr => ?_
  obtain ⟨rfl, rfl⟩ := hcurr
  refine scopedFieldSet_leads ?_
  split
  next e matched f =>
    obtain ⟨D', R, he, hmatched, hD⟩ := he
    refine (hmatched _).frameBind fun m b₁ hm => ?_
    refine (verify_leads _ _).frameBind fun _ _ _ => ?_
    refine (lowerRowExpr_leads he (fun h => by cases h) hwithin).bind fun key t' b₂ hkey => ?_
    obtain ⟨honto, hkey⟩ := hkey
    cases honto with
    | @some _ q hover =>
        refine (replaceRelation_leads _).mono fun b' _ _ ht' hb₂ _ hb₁ _ => ⟨_, ht', rfl, ?_⟩
        intro hfinal rows hrows
        obtain ⟨below, matches', hbelow, hmatches, hkeeps⟩ := Ir.delivers_semiJoin hrows
        obtain ⟨given, hgiven, hshows⟩ := hover.rows below (Pool.of_delivers hbelow)
        obtain ⟨ev, hev, hlocal, hvalue⟩ := hkey (hb₂.trans hfinal) below (Pool.of_delivers hbelow)
        have hlocal' := local_foundIn (matches'.map fun row => row f) hlocal
        obtain ⟨kept, hkept, hshows'⟩ := keeps_below hshows hlocal' hkeeps fun row hrow => by
          rw [foundIn, ← hvalue.on hrow, List.isEmpty_map]
        refine ⟨given, some _, kept, hgiven, .some (hD ev matches' hev (hm (hb₁.trans hfinal) _ hmatches)),
          fun _ h => ?_, hkept, hshows'⟩
        cases h
        exact hlocal'
  next =>
    refine (lowerRowExpr_leads he (fun h => by cases h) hwithin).bind fun key t' b₂ hkey => ?_
    obtain ⟨honto, hkey⟩ := hkey
    cases honto with
    | @some _ q hover =>
        refine (replaceRelation_leads _).mono fun b' _ _ ht' hb₂ _ => ⟨_, ht', rfl, ?_⟩
        intro hfinal rows hrows
        obtain ⟨below, hbelow, hkeeps⟩ := Ir.delivers_filter hrows
        obtain ⟨given, hgiven, hshows⟩ := hover.rows below (Pool.of_delivers hbelow)
        obtain ⟨ev, hev, hlocal, hvalue⟩ := hkey (hb₂.trans hfinal) below (Pool.of_delivers hbelow)
        obtain ⟨kept, hkept, hshows'⟩ := keeps_below hshows hlocal hkeeps fun row hrow =>
          hvalue.on hrow
        refine ⟨given, some ev, kept, hgiven, .some hev, fun _ h => ?_, hkept, hshows'⟩
        cases h
        exact hlocal

/-- A condition that may be missing. -/
theorem whenWhere_leads {α : Type} {part : Option α} {condition : α → Expr}
    {D : Option (Evaluator → Prop)}
    (he : Option.Rel (fun p D => (condition p).Stands w b D) part D) :
    Leads w b fields (some r) (whenPresent part fun p => lowerWhere (condition p)) fun b' t' _ =>
      ∃ q, t' = some q ∧ q.schema = r.schema ∧ Finally w b' (Filters w.env D r q) := by
  cases he with
  | none =>
      refine .pure fun b' => ⟨r, rfl, rfl, fun _ rows hrows => ?_⟩
      exact ⟨rows, none, rows, hrows, .none, fun _ h => (by cases h), rfl, .refl _ _⟩
  | some he => exact lowerWhere_leads he

end Conditions

/-! ### Projectors -/

section Projectors

variable [Platform] {w : World} {b b' : FieldBinding} {t t' : Option Ir.Relation}
  {fields : Option FieldSet} {r q : Ir.Relation}

/-- What a projector may mean, by what its expression may mean. -/
def Projector.Stands (w : World) (b : FieldBinding) :
    Projector → (Option ColumnMeaning → Prop) → Prop
  | .star, C => C none
  | .identifier id, C => C (some (id, fieldValue id))
  | .expr id e, C => b.entry id ≠ none ∧ ∃ D, e.Stands w b D ∧ ∀ ev, D ev → C (some (id, ev))

/-- There is no `IN` outside of the arguments of aggregates. -/
def Projector.withoutIn : Projector → Bool
  | .expr _ e => e.withoutIn false
  | _ => true

/-- A projector that hands a field on. -/
def IsField (p : Ir.Projector) : Prop := ∃ type, p.expr = .field p.aliasFieldId type

/-- A projector has the values of a column. -/
def MatchesColumn (free : Bool) (rows : List Row) (as : List Ir.Aggregate) (p : Ir.Projector)
    (c : ColumnMeaning) : Prop :=
  p.aliasFieldId = c.1 ∧ Matches free rows as p.expr c.2

omit [Platform] in
theorem fieldProjector_leads (id : FieldId) : Leads w b fields none (fieldProjector id)
    fun _ _ p => p.aliasFieldId = id ∧ IsField p :=
  (typeOf_leads id).frameBind fun type _ _ => .pure fun _ _ => ⟨rfl, type, rfl⟩

omit [Platform] in
theorem fieldProjectors_leads (ids : List FieldId) : Leads w b fields none (fieldProjectors ids)
    fun _ _ ps => aliases ps = ids ∧ ∀ p ∈ ps, IsField p := by
  induction ids with
  | nil => exact .pure fun _ => ⟨rfl, fun _ h => absurd h List.not_mem_nil⟩
  | cons id ids ih =>
      refine (fieldProjector_leads id).frameBind fun p _ hp => ih.frameBind fun ps _ hps => ?_
      exact .pure fun _ _ _ => ⟨congrArg₂ List.cons hp.1 hps.1,
        List.forall_mem_cons.mpr ⟨hp.2, hps.2⟩⟩

theorem matchesColumn_field {free : Bool} {rows : List Row} {as : List Ir.Aggregate}
    {p : Ir.Projector} (hp : IsField p) :
    MatchesColumn free rows as p (p.aliasFieldId, fieldValue p.aliasFieldId) := by
  obtain ⟨type, hexpr⟩ := hp
  refine ⟨rfl, fun group _ row _ _ => ?_⟩
  rw [hexpr]
  rfl

/-- What projectors are worth on the rows of the relation that is current behind them. -/
def Projects (w : World) (free : Bool) (t : Option Ir.Relation) (star : List FieldId)
    (Cs : List (Option ColumnMeaning → Prop)) (lowered : List Ir.Projector × List Ir.Aggregate) :
    Prop :=
  ∀ rows, Drawn w.env t rows → ∃ entries cols, List.Forall₂ (fun C c => C c) Cs entries ∧
    Expands star entries cols ∧ List.Forall₂ (MatchesColumn free rows lowered.2) lowered.1 cols

/-- A projector hands a field on, or its column is a field that there has been. -/
def KnownAlias (b : FieldBinding) (p : Ir.Projector) : Prop :=
  IsField p ∨ b.entry p.aliasFieldId ≠ none

omit [Platform] in
theorem expands_append {star : List FieldId} {entries entries' : List (Option ColumnMeaning)}
    {cols cols' : List ColumnMeaning} (h : Expands star entries cols)
    (h' : Expands star entries' cols') : Expands star (entries ++ entries') (cols ++ cols') := by
  induction h with
  | nil => exact h'
  | star hids _ ih =>
      rw [List.append_assoc]
      exact .star hids ih
  | column _ ih => exact .column ih

theorem MatchesColumn.weaken {free free' : Bool} {rows : List Row} {as as' : List Ir.Aggregate}
    {p : Ir.Projector} {c : ColumnMeaning} (h : MatchesColumn free rows as p c)
    (hfree : free' = true → free = true) (has : as ⊆ as') : MatchesColumn free' rows as' p c :=
  ⟨h.1, h.2.weaken hfree has⟩

variable [HashOrder]

theorem lowerProjectors_leads {set curr : FieldSet} {star : List FieldId}
    (hstar : set.fieldIds.Perm star) {ps : List Projector} {Cs : List (Option ColumnMeaning → Prop)}
    (hps : List.Forall₂ (Projector.Stands w b) ps Cs) (hwithin : Within curr (some r)) :
    Leads w b (some curr) (some r) (lowerProjectors set ps) fun b' t' lowered =>
      ∃ q, t' = some q ∧ Over w.env r q ∧ FreshAggregates b lowered.2 ∧
        (∀ p ∈ lowered.1, KnownAlias b p) ∧
        Finally w b' (Projects w (ps.all Projector.withoutIn) (some q) star Cs lowered) := by
  induction hps generalizing r with
  | nil =>
      refine .pure fun b' => ⟨r, rfl, .refl _ _, freshAggregates_nil,
        fun _ h => absurd h List.not_mem_nil, fun _ rows _ => ⟨[], [], .nil, .nil, .nil⟩⟩
  | @cons p C ps Cs hp _ ih =>
      rw [lowerProjectors]
      -- what the first projector is lowered to, and what the others are
      have hfirst : Leads w b (some curr) (some r) (lowerProjector set p) fun b' t' lowered =>
          ∃ q, t' = some q ∧ Over w.env r q ∧ FreshAggregates b lowered.2 ∧
            (∀ p ∈ lowered.1, KnownAlias b p) ∧
            Finally w b' (Projects w p.withoutIn (some q) star [C] lowered) := by
        cases p with
        | star =>
            refine (fieldProjectors_leads _).frameBind fun ps _ hps => .pure fun b' _ => ?_
            refine ⟨r, rfl, .refl _ _, freshAggregates_nil, fun p hp => .inl (hps.2 p hp),
              fun _ rows _ => ?_⟩
            refine ⟨[none], _, .cons hp .nil, .star (hps.1 ▸ hstar) .nil, ?_⟩
            rw [List.append_nil, List.map_map, List.forall₂_map_right_iff, List.forall₂_same]
            exact fun p hp => matchesColumn_field (hps.2 p hp)
        | identifier id =>
            refine (fieldProjector_leads id).frameBind fun p _ hp' => .pure fun b' _ => ?_
            obtain ⟨rfl, hfield⟩ := hp'
            refine ⟨r, rfl, .refl _ _, freshAggregates_nil,
              List.forall_mem_singleton.mpr (.inl hfield), fun _ rows _ => ?_⟩
            exact ⟨[some _], _, .cons hp .nil, .column .nil, .cons (matchesColumn_field hfield) .nil⟩
        | expr id e =>
            obtain ⟨hknown, D, he, hC⟩ := hp
            refine (lowerExpr_leads e he (fun h => by cases h) hwithin).bind fun lowered t' b₁ hl => ?_
            obtain ⟨scalar, aggregates⟩ := lowered
            obtain ⟨honto, -, hfresh, hfinally⟩ := hl
            cases honto with
            | @some _ q hover =>
                refine .pure fun b' hb => ⟨q, rfl, hover, hfresh,
                  List.forall_mem_singleton.mpr (.inr hknown), fun hfinal rows hrows => ?_⟩
                obtain ⟨ev, hev, -, hmatches⟩ := hfinally (hb.trans hfinal) rows hrows
                exact ⟨[some (id, ev)], _, .cons (hC ev hev) .nil, .column .nil,
                  .cons ⟨rfl, hmatches⟩ .nil⟩
      refine hfirst.bind fun first t' b₁ hfirst => ?_
      obtain ⟨q, rfl, hover, hfresh, hknown, hfinally⟩ := hfirst
      refine (ih (hwithin.onto (.some hover))).bind fun rest t'' b₂ hrest => .pure fun b' hb₂ hb₁ => ?_
      obtain ⟨q', rfl, hover', hfresh', hknown', hfinally'⟩ := hrest
      refine ⟨q', rfl, hover.trans hover', hfresh.append hfresh',
        List.forall_mem_append.mpr ⟨hknown, hknown'⟩, fun hfinal rows hrows => ?_⟩
      obtain ⟨entries, cols, hentries, hexpands, hmatch⟩ :=
        hfinally (hb₁.trans hfinal) rows (hover'.rows rows hrows)
      obtain ⟨entries', cols', hentries', hexpands', hmatch'⟩ :=
        hfinally' (hb₂.trans hfinal) rows hrows
      have hfree : (p :: ps).all Projector.withoutIn = true →
          p.withoutIn = true ∧ ps.all Projector.withoutIn = true := fun h => by
        rwa [List.all_cons, Bool.and_eq_true] at h
      refine ⟨entries ++ entries', cols ++ cols', List.rel_append hentries hentries',
        expands_append hexpands hexpands', List.rel_append ?_ ?_⟩
      · exact hmatch.imp fun _ _ h => h.weaken (fun h => (hfree h).1) (List.subset_append_left _ _)
      · exact hmatch'.imp fun _ _ h => h.weaken (fun h => (hfree h).2) (List.subset_append_right _ _)

omit [Platform] in
/-- The fields that are added behind projectors are handed on. -/
theorem addAllAsFieldScalars_leads (set : FieldSet) (ps : List Ir.Projector) :
    Leads w b fields none (addAllAsFieldScalars set ps) fun _ _ ps' => ∃ more, ps' = ps ++ more ∧
      (∀ p ∈ more, IsField p ∧ p.aliasFieldId ∉ aliases ps) ∧ ∀ id ∈ set, id ∈ aliases ps' := by
  refine Leads.liftBind fun schema hschema => ?_
  have hfields : schema.fields = aliases ps := Schema.appendAll_eq_ok.mp hschema
  refine (fieldProjectors_leads _).frameBind fun more _ hmore => .pure fun _ _ => ?_
  have hadded : ∀ id, id ∈ aliases more ↔ id ∈ set ∧ id ∉ aliases ps := fun id => by
    rw [hmore.1, List.mem_filter, FieldSet.mem_fieldIds]
    simp [Schema.contains, hfields]
  refine ⟨more, rfl, fun p hp => ⟨hmore.2 p hp, ?_⟩, fun id hid => ?_⟩
  · exact ((hadded _).mp (List.mem_map_of_mem hp)).2
  · rw [aliases, List.map_append, List.mem_append]
    by_cases hmem : id ∈ aliases ps
    · exact .inl hmem
    · exact .inr ((hadded id).mpr ⟨hid, hmem⟩)

omit [Platform] [HashOrder] in
theorem setProjection_leads (ps : List Ir.Projector) :
    Leads w b fields (some r) (setProjection ps) fun _ t' _ => ∃ schema,
      schema.fields = aliases ps ∧ t' = some (.projection r ps schema) := by
  refine Leads.liftBind fun schema hschema => ?_
  exact (replaceRelation_leads _).mono fun _ _ _ ht' =>
    ⟨schema, Schema.appendAll_eq_ok.mp hschema, ht'⟩

end Projectors

/-! ### What is selected -/

section Outputs

variable [Platform] {w : World} {b b' : FieldBinding} {t t' : Option Ir.Relation}
  {fields : Option FieldSet} {r q : Ir.Relation} {ps : List Ir.Projector}

/-- A projected row with the other fields of the row that it has been made from. -/
def Overlaid (ps : List Ir.Projector) (unit out : Row) : Prop :=
  (∀ p ∈ ps, p.expr.eval unit.record = .ok (out p.aliasFieldId)) ∧
    ∀ id, id ∉ aliases ps → out id = unit id

/-- A projection with more fields, which are handed on. -/
theorem overlaid_of_projectRow {more : List Ir.Projector} {unit row : Row}
    (hnodup : (aliases (ps ++ more)).Nodup)
    (hmore : ∀ p ∈ more, IsField p ∧ p.aliasFieldId ∉ aliases ps)
    (h : Ir.projectRow (ps ++ more) unit = .ok row) :
    ∃ out, Overlaid ps unit out ∧ ∀ id ∈ aliases (ps ++ more), out id = row id := by
  have hvalues := Ir.projectRow_values hnodup h
  refine ⟨fun id => if id ∈ aliases (ps ++ more) then row id else unit id, ⟨fun p hp => ?_,
    fun id hid => ?_⟩, fun id hid => if_pos hid⟩
  · have hmem : p ∈ ps ++ more := List.mem_append_left _ hp
    dsimp only
    rw [hvalues p hmem, if_pos (List.mem_map_of_mem hmem)]
  · dsimp only
    split
    next hmem =>
      obtain ⟨p, hp, rfl⟩ := List.mem_map.mp hmem
      rcases List.mem_append.mp hp with hps | hpm
      · exact absurd (List.mem_map_of_mem hps) hid
      · obtain ⟨⟨type, hexpr⟩, -⟩ := hmore p hpm
        have hvalue := hvalues p hp
        rw [hexpr] at hvalue
        exact (Except.ok.inj hvalue).symm
    · rfl

theorem overlaid_of_projected {more : List Ir.Projector} {units rows : List Row}
    (hnodup : (aliases (ps ++ more)).Nodup)
    (hmore : ∀ p ∈ more, IsField p ∧ p.aliasFieldId ∉ aliases ps)
    (h : List.Forall₂ (fun unit row => Ir.projectRow (ps ++ more) unit = .ok row) units rows) :
    ∃ outs, List.Forall₂ (Overlaid ps) units outs ∧ Shows (aliases (ps ++ more)) rows outs := by
  induction h with
  | nil => exact ⟨[], .nil, .nil⟩
  | cons hrow _ ih =>
      obtain ⟨out, hout, hshow⟩ := overlaid_of_projectRow hnodup hmore hrow
      obtain ⟨outs, houts, hshows⟩ := ih
      exact ⟨out :: outs, .cons hout houts, .cons hshow hshows⟩

/-- The keys of rows. -/
def keysOn (evs : List Evaluator) (row : Row) : Except Fault (List Value) :=
  evs.mapM fun ev => ev row []

/-- A relation delivers the rows of another one in the order of keys, if there are any. -/
def Sorts (env : Ir.Env) (Ds : Option (List (Evaluator → Prop))) (desc : Bool) (r q : Ir.Relation) :
    Prop :=
  ∀ rows, Delivers env q rows → ∃ given evs sorted, Delivers env r given ∧
    Option.Rel (List.Forall₂ fun D ev => D ev) Ds evs ∧
    (∀ es, evs = some es → ∀ ev ∈ es, Local r.schema.fieldSet ev) ∧
    InOrder desc (evs.map keysOn) given sorted ∧ Shows r.schema.fields sorted rows

omit [Platform] in
theorem keysOn_local {evs : List Evaluator} {set : FieldSet} (h : ∀ ev ∈ evs, Local set ev)
    {row row' : Row} (hrow : ∀ id ∈ set, row' id = row id) : keysOn evs row' = keysOn evs row :=
  mapM_congr_forall₂ (List.forall₂_same.mpr fun ev hev => h ev hev row row' [] [] hrow .nil)

theorem lowerOrderBy_leads {orderBy : OrderBy} {Ds : List (Evaluator → Prop)}
    (horder : AllStand w b orderBy.orderList Ds) :
    Leads w b fields (some r) (lowerOrderBy orderBy) fun b' t' _ => ∃ q, t' = some q ∧
      Finally w b' (Sorts w.env (some Ds) orderBy.desc r q) := by
  have hwithin : Within r.schema.fieldSet (some r) := by
    rintro _ ⟨⟩ id hid
    exact hid
  refine currRelation_leads.bind fun curr _ _ hcurr => ?_
  obtain ⟨rfl, rfl⟩ := hcurr
  refine scopedFieldSet_leads ?_
  refine (lowerRowExprs_leads horder (fun h => by cases h) hwithin).bind fun keys t' b₁ hkeys => ?_
  obtain ⟨honto, hkeys⟩ := hkeys
  cases honto with
  | @some _ q hover =>
      refine currRelation_leads.bind fun curr' _ _ hcurr' => ?_
      obtain ⟨rfl, rfl⟩ := hcurr'
      refine (replaceRelation_leads _).mono fun b' _ _ ht' _ hb₁ _ => ⟨_, ht', ?_⟩
      intro hfinal rows hrows
      obtain ⟨below, hbelow, hsorted⟩ := Ir.delivers_sort hrows
      obtain ⟨given, hgiven, hshows⟩ := hover.rows below (Pool.of_delivers hbelow)
      obtain ⟨evs, hevs, hlocal, hmatches⟩ := hkeys (hb₁.trans hfinal) below (Pool.of_delivers hbelow)
      have hkey : ∀ (row' row : Row) (k : List Value),
          (row' ∈ below ∧ ∀ id ∈ curr.schema.fields, row' id = row id) →
            Ir.keyOf keys row' = .ok k → keysOn evs row = .ok k := fun row' row k h hk => by
        rw [keysOn_local hlocal fun id hid => (h.2 id hid).symm, ← hk]
        exact (evalAll_matches hmatches (List.nil_subset _) (.inr h.1)
          fun _ ha => absurd ha List.not_mem_nil).symm
      obtain ⟨sorted, hsorted', hrows'⟩ := hsorted.transfer (shows_flip hshows) hkey
      refine ⟨given, some evs, sorted, hgiven, .some hevs, fun _ h => ?_, hsorted',
        List.Forall₂.flip (hrows'.imp fun _ _ h => h.2)⟩
      cases h
      exact hlocal

/-- An order that may be missing. -/
theorem whenOrderBy_leads {orderBy : Option OrderBy} {Ds : Option (List (Evaluator → Prop))}
    {desc : Bool}
    (horder : Option.Rel (fun o Ds => AllStand w b o.orderList Ds ∧ o.desc = desc) orderBy Ds) :
    Leads w b fields (some r) (whenPresent orderBy lowerOrderBy) fun b' t' _ =>
      ∃ q, t' = some q ∧ Finally w b' (Sorts w.env Ds desc r q) := by
  cases horder with
  | none =>
      refine .pure fun b' => ⟨r, rfl, fun _ rows hrows => ?_⟩
      exact ⟨rows, none, rows, hrows, .none, fun _ h => (by cases h), rfl, .refl _ _⟩
  | some horder =>
      obtain ⟨horder, rfl⟩ := horder
      exact lowerOrderBy_leads horder

/-- What is selected of rows: projected rows, those of them for which a condition is true, in the order
of keys. -/
def Outputs (ps : List Ir.Projector) (D : Option (Evaluator → Prop))
    (Ds : Option (List (Evaluator → Prop))) (desc : Bool) (units rows : List Row) : Prop :=
  ∃ outs chosen ordered having orderBy, List.Forall₂ (Overlaid ps) units outs ∧
    Option.Rel (fun D ev => D ev) D having ∧ Kept (having.map onRows) outs chosen ∧
    Option.Rel (List.Forall₂ fun D ev => D ev) Ds orderBy ∧
    InOrder desc (orderBy.map keysOn) chosen ordered ∧
    List.Forall₂ (fun out row => ∀ id ∈ aliases ps, row id = out id) ordered rows

omit [Platform] in
theorem optionRel_map {α β γ : Type} {P : β → γ → Prop} {f : α → β} {g : α → γ} {a : Option α}
    (h : ∀ x, a = some x → P (f x) (g x)) : Option.Rel P (a.map f) (a.map g) := by
  cases a with
  | none => exact .none
  | some x => exact .some (h x rfl)

variable [HashOrder]

/-- **A selection delivers what it is made from projects to.** The fields that a `HAVING` or an
`ORDER BY` needs besides are projected away again. -/
theorem lowerSelectOutput_leads {having : Option (Extracted Expr)} {orderBy : Option OrderBy}
    {D : Option (Evaluator → Prop)} {Ds : Option (List (Evaluator → Prop))} {desc : Bool}
    (hhaving : Option.Rel (fun x D => x.expr.Stands w b D) having D)
    (horder : Option.Rel (fun o Ds => AllStand w b o.orderList Ds ∧ o.desc = desc) orderBy Ds) :
    Leads w b fields (some r) (lowerSelectOutput ps having orderBy) fun b' t' _ => ∃ q,
      t' = some q ∧ Finally w b' (∀ rows, Delivers w.env q rows →
        ∃ units, Delivers w.env r units ∧ Outputs ps D Ds desc units rows) := by
  refine (fieldProjectors_leads _).frameBind fun final _ hfinals => ?_
  refine (addAllAsFieldScalars_leads _ _).frameBind fun projectors _ hmore => ?_
  obtain ⟨more, rfl, hmore, -⟩ := hmore
  refine (setProjection_leads _).bind fun _ _ _ hprojection => ?_
  obtain ⟨schema, hschema, rfl⟩ := hprojection
  refine (whenWhere_leads hhaving).bind fun _ _ b₁ hq₁ => ?_
  obtain ⟨q₁, rfl, hschema₁, hfilters⟩ := hq₁
  refine (whenOrderBy_leads horder).bind fun _ _ b₂ hq₂ => ?_
  obtain ⟨q₂, rfl, hsorts⟩ := hq₂
  -- the rows before the last projection
  have hbelow : ∀ b' : FieldBinding, b₂.entries <+: b'.entries → b₁.entries <+: b'.entries →
      Finally w b' (∀ rows, Delivers w.env q₂ rows →
        ∃ units, Delivers w.env r units ∧ Outputs ps D Ds desc units rows) := by
    intro b' hb₂ hb₁ hfinal rows hrows
    obtain ⟨given₁, evs, sorted, hgiven₁, hevs, hlocal, hsorted, hrows⟩ :=
      hsorts (hb₂.trans hfinal) rows hrows
    obtain ⟨given, ev, kept, hgiven, hev, hlocal', hkept, hshows⟩ :=
      hfilters (hb₁.trans hfinal) given₁ hgiven₁
    obtain ⟨units, hunits, hprojected⟩ := Ir.delivers_projection hgiven
    obtain ⟨outs, houts, hall⟩ := overlaid_of_projected (hschema ▸ schema.nodup) hmore hprojected
    rw [← hschema] at hall
    obtain ⟨chosen, hchosen, hkeptChosen⟩ := hkept.transfer (ev.map onRows)
      (optionRel_map fun e he row out v hrow hv => hv ▸ hlocal' e he row out [] [] hrow .nil) hall
    have hbetween : Shows schema.fields given₁ chosen :=
      hshows.symm.trans (fun _ h => h) hkeptChosen
    rw [hschema₁] at hlocal hrows
    obtain ⟨ordered, hordered, hsortedOrdered⟩ := hsorted.transfer (evs.map keysOn)
      (optionRel_map fun es hes row out k hrow hk => hk ▸ keysOn_local (hlocal es hes) hrow) hbetween
    refine ⟨units, hunits, outs, chosen, ordered, ev, evs, houts, hev, hchosen, hevs, hordered, ?_⟩
    have hids : ∀ id ∈ aliases ps, id ∈ schema.fields := fun id hid => by
      rw [hschema, aliases, List.map_append]
      exact List.mem_append_left _ hid
    exact (Shows.trans (fun _ h => h) (Shows.symm hsortedOrdered) hrows).mono hids
  split
  · refine (setProjection_leads final).mono fun b' t' _ ht' hb₂ hb₁ _ _ _ => ?_
    obtain ⟨schema', hschema', rfl⟩ := ht'
    refine ⟨_, rfl, fun hfinal rows hrows => ?_⟩
    obtain ⟨given, hgiven, hprojected⟩ := Ir.delivers_projection hrows
    obtain ⟨units, hunits, outs, chosen, ordered, ev, evs, houts, hev, hchosen, hevs, hordered,
      hout⟩ := hbelow b' hb₂ hb₁ hfinal given hgiven
    refine ⟨units, hunits, outs, chosen, ordered, ev, evs, houts, hev, hchosen, hevs, hordered, ?_⟩
    refine Shows.trans (fun _ h => h) hout (hprojected.imp fun row row' hrow id hid => ?_)
    rw [show aliases ps = aliases final from hfinals.1.symm] at hid
    obtain ⟨p, hp, rfl⟩ := List.mem_map.mp hid
    have hnodup : (aliases final).Nodup := hschema' ▸ schema'.nodup
    have hvalue := Ir.projectRow_values hnodup hrow p hp
    obtain ⟨type, hexpr⟩ := hfinals.2 p hp
    rw [hexpr] at hvalue
    exact (Except.ok.inj hvalue).symm
  · refine .pure fun b' hb₂ hb₁ _ _ _ => ⟨q₂, rfl, hbelow b' hb₂ hb₁⟩

end Outputs

/-! ### Units -/

section Units

variable [Platform] {units : List (Row × List Row)} {ps : List Ir.Projector} {cols : List ColumnMeaning}

omit [Platform] in
/-- What corresponds to the same elements. -/
theorem forall₂_join {α β γ : Type} {R : α → β → Prop} {S : α → γ → Prop} {T : β → γ → Prop}
    (hT : ∀ a b c, R a b → S a c → T b c) {as : List α} {bs : List β} {cs : List γ}
    (h : List.Forall₂ R as bs) (h' : List.Forall₂ S as cs) : List.Forall₂ T bs cs := by
  induction h generalizing cs with
  | nil =>
      cases h'
      exact .nil
  | cons hab _ ih =>
      cases h' with
      | cons hac hrest => exact .cons (hT _ _ _ hab hac) (ih hrest)

omit [Platform] in
/-- Rows together with the rows that aggregates are over. -/
theorem exists_pairs {α : Type} {units : List (α × List Row)} {P : α × List Row → Row → Prop}
    {outs : List Row} (h : List.Forall₂ P units outs) :
    ∃ pairs : List (Row × List Row), List.Forall₂ (fun u p => P u p.1 ∧ p.2 = u.2) units pairs ∧
      List.Forall₂ (fun out p => p.1 = out ∧ ∃ u, P u out ∧ p.2 = u.2) outs pairs := by
  induction h with
  | nil => exact ⟨[], .nil, .nil⟩
  | @cons u out units outs hP _ ih =>
      obtain ⟨pairs, hunits, houts⟩ := ih
      exact ⟨(out, u.2) :: pairs, .cons ⟨hP, rfl⟩ hunits, .cons ⟨rfl, u, hP, rfl⟩ houts⟩

/-- A projected row holds the columns. -/
theorem overlays_of_overlaid {fields : List FieldId} {unit : Row × List Row} {out : Row}
    (hcols : List.Forall₂ (fun p c => p.aliasFieldId = c.1 ∧
      p.expr.eval unit.1.record = c.2 unit.1 unit.2) ps cols)
    (haliases : cols.map Prod.fst = aliases ps) (h : Overlaid ps unit.1 out) :
    Overlays cols fields unit out := by
  refine ⟨fun c hc => ?_, fun id _ hid => h.2 id (haliases ▸ hid)⟩
  obtain ⟨p, hp, halias, hvalue⟩ := forall₂_mem_right hcols hc
  rw [← hvalue, ← halias]
  exact h.1 p hp

/-- What is selected of units. -/
theorem selected_of_outputs (fields : List FieldId) {D D' : Option (Evaluator → Prop)}
    {Ds : Option (List (Evaluator → Prop))} {desc : Bool} {rows : List Row}
    (hcols : ∀ u ∈ units, List.Forall₂ (fun p c => p.aliasFieldId = c.1 ∧
      p.expr.eval u.1.record = c.2 u.1 u.2) ps cols)
    (haliases : cols.map Prod.fst = aliases ps)
    (hhaving : Option.Rel (fun D' D => ∀ ev', D' ev' → ∃ ev, D ev ∧
      ∀ u ∈ units, ∀ out, Overlaid ps u.1 out → ev' out [] = ev out u.2) D' D)
    (h : Outputs ps D' Ds desc (units.map Prod.fst) rows) :
    ∃ having orderBy, Option.Rel (fun D ev => D ev) D having ∧
      Option.Rel (List.Forall₂ fun D ev => D ev) Ds orderBy ∧
      ∃ outs chosen ordered : List (Row × List Row),
        List.Forall₂ (fun unit out => Overlays cols fields unit out.1 ∧ out.2 = unit.2) units outs ∧
        Kept (having.map fun ev out => ev out.1 out.2) outs chosen ∧
        InOrder desc (orderBy.map orderKeys) chosen ordered ∧
        List.Forall₂ (fun out row => ∀ c ∈ cols, row c.1 = out.1 c.1) ordered rows := by
  obtain ⟨outs, chosen, ordered, having', orderBy, houts, hhaving', hchosen, hevs, hordered, hrows⟩ := h
  rw [List.forall₂_map_left_iff] at houts
  obtain ⟨pairs, hunits, hpairs⟩ :=
    exists_pairs ((List.forall₂_and_left _ _).mpr ⟨fun _ h => h, houts⟩)
  have hmeaning : ∃ having : Option Evaluator, Option.Rel (fun D ev => D ev) D having ∧
      Option.Rel (fun ev' ev => ∀ u ∈ units, ∀ out, Overlaid ps u.1 out → ev' out [] = ev out u.2)
        having' having := by
    cases hhaving with
    | none =>
        cases hhaving'
        exact ⟨none, .none, .none⟩
    | some hD =>
        cases hhaving' with
        | some hev' =>
            obtain ⟨ev, hev, hvalue⟩ := hD _ hev'
            exact ⟨some ev, .some hev, .some hvalue⟩
  obtain ⟨having, hhaving, hvalues⟩ := hmeaning
  refine ⟨having, orderBy, hhaving, hevs, pairs, ?_⟩
  obtain ⟨chosen', hchosen', hpairs'⟩ := hchosen.transfer
    (having.map fun ev (out : Row × List Row) => ev out.1 out.2) (by
      cases hvalues with
      | none => exact .none
      | @some ev' ev hvalue =>
          refine .some fun out p v hp hv => ?_
          obtain ⟨rfl, u, ⟨hu, hoverlaid⟩, hrows⟩ := hp
          show ev p.1 p.2 = .ok v
          rw [← hv, hrows]
          exact (hvalue u hu p.1 hoverlaid).symm) hpairs
  obtain ⟨ordered', hordered', hpairs''⟩ := hordered.transfer (orderBy.map orderKeys)
    (optionRel_map fun evs _ out p k hp hk => by
      rw [← hk, ← hp.1]
      rfl) hpairs'
  refine ⟨chosen', ordered', hunits.imp fun u p hp => ⟨overlays_of_overlaid (hcols u hp.1.1) haliases
    hp.1.2, hp.2⟩, hchosen', hordered', ?_⟩
  refine forall₂_join (fun out p row hp hrow c hc => ?_) hpairs'' hrows
  have hid : c.1 ∈ aliases ps := haliases ▸ List.mem_map_of_mem hc
  rw [hrow c.1 hid, hp.1]

end Units

/-! ### The whole -/

/-- What the parts of a `SELECT` may mean. -/
structure SelectMeanings where
  projectors : List (Option ColumnMeaning → Prop)
  whereCond : Option (Evaluator → Prop)
  having : Option (Evaluator → Prop)
  orderList : Option (List (Evaluator → Prop))
  groupBy : Option (List (Option ColumnMeaning → Prop))

section Selecting

variable [Platform] {w : World} {b : FieldBinding} {fields : Option FieldSet} {r : Ir.Relation}
  {select : Select} {m : SelectMeanings} {desc aggregate : Bool} {limit : Option Int}
  {ids : List FieldId} {kept kept' rows : List Row}

/-- The parts of a `SELECT` have meanings. Above an aggregation no `IN` can be read. -/
structure Select.Stands (w : World) (b : FieldBinding) (select : Select) (m : SelectMeanings)
    (desc : Bool) : Prop where
  projectors : List.Forall₂ (Projector.Stands w b) select.projectors m.projectors
  whereCond : Option.Rel (Expr.Stands w b) select.whereCond m.whereCond
  having : Option.Rel (Expr.Stands w b) select.having m.having
  orderBy : Option.Rel (fun o Ds => AllStand w b o.orderList Ds ∧ o.desc = desc) select.orderBy
    m.orderList
  groupBy : Option.Rel (List.Forall₂ (Projector.Stands w b)) select.groupBy m.groupBy
  grouped : select.groupBy = none → select.having = none
  withoutIn : select.groupBy.isSome = true ∨ select.aggregate = true →
    select.projectors.all Projector.withoutIn = true

/-- What a `SELECT` may make of the rows for which its `WHERE` is true. -/
def SelectsFrom (m : SelectMeanings) (ids : List FieldId) (aggregate desc : Bool)
    (limit : Option Int) (kept rows : List Row) : Prop :=
  ∃ keyEntries keys entries cols having orderBy,
    Option.Rel (List.Forall₂ fun C c => C c) m.groupBy keyEntries ∧
    Option.Rel (Expands ids) keyEntries keys ∧
    List.Forall₂ (fun C c => C c) m.projectors entries ∧ Expands (visible ids keys) entries cols ∧
    Option.Rel (fun D ev => D ev) m.having having ∧
    Option.Rel (List.Forall₂ fun D ev => D ev) m.orderList orderBy ∧
    Selected ids keys aggregate cols having orderBy desc limit kept rows

omit [Platform] in
theorem lowerAggregates_leads (select : Select) (as : List Ir.Aggregate) :
    Leads w b fields (some r) (lowerAggregates select as) fun _ t' _ => ∃ q, t' = some q ∧
      ((select.aggregate = true ∧ ∃ schema : Schema,
          schema.fields = as.map Ir.Aggregate.outputFieldId ∧ q = .aggregate r as schema) ∨
        (select.aggregate = false ∧ as = [] ∧ q = r)) := by
  unfold lowerAggregates
  split
  next h =>
    refine Leads.liftBind fun _ _ => Leads.liftBind fun _ _ => Leads.liftBind fun schema hschema => ?_
    exact (replaceRelation_leads _).mono fun _ _ _ ht' =>
      ⟨_, ht', .inl ⟨h, schema, Schema.appendAll_eq_ok.mp hschema, rfl⟩⟩
  next h =>
    refine Leads.lift fun _ _ hnone => ⟨r, rfl, .inr ⟨by simpa using h, ?_, rfl⟩⟩
    exact List.isEmpty_iff.mp (verify_eq_ok.mp hnone)

omit [Platform] in
theorem optionRel_imp {α β : Type} {R S : α → β → Prop} (hRS : ∀ a b, R a b → S a b) {o : Option α}
    {o' : Option β} (h : Option.Rel R o o') : Option.Rel S o o' := by
  cases h with
  | none => exact .none
  | some h => exact .some (hRS _ _ h)

omit [Platform] in
theorem optionRel_none {α β : Type} {R : α → β → Prop} {o : Option β} (h : Option.Rel R none o) :
    o = none := by
  cases h
  rfl

theorem matchesColumn_aliases {free : Bool} {as : List Ir.Aggregate} {ps : List Ir.Projector}
    {cols : List ColumnMeaning} (h : List.Forall₂ (MatchesColumn free rows as) ps cols) :
    cols.map Prod.fst = aliases ps := by
  rw [← List.forall₂_eq_eq_eq, List.forall₂_map_left_iff, List.forall₂_map_right_iff]
  exact List.Forall₂.flip (h.imp fun _ _ h => h.1.symm)

variable [HashOrder]

/-- The rows of the source, or all of them in one. -/
theorem lowerUngroupedSelect_leads (h : select.Stands w b m desc) (hgroup : select.groupBy = none)
    {sourceFields : FieldSet} (hsource : sourceFields.fieldIds.Perm r.schema.fields) :
    Leads w b fields (some r) (lowerUngroupedSelect select sourceFields) fun b' t' _ => ∃ q,
      t' = some q ∧ Finally w b' (∀ rows, Delivers w.env q rows → ∃ kept, Delivers w.env r kept ∧
        SelectsFrom m r.schema.fields select.aggregate desc none kept rows) := by
  have hwithin : Within r.schema.fieldSet (some r) := by
    rintro _ ⟨⟩ id hid
    exact hid
  have hnoGroup : m.groupBy = none := by
    have hrel := h.groupBy
    rw [hgroup] at hrel
    exact optionRel_none hrel
  have hnoHaving : m.having = none := by
    have hrel := h.having
    rw [h.grouped hgroup] at hrel
    exact optionRel_none hrel
  refine currRelation_leads.bind fun curr _ _ hcurr => ?_
  obtain ⟨rfl, rfl⟩ := hcurr
  refine scopedFieldSet_leads ?_
  refine (lowerProjectors_leads hsource h.projectors hwithin).bind fun lowered _ b₁ hlowered => ?_
  obtain ⟨ps, as⟩ := lowered
  obtain ⟨q₁, rfl, hover, -, -, hprojects⟩ := hlowered
  refine (lowerAggregates_leads select as).bind fun _ _ _ hq => ?_
  obtain ⟨q, rfl, hq⟩ := hq
  refine (lowerSelectOutput_leads .none h.orderBy).mono fun b' t' _ ht' _ hb₁ _ => ?_
  obtain ⟨q₂, rfl, houtput⟩ := ht'
  refine ⟨q₂, rfl, fun hfinal rows hrows => ?_⟩
  obtain ⟨unitRows, hunits, hout⟩ := houtput hfinal rows hrows
  -- the units, with the rows that they are made from
  have hunitsOf : ∃ given units entries cols, Delivers w.env q₁ given ∧ units.map Prod.fst = unitRows ∧
      Units curr.schema.fields given none select.aggregate units ∧
      List.Forall₂ (fun C c => C c) m.projectors entries ∧ Expands curr.schema.fields entries cols ∧
      cols.map Prod.fst = aliases ps ∧ ∀ u ∈ units, List.Forall₂ (fun p c => p.aliasFieldId = c.1 ∧
        p.expr.eval u.1.record = c.2 u.1 u.2) ps cols := by
    rcases hq with ⟨haggregate, schema, hschema, rfl⟩ | ⟨haggregate, rfl, rfl⟩
    · obtain ⟨given, vs, hgiven, hvs, rfl⟩ := Ir.delivers_aggregate hunits
      obtain ⟨entries, cols, hentries, hexpands, hmatch⟩ :=
        hprojects (hb₁.trans hfinal) given (Pool.of_delivers hgiven)
      refine ⟨given, [(_, given)], entries, cols, hgiven, rfl, haggregate ▸ .all, hentries, hexpands,
        matchesColumn_aliases hmatch, ?_⟩
      have hvalues := Ir.aggregatesOver_values (hschema ▸ schema.nodup) hvs
      refine List.forall_mem_singleton.mpr (hmatch.imp fun p c hpc => ⟨hpc.1, ?_⟩)
      exact hpc.2 given (List.Subset.refl _) _ (.inl (h.withoutIn (.inr haggregate))) hvalues
    · obtain ⟨entries, cols, hentries, hexpands, hmatch⟩ :=
        hprojects (hb₁.trans hfinal) unitRows (Pool.of_delivers hunits)
      refine ⟨unitRows, unitRows.map fun row => (row, []), entries, cols, hunits, ?_,
        haggregate ▸ .rows, hentries, hexpands, matchesColumn_aliases hmatch, fun u hu => ?_⟩
      · rw [List.map_map]
        exact List.map_id _
      · obtain ⟨row, hrow, rfl⟩ := List.mem_map.mp hu
        exact hmatch.imp fun p c hpc => ⟨hpc.1, hpc.2.on hrow⟩
  obtain ⟨given, units, entries, cols, hgiven, rfl, hunitsOf, hentries, hexpands, haliases, hcols⟩ :=
    hunitsOf
  obtain ⟨kept, hkept, hshows⟩ := hover.rows given (Pool.of_delivers hgiven)
  obtain ⟨having, orderBy, hhaving, horderBy, outs, chosen, ordered, houts, hchosen, hordered, hrows⟩ :=
    selected_of_outputs curr.schema.fields (D := none) hcols haliases .none hout
  refine ⟨kept, hkept, none, none, entries, cols, having, orderBy, hnoGroup ▸ .none, .none, hentries,
    hexpands, hnoHaving ▸ hhaving, horderBy, ?_⟩
  exact ⟨given, units, outs, chosen, ordered, hshows, hunitsOf, houts, hchosen, hordered, hrows⟩

/-- The keys of a `GROUP BY` are computed below the aggregation. -/
theorem prepareGroupKeys_leads {groupList : List Projector} {Cs : List (Option ColumnMeaning → Prop)}
    (hkeys : List.Forall₂ (Projector.Stands w b) groupList Cs) :
    Leads w b fields (some r) (prepareGroupKeys groupList) fun b' t' groupKeys => ∃ q, t' = some q ∧
      (∀ p ∈ groupKeys, IsField p) ∧ (∀ id ∈ aliases groupKeys, id ∈ q.schema.fields) ∧
      (∀ id ∈ r.schema.fields, id ∈ q.schema.fields) ∧
      Finally w b' (∀ rows, Delivers w.env q rows → ∃ kept entries keys read, Delivers w.env r kept ∧
        List.Forall₂ (fun C c => C c) Cs entries ∧ Expands r.schema.fields entries keys ∧
        keys.map Prod.fst = aliases groupKeys ∧ Shows r.schema.fields kept read ∧
        List.Forall₂ (fun row row' => Overlays keys r.schema.fields (row, []) row') read rows) := by
  have hwithin : Within r.schema.fieldSet (some r) := by
    rintro _ ⟨⟩ id hid
    exact hid
  refine currRelation_leads.bind fun curr _ _ hcurr => ?_
  obtain ⟨rfl, rfl⟩ := hcurr
  refine scopedFieldSet_leads ?_
  refine (lowerProjectors_leads (FieldSet.fieldIds_perm _) hkeys hwithin).bind
    fun lowered _ b₁ hlowered => ?_
  obtain ⟨ps, as⟩ := lowered
  obtain ⟨q, rfl, hover, -, -, hprojects⟩ := hlowered
  refine (verify_leads _ _).frameBind fun _ _ hnone => ?_
  cases List.isEmpty_iff.mp hnone
  refine (fieldProjectors_leads _).frameBind fun groupKeys _ hgroupKeys => ?_
  refine currRelation_leads.bind fun curr' _ _ hcurr' => ?_
  obtain ⟨rfl, rfl⟩ := hcurr'
  refine (addAllAsFieldScalars_leads _ _).frameBind fun projectors _ hmore => ?_
  obtain ⟨more, rfl, hmore, hall⟩ := hmore
  refine (setProjection_leads _).bind fun _ _ _ hprojection => ?_
  obtain ⟨schema, hschema, rfl⟩ := hprojection
  have hids : ∀ id ∈ aliases ps, id ∈ schema.fields := fun id hid => by
    rw [hschema, aliases, List.map_append]
    exact List.mem_append_left _ hid
  refine .pure fun b' _ _ _ _ _ hb₁ _ => ⟨_, rfl, hgroupKeys.2, fun id hid => ?_, fun id hid => ?_,
    fun hfinal rows hrows => ?_⟩
  · rw [hgroupKeys.1] at hid
    exact hids id hid
  · exact hschema ▸ hall id (hover.fields id hid)
  · obtain ⟨read, hread, hprojected⟩ := Ir.delivers_projection hrows
    obtain ⟨kept, hkept, hshows⟩ := hover.rows read (Pool.of_delivers hread)
    obtain ⟨entries, cols, hentries, hexpands, hmatch⟩ :=
      hprojects (hb₁.trans hfinal) read (Pool.of_delivers hread)
    have haliases := matchesColumn_aliases hmatch
    refine ⟨kept, entries, cols, read, hkept, hentries, hexpands, haliases.trans hgroupKeys.1.symm,
      hshows, ?_⟩
    have hnodup : (aliases (ps ++ more)).Nodup := hschema ▸ schema.nodup
    have hmem : ∀ row ∈ read, row ∈ read := fun _ h => h
    refine ((List.forall₂_and_left _ _).mpr ⟨hmem, hprojected⟩).imp fun row row' hrow => ?_
    have hvalues := Ir.projectRow_values hnodup hrow.2
    refine ⟨fun c hc => ?_, fun id hid hkey => ?_⟩
    · obtain ⟨p, hp, halias, hvalue⟩ := forall₂_mem_right hmatch hc
      rw [← hvalue.on hrow.1, ← halias]
      exact hvalues p (List.mem_append_left _ hp)
    · obtain ⟨p, hp, rfl⟩ := List.mem_map.mp (hall id (hover.fields id hid))
      rcases List.mem_append.mp hp with hps | hpm
      · exact absurd (haliases ▸ List.mem_map_of_mem hps) hkey
      · obtain ⟨⟨type, hexpr⟩, -⟩ := hmore p hpm
        have hvalue := hvalues p hp
        rw [hexpr] at hvalue
        exact (Except.ok.inj hvalue).symm

omit [HashOrder] in
/-- What a field projector hands on. -/
theorem keyOf_fields {groupKeys : List Ir.Projector} (hfields : ∀ p ∈ groupKeys, IsField p) (row : Row) :
    Ir.keyOf (groupKeys.map Ir.Projector.expr) row = .ok ((aliases groupKeys).map row) := by
  refine Ir.Scalar.evalAll_ok.mpr ?_
  rw [aliases, List.map_map, List.forall₂_map_left_iff, List.forall₂_map_right_iff, List.forall₂_same]
  intro p hp
  obtain ⟨type, hexpr⟩ := hfields p hp
  rw [hexpr]
  rfl

omit [Platform] [HashOrder] in
theorem overlays_shown {keys : List ColumnMeaning} {unit : Row × List Row} {row row' : Row}
    (h : Overlays keys ids unit row) (hkeys : ∀ id ∈ keys.map Prod.fst, row' id = row id)
    (hids : ∀ id ∈ ids, row' id = row id) : Overlays keys ids unit row' :=
  ⟨fun c hc => (h.1 c hc).trans (congrArg Except.ok (hkeys _ (List.mem_map_of_mem hc)).symm),
    fun id hid hkey => (hids id hid).trans (h.2 id hid hkey)⟩

omit [HashOrder] in
/-- The rows of groups are units. -/
theorem units_of_groups (aggregate : Bool) {groupKeys : List Ir.Projector} {as : List Ir.Aggregate}
    {keys : List ColumnMeaning} {keyed : List (Row × List Value)} {gs : List (List Value × List Row)}
    {read given unitRows : List Row} (haliases : keys.map Prod.fst = aliases groupKeys)
    (hfields : ∀ p ∈ groupKeys, IsField p)
    (hnodup : (as.map Ir.Aggregate.outputFieldId ++ aliases groupKeys).Nodup)
    (hread : List.Forall₂ (fun row row' => Overlays keys ids (row, []) row') read given)
    (hkeyed : Keyed (Ir.keyOf (groupKeys.map Ir.Projector.expr)) given keyed)
    (hgs : gs.Perm (Ir.groupRows [] keyed))
    (hrows : List.Forall₂ (fun g row => Ir.groupRow as groupKeys g = .ok row) gs unitRows) :
    ∃ units, units.map Prod.fst = unitRows ∧ Units ids read (some keys) aggregate units ∧
      ∀ u ∈ units, u.2 ⊆ given ∧ ∀ a ∈ as, a.over u.2 = .ok (u.1 a.outputFieldId) := by
  have hkeyed' : keyed = given.map fun row => (row, (aliases groupKeys).map row) := by
    obtain ⟨rfl, hkeys⟩ := hkeyed
    rw [List.map_map]
    refine (List.map_id keyed).symm.trans (List.map_congr_left fun p hp => ?_)
    have hkey := (keyOf_fields hfields p.1).symm.trans (hkeys p hp)
    exact Prod.ext rfl (Except.ok.inj hkey).symm
  rw [hkeyed'] at hgs
  have hgrouping := Ir.isGrouping_groupRows (fun row => (aliases groupKeys).map row) hgs
  have hgroup : ∀ g ∈ gs, g.1.length = groupKeys.length ∧ g.2 ⊆ given := fun g hg => by
    obtain ⟨row, rest, -, hkey, -⟩ := hgrouping.first g hg
    refine ⟨by rw [← hkey, List.length_map, List.length_map], fun row hrow => ?_⟩
    exact hgrouping.shuffle.perm.mem_iff.mpr (List.mem_flatten_of_mem (List.mem_map_of_mem hg) hrow)
  obtain ⟨units, hunits, hunitRows⟩ := exists_pairs ((List.forall₂_and_left _ _).mpr ⟨hgroup, hrows⟩)
  have hvalues : ∀ (g : List Value × List Row) (u : Row × List Row),
      ((g.1.length = groupKeys.length ∧ g.2 ⊆ given) ∧
      Ir.groupRow as groupKeys g = .ok u.1) ∧ u.2 = g.2 →
      (∀ a ∈ as, a.over g.2 = .ok (u.1 a.outputFieldId)) ∧ (aliases groupKeys).map u.1 = g.1 :=
    fun g u hu => Ir.groupRow_values hnodup hu.1.1.1 hu.1.2
  refine ⟨units, ?_, .groups hread (haliases ▸ hgrouping) (hunits.imp fun g u hu => ?_), fun u hu => ?_⟩
  · rw [← List.forall₂_eq_eq_eq, List.forall₂_map_left_iff]
    exact List.Forall₂.flip (hunitRows.imp fun _ _ h => h.1)
  · exact ⟨haliases ▸ (hvalues g u hu).2, hu.2⟩
  · obtain ⟨g, hg, hgu⟩ := forall₂_mem_right hunits hu
    rw [hgu.2]
    exact ⟨hgu.1.1.2, (hvalues g u hgu).1⟩

/-- The condition of a `HAVING` without its aggregates. -/
theorem extractHaving_leads {curr : FieldSet} {having : Option Expr} {D : Option (Evaluator → Prop)}
    (h : Option.Rel (Expr.Stands w b) having D) (hwithin : Within curr (some r)) :
    Leads w b (some curr) (some r) (extractHaving having) fun b' t' x => ∃ q D', t' = some q ∧
      Over w.env r q ∧ FreshAggregates b ((x.map Extracted.aggregates).getD []) ∧
      Option.Rel (fun x D => x.expr.Stands w b D) x D' ∧
      Option.Rel (fun D' D => ∀ ev, D' ev →
        Extracts w b' (some q) ((x.map Extracted.aggregates).getD []) D ev) D' D := by
  cases h with
  | none => exact .pure fun b' => ⟨r, none, rfl, .refl _ _, freshAggregates_nil, .none, .none⟩
  | some he =>
      refine (extractAggregates_leads _ he (fun h => by cases h) hwithin).bind fun x t' b₁ hx => ?_
      obtain ⟨honto, -, hfresh, hstands⟩ := hx
      cases honto with
      | @some _ q hover =>
          refine .pure fun b' hb => ⟨q, _, rfl, hover, hfresh, .some hstands, .some fun ev hev => ?_⟩
          exact hev.later hb (onto_refl _ _) (List.Subset.refl _)

omit [HashOrder] in
/-- A new field is not projected to. -/
theorem overlaid_fresh {ps : List Ir.Projector} (hknown : ∀ p ∈ ps, KnownAlias b p) {unit out : Row}
    (h : Overlaid ps unit out) {id : FieldId} (hid : b.entry id = none) : out id = unit id := by
  by_cases hmem : id ∈ aliases ps
  · obtain ⟨p, hp, rfl⟩ := List.mem_map.mp hmem
    rcases hknown p hp with ⟨type, hexpr⟩ | hentry
    · have hvalue := h.1 p hp
      rw [hexpr] at hvalue
      exact (Except.ok.inj hvalue).symm
    · exact absurd hid hentry
  · exact h.2 id hmem

/-- A row for each group. -/
theorem lowerGroupedSelect_leads (h : select.Stands w b m desc) {groupBy : List Projector}
    (hgroup : select.groupBy = some groupBy) :
    Leads w b fields (some r) (lowerGroupedSelect select groupBy) fun b' t' _ => ∃ q,
      t' = some q ∧ Finally w b' (∀ rows, Delivers w.env q rows → ∃ kept, Delivers w.env r kept ∧
        SelectsFrom m r.schema.fields select.aggregate desc none kept rows) := by
  obtain ⟨Cs, hCs, hstands⟩ : ∃ Cs, m.groupBy = some Cs ∧
      List.Forall₂ (Projector.Stands w b) groupBy Cs := by
    have hrel := h.groupBy
    rw [hgroup] at hrel
    generalize m.groupBy = o at hrel
    cases hrel with
    | some hrel => exact ⟨_, rfl, hrel⟩
  refine (prepareGroupKeys_leads hstands).bind fun groupKeys _ b₁ hprepared => ?_
  obtain ⟨q₀, rfl, hfields, hkeyIds, hids, hprepares⟩ := hprepared
  refine Leads.liftBind fun groupSchema hgroupSchema => ?_
  have hkeyFields : groupSchema.fields = aliases groupKeys := Schema.appendAll_eq_ok.mp hgroupSchema
  refine currRelation_leads.bind fun curr _ _ hcurr => ?_
  obtain ⟨rfl, rfl⟩ := hcurr
  refine scopedFieldSet_leads ?_
  have hwithin : Within curr.schema.fieldSet (some curr) := by
    rintro _ ⟨⟩ id hid
    exact hid
  have hstar : groupSchema.fieldSet.fieldIds.Perm (aliases groupKeys) :=
    hkeyFields ▸ FieldSet.fieldIds_perm groupSchema.fieldSet
  refine (lowerProjectors_leads hstar h.projectors hwithin).bind fun lowered _ b₂ hlowered => ?_
  obtain ⟨ps, as⟩ := lowered
  obtain ⟨q₁, rfl, hover, hfresh, hknown, hprojects⟩ := hlowered
  refine (extractHaving_leads h.having (hwithin.onto (.some hover))).bind fun x _ b₃ hx => ?_
  obtain ⟨q₂, D', rfl, hover', hfresh', hhaving, hextracts⟩ := hx
  generalize (x.map Extracted.aggregates).getD [] = as' at hfresh' hextracts
  refine Leads.liftBind fun own hown => Leads.liftBind fun schema hschema => ?_
  have hnodup : ((as ++ as').map Ir.Aggregate.outputFieldId ++ aliases groupKeys).Nodup := by
    have hfields := schema.nodup
    rw [Schema.appendAll_eq_ok.mp hschema, Schema.appendAll_eq_ok.mp hown, hkeyFields] at hfields
    exact hfields
  rw [← bind_assoc]
  refine (replaceRelation_leads _).bind fun _ _ _ ht => ?_
  obtain rfl := ht
  refine (lowerSelectOutput_leads hhaving h.orderBy).mono fun b' t' _ ht' _ hb₃ hb₂ _ hb₁ => ?_
  obtain ⟨q₃, rfl, houtput⟩ := ht'
  refine ⟨q₃, rfl, fun hfinal rows hrows => ?_⟩
  obtain ⟨unitRows, hunitRows, hout⟩ := houtput hfinal rows hrows
  obtain ⟨given, keyed, gs, hgiven, hkeyed, hgs, hgroups⟩ := Ir.delivers_group hunitRows
  have hpool := hover'.rows given (Pool.of_delivers hgiven)
  obtain ⟨given₀, hgiven₀, hshown⟩ := hover.rows given hpool
  obtain ⟨kept, keyEntries, keys, read, hkept, hkeyEntries, hkeys, haliases, hread, hextended⟩ :=
    hprepares (hb₁.trans hfinal) given₀ hgiven₀
  have hextended' : List.Forall₂ (fun row row' => Overlays keys r.schema.fields (row, []) row') read
      given := by
    refine forall₂_join (fun row₀ row row' hrow hshow => ?_) (List.Forall₂.flip hextended) hshown
    refine overlays_shown hrow (fun id hid => ?_) fun id hid => hshow id (hids id hid)
    rw [haliases] at hid
    exact hshow id (hkeyIds id hid)
  obtain ⟨entries, cols, hentries, hexpands, hmatch⟩ := hprojects (hb₂.trans hfinal) given hpool
  obtain ⟨units, rfl, hunits, hvalues⟩ := units_of_groups select.aggregate haliases hfields
    hnodup hextended' hkeyed hgs hgroups
  have hin := h.withoutIn (.inl (by rw [hgroup]; rfl))
  have hcols : ∀ u ∈ units, List.Forall₂ (fun p c => p.aliasFieldId = c.1 ∧
      p.expr.eval u.1.record = c.2 u.1 u.2) ps cols := fun u hu => by
    obtain ⟨hsub, has⟩ := hvalues u hu
    exact hmatch.imp fun p c hpc => ⟨hpc.1, hpc.2 u.2 hsub u.1 (.inl hin)
      fun a ha => has a (List.mem_append_left _ ha)⟩
  have hmeaning : Option.Rel (fun D' D => ∀ ev', D' ev' → ∃ ev, D ev ∧
      ∀ u ∈ units, ∀ out, Overlaid ps u.1 out → ev' out [] = ev out u.2) D' m.having := by
    refine optionRel_imp (fun D' D hD ev' hev' => ?_) hextracts
    obtain ⟨ev, hev, hvalue⟩ := hD ev' hev' (hb₃.trans hfinal) given (Pool.of_delivers hgiven)
    refine ⟨ev, hev, fun u hu out hout => ?_⟩
    obtain ⟨hsub, has⟩ := hvalues u hu
    refine hvalue u.2 hsub out fun a ha => ?_
    rw [overlaid_fresh hknown hout (hfresh' a ha)]
    exact has a (List.mem_append_right _ ha)
  have hvisible : visible r.schema.fields (some keys) = aliases groupKeys := haliases
  obtain ⟨having, orderBy, hhaving', horderBy, outs, chosen, ordered, houts, hchosen, hordered,
    hrows'⟩ := selected_of_outputs (keys.map Prod.fst) hcols (matchesColumn_aliases hmatch)
      hmeaning hout
  refine ⟨kept, hkept, some keyEntries, some keys, entries, cols, having, orderBy,
    hCs ▸ .some hkeyEntries, .some hkeys, hentries, hvisible ▸ hexpands, hhaving', horderBy, ?_⟩
  exact ⟨read, units, outs, chosen, ordered, hread, hunits, houts, hchosen, hordered, hrows'⟩

omit [Platform] [HashOrder] in
theorem SelectsFrom.shown (h : SelectsFrom m ids aggregate desc limit kept' rows)
    (hshows : Shows ids kept kept') : SelectsFrom m ids aggregate desc limit kept rows := by
  obtain ⟨keyEntries, keys, entries, cols, having, orderBy, hkeyEntries, hkeys, hentries, hexpands,
    hhaving, horderBy, read, units, outs, chosen, ordered, hread, hrest⟩ := h
  exact ⟨keyEntries, keys, entries, cols, having, orderBy, hkeyEntries, hkeys, hentries, hexpands,
    hhaving, horderBy, read, units, outs, chosen, ordered, hshows.trans (fun _ h => h) hread, hrest⟩

omit [Platform] [HashOrder] in
theorem SelectsFrom.limited (h : SelectsFrom m ids aggregate desc none kept rows) (n : Int) :
    SelectsFrom m ids aggregate desc (some n) kept (rows.take n.toNat) := by
  obtain ⟨keyEntries, keys, entries, cols, having, orderBy, hkeyEntries, hkeys, hentries, hexpands,
    hhaving, horderBy, read, units, outs, chosen, ordered, hread, hunits, houts, hchosen, hordered,
    hrows⟩ := h
  exact ⟨keyEntries, keys, entries, cols, having, orderBy, hkeyEntries, hkeys, hentries, hexpands,
    hhaving, horderBy, read, units, outs, chosen, ordered, hread, hunits, houts, hchosen, hordered,
    List.forall₂_take n.toNat hrows⟩

omit [Platform] [HashOrder] in
theorem whenLimit_leads (limit : Option Int) :
    Leads w b fields (some r) (whenPresent limit lowerLimit) fun _ t' _ => ∃ q, t' = some q ∧
      ((limit = none ∧ q = r) ∨ ∃ n schema, limit = some n ∧ q = .limit r n schema) := by
  cases limit with
  | none => exact .pure fun _ => ⟨r, rfl, .inl ⟨rfl, rfl⟩⟩
  | some n =>
      refine currRelation_leads.bind fun curr _ _ hcurr => ?_
      obtain ⟨rfl, rfl⟩ := hcurr
      exact (replaceRelation_leads _).mono fun _ _ _ ht' _ => ⟨_, ht', .inr ⟨n, _, rfl, rfl⟩⟩

theorem lowerSelected_leads (h : select.Stands w b m desc) {sourceFields : FieldSet}
    (hsource : sourceFields.fieldIds.Perm r.schema.fields) :
    Leads w b fields (some r) (lowerSelected select sourceFields) fun b' t' _ => ∃ q,
      t' = some q ∧ Finally w b' (∀ rows, Delivers w.env q rows → ∃ kept, Delivers w.env r kept ∧
        SelectsFrom m r.schema.fields select.aggregate desc none kept rows) := by
  unfold lowerSelected
  split
  next groupBy hgroup => exact lowerGroupedSelect_leads h hgroup
  next hgroup => exact lowerUngroupedSelect_leads h hgroup hsource

/-- **A `SELECT` delivers what it selects of the rows for which its condition is true.** -/
theorem lowerSelect_leads (h : select.Stands w b m desc) (source : Ir.Relation) :
    Leads w b fields none (lowerSelect source select) fun b' _ q => Finally w b' (∀ rows,
      Delivers w.env q rows → ∃ given condition kept, Delivers w.env source given ∧
        Option.Rel (fun D ev => D ev) m.whereCond condition ∧
        Kept (condition.map onRows) given kept ∧
        SelectsFrom m source.schema.fields select.aggregate desc select.limit kept rows) := by
  refine scopedRelation_leads ?_
  refine currRelation_leads.bind fun curr _ _ hcurr => ?_
  obtain ⟨rfl, rfl⟩ := hcurr
  refine (whenWhere_leads h.whereCond).bind fun _ _ b₁ hq₁ => ?_
  obtain ⟨q₁, rfl, hschema, hfilters⟩ := hq₁
  have hsource : curr.schema.fieldSet.fieldIds.Perm q₁.schema.fields :=
    hschema ▸ FieldSet.fieldIds_perm curr.schema.fieldSet
  refine (lowerSelected_leads h hsource).bind fun _ _ b₂ hq₂ => ?_
  obtain ⟨q₂, rfl, hselects⟩ := hq₂
  refine (whenLimit_leads select.limit).bind fun _ _ _ hq₃ => ?_
  obtain ⟨q₃, rfl, hlimit⟩ := hq₃
  refine pullRelation_leads.mono fun b' _ q hq _ hb₂ hb₁ _ hfinal rows hrows => ?_
  subst hq
  -- the rows before the limit
  have hbelow : ∀ rows, Delivers w.env q₂ rows → ∃ given condition kept, Delivers w.env curr given ∧
      Option.Rel (fun D ev => D ev) m.whereCond condition ∧ Kept (condition.map onRows) given kept ∧
      SelectsFrom m curr.schema.fields select.aggregate desc none kept rows := fun rows hrows => by
    obtain ⟨kept', hkept', hselected⟩ := hselects (hb₂.trans hfinal) rows hrows
    obtain ⟨given, condition, kept, hgiven, hcondition, -, hkept, hshows⟩ :=
      hfilters (hb₁.trans hfinal) kept' hkept'
    rw [hschema] at hselected
    exact ⟨given, condition, kept, hgiven, hcondition, hkept, hselected.shown hshows⟩
  rcases hlimit with ⟨hnone, rfl⟩ | ⟨n, schema, hsome, rfl⟩
  · rw [hnone]
    exact hbelow rows hrows
  · obtain ⟨rows', hrows', rfl⟩ := Ir.delivers_limit hrows
    obtain ⟨given, condition, kept, hgiven, hcondition, hkept, hselected⟩ := hbelow rows' hrows'
    rw [hsome]
    exact ⟨given, condition, kept, hgiven, hcondition, hkept, hselected.limited n⟩

end Selecting

end Lsql.Front.Lower
