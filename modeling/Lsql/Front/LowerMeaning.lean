import Lsql.Front.LowerFollows

/-!
# Lsql.Front.LowerMeaning

An expression is lowered to a scalar that has its meaning.

What an expression may mean is given for each node by what its parts may mean and by what the relations
in it are lowered to (`Expr.Stands`). The scalar has one of these values on every row of the current
relation. Above an aggregation it has it on the row of a group as well, if the values of the aggregates
are in that row and no `IN` is: the field of an `IN` is a field of the rows below (`Matches`).
-/

namespace Lsql.Front.Lower

open Bound (Evaluator World Shows fieldValue applied aggregated called foundIn)
open Ir (Row Delivers)

/-! ### Evaluators -/

theorem mapM_congr_forall₂ {α β γ : Type} {f : α → Except Fault γ} {g : β → Except Fault γ}
    {as : List α} {bs : List β} (h : List.Forall₂ (fun a b => f a = g b) as bs) :
    as.mapM f = bs.mapM g := by
  induction h with
  | nil => rfl
  | cons hab _ ih => rw [List.mapM_cons, List.mapM_cons, hab, ih]

/-- An evaluator that reads some fields only. -/
def Local (fields : FieldSet) (ev : Evaluator) : Prop :=
  ∀ row row' rows rows', (∀ id ∈ fields, row' id = row id) →
    List.Forall₂ (fun row row' : Row => ∀ id ∈ fields, row' id = row id) rows rows' →
    ev row' rows' = ev row rows

section Locals

variable {fields : FieldSet} {ev : Evaluator} {evs : List Evaluator}

theorem local_field {id : FieldId} (h : id ∈ fields) : Local fields (fieldValue id) :=
  fun _ _ _ _ hrow _ => congrArg Except.ok (hrow id h)

theorem local_value (v : Value) : Local fields fun _ _ => .ok v := fun _ _ _ _ _ _ => rfl

variable [Platform]

theorem local_applied (f : Function) (h : ∀ ev ∈ evs, Local fields ev) :
    Local fields (applied f evs) := by
  intro row row' rows rows' hrow hrows
  have hargs : (evs.mapM fun ev => ev row' rows') = evs.mapM fun ev => ev row rows :=
    mapM_congr_forall₂ (List.forall₂_same.mpr fun ev hev => h ev hev _ _ _ _ hrow hrows)
  rw [applied, applied, hargs]

omit [Platform] in
theorem argument_local (h : ∀ ev ∈ evs, Local fields ev) {row row' : Row}
    (hrow : ∀ id ∈ fields, row' id = row id) :
    Bound.argument evs row' = Bound.argument evs row := by
  cases evs with
  | nil => rfl
  | cons ev evs => exact h ev List.mem_cons_self _ _ _ _ hrow .nil

theorem local_aggregated (f : Function) (h : ∀ ev ∈ evs, Local fields ev) :
    Local fields (aggregated f evs) := by
  intro row row' rows rows' _ hrows
  have hfold : ∀ start : FnAggregator,
      rows'.foldlM (fun state row => Bound.argument evs row >>= state.feed) start =
        rows.foldlM (fun state row => Bound.argument evs row >>= state.feed) start := by
    induction hrows with
    | nil => exact fun _ => rfl
    | cons hrow _ ih =>
        intro start
        rw [List.foldlM_cons, List.foldlM_cons, argument_local h hrow]
        exact bind_congr ih
  unfold aggregated
  exact bind_congr fun start => congrArg (· >>= _) (hfold start)

omit [Platform] in
theorem local_foundIn (values : List Value) (h : Local fields ev) :
    Local fields (foundIn values ev) := by
  intro row row' rows rows' hrow hrows
  rw [foundIn, foundIn, h row row' rows rows' hrow hrows]

end Locals

/-! ### Scalars -/

/-- A scalar has the value of an expression on rows; on all rows that hold the values of aggregates, if it
reads nothing else that is not in them. -/
def Matches [Platform] (free : Bool) (rows : List Row) (aggregates : List Ir.Aggregate)
    (scalar : Ir.Scalar) (ev : Evaluator) : Prop :=
  ∀ group ⊆ rows, ∀ row, free = true ∨ row ∈ rows →
    (∀ a ∈ aggregates, a.over group = .ok (row a.outputFieldId)) →
    scalar.eval row.record = ev row group

section Scalars

variable [Platform] {free free' : Bool} {rows : List Row} {as as' : List Ir.Aggregate}
  {scalar : Ir.Scalar} {ev : Evaluator} {scalars : List Ir.Scalar} {evs : List Evaluator}

theorem Matches.weaken (h : Matches free rows as scalar ev) (hfree : free' = true → free = true)
    (has : as ⊆ as') : Matches free' rows as' scalar ev :=
  fun group hgroup row hrow hvalues =>
    h group hgroup row (hrow.imp_left hfree) fun a ha => hvalues a (has ha)

/-- On a row of the current relation, without aggregates. -/
theorem Matches.on (h : Matches free rows [] scalar ev) {row : Row} (hrow : row ∈ rows) :
    scalar.eval row.record = ev row [] :=
  h [] (List.nil_subset _) row (.inr hrow) fun _ ha => absurd ha List.not_mem_nil

/-- The values of scalars. -/
theorem evalAll_matches (h : List.Forall₂ (Matches free rows as) scalars evs) {group : List Row}
    (hgroup : group ⊆ rows) {row : Row} (hrow : free = true ∨ row ∈ rows)
    (hvalues : ∀ a ∈ as, a.over group = .ok (row a.outputFieldId)) :
    Ir.Scalar.evalAll row.record scalars = evs.mapM fun ev => ev row group := by
  induction h with
  | nil => rfl
  | cons hhead _ ih =>
      rw [Ir.Scalar.evalAll, List.mapM_cons, hhead group hgroup row hrow hvalues, ih]

/-- A call of a scalar function. -/
theorem matches_applied {f : Function} {t : ValueType}
    (h : List.Forall₂ (Matches free rows as) scalars evs) :
    Matches free rows as (.fnCall f scalars t) (applied f evs) := by
  intro group hgroup row hrow hvalues
  show (Ir.Scalar.evalAll row.record scalars >>= _) = _
  rw [evalAll_matches h hgroup hrow hvalues]
  rfl

/-- A call of an aggregate function is the field of its value. -/
theorem matches_aggregated {f : Function} {id : FieldId} {t : ValueType}
    (h : List.Forall₂ (Matches free rows []) scalars evs) :
    Matches true rows [⟨.fnCall f scalars, id, t⟩] (.field id t) (aggregated f evs) := by
  intro group hgroup row _ hvalues
  have harg : ∀ row ∈ group, Ir.aggregateArg scalars row = Bound.argument evs row := by
    intro row hrow
    cases h with
    | nil => rfl
    | cons hhead _ => exact hhead.on (hgroup hrow)
  have hfeed : ∀ state, Ir.feedRows scalars state group =
      group.foldlM (fun state row => Bound.argument evs row >>= state.feed) state := by
    clear hvalues hgroup
    induction group with
    | nil => exact fun _ => rfl
    | cons first group ih =>
        intro state
        rw [List.forall_mem_cons] at harg
        rw [Ir.feedRows, List.foldlM_cons, harg.1, bind_assoc]
        exact bind_congr fun v => bind_congr (ih harg.2)
  have hvalue := hvalues _ List.mem_cons_self
  show Except.ok (row id) = _
  rw [← hvalue, Ir.Aggregate.over, aggregated]
  exact bind_congr fun start => congrArg (· >>= _) (hfeed start)

end Scalars

/-! ### Expressions -/

mutual

/-- There is no `IN`; or none outside of the arguments of aggregates. -/
def Expr.withoutIn (everywhere : Bool) : Expr → Bool
  | .identifier _ _ | .value _ _ => true
  | .fnCall f args _ => !f.isScalar && !everywhere || allWithoutIn everywhere args
  | .inMatch _ _ _ => false
  | .like e _ _ | .unary _ e _ => e.withoutIn everywhere
  | .binary _ left right _ => left.withoutIn everywhere && right.withoutIn everywhere

def allWithoutIn (everywhere : Bool) : List Expr → Bool
  | [] => true
  | e :: es => e.withoutIn everywhere && allWithoutIn everywhere es

end

section Standing

variable [Platform]

/-- The rows that a relation is lowered to deliver. -/
def Lowers (w : World) (b : FieldBinding) (matched : Lowerer Ir.Relation) (R : List Row → Prop) :
    Prop :=
  ∀ fields, Leads w b fields none matched fun b' _ ir =>
    Finally w b' (∀ rows, Delivers w.env ir rows → R rows)

mutual

/-- What an expression may mean, by what its parts may mean. -/
def Expr.Stands (w : World) (b : FieldBinding) : Expr → (Evaluator → Prop) → Prop
  | .identifier id _, D => D (fieldValue id)
  | .value v _, D => D fun _ _ => .ok v
  | .fnCall f args _, D => ∃ Ds, AllStand w b args Ds ∧
    ∀ evs, List.Forall₂ (fun D ev => D ev) Ds evs → D (called f evs)
  | .inMatch e matched f, D => ∃ D' R, e.Stands w b D' ∧ Lowers w b matched R ∧
    ∀ ev rows, D' ev → R rows → D (foundIn (rows.map fun row => row f) ev)
  | .like e regex _, D => ∃ D', e.Stands w b D' ∧ ∀ ev, D' ev → D (applied (.like regex) [ev])
  | .binary type left right _, D => ∃ Dl Dr, left.Stands w b Dl ∧ right.Stands w b Dr ∧
    ∀ l r, Dl l → Dr r → D (applied (binaryFunction type left.valueType) [l, r])
  | .unary type e _, D => ∃ D', e.Stands w b D' ∧ ∀ ev, D' ev → D (applied (unaryFunction type) [ev])

def AllStand (w : World) (b : FieldBinding) : List Expr → List (Evaluator → Prop) → Prop
  | [], Ds => Ds = []
  | e :: es, Ds => ∃ D Ds', Ds = D :: Ds' ∧ e.Stands w b D ∧ AllStand w b es Ds'

end

/-- What a lowered expression is worth: some value that the expression may have, on all rows of the
relation that is current behind it. -/
def Computes (w : World) (fields : FieldSet) (free : Bool) (t : Option Ir.Relation)
    (D : Evaluator → Prop) (lowered : LowerExprResult) : Prop :=
  ∀ rows, Drawn w.env t rows → ∃ ev, D ev ∧ Local fields ev ∧
    Matches free rows lowered.2 lowered.1 ev

/-- The same of a list of expressions. -/
def ComputeAll (w : World) (fields : FieldSet) (free : Bool) (t : Option Ir.Relation)
    (Ds : List (Evaluator → Prop)) (lowered : List Ir.Scalar × List Ir.Aggregate) : Prop :=
  ∀ rows, Drawn w.env t rows → ∃ evs, List.Forall₂ (fun D ev => D ev) Ds evs ∧
    (∀ ev ∈ evs, Local fields ev) ∧ List.Forall₂ (Matches free rows lowered.2) lowered.1 evs

/-- The fields of aggregates are none of those that there have been. -/
def FreshAggregates (b : FieldBinding) (as : List Ir.Aggregate) : Prop :=
  ∀ a ∈ as, b.entry a.outputFieldId = none

/-- What an expression is lowered to. -/
def LeadsTo (w : World) (b : FieldBinding) (fields : FieldSet) (t : Option Ir.Relation) (e : Expr)
    (D : Evaluator → Prop) : Prop :=
  Leads w b (some fields) t (lowerExpr e) fun b' t' lowered =>
    Onto w.env t t' ∧ lowered.1.valueType = e.valueType ∧ FreshAggregates b lowered.2 ∧
      Finally w b' (Computes w fields (e.withoutIn false) t' D lowered)

variable {w : World} {b b' : FieldBinding} {fields : FieldSet} {t t' : Option Ir.Relation}

omit [Platform] in
theorem freshAggregates_nil : FreshAggregates b [] := fun _ ha => absurd ha List.not_mem_nil

omit [Platform] in
theorem FreshAggregates.append {as as' : List Ir.Aggregate} (h : FreshAggregates b as)
    (h' : FreshAggregates b as') : FreshAggregates b (as ++ as') := List.forall_mem_append.mpr ⟨h, h'⟩

omit [Platform] in
theorem verify_leads {fields : Option FieldSet} (cond : Bool) (message : String) :
    Leads w b fields none (liftM (verify cond message)) fun _ _ _ => cond = true :=
  .lift fun _ _ h => verify_eq_ok.mp h

omit [Platform] in
/-- The rows that alike rows come from. -/
theorem exists_alike {given rows group : List Row} {R : Row → Row → Prop}
    (h : List.Forall₂ R given rows) (hgroup : group ⊆ rows) :
    ∃ group' ⊆ given, List.Forall₂ R group' group := by
  induction group with
  | nil => exact ⟨[], List.nil_subset _, .nil⟩
  | cons row group ih =>
      rw [List.cons_subset] at hgroup
      obtain ⟨group', hsub, hforall⟩ := ih hgroup.2
      obtain ⟨row', hrow', hR⟩ := forall₂_mem_right h hgroup.1
      exact ⟨row' :: group', List.cons_subset.mpr ⟨hrow', hsub⟩, .cons hR hforall⟩

/-- The field of an `IN` holds its value. -/
theorem computes_markJoin {q m : Ir.Relation} {schema : Schema} {scalar : Ir.Scalar} {o f : FieldId}
    (hschema : q.schema.append o = .ok schema) (hwithin : Within fields (some q))
    {D D' : Evaluator → Prop} {R : List Row → Prop} {free : Bool}
    (hkey : Computes w fields free (some q) D' (scalar, []))
    (hmatched : ∀ rows, Delivers w.env m rows → R rows)
    (hD : ∀ ev rows, D' ev → R rows → D (foundIn (rows.map fun row => row f) ev)) :
    Computes w fields false (some (.markJoin q m scalar o f schema)) D (.field o .boolean, []) := by
  intro rows hrows
  obtain ⟨marked, hmarked, hshows⟩ := hrows
  obtain ⟨given, matched, hgiven, hdelivered, hjoined⟩ := Ir.delivers_markJoin hmarked
  obtain ⟨ev, hev, hlocal, hmatches⟩ := hkey given (Pool.of_delivers hgiven)
  refine ⟨_, hD ev matched hev (hmatched matched hdelivered), local_foundIn _ hlocal, ?_⟩
  obtain ⟨hfresh, hfields⟩ := Schema.append_eq_ok.mp hschema
  -- a row, its mark and the row that it comes from
  have hrow : List.Forall₂ (fun row₀ row : Row => (∀ id ∈ fields, row id = row₀ id) ∧
      ∃ v, scalar.eval row₀.record = .ok v ∧
        row o = .boolean (Ir.isMatch (matched.map fun row => row f) v)) given rows := by
    clear hmarked hgiven hdelivered hmatches
    induction hjoined generalizing rows with
    | nil =>
        cases hshows
        exact .nil
    | cons hhead _ ih =>
        cases hshows with
        | cons hshow hshows =>
            obtain ⟨v, hv, rfl⟩ := hhead
            have hmem : ∀ id, id ∈ q.schema.fields ∨ id = o → id ∈ schema.fields := fun id hid => by
              rw [hfields, List.mem_append, List.mem_singleton]
              exact hid
            refine .cons ⟨fun id hid => ?_, v, hv, ?_⟩ (ih _ hshows)
            · have hid' := hwithin q rfl id hid
              have hne : id ≠ o := fun heq => hfresh (heq ▸ hid')
              exact (hshow id (hmem id (.inl hid'))).trans (Function.update_of_ne hne _ _)
            · exact (hshow o (hmem o (.inr rfl))).trans (Function.update_self _ _ _)
  intro group hgroup row hmem _
  obtain ⟨row₀, hrow₀, halike, v, hv, hmark⟩ :=
    forall₂_mem_right hrow (hmem.resolve_left Bool.false_ne_true)
  obtain ⟨group₀, hsub, hgroup₀⟩ := exists_alike hrow hgroup
  have hvalue : ev row group = .ok v := by
    rw [hlocal row₀ row group₀ group halike (hgroup₀.imp fun _ _ h => h.1), ← hv]
    exact (hmatches group₀ hsub row₀ (.inr hrow₀) fun _ ha => absurd ha List.not_mem_nil).symm
  show Except.ok (row o) = _
  rw [hmark, foundIn, hvalue]
  split
  next hempty =>
    rw [List.isEmpty_iff.mp hempty]
    rfl
  · rfl

mutual

/-- **An expression is lowered to a scalar that has a value that the expression may have.** -/
theorem lowerExpr_leads : ∀ (e : Expr) {t : Option Ir.Relation} {D : Evaluator → Prop},
    e.Stands w b D → (t = none → e.withoutIn true = true) → Within fields t →
    LeadsTo w b fields t e D
  | .identifier id type, t, D, he, _, _ => by
      unfold LeadsTo
      rw [lowerExpr]
      refine currFieldSet_leads.bind fun found t' _ hfound => ?_
      obtain ⟨rfl, rfl⟩ := hfound
      refine (verify_leads _ _).frameBind fun _ _ hmem => .pure fun b' _ _ => ?_
      refine ⟨onto_refl _ _, rfl, freshAggregates_nil, fun _ rows _ => ?_⟩
      exact ⟨_, he, local_field (of_decide_eq_true hmem), fun _ _ _ _ _ => rfl⟩
  | .value v type, t, D, he, _, _ => by
      unfold LeadsTo
      rw [lowerExpr]
      refine .pure fun b' => ⟨onto_refl _ _, rfl, freshAggregates_nil, fun _ rows _ => ?_⟩
      exact ⟨_, he, local_value v, fun _ _ _ _ _ => rfl⟩
  | .fnCall f args type, t, D, he, hin, hwithin => by
      obtain ⟨Ds, hargs, hD⟩ := he
      have hin' : t = none → allWithoutIn true args = true := fun ht => by
        simpa [Expr.withoutIn] using hin ht
      unfold LeadsTo
      rw [lowerExpr]
      refine (lowerExprs_leads args hargs hin' hwithin).bind fun lowered t' b₁ hlowered => ?_
      obtain ⟨scalars, aggregates⟩ := lowered
      obtain ⟨honto, hfresh, hfinally⟩ := hlowered
      refine (verify_leads _ _).frameBind fun _ b₂ hnone => ?_
      cases List.isEmpty_iff.mp hnone
      split
      next hscalar =>
        refine .pure fun b' _ hb => ⟨honto, rfl, hfresh, fun hfinal rows hrows => ?_⟩
        obtain ⟨evs, hevs, hlocal, hmatches⟩ := hfinally (hb.trans hfinal) rows hrows
        have hvalue := hD evs hevs
        rw [called, if_pos hscalar] at hvalue
        refine ⟨_, hvalue, local_applied f hlocal, ?_⟩
        rw [Expr.withoutIn, hscalar]
        exact matches_applied hmatches
      next hscalar =>
        refine (addAnonymous_leads _ _).frameBind fun id b₃ hid => .pure fun b' _ _ hb => ?_
        refine ⟨honto, rfl, List.forall_mem_singleton.mpr hid, fun hfinal rows hrows => ?_⟩
        obtain ⟨evs, hevs, hlocal, hmatches⟩ := hfinally (hb.trans hfinal) rows hrows
        have hvalue := hD evs hevs
        rw [called, if_neg hscalar] at hvalue
        exact ⟨_, hvalue, local_aggregated f hlocal,
          (matches_aggregated hmatches).weaken (fun _ => rfl) (List.Subset.refl _)⟩
  | .inMatch e matched f, t, D, he, hin, hwithin => by
      obtain ⟨D', R, he, hmatched, hD⟩ := he
      cases t with
      | none => exact absurd (hin rfl) Bool.false_ne_true
      | some r =>
          unfold LeadsTo
          rw [lowerExpr]
          refine (addAnonymous_leads _ _).frameBind fun o _ _ => ?_
          refine (lowerExpr_leads e he (fun h => by cases h) hwithin).bind fun key t₁ b₁ hkey => ?_
          obtain ⟨scalar, aggregates⟩ := key
          obtain ⟨honto, -, -, hkey⟩ := hkey
          refine (verify_leads _ _).frameBind fun _ _ hnone => ?_
          cases List.isEmpty_iff.mp hnone
          refine (hmatched _).frameBind fun m b₂ hm => ?_
          cases honto with
          | @some _ q hover =>
              refine markJoin_leads fun schema hschema => .pure fun b' hb₂ _ hb₁ _ => ?_
              refine ⟨.some (hover.trans (over_markJoin hschema)), rfl, freshAggregates_nil,
                fun hfinal => ?_⟩
              exact computes_markJoin hschema (hwithin.onto (.some hover)) (hkey (hb₁.trans hfinal))
                (hm (hb₂.trans hfinal)) hD
  | .like e regex type, t, D, he, hin, hwithin => by
      obtain ⟨D', he, hD⟩ := he
      unfold LeadsTo
      rw [lowerExpr]
      refine (lowerExpr_leads e he hin hwithin).bind fun arg t' b₁ harg => .pure fun b' hb => ?_
      refine ⟨harg.1, rfl, harg.2.2.1, fun hfinal rows hrows => ?_⟩
      obtain ⟨ev, hev, hlocal, hmatches⟩ := harg.2.2.2 (hb.trans hfinal) rows hrows
      exact ⟨_, hD ev hev, local_applied _ (List.forall_mem_singleton.mpr hlocal),
        matches_applied (.cons hmatches .nil)⟩
  | .binary type left right _, t, D, he, hin, hwithin => by
      obtain ⟨Dl, Dr, hleft, hright, hD⟩ := he
      have hin' : t = none → left.withoutIn true = true ∧ right.withoutIn true = true := fun ht =>
        Bool.and_eq_true_iff.mp (hin ht)
      unfold LeadsTo
      rw [lowerExpr]
      refine (lowerExpr_leads left hleft (fun ht => (hin' ht).1) hwithin).bind fun l t₁ b₁ hl => ?_
      refine (lowerExpr_leads right hright (fun ht => (hin' (hl.1.eq_none ht)).2)
        (hwithin.onto hl.1)).bind fun r t₂ b₂ hr => .pure fun b' hb₂ hb₁ => ?_
      refine ⟨hl.1.trans hr.1, rfl, hl.2.2.1.append hr.2.2.1, fun hfinal rows hrows => ?_⟩
      obtain ⟨l', hl', hlocal, hmatches⟩ :=
        hl.2.2.2 (hb₁.trans hfinal) rows (hr.1.drawn hrows)
      obtain ⟨r', hr', hlocal', hmatches'⟩ := hr.2.2.2 (hb₂.trans hfinal) rows hrows
      have hvalue := hD l' r' hl' hr'
      rw [← hl.2.1] at hvalue
      refine ⟨_, hvalue, local_applied _ (List.forall_mem_cons.mpr
        ⟨hlocal, List.forall_mem_singleton.mpr hlocal'⟩), ?_⟩
      refine matches_applied (.cons (hmatches.weaken (fun h => ?_) (List.subset_append_left _ _))
        (.cons (hmatches'.weaken (fun h => ?_) (List.subset_append_right _ _)) .nil))
      · exact (Bool.and_eq_true_iff.mp h).1
      · exact (Bool.and_eq_true_iff.mp h).2
  | .unary type e _, t, D, he, hin, hwithin => by
      obtain ⟨D', he, hD⟩ := he
      unfold LeadsTo
      rw [lowerExpr]
      refine (lowerExpr_leads e he hin hwithin).bind fun arg t' b₁ harg => .pure fun b' hb => ?_
      refine ⟨harg.1, rfl, harg.2.2.1, fun hfinal rows hrows => ?_⟩
      obtain ⟨ev, hev, hlocal, hmatches⟩ := harg.2.2.2 (hb.trans hfinal) rows hrows
      exact ⟨_, hD ev hev, local_applied _ (List.forall_mem_singleton.mpr hlocal),
        matches_applied (.cons hmatches .nil)⟩

theorem lowerExprs_leads : ∀ (es : List Expr) {t : Option Ir.Relation} {Ds : List (Evaluator → Prop)},
    AllStand w b es Ds → (t = none → allWithoutIn true es = true) → Within fields t →
    Leads w b (some fields) t (lowerExprs es) fun b' t' lowered =>
      Onto w.env t t' ∧ FreshAggregates b lowered.2 ∧
        Finally w b' (ComputeAll w fields (allWithoutIn false es) t' Ds lowered)
  | [], t, Ds, hes, _, _ => by
      rw [lowerExprs]
      refine .pure fun b' => ⟨onto_refl _ _, freshAggregates_nil, fun _ rows _ => ⟨[], ?_, ?_, .nil⟩⟩
      · cases hes
        exact .nil
      · exact fun _ h => absurd h List.not_mem_nil
  | e :: es, t, Ds, hes, hin, hwithin => by
      obtain ⟨D, Ds, rfl, he, hes⟩ := hes
      have hin' : t = none → e.withoutIn true = true ∧ allWithoutIn true es = true := fun ht =>
        Bool.and_eq_true_iff.mp (hin ht)
      rw [lowerExprs]
      refine (lowerExpr_leads e he (fun ht => (hin' ht).1) hwithin).bind fun l t₁ b₁ hl => ?_
      refine (lowerExprs_leads es hes (fun ht => (hin' (hl.1.eq_none ht)).2)
        (hwithin.onto hl.1)).bind fun r t₂ b₂ hr => .pure fun b' hb₂ hb₁ => ?_
      refine ⟨hl.1.trans hr.1, hl.2.2.1.append hr.2.1, fun hfinal rows hrows => ?_⟩
      obtain ⟨ev, hev, hlocal, hmatches⟩ := hl.2.2.2 (hb₁.trans hfinal) rows (hr.1.drawn hrows)
      obtain ⟨evs, hevs, hlocals, hall⟩ := hr.2.2 (hb₂.trans hfinal) rows hrows
      refine ⟨ev :: evs, .cons hev hevs, List.forall_mem_cons.mpr ⟨hlocal, hlocals⟩, .cons ?_ ?_⟩
      · exact hmatches.weaken (fun h => (Bool.and_eq_true_iff.mp h).1) (List.subset_append_left _ _)
      · exact hall.imp fun _ _ h => h.weaken (fun h => (Bool.and_eq_true_iff.mp h).2)
          (List.subset_append_right _ _)

end

/-- An expression that has no aggregates outside of it. -/
theorem lowerRowExpr_leads {e : Expr} {D : Evaluator → Prop} (he : e.Stands w b D)
    (hin : t = none → e.withoutIn true = true) (hwithin : Within fields t) :
    Leads w b (some fields) t (lowerRowExpr e) fun b' t' scalar => Onto w.env t t' ∧
      Finally w b' (Computes w fields (e.withoutIn false) t' D (scalar, [])) := by
  refine (lowerExpr_leads e he hin hwithin).bind fun lowered t' b₁ hlowered => ?_
  obtain ⟨scalar, aggregates⟩ := lowered
  refine (verify_leads _ _).frameBind fun _ _ hnone => .pure fun b' _ hb => ?_
  cases List.isEmpty_iff.mp hnone
  exact ⟨hlowered.1, hlowered.2.2.2.before hb⟩

theorem lowerRowExprs_leads {es : List Expr} {Ds : List (Evaluator → Prop)} (hes : AllStand w b es Ds)
    (hin : t = none → allWithoutIn true es = true) (hwithin : Within fields t) :
    Leads w b (some fields) t (lowerRowExprs es) fun b' t' scalars => Onto w.env t t' ∧
      Finally w b' (ComputeAll w fields (allWithoutIn false es) t' Ds (scalars, [])) := by
  refine (lowerExprs_leads es hes hin hwithin).bind fun lowered t' b₁ hlowered => ?_
  obtain ⟨scalars, aggregates⟩ := lowered
  refine (verify_leads _ _).frameBind fun _ _ hnone => .pure fun b' _ hb => ?_
  cases List.isEmpty_iff.mp hnone
  exact ⟨hlowered.1, hlowered.2.2.before hb⟩

end Standing

/-! ### Without the aggregates -/

section Extracting

variable [Platform] {w : World} {b b' b'' : FieldBinding} {fields : FieldSet}
  {t t' t'' : Option Ir.Relation} {D D' : Evaluator → Prop} {as as' : List Ir.Aggregate}
  {ev : Evaluator} {Ds : List (Evaluator → Prop)} {evs : List Evaluator}

/-- On a row with the values of the aggregates, what is left of an expression is worth what the
expression is worth with the rows that the aggregates are over. -/
def Extracts (w : World) (b : FieldBinding) (t : Option Ir.Relation) (as : List Ir.Aggregate)
    (D : Evaluator → Prop) (ev' : Evaluator) : Prop :=
  Finally w b (∀ rows, Drawn w.env t rows → ∃ ev, D ev ∧ ∀ group ⊆ rows, ∀ row : Row,
    (∀ a ∈ as, a.over group = .ok (row a.outputFieldId)) → ev' row [] = ev row group)

theorem Extracts.later (h : Extracts w b' t' as D ev) (hb : b'.entries <+: b''.entries)
    (ht : Onto w.env t' t'') (has : as ⊆ as') : Extracts w b'' t'' as' D ev := by
  intro hfinal rows hrows
  obtain ⟨ev', hev', hvalue⟩ := h (hb.trans hfinal) rows (ht.drawn hrows)
  exact ⟨ev', hev', fun group hgroup row hvalues =>
    hvalue group hgroup row fun a ha => hvalues a (has ha)⟩

/-- A function of what is left of its arguments. -/
theorem extracts_applied {f : Function} (Ds : List (Evaluator → Prop))
    (h : List.Forall₂ (fun D ev => D ev) (Ds.map (Extracts w b t as)) evs)
    (hD : ∀ evs, List.Forall₂ (fun D ev => D ev) Ds evs → D (applied f evs)) :
    Extracts w b t as D (applied f evs) := by
  rw [List.forall₂_map_left_iff] at h
  intro hfinal rows hrows
  have hargs : ∃ evs', List.Forall₂ (fun D ev => D ev) Ds evs' ∧ ∀ group ⊆ rows, ∀ row : Row,
      (∀ a ∈ as, a.over group = .ok (row a.outputFieldId)) →
        List.Forall₂ (fun ev ev' => ev row [] = ev' row group) evs evs' := by
    clear hD
    induction h with
    | nil => exact ⟨[], .nil, fun _ _ _ _ => .nil⟩
    | cons hhead _ ih =>
        obtain ⟨ev', hev', hvalue⟩ := hhead hfinal rows hrows
        obtain ⟨evs', hevs', hvalues⟩ := ih
        exact ⟨ev' :: evs', .cons hev' hevs', fun group hgroup row has =>
          .cons (hvalue group hgroup row has) (hvalues group hgroup row has)⟩
  obtain ⟨evs', hevs', hvalues⟩ := hargs
  refine ⟨_, hD evs' hevs', fun group hgroup row has => ?_⟩
  rw [applied, applied, mapM_congr_forall₂ (hvalues group hgroup row has)]

theorem Expr.Stands.imp {e : Expr} (he : e.Stands w b D) (h : ∀ ev, D ev → D' ev) :
    e.Stands w b D' := by
  cases e with
  | identifier | value => exact h _ he
  | fnCall =>
      obtain ⟨Ds, hargs, hD⟩ := he
      exact ⟨Ds, hargs, fun evs hevs => h _ (hD evs hevs)⟩
  | inMatch =>
      obtain ⟨D', R, he, hmatched, hD⟩ := he
      exact ⟨D', R, he, hmatched, fun ev rows hev hrows => h _ (hD ev rows hev hrows)⟩
  | like | unary =>
      obtain ⟨D', he, hD⟩ := he
      exact ⟨D', he, fun ev hev => h _ (hD ev hev)⟩
  | binary =>
      obtain ⟨Dl, Dr, hleft, hright, hD⟩ := he
      exact ⟨Dl, Dr, hleft, hright, fun l r hl hr => h _ (hD l r hl hr)⟩

theorem allStand_imp {es : List Expr} {F G : (Evaluator → Prop) → Evaluator → Prop}
    (h : ∀ D ev, F D ev → G D ev) (hes : AllStand w b es (Ds.map F)) :
    AllStand w b es (Ds.map G) := by
  induction es generalizing Ds with
  | nil =>
      cases List.map_eq_nil_iff.mp hes
      rfl
  | cons e es ih =>
      obtain ⟨_, _, hDs, he, hes⟩ := hes
      obtain ⟨D, Ds, rfl, rfl, rfl⟩ := List.map_eq_cons_iff.mp hDs
      exact ⟨_, _, rfl, he.imp (h D), ih hes⟩

/-- A function of one expression. -/
theorem extracts_applied_one {f : Function} (hD : ∀ ev, D' ev → D (applied f [ev])) :
    ∀ ev, Extracts w b t as D' ev → Extracts w b t as D (applied f [ev]) := by
  refine fun ev hev => extracts_applied [D'] (.cons hev .nil) fun evs hevs => ?_
  obtain ⟨ev', rfl, hev'⟩ := Ir.forall₂_one hevs
  exact hD ev' hev'

variable [HashOrder]

mutual

/-- **Without its aggregates an expression has the same value.** -/
theorem extractAggregates_leads : ∀ (e : Expr) {t : Option Ir.Relation} {D : Evaluator → Prop},
    e.Stands w b D → (t = none → e.withoutIn true = true) → Within fields t →
    Leads w b (some fields) t (extractAggregates e) fun b' t' extracted =>
      Onto w.env t t' ∧ extracted.expr.valueType = e.valueType ∧
        FreshAggregates b extracted.aggregates ∧
        extracted.expr.Stands w b (Extracts w b' t' extracted.aggregates D)
  | .identifier id type, t, D, he, _, _ => by
      rw [extractAggregates]
      refine .pure fun b' => ⟨onto_refl _ _, rfl, freshAggregates_nil, fun _ rows _ => ?_⟩
      exact ⟨_, he, fun _ _ _ _ => rfl⟩
  | .value v type, t, D, he, _, _ => by
      rw [extractAggregates]
      refine .pure fun b' => ⟨onto_refl _ _, rfl, freshAggregates_nil, fun _ rows _ => ?_⟩
      exact ⟨_, he, fun _ _ _ _ => rfl⟩
  | .fnCall f args type, t, D, he, hin, hwithin => by
      rw [extractAggregates]
      split
      next hf =>
        refine (lowerExpr_leads (.fnCall f args type) he hin hwithin).bind fun lowered t' b₁ hl => ?_
        obtain ⟨scalar, aggregates⟩ := lowered
        obtain ⟨honto, htype, hfresh, hfinally⟩ := hl
        cases scalar with
        | field id u =>
            refine .pure fun b' hb => ⟨honto, htype, hfresh, fun hfinal rows hrows => ?_⟩
            obtain ⟨ev, hev, -, hmatches⟩ := hfinally (hb.trans hfinal) rows hrows
            have hfree : (Expr.fnCall f args type).withoutIn false = true := by
              rw [Expr.withoutIn, hf]
              rfl
            exact ⟨ev, hev, fun group hgroup row has => hmatches group hgroup row (.inl hfree) has⟩
        | _ => exact .failed
      next hf =>
        obtain ⟨Ds, hargs, hD⟩ := he
        have hscalar : f.isScalar = true := by simpa using hf
        have hin' : t = none → allWithoutIn true args = true := fun ht => by
          simpa [Expr.withoutIn] using hin ht
        refine (extractAll_leads _ args hargs hin' hwithin).bind fun x t' b₁ hx => .pure fun b' hb => ?_
        obtain ⟨honto, hfresh, hstand⟩ := hx
        refine ⟨honto, rfl, hfresh, _, hstand, fun evs hevs => ?_⟩
        rw [called, if_pos hscalar]
        refine (extracts_applied Ds hevs fun evs hevs => ?_).later hb (onto_refl _ _) (List.Subset.refl _)
        have hvalue := hD evs hevs
        rwa [called, if_pos hscalar] at hvalue
  | .inMatch e matched f, t, D, he, hin, hwithin => by
      obtain ⟨D', R, he, hmatched, hD⟩ := he
      have hin' : t = none → e.withoutIn true = true := fun ht => absurd (hin ht) Bool.false_ne_true
      rw [extractAggregates]
      refine (extractAggregates_leads e he hin' hwithin).bind fun x t' b₁ hx => .pure fun b' hb => ?_
      obtain ⟨honto, -, hfresh, hstands⟩ := hx
      refine ⟨honto, rfl, hfresh, _, R, hstands, hmatched, fun ev matches' hev hmatches => ?_⟩
      intro hfinal rows hrows
      obtain ⟨ev', hev', hvalue⟩ := hev (hb.trans hfinal) rows hrows
      refine ⟨_, hD ev' matches' hev' hmatches, fun group hgroup row has => ?_⟩
      rw [foundIn, foundIn, hvalue group hgroup row has]
  | .like e regex type, t, D, he, hin, hwithin => by
      obtain ⟨D', he, hD⟩ := he
      rw [extractAggregates]
      refine (extractAggregates_leads e he hin hwithin).bind fun x t' b₁ hx => .pure fun b' hb => ?_
      obtain ⟨honto, -, hfresh, hstands⟩ := hx
      exact ⟨honto, rfl, hfresh, _, hstands.imp fun ev hev =>
        hev.later hb (onto_refl _ _) (List.Subset.refl _), extracts_applied_one hD⟩
  | .binary type left right _, t, D, he, hin, hwithin => by
      obtain ⟨Dl, Dr, hleft, hright, hD⟩ := he
      have hin' : t = none → left.withoutIn true = true ∧ right.withoutIn true = true := fun ht =>
        Bool.and_eq_true_iff.mp (hin ht)
      rw [extractAggregates]
      refine (extractAggregates_leads left hleft (fun ht => (hin' ht).1) hwithin).bind
        fun l t₁ b₁ hl => ?_
      refine (extractAggregates_leads right hright (fun ht => (hin' (hl.1.eq_none ht)).2)
        (hwithin.onto hl.1)).bind fun r t₂ b₂ hr => .pure fun b' hb₂ hb₁ => ?_
      obtain ⟨honto, htype, hfresh, hstands⟩ := hl
      obtain ⟨honto', -, hfresh', hstands'⟩ := hr
      refine ⟨honto.trans honto', rfl, hfresh.append hfresh',
        Extracts w b' t₂ (l.aggregates ++ r.aggregates) Dl,
        Extracts w b' t₂ (l.aggregates ++ r.aggregates) Dr,
        hstands.imp fun ev hev => hev.later hb₁ honto' (List.subset_append_left _ _),
        hstands'.imp fun ev hev => hev.later hb₂ (onto_refl _ _) (List.subset_append_right _ _), ?_⟩
      rw [htype]
      refine fun l r hl hr => extracts_applied [Dl, Dr] (.cons hl (.cons hr .nil)) ?_
      intro evs hevs
      obtain ⟨l', r', rfl, hl', hr'⟩ := Ir.forall₂_two hevs
      exact hD l' r' hl' hr'
  | .unary type e _, t, D, he, hin, hwithin => by
      obtain ⟨D', he, hD⟩ := he
      rw [extractAggregates]
      refine (extractAggregates_leads e he hin hwithin).bind fun x t' b₁ hx => .pure fun b' hb => ?_
      obtain ⟨honto, -, hfresh, hstands⟩ := hx
      exact ⟨honto, rfl, hfresh, _, hstands.imp fun ev hev =>
        hev.later hb (onto_refl _ _) (List.Subset.refl _), extracts_applied_one hD⟩

theorem extractAll_leads (set : FieldSet) : ∀ (es : List Expr) {t : Option Ir.Relation}
    {Ds : List (Evaluator → Prop)},
    AllStand w b es Ds → (t = none → allWithoutIn true es = true) → Within fields t →
    Leads w b (some fields) t (extractAll set es) fun b' t' extracted =>
      Onto w.env t t' ∧ FreshAggregates b extracted.aggregates ∧
        AllStand w b extracted.expr (Ds.map (Extracts w b' t' extracted.aggregates))
  | [], t, Ds, hes, _, _ => by
      rw [extractAll]
      refine .pure fun b' => ⟨onto_refl _ _, freshAggregates_nil, ?_⟩
      cases hes
      rfl
  | e :: es, t, Ds, hes, hin, hwithin => by
      obtain ⟨D, Ds, rfl, he, hes⟩ := hes
      have hin' : t = none → e.withoutIn true = true ∧ allWithoutIn true es = true := fun ht =>
        Bool.and_eq_true_iff.mp (hin ht)
      rw [extractAll]
      refine (extractAggregates_leads e he (fun ht => (hin' ht).1) hwithin).bind fun l t₁ b₁ hl => ?_
      refine (extractAll_leads _ es hes (fun ht => (hin' (hl.1.eq_none ht)).2)
        (hwithin.onto hl.1)).bind fun r t₂ b₂ hr => .pure fun b' hb₂ hb₁ => ?_
      obtain ⟨honto, -, hfresh, hstands⟩ := hl
      obtain ⟨honto', hfresh', hstand⟩ := hr
      refine ⟨honto.trans honto', hfresh.append hfresh', _, _, rfl,
        hstands.imp fun ev hev => hev.later hb₁ honto' (List.subset_append_left _ _), ?_⟩
      exact allStand_imp (fun D ev hev =>
        hev.later hb₂ (onto_refl _ _) (List.subset_append_right _ _)) hstand

end

end Extracting

end Lsql.Front.Lower
