import Lsql.Front.Lower

/-!
# Lsql.Front.LowerSpec

What the lowering makes: relations of every kind but `TopK`, which only the optimizer makes.

The relations are put together in the current relation of the context, so that this is an invariant of
the context. An expression keeps it if the lowerings of the relations in it do.
-/

namespace Lsql.Front.Lower

/-- A relation that is not a `TopK`. -/
def NoTopK : Ir.Relation → Prop
  | .topK _ _ _ _ _ => False
  | _ => True

/-- No `TopK` anywhere in the current relation. -/
def Clean (s : LowerState) : Prop := ∀ r, s.currRelation = some r → r.Everywhere NoTopK

/-- A computation that keeps the invariant and has a property of its result. -/
def Keeps {α : Type} (x : Lowerer α) (Q : α → Prop) : Prop :=
  ∀ s a s', Clean s → x s = .ok (a, s') → Clean s' ∧ Q a

section Rules

variable {α β : Type} {x : Lowerer α} {f : α → Lowerer β} {P : α → Prop} {Q : β → Prop}

theorem lowerer_bind_ok {s s' : LowerState} {b : β} :
    (x >>= f) s = .ok (b, s') ↔ ∃ a t, x s = .ok (a, t) ∧ f a t = .ok (b, s') := by
  show (do
    let r ← x s
    f r.1 r.2) = _ ↔ _
  rw [bind_eq_ok]
  exact Prod.exists

namespace Keeps

theorem pure {a : α} (h : P a) : Keeps (Pure.pure a) P := by
  intro s a' s' hs hrun
  cases hrun
  exact ⟨hs, h⟩

theorem bind (hx : Keeps x P) (hf : ∀ a, P a → Keeps (f a) Q) : Keeps (x >>= f) Q := by
  intro s b s' hs hrun
  obtain ⟨a, t, ha, hb⟩ := lowerer_bind_ok.mp hrun
  obtain ⟨ht, hP⟩ := hx s a t hs ha
  exact hf a hP t b s' ht hb

theorem mono {P' : α → Prop} (hx : Keeps x P) (h : ∀ a, P a → P' a) : Keeps x P' := by
  intro s a s' hs hrun
  obtain ⟨hs', ha⟩ := hx s a s' hs hrun
  exact ⟨hs', h a ha⟩

/-- Code that does not touch the context. -/
theorem lift {y : Except Fault α} (h : ∀ a, y = .ok a → P a) : Keeps (liftM y) P := by
  intro s a s' hs hrun
  obtain ⟨a', hy, hpure⟩ := bind_eq_ok.mp hrun
  cases hpure
  exact ⟨hs, h a hy⟩

theorem failed {e : Fault} : Keeps (throw e : Lowerer α) P := by
  intro s a s' _ hrun
  cases hrun

/-- Code that leaves the current relation as it is. -/
theorem frame (h : ∀ s a s', x s = .ok (a, s') → s'.currRelation = s.currRelation) :
    Keeps x fun _ => True := by
  intro s a s' hs hrun
  refine ⟨fun r hr => hs r ?_, trivial⟩
  rw [← h s a s' hrun, hr]

end Keeps

end Rules

/-! ### The context -/

section Context

variable {α : Type} {x : Lowerer α} {Q : α → Prop}

theorem currRelation_keeps : Keeps currRelation fun r => r.Everywhere NoTopK := by
  intro s a s' hs hrun
  unfold currRelation at hrun
  split at hrun
  · cases hrun
    exact ⟨hs, hs a ‹_›⟩
  · cases hrun

theorem pullRelation_keeps : Keeps pullRelation fun r => r.Everywhere NoTopK := by
  refine currRelation_keeps.bind fun r hr => ?_
  intro s a s' _ hrun
  cases hrun
  exact ⟨fun q hq => (by cases hq), hr⟩

theorem setRelation_keeps {r : Ir.Relation} (hr : r.Everywhere NoTopK) :
    Keeps (setRelation r) fun _ => True := by
  intro s a s' _ hrun
  obtain ⟨_, -, hpure⟩ := bind_eq_ok.mp hrun
  cases hpure
  refine ⟨fun q hq => ?_, trivial⟩
  cases hq
  exact hr

theorem scopedRelation_keeps {curr : Ir.Relation} (hcurr : curr.Everywhere NoTopK)
    (hx : Keeps x Q) : Keeps (scopedRelation curr x) Q := by
  intro s a s' hs hrun
  obtain ⟨⟨a', t⟩, ha', hpure⟩ := bind_eq_ok.mp hrun
  cases hpure
  have hstart : Clean { s with currRelation := some curr } := by
    intro q hq
    cases hq
    exact hcurr
  exact ⟨hs, (hx _ _ _ hstart ha').2⟩

theorem scopedFieldSet_keeps {curr : FieldSet} (hx : Keeps x Q) :
    Keeps (scopedFieldSet curr x) Q := by
  intro s a s' hs hrun
  obtain ⟨⟨a', t⟩, ha', hpure⟩ := bind_eq_ok.mp hrun
  cases hpure
  have hstart : Clean { s with currFieldSet := some curr } := hs
  obtain ⟨ht, hQ⟩ := hx _ _ _ hstart ha'
  exact ⟨ht, hQ⟩

theorem currFieldSet_keeps : Keeps currFieldSet fun _ => True := by
  refine .frame fun s a s' hrun => ?_
  unfold currFieldSet at hrun
  split at hrun
  · cases hrun
    rfl
  · cases hrun

theorem typeOf_keeps (id : FieldId) : Keeps (typeOf id) fun _ => True := by
  refine .frame fun s a s' hrun => ?_
  obtain ⟨type, -, hpure⟩ := bind_eq_ok.mp hrun
  cases hpure
  rfl

theorem nameOf_keeps (id : FieldId) : Keeps (nameOf id) fun _ => True := by
  refine .frame fun s a s' hrun => ?_
  obtain ⟨name, -, hpure⟩ := bind_eq_ok.mp hrun
  cases hpure
  rfl

theorem getOrAdd_keeps (name : String) (type : ValueType) :
    Keeps (getOrAdd name type) fun _ => True := by
  refine .frame fun s a s' hrun => ?_
  cases hrun
  rfl

theorem addAnonymous_keeps (pre : String) (type : ValueType) :
    Keeps (addAnonymous pre type) fun _ => True := by
  refine .frame fun s a s' hrun => ?_
  obtain ⟨added, -, hpure⟩ := bind_eq_ok.mp hrun
  cases hpure
  rfl

theorem insert_keeps (name : String) (schema : Schema) : Keeps (insert name schema) fun _ => True := by
  refine .frame fun s a s' hrun => ?_
  obtain ⟨_, -, hpure⟩ := bind_eq_ok.mp hrun
  cases hpure
  rfl

theorem find_keeps (name : String) : Keeps (find name) fun _ => True := by
  refine .frame fun s a s' hrun => ?_
  unfold find at hrun
  split at hrun
  · cases hrun
    rfl
  · cases hrun

theorem fieldsOf_keeps [HashOrder] (fieldsOut : RelationFieldSet) :
    Keeps (fieldsOf fieldsOut) fun _ => True := by
  refine .frame fun s a s' hrun => ?_
  obtain ⟨found, -, hpure⟩ := bind_eq_ok.mp hrun
  cases hpure
  rfl

theorem whenPresent_keeps {part : Option α} {f : α → Lowerer Unit}
    (h : ∀ p ∈ part, Keeps (f p) fun _ => True) : Keeps (whenPresent part f) fun _ => True := by
  cases part with
  | none => exact .pure trivial
  | some p => exact h p rfl

theorem verify_keeps (cond : Bool) (message : String) :
    Keeps (liftM (verify cond message)) fun _ => True := .lift fun _ _ => trivial

end Context

/-! ### Expressions -/

mutual

/-- The relations in an expression are lowered to relations without a `TopK`. -/
def Expr.Lowers : Expr → Prop
  | .identifier _ _ | .value _ _ => True
  | .fnCall _ args _ => AllLower args
  | .inMatch e matched _ => e.Lowers ∧ Keeps matched fun r => r.Everywhere NoTopK
  | .like e _ _ | .unary _ e _ => e.Lowers
  | .binary _ left right _ => left.Lowers ∧ right.Lowers

def AllLower : List Expr → Prop
  | [] => True
  | e :: es => e.Lowers ∧ AllLower es

end

/-- A relation without sources. -/
theorem noTopK_leaf {r : Ir.Relation} (h : NoTopK r) (hsources : r.sources = []) :
    r.Everywhere NoTopK := by
  refine .node h fun q hq => ?_
  rw [hsources] at hq
  exact absurd hq List.not_mem_nil

/-- A node on sources without a `TopK`. -/
theorem noTopK_one {r q : Ir.Relation} (h : NoTopK r) (hsources : r.sources = [q])
    (hq : q.Everywhere NoTopK) : r.Everywhere NoTopK := by
  refine .node h fun p hp => ?_
  rw [hsources, List.mem_singleton] at hp
  exact hp ▸ hq

theorem noTopK_two {r q q' : Ir.Relation} (h : NoTopK r) (hsources : r.sources = [q, q'])
    (hq : q.Everywhere NoTopK) (hq' : q'.Everywhere NoTopK) : r.Everywhere NoTopK := by
  refine .node h fun p hp => ?_
  rw [hsources, List.mem_cons, List.mem_singleton] at hp
  rcases hp with rfl | rfl
  · exact hq
  · exact hq'

mutual

theorem lowerExpr_keeps : ∀ e : Expr, e.Lowers → Keeps (lowerExpr e) fun _ => True
  | .identifier id t, _ => by
      rw [lowerExpr]
      exact currFieldSet_keeps.bind fun _ _ => (verify_keeps _ _).bind fun _ _ => .pure trivial
  | .value v t, _ => by
      rw [lowerExpr]
      exact .pure trivial
  | .fnCall f args t, h => by
      rw [lowerExpr]
      refine (lowerExprs_keeps args h).bind fun lowered _ => (verify_keeps _ _).bind fun _ _ => ?_
      split
      · exact .pure trivial
      · exact (addAnonymous_keeps _ _).bind fun _ _ => .pure trivial
  | .inMatch e matched f, h => by
      rw [lowerExpr]
      refine (addAnonymous_keeps _ _).bind fun outputId _ => ?_
      refine (lowerExpr_keeps e h.1).bind fun lowered _ => (verify_keeps _ _).bind fun _ _ => ?_
      refine h.2.bind fun matched hmatched => pullRelation_keeps.bind fun source hsource => ?_
      refine (Keeps.lift fun _ _ => trivial).bind fun schema (_ : True) => ?_
      have hjoin : (Ir.Relation.markJoin source matched lowered.1 outputId f schema).Everywhere
          NoTopK := noTopK_two trivial rfl hsource hmatched
      exact (setRelation_keeps hjoin).bind fun _ _ => .pure trivial
  | .like e regex t, h => by
      rw [lowerExpr]
      exact (lowerExpr_keeps e h).bind fun _ _ => .pure trivial
  | .binary type left right t, h => by
      rw [lowerExpr]
      exact (lowerExpr_keeps left h.1).bind fun _ _ => (lowerExpr_keeps right h.2).bind fun _ _ =>
        .pure trivial
  | .unary type e t, h => by
      rw [lowerExpr]
      exact (lowerExpr_keeps e h).bind fun _ _ => .pure trivial

theorem lowerExprs_keeps : ∀ es : List Expr, AllLower es → Keeps (lowerExprs es) fun _ => True
  | [], _ => by
      rw [lowerExprs]
      exact .pure trivial
  | e :: es, h => by
      rw [lowerExprs]
      exact (lowerExpr_keeps e h.1).bind fun _ _ => (lowerExprs_keeps es h.2).bind fun _ _ =>
        .pure trivial

end

theorem lowerRowExpr_keeps {e : Expr} (h : e.Lowers) : Keeps (lowerRowExpr e) fun _ => True :=
  (lowerExpr_keeps e h).bind fun _ _ => (verify_keeps _ _).bind fun _ _ => .pure trivial

theorem lowerRowExprs_keeps {es : List Expr} (h : AllLower es) :
    Keeps (lowerRowExprs es) fun _ => True :=
  (lowerExprs_keeps es h).bind fun _ _ => (verify_keeps _ _).bind fun _ _ => .pure trivial

/-! ### The parts of a relation -/

def Projector.Lowers : Projector → Prop
  | .expr _ e => e.Lowers
  | _ => True

/-- The expressions of a `SELECT`. -/
structure Select.Lowers (select : Select) : Prop where
  projectors : ∀ p ∈ select.projectors, p.Lowers
  whereCond : ∀ e ∈ select.whereCond, e.Lowers
  having : ∀ e ∈ select.having, e.Lowers
  orderBy : ∀ o ∈ select.orderBy, AllLower o.orderList
  groupBy : ∀ ps ∈ select.groupBy, ∀ p ∈ ps, p.Lowers

theorem fieldProjectors_keeps (ids : List FieldId) : Keeps (fieldProjectors ids) fun _ => True := by
  induction ids with
  | nil => exact .pure trivial
  | cons id ids ih =>
      exact ((typeOf_keeps id).bind fun _ _ => .pure trivial).bind fun _ (_ : True) =>
        ih.bind fun _ _ => .pure trivial

theorem setProjection_keeps (ps : List Ir.Projector) : Keeps (setProjection ps) fun _ => True :=
  (Keeps.lift fun _ _ => trivial).bind fun _ (_ : True) =>
    pullRelation_keeps.bind fun _ hsource => setRelation_keeps (noTopK_one trivial rfl hsource)

theorem lowerWhere_keeps {condition : Expr} (h : condition.Lowers) :
    Keeps (lowerWhere condition) fun _ => True := by
  refine currRelation_keeps.bind fun curr _ => scopedFieldSet_keeps ?_
  split
  · -- the whole condition is an `IN`
    refine h.2.bind fun matched hmatched => (verify_keeps _ _).bind fun _ _ => ?_
    refine (lowerRowExpr_keeps h.1).bind fun key _ => pullRelation_keeps.bind fun source hsource => ?_
    exact setRelation_keeps (noTopK_two trivial rfl hsource hmatched)
  · refine (lowerRowExpr_keeps h).bind fun _ _ => pullRelation_keeps.bind fun source hsource => ?_
    exact setRelation_keeps (noTopK_one trivial rfl hsource)

theorem lowerOrderBy_keeps {orderBy : OrderBy} (h : AllLower orderBy.orderList) :
    Keeps (lowerOrderBy orderBy) fun _ => True := by
  refine currRelation_keeps.bind fun curr _ => scopedFieldSet_keeps ?_
  refine (lowerRowExprs_keeps h).bind fun _ _ => currRelation_keeps.bind fun _ _ => ?_
  exact pullRelation_keeps.bind fun source hsource =>
    setRelation_keeps (noTopK_one trivial rfl hsource)

theorem lowerAggregates_keeps (select : Select) (aggregates : List Ir.Aggregate) :
    Keeps (lowerAggregates select aggregates) fun _ => True := by
  unfold lowerAggregates
  split
  · refine (verify_keeps _ _).bind fun _ _ => (verify_keeps _ _).bind fun _ _ => ?_
    refine (Keeps.lift fun _ _ => trivial).bind fun _ (_ : True) => ?_
    exact pullRelation_keeps.bind fun _ hsource =>
      setRelation_keeps (noTopK_one trivial rfl hsource)
  · exact verify_keeps _ _

theorem lowerLimit_keeps (limit : Int) : Keeps (lowerLimit limit) fun _ => True :=
  currRelation_keeps.bind fun _ _ => pullRelation_keeps.bind fun _ hsource =>
    setRelation_keeps (noTopK_one trivial rfl hsource)

theorem aliasProjectors_keeps (aliasName : String) (ids : List FieldId) :
    Keeps (aliasProjectors aliasName ids) fun _ => True := by
  induction ids with
  | nil => exact .pure trivial
  | cons id ids ih =>
      exact (nameOf_keeps id).bind fun _ _ => (typeOf_keeps id).bind fun _ _ =>
        (getOrAdd_keeps _ _).bind fun _ _ => ih.bind fun _ _ => .pure trivial

theorem lowerInput_keeps {source : Ir.Relation} (hsource : source.Everywhere NoTopK) {key : Expr}
    (hkey : key.Lowers) : Keeps (lowerInput source key) fun input => input.1.Everywhere NoTopK := by
  refine scopedRelation_keeps hsource (currRelation_keeps.bind fun curr _ => ?_)
  refine scopedFieldSet_keeps ((lowerRowExpr_keeps hkey).bind fun _ _ => ?_)
  exact pullRelation_keeps.bind fun input hinput => .pure hinput

theorem joinInputs_keeps {left right : Ir.Relation × Ir.Scalar × Schema}
    (hleft : left.1.Everywhere NoTopK) (hright : right.1.Everywhere NoTopK) :
    Keeps (joinInputs left right) fun r => r.Everywhere NoTopK := by
  refine (Keeps.lift fun _ _ => trivial).bind fun schema (_ : True) => ?_
  refine (Keeps.lift fun _ _ => trivial).bind fun outputSchema (_ : True) => ?_
  have hjoined : (Ir.Relation.leftJoin left.1 right.1 left.2.1 right.2.1 schema).Everywhere NoTopK :=
    noTopK_two trivial rfl hleft hright
  show Keeps (if schema = outputSchema then _ else _) _
  split
  · exact .pure hjoined
  · exact (fieldProjectors_keeps _).bind fun _ _ => .pure (noTopK_one trivial rfl hjoined)

section Select

variable [HashOrder]

mutual

theorem extractAggregates_keeps : ∀ e : Expr, e.Lowers →
    Keeps (extractAggregates e) fun extracted => extracted.expr.Lowers
  | .identifier id t, _ => by
      rw [extractAggregates]
      exact .pure trivial
  | .value v t, _ => by
      rw [extractAggregates]
      exact .pure trivial
  | .fnCall f args t, h => by
      rw [extractAggregates]
      split
      · refine (lowerExpr_keeps (.fnCall f args t) h).bind fun lowered _ => ?_
        obtain ⟨scalar, aggregates⟩ := lowered
        cases scalar with
        | field id u => exact .pure trivial
        | _ => exact .failed
      · exact (extractAll_keeps _ args h).bind fun extracted hargs => .pure hargs
  | .inMatch e matched f, h => by
      rw [extractAggregates]
      exact (extractAggregates_keeps e h.1).bind fun extracted he => .pure ⟨he, h.2⟩
  | .like e regex t, h => by
      rw [extractAggregates]
      exact (extractAggregates_keeps e h).bind fun extracted he => .pure he
  | .binary type left right t, h => by
      rw [extractAggregates]
      exact (extractAggregates_keeps left h.1).bind fun _ hl =>
        (extractAggregates_keeps right h.2).bind fun _ hr => .pure ⟨hl, hr⟩
  | .unary type e t, h => by
      rw [extractAggregates]
      exact (extractAggregates_keeps e h).bind fun extracted he => .pure he

theorem extractAll_keeps (fields : FieldSet) : ∀ es : List Expr, AllLower es →
    Keeps (extractAll fields es) fun extracted => AllLower extracted.expr
  | [], _ => by
      rw [extractAll]
      exact .pure trivial
  | e :: es, h => by
      rw [extractAll]
      exact (extractAggregates_keeps e h.1).bind fun _ he =>
        (extractAll_keeps _ es h.2).bind fun _ hes => .pure ⟨he, hes⟩

end

/-! ### The parts of a `SELECT` -/

theorem lowerProjectors_keeps (starFields : FieldSet) {ps : List Projector}
    (h : ∀ p ∈ ps, p.Lowers) : Keeps (lowerProjectors starFields ps) fun _ => True := by
  have hone : ∀ p : Projector, p.Lowers → Keeps (lowerProjector starFields p) fun _ => True := by
    intro p hp
    cases p with
    | star => exact (fieldProjectors_keeps _).bind fun _ _ => .pure trivial
    | identifier id =>
        exact ((typeOf_keeps id).bind fun _ _ => .pure trivial).bind fun _ (_ : True) =>
          .pure trivial
    | expr id e => exact (lowerExpr_keeps e hp).bind fun _ _ => .pure trivial
  induction ps with
  | nil => exact .pure trivial
  | cons p ps ih =>
      exact (hone p (h p List.mem_cons_self)).bind fun _ _ =>
        (ih fun q hq => h q (List.mem_cons_of_mem _ hq)).bind fun _ _ => .pure trivial

theorem addAllAsFieldScalars_keeps (fields : FieldSet) (ps : List Ir.Projector) :
    Keeps (addAllAsFieldScalars fields ps) fun _ => True :=
  (Keeps.lift fun _ _ => trivial).bind fun _ (_ : True) =>
    (fieldProjectors_keeps _).bind fun _ _ => .pure trivial

theorem prepareGroupKeys_keeps {groupList : List Projector} (h : ∀ p ∈ groupList, p.Lowers) :
    Keeps (prepareGroupKeys groupList) fun _ => True := by
  refine currRelation_keeps.bind fun curr _ => scopedFieldSet_keeps ?_
  refine (lowerProjectors_keeps _ h).bind fun _ _ => (verify_keeps _ _).bind fun _ _ => ?_
  refine (fieldProjectors_keeps _).bind fun _ _ => currRelation_keeps.bind fun _ _ => ?_
  exact (addAllAsFieldScalars_keeps _ _).bind fun _ _ => (setProjection_keeps _).bind fun _ _ =>
    .pure trivial

theorem lowerSelectOutput_keeps (ps : List Ir.Projector) {having : Option (Extracted Expr)}
    {orderBy : Option OrderBy} (hhaving : ∀ e ∈ having, e.expr.Lowers)
    (horderBy : ∀ o ∈ orderBy, AllLower o.orderList) :
    Keeps (lowerSelectOutput ps having orderBy) fun _ => True := by
  refine (fieldProjectors_keeps _).bind fun final _ => ?_
  refine (addAllAsFieldScalars_keeps _ _).bind fun _ _ => (setProjection_keeps _).bind fun _ _ => ?_
  refine (whenPresent_keeps fun h hh => lowerWhere_keeps (hhaving h hh)).bind fun _ _ => ?_
  refine (whenPresent_keeps fun o ho => lowerOrderBy_keeps (horderBy o ho)).bind fun _ _ => ?_
  split
  · exact setProjection_keeps _
  · exact .pure trivial

theorem extractHaving_keeps {having : Option Expr} (h : ∀ e ∈ having, e.Lowers) :
    Keeps (extractHaving having) fun having => ∀ e ∈ having, e.expr.Lowers := by
  cases having with
  | none => exact .pure fun e he => by cases he
  | some condition =>
      refine (extractAggregates_keeps condition (h _ rfl)).bind fun extracted hextracted => .pure ?_
      intro e he
      cases he
      exact hextracted

theorem lowerGroupedSelect_keeps {select : Select} (h : select.Lowers) {groupBy : List Projector}
    (hgroupBy : ∀ p ∈ groupBy, p.Lowers) :
    Keeps (lowerGroupedSelect select groupBy) fun _ => True := by
  refine (prepareGroupKeys_keeps hgroupBy).bind fun groupKeys _ => ?_
  refine (Keeps.lift fun _ _ => trivial).bind fun groupSchema (_ : True) => ?_
  refine currRelation_keeps.bind fun curr _ => scopedFieldSet_keeps ?_
  refine (lowerProjectors_keeps _ h.projectors).bind fun _ _ => ?_
  refine (extractHaving_keeps h.having).bind fun having hhaving => ?_
  refine (Keeps.lift fun _ _ => trivial).bind fun own (_ : True) => ?_
  refine (Keeps.lift fun _ _ => trivial).bind fun schema (_ : True) => ?_
  refine pullRelation_keeps.bind fun source hsource => ?_
  have hgroup : ∀ aggregates schema,
      (Ir.Relation.group source aggregates groupKeys schema).Everywhere NoTopK :=
    fun _ _ => noTopK_one trivial rfl hsource
  exact (setRelation_keeps (hgroup _ _)).bind fun _ _ =>
    lowerSelectOutput_keeps _ hhaving h.orderBy

theorem lowerUngroupedSelect_keeps {select : Select} (h : select.Lowers) (sourceFields : FieldSet) :
    Keeps (lowerUngroupedSelect select sourceFields) fun _ => True := by
  refine currRelation_keeps.bind fun curr _ => scopedFieldSet_keeps ?_
  refine (lowerProjectors_keeps _ h.projectors).bind fun _ _ => ?_
  refine (lowerAggregates_keeps _ _).bind fun _ _ => ?_
  exact lowerSelectOutput_keeps _ (fun e he => by cases he) h.orderBy

theorem lowerSelected_keeps {select : Select} (h : select.Lowers) (sourceFields : FieldSet) :
    Keeps (lowerSelected select sourceFields) fun _ => True := by
  unfold lowerSelected
  split
  · exact lowerGroupedSelect_keeps h (h.groupBy _ ‹_›)
  · exact lowerUngroupedSelect_keeps h sourceFields

theorem lowerSelect_keeps {source : Ir.Relation} (hsource : source.Everywhere NoTopK)
    {select : Select} (h : select.Lowers) :
    Keeps (lowerSelect source select) fun r => r.Everywhere NoTopK := by
  refine scopedRelation_keeps hsource (currRelation_keeps.bind fun curr _ => ?_)
  refine (whenPresent_keeps fun e he => lowerWhere_keeps (h.whereCond e he)).bind fun _ _ => ?_
  refine (lowerSelected_keeps h _).bind fun _ _ => ?_
  refine (whenPresent_keeps fun n _ => lowerLimit_keeps n).bind fun _ _ => ?_
  exact pullRelation_keeps

/-! ### Relations -/

mutual

/-- **A bound relation is lowered without a `TopK`.** -/
theorem lowerRelation_keeps : ∀ r : Bound.Relation,
    Keeps (lowerRelation r) fun r => r.Everywhere NoTopK
  | .adhoc values id _ => by
      rw [lowerRelation]
      exact (Keeps.lift fun _ _ => trivial).bind fun _ (_ : True) =>
        .pure (noTopK_leaf trivial rfl)
  | .select projectors source limit whereCond having orderList orderDesc groupList aggregate _ => by
      rw [lowerRelation]
      refine (lowerRelation_keeps source).bind fun source hsource => lowerSelect_keeps hsource ?_
      exact {
        projectors := projectorsOf_lower projectors
        whereCond := exprOptionOf_lowers whereCond
        having := exprOptionOf_lowers having
        orderBy := orderByOf_lowers orderDesc orderList
        groupBy := projectorsOptionOf_lower groupList }
  | .aliased aliasName source _ => by
      rw [lowerRelation]
      refine (lowerRelation_keeps source).bind fun source hsource => ?_
      refine (aliasProjectors_keeps _ _).bind fun projectors _ => ?_
      exact (Keeps.lift fun _ _ => trivial).bind fun _ (_ : True) =>
        .pure (noTopK_one trivial rfl hsource)
  | .leftJoin left right leftKey rightKey _ => by
      rw [lowerRelation]
      refine (lowerRelation_keeps left).bind fun left hleft => ?_
      refine (lowerInput_keeps hleft (exprOf_lowers leftKey)).bind fun left hleft => ?_
      refine (lowerRelation_keeps right).bind fun right hright => ?_
      refine (lowerInput_keeps hright (exprOf_lowers rightKey)).bind fun right hright => ?_
      exact joinInputs_keeps hleft hright
  | .unionAll left right _ => by
      rw [lowerRelation]
      refine (lowerRelation_keeps left).bind fun left hleft => ?_
      refine (lowerRelation_keeps right).bind fun right hright => ?_
      exact (verify_keeps _ _).bind fun _ _ => .pure (noTopK_two trivial rfl hleft hright)
  | .unionAllSortedBy left right orderList desc _ => by
      rw [lowerRelation]
      refine (lowerRelation_keeps left).bind fun left hleft => ?_
      refine (lowerRelation_keeps right).bind fun right hright => ?_
      refine (verify_keeps _ _).bind fun _ _ => scopedFieldSet_keeps ?_
      exact (lowerRowExprs_keeps (exprsOf_lower orderList)).bind fun _ _ =>
        .pure (noTopK_two trivial rfl hleft hright)
  | .file path range timeFormat fieldsOut => by
      rw [lowerRelation]
      exact (fieldsOf_keeps fieldsOut).bind fun _ _ => .pure (noTopK_leaf trivial rfl)
  | .stream command fieldsOut => by
      rw [lowerRelation]
      exact (fieldsOf_keeps fieldsOut).bind fun _ _ => .pure (noTopK_leaf trivial rfl)
  | .namedRelationReference name _ => by
      rw [lowerRelation]
      exact (find_keeps name).bind fun _ _ => .pure (noTopK_leaf trivial rfl)
  | .materialize relation _ => by
      rw [lowerRelation]
      exact (lowerRelation_keeps relation).bind fun _ hsource =>
        .pure (noTopK_one trivial rfl hsource)

theorem exprOf_lowers : ∀ e : Bound.Expr, (exprOf e).Lowers
  | .identifier _ _ => trivial
  | .value _ _ => trivial
  | .inMatch e matched _ _ => ⟨exprOf_lowers e, lowerRelation_keeps matched⟩
  | .fnCall _ args _ => exprsOf_lower args
  | .like e _ _ => exprOf_lowers e
  | .binary _ left right _ => ⟨exprOf_lowers left, exprOf_lowers right⟩
  | .unary _ e _ => exprOf_lowers e

theorem exprsOf_lower : ∀ es : List Bound.Expr, AllLower (exprsOf es)
  | [] => trivial
  | e :: es => ⟨exprOf_lowers e, exprsOf_lower es⟩

theorem exprOptionOf_lowers : ∀ e : Option Bound.Expr, ∀ e' ∈ exprOptionOf e, e'.Lowers
  | none, _, h => by cases h
  | some e, _, h => by
      cases h
      exact exprOf_lowers e

theorem orderByOf_lowers (desc : Bool) : ∀ es : Option (List Bound.Expr),
    ∀ o ∈ orderByOf desc es, AllLower o.orderList
  | none, _, h => by cases h
  | some es, _, h => by
      cases h
      exact exprsOf_lower es

theorem projectorOf_lowers : ∀ p : Bound.Projector, (projectorOf p).Lowers
  | .star => trivial
  | .identifier _ => trivial
  | .expr _ e => exprOf_lowers e

theorem projectorsOf_lower : ∀ ps : List Bound.Projector, ∀ p ∈ projectorsOf ps, p.Lowers
  | [], _, h => absurd h List.not_mem_nil
  | p :: ps, q, h => by
      rw [projectorsOf, List.mem_cons] at h
      rcases h with rfl | h
      · exact projectorOf_lowers p
      · exact projectorsOf_lower ps q h

theorem projectorsOptionOf_lower : ∀ ps : Option (List Bound.Projector),
    ∀ ps' ∈ projectorsOptionOf ps, ∀ p ∈ ps', p.Lowers
  | none, _, h => by cases h
  | some ps, _, h => by
      cases h
      exact projectorsOf_lower ps

end

end Select

end Lsql.Front.Lower
