import Lsql.Front.LowerColumns
import Lsql.Ir.Deliveries

/-!
# Lsql.Front.Meaning

What a bound query asks for.

An expression is worth something on a row, and where it aggregates on a list of rows as well
(`Evaluator`). A `SELECT` is read in the order of its clauses: the rows of the source for which the
condition is true, a unit for each of them or for each group (`Units`), the columns of the list for each
unit, the units for which the `HAVING` is true, in the order of the `ORDER BY`, the first of them.
Hidden columns, mark joins and fields for aggregates have no place in it. Rows are read by their columns
only; what else they hold does not matter.

An expression has as many meanings as the relations in its `IN`s have answers.
-/

namespace Lsql.Front.Bound

open Ir (Row)

/-- What an expression is worth on a row; an aggregate is computed over rows. -/
abbrev Evaluator := Row → List Row → Except Fault Value

/-- A column of a select list. -/
abbrev ColumnMeaning := FieldId × Evaluator

/-- What a query is asked over: what can be read, the fields, those that are required of the files, and
the columns of the relations that have been named. -/
structure World where
  env : Ir.Env
  binding : FieldBinding
  openFields : List FieldSet
  schemaOf : String → Option Schema

/-- The columns of a relation. -/
def World.Columns [HashOrder] (w : World) (r : Relation) (ids : List FieldId) : Prop :=
  Lower.Slots w.binding w.openFields w.schemaOf r ids

/-! ### Expressions -/

/-- The value of a field. -/
def fieldValue (id : FieldId) : Evaluator := fun row _ => .ok (row id)

section Evaluators

variable [Platform]

/-- A function of expressions. -/
def applied (f : Function) (args : List Evaluator) : Evaluator := fun row rows => do
  let vs ← args.mapM fun arg => arg row rows
  f.apply vs

/-- What an aggregate is fed for a row; `COUNT(*)` has no argument. -/
def argument (args : List Evaluator) (row : Row) : Except Fault Value :=
  match args with
  | [] => .ok .null
  | arg :: _ => arg row []

/-- An aggregate, which is fed one row after another. -/
def aggregated (f : Function) (args : List Evaluator) : Evaluator := fun _ rows => do
  let start ← buildAggregate f
  let state ← rows.foldlM (fun state row => argument args row >>= state.feed) start
  state.get

/-- A call. -/
def called (f : Function) (args : List Evaluator) : Evaluator :=
  if f.isScalar then applied f args else aggregated f args

/-- An `IN` among values. Without values it is false, whatever is looked for. -/
def foundIn (values : List Value) (e : Evaluator) : Evaluator := fun row rows =>
  if values.isEmpty then .ok (.boolean false)
  else do
    let v ← e row rows
    pure (.boolean (Ir.isMatch values v))

end Evaluators

/-! ### The clauses of a `SELECT` -/

/-- What an entry of a select list is worth, by what its expression is worth. A star is no column. -/
inductive EntryOf (D : Expr → Evaluator → Prop) : Projector → Option ColumnMeaning → Prop
  | star : EntryOf D .star none
  | identifier {id : FieldId} : EntryOf D (.identifier id) (some (id, fieldValue id))
  | expr {id : FieldId} {e : Expr} {ev : Evaluator} : D e ev → EntryOf D (.expr id e) (some (id, ev))

/-- The columns of a select list. A star has the columns that it stands for in any order. -/
inductive Expands (star : List FieldId) : List (Option ColumnMeaning) → List ColumnMeaning → Prop
  | nil : Expands star [] []
  | star {ids : List FieldId} {entries : List (Option ColumnMeaning)} {cols : List ColumnMeaning} :
      ids.Perm star → Expands star entries cols →
      Expands star (none :: entries) (ids.map (fun id => (id, fieldValue id)) ++ cols)
  | column {c : ColumnMeaning} {entries : List (Option ColumnMeaning)} {cols : List ColumnMeaning} :
      Expands star entries cols → Expands star (some c :: entries) (c :: cols)

/-- Rows with the columns of others. -/
def Shows (ids : List FieldId) (given rows : List Row) : Prop :=
  List.Forall₂ (fun row row' => ∀ id ∈ ids, row' id = row id) given rows

theorem Shows.refl (ids : List FieldId) (rows : List Row) : Shows ids rows rows :=
  List.forall₂_same.mpr fun _ _ _ _ => rfl

theorem Shows.symm {ids : List FieldId} {given rows : List Row} (h : Shows ids given rows) :
    Shows ids rows given :=
  List.Forall₂.flip (h.imp fun _ _ hrow id hid => (hrow id hid).symm)

theorem Shows.mono {ids ids' : List FieldId} {given rows : List Row}
    (hids : ∀ id ∈ ids, id ∈ ids') (h : Shows ids' given rows) : Shows ids given rows :=
  h.imp fun _ _ hrow id hid => hrow id (hids id hid)

theorem Shows.trans {ids ids' : List FieldId} {given rows rows' : List Row}
    (hids : ∀ id ∈ ids, id ∈ ids') (h : Shows ids given rows) (h' : Shows ids' rows rows') :
    Shows ids given rows' := by
  induction h generalizing rows' with
  | nil =>
      cases h'
      exact .nil
  | cons hrow _ ih =>
      cases h' with
      | cons hrow' hrows' =>
          exact .cons (fun id hid => (hrow' id (hids id hid)).trans (hrow id hid)) (ih hrows')

/-- A row with the values of columns, and with some fields of another row where it has no such
column. -/
def Overlays (cols : List ColumnMeaning) (fields : List FieldId) (unit : Row × List Row) (row : Row) :
    Prop :=
  (∀ c ∈ cols, c.2 unit.1 unit.2 = .ok (row c.1)) ∧
    ∀ id ∈ fields, id ∉ cols.map Prod.fst → row id = unit.1 id

/-- What the rows of a `SELECT` are made from: a row with the rows that aggregates are over. In a group
the rows hold its keys, and the columns of the source that no key hides. -/
inductive Units (ids : List FieldId) (rows : List Row) :
    Option (List ColumnMeaning) → Bool → List (Row × List Row) → Prop
  | rows : Units ids rows none false (rows.map fun row => (row, []))
  | all {row : Row} : Units ids rows none true [(row, rows)]
  | groups {keys : List ColumnMeaning} {aggregate : Bool} {extended : List Row}
      {gs : List (List Value × List Row)} {units : List (Row × List Row)} :
      List.Forall₂ (fun row row' => Overlays keys ids (row, []) row') rows extended →
      Flow.IsGrouping Ir.equalKeys (fun row => (keys.map Prod.fst).map row) extended gs →
      List.Forall₂ (fun g unit => (keys.map Prod.fst).map unit.1 = g.1 ∧ unit.2 = g.2) gs units →
      Units ids rows (some keys) aggregate units

/-- The columns that a star stands for: those of the source, or the keys of a `GROUP BY`. -/
def visible (ids : List FieldId) : Option (List ColumnMeaning) → List FieldId
  | none => ids
  | some keys => keys.map Prod.fst

section Clauses

variable {α : Type}

/-- The elements for which a condition is true, if there is one. -/
def Kept : Option (α → Except Fault Value) → List α → List α → Prop
  | none, as, bs => bs = as
  | some condition, as, bs => Keeps condition as bs

/-- The elements in the order of keys, if there are any. -/
def InOrder (desc : Bool) : Option (α → Except Fault (List Value)) → List α → List α → Prop
  | none, as, bs => bs = as
  | some key, as, bs => SortedBy key desc as bs

/-- Elements that correspond are kept alike. -/
theorem Kept.transfer {β : Type} {R : α → β → Prop} {c : Option (α → Except Fault Value)}
    {as as' : List α} {bs : List β} (h : Kept c as as') (c' : Option (β → Except Fault Value))
    (hc : Option.Rel (fun c c' => ∀ a b v, R a b → c a = .ok v → c' b = .ok v) c c')
    (hR : List.Forall₂ R as bs) : ∃ bs', Kept c' bs bs' ∧ List.Forall₂ R as' bs' := by
  cases hc with
  | none =>
      cases h
      exact ⟨bs, rfl, hR⟩
  | some hc => exact Keeps.transfer h hR hc

theorem InOrder.transfer {β : Type} {R : α → β → Prop} {desc : Bool}
    {key : Option (α → Except Fault (List Value))} {as as' : List α} {bs : List β}
    (h : InOrder desc key as as') (key' : Option (β → Except Fault (List Value)))
    (hkey : Option.Rel (fun key key' => ∀ a b k, R a b → key a = .ok k → key' b = .ok k) key key')
    (hR : List.Forall₂ R as bs) : ∃ bs', InOrder desc key' bs bs' ∧ List.Forall₂ R as' bs' := by
  cases hkey with
  | none =>
      cases h
      exact ⟨bs, rfl, hR⟩
  | some hkey => exact SortedBy.transfer h hR hkey

/-- The first elements, if there is a limit. -/
def limited : Option Int → List α → List α
  | none, as => as
  | some n, as => as.take n.toNat

end Clauses

/-- The keys of an `ORDER BY`, which has no aggregates. -/
def orderKeys (evs : List Evaluator) (unit : Row × List Row) : Except Fault (List Value) :=
  evs.mapM fun ev => ev unit.1 []

/-- What a `SELECT` makes of the rows for which its `WHERE` is true. -/
def Selected (ids : List FieldId) (keys : Option (List ColumnMeaning)) (aggregate : Bool)
    (cols : List ColumnMeaning) (having : Option Evaluator) (orderBy : Option (List Evaluator))
    (desc : Bool) (limit : Option Int) (kept rows : List Row) : Prop :=
  ∃ read units outs chosen ordered, Shows ids kept read ∧ Units ids read keys aggregate units ∧
    List.Forall₂ (fun unit out => Overlays cols (visible ids keys) unit out.1 ∧ out.2 = unit.2)
      units outs ∧
    Kept (having.map fun ev out => ev out.1 out.2) outs chosen ∧
    InOrder desc (orderBy.map orderKeys) chosen ordered ∧
    List.Forall₂ (fun out row => ∀ c ∈ cols, row c.1 = out.1 c.1) (limited limit ordered) rows

/-! ### Relations -/

section Relations

variable [HashOrder] [Platform]

mutual

/-- What an expression may be worth. -/
inductive Denotes (w : World) : Expr → Evaluator → Prop
  | identifier {id : FieldId} {info : BoundExprInfo} :
      Denotes w (.identifier id info) (fieldValue id)
  | value {v : Value} {info : BoundExprInfo} : Denotes w (.value v info) fun _ _ => .ok v
  | inMatch {e : Expr} {matched : Relation} {f : FieldId} {info : BoundExprInfo} {ev : Evaluator}
      {rows : List Row} :
      Denotes w e ev → Returns w matched rows →
      Denotes w (.inMatch e matched f info) (foundIn (rows.map fun row => row f) ev)
  | fnCall {f : Function} {args : List Expr} {info : BoundExprInfo} {evs : List Evaluator} :
      List.Forall₂ (Denotes w) args evs → Denotes w (.fnCall f args info) (called f evs)
  | like {e : Expr} {regex : Bytes} {info : BoundExprInfo} {ev : Evaluator} :
      Denotes w e ev → Denotes w (.like e regex info) (applied (.like regex) [ev])
  | binary {type : BinaryExprType} {left right : Expr} {info : BoundExprInfo} {l r : Evaluator} :
      Denotes w left l → Denotes w right r →
      Denotes w (.binary type left right info) (applied (binaryFunction type left.valueType) [l, r])
  | unary {type : UnaryExprType} {e : Expr} {info : BoundExprInfo} {ev : Evaluator} :
      Denotes w e ev → Denotes w (.unary type e info) (applied (unaryFunction type) [ev])

/-- The rows that a relation may answer with. -/
inductive Returns (w : World) : Relation → List Row → Prop
  | adhoc {values : List Value} {id : FieldId} {f : RelationFieldSet} {rows : List Row} :
      List.Forall₂ (fun v row => row id = v) values rows → Returns w (.adhoc values id f) rows
  | select {projectors : List Projector} {source : Relation} {limit : Option Int}
      {whereCond having : Option Expr} {orderList : Option (List Expr)} {desc : Bool}
      {groupList : Option (List Projector)} {aggregate : Bool} {f : RelationFieldSet}
      {given kept rows : List Row} {ids : List FieldId} {condition havingMeaning : Option Evaluator}
      {keyEntries : Option (List (Option ColumnMeaning))} {keys : Option (List ColumnMeaning)}
      {entries : List (Option ColumnMeaning)} {cols : List ColumnMeaning}
      {orderBy : Option (List Evaluator)} :
      Returns w source given → w.Columns source ids →
      Option.Rel (Denotes w) whereCond condition →
      Kept (condition.map fun ev row => ev row []) given kept →
      Option.Rel (List.Forall₂ (EntryOf (Denotes w))) groupList keyEntries →
      Option.Rel (Expands ids) keyEntries keys →
      List.Forall₂ (EntryOf (Denotes w)) projectors entries →
      Expands (visible ids keys) entries cols →
      Option.Rel (Denotes w) having havingMeaning →
      Option.Rel (List.Forall₂ (Denotes w)) orderList orderBy →
      Selected ids keys aggregate cols havingMeaning orderBy desc limit kept rows →
      Returns w (.select projectors source limit whereCond having orderList desc groupList aggregate
        f) rows
  | aliased {aliasName : String} {source : Relation} {f : RelationFieldSet} {given rows : List Row}
      {ids ids' : List FieldId} :
      Returns w source given → w.Columns source ids →
      List.Forall₂ (Lower.AliasOf w.binding aliasName) ids ids' →
      List.Forall₂ (fun row row' => List.Forall₂ (fun id id' => row' id' = row id) ids ids') given rows →
      Returns w (.aliased aliasName source f) rows
  | leftJoin {left right : Relation} {leftKey rightKey : Expr} {f : RelationFieldSet}
      {ls rs rows : List Row} {ids ids' : List FieldId} {lk rk : Evaluator}
      {lefts rights : List (Row × Value)} :
      Returns w left ls → Returns w right rs → w.Columns left ids → w.Columns right ids' →
      Denotes w leftKey lk → Denotes w rightKey rk →
      Keyed (fun row => lk row []) ls lefts → Keyed (fun row => rk row []) rs rights →
      List.Forall₂ (fun pair row => (∀ id ∈ ids, row id = pair.1 id) ∧
        ∀ id ∈ ids', row id = pair.2.getD (fun _ => .null) id) (lefts.flatMap (leftPairs rights)) rows →
      Returns w (.leftJoin left right leftKey rightKey f) rows
  | unionAll {left right : Relation} {f : RelationFieldSet} {ls rs rows : List Row} :
      Returns w left ls → Returns w right rs → Flow.Shuffle [ls, rs] rows →
      Returns w (.unionAll left right f) rows
  | unionAllSortedBy {left right : Relation} {orderList : List Expr} {desc : Bool}
      {f : RelationFieldSet} {ls rs rows : List Row} {evs : List Evaluator} :
      Returns w left ls → Returns w right rs → List.Forall₂ (Denotes w) orderList evs →
      MergedBy (fun row => evs.mapM fun ev => ev row []) desc ls rs rows →
      Returns w (.unionAllSortedBy left right orderList desc f) rows
  | file {path : String} {range : Option Plan.TimeRange} {timeFormat : Option TimeFormat} {cell : Nat}
      {fields : FieldSet} {given rows : List Row} :
      w.openFields[cell]? = some fields →
      w.env.file path range timeFormat (.fromFieldSet fields) = Ir.intact given →
      Shows fields.fieldIds given rows → Returns w (.file path range timeFormat (.opened cell)) rows
  | stream {command : String} {cell : Nat} {fields : FieldSet} {given rows : List Row} :
      w.openFields[cell]? = some fields →
      w.env.stream command (.fromFieldSet fields) = Ir.intact given →
      Shows fields.fieldIds given rows → Returns w (.stream command (.opened cell)) rows
  | reference {name : String} {f : RelationFieldSet} {schema : Schema} {given rows : List Row} :
      w.schemaOf name = some schema → w.env.named name (Ir.intact given) →
      Shows schema.fields given rows → Returns w (.namedRelationReference name f) rows
  | materialize {relation : Relation} {f : RelationFieldSet} {rows : List Row} :
      Returns w relation rows → Returns w (.materialize relation f) rows

end

/-! ### Programs -/

omit [HashOrder] [Platform] in
/-- The world behind a relation that has been named: all references to it read the same rows. -/
def World.define (w : World) (name : String) (schema : Schema) (rows : List Row) : World :=
  { w with
    env := { w.env with named := Function.update w.env.named name fun v => v = Ir.intact rows }
    schemaOf := Function.update w.schemaOf name (some schema) }

/-- What statements may answer with: the rows of each query, in the order of the queries. -/
inductive Answers : World → List Statement → List (List Row) → Prop
  | nil {w : World} : Answers w [] []
  | namedRelation {w : World} {name : String} {r : Relation} {schema : Schema} {rows : List Row}
      {statements : List Statement} {answers : List (List Row)} :
      Returns w r rows → w.Columns r schema.fields →
      Answers (w.define name schema rows) statements answers →
      Answers w (.namedRelation name r :: statements) answers
  | query {w : World} {r : Relation} {rows : List Row} {statements : List Statement}
      {answers : List (List Row)} :
      Returns w r rows → Answers w statements answers →
      Answers w (.query r :: statements) (rows :: answers)

end Relations

end Lsql.Front.Bound
