import Lsql.Front.LowerTyped
import Lsql.Front.Meaning

/-!
# Lsql.Front.LowerFollows

The rows of the current relation are followed through the lowering.

An expression may put mark joins on the current relation. The rows have the same columns before and
behind a join, so that what is said of all rows with the columns of rows that a relation delivers
(`Pool`) holds of the rows of whatever is put on it as well (`Over`).

Where no current relation is followed, a computation does not touch the one that there is (`Leads`).
What depends on fields that are only given later on is said of the binding at the end (`Finally`).
-/

namespace Lsql.Front.Lower

open Bound (World Shows)
open Ir (Row Delivers)

/-! ### Rows -/

section Pools

variable [Platform] {env : Ir.Env} {r q p m : Ir.Relation} {rows : List Row}

/-- Rows with the columns of rows that a relation delivers. -/
def Pool (env : Ir.Env) (r : Ir.Relation) (rows : List Row) : Prop :=
  ∃ given, Delivers env r given ∧ Shows r.schema.fields given rows

theorem Pool.of_delivers (h : Delivers env r rows) : Pool env r rows := ⟨rows, h, .refl _ _⟩

/-- A relation with the columns of another one, and more of them. -/
structure Over (env : Ir.Env) (r q : Ir.Relation) : Prop where
  fields : ∀ id ∈ r.schema.fields, id ∈ q.schema.fields
  rows : ∀ rows, Pool env q rows → Pool env r rows

theorem Over.refl (env : Ir.Env) (r : Ir.Relation) : Over env r r := ⟨fun _ h => h, fun _ h => h⟩

theorem Over.trans (h : Over env r q) (h' : Over env q p) : Over env r p :=
  ⟨fun id hid => h'.fields id (h.fields id hid), fun rows hrows => h.rows rows (h'.rows rows hrows)⟩

/-- A mark join adds its column. -/
theorem over_markJoin {e : Ir.Scalar} {o f : FieldId} {schema : Schema}
    (hschema : r.schema.append o = .ok schema) : Over env r (.markJoin r m e o f schema) := by
  obtain ⟨hfresh, hfields⟩ := Schema.append_eq_ok.mp hschema
  have hmem : ∀ id ∈ r.schema.fields, id ∈ schema.fields := fun id hid => by
    rw [hfields]
    exact List.mem_append_left _ hid
  refine ⟨hmem, fun rows hrows => ?_⟩
  obtain ⟨marked, hmarked, hshows⟩ := hrows
  obtain ⟨given, matched, hgiven, -, hjoined⟩ := Ir.delivers_markJoin hmarked
  refine ⟨given, hgiven, Shows.trans hmem (hjoined.imp fun row row' hrow id hid => ?_) hshows⟩
  obtain ⟨v, -, rfl⟩ := hrow
  have hne : id ≠ o := fun heq => hfresh (heq ▸ hid)
  exact Function.update_of_ne hne _ _

/-- Rows of the current relation, if it is followed. -/
def Drawn (env : Ir.Env) : Option Ir.Relation → List Row → Prop
  | none, _ => True
  | some r, rows => Pool env r rows

/-- What is put on the current relation. -/
abbrev Onto (env : Ir.Env) : Option Ir.Relation → Option Ir.Relation → Prop := Option.Rel (Over env)

theorem onto_refl (env : Ir.Env) (t : Option Ir.Relation) : Onto env t t := by
  cases t with
  | none => exact .none
  | some r => exact .some (.refl env r)

variable {t t' t'' : Option Ir.Relation}

theorem Onto.trans (h : Onto env t t') (h' : Onto env t' t'') : Onto env t t'' := by
  cases h with
  | none =>
      cases h'
      exact .none
  | some h =>
      cases h' with
      | some h' => exact .some (h.trans h')

theorem Onto.drawn (h : Onto env t t') (hrows : Drawn env t' rows) : Drawn env t rows := by
  cases h with
  | none => trivial
  | some h => exact h.rows rows hrows

/-- Fields of the current relation, if it is followed. -/
def Within (fields : FieldSet) (t : Option Ir.Relation) : Prop :=
  ∀ r, t = some r → ∀ id ∈ fields, id ∈ r.schema.fields

theorem Within.onto {fields : FieldSet} (h : Within fields t) (ht : Onto env t t') :
    Within fields t' := by
  rintro q rfl id hid
  cases ht with
  | some hover => exact hover.fields id (h _ rfl id hid)

theorem Onto.eq_none (h : Onto env t t') (ht : t' = none) : t = none := by
  subst ht
  cases h
  rfl

end Pools

/-! ### States -/

/-- A state of the lowering over what a world holds, behind a binding, with fields in scope and a current
relation, which may be left open. -/
structure Follows (w : World) (b : FieldBinding) (fields : Option FieldSet) (t : Option Ir.Relation)
    (s : LowerState) : Prop where
  binding : b.entries <+: s.binding.entries
  opened : s.openFields = w.openFields
  named : s.schemaOf = w.schemaOf
  fields : s.currFieldSet = fields
  curr : ∀ r, t = some r → s.currRelation = some r

/-- What a computation does to the current relation, and what it returns. -/
def Leads {α : Type} (w : World) (b : FieldBinding) (fields : Option FieldSet)
    (t : Option Ir.Relation) (x : Lowerer α) (Q : FieldBinding → Option Ir.Relation → α → Prop) :
    Prop :=
  ∀ s a s', Follows w b fields t s → x s = .ok (a, s') →
    s.binding.entries <+: s'.binding.entries ∧ ∃ t', Follows w b fields t' s' ∧
      (t = none → t' = none ∧ s'.currRelation = s.currRelation) ∧ Q s'.binding t' a

/-- What holds if no other fields are added than those that the world has. -/
def Finally (w : World) (b : FieldBinding) (P : Prop) : Prop :=
  b.entries <+: w.binding.entries → P

section Rules

variable {α β : Type} {w : World} {b b' b'' : FieldBinding} {fields : Option FieldSet}
  {t : Option Ir.Relation} {x : Lowerer α} {f : α → Lowerer β}
  {P P' : FieldBinding → Option Ir.Relation → α → Prop}
  {Q : FieldBinding → Option Ir.Relation → β → Prop}

theorem Finally.before {P : Prop} (h : Finally w b' P) (hb : b'.entries <+: b''.entries) :
    Finally w b'' P := fun hfinal => h (hb.trans hfinal)

namespace Leads

theorem pure {a : α} (h : ∀ b', P b' t a) : Leads w b fields t (Pure.pure a) P := by
  intro s a' s' hs hrun
  cases hrun
  exact ⟨List.prefix_refl _, t, hs, fun ht => ⟨ht, rfl⟩, h _⟩

theorem bind (hx : Leads w b fields t x P)
    (hf : ∀ a t' b', P b' t' a →
      Leads w b fields t' (f a) fun b'' t'' y => b'.entries <+: b''.entries → Q b'' t'' y) :
    Leads w b fields t (x >>= f) Q := by
  intro s y s' hs hrun
  obtain ⟨a, u, ha, hy⟩ := lowerer_bind_ok.mp hrun
  obtain ⟨hgrows, t', hu, hnone, hP⟩ := hx s a u hs ha
  obtain ⟨hgrows', t'', hs', hnone', hQ⟩ := hf a t' _ hP u y s' hu hy
  refine ⟨hgrows.trans hgrows', t'', hs', fun ht => ?_, hQ hgrows'⟩
  obtain ⟨ht', hcurr⟩ := hnone ht
  obtain ⟨ht'', hcurr'⟩ := hnone' ht'
  exact ⟨ht'', hcurr'.trans hcurr⟩

theorem mono (hx : Leads w b fields t x P) (h : ∀ b' t' a, P b' t' a → P' b' t' a) :
    Leads w b fields t x P' := by
  intro s a s' hs hrun
  obtain ⟨hgrows, t', hs', hnone, hP⟩ := hx s a s' hs hrun
  exact ⟨hgrows, t', hs', hnone, h _ _ _ hP⟩

/-- What is known of the runs from other reasons. -/
theorem also {R : FieldBinding → α → Prop} (hx : Leads w b fields t x P)
    (h : ∀ s a s', s.openFields = w.openFields → s.schemaOf = w.schemaOf → x s = .ok (a, s') →
      R s'.binding a) : Leads w b fields t x fun b' t' a => P b' t' a ∧ R b' a := by
  intro s a s' hs hrun
  obtain ⟨hgrows, t', hs', hnone, hP⟩ := hx s a s' hs hrun
  exact ⟨hgrows, t', hs', hnone, hP, h s a s' hs.opened hs.named hrun⟩

/-- What does not need the current relation leaves it as it is. -/
theorem frame {R : FieldBinding → α → Prop} (hx : Leads w b fields none x fun b' _ a => R b' a) :
    Leads w b fields t x fun b' t' a => t' = t ∧ R b' a := by
  intro s a s' hs hrun
  have hopen : Follows w b fields none s :=
    ⟨hs.binding, hs.opened, hs.named, hs.fields, fun r hr => by cases hr⟩
  obtain ⟨hgrows, t', hs', hnone, hR⟩ := hx s a s' hopen hrun
  obtain ⟨-, hcurr⟩ := hnone rfl
  refine ⟨hgrows, t, ⟨hs'.binding, hs'.opened, hs'.named, hs'.fields, fun r hr => ?_⟩,
    fun ht => ⟨ht, hcurr⟩, rfl, hR⟩
  rw [hcurr]
  exact hs.curr r hr

/-- The same with something else behind it. -/
theorem frameBind {R : FieldBinding → α → Prop}
    (hx : Leads w b fields none x fun b' _ a => R b' a)
    (hf : ∀ a b', R b' a →
      Leads w b fields t (f a) fun b'' t'' y => b'.entries <+: b''.entries → Q b'' t'' y) :
    Leads w b fields t (x >>= f) Q := by
  refine hx.frame.bind fun a t' b' ha => ?_
  obtain ⟨rfl, ha⟩ := ha
  exact hf a b' ha

theorem lift {y : Except Fault α} (h : ∀ a b', y = .ok a → P b' t a) :
    Leads w b fields t (liftM y) P := by
  intro s a s' hs hrun
  obtain ⟨hy, rfl⟩ := lift_ok hrun
  exact ⟨List.prefix_refl _, t, hs, fun ht => ⟨ht, rfl⟩, h a _ hy⟩

/-- Code that does not touch the context, and something else behind it. -/
theorem liftBind {y : Except Fault α} (hf : ∀ a, y = .ok a → Leads w b fields t (f a) Q) :
    Leads w b fields t (liftM y >>= f) Q := by
  intro s z s' hs hrun
  obtain ⟨a, u, ha, hz⟩ := lowerer_bind_ok.mp hrun
  obtain ⟨hy, rfl⟩ := lift_ok ha
  exact hf a hy u z s' hs hz

theorem failed {e : Fault} : Leads w b fields t (throw e : Lowerer α) P := by
  intro s a s' _ hrun
  cases hrun

/-- Code that only reads the context. -/
theorem reading (h : ∀ s a s', Follows w b fields t s → x s = .ok (a, s') →
    s' = s ∧ P s.binding t a) : Leads w b fields t x P := by
  intro s a s' hs hrun
  obtain ⟨rfl, hP⟩ := h s a s' hs hrun
  exact ⟨List.prefix_refl _, t, hs, fun ht => ⟨ht, rfl⟩, hP⟩

end Leads

/-! ### The context -/

theorem currFieldSet_leads {fields : FieldSet} : Leads w b (some fields) t currFieldSet
    fun _ t' a => t' = t ∧ a = fields := by
  refine .reading fun s a s' hs hrun => ?_
  unfold currFieldSet at hrun
  rw [hs.fields] at hrun
  cases hrun
  exact ⟨rfl, rfl, rfl⟩

theorem currRelation_leads {r : Ir.Relation} : Leads w b fields (some r) currRelation
    fun _ t' a => t' = some r ∧ a = r := by
  refine .reading fun s a s' hs hrun => ?_
  unfold currRelation at hrun
  rw [hs.curr r rfl] at hrun
  cases hrun
  exact ⟨rfl, rfl, rfl⟩

theorem pullRelation_ok {s s' : LowerState} {r q : Ir.Relation} (hr : s.currRelation = some r)
    (h : pullRelation s = .ok (q, s')) : q = r ∧ s' = { s with currRelation := none } := by
  obtain ⟨source, t, hcurr, hrest⟩ := lowerer_bind_ok.mp h
  unfold currRelation at hcurr
  rw [hr] at hcurr
  cases hcurr
  cases hrest
  exact ⟨rfl, rfl⟩

theorem pullRelation_leads {r : Ir.Relation} : Leads w b fields (some r) pullRelation
    fun _ _ a => a = r := by
  intro s a s' hs hrun
  obtain ⟨rfl, rfl⟩ := pullRelation_ok (hs.curr r rfl) hrun
  exact ⟨List.prefix_refl _, none, ⟨hs.binding, hs.opened, hs.named, hs.fields,
    fun _ h => (by cases h)⟩, fun h => (by cases h), rfl⟩

theorem setRelation_ok {s s' : LowerState} {r : Ir.Relation} {u : Unit}
    (h : setRelation r s = .ok (u, s')) : s' = { s with currRelation := some r } := by
  obtain ⟨_, -, hpure⟩ := bind_eq_ok.mp h
  cases hpure
  rfl

/-- Another relation is put in the place of the current one. -/
theorem replaceRelation_leads {r : Ir.Relation} (g : Ir.Relation → Ir.Relation) :
    Leads w b fields (some r) (do
      let source ← pullRelation
      setRelation (g source)) fun _ t' _ => t' = some (g r) := by
  intro s u s' hs hrun
  obtain ⟨source, t, hpull, hset⟩ := lowerer_bind_ok.mp hrun
  obtain ⟨rfl, rfl⟩ := pullRelation_ok (hs.curr r rfl) hpull
  obtain rfl := setRelation_ok hset
  exact ⟨List.prefix_refl _, _, ⟨hs.binding, hs.opened, hs.named, hs.fields, fun _ h => h⟩,
    fun h => (by cases h), rfl⟩

/-- The join of an `IN`, on top of the current relation, and something else behind it. -/
theorem markJoin_leads {r m : Ir.Relation} {e : Ir.Scalar} {o f : FieldId} {x : Lowerer α}
    (hx : ∀ schema, r.schema.append o = .ok schema →
      Leads w b fields (some (.markJoin r m e o f schema)) x P) :
    Leads w b fields (some r) (do
      let source ← pullRelation
      let schema ← source.schema.append o
      setRelation (.markJoin source m e o f schema)
      x) P := by
  intro s a s' hs hrun
  obtain ⟨source, s₁, hpull, hrun⟩ := lowerer_bind_ok.mp hrun
  obtain ⟨rfl, rfl⟩ := pullRelation_ok (hs.curr r rfl) hpull
  obtain ⟨schema, s₂, hlift, hrun⟩ := lowerer_bind_ok.mp hrun
  obtain ⟨hschema, rfl⟩ := lift_ok hlift
  obtain ⟨u, s₃, hset, hrun⟩ := lowerer_bind_ok.mp hrun
  obtain rfl := setRelation_ok hset
  have hjoined : Follows w b fields (some (.markJoin source m e o f schema))
      { s with currRelation := some (.markJoin source m e o f schema) } :=
    ⟨hs.binding, hs.opened, hs.named, hs.fields, fun _ h => h⟩
  obtain ⟨hgrows, t', hs', -, hP⟩ := hx schema hschema _ _ _ hjoined hrun
  exact ⟨hgrows, t', hs', fun h => (by cases h), hP⟩

theorem scopedFieldSet_leads {curr : FieldSet} (hx : Leads w b (some curr) t x P) :
    Leads w b fields t (scopedFieldSet curr x) P := by
  intro s a s' hs hrun
  obtain ⟨⟨a', u⟩, ha', hpure⟩ := bind_eq_ok.mp hrun
  cases hpure
  have hstart : Follows w b (some curr) t { s with currFieldSet := some curr } :=
    ⟨hs.binding, hs.opened, hs.named, rfl, hs.curr⟩
  obtain ⟨hgrows, t', hu, hnone, hP⟩ := hx _ _ _ hstart ha'
  exact ⟨hgrows, t', ⟨hu.binding, hu.opened, hu.named, hs.fields, hu.curr⟩, hnone, hP⟩

/-- What is done in a scope of its own leaves the current relation alone. -/
theorem scopedRelation_leads {r : Ir.Relation} {R : FieldBinding → α → Prop}
    (hx : Leads w b fields (some r) x fun b' _ a => R b' a) :
    Leads w b fields none (scopedRelation r x) fun b' _ a => R b' a := by
  intro s a s' hs hrun
  obtain ⟨⟨a', u⟩, ha', hpure⟩ := bind_eq_ok.mp hrun
  cases hpure
  have hstart : Follows w b fields (some r) { s with currRelation := some r } :=
    ⟨hs.binding, hs.opened, hs.named, hs.fields, fun _ h => h⟩
  obtain ⟨hgrows, t', hu, -, hR⟩ := hx _ _ _ hstart ha'
  exact ⟨hgrows, none, ⟨hu.binding, hu.opened, hu.named, hu.fields, fun _ h => (by cases h)⟩,
    fun _ => ⟨rfl, rfl⟩, hR⟩

theorem typeOf_leads (id : FieldId) : Leads w b fields none (typeOf id) fun _ _ _ => True := by
  refine .reading fun s a s' _ hrun => ?_
  obtain ⟨type, -, hpure⟩ := bind_eq_ok.mp hrun
  cases hpure
  exact ⟨rfl, trivial⟩

theorem nameOf_leads (id : FieldId) : Leads w b fields none (nameOf id) fun _ _ _ => True := by
  refine .reading fun s a s' _ hrun => ?_
  obtain ⟨name, -, hpure⟩ := bind_eq_ok.mp hrun
  cases hpure
  exact ⟨rfl, trivial⟩

theorem getOrAdd_leads (name : String) (type : ValueType) :
    Leads w b fields none (getOrAdd name type) fun _ _ _ => True := by
  intro s id s' hs hrun
  cases hrun
  obtain ⟨-, hgrown⟩ := s.binding.getOrAdd_spec name type
  exact ⟨hgrown, none, ⟨hs.binding.trans hgrown, hs.opened, hs.named, hs.fields,
    fun _ h => (by cases h)⟩, fun _ => ⟨rfl, rfl⟩, trivial⟩

/-- A new field is none of those that there have been. -/
theorem addAnonymous_leads (pre : String) (type : ValueType) :
    Leads w b fields none (addAnonymous pre type) fun _ _ id => b.entry id = none := by
  intro s id s' hs hrun
  obtain ⟨added, hadd, hpure⟩ := bind_eq_ok.mp hrun
  cases hpure
  obtain ⟨_, -, hadd⟩ := bind_eq_ok.mp hadd
  cases hadd
  have hgrows : s.binding.entries <+: s.binding.entries ++
      [(pre ++ "_" ++ toString s.binding.nextId, type)] := List.prefix_append _ _
  refine ⟨hgrows, none, ⟨hs.binding.trans hgrows, hs.opened, hs.named, hs.fields,
    fun _ h => (by cases h)⟩, fun _ => ⟨rfl, rfl⟩, ?_⟩
  by_contra hne
  obtain ⟨entry, hentry⟩ := Option.ne_none_iff_exists'.mp hne
  have hlength := (FieldBinding.entry_eq_some.mp (FieldBinding.entry_of_prefix hs.binding hentry)).2
  exact absurd (List.getElem?_eq_some_iff.mp hlength).1 (by simp [FieldBinding.nextId])

end Rules

end Lsql.Front.Lower
