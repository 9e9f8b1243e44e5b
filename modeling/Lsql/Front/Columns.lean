import Lsql.Core.Fault
import Lsql.Front.FieldSets

/-!
# Lsql.Front.Columns

Field sets as sets of columns.

A column is a name with a type. The binding gives every column one field, so that a field set stands
for a set of columns; the fields of an alias are the columns of its source under another name. Field
sets are computed from a state that grows, and the columns of a set grow with it. What a name is
resolved to is stated here without the order in which a set is iterated.
-/

namespace Lsql

/-! ### The columns of a binding -/

/-- A name with a type. -/
abbrev Column := String × ValueType

namespace FieldBinding

variable {b : FieldBinding} {name : String} {type : ValueType}

theorem entry_eq_some {id : FieldId} {c : Column} :
    b.entry id = some c ↔ id ≠ unknownFieldId ∧ b.entries[id - 1]? = some c := by
  rw [entry]
  split
  next h => simp [h]
  next h => simp [h]

/-- Every column has one field. -/
theorem entry_inj (hb : b.entries.Nodup) {a a' : FieldId} {c : Column} (h : b.entry a = some c)
    (h' : b.entry a' = some c) : a = a' := by
  rw [entry_eq_some] at h h'
  obtain ⟨hlt, hc⟩ := List.getElem?_eq_some_iff.mp h.2
  obtain ⟨hlt', hc'⟩ := List.getElem?_eq_some_iff.mp h'.2
  have hsame := (List.Nodup.getElem_inj_iff hb).mp (hc.trans hc'.symm)
  exact Nat.sub_one_cancel (Nat.pos_of_ne_zero h.1) (Nat.pos_of_ne_zero h'.1) hsame

theorem entry_of_prefix {b' : FieldBinding} (hle : b.entries <+: b'.entries) {id : FieldId}
    {c : Column} (h : b.entry id = some c) : b'.entry id = some c := by
  rw [entry_eq_some] at h ⊢
  obtain ⟨rest, hrest⟩ := hle
  have hlt := (List.getElem?_eq_some_iff.mp h.2).1
  refine ⟨h.1, ?_⟩
  rw [← hrest, List.getElem?_append_left hlt]
  exact h.2

theorem name_of_entry {id : FieldId} {c : Column} (h : b.entry id = some c) :
    b.name id = .ok c.1 := by
  rw [FieldBinding.name, h]

theorem type_of_entry {id : FieldId} {c : Column} (h : b.entry id = some c) :
    b.type id = .ok c.2 := by
  rw [FieldBinding.type, h]

/-- What `getOrAdd` returns is the field of the column, in a binding that has grown. -/
theorem getOrAdd_spec (b : FieldBinding) (name : String) (type : ValueType) :
    (b.getOrAdd name type).2.entry (b.getOrAdd name type).1 = some (name, type) ∧
      b.entries <+: (b.getOrAdd name type).2.entries := by
  rw [getOrAdd]
  split
  next h =>
    refine ⟨?_, List.prefix_refl _⟩
    rw [hasField, List.contains_iff_mem] at h
    show b.entry (b.id name type) = _
    rw [id]
    cases hi : b.entries.idxOf? (name, type) with
    | none => exact absurd h (List.idxOf?_eq_none_iff.mp hi)
    | some i =>
        obtain ⟨hlt, heq, -⟩ := List.idxOf?_eq_some_iff.mp hi
        rw [entry_eq_some]
        exact ⟨Nat.succ_ne_zero i, List.getElem?_eq_some_iff.mpr ⟨hlt, heq⟩⟩
  next h =>
    refine ⟨?_, List.prefix_append _ _⟩
    rw [entry_eq_some]
    exact ⟨Nat.succ_ne_zero _, List.getElem?_concat_length⟩

theorem getOrAdd_nodup (hb : b.entries.Nodup) :
    (b.getOrAdd name type).2.entries.Nodup := by
  rw [getOrAdd]
  split
  next => exact hb
  next h =>
    rw [hasField, List.contains_iff_mem] at h
    exact hb.append (List.nodup_singleton _) (by simpa using h)

end FieldBinding

namespace Front

/-- The columns of the fields of a set. -/
def FieldSetHas (b : FieldBinding) (fields : FieldSet) (c : Column) : Prop :=
  ∃ id ∈ fields, b.entry id = some c

/-- Every field of a set is one of the binding. -/
def FieldSetValid (b : FieldBinding) (fields : FieldSet) : Prop :=
  ∀ id ∈ fields, ∃ c, b.entry id = some c

/-! ### States -/

/-- A state that the binder can be in. -/
structure BindState.Valid (s : BindState) : Prop where
  nodup : s.binding.entries.Nodup
  opened : ∀ {cell : Nat} {fields : FieldSet}, s.openFields[cell]? = some fields →
    ∀ id ∈ fields, ∃ name, s.binding.entry id = some (name, .string)

/-- The fields of a state are among those of another. -/
structure BindState.Before (s s' : BindState) : Prop where
  binding : s.binding.entries <+: s'.binding.entries
  opened : ∀ {cell : Nat} {fields : FieldSet}, s.openFields[cell]? = some fields →
    ∃ fields', s'.openFields[cell]? = some fields' ∧ ∀ id ∈ fields, id ∈ fields'

namespace BindState.Before

variable {s s' s'' : BindState}

theorem refl (s : BindState) : s.Before s where
  binding := List.prefix_refl _
  opened h := ⟨_, h, fun _ hid => hid⟩

theorem trans (h : s.Before s') (h' : s'.Before s'') : s.Before s'' where
  binding := h.binding.trans h'.binding
  opened hfields := by
    obtain ⟨fields', hfields', hsub⟩ := h.opened hfields
    obtain ⟨fields'', hfields'', hsub'⟩ := h'.opened hfields'
    exact ⟨fields'', hfields'', fun id hid => hsub' id (hsub id hid)⟩

theorem entry (h : s.Before s') {id : FieldId} {c : Column} (hid : s.binding.entry id = some c) :
    s'.binding.entry id = some c :=
  FieldBinding.entry_of_prefix h.binding hid

theorem fieldSetValid (h : s.Before s') {fields : FieldSet}
    (hfields : FieldSetValid s.binding fields) : FieldSetValid s'.binding fields := fun id hid => by
  obtain ⟨c, hc⟩ := hfields id hid
  exact ⟨c, h.entry hc⟩

/-- Over fields that are known the columns of a set are the same. -/
theorem fieldSetHas (h : s.Before s') {fields : FieldSet} (hfields : FieldSetValid s.binding fields)
    {c : Column} : FieldSetHas s'.binding fields c ↔ FieldSetHas s.binding fields c := by
  refine exists_congr fun id => and_congr_right fun hid => ?_
  obtain ⟨c', hc'⟩ := hfields id hid
  rw [hc', h.entry hc']

end BindState.Before

/-- A state that has grown: fields have been given identifiers, and have been required. -/
structure BindState.Extends (s s' : BindState) : Prop extends BindState.Before s s' where
  named : s'.named = s.named

namespace BindState.Extends

variable {s s' s'' : BindState}

theorem refl (s : BindState) : s.Extends s := ⟨.refl s, rfl⟩

theorem trans (h : s.Extends s') (h' : s'.Extends s'') : s.Extends s'' :=
  ⟨h.toBefore.trans h'.toBefore, h'.named.trans h.named⟩

end BindState.Extends

/-- A state in which only the binding has grown. -/
structure BindState.Grows (s s' : BindState) : Prop where
  binding : s.binding.entries <+: s'.binding.entries
  opened : s'.openFields = s.openFields
  named : s'.named = s.named

namespace BindState.Grows

variable {s s' s'' : BindState}

theorem refl (s : BindState) : s.Grows s := ⟨List.prefix_refl _, rfl, rfl⟩

theorem trans (h : s.Grows s') (h' : s'.Grows s'') : s.Grows s'' :=
  ⟨h.binding.trans h'.binding, h'.opened.trans h.opened, h'.named.trans h.named⟩

theorem toExtends (h : s.Grows s') : s.Extends s' where
  binding := h.binding
  opened hfields := ⟨_, h.opened ▸ hfields, fun _ hid => hid⟩
  named := h.named

end BindState.Grows

/-! ### The columns of a field set -/

namespace RelationFieldSet

mutual

/-- The columns that a field set has. -/
def Has (s : BindState) : RelationFieldSet → Column → Prop
  | fixed fields, c => FieldSetHas s.binding fields c
  | opened cell, c => ∃ fields, s.openFields[cell]? = some fields ∧ FieldSetHas s.binding fields c
  | aliased aliasPrefix source, c => ∃ name, c.1 = aliasPrefix ++ name ∧ source.Has s (name, c.2)
  | combined ownFields sources, c => FieldSetHas s.binding ownFields c ∨ AnyHas s sources c

def AnyHas (s : BindState) : List RelationFieldSet → Column → Prop
  | [], _ => False
  | source :: sources, c => source.Has s c ∨ AnyHas s sources c

end

mutual

/-- The columns that a field set has, or can be required to have. -/
def Provides (s : BindState) : RelationFieldSet → Column → Prop
  | fixed fields, c => FieldSetHas s.binding fields c
  | opened _, c => c.2 = .string
  | aliased aliasPrefix source, c =>
    ∃ name, behindPrefix aliasPrefix c.1 = some name ∧ source.Provides s (name, c.2)
  | combined ownFields sources, c => FieldSetHas s.binding ownFields c ∨ AnyProvides s sources c

def AnyProvides (s : BindState) : List RelationFieldSet → Column → Prop
  | [], _ => False
  | source :: sources, c => source.Provides s c ∨ AnyProvides s sources c

end

mutual

/-- A field set whose fields and cells the state has. -/
def Valid (s : BindState) : RelationFieldSet → Prop
  | fixed fields => FieldSetValid s.binding fields
  | opened cell => ∃ fields, s.openFields[cell]? = some fields
  | aliased _ source => source.Valid s
  | combined ownFields sources => FieldSetValid s.binding ownFields ∧ AllValid s sources

def AllValid (s : BindState) : List RelationFieldSet → Prop
  | [] => True
  | source :: sources => source.Valid s ∧ AllValid s sources

end

section Extends

variable {s s' : BindState}

mutual

theorem Valid.before (h : s.Before s') : ∀ {r : RelationFieldSet}, r.Valid s → r.Valid s'
  | fixed _, hr => h.fieldSetValid hr
  | opened _, hr => by
      obtain ⟨fields, hfields⟩ := hr
      obtain ⟨fields', hfields', -⟩ := h.opened hfields
      exact ⟨fields', hfields'⟩
  | aliased _ source, hr => Valid.before h (r := source) hr
  | combined _ _, hr => ⟨h.fieldSetValid hr.1, AllValid.before h hr.2⟩

theorem AllValid.before (h : s.Before s') :
    ∀ {rs : List RelationFieldSet}, AllValid s rs → AllValid s' rs
  | [], _ => trivial
  | _ :: _, hrs => ⟨Valid.before h hrs.1, AllValid.before h hrs.2⟩

end

theorem Valid.extends (h : s.Extends s') {r : RelationFieldSet} (hr : r.Valid s) : r.Valid s' :=
  hr.before h.toBefore

theorem AllValid.extends (h : s.Extends s') {rs : List RelationFieldSet} (hrs : AllValid s rs) :
    AllValid s' rs := hrs.before h.toBefore

mutual

/-- A field set has the columns that it had before. -/
theorem has_before (h : s.Before s') : ∀ {r : RelationFieldSet} {c : Column},
    r.Has s c → r.Has s' c
  | fixed _, _, ⟨id, hid, hc⟩ => ⟨id, hid, h.entry hc⟩
  | opened _, _, ⟨_, hfields, id, hid, hc⟩ => by
      obtain ⟨fields', hfields', hsub⟩ := h.opened hfields
      exact ⟨fields', hfields', id, hsub id hid, h.entry hc⟩
  | aliased _ _, _, ⟨name, hname, hsource⟩ => ⟨name, hname, has_before h hsource⟩
  | combined _ _, _, .inl ⟨id, hid, hc⟩ => .inl ⟨id, hid, h.entry hc⟩
  | combined _ _, _, .inr hsources => .inr (anyHas_before h hsources)

theorem anyHas_before (h : s.Before s') : ∀ {rs : List RelationFieldSet} {c : Column},
    AnyHas s rs c → AnyHas s' rs c
  | _ :: _, _, .inl hsource => .inl (has_before h hsource)
  | _ :: _, _, .inr hsources => .inr (anyHas_before h hsources)

end

mutual

/-- What a field set can provide does not change. -/
theorem provides_extends (h : s.Extends s') : ∀ {r : RelationFieldSet}, r.Valid s → ∀ {c : Column},
    r.Provides s' c ↔ r.Provides s c
  | fixed _, hr, _ => h.fieldSetHas hr
  | opened _, _, _ => Iff.rfl
  | aliased _ source, hr, _ =>
      exists_congr fun _ => and_congr_right fun _ => provides_extends h (r := source) hr
  | combined _ _, hr, _ => or_congr (h.fieldSetHas hr.1) (anyProvides_extends h hr.2)

theorem anyProvides_extends (h : s.Extends s') : ∀ {rs : List RelationFieldSet}, AllValid s rs →
    ∀ {c : Column}, AnyProvides s' rs c ↔ AnyProvides s rs c
  | [], _, _ => Iff.rfl
  | _ :: _, hrs, _ => or_congr (provides_extends h hrs.1) (anyProvides_extends h hrs.2)

end

mutual

/-- The columns do not change while only the binding grows. -/
theorem has_grows (h : s.Grows s') (hs : s.Valid) : ∀ {r : RelationFieldSet}, r.Valid s →
    ∀ {c : Column}, r.Has s' c ↔ r.Has s c
  | fixed _, hr, _ => h.toExtends.fieldSetHas hr
  | opened cell, _, c => by
      show (∃ fields, s'.openFields[cell]? = some fields ∧ _) ↔ _
      rw [h.opened]
      refine exists_congr fun fields => and_congr_right fun hfields => ?_
      refine h.toExtends.fieldSetHas fun id hid => ?_
      obtain ⟨name, hname⟩ := hs.opened hfields id hid
      exact ⟨_, hname⟩
  | aliased _ source, hr, _ =>
      exists_congr fun _ => and_congr_right fun _ => has_grows h hs (r := source) hr
  | combined _ _, hr, _ => or_congr (h.toExtends.fieldSetHas hr.1) (anyHas_grows h hs hr.2)

theorem anyHas_grows (h : s.Grows s') (hs : s.Valid) : ∀ {rs : List RelationFieldSet},
    AllValid s rs → ∀ {c : Column}, AnyHas s' rs c ↔ AnyHas s rs c
  | [], _, _ => Iff.rfl
  | _ :: _, hrs, _ => or_congr (has_grows h hs hrs.1) (anyHas_grows h hs hrs.2)

end

end Extends

end RelationFieldSet

/-! ### Computations -/

section Computations

variable {α β : Type} {m : Binder α} {f : α → Binder β} {s : BindState}
  {post : α → BindState → Prop} {post' : β → BindState → Prop}

theorem binder_bind_ok {s' : BindState} {b : β} :
    (m >>= f) s = .ok (b, s') ↔ ∃ a t, m s = .ok (a, t) ∧ f a t = .ok (b, s') := by
  show (do
    let r ← m s
    f r.1 r.2) = _ ↔ _
  rw [bind_eq_ok]
  exact Prod.exists

/-- The computation returns, in a valid state in which only the binding has grown. -/
def Computes (m : Binder α) (s : BindState) (post : α → BindState → Prop) : Prop :=
  ∃ a s', m s = .ok (a, s') ∧ s'.Valid ∧ s.Grows s' ∧ post a s'

/-- If the computation returns, then in a valid state that has grown. -/
def Ensures (m : Binder α) (s : BindState) (post : α → BindState → Prop) : Prop :=
  ∀ a s', m s = .ok (a, s') → s'.Valid ∧ s.Extends s' ∧ post a s'

theorem Computes.pure (hs : s.Valid) {a : α} (h : post a s) : Computes (Pure.pure a) s post :=
  ⟨a, s, rfl, hs, .refl s, h⟩

theorem Computes.bind (hm : Computes m s post)
    (hf : ∀ a s', s'.Valid → s.Grows s' → post a s' → Computes (f a) s' post') :
    Computes (m >>= f) s post' := by
  obtain ⟨a, s₁, hrun, hvalid, hgrows, hpost⟩ := hm
  obtain ⟨b, s₂, hrun', hvalid', hgrows', hpost'⟩ := hf a s₁ hvalid hgrows hpost
  exact ⟨b, s₂, binder_bind_ok.mpr ⟨a, s₁, hrun, hrun'⟩, hvalid', hgrows.trans hgrows', hpost'⟩

theorem Computes.mono {post'' : α → BindState → Prop} (hm : Computes m s post)
    (h : ∀ a s', s'.Valid → s.Grows s' → post a s' → post'' a s') : Computes m s post'' := by
  obtain ⟨a, s₁, hrun, hvalid, hgrows, hpost⟩ := hm
  exact ⟨a, s₁, hrun, hvalid, hgrows, h a s₁ hvalid hgrows hpost⟩

theorem Computes.ensures (hm : Computes m s post) : Ensures m s post := by
  obtain ⟨a, s₁, hrun, hvalid, hgrows, hpost⟩ := hm
  intro a' s' h
  cases hrun.symm.trans h
  exact ⟨hvalid, hgrows.toExtends, hpost⟩

theorem Ensures.pure (hs : s.Valid) {a : α} (h : post a s) : Ensures (Pure.pure a) s post :=
  (Computes.pure hs h).ensures

theorem Ensures.bind (hm : Ensures m s post)
    (hf : ∀ a s', s'.Valid → s.Extends s' → post a s' → Ensures (f a) s' post') :
    Ensures (m >>= f) s post' := by
  intro b s₂ h
  obtain ⟨a, s₁, hrun, hrun'⟩ := binder_bind_ok.mp h
  obtain ⟨hvalid, hext, hpost⟩ := hm a s₁ hrun
  obtain ⟨hvalid', hext', hpost'⟩ := hf a s₁ hvalid hext hpost b s₂ hrun'
  exact ⟨hvalid', hext.trans hext', hpost'⟩

theorem Computes.bindEnsures (hm : Computes m s post)
    (hf : ∀ a s', s'.Valid → s.Grows s' → post a s' → Ensures (f a) s' post') :
    Ensures (m >>= f) s post' := by
  obtain ⟨a, s₁, hrun, hvalid, hgrows, hpost⟩ := hm
  intro b s₂ h
  obtain ⟨a', s₁', hrun', hrest⟩ := binder_bind_ok.mp h
  cases hrun.symm.trans hrun'
  obtain ⟨hvalid', hext, hpost'⟩ := hf a s₁ hvalid hgrows hpost b s₂ hrest
  exact ⟨hvalid', hgrows.toExtends.trans hext, hpost'⟩

theorem Ensures.mono {post'' : α → BindState → Prop} (hm : Ensures m s post)
    (h : ∀ a s', s'.Valid → s.Extends s' → post a s' → post'' a s') : Ensures m s post'' :=
  fun a s' hrun => by
    obtain ⟨hvalid, hext, hpost⟩ := hm a s' hrun
    exact ⟨hvalid, hext, h a s' hvalid hext hpost⟩

theorem Ensures.ite {c : Prop} [Decidable c] {m' : Binder α} (hm : Ensures m s post)
    (hm' : Ensures m' s post) : Ensures (if c then m else m') s post := by
  split
  · exact hm
  · exact hm'

end Computations

namespace Binder

variable {s : BindState}

theorem nameOf_computes (hs : s.Valid) {id : FieldId} {c : Column}
    (h : s.binding.entry id = some c) : Computes (nameOf id) s fun name _ => name = c.1 := by
  refine ⟨c.1, s, ?_, hs, .refl s, rfl⟩
  show Except.map _ _ = _
  rw [FieldBinding.name_of_entry h]
  rfl

theorem typeOf_computes (hs : s.Valid) {id : FieldId} {c : Column}
    (h : s.binding.entry id = some c) : Computes (typeOf id) s fun type _ => type = c.2 := by
  refine ⟨c.2, s, ?_, hs, .refl s, rfl⟩
  show Except.map _ _ = _
  rw [FieldBinding.type_of_entry h]
  rfl

theorem getOrAdd_computes (hs : s.Valid) (name : String) (type : ValueType) :
    Computes (getOrAdd name type) s fun id s' => s'.binding.entry id = some (name, type) := by
  obtain ⟨hentry, hgrown⟩ := FieldBinding.getOrAdd_spec s.binding name type
  have hgrows : s.Grows { s with binding := (s.binding.getOrAdd name type).2 } := ⟨hgrown, rfl, rfl⟩
  refine ⟨_, _, rfl, ⟨FieldBinding.getOrAdd_nodup hs.nodup, fun hfields id hid => ?_⟩, hgrows, hentry⟩
  obtain ⟨name', hname'⟩ := hs.opened hfields id hid
  exact ⟨name', hgrows.toExtends.entry hname'⟩

/-- A check leaves the state as it is. -/
theorem requireAt_ensures (hs : s.Valid) (cond : Bool) (message : String) :
    Ensures (requireAt cond message) s fun _ _ => cond = true := by
  intro _ s' h
  rw [requireAt] at h
  split at h
  next hcond =>
    cases h
    exact ⟨hs, .refl s, hcond⟩
  next => cases h

theorem verify_ensures (hs : s.Valid) (cond : Bool) (message : String) :
    Ensures (verify cond message) s fun _ _ => cond = true := by
  intro _ s' h
  rw [verify] at h
  split at h
  next hcond =>
    cases h
    exact ⟨hs, .refl s, hcond⟩
  next => cases h

theorem throwAt_ensures {α : Type} (message : String) (post : α → BindState → Prop) :
    Ensures (throwAt message) s post := by
  intro _ _ h
  cases h

end Binder

open Binder

/-! ### The operations of a field set -/

namespace RelationFieldSet

section Fields

variable [HashOrder]

omit [HashOrder] in
theorem aliasFields_computes {aliasPrefix : String} {ids : List FieldId} {done : FieldSet}
    {s : BindState} (hs : s.Valid) (hids : ∀ id ∈ ids, ∃ c, s.binding.entry id = some c)
    (hdone : FieldSetValid s.binding done) :
    Computes (aliasFields aliasPrefix ids done) s fun fields s' =>
      FieldSetValid s'.binding fields ∧ ∀ c, FieldSetHas s'.binding fields c ↔
        FieldSetHas s.binding done c ∨
          ∃ name, c.1 = aliasPrefix ++ name ∧ ∃ id ∈ ids, s.binding.entry id = some (name, c.2) := by
  induction ids generalizing done s with
  | nil =>
      refine .pure hs ⟨hdone, fun c => ?_⟩
      simp
  | cons id ids ih =>
      obtain ⟨c₀, hc₀⟩ := hids id List.mem_cons_self
      refine (nameOf_computes hs hc₀).bind fun name s₁ hs₁ hgrows₁ hname => ?_
      obtain rfl : name = c₀.1 := hname
      have hc₁ := hgrows₁.toExtends.entry hc₀
      refine (typeOf_computes hs₁ hc₁).bind fun type s₂ hs₂ hgrows₂ htype => ?_
      obtain rfl : type = c₀.2 := htype
      refine (getOrAdd_computes hs₂ _ _).bind fun aliasId s₃ hs₃ hgrows₃ halias => ?_
      have hext := ((hgrows₁.trans hgrows₂).trans hgrows₃).toExtends
      have hadd : ∀ c, FieldSetHas s₃.binding (done.add aliasId) c ↔
          FieldSetHas s.binding done c ∨ c = (aliasPrefix ++ c₀.1, c₀.2) := by
        intro c
        rw [← hext.fieldSetHas hdone]
        constructor
        · rintro ⟨x, hx, hxc⟩
          rcases FieldSet.mem_add.mp hx with hx | rfl
          · exact .inl ⟨x, hx, hxc⟩
          · exact .inr (Option.some.inj (hxc.symm.trans halias))
        · rintro (⟨x, hx, hxc⟩ | rfl)
          · exact ⟨x, FieldSet.mem_add.mpr (.inl hx), hxc⟩
          · exact ⟨aliasId, FieldSet.mem_add.mpr (.inr rfl), halias⟩
      refine (ih hs₃ ?_ ?_).mono fun fields s₄ hs₄ hgrows₄ hpost => ⟨hpost.1, fun c => ?_⟩
      · intro x hx
        obtain ⟨c, hc⟩ := hids x (List.mem_cons_of_mem _ hx)
        exact ⟨c, hext.entry hc⟩
      · intro x hx
        rcases FieldSet.mem_add.mp hx with hx | rfl
        · exact hext.fieldSetValid hdone x hx
        · exact ⟨_, halias⟩
      · rw [hpost.2, hadd, or_assoc]
        refine or_congr_right ?_
        constructor
        · rintro (rfl | ⟨name, hname, x, hx, hxc⟩)
          · exact ⟨c₀.1, rfl, id, List.mem_cons_self, hc₀⟩
          · obtain ⟨c', hc'⟩ := hids x (List.mem_cons_of_mem _ hx)
            rw [hext.entry hc'] at hxc
            exact ⟨name, hname, x, List.mem_cons_of_mem _ hx, hc'.trans hxc⟩
        · rintro ⟨name, hname, x, hx, hxc⟩
          rcases List.mem_cons.mp hx with rfl | hx
          · obtain rfl : c₀ = (name, c.2) := Option.some.inj (hc₀.symm.trans hxc)
            exact .inl (Prod.ext hname rfl)
          · exact .inr ⟨name, hname, x, hx, hext.entry hxc⟩

/-- What `fields` returns for a field set. -/
def Lists (columns : Column → Prop) (fields : FieldSet) (s' : BindState) : Prop :=
  FieldSetValid s'.binding fields ∧ ∀ c, FieldSetHas s'.binding fields c ↔ columns c

mutual

/-- **`fields` lists the columns of a field set.** -/
theorem fields_computes {s : BindState} (hs : s.Valid) : ∀ r : RelationFieldSet, r.Valid s →
    Computes r.fields s (Lists (r.Has s))
  | fixed _, hr => .pure hs ⟨hr, fun _ => Iff.rfl⟩
  | opened cell, hr => by
      obtain ⟨fields, hfields⟩ := hr
      refine ⟨fields, s, ?_, hs, .refl s, fun id hid => ?_, fun c => ?_⟩
      · rw [RelationFieldSet.fields, openFieldsOf, hfields]
      · obtain ⟨name, hname⟩ := hs.opened hfields id hid
        exact ⟨_, hname⟩
      · constructor
        · exact fun h => ⟨fields, hfields, h⟩
        · rintro ⟨fields', hfields', h⟩
          exact Option.some.inj (hfields.symm.trans hfields') ▸ h
  | aliased aliasPrefix source, hr => by
      refine (fields_computes hs source hr).bind fun sourceFields s₁ hs₁ hgrows hlist => ?_
      refine (aliasFields_computes hs₁ (fun id hid => hlist.1 id (FieldSet.mem_fieldIds.mp hid))
        (fun id hid => absurd hid (FieldSet.not_mem_emptySet id))).mono
          fun fields s₂ hs₂ hgrows₂ hpost => ⟨hpost.1, fun c => ?_⟩
      rw [hpost.2, or_iff_right (by
        rintro ⟨id, hid, -⟩
        exact FieldSet.not_mem_emptySet id hid)]
      refine exists_congr fun name => and_congr_right fun _ => ?_
      rw [← hlist.2]
      exact exists_congr fun id => and_congr_left fun _ => FieldSet.mem_fieldIds
  | combined ownFields sources, hr =>
      (mergeFields_computes hs sources hr.2 ownFields hr.1).mono fun _ _ _ _ h => h

theorem mergeFields_computes {s : BindState} (hs : s.Valid) : ∀ sources : List RelationFieldSet,
    AllValid s sources → ∀ merged : FieldSet, FieldSetValid s.binding merged →
    Computes (mergeFields merged sources) s
      (Lists fun c => FieldSetHas s.binding merged c ∨ AnyHas s sources c)
  | [], _, merged, hmerged => .pure hs ⟨hmerged, fun c => iff_of_eq (or_false (FieldSetHas s.binding merged c)).symm⟩
  | source :: sources, hr, merged, hmerged => by
      refine (fields_computes hs source hr.1).bind fun sourceFields s₁ hs₁ hgrows hlist => ?_
      have hext := hgrows.toExtends
      have hvalid : FieldSetValid s₁.binding (merged.merge sourceFields) := fun id hid => by
        rcases FieldSet.mem_merge.mp hid with hid | hid
        · exact hext.fieldSetValid hmerged id hid
        · exact hlist.1 id hid
      refine (mergeFields_computes hs₁ sources (AllValid.extends hext hr.2) _ hvalid).mono
        fun fields s₂ hs₂ hgrows₂ hpost => ⟨hpost.1, fun c => ?_⟩
      rw [hpost.2]
      show FieldSetHas s₁.binding _ c ∨ AnyHas s₁ sources c ↔
        FieldSetHas s.binding merged c ∨ source.Has s c ∨ AnyHas s sources c
      rw [anyHas_grows hgrows hs hr.2, ← hlist.2, ← hext.fieldSetHas hmerged, ← or_assoc]
      refine or_congr_left ?_
      constructor
      · rintro ⟨id, hid, hc⟩
        rcases FieldSet.mem_merge.mp hid with hid | hid
        · exact .inl ⟨id, hid, hc⟩
        · exact .inr ⟨id, hid, hc⟩
      · rintro (⟨id, hid, hc⟩ | ⟨id, hid, hc⟩)
        · exact ⟨id, FieldSet.mem_merge.mpr (.inl hid), hc⟩
        · exact ⟨id, FieldSet.mem_merge.mpr (.inr hid), hc⟩

end

end Fields

theorem contains_iff_has {s : BindState} (hs : s.Valid) (fields : FieldSet) {id : FieldId}
    {c : Column} (hid : s.binding.entry id = some c) :
    fields.contains id = true ↔ FieldSetHas s.binding fields c := by
  rw [FieldSet.contains_iff]
  constructor
  · exact fun h => ⟨id, h, hid⟩
  · rintro ⟨x, hx, hxc⟩
    exact FieldBinding.entry_inj hs.nodup hid hxc ▸ hx

theorem sourceField_computes {s : BindState} (hs : s.Valid) {aliasPrefix : String} {id : FieldId}
    {c : Column} (hid : s.binding.entry id = some c) :
    Computes (sourceField aliasPrefix id) s fun sourceId s' =>
      (sourceId = none ∧ behindPrefix aliasPrefix c.1 = none) ∨ ∃ x name, sourceId = some x ∧
        behindPrefix aliasPrefix c.1 = some name ∧ s'.binding.entry x = some (name, c.2) := by
  refine (nameOf_computes hs hid).bind fun name s₁ hs₁ hgrows hname => ?_
  obtain rfl : name = c.1 := hname
  cases hbehind : behindPrefix aliasPrefix c.1 with
  | none => exact .pure hs₁ (.inl ⟨rfl, rfl⟩)
  | some sourceName =>
      refine (typeOf_computes hs₁ (hgrows.toExtends.entry hid)).bind fun type s₂ hs₂ _ htype => ?_
      obtain rfl : type = c.2 := htype
      refine (getOrAdd_computes hs₂ _ _).bind fun x s₃ hs₃ _ hx => ?_
      exact .pure hs₃ (.inr ⟨x, sourceName, rfl, rfl, hx⟩)

mutual

/-- **`canProvide` tells what a field set can provide.** -/
theorem canProvide_computes {s : BindState} (hs : s.Valid) {id : FieldId} {c : Column}
    (hid : s.binding.entry id = some c) : ∀ r : RelationFieldSet, r.Valid s →
    Computes (r.canProvide id) s fun provides _ => provides = true ↔ r.Provides s c
  | fixed _, _ => .pure hs (contains_iff_has hs _ hid)
  | opened _, _ => by
      refine (typeOf_computes hs hid).bind fun type s₁ hs₁ _ htype => ?_
      obtain rfl : type = c.2 := htype
      exact .pure hs₁ beq_iff_eq
  | aliased aliasPrefix source, hr => by
      refine (sourceField_computes hs hid).bind fun sourceId s₁ hs₁ hgrows hsource => ?_
      rcases hsource with ⟨rfl, hbehind⟩ | ⟨x, name, rfl, hbehind, hx⟩
      · refine .pure hs₁ (iff_of_false Bool.false_ne_true ?_)
        rintro ⟨name, hname, -⟩
        rw [hbehind] at hname
        cases hname
      · have hext := hgrows.toExtends
        refine (canProvide_computes hs₁ hx source (Valid.extends hext (r := source) hr)).mono
          fun provides s₂ _ _ hprovides => ?_
        rw [hprovides, provides_extends hext (r := source) hr]
        constructor
        · exact fun h => ⟨name, hbehind, h⟩
        · rintro ⟨name', hname', h⟩
          exact Option.some.inj (hbehind.symm.trans hname') ▸ h
  | combined ownFields sources, hr => by
      have hown := contains_iff_has hs ownFields hid
      rw [canProvide]
      split
      next h => exact .pure hs (iff_of_true rfl (.inl (hown.mp h)))
      next h =>
        refine (anyProvides_computes hs hid sources hr.2).mono fun provides _ _ _ hprovides => ?_
        rw [hprovides]
        exact (or_iff_right fun hhas => h (hown.mpr hhas)).symm

theorem anyProvides_computes {s : BindState} (hs : s.Valid) {id : FieldId} {c : Column}
    (hid : s.binding.entry id = some c) : ∀ sources : List RelationFieldSet, AllValid s sources →
    Computes (anyProvides id sources) s fun provides _ => provides = true ↔ AnyProvides s sources c
  | [], _ => .pure hs (iff_of_false Bool.false_ne_true not_false)
  | source :: sources, hr => by
      refine (canProvide_computes hs hid source hr.1).bind fun provides s₁ hs₁ hgrows hprovides => ?_
      have hext := hgrows.toExtends
      split
      next h => exact .pure hs₁ (iff_of_true rfl (.inl (hprovides.mp h)))
      next h =>
        refine (anyProvides_computes hs₁ (hext.entry hid) sources
          (AllValid.extends hext hr.2)).mono fun provides' _ _ _ hprovides' => ?_
        rw [hprovides', anyProvides_extends hext hr.2]
        exact (or_iff_right fun hsource => h (hprovides.mpr hsource)).symm

end

/-- A string field that is required of an open field set. -/
theorem addOpen_ensures {s : BindState} (hs : s.Valid) {cell : Nat} {id : FieldId} {name : String}
    (hid : s.binding.entry id = some (name, .string)) :
    Ensures (addOpen cell id) s fun _ _ => True := by
  intro _ s' h
  cases h
  refine ⟨⟨hs.nodup, fun hfields x hx => ?_⟩, ⟨⟨List.prefix_refl _, fun hfields => ?_⟩, rfl⟩, trivial⟩
  · rw [List.getElem?_modify] at hfields
    obtain ⟨fields, hcell, rfl⟩ := Option.map_eq_some_iff.mp hfields
    split at hx
    · rcases FieldSet.mem_add.mp hx with hx | rfl
      · exact hs.opened hcell x hx
      · exact ⟨name, hid⟩
    · exact hs.opened hcell x hx
  · rename_i cell' fields
    refine ⟨if cell = cell' then fields.add id else fields, ?_, fun x hx => ?_⟩
    · rw [List.getElem?_modify, hfields]
      split <;> rfl
    · split
      · exact FieldSet.mem_add.mpr (.inl hx)
      · exact hx

mutual

/-- `require` keeps the state valid, and only lets it grow. -/
theorem require_ensures {s : BindState} (hs : s.Valid) {id : FieldId} {c : Column}
    (hid : s.binding.entry id = some c) : ∀ r : RelationFieldSet, r.Valid s →
    Ensures (r.require id) s fun _ _ => True
  | fixed _, _ => (verify_ensures hs _ _).mono fun _ _ _ _ _ => trivial
  | opened cell, hr => by
      refine (canProvide_computes hs hid (opened cell) hr).ensures.bind
        fun provides s₁ hs₁ hext hprovides => ?_
      refine (verify_ensures hs₁ _ _).bind fun _ s₂ hs₂ hext₂ htrue => ?_
      have hstring : c.2 = .string := hprovides.mp htrue
      have hid₂ := hext₂.entry (hext.entry hid)
      exact addOpen_ensures hs₂ (show s₂.binding.entry id = some (c.1, .string) from hstring ▸ hid₂)
  | aliased aliasPrefix source, hr => by
      refine (sourceField_computes hs hid).ensures.bind fun sourceId s₁ hs₁ hext hsource => ?_
      rcases hsource with ⟨rfl, -⟩ | ⟨x, name, rfl, -, hx⟩
      · intro _ _ h
        cases h
      · exact require_ensures hs₁ hx source (Valid.extends hext (r := source) hr)
  | combined ownFields sources, hr => by
      refine (canProvide_computes hs hid (combined ownFields sources) hr).ensures.bind
        fun provides s₁ hs₁ hext _ => ?_
      refine (verify_ensures hs₁ _ _).bind fun _ s₂ hs₂ hext₂ _ => ?_
      have hext' := hext.trans hext₂
      split
      · exact .pure hs₂ trivial
      · exact requireAll_ensures hs₂ (hext'.entry hid) sources (AllValid.extends hext' hr.2)

theorem requireAll_ensures {s : BindState} (hs : s.Valid) {id : FieldId} {c : Column}
    (hid : s.binding.entry id = some c) : ∀ sources : List RelationFieldSet, AllValid s sources →
    Ensures (requireAll id sources) s fun _ _ => True
  | [], _ => .pure hs trivial
  | source :: sources, hr => by
      refine (canProvide_computes hs hid source hr.1).ensures.bind fun provides s₁ hs₁ hext _ => ?_
      split
      · refine (require_ensures hs₁ (hext.entry hid) source (Valid.extends hext hr.1)).bind
          fun _ s₂ hs₂ hext₂ _ => ?_
        have hext' := hext.trans hext₂
        exact requireAll_ensures hs₂ (hext'.entry hid) sources (AllValid.extends hext' hr.2)
      · exact requireAll_ensures hs₁ (hext.entry hid) sources (AllValid.extends hext hr.2)

end

end RelationFieldSet

/-! ### What a name is resolved to -/

/-- The columns of the first field set of a chain that has one of that name or can provide one. -/
def Resolves (s : BindState) (name : String) : FieldSetChain → Option ValueType → Prop
  | [], type => type = none
  | current :: parent, type =>
    (∃ t, current.Has s (name, t) ∧ type = some t) ∨
      (∀ t, ¬ current.Has s (name, t)) ∧
        (current.Provides s (name, .string) ∧ type = some .string ∨
          ¬ current.Provides s (name, .string) ∧ Resolves s name parent type)

/-- A field set in which a name has one type. -/
def RelationFieldSet.Unambiguous (s : BindState) (r : RelationFieldSet) : Prop :=
  ∀ name t t', r.Has s (name, t) → r.Has s (name, t') → t = t'

/-- If no field set of a chain is ambiguous, a name is resolved to one type. -/
theorem Resolves.unique {s : BindState} {name : String} {chain : FieldSetChain}
    (hchain : ∀ r ∈ chain, r.Unambiguous s) {t t' : Option ValueType}
    (h : Resolves s name chain t) (h' : Resolves s name chain t') : t = t' := by
  induction chain with
  | nil => exact h.trans h'.symm
  | cons current parent ih =>
      rcases h with ⟨u, hu, rfl⟩ | ⟨hnone, h⟩
      · rcases h' with ⟨u', hu', rfl⟩ | ⟨hnone', -⟩
        · rw [hchain current List.mem_cons_self name u u' hu hu']
        · exact absurd hu (hnone' u)
      · rcases h' with ⟨u', hu', -⟩ | ⟨-, h'⟩
        · exact absurd hu' (hnone u')
        · rcases h with ⟨hprovides, rfl⟩ | ⟨hnot, h⟩
          · rcases h' with ⟨-, rfl⟩ | ⟨hnot', -⟩
            · rfl
            · exact absurd hprovides hnot'
          · rcases h' with ⟨hprovides', -⟩ | ⟨-, h'⟩
            · exact absurd hprovides' hnot
            · exact ih (fun r hr => hchain r (List.mem_cons_of_mem _ hr)) h h'

theorem resolves_grows {s s' : BindState} (h : s.Grows s') (hs : s.Valid) {name : String}
    {chain : FieldSetChain} (hchain : ∀ r ∈ chain, r.Valid s) {t : Option ValueType} :
    Resolves s' name chain t ↔ Resolves s name chain t := by
  induction chain with
  | nil => exact Iff.rfl
  | cons current parent ih =>
      have hcurrent := hchain current List.mem_cons_self
      have hhas : ∀ {c : Column}, current.Has s' c ↔ current.Has s c :=
        RelationFieldSet.has_grows h hs hcurrent
      have hprovides : ∀ {c : Column}, current.Provides s' c ↔ current.Provides s c :=
        RelationFieldSet.provides_extends h.toExtends hcurrent
      simp only [Resolves, hhas, hprovides, ih fun r hr => hchain r (List.mem_cons_of_mem _ hr)]

theorem findField_computes {s : BindState} (hs : s.Valid) {name : String} {ids : List FieldId}
    (hids : ∀ id ∈ ids, ∃ c, s.binding.entry id = some c) :
    Computes (findField name ids) s fun found _ =>
      (∃ id ∈ ids, found = some id ∧ ∃ t, s.binding.entry id = some (name, t)) ∨
        found = none ∧ ∀ id ∈ ids, ∀ t, s.binding.entry id ≠ some (name, t) := by
  induction ids generalizing s with
  | nil => exact .pure hs (.inr ⟨rfl, fun _ h => absurd h List.not_mem_nil⟩)
  | cons id ids ih =>
      obtain ⟨c, hc⟩ := hids id List.mem_cons_self
      have hids' : ∀ x ∈ ids, ∃ c, s.binding.entry x = some c := fun x hx =>
        hids x (List.mem_cons_of_mem _ hx)
      refine (nameOf_computes hs hc).bind fun fieldName s₁ hs₁ hgrows hname => ?_
      obtain rfl : fieldName = c.1 := hname
      have hext := hgrows.toExtends
      split
      next hsame =>
        obtain rfl : c.1 = name := beq_iff_eq.mp hsame
        exact .pure hs₁ (.inl ⟨id, List.mem_cons_self, rfl, c.2, hc⟩)
      next hother =>
        have hids₁ : ∀ x ∈ ids, ∃ c, s₁.binding.entry x = some c := by
          intro x hx
          obtain ⟨c', hc'⟩ := hids' x hx
          exact ⟨c', hext.entry hc'⟩
        -- the entries of these fields are the same in both states
        have hback : ∀ x ∈ ids, ∀ t, s₁.binding.entry x = some (name, t) ↔
            s.binding.entry x = some (name, t) := by
          intro x hx t
          obtain ⟨c', hc'⟩ := hids' x hx
          rw [hext.entry hc', hc']
        refine (ih hs₁ hids₁).mono fun found s₂ _ _ hfound => ?_
        rcases hfound with ⟨x, hx, hfound, t, ht⟩ | ⟨hfound, hnone⟩
        · exact .inl ⟨x, List.mem_cons_of_mem _ hx, hfound, t, (hback x hx t).mp ht⟩
        · refine .inr ⟨hfound, fun x hx t ht => ?_⟩
          rcases List.mem_cons.mp hx with rfl | hx
          · have hsame := Option.some.inj (hc.symm.trans ht)
            exact hother (beq_iff_eq.mpr (congrArg Prod.fst hsame))
          · exact hnone x hx t ((hback x hx t).mpr ht)

/-- **A name is resolved to a column of the first field set that has one or can provide one.** -/
theorem typeOfSourceField_ensures [HashOrder] {s : BindState} (hs : s.Valid) {name : String}
    {chain : FieldSetChain} (hchain : ∀ r ∈ chain, r.Valid s) :
    Ensures (typeOfSourceField name chain) s fun t _ => Resolves s name chain t := by
  induction chain generalizing s with
  | nil => exact .pure hs rfl
  | cons current parent ih =>
      have hcurrent := hchain current List.mem_cons_self
      refine (RelationFieldSet.fields_computes hs current hcurrent).bindEnsures
        fun fields s₁ hs₁ hgrows₁ hlist => ?_
      have hids : ∀ id ∈ fields.fieldIds, ∃ c, s₁.binding.entry id = some c := fun id hid =>
        hlist.1 id (FieldSet.mem_fieldIds.mp hid)
      refine (findField_computes hs₁ hids).bindEnsures fun found s₂ hs₂ hgrows₂ hfound => ?_
      have hgrows := hgrows₁.trans hgrows₂
      rcases hfound with ⟨id, hid, rfl, t, ht⟩ | ⟨rfl, hnone⟩
      · have hhas : current.Has s (name, t) :=
          (hlist.2 _).mp ⟨id, FieldSet.mem_fieldIds.mp hid, ht⟩
        have ht₂ := hgrows₂.toExtends.entry ht
        refine (RelationFieldSet.require_ensures hs₂ ht₂ current
          (hcurrent.extends hgrows.toExtends)).bind fun _ s₃ hs₃ hext₃ _ => ?_
        refine (typeOf_computes hs₃ (hext₃.entry ht₂)).ensures.bind fun type s₄ hs₄ _ htype => ?_
        obtain rfl : type = t := htype
        exact .pure hs₄ (.inl ⟨type, hhas, rfl⟩)
      · have hno : ∀ t, ¬ current.Has s (name, t) := by
          intro t hhas
          obtain ⟨id, hid, ht⟩ := (hlist.2 _).mpr hhas
          exact hnone id (FieldSet.mem_fieldIds.mpr hid) t ht
        refine (getOrAdd_computes hs₂ name .string).bindEnsures fun id s₃ hs₃ hgrows₃ hid => ?_
        have hcurrent₃ := hcurrent.extends (hgrows.trans hgrows₃).toExtends
        refine (RelationFieldSet.canProvide_computes hs₃ hid current hcurrent₃).bindEnsures
          fun provides s₄ hs₄ hgrows₄ hprovides => ?_
        rw [RelationFieldSet.provides_extends (hgrows.trans hgrows₃).toExtends hcurrent] at hprovides
        have hgrows' := (hgrows.trans hgrows₃).trans hgrows₄
        split
        next h =>
          refine (RelationFieldSet.require_ensures hs₄ (hgrows₄.toExtends.entry hid) current
            (hcurrent₃.extends hgrows₄.toExtends)).bind fun _ s₅ hs₅ _ _ => ?_
          exact .pure hs₅ (.inr ⟨hno, .inl ⟨hprovides.mp h, rfl⟩⟩)
        next h =>
          have hparent : ∀ r ∈ parent, r.Valid s := fun r hr =>
            hchain r (List.mem_cons_of_mem _ hr)
          refine (ih hs₄ fun r hr => (hparent r hr).extends hgrows'.toExtends).mono
            fun t _ _ _ ht => .inr ⟨hno, .inr ⟨fun hp => h (hprovides.mpr hp), ?_⟩⟩
          exact (resolves_grows hgrows' hs hparent).mp ht

end Front

end Lsql
