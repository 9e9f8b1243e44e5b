import Lsql.Flow.Shuffle

/-!
# Lsql.Flow.Cut

The first elements of an interleaving need no more than the first elements of what is interleaved.

`Cut n l k` says that `k` is what is left of `l` when elements are cut off that lie behind the first
`n`. An interleaving, or a sorted merge, of cut sequences begins as one of the whole sequences does.
-/

namespace Flow

variable {α β : Type}

/-- `k` begins as `l` does and misses nothing of its first `n` elements. -/
def Cut (n : Nat) (l k : List α) : Prop := ∃ rest, l = k ++ rest ∧ (rest = [] ∨ n ≤ k.length)

namespace Cut

variable {n : Nat} {l k : List α}

theorem refl (n : Nat) (l : List α) : Cut n l l := ⟨[], by simp, .inl rfl⟩

theorem take (n m : Nat) (l : List α) (h : n ≤ m) : Cut n l (l.take m) := by
  refine ⟨l.drop m, (List.take_append_drop m l).symm, ?_⟩
  rcases Nat.lt_or_ge m l.length with hlt | hge
  · refine .inr ?_
    rw [List.length_take]
    omega
  · exact .inl (List.drop_eq_nil_of_le hge)

theorem map (f : α → β) (h : Cut n l k) : Cut n (l.map f) (k.map f) := by
  obtain ⟨rest, rfl, hrest⟩ := h
  refine ⟨rest.map f, List.map_append, ?_⟩
  rcases hrest with rfl | hlen
  · exact .inl rfl
  · exact .inr (by simpa using hlen)

theorem of_map {f : α → β} {k' : List β} (h : Cut n (l.map f) k') :
    ∃ k, k' = k.map f ∧ Cut n l k := by
  obtain ⟨rest, heq, hrest⟩ := h
  obtain ⟨k, r, rfl, rfl, rfl⟩ := List.map_eq_append_iff.mp heq
  refine ⟨k, rfl, r, rfl, ?_⟩
  rcases hrest with hnil | hlen
  · exact .inl (List.map_eq_nil_iff.mp hnil)
  · exact .inr (by simpa using hlen)

theorem take_eq (h : Cut n l k) : k.take n = l.take n := by
  obtain ⟨rest, rfl, hrest⟩ := h
  rcases hrest with rfl | hlen
  · rw [List.append_nil]
  · exact (List.take_append_of_le_length hlen).symm

end Cut

namespace Interleave

variable {l r m : List α}

/-- The first elements of an interleaving, and the others. -/
theorem split (h : Interleave l r m) (n : Nat) : ∃ l₁ l₂ r₁ r₂, l = l₁ ++ l₂ ∧ r = r₁ ++ r₂ ∧
    Interleave l₁ r₁ (m.take n) ∧ Interleave l₂ r₂ (m.drop n) := by
  induction h generalizing n with
  | nil => exact ⟨[], [], [], [], rfl, rfl, by simpa using Interleave.nil, by simpa using .nil⟩
  | @left x l r m h ih =>
      cases n with
      | zero => exact ⟨[], x :: l, [], r, rfl, rfl, .nil, h.left⟩
      | succ n =>
          obtain ⟨l₁, l₂, r₁, r₂, rfl, rfl, h₁, h₂⟩ := ih n
          exact ⟨x :: l₁, l₂, r₁, r₂, rfl, rfl, h₁.left, h₂⟩
  | @right x l r m h ih =>
      cases n with
      | zero => exact ⟨[], l, [], x :: r, rfl, rfl, .nil, h.right⟩
      | succ n =>
          obtain ⟨l₁, l₂, r₁, r₂, rfl, rfl, h₁, h₂⟩ := ih n
          exact ⟨l₁, l₂, x :: r₁, r₂, rfl, rfl, h₁.right, h₂⟩

theorem length_eq (h : Interleave l r m) : m.length = l.length + r.length := by
  rw [h.perm.length_eq, List.length_append]

/-- What has been cut off comes last. -/
theorem uncut {n : Nat} {l' r' m' : List α} (h : Interleave l' r' m') (hl : Cut n l l')
    (hr : Cut n r r') : ∃ m, Interleave l r m ∧ Cut n m m' := by
  obtain ⟨a, rfl, ha⟩ := hl
  obtain ⟨b, rfl, hb⟩ := hr
  have hab : Interleave a b (a ++ b) := by
    simpa using (Interleave.all_left a).append (Interleave.all_right b)
  refine ⟨m' ++ (a ++ b), h.append hab, a ++ b, rfl, ?_⟩
  have hlen := h.length_eq
  rcases Nat.lt_or_ge m'.length n with hlt | hge
  · have ha : a = [] := ha.resolve_right (by omega)
    have hb : b = [] := hb.resolve_right (by omega)
    rw [ha, hb]
    exact .inl rfl
  · exact .inr hge

end Interleave

/-- What has been cut off comes last. -/
theorem Shuffle.uncut {n : Nat} {ls ls' : List (List α)} {m' : List α} (h : Shuffle ls' m')
    (hls : List.Forall₂ (Cut n) ls ls') : ∃ m, Shuffle ls m ∧ Cut n m m' := by
  induction h generalizing ls with
  | nil =>
      cases hls
      exact ⟨[], .nil, Cut.refl n []⟩
  | cons _ hint ih =>
      cases hls with
      | cons hl hrest =>
          obtain ⟨r, hr, hcut⟩ := ih hrest
          obtain ⟨m, hm, hmcut⟩ := hint.uncut hl hcut
          exact ⟨m, .cons hr hm, hmcut⟩

/-! ### Sorted merges -/

/-- What stands on a side, given for both. -/
def Side.pick (s : Side) (p q : α) : α :=
  match s with
  | left => p
  | right => q

section

variable {n : Nat} {P : α → Prop} {le : α → α → Prop}

/-- What is not above the elements of a cut sequence is not above those that were cut off, as long
as some element is left to tell. -/
theorem le_uncut (hle : OrderedOn P le) {taken left rest : List α} {x : α}
    (hP : ∀ y ∈ taken ++ left ++ rest, P y) (hs : (taken ++ left ++ rest).Pairwise le) (hx : P x)
    (hleft : ∀ y ∈ left, le x y) (htold : rest = [] ∨ left ≠ [] ∨ x ∈ taken) :
    ∀ y ∈ left ++ rest, le x y := by
  intro y hy
  rcases List.mem_append.mp hy with hy | hy
  · exact hleft y hy
  · rw [List.append_assoc] at hs hP
    rcases htold with rfl | hne | hmem
    · exact absurd hy List.not_mem_nil
    · obtain ⟨z, hz⟩ := List.exists_mem_of_ne_nil left hne
      have hzy : le z y :=
        (List.pairwise_append.mp (List.pairwise_append.mp hs).2.1).2.2 z hz y hy
      exact hle.trans hx (hP z (by simp [hz])) (hP y (by simp [hy])) (hleft z hz) hzy
    · exact (List.pairwise_append.mp hs).2.2 x hmem y (List.mem_append_right _ hy)

/-- A sorted merge of cut sequences begins as one of the whole sequences does. -/
theorem SortedMerge.uncut (hle : OrderedOn P le) {l r l' r' m' : List α}
    (h : SortedMerge le l' r' m') (hl : Cut n l l') (hr : Cut n r r') (hPl : ∀ x ∈ l, P x)
    (hPr : ∀ x ∈ r, P x) (hsl : l.Pairwise le) (hsr : r.Pairwise le) :
    ∃ m, SortedMerge le l r m ∧ m.take n = m'.take n := by
  obtain ⟨a, rfl, ha⟩ := hl
  obtain ⟨b, rfl, hb⟩ := hr
  obtain ⟨l₁, l₂, r₁, r₂, rfl, rfl, h₁, h₂⟩ := h.interleave.split n
  have hlen := h₁.length_eq
  have hle_n : (m'.take n).length ≤ n := List.length_take_le n m'
  have hsorted := h.sorted
  rw [← List.take_append_drop n m'] at hsorted
  obtain ⟨hfirst, -, hlater⟩ := List.pairwise_append.mp hsorted
  -- an element that is put out before `n` came from the left or from the right
  have hfrom : ∀ x ∈ m'.take n, x ∈ l₁ ∨ x ∈ r₁ := by
    intro x hx
    exact List.mem_append.mp (h₁.perm.subset hx)
  have hPx : ∀ x ∈ m'.take n, P x := by
    intro x hx
    rcases hfrom x hx with hx | hx
    · exact hPl x (by simp [hx])
    · exact hPr x (by simp [hx])
  have hleft : ∀ x ∈ m'.take n, ∀ y ∈ l₂ ++ a, le x y := by
    intro x hx
    refine le_uncut hle hPl hsl (hPx x hx) (fun y hy => ?_) ?_
    · exact hlater x hx y (h₂.left_sublist.subset hy)
    · rcases ha with rfl | ha
      · exact .inl rfl
      · by_cases hnil : l₂ = []
        · -- the left alone has filled the output
          subst hnil
          rw [List.append_nil] at ha
          have hr₁ : r₁ = [] := List.length_eq_zero_iff.mp (by omega)
          subst hr₁
          exact .inr (.inr ((hfrom x hx).resolve_right List.not_mem_nil))
        · exact .inr (.inl hnil)
  have hright : ∀ x ∈ m'.take n, ∀ y ∈ r₂ ++ b, le x y := by
    intro x hx
    refine le_uncut hle hPr hsr (hPx x hx) (fun y hy => ?_) ?_
    · exact hlater x hx y (h₂.right_sublist.subset hy)
    · rcases hb with rfl | hb
      · exact .inl rfl
      · by_cases hnil : r₂ = []
        · subst hnil
          rw [List.append_nil] at hb
          have hl₁ : l₁ = [] := List.length_eq_zero_iff.mp (by omega)
          subst hl₁
          exact .inr (.inr ((hfrom x hx).resolve_left List.not_mem_nil))
        · exact .inr (.inl hnil)
  have hpartial : PartialMerge le (fun s => s.pick (l₁ ++ l₂ ++ a) (r₁ ++ r₂ ++ b)) (m'.take n)
      (fun s => s.pick (l₂ ++ a) (r₂ ++ b)) := by
    refine ⟨⟨fun s => s.pick l₁ r₁, ?_, h₁⟩, hfirst, ?_⟩
    · intro s
      cases s <;> exact List.append_assoc _ _ _
    · intro x hx s y hy
      cases s with
      | left => exact hleft x hx y hy
      | right => exact hright x hx y hy
  obtain ⟨m, hm, hgrown⟩ := hpartial.complete hle
    (fun s => by cases s; exacts [hPl, hPr]) (fun s => by cases s; exacts [hsl, hsr])
  refine ⟨m, hm, ?_⟩
  rcases Nat.lt_or_ge m'.length n with hlt | hge
  · -- nothing has been cut off
    have ha : a = [] := by
      refine ha.resolve_right fun hn => ?_
      rw [h.interleave.length_eq] at hlt
      omega
    have hb : b = [] := by
      refine hb.resolve_right fun hn => ?_
      rw [h.interleave.length_eq] at hlt
      omega
    have hlen : m.length = (m'.take n).length := by
      rw [hm.interleave.length_eq, List.take_of_length_le hlt.le, h.interleave.length_eq, ha, hb]
      simp only [Side.pick, List.append_nil]
    rw [← hgrown.eq_of_length hlen.symm, List.take_take, Nat.min_self]
  · obtain ⟨w, rfl⟩ := hgrown
    rw [List.take_append_of_le_length (by rw [List.length_take]; omega), List.take_take,
      Nat.min_self]

end

end Flow
