import Lsql.Flow.Shuffle

/-!
# Lsql.Flow.Select

Interleavings of sequences of which some elements have been selected.

What is an interleaving of selections is a selection from an interleaving (`Interleave.unselect`,
`Shuffle.unselect`), also where both have to be sorted (`SortedMerge.unselect`): the elements that
have not been selected can be put back in their places.
-/

namespace Flow

variable {α β : Type}

namespace Interleave

variable {l r m : List α}

theorem eq_right (h : Interleave [] r m) : m = r := by
  generalize hl : ([] : List α) = l at h
  induction h with
  | nil => rfl
  | left => cases hl
  | right _ ih => rw [ih hl]

/-- An interleaving of selections is selected from an interleaving. -/
theorem unselect (g : α → Option β) : ∀ {l r : List α} {m' : List β},
    Interleave (l.filterMap g) (r.filterMap g) m' →
      ∃ m, Interleave l r m ∧ m.filterMap g = m'
  | [], r, m', h => ⟨r, .all_right r, (eq_right h).symm⟩
  | x :: l, [], m', h => ⟨x :: l, .all_left _, h.eq_left.symm⟩
  | x :: l, y :: r, m', h => by
    cases hx : g x with
    | none =>
        rw [List.filterMap_cons_none hx] at h
        obtain ⟨m, hm, rfl⟩ := unselect g h
        exact ⟨x :: m, hm.left, List.filterMap_cons_none hx⟩
    | some x' =>
        cases hy : g y with
        | none =>
            rw [List.filterMap_cons_none hy] at h
            obtain ⟨m, hm, rfl⟩ := unselect g h
            exact ⟨y :: m, hm.right, List.filterMap_cons_none hy⟩
        | some y' =>
            rw [List.filterMap_cons_some hx, List.filterMap_cons_some hy] at h
            cases h with
            | left h =>
                rw [← List.filterMap_cons_some hy] at h
                obtain ⟨m, hm, rfl⟩ := unselect g h
                exact ⟨x :: m, hm.left, List.filterMap_cons_some hx⟩
            | right h =>
                rw [← List.filterMap_cons_some hx] at h
                obtain ⟨m, hm, rfl⟩ := unselect g h
                exact ⟨y :: m, hm.right, List.filterMap_cons_some hy⟩
  termination_by l r => l.length + r.length

/-- Selecting one side. -/
theorem filter_left {p : α → Bool} (h : Interleave l r m) (hl : ∀ x ∈ l, p x = true)
    (hr : ∀ x ∈ r, p x = false) : m.filter p = l := by
  induction h with
  | nil => rfl
  | left _ ih =>
      rw [List.filter_cons_of_pos (hl _ List.mem_cons_self),
        ih (fun x hx => hl x (List.mem_cons_of_mem _ hx)) hr]
  | right _ ih =>
      rw [List.filter_cons_of_neg (by simp [hr _ List.mem_cons_self]),
        ih hl fun x hx => hr x (List.mem_cons_of_mem _ hx)]

end Interleave

/-- An interleaving of selections is selected from an interleaving. -/
theorem Shuffle.unselect (g : α → Option β) {ls : List (List α)} {m' : List β}
    (h : Shuffle (ls.map fun l => l.filterMap g) m') :
    ∃ m, Shuffle ls m ∧ m.filterMap g = m' := by
  induction ls generalizing m' with
  | nil =>
      cases h
      exact ⟨[], .nil, rfl⟩
  | cons l ls ih =>
      cases h with
      | cons htail hint =>
          obtain ⟨r, hr, rfl⟩ := ih htail
          obtain ⟨m, hm, rfl⟩ := hint.unselect g
          exact ⟨m, .cons hr hm, rfl⟩

section Sorted

variable {P : α → Prop} {le : α → α → Prop}

/-- What stands before the head of a sorted sequence stands before all of it. -/
theorem le_of_le_head (hle : OrderedOn P le) {x y : α} {ys : List α} (hx : P x)
    (hys : ∀ z ∈ y :: ys, P z) (hs : (y :: ys).Pairwise le) (hxy : le x y) :
    ∀ z ∈ y :: ys, le x z := by
  intro z hz
  rcases List.mem_cons.mp hz with rfl | hz
  · exact hxy
  · exact hle.trans hx (hys y List.mem_cons_self) (hys z (List.mem_cons_of_mem _ hz)) hxy
      ((List.pairwise_cons.mp hs).1 z hz)

/-- A merge behind an element that stands before both sequences. -/
theorem SortedMerge.cons_left {l r m : List α} (h : SortedMerge le l r m) {x : α}
    (hl : ∀ z ∈ l, le x z) (hr : ∀ z ∈ r, le x z) : SortedMerge le (x :: l) r (x :: m) where
  interleave := h.interleave.left
  sorted := by
    refine List.pairwise_cons.mpr ⟨fun z hz => ?_, h.sorted⟩
    rcases List.mem_append.mp (h.interleave.perm.subset hz) with hz | hz
    · exact hl z hz
    · exact hr z hz

theorem SortedMerge.symm {l r m : List α} (h : SortedMerge le l r m) : SortedMerge le r l m :=
  ⟨h.interleave.symm, h.sorted⟩

/-- One step of `SortedMerge.unselect`, where the head of the left side may be put first. -/
theorem SortedMerge.unselect_cons (hle : OrderedOn P le) (p : α → Bool) {x y : α}
    {l r m' : List α} (hPl : ∀ z ∈ x :: l, P z) (hPr : ∀ z ∈ y :: r, P z)
    (hl : (x :: l).Pairwise le) (hr : (y :: r).Pairwise le) (hxy : le x y)
    (ihl : ∀ {m'}, SortedMerge le (l.filter p) ((y :: r).filter p) m' →
      ∃ m, SortedMerge le l (y :: r) m ∧ m.filter p = m')
    (ihr : ∀ {m'}, SortedMerge le ((x :: l).filter p) (r.filter p) m' →
      ∃ m, SortedMerge le (x :: l) r m ∧ m.filter p = m')
    (h : SortedMerge le ((x :: l).filter p) ((y :: r).filter p) m') :
    ∃ m, SortedMerge le (x :: l) (y :: r) m ∧ m.filter p = m' := by
  have hx : P x := hPl x List.mem_cons_self
  have hy : P y := hPr y List.mem_cons_self
  have hxl := (List.pairwise_cons.mp hl).1
  have hyr := (List.pairwise_cons.mp hr).1
  have hleft : ∀ {m}, SortedMerge le l (y :: r) m → SortedMerge le (x :: l) (y :: r) (x :: m) :=
    fun hm => hm.cons_left hxl (le_of_le_head hle hx hPr hr hxy)
  have hright : le y x → ∀ {m}, SortedMerge le (x :: l) r m →
      SortedMerge le (x :: l) (y :: r) (y :: m) :=
    fun hyx _ hm => (hm.symm.cons_left hyr (le_of_le_head hle hy hPl hl hyx)).symm
  cases hpx : p x with
  | false =>
      rw [List.filter_cons_of_neg (by simp [hpx])] at h
      obtain ⟨m, hm, rfl⟩ := ihl h
      exact ⟨x :: m, hleft hm, List.filter_cons_of_neg (by simp [hpx])⟩
  | true =>
      obtain ⟨hint, hsorted⟩ := h
      rw [List.filter_cons_of_pos hpx] at hint
      generalize hright' : (y :: r).filter p = r' at hint
      cases hint with
      | left hint =>
          subst hright'
          obtain ⟨m, hm, rfl⟩ := ihl ⟨hint, (List.pairwise_cons.mp hsorted).2⟩
          exact ⟨x :: m, hleft hm, List.filter_cons_of_pos hpx⟩
      | @right z _ r' m' hint =>
          -- an element of the right side comes first, so that its head is not above `x`
          have hzx : le z x :=
            (List.pairwise_cons.mp hsorted).1 x (hint.left_sublist.subset List.mem_cons_self)
          have hz : z ∈ (y :: r).filter p := by
            rw [hright']
            exact List.mem_cons_self
          have hz := (List.mem_filter.mp hz).1
          have hyx : le y x := by
            rcases List.mem_cons.mp hz with rfl | hzr
            · exact hzx
            · exact hle.trans hy (hPr z hz) hx (hyr z hzr) hzx
          cases hpy : p y with
          | false =>
              rw [List.filter_cons_of_neg (by simp [hpy])] at hright'
              have h : SortedMerge le ((x :: l).filter p) (r.filter p) (z :: m') := by
                rw [List.filter_cons_of_pos hpx, hright']
                exact ⟨hint.right, hsorted⟩
              obtain ⟨m, hm, hmp⟩ := ihr h
              exact ⟨y :: m, hright hyx hm, (List.filter_cons_of_neg (by simp [hpy])).trans hmp⟩
          | true =>
              rw [List.filter_cons_of_pos hpy] at hright'
              cases hright'
              rw [← List.filter_cons_of_pos hpx] at hint
              obtain ⟨m, hm, rfl⟩ := ihr ⟨hint, (List.pairwise_cons.mp hsorted).2⟩
              exact ⟨y :: m, hright hyx hm, List.filter_cons_of_pos hpy⟩

/-- A sorted merge of selections is selected from a sorted merge. -/
theorem SortedMerge.unselect (hle : OrderedOn P le) (p : α → Bool) : ∀ {l r m' : List α},
    (∀ x ∈ l, P x) → (∀ x ∈ r, P x) → l.Pairwise le → r.Pairwise le →
    SortedMerge le (l.filter p) (r.filter p) m' → ∃ m, SortedMerge le l r m ∧ m.filter p = m'
  | [], r, m', _, _, _, hr, h => ⟨r, ⟨.all_right r, hr⟩, h.interleave.eq_right.symm⟩
  | x :: l, [], m', _, _, hl, _, h => ⟨x :: l, ⟨.all_left _, hl⟩, h.interleave.eq_left.symm⟩
  | x :: l, y :: r, m', hPl, hPr, hl, hr, h => by
    have ihl := @unselect hle p l (y :: r)
    have ihr := @unselect hle p (x :: l) r
    have hPl' : ∀ z ∈ l, P z := fun z hz => hPl z (List.mem_cons_of_mem _ hz)
    have hPr' : ∀ z ∈ r, P z := fun z hz => hPr z (List.mem_cons_of_mem _ hz)
    have hl' := (List.pairwise_cons.mp hl).2
    have hr' := (List.pairwise_cons.mp hr).2
    rcases hle.total (hPl x List.mem_cons_self) (hPr y List.mem_cons_self) with hxy | hyx
    · exact unselect_cons hle p hPl hPr hl hr hxy (ihl hPl' hPr hl' hr) (ihr hPl hPr' hl hr') h
    · obtain ⟨m, hm, hmp⟩ := unselect_cons hle p hPr hPl hr hl hyx
        (fun h => by
          obtain ⟨m, hm, hmp⟩ := ihr hPl hPr' hl hr' h.symm
          exact ⟨m, hm.symm, hmp⟩)
        (fun h => by
          obtain ⟨m, hm, hmp⟩ := ihl hPl' hPr hl' hr h.symm
          exact ⟨m, hm.symm, hmp⟩) h.symm
      exact ⟨m, hm.symm, hmp⟩
  termination_by l r => l.length + r.length

end Sorted

end Flow
