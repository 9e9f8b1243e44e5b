import Lsql.Flow.Shuffle
import Mathlib.Data.List.Pairwise

/-!
# Lsql.Flow.Grouping

Grouping a sequence by a key, one element at a time.

Keys are compared by a Boolean relation that need not be reflexive: a key that is not even equal to
itself starts a group whenever it comes. `IsGrouping` says what a grouping is, without reference to
how it is made; for a symmetric and transitive relation the group of a key that is equal to itself
holds exactly the elements with that key (`IsGrouping.eq_filter`).
-/

namespace Flow

variable {α κ : Type} (eq : κ → κ → Bool) (key : α → κ)

/-- An element joins the first group with its key, or starts one. -/
def joinGroup (a : α) : List (κ × List α) → List (κ × List α)
  | [] => [(key a, [a])]
  | g :: gs => if eq g.1 (key a) then (g.1, g.2 ++ [a]) :: gs else g :: joinGroup a gs

/-- Grouping, behind groups that there are. -/
def groupFrom : List (κ × List α) → List α → List (κ × List α)
  | gs, [] => gs
  | gs, a :: as => groupFrom (joinGroup eq key a gs) as

/-- The groups of a sequence, in the order of their first elements. -/
def groups (all : List α) : List (κ × List α) := groupFrom eq key [] all

/-- A grouping of a sequence: every element is in one group, the groups keep the order of the
sequence, the elements of a group have the key of its first one, and no two groups have equal keys. -/
structure IsGrouping (all : List α) (gs : List (κ × List α)) : Prop where
  shuffle : Shuffle (gs.map Prod.snd) all
  first : ∀ g ∈ gs, ∃ a rest, g.2 = a :: rest ∧ key a = g.1 ∧ ∀ b ∈ rest, eq g.1 (key b) = true
  distinct : gs.Pairwise fun g g' => eq g.1 g'.1 = false

variable {eq key} {a : α} {all rest : List α} {g : κ × List α} {gs : List (κ × List α)}

theorem groupFrom_append (gs : List (κ × List α)) (as bs : List α) :
    groupFrom eq key gs (as ++ bs) = groupFrom eq key (groupFrom eq key gs as) bs := by
  induction as generalizing gs with
  | nil => rfl
  | cons a as ih => exact ih (joinGroup eq key a gs)

theorem groups_concat (all : List α) (a : α) :
    groups eq key (all ++ [a]) = joinGroup eq key a (groups eq key all) :=
  groupFrom_append [] all [a]

/-- What an element does to groups: it goes to the end of one group, behind groups with other keys, or
it starts a group behind all of them. -/
theorem joinGroup_cases (eq : κ → κ → Bool) (key : α → κ) (a : α) (gs : List (κ × List α)) :
    (∃ before g after, gs = before ++ g :: after ∧ (∀ g' ∈ before, eq g'.1 (key a) = false) ∧
      eq g.1 (key a) = true ∧
      joinGroup eq key a gs = before ++ (g.1, g.2 ++ [a]) :: after) ∨
    (∀ g ∈ gs, eq g.1 (key a) = false) ∧ joinGroup eq key a gs = gs ++ [(key a, [a])] := by
  induction gs with
  | nil => exact .inr ⟨fun _ hg => absurd hg List.not_mem_nil, rfl⟩
  | cons g gs ih =>
      rw [joinGroup]
      cases hg : eq g.1 (key a) with
      | true => exact .inl ⟨[], g, gs, rfl, fun g' hg' => absurd hg' List.not_mem_nil, hg, rfl⟩
      | false =>
          rw [if_neg Bool.false_ne_true]
          rcases ih with ⟨before, g₁, after, hgs, hbefore, hg₁, hjoin⟩ | ⟨hall, hjoin⟩
          · refine .inl ⟨g :: before, g₁, after, by rw [hgs]; rfl, fun g' hg' => ?_, hg₁, by
              rw [hjoin]; rfl⟩
            rcases List.mem_cons.mp hg' with rfl | hg'
            · exact hg
            · exact hbefore g' hg'
          · refine .inr ⟨fun g' hg' => ?_, by rw [hjoin]; rfl⟩
            rcases List.mem_cons.mp hg' with rfl | hg'
            · exact hg
            · exact hall g' hg'

namespace IsGrouping

theorem nil : IsGrouping eq key [] [] := ⟨.nil, fun _ hg => absurd hg List.not_mem_nil, .nil⟩

/-- **One element more.** -/
theorem join (h : IsGrouping eq key all gs) (a : α) :
    IsGrouping eq key (all ++ [a]) (joinGroup eq key a gs) := by
  rcases joinGroup_cases eq key a gs with ⟨before, g, after, rfl, -, hg, hjoin⟩ | ⟨hall, hjoin⟩
  · rw [hjoin]
    refine ⟨?_, fun g' hg' => ?_, ?_⟩
    · have happ := h.shuffle.append_at (i := before.length) (l := g.2) (by simp) a
      simpa using happ
    · rcases List.mem_append.mp hg' with hg' | hg'
      · exact h.first g' (List.mem_append_left _ hg')
      · rcases List.mem_cons.mp hg' with rfl | hg'
        · obtain ⟨b, rest, hb, hkey, hrest⟩ := h.first g (by simp)
          refine ⟨b, rest ++ [a], by simp [hb], hkey, fun b' hb' => ?_⟩
          rcases List.mem_append.mp hb' with hb' | hb'
          · exact hrest b' hb'
          · rw [List.mem_singleton.mp hb']
            exact hg
        · exact h.first g' (List.mem_append_right _ (List.mem_cons_of_mem _ hg'))
    · -- the keys are the same as before
      have hkeys : (before ++ (g.1, g.2 ++ [a]) :: after).map Prod.fst =
          (before ++ g :: after).map Prod.fst := by simp
      have hdistinct : ((before ++ g :: after).map Prod.fst).Pairwise fun k k' => eq k k' = false :=
        List.pairwise_map.mpr h.distinct
      rw [← hkeys] at hdistinct
      exact List.pairwise_map.mp hdistinct
  · rw [hjoin]
    refine ⟨?_, fun g' hg' => ?_, ?_⟩
    · rw [List.map_append]
      exact h.shuffle.append_single a
    · rcases List.mem_append.mp hg' with hg' | hg'
      · exact h.first g' hg'
      · rw [List.mem_singleton.mp hg']
        exact ⟨a, [], rfl, rfl, fun b hb => absurd hb List.not_mem_nil⟩
    · refine List.pairwise_append.mpr ⟨h.distinct, List.pairwise_singleton _ _, ?_⟩
      intro g' hg' g'' hg''
      rw [List.mem_singleton.mp hg'']
      exact hall g' hg'

/-- **The groups of a sequence are a grouping of it.** -/
theorem groups (all : List α) : IsGrouping eq key all (groups eq key all) := by
  suffices h : ∀ as front gs, IsGrouping eq key front gs →
      IsGrouping eq key (front ++ as) (groupFrom eq key gs as) from h all [] [] nil
  intro as
  induction as with
  | nil =>
      intro front gs h
      rw [List.append_nil]
      exact h
  | cons a as ih =>
      intro front gs h
      rw [List.append_cons]
      exact ih (front ++ [a]) _ (h.join a)

/-- The groups may be listed in any order. -/
theorem of_perm (hsymm : ∀ k k', eq k k' = eq k' k) {gs' : List (κ × List α)} (hperm : gs.Perm gs')
    (h : IsGrouping eq key all gs) : IsGrouping eq key all gs' where
  shuffle := h.shuffle.of_perm (hperm.map Prod.snd)
  first g hg := h.first g (hperm.mem_iff.mpr hg)
  distinct := (hperm.pairwise_iff fun {_ _} hne => (hsymm _ _).trans hne).mp h.distinct

/-- Every element of a group has its key. -/
theorem eq_of_mem (h : IsGrouping eq key all gs) (hg : g ∈ gs) (ha : a ∈ g.2) :
    key a = g.1 ∨ eq g.1 (key a) = true := by
  obtain ⟨b, rest, hb, hkey, hrest⟩ := h.first g hg
  rw [hb] at ha
  rcases List.mem_cons.mp ha with rfl | ha
  · exact .inl hkey
  · exact .inr (hrest a ha)

/-- A group of a key that is equal to itself holds the elements with that key, in order. -/
theorem eq_filter (hsymm : ∀ k k', eq k k' = eq k' k)
    (htrans : ∀ k k' k'', eq k k' = true → eq k' k'' = true → eq k k'' = true)
    (h : IsGrouping eq key all gs) (hg : g ∈ gs) (hself : eq g.1 g.1 = true) :
    g.2 = all.filter fun a => eq g.1 (key a) := by
  obtain ⟨before, after, rfl⟩ := List.append_of_mem hg
  have hdistinct := List.pairwise_append.mp h.distinct
  have hother : ∀ g' ∈ before ++ g :: after, eq g.1 g'.1 = false → ∀ a ∈ g'.2,
      eq g.1 (key a) = false := by
    intro g' hg' hne a ha
    cases heq : eq g.1 (key a) with
    | false => rfl
    | true =>
        rw [← hne]
        rcases h.eq_of_mem hg' ha with hkey | hkey
        · rw [← hkey, heq]
        · exact (htrans _ _ _ heq ((hsymm _ _).trans hkey)).symm
  refine (@Shuffle.filter_eq α (before.map Prod.snd) g.2 all _ (after.map Prod.snd) ?_ ?_ ?_ ?_).symm
  · simpa using h.shuffle
  · intro a ha
    rcases h.eq_of_mem hg ha with hkey | hkey
    · rw [hkey]
      exact hself
    · exact hkey
  · intro k hk a ha
    obtain ⟨g', hg', rfl⟩ := List.mem_map.mp hk
    refine hother g' (List.mem_append_left _ hg') ?_ a ha
    rw [hsymm]
    exact hdistinct.2.2 g' hg' g List.mem_cons_self
  · intro k hk a ha
    obtain ⟨g', hg', rfl⟩ := List.mem_map.mp hk
    refine hother g' (List.mem_append_right _ (List.mem_cons_of_mem _ hg')) ?_ a ha
    exact (List.pairwise_cons.mp hdistinct.2.1).1 g' hg'

/-- A group of a key that is not equal to itself holds one element. -/
theorem eq_single (hsymm : ∀ k k', eq k k' = eq k' k)
    (htrans : ∀ k k' k'', eq k k' = true → eq k' k'' = true → eq k k'' = true)
    (h : IsGrouping eq key all gs) (hg : g ∈ gs) (hself : eq g.1 g.1 = false) :
    ∃ a, g.2 = [a] ∧ key a = g.1 := by
  obtain ⟨a, rest, ha, hkey, hrest⟩ := h.first g hg
  cases rest with
  | nil => exact ⟨a, ha, hkey⟩
  | cons b rest =>
      have hb := hrest b List.mem_cons_self
      rw [htrans _ _ _ hb ((hsymm _ _).trans hb)] at hself
      cases hself

/-- A key that is equal to itself has one group. -/
theorem existsUnique (hsymm : ∀ k k', eq k k' = eq k' k)
    (htrans : ∀ k k' k'', eq k k' = true → eq k' k'' = true → eq k k'' = true)
    (h : IsGrouping eq key all gs) (ha : a ∈ all) (hself : eq (key a) (key a) = true) :
    ∃! g, g ∈ gs ∧ eq g.1 (key a) = true := by
  have hgroup : ∃ g ∈ gs, a ∈ g.2 := by
    obtain ⟨l, hl, hal⟩ := List.mem_flatten.mp (h.shuffle.perm.subset ha)
    obtain ⟨g, hg, rfl⟩ := List.mem_map.mp hl
    exact ⟨g, hg, hal⟩
  obtain ⟨g, hg, hag⟩ := hgroup
  have hkey : eq g.1 (key a) = true := (h.eq_of_mem hg hag).elim (fun he => he ▸ hself) id
  refine ⟨g, ⟨hg, hkey⟩, fun g' hg' => ?_⟩
  by_contra hne
  have hsame : eq g'.1 g.1 = true := htrans _ _ _ hg'.2 ((hsymm _ _).trans hkey)
  have : Std.Symm fun g g' : κ × List α => eq g.1 g'.1 = false :=
    ⟨fun _ _ hdiff => (hsymm _ _).trans hdiff⟩
  rw [h.distinct.forall hg'.1 hg hne] at hsame
  cases hsame

end IsGrouping

/-- A group only grows. -/
theorem prefix_of_groupFrom {gs : List (κ × List α)} (hg : g ∈ gs) (as : List α) :
    ∃ g' ∈ groupFrom eq key gs as, g'.1 = g.1 ∧ g.2 <+: g'.2 := by
  induction as generalizing g gs with
  | nil => exact ⟨g, hg, rfl, List.prefix_rfl⟩
  | cons a as ih =>
      have hjoin : ∃ g₁ ∈ joinGroup eq key a gs, g₁.1 = g.1 ∧ g.2 <+: g₁.2 := by
        rcases joinGroup_cases eq key a gs with ⟨before, g', after, rfl, -, -, hjoin⟩ | ⟨-, hjoin⟩
        · rw [hjoin]
          rcases List.mem_append.mp hg with hg | hg
          · exact ⟨g, List.mem_append_left _ hg, rfl, List.prefix_rfl⟩
          · rcases List.mem_cons.mp hg with rfl | hg
            · exact ⟨(g.1, g.2 ++ [a]), by simp, rfl, List.prefix_append _ _⟩
            · exact ⟨g, by simp [hg], rfl, List.prefix_rfl⟩
        · rw [hjoin]
          exact ⟨g, List.mem_append_left _ hg, rfl, List.prefix_rfl⟩
      obtain ⟨g₁, hg₁, hkey, hpre⟩ := hjoin
      obtain ⟨g', hg', hkey', hpre'⟩ := ih hg₁
      exact ⟨g', hg', hkey'.trans hkey, hpre.trans hpre'⟩

end Flow
