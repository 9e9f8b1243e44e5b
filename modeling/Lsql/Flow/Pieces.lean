import Mathlib.Data.List.Basic

/-!
# Lsql.Flow.Pieces

A sequence cut at a separator: the pieces that a separator ends, and what follows the last one.

`List.splitOn` has both in one list. Two rules give them for a reader that looks for the next
separator: with none ahead there is no further piece, and behind one the reader starts anew.
-/

namespace Flow

variable {α : Type} [DecidableEq α] {sep : α}

/-- The pieces that a separator ends. -/
def pieces (sep : α) (xs : List α) : List (List α) := (xs.splitOn sep).dropLast

/-- What follows the last separator. -/
def lastPiece (sep : α) (xs : List α) : List α := (xs.splitOn sep).getLastD []

/-- Whether every piece is ended. -/
def Terminated (sep : α) (xs : List α) : Prop := lastPiece sep xs = []

instance (sep : α) (xs : List α) : Decidable (Terminated sep xs) :=
  inferInstanceAs (Decidable (_ = _))

theorem splitOn_of_not_mem {xs : List α} (h : sep ∉ xs) : xs.splitOn sep = [xs] := by
  refine List.splitOnP_eq_singleton fun x hx => ?_
  exact beq_false_of_ne fun hsep => h (hsep ▸ hx)

theorem splitOn_append {xs : List α} (h : sep ∉ xs) (ys : List α) :
    (xs ++ sep :: ys).splitOn sep = xs :: ys.splitOn sep := by
  have hsplit : (xs ++ sep :: ys).splitOn sep = xs.splitOn sep ++ ys.splitOn sep :=
    List.splitOnP_append_cons (p := (· == sep)) xs ys (beq_self_eq_true sep)
  rw [hsplit, splitOn_of_not_mem h]
  rfl

theorem pieces_of_not_mem {xs : List α} (h : sep ∉ xs) : pieces sep xs = [] := by
  rw [pieces, splitOn_of_not_mem h]
  rfl

theorem lastPiece_of_not_mem {xs : List α} (h : sep ∉ xs) : lastPiece sep xs = xs := by
  rw [lastPiece, splitOn_of_not_mem h]
  rfl

theorem pieces_append {xs : List α} (h : sep ∉ xs) (ys : List α) :
    pieces sep (xs ++ sep :: ys) = xs :: pieces sep ys := by
  rw [pieces, splitOn_append h]
  exact List.dropLast_cons_of_ne_nil (List.splitOnP_ne_nil _ _)

theorem lastPiece_append {xs : List α} (h : sep ∉ xs) (ys : List α) :
    lastPiece sep (xs ++ sep :: ys) = lastPiece sep ys := by
  rw [lastPiece, splitOn_append h, lastPiece]
  cases hsplit : ys.splitOn sep with
  | nil => exact absurd hsplit (List.splitOnP_ne_nil _ _)
  | cons p ps => rfl

@[simp] theorem pieces_nil : pieces sep [] = [] := pieces_of_not_mem List.not_mem_nil

@[simp] theorem lastPiece_nil : lastPiece sep [] = [] := lastPiece_of_not_mem List.not_mem_nil

/-! ### The next separator -/

/-- What a search for the separator finds. -/
theorem idxOf?_eq_some {xs : List α} {i : Nat} (h : xs.idxOf? sep = some i) :
    xs = xs.take i ++ sep :: xs.drop (i + 1) ∧ sep ∉ xs.take i ∧ i < xs.length := by
  obtain ⟨hi, hsep, hbefore⟩ := List.idxOf?_eq_some_iff.mp h
  refine ⟨?_, fun hmem => ?_, hi⟩
  · rw [← hsep, List.getElem_cons_drop, List.take_append_drop]
  · obtain ⟨j, hj, hsepj⟩ := List.mem_iff_getElem.mp hmem
    rw [List.getElem_take] at hsepj
    rw [List.length_take] at hj
    exact hbefore j (by omega) hsepj

/-- A reader that holds the beginning of a piece and finds the separator in what it reads next. -/
theorem append_of_idxOf? {xs data : List α} {i : Nat} (h : data.idxOf? sep = some i)
    (ys : List α) : xs ++ (data ++ ys) =
      (xs ++ data.take i) ++ sep :: (data ++ ys).drop (i + 1) := by
  obtain ⟨hdata, -, hi⟩ := idxOf?_eq_some h
  have hrest : data.drop (i + 1) ++ ys = (data ++ ys).drop (i + 1) :=
    (List.drop_append_of_le_length hi).symm
  rw [← hrest, List.append_assoc, ← List.cons_append, ← List.append_assoc (data.take i), ← hdata]

theorem pieces_of_idxOf? {xs data : List α} {i : Nat} (hxs : sep ∉ xs)
    (h : data.idxOf? sep = some i) (ys : List α) :
    pieces sep (xs ++ (data ++ ys)) =
      (xs ++ data.take i) :: pieces sep ((data ++ ys).drop (i + 1)) := by
  rw [append_of_idxOf? h, pieces_append]
  exact List.not_mem_append hxs (idxOf?_eq_some h).2.1

theorem lastPiece_of_idxOf? {xs data : List α} {i : Nat} (hxs : sep ∉ xs)
    (h : data.idxOf? sep = some i) (ys : List α) :
    lastPiece sep (xs ++ (data ++ ys)) = lastPiece sep ((data ++ ys).drop (i + 1)) := by
  rw [append_of_idxOf? h, lastPiece_append]
  exact List.not_mem_append hxs (idxOf?_eq_some h).2.1

/-- A search finds the separator that ends a piece. -/
theorem idxOf?_append {xs : List α} (h : sep ∉ xs) (ys : List α) :
    (xs ++ sep :: ys).idxOf? sep = some xs.length := by
  refine List.idxOf?_eq_some_iff.mpr ⟨by simp, by simp, fun j hj hsep => ?_⟩
  rw [List.getElem_append_left hj] at hsep
  exact h (hsep ▸ List.getElem_mem hj)

/-- What a search from the end finds. -/
theorem reverse_idxOf?_eq_some {xs : List α} {i : Nat} (h : xs.reverse.idxOf? sep = some i) :
    ∃ front back, xs = front ++ sep :: back ∧ sep ∉ back ∧ back.length = i := by
  obtain ⟨hxs, hnot, hi⟩ := idxOf?_eq_some h
  refine ⟨(xs.reverse.drop (i + 1)).reverse, (xs.reverse.take i).reverse, ?_, ?_, ?_⟩
  · have hreverse := congrArg List.reverse hxs
    rwa [List.reverse_reverse, List.reverse_append, List.reverse_cons, List.append_assoc,
      List.singleton_append] at hreverse
  · rwa [List.mem_reverse]
  · rw [List.length_reverse, List.length_take, Nat.min_eq_left (Nat.le_of_lt hi)]

theorem idxOf?_eq_none {xs : List α} (h : xs.idxOf? sep = none) : sep ∉ xs := by
  rwa [List.idxOf?_eq_none_iff] at h

/-- A search in the beginning of a text finds a separator that is in it. -/
theorem idxOf?_take {xs : List α} {i m : Nat} (h : xs.idxOf? sep = some i) (hm : i < m) :
    (xs.take m).idxOf? sep = some i := by
  obtain ⟨hi, hsep, hbefore⟩ := List.idxOf?_eq_some_iff.mp h
  refine List.idxOf?_eq_some_iff.mpr ⟨by rw [List.length_take]; omega, ?_, fun j hj => ?_⟩
  · rw [List.getElem_take]
    exact hsep
  · rw [List.getElem_take]
    exact hbefore j hj

/-! ### Reading in parts -/

/-- A text has no separator, or one behind its first piece. -/
theorem first_piece (sep : α) (xs : List α) :
    sep ∉ xs ∨ ∃ before after, xs = before ++ sep :: after ∧ sep ∉ before := by
  cases h : xs.idxOf? sep with
  | none => exact .inl (idxOf?_eq_none h)
  | some i =>
      obtain ⟨hxs, hbefore, -⟩ := idxOf?_eq_some h
      exact .inr ⟨_, _, hxs, hbefore⟩

/-- **A text in two parts**: the pieces of the first part, then those of its last piece with the
second part. -/
theorem pieces_append_text (xs ys : List α) :
    sep ∉ lastPiece sep xs ∧
      pieces sep (xs ++ ys) = pieces sep xs ++ pieces sep (lastPiece sep xs ++ ys) ∧
        lastPiece sep (xs ++ ys) = lastPiece sep (lastPiece sep xs ++ ys) := by
  induction hlength : xs.length using Nat.strongRecOn generalizing xs with
  | _ n ih =>
      rcases first_piece sep xs with hxs | ⟨before, after, rfl, hbefore⟩
      · rw [pieces_of_not_mem hxs, lastPiece_of_not_mem hxs]
        exact ⟨hxs, rfl, rfl⟩
      · have hlt : after.length < n := by
          rw [← hlength, List.length_append, List.length_cons]
          omega
        obtain ⟨hlast, hpieces, hrest⟩ := ih _ hlt after rfl
        rw [List.append_assoc, List.cons_append, pieces_append hbefore, pieces_append hbefore,
          lastPiece_append hbefore, lastPiece_append hbefore, hpieces]
        exact ⟨hlast, rfl, hrest⟩

/-- A text that ends with the separator is ended. -/
theorem terminated_concat (xs : List α) : Terminated sep (xs ++ [sep]) := by
  obtain ⟨hnot, -, hlast⟩ := @pieces_append_text _ _ sep xs [sep]
  rw [Terminated, hlast, lastPiece_append hnot, lastPiece_nil]

/-- Behind a text that is ended the pieces start anew. -/
theorem Terminated.append {xs : List α} (h : Terminated sep xs) (ys : List α) :
    pieces sep (xs ++ ys) = pieces sep xs ++ pieces sep ys ∧
      lastPiece sep (xs ++ ys) = lastPiece sep ys := by
  obtain ⟨-, hpieces, hlast⟩ := @pieces_append_text _ _ sep xs ys
  rw [show lastPiece sep xs = [] from h, List.nil_append] at hpieces hlast
  exact ⟨hpieces, hlast⟩

end Flow
