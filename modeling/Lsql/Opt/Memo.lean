import Lsql.Core.Fault

/-!
# Lsql.Opt.Memo

What a walk over a tree keeps for the nodes that it has left, by the address of the node.

The address of a node is its place in the tree, so two nodes have two addresses, and those of a
node's descendants end with its own. A walk that keeps something for a node only once it has left the
node's descendants never meets an address twice (`Fresh`).
-/

namespace Lsql.Opt

/-- The address of a node: the number of the tree, then the positions on the way to the node; the last
one comes first. -/
abbrev Address := List Nat

/-- An `unordered_map` from addresses. -/
abbrev Memo (α : Type) := List (Address × α)

namespace Memo

variable {α : Type}

/-- `contains`. -/
def contains (m : Memo α) (addr : Address) : Bool := (m.lookup addr).isSome

/-- `verify(emplace(addr, x).second)`. -/
def emplace (m : Memo α) (addr : Address) (x : α) (message : String) : Except Fault (Memo α) := do
  verify (!m.contains addr) message
  pure ((addr, x) :: m)

/-- `extract(addr)`, with `verify(!node.empty())`. -/
def extract (m : Memo α) (addr : Address) (message : String) : Except Fault (α × Memo α) :=
  match m.lookup addr with
  | some x => .ok (x, m.eraseP fun p => p.1 == addr)
  | none => .error (.panic message)

/-- `extract` for a number of children, from a position on. -/
def extractAll (addr : Address) (message : String) (i : Nat) :
    Nat → Memo α → Except Fault (List α × Memo α)
  | 0, m => .ok ([], m)
  | n + 1, m => do
    let (x, m) ← m.extract (i :: addr) message
    let (xs, m) ← extractAll addr message (i + 1) n m
    pure (x :: xs, m)

/-- `verify(contains(addr))`, then `at(addr)`. -/
def find (m : Memo α) (addr : Address) (message : String) : Except Fault α :=
  match m.lookup addr with
  | some x => .ok x
  | none => .error (.panic message)

/-- Nothing is kept for a node or its descendants. -/
def Fresh (addr : Address) (m : Memo α) : Prop := ∀ p ∈ m, ¬ addr <:+ p.1

variable {m m' : Memo α} {addr key : Address} {x y : α} {message : String}

theorem fresh_nil (addr : Address) : Fresh addr ([] : Memo α) := fun _ h => absurd h List.not_mem_nil

/-- Fresh for a node, fresh for its children. -/
theorem Fresh.child (h : Fresh addr m) (i : Nat) : Fresh (i :: addr) m :=
  fun p hp hsuffix => h p hp ((List.suffix_cons i addr).trans hsuffix)

theorem not_suffix_sibling {i j : Nat} (h : i ≠ j) : ¬ j :: addr <:+ i :: addr := by
  intro hsuffix
  have heq := hsuffix.eq_of_length rfl
  exact h (List.cons.inj heq).1.symm

/-- What is kept for one child leaves another one fresh. -/
theorem Fresh.cons_sibling {i j : Nat} (hij : i ≠ j) (h : Fresh (j :: addr) m) :
    Fresh (j :: addr) ((i :: addr, x) :: m) := by
  intro p hp
  rcases List.mem_cons.mp hp with rfl | hp
  · exact not_suffix_sibling hij
  · exact h p hp

theorem lookup_eq_none (h : ∀ p ∈ m, p.1 ≠ addr) : m.lookup addr = none :=
  List.lookup_eq_none_iff.mpr fun p hp => bne_iff_ne.mpr fun heq => h p hp heq.symm

theorem Fresh.lookup (h : Fresh addr m) : m.lookup addr = none :=
  lookup_eq_none fun p hp heq => h p hp (heq ▸ List.suffix_refl _)

theorem emplace_ok (h : Fresh addr m) : m.emplace addr x message = .ok ((addr, x) :: m) := by
  rw [emplace, contains, h.lookup]
  rfl

theorem extract_self : extract ((addr, x) :: m) addr message = .ok (x, m) := by
  rw [extract, List.lookup_cons, beq_self_eq_true]
  simp

/-- What is kept for other nodes stays. -/
theorem extract_cons_of_ne (hne : key ≠ addr) (h : m.extract addr message = .ok (y, m')) :
    extract ((key, x) :: m) addr message = .ok (y, (key, x) :: m') := by
  unfold extract at h ⊢
  rw [List.lookup_cons, beq_false_of_ne hne.symm]
  split at h
  next z hz =>
    cases h
    rw [hz]
    simp [hne]
  · cases h

/-- What a walk has kept for the children of a node, from a position on. -/
def kept (addr : Address) (i : Nat) : List α → Memo α → Memo α
  | [], m => m
  | x :: xs, m => kept addr (i + 1) xs ((i :: addr, x) :: m)

theorem extract_kept {i j : Nat} (hij : i < j) (xs : List α)
    (h : m.extract (i :: addr) message = .ok (y, m')) :
    (kept addr j xs m).extract (i :: addr) message = .ok (y, kept addr j xs m') := by
  induction xs generalizing j m m' with
  | nil => exact h
  | cons x xs ih =>
      refine ih (Nat.lt_succ_of_lt hij) (extract_cons_of_ne (fun heq => ?_) h)
      exact Nat.ne_of_gt hij (List.cons.inj heq).1

/-- What has been kept for the children is taken out, and nothing else. -/
theorem extractAll_kept (i : Nat) (xs : List α) (m : Memo α) :
    extractAll addr message i xs.length (kept addr i xs m) = .ok (xs, m) := by
  induction xs generalizing i m with
  | nil => rfl
  | cons x xs ih =>
      rw [List.length_cons, extractAll, kept,
        extract_kept (Nat.lt_succ_self i) xs (extract_self (x := x) (m := m)), ok_bind]
      dsimp only
      rw [ih, ok_bind]
      rfl

end Memo

end Lsql.Opt
