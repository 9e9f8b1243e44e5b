import Lsql.Ir.Substitution
import Lsql.Opt.Memo

/-!
# Lsql.Opt.ScalarCost

What the passes take the evaluation of scalars to cost (`optimize/ScalarCostEstimator.h`).

An estimator keeps the cost of every node that it has left, and the expressions of the cached scalars
that it has met: such an expression is paid for once. Costs are integers without a bound.
-/

namespace Lsql.Opt

open Ir

/-- `config::OptimizerSettings`, as far as the costs go. -/
structure OptimizerSettings where
  coalesceCostOverhead : Int := 1
  lowerCostOverhead : Int := 1
  splitPartCostOverhead : Int := 1
  substrCostOverhead : Int := 1
  parseTimestampCostOverhead : Int := 10
  jsonValueCostOverhead : Int := 10
  unaryOpCostOverhead : Int := 1
  binaryOpCostOverhead : Int := 1
  castToStringCostOverhead : Int := 2
  parseStringCostOverhead : Int := 10
  regexCostOverhead : Int := 4
  projectionCostOverhead : Int := 10
  cachedScalarCostOverhead : Int := 1

/-- `ScalarCostEstimator`. -/
structure ScalarCostEstimator where
  totalCost : Int := 0
  scalarCost : Memo Int := []
  cached : List Scalar := []

namespace ScalarCostEstimator

/-- `setScalarCost`. -/
def setScalarCost (est : ScalarCostEstimator) (addr : Address) (cost : Int) :
    Except Fault ScalarCostEstimator := do
  let scalarCost ← est.scalarCost.emplace addr cost "verify(!scalar_cost_.contains(s)) failed "
  pure { est with scalarCost }

/-- `cost`. -/
def cost (est : ScalarCostEstimator) (addr : Address) : Except Fault Int :=
  est.scalarCost.find addr "verify(scalar_cost_.contains(s)) failed "

/-- The sum over a number of arguments, from a position on. -/
def costAll (est : ScalarCostEstimator) (addr : Address) (i : Nat) : Nat → Except Fault Int
  | 0 => .ok 0
  | n + 1 => do
    let cost ← est.cost (i :: addr)
    let rest ← costAll est addr (i + 1) n
    pure (cost + rest)

/-- What a call costs besides its arguments. -/
def functionCost (settings : OptimizerSettings) (f : Function) (args : List Scalar) :
    Except Fault Int :=
  match f with
  | .lower => .ok settings.lowerCostOverhead
  | .splitPart _ _ => .ok settings.splitPartCostOverhead
  | .substr _ _ => .ok settings.substrCostOverhead
  | .parseTimestamp _ => .ok settings.parseTimestampCostOverhead
  | .jsonValue _ => .ok settings.jsonValueCostOverhead
  | .coalesce => .ok settings.coalesceCostOverhead
  | .cast castTo =>
    match args with
    | [arg] => .ok ((if castTo = .string then settings.castToStringCostOverhead else 0) +
        if arg.valueType = .string then settings.parseStringCostOverhead else 0)
    -- a build without assertions reads `s.args.front()`
    | _ => .error (.panic "verify(s.args.size() == 1) failed ")
  | .like _ | .rSubstr _ => .ok settings.regexCostOverhead
  | .booleanNegate => .ok settings.unaryOpCostOverhead
  | .equal | .notEqual | .less _ | .greater _ | .lessEqual _ | .greaterEqual _ | .and | .or
  | .divide _ | .add _ | .subtract _ | .percentile _ _ => .ok settings.binaryOpCostOverhead
  | .countNonNull | .countAll | .min _ | .max _ | .sum _ => .ok 0

mutual

/-- `visit`, with the `view` of every node. -/
def visit (settings : OptimizerSettings) (addr : Address) :
    Scalar → ScalarCostEstimator → Except Fault ScalarCostEstimator
  | .field _ _, est => est.setScalarCost addr 0
  | .value _ _, est => est.setScalarCost addr 0
  | .coalesce args _, est => do
    let est ← visitAll settings addr 0 args est
    let cost ← est.costAll addr 0 args.length
    est.setScalarCost addr (settings.coalesceCostOverhead + cost)
  | .fnCall f args _, est => do
    let est ← visitAll settings addr 0 args est
    let cost ← est.costAll addr 0 args.length
    let overhead ← functionCost settings f args
    est.setScalarCost addr (cost + overhead)
  | .cached s _, est =>
    if est.cached.any s.equal then est.setScalarCost addr settings.cachedScalarCostOverhead
    else do
      let est ← visit settings (0 :: addr) s { est with cached := s :: est.cached }
      let cost ← est.cost (0 :: addr)
      est.setScalarCost addr (cost + settings.cachedScalarCostOverhead)

def visitAll (settings : OptimizerSettings) (addr : Address) (i : Nat) :
    List Scalar → ScalarCostEstimator → Except Fault ScalarCostEstimator
  | [], est => .ok est
  | a :: as, est => do
    let est ← visit settings (i :: addr) a est
    visitAll settings addr (i + 1) as est

end

/-- `estimate`. -/
def estimate (settings : OptimizerSettings) (addr : Address) (s : Scalar)
    (est : ScalarCostEstimator) : Except Fault ScalarCostEstimator := do
  let est ← visit settings addr s est
  let result ← est.cost addr
  pure { est with totalCost := est.totalCost + result }

/-- `estimate` for one scalar after the other, from a number on. -/
def estimateAll (settings : OptimizerSettings) (i : Nat) :
    List Scalar → ScalarCostEstimator → Except Fault ScalarCostEstimator
  | [], est => .ok est
  | s :: ss, est => do
    let est ← estimate settings [i] s est
    estimateAll settings (i + 1) ss est

/-! ### No cost is set twice or missed -/

/-- A walk has left some nodes: what it kept before it keeps, and else only costs of those nodes and
their descendants. -/
structure Visited (nodes : Address → Prop) (m m' : Memo Int) : Prop where
  here : ∀ addr, nodes addr → ∃ c, m'.lookup addr = some c
  keeps : ∀ key c, m.lookup key = some c → ∃ c', m'.lookup key = some c'
  within : ∀ p ∈ m', p ∈ m ∨ ∃ addr, nodes addr ∧ addr <:+ p.1

variable {settings : OptimizerSettings} {addr : Address} {est est' : ScalarCostEstimator}
  {m m' m'' : Memo Int} {nodes nodes' : Address → Prop}

theorem Visited.nil (m : Memo Int) : Visited (fun _ => False) m m :=
  ⟨fun _ h => absurd h id, fun _ c h => ⟨c, h⟩, fun _ h => .inl h⟩

theorem Visited.trans (h : Visited nodes m m') (h' : Visited nodes' m' m'') :
    Visited (fun a => nodes a ∨ nodes' a) m m'' where
  here a ha := by
    rcases ha with ha | ha
    · obtain ⟨c, hc⟩ := h.here a ha
      exact h'.keeps a c hc
    · exact h'.here a ha
  keeps key c hc := by
    obtain ⟨c', hc'⟩ := h.keeps key c hc
    exact h'.keeps key c' hc'
  within p hp := by
    rcases h'.within p hp with hp | ⟨a, ha, hsuffix⟩
    · rcases h.within p hp with hp | ⟨a, ha, hsuffix⟩
      · exact .inl hp
      · exact .inr ⟨a, .inl ha, hsuffix⟩
    · exact .inr ⟨a, .inr ha, hsuffix⟩

/-- A node that is none of those and none of their descendants. -/
theorem Visited.fresh (h : Visited nodes m m') (hfresh : m.Fresh addr)
    (hnodes : ∀ a, nodes a → a.length = addr.length ∧ a ≠ addr) : m'.Fresh addr := by
  intro p hp hsuffix
  rcases h.within p hp with hp | ⟨a, ha, hsuffix'⟩
  · exact hfresh p hp hsuffix
  · obtain ⟨hlength, hne⟩ := hnodes a ha
    have hsame := List.suffix_of_suffix_length_le hsuffix' hsuffix (Nat.le_of_eq hlength)
    exact hne (hsame.eq_of_length hlength)

/-- The cost of a node, once its descendants have been left. -/
theorem setScalarCost_ok (hfresh : m.Fresh addr) (h : Visited nodes m est.scalarCost)
    (hnodes : ∀ a, nodes a → ∃ i, a = i :: addr) (c : Int) :
    ∃ est', est.setScalarCost addr c = .ok est' ∧
      Visited (fun a => a = addr) m est'.scalarCost := by
  have hlookup : est.scalarCost.lookup addr = none := by
    refine Memo.lookup_eq_none fun p hp heq => ?_
    rcases h.within p hp with hp | ⟨a, ha, hsuffix⟩
    · exact hfresh p hp (heq ▸ List.suffix_refl _)
    · -- a descendant of `addr` is not `addr`
      obtain ⟨i, rfl⟩ := hnodes a ha
      have hlength := hsuffix.length_le
      rw [heq, List.length_cons] at hlength
      exact absurd hlength (Nat.not_succ_le_self _)
  refine ⟨{ est with scalarCost := (addr, c) :: est.scalarCost }, ?_, ?_⟩
  · rw [setScalarCost, Memo.emplace, Memo.contains, hlookup]
    rfl
  · refine ⟨fun a ha => ⟨c, ?_⟩, fun key d hd => ?_, fun p hp => ?_⟩
    · rw [ha, List.lookup_cons, beq_self_eq_true]
    · obtain ⟨d', hd'⟩ := h.keeps key d hd
      rw [List.lookup_cons]
      split
      · exact ⟨c, rfl⟩
      · exact ⟨d', hd'⟩
    · rcases List.mem_cons.mp hp with rfl | hp
      · exact .inr ⟨addr, rfl, List.suffix_refl _⟩
      · rcases h.within p hp with hp | ⟨a, ha, hsuffix⟩
        · exact .inl hp
        · obtain ⟨i, rfl⟩ := hnodes a ha
          exact .inr ⟨addr, rfl, (List.suffix_cons i addr).trans hsuffix⟩

theorem cost_ok {c : Int} (h : est.scalarCost.lookup addr = some c) : est.cost addr = .ok c := by
  rw [cost, Memo.find, h]

theorem costAll_ok {i : Nat} (n : Nat)
    (h : ∀ j, i ≤ j → j < i + n → ∃ c, est.scalarCost.lookup (j :: addr) = some c) :
    ∃ c, est.costAll addr i n = .ok c := by
  induction n generalizing i with
  | zero => exact ⟨0, rfl⟩
  | succ n ih =>
      obtain ⟨c, hc⟩ := h i (Nat.le_refl i) (by omega)
      obtain ⟨rest, hrest⟩ := @ih (i + 1) fun j hj hlt => h j (by omega) (by omega)
      refine ⟨c + rest, ?_⟩
      rw [costAll, cost_ok hc, ok_bind, hrest]
      rfl

theorem functionCost_ok {f : Function} {args : List Scalar}
    (h : ∀ castTo, f = .cast castTo → args.length = 1) :
    ∃ c, functionCost settings f args = .ok c := by
  cases f with
  | cast castTo =>
      obtain ⟨arg, rfl⟩ := List.length_eq_one_iff.mp (h castTo rfl)
      exact ⟨_, rfl⟩
  | _ => exact ⟨_, rfl⟩

/-- The nodes of arguments, from a position on. -/
def argNodes (addr : Address) (i n : Nat) (a : Address) : Prop :=
  ∃ j, i ≤ j ∧ j < i + n ∧ a = j :: addr

theorem visitAll_ok {as : List Scalar} {i : Nat}
    (h : ∀ a ∈ as, ∀ addr est, est.scalarCost.Fresh addr → ∃ est',
      visit settings addr a est = .ok est' ∧
        Visited (fun a => a = addr) est.scalarCost est'.scalarCost)
    (hfresh : ∀ j, i ≤ j → est.scalarCost.Fresh (j :: addr)) :
    ∃ est', visitAll settings addr i as est = .ok est' ∧
      Visited (argNodes addr i as.length) est.scalarCost est'.scalarCost := by
  induction as generalizing i est with
  | nil =>
      refine ⟨est, rfl, fun a ha => ?_, fun _ c h => ⟨c, h⟩, fun _ h => .inl h⟩
      obtain ⟨j, hle, hlt, -⟩ := ha
      exact absurd hlt (Nat.not_lt.mpr hle)
  | cons a as ih =>
      obtain ⟨est₁, ha, hvisited⟩ := h a List.mem_cons_self (i :: addr) est (hfresh i (Nat.le_refl i))
      have hfresh₁ : ∀ j, i + 1 ≤ j → est₁.scalarCost.Fresh (j :: addr) := by
        intro j hj
        refine hvisited.fresh (hfresh j (by omega)) fun k hk => ?_
        subst hk
        exact ⟨rfl, fun heq => by have := (List.cons.inj heq).1; omega⟩
      obtain ⟨est', has, hvisited'⟩ := ih (fun b hb => h b (List.mem_cons_of_mem _ hb)) hfresh₁
      refine ⟨est', ?_, ?_⟩
      · rw [visitAll, ha, ok_bind]
        exact has
      · have hboth := hvisited.trans hvisited'
        refine ⟨fun b hb => hboth.here b ?_, hboth.keeps, fun p hp => ?_⟩
        · obtain ⟨j, hle, hlt, rfl⟩ := hb
          rw [List.length_cons] at hlt
          by_cases hj : j = i
          · exact .inl (hj ▸ rfl)
          · exact .inr ⟨j, by omega, by omega, rfl⟩
        · rcases hboth.within p hp with hp | ⟨b, hb, hsuffix⟩
          · exact .inl hp
          · refine .inr ⟨b, ?_, hsuffix⟩
            rw [argNodes, List.length_cons]
            rcases hb with rfl | ⟨j, hle, hlt, rfl⟩
            · exact ⟨i, by omega, by omega, rfl⟩
            · exact ⟨j, by omega, by omega, rfl⟩

theorem argNodes_child {i n : Nat} {a : Address} (h : argNodes addr i n a) : ∃ j, a = j :: addr := by
  obtain ⟨j, -, -, rfl⟩ := h
  exact ⟨j, rfl⟩

/-- The cost of a node without descendants. -/
theorem setLeafCost_ok (hfresh : est.scalarCost.Fresh addr) (c : Int) :
    ∃ est', est.setScalarCost addr c = .ok est' ∧
      Visited (fun a => a = addr) est.scalarCost est'.scalarCost :=
  setScalarCost_ok hfresh (.nil _) (fun _ h => absurd h id) c

/-- **The walk completes** for a scalar whose node has not been visited. -/
theorem visit_ok {s : Scalar} (hs : s.CastsUnary) (hfresh : est.scalarCost.Fresh addr) :
    ∃ est', visit settings addr s est = .ok est' ∧
      Visited (fun a => a = addr) est.scalarCost est'.scalarCost := by
  induction s using Scalar.induction generalizing addr est with
  | field id t => exact setLeafCost_ok hfresh 0
  | value v t => exact setLeafCost_ok hfresh 0
  | coalesce args t ih =>
      have hunary := Scalar.castsUnaryAll_iff.mp hs
      obtain ⟨est₁, hargs, hvisited⟩ := @visitAll_ok settings addr est args 0
        (fun a ha addr est hfresh => ih a ha (hunary a ha) hfresh) fun j _ => hfresh.child j
      obtain ⟨c, hc⟩ := costAll_ok args.length fun j hle hlt =>
        hvisited.here (j :: addr) ⟨j, hle, hlt, rfl⟩
      obtain ⟨est', hest', hdone⟩ := setScalarCost_ok hfresh hvisited (fun _ => argNodes_child)
        (settings.coalesceCostOverhead + c)
      refine ⟨est', ?_, hdone⟩
      rw [visit, hargs, ok_bind, hc, ok_bind]
      exact hest'
  | fnCall f args t ih =>
      obtain ⟨hcast, hunary⟩ := Scalar.castsUnary_fnCall.mp hs
      obtain ⟨est₁, hargs, hvisited⟩ := @visitAll_ok settings addr est args 0
        (fun a ha addr est hfresh => ih a ha (hunary a ha) hfresh) fun j _ => hfresh.child j
      obtain ⟨c, hc⟩ := costAll_ok args.length fun j hle hlt =>
        hvisited.here (j :: addr) ⟨j, hle, hlt, rfl⟩
      obtain ⟨overhead, hoverhead⟩ := @functionCost_ok settings f args hcast
      obtain ⟨est', hest', hdone⟩ := setScalarCost_ok hfresh hvisited (fun _ => argNodes_child)
        (c + overhead)
      refine ⟨est', ?_, hdone⟩
      rw [visit, hargs, ok_bind, hc, ok_bind, hoverhead, ok_bind]
      exact hest'
  | cached s t ih =>
      rw [visit]
      split
      · exact setLeafCost_ok hfresh _
      · -- the expression is remembered before it is visited
        obtain ⟨est₁, hs₁, hvisited⟩ := @ih (0 :: addr) { est with cached := s :: est.cached } hs
          (hfresh.child 0)
        obtain ⟨c, hc⟩ := hvisited.here (0 :: addr) rfl
        obtain ⟨est', hest', hdone⟩ := setScalarCost_ok hfresh hvisited (fun _ ha => ⟨0, ha⟩)
          (c + settings.cachedScalarCostOverhead)
        refine ⟨est', ?_, hdone⟩
        rw [hs₁, ok_bind, cost_ok hc, ok_bind]
        exact hest'

theorem estimate_ok {s : Scalar} (hs : s.CastsUnary) (hfresh : est.scalarCost.Fresh addr) :
    ∃ est', estimate settings addr s est = .ok est' ∧
      Visited (fun a => a = addr) est.scalarCost est'.scalarCost := by
  obtain ⟨est₁, hvisit, hvisited⟩ := @visit_ok settings addr est s hs hfresh
  obtain ⟨c, hc⟩ := hvisited.here addr rfl
  refine ⟨{ est₁ with totalCost := est₁.totalCost + c }, ?_, hvisited⟩
  rw [estimate, hvisit, ok_bind, cost_ok hc]
  rfl

/-- Scalars with numbers of their own. -/
theorem estimateAll_ok {ss : List Scalar} (hss : ∀ s ∈ ss, s.CastsUnary) {i : Nat}
    (hfresh : ∀ j, i ≤ j → est.scalarCost.Fresh [j]) :
    ∃ est', estimateAll settings i ss est = .ok est' := by
  induction ss generalizing i est with
  | nil => exact ⟨est, rfl⟩
  | cons s ss ih =>
      obtain ⟨est₁, hs, hvisited⟩ := @estimate_ok settings [i] est s (hss s List.mem_cons_self)
        (hfresh i (Nat.le_refl i))
      have hfresh₁ : ∀ j, i + 1 ≤ j → est₁.scalarCost.Fresh [j] := by
        intro j hj
        refine hvisited.fresh (hfresh j (by omega)) fun a ha => ?_
        subst ha
        exact ⟨rfl, fun heq => by have := (List.cons.inj heq).1; omega⟩
      obtain ⟨est', hest'⟩ := ih (fun t ht => hss t (List.mem_cons_of_mem _ ht)) hfresh₁
      refine ⟨est', ?_⟩
      rw [estimateAll, hs, ok_bind]
      exact hest'

end ScalarCostEstimator

end Lsql.Opt
