import Lsql.Phys.Build

/-!
# Lsql.Phys.Wiring

What the builder keeps: every input of every node that it has made is subscribed to one earlier
node of the same phase, collecting and consuming nodes have no subscribers of their own, and no two
nodes write one state object (`Builder.Ok`).

While a node is being made its inputs are subscribed one after another; `Wired` is the invariant in
between.
-/

namespace Lsql.Phys

open Lsql.Exec Lsql.Plan Flow

namespace Operator

/-- Whether an operator answers to subscribers. -/
def exposed : Operator → Bool
  | semiJoinBuild | markJoinBuild | leftJoinBuild _ | consumerBridge _ => false
  | _ => true

/-- A newly built operator and its state object. -/
def Fresh (op : Operator) (c : Cell) : Prop :=
  match op with
  | unionAll self => self.streamFinished = false ∧ self.eofCount = 0 ∧ 0 < self.inputs
  | mergeSorted self => self.delayDone = false ∧ self.eof = fun _ => false
  | aggregateCollector _ => c = .aggregate []
  | materializeCollector => c = .materialize []
  | _ => True

/-- The collector at a node, if there is one. -/
def collectorOf : Operator → AggregateCollector
  | aggregateCollector self => self
  | _ => { aggregators := [], scalarContext := [] }

theorem source_of_ports {op : Operator} {c : Cell} (hfresh : op.Fresh c) (h : op.ports = 0) :
    op = source := by
  cases op with
  | source => rfl
  | unionAll self => exact absurd h (Nat.ne_of_gt hfresh.2.2)
  | _ => cases h

/-- A newly built operator meets its contract. -/
theorem Fresh.inv [Platform] {start : Nat → CollectorStart} {i : Nat} {op : Operator} {c : Cell}
    {d : Prog.Downstream Record} (h : op.Fresh c)
    (hstart : start i =
      { collects := op.collects, materializes := op.materializes, collector := op.collectorOf,
        waited := d.active })
    (hout : d.out = [])
    (hquiet : op.exposed = false → d.active = false) : Inv start i op (fun _ => []) d c := by
  have hclosed : ∀ n, closedInputs n (fun _ => []) = 0 := fun n => by
    simp [closedInputs, refused]
  refine ⟨⟨by rw [hstart], by rw [hstart]⟩, ?_⟩
  cases op with
  | source => trivial
  | unionAll self =>
      exact fun hpos => ⟨fun hfin => by simp [h.1] at hfin,
        fun _ => ⟨by rw [h.2.1, hclosed], by rwa [h.2.1]⟩⟩
  | mergeSorted self =>
      exact .inr ⟨h.1, by simp [h.2, refused], by simp [h.2, refused],
        by simp [MergeSorted.bothEof, h.2]⟩
  | semiJoinBuild | markJoinBuild => exact hquiet rfl
  | leftJoinBuild key => exact hquiet rfl
  | consumerBridge self => exact hquiet rfl
  | aggregateCollector self =>
      refine ⟨by simp [refused], ?_⟩
      rw [hstart]
      exact {
        active := fun _ => rfl
        took := by simp
        fed := fun _ => rfl
        ended := by simp
        fresh := fun _ => ⟨h, hout⟩ }
  | materializeCollector =>
      exact ⟨by simp [refused], {
        took := by simp
        stored := h
        sent := by simp [hout]
        live := fun _ => hout }⟩
  | _ => exact fun hrefused => by simp [refused] at hrefused

end Operator

/-- What every source's body does: when it ends, no subscriber is left. -/
def Source.Drains (s : Source) : Prop := ∀ d c, Net.Drains s.push d c

/-- A network in which every input is subscribed, but for those of `node` from `index` on. -/
structure Builder.Wired (b : Builder) (node index : Nat) : Prop where
  newest : node + 1 = b.size ∨ node = b.size
  forward : ∀ {i t}, t ∈ b.subs i → i < t.node
  bounded : ∀ {i t}, t ∈ b.subs i → t.node < b.size
  inRange : ∀ {i t}, t ∈ b.subs i → t.index < (b.op t.node).ports
  nodup : ∀ i, (b.subs i).Nodup
  unique : ∀ {i j t}, t ∈ b.subs i → t ∈ b.subs j → i = j
  connected : ∀ i < b.size, ∀ p < (b.op i).ports, i ≠ node ∨ p < index → ∃ k, ⟨i, p⟩ ∈ b.subs k
  unconnected : ∀ p ≥ index, ∀ k, ⟨node, p⟩ ∉ b.subs k
  samePhase : ∀ {i t}, t ∈ b.subs i → b.phase t.node = b.phase i
  heads : ∀ e ∈ b.ops, e.2 < node ∧ b.phase e.2 = e.1.1 ∧ (b.op e.2).exposed = true
  heads_unique : ∀ e ∈ b.ops, ∀ e' ∈ b.ops, e.2 = e'.2 → e = e'
  quiet : ∀ i, (b.op i).exposed = false → b.subs i = []
  owned : ∀ {i j}, (b.op i).owner = true → (b.op j).owner = true → b.cell i = b.cell j → i = j
  cells : ∀ i, b.cell i < b.cells
  outside : ∀ i, b.size ≤ i → b.op i = .source
  fresh : ∀ i, (b.op i).Fresh (b.heap (b.cell i))

/-- The sources of a network are the threads of its phases. -/
structure Builder.Sourced (b : Builder) : Prop where
  sources : ∀ s ∈ b.sources,
    s.node < b.size ∧ b.op s.node = .source ∧ b.phase s.node = s.phase ∧ s.Drains
  sources_nodup : (b.sources.map Source.node).Nodup
  sources_all : ∀ i < b.size, b.op i = .source → ∃ s ∈ b.sources, s.node = i

/-- A network in which every input is subscribed. -/
structure Builder.Ok (b : Builder) : Prop extends b.Wired b.size 0, b.Sourced

namespace Builder

theorem ok_empty : empty.Ok where
  newest := .inr rfl
  forward := by simp [empty]
  bounded := by simp [empty]
  inRange := by simp [empty]
  nodup := by simp [empty]
  unique := by simp [empty]
  connected := by simp [empty]
  unconnected := by simp [empty]
  samePhase := by simp [empty]
  heads := by simp [empty]
  heads_unique := by simp [empty]
  quiet := by simp [empty]
  owned := by simp [empty, Operator.owner]
  cells := by simp [empty]
  outside := by simp [empty]
  fresh := by simp [empty, Operator.Fresh]
  sources := by simp [empty]
  sources_nodup := by simp [empty]
  sources_all := by simp [empty]

/-- The last input of a node has been subscribed. -/
theorem Wired.ok {b : Builder} {node index : Nat} (h : b.Wired node index) (hs : b.Sourced)
    (hall : node < b.size → (b.op node).ports ≤ index) : b.Ok where
  newest := .inr rfl
  forward := h.forward
  bounded := h.bounded
  inRange := h.inRange
  nodup := h.nodup
  unique := h.unique
  connected i hi p hp _ := by
    refine h.connected i hi p hp ?_
    by_cases hin : i = node
    · subst hin
      exact .inr (Nat.lt_of_lt_of_le hp (hall hi))
    · exact .inl hin
  unconnected p _ k hmem := Nat.lt_irrefl _ (h.bounded hmem)
  samePhase := h.samePhase
  heads e he := by
    have ⟨hlt, hrest⟩ := h.heads e he
    have := h.newest
    exact ⟨by omega, hrest⟩
  heads_unique := h.heads_unique
  quiet := h.quiet
  owned := h.owned
  cells := h.cells
  outside := h.outside
  fresh := h.fresh
  toSourced := hs

/-! ### Single steps -/

/-- A new state object changes nothing. -/
theorem Ok.newState {b : Builder} (h : b.Ok) (c : Cell) : (b.newState c).1.Ok :=
  { h with
    cells := fun i => Nat.lt_succ_of_lt (h.cells i)
    fresh := fun i => by
      show (b.op i).Fresh (Function.update b.heap b.cells c (b.cell i))
      rw [Function.update_of_ne (Nat.ne_of_lt (h.cells i))]
      exact h.fresh i }

section NewOperation

variable {b : Builder} {op : Operator} {state phase : Nat}

theorem newOperation_op_self : (b.newOperation op state phase).1.op b.size = op :=
  Function.update_self ..

theorem newOperation_op_of_ne {i : Nat} (h : i ≠ b.size) :
    (b.newOperation op state phase).1.op i = b.op i := Function.update_of_ne h ..

theorem newOperation_cell_self : (b.newOperation op state phase).1.cell b.size = state :=
  Function.update_self ..

theorem newOperation_cell_of_ne {i : Nat} (h : i ≠ b.size) :
    (b.newOperation op state phase).1.cell i = b.cell i := Function.update_of_ne h ..

theorem newOperation_phase_self : (b.newOperation op state phase).1.phase b.size = phase :=
  Function.update_self ..

theorem newOperation_phase_of_ne {i : Nat} (h : i ≠ b.size) :
    (b.newOperation op state phase).1.phase i = b.phase i := Function.update_of_ne h ..

/-- A new node, whose inputs are yet to be subscribed. -/
theorem Ok.newOperation (h : b.Ok) (hstate : state < b.cells) (hfresh : op.Fresh (b.heap state))
    (howned : op.owner = true → ∀ i, (b.op i).owner = true → b.cell i ≠ state) :
    (b.newOperation op state phase).1.Wired b.size 0 where
  newest := .inl rfl
  forward := h.forward
  bounded ht := Nat.lt_succ_of_lt (h.bounded ht)
  inRange ht := by
    rw [newOperation_op_of_ne (Nat.ne_of_lt (h.bounded ht))]
    exact h.inRange ht
  nodup := h.nodup
  unique := h.unique
  connected i hi p hp hor := by
    have hne : i ≠ b.size := hor.resolve_right (Nat.not_lt_zero p)
    rw [newOperation_op_of_ne hne] at hp
    have hi : i < b.size + 1 := hi
    exact h.connected i (by omega) p hp (.inl hne)
  unconnected p _ k hmem := Nat.lt_irrefl _ (h.bounded hmem)
  samePhase {i t} ht := by
    have hlt := h.bounded ht
    have := h.forward ht
    rw [newOperation_phase_of_ne (by omega), newOperation_phase_of_ne (by omega)]
    exact h.samePhase ht
  heads e he := by
    have ⟨hlt, hrest⟩ := h.heads e he
    rw [newOperation_phase_of_ne (Nat.ne_of_lt hlt), newOperation_op_of_ne (Nat.ne_of_lt hlt)]
    exact ⟨hlt, hrest⟩
  heads_unique := h.heads_unique
  quiet i hi := by
    by_cases hib : i = b.size
    · refine List.eq_nil_iff_forall_not_mem.mpr fun t ht => ?_
      have := h.forward ht
      have := h.bounded ht
      omega
    · rw [newOperation_op_of_ne hib] at hi
      exact h.quiet i hi
  owned {i j} hi hj hc := by
    by_cases hib : i = b.size <;> by_cases hjb : j = b.size
    · rw [hib, hjb]
    · subst hib
      rw [newOperation_op_self] at hi
      rw [newOperation_op_of_ne hjb] at hj
      rw [newOperation_cell_self, newOperation_cell_of_ne hjb] at hc
      exact absurd hc.symm (howned hi j hj)
    · subst hjb
      rw [newOperation_op_self] at hj
      rw [newOperation_op_of_ne hib] at hi
      rw [newOperation_cell_self, newOperation_cell_of_ne hib] at hc
      exact absurd hc (howned hj i hi)
    · rw [newOperation_op_of_ne hib] at hi
      rw [newOperation_op_of_ne hjb] at hj
      rw [newOperation_cell_of_ne hib, newOperation_cell_of_ne hjb] at hc
      exact h.owned hi hj hc
  cells i := by
    by_cases hib : i = b.size
    · rw [hib, newOperation_cell_self]
      exact hstate
    · rw [newOperation_cell_of_ne hib]
      exact h.cells i
  outside i hi := by
    have hi : b.size + 1 ≤ i := hi
    rw [newOperation_op_of_ne (by omega)]
    exact h.outside i (by omega)
  fresh i := by
    by_cases hib : i = b.size
    · rw [hib, newOperation_op_self, newOperation_cell_self]
      exact hfresh
    · rw [newOperation_op_of_ne hib, newOperation_cell_of_ne hib]
      exact h.fresh i

theorem Ok.newOperation_sourced (h : b.Ok) (hop : op ≠ .source) :
    (b.newOperation op state phase).1.Sourced where
  sources s hs := by
    have ⟨hlt, hrest⟩ := h.sources s hs
    rw [newOperation_phase_of_ne (Nat.ne_of_lt hlt), newOperation_op_of_ne (Nat.ne_of_lt hlt)]
    exact ⟨Nat.lt_succ_of_lt hlt, hrest⟩
  sources_nodup := h.sources_nodup
  sources_all i hi hsource := by
    have hi : i < b.size + 1 := hi
    by_cases hib : i = b.size
    · rw [hib, newOperation_op_self] at hsource
      exact absurd hsource hop
    · rw [newOperation_op_of_ne hib] at hsource
      exact h.sources_all i (by omega) hsource

/-- A new source. -/
theorem Ok.addSource (h : b.Ok) (hstate : state < b.cells) {push : Body Unit}
    (hdrains : ∀ d c, Net.Drains push d c) : (b.addSource state phase push).1.Ok := by
  have hwired : (b.newOperation .source state phase).1.Wired b.size 0 :=
    h.newOperation hstate trivial (by simp [Operator.owner])
  have hsourced : (b.addSource state phase push).1.Sourced := {
    sources := fun s hs => by
      rcases List.mem_append.mp hs with hs | hs
      · obtain ⟨hlt, hrest⟩ := h.sources s hs
        refine ⟨Nat.lt_succ_of_lt hlt, ?_⟩
        show (b.newOperation .source state phase).1.op s.node = _ ∧
          (b.newOperation .source state phase).1.phase s.node = _ ∧ _
        rw [newOperation_phase_of_ne (Nat.ne_of_lt hlt), newOperation_op_of_ne (Nat.ne_of_lt hlt)]
        exact hrest
      · have hop : (b.newOperation .source state phase).1.op b.size = _ := newOperation_op_self
        have hphase : (b.newOperation .source state phase).1.phase b.size = _ :=
          newOperation_phase_self
        cases List.mem_singleton.mp hs
        exact ⟨Nat.lt_succ_self _, hop, hphase, hdrains⟩
    sources_nodup := by
      show ((b.sources ++ [_]).map Source.node).Nodup
      rw [List.map_append, List.map_singleton, List.nodup_append]
      refine ⟨h.sources_nodup, by simp, fun i hi j hj => ?_⟩
      obtain ⟨s, hs, rfl⟩ := List.mem_map.mp hi
      rw [List.mem_singleton.mp hj]
      exact Nat.ne_of_lt (h.sources s hs).1
    sources_all := fun i hi hsource => by
      have hi : i < b.size + 1 := hi
      by_cases hib : i = b.size
      · exact ⟨_, List.mem_append_right _ (List.mem_singleton.mpr rfl), hib.symm⟩
      · have hsource : (b.newOperation .source state phase).1.op i = _ := hsource
        rw [newOperation_op_of_ne hib] at hsource
        obtain ⟨s, hs, hsi⟩ := h.sources_all i (by omega) hsource
        exact ⟨s, List.mem_append_left _ hs, hsi⟩ }
  -- the network is that of `newOperation`
  have hsame : (b.addSource state phase push).1.Wired b.size 0 := { hwired with }
  exact hsame.ok hsourced fun _ => by
    show ((b.newOperation .source state phase).1.op b.size).ports ≤ 0
    rw [newOperation_op_self]
    exact Nat.le_refl 0

end NewOperation

/-! ### Subscribing -/

theorem get_mem {b : Builder} {op phase node : Nat} (h : b.get op phase = .ok node) :
    ((phase, op), node) ∈ b.ops := by
  unfold get at h
  split at h
  next e he =>
    cases h
    have hkey : e.1 = (phase, op) := by simpa using List.find?_some he
    have hmem := List.mem_of_find?_eq_some he
    rwa [← hkey]
  · split at h <;> cases h

theorem get_congr {b b' : Builder} (h : b'.ops = b.ops) (op phase : Nat) :
    b'.get op phase = b.get op phase := by
  unfold Builder.get
  rw [h]

/-- An input of the newest node is subscribed. -/
theorem Wired.output {b b' : Builder} {node index n : Nat} (h : b.Wired node index)
    (hnode : node < b.size) (hindex : index < (b.op node).ports) (hn : n < node)
    (hexposed : (b.op n).exposed = true) (hphase : b.phase node = b.phase n)
    (hout : b.output n ⟨node, index⟩ = .ok b') : b'.Wired node (index + 1) := by
  obtain ⟨-, -, hb'⟩ := bind_eq_ok.mp hout
  cases hb'
  have hmem : ∀ {i t}, t ∈ Function.update b.subs n (b.subs n ++ [⟨node, index⟩]) i →
      t ∈ b.subs i ∨ i = n ∧ t = ⟨node, index⟩ := by
    intro i t ht
    by_cases hin : i = n
    · subst hin
      rw [Function.update_self] at ht
      simpa using ht
    · rw [Function.update_of_ne hin] at ht
      exact .inl ht
  have hold : ∀ {i t}, t ∈ b.subs i →
      t ∈ Function.update b.subs n (b.subs n ++ [⟨node, index⟩]) i := by
    intro i t ht
    by_cases hin : i = n
    · subst hin
      rw [Function.update_self]
      exact List.mem_append_left _ ht
    · rwa [Function.update_of_ne hin]
  have hnew : (⟨node, index⟩ : Port) ∈
      Function.update b.subs n (b.subs n ++ [⟨node, index⟩]) n := by simp
  have hfree : ∀ k, (⟨node, index⟩ : Port) ∉ b.subs k := h.unconnected index (Nat.le_refl _)
  exact { h with
    forward := fun ht => by
      rcases hmem ht with ht | ⟨rfl, rfl⟩
      · exact h.forward ht
      · exact hn
    bounded := fun ht => by
      rcases hmem ht with ht | ⟨rfl, rfl⟩
      · exact h.bounded ht
      · exact hnode
    inRange := fun ht => by
      rcases hmem ht with ht | ⟨rfl, rfl⟩
      · exact h.inRange ht
      · exact hindex
    nodup := fun i => by
      show (Function.update b.subs n (b.subs n ++ [⟨node, index⟩]) i).Nodup
      by_cases hin : i = n
      · subst hin
        rw [Function.update_self, List.nodup_append]
        refine ⟨h.nodup i, by simp, fun t ht u hu htu => ?_⟩
        rw [List.mem_singleton.mp hu] at htu
        exact hfree i (htu ▸ ht)
      · rw [Function.update_of_ne hin]
        exact h.nodup i
    unique := fun {i j t} hi hj => by
      rcases hmem hi with hi | ⟨hin, hit⟩ <;> rcases hmem hj with hj | ⟨hjn, hjt⟩
      · exact h.unique hi hj
      · exact absurd (hjt ▸ hi) (hfree i)
      · exact absurd (hit ▸ hj) (hfree j)
      · rw [hin, hjn]
    connected := fun i hi p hp hor => by
      by_cases hnew' : i = node ∧ p = index
      · obtain ⟨rfl, rfl⟩ := hnew'
        exact ⟨n, hnew⟩
      · obtain ⟨k, hk⟩ := h.connected i hi p hp (by omega)
        exact ⟨k, hold hk⟩
    unconnected := fun p hp k ht => by
      rcases hmem ht with ht | ⟨-, heq⟩
      · exact h.unconnected p (by omega) k ht
      · have : p = index := congrArg Port.index heq
        omega
    samePhase := fun ht => by
      rcases hmem ht with ht | ⟨rfl, rfl⟩
      · exact h.samePhase ht
      · exact hphase
    quiet := fun i hi => by
      have hin : i ≠ n := fun heq => by
        rw [heq] at hi
        exact absurd hexposed (by rw [hi]; exact Bool.false_ne_true)
      show Function.update b.subs n (b.subs n ++ [⟨node, index⟩]) i = []
      rw [Function.update_of_ne hin]
      exact h.quiet i hi }

/-- What subscribing changes: nothing but the subscriptions. -/
structure SameNodes (b b' : Builder) : Prop where
  size : b'.size = b.size
  op : b'.op = b.op
  cell : b'.cell = b.cell
  cells : b'.cells = b.cells
  heap : b'.heap = b.heap
  phase : b'.phase = b.phase
  sources : b'.sources = b.sources
  outputs : b'.outputs = b.outputs
  built : b'.built = b.built
  ops : b'.ops = b.ops
  subs : ∀ i, b.subs i <+: b'.subs i

theorem SameNodes.sourced {b b' : Builder} (h : SameNodes b b') (hs : b.Sourced) : b'.Sourced := by
  constructor
  · rw [h.size, h.op, h.phase, h.sources]
    exact hs.sources
  · rw [h.sources]
    exact hs.sources_nodup
  · rw [h.size, h.op, h.sources]
    exact hs.sources_all

theorem sameNodes_output {b b' : Builder} {n : Nat} {t : Port} (h : b.output n t = .ok b') :
    SameNodes b b' := by
  obtain ⟨-, -, hb'⟩ := bind_eq_ok.mp h
  cases hb'
  refine ⟨rfl, rfl, rfl, rfl, rfl, rfl, rfl, rfl, rfl, rfl, fun i => ?_⟩
  show b.subs i <+: Function.update b.subs n (b.subs n ++ [t]) i
  by_cases hin : i = n
  · subst hin
    rw [Function.update_self]
    exact List.prefix_append _ _
  · have heq : Function.update b.subs n (b.subs n ++ [t]) i = b.subs i :=
      Function.update_of_ne hin ..
    exact heq ▸ List.prefix_rfl

theorem output_subs {b b' : Builder} {n : Nat} {t : Port} (h : b.output n t = .ok b') :
    b'.subs = Function.update b.subs n (b.subs n ++ [t]) := by
  obtain ⟨-, -, hb'⟩ := bind_eq_ok.mp h
  cases hb'
  rfl

theorem SameNodes.trans {b b' b'' : Builder} (h : SameNodes b b') (h' : SameNodes b' b'') :
    SameNodes b b'' where
  size := h'.size.trans h.size
  op := h'.op.trans h.op
  cell := h'.cell.trans h.cell
  cells := h'.cells.trans h.cells
  heap := h'.heap.trans h.heap
  phase := h'.phase.trans h.phase
  sources := h'.sources.trans h.sources
  outputs := h'.outputs.trans h.outputs
  built := h'.built.trans h.built
  ops := h'.ops.trans h.ops
  subs i := (h.subs i).trans (h'.subs i)

/-- The inputs of the newest node are subscribed one after another. -/
theorem Wired.subscribe {b b' : Builder} {node index : Nat} {inputs : List (Nat × Nat)}
    (h : b.Wired node index) (hnode : node < b.size)
    (hports : (b.op node).ports = index + inputs.length)
    (hphase : ∀ e ∈ inputs, e.2 = b.phase node)
    (hsub : b.subscribe node index inputs = .ok b') :
    b'.Wired node (index + inputs.length) ∧ SameNodes b b' ∧
      (∀ k < inputs.length, ∃ e ∈ inputs[k]?, ∃ n, b.get e.1 e.2 = .ok n ∧
        ⟨node, index + k⟩ ∈ b'.subs n) ∧
      ∀ {n t}, t ∈ b'.subs n → t ∈ b.subs n ∨ ∃ e ∈ inputs, b.get e.1 e.2 = .ok n := by
  induction inputs generalizing b index with
  | nil =>
      cases hsub
      exact ⟨h, ⟨rfl, rfl, rfl, rfl, rfl, rfl, rfl, rfl, rfl, rfl, fun _ => List.prefix_rfl⟩,
        by simp, fun ht => .inl ht⟩
  | cons e inputs ih =>
      obtain ⟨source, phase⟩ := e
      obtain ⟨n, hget, hsub⟩ := bind_eq_ok.mp hsub
      obtain ⟨b₁, hout, hsub⟩ := bind_eq_ok.mp hsub
      have ⟨hn, hnphase, hexposed⟩ := h.heads _ (get_mem hget)
      have hsame := sameNodes_output hout
      have hphase₀ : phase = b.phase node := hphase (source, phase) (by simp)
      have h₁ := h.output hnode (by rw [hports]; simp) hn hexposed
        (by rw [hnphase, ← hphase₀]) hout
      obtain ⟨hwired, hsame', hin, honly⟩ := ih h₁ (by rw [hsame.size]; exact hnode)
        (by rw [hsame.op, hports, List.length_cons]; omega)
        (fun e he => by rw [hsame.phase]; exact hphase e (by simp [he])) hsub
      have hget₁ : ∀ i p, b₁.get i p = b.get i p := get_congr hsame.ops
      refine ⟨?_, hsame.trans hsame', fun k hk => ?_, fun {m t} ht => ?_⟩
      · rw [List.length_cons, show index + (inputs.length + 1) = index + 1 + inputs.length by omega]
        exact hwired
      · cases k with
        | zero =>
            refine ⟨(source, phase), by simp, n, hget, (hsame'.subs n).subset ?_⟩
            rw [output_subs hout]
            simp
        | succ k =>
            obtain ⟨e, he, m, hm, hmem⟩ := hin k (by simpa using hk)
            refine ⟨e, by simpa using he, m, ?_, ?_⟩
            · rw [← hget₁, hm]
            · rwa [show index + (k + 1) = index + 1 + k by omega]
      · rcases honly ht with ht | ⟨e, he, hm⟩
        · by_cases hmn : m = n
          · exact .inr ⟨(source, phase), by simp, hmn ▸ hget⟩
          · rw [output_subs hout, Function.update_of_ne hmn] at ht
            exact .inl ht
        · exact .inr ⟨e, by simp [he], by rw [← hget₁, hm]⟩

/-! ### What building adds -/

/-- What a builder has made stays as it is, but for new subscribers. -/
structure Grows (b b' : Builder) : Prop where
  size : b.size ≤ b'.size
  cells : b.cells ≤ b'.cells
  op : ∀ i < b.size, b'.op i = b.op i
  cell : ∀ i < b.size, b'.cell i = b.cell i
  heap : ∀ k < b.cells, b'.heap k = b.heap k
  phase : ∀ i < b.size, b'.phase i = b.phase i
  subs : ∀ i, b.subs i ⊆ b'.subs i
  sources : b.sources ⊆ b'.sources
  ops : b.ops <+: b'.ops
  built : b'.built = b.built
  outputs : b'.outputs = b.outputs

theorem Grows.refl (b : Builder) : Grows b b where
  size := Nat.le_refl _
  cells := Nat.le_refl _
  op _ _ := rfl
  cell _ _ := rfl
  heap _ _ := rfl
  phase _ _ := rfl
  subs _ := List.Subset.refl _
  sources := List.Subset.refl _
  ops := List.prefix_rfl
  built := rfl
  outputs := rfl

theorem Grows.trans {b b' b'' : Builder} (h : Grows b b') (h' : Grows b' b'') : Grows b b'' where
  size := Nat.le_trans h.size h'.size
  cells := Nat.le_trans h.cells h'.cells
  op i hi := (h'.op i (Nat.lt_of_lt_of_le hi h.size)).trans (h.op i hi)
  cell i hi := (h'.cell i (Nat.lt_of_lt_of_le hi h.size)).trans (h.cell i hi)
  heap k hk := (h'.heap k (Nat.lt_of_lt_of_le hk h.cells)).trans (h.heap k hk)
  phase i hi := (h'.phase i (Nat.lt_of_lt_of_le hi h.size)).trans (h.phase i hi)
  subs i := List.Subset.trans (h.subs i) (h'.subs i)
  sources := List.Subset.trans h.sources h'.sources
  ops := h.ops.trans h'.ops
  built := h'.built.trans h.built
  outputs := h'.outputs.trans h.outputs

theorem SameNodes.grows {b b' : Builder} (h : SameNodes b b') : Grows b b' where
  size := Nat.le_of_eq h.size.symm
  cells := Nat.le_of_eq h.cells.symm
  op i _ := congrFun h.op i
  cell i _ := congrFun h.cell i
  heap k _ := congrFun h.heap k
  phase i _ := congrFun h.phase i
  subs i := (h.subs i).subset
  sources := h.sources ▸ List.Subset.refl _
  ops := h.ops ▸ List.prefix_rfl
  built := h.built
  outputs := h.outputs

theorem grows_newState (b : Builder) (c : Cell) : Grows b (b.newState c).1 :=
  { Grows.refl b with
    cells := Nat.le_succ _
    heap := fun _ hk => Function.update_of_ne (Nat.ne_of_lt hk) .. }

theorem grows_newOperation (b : Builder) (op : Operator) (state phase : Nat) :
    Grows b (b.newOperation op state phase).1 :=
  { Grows.refl b with
    size := Nat.le_succ _
    op := fun _ hi => newOperation_op_of_ne (Nat.ne_of_lt hi)
    cell := fun _ hi => newOperation_cell_of_ne (Nat.ne_of_lt hi)
    phase := fun _ hi => newOperation_phase_of_ne (Nat.ne_of_lt hi) }

theorem grows_addSource (b : Builder) (state phase : Nat) (push : Body Unit) :
    Grows b (b.addSource state phase push).1 :=
  { grows_newOperation b .source state phase with sources := List.subset_append_left _ _ }

/-- The key of an entry is found again, however many entries follow. -/
theorem get_of_ops {b b' : Builder} (h : b.ops <+: b'.ops) {op phase node : Nat}
    (hget : b.get op phase = .ok node) : b'.get op phase = .ok node := by
  obtain ⟨more, hmore⟩ := h
  unfold Builder.get at hget ⊢
  rw [← hmore, List.find?_append]
  cases hfind : b.ops.find? fun e => e.1 == (phase, op) with
  | some e => rwa [hfind] at hget
  | none =>
      rw [hfind] at hget
      dsimp only at hget
      split at hget <;> cases hget

theorem Grows.get {b b' : Builder} (h : Grows b b') {op phase node : Nat}
    (hget : b.get op phase = .ok node) : b'.get op phase = .ok node := get_of_ops h.ops hget

/-- The nodes that got subscribers are those of the inputs, operations in a phase. -/
structure Reads (inputs : List (Nat × Nat)) (b b' : Builder) : Prop extends Grows b b' where
  subscribed : ∀ e ∈ inputs, ∃ n, b'.get e.1 e.2 = .ok n ∧ b'.subs n ≠ []
  new : ∀ {n t}, t ∈ b'.subs n → t ∈ b.subs n ∨ ∃ e ∈ inputs, b'.get e.1 e.2 = .ok n

theorem Grows.reads {b b' : Builder} (h : Grows b b') (hsubs : b'.subs = b.subs) :
    Reads [] b b' :=
  { h with
    subscribed := by simp
    new := fun ht => .inl (hsubs ▸ ht) }

theorem Reads.trans {b b' b'' : Builder} {is js : List (Nat × Nat)} (h : Reads is b b')
    (h' : Reads js b' b'') : Reads (is ++ js) b b'' :=
  { h.toGrows.trans h'.toGrows with
    subscribed := fun e he => by
      rcases List.mem_append.mp he with he | he
      · obtain ⟨n, hget, hne⟩ := h.subscribed e he
        exact ⟨n, h'.get hget, fun hnil => hne (List.subset_nil.mp (hnil ▸ h'.subs n))⟩
      · exact h'.subscribed e he
    new := fun ht => by
      rcases h'.new ht with ht | ⟨e, he, hget⟩
      · rcases h.new ht with ht | ⟨e, he, hget⟩
        · exact .inl ht
        · exact .inr ⟨e, List.mem_append_left _ he, h'.get hget⟩
      · exact .inr ⟨e, List.mem_append_right _ he, hget⟩ }

/-- An entry for a node that had none. -/
theorem Ok.insert {b b' : Builder} {op phase node : Nat} (h : b.Ok)
    (hnode : node < b.size) (hphase : b.phase node = phase) (hexposed : (b.op node).exposed = true)
    (hnew : ∀ e ∈ b.ops, e.2 = node → e.1 = (phase, op)) (hins : b.insert op phase node = .ok b') :
    b'.Ok ∧ Reads [] b b' ∧ b'.ops = b.ops ++ [((phase, op), node)] ∧
      b'.get op phase = .ok node := by
  obtain ⟨_, hverify, hb'⟩ := bind_eq_ok.mp hins
  have hkey : ∀ e ∈ b.ops, e.1 ≠ (phase, op) := by
    simpa using verify_eq_ok.mp hverify
  cases hb'
  have hgrows : Grows b { b with ops := b.ops ++ [((phase, op), node)] } :=
    { Grows.refl b with ops := List.prefix_append _ _ }
  refine ⟨{ h with heads := ?_, heads_unique := ?_ }, hgrows.reads rfl, rfl, ?_⟩
  · intro e he
    rcases List.mem_append.mp he with he | he
    · exact h.heads e he
    · cases List.mem_singleton.mp he
      exact ⟨hnode, hphase, hexposed⟩
  · have hfree : ∀ e ∈ b.ops, e.2 ≠ node := fun e he heq => hkey e he (hnew e he heq)
    intro e he e' he' heq
    rcases List.mem_append.mp he with he | he <;> rcases List.mem_append.mp he' with he' | he'
    · exact h.heads_unique e he e' he' heq
    · cases List.mem_singleton.mp he'
      exact absurd heq (hfree e he)
    · cases List.mem_singleton.mp he
      exact absurd heq.symm (hfree e' he')
    · rw [List.mem_singleton.mp he, List.mem_singleton.mp he']
  · have hnone : b.ops.find? (fun e => e.1 == (phase, op)) = none :=
      List.find?_eq_none.mpr fun e he => by simpa using hkey e he
    simp [Builder.get, List.find?_append, hnone]

/-- What a new operator with its inputs is. -/
structure Added (b b' : Builder) (op : Operator) (state phase : Nat) (inputs : List (Nat × Nat))
    (node : Nat) : Prop where
  ok : b'.Ok
  reads : Reads inputs b b'
  op : b'.op node = op
  cell : b'.cell node = state
  phase : b'.phase node = phase
  newest : node = b.size ∧ b'.size = b.size + 1
  ops : b'.ops = b.ops
  inputs : ∀ k < inputs.length, ∃ e ∈ inputs[k]?, ∃ n, b'.get e.1 e.2 = .ok n ∧
    ⟨node, k⟩ ∈ b'.subs n

theorem Ok.addOperation {b b' : Builder} {op : Operator} {state phase node : Nat}
    {inputs : List (Nat × Nat)} (h : b.Ok) (hstate : state < b.cells)
    (hfresh : op.Fresh (b.heap state))
    (howned : op.owner = true → ∀ i, (b.op i).owner = true → b.cell i ≠ state)
    (hop : op ≠ .source) (hports : op.ports = inputs.length) (hphase : ∀ e ∈ inputs, e.2 = phase)
    (hadd : b.addOperation op state phase inputs = .ok (b', node)) :
    Added b b' op state phase inputs node := by
  obtain ⟨b₁, hsub, hb'⟩ := bind_eq_ok.mp hadd
  cases hb'
  have hwired : (b.newOperation op state phase).1.Wired b.size 0 :=
    h.newOperation hstate hfresh howned
  have hop_self : (b.newOperation op state phase).1.op b.size = op := newOperation_op_self
  have hphase_self : (b.newOperation op state phase).1.phase b.size = phase :=
    newOperation_phase_self
  obtain ⟨hwired', hsame, hin, honly⟩ := hwired.subscribe (Nat.lt_succ_self _)
    (by rw [hop_self, hports, Nat.zero_add]) (fun e he => (hphase e he).trans hphase_self.symm) hsub
  have hget : ∀ i p, b'.get i p = (b.newOperation op state phase).1.get i p :=
    get_congr hsame.ops
  have hin' : ∀ k < inputs.length, ∃ e ∈ inputs[k]?, ∃ n, b'.get e.1 e.2 = .ok n ∧
      ⟨b.size, k⟩ ∈ b'.subs n := fun k hk => by
    obtain ⟨e, he, n, hn, hmem⟩ := hin k hk
    exact ⟨e, he, n, by rw [hget, hn], by simpa using hmem⟩
  exact {
    ok := hwired'.ok (hsame.sourced (h.newOperation_sourced hop)) fun _ => by
      show (b'.op b.size).ports ≤ 0 + inputs.length
      rw [hsame.op, hop_self, hports]
      omega
    reads := { (grows_newOperation b op state phase).trans hsame.grows with
      subscribed := fun e he => by
        obtain ⟨k, hk, rfl⟩ := List.mem_iff_getElem.mp he
        obtain ⟨e, he, n, hn, hmem⟩ := hin' k hk
        rw [List.getElem?_eq_getElem hk] at he
        cases he
        exact ⟨n, hn, List.ne_nil_of_mem hmem⟩
      new := fun ht => by
        rcases honly ht with ht | ⟨e, he, hn⟩
        · exact .inl ht
        · exact .inr ⟨e, he, by rw [hget, hn]⟩ }
    op := by
      show b'.op b.size = op
      rw [hsame.op, hop_self]
    cell := by
      show b'.cell b.size = state
      rw [hsame.cell]
      exact newOperation_cell_self
    phase := by
      show b'.phase b.size = phase
      rw [hsame.phase, hphase_self]
    newest := ⟨rfl, hsame.size⟩
    ops := hsame.ops
    inputs := hin' }

end Builder

end Lsql.Phys
