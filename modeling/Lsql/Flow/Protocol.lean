import Lsql.Flow.Net

/-!
# Lsql.Flow.Protocol

The stream protocol of a network.

Every input is called with records and then at most once with the end of the stream, and is not
called again after it answered `false`; a node that has been told on all its inputs that no more
will come, or that has refused to take more, has no subscriber left that still waits.

A `Contract` states what one call of one operator has to keep for this: an invariant that ties the
operator's state to what its inputs have been called with so far. `call_spec` carries it through the
nested calls of a network, and `Run` through every schedule.
-/

namespace Flow

open Prog

variable {ν ε η ρ α β : Type}

/-! ### What an input has been called with -/

/-- Called with records only, all of them taken. -/
def Open (l : List (Option ρ × Bool)) : Prop := ∀ e ∈ l, e.1 ≠ none ∧ e.2 = true

/-- Called with records that were taken and then, last of all, with an item that was answered
`false`. -/
def Closed (l : List (Option ρ × Bool)) : Prop :=
  ∃ front item, Open front ∧ l = front ++ [(item, false)]

/-- A log that keeps the stream protocol. -/
def WellFormed (l : List (Option ρ × Bool)) : Prop := Open l ∨ Closed l

theorem open_nil : Open ([] : List (Option ρ × Bool)) := by simp [Open]

theorem Open.snoc {l : List (Option ρ × Bool)} (h : Open l) (r : ρ) :
    Open (l ++ [(some r, true)]) := by
  intro e he
  rcases List.mem_append.mp he with he | he
  · exact h e he
  · rw [List.mem_singleton.mp he]
    exact ⟨Option.some_ne_none r, rfl⟩

theorem Open.refuse {l : List (Option ρ × Bool)} (h : Open l) (item : Option ρ) :
    Closed (l ++ [(item, false)]) := ⟨l, item, h, rfl⟩

/-- One more call of an open input. -/
theorem Open.call {l : List (Option ρ × Bool)} (h : Open l) {item : Option ρ} {cont : Bool}
    (hend : item = none → cont = false) :
    cont = true ∧ Open (l ++ [(item, cont)]) ∨ cont = false ∧ Closed (l ++ [(item, cont)]) := by
  cases cont with
  | false => exact .inr ⟨rfl, h.refuse item⟩
  | true =>
      cases item with
      | none => cases hend rfl
      | some r => exact .inl ⟨rfl, h.snoc r⟩

theorem not_closed_of_open {l : List (Option ρ × Bool)} (h : Open l) : ¬ Closed l := by
  rintro ⟨front, item, -, rfl⟩
  exact Bool.false_ne_true (h (item, false) (by simp)).2

/-- A closed log does not grow. -/
theorem Closed.eq_of_grows {l l' : List (Option ρ × Bool)} (h : Closed l) (hpre : l <+: l')
    (h' : WellFormed l') : l' = l := by
  obtain ⟨front, item, -, rfl⟩ := h
  obtain ⟨more, rfl⟩ := hpre
  have hnot : ∀ {m : List (Option ρ × Bool)}, Open m → (item, false) ∉ m := fun hopen hmem =>
    Bool.false_ne_true (hopen _ hmem).2
  rcases h' with hopen | ⟨front', item', hopen, heq⟩
  · exact absurd (by simp) (hnot hopen)
  · rcases List.eq_nil_or_concat more with rfl | ⟨more, x, rfl⟩
    · simp
    · rw [List.concat_eq_append, ← List.append_assoc] at heq
      have hfront := (List.append_inj' heq rfl).1
      exact absurd (by simp [← hfront]) (hnot hopen)

/-- Whether an input has answered `false`. -/
def refused (l : List (Option ρ × Bool)) : Bool := l.any fun e => !e.2

theorem Open.refused {l : List (Option ρ × Bool)} (h : Open l) : Flow.refused l = false := by
  rw [Flow.refused, List.any_eq_false]
  intro e he
  simp [(h e he).2]

theorem Closed.refused {l : List (Option ρ × Bool)} (h : Closed l) : Flow.refused l = true := by
  obtain ⟨front, item, -, rfl⟩ := h
  simp [Flow.refused]

@[simp] theorem refused_snoc (l : List (Option ρ × Bool)) (item : Option ρ) (cont : Bool) :
    refused (l ++ [(item, cont)]) = (refused l || !cont) := by
  simp [refused]

/-! ### Contracts -/

/-- What the operators of a network keep. -/
structure Contract (consume : Net.Consume ν ε η ρ) where
  /-- The number of inputs of an operator; a source has none. -/
  ports : ν → Nat
  /-- Whether the operator writes its cell. -/
  owner : ν → Bool
  /-- The invariant of the operator at a node, in terms of its state, the logs of its inputs, what it
  has emitted and whether a subscriber is left, and its cell. -/
  Inv : Nat → ν → (Nat → List (Option ρ × Bool)) → Downstream ρ → η → Prop
  inv_cell : ∀ {i op logs d c c'}, owner op = false → Inv i op logs d c → Inv i op logs d c'
  inv_source : ∀ {i op logs d d' c}, ports op = 0 → Inv i op logs d c → Inv i op logs d' c
  /-- A call keeps the invariant, and an operator answers `false` to the end of the stream. -/
  consume_meets : ∀ {i op logs d c p} (item : Option ρ), Inv i op logs d c → p < ports op →
    Open (logs p) → (consume op p item).Meets (owner op)
      (fun r d' c' => (item = none → r.2 = false) ∧ ports r.1 = ports op ∧
        owner r.1 = owner op ∧
        Inv i r.1 (Function.update logs p (logs p ++ [(item, r.2)])) d' c') d c
  /-- Nothing waits for an operator none of whose inputs will be called again. -/
  finished : ∀ {i op logs d c}, Inv i op logs d c → 0 < ports op →
    (∀ p < ports op, Closed (logs p)) → d.active = false

/-- The fixed part of a network. -/
structure Layout where
  size : Nat
  subs : Nat → List Port
  ports : Nat → Nat
  owner : Nat → Bool
  cell : Nat → Nat

/-- Subscriptions go forward to inputs that exist, an input is subscribed once, and a cell has one
writer. -/
structure Layout.Sound (L : Layout) : Prop where
  forward : ∀ {i t}, t ∈ L.subs i → i < t.node
  bounded : ∀ {i t}, t ∈ L.subs i → t.node < L.size
  inRange : ∀ {i t}, t ∈ L.subs i → t.index < L.ports t.node
  nodup : ∀ i, (L.subs i).Nodup
  unique : ∀ {i j t}, t ∈ L.subs i → t ∈ L.subs j → i = j
  owned : ∀ {i j}, L.owner i = true → L.owner j = true → L.cell i = L.cell j → i = j

namespace Net

variable {consume : Consume ν ε η ρ} (K : Contract consume) (L : Layout)

/-- What holds of the whole network at any time, also during a call. -/
structure Follows (s : Net ν η ρ) : Prop where
  ports : ∀ i, K.ports (s.op i) = L.ports i
  owner : ∀ i, K.owner (s.op i) = L.owner i
  cell : s.cell = L.cell
  sub : ∀ i, (s.subs i).Sublist (L.subs i)
  left : ∀ {i t}, t ∈ L.subs i → t ∈ s.subs i ∨ Closed (s.log t)
  logs : ∀ t, WellFormed (s.log t)

/-- A node that is not being called keeps its operator's invariant. -/
def NodeOk (s : Net ν η ρ) (i : Nat) : Prop :=
  K.Inv i (s.op i) (fun p => s.log ⟨i, p⟩) (s.downstream i) (s.cellOf i)

/-- A node that is not emitting: its inputs have been called with what it emitted, those that left
with a first part of it, and the end of the stream was the last of it. -/
structure SubsOk (s : Net ν η ρ) (i : Nat) : Prop where
  current : ∀ t ∈ s.subs i, Open (s.log t) ∧ (s.log t).map Prod.fst = s.sent i
  isPrefix : ∀ t ∈ L.subs i, (s.log t).map Prod.fst <+: s.sent i
  stream : (∀ item ∈ s.sent i, item ≠ none) ∨
    s.subs i = [] ∧ ∃ records : List ρ, s.sent i = records.map some ++ [none]

/-- All nodes from `j` on are at rest. -/
def OkFrom (j : Nat) (s : Net ν η ρ) : Prop := ∀ k, j ≤ k → NodeOk K s k ∧ SubsOk L s k

/-- What a body that runs at node `i` leaves as it was. -/
structure Frame (i : Nat) (s s' : Net ν η ρ) : Prop where
  op : ∀ k ≤ i, s'.op k = s.op k
  log : ∀ t, (∀ k ≥ i, t ∉ L.subs k) → s'.log t = s.log t
  sent : ∀ k < i, s'.sent k = s.sent k
  subs : ∀ k < i, s'.subs k = s.subs k
  heap : ∀ k < i, L.owner k = true → s'.heap (L.cell k) = s.heap (L.cell k)
  source : ∀ k ≠ i, L.ports k = 0 → s'.downstream k = s.downstream k ∧ s'.op k = s.op k
  grows : ∀ t, s.log t <+: s'.log t

/-- What a call of an input leaves as it was. -/
structure CallFrame (t : Port) (s s' : Net ν η ρ) : Prop where
  op : ∀ k < t.node, s'.op k = s.op k
  log : ∀ t' ≠ t, (∀ k ≥ t.node, t' ∉ L.subs k) → s'.log t' = s.log t'
  sent : ∀ k < t.node, s'.sent k = s.sent k
  subs : ∀ k < t.node, s'.subs k = s.subs k
  heap : ∀ k < t.node, L.owner k = true → s'.heap (L.cell k) = s.heap (L.cell k)
  source : ∀ k, L.ports k = 0 → s'.downstream k = s.downstream k ∧ s'.op k = s.op k
  grows : ∀ t, s.log t <+: s'.log t

variable {K L}

theorem Frame.refl (i : Nat) (s : Net ν η ρ) : Frame L i s s where
  op _ _ := rfl
  log _ _ := rfl
  sent _ _ := rfl
  subs _ _ := rfl
  heap _ _ _ := rfl
  source _ _ _ := ⟨rfl, rfl⟩
  grows _ := List.prefix_rfl

theorem Frame.trans {i : Nat} {s s' s'' : Net ν η ρ} (h : Frame L i s s') (h' : Frame L i s' s'') :
    Frame L i s s'' where
  op k hk := (h'.op k hk).trans (h.op k hk)
  log t ht := (h'.log t ht).trans (h.log t ht)
  sent k hk := (h'.sent k hk).trans (h.sent k hk)
  subs k hk := (h'.subs k hk).trans (h.subs k hk)
  heap k hk ho := (h'.heap k hk ho).trans (h.heap k hk ho)
  source k hk hp :=
    ⟨(h'.source k hk hp).1.trans (h.source k hk hp).1,
      (h'.source k hk hp).2.trans (h.source k hk hp).2⟩
  grows t := (h.grows t).trans (h'.grows t)

/-- A call of an input that is subscribed to node `i` stays within what a body at `i` may change. -/
theorem CallFrame.frame {i : Nat} {t : Port} {s s' : Net ν η ρ} (h : CallFrame L t s s')
    (ht : t ∈ L.subs i) (hi : i < t.node) : Frame L i s s' where
  op k hk := h.op k (by omega)
  log t' ht' := by
    refine h.log t' (fun heq => ht' i (Nat.le_refl i) (heq ▸ ht)) fun k hk => ht' k (by omega)
  sent k hk := h.sent k (by omega)
  subs k hk := h.subs k (by omega)
  heap k hk ho := h.heap k (by omega) ho
  source k _ hp := h.source k hp
  grows := h.grows

theorem OkFrom.mono {j k : Nat} {s : Net ν η ρ} (h : OkFrom K L j s) (hjk : j ≤ k) :
    OkFrom K L k s :=
  fun m hm => h m (by omega)

theorem Follows.subset {s : Net ν η ρ} (h : Follows K L s) {i : Nat} {t : Port}
    (ht : t ∈ s.subs i) : t ∈ L.subs i := (h.sub i).subset ht

/-- A node at rest stays so while nothing about it or its inputs changes. -/
theorem SubsOk.congr {s s' : Net ν η ρ} {i : Nat} (h : SubsOk L s i)
    (hsub : ∀ t ∈ s.subs i, t ∈ L.subs i) (hsubs : s'.subs i = s.subs i)
    (hsent : s'.sent i = s.sent i) (hlog : ∀ t ∈ L.subs i, s'.log t = s.log t) :
    SubsOk L s' i where
  current t ht := by
    rw [hsubs] at ht
    rw [hlog t (hsub t ht), hsent]
    exact h.current t ht
  isPrefix t ht := by
    rw [hlog t ht, hsent]
    exact h.isPrefix t ht
  stream := by
    rw [hsubs, hsent]
    exact h.stream

/-! ### Small steps -/

@[simp] theorem unsubscribe_subs (s : Net ν η ρ) (i : Nat) (t : Port) :
    (s.unsubscribe i t).subs = Function.update s.subs i ((s.subs i).erase t) := rfl

/-- Dropping an input that answered `false`. -/
theorem Follows.unsubscribe {s : Net ν η ρ} (h : Follows K L s) (i : Nat) {t : Port}
    (hclosed : Closed (s.log t)) : Follows K L (s.unsubscribe i t) where
  ports := h.ports
  owner := h.owner
  cell := h.cell
  sub k := by
    by_cases hk : k = i
    · subst hk
      simpa using (List.erase_sublist).trans (h.sub k)
    · simpa [hk] using h.sub k
  left {k u} hu := by
    rcases h.left hu with hin | hc
    · by_cases hut : u = t
      · exact .inr (hut ▸ hclosed)
      · refine .inl ?_
        by_cases hk : k = i
        · subst hk
          simpa using (List.mem_erase_of_ne hut).mpr hin
        · simpa [hk] using hin
    · exact .inr hc
  logs := h.logs

theorem OkFrom.unsubscribe {s : Net ν η ρ} {i : Nat} (h : OkFrom K L (i + 1) s)
    (hf : Follows K L s) (t : Port) : OkFrom K L (i + 1) (s.unsubscribe i t) := by
  intro k hk
  have hne : k ≠ i := by omega
  have ⟨hn, hs⟩ := h k hk
  have hsubs : (s.unsubscribe i t).subs k = s.subs k := by simp [hne]
  refine ⟨?_, hs.congr (fun _ => hf.subset) hsubs rfl fun _ _ => rfl⟩
  unfold NodeOk
  rw [downstream_congr hsubs rfl]
  exact hn

theorem Frame.unsubscribe {s s' : Net ν η ρ} {i : Nat} (h : Frame L i s s') (t : Port) :
    Frame L i s (s'.unsubscribe i t) where
  op := h.op
  log := h.log
  sent := h.sent
  subs k hk := by simpa [show k ≠ i by omega] using h.subs k hk
  heap := h.heap
  source k hk hp := by
    rw [downstream_congr (show (s'.unsubscribe i t).subs k = s'.subs k by simp [hk]) rfl]
    exact h.source k hk hp
  grows := h.grows

theorem Follows.noteSent {s : Net ν η ρ} (h : Follows K L s) (i : Nat) (item : Option ρ) :
    Follows K L (s.noteSent i item) := by
  constructor <;> simp only [noteSent_op, noteSent_cell, noteSent_subs, noteSent_log]
  · exact h.ports
  · exact h.owner
  · exact h.cell
  · exact h.sub
  · exact h.left
  · exact h.logs

theorem OkFrom.noteSent {s : Net ν η ρ} {i : Nat} (h : OkFrom K L (i + 1) s)
    (hf : Follows K L s) (item : Option ρ) : OkFrom K L (i + 1) (s.noteSent i item) := by
  intro k hk
  have hne : k ≠ i := by omega
  have ⟨hn, hs⟩ := h k hk
  have hsent := noteSent_sent_of_ne s i item hne
  refine ⟨?_, hs.congr (fun _ => hf.subset) (by simp) hsent (by simp)⟩
  unfold NodeOk
  rw [downstream_congr (by simp) hsent]
  simpa [NodeOk, cellOf] using hn

theorem frame_noteSent (s : Net ν η ρ) (i : Nat) (item : Option ρ) :
    Frame L i s (s.noteSent i item) where
  op _ _ := by simp
  log _ _ := by simp
  sent k hk := noteSent_sent_of_ne s i item (by omega)
  subs _ _ := by simp
  heap _ _ _ := by simp
  source k hk _ := ⟨downstream_congr (by simp) (noteSent_sent_of_ne s i item hk), by simp⟩
  grows _ := by simp

/-- Writing the cell of the one node that may write it. -/
theorem Follows.setCell {s : Net ν η ρ} (h : Follows K L s) (i : Nat) (c : η) :
    Follows K L (s.setCell i c) :=
  ⟨h.ports, h.owner, h.cell, h.sub, h.left, h.logs⟩

theorem OkFrom.setCell {s : Net ν η ρ} {i : Nat} (h : OkFrom K L (i + 1) s) (hL : L.Sound)
    (hf : Follows K L s) (hi : L.owner i = true) (c : η) : OkFrom K L (i + 1) (s.setCell i c) := by
  intro k hk
  have ⟨hn, hs⟩ := h k hk
  refine ⟨?_, hs.congr (fun _ => hf.subset) rfl rfl fun _ _ => rfl⟩
  by_cases hc : s.cell k = s.cell i
  · -- a node that shares the cell does not own it
    have hk' : L.owner k ≠ true := by
      intro hown
      rw [hf.cell] at hc
      have := hL.owned hown hi hc
      omega
    exact K.inv_cell (show K.owner (s.op k) = false by rw [hf.owner]; simpa using hk') hn
  · unfold NodeOk at hn ⊢
    rw [setCell_downstream]
    simpa [cellOf, Net.setCell, hc] using hn

theorem frame_setCell {s : Net ν η ρ} (hL : L.Sound) (hf : Follows K L s) {i : Nat}
    (hi : L.owner i = true) (c : η) : Frame L i s (s.setCell i c) where
  op _ _ := rfl
  log _ _ := rfl
  sent _ _ := rfl
  subs _ _ := rfl
  heap k hk ho := by
    have hne : L.cell k ≠ L.cell i := fun hc => by
      have := hL.owned ho hi hc
      omega
    simp [Net.setCell, hf.cell, hne]
  source _ _ _ := ⟨rfl, rfl⟩
  grows _ := List.prefix_rfl

/-! ### Calls -/

/-- What a call of an input starts from. -/
structure CallPre (K : Contract consume) (L : Layout) (t : Port) (s : Net ν η ρ) : Prop where
  follows : Follows K L s
  bounded : t.node < L.size
  inRange : t.index < L.ports t.node
  isOpen : Open (s.log t)
  ok : OkFrom K L t.node s

/-- What a call of an input ends in. -/
structure CallPost (K : Contract consume) (L : Layout) (t : Port) (item : Option ρ)
    (s : Net ν η ρ) (cont : Bool) (s' : Net ν η ρ) : Prop where
  follows : Follows K L s'
  ok : OkFrom K L t.node s'
  frame : CallFrame L t s s'
  logged : s'.log t = s.log t ++ [(item, cont)]
  answer : item = none → cont = false

/-- A call leaves the earlier nodes at rest. -/
theorem CallFrame.nodeOk {t : Port} {s s' : Net ν η ρ} (h : CallFrame L t s s') (hL : L.Sound)
    (hf : Follows K L s) (hf' : Follows K L s') {k : Nat} (hk : k < t.node) (hn : NodeOk K s k) :
    NodeOk K s' k := by
  have hlog : (fun p => s'.log ⟨k, p⟩) = fun p => s.log ⟨k, p⟩ := by
    funext p
    refine h.log ⟨k, p⟩ (fun he => ?_) fun m hm hmem => ?_
    · rw [← he] at hk
      exact Nat.lt_irrefl k hk
    · have : m < k := hL.forward hmem
      omega
  unfold NodeOk
  rw [hlog, downstream_congr (h.subs k hk) (h.sent k hk), h.op k hk]
  by_cases hown : L.owner k = true
  · have : s'.cellOf k = s.cellOf k := by
      unfold cellOf
      rw [hf'.cell, hf.cell]
      exact h.heap k hk hown
    rw [this]
    exact hn
  · exact K.inv_cell (by rw [hf.owner]; simpa using hown) hn

theorem CallFrame.subsOk {t : Port} {s s' : Net ν η ρ} (h : CallFrame L t s s') (hL : L.Sound)
    (hf : Follows K L s) {k : Nat} (hk : k < t.node) (ht : t ∉ L.subs k) (hs : SubsOk L s k) :
    SubsOk L s' k := by
  refine hs.congr (fun _ => hf.subset) (h.subs k hk) (h.sent k hk) fun u hu => ?_
  refine h.log u (fun he => ht (he ▸ hu)) fun m hm hmem => ?_
  have := hL.unique hu hmem
  omega

theorem CallPost.okFrom {t : Port} {item : Option ρ} {s s' : Net ν η ρ} {cont : Bool}
    (h : CallPost K L t item s cont s') (hL : L.Sound) (hf : Follows K L s) {i : Nat}
    (ht : t ∈ L.subs i) (hok : OkFrom K L (i + 1) s) : OkFrom K L (i + 1) s' := by
  intro k hk
  by_cases hkt : t.node ≤ k
  · exact h.ok k hkt
  · have hkt : k < t.node := by omega
    have htk : t ∉ L.subs k := fun htk => by
      have := hL.unique ht htk
      omega
    exact ⟨h.frame.nodeOk hL hf h.follows hkt (hok k hk).1,
      h.frame.subsOk hL hf hkt htk (hok k hk).2⟩

/-- What is known of the calls that a body at node `i` makes. -/
def Delivers (K : Contract consume) (L : Layout) (deliver : Deliver ν ε η ρ) (i : Nat) : Prop :=
  ∀ {t item s}, i < t.node → CallPre K L t s →
    Ensures (fun r => CallPost K L t item s r.1 r.2) (deliver t item s)

/-- What emitting an item at node `i` ends in. -/
structure EmitPost (K : Contract consume) (L : Layout) (i : Nat) (s s' : Net ν η ρ) : Prop where
  follows : Follows K L s'
  ok : OkFrom K L (i + 1) s'
  subs : SubsOk L s' i
  frame : Frame L i s s'
  sent : s'.sent i = s.sent i
  sub : (s'.subs i).Sublist (s.subs i)
  heap : L.owner i = true → s'.heap (L.cell i) = s.heap (L.cell i)

/-- The loop of `emit`. The inputs in `ts` are yet to be called with the item; the other subscribed
ones have been, and took it. -/
theorem emitLoop_spec (hL : L.Sound) {deliver : Deliver ν ε η ρ} {i : Nat}
    (hd : Delivers K L deliver i) {item : Option ρ} {ts : List Port} {s : Net ν η ρ}
    (hf : Follows K L s) (hok : OkFrom K L (i + 1) s) (hnd : ts.Nodup) (hin : ∀ t ∈ ts, t ∈ s.subs i)
    (hnow : ∀ t ∈ ts, Open (s.log t) ∧ (s.log t).map Prod.fst ++ [item] = s.sent i)
    (hdone : ∀ t ∈ s.subs i, t ∉ ts → Open (s.log t) ∧ (s.log t).map Prod.fst = s.sent i)
    (hpre : ∀ t ∈ L.subs i, (s.log t).map Prod.fst <+: s.sent i)
    (hstream : (∀ x ∈ s.sent i, x ≠ none) ∨ ∃ records : List ρ, s.sent i = records.map some ++ [none]) :
    Ensures (fun s' => EmitPost K L i s s' ∧ (item = none → ∀ t ∈ ts, t ∉ s'.subs i))
      (emitLoop deliver i item ts s) := by
  induction ts generalizing s with
  | nil =>
      have hcurrent := fun t ht => hdone t ht List.not_mem_nil
      refine ⟨⟨hf, hok, ⟨hcurrent, hpre, hstream.imp_right fun hend => ⟨?_, hend⟩⟩,
        Frame.refl i _, rfl, List.Sublist.refl _, fun _ => rfl⟩, by simp⟩
      -- an input that is still open has not been called with the end of the stream
      refine List.eq_nil_iff_forall_not_mem.mpr fun t ht => ?_
      obtain ⟨hopen, hitems⟩ := hcurrent t ht
      obtain ⟨records, hrecords⟩ := hend
      have hnone : none ∈ (s.log t).map Prod.fst := by simp [hitems, hrecords]
      obtain ⟨e, he, hitem⟩ := List.mem_map.mp hnone
      exact (hopen e he).1 hitem
  | cons t ts ih =>
      have htL : t ∈ L.subs i := hf.subset (hin t (by simp))
      have hit : i < t.node := hL.forward htL
      refine (hd hit ⟨hf, hL.bounded htL, hL.inRange htL, (hnow t (by simp)).1, hok.mono hit⟩).bind
        fun ⟨cont, s₁⟩ hpost => ?_
      have hframe₁ := hpost.frame.frame htL hit
      have hok₁ := hpost.okFrom hL hf htL hok
      have hsent₁ : s₁.sent i = s.sent i := hpost.frame.sent i hit
      have hsubs₁ : s₁.subs i = s.subs i := hpost.frame.subs i hit
      have hheap₁ := hpost.frame.heap i hit
      -- the other inputs of this node are not called meanwhile
      have hother : ∀ u ∈ L.subs i, u ≠ t → s₁.log u = s.log u := by
        intro u hu hne
        refine hpost.frame.log u hne fun k hk huk => ?_
        have := hL.unique hu huk
        omega
      have hpre₁ : ∀ u ∈ L.subs i, (s₁.log u).map Prod.fst <+: s₁.sent i := by
        intro u hu
        rw [hsent₁]
        by_cases hut : u = t
        · have hlogged : (s₁.log u).map Prod.fst = s.sent i := by
            rw [hut, hpost.logged, List.map_append, List.map_singleton, (hnow t (by simp)).2]
          exact hlogged ▸ List.prefix_rfl
        · rw [hother u hu hut]
          exact hpre u hu
      have htts : t ∉ ts := (List.nodup_cons.mp hnd).1
      have hnd' : ts.Nodup := (List.nodup_cons.mp hnd).2
      have hnow₁ : ∀ u ∈ ts, Open (s₁.log u) ∧ (s₁.log u).map Prod.fst ++ [item] = s₁.sent i := by
        intro u hu
        rw [hother u (hf.subset (hin u (by simp [hu]))) fun he => htts (he ▸ hu), hsent₁]
        exact hnow u (by simp [hu])
      rcases (hnow t (by simp)).1.call hpost.answer with ⟨hcont, hopen⟩ | ⟨hcont, hclosed⟩
      · -- the input took the item and stays
        subst hcont
        have hdone₁ : ∀ u ∈ s₁.subs i, u ∉ ts →
            Open (s₁.log u) ∧ (s₁.log u).map Prod.fst = s₁.sent i := by
          intro u hu huts
          rw [hsubs₁] at hu
          by_cases hut : u = t
          · subst hut
            rw [hpost.logged, hsent₁]
            exact ⟨hopen, by simpa using (hnow u (by simp)).2⟩
          · rw [hother u (hf.subset hu) hut, hsent₁]
            exact hdone u hu (by simp [hut, huts])
        have hin₁ : ∀ u ∈ ts, u ∈ s₁.subs i := fun u hu => hsubs₁ ▸ hin u (by simp [hu])
        refine (ih hpost.follows hok₁ hnd' hin₁ hnow₁ hdone₁ hpre₁ (hsent₁ ▸ hstream)).mono fun s' ⟨hE, hgone⟩ => ?_
        refine ⟨⟨hE.follows, hE.ok, hE.subs, hframe₁.trans hE.frame, hE.sent.trans hsent₁,
          hsubs₁ ▸ hE.sub, fun ho =>
          (hE.heap ho).trans (hheap₁ ho)⟩, fun hnone => ?_⟩
        exact absurd (hpost.answer hnone) (by simp)
      · -- the input answered `false` and is dropped
        subst hcont
        have hclosed₁ : Closed (s₁.log t) := hpost.logged ▸ hclosed
        have hin₁ : ∀ u ∈ ts, u ∈ (s₁.unsubscribe i t).subs i := by
          intro u hu
          have hne : u ≠ t := fun he => htts (he ▸ hu)
          simpa [hsubs₁, List.mem_erase_of_ne hne] using hin u (by simp [hu])
        have hnodup : (s₁.subs i).Nodup := (hL.nodup i).sublist (hpost.follows.sub i)
        have hdone₁ : ∀ u ∈ (s₁.unsubscribe i t).subs i, u ∉ ts →
            Open (s₁.log u) ∧ (s₁.log u).map Prod.fst = s₁.sent i := by
          intro u hu huts
          have hu : u ≠ t ∧ u ∈ s₁.subs i := by simpa [hnodup.mem_erase_iff] using hu
          have husub : u ∈ s.subs i := hsubs₁ ▸ hu.2
          rw [hother u (hf.subset husub) hu.1, hsent₁]
          exact hdone u husub (by simp [hu.1, huts])
        refine (ih (hpost.follows.unsubscribe i hclosed₁) (hok₁.unsubscribe hpost.follows t) hnd'
          hin₁ hnow₁ hdone₁ hpre₁ (show _ from hsent₁ ▸ hstream)).mono fun s' ⟨hE, hgone⟩ => ?_
        have hsub : (s'.subs i).Sublist ((s₁.subs i).erase t) := by simpa using hE.sub
        refine ⟨⟨hE.follows, hE.ok, hE.subs, (hframe₁.unsubscribe t).trans hE.frame,
          hE.sent.trans hsent₁, hsubs₁ ▸ hsub.trans List.erase_sublist, fun ho => (hE.heap ho).trans (hheap₁ ho)⟩,
          fun hnone u hu => ?_⟩
        rcases List.mem_cons.mp hu with rfl | hu
        · exact fun hmem => (hnodup.mem_erase_iff.mp (hsub.subset hmem)).1 rfl
        · exact hgone hnone u hu

/-- A list of records, as a list of items. -/
theorem map_some_filterMap {items : List (Option ρ)} (h : ∀ x ∈ items, x ≠ none) :
    (items.filterMap id).map some = items := by
  induction items with
  | nil => rfl
  | cons x items ih =>
      obtain ⟨r, rfl⟩ := Option.ne_none_iff_exists'.mp (h x (by simp))
      simpa using ih fun y hy => h y (by simp [hy])

/-- `emit`: the subscribed inputs have all been called with the item, and none is left if it ended
the stream. -/
theorem emit_spec (hL : L.Sound) {deliver : Deliver ν ε η ρ} {i : Nat}
    (hd : Delivers K L deliver i) {item : Option ρ} {s : Net ν η ρ} (hf : Follows K L s)
    (hok : OkFrom K L (i + 1) s) (hs : SubsOk L s i) :
    Ensures (fun s' => EmitPost K L i (s.noteSent i item) s' ∧ Frame L i s s' ∧
        (item = none → s'.subs i = [])) (emit deliver i item s) := by
  unfold emit
  cases hact : s.active i with
  | false =>
      have hnil := active_eq_false.mp hact
      have hsame : s.noteSent i item = s := by simp [noteSent, hact]
      rw [hnil, hsame]
      exact ⟨⟨hf, hok, hs, Frame.refl i _, rfl, List.Sublist.refl _, fun _ => rfl⟩,
        Frame.refl i _, fun _ => hnil⟩
  | true =>
      have hsent := noteSent_sent_self s i item hact
      have hrecords : ∀ x ∈ s.sent i, x ≠ none := by
        refine hs.stream.resolve_right fun hend => ?_
        rw [active_eq_false.mpr hend.1] at hact
        cases hact
      refine (emitLoop_spec hL hd (hf.noteSent i item) (hok.noteSent hf item)
        ((hL.nodup i).sublist (hf.sub i)) (by simp) (fun t ht => ?_)
        (fun t ht hnot => absurd (by simpa using ht) hnot) (fun t ht => ?_) ?_).mono ?_
      · rw [hsent, noteSent_log, (hs.current t ht).2]
        exact ⟨(hs.current t ht).1, rfl⟩
      · rw [hsent, noteSent_log]
        exact (hs.isPrefix t ht).trans (List.prefix_append _ _)
      · rw [hsent]
        cases item with
        | some r =>
            refine .inl fun x hx => ?_
            rcases List.mem_append.mp hx with hx | hx
            · exact hrecords x hx
            · rw [List.mem_singleton.mp hx]
              exact Option.some_ne_none r
        | none =>
            refine .inr ⟨(s.sent i).filterMap id, ?_⟩
            rw [List.append_cancel_right_eq]
            exact (map_some_filterMap hrecords).symm
      · rintro s' ⟨hE, hgone⟩
        have hsub : (s'.subs i).Sublist (s.subs i) := by simpa using hE.sub
        refine ⟨hE, (frame_noteSent s i item).trans hE.frame, fun hnone => ?_⟩
        exact List.eq_nil_iff_forall_not_mem.mpr fun t ht => hgone hnone t (hsub.subset ht) ht

/-- What a body sees of its subscribers after an item. -/
theorem EmitPost.downstream {i : Nat} {item : Option ρ} {s s' : Net ν η ρ}
    (h : EmitPost K L i (s.noteSent i item) s') :
    s'.downstream i = (s.downstream i).after item (s'.active i) ∧
      (s'.active i = true → s.active i = true) := by
  constructor
  · have hsent := h.sent
    unfold Net.downstream Prog.Downstream.after
    cases hact : s.active i with
    | true => simp [hsent, noteSent_sent_self s i item hact]
    | false => simp [hsent, noteSent, hact]
  · intro hact
    by_contra hna
    have hnil : s.subs i = [] := active_eq_false.mp (by simpa using hna)
    have hsub := h.sub
    rw [noteSent_subs, hnil, List.sublist_nil] at hsub
    rw [active_eq_false.mpr hsub] at hact
    cases hact

/-- What running a body at node `i` ends in. -/
structure ExecPost (K : Contract consume) (L : Layout) (i : Nat) (s s' : Net ν η ρ) : Prop where
  follows : Follows K L s'
  ok : OkFrom K L (i + 1) s'
  subs : SubsOk L s' i
  frame : Frame L i s s'

/-- A body that meets a postcondition in every surrounding meets it in a network. -/
theorem exec_spec (hL : L.Sound) {deliver : Deliver ν ε η ρ} {i : Nat}
    (hd : Delivers K L deliver i) {Q : α → Downstream ρ → η → Prop} {p : Prog ε η ρ α}
    {s : Net ν η ρ} (hf : Follows K L s) (hok : OkFrom K L (i + 1) s) (hs : SubsOk L s i)
    (hp : p.Meets (L.owner i) Q (s.downstream i) (s.cellOf i)) :
    Ensures (fun r => ExecPost K L i s r.2 ∧ Q r.1 (r.2.downstream i) (r.2.cellOf i))
      (exec deliver i p s) := by
  induction p generalizing s with
  | done b => exact ⟨⟨hf, hok, hs, Frame.refl i _⟩, hp _ fun _ => rfl⟩
  | fail e => trivial
  | active k ih => exact ih _ hf hok hs hp
  | emit item k ih =>
      refine (emit_spec hL hd hf hok hs).bind fun s₁ ⟨hE, hframe, hgone⟩ => ?_
      have hcell : L.owner i = true → s₁.cellOf i = s.cellOf i := by
        intro ho
        unfold cellOf
        rw [hE.follows.cell, hf.cell]
        simpa using hE.heap ho
      have ⟨hdown, hact⟩ := hE.downstream
      have hmeets : (k (s₁.active i)).Meets (L.owner i) Q (s₁.downstream i) (s₁.cellOf i) := by
        cases item with
        | none =>
            rw [hdown, active_eq_false.mpr (hgone rfl)]
            exact Prog.Meets.cell hcell hp
        | some r =>
            rw [hdown]
            exact Prog.Meets.cell hcell (hp (s₁.active i) hact)
      exact (ih _ hE.follows hE.ok hE.subs hmeets).mono fun r ⟨hX, hQ⟩ =>
        ⟨⟨hX.follows, hX.ok, hX.subs, hframe.trans hX.frame⟩, hQ⟩
  | load k ih => exact ih _ hf hok hs (hp (s.cellOf i) fun _ => rfl)
  | store c k ih =>
      obtain ⟨ho, hp⟩ := hp
      have hcell : (s.setCell i c).cellOf i = c := by simp [cellOf, setCell]
      exact (ih (hf.setCell i c) (hok.setCell hL hf ho c)
        (hs.congr (fun _ => hf.subset) rfl rfl fun _ _ => rfl) (by rwa [hcell])).mono
        fun r ⟨hX, hQ⟩ =>
          ⟨⟨hX.follows, hX.ok, hX.subs, (frame_setCell hL hf ho c).trans hX.frame⟩, hQ⟩

/-- **A call of an input keeps the protocol**, and its nested calls stay within the network. -/
theorem call_spec (hL : L.Sound) (depth : Nat) {t : Port} {item : Option ρ} {s : Net ν η ρ}
    (hdepth : L.size ≤ depth + t.node) (hpre : CallPre K L t s) :
    Ensures (fun r => CallPost K L t item s r.1 r.2) (call consume depth t item s) := by
  induction depth generalizing t item s with
  | zero =>
      have := hpre.bounded
      omega
  | succ depth ih =>
      have hf := hpre.follows
      have ⟨hnode, hsubs⟩ := hpre.ok t.node (Nat.le_refl _)
      have hmeets := K.consume_meets item hnode (by rw [hf.ports]; exact hpre.inRange) hpre.isOpen
      rw [hf.owner] at hmeets
      refine (exec_spec hL (fun hlt hc => ih (by omega) hc) hf (hpre.ok.mono (Nat.le_succ _)) hsubs
        hmeets).bind fun ⟨⟨op, cont⟩, s₁⟩ ⟨hX, hanswer, hports, howner, hinv⟩ => ?_
      have hlog : ∀ u, u.node ≤ t.node → s₁.log u = s.log u := by
        intro u hu
        refine hX.frame.log u fun k hk hmem => ?_
        have := hL.forward hmem
        omega
      have hlogt := hlog t (Nat.le_refl _)
      have hcall := hpre.isOpen.call hanswer
      have hne : ∀ {k u}, t.node ≤ k → u ∈ L.subs k → u ≠ t := by
        rintro k u hk hu rfl
        have := hL.forward hu
        omega
      refine ⟨⟨fun i => ?_, fun i => ?_, hX.follows.cell, hX.follows.sub, fun {i u} hu => ?_,
        fun u => ?_⟩, fun k hk => ⟨?_, ?_⟩, ⟨fun k hk => ?_, fun u hut hu => ?_,
        hX.frame.sent, hX.frame.subs, hX.frame.heap, fun k hk => ?_, fun u => ?_⟩, ?_, hanswer⟩
      · by_cases hi : i = t.node
        · subst hi
          simpa [finish, hf.ports] using hports
        · simpa [finish, hi] using hX.follows.ports i
      · by_cases hi : i = t.node
        · subst hi
          simpa [finish, hf.owner] using howner
        · simpa [finish, hi] using hX.follows.owner i
      · by_cases hut : u = t
        · subst hut
          rcases hX.follows.left hu with hin | hc
          · exact .inl hin
          · exact absurd (hlogt ▸ hc) (not_closed_of_open hpre.isOpen)
        · simpa [finish, hut] using hX.follows.left hu
      · by_cases hut : u = t
        · subst hut
          rw [finish_log_self, hlogt]
          exact hcall.imp And.right And.right
        · simpa [finish, hut] using hX.follows.logs u
      · by_cases hkt : k = t.node
        · subst hkt
          have hlogs : (fun p => (s₁.finish t item op cont).log ⟨t.node, p⟩) =
              Function.update (fun p => s.log ⟨t.node, p⟩) t.index
                (s.log t ++ [(item, cont)]) := by
            funext p
            by_cases hp : p = t.index
            · subst hp
              simp [finish, hlogt]
            · have hpt : (⟨t.node, p⟩ : Port) ≠ t := fun he => hp (by rw [← he])
              simp [finish, hpt, hp, hlog ⟨t.node, p⟩ (Nat.le_refl _)]
          unfold NodeOk
          rw [hlogs, finish_downstream]
          simpa [finish, cellOf] using hinv
        · have hn := (hX.ok k (by omega)).1
          have hpt : ∀ p, (⟨k, p⟩ : Port) ≠ t := fun p he => hkt (by rw [← he])
          unfold NodeOk at hn ⊢
          rw [finish_downstream]
          simpa [finish, hkt, hpt, cellOf] using hn
      · have hs : SubsOk L s₁ k := by
          by_cases hkt : k = t.node
          · exact hkt ▸ hX.subs
          · exact (hX.ok k (by omega)).2
        refine hs.congr (fun _ => hX.follows.subset) rfl rfl fun u hu => ?_
        simp [finish, hne hk hu]
      · simpa [finish, show k ≠ t.node by omega] using hX.frame.op k (by omega)
      · simpa [finish, hut] using hX.frame.log u hu
      · have hkt : k ≠ t.node := by
          rintro rfl
          have := hpre.inRange
          omega
        rw [finish_downstream]
        simpa [finish, hkt] using hX.frame.source k hkt hk
      · by_cases hut : u = t
        · subst hut
          rw [finish_log_self, hlogt]
          exact List.prefix_append _ _
        · simpa [finish, hut] using hX.frame.grows u
      · rw [finish_log_self, hlogt]

/-! ### Runs -/

/-- What every source's body meets: when it ends, no subscriber is left. -/
def Drains (body : Prog ε η ρ Unit) (d : Downstream ρ) (c : η) : Prop :=
  body.Meets false (fun _ d _ => d.active = false) d c

/-- A run between two interactions. -/
structure RunOk (K : Contract consume) (L : Layout) (st : State ν ε η ρ) : Prop where
  follows : Follows K L st.net
  ok : OkFrom K L 0 st.net
  source : ∀ th ∈ st.threads, L.ports th.node = 0 ∧ L.owner th.node = false
  drains : ∀ th ∈ st.threads, Drains th.body (st.net.downstream th.node) (st.net.cellOf th.node)
  nodup : (st.threads.map Thread.node).Nodup

/-- A body at node `i` leaves the earlier nodes at rest. -/
theorem Frame.nodeOk {i : Nat} {s s' : Net ν η ρ} (h : Frame L i s s') (hL : L.Sound)
    (hf : Follows K L s) (hf' : Follows K L s') {k : Nat} (hk : k < i) (hn : NodeOk K s k) :
    NodeOk K s' k := by
  have hlog : (fun p => s'.log ⟨k, p⟩) = fun p => s.log ⟨k, p⟩ := by
    funext p
    refine h.log ⟨k, p⟩ fun m hm hmem => ?_
    have : m < k := hL.forward hmem
    omega
  unfold NodeOk
  rw [hlog, downstream_congr (h.subs k hk) (h.sent k hk), h.op k (by omega)]
  by_cases hown : L.owner k = true
  · have : s'.cellOf k = s.cellOf k := by
      unfold cellOf
      rw [hf'.cell, hf.cell]
      exact h.heap k hk hown
    rw [this]
    exact hn
  · exact K.inv_cell (by rw [hf.owner]; simpa using hown) hn

theorem Frame.subsOk {i : Nat} {s s' : Net ν η ρ} (h : Frame L i s s') (hL : L.Sound)
    (hf : Follows K L s) {k : Nat} (hk : k < i) (hs : SubsOk L s k) : SubsOk L s' k := by
  refine hs.congr (fun _ => hf.subset) (h.subs k hk) (h.sent k hk) fun u hu => ?_
  refine h.log u fun m hm hmem => ?_
  have := hL.unique hu hmem
  omega

/-- A source that emits keeps itself at rest. -/
theorem Frame.sourceOk {i : Nat} {s s' : Net ν η ρ} (h : Frame L i s s') (hL : L.Sound)
    (hf : Follows K L s) (hports : L.ports i = 0) (howner : L.owner i = false)
    (hn : NodeOk K s i) : NodeOk K s' i := by
  have hlog : (fun p => s'.log ⟨i, p⟩) = fun p => s.log ⟨i, p⟩ := by
    funext p
    refine h.log ⟨i, p⟩ fun m hm hmem => ?_
    have : m < i := hL.forward hmem
    omega
  unfold NodeOk
  rw [hlog, h.op i (Nat.le_refl i)]
  exact K.inv_cell (by rw [hf.owner, howner]) (K.inv_source (by rw [hf.ports, hports]) hn)

/-- What one interaction of a source ends in. The rest of its body meets what the whole met. -/
structure ThreadPost (K : Contract consume) (L : Layout) (th : Thread ε η ρ) (s : Net ν η ρ)
    (th' : Thread ε η ρ) (s' : Net ν η ρ) : Prop where
  node : th'.node = th.node
  follows : Follows K L s'
  ok : OkFrom K L 0 s'
  frame : Frame L th.node s s'
  ended : th.ended = true → th'.ended = true
  meets : ∀ {owner : Bool} {Q : Unit → Downstream ρ → η → Prop},
    th.body.Meets owner Q (s.downstream th.node) (s.cellOf th.node) →
    (owner = true → s'.cellOf th.node = s.cellOf th.node) →
    th'.body.Meets owner Q (s'.downstream th.node) (s'.cellOf th.node)

theorem thread_spec (hL : L.Sound) {st : State ν ε η ρ} (hr : RunOk K L st) {th : Thread ε η ρ}
    (hmem : th ∈ st.threads) :
    Ensures (fun r => ThreadPost K L th st.net r.1 r.2)
      (th.step (call consume L.size) st.net) := by
  have ⟨hports, howner⟩ := hr.source th hmem
  have hdrains := hr.drains th hmem
  unfold Thread.step
  unfold Drains at hdrains
  cases hbody : th.body with
  | done a =>
      exact ⟨rfl, hr.follows, hr.ok, Frame.refl _ _, fun _ => rfl, fun {_ Q} hmeets _ => by
        rw [hbody] at hmeets
        exact hmeets⟩
  | fail e => trivial
  | active f =>
      exact ⟨rfl, hr.follows, hr.ok, Frame.refl _ _, by simp [Thread.ended, hbody], fun hmeets _ => by
        rw [hbody] at hmeets
        exact hmeets⟩
  | load f =>
      exact ⟨rfl, hr.follows, hr.ok, Frame.refl _ _, by simp [Thread.ended, hbody], fun hmeets _ => by
        rw [hbody] at hmeets
        exact hmeets _ fun _ => rfl⟩
  | store c f =>
      rw [hbody] at hdrains
      exact absurd hdrains.1 Bool.false_ne_true
  | emit item f =>
      have ⟨_, hsubs⟩ := hr.ok th.node (Nat.zero_le _)
      refine (emit_spec hL (fun _ hc => call_spec hL L.size (by omega) hc) hr.follows
        (hr.ok.mono (Nat.zero_le _)) hsubs).bind fun s' ⟨hE, hframe, hgone⟩ => ?_
      refine ⟨rfl, hE.follows, fun m _ => ?_, hframe, by simp [Thread.ended, hbody],
        fun hmeets hcell => ?_⟩
      · rcases Nat.lt_trichotomy m th.node with hm | rfl | hm
        · have ⟨hn, hs⟩ := hr.ok m (Nat.zero_le _)
          exact ⟨hframe.nodeOk hL hr.follows hE.follows hm hn, hframe.subsOk hL hr.follows hm hs⟩
        · exact ⟨hframe.sourceOk hL hr.follows hports howner (hr.ok _ (Nat.zero_le _)).1, hE.subs⟩
        · exact hE.ok m hm
      · rw [hbody] at hmeets
        have ⟨hdown, hact⟩ := hE.downstream
        cases item with
        | none =>
            rw [hdown, active_eq_false.mpr (hgone rfl)]
            exact Prog.Meets.cell hcell hmeets
        | some r =>
            rw [hdown]
            exact Prog.Meets.cell hcell (hmeets _ hact)

/-- What a step of a run does: nothing, or one interaction of one source. -/
inductive Stepped (K : Contract consume) (L : Layout) (k : Nat) (st : State ν ε η ρ) :
    State ν ε η ρ → Prop
  | idle : st.threads[k]? = none → Stepped K L k st st
  | thread {th th' : Thread ε η ρ} {s' : Net ν η ρ} : st.threads[k]? = some th →
    ThreadPost K L th st.net th' s' → Stepped K L k st ⟨s', st.threads.set k th'⟩

theorem step_stepped (hL : L.Sound) {st : State ν ε η ρ} {k : Nat} (hr : RunOk K L st) :
    Ensures (Stepped K L k st) (st.step (call consume L.size) k) := by
  unfold State.step
  split
  next hk => exact .idle hk
  next th hk =>
    exact (thread_spec hL hr (List.mem_of_getElem? hk)).bind fun ⟨th', s'⟩ hpost => .thread hk hpost

/-- The nodes of the sources do not change. -/
theorem Stepped.nodes {k : Nat} {st st' : State ν ε η ρ} (h : Stepped K L k st st') :
    st'.threads.map Thread.node = st.threads.map Thread.node := by
  cases h with
  | idle => rfl
  | @thread th th' s' hk hpost =>
      refine List.ext_getElem? fun m => ?_
      by_cases hkm : k = m
      · subst hkm
        obtain ⟨hklt, hkth⟩ := List.getElem?_eq_some_iff.mp hk
        simp [hklt, hkth, hpost.node]
      · simp [hkm]

/-- A source that has ended stays so. -/
theorem Stepped.ended {k : Nat} {st st' : State ν ε η ρ} (h : Stepped K L k st st') {m : Nat}
    {u : Thread ε η ρ} (hm : st.threads[m]? = some u) (hend : u.ended = true) :
    ∃ u', st'.threads[m]? = some u' ∧ u'.ended = true := by
  cases h with
  | idle => exact ⟨u, hm, hend⟩
  | @thread th th' s' hk hpost =>
      by_cases hkm : k = m
      · subst hkm
        rw [hk] at hm
        cases hm
        exact ⟨th', by simp [(List.getElem?_eq_some_iff.mp hk).1], hpost.ended hend⟩
      · exact ⟨u, by rwa [List.getElem?_set_ne hkm], hend⟩

/-- Logs grow. -/
theorem Stepped.grows {k : Nat} {st st' : State ν ε η ρ} (h : Stepped K L k st st') (t : Port) :
    st.net.log t <+: st'.net.log t := by
  cases h with
  | idle => exact List.prefix_rfl
  | thread _ hpost => exact hpost.frame.grows t

/-- The steps of the other sources leave a source as it was. -/
theorem Stepped.other {k : Nat} {st st' : State ν ε η ρ} (h : Stepped K L k st st')
    (hr : RunOk K L st) {m : Nat} {u : Thread ε η ρ} (hmk : m ≠ k) (hm : st.threads[m]? = some u) :
    st'.threads[m]? = some u ∧ st'.net.downstream u.node = st.net.downstream u.node := by
  cases h with
  | idle => exact ⟨hm, rfl⟩
  | @thread th th' s' hk hpost =>
      refine ⟨by rwa [List.getElem?_set_ne (Ne.symm hmk)], ?_⟩
      have hklt : k < st.threads.length := (List.getElem?_eq_some_iff.mp hk).1
      have hne : u.node ≠ th.node := fun he =>
        Ne.symm hmk ((List.getElem?_inj (by simpa using hklt) hr.nodup).mp (by simp [hk, hm, he]))
      exact (hpost.frame.source _ hne (hr.source u (List.mem_of_getElem? hm)).1).1

/-- A step keeps the protocol. -/
theorem Stepped.runOk {k : Nat} {st st' : State ν ε η ρ} (h : Stepped K L k st st')
    (hr : RunOk K L st) : RunOk K L st' := by
  have hnodes := h.nodes
  have hother : ∀ m u, m ≠ k → st.threads[m]? = some u → _ := fun m u => h.other hr
  cases h with
  | idle => exact hr
  | @thread th th' s' hk hpost =>
      have hklt : k < st.threads.length := (List.getElem?_eq_some_iff.mp hk).1
      have hsource := hr.source th (List.mem_of_getElem? hk)
      refine ⟨hpost.follows, hpost.ok, fun u hu => ?_, fun u hu => ?_, hnodes ▸ hr.nodup⟩
      · rcases List.mem_or_eq_of_mem_set hu with hu | rfl
        · exact hr.source u hu
        · rw [hpost.node]
          exact hsource
      · obtain ⟨m, hm⟩ := List.mem_iff_getElem?.mp hu
        by_cases hmk : m = k
        · subst hmk
          have hu' : th' = u := by simpa [hklt] using hm
          rw [← hu', hpost.node]
          exact hpost.meets (hr.drains th (List.mem_of_getElem? hk)) (by simp)
        · -- another source, which nobody calls
          rw [List.getElem?_set_ne (Ne.symm hmk)] at hm
          rw [(hother m u hmk hm).2]
          exact Prog.Meets.cell (by simp) (hr.drains u (List.mem_of_getElem? hm))

/-- One interaction of a source. -/
theorem step_spec (hL : L.Sound) {st : State ν ε η ρ} {k : Nat} (hr : RunOk K L st) :
    Ensures (RunOk K L) (st.step (call consume L.size) k) :=
  (step_stepped hL hr).mono fun _ h => h.runOk hr

/-- **Every schedule keeps the protocol.** -/
theorem run_spec (hL : L.Sound) {ks : List Nat} {st : State ν ε η ρ} (hr : RunOk K L st) :
    Ensures (RunOk K L) (st.run (call consume L.size) ks) := by
  induction ks generalizing st with
  | nil => exact hr
  | cons k ks ih => exact (step_spec hL hr).bind fun st₁ hr₁ => ih hr₁

/-! ### The end of a stream -/

end Net

namespace Layout

/-- Node `k` is node `i`, or items that it emits reach node `i`. -/
inductive Feeds (L : Layout) : Nat → Nat → Prop
  | refl (i : Nat) : L.Feeds i i
  | step {k i : Nat} {t : Port} : t ∈ L.subs k → L.Feeds t.node i → L.Feeds k i

theorem Feeds.snoc {L : Layout} {k j : Nat} {t : Port} (h : L.Feeds k j) (ht : t ∈ L.subs j) :
    L.Feeds k t.node := by
  induction h with
  | refl i => exact .step ht (.refl _)
  | step hu _ ih => exact .step hu (ih ht)

/-- Every input is subscribed to some node. -/
def Connected (L : Layout) : Prop :=
  ∀ i < L.size, ∀ p < L.ports i, ∃ k, ⟨i, p⟩ ∈ L.subs k

end Layout

namespace Net

variable {consume : Consume ν ε η ρ} {K : Contract consume} {L : Layout}

/-- The sources whose items reach a node have all ended. -/
def SourcesEnded (L : Layout) (st : State ν ε η ρ) (i : Nat) : Prop :=
  ∀ k, L.Feeds k i → L.ports k = 0 → ∃ th ∈ st.threads, th.node = k ∧ th.ended = true

/-- A source that has ended has no subscriber left. -/
theorem RunOk.ended {st : State ν ε η ρ} (h : RunOk K L st) {th : Thread ε η ρ}
    (hth : th ∈ st.threads) (hend : th.ended = true) : st.net.subs th.node = [] := by
  have hdrains := h.drains th hth
  unfold Thread.ended at hend
  unfold Drains at hdrains
  split at hend
  next hbody =>
    rw [hbody] at hdrains
    exact active_eq_false.mp (hdrains _ fun _ => rfl)
  · cases hend

/-- **Nothing waits for a node below which every source has ended.** By induction along the
network: the inputs of the node were dropped by nodes for which this holds already. -/
theorem RunOk.drained {st : State ν ε η ρ} (h : RunOk K L st) (hL : L.Sound)
    (hcon : L.Connected) (i : Nat) (hi : i < L.size) (hend : SourcesEnded L st i) :
    st.net.subs i = [] := by
  induction i using Nat.strongRecOn with
  | _ i ih =>
      by_cases hports : L.ports i = 0
      · obtain ⟨th, hth, rfl, hended⟩ := hend i (.refl i) hports
        exact h.ended hth hended
      · refine active_eq_false.mp (K.finished (h.ok i (Nat.zero_le i)).1
          (by rw [h.follows.ports]; omega) fun p hp => ?_)
        rw [h.follows.ports] at hp
        obtain ⟨k, hk⟩ := hcon i hi p hp
        have hki : k < i := hL.forward hk
        have hnil := ih k hki (by omega) fun m hm => hend m (hm.snoc hk)
        rcases h.follows.left hk with hin | hc
        · rw [hnil] at hin
          cases hin
        · exact hc

/-- An input keeps the stream protocol. -/
theorem RunOk.wellFormed {st : State ν ε η ρ} (h : RunOk K L st) (t : Port) :
    WellFormed (st.net.log t) := h.follows.logs t

/-- An input that took every record has been called with one end of the stream, last of all, once
every source below it has ended. -/
theorem RunOk.eof {st : State ν ε η ρ} (h : RunOk K L st) (hL : L.Sound) (hcon : L.Connected)
    {i : Nat} {t : Port} (ht : t ∈ L.subs i) (hend : SourcesEnded L st i)
    (htakes : ∀ e ∈ st.net.log t, e.1 ≠ none → e.2 = true) :
    ∃ records : List ρ, st.net.log t = records.map (fun r => (some r, true)) ++ [(none, false)] := by
  have hi : i < L.size := Nat.lt_trans (hL.forward ht) (hL.bounded ht)
  have hnil := h.drained hL hcon i hi hend
  rcases h.follows.left ht with hin | ⟨front, item, hopen, hlog⟩
  · rw [hnil] at hin
    cases hin
  · have hitem : item = none := by
      by_contra hne
      exact Bool.false_ne_true (htakes (item, false) (by simp [hlog]) hne)
    obtain ⟨records, hrecords⟩ : ∃ records : List ρ,
        front = records.map fun r => (some r, true) := by
      clear hlog
      induction front with
      | nil => exact ⟨[], rfl⟩
      | cons e front ih =>
          obtain ⟨records, hrecords⟩ := ih fun e he => hopen e (by simp [he])
          obtain ⟨item, cont⟩ := e
          have ⟨hsome, hcont⟩ := hopen (item, cont) (by simp)
          obtain ⟨r, rfl⟩ := Option.ne_none_iff_exists'.mp hsome
          exact ⟨r :: records, by rw [hrecords]; simpa using hcont⟩
    exact ⟨records, by rw [hlog, hitem, hrecords]⟩

/-- An input that was called with the end of the stream has been called with all that its node
emitted. -/
theorem RunOk.heard {st : State ν ε η ρ} (h : RunOk K L st) {i : Nat} {t : Port}
    (ht : t ∈ L.subs i) (hend : none ∈ (st.net.log t).map Prod.fst) :
    (st.net.log t).map Prod.fst = st.net.sent i := by
  have hsubs := (h.ok i (Nat.zero_le i)).2
  have hpre := hsubs.isPrefix t ht
  obtain ⟨-, records, hrecords⟩ :=
    hsubs.stream.resolve_left fun hnone => hnone none (hpre.subset hend) rfl
  rw [hrecords] at hpre ⊢
  rcases List.prefix_concat_iff.mp hpre with hall | hpart
  · exact hall
  · simpa using hpart.subset hend

/-- An input that is still subscribed has been called with all that its node emitted. -/
theorem RunOk.received {st : State ν ε η ρ} (h : RunOk K L st) {i : Nat} {t : Port}
    (ht : t ∈ st.net.subs i) : (st.net.log t).map Prod.fst = st.net.sent i :=
  ((h.ok i (Nat.zero_le i)).2.current t ht).2

end Net

end Flow
