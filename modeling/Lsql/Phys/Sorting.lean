import Lsql.Flow.Feed
import Lsql.Flow.Leading
import Lsql.Ir.Refinement
import Lsql.Phys.Algorithms

/-!
# Lsql.Phys.Sorting

`Sort`, `TopK` and `Limit` on a whole stream (`back/exec/phys/ops/Sort.h`, `TopK.h`, `Limit.h`).

`TopK` keeps the leading records of those that it has seen (`Flow.Leading`) and hands them on at the
end, the worst one last. What it emits is what `Sort` followed by `Limit` emits for some order of the
records that `std::sort` may leave them in.
-/

namespace Lsql.Phys

open Lsql.Exec Flow
open Flow.Prog (feed feedThrough streamOf)
open Ir (MayPrecede mayPrecede_total mayPrecede_trans)

/-- The order of records by their keys. -/
def KeyedBefore (desc : Bool) (p q : Keyed) : Prop := MayPrecede desc p.2 q.2

/-- Records with the keys that an operator computes for them, none of which holds a NaN. -/
structure HaveKeys (sortKey : List Scalar) (keyed : List Keyed) : Prop where
  key : ∀ p ∈ keyed, Scalar.key p.1 sortKey = .ok p.2
  comparable : ∀ p ∈ keyed, Comparable p.2

/-! ### The comparators -/

section Comparators

variable {desc : Bool}

theorem keyLess_eq_false {a b : List Value} (ha : Comparable a) (hb : Comparable b) :
    keyLess a b = false ↔ MayPrecede false b a := by
  rw [keyLess, compareKeys_eq_order ha hb, MayPrecede, keyOrder_swap a b]
  cases keyOrder a b <;> decide

theorem less_eq_false {p q : Keyed} (hp : Comparable p.2) (hq : Comparable q.2) :
    SortOp.less desc p q = false ↔ KeyedBefore desc q p := by
  cases desc with
  | false => exact keyLess_eq_false hp hq
  | true =>
      refine (keyLess_eq_false hq hp).trans ?_
      unfold KeyedBefore MayPrecede
      rw [keyOrder_swap q.2 p.2]
      cases keyOrder q.2 p.2 <;> decide

/-- The comparator of `TopK` is that of `Sort`. -/
theorem comparator_eq : TopK.comparator desc = SortOp.less desc := rfl

/-- A better key is one that the comparator puts first. -/
theorem better_eq {a b : List Value} {r r' : Record} :
    TopK.better desc a b = SortOp.less desc (r, a) (r', b) := rfl

theorem keyedBefore_trans (p q s : Keyed) (hpq : KeyedBefore desc p q)
    (hqs : KeyedBefore desc q s) : KeyedBefore desc p s := mayPrecede_trans hpq hqs

/-- On keys without a NaN the comparator is a strict weak order. -/
theorem strictWeak_less {l : List Keyed} (h : ∀ p ∈ l, Comparable p.2) :
    StrictWeak (SortOp.less desc) l where
  irrefl p hp := (less_eq_false (h p hp) (h p hp)).mpr
    ((mayPrecede_total desc p.2 p.2).elim id id)
  trans p hp q hq s hs hpq hqs := by
    by_contra hps
    rw [Bool.not_eq_true] at hps
    have hsp : KeyedBefore desc s p := (less_eq_false (h p hp) (h s hs)).mp hps
    -- the keys are totally ordered, so `p` may precede `q`
    have hqp : ¬ KeyedBefore desc q p := fun hqp => by
      rw [(less_eq_false (h p hp) (h q hq)).mpr hqp] at hpq
      cases hpq
    have hpq' : KeyedBefore desc p q := (mayPrecede_total desc p.2 q.2).resolve_right hqp
    rw [(less_eq_false (h q hq) (h s hs)).mpr (keyedBefore_trans s p q hsp hpq')] at hqs
    cases hqs
  negTrans p hp q hq s hs hpq hqs := by
    rw [less_eq_false (h p hp) (h q hq)] at hpq
    rw [less_eq_false (h q hq) (h s hs)] at hqs
    exact (less_eq_false (h p hp) (h s hs)).mpr (keyedBefore_trans s q p hqs hpq)

theorem inOrder_iff {l : List Keyed} (h : ∀ p ∈ l, Comparable p.2) :
    InOrder (SortOp.less desc) l ↔ l.Pairwise (KeyedBefore desc) :=
  List.Pairwise.iff_of_mem fun hp hq => less_eq_false (h _ hq) (h _ hp)

/-- Records can be put in order. -/
theorem exists_pairwise (desc : Bool) (l : List Keyed) :
    ∃ w : List Keyed, w.Perm l ∧ w.Pairwise (KeyedBefore desc) := by
  have htotal : ∀ p q : Keyed, KeyedBefore desc p q ∨ KeyedBefore desc q p :=
    fun p q => mayPrecede_total desc p.2 q.2
  have hdec : DecidableRel (KeyedBefore desc) := fun p q =>
    inferInstanceAs (Decidable (MayPrecede desc p.2 q.2))
  refine ⟨_, List.mergeSort_perm l fun p q => decide (KeyedBefore desc p q), ?_⟩
  refine (List.pairwise_mergeSort ?_ ?_ l).imp fun h => of_decide_eq_true h
  · intro p q s hpq hqs
    exact decide_eq_true (keyedBefore_trans p q s (of_decide_eq_true hpq) (of_decide_eq_true hqs))
  · intro p q
    simpa using htotal p q

end Comparators

/-! ### Sort -/

section Operators

variable [Algorithms] {accept : List (Option Record) → Bool} {sortKey : List Scalar} {desc : Bool}
  {keyed : List Keyed} {c : Cell} {d : Prog.Downstream Record}

namespace SortOp

/-- A newly built operator. -/
def build (sortKey : List Scalar) (desc : Bool) : SortOp := { sortKey, desc, records := [] }

theorem run_record {self : SortOp} {record : Record} {key : List Value}
    (hkey : Scalar.key record self.sortKey = .ok key) (hactive : d.active = true) :
    Prog.run accept (self.consume (some record)) c d =
      .ok (({ self with records := self.records ++ [(record, key)] }, true), c, d) := by
  simp only [consume, hkey, Prog.lift_ok, Prog.done_bind, Prog.isActive_bind, Prog.run_active,
    hactive]
  rfl

theorem run_end (accept : List (Option Record) → Bool) (self : SortOp) (c : Cell)
    (d : Prog.Downstream Record) : ∃ r, Prog.run accept (self.consume none) c d =
    .ok (r, c, d.sendAll accept (streamOf ((Algorithms.sort (less self.desc) self.records).map Prod.fst))) :=
  Prog.run_sendAll_end accept _ c d ({ self with records := [] }, false)
    fun cont => ({ self with records := [] }, cont)

/-- `Sort` emits the records in the order that `std::sort` leaves them in. -/
theorem feed_eq (hkeyed : HaveKeys sortKey keyed) (hactive : d.active = true) :
    ∃ r, feed accept consume (streamOf (keyed.map Prod.fst)) (build sortKey desc) c d =
      .ok (r, c, d.sendAll accept (streamOf ((Algorithms.sort (less desc) keyed).map Prod.fst))) := by
  obtain ⟨s, hfeed, rfl⟩ : ∃ s, feed accept consume ((keyed.map Prod.fst).map some)
      (build sortKey desc) c d = .ok ((s, true), c, d) ∧ s = { sortKey, desc, records := keyed } := by
    refine Prog.feed_absorb (I := fun front (s : SortOp) => s = { sortKey, desc, records := front }) rfl ?_
    rintro front p s hpre rfl
    exact ⟨_, run_record (hkeyed.key p (hpre.subset (by simp))) hactive, rfl⟩
  obtain ⟨r, hend⟩ := run_end accept { sortKey, desc, records := keyed } c d
  exact ⟨r, Prog.feed_absorb_end hfeed hend⟩

end SortOp

/-! ### TopK -/

namespace TopK

/-- A newly built operator. -/
def build (sortKey : List Scalar) (desc : Bool) (maxSize : Nat) : TopK :=
  { sortKey, desc, maxSize, heap := [] }

/-- What the heap holds of the records seen. -/
def Kept (desc : Bool) (maxSize : Nat) (seen heap : List Keyed) : Prop :=
  Leading (KeyedBefore desc) maxSize seen heap

theorem run_end (accept : List (Option Record) → Bool) (self : TopK) (c : Cell)
    (d : Prog.Downstream Record) : ∃ r, Prog.run accept (self.consume none) c d =
    .ok (r, c, d.sendAll accept (streamOf self.drain)) :=
  Prog.run_sendAll_end accept _ c d ({ self with heap := [] }, false)
    fun cont => ({ self with heap := [] }, cont)

theorem run_record {self : TopK} {record : Record} {key : List Value}
    (hkey : Scalar.key record self.sortKey = .ok key) (hactive : d.active = true) :
    Prog.run accept (self.consume (some record)) c d =
      .ok (({ self with heap := self.pushHeap record key }, true), c, d) := by
  simp only [consume, hkey, Prog.lift_ok, Prog.done_bind, Prog.isActive_bind, Prog.run_active,
    hactive]
  rfl

section Heap

variable [LawfulAlgorithms] {self : TopK} {seen heap : List Keyed}

/-- **One push keeps the leading records.** -/
theorem pushHeap_kept (hpos : 0 < self.maxSize) (h : Kept self.desc self.maxSize seen self.heap)
    {p : Keyed} (hseen : ∀ q ∈ self.heap, Comparable q.2) (hp : Comparable p.2) :
    Kept self.desc self.maxSize (seen ++ [p]) (self.pushHeap p.1 p.2) := by
  unfold pushHeap
  split
  next hroom => exact h.grow hroom p
  next hfull =>
    have hpop := Algorithms.pop_perm (comparator self.desc) self.heap
    cases htop : Algorithms.pop (comparator self.desc) self.heap with
    | none =>
        rw [htop] at hpop
        have hempty : self.heap = [] := hpop
        rw [hempty] at hfull
        exact absurd hpos (by simpa using hfull)
    | some popped =>
        obtain ⟨top, rest⟩ := popped
        rw [htop] at hpop
        have hperm : (top :: rest).Perm self.heap := hpop
        have hmem : ∀ q ∈ top :: rest, Comparable q.2 := fun q hq => hseen q (hperm.subset hq)
        have htopMem := hmem top List.mem_cons_self
        -- the top is the worst of those kept
        have hlast : ∀ q ∈ rest, KeyedBefore self.desc q top := by
          intro q hq
          refine (less_eq_false htopMem (hmem q (List.mem_cons_of_mem _ hq))).mp ?_
          exact LawfulAlgorithms.pop_last _ _ _ _ (strictWeak_less hseen) htop q hq
        show Kept self.desc self.maxSize (seen ++ [p])
          (if better self.desc p.2 top.2 then rest ++ [(p.1, p.2)] else self.heap)
        split
        next hbetter =>
          refine h.replace keyedBefore_trans hfull hperm hlast ?_
          -- the new record is less than the top, so it may precede it
          have hweak : StrictWeak (SortOp.less self.desc) [p, top] :=
            strictWeak_less (by simp [hp, htopMem])
          exact (less_eq_false htopMem hp).mp (hweak.asymm (by simp) (by simp) hbetter)
        next hworse =>
          have htp : KeyedBefore self.desc top p :=
            (less_eq_false hp htopMem).mp (Bool.not_eq_true _ ▸ hworse)
          refine h.skip hfull fun q hq => ?_
          rcases List.mem_cons.mp (hperm.symm.subset hq) with rfl | hq
          · exact htp
          · exact keyedBefore_trans q top p (hlast q hq) htp

/-- Taking everything out of a heap, the worst first. -/
theorem popAll_spec (desc : Bool) (hseen : ∀ q ∈ heap, Comparable q.2) :
    (popAll desc heap.length heap).Perm heap ∧
      (popAll desc heap.length heap).Pairwise fun p q => KeyedBefore desc q p := by
  suffices h : ∀ n (heap : List Keyed), heap.length = n → (∀ q ∈ heap, Comparable q.2) →
      (popAll desc n heap).Perm heap ∧
        (popAll desc n heap).Pairwise fun p q => KeyedBefore desc q p from h _ heap rfl hseen
  intro n
  induction n with
  | zero =>
      intro heap hlength _
      rw [List.length_eq_zero_iff.mp hlength]
      exact ⟨.refl _, .nil⟩
  | succ n ih =>
      intro heap hlength hseen
      have hpop := Algorithms.pop_perm (comparator desc) heap
      rw [popAll]
      cases htop : Algorithms.pop (comparator desc) heap with
      | none =>
          rw [htop] at hpop
          have hempty : heap = [] := hpop
          rw [hempty] at hlength
          cases hlength
      | some popped =>
          obtain ⟨top, rest⟩ := popped
          rw [htop] at hpop
          have hperm : (top :: rest).Perm heap := hpop
          have hmem : ∀ q ∈ top :: rest, Comparable q.2 := fun q hq => hseen q (hperm.subset hq)
          have hrest : rest.length = n := by
            have := hperm.length_eq
            rw [List.length_cons] at this
            omega
          obtain ⟨ihperm, ihordered⟩ := ih rest hrest fun q hq => hmem q (List.mem_cons_of_mem _ hq)
          refine ⟨(ihperm.cons top).trans hperm, List.pairwise_cons.mpr ⟨fun q hq => ?_, ihordered⟩⟩
          have hq := ihperm.subset hq
          refine (less_eq_false (hmem top List.mem_cons_self)
            (hmem q (List.mem_cons_of_mem _ hq))).mp ?_
          exact LawfulAlgorithms.pop_last _ _ _ _ (strictWeak_less hseen) htop q hq

end Heap

/-- **`TopK` on a whole stream** emits the first records of an order of the whole stream. -/
theorem feed_eq [LawfulAlgorithms] {maxSize : Nat} (hpos : 0 < maxSize)
    (hkeyed : HaveKeys sortKey keyed) (hactive : d.active = true) :
    ∃ (w : List Keyed) (r : TopK × Bool), w.Perm keyed ∧ w.Pairwise (KeyedBefore desc) ∧
      feed accept consume (streamOf (keyed.map Prod.fst)) (build sortKey desc maxSize) c d =
        .ok (r, c, d.sendAll accept (streamOf ((w.take maxSize).map Prod.fst))) := by
  obtain ⟨s, hfeed, ⟨hkey, hdesc, hmax⟩, hkept⟩ : ∃ s, feed accept consume
      ((keyed.map Prod.fst).map some) (build sortKey desc maxSize) c d = .ok ((s, true), c, d) ∧
      (s.sortKey = sortKey ∧ s.desc = desc ∧ s.maxSize = maxSize) ∧
      Kept desc maxSize keyed s.heap := by
    refine Prog.feed_absorb (I := fun front (s : TopK) => (s.sortKey = sortKey ∧ s.desc = desc ∧
      s.maxSize = maxSize) ∧ Kept desc maxSize front s.heap) ⟨⟨rfl, rfl, rfl⟩, .nil⟩ ?_
    rintro front p s hpre ⟨⟨rfl, rfl, rfl⟩, hkept⟩
    have hp : p ∈ keyed := hpre.subset (by simp)
    refine ⟨_, run_record (hkeyed.key p hp) hactive, ⟨rfl, rfl, rfl⟩, ?_⟩
    obtain ⟨rest, hperm, -⟩ := hkept.rest
    refine pushHeap_kept hpos hkept (fun q hq => ?_) (hkeyed.comparable p hp)
    have hq : q ∈ front := hperm.subset (List.mem_append_left _ hq)
    exact hkeyed.comparable q (hpre.subset (List.mem_append_left _ hq))
  subst hkey hdesc hmax
  obtain ⟨rest, hperm, -⟩ := hkept.rest
  have hcomparable : ∀ q ∈ s.heap, Comparable q.2 := fun q hq =>
    hkeyed.comparable q (hperm.subset (List.mem_append_left _ hq))
  obtain ⟨hpopPerm, hpopOrdered⟩ := popAll_spec s.desc hcomparable
  obtain ⟨w, hw, hordered, htake⟩ := hkept.take ((List.reverse_perm _).trans hpopPerm)
    (List.pairwise_reverse.mpr hpopOrdered) (exists_pairwise s.desc)
  obtain ⟨r, hend⟩ := run_end accept s c d
  have hdrain : s.drain = (w.take s.maxSize).map Prod.fst := by
    rw [← htake, List.map_reverse]
    rfl
  rw [hdrain] at hend
  exact ⟨w, r, hw, hordered, Prog.feed_absorb_end hfeed hend⟩

end TopK

end Operators

/-! ### Limit -/

namespace Limit

variable {accept : List (Option Record) → Bool} {c : Cell}

/-- `Limit` on a whole stream, with a downstream that wants nothing behind the end of its stream. -/
theorem feed_eq (hend : ∀ items, accept (items ++ [none]) = false) (n : Nat) (records : List Record)
    (d : Prog.Downstream Record) (hactive : d.active = true) :
    ∃ r, feed accept consume (streamOf records) { currLimit := n } c d =
      .ok (r, c, d.sendAll accept (streamOf (records.take n))) := by
  have hlast : ∀ {d : Prog.Downstream Record}, d.active = true →
      (d.send accept none).active = false := by
    intro d hd
    rw [Prog.Downstream.send_of_active hd]
    exact hend d.out
  induction records generalizing n d with
  | nil =>
      rw [List.take_nil]
      exact ⟨_, Prog.feed_last rfl⟩
  | cons record records ih =>
      rw [Prog.streamOf_cons]
      cases n with
      | zero =>
          have hrun : Prog.run accept (consume { currLimit := (0 : Nat) } (some record)) c d =
              .ok (({ currLimit := 0 }, false), c, d.send accept none) := by
            simp only [consume, Int.natCast_zero, if_true, Prog.send_bind, Prog.run_emit,
              Prog.pure_def, Prog.run_done, hlast hactive]
          exact ⟨_, Prog.feed_stop hrun⟩
      | succ n =>
          rw [List.take_succ_cons, Prog.streamOf_cons, Prog.Downstream.sendAll]
          have hne : ¬ ((n + 1 : Nat) : Int) = 0 := by omega
          have hsub : ((n + 1 : Nat) : Int) - 1 = n := by omega
          cases hcont : (d.send accept (some record)).active with
          | false =>
              have hrun : Prog.run accept (consume { currLimit := (n + 1 : Nat) } (some record)) c d =
                  .ok (({ currLimit := n }, false), c, d.send accept (some record)) := by
                simp only [consume, hne, if_false, hsub, Prog.send_bind, Prog.run_emit, hcont]
                rfl
              rw [Prog.Downstream.sendAll_of_not_active hcont]
              exact ⟨_, Prog.feed_stop hrun⟩
          | true =>
              by_cases hn : n = 0
              · -- the last record that it lets through
                subst hn
                have hrun : Prog.run accept (consume { currLimit := (0 + 1 : Nat) } (some record)) c d =
                    .ok (({ currLimit := 0 }, false), c,
                      (d.send accept (some record)).send accept none) := by
                  simp only [consume, hne, if_false, hsub, Int.natCast_zero, if_true, Prog.send_bind,
                    Prog.run_emit, hcont, Bool.not_true, Bool.false_eq_true, Prog.pure_def,
                    Prog.run_done, hlast hcont]
                rw [List.take_zero]
                exact ⟨_, Prog.feed_stop hrun⟩
              · have hn : ¬ (n : Int) = 0 := by omega
                have hrun : Prog.run accept (consume { currLimit := (n + 1 : Nat) } (some record)) c d =
                    .ok (({ currLimit := n }, true), c, d.send accept (some record)) := by
                  simp only [consume, hne, if_false, hsub, Prog.send_bind, Prog.run_emit, hcont, hn,
                    Prog.isActive_bind, Bool.not_true, Bool.false_eq_true, Prog.run_active,
                    Prog.pure_def, Prog.run_done]
                obtain ⟨r, hr⟩ := ih n (d.send accept (some record)) hcont
                exact ⟨r, (Prog.feed_go hrun).trans hr⟩

end Limit

/-! ### TopK for Sort and Limit -/

/-- `Sort` with `Limit` as its downstream, on a whole stream. -/
def sortThenLimit [Algorithms] (accept : List (Option Record) → Bool) (sortKey : List Scalar)
    (desc : Bool) (limit : Nat) (keyed : List Keyed) (c : Cell) (d : Prog.Downstream Record) :
    Except Fault ((Limit × Bool) × Cell × Prog.Downstream Record) :=
  feedThrough accept SortOp.consume Limit.consume (streamOf (keyed.map Prod.fst)) (SortOp.build sortKey desc) .unused
    { currLimit := limit } c d

section SortThenLimit

variable {accept : List (Option Record) → Bool} {sortKey : List Scalar} {desc : Bool}
  {keyed : List Keyed} {c : Cell} {d : Prog.Downstream Record}

/-- The records of a sort, up to the limit. -/
theorem sortThenLimit_eq [Algorithms] (hend : ∀ items, accept (items ++ [none]) = false)
    (hkeyed : HaveKeys sortKey keyed) (limit : Nat) (hactive : d.active = true) :
    ∃ r, sortThenLimit accept sortKey desc limit keyed c d =
      .ok (r, c, d.sendAll accept
        (streamOf (((Algorithms.sort (SortOp.less desc) keyed).take limit).map Prod.fst))) := by
  obtain ⟨r, hsort⟩ := @SortOp.feed_eq _ (Prog.answers accept Limit.consume
    { currLimit := limit } c d) sortKey desc keyed .unused .fresh hkeyed rfl
  obtain ⟨r', hlimit⟩ := Limit.feed_eq hend limit
    ((Algorithms.sort (SortOp.less desc) keyed).map Prod.fst) d hactive
  refine ⟨r', (Prog.feedThrough_eq hsort).trans ?_⟩
  rw [Prog.streamOf, Prog.streamOf, List.map_take]
  exact hlimit

/-- `TopK` emits a result that a sort followed by a limit could emit: the first records of the whole
stream in some order of their keys. -/
def EmitsFirst [Algorithms] (accept : List (Option Record) → Bool) (sortKey : List Scalar)
    (desc : Bool) (k : Nat) (keyed : List Keyed) (c : Cell) : Prop :=
  ∃ (w : List Keyed) (r : TopK × Bool) (d : Prog.Downstream Record),
    w.Perm keyed ∧ w.Pairwise (KeyedBefore desc) ∧
    feed accept TopK.consume (streamOf (keyed.map Prod.fst)) (TopK.build sortKey desc k) c .fresh = .ok (r, c, d) ∧
    Prog.Sent accept (streamOf ((w.take k).map Prod.fst)) d ∧
    -- what does not depend on the order of equal keys
    (w.take k).length = min k keyed.length ∧ (w.take k).Subperm keyed ∧
    (w.take k).Pairwise (KeyedBefore desc) ∧
    (∀ p ∈ w.take k, ∀ q ∈ w.drop k, KeyedBefore desc p q) ∧
    -- a sort that leaves the records in this order, and a limit, send the same
    ∃ algorithms, @LawfulAlgorithms algorithms ∧
      @Algorithms.sort algorithms Keyed (SortOp.less desc) keyed = w ∧
      ((∀ items, accept (items ++ [none]) = false) → ∃ r',
        @sortThenLimit algorithms accept sortKey desc k keyed c .fresh = .ok (r', c, d))

/-- **TopK equals Sort then Limit.** -/
theorem topK_emitsFirst [Algorithms] [LawfulAlgorithms] (accept : List (Option Record) → Bool)
    (sortKey : List Scalar) (desc : Bool) (k : Nat) (hk : 1 ≤ k) (keyed : List Keyed)
    (hkeyed : HaveKeys sortKey keyed) (c : Cell) :
    EmitsFirst accept sortKey desc k keyed c := by
  obtain ⟨w, r, hperm, hordered, hfeed⟩ := @TopK.feed_eq _ accept sortKey desc keyed c .fresh _ k hk
    hkeyed rfl
  have hcomparable : ∀ p ∈ w, Comparable p.2 := fun p hp => hkeyed.comparable p (hperm.subset hp)
  have htake : (w.take k).Sublist w := List.take_sublist k w
  have hsplit := hordered
  rw [← List.take_append_drop k w] at hsplit
  refine ⟨w, r, _, hperm, hordered, hfeed, Prog.sent_sendAll accept _, ?_,
    htake.subperm.trans hperm.subperm, hordered.sublist htake,
    (List.pairwise_append.mp hsplit).2.2, ?_⟩
  · rw [List.length_take, hperm.length_eq]
  · have hchosen : @Algorithms.sort (Algorithms.choosing (SortOp.less desc) keyed w hperm) Keyed
        (SortOp.less desc) keyed = w := choosingSort_chosen (SortOp.less desc) keyed w
    refine ⟨.choosing (SortOp.less desc) keyed w hperm,
      Algorithms.choosing_lawful _ _ _ hperm ((inOrder_iff hcomparable).mpr hordered), hchosen,
      fun hend => ?_⟩
    obtain ⟨r', hr'⟩ := @sortThenLimit_eq accept sortKey desc keyed c .fresh
      (.choosing (SortOp.less desc) keyed w hperm) hend hkeyed k rfl
    rw [hchosen] at hr'
    exact ⟨r', hr'⟩

/-- Two records with one key and a null key, of which the two first are wanted. -/
theorem topK_emitsFirst_ties :
    @EmitsFirst (.choosing (fun (_ _ : Unit) => false) [] [] (.refl _)) (fun items => items.length < 2)
      [.identifier 0 1 .integer] true 2
      [(.vec [.integer 1, .boolean true], [.integer 1]), (.vec [.null, .boolean true], [.null]),
        (.vec [.integer 1, .boolean false], [.integer 1])] .unused :=
  @topK_emitsFirst (.choosing (fun (_ _ : Unit) => false) [] [] (.refl _))
    (Algorithms.choosing_lawful _ _ _ (.refl _) .nil) _ _ _ _ (by decide) _
    ⟨by decide, by simp [Comparable, Value.isNaN]⟩ _

end SortThenLimit

end Lsql.Phys
