import Lsql.Core.ValueHash
import Lsql.Flow.Feed
import Lsql.Phys.Ops
import Mathlib.Data.List.ReduceOption

/-!
# Lsql.Phys.SemiJoin

A semi-join and a filter on the mark of a mark join
(`back/exec/phys/ops/HashSemiJoin.h`, `back/exec/phys/ops/HashMarkJoin.h`).

The build halves collect the same values. The probe halves see the same records, so the semi-join and
the mark join with a filter behind it can be followed record by record: they send the same records to
their downstream, one of them with a mark. They part where nothing was collected: the semi-join then
ends its output without a look at the key of a record, and the mark join still evaluates it.
-/

namespace Lsql.Phys

open Lsql.Exec Flow
open Flow.Prog (feed feedThrough feedMapped stateless streamOf)

/-! ### The set -/

/-- `values.contains(v)` on a hash set: an equal value among those with its hash. -/
def containsHashed [StdHash] (values : List Value) (v : Value) : Bool :=
  values.any fun w => v.hash == w.hash && v.equal w

/-- The hash hides no equal value. -/
theorem containsHashed_eq [StdHash] (values : List Value) (v : Value) :
    containsHashed values v = containsValue values v := by
  have hsame : (fun w : Value => v.hash == w.hash && v.equal w) = v.equal := by
    funext w
    cases heq : v.equal w with
    | true => simp [Value.hash_eq_of_equal heq]
    | false => simp
  rw [containsHashed, hsame]
  rfl

/-- The set holds what was collected: an equal value for each, and no others. -/
structure Holds (seen : List Record) (values : List Value) : Prop where
  nil_iff : values = [] ↔ seen = []
  contains_iff : ∀ v, containsValue values v = true ↔
    ∃ m ∈ seen, ∃ w, m.get 0 = .ok w ∧ v.equal w = true

theorem holds_nil : Holds [] [] :=
  ⟨⟨fun _ => rfl, fun _ => rfl⟩, fun v => by simp [containsValue]⟩

theorem containsValue_append (values : List Value) (v w : Value) :
    containsValue (values ++ [w]) v = (containsValue values v || v.equal w) := by
  simp [containsValue, List.any_append]

/-- Inserting a value, seen from another value. -/
theorem containsValue_insertValue (values : List Value) (v w : Value) :
    containsValue (insertValue values w) v = (containsValue values v || v.equal w) := by
  unfold insertValue
  split
  next hin =>
    -- an equal value is already there
    obtain ⟨u, hu, hwu⟩ := List.any_eq_true.mp hin
    cases hv : v.equal w with
    | false => rw [Bool.or_false]
    | true =>
        rw [Bool.or_true]
        exact List.any_eq_true.mpr ⟨u, hu, Value.equal_trans hv hwu⟩
  next hin => exact containsValue_append values v w

theorem insertValue_ne_nil (values : List Value) (w : Value) : insertValue values w ≠ [] := by
  unfold insertValue
  split
  next hin =>
    intro hnil
    rw [hnil] at hin
    cases hin
  next hin => simp

theorem Holds.insert {seen : List Record} {values : List Value} (h : Holds seen values)
    {m : Record} {w : Value} (hw : m.get 0 = .ok w) :
    Holds (seen ++ [m]) (insertValue values w) := by
  refine ⟨⟨fun hnil => absurd hnil (insertValue_ne_nil values w), fun hnil => by simp at hnil⟩, ?_⟩
  intro v
  rw [containsValue_insertValue, Bool.or_eq_true, h.contains_iff v]
  constructor
  · intro hv
    obtain ⟨n, hn, hnv⟩ | hv := hv
    · exact ⟨n, List.mem_append_left _ hn, hnv⟩
    · exact ⟨m, List.mem_append_right _ (List.mem_singleton_self m), w, hw, hv⟩
  · intro hv
    obtain ⟨n, hn, u, hu, hv⟩ := hv
    rcases List.mem_append.mp hn with hn | hn
    · exact .inl ⟨n, hn, u, hu, hv⟩
    · cases List.mem_singleton.mp hn
      cases hw.symm.trans hu
      exact .inr hv

/-! ### Build -/

/-- What both build halves collect. -/
def collectValues : List Value → List Record → Except Fault (List Value)
  | values, [] => .ok values
  | values, m :: ms => do
    let w ← m.get 0
    collectValues (insertValue values w) ms

theorem collectValues_holds {seen ms : List Record} {values values' : List Value}
    (h : Holds seen values) (hcollect : collectValues values ms = .ok values') :
    Holds (seen ++ ms) values' := by
  induction ms generalizing seen values with
  | nil =>
      cases hcollect
      rw [List.append_nil]
      exact h
  | cons m ms ih =>
      obtain ⟨w, hw, hcollect⟩ := bind_eq_ok.mp hcollect
      rw [List.append_cons]
      exact ih (h.insert hw) hcollect

/-- A build half, with its kind of cell. -/
theorem feed_build {accept : List (Option Record) → Bool} {consume : Option Record → Body Bool}
    {d : Prog.Downstream Record} (cell : List Value → Cell)
    (hrecord : ∀ m values, Prog.run accept (consume (some m)) (cell values) d =
      (m.get 0).map fun w => (true, cell (insertValue values w), d))
    (hend : ∀ values, Prog.run accept (consume none) (cell values) d = .ok (false, cell values, d))
    (ms : List Record) (values : List Value) :
    feed accept (stateless consume) (streamOf ms) () (cell values) d =
      (collectValues values ms).map fun values' => (((), false), cell values', d) := by
  induction ms generalizing values with
  | nil => exact Prog.feed_last (Prog.run_stateless (hend values))
  | cons m ms ih =>
      have hm := hrecord m values
      rw [Prog.streamOf_cons, collectValues]
      cases hw : m.get 0 with
      | error e =>
          rw [hw] at hm
          refine Prog.feed_fail ?_
          rw [stateless, Prog.run_bind, hm]
          rfl
      | ok w =>
          rw [hw] at hm
          rw [Prog.feed_go (Prog.run_stateless hm)]
          exact ih (insertValue values w)

theorem HashSemiJoinBuild.feed_eq (accept : List (Option Record) → Bool) (ms : List Record)
    (d : Prog.Downstream Record) :
    feed accept (stateless consume) (streamOf ms) () (.semiJoin []) d =
      (collectValues [] ms).map fun values => (((), false), .semiJoin values, d) := by
  refine feed_build Cell.semiJoin (fun m values => ?_) (fun values => rfl) ms []
  cases hw : m.get 0 with
  | error e =>
      simp only [consume, Prog.read_bind, Prog.run_load, Cell.values, Prog.lift_ok, Prog.done_bind, hw]
      rfl
  | ok w =>
      simp only [consume, Prog.read_bind, Prog.run_load, Cell.values, Prog.lift_ok, Prog.done_bind, hw]
      rfl

theorem HashMarkJoinBuild.feed_eq (accept : List (Option Record) → Bool) (ms : List Record)
    (d : Prog.Downstream Record) :
    feed accept (stateless consume) (streamOf ms) () (.markJoin []) d =
      (collectValues [] ms).map fun values => (((), false), .markJoin values, d) := by
  refine feed_build Cell.markJoin (fun m values => ?_) (fun values => rfl) ms []
  cases hw : m.get 0 with
  | error e =>
      simp only [consume, Prog.read_bind, Prog.run_load, Cell.values, Prog.lift_ok, Prog.done_bind, hw]
      rfl
  | ok w =>
      simp only [consume, Prog.read_bind, Prog.run_load, Cell.values, Prog.lift_ok, Prog.done_bind, hw]
      rfl

/-! ### Probe -/

/-- A record without its mark. -/
def unmark : Record → Record
  | .mark _ _ record => record
  | record => record

/-- The records among what a downstream has been sent. -/
def sentRecords (d : Prog.Downstream Record) : List Record := d.out.reduceOption

/-- The record as a mark join hands it on, if its key can be evaluated. -/
def markOf (key : Scalar) (slot : Nat) (values : List Value) :
    Option Record → Except Fault (Option Record)
  | none => .ok none
  | some record => (evalKey key record).map fun v =>
    some (.mark (.boolean (containsValue values v)) slot record)

/-- `if (!emit(item)) return false; return true;` -/
theorem run_send (accept : List (Option Record) → Bool) (item : Option Record) (c : Cell)
    (d : Prog.Downstream Record) :
    Prog.run accept (do
      let cont ← Prog.send item
      if !cont then pure false else pure true : Body Bool) c d =
      .ok ((d.send accept item).active, c, d.send accept item) := by
  show Prog.run accept (if !(d.send accept item).active then Prog.done false else Prog.done true) c
    (d.send accept item) = _
  cases (d.send accept item).active <;> rfl

theorem HashMarkJoinProbe.run_eq (key : Scalar) (slot : Nat) (values : List Value)
    (accept : List (Option Record) → Bool) (item : Option Record) (d : Prog.Downstream Record) :
    Prog.run accept (stateless (consume key slot) () item) (.markJoin values) d =
      (markOf key slot values item).map fun item' =>
        (((), (d.send accept item').active), .markJoin values, d.send accept item') := by
  cases item with
  | none => rfl
  | some record =>
      rw [markOf]
      cases hkey : evalKey key record with
      | error e =>
          simp only [stateless, consume, hkey]
          rfl
      | ok v =>
          refine Prog.run_stateless ?_
          simp only [consume, hkey]
          exact run_send accept _ _ d

/-- A semi-join against a set that is not empty. -/
theorem HashSemiJoinProbe.run_ok {key : Scalar} {values : List Value} (hvalues : values ≠ [])
    {record : Record} {v : Value} (hkey : evalKey key record = .ok v)
    (accept : List (Option Record) → Bool) (d : Prog.Downstream Record) :
    Prog.run accept (consume key (some record)) (.semiJoin values) d =
      if containsValue values v then
        .ok ((d.send accept (some record)).active, .semiJoin values, d.send accept (some record))
      else .ok (d.active, .semiJoin values, d) := by
  have hempty : values.isEmpty = false := by
    rw [List.isEmpty_eq_false_iff]
    exact hvalues
  show Prog.run accept (if values.isEmpty then Prog.send none else _) _ d = _
  rw [hempty, if_neg Bool.false_ne_true, hkey]
  show Prog.run accept (if containsValue values v then _ else _) _ d = _
  split
  · exact run_send accept _ _ d
  · show Prog.run accept (if !d.active then Prog.done false else Prog.done true) _ d = _
    cases d.active <;> rfl

theorem HashSemiJoinProbe.run_error {key : Scalar} {values : List Value} (hvalues : values ≠ [])
    {accept : List (Option Record) → Bool} {record : Record} {e : Fault}
    (hkey : evalKey key record = .error e) {d : Prog.Downstream Record} :
    Prog.run accept (consume key (some record)) (.semiJoin values) d = .error e := by
  have hempty : values.isEmpty = false := by
    rw [List.isEmpty_eq_false_iff]
    exact hvalues
  show Prog.run accept (if values.isEmpty then Prog.send none else _) _ d = _
  rw [hempty, if_neg Bool.false_ne_true, hkey]
  rfl

/-! ### A filter on the mark -/

/-- A condition that is the mark, whatever record it is put on. -/
def IsMark (condition : Scalar) (slot : Nat) : Prop :=
  ∀ (b : Bool) (record : Record) (ctx : ScalarContext),
    condition.eval (.mark (.boolean b) slot record) ctx = .ok (.boolean b, ctx)

theorem Filter.run_marked (op : Filter) {slot : Nat} (hmark : IsMark op.condition slot)
    (accept : List (Option Record) → Bool) (b : Bool) (record : Record) (c : Cell)
    (d : Prog.Downstream Record) :
    Prog.run accept (op.consume (some (.mark (.boolean b) slot record))) c d =
      if b then
        .ok (({ op with scalarContext := op.scalarContext.reset },
          (d.send accept (some (.mark (.boolean b) slot record))).active), c,
          d.send accept (some (.mark (.boolean b) slot record)))
      else .ok (({ op with scalarContext := op.scalarContext.reset }, d.active), c, d) := by
  have htest : op.test (.mark (.boolean b) slot record) = .ok (b, op.scalarContext.reset) := by
    rw [test, hmark]
    rfl
  rw [consume, htest]
  cases b <;> rfl

/-- Two downstreams that have been sent the same records, one of them with marks. -/
structure SameSent (d d' : Prog.Downstream Record) : Prop where
  active : d'.active = d.active
  out : d.out = d'.out.map (Option.map unmark)

/-- Two runs that end alike: with the same records sent, or with the same failure. -/
inductive SameItems {α β : Type} :
    Except Fault (α × Cell × Prog.Downstream Record) →
    Except Fault (β × Cell × Prog.Downstream Record) → Prop
  | ok {a : α} {b : β} {c c' : Cell} {d d' : Prog.Downstream Record} : SameSent d d' →
      SameItems (.ok (a, c, d)) (.ok (b, c', d'))
  | error (e : Fault) : SameItems (.error e) (.error e)

section Probe

variable {condition : Scalar} {slot : Nat}
  {values : List Value} {d d' : Prog.Downstream Record}

/-- The answer of a downstream to marked records. -/
def onUnmarked (accept : List (Option Record) → Bool) (items : List (Option Record)) : Bool :=
  accept (items.map (Option.map unmark))

theorem SameSent.fresh : SameSent .fresh .fresh := ⟨rfl, rfl⟩

theorem SameSent.send (h : SameSent d d') (accept : List (Option Record) → Bool)
    (item item' : Option Record) (hitem : item = item'.map unmark) :
    SameSent (d.send accept item) (d'.send (onUnmarked accept) item') := by
  cases hact : d.active with
  | false =>
      rw [Prog.Downstream.send_of_not_active hact,
        Prog.Downstream.send_of_not_active (h.active.trans hact)]
      exact h
  | true =>
      rw [Prog.Downstream.send_of_active hact,
        Prog.Downstream.send_of_active (h.active.trans hact)]
      have hout : d.out ++ [item] = (d'.out ++ [item']).map (Option.map unmark) := by
        rw [List.map_append, ← h.out, hitem]
        rfl
      exact ⟨congrArg accept hout.symm, hout⟩

/-- **Against a set that is not empty** the two ways go together, record by record. -/
theorem sameItems_probe (accept : List (Option Record) → Bool) (key : Scalar) (hvalues : values ≠ [])
    (hmark : IsMark condition slot) (sources : List Record) (ctx : ScalarContext) (h : SameSent d d')
    (hactive : d.active = true) :
    SameItems
      (feed accept (stateless (HashSemiJoinProbe.consume key)) (streamOf sources) ()
        (.semiJoin values) d)
      (feedMapped (onUnmarked accept) (markOf key slot values) Filter.consume (streamOf sources)
        { condition, scalarContext := ctx } .unused d') := by
  induction sources generalizing ctx d d' with
  | nil =>
      have hsent := h.send accept none none rfl
      have hsemi : Prog.run accept (stateless (HashSemiJoinProbe.consume key) () none)
          (.semiJoin values) d = .ok (((), (d.send accept none).active), .semiJoin values,
            d.send accept none) := Prog.run_stateless rfl
      have hmarked : markOf key slot values none = .ok none := rfl
      have hfilter : Prog.run (onUnmarked accept)
          (Filter.consume { condition, scalarContext := ctx } none) .unused d' =
          .ok (({ condition, scalarContext := ctx }, (d'.send (onUnmarked accept) none).active),
            .unused, d'.send (onUnmarked accept) none) := rfl
      rw [streamOf, List.map_nil, List.nil_append, Prog.feed_last hsemi,
        Prog.feedMapped_last hmarked hfilter]
      exact .ok hsent
  | cons record sources ih =>
      rw [Prog.streamOf_cons]
      cases hkey : evalKey key record with
      | error e =>
          have hsemi : Prog.run accept (stateless (HashSemiJoinProbe.consume key) () (some record))
              (.semiJoin values) d = .error e := by
            rw [stateless, Prog.run_bind, HashSemiJoinProbe.run_error hvalues hkey]
            rfl
          have hmarked : markOf key slot values (some record) = .error e := by
            rw [markOf, hkey]
            rfl
          rw [Prog.feed_fail hsemi, Prog.feedMapped_fail hmarked]
          exact .error e
      | ok v =>
          have hsemi := HashSemiJoinProbe.run_ok hvalues hkey accept d
          have hmarked : markOf key slot values (some record) =
              .ok (some (.mark (.boolean (containsValue values v)) slot record)) := by
            rw [markOf, hkey]
            rfl
          have hfilter := Filter.run_marked { condition, scalarContext := ctx } hmark
            (onUnmarked accept) (containsValue values v) record .unused d'
          cases hin : containsValue values v with
          | false =>
              -- neither of them sends the record
              rw [hin, if_neg Bool.false_ne_true] at hsemi hfilter
              rw [hin] at hmarked
              rw [hactive] at hsemi
              rw [h.active, hactive] at hfilter
              rw [Prog.feed_go (Prog.run_stateless hsemi), Prog.feedMapped_go hmarked hfilter]
              exact ih _ h hactive
          | true =>
              rw [hin, if_pos rfl] at hsemi hfilter
              rw [hin] at hmarked
              have hsent := h.send accept (some record)
                (some (.mark (.boolean true) slot record)) rfl
              rw [hsent.active] at hfilter
              cases hact : (d.send accept (some record)).active with
              | true =>
                  rw [hact] at hsemi hfilter
                  rw [Prog.feed_go (Prog.run_stateless hsemi), Prog.feedMapped_go hmarked hfilter]
                  exact ih _ hsent hact
              | false =>
                  rw [hact] at hsemi hfilter
                  rw [Prog.feed_stop (Prog.run_stateless hsemi), Prog.feedMapped_stop hmarked hfilter]
                  exact .ok hsent

theorem sentRecords_send_none (accept : List (Option Record) → Bool) (d : Prog.Downstream Record) :
    sentRecords (d.send accept none) = sentRecords d := by
  cases hact : d.active with
  | false => rw [Prog.Downstream.send_of_not_active hact]
  | true =>
      rw [Prog.Downstream.send_of_active hact]
      simp [sentRecords, List.reduceOption_append]

/-- Against the empty set a semi-join ends its output, whatever the keys are. -/
theorem HashSemiJoinProbe.feed_empty (accept : List (Option Record) → Bool) (key : Scalar)
    (sources : List Record) (d : Prog.Downstream Record) :
    ∃ r d', feed accept (stateless (consume key)) (streamOf sources) () (.semiJoin []) d =
        .ok (r, .semiJoin [], d') ∧ sentRecords d' = sentRecords d := by
  induction sources generalizing d with
  | nil => exact ⟨_, _, Prog.feed_last (Prog.run_stateless rfl), sentRecords_send_none accept d⟩
  | cons record sources ih =>
      have hrun : Prog.run accept (stateless (consume key) () (some record)) (.semiJoin []) d =
          .ok (((), (d.send accept none).active), .semiJoin [], d.send accept none) :=
        Prog.run_stateless rfl
      rw [Prog.streamOf_cons]
      cases hact : (d.send accept none).active with
      | false =>
          rw [hact] at hrun
          exact ⟨_, _, Prog.feed_stop hrun, sentRecords_send_none accept d⟩
      | true =>
          rw [hact] at hrun
          obtain ⟨r, d', hfeed, hsent⟩ := ih (d.send accept none)
          exact ⟨r, d', (Prog.feed_go hrun).trans hfeed, hsent.trans (sentRecords_send_none accept d)⟩

/-- Against the empty set every mark is false, but every key is evaluated. -/
theorem feedMapped_empty (accept : List (Option Record) → Bool) (key : Scalar)
    (hmark : IsMark condition slot) (sources : List Record) (ctx : ScalarContext) (hactive : d.active = true) :
    (∃ r c d', feedMapped accept (markOf key slot []) Filter.consume (streamOf sources)
        { condition, scalarContext := ctx } .unused d = .ok (r, c, d') ∧
        sentRecords d' = sentRecords d) ∨
    ∃ record ∈ sources, ∃ e, evalKey key record = .error e ∧
      feedMapped accept (markOf key slot []) Filter.consume (streamOf sources)
        { condition, scalarContext := ctx } .unused d = .error e := by
  induction sources generalizing ctx with
  | nil =>
      have hmarked : markOf key slot [] none = .ok none := rfl
      have hfilter : Prog.run accept (Filter.consume { condition, scalarContext := ctx } none)
          .unused d = .ok (({ condition, scalarContext := ctx }, (d.send accept none).active),
            .unused, d.send accept none) := rfl
      exact .inl ⟨_, _, _, Prog.feedMapped_last hmarked hfilter, sentRecords_send_none accept d⟩
  | cons record sources ih =>
      rw [Prog.streamOf_cons]
      cases hkey : evalKey key record with
      | error e =>
          have hmarked : markOf key slot [] (some record) = .error e := by
            rw [markOf, hkey]
            rfl
          exact .inr ⟨record, List.mem_cons_self, e, hkey, Prog.feedMapped_fail hmarked⟩
      | ok v =>
          have hmarked : markOf key slot [] (some record) =
              .ok (some (.mark (.boolean false) slot record)) := by
            rw [markOf, hkey]
            rfl
          have hfilter := Filter.run_marked { condition, scalarContext := ctx } hmark
            accept false record .unused d
          rw [if_neg Bool.false_ne_true, hactive] at hfilter
          rw [Prog.feedMapped_go hmarked hfilter]
          obtain h | ⟨record', hmem, h⟩ := ih ctx.reset
          · exact .inl h
          · exact .inr ⟨record', List.mem_cons_of_mem _ hmem, h⟩

end Probe

/-! ### Both ways as a whole -/

/-- A run of a semi-join: the build half over the match side, then the probe half over the source. -/
def semiRun (accept : List (Option Record) → Bool) (key : Scalar) (matches' sources : List Record) :
    Except Fault ((Unit × Bool) × Cell × Prog.Downstream Record) := do
  let (_, c, _) ← feed accept (stateless HashSemiJoinBuild.consume) (streamOf matches') ()
    (.semiJoin []) .fresh
  feed accept (stateless (HashSemiJoinProbe.consume key)) (streamOf sources) () c .fresh

/-- A run of a mark join with a filter behind its probe half. -/
def markedRun (accept : List (Option Record) → Bool) (key : Scalar) (slot : Nat) (condition : Scalar)
    (ctx : ScalarContext) (matches' sources : List Record) :
    Except Fault ((Filter × Bool) × Cell × Prog.Downstream Record) := do
  let (_, c, _) ← feed (onUnmarked accept) (stateless HashMarkJoinBuild.consume)
    (streamOf matches') () (.markJoin []) .fresh
  feedThrough (onUnmarked accept) (stateless (HashMarkJoinProbe.consume key slot)) Filter.consume
    (streamOf sources) () c { condition, scalarContext := ctx } .unused .fresh

/-- Two runs that end alike, in what they send of records. -/
inductive SameRows {α β : Type} :
    Except Fault (α × Cell × Prog.Downstream Record) →
    Except Fault (β × Cell × Prog.Downstream Record) → Prop
  | ok {a : α} {b : β} {c c' : Cell} {d d' : Prog.Downstream Record} :
      sentRecords d = (sentRecords d').map unmark → SameRows (.ok (a, c, d)) (.ok (b, c', d'))
  | error (e : Fault) : SameRows (.error e) (.error e)

theorem SameItems.sameRows {α β : Type} {semi : Except Fault (α × Cell × Prog.Downstream Record)}
    {marked : Except Fault (β × Cell × Prog.Downstream Record)} (h : SameItems semi marked) :
    SameRows semi marked := by
  cases h with
  | error e => exact .error e
  | ok h =>
      refine .ok ?_
      rw [sentRecords, h.out, List.reduceOption_map]
      rfl

/-- **The two ways part in one case**: nothing was collected, and the mark join comes to a key that
cannot be evaluated, which the semi-join does not look at. -/
theorem semiRun_or (accept : List (Option Record) → Bool) (key : Scalar) {slot : Nat}
    {condition : Scalar} (hmark : IsMark condition slot) (ctx : ScalarContext)
    (matches' sources : List Record) :
    (SameRows (semiRun accept key matches' sources)
        (markedRun accept key slot condition ctx matches' sources) ∧
      (matches' ≠ [] → SameItems (semiRun accept key matches' sources)
        (markedRun accept key slot condition ctx matches' sources))) ∨
    matches' = [] ∧
      (∃ r c d, semiRun accept key matches' sources = .ok (r, c, d) ∧ sentRecords d = []) ∧
      ∃ record ∈ sources, ∃ e, evalKey key record = .error e ∧
        markedRun accept key slot condition ctx matches' sources = .error e := by
  rw [semiRun, markedRun, HashSemiJoinBuild.feed_eq, HashMarkJoinBuild.feed_eq]
  cases hcollect : collectValues [] matches' with
  | error e => exact .inl ⟨.error e, fun _ => .error e⟩
  | ok values =>
      have hholds : Holds matches' values := collectValues_holds holds_nil hcollect
      show (SameRows (feed _ _ _ _ _ _) (feedThrough _ _ _ _ _ _ _ _ _) ∧ (_ → SameItems (feed _ _ _ _ _ _)
        (feedThrough _ _ _ _ _ _ _ _ _))) ∨ matches' = [] ∧ (∃ r c d, feed _ _ _ _ _ _ = _ ∧ _) ∧
          ∃ record ∈ sources, ∃ e, _ ∧ feedThrough _ _ _ _ _ _ _ _ _ = _
      rw [Prog.feedThrough_map fun answer item d => HashMarkJoinProbe.run_eq key slot values answer item d]
      by_cases hvalues : values = []
      · obtain ⟨r, d, hsemi, hsent⟩ := HashSemiJoinProbe.feed_empty accept key sources .fresh
        subst hvalues
        obtain ⟨r', c', d', hmarked, hsent'⟩ | ⟨record, hmem, e, hkey, hmarked⟩ :=
          feedMapped_empty (onUnmarked accept) key hmark sources ctx (d := .fresh) rfl
        · refine .inl ⟨?_, fun hne => absurd (hholds.nil_iff.mp rfl) hne⟩
          rw [hsemi, hmarked]
          refine .ok ?_
          rw [hsent, hsent']
          rfl
        · exact .inr ⟨hholds.nil_iff.mp rfl, ⟨r, _, d, hsemi, hsent⟩, record, hmem, e, hkey, hmarked⟩
      · have hsame := sameItems_probe accept key hvalues hmark sources ctx
          (SameSent.fresh) rfl
        exact .inl ⟨hsame.sameRows, fun _ => hsame⟩

end Lsql.Phys
