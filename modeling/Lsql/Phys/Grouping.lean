import Lsql.Core.ValueHash
import Lsql.Exec.Context
import Lsql.Flow.Feed
import Lsql.Flow.Grouping
import Lsql.Phys.Algorithms
import Mathlib.Data.List.Induction

/-!
# Lsql.Phys.Grouping

`Group` on a whole stream (`back/exec/phys/ops/Group.h`).

The operator keeps the aggregators of every key in a hash map. What it has of the records so far is
their grouping (`Flow.groups`), each group with the aggregators that have been fed its records and no
others; one record changes one group. At the end it emits one record for each group.
-/

namespace Lsql.Phys

open Lsql.Exec Flow
open Flow.Prog (streamOf)

/-! ### Keys -/

section Keys

theorem equalKeys_symm (as bs : List Value) : equalKeys as bs = equalKeys bs as := by
  induction as generalizing bs with
  | nil => cases bs <;> rfl
  | cons a as ih =>
      cases bs with
      | nil => rfl
      | cons b bs => rw [equalKeys, equalKeys, Value.equal_symm, ih]

theorem equalKeys_trans {as bs cs : List Value} (hab : equalKeys as bs = true)
    (hbc : equalKeys bs cs = true) : equalKeys as cs = true := by
  induction as generalizing bs cs with
  | nil =>
      cases bs with
      | nil => exact hbc
      | cons b bs => cases hab
  | cons a as ih =>
      cases bs with
      | nil => cases hab
      | cons b bs =>
          cases cs with
          | nil => cases hbc
          | cons c cs =>
              simp only [equalKeys, Bool.and_eq_true] at hab hbc ⊢
              exact ⟨Value.equal_trans hab.1 hbc.1, ih hab.2 hbc.2⟩

/-- A key is equal to itself unless it holds a NaN. -/
theorem equalKeys_self {key : List Value} : equalKeys key key = true ↔ Comparable key := by
  induction key with
  | nil => simp [equalKeys, Comparable]
  | cons v vs ih =>
      rw [equalKeys, Bool.and_eq_true, ih, Value.equal_self]
      simp [Comparable]

/-- Equal keys have equal hashes. -/
theorem hashKeys_eq_of_equal [StdHash] {as bs : List Value} (h : equalKeys as bs = true) :
    hashKeys as = hashKeys bs := by
  have hlength : ∀ {as bs : List Value}, equalKeys as bs = true → as.length = bs.length := by
    intro as
    induction as with
    | nil =>
        intro bs h
        cases bs with
        | nil => rfl
        | cons b bs => cases h
    | cons a as ih =>
        intro bs h
        cases bs with
        | nil => cases h
        | cons b bs =>
            rw [equalKeys, Bool.and_eq_true] at h
            rw [List.length_cons, List.length_cons, ih h.2]
  have hmix : ∀ {as bs : List Value} (seed : BitVec 64), equalKeys as bs = true →
      hashKeys.mixAll seed as = hashKeys.mixAll seed bs := by
    intro as
    induction as with
    | nil =>
        intro bs seed h
        cases bs with
        | nil => rfl
        | cons b bs => cases h
    | cons a as ih =>
        intro bs seed h
        cases bs with
        | nil => cases h
        | cons b bs =>
            rw [equalKeys, Bool.and_eq_true] at h
            rw [hashKeys.mixAll, hashKeys.mixAll, Value.hash_eq_of_equal h.1, ih _ h.2]
  rw [hashKeys, hashKeys, hlength h, hmix _ h]

end Keys

namespace Group

/-! ### The hash map -/

/-- `groups_[key]` on a hash map: the entry with an equal key among those with the hash of the key. -/
def splitHashed [StdHash] (key : List Value) :
    List GroupEntry → List GroupEntry × GroupEntry × List GroupEntry
  | [] => ([], (key, []), [])
  | e :: es =>
    if hashKeys e.1 == hashKeys key && equalKeys e.1 key then ([], e, es)
    else
      let (before, found, after) := splitHashed key es
      (e :: before, found, after)

/-- The hash hides no equal key, whatever holds the strings. -/
theorem splitHashed_eq [StdHash] (key : List Value) (es : List GroupEntry) :
    splitHashed key es = split key es := by
  induction es with
  | nil => rfl
  | cons e es ih =>
      rw [splitHashed, split, ih]
      cases heq : equalKeys e.1 key with
      | true => simp [hashKeys_eq_of_equal heq]
      | false => simp

theorem split_found {key : List Value} {before after : List GroupEntry} {e : GroupEntry}
    (hbefore : ∀ e' ∈ before, equalKeys e'.1 key = false) (he : equalKeys e.1 key = true) :
    split key (before ++ e :: after) = (before, e, after) := by
  induction before with
  | nil => simp [split, he]
  | cons e' before ih =>
      have hrest := ih fun e'' he'' => hbefore e'' (List.mem_cons_of_mem _ he'')
      simp [split, hbefore e' List.mem_cons_self, hrest]

theorem split_new {key : List Value} {es : List GroupEntry}
    (h : ∀ e ∈ es, equalKeys e.1 key = false) : split key es = (es, (key, []), []) := by
  induction es with
  | nil => rfl
  | cons e es ih =>
      have hrest := ih fun e' he' => h e' (List.mem_cons_of_mem _ he')
      simp [split, h e List.mem_cons_self, hrest]

/-! ### One group -/

section Aggregators

variable [Platform] (aggregates : List (Option Aggregate)) (groupKey : List Scalar)
  (ctx : ScalarContext)

/-- One record for the aggregators of its group: the context is reset, the key and then the arguments
are evaluated in it. -/
def feedGroup (aggregators : List (Option Aggregator)) (record : Record) :
    Except Fault (List (Option Aggregator)) := do
  let (_, ctx) ← Scalar.evalAll record groupKey ctx.reset
  let (aggregators, _) ← feedAll record aggregators ctx
  pure aggregators

/-- The aggregators of a group that has had the given records and no others. -/
def aggregatorsOver (records : List Record) : Except Fault (List (Option Aggregator)) :=
  records.foldlM (feedGroup groupKey ctx) (aggregates.map (Option.map Aggregate.aggregator))

/-- The record of a group: the aggregates over its records, then the key. -/
def rowOver (g : List Value × List Keyed) : Except Fault Record := do
  let aggregators ← aggregatorsOver aggregates groupKey ctx (g.2.map Prod.fst)
  result (g.1, aggregators)

variable {aggregates groupKey ctx}

theorem aggregatorsOver_concat (records : List Record) (record : Record) :
    aggregatorsOver aggregates groupKey ctx (records ++ [record]) = (do
      let aggregators ← aggregatorsOver aggregates groupKey ctx records
      feedGroup groupKey ctx aggregators record) := by
  simp only [aggregatorsOver, List.foldlM_append, List.foldlM_cons, List.foldlM_nil, bind_pure]

/-- Aggregates that can be computed over records can be computed over the first of them. -/
theorem aggregatorsOver_prefix {records front : List Record} (hpre : front <+: records)
    {as : List (Option Aggregator)}
    (h : aggregatorsOver aggregates groupKey ctx records = .ok as) :
    ∃ as', aggregatorsOver aggregates groupKey ctx front = .ok as' := by
  obtain ⟨rest, rfl⟩ := hpre
  rw [aggregatorsOver, List.foldlM_append] at h
  obtain ⟨as', has', -⟩ := bind_eq_ok.mp h
  exact ⟨as', has'⟩

theorem feedAll_length {record : Record} {as as' : List (Option Aggregator)}
    {ctx ctx' : ScalarContext} (h : feedAll record as ctx = .ok (as', ctx')) :
    as'.length = as.length ∧ ctx'.length = ctx.length := by
  induction as generalizing ctx as' with
  | nil =>
      cases h
      exact ⟨rfl, rfl⟩
  | cons a as ih =>
      cases a with
      | none =>
          obtain ⟨⟨as₁, ctx₁⟩, has, hres⟩ := bind_eq_ok.mp h
          cases hres
          exact ⟨congrArg Nat.succ (ih has).1, (ih has).2⟩
      | some a =>
          obtain ⟨⟨a₁, ctx₁⟩, ha, hrest⟩ := bind_eq_ok.mp h
          obtain ⟨⟨as₁, ctx₂⟩, has, hres⟩ := bind_eq_ok.mp hrest
          cases hres
          exact ⟨congrArg Nat.succ (ih has).1, (ih has).2.trans (Aggregator.feed_length ha)⟩

theorem aggregatorsOver_length {records : List Record} {as : List (Option Aggregator)}
    (h : aggregatorsOver aggregates groupKey ctx records = .ok as) :
    as.length = aggregates.length := by
  induction records using List.reverseRecOn generalizing as with
  | nil =>
      cases h
      exact List.length_map _
  | append_singleton records record ih =>
      rw [aggregatorsOver_concat] at h
      obtain ⟨as₁, has₁, hfeed⟩ := bind_eq_ok.mp h
      obtain ⟨⟨key, ctx₁⟩, -, hrest⟩ := bind_eq_ok.mp hfeed
      obtain ⟨⟨as₂, ctx₂⟩, hall, hres⟩ := bind_eq_ok.mp hrest
      cases hres
      exact (feedAll_length hall).1.trans (ih has₁)

/-! ### The records so far -/

/-- The groups of records by their keys. -/
def groupsOf (keyed : List Keyed) : List (List Value × List Keyed) :=
  Flow.groups equalKeys Prod.snd keyed

variable (aggregates groupKey ctx) in
/-- An entry of the map and the group that it stands for. -/
def IsEntry (g : List Value × List Keyed) (e : GroupEntry) : Prop :=
  e.1 = g.1 ∧ aggregatorsOver aggregates groupKey ctx (g.2.map Prod.fst) = .ok e.2

variable (aggregates groupKey ctx) in
/-- What the operator holds of the records that it has seen. -/
structure Holds (seen : List Keyed) (op : Group) : Prop where
  aggregates_eq : op.aggregates = aggregates
  groupKey_eq : op.groupKey = groupKey
  slots : op.scalarContext.length = ctx.length
  entries : List.Forall₂ (IsEntry aggregates groupKey ctx) (groupsOf seen) op.groups

omit [Platform] in
theorem start_eq {self : Group} {as : List (Option Aggregator)}
    (h : as.length = self.aggregates.length) : self.start as = as := by
  unfold start
  split
  next hempty =>
    rw [List.isEmpty_iff] at hempty
    rw [hempty, List.length_nil] at h
    rw [hempty, List.length_eq_zero_iff.mp h.symm, List.map_nil]
  next => rfl

omit [Platform] in
theorem start_nil (self : Group) :
    self.start [] = self.aggregates.map (Option.map Aggregate.aggregator) := rfl

omit [Platform] in
/-- A list that matches two lists, one after the other. -/
theorem forall₂_split {α β : Type} {R : α → β → Prop} {as as' : List α} {bs : List β}
    (h : List.Forall₂ R (as ++ as') bs) :
    ∃ front rest, bs = front ++ rest ∧ List.Forall₂ R as front ∧ List.Forall₂ R as' rest :=
  ⟨bs.take as.length, bs.drop as.length, (List.take_append_drop _ _).symm,
    (List.forall₂_take_append _ _ _ h.flip).flip, (List.forall₂_drop_append _ _ _ h.flip).flip⟩

/-- **One record changes one group.** -/
theorem Holds.feed {seen : List Keyed} {self : Group} {p : Keyed} {ctx₁ : ScalarContext}
    (h : Holds aggregates groupKey ctx seen self)
    (hkey : Scalar.evalAll p.1 groupKey ctx.reset = .ok (p.2, ctx₁))
    (hfed : ∀ g ∈ groupsOf (seen ++ [p]), ∃ as,
      aggregatorsOver aggregates groupKey ctx (g.2.map Prod.fst) = .ok as) :
    ∃ self', self.feed p.1 = .ok self' ∧ Holds aggregates groupKey ctx (seen ++ [p]) self' := by
  have hgetKey : self.getKey p.1 = .ok (p.2, ctx₁) := by
    rw [getKey, h.groupKey_eq, ScalarContext.reset_congr h.slots, hkey]
  have hslots : ctx₁.length = ctx.length := by
    have hlength := Scalar.evalAll_length hkey
    rwa [ScalarContext.reset_eq, List.length_replicate] at hlength
  -- what feeding one group makes of the whole call
  have hcall : ∀ {before after : List GroupEntry} {found : GroupEntry}
      {as : List (Option Aggregator)} {rows : List Record},
      split p.2 self.groups = (before, found, after) →
      aggregatorsOver aggregates groupKey ctx rows = .ok (self.start found.2) →
      aggregatorsOver aggregates groupKey ctx (rows ++ [p.1]) = .ok as →
      ∃ self', self.feed p.1 = .ok self' ∧ self'.aggregates = aggregates ∧
        self'.groupKey = groupKey ∧ self'.scalarContext.length = ctx.length ∧
        self'.groups = before ++ (found.1, as) :: after := by
    intro before after found as rows hsplit hrows hmore
    rw [aggregatorsOver_concat, hrows, ok_bind, feedGroup, hkey, ok_bind] at hmore
    obtain ⟨⟨as', ctx₂⟩, hfeedAll, hres⟩ := bind_eq_ok.mp hmore
    cases hres
    refine ⟨{ self with scalarContext := ctx₂, groups := before ++ (found.1, as) :: after }, ?_,
      h.aggregates_eq, h.groupKey_eq, (feedAll_length hfeedAll).2.trans hslots, rfl⟩
    rw [Group.feed, hgetKey, ok_bind]
    simp only [hsplit, hfeedAll, ok_bind]
    rfl
  have hconcat : groupsOf (seen ++ [p]) = joinGroup equalKeys Prod.snd p (groupsOf seen) :=
    Flow.groups_concat seen p
  have hentries := h.entries
  rcases joinGroup_cases equalKeys Prod.snd p (groupsOf seen) with
    ⟨before, g, after, hgs, hbefore, hg, hjoin⟩ | ⟨hnew, hjoin⟩
  · rw [hjoin] at hconcat
    rw [hgs] at hentries
    obtain ⟨es, es', hgroups, hes, hes'⟩ := forall₂_split hentries
    obtain ⟨e, after', he, hafter, rfl⟩ := List.forall₂_cons_left_iff.mp hes'
    have hsplit : split p.2 self.groups = (es, e, after') := by
      rw [hgroups]
      refine split_found (fun e' he' => ?_) (he.1 ▸ hg)
      obtain ⟨g', hg', hentry⟩ := forall₂_mem_right hes he'
      rw [hentry.1]
      exact hbefore g' hg'
    have hstart : self.start e.2 = e.2 :=
      start_eq ((aggregatorsOver_length he.2).trans (congrArg _ h.aggregates_eq.symm))
    obtain ⟨as, has⟩ := hfed (g.1, g.2 ++ [p]) (by rw [hconcat]; simp)
    rw [List.map_append] at has
    obtain ⟨self', hfeed, haggs, hkeys, hctx, hgroups'⟩ := hcall hsplit (hstart.symm ▸ he.2) has
    refine ⟨self', hfeed, haggs, hkeys, hctx, ?_⟩
    rw [hconcat, hgroups']
    refine List.rel_append hes (.cons ⟨he.1, ?_⟩ hafter)
    rw [List.map_append]
    exact has
  · rw [hjoin] at hconcat
    have hsplit : split p.2 self.groups = (self.groups, (p.2, []), []) := by
      refine split_new fun e he => ?_
      obtain ⟨g, hg, hentry⟩ := forall₂_mem_right hentries he
      rw [hentry.1]
      exact hnew g hg
    obtain ⟨as, has⟩ := hfed (p.2, [p]) (by rw [hconcat]; simp)
    have hstart : aggregatorsOver aggregates groupKey ctx [] = .ok (self.start []) := by
      rw [start_nil, h.aggregates_eq]
      rfl
    obtain ⟨self', hfeed, haggs, hkeys, hctx, hgroups'⟩ := hcall hsplit hstart has
    refine ⟨self', hfeed, haggs, hkeys, hctx, ?_⟩
    rw [hconcat, hgroups']
    exact List.rel_append hentries (.cons ⟨rfl, has⟩ .nil)

/-! ### The whole stream -/

section Stream

variable [Algorithms] {accept : List (Option Record) → Bool} {c : Cell}
  {d : Prog.Downstream Record}

omit [Algorithms] in
/-- The loop over the groups, when every record can be computed. -/
theorem emitAll_eq {es : List GroupEntry} {rows : List Record}
    (h : List.Forall₂ (fun e row => result e = .ok row) es rows) :
    emitAll es = Prog.sendAll (rows.map some) := by
  induction h with
  | nil => rfl
  | cons he _ ih =>
      rw [emitAll, he, ih, List.map_cons, Prog.sendAll]
      show Prog.emit _ _ = Prog.emit _ _
      congr
      funext cont
      cases cont <;> rfl

theorem run_record {self self' : Group} {record : Record} (h : self.feed record = .ok self')
    (hactive : d.active = true) :
    Prog.run accept (self.consume (some record)) c d = .ok ((self', true), c, d) := by
  simp only [consume, h, Prog.lift_ok, Prog.done_bind, Prog.isActive_bind, Prog.run_active, hactive]
  rfl

theorem run_end (accept : List (Option Record) → Bool) {self : Group} {rows : List Record}
    (h : List.Forall₂ (fun e row => result e = .ok row) (Algorithms.mapOrder self.groups) rows)
    (c : Cell) (d : Prog.Downstream Record) :
    ∃ r, Prog.run accept (self.consume none) c d =
      .ok (r, c, d.sendAll accept (streamOf rows)) := by
  rw [consume, emitAll_eq h]
  exact Prog.run_sendAll_end accept _ c d ({ self with groups := [] }, false)
    fun cont => ({ self with groups := [] }, cont)

end Stream

end Aggregators

/-- A newly built operator. -/
def build (aggregates : List (Option Aggregate)) (groupKey : List Scalar) (ctx : ScalarContext) :
    Group :=
  { aggregates, groupKey, scalarContext := ctx, groups := [] }

/-- Records with the values of the group key. -/
def HaveGroupKeys (groupKey : List Scalar) (ctx : ScalarContext) (keyed : List Keyed) : Prop :=
  ∀ p ∈ keyed, ∃ ctx', Scalar.evalAll p.1 groupKey ctx.reset = .ok (p.2, ctx')

/-- `Group` emits a record for each distinct key, in some order, and then ends the stream. -/
def EmitsGroups [Platform] [Algorithms] (accept : List (Option Record) → Bool)
    (aggregates : List (Option Aggregate)) (groupKey : List Scalar) (ctx : ScalarContext)
    (keyed : List Keyed) (c : Cell) : Prop :=
  ∃ (gs : List (List Value × List Keyed)) (rows : List Record) (r : Group × Bool)
      (d : Prog.Downstream Record),
    IsGrouping equalKeys Prod.snd keyed gs ∧
    List.Forall₂ (fun g row => rowOver aggregates groupKey ctx g = .ok row) gs rows ∧
    Prog.feed accept consume (streamOf (keyed.map Prod.fst)) (build aggregates groupKey ctx) c .fresh = .ok (r, c, d) ∧
    Prog.Sent accept (streamOf rows) d ∧
    -- a key without a NaN has one group, which holds the records with that key in input order
    (∀ p ∈ keyed, Comparable p.2 → ∃! g, g ∈ gs ∧ equalKeys g.1 p.2 = true) ∧
    (∀ g ∈ gs, Comparable g.1 → g.2 = keyed.filter fun p => equalKeys g.1 p.2) ∧
    -- a key with a NaN is equal to no key, and every record with one is a group
    (∀ g ∈ gs, ¬ Comparable g.1 → ∃ p, g.2 = [p] ∧ p.2 = g.1)

/-- Records whose keys are one string in its two representations, and null twice. -/
def someKeys : List Keyed :=
  [(.vec [.string [97], .integer 1], [.string [97]]), (.vec [.null, .integer 2], [.null]),
    (.vec [.pinned ⟨[97], [10]⟩, .integer 3], [.pinned ⟨[97], [10]⟩]),
    (.vec [.null, .integer 4], [.null])]

theorem groupsOf_someKeys : groupsOf someKeys =
    [([.string [97]], [(.vec [.string [97], .integer 1], [.string [97]]),
        (.vec [.pinned ⟨[97], [10]⟩, .integer 3], [.pinned ⟨[97], [10]⟩])]),
      ([.null], [(.vec [.null, .integer 2], [.null]), (.vec [.null, .integer 4], [.null])])] := rfl

end Group

end Lsql.Phys
