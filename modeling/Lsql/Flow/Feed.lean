import Lsql.Flow.Prog

/-!
# Lsql.Flow.Feed

An operator that is called with one item after another.

The operator is called until it answers `false`, and what it emits goes to one downstream
(`Lsql.Flow.Prog`). An operator that waits for the end of its input takes in records without a word
(`feed_absorb`) and then emits what it has made of them. The downstream of an operator may be another
operator (`feedThrough`): what the first one may still send is then what the second one answers.
-/

namespace Flow.Prog

variable {ε η ρ σ τ α : Type}

/-- The items of a stream of records that ends. -/
def streamOf (records : List ρ) : List (Option ρ) := records.map some ++ [none]

theorem streamOf_cons (r : ρ) (records : List ρ) :
    streamOf (r :: records) = some r :: streamOf records := rfl

theorem streamOf_append (records records' : List ρ) :
    streamOf (records ++ records') = records.map some ++ streamOf records' := by
  rw [streamOf, streamOf, List.map_append, List.append_assoc]

/-! ### Loops that emit -/

section SendAll

variable (accept : List (Option ρ) → Bool)

/-- The loop runs to its end unless an item is refused. -/
theorem run_sendAll (items : List (Option ρ)) (c : η) (d : Downstream ρ) :
    run accept (sendAll items : Prog ε η ρ Bool) c d =
      .ok (items.isEmpty || (d.sendAll accept items).active, c, d.sendAll accept items) := by
  induction items generalizing d with
  | nil => rfl
  | cons item items ih =>
      rw [sendAll, run_emit, Downstream.sendAll]
      cases hact : (d.send accept item).active with
      | true =>
          rw [if_pos rfl, ih]
          cases items with
          | nil => simp [hact]
          | cons next rest => rfl
      | false =>
          rw [if_neg Bool.false_ne_true, run_done, Downstream.sendAll_of_not_active hact]
          simp [hact]

/-- A loop that is followed by the end of the stream. -/
theorem run_sendAll_end (items : List (Option ρ)) (c : η) (d : Downstream ρ) (stop : α)
    (f : Bool → α) : ∃ a, run accept (do
      let cont ← sendAll items
      if !cont then pure stop
      else do
        let cont ← send none
        pure (f cont) : Prog ε η ρ α) c d = .ok (a, c, d.sendAll accept (items ++ [none])) := by
  rw [run_bind_ok (run_sendAll accept items c d), Downstream.sendAll_append]
  cases hcont : items.isEmpty || (d.sendAll accept items).active with
  | true => exact ⟨_, rfl⟩
  | false =>
      have hstop : (d.sendAll accept items).active = false := (Bool.or_eq_false_iff.mp hcont).2
      rw [Downstream.sendAll_of_not_active hstop [none]]
      exact ⟨stop, rfl⟩

/-- What has reached a downstream of the items that it was to be sent: all of them, unless it refused
the last one that it got. -/
structure Sent (items : List (Option ρ)) (d : Downstream ρ) : Prop where
  pre : d.out <+: items
  refused : d.out ≠ items → accept d.out = false

theorem sent_sendAll (items : List (Option ρ)) :
    Sent accept items (Downstream.fresh.sendAll accept items) := by
  suffices h : ∀ items front, ∃ sent, sent <+: items ∧
      (({ active := true, out := front } : Downstream ρ).sendAll accept items).out = front ++ sent ∧
      (sent ≠ items → accept (front ++ sent) = false) by
    obtain ⟨sent, hpre, hout, hrefused⟩ := h items []
    rw [List.nil_append] at hout hrefused
    exact ⟨hout ▸ hpre, fun hne => hout ▸ hrefused (hout ▸ hne)⟩
  intro items
  induction items with
  | nil => exact fun front => ⟨[], List.nil_prefix, (List.append_nil front).symm, fun h => absurd rfl h⟩
  | cons item items ih =>
      intro front
      rw [Downstream.sendAll, Downstream.send_of_active rfl]
      cases hact : accept (front ++ [item]) with
      | true =>
          obtain ⟨sent, hpre, hout, hrefused⟩ := ih (front ++ [item])
          refine ⟨item :: sent, List.cons_prefix_cons.mpr ⟨rfl, hpre⟩, ?_, fun hne => ?_⟩
          · exact hout.trans (List.append_cons front item sent).symm
          · rw [List.append_cons front item sent]
            exact hrefused fun h => hne (h ▸ rfl)
      | false =>
          refine ⟨[item], List.cons_prefix_cons.mpr ⟨rfl, List.nil_prefix⟩, ?_, fun _ => hact⟩
          rw [Downstream.sendAll_of_not_active rfl]

end SendAll

/-! ### Calls -/

/-- Calls with the items in turn, up to the first that is answered with `false`. -/
def feed (accept : List (Option ρ) → Bool) (consume : σ → Option ρ → Prog ε η ρ (σ × Bool)) :
    List (Option ρ) → σ → η → Downstream ρ → Except ε ((σ × Bool) × η × Downstream ρ)
  | [], s, c, d => .ok ((s, true), c, d)
  | item :: items, s, c, d => do
    let ((s, cont), c, d) ← run accept (consume s item) c d
    if cont then feed accept consume items s c d else pure ((s, false), c, d)

section Feed

variable {accept : List (Option ρ) → Bool} {consume : σ → Option ρ → Prog ε η ρ (σ × Bool)}
  {s s' : σ} {c c' : η} {d d' : Downstream ρ} {item : Option ρ} {items : List (Option ρ)}

theorem feed_go (h : run accept (consume s item) c d = .ok ((s', true), c', d')) :
    feed accept consume (item :: items) s c d = feed accept consume items s' c' d' := by
  rw [feed, h]
  rfl

theorem feed_stop (h : run accept (consume s item) c d = .ok ((s', false), c', d')) :
    feed accept consume (item :: items) s c d = .ok ((s', false), c', d') := by
  rw [feed, h]
  rfl

theorem feed_fail {e : ε} (h : run accept (consume s item) c d = .error e) :
    feed accept consume (item :: items) s c d = .error e := by
  rw [feed, h]
  rfl

/-- What a call makes of a downstream when nothing follows it. -/
theorem feed_last {cont : Bool} (h : run accept (consume s item) c d = .ok ((s', cont), c', d')) :
    feed accept consume [item] s c d = .ok ((s', cont), c', d') := by
  cases cont with
  | true => exact feed_go h
  | false => exact feed_stop h

theorem feed_append (as bs : List (Option ρ)) (s : σ) (c : η) (d : Downstream ρ) :
    feed accept consume (as ++ bs) s c d =
      (feed accept consume as s c d).bind fun r =>
        if r.1.2 then feed accept consume bs r.1.1 r.2.1 r.2.2 else .ok r := by
  induction as generalizing s c d with
  | nil => rfl
  | cons item as ih =>
      rw [List.cons_append]
      cases hrun : run accept (consume s item) c d with
      | error e =>
          rw [feed_fail hrun, feed_fail hrun]
          rfl
      | ok r =>
          obtain ⟨⟨s', cont⟩, c', d'⟩ := r
          cases cont with
          | true => rw [feed_go hrun, feed_go hrun, ih]
          | false =>
              rw [feed_stop hrun, feed_stop hrun]
              rfl

/-- An operator that takes records in and emits nothing, or fails on a record; `I` is what it and its
cell keep of those so far. A record may come with what is known of it. -/
theorem feed_collect_or_fail {record : α → ρ} {I : List α → σ → η → Prop} {all : List α}
    (fails : α → ε → Prop) (hstart : I [] s c)
    (hstep : ∀ front a s c, front ++ [a] <+: all → I front s c →
      (∃ e, fails a e ∧ run accept (consume s (some (record a))) c d = .error e) ∨
      ∃ s' c', run accept (consume s (some (record a))) c d = .ok ((s', true), c', d) ∧
        I (front ++ [a]) s' c') :
    (∃ a ∈ all, ∃ e, fails a e ∧
      ∀ more, feed accept consume ((all.map record).map some ++ more) s c d = .error e) ∨
    ∃ s' c', feed accept consume ((all.map record).map some) s c d = .ok ((s', true), c', d) ∧
      I all s' c' := by
  suffices h : ∀ front rest, front ++ rest = all → ∀ s c, I front s c →
      (∃ a ∈ all, ∃ e, fails a e ∧
        ∀ more, feed accept consume ((rest.map record).map some ++ more) s c d = .error e) ∨
      ∃ s' c', feed accept consume ((rest.map record).map some) s c d = .ok ((s', true), c', d) ∧
        I all s' c' from h [] all rfl s c hstart
  intro front rest
  induction rest generalizing front with
  | nil =>
      intro h s c hs
      rw [List.append_nil] at h
      exact .inr ⟨s, c, rfl, h ▸ hs⟩
  | cons a rest ih =>
      intro h s c hs
      have hpre : front ++ [a] ++ rest = all := by simpa using h
      have ha : a ∈ all := h ▸ List.mem_append_right front List.mem_cons_self
      obtain ⟨e, he, hrun⟩ | ⟨s₁, c₁, hrun, hs₁⟩ := hstep front a s c ⟨rest, hpre⟩ hs
      · exact .inl ⟨a, ha, e, he, fun more => feed_fail hrun⟩
      · obtain ⟨b, hb, e, he, hfeed⟩ | ⟨s', c', hfeed, hs'⟩ := ih (front ++ [a]) hpre s₁ c₁ hs₁
        · exact .inl ⟨b, hb, e, he, fun more => (feed_go hrun).trans (hfeed more)⟩
        · exact .inr ⟨s', c', (feed_go hrun).trans hfeed, hs'⟩

/-- The same for an operator that does not fail. -/
theorem feed_collect {record : α → ρ} {I : List α → σ → η → Prop} {all : List α} (hstart : I [] s c)
    (hstep : ∀ front a s c, front ++ [a] <+: all → I front s c → ∃ s' c',
      run accept (consume s (some (record a))) c d = .ok ((s', true), c', d) ∧
        I (front ++ [a]) s' c') :
    ∃ s' c', feed accept consume ((all.map record).map some) s c d = .ok ((s', true), c', d) ∧
      I all s' c' := by
  obtain ⟨a, -, e, he, -⟩ | h := feed_collect_or_fail (fun _ _ => False) hstart
    fun front a s c hpre hs => .inr (hstep front a s c hpre hs)
  · exact he.elim
  · exact h

/-- The same for an operator that leaves its cell alone. -/
theorem feed_absorb {record : α → ρ} {I : List α → σ → Prop} {all : List α} (hstart : I [] s)
    (hstep : ∀ front a s, front ++ [a] <+: all → I front s →
      ∃ s', run accept (consume s (some (record a))) c d = .ok ((s', true), c, d) ∧
        I (front ++ [a]) s') :
    ∃ s', feed accept consume ((all.map record).map some) s c d = .ok ((s', true), c, d) ∧
      I all s' := by
  have hcell : ∃ s' c', feed accept consume ((all.map record).map some) s c d =
      .ok ((s', true), c', d) ∧ I all s' ∧ c' = c := by
    refine feed_collect (I := fun front s c' => I front s ∧ c' = c) ⟨hstart, rfl⟩ ?_
    intro front a s c' hpre hs
    obtain ⟨s', hrun, hs'⟩ := hstep front a s hpre hs.1
    exact ⟨s', c, hs.2 ▸ hrun, hs', rfl⟩
  obtain ⟨s', c', hfeed, hs', hc⟩ := hcell
  exact ⟨s', hc ▸ hfeed, hs'⟩

/-- Records that are taken in, and an end at which the operator emits what it has to. -/
theorem feed_absorb_end {records : List ρ} {cont : Bool}
    {c₁ : η} (habsorb : feed accept consume (records.map some) s c d = .ok ((s', true), c₁, d))
    {s'' : σ} (hend : run accept (consume s' none) c₁ d = .ok ((s'', cont), c', d')) :
    feed accept consume (streamOf records) s c d = .ok ((s'', cont), c', d') := by
  rw [streamOf, feed_append, habsorb]
  exact feed_last hend

/-- An operator that makes records of each record and answers whether they were all accepted, or fails
on a record. `I` is what it keeps to. -/
theorem feed_expand_or_fail {record : α → ρ} {outs : α → List ρ} {I : σ → Prop} {all : List α}
    (fails : α → ε → Prop)
    (hstep : ∀ a ∈ all, ∀ s d, I s → d.active = true →
      (∃ e, fails a e ∧ run accept (consume s (some (record a))) c d = .error e) ∨
      ∃ s', I s' ∧ run accept (consume s (some (record a))) c d =
        .ok ((s', (d.sendAll accept ((outs a).map some)).active), c,
          d.sendAll accept ((outs a).map some)))
    (hend : ∀ s d, ∃ r, run accept (consume s none) c d = .ok (r, c, d.send accept none))
    (hs : I s) (hactive : d.active = true) :
    (∃ a ∈ all, ∃ e, fails a e ∧
      feed accept consume (streamOf (all.map record)) s c d = .error e) ∨
    ∃ r, feed accept consume (streamOf (all.map record)) s c d =
      .ok (r, c, d.sendAll accept (streamOf (all.flatMap outs))) := by
  induction all generalizing s d with
  | nil =>
      obtain ⟨⟨s', cont⟩, hrun⟩ := hend s d
      exact .inr ⟨_, feed_last hrun⟩
  | cons a all ih =>
      rw [List.map_cons, streamOf_cons, List.flatMap_cons, streamOf_append,
        Downstream.sendAll_append]
      obtain ⟨e, he, hrun⟩ | ⟨s', hs', hrun⟩ := hstep a List.mem_cons_self s d hs hactive
      · exact .inl ⟨a, List.mem_cons_self, e, he, feed_fail hrun⟩
      · cases hact : (d.sendAll accept ((outs a).map some)).active with
        | true =>
            rw [hact] at hrun
            rw [feed_go hrun]
            obtain ⟨b, hb, e, he, hfeed⟩ | h :=
              ih (fun b hb => hstep b (List.mem_cons_of_mem _ hb)) hs' hact
            · exact .inl ⟨b, List.mem_cons_of_mem _ hb, e, he, hfeed⟩
            · exact .inr h
        | false =>
            rw [hact] at hrun
            rw [feed_stop hrun, Downstream.sendAll_of_not_active hact]
            exact .inr ⟨_, rfl⟩

/-- An operator without a state of its own. -/
def stateless (consume : Option ρ → Prog ε η ρ Bool) (_ : Unit) (item : Option ρ) :
    Prog ε η ρ (Unit × Bool) := do
  let cont ← consume item
  pure ((), cont)

theorem run_stateless {consume : Option ρ → Prog ε η ρ Bool} {cont : Bool}
    (h : run accept (consume item) c d = .ok (cont, c', d')) :
    run accept (stateless consume () item) c d = .ok (((), cont), c', d') := by
  rw [stateless, run_bind_ok h]
  rfl

end Feed

/-! ### One operator after another -/

/-- The answer of an operator to the last of the items. -/
def answers (accept : List (Option ρ) → Bool) (consume : σ → Option ρ → Prog ε η ρ (σ × Bool))
    (s : σ) (c : η) (d : Downstream ρ) (items : List (Option ρ)) : Bool :=
  match feed accept consume items s c d with
  | .ok r => r.1.2
  | .error _ => false

/-- Two operators in a row: the second one is the downstream of the first one. -/
def feedThrough (accept : List (Option ρ) → Bool) (first : σ → Option ρ → Prog ε η ρ (σ × Bool))
    (second : τ → Option ρ → Prog ε η ρ (τ × Bool)) (items : List (Option ρ)) (s : σ) (c : η)
    (t : τ) (c' : η) (d : Downstream ρ) : Except ε ((τ × Bool) × η × Downstream ρ) := do
  let (_, _, sent) ← feed (answers accept second t c' d) first items s c .fresh
  feed accept second sent.out t c' d

section Through

variable {accept : List (Option ρ) → Bool} {consume : σ → Option ρ → Prog ε η ρ (σ × Bool)}
  {s : σ} {c : η} {d : Downstream ρ}

theorem answers_ok {items : List (Option ρ)} {r : (σ × Bool) × η × Downstream ρ}
    (h : feed accept consume items s c d = .ok r) : answers accept consume s c d items = r.1.2 := by
  rw [answers, h]

theorem answers_error {items : List (Option ρ)} {e : ε}
    (h : feed accept consume items s c d = .error e) :
    answers accept consume s c d items = false := by
  rw [answers, h]

/-- An operator that has answered `false` is sent nothing more, so it makes of the items that it was
sent what it would have made of all of them. -/
theorem feed_sendAll (items : List (Option ρ)) :
    feed accept consume ((Downstream.fresh.sendAll (answers accept consume s c d) items).out) s c d =
      feed accept consume items s c d := by
  suffices h : ∀ items front r, feed accept consume front s c d = .ok r → r.1.2 = true →
      feed accept consume
        (({ active := true, out := front } : Downstream ρ).sendAll
          (answers accept consume s c d) items).out s c d =
        feed accept consume (front ++ items) s c d from h items [] _ rfl rfl
  intro items
  induction items with
  | nil =>
      intro front r _ _
      rw [Downstream.sendAll_nil, List.append_nil]
  | cons item items ih =>
      intro front r _ _
      have hsplit : front ++ item :: items = (front ++ [item]) ++ items := by simp
      rw [Downstream.sendAll, Downstream.send_of_active rfl, hsplit, feed_append]
      show feed accept consume (Downstream.sendAll _ _
        ⟨answers accept consume s c d (front ++ [item]), front ++ [item]⟩).out s c d = _
      cases hnext : feed accept consume (front ++ [item]) s c d with
      | error e =>
          rw [answers_error hnext, Downstream.sendAll_of_not_active rfl, hnext]
          rfl
      | ok next =>
          rw [answers_ok hnext]
          cases hcont : next.1.2 with
          | true => rw [ih (front ++ [item]) next hnext hcont, feed_append, hnext]
          | false =>
              rw [Downstream.sendAll_of_not_active rfl, hnext]
              exact (if_neg (by simp [hcont])).symm

/-- A first operator that emits a known sequence. -/
theorem feedThrough_eq {first : τ → Option ρ → Prog ε η ρ (τ × Bool)} {t : τ} {c' : η}
    {items emitted : List (Option ρ)} {r : τ × Bool} {c'' : η}
    (h : feed (answers accept consume s c d) first items t c' .fresh =
      .ok (r, c'', Downstream.fresh.sendAll (answers accept consume s c d) emitted)) :
    feedThrough accept first consume items t c' s c d = feed accept consume emitted s c d := by
  rw [feedThrough, h]
  exact feed_sendAll emitted

end Through

/-- Calls with what becomes of each item, up to one of which nothing becomes. -/
def feedMapped (accept : List (Option ρ) → Bool) (change : Option ρ → Except ε (Option ρ))
    (consume : σ → Option ρ → Prog ε η ρ (σ × Bool)) :
    List (Option ρ) → σ → η → Downstream ρ → Except ε ((σ × Bool) × η × Downstream ρ)
  | [], s, c, d => .ok ((s, true), c, d)
  | item :: items, s, c, d => do
    let item ← change item
    let ((s, cont), c, d) ← run accept (consume s item) c d
    if cont then feedMapped accept change consume items s c d else pure ((s, false), c, d)

section Mapped

variable {accept : List (Option ρ) → Bool} {change : Option ρ → Except ε (Option ρ)}
  {consume : σ → Option ρ → Prog ε η ρ (σ × Bool)} {s s' : σ} {c c' : η} {d d' : Downstream ρ}
  {item item' : Option ρ} {items : List (Option ρ)}

theorem feedMapped_go (hitem : change item = .ok item')
    (h : run accept (consume s item') c d = .ok ((s', true), c', d')) :
    feedMapped accept change consume (item :: items) s c d =
      feedMapped accept change consume items s' c' d' := by
  rw [feedMapped, hitem]
  show (run accept (consume s item') c d).bind _ = _
  rw [h]
  rfl

theorem feedMapped_stop (hitem : change item = .ok item')
    (h : run accept (consume s item') c d = .ok ((s', false), c', d')) :
    feedMapped accept change consume (item :: items) s c d = .ok ((s', false), c', d') := by
  rw [feedMapped, hitem]
  show (run accept (consume s item') c d).bind _ = _
  rw [h]
  rfl

theorem feedMapped_last {cont : Bool} (hitem : change item = .ok item')
    (h : run accept (consume s item') c d = .ok ((s', cont), c', d')) :
    feedMapped accept change consume [item] s c d = .ok ((s', cont), c', d') := by
  cases cont with
  | true => exact feedMapped_go hitem h
  | false => exact feedMapped_stop hitem h

theorem feedMapped_fail {e : ε} (hitem : change item = .error e) :
    feedMapped accept change consume (item :: items) s c d = .error e := by
  rw [feedMapped, hitem]
  rfl

end Mapped

/-- A first operator that changes each item and answers what it is answered: the second one might as
well be called with the changed items. -/
theorem feedThrough_map {accept : List (Option ρ) → Bool}
    {change : Option ρ → Except ε (Option ρ)}
    {first : τ → Option ρ → Prog ε η ρ (τ × Bool)}
    {second : σ → Option ρ → Prog ε η ρ (σ × Bool)} {t : τ} {c : η}
    (hfirst : ∀ (answer : List (Option ρ) → Bool) (item : Option ρ) (d : Downstream ρ),
      run answer (first t item) c d = (change item).map fun item' =>
        ((t, (d.send answer item').active), c, d.send answer item'))
    (items : List (Option ρ)) (s : σ) (c' : η) (d : Downstream ρ) :
    feedThrough accept first second items t c s c' d =
      feedMapped accept change second items s c' d := by
  suffices h : ∀ items front r, feed accept second front s c' d = .ok r → r.1.2 = true →
      (do
        let x ← feed (answers accept second s c' d) first items t c ⟨true, front⟩
        feed accept second x.2.2.out s c' d) =
        feedMapped accept change second items r.1.1 r.2.1 r.2.2 from h items [] _ rfl rfl
  intro items
  induction items with
  | nil =>
      intro front r hfront hr
      obtain ⟨⟨s₁, cont⟩, c₁, d₁⟩ := r
      cases hr
      exact hfront
  | cons item items ih =>
      intro front r hfront hr
      have hrun := hfirst (answers accept second s c' d) item ⟨true, front⟩
      rw [feedMapped]
      cases hitem : change item with
      | error e =>
          rw [hitem] at hrun
          rw [feed_fail hrun]
          rfl
      | ok item' =>
          rw [hitem] at hrun
          -- the second operator has been called with the front, and is called with the next item
          have hnext : feed accept second (front ++ [item']) s c' d =
              feed accept second [item'] r.1.1 r.2.1 r.2.2 := by
            rw [feed_append, hfront]
            exact if_pos hr
          change run _ _ _ _ = .ok ((t, answers accept second s c' d (front ++ [item'])), c,
            ⟨answers accept second s c' d (front ++ [item']), front ++ [item']⟩) at hrun
          rw [feed] at hnext
          show _ = (run accept (second r.1.1 item') r.2.1 r.2.2).bind _
          cases hsecond : run accept (second r.1.1 item') r.2.1 r.2.2 with
          | error e =>
              rw [hsecond] at hnext
              rw [answers_error hnext] at hrun
              rw [feed_stop hrun]
              exact hnext
          | ok r' =>
              obtain ⟨⟨s', cont⟩, c₁, d₁⟩ := r'
              rw [hsecond] at hnext
              cases cont with
              | true =>
                  change feed accept second (front ++ [item']) s c' d = .ok ((s', true), c₁, d₁) at hnext
                  rw [answers_ok hnext] at hrun
                  rw [feed_go hrun]
                  exact ih (front ++ [item']) _ hnext rfl
              | false =>
                  change feed accept second (front ++ [item']) s c' d = .ok ((s', false), c₁, d₁) at hnext
                  rw [answers_ok hnext] at hrun
                  rw [feed_stop hrun]
                  exact hnext

end Flow.Prog
