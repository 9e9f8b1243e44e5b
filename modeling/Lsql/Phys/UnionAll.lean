import Lsql.Flow.Shuffle
import Lsql.Phys.Ops
import Mathlib.Data.Fintype.Card

/-!
# Lsql.Phys.UnionAll

`UnionAll` under every schedule of its inputs' calls (`back/exec/phys/ops/UnionAll.h`).

The operator is run against a downstream that answers every item it is sent, so that what the
operator emits after a refusal would show. While nothing has been refused the operator has emitted
an interleaving of what its inputs have sent, and it counts the inputs that have ended
(`Feed.Running`). It leaves that state in one of two ways: the last input ends (`Feed.Finished`), or
the downstream refuses a record (`Feed.Stopped`).
-/

namespace Lsql.Phys

open Lsql.Exec Flow

namespace UnionAll

/-- The operator with all that it has emitted, the items that each of its inputs has yet to send,
and which inputs have not been told to stop. -/
structure Feed (n : Nat) where
  self : UnionAll
  sent : List (Option Record)
  input : Fin n → List (Option Record)
  live : Fin n → Bool

/-- A newly built operator. -/
def build (inputs : Nat) : UnionAll := { inputs, streamFinished := false, eofCount := 0 }

namespace Feed

variable {n : Nat}

/-- Inputs that each send records and then the end of their stream. -/
def start (records : Fin n → List Record) : Feed n where
  self := build n
  sent := []
  input i := (records i).map some ++ [none]
  live _ := true

/-- The next call of one input. An input that was told to stop makes no call. -/
def step (answer : List (Option Record) → Bool) (i : Fin n) (f : Feed n) :
    Except Fault (Feed n) :=
  if f.live i then
    match f.input i with
    | [] => .ok f
    | item :: items => do
      let ((self, cont), _, sent) ← (f.self.consume item).runAll answer .unused f.sent
      pure {
        self, sent
        input := Function.update f.input i items
        live := Function.update f.live i cont }
  else
    .ok f

/-- Calls in the order of a schedule. -/
def run (answer : List (Option Record) → Bool) : List (Fin n) → Feed n → Except Fault (Feed n)
  | [], f => .ok f
  | i :: is, f => do
    let f ← f.step answer i
    f.run answer is

/-- The downstream has accepted every record. -/
def NoRefusal (answer : List (Option Record) → Bool) (sent : List (Option Record)) : Prop :=
  ∀ front r, front ++ [some r] <+: sent → answer (front ++ [some r]) = true

/-- What every input has sent and what it has left. -/
structure Progress (records taken : Fin n → List Record) (f : Feed n) : Prop where
  taken_pre : ∀ i, taken i <+: records i
  input : ∀ i, (∃ rest, records i = taken i ++ rest ∧ f.input i = rest.map some ++ [none]) ∨
    taken i = records i ∧ f.input i = []

/-- What the operator has done after some calls.

While no record has been refused it has emitted an interleaving of what the inputs have sent, then
the end of the stream if all of them have ended, and every input that has not ended is still
accepted. Once a record has been refused, that record is the last item emitted, it stays the last
one, and every input is told to stop on its next call. -/
structure Correct (answer : List (Option Record) → Bool) (records : Fin n → List Record)
    (f : Feed n) : Prop where
  running : NoRefusal answer f.sent → ∃ taken m, Progress records taken f ∧
    Shuffle (List.ofFn taken) m ∧
    f.sent = m.map some ++ if 0 < n ∧ ∀ i, f.input i = [] then [none] else []
  live : NoRefusal answer f.sent → ∀ i, f.live i = true ↔ f.input i ≠ []
  ended : NoRefusal answer f.sent → 0 < n → (∀ i, f.input i = []) → ∃ m,
    Shuffle (List.ofFn records) m ∧ m.Perm (List.ofFn records).flatten ∧
    f.sent = m.map some ++ [none]
  refused : ¬ NoRefusal answer f.sent → ∃ taken m r, (∀ i, taken i <+: records i) ∧
    Shuffle (List.ofFn taken) (m ++ [r]) ∧ f.sent = (m ++ [r]).map some ∧
    NoRefusal answer (m.map some) ∧ answer f.sent = false
  silent : ¬ NoRefusal answer f.sent → ∀ schedule f', f.run answer schedule = .ok f' →
    f'.sent = f.sent
  told : ¬ NoRefusal answer f.sent → ∀ i f', f.live i = true → f.input i ≠ [] →
    f.step answer i = .ok f' → f'.live i = false

/-! ### Refusals -/

section Refusals

variable {answer : List (Option Record) → Bool} {sent : List (Option Record)}

theorem noRefusal_nil : NoRefusal answer [] := by
  intro front r h
  simp at h

theorem noRefusal_concat_some {r : Record} :
    NoRefusal answer (sent ++ [some r]) ↔
      NoRefusal answer sent ∧ answer (sent ++ [some r]) = true := by
  constructor
  · intro h
    exact ⟨fun front r' hpre => h front r' (hpre.trans (List.prefix_append _ _)),
      h sent r (List.prefix_refl _)⟩
  · rintro ⟨hno, hlast⟩ front r' hpre
    rcases List.prefix_concat_iff.mp hpre with heq | hpre
    · rw [heq]
      exact hlast
    · exact hno front r' hpre

theorem NoRefusal.concat_none (h : NoRefusal answer sent) : NoRefusal answer (sent ++ [none]) := by
  intro front r hpre
  rcases List.prefix_concat_iff.mp hpre with heq | hpre
  · have := (List.append_inj' heq rfl).2
    simp at this
  · exact h front r hpre

end Refusals

/-! ### The three states -/

section States

variable (answer : List (Option Record) → Bool) (records : Fin n → List Record)

/-- The inputs that have ended. -/
def endedInputs (f : Feed n) : Finset (Fin n) := Finset.univ.filter fun i => (f.input i).isEmpty

theorem mem_endedInputs {f : Feed n} {i : Fin n} : i ∈ f.endedInputs ↔ f.input i = [] := by
  simp [endedInputs]

/-- Some input has not ended yet and nothing has been refused. -/
structure Running (taken : Fin n → List Record) (m : List Record) (f : Feed n) : Prop where
  inputs : f.self.inputs = n
  streaming : f.self.streamFinished = false
  count : f.self.eofCount = f.endedInputs.card
  waits : 0 < n → f.endedInputs.card < n
  progress : Progress records taken f
  live : ∀ i, f.live i = true ↔ f.input i ≠ []
  shuffle : Shuffle (List.ofFn taken) m
  sent : f.sent = m.map some
  noRefusal : NoRefusal answer f.sent

/-- All inputs have ended. -/
structure Finished (m : List Record) (f : Feed n) : Prop where
  nonempty : 0 < n
  input : ∀ i, f.input i = []
  live : ∀ i, f.live i = false
  shuffle : Shuffle (List.ofFn records) m
  sent : f.sent = m.map some ++ [none]
  noRefusal : NoRefusal answer f.sent

/-- A record has been refused. -/
structure Stopped (m : List Record) (r : Record) (f : Feed n) : Prop where
  finished : f.self.streamFinished = true
  shuffle : ∃ taken, (∀ i, taken i <+: records i) ∧ Shuffle (List.ofFn taken) (m ++ [r])
  sent : f.sent = (m ++ [r]).map some
  noRefusal : NoRefusal answer (m.map some)
  refused : answer f.sent = false

/-- The invariant. -/
inductive Inv (f : Feed n) : Prop
  | running (taken : Fin n → List Record) (m : List Record) (h : Running answer records taken m f)
  | finished (m : List Record) (h : Finished answer records m f)
  | stopped (m : List Record) (r : Record) (h : Stopped answer records m r f)

end States

variable {answer : List (Option Record) → Bool} {records taken : Fin n → List Record}
  {m : List Record} {f : Feed n}

theorem step_idle {i : Fin n} (h : f.live i = true → f.input i = []) :
    f.step answer i = .ok f := by
  unfold step
  split
  next hlive => simp [h hlive]
  next => rfl

theorem step_live {i : Fin n} {item : Option Record} {items : List (Option Record)}
    (hlive : f.live i = true) (hinput : f.input i = item :: items) (self : UnionAll) (cont : Bool)
    (sent : List (Option Record))
    (hrun : (f.self.consume item).runAll answer .unused f.sent = .ok ((self, cont), .unused, sent)) :
    f.step answer i = .ok {
      self, sent
      input := Function.update f.input i items
      live := Function.update f.live i cont } := by
  simp only [step, hlive, if_true, hinput, hrun]
  rfl

theorem inv_start : Inv answer records (start records) := by
  refine .running (fun _ => []) [] ⟨rfl, rfl, ?_, ?_, ?_, ?_, ?_, rfl, noRefusal_nil⟩
  · simp [endedInputs, start, build]
  · intro hn
    simpa [endedInputs, start] using hn
  · exact ⟨fun i => List.nil_prefix, fun i => .inl ⟨records i, rfl, rfl⟩⟩
  · simp [start]
  · apply Shuffle.of_all_nil
    simp

/-- One more record of an input, which the downstream accepts or refuses. -/
theorem Running.push (h : Running answer records taken m f) {i : Fin n} {r : Record}
    {rest : List Record} (hrec : records i = taken i ++ r :: rest)
    (hinput : f.input i = some r :: (rest.map some ++ [none])) :
    ∃ f', f.step answer i = .ok f' ∧ Inv answer records f' := by
  have hlive : f.live i = true := (h.live i).mpr (by simp [hinput])
  have hshuffle := h.shuffle.append_ofFn i r
  have hsent : f.sent ++ [some r] = (m ++ [r]).map some := by simp [h.sent]
  have hnext : ∀ j, Function.update taken i (taken i ++ [r]) j <+: records j := by
    intro j
    by_cases hj : j = i
    · subst hj
      rw [Function.update_self, hrec]
      exact ⟨rest, by simp⟩
    · rw [Function.update_of_ne hj]
      exact h.progress.taken_pre j
  cases hans : answer (f.sent ++ [some r]) with
  | false =>
      refine ⟨_, step_live hlive hinput { f.self with streamFinished := true } false
        (f.sent ++ [some r]) ?_, .stopped m r ?_⟩
      · simp [consume, h.streaming, Prog.runAll, hans]
      · exact ⟨rfl, ⟨_, hnext, hshuffle⟩, hsent, h.sent ▸ h.noRefusal, hans⟩
  | true =>
      refine ⟨_, step_live hlive hinput f.self true (f.sent ++ [some r]) ?_,
        .running (Function.update taken i (taken i ++ [r])) (m ++ [r]) ?_⟩
      · simp [consume, h.streaming, Prog.runAll, hans]
      · have hopen : ∀ j, Function.update f.input i (rest.map some ++ [none]) j = [] ↔
            f.input j = [] := by
          intro j
          by_cases hj : j = i
          · subst hj
            simp [hinput]
          · rw [Function.update_of_ne hj]
        have hended : endedInputs {
            self := f.self, sent := f.sent ++ [some r]
            input := Function.update f.input i (rest.map some ++ [none])
            live := Function.update f.live i true } = f.endedInputs := by
          ext j
          rw [mem_endedInputs, mem_endedInputs]
          exact hopen j
        refine ⟨h.inputs, h.streaming, hended ▸ h.count, hended ▸ h.waits, ⟨hnext, ?_⟩, ?_, hshuffle,
          hsent, noRefusal_concat_some.mpr ⟨h.noRefusal, hans⟩⟩
        · intro j
          by_cases hj : j = i
          · subst hj
            exact .inl ⟨rest, by simp [hrec], by simp⟩
          · simpa only [Function.update_of_ne hj] using h.progress.input j
        · intro j
          by_cases hj : j = i
          · subst hj
            simp
          · simpa only [Function.update_of_ne hj] using h.live j

/-- The end of one input, which may be the last one to end. -/
theorem Running.eof (h : Running answer records taken m f) {i : Fin n}
    (hrec : taken i = records i) (hinput : f.input i = [none]) :
    ∃ f', f.step answer i = .ok f' ∧ Inv answer records f' := by
  have hlive : f.live i = true := (h.live i).mpr (by simp [hinput])
  have hmem : i ∉ f.endedInputs := by simp [mem_endedInputs, hinput]
  have hinsert : ∀ j, Function.update f.input i [] j = [] ↔ j ∈ insert i f.endedInputs := by
    intro j
    by_cases hj : j = i
    · simp [hj]
    · rw [Function.update_of_ne hj, Finset.mem_insert, mem_endedInputs]
      simp [hj]
  have hcard : (insert i f.endedInputs).card = f.self.eofCount + 1 := by
    rw [Finset.card_insert_of_notMem hmem, h.count]
  by_cases hlast : f.self.eofCount + 1 = f.self.inputs
  · refine ⟨_, step_live hlive hinput
      { f.self with eofCount := f.self.eofCount + 1, streamFinished := true } false
      (f.sent ++ [none]) ?_, .finished m ?_⟩
    · simp [consume, h.streaming, Prog.runAll, hlast]
    · have hall : insert i f.endedInputs = Finset.univ := by
        rw [← Finset.card_eq_iff_eq_univ, hcard, hlast, h.inputs, Fintype.card_fin]
      have hnil : ∀ j, Function.update f.input i [] j = [] := by
        intro j
        rw [hinsert j, hall]
        exact Finset.mem_univ j
      have htaken : taken = records := by
        funext j
        rcases h.progress.input j with ⟨rest, hsplit, hj⟩ | ⟨hj, -⟩
        · have hji : j = i := by
            by_contra hji
            have := hnil j
            rw [Function.update_of_ne hji, hj] at this
            simp at this
          rw [hji, hrec]
        · exact hj
      refine ⟨i.pos, hnil, ?_, htaken ▸ h.shuffle, by rw [h.sent], h.noRefusal.concat_none⟩
      intro j
      by_cases hj : j = i
      · subst hj
        simp
      · have := hnil j
        rw [Function.update_of_ne hj] at this
        simp only [Function.update_of_ne hj]
        by_contra hlive
        exact (h.live j).mp (by simpa using hlive) this
  · refine ⟨_, step_live hlive hinput { f.self with eofCount := f.self.eofCount + 1 } false f.sent
      ?_, .running taken m ?_⟩
    · simp [consume, h.streaming, Prog.runAll, hlast]
    · have hended : endedInputs {
          self := { f.self with eofCount := f.self.eofCount + 1 }, sent := f.sent
          input := Function.update f.input i []
          live := Function.update f.live i false } = insert i f.endedInputs := by
        ext j
        rw [mem_endedInputs]
        exact hinsert j
      refine ⟨h.inputs, h.streaming, ?_, ?_, ⟨h.progress.taken_pre, ?_⟩, ?_, h.shuffle, h.sent,
        h.noRefusal⟩
      · rw [hended, hcard]
      · intro hn
        rw [hended, hcard]
        have hlt := h.waits hn
        rw [← h.count] at hlt
        rw [h.inputs] at hlast
        omega
      · intro j
        by_cases hj : j = i
        · subst hj
          exact .inr ⟨hrec, by simp⟩
        · simpa only [Function.update_of_ne hj] using h.progress.input j
      · intro j
        by_cases hj : j = i
        · subst hj
          simp
        · simpa only [Function.update_of_ne hj] using h.live j

theorem Running.step (h : Running answer records taken m f) (i : Fin n) :
    ∃ f', f.step answer i = .ok f' ∧ Inv answer records f' := by
  rcases h.progress.input i with ⟨rest, hrec, hinput⟩ | ⟨-, hinput⟩
  · cases rest with
    | nil => exact h.eof (by simpa using hrec.symm) (by simpa using hinput)
    | cons r rest => exact h.push hrec (by simpa using hinput)
  · exact ⟨f, step_idle fun _ => hinput, .running taken m h⟩

/-- After a refusal a call emits nothing and tells its input to stop. -/
theorem Stopped.step {r : Record} (h : Stopped answer records m r f) (i : Fin n) :
    ∃ f', f.step answer i = .ok f' ∧ Stopped answer records m r f' ∧
      (f.live i = true → f.input i ≠ [] → f'.live i = false) := by
  by_cases hcall : f.live i = true ∧ f.input i ≠ []
  · obtain ⟨hlive, hinput⟩ := hcall
    obtain ⟨item, items, hinput⟩ := List.exists_cons_of_ne_nil hinput
    refine ⟨_, step_live hlive hinput f.self false f.sent ?_,
      ⟨h.finished, h.shuffle, h.sent, h.noRefusal, h.refused⟩, ?_⟩
    · simp [consume, h.finished, Prog.runAll]
    · simp
  · have hidle : f.live i = true → f.input i = [] := by
      intro hlive
      by_contra hinput
      exact hcall ⟨hlive, hinput⟩
    exact ⟨f, step_idle hidle, h, fun hlive hinput => absurd (hidle hlive) hinput⟩

theorem Stopped.run {r : Record} (h : Stopped answer records m r f) {schedule : List (Fin n)}
    {f' : Feed n} (hrun : f.run answer schedule = .ok f') : Stopped answer records m r f' := by
  induction schedule generalizing f with
  | nil =>
      cases hrun
      exact h
  | cons i is ih =>
      obtain ⟨f₁, hstep, h₁, -⟩ := h.step i
      rw [Feed.run, hstep] at hrun
      exact ih h₁ hrun

theorem Inv.step (h : Inv answer records f) (i : Fin n) :
    ∃ f', f.step answer i = .ok f' ∧ Inv answer records f' := by
  cases h with
  | running taken m h => exact h.step i
  | finished m h => exact ⟨f, step_idle fun _ => h.input i, .finished _ h⟩
  | stopped m r h =>
      obtain ⟨f', hstep, h', -⟩ := h.step i
      exact ⟨f', hstep, .stopped _ _ h'⟩

theorem Inv.run (h : Inv answer records f) (schedule : List (Fin n)) :
    ∃ f', f.run answer schedule = .ok f' ∧ Inv answer records f' := by
  induction schedule generalizing f with
  | nil => exact ⟨f, rfl, h⟩
  | cons i is ih =>
      obtain ⟨f₁, hstep, h₁⟩ := h.step i
      obtain ⟨f', hrun, h'⟩ := ih h₁
      exact ⟨f', by rw [Feed.run, hstep]; exact hrun, h'⟩

/-! ### What the states say -/

theorem Running.correct (h : Running answer records taken m f) : Correct answer records f := by
  have hopen : ¬ (0 < n ∧ ∀ i, f.input i = []) := by
    rintro ⟨hn, hall⟩
    have huniv : f.endedInputs = Finset.univ := by
      ext i
      simp [mem_endedInputs, hall i]
    have := h.waits hn
    simp [huniv] at this
  refine ⟨fun _ => ⟨taken, m, h.progress, h.shuffle, ?_⟩, fun _ => h.live, ?_, ?_, ?_, ?_⟩
  · rw [if_neg hopen, List.append_nil, h.sent]
  · intro _ hn hall
    exact absurd ⟨hn, hall⟩ hopen
  all_goals exact fun hr => absurd h.noRefusal hr

theorem Finished.correct (h : Finished answer records m f) : Correct answer records f := by
  refine ⟨fun _ => ⟨records, m, ⟨fun _ => List.prefix_refl _, fun i => .inr ⟨rfl, h.input i⟩⟩,
    h.shuffle, ?_⟩, ?_, fun _ _ _ => ⟨m, h.shuffle, h.shuffle.perm, h.sent⟩, ?_, ?_, ?_⟩
  · rw [if_pos ⟨h.nonempty, h.input⟩, h.sent]
  · intro _ i
    simp [h.live i, h.input i]
  all_goals exact fun hr => absurd h.noRefusal hr

theorem Stopped.correct {r : Record} (h : Stopped answer records m r f) :
    Correct answer records f := by
  obtain ⟨taken, htaken, hshuffle⟩ := h.shuffle
  have hno : ¬ NoRefusal answer f.sent := by
    intro hno
    have hsent : f.sent = m.map some ++ [some r] := by simp [h.sent]
    have := (noRefusal_concat_some.mp (hsent ▸ hno)).2
    rw [← hsent, h.refused] at this
    cases this
  refine ⟨fun hr => absurd hr hno, fun hr => absurd hr hno, fun hr => absurd hr hno,
    fun _ => ⟨taken, m, r, htaken, hshuffle, h.sent, h.noRefusal, h.refused⟩, ?_, ?_⟩
  · intro _ schedule f' hrun
    rw [(h.run hrun).sent, h.sent]
  · intro _ i f' hlive hinput hstep
    obtain ⟨f'', hstep', -, hstop⟩ := h.step i
    rw [hstep] at hstep'
    cases hstep'
    exact hstop hlive hinput

theorem Inv.correct (h : Inv answer records f) : Correct answer records f := by
  cases h with
  | running taken m h => exact h.correct
  | finished m h => exact h.correct
  | stopped m r h => exact h.correct

end Feed

/-- **Correctness under every schedule and every downstream.** For any number of inputs, no order of
their calls makes the operator fail, and after any number of calls the operator has done what
`Feed.Correct` says. -/
theorem unionAll_correct {n : Nat} (records : Fin n → List Record)
    (answer : List (Option Record) → Bool) (schedule : List (Fin n)) :
    ∃ f, (Feed.start records).run answer schedule = .ok f ∧ Feed.Correct answer records f := by
  obtain ⟨f, hrun, hinv⟩ := (@Feed.inv_start n answer records).run schedule
  exact ⟨f, hrun, hinv.correct⟩

end UnionAll

end Lsql.Phys
