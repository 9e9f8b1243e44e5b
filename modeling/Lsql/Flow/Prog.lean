import Mathlib.Data.List.Basic

/-!
# Lsql.Flow.Prog

The bodies of stream operators.

An operator of a push-based stream network is called with an item, an optional record where `none`
is the end of the stream, and while it runs it may emit items to the subscribers that it still has,
ask whether it has any left, and read or write a memory cell that it shares with other operators.
`Prog` is the tree of these interactions. It says nothing of who the subscribers are, so one body
can be read against a single downstream (`Prog.run`), against every possible downstream
(`Prog.Meets`), or inside a network (`Lsql.Flow.Net`).
-/

namespace Flow

/-- A body that fails with an `ε`, shares a cell of type `η`, emits records of type `ρ` and returns
an `α`. -/
inductive Prog (ε η ρ : Type) (α : Type) : Type
  | done (a : α)
  | fail (e : ε)
  /-- Is there a subscriber left? -/
  | active (k : Bool → Prog ε η ρ α)
  /-- Send an item to the subscribers; `k` learns whether one is left. -/
  | emit (item : Option ρ) (k : Bool → Prog ε η ρ α)
  | load (k : η → Prog ε η ρ α)
  | store (c : η) (k : Prog ε η ρ α)

namespace Prog

variable {ε η ρ α β γ : Type}

def bind : Prog ε η ρ α → (α → Prog ε η ρ β) → Prog ε η ρ β
  | done a, f => f a
  | fail e, _ => fail e
  | active k, f => active fun b => (k b).bind f
  | emit r k, f => emit r fun b => (k b).bind f
  | load k, f => load fun c => (k c).bind f
  | store c k, f => store c (k.bind f)

instance : Monad (Prog ε η ρ) where
  pure := done
  bind := bind

@[simp] theorem pure_def (a : α) : (pure a : Prog ε η ρ α) = done a := rfl

@[simp] theorem done_bind (a : α) (f : α → Prog ε η ρ β) : (done a >>= f) = f a := rfl

@[simp] theorem fail_bind (e : ε) (f : α → Prog ε η ρ β) :
    ((fail e : Prog ε η ρ α) >>= f) = fail e := rfl

@[simp] theorem active_bind (k : Bool → Prog ε η ρ α) (f : α → Prog ε η ρ β) :
    (active k >>= f) = active fun b => k b >>= f := rfl

@[simp] theorem emit_bind (r : Option ρ) (k : Bool → Prog ε η ρ α) (f : α → Prog ε η ρ β) :
    (emit r k >>= f) = emit r fun b => k b >>= f := rfl

@[simp] theorem load_bind (k : η → Prog ε η ρ α) (f : α → Prog ε η ρ β) :
    (load k >>= f) = load fun c => k c >>= f := rfl

@[simp] theorem store_bind (c : η) (k : Prog ε η ρ α) (f : α → Prog ε η ρ β) :
    (store c k >>= f) = store c (k >>= f) := rfl

theorem bind_pure' (p : Prog ε η ρ α) : (p >>= done) = p := by
  induction p with
  | done a => rfl
  | fail e => rfl
  | active k ih => simp [ih]
  | emit r k ih => simp [ih]
  | load k ih => simp [ih]
  | store c k ih => simp [ih]

theorem bind_assoc' (p : Prog ε η ρ α) (f : α → Prog ε η ρ β) (g : β → Prog ε η ρ γ) :
    (p >>= f >>= g) = p >>= fun a => f a >>= g := by
  induction p with
  | done a => rfl
  | fail e => rfl
  | active k ih => simp [ih]
  | emit r k ih => simp [ih]
  | load k ih => simp [ih]
  | store c k ih => simp [ih]

/-! ### The interactions, as statements -/

/-- `active()`. -/
def isActive : Prog ε η ρ Bool := active done

/-- `emit(item)`. -/
def send (item : Option ρ) : Prog ε η ρ Bool := emit item done

def read : Prog ε η ρ η := load done

def write (c : η) : Prog ε η ρ Unit := store c (done ())

/-- A computation that interacts with nothing. -/
def lift : Except ε α → Prog ε η ρ α
  | .ok a => done a
  | .error e => fail e

@[simp] theorem lift_ok (a : α) : (lift (.ok a) : Prog ε η ρ α) = done a := rfl

@[simp] theorem lift_error (e : ε) : (lift (.error e) : Prog ε η ρ α) = fail e := rfl

@[simp] theorem isActive_bind (f : Bool → Prog ε η ρ β) : (isActive >>= f) = active f := rfl

@[simp] theorem send_bind (item : Option ρ) (f : Bool → Prog ε η ρ β) :
    (send item >>= f) = emit item f := rfl

@[simp] theorem read_bind (f : η → Prog ε η ρ β) : (read >>= f) = load f := rfl

@[simp] theorem write_bind (c : η) (f : Unit → Prog ε η ρ β) :
    (write c >>= f) = store c (f ()) := rfl

/-- `for item in items: if !emit(item) break`: whether the loop ran to its end. -/
def sendAll : List (Option ρ) → Prog ε η ρ Bool
  | [] => done true
  | item :: items => emit item fun cont => if cont then sendAll items else done false

@[simp] theorem sendAll_nil : (sendAll [] : Prog ε η ρ Bool) = done true := rfl

/-! ### One downstream

A single downstream accepts items until it refuses one. Whether it accepts an item may depend on
everything that it was sent so far. -/

/-- What a downstream has been sent, and whether it still accepts. -/
structure Downstream (ρ : Type) where
  active : Bool
  out : List (Option ρ)

namespace Downstream

/-- A downstream that has been sent nothing. -/
def fresh : Downstream ρ := { active := true, out := [] }

/-- Sending an item; a downstream that has refused is sent nothing. -/
def send (accept : List (Option ρ) → Bool) (item : Option ρ) (d : Downstream ρ) : Downstream ρ :=
  if d.active then { active := accept (d.out ++ [item]), out := d.out ++ [item] } else d

theorem send_of_active {accept : List (Option ρ) → Bool} {item : Option ρ} {d : Downstream ρ}
    (h : d.active = true) :
    d.send accept item = { active := accept (d.out ++ [item]), out := d.out ++ [item] } := by
  simp [send, h]

theorem send_of_not_active {accept : List (Option ρ) → Bool} {item : Option ρ} {d : Downstream ρ}
    (h : d.active = false) : d.send accept item = d := by
  simp [send, h]

/-- Sending items until one is refused. -/
def sendAll (accept : List (Option ρ) → Bool) : List (Option ρ) → Downstream ρ → Downstream ρ
  | [], d => d
  | item :: items, d => sendAll accept items (d.send accept item)

@[simp] theorem sendAll_nil (accept : List (Option ρ) → Bool) (d : Downstream ρ) :
    sendAll accept [] d = d := rfl

theorem sendAll_of_not_active {accept : List (Option ρ) → Bool} {d : Downstream ρ}
    (h : d.active = false) (items : List (Option ρ)) : d.sendAll accept items = d := by
  induction items with
  | nil => rfl
  | cons item items ih => rw [sendAll, send_of_not_active h, ih]

theorem sendAll_append (accept : List (Option ρ) → Bool) (as bs : List (Option ρ))
    (d : Downstream ρ) : d.sendAll accept (as ++ bs) = (d.sendAll accept as).sendAll accept bs := by
  induction as generalizing d with
  | nil => rfl
  | cons a as ih => simp only [List.cons_append, sendAll, ih]

/-- What a downstream has been sent grows by a prefix of the items, and by all of them if it
accepted every one. -/
theorem sendAll_out (accept : List (Option ρ) → Bool) (items : List (Option ρ))
    (d : Downstream ρ) : ∃ sent, sent <+: items ∧ (d.sendAll accept items).out = d.out ++ sent ∧
      ((d.sendAll accept items).active = true → sent = items) := by
  induction items generalizing d with
  | nil => exact ⟨[], List.nil_prefix, by simp, fun _ => rfl⟩
  | cons item items ih =>
      by_cases hd : d.active = true
      · obtain ⟨sent, hpre, hout, hall⟩ := ih (d.send accept item)
        refine ⟨item :: sent, by simpa using hpre, ?_, fun h => ?_⟩
        · rw [sendAll, hout, send_of_active hd]
          simp
        · rw [hall h]
      · have hd : d.active = false := by simpa using hd
        rw [sendAll_of_not_active hd]
        exact ⟨[], List.nil_prefix, by simp, fun h => by simp [hd] at h⟩

end Downstream

/-- Running a body against one downstream, with the cell that it shares. -/
def run (accept : List (Option ρ) → Bool) :
    Prog ε η ρ α → η → Downstream ρ → Except ε (α × η × Downstream ρ)
  | done a, c, d => .ok (a, c, d)
  | fail e, _, _ => .error e
  | active k, c, d => run accept (k d.active) c d
  | emit r k, c, d => run accept (k (d.send accept r).active) c (d.send accept r)
  | load k, c, d => run accept (k c) c d
  | store c k, _, d => run accept k c d

section Run

variable (accept : List (Option ρ) → Bool)

@[simp] theorem run_done (a : α) (c : η) (d : Downstream ρ) :
    run accept (done a : Prog ε η ρ α) c d = .ok (a, c, d) := rfl

@[simp] theorem run_fail (e : ε) (c : η) (d : Downstream ρ) :
    run accept (fail e : Prog ε η ρ α) c d = .error e := rfl

@[simp] theorem run_active (k : Bool → Prog ε η ρ α) (c : η) (d : Downstream ρ) :
    run accept (active k) c d = run accept (k d.active) c d := rfl

@[simp] theorem run_emit (r : Option ρ) (k : Bool → Prog ε η ρ α) (c : η) (d : Downstream ρ) :
    run accept (emit r k) c d =
      run accept (k (d.send accept r).active) c (d.send accept r) := rfl

@[simp] theorem run_load (k : η → Prog ε η ρ α) (c : η) (d : Downstream ρ) :
    run accept (load k) c d = run accept (k c) c d := rfl

@[simp] theorem run_store (c' : η) (k : Prog ε η ρ α) (c : η) (d : Downstream ρ) :
    run accept (store c' k) c d = run accept k c' d := rfl

theorem run_bind (p : Prog ε η ρ α) (f : α → Prog ε η ρ β) (c : η) (d : Downstream ρ) :
    run accept (p >>= f) c d =
      (run accept p c d).bind fun (a, c, d) => run accept (f a) c d := by
  induction p generalizing c d with
  | done a => rfl
  | fail e => rfl
  | active k ih => exact ih _ _ _
  | emit r k ih => exact ih _ _ _
  | load k ih => exact ih _ _ _
  | store c' k ih => exact ih _ _

end Run

theorem run_bind_ok {accept : List (Option ρ) → Bool} {p : Prog ε η ρ α}
    {f : α → Prog ε η ρ β} {c c' : η} {d d' : Downstream ρ} {a : α}
    (h : run accept p c d = .ok (a, c', d')) :
    run accept (p >>= f) c d = run accept (f a) c' d' := by
  rw [run_bind, h]
  rfl

/-- Running a body against a downstream that answers every call, also those that come after one it
refused: `sent` is all that the body emits. To be asked whether it is active is to be asked what it
made of the items so far. -/
def runAll (answer : List (Option ρ) → Bool) :
    Prog ε η ρ α → η → List (Option ρ) → Except ε (α × η × List (Option ρ))
  | done a, c, sent => .ok (a, c, sent)
  | fail e, _, _ => .error e
  | active k, c, sent => runAll answer (k (answer sent)) c sent
  | emit r k, c, sent => runAll answer (k (answer (sent ++ [r]))) c (sent ++ [r])
  | load k, c, sent => runAll answer (k c) c sent
  | store c k, _, sent => runAll answer k c sent

/-- A downstream accepts if it was sent nothing, or by what it made of the last item. -/
def Downstream.Consistent (accept : List (Option ρ) → Bool) (d : Downstream ρ) : Prop :=
  d.out ≠ [] → d.active = accept d.out

theorem Downstream.consistent_fresh (accept : List (Option ρ) → Bool) :
    (fresh : Downstream ρ).Consistent accept := fun h => absurd rfl h

theorem Downstream.Consistent.send {accept : List (Option ρ) → Bool} {d : Downstream ρ}
    (h : d.Consistent accept) (item : Option ρ) : (d.send accept item).Consistent accept := by
  cases hact : d.active with
  | true =>
      rw [send_of_active hact]
      exact fun _ => rfl
  | false => rwa [send_of_not_active hact]

theorem run_consistent {accept : List (Option ρ) → Bool} {p : Prog ε η ρ α} {a : α} {c c' : η}
    {d d' : Downstream ρ} (h : run accept p c d = .ok (a, c', d')) (hd : d.Consistent accept) :
    d'.Consistent accept := by
  induction p generalizing c d with
  | done b =>
      cases h
      exact hd
  | fail e => cases h
  | active k ih => exact ih _ h hd
  | emit r k ih => exact ih _ h (hd.send r)
  | load k ih => exact ih _ h hd
  | store c'' k ih => exact ih h hd

/-! ### Every downstream

`Meets` quantifies over what a body can learn from its surroundings. A downstream that has refused
an item does not come back, and an item that ends the stream leaves no subscriber. The cell is fixed
between the body's own writes if the body owns it; else it holds anything at every read and at the
end, and the body may not write it. -/

/-- A downstream after an item, by what it answered. -/
def Downstream.after (d : Downstream ρ) (item : Option ρ) (act : Bool) : Downstream ρ :=
  { active := act, out := if d.active then d.out ++ [item] else d.out }

@[simp] theorem Downstream.after_active (d : Downstream ρ) (item : Option ρ) (act : Bool) :
    (d.after item act).active = act := rfl

theorem Downstream.after_out {d : Downstream ρ} (h : d.active = true) (item : Option ρ)
    (act : Bool) : (d.after item act).out = d.out ++ [item] := by
  simp [after, h]

/-- Whether every way of running the body from a downstream `d` and a cell `c` ends in a state that
satisfies `Q`. -/
def Meets (owner : Bool) (Q : α → Downstream ρ → η → Prop) :
    Prog ε η ρ α → Downstream ρ → η → Prop
  | done a, d, c => ∀ c', (owner = true → c' = c) → Q a d c'
  | fail _, _, _ => True
  | active k, d, c => Meets owner Q (k d.active) d c
  | emit (some r) k, d, c =>
    ∀ act, (act = true → d.active = true) → Meets owner Q (k act) (d.after (some r) act) c
  | emit none k, d, c => Meets owner Q (k false) (d.after none false) c
  | load k, d, c => ∀ c', (owner = true → c' = c) → Meets owner Q (k c') d c
  | store c' k, d, _ => owner = true ∧ Meets owner Q k d c'

section Meets

variable {owner : Bool} {Q : α → Downstream ρ → η → Prop}

@[simp] theorem meets_done (a : α) (d : Downstream ρ) (c : η) :
    (done a : Prog ε η ρ α).Meets owner Q d c ↔ ∀ c', (owner = true → c' = c) → Q a d c' :=
  Iff.rfl

@[simp] theorem meets_fail (e : ε) (d : Downstream ρ) (c : η) :
    (fail e : Prog ε η ρ α).Meets owner Q d c ↔ True := Iff.rfl

@[simp] theorem meets_active (k : Bool → Prog ε η ρ α) (d : Downstream ρ) (c : η) :
    (active k).Meets owner Q d c ↔ (k d.active).Meets owner Q d c := Iff.rfl

@[simp] theorem meets_emit_some (r : ρ) (k : Bool → Prog ε η ρ α) (d : Downstream ρ) (c : η) :
    (emit (some r) k).Meets owner Q d c ↔ ∀ act, (act = true → d.active = true) →
      (k act).Meets owner Q (d.after (some r) act) c := Iff.rfl

@[simp] theorem meets_emit_none (k : Bool → Prog ε η ρ α) (d : Downstream ρ) (c : η) :
    (emit none k).Meets owner Q d c ↔ (k false).Meets owner Q (d.after none false) c := Iff.rfl

@[simp] theorem meets_load (k : η → Prog ε η ρ α) (d : Downstream ρ) (c : η) :
    (load k).Meets owner Q d c ↔ ∀ c', (owner = true → c' = c) → (k c').Meets owner Q d c :=
  Iff.rfl

@[simp] theorem meets_store (c' : η) (k : Prog ε η ρ α) (d : Downstream ρ) (c : η) :
    (store c' k).Meets owner Q d c ↔ owner = true ∧ k.Meets owner Q d c' := Iff.rfl

@[simp] theorem meets_isActive {Q : Bool → Downstream ρ → η → Prop} (d : Downstream ρ) (c : η) :
    (isActive : Prog ε η ρ Bool).Meets owner Q d c ↔
      ∀ c', (owner = true → c' = c) → Q d.active d c' := Iff.rfl

@[simp] theorem meets_send_some {Q : Bool → Downstream ρ → η → Prop} (r : ρ) (d : Downstream ρ)
    (c : η) : (send (some r) : Prog ε η ρ Bool).Meets owner Q d c ↔
      ∀ act, (act = true → d.active = true) → ∀ c', (owner = true → c' = c) →
        Q act (d.after (some r) act) c' := Iff.rfl

@[simp] theorem meets_send_none {Q : Bool → Downstream ρ → η → Prop} (d : Downstream ρ) (c : η) :
    (send none : Prog ε η ρ Bool).Meets owner Q d c ↔
      ∀ c', (owner = true → c' = c) → Q false (d.after none false) c' := Iff.rfl

@[simp] theorem meets_read {Q : η → Downstream ρ → η → Prop} (d : Downstream ρ) (c : η) :
    (read : Prog ε η ρ η).Meets owner Q d c ↔
      ∀ c', (owner = true → c' = c) → ∀ c'', (owner = true → c'' = c) → Q c' d c'' := Iff.rfl

@[simp] theorem meets_write {Q : Unit → Downstream ρ → η → Prop} (c' : η) (d : Downstream ρ)
    (c : η) : (write c' : Prog ε η ρ Unit).Meets owner Q d c ↔
      owner = true ∧ ∀ c'', (owner = true → c'' = c') → Q () d c'' := Iff.rfl

/-- The rule of consequence. -/
theorem Meets.mono {Q' : α → Downstream ρ → η → Prop} (hQ : ∀ a d c, Q a d c → Q' a d c)
    {p : Prog ε η ρ α} {d : Downstream ρ} {c : η} (h : p.Meets owner Q d c) :
    p.Meets owner Q' d c := by
  induction p generalizing d c with
  | done a => exact fun c' hc => hQ _ _ _ (h c' hc)
  | fail e => trivial
  | active k ih => exact ih _ h
  | emit r k ih =>
      cases r with
      | none => exact ih false h
      | some r => exact fun act hact => ih act (h act hact)
  | load k ih => exact fun c' hc => ih c' (h c' hc)
  | store c' k ih => exact ⟨h.1, ih h.2⟩

/-- A cell that the body does not own may change under it. -/
theorem Meets.cell {p : Prog ε η ρ α} {d : Downstream ρ} {c c' : η} (hc : owner = true → c' = c)
    (h : p.Meets owner Q d c) : p.Meets owner Q d c' := by
  induction p generalizing d c c' with
  | done a => exact fun c'' hc' => h c'' fun ho => (hc' ho).trans (hc ho)
  | fail e => trivial
  | active k ih => exact ih _ hc h
  | emit r k ih =>
      cases r with
      | none => exact ih false hc h
      | some r => exact fun act hact => ih act hc (h act hact)
  | load k ih => exact fun c'' hc' => ih c'' hc (h c'' fun ho => (hc' ho).trans (hc ho))
  | store c'' k ih => exact h

/-- A subscriber that has left does not come back. -/
theorem Meets.active_mono {p : Prog ε η ρ α} {d : Downstream ρ} {c : η}
    (h : p.Meets owner Q d c) :
    p.Meets owner (fun a d' c' => Q a d' c' ∧ (d'.active = true → d.active = true)) d c := by
  induction p generalizing d c with
  | done a => exact fun c' hc => ⟨h c' hc, fun hact => hact⟩
  | fail e => trivial
  | active k ih => exact ih _ h
  | emit r k ih =>
      cases r with
      | none =>
          exact (ih false h).mono fun a d' c' hQ => ⟨hQ.1, fun ha => absurd (hQ.2 ha) (by simp)⟩
      | some r =>
          exact fun act hact => (ih act (h act hact)).mono fun a d' c' hQ =>
            ⟨hQ.1, fun ha => hact (hQ.2 ha)⟩
  | load k ih => exact fun c' hc => ih c' (h c' hc)
  | store c' k ih => exact ⟨h.1, ih h.2⟩

/-- The rule of sequencing. -/
theorem meets_bind {Q : β → Downstream ρ → η → Prop} {f : α → Prog ε η ρ β} {p : Prog ε η ρ α}
    {d : Downstream ρ} {c : η} : (p >>= f).Meets owner Q d c ↔
      p.Meets owner (fun a d c => (f a).Meets owner Q d c) d c := by
  induction p generalizing d c with
  | done a => exact ⟨fun h _ hc => h.cell hc, fun h => h c fun _ => rfl⟩
  | fail e => rfl
  | active k ih => exact ih _
  | emit r k ih =>
      cases r with
      | none => exact ih false
      | some r => exact forall_congr' fun act => forall_congr' fun _ => ih act
  | load k ih => exact forall_congr' fun c' => forall_congr' fun _ => ih c'
  | store c' k ih => exact and_congr_right fun _ => ih

/-- The rule for pure computations. -/
theorem meets_lift {x : Except ε α} {d : Downstream ρ} {c : η} :
    (lift x : Prog ε η ρ α).Meets owner Q d c ↔
      ∀ a, x = .ok a → ∀ c', (owner = true → c' = c) → Q a d c' := by
  cases x with
  | ok a => simp
  | error e => simp

/-- The rule for `sendAll`: it runs to its end, or no subscriber is left. -/
theorem meets_sendAll {Q : Bool → Downstream ρ → η → Prop} {d : Downstream ρ} {c : η}
    (records : List ρ) (hend : ∀ d' c', (owner = true → c' = c) → Q true d' c')
    (hstop : ∀ d' c', d'.active = false → (owner = true → c' = c) → Q false d' c') :
    (sendAll (records.map some) : Prog ε η ρ Bool).Meets owner Q d c := by
  induction records generalizing d with
  | nil => exact fun c' hc => hend d c' hc
  | cons r records ih =>
      intro act _
      cases act with
      | true => exact ih
      | false => exact fun c' hc => hstop _ c' rfl hc

/-- What `sendAll` sends: a first part of the records, and all of them if it runs to its end. -/
theorem meets_sendAll_out {d : Downstream ρ} {c : η} (records : List ρ) :
    (sendAll (records.map some) : Prog ε η ρ Bool).Meets owner
      (fun cont d' _ => d'.out <+: d.out ++ records.map some ∧
        (cont = true → d'.out = d.out ++ records.map some)) d c := by
  induction records generalizing d with
  | nil =>
      intro c' _
      rw [List.map_nil, List.append_nil]
      exact ⟨List.prefix_rfl, fun _ => rfl⟩
  | cons r records ih =>
      intro act hact
      cases act with
      | true =>
          have hrest := @ih (d.after (some r) true)
          rw [Downstream.after_out (hact rfl), List.append_assoc] at hrest
          exact hrest
      | false =>
          intro c' _
          refine ⟨?_, fun h => absurd h Bool.false_ne_true⟩
          show (if d.active then d.out ++ [some r] else d.out) <+: _
          split
          · exact ⟨records.map some, by rw [List.append_assoc]; rfl⟩
          · exact List.prefix_append _ _

end Meets

end Prog

end Flow
