import Lsql.Core.ValueHash
import Lsql.Exec.Clone
import Lsql.Flow.Feed
import Lsql.Phys.Ops

/-!
# Lsql.Phys.LeftJoin

The two halves of a left join, one after the other (`back/exec/phys/ops/HashLeftJoin.h`).

The build half keeps the right records under their keys. What it promises of its table is what a lookup
finds: the right records with an equal key, in the order in which they came (`Table`). The probe half
then makes of each left record one record for each match, or one without a right side.
-/

namespace Lsql.Phys

open Lsql.Exec Flow
open Flow.Prog (feed stateless streamOf)

/-- Whether a record has a key that is equal to a value. -/
def keyIs (key : Scalar) (v : Value) (record : Record) : Bool :=
  match evalKey key record with
  | .ok w => v.equal w
  | .error _ => false

/-- The records with a given key; null matches nothing. -/
def matching (key : Scalar) (records : List Record) (v : Value) : List Record :=
  if v.isNull then [] else records.filter (keyIs key v)

/-! ### The table -/

/-- `rows.find(key)` on a hash map: the rows of an equal key among those with its hash. -/
def findRowsHashed [StdHash] (rows : List (Value × List Record)) (key : Value) :
    Option (List Record) :=
  (rows.find? fun row => key.hash == row.1.hash && key.equal row.1).map Prod.snd

/-- The hash hides no equal key. -/
theorem findRowsHashed_eq [StdHash] (rows : List (Value × List Record)) (key : Value) :
    findRowsHashed rows key = findRows rows key := by
  have hsame : (fun row : Value × List Record => key.hash == row.1.hash && key.equal row.1) =
      fun row => key.equal row.1 := by
    funext row
    cases heq : key.equal row.1 with
    | true => simp [Value.hash_eq_of_equal heq]
    | false => simp
  rw [findRowsHashed, hsame]
  rfl

/-- What a lookup in the table finds. -/
def Table (key : Scalar) (seen : List Record) (rows : List (Value × List Record)) : Prop :=
  ∀ v, findRows rows v =
    if (matching key seen v).isEmpty then none else some (matching key seen v)

theorem table_nil (key : Scalar) : Table key [] [] := by
  intro v
  rw [matching]
  split <;> rfl

/-- Appending to the rows of a key, seen from another key. -/
theorem findRows_pushRow (rows : List (Value × List Record)) (key v : Value) (record : Record) :
    findRows (pushRow rows key record) v =
      if v.equal key then some ((findRows rows v).getD [] ++ [record]) else findRows rows v := by
  have hsame : ∀ w : Value, v.equal key = true → (v.equal w = true ↔ key.equal w = true) := by
    intro w hvk
    exact ⟨fun hvw => Value.equal_trans ((Value.equal_symm _ _).trans hvk) hvw,
      fun hkw => Value.equal_trans hvk hkw⟩
  unfold pushRow
  split
  next hany =>
    -- the key has rows: they are the only ones that change
    obtain ⟨row, hrow, hkeyRow⟩ := List.any_eq_true.mp hany
    have hfind : findRows (rows.map fun row => if key.equal row.1 then (row.1, row.2 ++ [record])
        else row) v = (rows.find? fun row => v.equal row.1).map fun row =>
          if key.equal row.1 then row.2 ++ [record] else row.2 := by
      rw [findRows, List.find?_map, Option.map_map]
      have hpred : ((fun row : Value × List Record => v.equal row.1) ∘ fun row =>
          if key.equal row.1 then (row.1, row.2 ++ [record]) else row) = fun row => v.equal row.1 := by
        funext row
        show v.equal (if key.equal row.1 then (row.1, row.2 ++ [record]) else row).1 = _
        split <;> rfl
      rw [hpred]
      congr
      funext row
      show (if key.equal row.1 then (row.1, row.2 ++ [record]) else row).2 = _
      split <;> rfl
    rw [hfind, findRows]
    cases hv : v.equal key with
    | true =>
        cases hfound : rows.find? fun row => v.equal row.1 with
        | none =>
            have hnone := List.find?_eq_none.mp hfound row hrow
            exact absurd ((hsame row.1 hv).mpr hkeyRow) hnone
        | some found =>
            have hkey := (hsame found.1 hv).mp (List.find?_some (p := fun row : Value × List Record => v.equal row.1) hfound)
            simp [hkey]
    | false =>
        cases hfound : rows.find? fun row => v.equal row.1 with
        | none => rfl
        | some found =>
            have hvFound : v.equal found.1 = true :=
              List.find?_some (p := fun row : Value × List Record => v.equal row.1) hfound
            have hkey : key.equal found.1 = false := by
              rw [← hv]
              cases hkf : key.equal found.1 with
              | false => rw [hv]
              | true =>
                  exact (Value.equal_trans hvFound ((Value.equal_symm _ _).trans hkf)).symm
            simp [hkey]
  next hany =>
    rw [findRows, List.find?_append]
    cases hv : v.equal key with
    | true =>
        have hnone : rows.find? (fun row => v.equal row.1) = none := by
          refine List.find?_eq_none.mpr fun row hrow hvRow => hany ?_
          exact List.any_eq_true.mpr ⟨row, hrow, (hsame row.1 hv).mp hvRow⟩
        simp [findRows, hnone, hv]
    | false => simp [findRows, hv]

theorem isNull_of_equal {v w : Value} (h : v.equal w = true) : v.isNull = w.isNull := by
  cases v <;> cases w <;> first | rfl | cases h

section Push

variable {key : Scalar} {seen : List Record} {rows : List (Value × List Record)} {record : Record}
  {w : Value}

theorem matching_concat (hkey : evalKey key record = .ok w) (v : Value) :
    matching key (seen ++ [record]) v =
      matching key seen v ++ if !v.isNull && v.equal w then [record] else [] := by
  have his : keyIs key v record = v.equal w := by rw [keyIs, hkey]
  unfold matching
  rw [List.filter_append]
  cases v.isNull <;> cases hv : v.equal w <;> simp [his, hv]

/-- **One more right record.** -/
theorem Table.push (h : Table key seen rows) (hkey : evalKey key record = .ok w)
    (hw : w.isNull = false) : Table key (seen ++ [record]) (pushRow rows w record) := by
  intro v
  rw [findRows_pushRow, h v, matching_concat hkey]
  cases hv : v.equal w with
  | false => simp
  | true =>
      have hnull : v.isNull = false := (isNull_of_equal hv).trans hw
      rw [hnull, if_pos rfl]
      cases matching key seen v <;> simp

/-- A right record with a null key is left out. -/
theorem Table.skip (h : Table key seen rows) (hkey : evalKey key record = .ok w)
    (hw : w.isNull = true) : Table key (seen ++ [record]) rows := by
  intro v
  rw [h v, matching_concat hkey]
  cases hv : v.equal w with
  | false => simp
  | true => simp [(isNull_of_equal hv).trans hw]

end Push

theorem isNull_eq_type (v : Value) : v.isNull = (v.type == .null) := by
  cases v <;> rfl

/-! ### Build -/

namespace HashLeftJoinBuild

variable {accept : List (Option Record) → Bool} {key : Scalar} {rows : List (Value × List Record)}
  {record : Record} {v : Value} {d : Prog.Downstream Record}

theorem run_null (hkey : evalKey key record = .ok v) (hv : v.isNull = true) :
    Prog.run accept (consume key (some record)) (.leftJoin rows) d = .ok (true, .leftJoin rows, d) := by
  rw [isNull_eq_type, beq_iff_eq] at hv
  simp only [consume, hkey, Prog.lift_ok, Prog.done_bind, hv]
  rfl

theorem run_record (hkey : evalKey key record = .ok v) (hv : v.isNull = false) :
    Prog.run accept (consume key (some record)) (.leftJoin rows) d =
      .ok (true, .leftJoin (pushRow rows v record), d) := by
  rw [isNull_eq_type, beq_eq_false_iff_ne] at hv
  simp only [consume, hkey, Prog.lift_ok, Prog.done_bind, ne_eq, hv, not_false_eq_true, if_true]
  rfl

theorem run_error {e : Fault} (hkey : evalKey key record = .error e) (c : Cell) :
    Prog.run accept (consume key (some record)) c d = .error e := by
  simp only [consume, hkey]
  rfl

/-- The build half on the whole right side leaves the table, and emits nothing. -/
theorem feed_eq (accept : List (Option Record) → Bool) (key : Scalar) (rights : List Record)
    (d : Prog.Downstream Record) :
    (∃ r ∈ rights, ∃ e, evalKey key r = .error e ∧
      feed accept (stateless (consume key)) (streamOf rights) () (.leftJoin []) d = .error e) ∨
    ∃ rows r, Table key rights rows ∧
      feed accept (stateless (consume key)) (streamOf rights) () (.leftJoin []) d =
        .ok (r, .leftJoin rows, d) := by
  have hfeed : (∃ r ∈ rights, ∃ e, evalKey key r = .error e ∧ ∀ more,
        feed accept (stateless (consume key)) ((rights.map id).map some ++ more) () (.leftJoin []) d =
          .error e) ∨
      ∃ s' c', feed accept (stateless (consume key)) ((rights.map id).map some) () (.leftJoin []) d =
          .ok ((s', true), c', d) ∧ ∃ rows, c' = Cell.leftJoin rows ∧ Table key rights rows := by
    refine Prog.feed_collect_or_fail (fun r e => evalKey key r = .error e)
      (I := fun front _ c => ∃ rows, c = Cell.leftJoin rows ∧ Table key front rows)
      ⟨[], rfl, table_nil key⟩ ?_
    intro front record s c hpre hfront
    obtain ⟨rows, rfl, hrows⟩ := hfront
    cases hkey : evalKey key record with
    | error e =>
        refine .inl ⟨e, rfl, ?_⟩
        rw [id, stateless, Prog.run_bind, run_error hkey]
        rfl
    | ok w =>
        refine .inr ?_
        cases hw : w.isNull with
        | true =>
            exact ⟨(), _, Prog.run_stateless (run_null hkey hw), rows, rfl, hrows.skip hkey hw⟩
        | false =>
            exact ⟨(), _, Prog.run_stateless (run_record hkey hw), _, rfl, hrows.push hkey hw⟩
  rw [List.map_id] at hfeed
  obtain ⟨r, hr, e, he, hfeed⟩ | ⟨s', c', hfeed, rows, rfl, hrows⟩ := hfeed
  · exact .inl ⟨r, hr, e, he, hfeed [none]⟩
  · exact .inr ⟨rows, _, hrows, Prog.feed_absorb_end hfeed (Prog.run_stateless rfl)⟩

end HashLeftJoinBuild

/-! ### Probe -/

/-- The record of a left record and a right one, or no right one. -/
def joined (left : Record) (right : Option Record) (leftColumns : Nat) : Record :=
  match right with
  | some right => .leftJoin left right leftColumns
  | none => .leftJoinNull left leftColumns

/-- What a left record is joined to: every right record with an equal key, or nothing. -/
def joinRows (leftKey rightKey : Scalar) (leftColumns : Nat) (rights : List Record) (left : Record) :
    List Record :=
  match evalKey leftKey left with
  | .error _ => []
  | .ok v =>
    if (matching rightKey rights v).isEmpty then [joined left none leftColumns]
    else (matching rightKey rights v).map fun right => joined left (some right) leftColumns

theorem joinRows_ok {leftKey rightKey : Scalar} {left : Record} {v : Value}
    (hkey : evalKey leftKey left = .ok v) (leftColumns : Nat) (rights : List Record) :
    joinRows leftKey rightKey leftColumns rights left =
      if (matching rightKey rights v).isEmpty then [joined left none leftColumns]
      else (matching rightKey rights v).map fun right => joined left (some right) leftColumns := by
  rw [joinRows, hkey]

namespace HashLeftJoinProbe

variable {accept : List (Option Record) → Bool} {key rightKey : Scalar} {leftColumns : Nat}
  {rights : List Record} {rows : List (Value × List Record)} {left : Record} {v : Value}
  {d : Prog.Downstream Record}

theorem run_found (hkey : evalKey key left = .ok v) {found : Option (List Record)}
    (hfound : findRows rows v = found) :
    Prog.run accept (consume key leftColumns (some left)) (.leftJoin rows) d =
      Prog.run accept (match found with
        | none => Prog.send (some (.leftJoinNull left leftColumns))
        | some matching =>
          if v.type = .null then Prog.send (some (.leftJoinNull left leftColumns))
          else Prog.sendAll ((matching.map fun right => .leftJoin left right leftColumns).map some))
        (.leftJoin rows) d := by
  subst hfound
  simp only [consume, hkey, Prog.lift_ok, Prog.done_bind]
  rfl

theorem run_error {e : Fault} (hkey : evalKey key left = .error e) (c : Cell) :
    Prog.run accept (consume key leftColumns (some left)) c d = .error e := by
  simp only [consume, hkey]
  rfl

/-- **One left record.** -/
theorem run_record (hrows : Table rightKey rights rows) (hkey : evalKey key left = .ok v) :
    Prog.run accept (consume key leftColumns (some left)) (.leftJoin rows) d =
      .ok ((d.sendAll accept ((joinRows key rightKey leftColumns rights left).map some)).active,
        .leftJoin rows,
        d.sendAll accept ((joinRows key rightKey leftColumns rights left).map some)) := by
  have hfound := hrows v
  rw [joinRows_ok hkey]
  cases hmatching : matching rightKey rights v with
  | nil =>
      rw [hmatching] at hfound
      rw [run_found hkey hfound]
      rfl
  | cons right more =>
      rw [hmatching] at hfound
      -- a null key has no matches, whatever the table says
      have htype : v.type ≠ .null := by
        intro htype
        have hnull : v.isNull = true := (isNull_eq_type v).trans (beq_iff_eq.mpr htype)
        rw [matching, if_pos hnull] at hmatching
        cases hmatching
      rw [run_found hkey hfound]
      show Prog.run accept (if v.type = .null then _ else _) _ d = _
      rw [if_neg htype]
      exact Prog.run_sendAll accept _ _ d

/-- The probe half on the whole left side. -/
theorem feed_eq (accept : List (Option Record) → Bool) (key : Scalar) (leftColumns : Nat)
    (hrows : Table rightKey rights rows) (lefts : List Record) (hactive : d.active = true) :
    (∃ l ∈ lefts, ∃ e, evalKey key l = .error e ∧
      feed accept (stateless (consume key leftColumns)) (streamOf lefts) () (.leftJoin rows) d =
        .error e) ∨
    ∃ r, feed accept (stateless (consume key leftColumns)) (streamOf lefts) () (.leftJoin rows) d =
      .ok (r, .leftJoin rows,
        d.sendAll accept (streamOf (lefts.flatMap (joinRows key rightKey leftColumns rights)))) := by
  have hend : ∀ (s : Unit) (d : Prog.Downstream Record), ∃ r,
      Prog.run accept (stateless (consume key leftColumns) s none) (.leftJoin rows) d =
        .ok (r, .leftJoin rows, d.send accept none) :=
    fun s d => ⟨((), (d.send accept none).active), Prog.run_stateless rfl⟩
  have hfeed : (∃ l ∈ lefts, ∃ e, evalKey key l = .error e ∧
        feed accept (stateless (consume key leftColumns)) (streamOf (lefts.map id)) ()
          (.leftJoin rows) d = .error e) ∨
      ∃ r, feed accept (stateless (consume key leftColumns)) (streamOf (lefts.map id)) ()
          (.leftJoin rows) d = .ok (r, .leftJoin rows, d.sendAll accept
            (streamOf (lefts.flatMap (joinRows key rightKey leftColumns rights)))) := by
    refine Prog.feed_expand_or_fail (fun l e => evalKey key l = .error e) (I := fun _ => True)
      (fun l _ s d _ hd => ?_) hend trivial hactive
    cases hkey : evalKey key l with
    | error e =>
        refine .inl ⟨e, rfl, ?_⟩
        rw [id, stateless, Prog.run_bind, run_error hkey]
        rfl
    | ok v => exact .inr ⟨(), trivial, Prog.run_stateless (run_record hrows hkey)⟩
  rwa [List.map_id] at hfeed

end HashLeftJoinProbe

/-! ### The slots of a joined record -/

/-- The record for the duration of the call in which it is emitted. -/
def emittedJoined (left : Emitted) (right : Option Record) (leftColumns : Nat) : Emitted :=
  match right with
  | some right => .leftJoin left right leftColumns
  | none => .leftJoinNull left leftColumns

/-- The value in a slot of the right side: null if there is none. -/
def rightValue (right : Option Record) (slot : Nat) : Except Fault Value :=
  match right with
  | some right => right.get slot
  | none => .ok .null

theorem clone_emittedJoined (left : Emitted) (right : Option Record) (n : Nat) :
    (emittedJoined left right n).clone = joined left.clone right n := by
  cases right <;> rfl

theorem get_joined (left : Record) (right : Option Record) (n slot : Nat) :
    (joined left right n).get slot =
      if slot < n then left.get slot else rightValue right (slot - n) := by
  cases right <;> rfl

/-- A joined record has the fields of both sides in their slots, during the call and in its clone. -/
structure ReadsThrough (ls rs out : Schema) (left : Emitted) (right : Option Record) : Prop where
  clone : (emittedJoined left right ls.columns).clone = joined left.clone right ls.columns
  left_slot : ∀ {id i}, ls.slot id = some i → out.slot id = some i
  left_value : ∀ {id i}, ls.slot id = some i →
    (emittedJoined left right ls.columns).get i = left.get i ∧
      (emittedJoined left right ls.columns).clone.get i = left.get i
  right_slot : ∀ {id i}, rs.slot id = some i → out.slot id = some (ls.columns + i)
  right_value : ∀ {id i}, rs.slot id = some i →
    (emittedJoined left right ls.columns).get (ls.columns + i) = rightValue right i ∧
      (emittedJoined left right ls.columns).clone.get (ls.columns + i) = rightValue right i

theorem readsThrough {ls rs out : Schema} (hout : ls.concat rs = .ok out) (left : Emitted)
    (right : Option Record) : ReadsThrough ls rs out left right := by
  have hfields : out.fields = ls.fields ++ rs.fields := Schema.appendAll_eq_ok.mp hout
  have hlt : ∀ {id i}, ls.slot id = some i → i < ls.columns := by
    intro id i hi
    exact (List.getElem?_eq_some_iff.mp (Schema.slot_eq_some.mp hi)).1
  refine ⟨clone_emittedJoined left right _, ?_, ?_, ?_, ?_⟩
  · intro id i hi
    rw [Schema.slot_eq_some, hfields, List.getElem?_append_left (hlt hi)]
    exact Schema.slot_eq_some.mp hi
  · intro id i hi
    rw [Emitted.get_clone, and_self, ← Emitted.get_clone, clone_emittedJoined, get_joined,
      if_pos (hlt hi), Emitted.get_clone]
  · intro id i hi
    rw [Schema.slot_eq_some, hfields, Schema.columns,
      List.getElem?_append_right (Nat.le_add_right _ _), Nat.add_sub_cancel_left]
    exact Schema.slot_eq_some.mp hi
  · intro id i hi
    rw [Emitted.get_clone, and_self, ← Emitted.get_clone, clone_emittedJoined, get_joined,
      if_neg (Nat.not_lt.mpr (Nat.le_add_right _ _)), Nat.add_sub_cancel_left]

/-! ### The join -/

/-- **A left join.** The build half leaves a table in which the hash hides no row; the probe half then
emits what each left record is joined to, in order and up to the first refusal, in records from which
the fields of both sides can be read. Only a key that cannot be evaluated ends a run otherwise. -/
def JoinsLeft (accept : List (Option Record) → Bool) (leftKey rightKey : Scalar) (ls rs out : Schema)
    (lefts rights : List Record) : Prop :=
  (∀ left right, ReadsThrough ls rs out left right) ∧
  ((∃ r ∈ rights, ∃ e, evalKey rightKey r = .error e ∧
      feed accept (stateless (HashLeftJoinBuild.consume rightKey)) (streamOf rights) ()
        (.leftJoin []) .fresh = .error e) ∨
    ∃ rows answer,
      feed accept (stateless (HashLeftJoinBuild.consume rightKey)) (streamOf rights) ()
        (.leftJoin []) .fresh = .ok (answer, .leftJoin rows, .fresh) ∧
      (∀ (hashes : StdHash) (v : Value), @findRowsHashed hashes rows v = findRows rows v) ∧
      ((∃ l ∈ lefts, ∃ e, evalKey leftKey l = .error e ∧
          feed accept (stateless (HashLeftJoinProbe.consume leftKey ls.columns)) (streamOf lefts) ()
            (.leftJoin rows) .fresh = .error e) ∨
        ∃ answer d,
          feed accept (stateless (HashLeftJoinProbe.consume leftKey ls.columns)) (streamOf lefts) ()
            (.leftJoin rows) .fresh = .ok (answer, .leftJoin rows, d) ∧
          Prog.Sent accept
            (streamOf (lefts.flatMap (joinRows leftKey rightKey ls.columns rights))) d))

/-- A left join of any records on any keys, against any downstream. -/
theorem leftJoin_joins (accept : List (Option Record) → Bool) (leftKey rightKey : Scalar)
    {ls rs out : Schema} (hout : ls.concat rs = .ok out) (lefts rights : List Record) :
    JoinsLeft accept leftKey rightKey ls rs out lefts rights := by
  refine ⟨readsThrough hout, ?_⟩
  obtain hfail | ⟨rows, answer, htable, hbuild⟩ :=
    HashLeftJoinBuild.feed_eq accept rightKey rights .fresh
  · exact .inl hfail
  · refine .inr ⟨rows, answer, hbuild, fun hashes v => @findRowsHashed_eq hashes rows v, ?_⟩
    obtain hfail | ⟨answer', hprobe⟩ :=
      HashLeftJoinProbe.feed_eq accept leftKey ls.columns htable lefts (d := .fresh) rfl
    · exact .inl hfail
    · exact .inr ⟨answer', _, hprobe, Prog.sent_sendAll accept _⟩

/-- Two columns on the left and one on the right, with a null key on both sides, a key with two matches
and a downstream that stops in the middle of them. -/
theorem leftJoin_joins_someKeys :
    JoinsLeft (fun items => items.length < 3) (.identifier 0 1 .integer) (.identifier 0 3 .integer)
      ⟨[1, 2], by decide⟩ ⟨[3], by decide⟩ ⟨[1, 2, 3], by decide⟩
      [.vec [.null, .integer 7], .vec [.integer 1, .integer 8], .vec [.integer 5, .integer 9]]
      [.vec [.integer 1], .vec [.null], .vec [.integer 1]] :=
  leftJoin_joins _ _ _ rfl _ _

end Lsql.Phys
