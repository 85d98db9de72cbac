import Litmus.Proofs.Thread.Registers
import Mathlib.Data.List.Intervals

/-!
What a system register may hold from a position of its history on. The value at a position is looked for backwards, from
the position or the end of the history, whichever comes first; the later values are collected forwards, from the position
or the start, whichever comes last. Main fact: the two meet, so that no write is missed and none is met twice. What may be
held is what the register holds at the position and after each later write of it, in order.
-/

namespace Litmus.Thread

variable {t : Thread} {reg : String}

/-! ### The value at one position -/

/-- The last write of a register before a position of a history, looked for backwards. -/
def lastHeld? (reg : String) (history : List SystemWrite) : Nat → Option Reg
  | 0 => none
  | p + 1 =>
    match history[p]? with
    | some w => if w.reg = reg then some w.held else lastHeld? reg history p
    | none => lastHeld? reg history p

theorem getLast?_heldBy_take (history : List SystemWrite) :
    ∀ p, (heldBy reg (history.take p)).getLast? = lastHeld? reg history p
  | 0 => rfl
  | p + 1 => by
    rw [List.take_add_one, heldBy_append, lastHeld?]
    cases history[p]? with
    | none =>
      rw [← getLast?_heldBy_take history p, Option.toList_none]
      exact congrArg List.getLast? (List.append_nil _)
    | some w =>
      rw [Option.toList_some]
      dsimp only
      split
      · next h => simp [heldBy, h]
      · next h =>
        have hnil : heldBy reg [w] = [] := by simp [heldBy, h]
        rw [hnil, List.append_nil, getLast?_heldBy_take history p]

/-- The value at a position is found by going back from it over the history, or else is the initial one. -/
theorem readSystemAt_eq (t : Thread) (reg : String) (position : Int) :
    t.readSystemAt reg position =
      match lastHeld? reg t.history (min position t.history.length).toNat with
      | some r => .ok r
      | none => t.initialReg reg := by
  have htake : t.history.take (min position t.history.length).toNat = t.history.take position.toNat := by
    rcases le_total position t.history.length with h | h
    · rw [min_eq_left h]
    · rw [min_eq_right h, Int.toNat_natCast, List.take_length, List.take_of_length_le (by omega)]
  rw [← getLast?_heldBy_take, htake]
  rfl

/-- Whether the write at a position of the history is one of a register. -/
def WritesAt (t : Thread) (reg : String) (p : Nat) : Prop := t.history[p]?.map SystemWrite.reg = some reg
  deriving Decidable

theorem WritesAt.lt {p : Nat} (h : t.WritesAt reg p) : p < t.history.length := by
  obtain ⟨w, hw, -⟩ := Option.map_eq_some_iff.mp h
  exact (List.getElem?_eq_some_iff.mp hw).1

theorem readSystemAt_of_nonpos {position : Int} (h : position ≤ 0) : t.readSystemAt reg position = t.initialReg reg := by
  rw [readSystemAt, Int.toNat_of_nonpos h]
  rfl

theorem readSystemAt_of_length_le {position : Int} (h : t.history.length ≤ position) :
    t.readSystemAt reg position = t.readSystem reg := by
  rw [readSystem, readSystemAt_eq, readSystemAt_eq, min_eq_right h, min_self]

/-- After a write of the register it holds what was written. -/
theorem readSystemAt_written {p : Nat} (h : t.WritesAt reg p) :
    ∃ r, t.history[p]? = some ⟨reg, r⟩ ∧ t.readSystemAt reg (p + 1) = .ok r := by
  obtain ⟨w, hw, rfl⟩ := Option.map_eq_some_iff.mp h
  refine ⟨w.held, hw, ?_⟩
  have hp := h.lt
  rw [readSystemAt_eq, min_eq_left (by omega), Int.toNat_natCast_add_one, lastHeld?, hw]
  simp

/-- Across anything else it holds what it held. -/
theorem readSystemAt_unwritten {position : Int} (h : ∀ p : Nat, p = position → ¬t.WritesAt reg p) :
    t.readSystemAt reg (position + 1) = t.readSystemAt reg position := by
  rcases Int.lt_or_le position 0 with hneg | hnonneg
  · rw [readSystemAt_of_nonpos (by omega), readSystemAt_of_nonpos (by omega)]
  · obtain ⟨p, rfl⟩ := Int.eq_ofNat_of_zero_le hnonneg
    rcases Nat.lt_or_ge p t.history.length with hp | hp
    · have hreg : t.history[p].reg ≠ reg := fun he =>
        h p rfl (by rw [WritesAt, List.getElem?_eq_getElem hp, Option.map_some, he])
      rw [readSystemAt_eq, readSystemAt_eq, min_eq_left (by omega), min_eq_left (by omega), Int.toNat_natCast_add_one,
        Int.toNat_natCast, lastHeld?, List.getElem?_eq_getElem hp]
      simp [hreg]
    · rw [readSystemAt_of_length_le (by omega), readSystemAt_of_length_le (by omega)]

/-! ### The values from a position on -/

/-- The positions of a history, from a given one on, where a register is written. -/
def writesFrom (t : Thread) (reg : String) (position : Int) : List Nat :=
  (List.Ico position.toNat t.history.length).filter (t.WritesAt reg)

theorem mem_writesFrom {position : Int} {p : Nat} : p ∈ t.writesFrom reg position ↔ position ≤ p ∧ t.WritesAt reg p := by
  simp only [writesFrom, List.mem_filter, List.Ico.mem, decide_eq_true_eq]
  constructor
  · rintro ⟨⟨hp, -⟩, hw⟩
    exact ⟨by omega, hw⟩
  · rintro ⟨hp, hw⟩
    exact ⟨⟨by omega, hw.lt⟩, hw⟩

/-- Going forwards over the history gives the value after each write of the register. -/
theorem map_heldBy_drop (n : Nat) :
    (heldBy reg (t.history.drop n)).map Except.ok =
      (t.writesFrom reg n).map fun (p : Nat) => t.readSystemAt reg (p + 1) := by
  rw [writesFrom, Int.toNat_natCast]
  by_cases hn : n < t.history.length
  · have ih := map_heldBy_drop (n + 1)
    rw [writesFrom, Int.toNat_natCast] at ih
    rw [List.drop_eq_getElem_cons hn, List.Ico.eq_cons hn, heldBy, List.filter_cons, List.filter_cons]
    by_cases hw : t.WritesAt reg n
    · obtain ⟨r, hr, hread⟩ := readSystemAt_written hw
      have hget : t.history[n] = ⟨reg, r⟩ := (List.getElem?_eq_some_iff.mp hr).2
      rw [if_pos (by simp [hget]), if_pos (by simpa using hw), List.map_cons, List.map_cons, List.map_cons, hread, hget,
        ← ih, heldBy]
    · have hreg : t.history[n].reg ≠ reg := fun he =>
        hw (by rw [WritesAt, List.getElem?_eq_getElem hn, Option.map_some, he])
      rw [if_neg (by simpa using hreg), if_neg (by simpa using hw), ← ih, heldBy]
  · rw [List.drop_eq_nil_of_le (by omega), List.Ico.eq_nil_of_le (by omega)]
    rfl
termination_by t.history.length - n

theorem readSystemFrom_eq {position : Int} {r : Reg} (h : t.readSystemAt reg position = .ok r) :
    t.readSystemFrom reg position = .ok (r :: heldBy reg (t.history.drop position.toNat)) := by
  rw [readSystemFrom, h]
  rfl

/-- The values are the one at the position and the one after each write from there on. -/
theorem map_readSystemFrom {position : Int} {r : Reg} (h : t.readSystemAt reg position = .ok r) :
    (r :: heldBy reg (t.history.drop position.toNat)).map Except.ok =
      t.readSystemAt reg position :: (t.writesFrom reg position).map fun (p : Nat) => t.readSystemAt reg (p + 1) := by
  have hfrom : t.writesFrom reg position = t.writesFrom reg position.toNat := by
    rw [writesFrom, writesFrom, Int.toNat_natCast]
  rw [List.map_cons, h, hfrom, map_heldBy_drop]

/-- A value is among them exactly when the register holds it at a position from there on. -/
theorem mem_readSystemFrom {position : Int} {r x : Reg} (h : t.readSystemAt reg position = .ok r) :
    x ∈ r :: heldBy reg (t.history.drop position.toNat) ↔
      ∃ later, position ≤ later ∧ t.readSystemAt reg later = .ok x := by
  have hlist : x ∈ r :: heldBy reg (t.history.drop position.toNat) ↔
      t.readSystemAt reg position = .ok x ∨ ∃ p ∈ t.writesFrom reg position, t.readSystemAt reg (p + 1) = .ok x := by
    rw [← List.mem_map_of_injective (f := Except.ok (ε := Fault)) fun _ _ => Except.ok.inj, map_readSystemFrom h,
      List.mem_cons, List.mem_map, eq_comm]
  rw [hlist]
  constructor
  · rintro (hx | ⟨p, hp, hx⟩)
    · exact ⟨position, le_refl _, hx⟩
    · have := (mem_writesFrom.mp hp).1
      exact ⟨p + 1, by omega, hx⟩
  · rintro ⟨later, hle, hx⟩
    obtain ⟨k, rfl⟩ := Int.le.dest hle
    clear hle
    induction k with
    | zero => exact .inl (by simpa using hx)
    | succ k ih =>
      rw [Int.natCast_add_one, ← Int.add_assoc] at hx
      by_cases hw : ∃ p : Nat, p = position + k ∧ t.WritesAt reg p
      · obtain ⟨p, hp, hw⟩ := hw
        exact .inr ⟨p, mem_writesFrom.mpr ⟨by omega, hw⟩, hp ▸ hx⟩
      · rw [readSystemAt_unwritten fun p hp hw' => hw ⟨p, hp, hw'⟩] at hx
        exact ih hx

/-- The last of them is what the thread itself reads. -/
theorem getLast?_readSystemFrom {position : Int} {r : Reg} (h : t.readSystemAt reg position = .ok r) :
    ∃ x, (r :: heldBy reg (t.history.drop position.toNat)).getLast? = some x ∧ t.readSystem reg = .ok x := by
  refine ⟨_, List.getLast?_cons, ?_⟩
  have hsplit : heldBy reg t.history =
      heldBy reg (t.history.take position.toNat) ++ heldBy reg (t.history.drop position.toNat) := by
    rw [← heldBy_append, List.take_append_drop]
  rw [readSystemAt] at h
  rw [readSystem, readSystemAt, Int.toNat_natCast, List.take_length, hsplit, List.getLast?_append]
  cases (heldBy reg (t.history.drop position.toNat)).getLast? with
  | some x => rfl
  | none => exact h

theorem writesFrom_eq_nil_iff {position : Int} :
    t.writesFrom reg position = [] ↔ ∀ p : Nat, position ≤ p → ¬t.WritesAt reg p := by
  rw [List.eq_nil_iff_forall_not_mem]
  exact forall_congr' fun p => by rw [mem_writesFrom, not_and]

/-- There is one value only exactly when the register is not written from the position on. -/
theorem length_readSystemFrom {position : Int} {r : Reg} (h : t.readSystemAt reg position = .ok r) :
    (r :: heldBy reg (t.history.drop position.toNat)).length = 1 ↔ ∀ p : Nat, position ≤ p → ¬t.WritesAt reg p := by
  have hlength := congrArg List.length (map_readSystemFrom h)
  rw [List.length_map] at hlength
  rw [hlength, List.length_cons, List.length_map, ← writesFrom_eq_nil_iff, ← List.length_eq_zero_iff]
  omega

theorem readSystemAt_writeSystem {position : Int} (h : position ≤ t.history.length) (other : String) (x : Reg) :
    (t.writeSystem other x).readSystemAt reg position = t.readSystemAt reg position := by
  have htake : (t.history ++ [SystemWrite.mk other x]).take position.toNat = t.history.take position.toNat :=
    List.take_append_of_le_length (by omega)
  have hhistory : (t.writeSystem other x).history = t.history ++ [SystemWrite.mk other x] := rfl
  rw [readSystemAt, readSystemAt, hhistory, htake]
  rfl

/-- A write of the register adds its value at the end. -/
theorem readSystemFrom_writeSystem {position : Int} {r : Reg} (h : t.readSystemAt reg position = .ok r)
    (hle : position ≤ t.history.length) (x : Reg) :
    (t.writeSystem reg x).readSystemFrom reg position =
      .ok (r :: heldBy reg (t.history.drop position.toNat) ++ [x]) := by
  have hdrop : (t.history ++ [SystemWrite.mk reg x]).drop position.toNat = t.history.drop position.toNat ++ [⟨reg, x⟩] :=
    List.drop_append_of_le_length (by omega)
  have hhistory : (t.writeSystem reg x).history = t.history ++ [⟨reg, x⟩] := rfl
  have hlast : heldBy reg [SystemWrite.mk reg x] = [x] := by simp [heldBy]
  rw [readSystemFrom_eq ((readSystemAt_writeSystem hle reg x).trans h), hhistory, hdrop, heldBy_append, hlast,
    List.cons_append]

/-- Right after context synchronization there is one value only, the newest. -/
theorem readSystemFrom_contextSync {x : Reg} (h : t.readSystem reg = .ok x) :
    t.contextSync.readSystemFrom reg t.contextSync.syncPoint = .ok [x] := by
  have hnone : t.contextSync.history.drop (t.contextSync.syncPoint : Int).toNat = [] := List.drop_length
  have hread : t.contextSync.readSystemAt reg t.contextSync.syncPoint = .ok x := h
  rw [readSystemFrom_eq hread, hnone]
  rfl

/-- What a system register may hold from a position on is what it holds there and after each later write of it, in
order: the values that it holds at some position from there on, the newest last. It is one value exactly when the
register is not written from the position on, as right after context synchronization; and a write of the register adds
its value at the end, if the position is not past the history before. -/
theorem readSystemFrom_exact {position : Int} {r : Reg} (h : t.readSystemAt reg position = .ok r) :
    ∃ values, t.readSystemFrom reg position = .ok values ∧
      values.map Except.ok =
        t.readSystemAt reg position :: (t.writesFrom reg position).map (fun (p : Nat) => t.readSystemAt reg (p + 1)) ∧
      (∀ x, x ∈ values ↔ ∃ later, position ≤ later ∧ t.readSystemAt reg later = .ok x) ∧
      (∃ x, values.getLast? = some x ∧ t.readSystem reg = .ok x ∧
        t.contextSync.readSystemFrom reg t.contextSync.syncPoint = .ok [x]) ∧
      (values.length = 1 ↔ ∀ p : Nat, position ≤ p → ¬t.WritesAt reg p) ∧
      (position ≤ t.history.length → ∀ x, (t.writeSystem reg x).readSystemFrom reg position = .ok (values ++ [x])) := by
  obtain ⟨x, hlast, hx⟩ := getLast?_readSystemFrom h
  refine ⟨_, readSystemFrom_eq h, map_readSystemFrom h, ?_, ⟨x, hlast, hx, readSystemFrom_contextSync hx⟩, ?_, ?_⟩
  · intro x
    exact mem_readSystemFrom h
  · exact length_readSystemFrom h
  · intro hle x
    exact readSystemFrom_writeSystem h hle x

/-- A thread that has written two system registers in turn. -/
def switchedTables : Thread where
  tid := 0
  initial := .ofList [(Register.tables, (0x1000 : Int)), ("VBAR_EL1", 0)]
  history := [⟨Register.tables, ⟨0x2000, 1⟩⟩, ⟨"VBAR_EL1", ⟨0x80, 2⟩⟩, ⟨Register.tables, ⟨0x3000, 4⟩⟩]

theorem readSystemFrom_exact_switchedTables :
    switchedTables.readSystemAt Register.tables (-1) = .ok ⟨0x1000, 0⟩ ∧
    switchedTables.readSystemAt Register.tables 1 = .ok ⟨0x2000, 1⟩ ∧
    (∃ values, switchedTables.readSystemFrom Register.tables (-1) = .ok values ∧
      values = [⟨0x1000, 0⟩, ⟨0x2000, 1⟩, ⟨0x3000, 4⟩] ∧ switchedTables.writesFrom Register.tables (-1) = [0, 2] ∧
      ∀ x, x ∈ values ↔ ∃ later, -1 ≤ later ∧ switchedTables.readSystemAt Register.tables later = .ok x) ∧
    (switchedTables.writeSystem Register.tables ⟨0x4000, 5⟩).readSystemFrom Register.tables 1 =
      .ok [⟨0x2000, 1⟩, ⟨0x3000, 4⟩, ⟨0x4000, 5⟩] := by
  have hstart : switchedTables.readSystemAt Register.tables (-1) = .ok ⟨0x1000, 0⟩ := by decide
  have hone : switchedTables.readSystemAt Register.tables 1 = .ok ⟨0x2000, 1⟩ := by decide
  obtain ⟨values, hvalues, -, hmem, -⟩ := readSystemFrom_exact hstart
  obtain ⟨later, hlater, -, -, -, -, happend⟩ := readSystemFrom_exact hone
  have hlist : values = [⟨0x1000, 0⟩, ⟨0x2000, 1⟩, ⟨0x3000, 4⟩] := Except.ok.inj (hvalues.symm.trans (by decide))
  have hrest : later = [⟨0x2000, 1⟩, ⟨0x3000, 4⟩] := Except.ok.inj (hlater.symm.trans (by decide))
  exact ⟨hstart, hone, ⟨values, hvalues, hlist, by decide, hmem⟩, by rw [happend (by decide), hrest]; rfl⟩

end Litmus.Thread
