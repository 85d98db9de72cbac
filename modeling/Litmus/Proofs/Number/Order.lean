import Litmus.Number
import Litmus.View
import Mathlib.Tactic.Ring

/-!
The order of numbers, and limits. Main facts: not being below is an order, a bound that is not below the earlier of two
is below neither, and a limit that allows a count allows every lower one.
-/

namespace Litmus

namespace Number

variable {a b c : Number}

theorem not_lt_iff : ¬a < b ↔
    b.side < a.side ∨ a.side = b.side ∧ b.digits * (Nat.pow 10 a.places : Nat) ≤ a.digits * (Nat.pow 10 b.places : Nat) := by
  change ¬isBelow a b = true ↔ _
  rw [isBelow]
  split
  · next h => simp [h]
  · next h =>
    rw [decide_eq_true_eq, Int.not_lt]
    constructor
    · intro hle
      exact .inl (by omega)
    · rintro (hlt | ⟨he, -⟩)
      · exact Int.le_of_lt hlt
      · exact absurd he h

/-- Decimals are compared crosswise; the places of the one between cancel. -/
theorem not_lt_trans (hab : ¬a < b) (hbc : ¬b < c) : ¬a < c := by
  rw [not_lt_iff] at hab hbc ⊢
  rcases hab with hab | ⟨hab, hle⟩
  · rcases hbc with hbc | ⟨hbc, -⟩
    · exact .inl (by omega)
    · exact .inl (by omega)
  · rcases hbc with hbc | ⟨hbc, hle'⟩
    · exact .inl (by omega)
    · refine .inr ⟨hab.trans hbc, ?_⟩
      have pos (n : Number) : (0 : Int) < (Nat.pow 10 n.places : Nat) := Int.natCast_pos.mpr (Nat.pow_pos (by decide))
      refine Int.le_of_mul_le_mul_right ?_ (pos b)
      calc c.digits * (Nat.pow 10 a.places : Nat) * (Nat.pow 10 b.places : Nat)
          = c.digits * (Nat.pow 10 b.places : Nat) * (Nat.pow 10 a.places : Nat) := by ring
        _ ≤ b.digits * (Nat.pow 10 c.places : Nat) * (Nat.pow 10 a.places : Nat) :=
          Int.mul_le_mul_of_nonneg_right hle' (Int.le_of_lt (pos a))
        _ = b.digits * (Nat.pow 10 a.places : Nat) * (Nat.pow 10 c.places : Nat) := by ring
        _ ≤ a.digits * (Nat.pow 10 b.places : Nat) * (Nat.pow 10 c.places : Nat) :=
          Int.mul_le_mul_of_nonneg_right hle (Int.le_of_lt (pos c))
        _ = a.digits * (Nat.pow 10 c.places : Nat) * (Nat.pow 10 b.places : Nat) := by ring

theorem not_lt_of_lt (h : a < b) : ¬b < a := by
  rw [not_lt_iff]
  change isBelow a b = true at h
  rw [isBelow] at h
  split at h
  · next he => exact .inr ⟨he.symm, Int.le_of_lt (of_decide_eq_true h)⟩
  · exact .inl (of_decide_eq_true h)

/-- What is not past the earlier of two bounds is past neither. -/
theorem not_meet_lt (h : ¬View.meet a b < c) : ¬a < c ∧ ¬b < c := by
  change ¬(if b < a then b else a) < c at h
  split at h
  · next hba => exact ⟨not_lt_trans (not_lt_of_lt hba) h, h⟩
  · next hba => exact ⟨h, not_lt_trans hba h⟩

end Number

/-! ### Budgets -/

/-- Whether a budget allows a count. Nothing is asked of it before the first. -/
def Number.Allows (limit : Number) (n : Nat) : Prop := n = 0 ∨ ¬limit < .whole n

namespace Number.Allows

variable {limit : Number} {m n : Nat}

theorem zero : limit.Allows 0 := .inl rfl

theorem not_lt (h : limit.Allows (n + 1)) : ¬limit < .whole ((n + 1 : Nat) : Int) := h.resolve_left (Nat.succ_ne_zero n)

/-- A budget that allows a count allows every lower one. -/
theorem mono (h : limit.Allows n) (hle : m ≤ n) : limit.Allows m := by
  rcases h with rfl | h
  · exact .inl (Nat.le_zero.mp hle)
  · refine .inr (Number.not_lt_trans h ?_)
    rw [Number.whole_lt_whole]
    omega

end Number.Allows

end Litmus
