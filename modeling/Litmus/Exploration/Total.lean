/-! Totals: a measure summed over a list. Main facts: how it splits, and that it grows with the measure. -/

namespace Litmus

variable {α : Type}

/-- The sum of a measure over a list. -/
def total (f : α → Nat) : List α → Nat
  | [] => 0
  | a :: l => f a + total f l

theorem total_append (f : α → Nat) (l m : List α) : total f (l ++ m) = total f l + total f m := by
  induction l with
  | nil => simp [total]
  | cons a l ih => rw [List.cons_append, total, ih, total, Nat.add_assoc]

theorem total_le_total {f g : α → Nat} : ∀ {l : List α}, (∀ a ∈ l, f a ≤ g a) → total f l ≤ total g l
  | [], _ => Nat.le_refl _
  | a :: _, h =>
    Nat.add_le_add (h a (List.mem_cons_self ..)) (total_le_total fun b hb => h b (List.mem_cons_of_mem a hb))

theorem length_flatMap_eq_total {β : Type} (f : α → List β) : ∀ l : List α,
    (l.flatMap f).length = total (fun a => (f a).length) l
  | [] => rfl
  | a :: l => by rw [List.flatMap_cons, List.length_append, total, length_flatMap_eq_total f l]

end Litmus
