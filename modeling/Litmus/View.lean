/-!
Views: logical times, ordered as numbers. A view says that something happened no earlier than every
event up to it; zero is the initial memory. The times of a memory are whole, but views are joined and
met alike in any order of numbers. Main facts: `join` and `meet` are the least view above two and the
greatest below, and `joinAll` is the least one above some views and zero.
-/

namespace Litmus

/-- A logical time. -/
abbrev View := Int

namespace View

/-- The later of two views. -/
def join {α : Type} [Max α] (a b : α) : α := max a b

/-- The earlier of two views. -/
def meet {α : Type} [Min α] (a b : α) : α := min a b

/-- The latest of some views, and of zero. -/
def joinAll {α : Type} [Max α] [OfNat α 0] (views : List α) : α := views.foldl join 0

theorem le_join_left (a b : View) : a ≤ join a b := Int.le_max_left a b

theorem le_join_right (a b : View) : b ≤ join a b := Int.le_max_right a b

theorem join_le {a b c : View} : join a b ≤ c ↔ a ≤ c ∧ b ≤ c := Int.max_le

theorem meet_le_left (a b : View) : meet a b ≤ a := Int.min_le_left a b

theorem meet_le_right (a b : View) : meet a b ≤ b := Int.min_le_right a b

theorem le_meet {a b c : View} : c ≤ meet a b ↔ c ≤ a ∧ c ≤ b := Int.le_min

theorem foldl_join_le {c : View} : ∀ {views : List View} {a : View},
    views.foldl join a ≤ c ↔ a ≤ c ∧ ∀ v ∈ views, v ≤ c
  | [], a => by simp
  | v :: views, a => by rw [List.foldl_cons, foldl_join_le, join_le, List.forall_mem_cons, and_assoc]

theorem joinAll_le {views : List View} {c : View} : joinAll views ≤ c ↔ 0 ≤ c ∧ ∀ v ∈ views, v ≤ c :=
  foldl_join_le

theorem le_joinAll {v : View} {views : List View} (h : v ∈ views) : v ≤ joinAll views :=
  (joinAll_le.mp (Int.le_refl _)).2 v h

end View

end Litmus
