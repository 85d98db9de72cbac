import Std.Data.ExtTreeMap

/-!
Rolls: items in the order in which they came. Each is filed under a key, so that only the items under
the same key are looked through for it. Main fact: what is found that way is what is on the list.
-/

namespace Litmus

/-- Items, the newest first, and again by their keys. -/
structure Roll {α : Type} (key : α → List Int) where
  newestFirst : List α
  shelves : Std.ExtTreeMap (List Int) (List α)
  mem_shelves : ∀ a, a ∈ shelves.getD (key a) [] ↔ a ∈ newestFirst

namespace Roll

variable {α : Type} {key : α → List Int}

theorem mem_shelves_empty (a : α) : a ∈ (∅ : Std.ExtTreeMap (List Int) (List α)).getD (key a) [] ↔ a ∈ ([] : List α) := by
  simp

/-- The roll without items. -/
def empty : Roll key := ⟨[], ∅, mem_shelves_empty⟩

/-- The items under the key of an item. -/
def shelf (r : Roll key) (a : α) : List α := r.shelves.getD (key a) []

theorem mem_shelves_insert (r : Roll key) (a b : α) :
    b ∈ (r.shelves.insert (key a) (a :: r.shelf a)).getD (key b) [] ↔ b ∈ a :: r.newestFirst := by
  rw [Std.ExtTreeMap.getD_insert, List.mem_cons, ← r.mem_shelves b]
  by_cases h : key a = key b
  · simp [h, shelf]
  · have hne : b ≠ a := fun e => h (e ▸ rfl)
    simp [h, hne]

/-- The roll with an item at its end. -/
def push (r : Roll key) (a : α) : Roll key :=
  ⟨a :: r.newestFirst, r.shelves.insert (key a) (a :: r.shelf a), mem_shelves_insert r a⟩

/-- The items in the order in which they came. -/
def toList (r : Roll key) : List α := r.newestFirst.reverse

/-- Whether an item is on the roll. -/
def contains [DecidableEq α] (r : Roll key) (a : α) : Bool := decide (a ∈ r.shelf a)

theorem toList_empty : (empty : Roll key).toList = [] := rfl

theorem toList_push (r : Roll key) (a : α) : (r.push a).toList = r.toList ++ [a] := List.reverse_cons

theorem contains_iff [DecidableEq α] {r : Roll key} {a : α} : r.contains a = true ↔ a ∈ r.toList := by
  rw [contains, decide_eq_true_iff, toList, List.mem_reverse]
  exact r.mem_shelves a

end Roll

end Litmus
