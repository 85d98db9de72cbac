/-!
Frontiers: states waiting to be explored, the newest or the oldest first. A queue keeps its items in one
array and only counts those at the front that have been taken, until they are the larger part and it lets
go of them. Main facts: a stack gives back what was pushed last, a queue what was pushed first, whether or
not it still keeps what was taken.
-/

namespace Litmus

/-- Which waiting state is explored next: the newest, or the oldest. -/
inductive Order where
  | dfs
  | bfs
  deriving DecidableEq, Repr

/-- The text of an order. -/
def Order.text : Order → String
  | .dfs => "dfs"
  | .bfs => "bfs"

/-- The order with this text. -/
def Order.ofText? (s : String) : Option Order := [Order.dfs, .bfs].find? fun o => o.text == s

/-! ### Queues -/

/-- Items in the order in which they came. Those before `head` have been taken. -/
structure Queue (α : Type) where
  items : Array α
  head : Nat
  head_le : head ≤ items.size

namespace Queue

variable {α : Type}

/-- The queue without items. -/
def empty : Queue α := ⟨#[], 0, Nat.zero_le _⟩

/-- The items that have not been taken, the oldest first. -/
def toList (q : Queue α) : List α := q.items.toList.drop q.head

theorem head_le_push (q : Queue α) (a : α) : q.head ≤ (q.items.push a).size := by
  rw [Array.size_push]
  exact Nat.le_succ_of_le q.head_le

/-- The queue with an item at its end. -/
def push (q : Queue α) (a : α) : Queue α := ⟨q.items.push a, q.head, q.head_le_push a⟩

/-- How many items a queue keeps after they were taken, at least. -/
def slack : Nat := 1024

/-- The queue without the items that have been taken, once these are many and the larger part. -/
def compact (q : Queue α) : Queue α :=
  if slack < q.head ∧ q.items.size < q.head * 2 then ⟨q.items.extract q.head, 0, Nat.zero_le _⟩ else q

/-- The oldest item, and the queue once it has been taken. -/
def pop? (q : Queue α) : Option (α × Queue α) :=
  if h : q.head < q.items.size then some (q.items[q.head], compact ⟨q.items, q.head + 1, h⟩) else none

/-- How many items have not been taken. -/
def size (q : Queue α) : Nat := q.items.size - q.head

theorem toList_push (q : Queue α) (a : α) : (q.push a).toList = q.toList ++ [a] := by
  rw [push, toList, Array.toList_push, List.drop_append_of_le_length (by simpa using q.head_le), toList]

/-- Letting go of what was taken changes nothing. -/
theorem toList_compact (q : Queue α) : q.compact.toList = q.toList := by
  rw [compact]
  split
  · have hall : (q.items.toList.drop q.head).length ≤ q.items.size - q.head := by simp
    rw [toList, List.drop_zero, Array.toList_extract, List.extract_eq_take_drop, List.take_of_length_le hall, toList]
  · rfl

theorem length_toList (q : Queue α) : q.toList.length = q.size := by
  rw [toList, List.length_drop, Array.length_toList, size]

theorem toList_of_pop? {q r : Queue α} {a : α} (h : q.pop? = some (a, r)) : q.toList = a :: r.toList := by
  rw [pop?] at h
  split at h
  · next hlt =>
    cases h
    rw [toList_compact, toList, toList, List.drop_eq_getElem_cons (by simpa using hlt)]
    rfl
  · cases h

theorem pop?_eq_none_iff {q : Queue α} : q.pop? = none ↔ q.toList = [] := by
  rw [← List.length_eq_zero_iff, length_toList, size, Nat.sub_eq_zero_iff_le, pop?]
  split
  · next h => simpa using h
  · next h => simpa using h

end Queue

/-! ### Frontiers -/

/-- Waiting items: a stack with the newest first, or a queue. -/
inductive Frontier (α : Type) where
  | stack (items : List α)
  | queue (items : Queue α)

namespace Frontier

variable {α : Type}

/-- Nothing waits yet. -/
def empty : Order → Frontier α
  | .dfs => .stack []
  | .bfs => .queue .empty

/-- The items in the order in which they will be popped. -/
def toList : Frontier α → List α
  | .stack items => items
  | .queue q => q.toList

/-- Let an item wait. -/
def push (a : α) : Frontier α → Frontier α
  | .stack items => .stack (a :: items)
  | .queue q => .queue (q.push a)

/-- The next item, and the frontier without it. -/
def pop? : Frontier α → Option (α × Frontier α)
  | .stack [] => none
  | .stack (a :: items) => some (a, .stack items)
  | .queue q => q.pop?.map fun (a, q) => (a, .queue q)

/-- How many items wait. -/
def size : Frontier α → Nat
  | .stack items => items.length
  | .queue q => q.size

/-- The order in which the items are popped. -/
def order : Frontier α → Order
  | .stack _ => .dfs
  | .queue _ => .bfs

theorem toList_push (a : α) (f : Frontier α) :
    (f.push a).toList = match f.order with
      | .dfs => a :: f.toList
      | .bfs => f.toList ++ [a] := by
  cases f with
  | stack items => rfl
  | queue q => exact q.toList_push a

theorem toList_of_pop? {f g : Frontier α} {a : α} (h : f.pop? = some (a, g)) : f.toList = a :: g.toList := by
  unfold pop? at h
  split at h
  · cases h
  · cases h; rfl
  · next q =>
    obtain ⟨⟨b, r⟩, hq, h⟩ := Option.map_eq_some_iff.mp h
    cases h
    exact Queue.toList_of_pop? hq

theorem pop?_eq_none_iff {f : Frontier α} : f.pop? = none ↔ f.toList = [] := by
  unfold pop?
  split
  · simp [toList]
  · simp [toList]
  · next q => rw [Option.map_eq_none_iff, Queue.pop?_eq_none_iff, toList]

theorem length_toList (f : Frontier α) : f.toList.length = f.size := by
  cases f with
  | stack items => rfl
  | queue q => exact q.length_toList

end Frontier

end Litmus
