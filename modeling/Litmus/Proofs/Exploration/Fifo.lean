import Litmus.Exploration.Frontier
import Mathlib.Data.List.Basic

/-!
What a frontier answers. Pushes, pops and questions for the size come in any order. Main facts: each answer is what a
plain list gives that has the newest item first for a stack and the oldest for a queue; so a queue gives its items back
in the order in which they came, whether or not it lets go of those that it has given, and popping until nothing waits
gives back every item once.
-/

namespace Litmus

variable {α : Type}

namespace Frontier

/-- What can be asked of a frontier. -/
inductive Op (α : Type) where
  | push (a : α)
  | pop
  | size

/-- What a frontier answers. -/
inductive Answer (α : Type) where
  | pushed
  | popped (a? : Option α)
  | size (n : Nat)

/-- The item that an operation pushes. -/
def Op.item? : Op α → Option α
  | .push a => some a
  | .pop | .size => none

/-- The item that an answer gives back. -/
def Answer.item? : Answer α → Option α
  | .popped a? => a?
  | .pushed | .size _ => none

/-- The frontier after an operation, and the answer. -/
def step (f : Frontier α) : Op α → Frontier α × Answer α
  | .push a => (f.push a, .pushed)
  | .pop =>
    match f.pop? with
    | some (a, g) => (g, .popped (some a))
    | none => (f, .popped none)
  | .size => (f, .size f.size)

/-- The frontier after some operations, and their answers. -/
def serve (f : Frontier α) : List (Op α) → Frontier α × List (Answer α)
  | [] => (f, [])
  | op :: ops =>
    let (f, answer) := f.step op
    let (g, answers) := f.serve ops
    (g, answer :: answers)

/-- The items that operations push, in order. -/
def pushes (ops : List (Op α)) : List α := ops.filterMap Op.item?

/-- The items that answers give back, in order. -/
def pops (answers : List (Answer α)) : List α := answers.filterMap Answer.item?

end Frontier

open Frontier

namespace Order

/-- A plain list with one more item: in front of all others, or behind them. -/
def add (items : List α) (a : α) : Order → List α
  | .dfs => a :: items
  | .bfs => items ++ [a]

/-- A plain list after an operation, and the answer: it is the first item that is popped. -/
def step (o : Order) (items : List α) : Op α → List α × Answer α
  | .push a => (o.add items a, .pushed)
  | .pop => (items.tail, .popped items.head?)
  | .size => (items, .size items.length)

/-- A plain list after some operations, and their answers. -/
def serve (o : Order) (items : List α) : List (Op α) → List α × List (Answer α)
  | [] => (items, [])
  | op :: ops =>
    let (items, answer) := o.step items op
    let (rest, answers) := o.serve items ops
    (rest, answer :: answers)

/-! ### Plain lists -/

/-- A list that takes its items behind all others gives them back in the order in which they came. -/
theorem append_pushes (items : List α) (ops : List (Op α)) :
    items ++ pushes ops = pops (Order.bfs.serve items ops).2 ++ (Order.bfs.serve items ops).1 := by
  induction ops generalizing items with
  | nil => simp [serve, pushes, pops]
  | cons op ops ih =>
    have hrest := ih (Order.bfs.step items op).1
    cases op with
    | push a =>
      rw [step, add, List.append_assoc] at hrest
      exact hrest
    | pop =>
      cases items with
      | nil => exact hrest
      | cons a items => exact congrArg (a :: ·) hrest
    | size => exact hrest

/-- Every item that comes is given back or still there. -/
theorem perm_pushes (o : Order) (items : List α) (ops : List (Op α)) :
    (pops (o.serve items ops).2 ++ (o.serve items ops).1).Perm (items ++ pushes ops) := by
  induction ops generalizing items with
  | nil => simp [serve, pushes, pops]
  | cons op ops ih =>
    have hrest := ih (o.step items op).1
    cases op with
    | push a =>
      refine hrest.trans ?_
      cases o with
      | dfs => exact List.perm_middle.symm
      | bfs => exact .of_eq (List.append_assoc items [a] (pushes ops))
    | pop =>
      cases items with
      | nil => exact hrest
      | cons a items => exact hrest.cons a
    | size => exact hrest

/-- Popping as often as there are items, or more often, gives them back as they are and leaves none. -/
theorem serve_pops (o : Order) (items : List α) (k : Nat) :
    (o.serve items (List.replicate (items.length + k) .pop)).1 = [] ∧
      pops (o.serve items (List.replicate (items.length + k) .pop)).2 = items := by
  induction items with
  | nil =>
    induction k with
    | zero => exact ⟨rfl, rfl⟩
    | succ k ih => exact ih
  | cons a items ih =>
    obtain ⟨hrest, hpops⟩ := ih
    rw [List.length_cons, Nat.succ_add, List.replicate_succ]
    exact ⟨hrest, congrArg (a :: ·) hpops⟩

end Order

/-! ### Frontiers -/

namespace Frontier

theorem order_push (f : Frontier α) (a : α) : (f.push a).order = f.order := by cases f <;> rfl

theorem order_of_pop? {f g : Frontier α} {a : α} (h : f.pop? = some (a, g)) : g.order = f.order := by
  unfold pop? at h
  split at h
  · cases h
  · cases h
    rfl
  · obtain ⟨_, -, h⟩ := Option.map_eq_some_iff.mp h
    cases h
    rfl

/-- A frontier does in every operation what the list of its items does. -/
theorem step_eq (f : Frontier α) (op : Op α) :
    (f.step op).1.order = f.order ∧ ((f.step op).1.toList, (f.step op).2) = f.order.step f.toList op := by
  cases op with
  | push a =>
    refine ⟨f.order_push a, ?_⟩
    rw [step, toList_push, Order.step]
    cases f.order <;> rfl
  | pop =>
    rw [step, Order.step]
    cases h : f.pop? with
    | none =>
      rw [pop?_eq_none_iff.mp h]
      exact ⟨rfl, rfl⟩
    | some x =>
      obtain ⟨a, g⟩ := x
      rw [toList_of_pop? h]
      exact ⟨order_of_pop? h, rfl⟩
  | size =>
    rw [step, Order.step, f.length_toList]
    exact ⟨rfl, rfl⟩

/-- A frontier does in all operations what the list of its items does. -/
theorem serve_eq (f : Frontier α) (ops : List (Op α)) :
    (f.serve ops).1.order = f.order ∧ ((f.serve ops).1.toList, (f.serve ops).2) = f.order.serve f.toList ops := by
  induction ops generalizing f with
  | nil => exact ⟨rfl, rfl⟩
  | cons op ops ih =>
    obtain ⟨horder, hstep⟩ := f.step_eq op
    obtain ⟨horder', hserve⟩ := ih (f.step op).1
    rw [horder] at horder' hserve
    refine ⟨horder', ?_⟩
    rw [Order.serve, ← hstep]
    dsimp only
    rw [← hserve]
    rfl

theorem toList_serve_empty (o : Order) (ops : List (Op α)) :
    (((empty o).serve ops).1.toList, ((empty o).serve ops).2) = o.serve [] ops := by
  cases o with
  | dfs => exact (serve_eq _ ops).2
  | bfs => exact (serve_eq _ ops).2

/-- Whatever is pushed, popped and asked, and however long that goes on, a frontier gives the answers that a plain list
gives. A queue gives its items back in the order in which they were pushed, each once, and has the others left; it has
never taken more than it keeps, and answers the same whether or not it lets go of what it has taken. A frontier that is
then popped until nothing waits, and even longer, gives back what waited in the order of the list, so that every item has
been given back once. -/
theorem serve_exact (ops : List (Op α)) :
    (∀ o, (((empty o).serve ops).1.toList, ((empty o).serve ops).2) = o.serve [] ops) ∧
    pushes ops = pops ((empty .bfs).serve ops).2 ++ ((empty .bfs).serve ops).1.toList ∧
    (∃ q : Queue α, ((empty .bfs).serve ops).1 = .queue q ∧ q.head ≤ q.items.size) ∧
    (∀ q : Queue α, ((queue q.compact).serve ops).2 = ((queue q).serve ops).2) ∧
    ∀ o k, let f := ((empty o).serve ops).1
      let drained := f.serve (List.replicate (f.size + k) .pop)
      drained.1.toList = [] ∧ pops drained.2 = f.toList ∧
        (pops ((empty o).serve ops).2 ++ pops drained.2).Perm (pushes ops) := by
  have hlist := fun o => toList_serve_empty o ops
  refine ⟨hlist, ?_, ?_, ?_, ?_⟩
  · have hfifo := Order.append_pushes [] ops
    rw [← hlist] at hfifo
    exact hfifo
  · have horder := (serve_eq (empty .bfs) ops).1
    cases hq : ((empty .bfs : Frontier α).serve ops).1 with
    | stack items => rw [hq] at horder; cases horder
    | queue q => exact ⟨q, rfl, q.head_le⟩
  · intro q
    have hcompact := congrArg Prod.snd (serve_eq (queue q.compact) ops).2
    rw [toList, q.toList_compact] at hcompact
    exact hcompact.trans (congrArg Prod.snd (serve_eq (queue q) ops).2).symm
  · intro o k f drained
    have hserve := (serve_eq f (List.replicate (f.size + k) .pop)).2
    rw [← f.length_toList] at hserve
    obtain ⟨hnil, hpops⟩ := f.order.serve_pops f.toList k
    rw [← hserve] at hnil hpops
    have hdrained : drained = f.serve (List.replicate (f.toList.length + k) .pop) := by rw [f.length_toList]
    rw [hdrained]
    refine ⟨hnil, hpops, ?_⟩
    have hperm := o.perm_pushes [] ops
    rw [← hlist] at hperm
    rw [hpops]
    exact hperm

end Frontier

end Litmus
