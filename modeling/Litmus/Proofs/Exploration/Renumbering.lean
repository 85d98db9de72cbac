import Mathlib.Data.List.Nodup
import Mathlib.Data.List.Perm.Basic

/-!
Orders in which threads are dealt out. Dealing out in an order moves each item to another place and changes nothing
else; the number of a thread follows its place. Main facts: what is dealt out is what there was, at known places;
changing one item before or after comes to the same; and threads with two numbers keep two numbers.
-/

namespace Litmus

/-- An order in which as many items are dealt out. -/
structure Renumbering (n : Nat) where
  order : List Nat
  perm : order.Perm (List.range n)

namespace Renumbering

variable {n : Nat} (r : Renumbering n) {α β : Type} {l l' : List α} {i j : Nat}

/-- The items of a list in this order. -/
def deal (l : List α) : List α := r.order.filterMap (l[·]?)

/-- The place that an item gets to. -/
def place (j : Nat) : Nat := r.order.idxOf j

theorem length_order : r.order.length = n := r.perm.length_eq.trans List.length_range

theorem nodup_order : r.order.Nodup := r.perm.nodup_iff.mpr List.nodup_range

theorem mem_order : j ∈ r.order ↔ j < n := r.perm.mem_iff.trans List.mem_range

theorem getElem?_order : r.order[i]? = some j ↔ j < n ∧ r.place j = i := by
  constructor
  · intro h
    obtain ⟨hi, rfl⟩ := List.getElem?_eq_some_iff.mp h
    exact ⟨r.mem_order.mp (List.getElem_mem hi), r.nodup_order.idxOf_getElem i hi⟩
  · rintro ⟨hj, rfl⟩
    exact List.getElem?_idxOf (r.mem_order.mpr hj)

theorem place_lt (hj : j < n) : r.place j < n := by
  have hlt := List.idxOf_lt_length_of_mem (r.mem_order.mpr hj)
  rwa [r.length_order] at hlt

theorem place_injective (hi : i < n) (h : r.place i = r.place j) (hj : j < n) : i = j := by
  have hi := r.getElem?_order.mpr ⟨hi, h⟩
  rw [r.getElem?_order.mpr ⟨hj, rfl⟩] at hi
  cases hi
  rfl

/-- The places come in order. -/
theorem map_place : r.order.map r.place = List.range n := by
  refine List.ext_getElem? fun i => ?_
  rw [List.getElem?_map]
  cases h : r.order[i]? with
  | none =>
    rw [List.getElem?_eq_none_iff, r.length_order] at h
    rw [List.getElem?_eq_none (by simpa using h)]
    rfl
  | some j =>
    obtain ⟨hj, rfl⟩ := r.getElem?_order.mp h
    rw [List.getElem?_range (r.place_lt hj)]
    rfl

/-! ### What is dealt out -/

theorem getElem?_deal (hl : l.length = n) (i : Nat) : (r.deal l)[i]? = r.order[i]?.bind (l[·]?) := by
  have inside : ∀ j ∈ r.order, j < l.length := fun j hj => hl ▸ r.mem_order.mp hj
  rw [deal]
  generalize r.order = order at inside
  induction order generalizing i with
  | nil => rfl
  | cons j order ih =>
    obtain ⟨hj, horder⟩ := List.forall_mem_cons.mp inside
    rw [List.filterMap_cons_some (List.getElem?_eq_getElem hj)]
    cases i with
    | zero => simp [hj]
    | succ i => simpa using ih i horder

theorem getElem?_deal_place (hl : l.length = n) (hj : j < n) : (r.deal l)[r.place j]? = l[j]? := by
  rw [r.getElem?_deal hl, r.getElem?_order.mpr ⟨hj, rfl⟩]
  rfl

/-- Whatever is dealt out comes from some place. -/
theorem exists_place (hl : l.length = n) {a : α} (h : (r.deal l)[i]? = some a) :
    ∃ j < n, r.place j = i ∧ l[j]? = some a := by
  rw [r.getElem?_deal hl, Option.bind_eq_some_iff] at h
  obtain ⟨j, hj, ha⟩ := h
  obtain ⟨hlt, hplace⟩ := r.getElem?_order.mp hj
  exact ⟨j, hlt, hplace, ha⟩

/-- What is dealt out is what there was. -/
theorem deal_perm (hl : l.length = n) : (r.deal l).Perm l := by
  have hrange : ∀ l : List α, (List.range l.length).filterMap (l[·]?) = l := by
    intro l
    induction l with
    | nil => rfl
    | cons a l ih =>
      rw [List.length_cons, List.range_succ_eq_map, List.filterMap_cons, List.filterMap_map]
      exact congrArg (a :: ·) ih
  subst hl
  exact (r.perm.filterMap (l[·]?)).trans (.of_eq (hrange l))

theorem length_deal (hl : l.length = n) : (r.deal l).length = n := (r.deal_perm hl).length_eq.trans hl

theorem deal_map (f : α → β) : r.deal (l.map f) = (r.deal l).map f := by
  rw [deal, deal, List.map_filterMap]
  exact congrArg (List.filterMap · _) (funext fun j => List.getElem?_map)

theorem deal_set (hl : l.length = n) (hj : j < n) (a : α) : r.deal (l.set j a) = (r.deal l).set (r.place j) a := by
  refine List.ext_getElem? fun i => ?_
  rw [r.getElem?_deal (by rw [List.length_set, hl]), List.getElem?_set, r.length_deal hl, r.getElem?_deal hl]
  by_cases hi : r.place j = i
  · subst hi
    rw [r.getElem?_order.mpr ⟨hj, rfl⟩, if_pos rfl, if_pos (r.place_lt hj), Option.bind_some]
    exact List.getElem?_set_self (hl ▸ hj)
  · rw [if_neg hi]
    refine Option.bind_congr fun k hk => ?_
    rw [List.getElem?_set_ne]
    rintro rfl
    exact hi (r.getElem?_order.mp hk).2

theorem deal_injective (hl : l.length = n) (hl' : l'.length = n) (h : r.deal l = r.deal l') : l = l' := by
  refine List.ext_getElem? fun j => ?_
  by_cases hj : j < n
  · rw [← r.getElem?_deal_place hl hj, h, r.getElem?_deal_place hl' hj]
  · rw [List.getElem?_eq_none (by omega), List.getElem?_eq_none (by omega)]

/-! ### Numbers of threads -/

/-- The number of a thread after its place has changed. -/
def tid (x : Int) : Int := if 0 ≤ x ∧ x < n then r.place x.toNat else x

theorem tid_of_lt (hj : j < n) : r.tid j = r.place j := by
  rw [tid, if_pos ⟨Int.natCast_nonneg j, Int.ofNat_lt.mpr hj⟩, Int.toNat_natCast]

theorem tid_mem {x : Int} : 0 ≤ r.tid x ∧ r.tid x < n ↔ 0 ≤ x ∧ x < n := by
  rw [tid]
  split
  · next hx =>
    have := r.place_lt (j := x.toNat) (by omega)
    omega
  · rfl

theorem tid_injective : Function.Injective r.tid := by
  intro x y h
  by_cases hx : 0 ≤ x ∧ x < n
  · have hy : 0 ≤ y ∧ y < n := by rwa [← r.tid_mem, ← h, r.tid_mem]
    rw [tid, tid, if_pos hx, if_pos hy, Int.ofNat_inj] at h
    have := r.place_injective (by omega) h (by omega)
    omega
  · have hy : ¬(0 ≤ y ∧ y < n) := by rwa [← r.tid_mem, ← h, r.tid_mem]
    rwa [tid, tid, if_neg hx, if_neg hy] at h

end Renumbering

end Litmus
