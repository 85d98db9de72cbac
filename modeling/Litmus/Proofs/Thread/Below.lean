import Litmus.Proofs.Thread.Registers

/-!
Threads with earlier views. Of two threads that made the same writes and hold the same values, one is below the
other if none of its views is later. Main facts: what either reads of a register has the same value, and whatever
both do raises the views of the one no higher than those of the other, if its own were not.
-/

namespace Litmus

/-! ### Views -/

namespace View

theorem join_mono {a b c d : View} (h : a ≤ b) (h' : c ≤ d) : join a c ≤ join b d :=
  join_le.mpr ⟨Int.le_trans h (le_join_left _ _), Int.le_trans h' (le_join_right _ _)⟩

theorem joinAll_mono {views views' : List View} (h : List.Forall₂ (· ≤ ·) views views') : joinAll views ≤ joinAll views' :=
  List.rel_foldl (P := (· ≤ ·)) (R := (· ≤ ·)) (fun _ _ h _ _ h' => join_mono h h') (Int.le_refl 0) h

end View

namespace Views

/-- None of the views of one is later than that of the other, nor before the beginning. -/
def Below (v w : Views) : Prop := ∀ c, 0 ≤ v.get c ∧ v.get c ≤ w.get c

variable {v w : Views} {x y : View}

theorem Below.le (h : v.Below w) (c : Counter) : v.get c ≤ w.get c := (h c).2

theorem Below.nonneg (h : v.Below w) (c : Counter) : 0 ≤ w.get c := Int.le_trans (h c).1 (h c).2

theorem Below.raise (h : v.Below w) (c : Counter) (hx : x ≤ y) : (v.raise c x).Below (w.raise c y) := by
  intro d
  refine ⟨Int.le_trans (h d).1 (get_le_get_raise v c d x), ?_⟩
  rw [get_raise, get_raise]
  split
  · exact View.join_mono (h.le c) hx
  · exact h.le d

/-- Raising the later views alone leaves them later. -/
theorem Below.raise_right (h : v.Below w) (c : Counter) (y : View) : v.Below (w.raise c y) :=
  fun d => ⟨(h d).1, Int.le_trans (h.le d) (get_le_get_raise w c d y)⟩

end Views

/-! ### Optional things and lists side by side -/

section

variable {α β : Type} {R : α → β → Prop}

theorem exists_of_rel {x : Option α} {y : Option β} {b : β} (h : Option.Rel R x y) (hy : y = some b) :
    ∃ a, x = some a ∧ R a b := by
  subst hy
  cases h with
  | some h => exact ⟨_, rfl, h⟩

theorem exists_of_rel_left {x : Option α} {y : Option β} {a : α} (h : Option.Rel R x y) (hx : x = some a) :
    ∃ b, y = some b ∧ R a b := by
  subst hx
  cases h with
  | some h => exact ⟨_, rfl, h⟩

theorem eq_none_of_rel {x : Option α} {y : Option β} (h : Option.Rel R x y) (hy : y = none) : x = none := by
  subst hy
  cases h
  rfl

theorem rel_getElem? {l : List α} {l' : List β} (h : List.Forall₂ R l l') (i : Nat) : Option.Rel R l[i]? l'[i]? := by
  induction h generalizing i with
  | nil => exact .none
  | cons ha _ ih =>
    cases i with
    | zero => exact .some ha
    | succ i => exact ih i

theorem rel_getLast? {l : List α} {l' : List β} (h : List.Forall₂ R l l') : Option.Rel R l.getLast? l'.getLast? := by
  rw [List.getLast?_eq_getElem?, List.getLast?_eq_getElem?, h.length_eq]
  exact rel_getElem? h _

end

/-! ### Threads -/

/-- The same value, with a view that is not later. -/
structure Reg.Below (a b : Reg) : Prop where
  value_eq : a.value = b.value
  view_le : a.view ≤ b.view

/-- The same write to forward from, with a view that is not later, nor later than the write itself. -/
structure Forward.Below (a b : Forward) : Prop where
  time_eq : a.time = b.time
  exclusive_eq : a.exclusive = b.exclusive
  view_le : a.view ≤ b.view
  view_le_time : a.view ≤ a.time

/-- Whether a thread has done the same as another one, and none of its views is later. -/
structure Thread.Below (t u : Thread) : Prop where
  tid_eq : t.tid = u.tid
  initial_eq : t.initial = u.initial
  promises_eq : t.promises = u.promises
  coherence_eq : t.coherence = u.coherence
  views : t.views.Below u.views
  regs : ∀ reg : String, Option.Rel Reg.Below t.regs[reg]? u.regs[reg]?
  history : List.Forall₂ (fun a b => a.reg = b.reg ∧ a.held.Below b.held) t.history u.history
  forwards : ∀ loc : Int, Option.Rel Forward.Below t.forwards[loc]? u.forwards[loc]?
  monitor : Option.Rel (fun a b => a.loc = b.loc ∧ a.time = b.time) t.monitor u.monitor

namespace Thread.Below

variable {t u : Thread} {reg : String} {a b : Reg}

theorem start (tid : Int) (regs : Registers Int) : (Thread.start tid regs).Below (.start tid regs) where
  tid_eq := rfl
  initial_eq := rfl
  promises_eq := rfl
  coherence_eq := rfl
  views c := by cases c <;> exact ⟨Int.le_refl 0, Int.le_refl 0⟩
  regs reg := by
    simp only [Thread.start, Std.ExtTreeMap.getElem?_empty]
    exact .none
  history := .nil
  forwards loc := by
    simp only [Thread.start, Std.ExtTreeMap.getElem?_empty]
    exact .none
  monitor := .none

theorem coherenceOf_eq (h : t.Below u) (loc : Int) : t.coherenceOf loc = u.coherenceOf loc := by
  rw [coherenceOf, coherenceOf, h.coherence_eq]

theorem heldBy (h : t.Below u) (reg : String) :
    List.Forall₂ Reg.Below (Thread.heldBy reg t.history) (Thread.heldBy reg u.history) := by
  refine List.rel_map (fun _ _ h => h.2) (List.rel_filter ?_ h.history)
  intro x y hxy
  simp [hxy.1]

theorem initialReg (h : t.Below u) (hb : u.initialReg reg = .ok b) : ∃ a, t.initialReg reg = .ok a ∧ a.Below b := by
  refine ⟨b, ?_, rfl, Int.le_refl _⟩
  rw [Thread.initialReg, h.initial_eq]
  exact hb

/-- What a register holds has the same value in both, and no later a view in the one below. -/
theorem holds (h : t.Below u) (hb : u.holds reg = .ok b) : ∃ a, t.holds reg = .ok a ∧ a.Below b := by
  rw [Thread.holds] at hb ⊢
  split at hb
  · next hs =>
    rw [if_pos hs]
    rw [readSystem, readSystemAt, Int.toNat_natCast, List.take_length] at hb ⊢
    have hlast := rel_getLast? (h.heldBy reg)
    split at hb
    · next hl =>
      cases hb
      obtain ⟨a, ha, hab⟩ := exists_of_rel hlast hl
      exact ⟨a, by rw [ha], hab⟩
    · next hl =>
      rw [eq_none_of_rel hlast hl]
      exact h.initialReg hb
  · next hs =>
    rw [if_neg hs]
    rw [readReg] at hb ⊢
    split at hb
    · next hr =>
      cases hb
      obtain ⟨a, ha, hab⟩ := exists_of_rel (h.regs reg) hr
      exact ⟨a, by rw [ha], hab⟩
    · next hr =>
      rw [eq_none_of_rel (h.regs reg) hr]
      exact h.initialReg hb

/-- Both have the same plain values. -/
theorem plainRegs_eq (h : t.Below u) : t.plainRegs = u.plainRegs := by
  have values {x y : Option Reg} (h : Option.Rel Reg.Below x y) : x.map Reg.value = y.map Reg.value := by
    cases h with
    | some h => exact congrArg some h.value_eq
    | none => rfl
  refine Std.ExtTreeMap.ext_getElem? ?_
  intro reg
  rw [getElem?_plainRegs, getElem?_plainRegs, values (rel_getLast? (h.heldBy reg)), values (h.regs reg), h.initial_eq]

theorem raise (h : t.Below u) (c : Counter) {v w : View} (hv : v ≤ w) : (t.raise c v).Below (u.raise c w) :=
  { h with views := h.views.raise c hv }

theorem raise_right (h : t.Below u) (c : Counter) (w : View) : t.Below (u.raise c w) :=
  { h with views := h.views.raise_right c w }

theorem pushPromise (h : t.Below u) (time : View) : (t.pushPromise time).Below (u.pushPromise time) :=
  { h with promises_eq := congrArg (· ++ [time]) h.promises_eq }

theorem unmonitored (h : t.Below u) : (t.monitored none).Below (u.monitored none) := { h with monitor := .none }

theorem hold (h : t.Below u) (reg : String) (hab : a.Below b) : (t.hold reg a).Below (u.hold reg b) := by
  rw [Thread.hold, Thread.hold]
  split
  · exact { h with
      views := h.views.raise .systemWrites hab.view_le
      history := List.rel_append h.history (.cons ⟨rfl, hab⟩ .nil) }
  · refine { h with regs := ?_ }
    intro x
    rw [writeReg, writeReg, Std.ExtTreeMap.getElem?_insert, Std.ExtTreeMap.getElem?_insert]
    split
    · exact .some hab
    · exact h.regs x

theorem contextSync (h : t.Below u) : t.contextSync.Below u.contextSync := by
  have hview : View.join t.views.speculation (View.join t.views.syncBarrier t.views.systemWrites) ≤
      View.join u.views.speculation (View.join u.views.syncBarrier u.views.systemWrites) :=
    View.join_mono (h.views.le .speculation) (View.join_mono (h.views.le .syncBarrier) (h.views.le .systemWrites))
  exact { h with views := h.views.raise .contextSync hview }

theorem withCache (h : t.Below u) (c d : Paging.Cache) : (t.withCache c).Below (u.withCache d) := { h with }

end Thread.Below

end Litmus
