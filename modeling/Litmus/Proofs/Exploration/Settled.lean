import Litmus.Proofs.Exploration.Complete
import Litmus.Proofs.Instruction.Recached

/-!
What a settled state tells. The code of a line tells lines apart, so a cache in order depends on its lines alone, and
states that differ in the order of their caches alone are one state once settled. Main facts: that, and that exploring
such states meets as many moves, pruned paths and ends of the search.
-/

namespace Litmus

open Paging

/-! ### Totals -/

section Totals

variable {α β : Type} {f g : α → Nat} {l k : List α}

theorem total_congr (h : ∀ a ∈ l, f a = g a) : total f l = total g l :=
  Nat.le_antisymm (total_le_total fun a ha => (h a ha).le) (total_le_total fun a ha => (h a ha).ge)

theorem total_map (f : β → Nat) (g : α → β) : ∀ l : List α, total f (l.map g) = total (fun a => f (g a)) l
  | [] => rfl
  | a :: l => congrArg (f (g a) + ·) (total_map f g l)

theorem total_perm (f : α → Nat) (h : l.Perm k) : total f l = total f k := by
  induction h with
  | nil => rfl
  | cons a _ ih => exact congrArg (f a + ·) ih
  | swap a b l => exact Nat.add_left_comm ..
  | trans _ _ ih ih' => exact ih.trans ih'

theorem total_le_of_sublist (f : α → Nat) (h : l.Sublist k) : total f l ≤ total f k := by
  induction h with
  | slnil => exact Nat.le_refl _
  | cons a _ ih => exact Nat.le_trans ih (Nat.le_add_left ..)
  | cons_cons a _ ih => exact Nat.add_le_add_left ih _

/-- The total over distinct items is at most that over a list that has them all. -/
theorem total_le_of_subset (f : α → Nat) (hl : l.Nodup) (h : l ⊆ k) : total f l ≤ total f k := by
  obtain ⟨k', hperm, hsub⟩ := hl.subperm h
  rw [← total_perm f hperm]
  exact total_le_of_sublist f hsub

/-- Items that a measure leaves at zero do not matter for its total. -/
theorem total_filter {q : α → Bool} (h : ∀ a ∈ l, q a = false → f a = 0) : total f (l.filter q) = total f l := by
  induction l with
  | nil => rfl
  | cons a l ih =>
    rw [List.forall_mem_cons] at h
    rw [List.filter_cons, total, ← ih h.2]
    split
    · rfl
    · next ha => rw [h.1 (Bool.not_eq_true _ ▸ ha), Nat.zero_add]

end Totals

/-! ### Settled states -/

namespace Paging

theorem Line.code_injective {k l : Line} (h : k.code = l.code) : k = l := by
  obtain ⟨⟨level, region, asid⟩, ds⟩ := k
  obtain ⟨⟨level', region', asid'⟩, ds'⟩ := l
  have hlevel : (level.val : Int) = level'.val := by simpa [code] using congrArg List.head? h
  obtain rfl : level = level' := Fin.ext (Int.natCast_inj.mp hlevel)
  cases asid <;> cases asid' <;> simp_all [code]

theorem Cache.inOrder_eq_of_alike {c d : Cache} (h : c.Alike d) : c.inOrder = d.inOrder := by
  have hperm : c.inOrder.lines.Perm d.inOrder.lines := by
    refine (List.mergeSort_perm _ _).trans (.trans ?_ (List.mergeSort_perm _ _).symm)
    exact (List.perm_ext_iff_of_nodup c.distinct d.distinct).mpr h
  have sorted (e : Cache) : e.inOrder.lines.Pairwise fun a b => (compare a.code b.code).isLE = true := by
    refine List.pairwise_mergeSort ?_ ?_ _
    · exact fun _ _ _ => Std.TransCmp.isLE_trans
    · intro a b
      have hswap : compare b.code a.code = (compare a.code b.code).swap := Std.OrientedCmp.eq_swap
      rw [hswap]
      cases compare a.code b.code <;> rfl
  have hlines : c.inOrder.lines = d.inOrder.lines := by
    refine hperm.eq_of_pairwise ?_ (sorted c) (sorted d)
    intro a b _ _ hab hba
    exact Line.code_injective (Std.LawfulEqCmp.compare_eq_iff_eq.mp (Std.OrientedCmp.isLE_antisymm hab hba))
  generalize c.inOrder = c' at hlines
  generalize d.inOrder = d' at hlines
  cases c'
  cases d'
  cases hlines
  rfl

theorem Cache.inOrder_alike (c : Cache) : c.inOrder.Alike c := fun _ => (List.mergeSort_perm _ _).mem_iff

end Paging

theorem Slot.Alike.settled_eq {a b : Slot} (h : a.Alike b) :
    ({ a with thread := a.thread.withCache a.thread.cache.inOrder } : Slot) =
      { b with thread := b.thread.withCache b.thread.cache.inOrder } := by
  obtain ⟨c, hc, rfl⟩ := h
  exact congrArg (fun e => { b with thread := b.thread.withCache e }) (Cache.inOrder_eq_of_alike hc)

namespace State

variable {p : Program} {o : Options} {s t : State}

/-- States that differ in the order of their caches alone are one state once settled. -/
theorem Alike.settled_eq (h : s.Alike t) : s.settled = t.settled := by
  rw [settled, settled, h.memory_eq]
  refine congrArg (State.mk · t.memory) (List.ext_getElem (by simp [h.length_eq]) ?_)
  intro tid h₁ h₂
  rw [List.length_map] at h₁ h₂
  rw [List.getElem_map, List.getElem_map]
  exact (h.slots (List.getElem?_eq_getElem h₁) (List.getElem?_eq_getElem h₂)).settled_eq

theorem settled_alike (s : State) : s.settled.Alike s := by
  refine ⟨rfl, by simp [settled], ?_⟩
  intro tid a b ha hb
  simp only [settled, List.getElem?_map, hb, Option.map_some, Option.some.injEq] at ha
  exact ⟨_, Cache.inOrder_alike _, ha.symm⟩

end State

/-! ### What exploring a state meets -/

/-- What a finding counts as: an instruction run, a move, a pruned path, or the end of the search. -/
inductive Tally where
  | step
  | move
  | discard
  | stop
  deriving DecidableEq

/-- What a finding counts as. -/
def Finding.tally : Finding → Tally
  | .began => .step
  | .reached _ | .promised _ _ _ _ _ => .move
  | .pruned _ _ _ _ => .discard
  | .stopped _ => .stop

/-- What a leaf counts as. -/
def Leaf.tally {α : Type} : Leaf α → Tally
  | .done _ => .move
  | .discard _ _ => .discard
  | .fail _ | .thrown _ | .tooWide _ => .stop

theorem Finding.tally_ofLeaf {p : Program} {o : Options} {s : State} {tid : Nat} {slot : Slot} (l : Leaf Frame) :
    (ofLeaf p o s tid slot l).tally = l.tally := by cases l <;> rfl

theorem Leaf.Alike.tally_eq {α β : Type} {R : α → β → Prop} {l : Leaf α} {k : Leaf β} (h : Alike R l k) :
    l.tally = k.tally := by
  cases h with
  | done => rfl
  | discard => rfl
  | stop h h' => cases l <;> cases k <;> first | rfl | exact h.elim | exact h'.elim

/-- How many findings count as one thing. -/
def Tally.count (k : Tally) (xs : List Finding) : Nat := (xs.map Finding.tally).count k

theorem Tally.count_append (k : Tally) (xs ys : List Finding) : k.count (xs ++ ys) = k.count xs + k.count ys := by
  rw [count, count, count, List.map_append, List.count_append]

theorem Tally.count_flatMap {α : Type} (k : Tally) (xs : α → List Finding) : ∀ l : List α,
    k.count (l.flatMap xs) = total (fun a => k.count (xs a)) l
  | [] => rfl
  | a :: l => by rw [List.flatMap_cons, count_append, count_flatMap k xs l, total]

namespace State

variable {p : Program} {o : Options} {s t : State} {k : Tally}

/-- All that exploring a state meets, thread by thread. -/
def met (p : Program) (o : Options) (s : State) : List Finding := (List.range s.threads.length).flatMap (s.findings p o)

/-- How much exploring a state meets of one thing. -/
def count (p : Program) (o : Options) (k : Tally) (s : State) : Nat := k.count (s.met p o)

theorem tally_ofPromise {tid : Nat} {slot : Slot} {c : Cache} (h : s.memory = t.memory) (w : (Int × Int) × Nat) :
    (Finding.ofPromise s tid { slot with thread := slot.thread.withCache c } w).tally =
      (Finding.ofPromise t tid slot w).tally := by
  simp only [Finding.ofPromise, Frame.promiseWrite, h]
  cases checkLocation w.1.1 with
  | error f => rfl
  | ok loc =>
    have htid : (slot.thread.withCache c).tid = slot.thread.tid := rfl
    rw [htid]
    dsimp only [bind, Except.bind]
    cases t.memory.promise (.write slot.thread.tid loc w.1.2) <;> rfl

/-- Exploring states that differ in the order of their caches alone meets the same, up to its order. -/
theorem Alike.findings_perm (h : s.Alike t) (tid : Nat) :
    ((s.findings p o tid).map Finding.tally).Perm ((t.findings p o tid).map Finding.tally) := by
  cases ht : p.threads[tid]? with
  | none => simp [findings, ht]
  | some thread =>
    cases hb : t.threads[tid]? with
    | none =>
      have ha : s.threads[tid]? = none :=
        List.getElem?_eq_none (h.length_eq ▸ List.getElem?_eq_none_iff.mp hb)
      simp [findings, ht, ha, hb]
    | some slot =>
      obtain ⟨_, ha, c, hc, rfl⟩ := h.exists_slot hb
      cases hi : thread.code[slot.pc]? with
      | none => simp [findings, ht, ha, hb, findingsOf, hi]
      | some i =>
        have hleaves := Instr.run_recached (m := o.maxChooseBits) i (f := { thread := slot.thread, memory := t.memory })
          ⟨c, hc, rfl⟩
        rw [findings_eq ht hb hi, findings_eq ht ha hi, h.memory_eq]
        simp only [List.map_append, List.map_cons, List.map_map]
        refine (List.Perm.cons _ ?_).append (.of_eq (List.map_congr_left fun w _ => tally_ofPromise h.memory_eq w))
        refine Multiset.coe_eq_coe.mp (Multiset.rel_eq.mp (Multiset.rel_map.mpr (hleaves.mono ?_))).symm
        intro l _ l' _ hl
        exact (Finding.tally_ofLeaf l).trans (hl.tally_eq.trans (Finding.tally_ofLeaf l').symm)

/-- Nothing is met in a state without instructions left. -/
theorem met_eq_nil (h : s.isRunning p = false) : s.met p o = [] := by
  have hs : s.Finished p := not_not.mp fun hn => by simp [isRunning_iff.mpr hn] at h
  exact List.flatMap_eq_nil_iff.mpr fun _ _ => hs.findings_eq_nil

theorem count_eq_total (p : Program) (o : Options) (k : Tally) (s : State) :
    s.count p o k = total (fun tid => k.count (s.findings p o tid)) (List.range s.threads.length) :=
  k.count_flatMap _ _

theorem Alike.count_eq (h : s.Alike t) : s.count p o k = t.count p o k := by
  rw [count_eq_total, count_eq_total, h.length_eq]
  exact total_congr fun tid _ => (h.findings_perm tid).count_eq k

/-- Whether a state has no instructions left, but promises. -/
def isStuck (p : Program) (s : State) : Bool := !s.isRunning p && !s.pending.isEmpty

theorem Alike.isRunning_eq (h : s.Alike t) : s.isRunning p = t.isRunning p := by
  rw [Bool.eq_iff_iff, isRunning_iff, isRunning_iff]
  exact not_congr ⟨h.finished, h.symm.finished⟩

theorem Alike.isStuck_eq (h : s.Alike t) : s.isStuck p = t.isStuck p := by
  have hpending : s.pending.isEmpty = t.pending.isEmpty := by
    rw [Bool.eq_iff_iff, pending_isEmpty_iff, pending_isEmpty_iff]
    exact ⟨h.fulfilled, h.symm.fulfilled⟩
  rw [isStuck, isStuck, h.isRunning_eq, hpending]

end State

end Litmus
