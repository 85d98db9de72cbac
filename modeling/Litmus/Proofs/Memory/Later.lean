import Litmus.Proofs.Memory.Window
import Mathlib.Data.List.Sort

/-!
Memory does not forget. What a memory shows up to its last time it still shows once it has grown. Main facts: memories
that show the same events at the same times are the same to all that looks at them; and whatever is told by the events
up to some time inside a memory is the same in every memory that goes on from it.
-/

namespace Litmus.Memory

variable {m n : Memory} {loc : Int} {t v : View}

/-- The entries of a kind are determined by which events of that kind are shown at each time. -/
theorem filter_entries_congr {p : View × Event → Bool}
    (h : ∀ t e, p (t, e) = true → (n.at? t = some e ↔ m.at? t = some e)) : n.entries.filter p = m.entries.filter p := by
  have : Std.Irrefl fun a b : View × Event => a.1 < b.1 := ⟨fun a => Int.lt_irrefl a.1⟩
  refine (n.pairwise_entries.filter p).eq_of_mem_iff (m.pairwise_entries.filter p) ?_
  rintro ⟨t, e⟩
  rw [List.mem_filter, List.mem_filter, mem_entries, mem_entries]
  exact and_congr_left (h t e)

/-- The first entry of a kind is determined by which events of that kind are shown at each time. -/
theorem find?_entries_congr {p : View × Event → Bool}
    (h : ∀ t e, p (t, e) = true → (n.at? t = some e ↔ m.at? t = some e)) : n.entries.find? p = m.entries.find? p := by
  rw [← List.head?_filter, ← List.head?_filter, filter_entries_congr h]

theorem shown_congr (h : ∀ t, n.at? t = m.at? t) : n.shown = m.shown := by
  have hentries := filter_entries_congr (m := m) (n := n) (p := fun _ => true) fun t e _ => by rw [h]
  rw [List.filter_true, List.filter_true] at hentries
  rw [shown, shown, hentries]

/-- Whether an exclusive pair is alone with its cell is determined by what is shown at each time. -/
theorem exclusive_congr (h : ∀ t, n.at? t = m.at? t) (loc tid : Int) (v : View) :
    n.exclusive loc tid v = m.exclusive loc tid v := by
  have hafter : (n.after v).shown = (m.after v).shown := shown_congr fun t => by rw [at?_after, at?_after, h]
  rw [exclusive, exclusive, h, hafter]

namespace Extends

/-- What is shown up to a time inside memory does not change any more. -/
theorem at?_cut_eq (h : m.Extends n) (hv : v ≤ m.length) (t : View) : (n.cut v).at? t = (m.cut v).at? t := by
  rw [at?_cut, at?_cut]
  split
  · exact h.at?_eq t (by lia)
  · rfl

/-- What a read may return it may return later. -/
theorem mem_candidates {r : Read} (h : m.Extends n) (hv : v ≤ m.length) (hr : r ∈ m.candidates loc v) :
    r ∈ n.candidates loc v := by
  rcases Memory.mem_candidates.mp hr with ⟨hlt, tid, hw⟩ | rfl
  · exact Memory.mem_candidates.mpr (.inl ⟨hlt, tid, h.at?_eq_some hw⟩)
  · exact Memory.mem_candidates.mpr (.inr (h.latest_cut_eq hv).symm)

/-- Which promise an event would fulfil does not change any more. -/
theorem fulfil?_eq {promises : List View} (h : m.Extends n) (hp : ∀ p ∈ promises, p ≤ m.length) (e : Event) :
    n.fulfil? e promises = m.fulfil? e promises := by
  rw [fulfil?, fulfil?]
  congr 1
  refine List.filter_congr ?_
  intro p hmem
  rw [h.at?_eq p (hp p hmem)]

end Extends

/-- A whole memory shows all its events, the first at time one. -/
theorem Whole.at?_succ (hm : m.Whole) (i : Nat) : m.at? (i + 1) = m.events[i]? := by
  obtain ⟨hlo, hhi⟩ := hm
  rw [at?]
  split
  · have hi : ((i : View) + 1).toNat - 1 = i := by lia
    rw [hi]
  · exact (List.getElem?_eq_none (by lia)).symm

/-- Whole memories that go on from each other are the same. -/
theorem Extends.antisymm (h : m.Extends n) (h' : n.Extends m) (hm : m.Whole) (hn : n.Whole) : m = n := by
  refine hm.eq_of hn h.initial.symm (List.ext_getElem? fun i => ?_)
  rw [← hm.at?_succ, ← hn.at?_succ]
  by_cases hi : (i : View) + 1 ≤ m.length
  · exact (h.at?_eq _ hi).symm
  · have none {o : Memory} (ho : o.length ≤ m.length) : o.at? (i + 1) = none :=
      Option.eq_none_iff_forall_ne_some.mpr fun e he => hi (Int.le_trans (le_length_of_at? he) ho)
    rw [none (Int.le_refl _), none h'.length_le]

end Litmus.Memory
