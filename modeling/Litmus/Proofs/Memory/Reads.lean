import Litmus.Proofs.Memory.Later

/-!
What a read may return. From a view a read may return each write of its cell past the view, in the order of their
times, and last the newest one up to the view, or the initial value when there is none. Main facts: that; from a later
view it may return no more; and an event that is new adds itself alone, right before the last, if it writes the cell.
-/

namespace Litmus.Memory

variable {m n : Memory} {loc : Int} {t v w : View} {e : Event}

/-! ### Which writes are read -/

/-- The write that is read last, from a view: the newest up to the view, or the initial value when there is none. -/
def ReadsLast (m : Memory) (loc : Int) (v : View) (last : Read) : Prop :=
  (last.time ≤ v ∧ (∃ tid, m.at? last.time = some (.write tid loc last.value)) ∧
    ∀ t tid value, t ≤ v → m.at? t = some (.write tid loc value) → t ≤ last.time) ∨
  last = ⟨m.initial.readCell loc, 0⟩ ∧ ∀ t tid value, t ≤ v → m.at? t ≠ some (.write tid loc value)

/-- What is read from a view: the writes past it, in the order of their times, and then one no later than it. -/
structure ReadsFrom (m : Memory) (loc : Int) (v : View) (later : List Read) (last : Read) : Prop where
  ordered : later.Pairwise fun a b => a.time < b.time
  mem_later : ∀ r, r ∈ later ↔ v < r.time ∧ ∃ tid, m.at? r.time = some (.write tid loc r.value)
  last : m.ReadsLast loc v last

theorem readsLast_latest_cut (m : Memory) (loc : Int) (v : View) : m.ReadsLast loc v ((m.cut v).latest loc) := by
  obtain ⟨hr, hnewest⟩ := latest_eq_iff.mp (rfl : (m.cut v).latest loc = _)
  by_cases hnone : ∀ t tid value, t ≤ v → m.at? t ≠ some (.write tid loc value)
  · refine .inr ⟨hr.resolve_left ?_, hnone⟩
    rintro ⟨tid, hw⟩
    obtain ⟨hle, hw⟩ := at?_cut_eq_some_iff.mp hw
    exact hnone _ tid _ hle hw
  · push Not at hnone
    obtain ⟨t, tid, value, hle, ht⟩ := hnone
    have hpos : 0 < ((m.cut v).latest loc).time :=
      Int.lt_of_lt_of_le (pos_of_at? ht) (hnewest t tid value (at?_cut_eq_some_iff.mpr ⟨hle, ht⟩))
    obtain ⟨i, hw⟩ := hr.resolve_right fun h0 => by
      rw [h0] at hpos
      exact absurd hpos (Int.lt_irrefl 0)
    obtain ⟨hlast, hw⟩ := at?_cut_eq_some_iff.mp hw
    refine .inl ⟨hlast, ⟨i, hw⟩, ?_⟩
    intro t' tid' value' hle' ht'
    exact hnewest t' tid' value' (at?_cut_eq_some_iff.mpr ⟨hle', ht'⟩)

theorem readsFrom_candidates (m : Memory) (loc : Int) (v : View) :
    m.ReadsFrom loc v ((m.after v).writesOf loc) ((m.cut v).latest loc) where
  ordered := (m.after v).pairwise_writesOf loc
  mem_later r := by simp only [mem_writesOf, at?_after_eq_some_iff, exists_and_left]
  last := m.readsLast_latest_cut loc v

/-- Nothing is read twice: a write past the view is not one up to it, and the initial value is no write. -/
theorem ReadsFrom.nodup {later : List Read} {last : Read} (h : m.ReadsFrom loc v later last) :
    (later ++ [last]).Nodup := by
  refine List.nodup_append.mpr ⟨h.ordered.imp fun hlt e => ?_, List.nodup_singleton last, ?_⟩
  · rw [e] at hlt
    exact Int.lt_irrefl _ hlt
  · rintro r hr r' hr' rfl
    obtain ⟨hlt, tid, hw⟩ := (h.mem_later r).mp hr
    obtain rfl := List.mem_singleton.mp hr'
    rcases h.last with ⟨hle, -⟩ | ⟨h0, -⟩
    · exact Int.not_le.mpr hlt hle
    · have hpos := pos_of_at? hw
      rw [h0] at hpos
      exact Int.lt_irrefl 0 hpos

/-! ### New events -/

/-- The read that an event at a time adds to those of a cell, if it writes the cell. -/
def readOf? (loc : Int) (t : View) : Event → Option Read
  | .write _ l value => if l = loc then some ⟨value, t⟩ else none
  | .maintain _ _ => none

theorem readOf?_eq_some {r : Read} : readOf? loc t e = some r ↔ r.time = t ∧ ∃ tid, e = .write tid loc r.value := by
  obtain ⟨value, time⟩ := r
  cases e with
  | write tid l x =>
    simp only [readOf?, Option.ite_none_right_eq_some, Option.some.injEq, Read.mk.injEq, Event.write.injEq]
    grind
  | maintain tid x => simp [readOf?]

/-- A new event of a whole memory adds its own read at the end of those past a view. -/
theorem writesOf_after_promise (hm : m.Whole) (hv : v ≤ m.length) (h : m.promise e = .ok (n, t)) :
    (n.after v).writesOf loc = (m.after v).writesOf loc ++ (readOf? loc t e).toList := by
  obtain ⟨n', hn, -, -, -, hat⟩ := promise_spec hm e
  cases hn.symm.trans h
  have hirrefl : Std.Irrefl fun a b : Read => a.time < b.time := ⟨fun a => Int.lt_irrefl a.time⟩
  refine ((n.after v).pairwise_writesOf loc).eq_of_mem_iff ?_ fun r => ?_
  · refine List.pairwise_append.mpr ⟨(m.after v).pairwise_writesOf loc, ?_, ?_⟩
    · cases readOf? loc (m.length + 1) e <;> simp
    · intro r hr r' hr'
      obtain ⟨tid, hw⟩ := mem_writesOf.mp hr
      have hle := le_length_of_at? (at?_after_eq_some_iff.mp hw).2
      have htime := (readOf?_eq_some.mp (Option.mem_toList.mp hr')).1
      lia
  · rw [List.mem_append, mem_writesOf, mem_writesOf, Option.mem_toList, readOf?_eq_some]
    simp only [at?_after_eq_some_iff, hat]
    by_cases htime : r.time = m.length + 1
    · have hnone (tid : Int) : m.at? r.time ≠ some (.write tid loc r.value) := fun he => by
        have := le_length_of_at? he
        lia
      simp only [htime, if_true, Option.some.injEq]
      grind
    · simp only [htime, if_false, false_and, or_false]

/-- What a read of a cell may return, from any view. A misaligned cell is a fault, whatever memory holds. Else the
writes of the cell past the view come first, in the order of their times, and the newest up to it comes last, or the
initial value when there is none; nothing comes twice. From a later view nothing else may be returned. To what a view
within memory may return an event that is new adds itself, if it writes the cell, and it changes nothing else. -/
theorem read_exact (m : Memory) (loc : Int) (v : View) :
    (loc % 8 ≠ 0 → m.read loc v = .error (.misaligned loc)) ∧
    (loc % 8 = 0 → ∃ later last, m.read loc v = .ok (later ++ [last]) ∧ (later ++ [last]).Nodup ∧
      m.ReadsFrom loc v later last ∧
      (∀ w, v ≤ w → ∃ fewer, m.read loc w = .ok fewer ∧ fewer ⊆ later ++ [last]) ∧
      (m.Whole → v ≤ m.length → ∀ e, ∃ n, m.promise e = .ok (n, m.length + 1) ∧
        n.read loc v = .ok (later ++ (readOf? loc (m.length + 1) e).toList ++ [last]))) := by
  have aligned (m : Memory) (v : View) (h : loc % 8 = 0) : m.read loc v = .ok (m.candidates loc v) := by
    rw [read, checkLocation, if_pos h]
    rfl
  constructor
  · intro h
    rw [read, checkLocation, if_neg h]
    rfl
  · intro h
    have hreads := m.readsFrom_candidates loc v
    refine ⟨_, _, aligned m v h, hreads.nodup, hreads, ?_, ?_⟩
    · exact fun w hw => ⟨_, aligned m w h, fun r hr => mem_candidates_of_le hw hr⟩
    · intro hm hv e
      obtain ⟨n, hn, -, hinit, hlength, hat⟩ := promise_spec hm e
      have hext : m.Extends n := ⟨hinit, by lia, fun t ht => by rw [hat, if_neg (by lia)]⟩
      refine ⟨n, hn, ?_⟩
      rw [aligned n v h, candidates, writesOf_after_promise hm hv hn, hext.latest_cut_eq hv]

/-- A cell that two threads write, with maintenance between the writes. -/
def rewrittenCell : Memory where
  events := [.write 0 8 5, .maintain 0 .all, .write 1 8 7]
  initial := ∅
  lo := 0
  hi := 3
  lo_le_hi := by decide
  hi_le_length := by decide

theorem read_exact_rewrittenCell : ∃ later last, rewrittenCell.read 8 2 = .ok (later ++ [last]) ∧
    rewrittenCell.ReadsFrom 8 2 later last ∧ later = [⟨7, 3⟩] ∧ last = ⟨5, 1⟩ ∧
    (∃ n, rewrittenCell.promise (.write 0 8 9) = .ok (n, 4) ∧ n.read 8 2 = .ok [⟨7, 3⟩, ⟨9, 4⟩, ⟨5, 1⟩]) ∧
    rewrittenCell.read 9 2 = .error (.misaligned 9) := by
  obtain ⟨-, hread⟩ := rewrittenCell.read_exact 8 2
  obtain ⟨later, last, hok, -, hreads, -, hgrown⟩ := hread (by decide)
  have hlist : later ++ [last] = [⟨7, 3⟩] ++ [⟨5, 1⟩] := Except.ok.inj (hok.symm.trans rfl)
  obtain ⟨rfl, hlast⟩ := List.append_inj' hlist rfl
  cases hlast
  exact ⟨_, _, hok, hreads, rfl, rfl, hgrown ⟨rfl, rfl⟩ (by decide) _, (rewrittenCell.read_exact 9 2).1 (by decide)⟩

end Litmus.Memory
