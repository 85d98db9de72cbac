import Litmus.Memory
import Litmus.Proofs.Outcome.Yields
import Mathlib.Logic.Basic

/-!
What a memory shows. Everything that is read of a memory is told by `at?`: `cut` and `after` hide
events under their own times, the writes of a cell are the events that write it, and the latest of
them is the newest event shown that does. A whole memory grows at its end alone.
-/

namespace Litmus

theorem checkLocation_eq_ok {pa loc : Int} : checkLocation pa = .ok loc ↔ pa % 8 = 0 ∧ loc = pa := by
  rw [checkLocation]
  split
  · next h => simp [h, eq_comm]
  · next h => simp [h]

namespace Memory

variable {m : Memory} {loc : Int} {t v : View} {e : Event}

/-! ### Events at their times -/

theorem at?_eq_some_iff : m.at? t = some e ↔ m.lo < t ∧ t ≤ m.hi ∧ m.events[t.toNat - 1]? = some e := by
  rw [at?]
  split
  · next h => simp [h]
  · next h => simp only [reduceCtorEq, false_iff]; exact fun h' => h ⟨h'.1, h'.2.1⟩

theorem pos_of_at? (h : m.at? t = some e) : 0 < t := by
  have := (at?_eq_some_iff.mp h).1; lia

theorem le_length_of_at? (h : m.at? t = some e) : t ≤ m.length := (at?_eq_some_iff.mp h).2.1

theorem mem_entries : (t, e) ∈ m.entries ↔ m.at? t = some e := by
  have hi := m.hi_le_length
  simp only [entries, List.mem_map, Prod.mk.injEq, Prod.exists, List.mk_mem_zipIdx_iff_le_and_getElem?_sub,
    List.getElem?_drop, at?_eq_some_iff]
  constructor
  · rintro ⟨e', n, ⟨hn, he⟩, rfl, rfl⟩
    have hlt : m.lo + (n - (m.lo + 1)) < m.hi := Nat.lt_of_not_le fun hge => by
      rw [List.getElem?_take_eq_none hge] at he
      cases he
    rw [List.getElem?_take_of_lt hlt] at he
    refine ⟨by lia, by lia, ?_⟩
    rw [← he]
    congr 1
    lia
  · rintro ⟨hlo, hhi, he⟩
    refine ⟨e, t.toNat, ⟨by lia, ?_⟩, by lia, rfl⟩
    rw [List.getElem?_take_of_lt (by lia), ← he]
    congr 1
    lia

theorem mem_shown : e ∈ m.shown ↔ ∃ t, m.at? t = some e := by
  simp [shown, mem_entries]

/-- Numbered events come in the order of their numbers. -/
theorem pairwise_zipIdx (events : List Event) (k : Nat) :
    ((events.zipIdx k).map fun (e, t) => ((t : Int), e)).Pairwise fun a b => a.1 < b.1 := by
  rw [List.pairwise_map]
  induction events generalizing k with
  | nil => exact List.Pairwise.nil
  | cons e l ih =>
    rw [List.zipIdx_cons, List.pairwise_cons]
    refine ⟨?_, ih (k + 1)⟩
    intro x hx
    have := List.le_snd_of_mem_zipIdx hx
    exact Int.ofNat_lt.mpr this

/-- Entries come in the order of their times. -/
theorem pairwise_entries (m : Memory) : m.entries.Pairwise fun a b => a.1 < b.1 := pairwise_zipIdx _ _

/-! ### Windows -/

/-- A cut hides what comes after its time. -/
theorem at?_cut : (m.cut v).at? t = if t ≤ v then m.at? t else none := by
  have := m.lo_le_hi
  have window : (m.cut v).lo < t ∧ t ≤ (m.cut v).hi ↔ t ≤ v ∧ m.lo < t ∧ t ≤ m.hi := by
    simp only [cut]; lia
  simp only [at?]
  simp only [window, ite_and]
  rfl

/-- What is after a time hides what comes up to it. -/
theorem at?_after : (m.after v).at? t = if v < t then m.at? t else none := by
  have := m.lo_le_hi
  have window : (m.after v).lo < t ∧ t ≤ (m.after v).hi ↔ v < t ∧ m.lo < t ∧ t ≤ m.hi := by
    simp only [after]; lia
  simp only [at?]
  simp only [window, ite_and]
  rfl

theorem at?_cut_eq_some_iff : (m.cut v).at? t = some e ↔ t ≤ v ∧ m.at? t = some e := by
  rw [at?_cut]; split <;> simp [*]

theorem at?_after_eq_some_iff : (m.after v).at? t = some e ↔ v < t ∧ m.at? t = some e := by
  rw [at?_after]; split <;> simp [*]

/-! ### Reads -/

theorem mem_writesOf {r : Read} : r ∈ m.writesOf loc ↔ ∃ tid, m.at? r.time = some (.write tid loc r.value) := by
  simp only [writesOf, List.mem_filterMap, Prod.exists, mem_entries]
  constructor
  · rintro ⟨t, e, he, hr⟩
    cases e with
    | write tid l value =>
      simp only [Option.ite_none_right_eq_some, Option.some.injEq] at hr
      obtain ⟨rfl, rfl⟩ := hr
      exact ⟨tid, he⟩
    | maintain => cases hr
  · rintro ⟨tid, h⟩
    exact ⟨r.time, _, h, by simp⟩

/-- The writes of a cell come in the order of their times. -/
theorem pairwise_writesOf (m : Memory) (loc : Int) : (m.writesOf loc).Pairwise fun a b => a.time < b.time := by
  refine List.Pairwise.filterMap _ ?_ m.pairwise_entries
  rintro ⟨t, e⟩ ⟨t', e'⟩ hlt r hr r' hr'
  cases e <;> cases e' <;> simp only [Option.ite_none_right_eq_some, Option.some.injEq, reduceCtorEq] at hr hr'
  obtain ⟨-, rfl⟩ := hr
  obtain ⟨-, rfl⟩ := hr'
  exact hlt

/-- What the latest write of a cell is: none is newer, and it is a write unless there is none at all. -/
theorem latest_cases (m : Memory) (loc : Int) :
    (m.latest loc ∈ m.writesOf loc ∧ ∀ r ∈ m.writesOf loc, r.time ≤ (m.latest loc).time) ∨
    (m.writesOf loc = [] ∧ m.latest loc = ⟨m.initial.readCell loc, 0⟩) := by
  have sorted := m.pairwise_writesOf loc
  rw [latest]
  rcases List.eq_nil_or_concat (m.writesOf loc) with h | ⟨l, r, h⟩
  · exact .inr ⟨h, by rw [h]; rfl⟩
  · rw [List.concat_eq_append] at h
    rw [h] at sorted ⊢
    rw [List.getLast?_concat, Option.getD_some]
    refine .inl ⟨by simp, ?_⟩
    intro r' hr'
    rcases List.mem_append.mp hr' with hr' | hr'
    · exact Int.le_of_lt ((List.pairwise_append.mp sorted).2.2 r' hr' r (List.mem_singleton_self r))
    · exact Int.le_of_eq (congrArg Read.time (List.mem_singleton.mp hr'))

/-- The latest write of a cell is told by its time: it is the write there, and no later event writes the
cell; at time zero nothing does. -/
theorem latest_eq_iff {r : Read} : m.latest loc = r ↔
    ((∃ tid, m.at? r.time = some (.write tid loc r.value)) ∨ r = ⟨m.initial.readCell loc, 0⟩) ∧
    ∀ t tid value, m.at? t = some (.write tid loc value) → t ≤ r.time := by
  have newest {r : Read} : (∀ r' ∈ m.writesOf loc, r'.time ≤ r.time) ↔
      ∀ t tid value, m.at? t = some (.write tid loc value) → t ≤ r.time :=
    ⟨fun h t tid value ht => h ⟨value, t⟩ (mem_writesOf.mpr ⟨tid, ht⟩),
      fun h r' hr' => (mem_writesOf.mp hr').elim fun tid ht => h _ tid _ ht⟩
  rw [← newest, ← mem_writesOf]
  have cases := m.latest_cases loc
  constructor
  · rintro rfl
    rcases cases with ⟨hm, hl⟩ | ⟨hn, hl⟩
    · exact ⟨.inl hm, hl⟩
    · exact ⟨.inr hl, by simp [hn]⟩
  · rintro ⟨hr, hl⟩
    rcases cases with ⟨hm, hl'⟩ | ⟨hn, hl'⟩
    · obtain ⟨tid', hm'⟩ := mem_writesOf.mp hm
      rcases hr with hr | rfl
      · -- two writes of the same time are the same write
        have ht : (m.latest loc).time = r.time := Int.le_antisymm (hl _ hm) (hl' _ hr)
        obtain ⟨tid, hr⟩ := mem_writesOf.mp hr
        rw [ht, hr] at hm'
        cases hl : m.latest loc
        cases r
        simp_all
      · have := pos_of_at? hm'
        have := hl _ hm
        lia
    · rcases hr with hr | rfl
      · simp [hn] at hr
      · exact hl'

/-- Memories that show the same events after the same image have the same latest writes. -/
theorem latest_congr {n : Memory} (hi : n.initial = m.initial) (h : ∀ t, n.at? t = m.at? t) (loc : Int) :
    n.latest loc = m.latest loc := by
  rw [latest_eq_iff]
  simp only [h, hi]
  exact latest_eq_iff.mp rfl

/-- At time zero there is the initial image alone. -/
theorem latest_cut_zero (m : Memory) (loc : Int) : (m.cut 0).latest loc = ⟨m.initial.readCell loc, 0⟩ := by
  refine latest_eq_iff.mpr ⟨.inr rfl, ?_⟩
  intro t tid value ht
  exact (at?_cut_eq_some_iff.mp ht).1

/-- A cut past all events hides nothing. -/
theorem at?_cut_of_none (h : ∀ t, v < t → m.at? t = none) (t : View) : (m.cut v).at? t = m.at? t := by
  rw [at?_cut]
  split
  · rfl
  · next ht => exact (h t (Int.not_le.mp ht)).symm

theorem latest_time_nonneg (m : Memory) (loc : Int) : 0 ≤ (m.latest loc).time := by
  rcases (latest_eq_iff.mp rfl : _ ∧ ∀ t tid value, m.at? t = some (.write tid loc value) → t ≤ (m.latest loc).time).1
    with ⟨tid, h⟩ | h
  · exact Int.le_of_lt (pos_of_at? h)
  · exact Int.le_of_eq (congrArg Read.time h).symm

/-- The latest write up to a time is what is written then, if the cell is, else the latest write before. -/
theorem latest_cut_succ {tid l value : Int} (h : m.at? (v + 1) = some (.write tid l value)) (loc : Int) :
    (m.cut (v + 1)).latest loc = if loc = l then ⟨value, v + 1⟩ else (m.cut v).latest loc := by
  rw [latest_eq_iff]
  by_cases hl : loc = l
  · subst hl
    rw [if_pos rfl]
    refine ⟨.inl ⟨tid, at?_cut_eq_some_iff.mpr ⟨Int.le_refl _, h⟩⟩, fun t tid value ht => ?_⟩
    exact (at?_cut_eq_some_iff.mp ht).1
  · rw [if_neg hl]
    obtain ⟨hr, hnewest⟩ := latest_eq_iff.mp (rfl : (m.cut v).latest loc = _)
    refine ⟨hr.imp_left ?_, ?_⟩
    · intro hw
      obtain ⟨i, hw⟩ := hw
      obtain ⟨hle, hw⟩ := at?_cut_eq_some_iff.mp hw
      exact ⟨i, at?_cut_eq_some_iff.mpr ⟨by lia, hw⟩⟩
    · intro t tid' value' ht
      obtain ⟨hle, ht⟩ := at?_cut_eq_some_iff.mp ht
      have hne : t ≠ v + 1 := by
        rintro rfl
        rw [h] at ht
        cases ht
        exact hl rfl
      exact hnewest t tid' value' (at?_cut_eq_some_iff.mpr ⟨by lia, ht⟩)

/-- A read from a view returns a write past it, or the latest up to it. -/
theorem mem_candidates {r : Read} : r ∈ m.candidates loc v ↔
    (v < r.time ∧ ∃ tid, m.at? r.time = some (.write tid loc r.value)) ∨ r = (m.cut v).latest loc := by
  simp only [candidates, List.mem_append, mem_writesOf, at?_after_eq_some_iff, exists_and_left, List.mem_singleton]

/-- Whatever a read may return is a write of the cell, or its initial value. -/
theorem write_of_mem_candidates {r : Read} (h : r ∈ m.candidates loc v) :
    (∃ tid, m.at? r.time = some (.write tid loc r.value)) ∨ r = ⟨m.initial.readCell loc, 0⟩ := by
  rcases mem_candidates.mp h with ⟨-, hw⟩ | hr
  · exact .inl hw
  · refine (latest_eq_iff.mp hr.symm).1.imp_left ?_
    rintro ⟨tid, hw⟩
    exact ⟨tid, (at?_cut_eq_some_iff.mp hw).2⟩

/-- A read from a view returns nothing older than any write of its cell up to it. -/
theorem le_of_mem_candidates {r : Read} (hr : r ∈ m.candidates loc v) {t tid value : Int}
    (ht : m.at? t = some (.write tid loc value)) (hle : t ≤ v) : t ≤ r.time := by
  rcases mem_candidates.mp hr with ⟨hlt, -⟩ | hlatest
  · exact Int.le_of_lt (Int.lt_of_le_of_lt hle hlt)
  · exact (latest_eq_iff.mp hlatest.symm).2 t tid value (at?_cut_eq_some_iff.mpr ⟨hle, ht⟩)

/-- What a read from a view returns is told by its time: it is a write of the cell, or the initial value, after which
the cell is not written again up to the view. -/
theorem mem_candidates_iff_newest {r : Read} : r ∈ m.candidates loc v ↔
    ((∃ tid, m.at? r.time = some (.write tid loc r.value)) ∨ r = ⟨m.initial.readCell loc, 0⟩) ∧
    ∀ t tid value, t ≤ v → m.at? t = some (.write tid loc value) → t ≤ r.time := by
  constructor
  · intro hr
    exact ⟨write_of_mem_candidates hr, fun t tid value hle ht => le_of_mem_candidates hr ht hle⟩
  · rintro ⟨hr, hnewest⟩
    rw [mem_candidates]
    by_cases hpast : v < r.time ∧ ∃ tid, m.at? r.time = some (.write tid loc r.value)
    · exact .inl hpast
    · right
      symm
      rw [latest_eq_iff]
      refine ⟨hr.imp_left ?_, ?_⟩
      · rintro ⟨tid, hw⟩
        exact ⟨tid, at?_cut_eq_some_iff.mpr ⟨Int.not_lt.mp fun hlt => hpast ⟨hlt, tid, hw⟩, hw⟩⟩
      · intro t tid value ht
        obtain ⟨hle, ht⟩ := at?_cut_eq_some_iff.mp ht
        exact hnewest t tid value hle ht

/-- A read from any view may return the latest write of all. -/
theorem latest_mem_candidates (m : Memory) (loc : Int) (v : View) : m.latest loc ∈ m.candidates loc v := by
  obtain ⟨hr, hnewest⟩ := latest_eq_iff.mp (rfl : m.latest loc = _)
  exact mem_candidates_iff_newest.mpr ⟨hr, fun t tid value _ ht => hnewest t tid value ht⟩

/-- What a read may return from a view it may return from every earlier one. -/
theorem mem_candidates_of_le {w : View} {r : Read} (hle : v ≤ w) (hr : r ∈ m.candidates loc w) :
    r ∈ m.candidates loc v := by
  obtain ⟨hr, hnewest⟩ := mem_candidates_iff_newest.mp hr
  exact mem_candidates_iff_newest.mpr ⟨hr, fun t tid value ht => hnewest t tid value (Int.le_trans ht hle)⟩

/-! ### Growth -/

/-- The memory shows all of its events. -/
def Whole (m : Memory) : Prop := m.lo = 0 ∧ m.hi = m.events.length

/-- A whole memory has an event at each time up to its length. -/
theorem Whole.exists_at? (hm : m.Whole) (hpos : 0 < t) (hle : t ≤ m.length) : ∃ e, m.at? t = some e := by
  obtain ⟨hlo, hhi⟩ := hm
  have hlt : t.toNat - 1 < m.events.length := by
    have : t ≤ m.hi := hle
    lia
  exact ⟨_, at?_eq_some_iff.mpr ⟨by lia, hle, List.getElem?_eq_getElem hlt⟩⟩

theorem whole_ofImage (initial : Image) : (ofImage initial).Whole := ⟨rfl, rfl⟩

theorem Whole.eq_of {m n : Memory} (hm : m.Whole) (hn : n.Whole) (hi : m.initial = n.initial)
    (he : m.events = n.events) : m = n := by
  obtain ⟨hlo, hhi⟩ := hm
  obtain ⟨hlo', hhi'⟩ := hn
  cases m
  cases n
  simp_all

/-- A memory goes on from another: what was there is still there, and whatever is new is later. -/
structure Extends (m n : Memory) : Prop where
  initial : n.initial = m.initial
  length_le : m.length ≤ n.length
  at?_eq : ∀ t ≤ m.length, n.at? t = m.at? t

namespace Extends

theorem refl (m : Memory) : m.Extends m := ⟨rfl, Int.le_refl _, fun _ _ => rfl⟩

theorem trans {m n o : Memory} (h : m.Extends n) (h' : n.Extends o) : m.Extends o where
  initial := h'.initial.trans h.initial
  length_le := Int.le_trans h.length_le h'.length_le
  at?_eq t ht := (h'.at?_eq t (Int.le_trans ht h.length_le)).trans (h.at?_eq t ht)

theorem at?_eq_some {m n : Memory} (h : m.Extends n) (he : m.at? t = some e) : n.at? t = some e :=
  (h.at?_eq t (le_length_of_at? he)).trans he

/-- What is read up to a time does not change any more. -/
theorem latest_cut_eq {m n : Memory} (h : m.Extends n) (hv : v ≤ m.length) :
    (n.cut v).latest loc = (m.cut v).latest loc := by
  refine latest_congr (m := m.cut v) (n := n.cut v) h.initial ?_ loc
  intro t
  rw [at?_cut, at?_cut]
  split
  · exact h.at?_eq t (by lia)
  · rfl

end Extends

/-- A whole memory takes every event, and gives it the next time. -/
theorem promise_spec (hm : m.Whole) (e : Event) : ∃ n, m.promise e = .ok (n, m.length + 1) ∧ n.Whole ∧
    n.initial = m.initial ∧ n.length = m.length + 1 ∧
    ∀ t, n.at? t = if t = m.length + 1 then some e else m.at? t := by
  obtain ⟨hlo, hhi⟩ := hm
  let n : Memory := ⟨m.events ++ [e], m.initial, 0, m.events.length + 1, Nat.zero_le _, by simp⟩
  refine ⟨n, ?_, ⟨rfl, by simp [n]⟩, rfl, by simp [n, length, hhi], ?_⟩
  · rw [promise, if_pos ⟨hlo, hhi⟩, length, hhi]
  · intro t
    simp only [n, at?, length, hlo, hhi]
    by_cases ht : t = m.events.length + 1
    · subst ht
      simp
    · rw [if_neg ht]
      by_cases h : ((0 : Nat) : Int) < t ∧ t ≤ m.events.length
      · rw [if_pos h, if_pos (by lia), List.getElem?_append_left (by lia)]
      · rw [if_neg h, if_neg (by lia)]

end Memory

end Litmus
