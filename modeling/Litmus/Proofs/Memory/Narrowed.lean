import Litmus.Proofs.Memory.Reads

/-!
Memories as windows. From an initial image memories are made by promises, cuts and afters, in any order. Main fact: what
a memory shows is a window of all the events that were promised on the way, under their own times, and whatever is read
of it is what that window says; it takes a new event exactly when the window is the whole list, and what was shown before
goes on being shown as it was.
-/

namespace Litmus.Memory

variable {m n w : Memory} {initial : Image} {e : Event}

/-! ### Windows -/

/-- Events with their times, the first at time one. -/
def timed (events : List Event) : List (View × Event) := (events.zipIdx 1).map fun (e, t) => ((t : Int), e)

/-- The events past a time and up to another, under their own times. -/
def window (events : List Event) (lo hi : Nat) : List (View × Event) :=
  (timed events).filter fun (t, _) => lo < t ∧ t ≤ hi

theorem mem_timed {events : List Event} {t : View} : (t, e) ∈ timed events ↔ 0 < t ∧ events[t.toNat - 1]? = some e := by
  simp only [timed, List.mem_map, Prod.mk.injEq, Prod.exists, List.mk_mem_zipIdx_iff_le_and_getElem?_sub]
  constructor
  · rintro ⟨_, n, ⟨hn, he⟩, rfl, rfl⟩
    exact ⟨by lia, he⟩
  · rintro ⟨hpos, he⟩
    exact ⟨e, t.toNat, ⟨by lia, he⟩, by lia, rfl⟩

theorem length_timed (events : List Event) : (timed events).length = events.length := by simp [timed]

theorem timed_concat (events : List Event) (e : Event) :
    timed (events ++ [e]) = timed events ++ [((events.length : Int) + 1, e)] := by
  simp [timed, List.zipIdx_append, Int.add_comm]

/-- Entries that come in the order of their times are told by which there are. -/
theorem eq_of_mem_iff {xs ys : List (View × Event)} (hx : xs.Pairwise fun a b => a.1 < b.1)
    (hy : ys.Pairwise fun a b => a.1 < b.1) (h : ∀ t e, (t, e) ∈ xs ↔ (t, e) ∈ ys) : xs = ys := by
  have : Std.Irrefl fun a b : View × Event => a.1 < b.1 := ⟨fun a => Int.lt_irrefl a.1⟩
  exact hx.eq_of_mem_iff hy fun (t, e) => h t e

/-- What a memory shows is a window of its events. -/
theorem entries_eq_window (m : Memory) : m.entries = window m.events m.lo m.hi := by
  refine eq_of_mem_iff m.pairwise_entries ((pairwise_zipIdx m.events 1).filter _) fun t e => ?_
  rw [mem_entries, at?_eq_some_iff, window, List.mem_filter, mem_timed, decide_eq_true_eq]
  constructor
  · rintro ⟨hlo, hhi, he⟩
    exact ⟨⟨by lia, he⟩, hlo, hhi⟩
  · rintro ⟨⟨-, he⟩, hlo, hhi⟩
    exact ⟨hlo, hhi, he⟩

theorem entries_cut (m : Memory) (v : View) : (m.cut v).entries = m.entries.filter fun (t, _) => t ≤ v := by
  refine eq_of_mem_iff (m.cut v).pairwise_entries (m.pairwise_entries.filter _) fun t e => ?_
  rw [List.mem_filter, mem_entries, mem_entries, at?_cut_eq_some_iff, decide_eq_true_eq, and_comm]

theorem entries_after (m : Memory) (v : View) : (m.after v).entries = m.entries.filter fun (t, _) => v < t := by
  refine eq_of_mem_iff (m.after v).pairwise_entries (m.pairwise_entries.filter _) fun t e => ?_
  rw [List.mem_filter, mem_entries, mem_entries, at?_after_eq_some_iff, decide_eq_true_eq, and_comm]

/-! ### What a window says -/

/-- The writes of a cell among some events, as they are read. -/
def readsOf (loc : Int) (entries : List (View × Event)) : List Read := entries.filterMap fun (t, e) => readOf? loc t e

/-- The newest write of a cell among some events, or its initial value at time zero. -/
def newest (initial : Image) (loc : Int) (entries : List (View × Event)) : Read :=
  (readsOf loc entries).getLast?.getD ⟨initial.readCell loc, 0⟩

/-- Whatever is read of a memory is what these events say, up to a last time and after an initial image. -/
structure Presents (m : Memory) (initial : Image) (entries : List (View × Event)) (last : View) : Prop where
  initial_eq : m.initial = initial
  length_eq : m.length = last
  entries_eq : m.entries = entries
  shown_eq : m.shown = entries.map (·.2)
  at?_eq_some_iff : ∀ t e, m.at? t = some e ↔ (t, e) ∈ entries
  readLast_eq : ∀ loc, loc % 8 = 0 → m.readLast loc = .ok (newest initial loc entries)
  readAt_eq : ∀ loc v, loc % 8 = 0 → m.readAt loc v = .ok (newest initial loc (entries.filter fun (t, _) => t ≤ v))
  /-- A read returns each write past the view, and last the newest one up to it. -/
  read_eq : ∀ loc v, loc % 8 = 0 → m.read loc v =
    .ok (readsOf loc (entries.filter fun (t, _) => v < t) ++ [newest initial loc (entries.filter fun (t, _) => t ≤ v)])
  misaligned : ∀ loc v, loc % 8 ≠ 0 → m.readLast loc = .error (.misaligned loc) ∧
    m.readAt loc v = .error (.misaligned loc) ∧ m.read loc v = .error (.misaligned loc)
  /-- Whoever read at a time is alone with the cell if the event there writes it and no other thread does later. -/
  exclusive_iff : ∀ loc tid v, m.exclusive loc tid v = true ↔
    (v = 0 ∨ ∃ e, (v, e) ∈ entries ∧ e.writes loc = true) ∧
      ∀ t e, (t, e) ∈ entries → v < t → e.writes loc = true → e.tid = tid
  /-- The oldest of the promises that holds an event fulfils it. -/
  fulfil?_eq_some_iff : ∀ e promises t, m.fulfil? e promises = some t ↔
    t ∈ promises ∧ (t, e) ∈ entries ∧ ∀ u ∈ promises, (u, e) ∈ entries → t ≤ u

theorem readLast_of_aligned {loc : Int} (m : Memory) (h : loc % 8 = 0) : m.readLast loc = .ok (m.latest loc) := by
  rw [readLast, checkLocation, if_pos h]
  rfl

theorem exclusive_iff (m : Memory) (loc tid : Int) (v : View) : m.exclusive loc tid v = true ↔
    (v = 0 ∨ ∃ e, (v, e) ∈ m.entries ∧ e.writes loc = true) ∧
      ∀ t e, (t, e) ∈ m.entries → v < t → e.writes loc = true → e.tid = tid := by
  have alone : ((m.after v).shown.all fun e => !(e.writes loc && e.tid != tid)) = true ↔
      ∀ t e, (t, e) ∈ m.entries → v < t → e.writes loc = true → e.tid = tid := by
    simp only [List.all_eq_true, mem_shown, at?_after_eq_some_iff, mem_entries]
    grind
  have wrote : (m.at? v).any (·.writes loc) = true ↔ ∃ e, (v, e) ∈ m.entries ∧ e.writes loc = true := by
    simp only [Option.any_eq_true, mem_entries]
  rw [exclusive, Bool.and_eq_true, Bool.or_eq_true, beq_iff_eq, alone, wrote]

theorem fulfil?_eq_some_iff (m : Memory) (e : Event) (promises : List View) (t : View) :
    m.fulfil? e promises = some t ↔
      t ∈ promises ∧ (t, e) ∈ m.entries ∧ ∀ u ∈ promises, (u, e) ∈ m.entries → t ≤ u := by
  rw [fulfil?, List.min?_eq_some_iff]
  simp only [List.mem_filter, decide_eq_true_eq, mem_entries, and_imp, and_assoc]

/-- A memory presents what it shows. -/
theorem presents (m : Memory) : m.Presents m.initial m.entries m.hi where
  initial_eq := rfl
  length_eq := rfl
  entries_eq := rfl
  shown_eq := rfl
  at?_eq_some_iff _ _ := mem_entries.symm
  readLast_eq _ h := m.readLast_of_aligned h
  readAt_eq loc v h := by
    rw [← entries_cut]
    exact (m.cut v).readLast_of_aligned h
  read_eq loc v h := by
    rw [← entries_cut, ← entries_after, read, checkLocation, if_pos h]
    rfl
  misaligned loc v h := by
    simp only [readLast, readAt, read, checkLocation, if_neg h]
    exact ⟨rfl, rfl, rfl⟩
  exclusive_iff := m.exclusive_iff
  fulfil?_eq_some_iff := m.fulfil?_eq_some_iff

/-! ### Changes -/

/-- What can be made of a memory. -/
inductive Change where
  | promise (e : Event)
  | cut (v : View)
  | after (v : View)
  deriving DecidableEq

/-- The event that a change adds. -/
def Change.event? : Change → Option Event
  | .promise e => some e
  | .cut _ | .after _ => none

/-- The events that changes add. -/
def eventsOf (cs : List Change) : List Event := cs.filterMap Change.event?

/-- The memory after a change. -/
def change (m : Memory) : Change → Except Fault Memory
  | .promise e => Prod.fst <$> m.promise e
  | .cut v => .ok (m.cut v)
  | .after v => .ok (m.after v)

/-- The memory after some changes. -/
def changed (m : Memory) (cs : List Change) : Except Fault Memory := cs.foldlM change m

theorem promise_eq_ok {t : View} (h : m.promise e = .ok (n, t)) :
    n.initial = m.initial ∧ n.events = m.events ++ [e] := by
  rw [promise] at h
  split at h
  · cases h
    exact ⟨rfl, rfl⟩
  · cases h

theorem change_eq_ok {c : Change} (h : m.change c = .ok n) :
    n.initial = m.initial ∧ n.events = m.events ++ eventsOf [c] := by
  cases c with
  | promise e =>
    simp only [change, map_eq_ok] at h
    obtain ⟨⟨_, t⟩, h, rfl⟩ := h
    exact promise_eq_ok h
  | cut v | after v =>
    cases h
    exact ⟨rfl, (List.append_nil _).symm⟩

/-- A memory keeps its image under changes, and has the events that they add. -/
theorem changed_eq_ok {cs : List Change} (h : m.changed cs = .ok n) :
    n.initial = m.initial ∧ n.events = m.events ++ eventsOf cs := by
  induction cs generalizing m with
  | nil =>
    cases h
    exact ⟨rfl, (List.append_nil _).symm⟩
  | cons c cs ih =>
    rw [changed, List.foldlM_cons, bind_eq_ok] at h
    obtain ⟨m', hc, hcs⟩ := h
    obtain ⟨hinitial, hevents⟩ := change_eq_ok hc
    obtain ⟨hinitial', hevents'⟩ := ih hcs
    refine ⟨hinitial'.trans hinitial, ?_⟩
    rw [hevents', hevents, List.append_assoc, eventsOf, eventsOf, eventsOf, ← List.filterMap_append]
    rfl

theorem cut_cut (m : Memory) (a b : View) : (m.cut a).cut b = m.cut (min a b) := by
  simp only [cut, mk.injEq, true_and]
  lia

theorem after_after (m : Memory) (a b : View) : (m.after a).after b = m.after (max a b) := by
  simp only [after, mk.injEq, true_and, and_true]
  have := m.lo_le_hi
  lia

theorem entries_after_cut (m : Memory) (a b : View) :
    ((m.cut a).after b).entries = m.entries.filter fun (t, _) => b < t ∧ t ≤ a := by
  rw [entries_after, entries_cut, List.filter_filter]
  exact List.filter_congr fun (t, e) _ => (Bool.decide_and ..).symm

theorem entries_cut_after (m : Memory) (a b : View) :
    ((m.after b).cut a).entries = m.entries.filter fun (t, _) => b < t ∧ t ≤ a := by
  rw [entries_cut, entries_after, List.filter_filter]
  exact List.filter_congr fun (t, e) _ => by rw [Bool.and_comm]; exact (Bool.decide_and ..).symm

/-! ### Promises -/

/-- A memory is whole when it shows all of its events. -/
theorem whole_iff : m.Whole ↔ m.entries = timed m.events := by
  have := m.lo_le_hi
  have := m.hi_le_length
  constructor
  · rintro ⟨hlo, hhi⟩
    rw [entries, timed, hhi, hlo, List.take_length]
    rfl
  · intro h
    have hlength : m.entries.length = m.hi - m.lo := by simp [entries]; lia
    rw [h, length_timed] at hlength
    rw [Whole]
    lia

/-- Another memory has the same window of events that go on. -/
structure SameWindow (m n : Memory) : Prop where
  initial_eq : n.initial = m.initial
  lo_eq : n.lo = m.lo
  hi_eq : n.hi = m.hi
  isPrefix : m.events <+: n.events

namespace SameWindow

theorem entries_eq (h : m.SameWindow n) : n.entries = m.entries := by
  obtain ⟨rest, hrest⟩ := h.isPrefix
  have := m.hi_le_length
  rw [entries, entries, h.lo_eq, h.hi_eq, ← hrest, List.take_append_of_le_length (by lia)]

/-- Two memories with the same window present the same. -/
theorem presents (h : m.SameWindow n) : n.Presents m.initial m.entries m.hi := by
  rw [← h.initial_eq, ← h.entries_eq, ← h.hi_eq]
  exact n.presents

/-- Changes that add nothing keep the window the same. -/
theorem changed {cs : List Change} (h : m.SameWindow n) (hcs : eventsOf cs = []) (hw : m.changed cs = .ok w) :
    ∃ w', n.changed cs = .ok w' ∧ w.SameWindow w' := by
  induction cs generalizing m n with
  | nil =>
    cases hw
    exact ⟨n, rfl, h⟩
  | cons c cs ih =>
    rw [Memory.changed, List.foldlM_cons, bind_eq_ok] at hw
    obtain ⟨m', hc, hw⟩ := hw
    cases c with
    | promise e => cases hcs
    | cut v =>
      cases hc
      refine ih (m := m.cut v) (n := n.cut v) ⟨h.initial_eq, h.lo_eq, ?_, h.isPrefix⟩ hcs hw
      simp only [cut, h.lo_eq, h.hi_eq]
    | after v =>
      cases hc
      refine ih (m := m.after v) (n := n.after v) ⟨h.initial_eq, ?_, h.hi_eq, h.isPrefix⟩ hcs hw
      simp only [after, h.lo_eq, h.hi_eq]

end SameWindow

/-- A whole memory is what its grown self shows up to the length that it had. -/
theorem sameWindow_of_promise {t : View} (hm : m.Whole) (h : m.promise e = .ok (n, t)) : m.SameWindow (n.cut m.length) := by
  obtain ⟨hlo, hhi⟩ := hm
  rw [promise, if_pos ⟨hlo, hhi⟩] at h
  cases h
  refine ⟨rfl, hlo.symm, ?_, List.prefix_append _ _⟩
  simp only [cut, length, hhi]
  lia

/-- However a memory is made from an initial image by promises, cuts and afters, it is a window of all the events that
were promised, and whatever is read of it is what the window says. Two cuts are one at the lesser time, two afters are
one at the greater, and a cut and an after leave the events between them in whichever order. An event is taken exactly
when the window is the whole list: it comes last, and what the memory and all views of it showed before is shown
unchanged up to the length of then. Else the promise is refused. -/
theorem window_of_changed (initial : Image) {cs : List Change} (h : (ofImage initial).changed cs = .ok m) :
    (∃ lo hi : Nat, lo ≤ hi ∧ hi ≤ (eventsOf cs).length ∧ m.Presents initial (window (eventsOf cs) lo hi) hi) ∧
    (∀ a b, (m.cut a).cut b = m.cut (min a b)) ∧
    (∀ a b, (m.after a).after b = m.after (max a b)) ∧
    (∀ a b, ((m.cut a).after b).entries = m.entries.filter (fun (t, _) => b < t ∧ t ≤ a) ∧
      ((m.after b).cut a).entries = m.entries.filter fun (t, _) => b < t ∧ t ≤ a) ∧
    (∀ e, m.entries = timed (eventsOf cs) → ∃ n, m.promise e = .ok (n, (eventsOf cs).length + 1) ∧
      n.Presents initial (m.entries ++ [(((eventsOf cs).length : Int) + 1, e)]) ((eventsOf cs).length + 1) ∧
      ∀ views w, eventsOf views = [] → m.changed views = .ok w → ∃ w', (n.cut m.length).changed views = .ok w' ∧
        w.Presents initial w.entries w.length ∧ w'.Presents initial w.entries w.length) ∧
    ∀ e, m.entries ≠ timed (eventsOf cs) → ∃ f, m.promise e = .error f ∧ f = .truncatedPromise ∧ f.code.id = "E0211" := by
  obtain ⟨hinitial, hevents⟩ := changed_eq_ok h
  rw [ofImage, List.nil_append] at hevents
  subst hinitial
  rw [← hevents]
  refine ⟨⟨m.lo, m.hi, m.lo_le_hi, m.hi_le_length, ?_⟩, m.cut_cut, m.after_after,
    fun a b => ⟨m.entries_after_cut a b, m.entries_cut_after a b⟩, ?_, ?_⟩
  · rw [← entries_eq_window]
    exact m.presents
  · intro e hentries
    have hm := whole_iff.mpr hentries
    obtain ⟨n, hn, hwhole, -, hlength, -⟩ := promise_spec hm e
    obtain ⟨hinitial', hevents'⟩ := promise_eq_ok hn
    have hlast : m.length = m.events.length := congrArg Nat.cast hm.2
    rw [hlast] at hn hlength
    refine ⟨n, hn, ?_, ?_⟩
    · have hlast' : (n.hi : View) = m.events.length + 1 := hlength
      have hpresents := n.presents
      rw [whole_iff.mp hwhole, hevents', timed_concat, ← hentries, hinitial', hlast'] at hpresents
      exact hpresents
    · intro views w hviews hw
      obtain ⟨hinitial'', -⟩ := changed_eq_ok hw
      obtain ⟨w', hw', hsame⟩ := (sameWindow_of_promise hm hn).changed hviews hw
      refine ⟨w', hw', ?_, ?_⟩
      · rw [← hinitial'']
        exact w.presents
      · rw [← hinitial'']
        exact hsame.presents
  · intro e hentries
    exact ⟨_, if_neg fun hm => hentries (whole_iff.mp hm), rfl, rfl⟩

/-- Three events, of which a cut and then an after beyond it leave nothing. -/
def crossedChanges : List Change :=
  [.promise (.write 0 8 5), .promise (.maintain 0 .all), .promise (.write 1 8 7), .after (-1), .cut 2, .after 9]

theorem window_of_changed_crossedChanges : ∃ m, (ofImage ∅).changed crossedChanges = .ok m ∧
    m.Presents ∅ [] 2 ∧ (m.cut 7).cut (-3) = m.cut (-3) ∧ m.promise (.write 0 8 9) = .error .truncatedPromise := by
  obtain ⟨m, hm⟩ : ∃ m, (ofImage ∅).changed crossedChanges = .ok m := ⟨_, rfl⟩
  obtain ⟨⟨lo, hi, -, -, hpresents⟩, hcuts, -, -, -, hrefused⟩ := window_of_changed ∅ hm
  cases hm
  have hwindow : window (eventsOf crossedChanges) lo hi = [] := hpresents.entries_eq.symm.trans (by decide)
  rw [hwindow, ← hpresents.length_eq] at hpresents
  obtain ⟨f, hf, rfl, -⟩ := hrefused (.write 0 8 9) (by decide)
  exact ⟨_, rfl, hpresents, hcuts 7 (-3), hf⟩

end Litmus.Memory
