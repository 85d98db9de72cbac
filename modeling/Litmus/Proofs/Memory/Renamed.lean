import Litmus.Proofs.Memory.Snapshot
import Mathlib.Logic.Function.Basic

/-!
Memories whose threads have other names. Reads and snapshots do not tell whose a write is, so they are the same under
any renaming; promises and exclusive pairs are told by the thread, so for them a renaming must keep threads apart.
-/

namespace Litmus

variable {ρ : Int → Int}

namespace Event

/-- The event with its thread renamed. -/
def renamed (ρ : Int → Int) : Event → Event
  | .write tid loc value => .write (ρ tid) loc value
  | .maintain tid m => .maintain (ρ tid) m

@[simp] theorem tid_renamed (e : Event) : (e.renamed ρ).tid = ρ e.tid := by cases e <;> rfl

@[simp] theorem writes_renamed (e : Event) : (e.renamed ρ).writes = e.writes := by cases e <;> rfl

@[simp] theorem location?_renamed (e : Event) : (e.renamed ρ).location? = e.location? := by cases e <;> rfl

theorem renamed_injective (h : Function.Injective ρ) : Function.Injective (renamed ρ) := by
  intro e e' he
  cases e <;> cases e' <;> simp_all [renamed, h.eq_iff]

end Event

namespace Memory

variable {m : Memory} {e : Event} {loc : Int} {t v : View}

/-- The memory with the threads of its events renamed. -/
def renamed (ρ : Int → Int) (m : Memory) : Memory :=
  { m with events := m.events.map (Event.renamed ρ), hi_le_length := by simpa using m.hi_le_length }

theorem renamed_injective (h : Function.Injective ρ) : Function.Injective (renamed ρ) := by
  intro m n he
  simp only [renamed, mk.injEq] at he
  obtain ⟨hevents, hinitial, hlo, hhi⟩ := he
  have := (Event.renamed_injective h).list_map hevents
  cases m
  cases n
  simp_all

theorem cut_renamed : (m.renamed ρ).cut v = (m.cut v).renamed ρ := rfl

theorem after_renamed : (m.renamed ρ).after v = (m.after v).renamed ρ := rfl

theorem entries_renamed : (m.renamed ρ).entries = m.entries.map fun x => (x.1, x.2.renamed ρ) := by
  simp only [entries, renamed, ← List.map_take, ← List.map_drop, List.zipIdx_map, List.map_map]
  rfl

theorem shown_renamed : (m.renamed ρ).shown = m.shown.map (Event.renamed ρ) := by
  rw [shown, shown, entries_renamed, List.map_map, List.map_map]
  rfl

theorem at?_renamed : (m.renamed ρ).at? t = (m.at? t).map (Event.renamed ρ) := by
  simp only [at?, renamed, List.getElem?_map]
  split <;> rfl

/-! ### Reads -/

theorem writesOf_renamed : (m.renamed ρ).writesOf loc = m.writesOf loc := by
  rw [writesOf, writesOf, entries_renamed, List.filterMap_map]
  refine congrArg (List.filterMap · _) (funext fun x => ?_)
  obtain ⟨t, e⟩ := x
  cases e <;> rfl

theorem latest_renamed : (m.renamed ρ).latest loc = m.latest loc := by
  rw [latest, latest, writesOf_renamed]
  rfl

theorem readLast_renamed : (m.renamed ρ).readLast loc = m.readLast loc := by
  rw [readLast, readLast]
  simp only [latest_renamed]

theorem readAt_renamed : (m.renamed ρ).readAt loc v = m.readAt loc v := by
  rw [readAt, readAt, cut_renamed, readLast_renamed]

theorem candidates_renamed : (m.renamed ρ).candidates loc v = m.candidates loc v := by
  rw [candidates, candidates, after_renamed, cut_renamed, writesOf_renamed, latest_renamed]

theorem snapshot_renamed : (m.renamed ρ).snapshot = m.snapshot := by
  have hlocations : (m.renamed ρ).shown.filterMap Event.location? = m.shown.filterMap Event.location? := by
    rw [shown_renamed, List.filterMap_map]
    exact congrArg (List.filterMap · _) (funext Event.location?_renamed)
  rw [snapshot, snapshot, hlocations]
  simp only [readLast_renamed]
  rfl

/-! ### Promises and exclusive pairs -/

theorem promise_renamed :
    (m.renamed ρ).promise (e.renamed ρ) = (m.promise e).map fun x => (x.1.renamed ρ, x.2) := by
  rw [promise, promise]
  simp only [renamed, List.length_map]
  split
  · simp [Except.map]
  · rfl

theorem fulfil?_renamed (h : Function.Injective ρ) (promises : List View) :
    (m.renamed ρ).fulfil? (e.renamed ρ) promises = m.fulfil? e promises := by
  rw [fulfil?, fulfil?]
  congr 1
  refine List.filter_congr fun t _ => ?_
  rw [at?_renamed, decide_eq_decide, Option.map_eq_some_iff]
  constructor
  · rintro ⟨e', he, he'⟩
    rw [he, Event.renamed_injective h he']
  · exact fun he => ⟨e, he, rfl⟩

theorem exclusive_renamed (h : Function.Injective ρ) (tid : Int) :
    (m.renamed ρ).exclusive loc (ρ tid) v = m.exclusive loc tid v := by
  rw [exclusive, exclusive, at?_renamed, after_renamed, shown_renamed, List.all_map]
  congr 1
  · cases m.at? v <;> simp
  · refine congrArg (List.all _) (funext fun e => ?_)
    have hsame : (ρ e.tid == ρ tid) = (e.tid == tid) := by rw [Bool.eq_iff_iff, beq_iff_eq, beq_iff_eq, h.eq_iff]
    simp [bne, hsame]

end Memory

end Litmus
