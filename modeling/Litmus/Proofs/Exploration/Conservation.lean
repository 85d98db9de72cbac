import Litmus.Proofs.Exploration.Complete
import Litmus.Proofs.Thread.Recall

/-!
Events are conserved. What an action puts into memory stays there under its time, and no two actions share a
time; an event that no action has put there is a promise that its thread has still to keep. Main fact: in every
run the events of a thread are its promises and what it performed, apart from one another and each once, and
when no promise is left every event is what exactly one action of one thread performed.
-/

namespace Litmus

/-- The event that an action of a thread performed, and its time. -/
def Action.event? (tid : Int) : Action → Option (View × Event)
  | .write req _ t => some (t, .write tid req.pa req.value)
  | .maintain m _ t => some (t, .maintain tid m)
  | _ => none

/-- Whether actions of a thread do not share the time of an event. -/
def Action.Apart (tid : Int) (a b : Action) : Prop :=
  ∀ t e e', a.event? tid = some (t, e) → b.event? tid ≠ some (t, e')

theorem Action.event?_eq_some {tid t : Int} {e : Event} {a : Action} (h : a.event? tid = some (t, e)) : e.tid = tid := by
  cases a with
  | write | maintain =>
    cases h
    rfl
  | _ => cases h

/-- What a thread has done, and what it has promised, are its events in memory. -/
structure Thread.Conserves (as : List Action) (m : Memory) (t : Thread) : Prop where
  performed : ∀ a ∈ as, ∀ time e, a.event? t.tid = some (time, e) → m.at? time = some e ∧ time ∉ t.promises
  once : as.Pairwise (Action.Apart t.tid)
  owed : ∀ time e, m.at? time = some e → e.tid = t.tid → time ∈ t.promises ∨ ∃ a ∈ as, a.event? t.tid = some (time, e)

namespace Thread.Conserves

variable {as : List Action} {a : Action} {m n : Memory} {t u : Thread}

theorem start (tid : Int) (regs : Registers Int) (image : Image) :
    (Thread.start tid regs).Conserves [] (.ofImage image) where
  performed _ ha := absurd ha List.not_mem_nil
  once := .nil
  owed time e he := by
    have hpos := Memory.pos_of_at? he
    have hle : time ≤ 0 := Memory.le_length_of_at? he
    lia

/-- What performs nothing and promises nothing changes neither. -/
theorem quiet (h : t.Conserves as m) (ha : a.event? t.tid = none) (hp : u.promises = t.promises) (ht : u.tid = t.tid) :
    u.Conserves (as ++ [a]) m where
  performed b hb time e he := by
    rw [ht] at he
    rw [hp]
    rcases List.mem_append.mp hb with hb | hb
    · exact h.performed b hb time e he
    · rw [List.mem_singleton.mp hb, ha] at he
      cases he
  once := by
    rw [ht]
    refine List.pairwise_append.mpr ⟨h.once, List.pairwise_singleton _ _, ?_⟩
    intro b _ c hc time e e' _ he
    rw [List.mem_singleton.mp hc, ha] at he
    cases he
  owed time e he htid := by
    rw [ht] at htid
    rw [ht, hp]
    refine (h.owed time e he htid).imp_right ?_
    rintro ⟨b, hb, he⟩
    exact ⟨b, List.mem_append_left _ hb, he⟩

/-- What was performed before an event is placed was performed at another time: what holds the event is a promise that
is still owed, or it is new. -/
theorem ne_of_placed {f : Frame} {e : Event} {time : View} {promised : Bool} (h : f.thread.Conserves as f.memory)
    (hplaced : f.Placed e m time promised) {b : Action} (hb : b ∈ as) {time' : View} {e' : Event}
    (he : b.event? f.thread.tid = some (time', e')) : time' ≠ time := by
  obtain ⟨hat, hdone⟩ := h.performed b hb time' e' he
  cases promised with
  | true =>
    rintro rfl
    exact hdone (hplaced.kept rfl).2
  | false =>
    have := Memory.le_length_of_at? hat
    have := (hplaced.fresh rfl).1
    lia

/-- An event that is placed is performed: it keeps a promise, or it is new. -/
theorem placed {f : Frame} {e : Event} {time : View} {promised : Bool} (h : f.thread.Conserves as f.memory)
    (hle : ∀ p ∈ f.thread.promises, p ≤ f.memory.length) (hplaced : f.Placed e m time promised)
    (ha : a.event? f.thread.tid = some (time, e)) (ht : u.tid = f.thread.tid)
    (hp : u.promises = if promised then f.thread.promises.filter fun p => p != time else f.thread.promises) :
    u.Conserves (as ++ [a]) m := by
  refine ⟨?_, ?_, ?_⟩
  · intro b hb time' e' he
    rw [ht] at he
    rw [hp]
    rcases List.mem_append.mp hb with hb | hb
    · obtain ⟨hat, hdone⟩ := h.performed b hb time' e' he
      exact ⟨hplaced.grown.at?_eq_some hat, fun hleft => hdone (hplaced.mem_left hle hleft).1⟩
    · rw [List.mem_singleton.mp hb, ha] at he
      cases he
      exact ⟨hplaced.at?_eq, fun hleft => (hplaced.mem_left hle hleft).2 rfl⟩
  · rw [ht]
    refine List.pairwise_append.mpr ⟨h.once, List.pairwise_singleton _ _, ?_⟩
    intro b hb c hc time' e' e'' he he'
    rw [List.mem_singleton.mp hc, ha] at he'
    cases he'
    exact h.ne_of_placed hplaced hb he rfl
  · intro time' e' he htid
    rw [ht] at htid
    rw [ht, hp]
    have last (h : time' = time ∧ e' = e) : ∃ b ∈ as ++ [a], b.event? f.thread.tid = some (time', e') :=
      ⟨a, by simp, by rw [ha, h.1, h.2]⟩
    rcases hplaced.at?_cases time' e' he with hold | ⟨-, hnew⟩
    · rcases h.owed time' e' hold htid with howed | ⟨b, hb, hdone⟩
      · have kept : (time' ∈ if promised then f.thread.promises.filter fun p => p != time else f.thread.promises) ∨
            promised = true ∧ time' = time := Thread.mem_fulfilled howed
        rcases kept with hleft | ⟨-, rfl⟩
        · exact .inl hleft
        · rw [hplaced.at?_eq] at he
          cases he
          exact .inr (last ⟨rfl, rfl⟩)
      · exact .inr ⟨b, List.mem_append_left _ hb, hdone⟩
    · exact .inr (last hnew)

/-- Every effect conserves events. -/
theorem step {e : Effect} {f g : Frame} {v : e.Answer} (hm : f.memory.Whole) (hb : f.Bounded)
    (h : f.thread.Conserves as f.memory) (hs : e.Step f v g a) : g.thread.Conserves (as ++ [a]) g.memory := by
  have hle : ∀ p ∈ f.thread.promises, p ≤ f.memory.length := fun p hp => (hb.thread.promises p hp).2
  cases hs with
  | writeReg =>
    dsimp only
    rw [Thread.hold_eq]
    exact h.quiet rfl rfl rfl
  | read =>
    rw [Frame.thread_afterRead]
    exact h.quiet rfl rfl rfl
  | write _ _ _ _ hp =>
    rw [Frame.thread_afterWrite]
    exact h.placed hle (Frame.placed hm hp) rfl rfl rfl
  | maintain _ _ hp =>
    rw [Frame.thread_afterMaintain]
    exact h.placed hle (Frame.placed hm hp) rfl rfl rfl
  | _ => exact h.quiet rfl rfl rfl

/-- A promise is owed from when it is made. -/
theorem promise {f g : Frame} {loc value : Int} {time : View} (h : f.thread.Conserves as f.memory)
    (hm : f.memory.Whole) (hp : f.promiseWrite loc value = .ok (g, time)) : g.thread.Conserves as g.memory := by
  obtain ⟨-, hg, -, htime, hext, -, hat⟩ := Frame.promiseWrite_spec hm hp
  rw [hg]
  refine ⟨?_, h.once, ?_⟩
  · intro b hb time' e he
    obtain ⟨hold, hdone⟩ := h.performed b hb time' e he
    refine ⟨hext.at?_eq_some hold, ?_⟩
    intro howed
    rcases List.mem_append.mp howed with howed | howed
    · exact hdone howed
    · have := Memory.le_length_of_at? hold
      have := List.mem_singleton.mp howed
      lia
  · intro time' e he htid
    dsimp only at he
    rw [hat] at he
    split at he
    · next e => exact .inl (List.mem_append_right _ (List.mem_singleton.mpr e))
    · exact (h.owed time' e he htid).imp_left (List.mem_append_left _)

theorem grow (h : t.Conserves as m) (hext : m.Extends n)
    (hown : ∀ time e, n.at? time = some e → m.at? time = some e ∨ e.tid ≠ t.tid) : t.Conserves as n where
  performed a ha time e he := (h.performed a ha time e he).imp_left hext.at?_eq_some
  once := h.once
  owed time e he htid := h.owed time e ((hown time e he).resolve_right fun hne => hne htid) htid

end Thread.Conserves

/-- In every run the events of a thread are those that it performed, and its promises. -/
theorem slotInvariant_conserves (p : Program) :
    SlotInvariant p fun _ as slot m => slot.thread.Conserves as m where
  start _ := .start _ _ _
  run {ds s tid t slot i as f} r _ hs _ h hr := by
    have hb := (frameInvariant_bounded.slot p).holds r hs
    have kept := hr.keeps (Q := fun as f => f.Bounded ∧ f.thread.Conserves as f.memory)
      (fun hm h hs => ⟨h.1.step hm hs, h.2.step hm h.1 hs⟩) r.fits.whole ⟨hb, h⟩
    exact kept.2
  promise r _ h hp := Thread.Conserves.promise h r.fits.whole hp
  grow _ _ h hext hown := h.grow hext hown

/-- Whether the event at a time is what the action at some place of a thread's actions performed. -/
def Performed (ds : List Deed) (tid i : Nat) (time : View) (e : Event) : Prop :=
  (actionsOf tid ds)[i]?.bind (Action.event? tid) = some (time, e)

theorem performed_iff {ds : List Deed} {tid i : Nat} {time : View} {e : Event} :
    Performed ds tid i time e ↔ ∃ a, (actionsOf tid ds)[i]? = some a ∧ a.event? tid = some (time, e) :=
  Option.bind_eq_some_iff

namespace Program.Run

variable {p : Program} {ds : List Deed} {s : State} {tid : Nat} {slot : Slot}

theorem conserves (r : p.Run ds s) (hs : s.threads[tid]? = some slot) :
    slot.thread.tid = tid ∧ slot.thread.Conserves (actionsOf tid ds) s.memory :=
  ⟨r.fits.tid_eq tid slot hs, (slotInvariant_conserves p).holds r hs⟩

/-- What is performed is in memory, is not owed any more, and is performed once. -/
theorem performed_once (r : p.Run ds s) {i : Nat} {time : View} {e : Event} (h : Performed ds tid i time e) :
    s.memory.at? time = some e ∧ ∀ (tid' j : Nat) (e' : Event), Performed ds tid' j time e' → tid' = tid ∧ j = i := by
  have found {tid j : Nat} {e : Event} (h : Performed ds tid j time e) : ∃ slot, s.threads[tid]? = some slot := by
    obtain ⟨a, ha, -⟩ := performed_iff.mp h
    exact r.exists_slot (List.ne_nil_of_mem (List.mem_of_getElem? ha))
  have held {tid j : Nat} {e : Event} (h : Performed ds tid j time e) : s.memory.at? time = some e ∧ e.tid = tid := by
    obtain ⟨slot, hs⟩ := found h
    obtain ⟨htid, hc⟩ := r.conserves hs
    obtain ⟨a, ha, he⟩ := performed_iff.mp h
    rw [← htid] at he
    exact ⟨(hc.performed a (List.mem_of_getElem? ha) time e he).1, (Action.event?_eq_some he).trans htid⟩
  obtain ⟨hat, htid⟩ := held h
  refine ⟨hat, ?_⟩
  intro tid' j e' h'
  obtain ⟨hat', htid'⟩ := held h'
  rw [hat] at hat'
  cases hat'
  obtain rfl : tid' = tid := Int.ofNat_inj.mp (htid'.symm.trans htid)
  refine ⟨rfl, ?_⟩
  obtain ⟨slot, hs⟩ := found h
  obtain ⟨hslot, hc⟩ := r.conserves hs
  obtain ⟨a, ha, he⟩ := performed_iff.mp h
  obtain ⟨b, hb, he'⟩ := performed_iff.mp h'
  obtain ⟨hi, rfl⟩ := List.getElem?_eq_some_iff.mp ha
  obtain ⟨hj, rfl⟩ := List.getElem?_eq_some_iff.mp hb
  have apart := List.pairwise_iff_getElem.mp hc.once
  rw [hslot] at apart
  rcases Nat.lt_trichotomy i j with hlt | rfl | hlt
  · exact absurd he' (apart i j hi hj hlt time e e he)
  · rfl
  · exact absurd he (apart j i hj hi hlt time e e he')

/-- The writes of a thread in memory are those that it has done, and its promises. -/
theorem write_iff (r : p.Run ds s) (hs : s.threads[tid]? = some slot) (time : View) :
    (∃ loc value, s.memory.at? time = some (.write tid loc value)) ↔
      time ∈ slot.thread.promises ∨ ∃ req pre, .write req pre time ∈ actionsOf tid ds := by
  obtain ⟨htid, hc⟩ := r.conserves hs
  obtain ⟨-, hrecalls⟩ := (frameInvariant_recalls.slot p).holds r hs
  constructor
  · rintro ⟨loc, value, hat⟩
    refine (hc.owed time _ hat htid.symm).imp_right ?_
    rintro ⟨a, ha, he⟩
    rw [htid] at he
    cases a with
    | write req pre t =>
      cases he
      exact ⟨req, pre, ha⟩
    | _ => cases he
  · rintro (howed | ⟨req, pre, ha⟩)
    · obtain ⟨loc, value, hat⟩ := hrecalls.promised time howed
      exact ⟨loc, value, htid ▸ hat⟩
    · exact ⟨req.pa, req.value, htid ▸ (hc.performed _ ha time _ rfl).1⟩

/-- Maintenance of a thread in memory is what it has done: none is ever promised. -/
theorem maintain_iff (r : p.Run ds s) (hs : s.threads[tid]? = some slot) (time : View) (m : Paging.Maintenance) :
    s.memory.at? time = some (.maintain tid m) ↔ ∃ pre, .maintain m pre time ∈ actionsOf tid ds := by
  obtain ⟨htid, hc⟩ := r.conserves hs
  obtain ⟨-, hrecalls⟩ := (frameInvariant_recalls.slot p).holds r hs
  constructor
  · intro hat
    rcases hc.owed time _ hat htid.symm with howed | ⟨a, ha, he⟩
    · obtain ⟨loc, value, hwrite⟩ := hrecalls.promised time howed
      rw [hat] at hwrite
      cases hwrite
    · rw [htid] at he
      cases a with
      | maintain m pre t =>
        cases he
        exact ⟨pre, ha⟩
      | _ => cases he
  · rintro ⟨pre, ha⟩
    exact htid ▸ (hc.performed _ ha time _ rfl).1

/-- When no promise is left, every event is what some thread performed. -/
theorem exists_performed (r : p.Run ds s) (hf : s.Fulfilled) {time : View} {e : Event} (h : s.memory.at? time = some e) :
    ∃ tid i, Performed ds tid i time e := by
  obtain ⟨tid, slot, hs, htid⟩ := r.fits.owned time e h
  obtain ⟨hslot, hc⟩ := r.conserves hs
  rcases hc.owed time e h (htid.trans hslot.symm) with howed | ⟨a, ha, he⟩
  · rw [hf slot (List.mem_of_getElem? hs)] at howed
    cases howed
  · obtain ⟨i, hi⟩ := List.mem_iff_getElem?.mp ha
    exact ⟨tid, i, performed_iff.mpr ⟨a, hi, hslot ▸ he⟩⟩

end Program.Run

/-- Events are conserved, in every state of every run. The writes of a thread in memory are its promises and the
writes that it has done, and none is both; its maintenance in memory is the maintenance that it has done. Each event
that was performed is in memory, with the cell and the value or the description that the action had, and was performed
by one action of one thread alone. Once no promise is left, every event has been performed. -/
theorem Program.Run.events_conserved {p : Program} {ds : List Deed} {s : State} (r : p.Run ds s) :
    (∀ (tid : Nat) (slot : Slot), s.threads[tid]? = some slot →
      (∀ time, (∃ loc value, s.memory.at? time = some (.write tid loc value)) ↔
        time ∈ slot.thread.promises ∨ ∃ req pre, .write req pre time ∈ actionsOf tid ds) ∧
      slot.thread.promises.Nodup ∧
      (∀ time ∈ slot.thread.promises, ∀ req pre, .write req pre time ∉ actionsOf tid ds) ∧
      ∀ time m, s.memory.at? time = some (.maintain tid m) ↔ ∃ pre, .maintain m pre time ∈ actionsOf tid ds) ∧
    (∀ tid i time e, Performed ds tid i time e → s.memory.at? time = some e ∧
      ∀ tid' j e', Performed ds tid' j time e' → tid' = tid ∧ j = i) ∧
    (s.Fulfilled → ∀ time e, s.memory.at? time = some e → ∃ tid i, Performed ds tid i time e) := by
  refine ⟨?_, fun tid i time e h => r.performed_once h, fun hf time e h => r.exists_performed hf h⟩
  intro tid slot hs
  obtain ⟨-, hc⟩ := r.conserves hs
  obtain ⟨-, hrecalls⟩ := (frameInvariant_recalls.slot p).holds r hs
  refine ⟨r.write_iff hs, ?_, ?_, r.maintain_iff hs⟩
  · exact hrecalls.ordered.imp Int.ne_of_lt
  · intro time howed req pre ha
    exact (hc.performed _ ha time _ rfl).2 howed

/-- A thread stores to a cell, which it may promise to do, and then issues maintenance of all walks. -/
def storeThenMaintain : Program where
  threads := [{
    code := [Shape.store "X1" "X2" .plain, Shape.only (.maintain { scope := .all } .none)]
    regs := .ofList [("X1", (1 : Int)), ("X2", 0)]
    promisable := [(0, 1)] }]

theorem events_conserved_storeThenMaintain : ∃ ds s, storeThenMaintain.Run ds s ∧ s.Fulfilled ∧
    s.memory.at? 1 = some (.write 0 0 1) ∧ s.memory.at? 2 = some (.maintain 0 .all) ∧
    (∃ req pre, .write req pre 1 ∈ actionsOf 0 ds) ∧ (∃ pre, .maintain .all pre 2 ∈ actionsOf 0 ds) ∧
    ∀ time e, s.memory.at? time = some e → ∃ tid i, Performed ds tid i time e ∧
      ∀ tid' j e', Performed ds tid' j time e' → tid' = tid ∧ j = i := by
  have path : (storeThenMaintain.start.follow storeThenMaintain {} [1, 0, 0]).any (fun s => s.pending.isEmpty &&
      decide (s.memory.at? 1 = some (.write 0 0 1)) && decide (s.memory.at? 2 = some (.maintain 0 .all))) = true := by
    decide +kernel
  obtain ⟨s, hs, hP⟩ := Program.exists_reaches _ path
  obtain ⟨ds, r⟩ := Program.reaches_iff.mp hs
  simp only [Bool.and_eq_true, decide_eq_true_eq] at hP
  obtain ⟨⟨hpending, hwrite⟩, hmaintain⟩ := hP
  have hfulfilled := State.pending_isEmpty_iff.mp hpending
  have hlt : 0 < s.threads.length := by rw [r.fits.length_eq]; decide
  have hslot := List.getElem?_eq_getElem hlt
  obtain ⟨threads, once, performed⟩ := r.events_conserved
  obtain ⟨writes, -, -, maintenance⟩ := threads 0 _ hslot
  refine ⟨ds, s, r, hfulfilled, hwrite, hmaintain, ?_, (maintenance 2 .all).mp hmaintain, ?_⟩
  · refine ((writes 1).mp ⟨0, 1, hwrite⟩).resolve_left ?_
    rw [hfulfilled _ (List.getElem_mem hlt)]
    exact List.not_mem_nil
  · intro time e h
    obtain ⟨tid, i, hp⟩ := performed hfulfilled time e h
    exact ⟨tid, i, hp, (once tid i time e hp).2⟩

end Litmus
