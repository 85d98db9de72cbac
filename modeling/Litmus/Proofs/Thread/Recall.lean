import Litmus.Proofs.Exploration.Coherence
import Litmus.Proofs.Instruction.Bounded

/-!
What threads remember of events. Promises are writes of the thread itself that it has still to do, the
oldest first; a forward is of an own write that is done; and a monitor is of a write to its cell that the
thread has seen. Main fact: all effects keep it so. A write keeps the forwards in order because its time is
past its pre-view, and a monitor never gets ahead of the view of its cell because that view only rises.
-/

namespace Litmus

/-- What a thread remembers of events, and memory has. -/
structure Thread.Recalls (m : Memory) (t : Thread) : Prop where
  ordered : t.promises.Pairwise (· < ·)
  promised : ∀ p ∈ t.promises, ∃ loc v, m.at? p = some (.write t.tid loc v)
  forwarded : ∀ {loc : Int} {w : Forward}, t.forwards[loc]? = some w →
    (∃ v, m.at? w.time = some (.write t.tid loc v)) ∧ w.time ∉ t.promises ∧ w.view < w.time ∧
      w.time ≤ t.coherenceOf loc
  monitored : ∀ {w : Monitor}, t.monitor = some w →
    (w.time = 0 ∨ ∃ i v, m.at? w.time = some (.write i w.loc v)) ∧ w.time ≤ t.coherenceOf w.loc ∧ m.Spans w.view
  synced : t.syncPoint ≤ t.history.length

namespace Thread.Recalls

variable {m n : Memory} {t u : Thread}

theorem start (tid : Int) (regs : Registers Int) : (Thread.start tid regs).Recalls m where
  ordered := .nil
  promised := nofun
  forwarded h := by simp [Thread.start] at h
  monitored := nofun
  synced := Nat.le_refl 0

/-- What neither promises nor forwards nor monitors anything keeps what is remembered. -/
theorem quiet (h : t.Recalls m) (hp : u.promises.Sublist t.promises) (hc : u.coherence = t.coherence)
    (hf : u.forwards = t.forwards) (hmon : u.monitor = t.monitor ∨ u.monitor = none) (ht : u.tid = t.tid)
    (hs : u.syncPoint ≤ u.history.length) (hm : m.Extends n) : u.Recalls n where
  ordered := h.ordered.sublist hp
  promised p hpu := by
    obtain ⟨loc, v, hv⟩ := h.promised p (hp.subset hpu)
    exact ⟨loc, v, ht ▸ hm.at?_eq_some hv⟩
  forwarded {loc w} hw := by
    obtain ⟨⟨v, hv⟩, hdone, hview, hseen⟩ := h.forwarded (hf ▸ hw)
    rw [coherenceOf, hc, ht]
    exact ⟨⟨v, hm.at?_eq_some hv⟩, fun hpu => hdone (hp.subset hpu), hview, hseen⟩
  monitored {w} hw := by
    rcases hmon with hmon | hmon
    · obtain ⟨hwrite, hseen, hview⟩ := h.monitored (hmon ▸ hw)
      rw [coherenceOf, hc]
      refine ⟨?_, hseen, hview.mono hm⟩
      rcases hwrite with h0 | ⟨i, v, hv⟩
      · exact .inl h0
      · exact .inr ⟨i, v, hm.at?_eq_some hv⟩
    · rw [hmon] at hw
      cases hw
  synced := hs

theorem mono (h : t.Recalls m) (hm : m.Extends n) : t.Recalls n :=
  h.quiet (.refl _) rfl rfl (.inl rfl) rfl h.synced hm

/-- The view of every cell rises when that of one does. -/
theorem coherenceOf_le {loc : Int} {time : View} (hu : u.coherence = t.coherence.insert loc time)
    (hle : t.coherenceOf loc ≤ time) (l : Int) : t.coherenceOf l ≤ u.coherenceOf l := by
  rw [coherenceOf_insert hu]
  split
  · next e => exact e ▸ hle
  · exact Int.le_refl _

theorem afterRead {f : Frame} {req : ReadRequest} {addr : View} {r : Memory.Read} (h : f.thread.Recalls f.memory)
    (hr : r ∈ f.readCandidates req req.pa addr)
    (hseen : f.thread.coherenceOf req.pa = 0 ∨
      ∃ i v, f.memory.at? (f.thread.coherenceOf req.pa) = some (.write i req.pa v))
    (hpost : f.memory.Spans (f.readPost req addr r)) : (f.afterRead req addr r).thread.Recalls f.memory := by
  obtain ⟨hle, -, hw⟩ := Frame.readCandidates_spec hr hseen
  have hview : View.join (f.thread.coherenceOf req.pa) r.time = r.time := Int.max_eq_right hle
  rw [Frame.thread_afterRead, hview]
  refine ⟨h.ordered, h.promised, ?_, ?_, h.synced⟩
  · intro loc w hfw
    obtain ⟨hv, hdone, hlt, hc⟩ := h.forwarded hfw
    exact ⟨hv, hdone, hlt, Int.le_trans hc (coherenceOf_le rfl hle loc)⟩
  · intro w hmon
    dsimp only at hmon
    split at hmon
    · cases hmon
      refine ⟨?_, ?_, hpost⟩
      · rcases hw with ⟨i, hi⟩ | h0
        · exact .inr ⟨i, r.value, hi⟩
        · exact .inl (congrArg Memory.Read.time h0)
      · exact Int.le_of_eq ((coherenceOf_insert rfl req.pa).trans (if_pos rfl)).symm
    · obtain ⟨hv, hc, hsp⟩ := h.monitored hmon
      exact ⟨hv, Int.le_trans hc (coherenceOf_le rfl hle w.loc), hsp⟩

theorem afterWrite {f : Frame} {req : WriteRequest} {addr data t : View} {memory : Memory} {promised : Bool}
    (h : f.thread.Recalls f.memory) (hplaced : f.Placed (.write f.thread.tid req.pa req.value) memory t promised)
    (ht : f.writeTrouble req memory req.pa (f.writePre req addr data) t = none) :
    (f.afterWrite req (View.join addr data) t memory promised).thread.Recalls memory := by
  obtain ⟨hpre, hlt⟩ := Frame.lt_of_writeTrouble ht
  have hview : View.join (f.thread.coherenceOf req.pa) t = t := Int.max_eq_right (Int.le_of_lt hlt)
  have hoperands : View.join addr data ≤ f.writePre req addr data :=
    View.join_le.mpr ⟨View.le_joinAll (by simp), View.le_joinAll (by simp)⟩
  rw [Frame.thread_afterWrite, hview]
  have hle := Int.le_of_lt hlt
  have left {p : View} (hp : p ∈ if promised then f.thread.promises.filter fun p => p != t else f.thread.promises) :
      p ∈ f.thread.promises ∧ p ≠ t := by
    refine hplaced.mem_left ?_ hp
    intro p hp
    obtain ⟨loc, v, hv⟩ := h.promised p hp
    exact Memory.le_length_of_at? hv
  refine ⟨?_, ?_, ?_, ?_, h.synced⟩
  · dsimp only
    split
    · exact h.ordered.filter _
    · exact h.ordered
  · intro p hp
    obtain ⟨loc, v, hv⟩ := h.promised p (left hp).1
    exact ⟨loc, v, hplaced.grown.at?_eq_some hv⟩
  · intro loc w hfw
    dsimp only at hfw
    rw [Std.ExtTreeMap.getElem?_insert] at hfw
    split at hfw
    · next e =>
      cases hfw
      obtain rfl := Std.compare_eq_iff_eq.mp e
      refine ⟨⟨req.value, hplaced.at?_eq⟩, fun hp => (left hp).2 rfl, Int.lt_of_le_of_lt hoperands hpre, ?_⟩
      exact Int.le_of_eq ((coherenceOf_insert rfl req.pa).trans (if_pos rfl)).symm
    · obtain ⟨⟨v, hv⟩, hdone, hview, hc⟩ := h.forwarded hfw
      have hv := hplaced.grown.at?_eq_some hv
      exact ⟨⟨v, hv⟩, fun hp => hdone (left hp).1, hview, Int.le_trans hc (coherenceOf_le rfl hle loc)⟩
  · intro w hmon
    dsimp only at hmon
    split at hmon
    · cases hmon
    · obtain ⟨hv, hc, hsp⟩ := h.monitored hmon
      refine ⟨?_, Int.le_trans hc (coherenceOf_le rfl hle w.loc), hsp.mono hplaced.grown⟩
      exact hv.imp_right fun ⟨i, v, hv⟩ => ⟨i, v, hplaced.grown.at?_eq_some hv⟩

/-- Every effect keeps what is remembered. -/
theorem step {e : Effect} {as : List Action} {a : Action} {f g : Frame} {x : e.Answer} (hm : f.memory.Whole)
    (hc : Coherent as f) (hb : f.Bounded) (h : f.thread.Recalls f.memory) (hs : e.Step f x g a) :
    g.thread.Recalls g.memory := by
  have hgrown := (hs.grows hm).grown
  cases hs with
  | writeReg =>
    dsimp only
    rw [Thread.hold_eq]
    refine h.quiet (.refl _) rfl rfl (.inl rfl) rfl ?_ hgrown
    have := h.synced
    dsimp only
    split
    · rw [List.length_append]
      omega
    · exact this
  | read _ _ _ hd hr =>
    exact h.afterRead hr (hc.seen _) (hb.readPost _ (hb.depsView hd) (.of_mem_candidates (List.mem_filter.mp hr).1))
  | write _ _ _ _ hp ht => exact h.afterWrite (Frame.placed hm hp) ht
  | writeFailed => exact h.quiet (.refl _) rfl rfl (.inr rfl) rfl h.synced hgrown
  | maintain =>
    rw [Frame.thread_afterMaintain]
    refine h.quiet ?_ rfl rfl (.inl rfl) rfl h.synced hgrown
    dsimp only
    split
    · exact List.filter_sublist
    · exact .refl _
  | isb | returnFromException | halt => exact h.quiet (.refl _) rfl rfl (.inl rfl) rfl (Nat.le_refl _) hgrown
  | _ => exact h.quiet (.refl _) rfl rfl (.inl rfl) rfl h.synced hgrown

/-- A promise comes after all others. -/
theorem promise {f g : Frame} {loc value : Int} {time : View} (h : f.thread.Recalls f.memory) (hm : f.memory.Whole)
    (hp : f.promiseWrite loc value = .ok (g, time)) : g.thread.Recalls g.memory := by
  obtain ⟨-, hg, -, htime, hext, -, hat⟩ := Frame.promiseWrite_spec hm hp
  have hgrown := h.mono hext
  have hold {p : View} {i l v : Int} (hp : f.memory.at? p = some (.write i l v)) : p < time := by
    have := Memory.le_length_of_at? hp
    lia
  rw [hg]
  refine ⟨?_, ?_, ?_, hgrown.monitored, h.synced⟩
  · refine List.pairwise_append.mpr ⟨h.ordered, List.pairwise_singleton _ _, ?_⟩
    intro p hp q hq
    obtain ⟨l, v, hv⟩ := h.promised p hp
    exact List.mem_singleton.mp hq ▸ hold hv
  · intro p hp
    rcases List.mem_append.mp hp with hp | hp
    · exact hgrown.promised p hp
    · exact ⟨loc, value, (hat p).trans (if_pos (List.mem_singleton.mp hp))⟩
  · intro l w hw
    obtain ⟨⟨v, hv⟩, hdone, hview, hseen⟩ := h.forwarded hw
    refine ⟨⟨v, hext.at?_eq_some hv⟩, ?_, hview, hseen⟩
    intro hp
    rcases List.mem_append.mp hp with hp | hp
    · exact hdone hp
    · exact Int.lt_irrefl time (List.mem_singleton.mp hp ▸ hold hv)

end Thread.Recalls

/-- In every run threads remember what memory has, along with coherence and views that lie within memory. -/
theorem frameInvariant_recalls :
    FrameInvariant fun as f => (Coherent as f ∧ f.Bounded) ∧ f.thread.Recalls f.memory := by
  have both := frameInvariant_coherent.and frameInvariant_bounded
  refine ⟨?_, ?_, ?_, ?_, ?_⟩
  · intro tid regs image
    exact ⟨both.start tid regs image, .start tid regs⟩
  · intro e as a f g x hm h hs
    exact ⟨both.step hm h.1 hs, h.2.step hm h.1.1 h.1.2 hs⟩
  · intro as f h
    exact ⟨both.next h.1, h.2⟩
  · intro as thread m loc value g time hm h hp
    have hrecalls := Thread.Recalls.promise h.2 hm hp
    exact ⟨both.promise hm h.1 hp, hrecalls⟩
  · intro as thread m n h hext
    exact ⟨both.grow h.1 hext, h.2.mono hext⟩

end Litmus
