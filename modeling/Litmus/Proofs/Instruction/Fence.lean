import Litmus.Proofs.Exploration.Move

/-!
What a full fence achieves. The view of a cell is never past the views of reads and writes, and a write to
forward from is not past the view of writes. Main facts: once a barrier has passed all reads and writes, a
read returns the latest write up to its post-view, and reads and writes alike come after all that the
thread did before.
-/

namespace Litmus

namespace Views

variable (v : Views) (c : Counter)

@[simp] theorem reads_raise (view : View) :
    (v.raise c view).reads = if c = .reads then View.join v.reads view else v.reads := by cases c <;> rfl

@[simp] theorem writes_raise (view : View) :
    (v.raise c view).writes = if c = .writes then View.join v.writes view else v.writes := by cases c <;> rfl

@[simp] theorem barrier_raise (view : View) :
    (v.raise c view).barrier = if c = .barrier then View.join v.barrier view else v.barrier := by cases c <;> rfl

@[simp] theorem syncBarrier_raise (view : View) :
    (v.raise c view).syncBarrier = if c = .syncBarrier then View.join v.syncBarrier view else v.syncBarrier := by
  cases c <;> rfl

/-- The view of all that a thread has read and written. -/
def accesses (v : Views) : View := View.join v.reads v.writes

/-- The view of the barriers that hold back all accesses. -/
def fences (v : Views) : View := View.join v.barrier v.syncBarrier

theorem accesses_raise (view : View) (hr : c ≠ .reads) (hw : c ≠ .writes) : (v.raise c view).accesses = v.accesses := by
  simp [accesses, hr, hw]

theorem fences_mono {v w : Views} (h : ∀ c, v.get c ≤ w.get c) : v.fences ≤ w.fences := by
  have hb : v.barrier ≤ w.barrier := h .barrier
  have hs : v.syncBarrier ≤ w.syncBarrier := h .syncBarrier
  exact View.join_le.mpr ⟨Int.le_trans hb (View.le_join_left _ _), Int.le_trans hs (View.le_join_right _ _)⟩

theorem fences_le_raise (view : View) : v.fences ≤ (v.raise c view).fences :=
  fences_mono fun d => get_le_get_raise v c d view

/-- A barrier that is raised past all accesses holds them back. -/
theorem accesses_le_fences_raise (hc : c = .barrier ∨ c = .syncBarrier) {view : View} (hr : v.reads ≤ view)
    (hw : v.writes ≤ view) : (v.raise c view).accesses ≤ (v.raise c view).fences := by
  have hview : v.accesses ≤ view := View.join_le.mpr ⟨hr, hw⟩
  rcases hc with rfl | rfl
  · rw [accesses_raise v .barrier view nofun nofun]
    exact Int.le_trans hview (Int.le_trans (View.le_join_right _ _) (View.le_join_left _ _))
  · rw [accesses_raise v .syncBarrier view nofun nofun]
    exact Int.le_trans hview (Int.le_trans (View.le_join_right _ _) (View.le_join_right _ _))

theorem get_le_get_afterRead (kind : ReadKind) (addr post : View) : v.get c ≤ (v.afterRead kind addr post).get c := by
  have hr := get_le_get_raise v .reads c post
  rw [afterRead]
  split
  · have ha := get_le_get_raise (v.raise .reads post) .acquires c post
    exact Int.le_trans hr (Int.le_trans ha (get_le_get_raise _ .speculation c addr))
  · exact Int.le_trans hr (get_le_get_raise _ .speculation c addr)

theorem get_le_get_afterWrite (kind : WriteKind) (time : View) : v.get c ≤ (v.afterWrite kind time).get c := by
  have hw := get_le_get_raise v .writes c time
  rw [afterWrite]
  split
  · exact Int.le_trans hw (get_le_get_raise _ .releases c time)
  · exact hw

theorem afterRead_spec (kind : ReadKind) (addr post : View) :
    (v.afterRead kind addr post).reads = View.join v.reads post ∧ (v.afterRead kind addr post).writes = v.writes := by
  rw [afterRead]
  split <;> simp

theorem afterWrite_spec (kind : WriteKind) (time : View) :
    (v.afterWrite kind time).reads = v.reads ∧ (v.afterWrite kind time).writes = View.join v.writes time := by
  rw [afterWrite]
  split <;> simp

end Views

/-- What a thread has seen and written is accounted for by its views of reads and writes. -/
structure Thread.Accounted (t : Thread) : Prop where
  coherence : ∀ loc, t.coherenceOf loc ≤ t.views.accesses
  forwards : ∀ {loc : Int} {w : Forward}, t.forwards[loc]? = some w → w.view ≤ w.time ∧ w.time ≤ t.views.writes

namespace Frame

variable {f : Frame} {req : ReadRequest} {addr : View} {r : Memory.Read}

/-- What a read adds to its pre-view: the time of the write it reads, or for a forwarded write a view no
later, and then the write is one of the thread. -/
theorem readContribution_cases (h : f.thread.Accounted) (req : ReadRequest) (loc : Int) (r : Memory.Read) :
    f.readContribution req loc r = r.time ∨ f.readContribution req loc r ≤ r.time ∧ r.time ≤ f.thread.views.writes := by
  rw [readContribution]
  split
  · exact .inl rfl
  · next w hw =>
    have hw := h.forwards hw
    split
    · exact .inl rfl
    · next ht =>
      have ht : w.time = r.time := Decidable.not_not.mp ht
      split
      · exact .inl ht
      · exact .inr ⟨ht ▸ hw.1, ht ▸ hw.2⟩

theorem barriers_le_readPre : f.thread.views.fences ≤ f.readPre req addr := by
  refine View.join_le.mpr ⟨View.le_joinAll ?_, View.le_joinAll ?_⟩ <;> simp

theorem barriers_le_writePre {req : WriteRequest} {addr data : View} :
    f.thread.views.fences ≤ f.writePre req addr data := by
  refine View.join_le.mpr ⟨View.le_joinAll ?_, View.le_joinAll ?_⟩ <;> simp

/-- Once barriers have passed all accesses, a read returns the latest write up to its post-view, and comes
after all accesses. -/
theorem latest_of_fenced (h : f.thread.Accounted) (hf : f.thread.views.accesses ≤ f.thread.views.fences)
    (hr : r ∈ f.readCandidates req req.pa addr) :
    (f.memory.cut (f.readPost req addr r)).latest req.pa = r ∧ f.thread.views.accesses ≤ f.readPost req addr r := by
  have hpre : f.thread.views.accesses ≤ f.readPre req addr := Int.le_trans hf barriers_le_readPre
  have hpost : f.readPre req addr ≤ f.readPost req addr r := View.le_join_left _ _
  refine ⟨?_, Int.le_trans hpre hpost⟩
  have hcoherence : View.join (f.readPre req addr) (f.thread.coherenceOf req.pa) = f.readPre req addr :=
    Int.max_eq_left (Int.le_trans (h.coherence req.pa) hpre)
  obtain ⟨hr, -⟩ := List.mem_filter.mp hr
  rw [hcoherence] at hr
  have hwrites : f.thread.views.writes ≤ f.readPre req addr := Int.le_trans (View.le_join_right _ _) hpre
  rcases Memory.mem_candidates.mp hr with ⟨hlt, i, hi⟩ | hlatest
  · -- a write past the pre-view is not one of the thread, so the post-view is its time
    have hc : f.readContribution req req.pa r = r.time := by
      rcases readContribution_cases h req req.pa r with hc | ⟨-, hw⟩
      · exact hc
      · lia
    have hp : f.readPost req addr r = r.time := by
      rw [readPost]
      rw [hc]
      exact Int.max_eq_right (Int.le_of_lt hlt)
    rw [hp, Memory.latest_eq_iff]
    refine ⟨.inl ⟨i, Memory.at?_cut_eq_some_iff.mpr ⟨Int.le_refl _, hi⟩⟩, fun t i v ht => ?_⟩
    exact (Memory.at?_cut_eq_some_iff.mp ht).1
  · -- a write up to the pre-view adds nothing to it
    have hle : r.time ≤ f.readPre req addr := by
      rcases (Memory.latest_eq_iff.mp hlatest.symm).1 with ⟨i, hi⟩ | h0
      · exact (Memory.at?_cut_eq_some_iff.mp hi).1
      · rw [h0]
        exact (View.joinAll_le.mp (Int.le_refl _)).1
    have hp : f.readPost req addr r = f.readPre req addr := by
      refine Int.max_eq_left ?_
      rcases readContribution_cases h req req.pa r with hc | ⟨hc, -⟩ <;> lia
    rw [hp]
    exact hlatest.symm

end Frame

/-! ### Accounts along runs -/

namespace Thread.Accounted

variable {t u : Thread}

theorem of_le (h : t.Accounted) (hc : u.coherence = t.coherence) (hf : u.forwards = t.forwards)
    (hv : ∀ c, t.views.get c ≤ u.views.get c) : u.Accounted where
  coherence loc := by
    have hcoherence : u.coherenceOf loc = t.coherenceOf loc := by rw [coherenceOf, coherenceOf, hc]
    have hreads : t.views.reads ≤ u.views.reads := hv .reads
    have hwrites : t.views.writes ≤ u.views.writes := hv .writes
    rw [hcoherence]
    refine Int.le_trans (h.coherence loc) (View.join_le.mpr ⟨?_, ?_⟩)
    · exact Int.le_trans hreads (View.le_join_left _ _)
    · exact Int.le_trans hwrites (View.le_join_right _ _)
  forwards hw := by
    rw [hf] at hw
    exact ⟨(h.forwards hw).1, Int.le_trans (h.forwards hw).2 (hv .writes)⟩

theorem raise (h : t.Accounted) (c : Counter) (v : View) : (t.raise c v).Accounted :=
  h.of_le rfl rfl fun d => Views.get_le_get_raise t.views c d v

theorem read {f : Frame} {req : ReadRequest} {addr : View} {r : Memory.Read} (h : f.thread.Accounted) :
    (f.afterRead req addr r).thread.Accounted := by
  rw [Frame.thread_afterRead]
  obtain ⟨hreads, hwrites⟩ := Views.afterRead_spec f.thread.views req.kind addr (f.readPost req addr r)
  have hpost : f.readContribution req req.pa r ≤ f.readPost req addr r := View.le_join_right _ _
  refine ⟨fun loc => ?_, fun hw => ?_⟩
  · have hc := h.coherence loc
    have hp := h.coherence req.pa
    have ht := Frame.readContribution_cases h req req.pa r
    refine Int.le_trans (Int.le_of_eq (coherenceOf_insert rfl loc)) ?_
    dsimp only
    unfold Views.accesses View.join at *
    rw [hreads, hwrites]
    split <;> lia
  · dsimp only at hw ⊢
    rw [hwrites]
    exact h.forwards hw

theorem write {f : Frame} {req : WriteRequest} {operands t : View} {m : Memory} {promised : Bool} (h : f.thread.Accounted)
    (ho : operands ≤ t) : (f.afterWrite req operands t m promised).thread.Accounted := by
  rw [Frame.thread_afterWrite]
  obtain ⟨hreads, hwrites⟩ := Views.afterWrite_spec f.thread.views req.kind t
  refine ⟨?_, ?_⟩
  · intro loc
    have hc := h.coherence loc
    have hp := h.coherence req.pa
    refine Int.le_trans (Int.le_of_eq (coherenceOf_insert rfl loc)) ?_
    dsimp only
    unfold Views.accesses View.join at *
    rw [hreads, hwrites]
    split <;> lia
  · intro loc w hw
    dsimp only at hw ⊢
    rw [hwrites]
    rw [Std.ExtTreeMap.getElem?_insert] at hw
    split at hw
    · cases hw
      exact ⟨ho, View.le_join_right _ _⟩
    · exact ⟨(h.forwards hw).1, Int.le_trans (h.forwards hw).2 (View.le_join_left _ _)⟩

end Thread.Accounted

/-- In every run what a thread has seen and written is accounted for. -/
theorem frameInvariant_accounted : FrameInvariant fun _ f => f.thread.Accounted where
  start tid regs _ := ⟨fun _ => Int.le_refl 0, fun h => by simp [Thread.start] at h⟩
  step {e as a f g v} hm h hs := by
    cases hs with
    | @writeReg reg value _ _ view hd =>
      rw [Thread.hold_eq]
      refine h.of_le rfl rfl ?_
      intro c
      dsimp only
      split
      · exact Views.get_le_get_raise _ .systemWrites c view
      · exact Int.le_refl _
    | read => exact h.read
    | @write req _ addr data t memory promised hsz ha hd hd' hp ht =>
      refine h.write ?_
      have hpre : View.join addr data ≤ f.writePre req addr data :=
        View.join_le.mpr ⟨View.le_joinAll (by simp), View.le_joinAll (by simp)⟩
      exact Int.le_of_lt (Int.lt_of_le_of_lt hpre (Frame.lt_of_writeTrouble ht).1)
    | dmb | dsb | announceBranch => exact h.raise _ _
    | @maintain _ _ _ _ _ t =>
      rw [Frame.thread_afterMaintain]
      exact h.of_le rfl rfl fun c => Views.get_le_get_raise _ .maintenance c t
    | isb | returnFromException | halt =>
      exact h.of_le rfl rfl fun c => Views.get_le_get_raise _ .contextSync c _
    | _ => exact h.of_le rfl rfl fun _ => Int.le_refl _
  next h := h
  promise hm h hp := by
    obtain ⟨-, hg, -⟩ := Frame.promiseWrite_spec hm hp
    rw [hg]
    exact h.of_le rfl rfl fun _ => Int.le_refl _
  grow h _ := h

end Litmus
