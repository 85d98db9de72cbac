import Litmus.Proofs.Exploration.Move
import Litmus.Proofs.Instruction.Candidates

/-!
Views stay within memory. Every view that a thread or an instruction keeps is zero or later, and not past
the last event. Main fact: all effects keep it so, because views are joins of times that memory already
has.
-/

namespace Litmus

/-- Whether a view lies within a memory. -/
def Memory.Spans (m : Memory) (v : View) : Prop := 0 ≤ v ∧ v ≤ m.length

namespace Memory.Spans

variable {m n : Memory} {v w : View}

theorem zero (m : Memory) : m.Spans 0 := ⟨Int.le_refl 0, Int.natCast_nonneg _⟩

theorem join (hv : m.Spans v) (hw : m.Spans w) : m.Spans (View.join v w) :=
  ⟨Int.le_trans hv.1 (View.le_join_left v w), View.join_le.mpr ⟨hv.2, hw.2⟩⟩

theorem le_foldl_join : ∀ (views : List View) (a : View), a ≤ views.foldl View.join a
  | [], a => Int.le_refl a
  | v :: views, a => Int.le_trans (View.le_join_left a v) (le_foldl_join views _)

theorem joinAll {views : List View} (h : views.Forall m.Spans) : m.Spans (View.joinAll views) := by
  rw [List.forall_iff_forall_mem] at h
  exact ⟨le_foldl_join views 0, View.joinAll_le.mpr ⟨Int.natCast_nonneg _, fun v hv => (h v hv).2⟩⟩

theorem mono (hv : m.Spans v) (h : m.Extends n) : n.Spans v := ⟨hv.1, Int.le_trans hv.2 h.length_le⟩

theorem of_at? {e : Event} (h : m.at? v = some e) : m.Spans v :=
  ⟨Int.le_of_lt (pos_of_at? h), le_length_of_at? h⟩

/-- What a read may return lies within memory. -/
theorem of_mem_candidates {loc : Int} {r : Read} (h : r ∈ m.candidates loc v) : m.Spans r.time := by
  rcases write_of_mem_candidates h with ⟨i, hi⟩ | h0
  · exact of_at? hi
  · rw [h0]
    exact zero m

end Memory.Spans

/-- The views of a thread lie within memory. -/
structure Thread.Bounded (m : Memory) (t : Thread) : Prop where
  views : ∀ c, m.Spans (t.views.get c)
  regs : ∀ {reg : String} {r : Reg}, t.regs[reg]? = some r → m.Spans r.view
  history : ∀ w ∈ t.history, m.Spans w.held.view
  coherence : ∀ loc, m.Spans (t.coherenceOf loc)
  forwards : ∀ {loc : Int} {w : Forward}, t.forwards[loc]? = some w → m.Spans w.time ∧ m.Spans w.view
  promises : ∀ p ∈ t.promises, m.Spans p

/-- The views of an instruction lie within memory. -/
structure Scratch.Bounded (m : Memory) (s : Scratch) : Prop where
  regView : m.Spans s.regView
  strict : m.Spans s.strict
  readViews : ∀ v ∈ s.readViews, m.Spans v
  flights : ∀ {page : Int} {w : Flight}, s.flights[page]? = some w → m.Spans w.time

/-- All views of a frame lie within its memory. -/
structure Frame.Bounded (f : Frame) : Prop where
  thread : f.thread.Bounded f.memory
  scratch : f.scratch.Bounded f.memory

/-! ### Threads -/

namespace Thread.Bounded

variable {m n : Memory} {t : Thread} {v : View}

theorem mono (h : t.Bounded m) (hn : m.Extends n) : t.Bounded n where
  views c := (h.views c).mono hn
  regs hr := (h.regs hr).mono hn
  history w hw := (h.history w hw).mono hn
  coherence loc := (h.coherence loc).mono hn
  forwards hw := (h.forwards hw).imp (·.mono hn) (·.mono hn)
  promises p hp := (h.promises p hp).mono hn

theorem start (tid : Int) (regs : Registers Int) : (Thread.start tid regs).Bounded m where
  views c := by cases c <;> exact .zero m
  regs hr := by simp [Thread.start] at hr
  history w hw := by simp [Thread.start] at hw
  coherence loc := .zero m
  forwards hw := by simp [Thread.start] at hw
  promises p hp := by simp [Thread.start] at hp

theorem raise (h : t.Bounded m) (c : Counter) (hv : m.Spans v) : (t.raise c v).Bounded m := by
  refine ⟨?_, h.regs, h.history, h.coherence, h.forwards, h.promises⟩
  intro d
  rw [Thread.raise]
  rw [Views.get_raise]
  split
  · exact (h.views c).join hv
  · exact h.views d

theorem see (h : t.Bounded m) (loc : Int) (hv : m.Spans v) : (t.see loc v).Bounded m := by
  refine ⟨h.views, h.regs, h.history, ?_, h.forwards, h.promises⟩
  intro l
  rw [coherenceOf_insert (u := t.see loc v) rfl]
  split
  · exact (h.coherence loc).join hv
  · exact h.coherence l

theorem forward (h : t.Bounded m) (loc : Int) {w : Forward} (hw : m.Spans w.time ∧ m.Spans w.view) :
    (t.forward loc w).Bounded m := by
  refine ⟨h.views, h.regs, h.history, h.coherence, ?_, h.promises⟩
  intro l x hx
  rw [Thread.forward] at hx
  rw [Std.ExtTreeMap.getElem?_insert] at hx
  split at hx
  · cases hx
    exact hw
  · exact h.forwards hx

theorem monitored (h : t.Bounded m) (x : Option Monitor) : (t.monitored x).Bounded m :=
  ⟨h.views, h.regs, h.history, h.coherence, h.forwards, h.promises⟩

theorem withCache (h : t.Bounded m) (c : Paging.Cache) : (t.withCache c).Bounded m :=
  ⟨h.views, h.regs, h.history, h.coherence, h.forwards, h.promises⟩

theorem recordIssued (h : t.Bounded m) (time : View) : (t.recordIssued time).Bounded m :=
  ⟨h.views, h.regs, h.history, h.coherence, h.forwards, h.promises⟩

theorem pushPromise (h : t.Bounded m) (hv : m.Spans v) : (t.pushPromise v).Bounded m := by
  refine ⟨h.views, h.regs, h.history, h.coherence, h.forwards, ?_⟩
  intro p hp
  rcases List.mem_append.mp hp with hp | hp
  · exact h.promises p hp
  · exact List.mem_singleton.mp hp ▸ hv

theorem removePromise (h : t.Bounded m) (time : View) : (t.removePromise time).Bounded m :=
  ⟨h.views, h.regs, h.history, h.coherence, h.forwards, fun p hp => h.promises p (List.mem_filter.mp hp).1⟩

theorem hold (h : t.Bounded m) (reg : String) {r : Reg} (hr : m.Spans r.view) : (t.hold reg r).Bounded m := by
  rw [Thread.hold]
  split
  · have hraise := h.raise .systemWrites hr
    refine ⟨hraise.views, h.regs, ?_, h.coherence, h.forwards, h.promises⟩
    intro w hw
    rcases List.mem_append.mp hw with hw | hw
    · exact h.history w hw
    · exact List.mem_singleton.mp hw ▸ hr
  · refine ⟨h.views, ?_, h.history, h.coherence, h.forwards, h.promises⟩
    intro reg' r' hr'
    unfold Thread.writeReg at hr'
    rw [Std.ExtTreeMap.getElem?_insert] at hr'
    split at hr'
    · cases hr'
      exact hr
    · exact h.regs hr'

theorem contextSync (h : t.Bounded m) : t.contextSync.Bounded m := by
  have hv := (h.views .speculation).join ((h.views .syncBarrier).join (h.views .systemWrites))
  have hr := h.raise .contextSync hv
  exact ⟨hr.views, hr.regs, hr.history, hr.coherence, hr.forwards, hr.promises⟩

/-- What a register holds depends on views within memory. -/
theorem holds (h : t.Bounded m) {reg : String} {r : Reg} (hr : t.holds reg = .ok r) : m.Spans r.view := by
  have initial {r : Reg} (hr : t.initialReg reg = .ok r) : m.Spans r.view := by
    rw [initialReg] at hr
    split at hr
    · cases hr
      exact .zero m
    · cases hr
  rw [Thread.holds] at hr
  split at hr
  · rw [readSystem, readSystemAt] at hr
    split at hr
    · next r' hr' =>
      cases hr
      have hm := List.mem_of_getLast? hr'
      rw [heldBy] at hm
      obtain ⟨w, hw, rfl⟩ := List.mem_map.mp hm
      exact h.history w (List.mem_of_mem_take (List.mem_filter.mp hw).1)
    · exact initial hr
  · rw [readReg] at hr
    split at hr
    · next r' hr' =>
      cases hr
      exact h.regs hr'
    · exact initial hr

end Thread.Bounded

/-! ### Instructions -/

namespace Scratch.Bounded

variable {m n : Memory} {s : Scratch} {v : View}

theorem mono (h : s.Bounded m) (hn : m.Extends n) : s.Bounded n where
  regView := h.regView.mono hn
  strict := h.strict.mono hn
  readViews v hv := (h.readViews v hv).mono hn
  flights hw := (h.flights hw).mono hn

theorem start : Scratch.start.Bounded m where
  regView := .zero m
  strict := .zero m
  readViews v hv := by simp [Scratch.start] at hv
  flights hw := by simp [Scratch.start] at hw

theorem addRegRead (h : s.Bounded m) (hv : m.Spans v) : (s.addRegRead v).Bounded m :=
  ⟨h.regView.join hv, h.strict, h.readViews, h.flights⟩

theorem addStrict (h : s.Bounded m) (hv : m.Spans v) : (s.addStrict v).Bounded m :=
  ⟨h.regView, h.strict.join hv, h.readViews, h.flights⟩

theorem addRead (h : s.Bounded m) (hv : m.Spans v) : (s.addRead v).Bounded m := by
  refine ⟨h.regView, h.strict.join hv, ?_, h.flights⟩
  intro w hw
  rcases List.mem_append.mp hw with hw | hw
  · exact h.readViews w hw
  · exact List.mem_singleton.mp hw ▸ hv

theorem insertFlight (h : s.Bounded m) (page : Int) {w : Flight} (hw : m.Spans w.time) :
    ({ s with flights := s.flights.insert page w } : Scratch).Bounded m := by
  refine ⟨h.regView, h.strict, h.readViews, ?_⟩
  intro page' w' hw'
  rw [Std.ExtTreeMap.getElem?_insert] at hw'
  split at hw'
  · cases hw'
    exact hw
  · exact h.flights hw'

theorem advance (h : s.Bounded m) (page : Int) {w : Flight} (hw : m.Spans w.time) (remaining : List Paging.Step) :
    (s.advance page w remaining).Bounded m := h.insertFlight page (w := { w with remaining }) hw

theorem landed (h : s.Bounded m) (page : Int) : (s.landed page).Bounded m := by
  refine ⟨h.regView, h.strict, h.readViews, ?_⟩
  intro page' w hw
  rw [Scratch.landed] at hw
  rw [Std.ExtTreeMap.getElem?_erase] at hw
  split at hw
  · cases hw
  · exact h.flights hw

theorem startWalk (h : s.Bounded m) (page : Int) {w : Flight} (hw : m.Spans w.time) : (s.startWalk page w).Bounded m := by
  have := (h.addStrict hw).insertFlight page hw
  exact ⟨this.regView, this.strict, this.readViews, this.flights⟩

theorem readView (h : s.Bounded m) {index : Number} (hv : s.readView index = .ok v) : m.Spans v := by
  simp only [Scratch.readView] at hv
  split at hv
  · split at hv
    · next w hw =>
      cases hv
      split at hw
      · exact h.readViews v (List.mem_of_getElem? hw)
      · cases hw
    · cases hv
  · cases hv
  · cases hv

end Scratch.Bounded

/-! ### Effects -/

namespace Frame.Bounded

variable {f g : Frame} {v : View}

theorem depsView (h : f.Bounded) {deps : Deps} (hd : f.depsView deps = .ok v) : f.memory.Spans v := by
  cases deps with
  | implicit =>
    cases hd
    exact h.scratch.regView.join (.joinAll (List.forall_iff_forall_mem.mpr h.scratch.readViews))
  | explicit regs reads =>
    simp only [Frame.depsView, bind_eq_ok, pure_eq_ok] at hd
    obtain ⟨readViews, hreads, held, hheld, rfl⟩ := hd
    refine .joinAll (List.forall_iff_forall_mem.mpr ?_)
    intro w hw
    rcases List.mem_append.mp hw with hw | hw
    · obtain ⟨index, -, hi⟩ := (mem_of_mapM_eq_ok hreads).mp hw
      exact h.scratch.readView hi
    · obtain ⟨r, hr, rfl⟩ := List.mem_map.mp hw
      obtain ⟨reg, -, hreg⟩ := (mem_of_mapM_eq_ok hheld).mp hr
      exact h.thread.holds hreg

theorem readPre (h : f.Bounded) (req : ReadRequest) (hv : f.memory.Spans v) : f.memory.Spans (f.readPre req v) := by
  have hk : f.memory.Spans (if req.kind = .acquire then f.thread.views.releases else 0) := by
    split
    · exact h.thread.views .releases
    · exact .zero _
  have views := h.thread.views
  exact .joinAll ⟨hv, views .barrier, views .syncBarrier, views .contextSync, views .acquires, hk, h.scratch.strict⟩

theorem writePre (h : f.Bounded) (req : WriteRequest) {addr data : View} (ha : f.memory.Spans addr)
    (hd : f.memory.Spans data) : f.memory.Spans (f.writePre req addr data) := by
  have views := h.thread.views
  have hk : f.memory.Spans (if req.kind = .release then View.join f.thread.views.reads f.thread.views.writes else 0) := by
    split
    · exact (views .reads).join (views .writes)
    · exact .zero _
  exact .joinAll ⟨ha, hd, views .speculation, views .storeBarrier, views .barrier, views .syncBarrier,
    views .contextSync, views .acquires, hk, h.scratch.strict⟩

theorem maintainPre (h : f.Bounded) (hv : f.memory.Spans v) : f.memory.Spans (f.maintainPre v) :=
  .joinAll ⟨h.thread.views .contextSync, h.thread.views .syncBarrier, h.scratch.strict, hv⟩

theorem readPost (h : f.Bounded) (req : ReadRequest) {r : Memory.Read} (hv : f.memory.Spans v)
    (hr : f.memory.Spans r.time) : f.memory.Spans (f.readPost req v r) := by
  refine (h.readPre req hv).join ?_
  rw [Frame.readContribution]
  split
  · exact hr
  · next w hw =>
    have := h.thread.forwards hw
    split
    · exact hr
    · split
      · exact this.1
      · exact this.2

theorem threadAfterRead {m : Memory} {t : Thread} (h : t.Bounded m) (req : ReadRequest) (loc : Int) {addr post time : View}
    (ha : m.Spans addr) (hp : m.Spans post) (ht : m.Spans time) :
    (Frame.threadAfterRead t req loc addr post time).Bounded m := by
  have h₁ := (h.see loc ht).raise .reads hp
  unfold Frame.threadAfterRead
  dsimp only
  split <;> split
  · exact ((h₁.raise .acquires hp).raise .speculation ha).monitored _
  · exact (h₁.raise .speculation ha).monitored _
  · exact (h₁.raise .acquires hp).raise .speculation ha
  · exact h₁.raise .speculation ha

theorem threadAfterWrite {m : Memory} {t : Thread} (h : t.Bounded m) (req : WriteRequest) (loc : Int) {operands time : View}
    (ho : m.Spans operands) (ht : m.Spans time) (promised : Bool) :
    (Frame.threadAfterWrite t req loc operands time promised).Bounded m := by
  have keep {t : Thread} (h : t.Bounded m) :
      (if promised = true then t.removePromise time else t).Bounded m := by
    split
    · exact h.removePromise time
    · exact h
  have rest {t : Thread} (h : t.Bounded m) :
      (if req.kind = .release then ((t.see loc time).raise .writes time).raise .releases time
        else (t.see loc time).raise .writes time).Bounded m := by
    have h₁ := (h.see loc ht).raise .writes ht
    split
    · exact h₁.raise .releases ht
    · exact h₁
  rw [Frame.threadAfterWrite]
  refine (rest (keep ?_)).forward loc ⟨ht, ho⟩
  split
  · exact h.monitored none
  · exact h

theorem synchronize (h : f.Bounded) : f.synchronize.Bounded := ⟨h.thread.contextSync.withCache _, h.scratch⟩

/-- Times at which a walk may be taken lie within memory. -/
theorem of_mem_walkCandidates (h : f.Bounded) {va : Int} {cs : List Candidate} (hcs : f.walkCandidates va = .ok cs)
    {c : Candidate} (hc : c ∈ cs) : f.memory.Spans c.time := by
  obtain ⟨held, -, r, -, ⟨_, -, -, w, -, -, rfl⟩ | ⟨t, ht, w, -, rfl⟩⟩ := mem_walkCandidates hcs hc
  · exact h.thread.views .contextSync
  · have hsync := (h.thread.views .contextSync).1
    obtain ⟨hle, hlen⟩ := mem_walkTimes.mp ht
    exact ⟨Int.le_trans hsync hle, hlen⟩

theorem step {e : Effect} {a : Action} {x : e.Answer} (hm : f.memory.Whole) (h : f.Bounded) (hs : e.Step f x g a) :
    g.Bounded := by
  cases hs with
  | readReg hr => exact ⟨h.thread, h.scratch.addRegRead (h.thread.holds hr)⟩
  | writeReg hd => exact ⟨h.thread.hold _ (h.depsView hd), h.scratch⟩
  | fetch => exact h
  | descriptor hk hsz hva hw hr hpa =>
    have ht := h.scratch.flights hw
    exact ⟨h.thread, (h.scratch.advance _ ht _).addRead ht⟩
  | @read req _ addr r hk hsz ha hd hr hb =>
    have hv := h.depsView hd
    have hr := Memory.Spans.of_mem_candidates (List.mem_filter.mp hr).1
    have hp := h.readPost req hv hr
    exact ⟨threadAfterRead h.thread _ _ hv hp hr, h.scratch.addRead hp⟩
  | write hsz ha hd hd' hp ht =>
    have hplaced := placed hm hp
    have hv := Memory.Spans.mono ((h.depsView hd).join (h.depsView hd')) hplaced.grown
    have ht := Memory.Spans.of_at? hplaced.at?_eq
    exact ⟨threadAfterWrite (h.thread.mono hplaced.grown) _ _ hv ht _, (h.scratch.mono hplaced.grown).addStrict ht⟩
  | writeFailed => exact ⟨h.thread.monitored none, h.scratch⟩
  | @dmb kind =>
    have views := h.thread.views
    refine ⟨h.thread.raise _ ?_, h.scratch⟩
    cases kind with
    | sy => exact .joinAll ⟨views .reads, views .writes, views .contextSync, views .syncBarrier⟩
    | ld => exact .joinAll ⟨views .reads, views .contextSync, views .syncBarrier⟩
    | st => exact .joinAll ⟨views .writes, views .contextSync, views .syncBarrier⟩
  | @dsb kind =>
    have views := h.thread.views
    refine ⟨h.thread.raise _ ?_, h.scratch⟩
    cases kind with
    | sy => exact .joinAll ⟨views .reads, views .writes, views .maintenance, views .contextSync⟩
    | ld => exact (views .reads).join (views .contextSync)
    | st => exact .joinAll ⟨views .writes, views .maintenance, views .contextSync⟩
  | isb => exact h.synchronize
  | maintain hreq hd hp ht =>
    have hplaced := placed hm hp
    have ht := Memory.Spans.of_at? hplaced.at?_eq
    have hthread := h.thread.mono hplaced.grown
    refine ⟨?_, (h.scratch.mono hplaced.grown).addStrict ht⟩
    rw [Frame.afterMaintain]
    refine Thread.Bounded.recordIssued (Thread.Bounded.raise ?_ .maintenance ht) _
    split
    · exact hthread.removePromise _
    · exact hthread
  | announceBranch hd => exact ⟨h.thread.raise .speculation (h.depsView hd), h.scratch⟩
  | startWalk hcs hc => exact ⟨h.thread, h.scratch.startWalk _ (h.of_mem_walkCandidates hcs hc)⟩
  | endWalk => exact ⟨h.thread, h.scratch.landed _⟩
  | cacheWalk => exact ⟨h.thread.withCache _, h.scratch.landed _⟩
  | returnFromException | halt => exact h.synchronize
  | choose => exact h

end Frame.Bounded

/-- In every run all views lie within memory. -/
theorem frameInvariant_bounded : FrameInvariant fun _ f => f.Bounded where
  start tid regs image := ⟨.start tid regs, .start⟩
  step hm h hs := h.step hm hs
  next h := ⟨h.thread, .start⟩
  promise {as thread m loc value g time} hm h hp := by
    obtain ⟨-, hg, -, -, hext, -, hat⟩ := Frame.promiseWrite_spec hm hp
    have hspan : g.memory.Spans time := .of_at? ((hat time).trans (if_pos rfl))
    rw [hg]
    exact ⟨(h.thread.mono hext).pushPromise hspan, .start⟩
  grow h hext := ⟨h.thread.mono hext, .start⟩

end Litmus
