import Litmus.Proofs.Exploration.Complete

/-!
Coherence. A thread's view of a cell is the time of a write to it, and never before the time of anything
that the thread has read or written there. Main fact: along the accesses of one cell by one thread, in
program order, times do not fall, and they rise at every write.
-/

namespace Litmus

/-- An access of a cell: a read of the write at some time, or a write at its own time. -/
inductive Access where
  | read (value : Int) (time : View)
  | write (value : Int) (time : View)

namespace Access

/-- The time of the write that was read or done. -/
def time : Access → View
  | .read _ t | .write _ t => t

/-- Whether an access may come after another of its cell: a read not at an earlier time, and a write at a
later one. -/
def Follows (a : Access) : Access → Prop
  | .read _ t => a.time ≤ t
  | .write _ t => a.time < t

/-- What memory has at the time of an access: the write of the thread itself, or the write that was read,
which at time zero is the initial value. -/
def IsIn (m : Memory) (tid loc : Int) : Access → Prop
  | .read value t => (∃ i, m.at? t = some (.write i loc value)) ∨ (t = 0 ∧ value = m.initial.readCell loc)
  | .write value t => m.at? t = some (.write tid loc value)

theorem IsIn.extends {m n : Memory} {tid loc : Int} (hn : m.Extends n) : ∀ {a : Access}, a.IsIn m tid loc →
    a.IsIn n tid loc
  | .read _ _, h => h.imp (fun ⟨i, h⟩ => ⟨i, hn.at?_eq_some h⟩) fun h => hn.initial ▸ h
  | .write _ _, h => hn.at?_eq_some h

theorem IsIn.le_length {m : Memory} {tid loc : Int} : ∀ {a : Access}, a.IsIn m tid loc → a.time ≤ m.length
  | .read _ _, .inl ⟨_, h⟩ => Memory.le_length_of_at? h
  | .read _ _, .inr ⟨h, _⟩ => h ▸ Int.natCast_nonneg _
  | .write _ _, h => Memory.le_length_of_at? h

end Access

/-- The access of a cell that an action was: an explicit read, or a write that did write. -/
def Action.access? (loc : Int) : Action → Option Access
  | .read req r _ _ => if req.pa = loc then some (.read r.value r.time) else none
  | .write req _ time => if req.pa = loc then some (.write req.value time) else none
  | _ => none

/-- The accesses of a cell among some actions, in their order. -/
def accessesOf (loc : Int) (as : List Action) : List Access := as.filterMap (Action.access? loc)

theorem accessesOf_append (loc : Int) (as bs : List Action) :
    accessesOf loc (as ++ bs) = accessesOf loc as ++ accessesOf loc bs := List.filterMap_append

theorem accessesOf_singleton (loc : Int) (a : Action) : accessesOf loc [a] = (a.access? loc).toList := by
  rw [accessesOf]
  cases h : a.access? loc <;> simp [h]

/-- What links the accesses that a thread has made to its view of each cell, its promises and memory. -/
structure Coherent (as : List Action) (f : Frame) : Prop where
  promised : ∀ t ∈ f.thread.promises, t ≤ f.memory.length
  seen : ∀ loc, f.thread.coherenceOf loc = 0 ∨ ∃ i v, f.memory.at? (f.thread.coherenceOf loc) = some (.write i loc v)
  ordered : ∀ loc, (accessesOf loc as).Pairwise Access.Follows
  below : ∀ loc, ∀ a ∈ accessesOf loc as, a.time ≤ f.thread.coherenceOf loc
  isIn : ∀ loc, ∀ a ∈ accessesOf loc as, a.IsIn f.memory f.thread.tid loc
  kept : ∀ loc, ∀ a ∈ accessesOf loc as, a.time ∉ f.thread.promises

namespace Coherent

/-- What does not touch cells or the view of them keeps coherence. -/
theorem quiet {as : List Action} {f g : Frame} (h : Coherent as f) (hp : ∀ t ∈ g.thread.promises, t ∈ f.thread.promises)
    (hc : g.thread.coherence = f.thread.coherence) (ht : g.thread.tid = f.thread.tid)
    (hm : f.memory.Extends g.memory) : Coherent as g where
  promised t hg := Int.le_trans (h.promised t (hp t hg)) hm.length_le
  seen loc := by
    rw [Thread.coherenceOf, hc]
    rcases h.seen loc with h0 | ⟨i, v, hv⟩
    · exact .inl h0
    · exact .inr ⟨i, v, hm.at?_eq_some hv⟩
  ordered := h.ordered
  below loc a ha := by
    rw [Thread.coherenceOf, hc]
    exact h.below loc a ha
  isIn loc a ha := ht ▸ (h.isIn loc a ha).extends hm
  kept loc a ha hg := h.kept loc a ha (hp _ hg)

theorem other {as : List Action} {f : Frame} (h : Coherent as f) {b : Action} (hb : ∀ loc, b.access? loc = none) :
    Coherent (as ++ [b]) f := by
  have same (loc : Int) : accessesOf loc (as ++ [b]) = accessesOf loc as := by
    rw [accessesOf_append, accessesOf_singleton, hb loc, Option.toList_none, List.append_nil]
  exact ⟨h.promised, h.seen, fun loc => same loc ▸ h.ordered loc, fun loc => same loc ▸ h.below loc,
    fun loc => same loc ▸ h.isIn loc, fun loc => same loc ▸ h.kept loc⟩

/-- An access of a cell that follows the view of the cell, and becomes it, keeps coherence. -/
theorem access {as : List Action} {f g : Frame} {b : Action} (h : Coherent as f) (loc : Int) (x : Access)
    (hb : ∀ l, b.access? l = if loc = l then some x else none)
    (hx : ∀ a : Access, a.time ≤ f.thread.coherenceOf loc → a.Follows x) (hle : f.thread.coherenceOf loc ≤ x.time)
    (hin : x.IsIn g.memory g.thread.tid loc) (hw : x.time = 0 ∨ ∃ i v, g.memory.at? x.time = some (.write i loc v))
    (hp : ∀ t ∈ g.thread.promises, t ∈ f.thread.promises ∧ t ≠ x.time)
    (hc : ∀ l, g.thread.coherenceOf l = if l = loc then x.time else f.thread.coherenceOf l)
    (ht : g.thread.tid = f.thread.tid) (hm : f.memory.Extends g.memory) : Coherent (as ++ [b]) g := by
  have split {l : Int} {a : Access} (ha : a ∈ accessesOf l (as ++ [b])) : a ∈ accessesOf l as ∨ l = loc ∧ a = x := by
    rw [accessesOf_append, accessesOf_singleton, hb, List.mem_append] at ha
    by_cases hl : loc = l
    · rw [if_pos hl] at ha
      exact ha.imp_right fun ha => ⟨hl.symm, by simpa using ha⟩
    · rw [if_neg hl] at ha
      exact ha.imp_right fun ha => by simp at ha
  refine ⟨fun t hg => Int.le_trans (h.promised t (hp t hg).1) hm.length_le, ?_, ?_, ?_, ?_, ?_⟩
  · intro l
    rw [hc]
    split
    · next e => exact e ▸ hw
    · exact (h.seen l).imp_right fun ⟨i, v, hv⟩ => ⟨i, v, hm.at?_eq_some hv⟩
  · intro l
    rw [accessesOf_append, accessesOf_singleton, hb]
    by_cases hl : loc = l
    · subst hl
      rw [if_pos rfl, Option.toList_some, List.pairwise_append]
      refine ⟨h.ordered loc, List.pairwise_singleton _ _, ?_⟩
      intro a ha y hy
      rw [List.mem_singleton.mp hy]
      exact hx a (h.below loc a ha)
    · rw [if_neg hl, Option.toList_none, List.append_nil]
      exact h.ordered l
  · intro l a ha
    rw [hc]
    rcases split ha with ha | ⟨rfl, rfl⟩
    · have ha := h.below l a ha
      split
      · next e => exact Int.le_trans ha (e ▸ hle)
      · exact ha
    · exact Int.le_of_eq (if_pos rfl).symm
  · intro l a ha
    rcases split ha with ha | ⟨rfl, rfl⟩
    · rw [ht]
      exact (h.isIn l a ha).extends hm
    · exact hin
  · intro l a ha hg
    rcases split ha with ha | ⟨rfl, rfl⟩
    · exact h.kept l a ha (hp _ hg).1
    · exact (hp _ hg).2 rfl

end Coherent

/-- An explicit read returns nothing older than the view of its cell, and no promise of its own. -/
theorem Frame.readCandidates_spec {f : Frame} {req : ReadRequest} {addr : View} {r : Memory.Read}
    (hr : r ∈ f.readCandidates req req.pa addr)
    (hseen : f.thread.coherenceOf req.pa = 0 ∨
      ∃ i v, f.memory.at? (f.thread.coherenceOf req.pa) = some (.write i req.pa v)) :
    f.thread.coherenceOf req.pa ≤ r.time ∧ r.time ∉ f.thread.promises ∧
      ((∃ i, f.memory.at? r.time = some (.write i req.pa r.value)) ∨ r = ⟨f.memory.initial.readCell req.pa, 0⟩) := by
  rw [readCandidates] at hr
  obtain ⟨hr, hp⟩ := List.mem_filter.mp hr
  have hview := View.le_join_right (f.readPre req addr) (f.thread.coherenceOf req.pa)
  refine ⟨?_, by simpa using hp, Memory.write_of_mem_candidates hr⟩
  rcases Memory.mem_candidates.mp hr with ⟨hv, -⟩ | hr
  · lia
  · rcases hseen with h0 | ⟨i, v, hv⟩
    · rw [h0, hr]
      exact Memory.latest_time_nonneg _ _
    · -- the view of the cell is a write up to where the read looks, so the latest is no older
      exact (Memory.latest_eq_iff.mp hr.symm).2 _ _ _ (Memory.at?_cut_eq_some_iff.mpr ⟨hview, hv⟩)

/-- An explicit read keeps coherence. -/
theorem Coherent.afterRead {f : Frame} {as : List Action} {req : ReadRequest} {addr pre post : View} {r : Memory.Read}
    (h : Coherent as f) (hr : r ∈ f.readCandidates req req.pa addr) (hg : f.Grows (f.afterRead req addr r)) :
    Coherent (as ++ [.read req r pre post]) (f.afterRead req addr r) := by
  obtain ⟨hle, hp, hw⟩ := Frame.readCandidates_spec hr (h.seen req.pa)
  refine h.access req.pa (.read r.value r.time) (fun _ => rfl) ?_ hle ?_ ?_ ?_ ?_ hg.tid_eq hg.grown
  · intro a ha
    exact Int.le_trans ha hle
  · exact hw.imp_right fun hr => ⟨congrArg Memory.Read.time hr, congrArg Memory.Read.value hr⟩
  · rcases hw with ⟨i, hi⟩ | hr
    · exact .inr ⟨i, r.value, hi⟩
    · exact .inl (congrArg Memory.Read.time hr)
  · rw [Frame.thread_afterRead]
    intro t ht
    refine ⟨ht, ?_⟩
    rintro rfl
    exact hp ht
  · intro l
    have hview : View.join (f.thread.coherenceOf req.pa) r.time = r.time := Int.max_eq_right hle
    rw [Frame.thread_afterRead, hview]
    exact Thread.coherenceOf_insert rfl l

/-- A write keeps coherence. -/
theorem Coherent.afterWrite {f : Frame} {as : List Action} {req : WriteRequest} {view pre t : View} {memory : Memory}
    {promised : Bool} (h : Coherent as f) (hplaced : f.Placed (.write f.thread.tid req.pa req.value) memory t promised)
    (ht : f.writeTrouble req memory req.pa pre t = none) (hg : f.Grows (f.afterWrite req view t memory promised)) :
    Coherent (as ++ [.write req pre t]) (f.afterWrite req view t memory promised) := by
  have hlt := (Frame.lt_of_writeTrouble ht).2
  refine h.access req.pa (.write req.value t) (fun _ => rfl) ?_ (Int.le_of_lt hlt) ?_ ?_ ?_ ?_ hg.tid_eq hg.grown
  · intro a ha
    exact Int.lt_of_le_of_lt ha hlt
  · rw [hg.tid_eq]
    exact hplaced.at?_eq
  · exact .inr ⟨_, _, hplaced.at?_eq⟩
  · rw [Frame.thread_afterWrite]
    exact fun p hp => hplaced.mem_left h.promised hp
  · intro l
    have hview : View.join (f.thread.coherenceOf req.pa) t = t := Int.max_eq_right (Int.le_of_lt hlt)
    rw [Frame.thread_afterWrite, hview]
    exact Thread.coherenceOf_insert rfl l

theorem Coherent.step {e : Effect} {as : List Action} {a : Action} {f g : Frame} {v : e.Answer} (hm : f.memory.Whole)
    (h : Coherent as f) (hs : e.Step f v g a) : Coherent (as ++ [a]) g := by
  have hg := hs.grows hm
  cases hs with
  | writeReg =>
    refine (h.quiet ?_ ?_ hg.tid_eq hg.grown).other fun _ => rfl
    · dsimp only
      rw [Thread.hold_eq]
      exact fun _ ht => ht
    · dsimp only
      rw [Thread.hold_eq]
  | read hk hsz ha hd hr hb => exact h.afterRead hr hg
  | write hsz ha hd hd' hp ht => exact h.afterWrite (Frame.placed hm hp) ht hg
  | maintain =>
    refine (h.quiet ?_ ?_ hg.tid_eq hg.grown).other fun _ => rfl
    · rw [Frame.thread_afterMaintain]
      dsimp only
      split
      · exact fun _ ht => (List.mem_filter.mp ht).1
      · exact fun _ ht => ht
    · rw [Frame.thread_afterMaintain]
  | _ =>
    refine Coherent.other ?_ fun _ => rfl
    exact h.quiet (fun _ ht => ht) rfl hg.tid_eq hg.grown

/-- Coherence is kept by all that happens. -/
theorem frameInvariant_coherent : FrameInvariant Coherent where
  start tid regs image := ⟨nofun, fun _ => .inl rfl, fun _ => .nil, nofun, nofun, nofun⟩
  step hm h hs := h.step hm hs
  next h := h.quiet (fun _ ht => ht) rfl rfl (.refl _)
  promise {as thread m loc value g time} hm h hp := by
    obtain ⟨-, hg, -, ht, hext, hlen, -⟩ := Frame.promiseWrite_spec hm hp
    have hthread : g.thread = thread.pushPromise time := by rw [hg]
    rw [hthread]
    refine ⟨?_, ?_, h.ordered, h.below, fun l a ha => (h.isIn l a ha).extends hext, ?_⟩
    · intro t hpt
      rcases List.mem_append.mp hpt with hpt | hpt
      · exact Int.le_trans (h.promised t hpt) hext.length_le
      · exact Int.le_of_eq ((List.mem_singleton.mp hpt).trans hlen.symm)
    · intro l
      exact (h.seen l).imp_right fun ⟨i, v, hv⟩ => ⟨i, v, hext.at?_eq_some hv⟩
    · intro l a ha hpt
      rcases List.mem_append.mp hpt with hpt | hpt
      · exact h.kept l a ha hpt
      · have := (h.isIn l a ha).le_length
        have := List.mem_singleton.mp hpt
        dsimp only at *
        lia
  grow h hext := h.quiet (fun _ ht => ht) rfl rfl hext

/-- In every run the accesses of a cell by a thread follow one another in program order: times never fall,
and they rise at every write. So a read returns nothing older than an own write before it, and only what is
older than an own write after it. Each access is of a write in memory, or of the initial value, and none is
of a write that the thread has promised and has still to do. -/
theorem Program.Run.accesses_follow {p : Program} {ds : List Deed} {s : State} (r : p.Run ds s) {tid : Nat} {slot : Slot}
    (hs : s.threads[tid]? = some slot) (loc : Int) :
    let accesses := accessesOf loc (actionsOf tid ds)
    accesses.Pairwise Access.Follows ∧
    (∀ (i j : Nat) (v w : Int) (t u : View), accesses[i]? = some (.write v t) → accesses[j]? = some (.read w u) →
      (i < j → t ≤ u) ∧ (j < i → u < t)) ∧
    ∀ a ∈ accesses, a.IsIn s.memory tid loc ∧ a.time ∉ slot.thread.promises := by
  have h := (frameInvariant_coherent.slot p).holds r hs
  have ordered := h.ordered loc
  refine ⟨ordered, ?_, fun a ha => ⟨?_, h.kept loc a ha⟩⟩
  · intro i j v w t u hi hj
    obtain ⟨hi, hwrite⟩ := List.getElem?_eq_some_iff.mp hi
    obtain ⟨hj, hread⟩ := List.getElem?_eq_some_iff.mp hj
    rw [List.pairwise_iff_getElem] at ordered
    constructor
    · intro hlt
      have := ordered i j hi hj hlt
      rwa [hwrite, hread] at this
    · intro hlt
      have := ordered j i hj hi hlt
      rwa [hwrite, hread] at this
  · have hin := h.isIn loc a ha
    dsimp only at hin
    rwa [r.fits.tid_eq tid slot hs] at hin

/-- A thread stores to a cell, which it may promise to do, and then loads the cell. -/
def storeThenLoad : Program where
  threads := [{
    code := [Shape.store "X1" "X2" .plain, Shape.load "X3" "X2" .plain false]
    regs := .ofList [("X1", (1 : Int)), ("X2", 0)]
    promisable := [(0, 1)] }]

theorem accesses_follow_storeThenLoad : ∃ ds s slot, storeThenLoad.Run ds s ∧ s.threads[0]? = some slot ∧ 2 ≤ slot.pc ∧
    (accessesOf 0 (actionsOf 0 ds)).Pairwise Access.Follows ∧
    (∀ (i j : Nat) (v w : Int) (t u : View), (accessesOf 0 (actionsOf 0 ds))[i]? = some (.write v t) →
      (accessesOf 0 (actionsOf 0 ds))[j]? = some (.read w u) → (i < j → t ≤ u) ∧ (j < i → u < t)) ∧
    ∀ a ∈ accessesOf 0 (actionsOf 0 ds), a.IsIn s.memory 0 0 ∧ a.time ∉ slot.thread.promises := by
  obtain ⟨ds, s, hr, hend, -⟩ := storeThenLoad.exists_run (o := {}) (by decide +kernel)
  have hlt : 0 < s.threads.length := by rw [hr.fits.length_eq]; decide
  have hs := List.getElem?_eq_getElem hlt
  exact ⟨ds, s, _, hr, hs, hend 0 _ _ rfl hs, hr.accesses_follow hs 0⟩

end Litmus
