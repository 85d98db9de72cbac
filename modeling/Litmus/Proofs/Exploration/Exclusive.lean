import Litmus.Proofs.Thread.Recall

/-!
Exclusive pairs. The monitor of a thread is of its last exclusive access if that was a load, and no store
succeeds without it. Main fact: between the write that the load of a pair has read and the write of its
store, memory never has a write of the cell by another thread, in no state of the run. Later events do not
come between because the store had its time before them, and earlier ones because the view of the cell, which
the store goes beyond, is not before the monitor.
-/

namespace Litmus

/-- Whether an action was an exclusive access: a load, or a store that succeeded or failed. -/
def Action.isExclusive : Action → Bool
  | .read req _ _ _ => req.exclusive
  | .write req _ _ | .writeFailed req => req.exclusive
  | _ => false

/-- What an exclusive access leaves in the monitor. -/
def Action.monitor? : Action → Option Monitor
  | .read req r _ post => some ⟨req.pa, r.time, post⟩
  | _ => none

/-- The last exclusive access among some actions. -/
def lastExclusive (as : List Action) : Option Action := (as.filter Action.isExclusive).getLast?

theorem lastExclusive_concat (as : List Action) (a : Action) :
    lastExclusive (as ++ [a]) = if a.isExclusive then some a else lastExclusive as := by
  rw [lastExclusive, List.filter_append]
  cases h : a.isExclusive
  · simp [h, lastExclusive]
  · simp [h]

theorem mem_of_lastExclusive {as : List Action} {a : Action} (h : lastExclusive as = some a) : a ∈ as :=
  (List.mem_filter.mp (List.mem_of_getLast? h)).1

/-- Whether all writes of a cell that memory has between two times are by one thread. -/
def Memory.Alone (m : Memory) (tid loc : Int) (first last : View) : Prop :=
  ∀ t i value, first < t → t < last → m.at? t = some (.write i loc value) → i = tid

theorem Memory.Alone.extends {m n : Memory} {tid loc : Int} {first last : View} (h : m.Alone tid loc first last)
    (hm : m.Extends n) (hlast : last ≤ m.length) : n.Alone tid loc first last := by
  intro t i value hfirst hlt ht
  rw [hm.at?_eq t (by lia)] at ht
  exact h t i value hfirst hlt ht

/-- The check of an exclusive pair finds out whether a thread is alone with the cell. -/
theorem Memory.alone_of_exclusive {m : Memory} {tid loc : Int} {first last : View}
    (h : (m.cut last).exclusive loc tid first = true) : m.Alone tid loc first last := by
  intro t i value hfirst hlt ht
  rw [exclusive, Bool.and_eq_true, List.all_eq_true] at h
  have hshown : Event.write i loc value ∈ ((m.cut last).after first).shown :=
    mem_shown.mpr ⟨t, at?_after_eq_some_iff.mpr ⟨hfirst, at?_cut_eq_some_iff.mpr ⟨Int.le_of_lt hlt, ht⟩⟩⟩
  simpa [Event.writes, Event.tid] using h.2 _ hshown

/-- An exclusive write that does write has a monitor of its cell, and has been alone with it since. -/
theorem Frame.monitor_of_writeTrouble {f : Frame} {req : WriteRequest} {m : Memory} {loc : Int} {pre t : View}
    (h : f.writeTrouble req m loc pre t = none) (he : req.exclusive = true) :
    ∃ w, f.thread.monitor = some w ∧ w.loc = loc ∧ m.Alone f.thread.tid loc w.time t := by
  rw [writeTrouble] at h
  split at h
  · cases h
  · split at h
    · cases h
    · rw [exclusiveTrouble] at h
      split at h
      · cases h
      · next w hw =>
        split at h
        · cases h
        · next hloc =>
          split at h
          · cases h
          · next halone =>
            exact ⟨w, hw, by simpa using hloc, Memory.alone_of_exclusive (by simpa using halone)⟩

/-- Exclusive accesses alone change the monitor. -/
theorem Effect.Step.monitor_eq {e : Effect} {f g : Frame} {v : e.Answer} {a : Action} (hs : e.Step f v g a) :
    g.thread.monitor = if a.isExclusive then a.monitor? else f.thread.monitor := by
  cases hs with
  | writeReg => rw [Thread.hold_eq]; rfl
  | read => rw [Frame.thread_afterRead]; rfl
  | write => rw [Frame.thread_afterWrite]; rfl
  | writeFailed _ _ he => exact (if_pos he).symm
  | maintain => rw [Frame.thread_afterMaintain]; rfl
  | _ => rfl

/-- What an exclusive store of a cell that succeeded at time `t` comes after: the last exclusive access before
it was a load of the cell, and its thread is alone with the cell since the write that was read. -/
def Paired (m : Memory) (tid loc : Int) (t : View) (before : List Action) : Prop :=
  ∃ load r pre post, lastExclusive before = some (.read load r pre post) ∧ load.pa = loc ∧ r.time < t ∧
    t ≤ m.length ∧ m.Alone tid loc r.time t

theorem Paired.extends {m n : Memory} {tid loc : Int} {t : View} {before : List Action} (h : Paired m tid loc t before)
    (hm : m.Extends n) : Paired n tid loc t before := by
  obtain ⟨load, r, pre, post, hlast, hpa, hlt, hle, halone⟩ := h
  exact ⟨load, r, pre, post, hlast, hpa, hlt, Int.le_trans hle hm.length_le, halone.extends hm hle⟩

/-- The monitor is what the last exclusive access left, and each exclusive store is paired. -/
structure Atomic (as : List Action) (f : Frame) : Prop where
  monitor_eq : f.thread.monitor = (lastExclusive as).bind Action.monitor?
  paired : ∀ {before rest : List Action} {store : WriteRequest} {pre t : View},
    as = before ++ .write store pre t :: rest → store.exclusive = true →
    Paired f.memory f.thread.tid store.pa t before

namespace Atomic

variable {as : List Action} {f g : Frame}

theorem quiet (h : Atomic as f) (hmon : g.thread.monitor = f.thread.monitor) (ht : g.thread.tid = f.thread.tid)
    (hm : f.memory.Extends g.memory) : Atomic as g where
  monitor_eq := hmon.trans h.monitor_eq
  paired hsplit he := ht ▸ (h.paired hsplit he).extends hm

/-- An exclusive store is paired with the access that its monitor is of. -/
theorem paired_write {req : WriteRequest} {pre t : View} {memory : Memory} {promised : Bool} (h : Atomic as f)
    (hrecalls : f.thread.Recalls f.memory)
    (hplaced : f.Placed (.write f.thread.tid req.pa req.value) memory t promised)
    (ht : f.writeTrouble req memory req.pa pre t = none) (he : req.exclusive = true) :
    Paired memory f.thread.tid req.pa t as := by
  obtain ⟨w, hw, hloc, halone⟩ := Frame.monitor_of_writeTrouble ht he
  have hseen : w.time < t := Int.lt_of_le_of_lt (hrecalls.monitored hw).2.1 (hloc ▸ (Frame.lt_of_writeTrouble ht).2)
  rw [h.monitor_eq, Option.bind_eq_some_iff] at hw
  obtain ⟨a, hlast, hw⟩ := hw
  cases a with
  | read load r pre post =>
    cases hw
    exact ⟨load, r, pre, post, hlast, hloc, hseen, Memory.le_length_of_at? hplaced.at?_eq, halone⟩
  | _ => cases hw

theorem step {e : Effect} {a : Action} {v : e.Answer} (hm : f.memory.Whole) (hrecalls : f.thread.Recalls f.memory)
    (h : Atomic as f) (hs : e.Step f v g a) : Atomic (as ++ [a]) g := by
  have hg := hs.grows hm
  refine ⟨?_, ?_⟩
  · rw [hs.monitor_eq, lastExclusive_concat, h.monitor_eq]
    split <;> rfl
  · intro before rest store pre t hsplit he
    rw [hg.tid_eq]
    rcases split_concat hsplit with ⟨rfl, rfl, rfl⟩ | ⟨since, hbefore, -⟩
    · -- the store is what was done just now
      cases hs with
      | write _ _ _ _ hp ht => exact h.paired_write hrecalls (Frame.placed hm hp) ht he
    · exact (h.paired hbefore he).extends hg.grown

end Atomic

/-- In every run exclusive stores are paired. -/
theorem frameInvariant_atomic :
    FrameInvariant fun as f => ((Coherent as f ∧ f.Bounded) ∧ f.thread.Recalls f.memory) ∧ Atomic as f := by
  have recalls := frameInvariant_recalls
  refine ⟨?_, ?_, ?_, ?_, ?_⟩
  · intro tid regs image
    refine ⟨recalls.start tid regs image, rfl, ?_⟩
    intro before rest store pre t h
    simp at h
  · intro e as a f g v hm h hs
    exact ⟨recalls.step hm h.1 hs, h.2.step hm h.1.2 hs⟩
  · intro as f h
    exact ⟨recalls.next h.1, h.2.quiet rfl rfl (.refl _)⟩
  · intro as thread m loc value g time hm h hp
    obtain ⟨-, hg, -, -, hext, -, -⟩ := Frame.promiseWrite_spec hm hp
    refine ⟨recalls.promise hm h.1 hp, h.2.quiet ?_ ?_ hext⟩
    · rw [hg]
      rfl
    · rw [hg]
      rfl
  · intro as thread m n h hext
    exact ⟨recalls.grow h.1 hext, h.2.quiet rfl rfl hext⟩

/-- An exclusive pair among the actions of a thread: a store of a cell that succeeded at time `t`, and the last
exclusive access before it, a load of the same cell, which read `r`. -/
inductive ExclusivePair (as : List Action) (loc : Int) (r : Memory.Read) (t : View) : Prop
  | intro {before rest : List Action} {load : ReadRequest} {store : WriteRequest} {lpre lpost pre : View} :
      as = before ++ .write store pre t :: rest → store.exclusive = true → store.pa = loc →
      lastExclusive before = some (.read load r lpre lpost) → load.pa = loc → ExclusivePair as loc r t

namespace Program.Run

variable {p : Program} {ds : List Deed} {s : State} {tid : Nat}

/-- In every state of a run exclusive stores are paired, and memory has what both accesses of a pair saw. -/
theorem paired (r : p.Run ds s) {before rest : List Action} {store : WriteRequest} {pre t : View}
    (hsplit : actionsOf tid ds = before ++ .write store pre t :: rest) (he : store.exclusive = true) :
    s.memory.at? t = some (.write tid store.pa store.value) ∧
    ∃ load w lpre lpost, lastExclusive before = some (.read load w lpre lpost) ∧ load.pa = store.pa ∧ w.time < t ∧
      (Access.read w.value w.time).IsIn s.memory tid store.pa ∧ s.memory.Alone tid store.pa w.time t := by
  have hdone : actionsOf tid ds ≠ [] := by simp [hsplit]
  obtain ⟨slot, hs⟩ := r.exists_slot hdone
  obtain ⟨⟨⟨hc, -⟩, -⟩, ha⟩ := (frameInvariant_atomic.slot p).holds r hs
  have htid := r.fits.tid_eq tid slot hs
  obtain ⟨load, w, lpre, lpost, hlast, hpa, hlt, -, halone⟩ := ha.paired hsplit he
  have isIn (a : Action) (x : Access) (h : a ∈ actionsOf tid ds) (hx : a.access? store.pa = some x) :
      x.IsIn s.memory tid store.pa := htid ▸ hc.isIn store.pa x (List.mem_filterMap.mpr ⟨a, h, hx⟩)
  refine ⟨?_, load, w, lpre, lpost, hlast, hpa, hlt, ?_, htid ▸ halone⟩
  · exact isIn (.write store pre t) (.write store.value t) (by simp [hsplit]) (if_pos rfl)
  · refine isIn (.read load w lpre lpost) (.read w.value w.time) ?_ (if_pos hpa)
    rw [hsplit]
    exact List.mem_append_left _ (mem_of_lastExclusive hlast)

theorem alone_of_pair (r : p.Run ds s) {loc : Int} {w : Memory.Read} {t : View}
    (h : ExclusivePair (actionsOf tid ds) loc w t) :
    w.time < t ∧ (∃ v, s.memory.at? t = some (.write tid loc v)) ∧ s.memory.Alone tid loc w.time t := by
  obtain ⟨hsplit, he, rfl, hlast, -⟩ := h
  obtain ⟨hat, _, _, _, _, hlast', -, hlt, -, halone⟩ := r.paired hsplit he
  rw [hlast] at hlast'
  cases hlast'
  exact ⟨hlt, ⟨_, hat⟩, halone⟩

/-- The store of a pair is not before that of another thread's pair of which the load has read the same. -/
theorem not_lt_of_pair (r : p.Run ds s) {i j : Nat} {loc : Int} {w w' : Memory.Read} {t t' : View} (hne : i ≠ j)
    (hi : ExclusivePair (actionsOf i ds) loc w t) (hj : ExclusivePair (actionsOf j ds) loc w' t')
    (hsame : w.time = w'.time) : ¬t < t' := by
  intro hlt
  obtain ⟨hread, ⟨v, hv⟩, -⟩ := r.alone_of_pair hi
  obtain ⟨-, -, halone⟩ := r.alone_of_pair hj
  exact hne (Int.ofNat_inj.mp (halone t i v (hsame ▸ hread) hlt hv))

end Program.Run

/-- Exclusive pairs are atomic, in every state of every run. The last exclusive access before an exclusive store
that succeeded was a load of the same cell, it read a write before that of the store, or the initial value, and
memory has no write of the cell by another thread between the two. So pairs of different threads have never
read the same write of the same cell. -/
theorem Program.Run.exclusive_atomic {p : Program} {ds : List Deed} {s : State} (r : p.Run ds s) :
    (∀ (tid : Nat) (before rest : List Action) (store : WriteRequest) (pre t : View),
      actionsOf tid ds = before ++ .write store pre t :: rest → store.exclusive = true →
      s.memory.at? t = some (.write tid store.pa store.value) ∧
      ∃ load w lpre lpost, lastExclusive before = some (.read load w lpre lpost) ∧ load.pa = store.pa ∧ w.time < t ∧
        (Access.read w.value w.time).IsIn s.memory tid store.pa ∧
        ∀ (time i v : Int), w.time < time → time < t → s.memory.at? time = some (.write i store.pa v) → i = tid) ∧
    ∀ (i j : Nat) (loc : Int) (w w' : Memory.Read) (t t' : View), i ≠ j → ExclusivePair (actionsOf i ds) loc w t →
      ExclusivePair (actionsOf j ds) loc w' t' → w.time ≠ w'.time := by
  refine ⟨fun tid before rest store pre t hsplit he => r.paired hsplit he, ?_⟩
  intro i j loc w w' t t' hne hi hj hsame
  have hle := r.not_lt_of_pair hne hi hj hsame
  have hge := r.not_lt_of_pair (Ne.symm hne) hj hi hsame.symm
  obtain rfl : t = t' := by lia
  obtain ⟨-, ⟨v, hv⟩, -⟩ := r.alone_of_pair hi
  obtain ⟨-, ⟨v', hv'⟩, -⟩ := r.alone_of_pair hj
  rw [hv] at hv'
  simp only [Option.some.injEq, Event.write.injEq] at hv'
  exact hne (Int.ofNat_inj.mp hv'.1)

/-- What an exclusive store that wrote has done. -/
theorem Instr.Runs.storeExclusive {status src addr : String} {kind : WriteKind} {f g : Frame} {as : List Action}
    (r : (Shape.storeExclusive status src addr kind).Runs f as g) (hplain : Register.isSystem status = false)
    (hwrote : g.thread.regs[status]?.map Reg.value = some 0) :
    ∃ store pre t, as = [.other, .other] ++ .write store pre t :: [.other] ∧ store.exclusive = true := by
  cases r with | ask h r =>
  cases h with | readReg =>
  cases r with | ask h r =>
  cases h with | readReg =>
  cases r with | ask h r =>
  cases r with | ask h' r =>
  cases h' with | writeReg =>
  cases r with | done =>
  cases h with
  | write => exact ⟨_, _, _, rfl, rfl⟩
  | writeFailed =>
    rw [Thread.hold_eq] at hwrote
    simp [hplain] at hwrote

/-- Two threads, each of which loads a cell and stores to it in an exclusive pair. -/
def exclusivePairs : Program where
  threads := [1, 2].map fun value => {
    code := [Shape.load "X3" "X2" .plain true, Shape.storeExclusive "X4" "X1" "X2" .plain]
    regs := .ofList [("X1", value), ("X2", (0 : Int))] }

theorem exclusive_atomic_exclusivePairs : ∃ ds s w w' t t', exclusivePairs.Run ds s ∧
    ExclusivePair (actionsOf 0 ds) 0 w t ∧ ExclusivePair (actionsOf 1 ds) 0 w' t' ∧ w.time ≠ w'.time ∧
    (∀ time i v : Int, w.time < time → time < t → s.memory.at? time = some (.write i 0 v) → i = 0) ∧
    ∀ time i v : Int, w'.time < time → time < t' → s.memory.at? time = some (.write i 0 v) → i = 1 := by
  let wrote (s : State) (tid : Nat) : Bool :=
    (s.threads[tid]?.map Slot.thread).any fun t => decide (t.regs["X4"]?.map Reg.value = some 0)
  have path : exclusivePairs.start.runsTo 0 0 (Shape.load "X3" "X2" .plain true) (fun s =>
      s.runsTo 0 1 (Shape.storeExclusive "X4" "X1" "X2" .plain) fun s => wrote s 0 &&
        s.runsTo 1 0 (Shape.load "X3" "X2" .plain true) fun s =>
          s.runsTo 1 1 (Shape.storeExclusive "X4" "X1" "X2" .plain) fun s => wrote s 1 &&
            s.memory.shown.all (·.writes 0)) = true := by decide +kernel
  obtain ⟨_, as, _, s, -, r, -, path⟩ := Program.Run.start.exists_next path rfl rfl
  obtain ⟨_, bs, g, s, hbs, r, hg, path⟩ := r.exists_next path rfl rfl
  obtain ⟨hwrote, path⟩ := (Bool.and_eq_true _ _).mp path
  obtain ⟨_, cs, _, s, -, r, -, path⟩ := r.exists_next path rfl rfl
  obtain ⟨_, es, g', s, hes, r, hg', path⟩ := r.exists_next path rfl rfl
  obtain ⟨hwrote', hcell⟩ := (Bool.and_eq_true _ _).mp path
  simp only [wrote, hg, Option.any_some, decide_eq_true_eq] at hwrote
  simp only [wrote, hg', Option.any_some, decide_eq_true_eq] at hwrote'
  obtain ⟨store, pre, t, hbs, he⟩ := hbs.storeExclusive rfl hwrote
  obtain ⟨store', pre', t', hes, he'⟩ := hes.storeExclusive rfl hwrote'
  let ds : List Deed := [.ran 0 0 as, .ran 0 1 bs, .ran 1 0 cs, .ran 1 1 es]
  have hsplit : actionsOf 0 ds = (as ++ [.other, .other]) ++ .write store pre t :: [.other] := by
    simp [ds, actionsOf, hbs]
  have hsplit' : actionsOf 1 ds = (cs ++ [.other, .other]) ++ .write store' pre' t' :: [.other] := by
    simp [ds, actionsOf, hes]
  obtain ⟨pairs, distinct⟩ := Program.Run.exclusive_atomic (show exclusivePairs.Run ds s from r)
  obtain ⟨hat, _, w, _, _, hlast, hload, -, -, halone⟩ := pairs 0 _ _ _ _ _ hsplit he
  obtain ⟨hat', _, w', _, _, hlast', hload', -, -, halone'⟩ := pairs 1 _ _ _ _ _ hsplit' he'
  -- memory has writes of one cell alone
  have cell {time i loc v : Int} (h : s.memory.at? time = some (.write i loc v)) : loc = 0 := by
    simpa [Event.writes] using List.all_eq_true.mp hcell _ (Memory.mem_shown.mpr ⟨time, h⟩)
  rw [cell hat] at hload halone
  rw [cell hat'] at hload' halone'
  have hpair := ExclusivePair.intro hsplit he (cell hat) hlast hload
  have hpair' := ExclusivePair.intro hsplit' he' (cell hat') hlast' hload'
  exact ⟨ds, s, w, w', t, t', r, hpair, hpair', distinct 0 1 0 w w' t t' (by decide) hpair hpair', halone, halone'⟩

end Litmus
