import Litmus.Proofs.Exploration.Complete
import Litmus.Proofs.Instruction.Bounded
import Litmus.Proofs.Instruction.PreView

/-!
Order within a thread. An access leaves its view in the counters of its kind, a barrier carries it on to a
counter that later accesses wait for, and counters only rise. Main fact: in every run the pre-view of an access
is past the view of each access that barriers, its own kind or that of the other put before it; a write comes
after its pre-view, and a read returns nothing older than what was written up to it.
-/

namespace Litmus

/-- Whether an action explicitly read memory. -/
def Action.isRead : Action → Bool
  | .read _ _ _ _ => true
  | _ => false

/-- Whether barriers of a kind hold back what comes after them until an access is done: those of loads only for
reads, those of stores only for writes. -/
def BarrierKind.isFor : BarrierKind → Action → Bool
  | .sy, _ => true
  | .ld, a => a.isRead
  | .st, a => a.isWrite

/-- What puts an access before a later one of its thread, given what was done in between. -/
inductive Action.Before : Action → List Action → Action → Prop
  | dmb {a b : Action} {between : List Action} {kind : BarrierKind} {domain : Paging.Shareability} :
      .barrier (.dmb kind domain) ∈ between → kind.isFor a = true → (kind = .st → b.isWrite = true) → Before a between b
  | dsb {a b : Action} {between : List Action} {kind : BarrierKind} {domain : Paging.Shareability} :
      .barrier (.dsb kind domain) ∈ between → kind.isFor a = true → Before a between b
  | acquire {req : ReadRequest} {r : Memory.Read} {pre post : View} {between : List Action} {b : Action} :
      req.kind = .acquire ∨ req.kind = .acquirePC → Before (.read req r pre post) between b
  | release {req : WriteRequest} {pre time : View} {between : List Action} {a : Action} :
      req.kind = .release → Before a between (.write req pre time)
  | releaseAcquire {w : WriteRequest} {req : ReadRequest} {r : Memory.Read} {pre time pre' post : View}
      {between : List Action} :
      w.kind = .release → req.kind = .acquire → Before (.write w pre time) between (.read req r pre' post)

/-! ### Counters -/

/-- The counters that an access raises to its view. -/
inductive Action.Marks : Action → Counter → Prop
  | reads {req : ReadRequest} {r : Memory.Read} {pre post : View} : Marks (.read req r pre post) .reads
  | acquires {req : ReadRequest} {r : Memory.Read} {pre post : View} :
      req.kind ≠ .plain → Marks (.read req r pre post) .acquires
  | writes {req : WriteRequest} {pre time : View} : Marks (.write req pre time) .writes
  | releases {req : WriteRequest} {pre time : View} : req.kind = .release → Marks (.write req pre time) .releases

/-- The counter on to which a barrier carries the views of the accesses that it is for. -/
inductive Action.Carries : Action → Action → Counter → Prop
  | dmb {a : Action} {kind : BarrierKind} {domain : Paging.Shareability} :
      kind.isFor a = true → Carries (.barrier (.dmb kind domain)) a (if kind = .st then .storeBarrier else .barrier)
  | dsb {a : Action} {kind : BarrierKind} {domain : Paging.Shareability} :
      kind.isFor a = true → Carries (.barrier (.dsb kind domain)) a .syncBarrier

/-- The counters that are past an access, after what was done since. -/
def Action.Raises (a : Action) (since : List Action) (c : Counter) : Prop := a.Marks c ∨ ∃ b ∈ since, b.Carries a c

/-- What puts an access before another raises a counter that the other waits for. -/
theorem Action.Before.exists_counter {a b : Action} {between : List Action} {view : View} (h : a.Before between b)
    (ha : a.view? = some view) : ∃ c, a.Raises between c ∧ b.WaitsFor c := by
  cases h with
  | dmb hb hfor hst =>
    refine ⟨_, .inr ⟨_, hb, .dmb hfor⟩, ?_⟩
    split
    · next e => exact .storeBarrier (hst e)
    · exact .barrier
  | dsb hb hfor => exact ⟨_, .inr ⟨_, hb, .dsb hfor⟩, .syncBarrier⟩
  | acquire hk =>
    refine ⟨_, .inl (.acquires ?_), .acquires⟩
    rcases hk with hk | hk <;> rw [hk] <;> decide
  | release hk =>
    cases a with
    | read => exact ⟨_, .inl .reads, .reads hk⟩
    | write => exact ⟨_, .inl .writes, .writes hk⟩
    | _ => cases ha
  | releaseAcquire hw hk => exact ⟨_, .inl (.releases hw), .releases hk⟩

namespace Effect.Step

variable {e : Effect} {f g : Frame} {v : e.Answer} {a b : Action} {view : View} {c : Counter}

/-- An access raises the counters of its kind. -/
theorem view_le_of_marks (hs : e.Step f v g a) (ha : a.view? = some view) (hc : a.Marks c) :
    view ≤ g.thread.views.get c := by
  cases hs with
  | @read req _ addr r =>
    cases ha
    rw [Frame.thread_afterRead]
    cases hc with
    | reads =>
      refine Int.le_trans ?_ (Int.le_of_eq (Views.afterRead_spec _ _ _ _).1.symm)
      exact View.le_join_right f.thread.views.reads _
    | acquires hk =>
      dsimp only
      rw [Views.afterRead, if_pos hk]
      refine Int.le_trans ?_ (Views.get_le_get_raise _ .speculation .acquires _)
      rw [Views.get_raise, if_pos rfl]
      exact View.le_join_right _ _
  | @write req _ _ _ t =>
    cases ha
    rw [Frame.thread_afterWrite]
    cases hc with
    | writes =>
      refine Int.le_trans ?_ (Int.le_of_eq (Views.afterWrite_spec _ _ _).2.symm)
      exact View.le_join_right f.thread.views.writes _
    | releases hk =>
      dsimp only
      rw [Views.afterWrite, if_pos hk, Views.get_raise, if_pos rfl]
      exact View.le_join_right _ _
  | _ => cases ha

/-- A barrier carries the views of the accesses that it is for on to its counter. -/
theorem view_le_of_carries (hs : e.Step f v g b) (ha : a.view? = some view)
    (h : ∀ c, a.Marks c → view ≤ f.thread.views.get c) (hc : b.Carries a c) : view ≤ g.thread.views.get c := by
  have raised (c : Counter) (w : View) (hw : view ≤ w) : view ≤ (f.raised (c, w)).thread.views.get c := by
    rw [Frame.raised, Thread.raise, Views.get_raise, if_pos rfl]
    exact Int.le_trans hw (View.le_join_right _ _)
  have reads (hr : a.isRead = true) : view ≤ f.thread.views.reads := by
    cases a with
    | read => exact h .reads .reads
    | _ => cases hr
  have writes (hw : a.isWrite = true) : view ≤ f.thread.views.writes := by
    cases a with
    | write => exact h .writes .writes
    | _ => cases hw
  have both {w : View} (hr : f.thread.views.reads ≤ w) (hw : f.thread.views.writes ≤ w) : view ≤ w := by
    cases a with
    | read => exact Int.le_trans (reads rfl) hr
    | write => exact Int.le_trans (writes rfl) hw
    | _ => cases ha
  cases hc with
  | @dmb _ kind _ hfor =>
    cases hs
    cases kind with
    | sy => exact raised .barrier _ (both (View.le_joinAll (by simp)) (View.le_joinAll (by simp)))
    | ld => exact raised .barrier _ (Int.le_trans (reads hfor) (View.le_joinAll (by simp)))
    | st => exact raised .storeBarrier _ (Int.le_trans (writes hfor) (View.le_joinAll (by simp)))
  | @dsb _ kind _ hfor =>
    cases hs
    cases kind with
    | sy => exact raised .syncBarrier _ (both (View.le_joinAll (by simp)) (View.le_joinAll (by simp)))
    | ld => exact raised .syncBarrier _ (Int.le_trans (reads hfor) (View.le_join_left _ _))
    | st => exact raised .syncBarrier _ (Int.le_trans (writes hfor) (View.le_joinAll (by simp)))

end Effect.Step

/-- Whether the counters that each access has raised are past its view. -/
def Tallied (as : List Action) (f : Frame) : Prop :=
  ∀ before a since view c, as = before ++ a :: since → a.view? = some view → a.Raises since c → view ≤ f.thread.views.get c

theorem Tallied.of_le {as : List Action} {f g : Frame} (h : Tallied as f)
    (hv : ∀ c, f.thread.views.get c ≤ g.thread.views.get c) : Tallied as g :=
  fun before a since view c hsplit ha hc => Int.le_trans (h before a since view c hsplit ha hc) (hv c)

theorem Tallied.step {e : Effect} {as : List Action} {a : Action} {f g : Frame} {v : e.Answer} (h : Tallied as f)
    (hs : e.Step f v g a) : Tallied (as ++ [a]) g := by
  intro before b since view c hsplit hb hc
  rcases split_concat hsplit with ⟨rfl, rfl, rfl⟩ | ⟨since, hbefore, rfl⟩
  · -- the access is what was done just now
    rcases hc with hc | ⟨x, hx, -⟩
    · exact hs.view_le_of_marks hb hc
    · cases hx
  · have earlier (d : Counter) (hd : b.Raises since d) : view ≤ f.thread.views.get d :=
      h before b since view d hbefore hb hd
    have kept (hd : b.Raises since c) : view ≤ g.thread.views.get c := Int.le_trans (earlier c hd) (hs.views_le c)
    rcases hc with hc | ⟨x, hx, hc⟩
    · exact kept (.inl hc)
    · rw [List.mem_append, List.mem_singleton] at hx
      rcases hx with hx | rfl
      · exact kept (.inr ⟨x, hx, hc⟩)
      · exact hs.view_le_of_carries hb (fun d hd => earlier d (.inl hd)) hc

/-- In every run the counters that an access has raised are past its view. -/
theorem frameInvariant_tallied : FrameInvariant Tallied where
  start _ _ _ before a since view c hsplit := by simp at hsplit
  step _ h hs := h.step hs
  next h := h.of_le fun _ => Int.le_refl _
  promise hm h hp := by
    obtain ⟨-, hg, -⟩ := Frame.promiseWrite_spec hm hp
    refine h.of_le ?_
    intro c
    rw [hg]
    exact Int.le_refl _
  grow h _ := h.of_le fun _ => Int.le_refl _

/-! ### Accesses -/

/-- What an explicit read has returned: a write of its cell, or the initial value, and nothing older than what was
written up to its pre-view; its post-view is not before that. -/
theorem Action.Stepped.read {before : List Action} {req : ReadRequest} {r : Memory.Read} {pre post : View} {m : Memory}
    (h : (Action.read req r pre post).Stepped (fun _ f => f.Bounded) before m) :
    pre ≤ post ∧ ((∃ i, m.at? r.time = some (.write i req.pa r.value)) ∨ r = ⟨m.initial.readCell req.pa, 0⟩) ∧
      ∀ t i value, m.at? t = some (.write i req.pa value) → t ≤ pre → t ≤ r.time := by
  obtain ⟨e, f, v, g, hm, hb, hs, hext⟩ := h
  cases hs with
  | @read _ _ addr _ _ _ _ hd hr =>
    replace hext : f.memory.Extends m := hext
    obtain ⟨hr, -⟩ := List.mem_filter.mp hr
    refine ⟨View.le_join_left _ _, ?_, ?_⟩
    · rw [hext.initial]
      refine (Memory.write_of_mem_candidates hr).imp_left ?_
      rintro ⟨i, hi⟩
      exact ⟨i, hext.at?_eq_some hi⟩
    · intro t i value ht hle
      have hlen : t ≤ f.memory.length := Int.le_trans hle (hb.readPre req (hb.depsView hd)).2
      rw [hext.at?_eq t hlen] at ht
      exact Memory.le_of_mem_candidates hr ht (Int.le_trans hle (View.le_join_left _ _))

/-- A write comes after its pre-view. -/
theorem Action.Stepped.write {Q : List Action → Frame → Prop} {before : List Action} {req : WriteRequest} {pre t : View}
    {m : Memory} (h : (Action.write req pre t).Stepped Q before m) : pre < t := by
  obtain ⟨e, f, v, g, -, -, hs, -⟩ := h
  cases hs with
  | write _ _ _ _ _ ht => exact (Frame.lt_of_writeTrouble ht).1

/-- In every run, the pre-view of an access is past the view of each access of its thread that a barrier between the
two, or the kinds of the two, put before it, and of each before it in one instruction. The time of a write is past its
pre-view; the post-view of a read is not before it, and a read returns a write, or the initial value, that is not
older than any write of its cell up to its pre-view. -/
theorem Program.Run.accesses_ordered {p : Program} {ds : List Deed} {s : State} (r : p.Run ds s) (tid : Nat) :
    (∀ before a between b rest view pre, actionsOf tid ds = before ++ a :: between ++ b :: rest →
      a.view? = some view → b.pre? = some pre → a.Before between b → view ≤ pre) ∧
    (∀ pc as, .ran tid pc as ∈ ds →
      as.Pairwise fun a b => ∀ view pre, a.view? = some view → b.pre? = some pre → view ≤ pre) ∧
    (∀ req pre t, .write req pre t ∈ actionsOf tid ds → pre < t) ∧
    ∀ req w pre post, .read req w pre post ∈ actionsOf tid ds → pre ≤ post ∧
      ((∃ i, s.memory.at? w.time = some (.write i req.pa w.value)) ∨ w = ⟨s.memory.initial.readCell req.pa, 0⟩) ∧
      ∀ t i value, s.memory.at? t = some (.write i req.pa value) → t ≤ pre → t ≤ w.time := by
  refine ⟨?_, ?_, ?_, ?_⟩
  · intro before a between b rest view pre hsplit ha hb hbefore
    obtain ⟨e, f, v, g, -, htallied, hs, -⟩ := frameInvariant_tallied.exists_step r hsplit
    obtain ⟨c, hraised, hwaits⟩ := hbefore.exists_counter ha
    exact Int.le_trans (htallied before a between view c rfl ha hraised) (hs.get_le_pre hb hwaits)
  · intro pc as h
    obtain ⟨i, f, g, hr⟩ := r.exists_runs h
    exact hr.pairwise_le.1
  · intro req pre t h
    obtain ⟨before, rest, hsplit⟩ := List.append_of_mem h
    exact (frameInvariant_bounded.exists_step r hsplit).write
  · intro req w pre post h
    obtain ⟨before, rest, hsplit⟩ := List.append_of_mem h
    exact (frameInvariant_bounded.exists_step r hsplit).read

/-- A thread reads a cell and, behind a full barrier, writes another one. -/
def readThenWrite : Program where
  threads := [{ code := [Shape.only (.read { pa := 0 }), Shape.dmb .sy, Shape.only (.write { pa := 8, value := 1 })] }]

theorem accesses_ordered_readThenWrite : ∃ ds s w pre post pre' t, readThenWrite.Run ds s ∧
    actionsOf 0 ds = [.read { pa := 0 } w pre post, .barrier (.dmb .sy .ish), .write { pa := 8, value := 1 } pre' t] ∧
    pre ≤ post ∧ post ≤ pre' ∧ pre' < t := by
  have path : readThenWrite.start.runsTo 0 0 (Shape.only (.read { pa := 0 })) (fun s =>
      s.runsTo 0 1 (Shape.dmb .sy) fun s =>
        s.runsTo 0 2 (Shape.only (.write { pa := 8, value := 1 })) fun _ => true) = true := by decide +kernel
  obtain ⟨_, as, _, s, has, r, -, path⟩ := Program.Run.start.exists_next path rfl rfl
  obtain ⟨_, bs, _, s, hbs, r, -, path⟩ := r.exists_next path rfl rfl
  obtain ⟨_, cs, _, s, hcs, r, -, -⟩ := r.exists_next path rfl rfl
  cases has with | ask h has =>
  cases has
  cases h with
  | fetch hk | descriptor hk => cases hk
  | @read _ _ _ w =>
    cases hbs with | ask h hbs =>
    cases hbs
    cases h
    cases hcs with | ask h hcs =>
    cases hcs
    cases h with
    | writeFailed _ _ he => cases he
    | write =>
      obtain ⟨before, -, writes, reads⟩ := r.accesses_ordered 0
      refine ⟨_, s, w, _, _, _, _, r, rfl, ?_, ?_, ?_⟩
      · exact (reads _ w _ _ (.head _)).1
      · exact before [] _ [.barrier (.dmb .sy .ish)] _ [] _ _ rfl rfl rfl (.dmb List.mem_cons_self rfl nofun)
      · exact writes _ _ _ (.tail _ (.tail _ (.head _)))

end Litmus
