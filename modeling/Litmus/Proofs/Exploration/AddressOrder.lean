import Litmus.Proofs.Exploration.Dependency
import Litmus.Proofs.Exploration.MessagePassing

/-!
Writes behind addresses. An access of memory may go wrong until its address is known, so no later write of its thread
should come before that. Main facts: all writes behind a load come after each load that its address goes back to;
behind a store only its own write and later ones of its cell are known to, since a store leaves the counter of
speculation as it is, and there is a run in which a later write of another cell comes first.
-/

namespace Litmus

/-- After a load through a register a thread is speculative on each load that the value of the register goes back to. -/
theorem Program.Depends.past_load {p : Program} {tid : Nat} {view : View} {done : List Deed} {dst reg : String}
    (h : p.Depends tid view done reg) {pc : Nat} (as : List Action) {i : Instr} (hi : p.instr? tid pc = some i)
    (hload : i.IsLoad dst reg) : p.Past tid .speculation view (done ++ [.ran tid pc as]) := by
  refine h.past_of_runs hi ?_
  intro thread m f hr
  obtain ⟨held, hheld, hloaded⟩ := hr.of_isLoad hload
  exact ⟨held, hheld, hloaded.speculation⟩

/-- Writes of one cell by a thread come one after the other. -/
theorem Program.Run.time_lt_of_same {p : Program} {ds es : List Deed} {s : State} (r : p.Run (ds ++ es) s) {tid : Nat}
    {req req' : WriteRequest} {pre t pre' t' : View} (h : .write req pre t ∈ actionsOf tid ds)
    (h' : .write req' pre' t' ∈ actionsOf tid es) (hpa : req'.pa = req.pa) : t < t' := by
  have hmem : .write req' pre' t' ∈ actionsOf tid (ds ++ es) := by
    rw [actionsOf_append]
    exact List.mem_append_right _ h'
  obtain ⟨slot, hs⟩ := r.exists_slot (List.ne_nil_of_mem hmem)
  have hordered := ((frameInvariant_coherent.slot p).holds r hs).ordered req.pa
  rw [actionsOf_append, accessesOf_append, List.pairwise_append] at hordered
  obtain ⟨-, -, hfollows⟩ := hordered
  have hx : .write req.value t ∈ accessesOf req.pa (actionsOf tid ds) := List.mem_filterMap.mpr ⟨_, h, if_pos rfl⟩
  have hy : .write req'.value t' ∈ accessesOf req.pa (actionsOf tid es) := List.mem_filterMap.mpr ⟨_, h', if_pos hpa⟩
  exact hfollows _ hx _ hy

/-- In every run all writes of a thread behind a load come after each load that the address of the load goes back to.
What a store writes comes after each load that its address goes back to, and so do later writes of the same cell. -/
theorem Program.Run.writes_follow_addresses {p : Program} {ds : List Deed} {s : State} (r : p.Run ds s) {tid : Nat}
    {view : View} {reg : String} : ∀ done pc i as rest, ds = done ++ .ran tid pc as :: rest → p.instr? tid pc = some i →
      p.Depends tid view done reg →
      (∀ dst, i.IsLoad dst reg → ∀ req pre t, .write req pre t ∈ actionsOf tid rest → view < t) ∧
      ∀ src, i.IsStore src reg → ∀ req pre t, .write req pre t ∈ as → view < t ∧
        ∀ req' pre' t', .write req' pre' t' ∈ actionsOf tid rest → req'.pa = req.pa → view < t' := by
  rintro done pc i as rest rfl hi h
  constructor
  · intro dst hload req pre t hwrite
    rw [List.append_cons] at r
    obtain ⟨e, f, v, g, hs, hle⟩ := (h.past_load as hi hload).exists_step r hwrite
    exact Int.lt_of_le_of_lt hle hs.speculation_lt
  · intro src hstore req pre t hwrite
    obtain ⟨thread, m, held, f, hheld, hview, hr⟩ := r.exists_held hi h
    have hlt : view < t := Int.lt_of_le_of_lt hview (hr.lt_of_isStore hstore (.inr rfl) hheld hwrite)
    refine ⟨hlt, ?_⟩
    intro req' pre' t' hlater hpa
    rw [List.append_cons] at r
    have hmem : .write req pre t ∈ actionsOf tid (done ++ [.ran tid pc as]) := by
      rw [actionsOf_append, actionsOf_ran, if_pos rfl]
      exact List.mem_append_right _ hwrite
    exact Int.lt_trans hlt (r.time_lt_of_same hmem hlater hpa)

theorem writes_follow_addresses_dependentLoads : ∃ (done rest : List Deed) (as bs : List Action) (s : State)
    (store : WriteRequest) (pre t : View), dependentLoads.Run (done ++ .ran 0 1 as :: .ran 0 2 bs :: rest) s ∧
    dependentLoads.Depends 0 1 done "X3" ∧ .write store pre t ∈ actionsOf 0 rest ∧ 1 < t := by
  obtain ⟨as, es, fs, req, v, vpre, load, w, pre, post, store, pre', t, last, w', pre'', post'', s, r, first, -⟩ :=
    exists_run_dependentLoads
  let rest : List Deed := [.ran 0 3 fs, .ran 0 4 [.other, .other, .write store pre' t],
    .ran 0 5 [.other, .read last w' pre'' post'', .other]]
  have hwrite : .write store pre' t ∈ actionsOf 0 rest := by simp [rest, actionsOf]
  obtain ⟨later, -⟩ := r.writes_follow_addresses _ _ _ _ (.ran 0 2 es :: rest) rfl rfl first
  refine ⟨_, rest, _, es, s, store, pre', t, r, first, hwrite, later "X4" (.load .plain false) store pre' t ?_⟩
  exact List.mem_append_right es hwrite

/-! ### A store does not hold back later writes -/

/-- Whether a thread can promise one of its writes, to a state of some kind. -/
def State.promisesTo (s : State) (p : Program) (tid : Nat) (P : State → Bool) : Bool :=
  p.threads[tid]?.any fun t => s.threads[tid]?.any fun slot => decide (slot.pc < t.code.length) &&
    (t.unpromised slot.promised).any fun w =>
      match Frame.promiseWrite { thread := slot.thread, memory := s.memory } w.1.1 w.1.2 with
      | .ok (f, _) => P (s.withSlot tid { slot with promised := slot.promised ++ [w.2], thread := f.thread } f.memory)
      | .error _ => false

/-- A run goes on with a promise that its thread can make. -/
theorem Program.Run.exists_promised {p : Program} {ds : List Deed} {s : State} (r : p.Run ds s) {tid : Nat}
    {P : State → Bool} (h : s.promisesTo p tid P = true) :
    ∃ time s', p.Run (ds ++ [.promised tid time]) s' ∧ P s' = true := by
  simp only [State.promisesTo, Option.any_eq_true, Bool.and_eq_true, decide_eq_true_eq, List.any_eq_true] at h
  obtain ⟨t, ht, slot, hs, hpc, w, hw, hP⟩ := h
  split at hP
  · next f time hf => exact ⟨time, _, r.move (.promise ht hs hpc hw hf), hP⟩
  · cases hP

/-- A thread loads an address, stores through it, and writes another cell, which it may promise to do; another thread
writes the first cell. -/
def storedAddress : Program where
  threads := [
    { code := [Shape.load "X3" "X0" .plain true, Shape.store "X4" "X3" .plain,
        Shape.only (.write { pa := 8, value := 1 })]
      regs := .ofList [("X0", (0 : Int)), ("X4", 1)]
      promisable := [(8, 1)] },
    { code := [Shape.only (.write { pa := 0, value := 16 })] }]

/-- A run to its end in which a thread stores through an address that it has loaded with view two, and the next write of
the thread, which it had promised, has time one. -/
theorem exists_write_before_address : ∃ ds s done as rest req pre, storedAddress.Run ds s ∧ s.Fulfilled ∧
    ds = done ++ .ran 0 1 as :: rest ∧ storedAddress.instr? 0 1 = some (Shape.store "X4" "X3" .plain) ∧
    (Shape.store "X4" "X3" .plain).IsStore "X4" "X3" ∧ storedAddress.Depends 0 2 done "X3" ∧
    .write req pre 1 ∈ actionsOf 0 rest := by
  let late (s : State) : Bool := (s.threads[0]?.map Slot.thread).any fun t =>
    decide (t.monitor.map Monitor.view = some 2)
  let early (s : State) : Bool := (s.threads[0]?.map Slot.thread).any fun t =>
    decide (t.forwards[(8 : Int)]?.map Forward.time = some 1)
  have path : storedAddress.start.promisesTo storedAddress 0 (fun s =>
      s.runsTo 1 0 (Shape.only (.write { pa := 0, value := 16 })) fun s =>
        s.runsTo 0 0 (Shape.load "X3" "X0" .plain true) fun s => late s &&
          s.runsTo 0 1 (Shape.store "X4" "X3" .plain) fun s =>
            s.runsTo 0 2 (Shape.only (.write { pa := 8, value := 1 })) fun s => early s &&
              s.threads.all fun slot => slot.thread.hasNoPromises) = true := by decide +kernel
  obtain ⟨time, s, r, path⟩ := Program.Run.start.exists_promised path
  obtain ⟨_, as, _, s, -, r, -, path⟩ := r.exists_next path rfl rfl
  obtain ⟨_, bs, _, s, hbs, r, hg, path⟩ := r.exists_next path rfl rfl
  obtain ⟨hlate, path⟩ := (Bool.and_eq_true _ _).mp path
  obtain ⟨_, cs, _, s, -, r, -, path⟩ := r.exists_next path rfl rfl
  obtain ⟨_, es, _, s, hes, r, hg', path⟩ := r.exists_next path rfl rfl
  obtain ⟨hearly, hend⟩ := (Bool.and_eq_true _ _).mp path
  obtain ⟨req, w, pre, view, rfl, hmonitor⟩ := hbs.of_load
  obtain ⟨pre', t, rfl, hwritten⟩ := hes.of_only_write rfl
  simp only [late, hg, Option.any_some, hmonitor rfl, decide_eq_true_eq, Option.some.injEq] at hlate
  simp only [early, hg', Option.any_some, hwritten, decide_eq_true_eq, Option.some.injEq] at hearly
  subst hlate hearly
  have hdepends : storedAddress.Depends 0 2
      ([.promised 0 time, .ran 1 0 as] ++ [.ran 0 0 [.other, .read req w pre 2, .other]]) "X3" :=
    .loaded rfl (.load .plain true) (.tail _ (.head _))
  have hfulfilled : s.Fulfilled := by
    intro slot hslot
    simpa [Thread.hasNoPromises] using List.all_eq_true.mp hend slot hslot
  exact ⟨_, s, _, cs, [.ran 0 2 _], _, pre', r, hfulfilled, rfl, rfl, .store .plain, hdepends, .head _⟩

end Litmus
