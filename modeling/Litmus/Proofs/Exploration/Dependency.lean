import Litmus.Proofs.Instruction.Dataflow
import Mathlib.Data.List.Induction

/-!
Dependencies. The value of a register goes back to a load that wrote it, or to one whose value was the address of
another load that did. Main facts: in every run a register is past the view of each load that its value goes back
to; so are the accesses that it is an operand of, the writes after a branch on it, and the reads behind
synchronization after that.
-/

namespace Litmus

/-- The instruction at a place of a thread's code. -/
def Program.instr? (p : Program) (tid pc : Nat) : Option Instr := p.threads[tid]?.bind fun t => t.code[pc]?

/-- Whether a deed leaves a register of a thread as it is: it is not an instruction of the thread, or one that does
not write the register. -/
inductive Program.Leaves (p : Program) (tid : Nat) (reg : String) : Deed → Prop
  | promised {i : Nat} {time : View} : Leaves p tid reg (.promised i time)
  | other {i pc : Nat} {as : List Action} : i ≠ tid → Leaves p tid reg (.ran i pc as)
  | own {pc : Nat} {as : List Action} {i : Instr} :
      p.instr? tid pc = some i → ¬i.MayWrite reg → Leaves p tid reg (.ran tid pc as)

/-- Whether what a register of a thread has, once these things were done, goes back to a load that ended with this
view: the load wrote it, or a load did whose address register went back to the load. -/
inductive Program.Depends (p : Program) (tid : Nat) (view : View) : List Deed → String → Prop
  | loaded {done : List Deed} {pc : Nat} {as : List Action} {i : Instr} {dst addr : String} {req : ReadRequest}
      {w : Memory.Read} {pre : View} : p.instr? tid pc = some i → i.IsLoad dst addr → .read req w pre view ∈ as →
      Depends p tid view (done ++ [.ran tid pc as]) dst
  | through {done : List Deed} {pc : Nat} {as : List Action} {i : Instr} {dst addr : String} :
      p.instr? tid pc = some i → i.IsLoad dst addr → Depends p tid view done addr →
      Depends p tid view (done ++ [.ran tid pc as]) dst
  | kept {done : List Deed} {d : Deed} {reg : String} :
      Depends p tid view done reg → p.Leaves tid reg d → Depends p tid view (done ++ [d]) reg

/-! ### Parts of runs -/

/-- What a deed did to the slot of a thread: nothing, if it was of another one; or it ran the next instruction; or
it promised. -/
theorem State.Does.slot_cases {p : Program} {s s' : State} {d : Deed} (hd : s.Does p d s') (hm : s.memory.Whole)
    {tid : Nat} {slot : Slot} (hs : s.threads[tid]? = some slot) :
    (s'.threads[tid]? = some slot ∧ ∀ pc as, d ≠ .ran tid pc as) ∨
    (∃ i as f, d = .ran tid slot.pc as ∧ p.instr? tid slot.pc = some i ∧
      i.Runs { thread := slot.thread, memory := s.memory } as f ∧
      s'.threads[tid]? = some { slot with pc := slot.pc + 1, thread := f.thread }) ∨
    ∃ promised time, (∀ pc as, d ≠ .ran tid pc as) ∧
      s'.threads[tid]? = some { slot with promised, thread := slot.thread.pushPromise time } := by
  cases hd with
  | @run i t before instr as f ht hb hi hr =>
    rw [getElem?_withSlot hb]
    split
    · next e =>
      subst e
      rw [hb] at hs
      cases hs
      exact .inr (.inl ⟨instr, as, f, rfl, by rw [Program.instr?, ht]; exact hi, hr, rfl⟩)
    · next e =>
      refine .inl ⟨hs, ?_⟩
      rintro pc as' he
      cases he
      exact e rfl
  | @promise i t before w f time ht hb hpc hw hf =>
    rw [getElem?_withSlot hb]
    split
    · next e =>
      subst e
      rw [hb] at hs
      cases hs
      obtain ⟨-, hg, -⟩ := Frame.promiseWrite_spec hm hf
      exact .inr (.inr ⟨_, time, nofun, by rw [hg]⟩)
    · exact .inl ⟨hs, nofun⟩

namespace Program.Run

variable {p : Program} {s : State} {tid : Nat}

/-- The last thing that a run did. -/
theorem of_concat {ds : List Deed} {d : Deed} {s' : State} (r : p.Run (ds ++ [d]) s') :
    ∃ s, p.Run ds s ∧ s.Does p d s' := by
  generalize hes : ds ++ [d] = es at r
  cases r with
  | start => simp at hes
  | move r hd =>
    obtain ⟨rfl, hlast⟩ := List.append_inj' hes rfl
    cases hlast
    exact ⟨_, r, hd⟩

/-- What a run did first is a run. -/
theorem of_append {ds es : List Deed} (r : p.Run (ds ++ es) s) : ∃ s, p.Run ds s := by
  induction es using List.reverseRecOn generalizing s with
  | nil => exact ⟨s, by simpa using r⟩
  | append_singleton es d ih =>
    rw [← List.append_assoc] at r
    obtain ⟨s, r, -⟩ := r.of_concat
    exact ih r

/-- A thread that is there after a run was there before its last deed. -/
theorem exists_slot_before {ds : List Deed} {s s' : State} (r : p.Run ds s) {d : Deed} (hd : s.Does p d s') {slot' : Slot}
    (hs : s'.threads[tid]? = some slot') : ∃ slot, s.threads[tid]? = some slot := by
  have hlt := (List.getElem?_eq_some_iff.mp hs).1
  rw [(r.move hd).fits.length_eq, ← r.fits.length_eq] at hlt
  exact ⟨_, List.getElem?_eq_getElem hlt⟩

/-- The instruction that was the last thing that a run did. -/
theorem of_ran {done : List Deed} {pc : Nat} {as : List Action} {s' : State} (r : p.Run (done ++ [.ran tid pc as]) s') :
    ∃ s slot i f, p.Run done s ∧ s.threads[tid]? = some slot ∧ p.instr? tid pc = some i ∧
      i.Runs { thread := slot.thread, memory := s.memory } as f ∧
      s'.threads[tid]? = some { slot with pc := pc + 1, thread := f.thread } := by
  obtain ⟨s, r₀, hd⟩ := r.of_concat
  cases hd with
  | @run _ t slot i _ f ht hs hi hr =>
    refine ⟨s, slot, i, f, r₀, hs, ?_, hr, ?_⟩
    · rw [Program.instr?, ht]
      exact hi
    · rw [State.getElem?_withSlot hs, if_pos rfl]

/-- What a known instruction did as the last thing of a run. -/
theorem of_ran_instr {done : List Deed} {pc : Nat} {as : List Action} {i : Instr} {s' : State}
    (r : p.Run (done ++ [.ran tid pc as]) s') (hi : p.instr? tid pc = some i) :
    ∃ s slot f, p.Run done s ∧ s.threads[tid]? = some slot ∧ i.Runs { thread := slot.thread, memory := s.memory } as f ∧
      s'.threads[tid]? = some { slot with pc := pc + 1, thread := f.thread } := by
  obtain ⟨s, slot, i', f, r, hs, hi', hr, hs'⟩ := r.of_ran
  rw [hi] at hi'
  cases hi'
  exact ⟨s, slot, f, r, hs, hr, hs'⟩

end Program.Run

/-- What a thread did, it did in some instruction. -/
theorem exists_ran_of_mem_actionsOf {tid : Nat} {ds : List Deed} {a : Action} (h : a ∈ actionsOf tid ds) :
    ∃ done pc as rest, ds = done ++ .ran tid pc as :: rest ∧ a ∈ as := by
  rw [actionsOf, List.mem_flatMap] at h
  obtain ⟨d, hd, ha⟩ := h
  obtain ⟨done, rest, rfl⟩ := List.append_of_mem hd
  cases d with
  | ran i pc as =>
    dsimp only at ha
    split at ha
    · next e => exact ⟨done, pc, as, rest, by rw [e], ha⟩
    · cases ha
  | promised => cases ha

/-- Whether a counter of a thread is past a view whenever these things were done. -/
def Program.Past (p : Program) (tid : Nat) (c : Counter) (view : View) (ds : List Deed) : Prop :=
  ∀ s slot, p.Run ds s → s.threads[tid]? = some slot → view ≤ slot.thread.views.get c

namespace Program.Past

variable {p : Program} {tid : Nat} {c : Counter} {view : View} {ds : List Deed}

theorem concat (h : p.Past tid c view ds) (d : Deed) : p.Past tid c view (ds ++ [d]) := by
  intro s' slot' r hs'
  obtain ⟨s, r, hd⟩ := r.of_concat
  obtain ⟨slot, hs⟩ := r.exists_slot_before hd hs'
  have hle := h s slot r hs
  rcases hd.slot_cases r.fits.whole hs with ⟨hsame, -⟩ | ⟨i, as, f, -, -, hr, hsame⟩ | ⟨promised, time, -, hsame⟩
  · rw [hsame] at hs'
    cases hs'
    exact hle
  · rw [hsame] at hs'
    cases hs'
    exact Int.le_trans hle (hr.views_le c)
  · rw [hsame] at hs'
    cases hs'
    exact hle

/-- Counters only rise. -/
theorem append (h : p.Past tid c view ds) (es : List Deed) : p.Past tid c view (ds ++ es) := by
  induction es using List.reverseRecOn with
  | nil => rwa [List.append_nil]
  | append_singleton es d ih =>
    rw [← List.append_assoc]
    exact ih.concat d

/-- What a thread did after that, it did from frames whose counter is past the view. -/
theorem exists_step (h : p.Past tid c view ds) {es : List Deed} {s : State} (r : p.Run (ds ++ es) s) {a : Action}
    (ha : a ∈ actionsOf tid es) : ∃ (e : Effect) (f : Frame) (v : e.Answer) (g : Frame), e.Step f v g a ∧
      view ≤ f.thread.views.get c := by
  obtain ⟨mid, pc, as, rest, rfl, has⟩ := exists_ran_of_mem_actionsOf ha
  rw [← List.append_assoc, List.append_cons (ds ++ mid)] at r
  obtain ⟨s', r⟩ := r.of_append
  obtain ⟨s, slot, i, f, r, hs, -, hr, -⟩ := r.of_ran
  obtain ⟨e, f', v, g, hstep, hle⟩ := hr.exists_step has
  exact ⟨e, f', v, g, hstep, Int.le_trans (h.append mid s slot r hs) (hle c)⟩

end Program.Past

/-! ### Dependencies along runs -/

/-- A deed that leaves a register as it is changes nothing of what the register holds. -/
theorem Program.Leaves.holds_eq {p : Program} {tid : Nat} {reg : String} {d : Deed} (h : p.Leaves tid reg d)
    {s s' : State} (hd : s.Does p d s') (hm : s.memory.Whole) {slot : Slot} (hs : s.threads[tid]? = some slot) :
    ∃ slot', s'.threads[tid]? = some slot' ∧ slot'.thread.holds reg = slot.thread.holds reg := by
  rcases hd.slot_cases hm hs with ⟨hsame, -⟩ | ⟨i, as, f, rfl, hi, hr, hsame⟩ | ⟨promised, time, -, hsame⟩
  · exact ⟨slot, hsame, rfl⟩
  · refine ⟨_, hsame, ?_⟩
    cases h with
    | other hne => exact absurd rfl hne
    | own hi' hwrite =>
      rw [hi] at hi'
      cases hi'
      exact hr.holds_eq hwrite
  · exact ⟨_, hsame, Thread.holds_congr rfl rfl rfl reg⟩

/-- A register is past the view of each load that its value goes back to. -/
theorem Program.Depends.exists_held {p : Program} {tid : Nat} {view : View} {ds : List Deed} {reg : String}
    (h : p.Depends tid view ds reg) {s : State} (r : p.Run ds s) :
    ∃ slot held, s.threads[tid]? = some slot ∧ slot.thread.holds reg = .ok held ∧ view ≤ held.view := by
  induction h generalizing s with
  | loaded hi hload hread =>
    obtain ⟨s, slot, f, -, -, hr, hs⟩ := r.of_ran_instr hi
    obtain ⟨held, -, ⟨req', w', pre', post', has, -, result, hresult, hle⟩, -⟩ := hr.of_isLoad hload
    have hmem := List.mem_filter.mpr (And.intro hread (rfl : Action.isRead _ = true))
    rw [has, List.mem_singleton] at hmem
    cases hmem
    exact ⟨_, result, hs, hresult, hle⟩
  | through hi hload _ ih =>
    obtain ⟨s, slot, f, r, hs, hr, hs'⟩ := r.of_ran_instr hi
    obtain ⟨_, held, hslot, hheld, hview⟩ := ih r
    rw [hs] at hslot
    cases hslot
    obtain ⟨held', hheld', ⟨_, _, _, _, -, hpost, result, hresult, hle⟩, -⟩ := hr.of_isLoad hload
    rw [hheld] at hheld'
    cases hheld'
    exact ⟨_, result, hs', hresult, Int.le_trans hview (Int.le_trans hpost hle)⟩
  | kept _ hleaves ih =>
    obtain ⟨s, r, hd⟩ := r.of_concat
    obtain ⟨slot, held, hs, hheld, hview⟩ := ih r
    obtain ⟨slot', hs', he⟩ := hleaves.holds_eq hd r.fits.whole hs
    exact ⟨slot', held, hs', he.trans hheld, hview⟩

namespace Program.Run

variable {p : Program} {ds done rest : List Deed} {s : State} {tid pc : Nat} {view : View} {i : Instr} {as : List Action}
  {reg : String}

/-- An instruction of a run found its register past the view of each load that the value of the register goes back
to. -/
theorem exists_held (r : p.Run (done ++ .ran tid pc as :: rest) s) (hi : p.instr? tid pc = some i)
    (h : p.Depends tid view done reg) : ∃ thread m held f, thread.holds reg = .ok held ∧ view ≤ held.view ∧
      i.Runs { thread, memory := m } as f := by
  rw [List.append_cons] at r
  obtain ⟨s', r⟩ := r.of_append
  obtain ⟨s, slot, f, r, hs, hr, -⟩ := r.of_ran_instr hi
  obtain ⟨_, held, hslot, hheld, hview⟩ := h.exists_held r
  rw [hs] at hslot
  cases hslot
  exact ⟨slot.thread, s.memory, held, f, hheld, hview, hr⟩

end Program.Run

/-- A counter is past each load that the value of a register goes back to, after an instruction that raises it to what
it finds in the register. -/
theorem Program.Depends.past_of_runs {p : Program} {tid : Nat} {view : View} {done : List Deed} {reg : String}
    (h : p.Depends tid view done reg) {pc : Nat} {as : List Action} {i : Instr} (hi : p.instr? tid pc = some i)
    {c : Counter} (hc : ∀ {thread : Thread} {m : Memory} {f : Frame}, i.Runs { thread, memory := m } as f →
      ∃ held, thread.holds reg = .ok held ∧ held.view ≤ f.thread.views.get c) :
    p.Past tid c view (done ++ [.ran tid pc as]) := by
  intro s' slot' r hs'
  obtain ⟨s, slot, f, r, hs, hr, hslot'⟩ := r.of_ran_instr hi
  rw [hslot'] at hs'
  cases hs'
  obtain ⟨_, held, hslot, hheld, hview⟩ := h.exists_held r
  rw [hs] at hslot
  cases hslot
  obtain ⟨held', hheld', hle⟩ := hc hr
  rw [hheld] at hheld'
  cases hheld'
  exact Int.le_trans hview hle

/-- After a branch on a register a thread is speculative on each load that the value of the register goes back to. -/
theorem Program.Depends.past_branch {p : Program} {tid : Nat} {view : View} {done : List Deed} {reg : String}
    (h : p.Depends tid view done reg) {pc : Nat} (as : List Action) {target : Int}
    (hi : p.instr? tid pc = some (Shape.branchOn reg target)) :
    p.Past tid .speculation view (done ++ [.ran tid pc as]) :=
  h.past_of_runs hi fun hr => hr.speculation_of_branchOn

/-- Synchronization carries on what a thread is speculative on. -/
theorem Program.Past.isb {p : Program} {tid : Nat} {view : View} {done : List Deed}
    (h : p.Past tid .speculation view done) {pc : Nat} {as : List Action} (hi : p.instr? tid pc = some Shape.isb) :
    p.Past tid .contextSync view (done ++ [.ran tid pc as]) := by
  intro s' slot' r hs'
  obtain ⟨s, slot, f, r, hs, hr, hslot'⟩ := r.of_ran_instr hi
  rw [hslot'] at hs'
  cases hs'
  exact Int.le_trans (h s slot r hs) hr.contextSync_of_isb

/-- Dependencies are respected, in every run. A register whose value goes back to a load is past the post-view of the
load. A load through the register ends past it, and a store of the register, or through it, comes after it. After a
branch on the register all writes of the thread come after it, and behind synchronization after that all reads do. -/
theorem Program.Run.dependencies_respected {p : Program} {ds : List Deed} {s : State} (r : p.Run ds s) {tid : Nat}
    {view : View} {reg : String} :
    (p.Depends tid view ds reg →
      ∃ slot held, s.threads[tid]? = some slot ∧ slot.thread.holds reg = .ok held ∧ view ≤ held.view) ∧
    ∀ done pc i as rest, ds = done ++ .ran tid pc as :: rest → p.instr? tid pc = some i → p.Depends tid view done reg →
      (∀ dst, i.IsLoad dst reg → ∃ req w pre post, as.filter Action.isRead = [.read req w pre post] ∧ view ≤ post) ∧
      (∀ src addr, i.IsStore src addr → reg = src ∨ reg = addr → ∀ req pre t, .write req pre t ∈ as → view < t) ∧
      ∀ target, i = Shape.branchOn reg target →
        (∀ req pre t, .write req pre t ∈ actionsOf tid rest → view < t) ∧
        ∀ mid pc' as' rest', rest = mid ++ .ran tid pc' as' :: rest' → p.instr? tid pc' = some Shape.isb →
          ∀ req w pre post, .read req w pre post ∈ actionsOf tid rest' → view ≤ pre := by
  refine ⟨fun h => h.exists_held r, ?_⟩
  rintro done pc i as rest rfl hi h
  obtain ⟨thread, m, held, f, hheld, hview, hr⟩ := r.exists_held hi h
  refine ⟨?_, ?_, ?_⟩
  · intro dst hload
    obtain ⟨held', hheld', ⟨req, w, pre, post, has, hpost, -⟩, -⟩ := hr.of_isLoad hload
    rw [hheld] at hheld'
    cases hheld'
    exact ⟨req, w, pre, post, has, Int.le_trans hview hpost⟩
  · intro src addr hstore hreg req pre t hwrite
    exact Int.lt_of_le_of_lt hview (hr.lt_of_isStore hstore hreg hheld hwrite)
  · rintro target rfl
    have hpast := h.past_branch as hi
    constructor
    · intro req pre t hwrite
      rw [List.append_cons] at r
      obtain ⟨e, f, v, g, hs, hle⟩ := hpast.exists_step r hwrite
      exact Int.lt_of_le_of_lt hle hs.speculation_lt
    · rintro mid pc' as' rest' rfl hi' req w pre post hread
      rw [List.append_cons, ← List.append_assoc, List.append_cons (done ++ [Deed.ran tid pc as] ++ mid)] at r
      obtain ⟨e, f, v, g, hs, hle⟩ := ((hpast.append mid).isb hi').exists_step r hread
      exact Int.le_trans hle (hs.contextSync_le_pre rfl)

/-- What a load has done; if it is exclusive, the thread monitors with the view of the read. -/
theorem Instr.Runs.of_load {dst addr : String} {kind : ReadKind} {exclusive : Bool} {f g : Frame} {as : List Action}
    (r : (Shape.load dst addr kind exclusive).Runs f as g) : ∃ req w pre post, as = [.other, .read req w pre post, .other] ∧
      (exclusive = true → g.thread.monitor.map Monitor.view = some post) := by
  cases r with | ask hs r =>
  cases hs with | readReg =>
  cases r with | ask hs r =>
  cases r with | ask hs' r =>
  cases hs' with | writeReg =>
  cases r with | done =>
  cases hs with
  | fetch _ hf => cases Frame.size_of_fetch hf
  | descriptor _ _ hsome => cases hsome
  | read =>
    refine ⟨_, _, _, _, rfl, ?_⟩
    intro he
    rw [Thread.hold_eq, Frame.thread_afterRead]
    simp [he]

/-- What a store has done. -/
theorem Instr.Runs.of_store {src addr : String} {kind : WriteKind} {f g : Frame} {as : List Action}
    (r : (Shape.store src addr kind).Runs f as g) : ∃ req pre t, as = [.other, .other, .write req pre t] := by
  cases r with | ask hs r =>
  cases hs with | readReg =>
  cases r with | ask hs r =>
  cases hs with | readReg =>
  cases r with | ask hs r =>
  cases r with | done =>
  cases hs with
  | writeFailed _ _ he => cases he
  | write => exact ⟨_, _, _, rfl⟩

theorem Instr.not_mayWrite_branchOn (reg x : String) (target : Int) : ¬(Shape.branchOn x target).MayWrite reg := by
  intro h
  cases h with
  | later _ h => exact not_mayWrite_only (by simp) h

theorem Instr.not_mayWrite_store (reg src addr : String) (kind : WriteKind) : ¬(Shape.store src addr kind).MayWrite reg := by
  intro h
  cases h with
  | later _ h =>
  cases h with
  | later _ h => exact not_mayWrite_only (by simp) h

theorem Instr.not_mayWrite_load {reg dst : String} (hne : reg ≠ dst) (addr : String) (kind : ReadKind) (exclusive : Bool) :
    ¬(Shape.load dst addr kind exclusive).MayWrite reg := by
  intro h
  cases h with
  | later _ h =>
  cases h with
  | later _ h => exact not_mayWrite_only (by simp [hne.symm]) h

/-- A thread loads an address, loads through it, branches on what it has got, synchronizes, stores through that, and
loads again; another thread writes the first cell. -/
def dependentLoads : Program where
  cells := [(8, 16)]
  threads := [
    { code := [Shape.load "X3" "X0" .plain true, Shape.load "X4" "X3" .plain false, Shape.branchOn "X4" 0, Shape.isb,
        Shape.store "X3" "X4" .plain, Shape.load "X5" "X0" .plain false]
      regs := .ofList [("X0", (0 : Int))] },
    { code := [Shape.only (.write { pa := 0, value := 8 })] }]

/-- A run of that program to its end in which the first load ends with view one, and what goes back to it. -/
theorem exists_run_dependentLoads : ∃ (as es fs : List Action) (req : ReadRequest) (v : Memory.Read) (vpre : View)
    (load : ReadRequest) (w : Memory.Read) (pre post : View) (store : WriteRequest) (pre' t : View) (last : ReadRequest)
    (w' : Memory.Read) (pre'' post'' : View) (s : State),
    dependentLoads.Run [.ran 1 0 as, .ran 0 0 [.other, .read req v vpre 1, .other],
      .ran 0 1 [.other, .read load w pre post, .other], .ran 0 2 es, .ran 0 3 fs,
      .ran 0 4 [.other, .other, .write store pre' t], .ran 0 5 [.other, .read last w' pre'' post'', .other]] s ∧
    dependentLoads.Depends 0 1 [.ran 1 0 as, .ran 0 0 [.other, .read req v vpre 1, .other]] "X3" ∧
    dependentLoads.Depends 0 1 [.ran 1 0 as, .ran 0 0 [.other, .read req v vpre 1, .other],
      .ran 0 1 [.other, .read load w pre post, .other]] "X4" ∧
    dependentLoads.Depends 0 1 [.ran 1 0 as, .ran 0 0 [.other, .read req v vpre 1, .other],
      .ran 0 1 [.other, .read load w pre post, .other], .ran 0 2 es, .ran 0 3 fs] "X4" := by
  let late (s : State) : Bool := (s.threads[0]?.map Slot.thread).any fun t =>
    decide (t.monitor.map Monitor.view = some 1)
  have path : dependentLoads.start.runsTo 1 0 (Shape.only (.write { pa := 0, value := 8 })) (fun s =>
      s.runsTo 0 0 (Shape.load "X3" "X0" .plain true) fun s => late s &&
        s.runsTo 0 1 (Shape.load "X4" "X3" .plain false) fun s =>
          s.runsTo 0 2 (Shape.branchOn "X4" 0) fun s =>
            s.runsTo 0 3 Shape.isb fun s =>
              s.runsTo 0 4 (Shape.store "X3" "X4" .plain) fun s =>
                s.runsTo 0 5 (Shape.load "X5" "X0" .plain false) fun _ => true) = true := by decide +kernel
  obtain ⟨_, as, _, s, -, r, -, path⟩ := Program.Run.start.exists_next path rfl rfl
  obtain ⟨_, bs, _, s, hbs, r, hg, path⟩ := r.exists_next path rfl rfl
  obtain ⟨hlate, path⟩ := (Bool.and_eq_true _ _).mp path
  obtain ⟨_, cs, _, s, hcs, r, -, path⟩ := r.exists_next path rfl rfl
  obtain ⟨_, es, _, s, -, r, -, path⟩ := r.exists_next path rfl rfl
  obtain ⟨_, fs, _, s, -, r, -, path⟩ := r.exists_next path rfl rfl
  obtain ⟨_, gs, _, s, hgs, r, -, path⟩ := r.exists_next path rfl rfl
  obtain ⟨_, hs, _, s, hhs, r, -, -⟩ := r.exists_next path rfl rfl
  obtain ⟨req, v, vpre, view, rfl, hmonitor⟩ := hbs.of_load
  obtain ⟨load, w, pre, post, rfl, -⟩ := hcs.of_load
  obtain ⟨store, pre', t, rfl⟩ := hgs.of_store
  obtain ⟨last, w', pre'', post'', rfl, -⟩ := hhs.of_load
  simp only [late, hg, Option.any_some, hmonitor rfl, decide_eq_true_eq, Option.some.injEq] at hlate
  subst hlate
  let bs : List Action := [.other, .read req v vpre 1, .other]
  let cs : List Action := [.other, .read load w pre post, .other]
  have first : dependentLoads.Depends 0 1 ([.ran 1 0 as] ++ [.ran 0 0 bs]) "X3" :=
    .loaded rfl (.load .plain true) (.tail _ (.head _))
  have second : dependentLoads.Depends 0 1 ([.ran 1 0 as, .ran 0 0 bs] ++ [.ran 0 1 cs]) "X4" :=
    .through rfl (.load .plain false) first
  have branched : dependentLoads.Depends 0 1 ([.ran 1 0 as, .ran 0 0 bs, .ran 0 1 cs] ++ [.ran 0 2 es]) "X4" :=
    .kept second (.own rfl (Instr.not_mayWrite_branchOn _ _ _))
  have synced : dependentLoads.Depends 0 1 ([.ran 1 0 as, .ran 0 0 bs, .ran 0 1 cs, .ran 0 2 es] ++ [.ran 0 3 fs]) "X4" :=
    .kept branched (.own rfl (Instr.not_mayWrite_only (by simp)))
  exact ⟨as, es, fs, req, v, vpre, load, w, pre, post, store, pre', t, last, w', pre'', post'', s, r, first, second, synced⟩

theorem dependencies_respected_dependentLoads : ∃ (ds : List Deed) (s : State) (slot : Slot) (held : Reg)
    (load : ReadRequest) (w : Memory.Read) (pre post : View) (store : WriteRequest) (pre' t : View) (last : ReadRequest)
    (w' : Memory.Read) (pre'' post'' : View), dependentLoads.Run ds s ∧ dependentLoads.Depends 0 1 ds "X4" ∧
    s.threads[0]? = some slot ∧ slot.thread.holds "X4" = .ok held ∧ 1 ≤ held.view ∧
    .read load w pre post ∈ actionsOf 0 ds ∧ 1 ≤ post ∧ .write store pre' t ∈ actionsOf 0 ds ∧ 1 < t ∧
    .read last w' pre'' post'' ∈ actionsOf 0 ds ∧ 1 ≤ pre'' := by
  obtain ⟨as, es, fs, req, v, vpre, load, w, pre, post, store, pre', t, last, w', pre'', post'', s, r, first, second,
    synced⟩ := exists_run_dependentLoads
  let gs : List Action := [.other, .other, .write store pre' t]
  let hs : List Action := [.other, .read last w' pre'' post'', .other]
  have stored := synced.kept (d := .ran 0 4 gs) (.own rfl (Instr.not_mayWrite_store _ _ _ _))
  have ended := stored.kept (d := .ran 0 5 hs) (.own rfl (Instr.not_mayWrite_load (by decide) _ _ _))
  obtain ⟨slot, held, hslot, hheld, hview⟩ := r.dependencies_respected.1 ended
  obtain ⟨ofLoad, -, -⟩ := r.dependencies_respected.2 _ _ _ _ [.ran 0 2 es, .ran 0 3 fs, .ran 0 4 gs, .ran 0 5 hs] rfl rfl first
  obtain ⟨-, ofStore, -⟩ := r.dependencies_respected.2 _ _ _ _ [.ran 0 5 hs] rfl rfl synced
  obtain ⟨-, -, ofBranch⟩ := r.dependencies_respected.2 _ _ _ _ [.ran 0 3 fs, .ran 0 4 gs, .ran 0 5 hs] rfl rfl second
  obtain ⟨_, _, _, _, hfilter, hpost⟩ := ofLoad "X4" (.load .plain false)
  cases (show [Action.read load w pre post] = _ from hfilter)
  obtain ⟨-, hreads⟩ := ofBranch 0 rfl
  refine ⟨_, s, slot, held, load, w, pre, post, store, pre', t, last, w', pre'', post'', r, ended, hslot, hheld, hview,
    ?_, hpost, ?_, ofStore _ _ (.store .plain) (.inr rfl) _ _ _ (.tail _ (.tail _ (.head _))), ?_, ?_⟩
  · simp [actionsOf]
  · simp [actionsOf]
  · simp [actionsOf]
  · exact hreads [] 3 fs [.ran 0 4 gs, .ran 0 5 hs] rfl rfl last w' pre'' post'' (by simp [actionsOf, hs])

end Litmus
