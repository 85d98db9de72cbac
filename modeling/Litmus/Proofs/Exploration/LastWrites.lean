import Litmus.Proofs.Exploration.Complete
import Litmus.Proofs.Instruction.Underway
import Litmus.Proofs.Thread.Registers

/-!
What registers hold in the end. A thread finds a register by the kind that its name tells, and what is left of a run has
all registers in one place. Main facts: in every state that is reached, what is left has for each register what the thread
would read from it; that is what the thread wrote to the register last, in its program order, or else what the register
held at the start; and reads fail of just those registers that have neither.
-/

namespace Litmus

/-! ### Writes of registers -/

/-- The write of a register that an exchange is, if it is one. -/
def Exchange.registerWrite? (x : Exchange) : Option (String × Int) :=
  match x.effect with
  | .writeReg reg value _ => some (reg, value)
  | _ => none

/-- What registers hold after these writes, one after the other. -/
def Registers.written (regs : Registers Int) (ws : List (String × Int)) : Registers Int :=
  ws.foldl (fun m w => m.insert w.1 w.2) regs

/-- What the last of some writes gave a register. -/
def lastWritten (reg : String) (ws : List (String × Int)) : Option Int :=
  (ws.filter fun w => w.1 = reg).getLast?.map Prod.snd

/-- What a thread wrote to its registers in these exchanges, in its program order. -/
def registerWrites (tid : Nat) (xs : List (Nat × Exchange)) : List (String × Int) :=
  xs.filterMap fun (i, x) => if i = tid then x.registerWrite? else none

theorem Registers.written_append (regs : Registers Int) (ws vs : List (String × Int)) :
    regs.written (ws ++ vs) = (regs.written ws).written vs := List.foldl_append

theorem Registers.getElem?_written (regs : Registers Int) (ws : List (String × Int)) (reg : String) :
    (regs.written ws)[reg]? = (lastWritten reg ws).or regs[reg]? :=
  getElem?_foldl_insert Prod.fst Prod.snd reg ws regs

theorem lastWritten_eq_none {reg : String} {ws : List (String × Int)} :
    lastWritten reg ws = none ↔ ∀ value, (reg, value) ∉ ws := by
  rw [lastWritten, Option.map_eq_none_iff, List.getLast?_eq_none_iff, List.filter_eq_nil_iff]
  constructor
  · intro h value hw
    exact h _ hw (decide_eq_true rfl)
  · rintro h ⟨reg', value⟩ hw heq
    obtain rfl : reg' = reg := of_decide_eq_true heq
    exact h value hw

theorem registerWrites_append (tid : Nat) (xs ys : List (Nat × Exchange)) :
    registerWrites tid (xs ++ ys) = registerWrites tid xs ++ registerWrites tid ys := List.filterMap_append

theorem registerWrites_same (tid : Nat) (ys : List Exchange) :
    registerWrites tid (ys.map fun y => (tid, y)) = ys.filterMap Exchange.registerWrite? := by
  simp [registerWrites, List.filterMap_map]

theorem registerWrites_other {tid i : Nat} (h : i ≠ tid) (ys : List Exchange) :
    registerWrites tid (ys.map fun y => (i, y)) = [] := by
  simp [registerWrites, h]

/-- An effect writes the register that it says, and no other. -/
theorem Effect.Step.plainRegs_eq {e : Effect} {f g : Frame} {v : e.Answer} {a : Action} (hs : e.Step f v g a)
    (h : f.thread.Filed) :
    g.thread.plainRegs = f.thread.plainRegs.written (Exchange.registerWrite? ⟨f, e, v⟩).toList := by
  cases hs with
  | writeReg => exact h.plainRegs_hold _ _
  | read => exact Frame.plainRegs_afterRead _ _ _ _
  | write => exact Frame.plainRegs_afterWrite _ _ _ _ _ _
  | maintain => rw [Frame.thread_afterMaintain]; rfl
  | _ => rfl

/-- Along an instruction, registers take its writes one after the other. -/
theorem Instr.Exchanges.plainRegs_eq {i j : Instr} {f g : Frame} {xs : List Exchange} (hc : i.Exchanges f xs j g)
    (hm : f.memory.Whole) (h : f.thread.Filed) :
    g.thread.Filed ∧ g.thread.plainRegs = f.thread.plainRegs.written (xs.filterMap Exchange.registerWrite?) := by
  induction hc with
  | here => exact ⟨h, rfl⟩
  | @on e next f g _ v a xs i hs _ ih =>
    have hfiled : g.thread.Filed := @FrameInvariant.step _ frameInvariant_filed _ [] _ _ _ _ hm h hs
    obtain ⟨hfiled, hrest⟩ := ih ((hs.grows hm).whole hm) hfiled
    refine ⟨hfiled, ?_⟩
    rw [hrest, hs.plainRegs_eq h, ← Registers.written_append, List.filterMap_cons]
    cases Exchange.registerWrite? ⟨f, e, v⟩ <;> rfl

/-! ### Reads of registers -/

namespace Thread

theorem eq_unknownRegister {t : Thread} {reg : String} {e : Fault} (h : t.holds reg = .error e) :
    e = .unknownRegister reg := by
  have initial (h : t.initialReg reg = .error e) : e = .unknownRegister reg := by
    rw [initialReg] at h
    split at h
    · cases h
    · exact (Except.error.inj h).symm
  rw [holds, readSystem, readSystemAt, readReg] at h
  split at h
  · split at h
    · cases h
    · exact initial h
  · split at h
    · cases h
    · exact initial h

namespace Filed

variable {t : Thread} {reg : String}

theorem plainRegs_eq_some_iff (h : t.Filed) {v : Int} :
    t.plainRegs[reg]? = some v ↔ ∃ r, t.holds reg = .ok r ∧ r.value = v := by
  constructor
  · exact h.exists_holds
  · rintro ⟨r, hr, rfl⟩
    exact h.plainRegs_of_holds hr

theorem plainRegs_eq_none_iff (h : t.Filed) : t.plainRegs[reg]? = none ↔ t.holds reg = .error (.unknownRegister reg) := by
  cases hr : t.holds reg with
  | ok r => simp [h.plainRegs_of_holds hr]
  | error e =>
    obtain rfl := eq_unknownRegister hr
    refine iff_of_true (Option.eq_none_iff_forall_ne_some.mpr fun v hv => ?_) rfl
    obtain ⟨r, hr', -⟩ := h.exists_holds hv
    cases hr.symm.trans hr'

end Filed

end Thread

/-- A read of a register, as the machine runs it: what the thread holds there, or a failure. -/
theorem Effect.guarded_run_readReg (reg : String) (f : Frame) :
    ((Effect.readReg reg).run f).guarded =
      match f.thread.holds reg with
      | .ok held => .done ({ f with scratch := f.scratch.addRegRead held.view }, held.value)
      | .error fault => .fail fault.failure := by
  change (Outcome.ofExcept (f.readReg reg)).guarded = _
  rw [Frame.readReg]
  cases f.thread.holds reg <;> rfl

/-! ### Runs -/

theorem Instr.Runs.exists_exchanges {i : Instr} {f g : Frame} {as : List Action} (r : i.Runs f as g) :
    ∃ xs, i.Exchanges f xs .done g := by
  induction r with
  | done => exact ⟨[], .here⟩
  | ask hs _ ih =>
    obtain ⟨xs, hc⟩ := ih
    exact ⟨_, .on hs hc⟩

theorem Instr.Exchanges.exists_runs {i j : Instr} {f g : Frame} {xs : List Exchange} (hc : i.Exchanges f xs j g)
    (hj : j = .done) : ∃ as, i.Runs f as g := by
  induction hc with
  | here => exact ⟨[], hj ▸ .done⟩
  | on hs _ ih =>
    obtain ⟨as, r⟩ := ih hj
    exact ⟨_, .ask hs r⟩

namespace Program

/-- Moves lead from the start of the program to the state, and these are the exchanges of their instructions, each with
the thread that made it. -/
inductive Exchanged (p : Program) : List (Nat × Exchange) → State → Prop
  | start : Exchanged p [] p.start
  | run {xs : List (Nat × Exchange)} {ys : List Exchange} {s : State} {tid : Nat} {t : ThreadProgram} {slot : Slot}
      {i : Instr} {f : Frame} :
      Exchanged p xs s → p.threads[tid]? = some t → s.threads[tid]? = some slot → t.code[slot.pc]? = some i →
      i.Exchanges { thread := slot.thread, memory := s.memory } ys .done f →
      Exchanged p (xs ++ ys.map fun y => (tid, y))
        (s.withSlot tid { slot with pc := slot.pc + 1, thread := f.thread } f.memory)
  | promise {xs : List (Nat × Exchange)} {s : State} {tid : Nat} {t : ThreadProgram} {slot : Slot}
      {w : (Int × Int) × Nat} {f : Frame} {time : View} :
      Exchanged p xs s → p.threads[tid]? = some t → s.threads[tid]? = some slot → slot.pc < t.code.length →
      w ∈ t.unpromised slot.promised →
      Frame.promiseWrite { thread := slot.thread, memory := s.memory } w.1.1 w.1.2 = .ok (f, time) →
      Exchanged p xs (s.withSlot tid { slot with promised := slot.promised ++ [w.2], thread := f.thread } f.memory)

theorem reaches_iff_exchanged {p : Program} {s : State} : p.Reaches s ↔ ∃ xs, p.Exchanged xs s := by
  constructor
  · intro h
    induction h with
    | refl => exact ⟨[], .start⟩
    | tail _ hm ih =>
      obtain ⟨xs, hxs⟩ := ih
      obtain ⟨d, ⟨ht, hslot, hi, hr⟩ | ⟨ht, hslot, hpc, hw, hf⟩⟩ := State.move_iff.mp hm
      · obtain ⟨ys, hc⟩ := hr.exists_exchanges
        exact ⟨_, hxs.run ht hslot hi hc⟩
      · exact ⟨_, hxs.promise ht hslot hpc hw hf⟩
  · rintro ⟨xs, h⟩
    induction h with
    | start => exact .refl
    | run _ ht hslot hi hc ih =>
      obtain ⟨as, hr⟩ := hc.exists_runs rfl
      exact ih.tail (State.move_iff.mpr ⟨_, .run ht hslot hi hr⟩)
    | promise _ ht hslot hpc hw hf ih => exact ih.tail (.promise ht hslot hpc hw hf)

variable {p : Program} {s : State} {tid : Nat} {t : ThreadProgram} {slot : Slot}

theorem Reaches.filed (h : p.Reaches s) (hslot : s.threads[tid]? = some slot) : slot.thread.Filed := by
  obtain ⟨ds, r⟩ := reaches_iff.mp h
  exact (frameInvariant_filed.slot p).holds r hslot

/-- Along moves, the registers of a thread take its own writes one after the other. -/
theorem Exchanged.plainRegs_eq {xs : List (Nat × Exchange)} (h : p.Exchanged xs s) (ht : p.threads[tid]? = some t)
    (hslot : s.threads[tid]? = some slot) : slot.thread.plainRegs = t.regs.written (registerWrites tid xs) := by
  induction h generalizing slot with
  | start =>
    rw [threads_start, ht] at hslot
    cases hslot
    rfl
  | @run xs ys s i u old _ f hxs _ hold _ hc ih =>
    have hs : p.Reaches s := reaches_iff_exchanged.mpr ⟨xs, hxs⟩
    obtain ⟨ds, r⟩ := reaches_iff.mp hs
    rw [registerWrites_append, Registers.written_append]
    rw [State.getElem?_withSlot hold] at hslot
    split at hslot
    · next e =>
      subst e
      cases hslot
      rw [registerWrites_same, ← ih hold]
      exact (hc.plainRegs_eq r.fits.whole (hs.filed hold)).2
    · next hne =>
      rw [registerWrites_other (Ne.symm hne)]
      exact ih hslot
  | @promise xs s i u old w f time hxs _ hold _ _ hf ih =>
    obtain ⟨ds, r⟩ := reaches_iff.mp (reaches_iff_exchanged.mpr ⟨xs, hxs⟩)
    obtain ⟨-, hg, -⟩ := Frame.promiseWrite_spec r.fits.whole hf
    rw [State.getElem?_withSlot hold] at hslot
    split at hslot
    · next e =>
      subst e
      cases hslot
      rw [← ih hold, hg]
      rfl
    · exact ih hslot

/-- In every state that is reached, what is left of a run would have for a register of a thread just what the thread would
read from it there, and nothing if that read fails as one of an unknown register. Whatever exchanges led to the state,
that is what the thread wrote to the register last, and without such a write what the register held at the start: for
registers of both kinds, and whether the context was synchronized since or not. -/
theorem Reaches.reads_plainRegs (h : p.Reaches s) (ht : p.threads[tid]? = some t)
    (hslot : s.threads[tid]? = some slot) (reg : String) :
    (∀ f, s.final = .ok f → f.regs[tid]? = some slot.thread.plainRegs) ∧
    (∀ v, slot.thread.plainRegs[reg]? = some v ↔
      ∃ g, ((Effect.readReg reg).run { thread := slot.thread, memory := s.memory }).guarded = .done (g, v)) ∧
    (slot.thread.plainRegs[reg]? = none ↔
      ((Effect.readReg reg).run { thread := slot.thread, memory := s.memory }).guarded =
        .fail (Fault.unknownRegister reg).failure) ∧
    (Fault.unknownRegister reg).code.id = "E0202" ∧
    (∃ xs, p.Exchanged xs s) ∧
    ∀ xs, p.Exchanged xs s →
      slot.thread.plainRegs[reg]? = (lastWritten reg (registerWrites tid xs)).or t.regs[reg]? ∧
      (slot.thread.plainRegs[reg]? = none ↔ t.regs[reg]? = none ∧ ∀ v, (reg, v) ∉ registerWrites tid xs) := by
  have hfiled := h.filed hslot
  refine ⟨?_, ?_, ?_, rfl, reaches_iff_exchanged.mp h, ?_⟩
  · intro f hf
    simp only [State.final, bind_eq_ok, pure_eq_ok] at hf
    obtain ⟨_, -, rfl⟩ := hf
    rw [List.getElem?_map, hslot]
    rfl
  · intro v
    rw [hfiled.plainRegs_eq_some_iff, Effect.guarded_run_readReg]
    cases slot.thread.holds reg <;> simp
  · rw [hfiled.plainRegs_eq_none_iff, Effect.guarded_run_readReg]
    cases hr : slot.thread.holds reg with
    | ok held => simp
    | error fault =>
      obtain rfl := Thread.eq_unknownRegister hr
      exact iff_of_true rfl rfl
  · intro xs hxs
    have hlast := hxs.plainRegs_eq ht hslot
    refine ⟨by rw [hlast, Registers.getElem?_written], ?_⟩
    rw [hlast, Registers.getElem?_written, Option.or_eq_none_iff, lastWritten_eq_none, and_comm]

end Program

/-- A thread moves values into a register twice, and into a system register without synchronizing the context. -/
def movesOfBothKinds : Program where
  threads := [{
    code := [Shape.movImm "X1" 5, Shape.movImm "TTBR0_EL1" 7, Shape.movImm "X1" 6]
    regs := .ofList [("X1", (0 : Int)), ("X2", 3)] }]

theorem reads_plainRegs_movesOfBothKinds : ∃ s slot, movesOfBothKinds.Reaches s ∧ s.threads[0]? = some slot ∧
    slot.pc = 3 ∧ slot.thread.syncPoint = 0 ∧
    (∀ reg v, (reg, v) ∈ [("X1", (6 : Int)), ("TTBR0_EL1", 7), ("X2", 3)] →
      ∃ g, ((Effect.readReg reg).run { thread := slot.thread, memory := s.memory }).guarded = .done (g, v)) ∧
    ((Effect.readReg "X9").run { thread := slot.thread, memory := s.memory }).guarded =
      .fail (Fault.unknownRegister "X9").failure := by
  have path : (movesOfBothKinds.start.follow movesOfBothKinds {} [0, 0, 0]).any (fun s => s.threads[0]?.any fun slot =>
      slot.pc = 3 && slot.thread.syncPoint = 0 && slot.thread.plainRegs["X9"]? = none &&
        [("X1", (6 : Int)), ("TTBR0_EL1", 7), ("X2", 3)].all fun (reg, v) => slot.thread.plainRegs[reg]? = some v) = true := by
    decide +kernel
  obtain ⟨s, hs, hP⟩ := Program.exists_reaches _ path
  simp only [Option.any_eq_true, Bool.and_eq_true, decide_eq_true_eq, List.all_eq_true] at hP
  obtain ⟨slot, hslot, ⟨⟨hpc, hsync⟩, hnone⟩, hsome⟩ := hP
  have ht : movesOfBothKinds.threads[0]? = some _ := rfl
  have hreads (reg : String) := Program.Reaches.reads_plainRegs hs ht hslot reg
  exact ⟨s, slot, hs, hslot, hpc, hsync, fun reg v hmem => ((hreads reg).2.1 v).mp (hsome _ hmem), (hreads "X9").2.2.1.mp hnone⟩

end Litmus
