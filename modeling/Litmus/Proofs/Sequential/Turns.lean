import Litmus.Proofs.Instruction.Bounded
import Litmus.Proofs.Instruction.Fence
import Litmus.Proofs.Sequential.Machine
import Litmus.Proofs.Thread.Registers

/-!
Instructions at their place in a common order. Each instruction of fenced code has a stage: the time of its
write, the post-view of its read, or the view of all accesses so far. Main facts: an instruction does at its
stage what it would do at once on the memory up to it, and it comes after all accesses before it.
-/

namespace Litmus

/-- What an instruction would do at once at a stage: it reads memory up to there, and what it writes, if
anything, is the event there. -/
def Op.ActsAt (op : Op) (m : Memory) (tid : Int) (stage : View) (regs regs' : Registers Int) : Prop :=
  ∃ w, op.exec (fun loc => ((m.cut stage).latest loc).value) regs = some (regs', w) ∧
    ∀ loc v, w = some (loc, v) → m.at? stage = some (.write tid loc v)

/-- An instruction ran from one frame to another as if at once at a stage. -/
structure Op.RunsAt (op : Op) (f g : Frame) (stage : View) : Prop where
  acts : op.ActsAt g.memory f.thread.tid stage f.thread.plainRegs g.thread.plainRegs
  spans : g.memory.Spans stage
  after : f.thread.views.accesses ≤ stage
  past : op.isStore = true → f.thread.views.accesses < stage
  counted : stage ≤ g.thread.views.accesses
  events : ∀ t e, g.memory.at? t = some e → f.memory.at? t = some e ∨ op.isStore = true ∧ t = stage
  promises : ∀ t ∈ f.thread.promises, t ∈ g.thread.promises ∨ op.isStore = true ∧ t = stage
  fences : f.thread.views.fences ≤ g.thread.views.fences
  quiet : op.isAccess = false → g.thread.views.accesses = f.thread.views.accesses
  fenced : op.isFullFence = true → g.thread.views.accesses ≤ g.thread.views.fences

theorem Frame.Bounded.spans_accesses {f : Frame} (h : f.Bounded) : f.memory.Spans f.thread.views.accesses :=
  (h.thread.views .reads).join (h.thread.views .writes)

namespace Thread

theorem accesses_hold (t : Thread) (reg : String) (r : Reg) : (t.hold reg r).views.accesses = t.views.accesses := by
  rw [hold_eq]
  dsimp only
  split
  · exact Views.accesses_raise _ _ _ nofun nofun
  · rfl

theorem fences_hold (t : Thread) (reg : String) (r : Reg) : t.views.fences ≤ (t.hold reg r).views.fences := by
  rw [hold_eq]
  dsimp only
  split
  · exact Views.fences_le_raise _ _ _
  · exact Int.le_refl _

theorem promises_hold (t : Thread) (reg : String) (r : Reg) : (t.hold reg r).promises = t.promises := by rw [hold_eq]

end Thread

namespace Op.RunsAt

variable {f g : Frame} {op : Op} {as : List Action}

/-- An instruction that accesses nothing runs at the view of all accesses so far. -/
theorem still (hb : f.Bounded) (hop : op.isAccess = false) (hm : g.memory = f.memory)
    (he : ∀ read, op.exec read f.thread.plainRegs = some (g.thread.plainRegs, none))
    (hv : g.thread.views.accesses = f.thread.views.accesses) (hf : f.thread.views.fences ≤ g.thread.views.fences)
    (hp : g.thread.promises = f.thread.promises)
    (hfence : op.isFullFence = true → g.thread.views.accesses ≤ g.thread.views.fences) :
    op.RunsAt f g f.thread.views.accesses where
  acts := ⟨none, he _, nofun⟩
  spans := hm ▸ hb.spans_accesses
  after := Int.le_refl _
  past hs := by cases op <;> simp_all [isStore, isAccess]
  counted := Int.le_of_eq hv.symm
  events t e ht := .inl (hm ▸ ht)
  promises t ht := .inl (hp ▸ ht)
  fences := hf
  quiet _ := hv
  fenced := hfence

theorem of_movImm {dst : String} {value : Int} (hb : f.Bounded) (hfiled : f.thread.Filed)
    (r : (movImm dst value).instr.Runs f as g) : ∃ stage, (movImm dst value).RunsAt f g stage := by
  rw [instr, Shape.movImm, Shape.only] at r
  cases r with
  | ask hs r =>
    cases hs with
    | writeReg =>
      cases r
      refine ⟨_, still hb rfl rfl ?_ (Thread.accesses_hold _ _ _) (Thread.fences_hold _ _ _)
        (Thread.promises_hold _ _ _) nofun⟩
      intro read
      dsimp only
      rw [hfiled.plainRegs_hold]
      rfl

theorem of_branchOn {reg : String} {target : Int} (hb : f.Bounded) (hfiled : f.thread.Filed)
    (r : (branchOn reg target).instr.Runs f as g) : ∃ stage, (branchOn reg target).RunsAt f g stage := by
  rw [instr, Shape.branchOn, Shape.only] at r
  cases r with
  | ask hs r =>
    cases hs with
    | readReg hr =>
      cases r with
      | ask hs r =>
        cases hs with
        | announceBranch hd =>
          cases r
          refine ⟨_, still hb rfl rfl ?_ (Views.accesses_raise _ _ _ nofun nofun)
            (Views.fences_le_raise _ _ _) rfl nofun⟩
          intro read
          rw [Op.exec, hfiled.plainRegs_of_holds hr]
          rfl

theorem of_dmb {kind : BarrierKind} (hb : f.Bounded) (r : (dmb kind).instr.Runs f as g) :
    ∃ stage, (dmb kind).RunsAt f g stage := by
  rw [instr, Shape.dmb, Shape.only] at r
  cases r with
  | ask hs r =>
    cases hs with
    | dmb =>
      cases r
      refine ⟨_, still hb rfl rfl (fun _ => rfl) ?_ (Views.fences_le_raise _ _ _) rfl ?_⟩
      · cases kind <;> exact Views.accesses_raise _ _ _ nofun nofun
      · intro hfence
        cases kind with
        | sy => exact Views.accesses_le_fences_raise _ _ (.inl rfl) (View.le_joinAll (by simp)) (View.le_joinAll (by simp))
        | ld | st => cases hfence

theorem of_dsb {kind : BarrierKind} (hb : f.Bounded) (r : (dsb kind).instr.Runs f as g) :
    ∃ stage, (dsb kind).RunsAt f g stage := by
  rw [instr, Shape.dsb, Shape.only] at r
  cases r with
  | ask hs r =>
    cases hs with
    | dsb =>
      cases r
      refine ⟨_, still hb rfl rfl (fun _ => rfl) ?_ (Views.fences_le_raise _ _ _) rfl ?_⟩
      · cases kind <;> exact Views.accesses_raise _ _ _ nofun nofun
      · intro hfence
        cases kind with
        | sy => exact Views.accesses_le_fences_raise _ _ (.inr rfl) (View.le_joinAll (by simp)) (View.le_joinAll (by simp))
        | ld | st => cases hfence

theorem of_isb (hb : f.Bounded) (r : isb.instr.Runs f as g) : ∃ stage, isb.RunsAt f g stage := by
  rw [instr, Shape.isb, Shape.only] at r
  cases r with
  | ask hs r =>
    cases hs with
    | isb =>
      cases r
      exact ⟨_, still hb rfl rfl (fun _ => rfl) (Views.accesses_raise _ _ _ nofun nofun)
        (Views.fences_le_raise _ _ _) rfl nofun⟩

/-- What a load does: a read of the cell whose address the register holds, then a write of a register. -/
theorem load_runs {dst addr : String} {kind : ReadKind} (r : (load dst addr kind).instr.Runs f as g) :
    ∃ (req : ReadRequest) (held : Reg) (view dep : View) (rd : Memory.Read) (f' : Frame),
      f.thread.holds addr = .ok held ∧ f' = { f with scratch := f.scratch.addRegRead held.view } ∧
      req.pa = held.value ∧ req.pa % 8 = 0 ∧ f'.depsView req.deps = .ok view ∧
      rd ∈ f'.readCandidates req req.pa view ∧
      g = { f'.afterRead req view rd with thread := (f'.afterRead req view rd).thread.hold dst ⟨rd.value, dep⟩ } := by
  rw [instr, Shape.load] at r
  cases r with
  | ask hs r =>
    cases hs with
    | readReg hheld =>
      cases r with
      | ask hs r =>
        cases hs with
        | fetch hk hf => exact absurd (Frame.size_of_fetch hf) nofun
        | descriptor hk hsz hva => cases hva
        | read hk hsz ha hd hr hbound =>
          cases r with
          | ask hs r =>
            cases hs with
            | writeReg =>
              cases r
              exact ⟨_, _, _, _, _, _, hheld, rfl, rfl, ha, hd, hr, rfl⟩

theorem of_load {dst addr : String} {kind : ReadKind} (hb : f.Bounded) (hm : f.memory.Whole) (hfiled : f.thread.Filed)
    (hacc : f.thread.Accounted) (hfence : f.thread.views.accesses ≤ f.thread.views.fences)
    (r : (load dst addr kind).instr.Runs f as g) : ∃ stage, (load dst addr kind).RunsAt f g stage := by
  obtain ⟨req, held, view, dep, rd, f', hheld, hf', hpa, ha, hd, hr, rfl⟩ := load_runs r
  have hbounded : f'.Bounded := hf' ▸ hb.step hm (.readReg hheld)
  have hthread : f'.thread = f.thread := by rw [hf']
  have hmemory : f'.memory = f.memory := by rw [hf']
  rw [← hthread] at hfiled hacc hfence
  obtain ⟨hlatest, hafter⟩ := Frame.latest_of_fenced hacc hfence hr
  have hspans := hbounded.readPost req (hbounded.depsView hd) (.of_mem_candidates (List.mem_filter.mp hr).1)
  have hviews := congrArg Thread.views (Frame.thread_afterRead f' req view rd)
  obtain ⟨hreads, hwrites⟩ := Views.afterRead_spec f'.thread.views req.kind view (f'.readPost req view rd)
  have hregs := Frame.plainRegs_afterRead f' req view rd
  have hfiled' := Frame.filed_afterRead hfiled req view rd
  refine ⟨f'.readPost req view rd, ⟨none, ?_, ?_⟩, hspans, hthread ▸ hafter, ?_, ?_, fun t e he => .inl ?_,
    fun t ht => .inl ?_, ?_, ?_, ?_⟩
  · rw [hfiled'.plainRegs_hold, hregs, Op.exec, ← hthread, hfiled.plainRegs_of_holds (hthread ▸ hheld), ← hpa]
    simp only [Option.bind_some, if_pos ha]
    exact congrArg (fun v => some (f'.thread.plainRegs.insert dst v, none)) (congrArg Memory.Read.value hlatest)
  · intro loc v hw
    cases hw
  · intro hstore
    cases hstore
  · dsimp only
    rw [Thread.accesses_hold, hviews, Views.accesses, hreads]
    exact Int.le_trans (View.le_join_right _ _) (View.le_join_left _ _)
  · rwa [← hmemory]
  · dsimp only
    rwa [Thread.promises_hold, Frame.thread_afterRead, hthread]
  · refine Int.le_trans ?_ (Thread.fences_hold _ _ _)
    rw [hviews, ← hthread]
    exact Views.fences_mono fun c => Views.get_le_get_afterRead _ c _ _ _
  · intro hquiet
    cases hquiet
  · intro hfull
    cases hfull

/-- What a store does: a write of one register to the cell whose address the other holds. -/
theorem store_runs {src addr : String} {kind : WriteKind} (r : (store src addr kind).instr.Runs f as g) :
    ∃ (req : WriteRequest) (heldAddr heldSrc : Reg) (addrView dataView t : View) (memory : Memory) (promised : Bool)
      (f' : Frame),
      f.thread.holds addr = .ok heldAddr ∧ f.thread.holds src = .ok heldSrc ∧
      f' = { f with scratch := (f.scratch.addRegRead heldAddr.view).addRegRead heldSrc.view } ∧
      req.pa = heldAddr.value ∧ req.value = heldSrc.value ∧ req.pa % 8 = 0 ∧
      f'.place (.write f.thread.tid req.pa req.value) = .ok (memory, t, promised) ∧
      f'.writeTrouble req memory req.pa (f'.writePre req addrView dataView) t = none ∧
      g = f'.afterWrite req (View.join addrView dataView) t memory promised := by
  rw [instr, Shape.store] at r
  cases r with
  | ask hs r =>
    cases hs with
    | readReg haddr =>
      cases r with
      | ask hs r =>
        cases hs with
        | readReg hsrc =>
          cases r with
          | ask hs r =>
            cases hs with
            | writeFailed _ _ he => cases he
            | write hsz ha hd hd' hp ht =>
              cases r
              exact ⟨_, _, _, _, _, _, _, _, _, haddr, hsrc, rfl, rfl, rfl, ha, hp, ht, rfl⟩

theorem of_store {src addr : String} {kind : WriteKind} (hm : f.memory.Whole) (hfiled : f.thread.Filed)
    (hfence : f.thread.views.accesses ≤ f.thread.views.fences) (r : (store src addr kind).instr.Runs f as g) :
    ∃ stage, (store src addr kind).RunsAt f g stage := by
  obtain ⟨req, heldAddr, heldSrc, addrView, dataView, t, memory, promised, f', haddr, hsrc, hf', hpa, hvalue, ha, hp, ht,
    rfl⟩ := store_runs r
  have hthread : f'.thread = f.thread := by rw [hf']
  have hmemory : f'.memory = f.memory := by rw [hf']
  have hplaced := Frame.placed (hmemory ▸ hm) hp
  have hlt : f.thread.views.accesses < t := by
    have hpre : f'.thread.views.fences ≤ f'.writePre req addrView dataView := Frame.barriers_le_writePre
    rw [hthread] at hpre
    exact Int.lt_of_le_of_lt (Int.le_trans hfence hpre) (Frame.lt_of_writeTrouble ht).1
  have hviews := congrArg Thread.views (Frame.thread_afterWrite f' req (View.join addrView dataView) t memory promised)
  obtain ⟨hreads, hwrites⟩ := Views.afterWrite_spec f'.thread.views req.kind t
  have hregs : (f'.afterWrite req (View.join addrView dataView) t memory promised).thread.plainRegs =
      f.thread.plainRegs := by rw [Frame.plainRegs_afterWrite, hthread]
  refine ⟨t, ⟨some (req.pa, req.value), ?_, ?_⟩, .of_at? hplaced.at?_eq, Int.le_of_lt hlt, fun _ => hlt,
    ?_, ?_, ?_, ?_, ?_, ?_⟩
  · rw [hregs, Op.exec, hfiled.plainRegs_of_holds haddr, hfiled.plainRegs_of_holds hsrc, ← hpa, ← hvalue]
    simp only [Option.bind_some, if_pos ha]
  · intro loc v hw
    cases hw
    exact hplaced.at?_eq
  · rw [hviews, Views.accesses, hwrites]
    exact Int.le_trans (View.le_join_right _ _) (View.le_join_right _ _)
  · intro p e he
    rw [← hmemory]
    rcases hplaced.at?_cases p e he with he | ⟨-, hp, -⟩
    · exact .inl he
    · exact .inr ⟨rfl, hp⟩
  · intro p hpm
    rw [Frame.thread_afterWrite, hthread]
    dsimp only
    split
    · by_cases hpt : p = t
      · exact .inr ⟨rfl, hpt⟩
      · exact .inl (List.mem_filter.mpr ⟨hpm, by simpa using hpt⟩)
    · exact .inl hpm
  · rw [hviews, ← hthread]
    exact Views.fences_mono fun c => Views.get_le_get_afterWrite _ c _ _
  · intro hquiet
    cases hquiet
  · intro hfull
    cases hfull

end Op.RunsAt

/-- Whatever an instruction of code that is fenced up to it does, it does at a stage. -/
theorem Op.exists_runsAt {op : Op} {f g : Frame} {as : List Action} (hb : f.Bounded) (hm : f.memory.Whole)
    (hfiled : f.thread.Filed) (hacc : f.thread.Accounted)
    (hfence : op.isAccess = true → f.thread.views.accesses ≤ f.thread.views.fences) (r : op.instr.Runs f as g) :
    ∃ stage, op.RunsAt f g stage := by
  cases op with
  | movImm => exact RunsAt.of_movImm hb hfiled r
  | load => exact RunsAt.of_load hb hm hfiled hacc (hfence rfl) r
  | store => exact RunsAt.of_store hm hfiled (hfence rfl) r
  | branchOn => exact RunsAt.of_branchOn hb hfiled r
  | dmb => exact RunsAt.of_dmb hb r
  | dsb => exact RunsAt.of_dsb hb r
  | isb => exact RunsAt.of_isb hb r

end Litmus
