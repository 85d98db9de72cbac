import Litmus.Proofs.Instruction.Bounded
import Litmus.Proofs.Memory.Snapshot
import Litmus.Proofs.Sequential.Linearization

/-!
Interleavings are explored. A thread without promises can always run its next instruction on the memory as it is
now: the latest write of a cell is one that a read may return, whatever the views are, and a write at the end of
memory comes after all of them. Main fact: an exploration that ends has found whatever the sequentially consistent
machine can leave.
-/

namespace Litmus

/-! ### Cells and memory -/

namespace Memory

variable {m n : Memory} {tid l value : Int}

/-- Whether the cells of the machine hold what is latest of a memory. -/
def HeldIn (m : Memory) (cells : Table Int) : Prop :=
  (∀ loc, FlatState.read m.initial cells loc = (m.latest loc).value) ∧ ∀ loc, loc ∈ cells ↔ loc ∈ m.locations

theorem heldIn_empty (image : Image) : (ofImage image).HeldIn ∅ := by
  have none (t : View) : (ofImage image).at? t = none := by
    rw [at?, if_neg]
    rintro ⟨hpos, hle⟩
    exact absurd (Int.lt_of_lt_of_le hpos hle) (Int.lt_irrefl 0)
  constructor
  · intro loc
    have : (ofImage image).latest loc = ⟨image.readCell loc, 0⟩ :=
      latest_eq_iff.mpr ⟨.inr rfl, fun t i v ht => by rw [none] at ht; cases ht⟩
    rw [this]
    simp [FlatState.read, ofImage]
  · intro loc
    simp [Memory.mem_locations, none]

theorem HeldIn.takes {cells : Table Int} (h : m.HeldIn cells) (ht : m.Takes tid l value n) :
    n.HeldIn (cells.insert l value) := by
  constructor
  · intro loc
    have hold := h.1 loc
    rw [FlatState.read] at hold
    rw [FlatState.read, ht.1, ht.latest_eq, Std.ExtTreeMap.getD_insert]
    simp only [Std.compare_eq_iff_eq, eq_comm (a := l)]
    split
    · rfl
    · exact hold
  · intro loc
    rw [ht.mem_locations, ← h.2, Std.ExtTreeMap.mem_insert]
    simp only [Std.compare_eq_iff_eq, eq_comm (a := l)]

end Memory

/-! ### Instructions -/

namespace Frame

variable {f : Frame} {reg : String} {held : Reg}

theorem depsView_none (f : Frame) : f.depsView .none = .ok 0 := rfl

/-- The view of a register alone is known when the register is. -/
theorem exists_depsView_of_holds (h : f.thread.holds reg = .ok held) :
    ∃ view, f.depsView (.explicit [reg] []) = .ok view := by
  refine ⟨View.joinAll [held.view], ?_⟩
  simp [depsView, h]

/-- The view of the first read alone is known once there was one. -/
theorem exists_depsView_of_readViews {v : View} (h : f.scratch.readViews = [v]) :
    ∃ view, f.depsView (.explicit [] [0]) = .ok view := by
  have hread : f.scratch.readView 0 = .ok v := by
    change f.scratch.readView (.whole 0) = .ok v
    simp [Scratch.readView, h]
  exact ⟨View.joinAll [v], by simp [depsView, hread]⟩

/-- Without promises an event goes to the end of memory. -/
theorem exists_place (hm : f.memory.Whole) (hp : f.thread.promises = []) (loc value : Int) :
    ∃ n, f.place (.write f.thread.tid loc value) = .ok (n, f.memory.length + 1, false) ∧
      f.memory.Takes f.thread.tid loc value n := by
  obtain ⟨n, hn, -, hi, -, hat⟩ := Memory.promise_spec hm (.write f.thread.tid loc value)
  refine ⟨n, ?_, hi, hat⟩
  simp [place, Memory.fulfil?, hp, hn]

/-- A write at the end of memory comes after all views. -/
theorem writeTrouble_eq_none (hb : f.Bounded) (hbound : f.scratch.bound = .infinity) (m : Memory) (req : WriteRequest)
    {addr data : View} (ha : f.depsView req.addrDeps = .ok addr) (hd : f.depsView req.dataDeps = .ok data)
    (he : req.exclusive = false) : f.writeTrouble req m req.pa (f.writePre req addr data) (f.memory.length + 1) = none := by
  have hpre := (hb.writePre req (hb.depsView ha) (hb.depsView hd)).2
  have hseen := (hb.thread.coherence req.pa).2
  have hle : View.join (f.writePre req addr data) (f.thread.coherenceOf req.pa) ≤ f.memory.length :=
    View.join_le.mpr ⟨hpre, hseen⟩
  rw [writeTrouble, if_neg (by lia), hbound, if_neg (Number.not_infinity_lt _), if_neg (by simp [he])]

end Frame

/-- What lets a frame go on as the machine does: its instruction has done nothing, no promise is left, and the cells
of the machine hold what is latest. -/
structure Frame.Present (f : Frame) (cells : Table Int) : Prop where
  whole : f.memory.Whole
  bounded : f.Bounded
  filed : f.thread.Filed
  start : f.scratch = .start
  idle : f.thread.promises = []
  held : f.memory.HeldIn cells

/-- Whether an instruction can run from a frame to some registers and cells. -/
def Op.RunsTo (op : Op) (f : Frame) (regs : Registers Int) (cells : Table Int) : Prop :=
  ∃ as g, op.instr.Runs f as g ∧ g.thread.plainRegs = regs ∧ g.thread.promises = [] ∧ g.memory.HeldIn cells

namespace Frame.Present

variable {f : Frame} {cells : Table Int} {regs : Registers Int} {w : Option (Int × Int)}

theorem movImm (h : f.Present cells) (dst : String) (value : Int) :
    (Op.movImm dst value).RunsTo f (f.thread.plainRegs.insert dst value) cells := by
  refine ⟨_, _, .ask (.writeReg f.depsView_none) .done, h.filed.plainRegs_hold _ _, ?_, h.held⟩
  rw [Thread.promises_hold, h.idle]

theorem load (h : f.Present cells) {dst addr : String} {kind : ReadKind} (hk : kind.isExplicit = true) {pa : Int}
    (hpa : f.thread.plainRegs[addr]? = some pa) (ha : pa % 8 = 0) :
    (Op.load dst addr kind).RunsTo f (f.thread.plainRegs.insert dst (FlatState.read f.memory.initial cells pa)) cells := by
  obtain ⟨held, hreg, rfl⟩ := h.filed.exists_holds hpa
  let req : ReadRequest := { pa := held.value, kind, exclusive := false, deps := .explicit [addr] [] }
  let f₁ : Frame := { f with scratch := f.scratch.addRegRead held.view }
  let r := f.memory.latest held.value
  obtain ⟨view, hview⟩ := Frame.exists_depsView_of_holds (f := f₁) hreg
  have hr : r ∈ f₁.readCandidates req req.pa view := by
    refine List.mem_filter.mpr ⟨f.memory.latest_mem_candidates _ _, ?_⟩
    simp [f₁, h.idle]
  have hbound : f₁.scratch.bound = .infinity := congrArg Scratch.bound h.start
  have hreads : (f₁.afterRead req view r).scratch.readViews = [f₁.readPost req view r] :=
    congrArg (· ++ [f₁.readPost req view r]) (congrArg Scratch.readViews h.start)
  obtain ⟨dep, hdep⟩ := Frame.exists_depsView_of_readViews hreads
  have hread : Effect.Step (.read req) f₁ r.value (f₁.afterRead req view r)
      (.read req r (f₁.readPre req view) (f₁.readPost req view r)) :=
    .read hk rfl ha hview hr (hbound ▸ Number.not_infinity_lt _)
  refine ⟨_, _, .ask (.readReg hreg) (.ask hread (.ask (.writeReg hdep) .done)), ?_, ?_, h.held⟩
  · dsimp only
    rw [(Frame.filed_afterRead (f := f₁) h.filed _ _ _).plainRegs_hold, Frame.plainRegs_afterRead, h.held.1]
  · dsimp only
    rw [Thread.promises_hold, Frame.thread_afterRead]
    exact h.idle

theorem store (h : f.Present cells) {src addr : String} {kind : WriteKind} {pa value : Int}
    (hpa : f.thread.plainRegs[addr]? = some pa) (hvalue : f.thread.plainRegs[src]? = some value) (ha : pa % 8 = 0) :
    (Op.store src addr kind).RunsTo f f.thread.plainRegs (cells.insert pa value) := by
  obtain ⟨held, hreg, rfl⟩ := h.filed.exists_holds hpa
  obtain ⟨data, hreg', rfl⟩ := h.filed.exists_holds hvalue
  let req : WriteRequest :=
    { pa := held.value, value := data.value, kind, addrDeps := .explicit [addr] [], dataDeps := .explicit [src] [] }
  let f₀ : Frame := { f with scratch := f.scratch.addRegRead held.view }
  let f₁ : Frame := { f₀ with scratch := f₀.scratch.addRegRead data.view }
  have hs : Effect.Step (.readReg addr) f held.value f₀ .other := .readReg hreg
  have hs' : Effect.Step (.readReg src) f₀ data.value f₁ .other := .readReg hreg'
  have hwhole : f₀.memory.Whole := h.whole
  have hbounded : f₁.Bounded := (h.bounded.step h.whole hs).step hwhole hs'
  obtain ⟨view, hview⟩ := Frame.exists_depsView_of_holds (f := f₁) hreg
  obtain ⟨view', hview'⟩ := Frame.exists_depsView_of_holds (f := f₁) hreg'
  obtain ⟨n, hplace, htakes⟩ := Frame.exists_place (f := f₁) h.whole h.idle req.pa req.value
  have hbound : f₁.scratch.bound = .infinity := congrArg Scratch.bound h.start
  have htrouble := Frame.writeTrouble_eq_none hbounded hbound n req hview hview' rfl
  refine ⟨_, _, .ask hs (.ask hs' (.ask (.write rfl ha hview hview' hplace htrouble) .done)), ?_, ?_,
    h.held.takes htakes⟩
  · rw [Frame.plainRegs_afterWrite]
  · rw [Frame.thread_afterWrite]
    exact h.idle

theorem branchOn (h : f.Present cells) {reg : String} (target : Int) {value : Int}
    (hvalue : f.thread.plainRegs[reg]? = some value) : (Op.branchOn reg target).RunsTo f f.thread.plainRegs cells := by
  obtain ⟨held, hreg, rfl⟩ := h.filed.exists_holds hvalue
  obtain ⟨view, hview⟩ :=
    Frame.exists_depsView_of_holds (f := { f with scratch := f.scratch.addRegRead held.view }) hreg
  exact ⟨_, _, .ask (.readReg hreg) (.ask (.announceBranch hview) .done), rfl, h.idle, h.held⟩

theorem dmb (h : f.Present cells) (kind : BarrierKind) : (Op.dmb kind).RunsTo f f.thread.plainRegs cells :=
  ⟨_, _, .ask (.dmb (by decide)) .done, rfl, h.idle, h.held⟩

theorem dsb (h : f.Present cells) (kind : BarrierKind) : (Op.dsb kind).RunsTo f f.thread.plainRegs cells :=
  ⟨_, _, .ask (.dsb (by decide)) .done, rfl, h.idle, h.held⟩

theorem isb (h : f.Present cells) : Op.isb.RunsTo f f.thread.plainRegs cells :=
  ⟨_, _, .ask .isb .done, rfl, h.idle, h.held⟩

end Frame.Present

/-- An instruction runs as the machine runs it at once, unless it is a load of a kind that is not explicit. -/
theorem Op.runsTo_of_exec {op : Op} {f : Frame} {cells : Table Int} {regs : Registers Int} {w : Option (Int × Int)}
    (h : f.Present cells) (hk : ∀ dst addr kind, op = .load dst addr kind → kind.isExplicit = true)
    (he : op.exec (FlatState.read f.memory.initial cells) f.thread.plainRegs = some (regs, w)) :
    op.RunsTo f regs (FlatState.write cells w) := by
  cases op with
  | movImm dst value =>
    cases he
    exact h.movImm dst value
  | load dst addr kind =>
    simp only [exec, Option.bind_eq_some_iff, Option.ite_none_right_eq_some, Option.some.injEq, Prod.mk.injEq] at he
    obtain ⟨pa, hpa, ha, rfl, rfl⟩ := he
    exact h.load (hk dst addr kind rfl) hpa ha
  | store src addr kind =>
    simp only [exec, Option.bind_eq_some_iff, Option.ite_none_right_eq_some, Option.some.injEq, Prod.mk.injEq] at he
    obtain ⟨pa, hpa, value, hvalue, ha, rfl, rfl⟩ := he
    exact h.store hpa hvalue ha
  | branchOn reg target =>
    simp only [exec, Option.map_eq_some_iff, Prod.mk.injEq] at he
    obtain ⟨value, hvalue, rfl, rfl⟩ := he
    exact h.branchOn target hvalue
  | dmb kind =>
    cases he
    exact h.dmb kind
  | dsb kind =>
    cases he
    exact h.dsb kind
  | isb =>
    cases he
    exact h.isb

/-- A load of a kind that is not explicit fails. -/
theorem Shape.load_fails {dst addr : String} {kind : ReadKind} (hk : kind.isExplicit = false) {thread : Thread} {held : Reg}
    (hreg : thread.holds addr = .ok held) (m : Memory) (n : Number) :
    ∃ x, .fail x ∈ ((Shape.load dst addr kind false).runOn thread m).leaves n := by
  let f : Frame := { scratch := Scratch.start.addRegRead held.view, thread, memory := m }
  let req : ReadRequest := { pa := held.value, kind, exclusive := false, deps := .explicit [addr] [] }
  have hrun : (Shape.load dst addr kind false).runOn thread m = (f.read req).guarded.bind fun (g, value) =>
      (Shape.only (.writeReg dst value (.explicit [] [0]))).run g := by
    have hreg : Frame.readReg { thread, memory := m } addr = .ok (f, held.value) := by
      simp only [Frame.readReg, hreg]
      rfl
    simp only [Shape.load, Instr.runOn, Instr.run, Effect.run, hreg]
    rfl
  rw [hrun]
  cases kind with
  | walk => exact ⟨_, List.mem_singleton_self _⟩
  | fetch => exact ⟨_, List.mem_singleton_self _⟩
  | plain | acquire | acquirePC => cases hk

/-! ### States -/

/-- Whether a state without promises has the places and registers of the machine's threads, and the machine's cells
hold what is latest of its memory. -/
structure State.Mirrors (s : State) (z : FlatState) : Prop where
  threads_eq : z.threads = s.threads.map fun slot => ⟨slot.pc, slot.thread.plainRegs⟩
  fulfilled : s.Fulfilled
  held : s.memory.HeldIn z.cells

namespace State.Mirrors

variable {p : Program} {code : List (List Op)} {s : State} {z z' : FlatState}

theorem start (p : Program) : p.start.Mirrors (FlatState.start p) where
  threads_eq := by
    refine List.ext_getElem? ?_
    intro tid
    rw [FlatState.start, List.getElem?_map, List.getElem?_map, Program.threads_start, Option.map_map]
    rfl
  fulfilled slot hs := by
    obtain ⟨x, -, rfl⟩ := List.mem_map.mp hs
    rfl
  held := Memory.heldIn_empty _

theorem withSlot (h : s.Mirrors z) {tid : Nat} {slot : Slot} {g : Frame} {regs : Registers Int} {cells : Table Int}
    (hregs : g.thread.plainRegs = regs) (hidle : g.thread.promises = []) (hheld : g.memory.HeldIn cells) :
    (s.withSlot tid { slot with pc := slot.pc + 1, thread := g.thread } g.memory).Mirrors
      ⟨z.threads.set tid ⟨slot.pc + 1, regs⟩, cells⟩ where
  threads_eq := by
    rw [State.withSlot, List.map_set, ← h.threads_eq]
    dsimp only
    rw [hregs]
  fulfilled x hx := by
    rcases List.mem_or_eq_of_mem_set hx with hx | rfl
    · exact h.fulfilled x hx
    · exact hidle
  held := hheld

/-- Each step of the machine is a move of the program, unless the exploration fails. -/
theorem step {o : Options} {r : Explored} (hr : (explore p o).result = .ok r) (hs : p.Reaches s) (h : s.Mirrors z)
    (hcode : p.threads.map ThreadProgram.code = code.map (List.map Op.instr)) (hz : FlatState.Step p.image code z z') :
    ∃ s', s.Move p s' ∧ s'.Mirrors z' := by
  cases hz with
  | @exec tid ops t op regs w hops ht hop he =>
    rw [h.threads_eq, List.getElem?_map, Option.map_eq_some_iff] at ht
    obtain ⟨slot, hslot, rfl⟩ := ht
    have hthread := congrArg (fun l => l[tid]?) hcode
    simp only [List.getElem?_map, hops, Option.map_some, Option.map_eq_some_iff] at hthread
    obtain ⟨t, ht, hinstr⟩ := hthread
    have hi : t.code[slot.pc]? = some op.instr := by rw [hinstr, List.getElem?_map, hop, Option.map_some]
    obtain ⟨ds, run⟩ := Program.reaches_iff.mp hs
    have hfiled := (frameInvariant_filed.slot p).holds run hslot
    have hpresent : Frame.Present { thread := slot.thread, memory := s.memory } z.cells :=
      ⟨run.fits.whole, (frameInvariant_bounded.slot p).holds run hslot, hfiled, rfl,
        h.fulfilled slot (List.mem_of_getElem? hslot), h.held⟩
    have hexplicit (dst addr : String) (kind : ReadKind) (e : op = .load dst addr kind) : kind.isExplicit = true := by
      by_contra hk
      subst e
      simp only [Op.exec, Option.bind_eq_some_iff] at he
      obtain ⟨pa, hpa, -⟩ := he
      obtain ⟨held, hreg, -⟩ := hfiled.exists_holds hpa
      obtain ⟨cache, hgoing⟩ := exists_not_fail_of_reaches hr hs ht hslot hi
      have hreg : (slot.thread.withCache cache).holds addr = .ok held := hreg
      obtain ⟨x, hx⟩ := Shape.load_fails (by simpa using hk) hreg s.memory o.maxChooseBits
      exact hgoing x hx
    rw [← run.fits.image_eq] at he
    obtain ⟨as, g, hruns, hregs, hidle, hheld⟩ := Op.runsTo_of_exec hpresent hexplicit he
    exact ⟨_, .run ht hslot hi (Instr.yields_run.mpr ⟨as, hruns⟩), h.withSlot hregs hidle hheld⟩

end State.Mirrors

/-- The machine at its end is mirrored by a state in which nothing is left to do. -/
theorem State.Mirrors.finished {p : Program} {code : List (List Op)} {s : State} {z : FlatState} (h : s.Mirrors z)
    (hcode : p.threads.map ThreadProgram.code = code.map (List.map Op.instr)) (hz : z.Finished code) : s.Finished p := by
  intro tid t slot ht hslot
  have hthread := congrArg (fun l => l[tid]?) hcode
  simp only [List.getElem?_map, ht, Option.map_some] at hthread
  obtain ⟨ops, hops, hinstr⟩ := Option.map_eq_some_iff.mp hthread.symm
  have hflat : z.threads[tid]? = some ⟨slot.pc, slot.thread.plainRegs⟩ := by
    rw [h.threads_eq, List.getElem?_map, hslot, Option.map_some]
  rw [← hinstr, List.length_map]
  exact hz tid ops _ hops hflat

/-- Whatever the sequentially consistent machine can leave, after whole instructions in program order over one flat
memory, an exploration that ends has found: the same registers and the same memory. -/
theorem sequential_mem_finals {p : Program} {o : Options} {r : Explored} {code : List (List Op)}
    (hcode : p.threads.map ThreadProgram.code = code.map (List.map Op.instr)) (h : (explore p o).result = .ok r)
    {z : FlatState} (hz : Relation.ReflTransGen (FlatState.Step p.image code) (FlatState.start p) z)
    (hend : z.Finished code) : z.final p.image ∈ r.finals := by
  have hmirrored : ∃ s, p.Reaches s ∧ s.Mirrors z := by
    clear hend
    induction hz with
    | refl => exact ⟨_, .refl, .start p⟩
    | tail _ hstep ih =>
      obtain ⟨s, hs, hm⟩ := ih
      obtain ⟨s', hmove, hm'⟩ := hm.step h hs hcode hstep
      exact ⟨s', hs.tail hmove, hm'⟩
  obtain ⟨s, hs, hm⟩ := hmirrored
  obtain ⟨f, hf, hfinal⟩ := exists_final_of_reaches h hs (hm.finished hcode hend) hm.fulfilled
  obtain ⟨ds, run⟩ := Program.reaches_iff.mp hs
  rw [State.final, bind_eq_ok] at hfinal
  obtain ⟨image, himage, hfinal⟩ := hfinal
  have hz := FlatState.final_eq himage hm.held.1 hm.held.2
  have hregs : z.threads.map FlatThread.regs = s.threads.map fun slot => slot.thread.plainRegs := by
    rw [hm.threads_eq, List.map_map]
    rfl
  rw [run.fits.image_eq, hregs] at hz
  rw [hz]
  cases hfinal
  exact hf

/-! ### Turns -/

namespace FlatState

variable {image : Image} {code : List (List Op)}

/-- The state after the next instruction of a thread. -/
def turn (image : Image) (code : List (List Op)) (tid : Nat) (s : FlatState) : Option FlatState := do
  let ops ← code[tid]?
  let t ← s.threads[tid]?
  let op ← ops[t.pc]?
  let (regs, w) ← op.exec (read image s.cells) t.regs
  return ⟨s.threads.set tid ⟨t.pc + 1, regs⟩, write s.cells w⟩

theorem step_iff {s s' : FlatState} : Step image code s s' ↔ ∃ tid, turn image code tid s = some s' := by
  simp only [turn, Option.bind_eq_bind, Option.pure_def, Option.bind_eq_some_iff, Option.some.injEq, Prod.exists]
  constructor
  · rintro ⟨hops, ht, hop, he⟩
    exact ⟨_, _, hops, _, ht, _, hop, _, _, he, rfl⟩
  · rintro ⟨tid, ops, hops, t, ht, op, hop, regs, w, he, rfl⟩
    exact .exec hops ht hop he

/-- The state after the threads have taken turns. -/
def turns (image : Image) (code : List (List Op)) (tids : List Nat) (s : FlatState) : Option FlatState :=
  tids.foldlM (fun s tid => turn image code tid s) s

theorem reaches_of_turns : ∀ {tids : List Nat} {s z : FlatState}, turns image code tids s = some z →
    Relation.ReflTransGen (Step image code) s z
  | [], s, z, h => by
    cases h
    exact .refl
  | tid :: tids, s, z, h => by
    rw [turns, List.foldlM_cons, Option.bind_eq_bind, Option.bind_eq_some_iff] at h
    obtain ⟨s', hs, h⟩ := h
    exact .head (step_iff.mpr ⟨tid, hs⟩) (reaches_of_turns h)

theorem finished_of_pcs_eq {z : FlatState} (h : z.threads.map FlatThread.pc = code.map List.length) : z.Finished code := by
  intro tid ops t hops ht
  have := congrArg (fun l => l[tid]?) h
  simp only [List.getElem?_map, hops, ht, Option.map_some, Option.some.injEq] at this
  exact Nat.le_of_eq this.symm

end FlatState

/-- A thread stores to two cells, and another one loads them in the other order. -/
def messagePassing : List (List Op) :=
  [[.store "X1" "X2" .plain, .store "X1" "X4" .plain], [.load "X5" "X4" .plain, .load "X6" "X2" .plain]]

/-- The program of message passing, in which the second store may be promised. -/
def messagePassingProgram : Program where
  threads := [
    { code := messagePassing[0].map Op.instr
      regs := .ofList [("X1", (1 : Int)), ("X2", 0), ("X4", 8)]
      promisable := [(8, 1)] },
    { code := messagePassing[1].map Op.instr, regs := .ofList [("X2", (0 : Int)), ("X4", 8)] }]

theorem sequential_mem_finals_messagePassing : ∃ r z, (explore messagePassingProgram {}).result = .ok r ∧
    r.finals.length = 4 ∧
    Relation.ReflTransGen (FlatState.Step messagePassingProgram.image messagePassing)
      (FlatState.start messagePassingProgram) z ∧
    z.Finished messagePassing ∧ z.threads.map (·.regs["X6"]?) = [none, some 1] ∧
    z.final messagePassingProgram.image ∈ r.finals := by
  obtain ⟨r, hr, four⟩ := exists_result_of_length
    (show (explore messagePassingProgram {}).result.toOption.map (·.finals.length) = some 4 by decide +kernel)
  have path : (FlatState.turns messagePassingProgram.image messagePassing [0, 1, 0, 1]
      (FlatState.start messagePassingProgram)).any (fun z =>
        decide (z.threads.map FlatThread.pc = messagePassing.map List.length) &&
          decide (z.threads.map (·.regs["X6"]?) = [none, some 1])) = true := by decide +kernel
  obtain ⟨z, hz, hP⟩ := (Option.any_eq_true _ _).mp path
  rw [Bool.and_eq_true, decide_eq_true_eq, decide_eq_true_eq] at hP
  have hreach := FlatState.reaches_of_turns hz
  have hend := FlatState.finished_of_pcs_eq hP.1
  exact ⟨r, z, hr, four, hreach, hend, hP.2, sequential_mem_finals rfl hr hreach hend⟩

end Litmus
