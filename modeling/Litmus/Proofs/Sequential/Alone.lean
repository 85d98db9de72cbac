import Litmus.Proofs.Exploration.Coherence
import Litmus.Proofs.Sequential.Simulation
import Mathlib.Data.List.Nodup

/-!
A lone thread is sequential. The writes of a thread that is alone are all its own: those that it has done are no
later than its view of their cell, and the others are promises, which it never reads. Main facts: every load of a
lone thread reads what it last stored to the cell, whatever it has promised and when; and an exploration of a program
with one thread that ends has found one final, what its instructions leave when run one after the other.
-/

namespace Litmus

/-! ### What a lone thread has done -/

/-- What links memory and the promises of a lone thread to the cells that it has stored to. -/
structure Frame.Alone (f : Frame) (cells : Table Int) : Prop where
  done : ∀ t i loc v, f.memory.at? t = some (.write i loc v) → t ∈ f.thread.promises ∨ t ≤ f.thread.coherenceOf loc
  held : ∀ loc, cells[loc]? = none ∧ f.thread.coherenceOf loc = 0 ∨
    ∃ i v, cells[loc]? = some v ∧ f.memory.at? (f.thread.coherenceOf loc) = some (.write i loc v)

namespace Frame.Alone

variable {f g : Frame} {cells : Table Int}

theorem start (tid : Int) (regs : Registers Int) (image : Image) :
    Frame.Alone { thread := .start tid regs, memory := .ofImage image } ∅ where
  done t i loc v ht := by
    have hpos := Memory.pos_of_at? ht
    have hle : t ≤ 0 := Memory.le_length_of_at? ht
    lia
  held _ := .inl ⟨Std.ExtTreeMap.getElem?_empty, rfl⟩

/-- What does not touch memory, promises or the views of cells changes nothing. -/
theorem quiet (h : f.Alone cells) (hm : g.memory = f.memory) (hp : g.thread.promises = f.thread.promises)
    (hc : g.thread.coherence = f.thread.coherence) : g.Alone cells := by
  obtain ⟨hdone, hheld⟩ := h
  exact ⟨by simpa only [hm, hp, Thread.coherenceOf, hc] using hdone,
    by simpa only [hm, Thread.coherenceOf, hc] using hheld⟩

/-- The view of a cell is the initial one or that of a write to it. -/
theorem seen (h : f.Alone cells) (loc : Int) : f.thread.coherenceOf loc = 0 ∨
    ∃ i v, f.memory.at? (f.thread.coherenceOf loc) = some (.write i loc v) :=
  (h.held loc).imp And.right fun ⟨i, v, _, hat⟩ => ⟨i, v, hat⟩

/-- An explicit read returns what the cell holds: all else that it might return is a promise. -/
theorem read_eq (h : f.Alone cells) {req : ReadRequest} {addr : View} {r : Memory.Read}
    (hr : r ∈ f.readCandidates req req.pa addr) :
    r.time = f.thread.coherenceOf req.pa ∧ r.value = FlatState.read f.memory.initial cells req.pa := by
  obtain ⟨hle, hnot, hwrite⟩ := Frame.readCandidates_spec hr (h.seen req.pa)
  have htime : r.time = f.thread.coherenceOf req.pa := by
    refine Int.le_antisymm ?_ hle
    rcases hwrite with ⟨i, hi⟩ | rfl
    · exact (h.done _ _ _ _ hi).resolve_left hnot
    · rcases h.seen req.pa with h0 | ⟨i, v, hv⟩
      · exact Int.le_of_eq h0.symm
      · exact Int.le_of_lt (Memory.pos_of_at? hv)
  refine ⟨htime, ?_⟩
  rw [FlatState.read, Std.ExtTreeMap.getD_eq_getD_getElem?]
  rcases h.held req.pa with ⟨hnone, h0⟩ | ⟨i, v, hsome, hv⟩
  · rw [hnone]
    rcases hwrite with ⟨i, hi⟩ | rfl
    · exact absurd (Memory.pos_of_at? hi) (by lia)
    · rfl
  · rw [hsome]
    rcases hwrite with ⟨i', hi⟩ | rfl
    · rw [htime, hv] at hi
      cases hi
      rfl
    · exact absurd (Memory.pos_of_at? hv) (by dsimp only at htime; lia)

theorem afterRead (h : f.Alone cells) {req : ReadRequest} {addr : View} {r : Memory.Read}
    (hr : r ∈ f.readCandidates req req.pa addr) : (f.afterRead req addr r).Alone cells := by
  have htime := (h.read_eq hr).1
  have hview (loc : Int) : (f.afterRead req addr r).thread.coherenceOf loc = f.thread.coherenceOf loc := by
    rw [Frame.thread_afterRead, Thread.coherenceOf_insert rfl, htime, View.join, Int.max_self]
    split
    · next e => rw [e]
    · rfl
  obtain ⟨hdone, hheld⟩ := h
  constructor
  · intro t i loc v ht
    rw [hview, Frame.thread_afterRead]
    exact hdone t i loc v ht
  · intro loc
    rw [hview]
    exact hheld loc

/-- A write is what its cell holds from then on. If it was promised, the promise is kept. -/
theorem afterWrite (h : f.Alone cells) {req : WriteRequest} {operands pre t : View} {memory : Memory} {promised : Bool}
    (hplaced : f.Placed (.write f.thread.tid req.pa req.value) memory t promised)
    (ht : f.writeTrouble req memory req.pa pre t = none) :
    (f.afterWrite req operands t memory promised).Alone (cells.insert req.pa req.value) := by
  have hlt := (Frame.lt_of_writeTrouble ht).2
  have hview (loc : Int) : (f.afterWrite req operands t memory promised).thread.coherenceOf loc =
      if loc = req.pa then t else f.thread.coherenceOf loc := by
    rw [Frame.thread_afterWrite, Thread.coherenceOf_insert rfl, View.join, Int.max_eq_right (Int.le_of_lt hlt)]
  constructor
  · intro t' i loc v ht'
    rw [hview, Frame.thread_afterWrite]
    rcases hplaced.at?_cases t' _ ht' with hold | ⟨-, rfl, he⟩
    · rcases h.done t' i loc v hold with hp | hle
      · rcases @Thread.mem_fulfilled _ promised _ t hp with hp | ⟨-, rfl⟩
        · exact .inl hp
        · -- the promise that was kept is this write
          have hloc := hplaced.at?_eq.symm.trans ht'
          cases hloc
          exact .inr (Int.le_of_eq (if_pos rfl).symm)
      · right
        split
        · next e =>
          subst e
          exact Int.le_of_lt (Int.lt_of_le_of_lt hle hlt)
        · exact hle
    · cases he
      exact .inr (Int.le_of_eq (if_pos rfl).symm)
  · intro loc
    rw [hview, Std.ExtTreeMap.getElem?_insert]
    simp only [Std.compare_eq_iff_eq, eq_comm (a := req.pa)]
    split
    · next e => exact .inr ⟨_, _, rfl, e ▸ hplaced.at?_eq⟩
    · exact (h.held loc).imp_right fun ⟨i, v, hv, hat⟩ => ⟨i, v, hv, hplaced.grown.at?_eq_some hat⟩

theorem promise {thread : Thread} {m : Memory} {loc value : Int} {time : View}
    (h : Frame.Alone { thread, memory := m } cells) (hm : m.Whole)
    (hp : Frame.promiseWrite { thread, memory := m } loc value = .ok (g, time)) :
    Frame.Alone { thread := g.thread, memory := g.memory } cells := by
  obtain ⟨-, hg, -, -, hext, -, hat⟩ := Frame.promiseWrite_spec hm hp
  have hthread : g.thread = thread.pushPromise time := by rw [hg]
  rw [hthread]
  constructor
  · intro t i l v ht
    dsimp only at ht
    rw [hat] at ht
    split at ht
    · next e => exact .inl (List.mem_append_right _ (List.mem_singleton.mpr e))
    · exact (h.done t i l v ht).imp_left (List.mem_append_left _)
  · intro l
    exact (h.held l).imp_right fun ⟨i, v, hv, hl⟩ => ⟨i, v, hv, hext.at?_eq_some hl⟩

/-- Once no promise is left the cells hold what is latest of memory. -/
theorem heldIn (h : f.Alone cells) (hp : f.thread.promises = []) : f.memory.HeldIn cells := by
  have newest {t : View} {i loc v : Int} (ht : f.memory.at? t = some (.write i loc v)) :
      t ≤ f.thread.coherenceOf loc :=
    (h.done t i loc v ht).resolve_left (by rw [hp]; exact List.not_mem_nil)
  constructor
  · intro loc
    rw [FlatState.read, Std.ExtTreeMap.getD_eq_getD_getElem?]
    rcases h.held loc with ⟨hnone, h0⟩ | ⟨i, v, hsome, hv⟩
    · have : f.memory.latest loc = ⟨f.memory.initial.readCell loc, 0⟩ :=
        Memory.latest_eq_iff.mpr ⟨.inr rfl, fun t i v ht => h0 ▸ newest ht⟩
      rw [hnone, this]
      rfl
    · have : f.memory.latest loc = ⟨v, f.thread.coherenceOf loc⟩ :=
        Memory.latest_eq_iff.mpr ⟨.inl ⟨i, hv⟩, fun t i v ht => newest ht⟩
      rw [hsome, this]
      rfl
  · intro loc
    rw [Memory.mem_locations, Std.ExtTreeMap.mem_iff_isSome_getElem?]
    rcases h.held loc with ⟨hnone, h0⟩ | ⟨i, v, hsome, hv⟩
    · rw [hnone]
      refine ⟨fun hsome => absurd hsome Bool.false_ne_true, ?_⟩
      rintro ⟨t, i, v, ht⟩
      have hpos := Memory.pos_of_at? ht
      have hle := newest ht
      lia
    · rw [hsome]
      exact ⟨fun _ => ⟨_, i, v, hv⟩, fun _ => rfl⟩

end Frame.Alone

/-! ### Instructions of a lone thread -/

/-- What accesses nothing leaves memory, promises and the views of cells. -/
theorem Op.untouched {op : Op} {f g : Frame} {as : List Action} (hop : op.isAccess = false) (r : op.instr.Runs f as g) :
    g.memory = f.memory ∧ g.thread.promises = f.thread.promises ∧ g.thread.coherence = f.thread.coherence := by
  cases op with
  | load | store => cases hop
  | movImm =>
    cases r with | ask h r =>
    cases r
    cases h with | writeReg =>
    rw [Thread.hold_eq]
    exact ⟨rfl, rfl, rfl⟩
  | branchOn =>
    cases r with | ask h r =>
    cases h with | readReg =>
    cases r with | ask h r =>
    cases r
    cases h with | announceBranch =>
    exact ⟨rfl, rfl, rfl⟩
  | dmb =>
    cases r with | ask h r =>
    cases r
    cases h
    exact ⟨rfl, rfl, rfl⟩
  | dsb =>
    cases r with | ask h r =>
    cases r
    cases h
    exact ⟨rfl, rfl, rfl⟩
  | isb =>
    cases r with | ask h r =>
    cases r
    cases h
    exact ⟨rfl, rfl, rfl⟩

theorem Op.isStore_of_isAccess {op : Op} (hop : op.isAccess = false) : op.isStore = false := by
  cases op with
  | store => cases hop
  | _ => rfl

/-- What accesses nothing does not depend on what cells hold. -/
theorem Op.exec_eq_of_isAccess {op : Op} (hop : op.isAccess = false) (read read' : Int → Int) (regs : Registers Int) :
    op.exec read regs = op.exec read' regs := by
  cases op with
  | load | store => cases hop
  | _ => rfl

/-- What a lone thread runs is what the machine does at once. -/
theorem Op.exec_of_runs {op : Op} {f g : Frame} {as : List Action} {cells : Table Int} (h : f.Alone cells)
    (hm : f.memory.Whole) (hb : f.Bounded) (hfiled : f.thread.Filed) (hacc : f.thread.Accounted) (r : op.instr.Runs f as g) :
    ∃ w, op.exec (FlatState.read f.memory.initial cells) f.thread.plainRegs = some (g.thread.plainRegs, w) ∧
      g.Alone (FlatState.write cells w) := by
  by_cases hop : op.isAccess = true
  · cases op with
    | load dst addr kind =>
      obtain ⟨req, held, view, dep, rd, f', hheld, hf', hpa, ha, hd, hr, rfl⟩ := RunsAt.load_runs r
      have hthread : f'.thread = f.thread := by rw [hf']
      have halone : f'.Alone cells := by
        rw [hf']
        exact h.quiet rfl rfl rfl
      have hvalue : rd.value = FlatState.read f.memory.initial cells req.pa := by
        rw [(halone.read_eq hr).2, hf']
      have hregs : (f'.afterRead req view rd).thread.plainRegs = f.thread.plainRegs := by
        rw [Frame.plainRegs_afterRead, hthread]
      refine ⟨none, ?_, ?_⟩
      · dsimp only
        rw [(Frame.filed_afterRead (hthread ▸ hfiled) req view rd).plainRegs_hold, hregs, Op.exec,
          hfiled.plainRegs_of_holds hheld, hvalue, hpa, Option.bind_some, if_pos (hpa ▸ ha)]
      · refine (halone.afterRead hr).quiet rfl ?_ ?_
        · dsimp only
          rw [Thread.hold_eq]
        · dsimp only
          rw [Thread.hold_eq]
    | store src addr kind =>
      obtain ⟨req, heldAddr, heldSrc, addrView, dataView, t, memory, promised, f', haddr, hsrc, hf', hpa, hvalue, ha, hp,
        ht, rfl⟩ := RunsAt.store_runs r
      have hthread : f'.thread = f.thread := by rw [hf']
      have halone : f'.Alone cells := by
        rw [hf']
        exact h.quiet rfl rfl rfl
      have hplaced : f'.Placed (.write f'.thread.tid req.pa req.value) memory t promised :=
        hthread ▸ Frame.placed (by rw [hf']; exact hm) hp
      refine ⟨some (req.pa, req.value), ?_, halone.afterWrite hplaced ht⟩
      rw [Frame.plainRegs_afterWrite, hthread, Op.exec, hfiled.plainRegs_of_holds haddr, hfiled.plainRegs_of_holds hsrc,
        hpa, hvalue, Option.bind_some, Option.bind_some, if_pos (hpa ▸ ha)]
    | _ => cases hop
  · have hop : op.isAccess = false := by simpa using hop
    obtain ⟨hmemory, hpromises, hcoherence⟩ := op.untouched hop r
    have hquiet : g.Alone (FlatState.write cells none) := h.quiet hmemory hpromises hcoherence
    obtain ⟨stage, ⟨w, he, -⟩, -⟩ := Op.exists_runsAt hb hm hfiled hacc (fun ha => absurd ha (by simp [hop])) r
    obtain rfl := Op.eq_none_of_exec he (Op.isStore_of_isAccess hop)
    exact ⟨none, (Op.exec_eq_of_isAccess hop _ _ _).trans he, hquiet⟩

/-! ### What the machine cannot do fails -/

namespace Instr

variable {f : Frame} {n : Number}

theorem run_readReg {reg : String} {next : Int → Instr} {held : Reg} (h : f.thread.holds reg = .ok held) :
    (Instr.ask (.readReg reg) next).run f =
      (next held.value).run { f with scratch := f.scratch.addRegRead held.view } := by
  have hreg : f.readReg reg = .ok ({ f with scratch := f.scratch.addRegRead held.view }, held.value) := by
    rw [Frame.readReg, h]
    rfl
  rw [run, Effect.run, hreg]
  rfl

/-- An instruction that reads a register without a value fails. -/
theorem readReg_fails {reg : String} (h : ∀ held, f.thread.holds reg ≠ .ok held) (next : Int → Instr) :
    ∃ x, .fail x ∈ ((Instr.ask (.readReg reg) next).run f).leaves n := by
  cases he : f.thread.holds reg with
  | ok held => exact absurd he (h held)
  | error e =>
    have hreg : f.readReg reg = .error e := by
      rw [Frame.readReg, he]
      rfl
    rw [run, Effect.run, hreg]
    exact ⟨_, List.mem_singleton_self _⟩

theorem checkLocation_eq_error {pa : Int} (h : pa % 8 ≠ 0) : ∃ e, checkLocation pa = .error e := by
  cases he : checkLocation pa with
  | ok loc => exact absurd (checkLocation_eq_ok.mp he).1 h
  | error e => exact ⟨e, rfl⟩

/-- An explicit read of what is no cell fails. -/
theorem read_fails {req : ReadRequest} (hk : req.kind.isExplicit = true) (hs : req.size = 8) (ha : req.pa % 8 ≠ 0)
    (next : Int → Instr) : ∃ x, .fail x ∈ ((Instr.ask (.read req) next).run f).leaves n := by
  obtain ⟨e, he⟩ := checkLocation_eq_error ha
  have hread : f.read req = .fault e := by
    rw [Frame.read, if_neg (by rintro hf; rw [hf] at hk; cases hk), if_neg (by simp [hs]),
      if_neg (by rintro hw; rw [hw] at hk; cases hk), Frame.readExplicit, he]
    rfl
  rw [run, Effect.run, hread]
  exact ⟨_, List.mem_singleton_self _⟩

/-- A write of what is no cell fails. -/
theorem write_fails {req : WriteRequest} (hs : req.size = 8) (ha : req.pa % 8 ≠ 0) (next : Bool → Instr) :
    ∃ x, .fail x ∈ ((Instr.ask (.write req) next).run f).leaves n := by
  obtain ⟨e, he⟩ := checkLocation_eq_error ha
  have hwrite : f.write req = .fault e := by
    rw [Frame.write, if_neg (by simp [hs]), he]
    rfl
  rw [run, Effect.run, hwrite]
  exact ⟨_, List.mem_singleton_self _⟩

end Instr

/-- What the machine cannot do at once fails. -/
theorem Op.fails_of_exec {op : Op} {thread : Thread} {read : Int → Int} (hfiled : thread.Filed)
    (he : op.exec read thread.plainRegs = none) (m : Memory) (n : Number) :
    ∃ x, .fail x ∈ (op.instr.runOn thread m).leaves n := by
  have unheld {reg : String} (h : thread.plainRegs[reg]? = none) (held : Reg) : thread.holds reg ≠ .ok held := by
    intro hheld
    rw [hfiled.plainRegs_of_holds hheld] at h
    cases h
  cases op with
  | movImm | dmb | dsb | isb => cases he
  | branchOn reg target => exact Instr.readReg_fails (unheld (Option.map_eq_none_iff.mp he)) _
  | load dst addr kind =>
    cases hpa : thread.plainRegs[addr]? with
    | none => exact Instr.readReg_fails (unheld hpa) _
    | some pa =>
      rw [Op.exec, hpa, Option.bind_some] at he
      have ha : pa % 8 ≠ 0 := by
        intro ha
        rw [if_pos ha] at he
        cases he
      obtain ⟨held, hheld, rfl⟩ := hfiled.exists_holds hpa
      cases hk : kind.isExplicit with
      | false => exact Shape.load_fails hk hheld m n
      | true =>
        rw [Op.instr, Shape.load, Instr.runOn, Instr.run_readReg hheld]
        exact Instr.read_fails hk rfl ha _
  | store src addr kind =>
    cases hpa : thread.plainRegs[addr]? with
    | none => exact Instr.readReg_fails (unheld hpa) _
    | some pa =>
      obtain ⟨held, hheld, rfl⟩ := hfiled.exists_holds hpa
      rw [Op.instr, Shape.store, Instr.runOn, Instr.run_readReg hheld]
      cases hvalue : thread.plainRegs[src]? with
      | none => exact Instr.readReg_fails (unheld hvalue) _
      | some value =>
        rw [Op.exec, hpa, hvalue, Option.bind_some, Option.bind_some] at he
        have ha : held.value % 8 ≠ 0 := by
          intro ha
          rw [if_pos ha] at he
          cases he
        obtain ⟨data, hdata, rfl⟩ := hfiled.exists_holds hvalue
        rw [Instr.run_readReg (by exact hdata)]
        exact Instr.write_fails rfl ha _

/-! ### Programs of one thread -/

namespace FlatState

variable {image : Image} {code : List (List Op)} {tid : Nat} {s : FlatState}

/-- The last of some turns comes after the others. -/
theorem turns_succ (n : Nat) : turns image code (List.replicate (n + 1) tid) s =
    (turns image code (List.replicate n tid) s).bind (turn image code tid) := by
  rw [turns, List.replicate_succ', List.foldlM_append]
  simp [turns]

/-- The turn of a lone thread. -/
theorem turn_alone {ops : List Op} {op : Op} {pc : Nat} {regs regs' : Registers Int} {cells : Table Int}
    {w : Option (Int × Int)} (hop : ops[pc]? = some op) (he : op.exec (read image cells) regs = some (regs', w)) :
    turn image [ops] 0 ⟨[⟨pc, regs⟩], cells⟩ = some ⟨[⟨pc + 1, regs'⟩], write cells w⟩ := by
  simp [turn, hop, he]

end FlatState

section

variable {p : Program} {t : ThreadProgram} {ops : List Op} (hthreads : p.threads = [t]) (hcode : t.code = ops.map Op.instr)

include hthreads hcode

theorem codes_alone : p.threads.map ThreadProgram.code = [ops].map (List.map Op.instr) := by
  rw [hthreads, List.map_singleton, hcode, List.map_singleton]

/-- In every run of a lone thread its registers, and the cells that it has stored to, are those of its instructions
run one after the other. -/
theorem Program.Run.alone {ds : List Deed} {s : State} (r : p.Run ds s) : ∃ slot cells, s.threads = [slot] ∧
    slot.pc ≤ ops.length ∧
    FlatState.turns p.image [ops] (List.replicate slot.pc 0) (FlatState.start p) =
      some ⟨[⟨slot.pc, slot.thread.plainRegs⟩], cells⟩ ∧
    Frame.Alone { thread := slot.thread, memory := s.memory } cells := by
  have only {α : Type} {a b : α} {l : List α} {tid : Nat} (hl : l = [a]) (h : l[tid]? = some b) : tid = 0 ∧ b = a := by
    rw [hl, List.getElem?_singleton] at h
    split at h
    · next e =>
      cases h
      exact ⟨e, rfl⟩
    · cases h
  induction r with
  | start =>
    refine ⟨{ pc := 0, promised := [], thread := .start 0 t.regs }, ∅, ?_, Nat.zero_le _, ?_, .start _ _ _⟩
    · rw [Program.start, hthreads]
      rfl
    · rw [List.replicate_zero, FlatState.turns, List.foldlM_nil, FlatState.start, hthreads]
      rfl
  | @move ds s s' d r hd ih =>
    obtain ⟨slot, cells, hslots, hpc, hturns, halone⟩ := ih
    cases hd with
    | run ht hs hi hr =>
      obtain ⟨rfl, rfl⟩ := only hslots hs
      obtain ⟨-, rfl⟩ := only hthreads ht
      rw [hcode, List.getElem?_map, Option.map_eq_some_iff] at hi
      obtain ⟨op, hop, rfl⟩ := hi
      have hb := (frameInvariant_bounded.slot p).holds r hs
      have hfiled := (frameInvariant_filed.slot p).holds r hs
      have hacc := (frameInvariant_accounted.slot p).holds r hs
      obtain ⟨w, he, halone'⟩ := op.exec_of_runs halone r.fits.whole hb hfiled hacc hr
      rw [r.fits.image_eq] at he
      refine ⟨_, FlatState.write cells w, by rw [State.withSlot, hslots]; rfl, ?_, ?_, halone'.quiet rfl rfl rfl⟩
      · exact (List.getElem?_eq_some_iff.mp hop).1
      · rw [FlatState.turns_succ, hturns, Option.bind_some, FlatState.turn_alone hop he]
    | @promise _ _ slot w f _ _ hs _ _ hf =>
      obtain ⟨rfl, rfl⟩ := only hslots hs
      obtain ⟨-, hg, -⟩ := Frame.promiseWrite_spec r.fits.whole hf
      have hregs : f.thread.plainRegs = slot.thread.plainRegs := by
        rw [hg]
        rfl
      refine ⟨{ slot with promised := slot.promised ++ [w.2], thread := f.thread }, cells, ?_, hpc, ?_,
        halone.promise r.fits.whole hf⟩
      · rw [State.withSlot, hslots]
        rfl
      · dsimp only
        rw [hregs, hturns]

/-- A lone thread can run its instructions one after the other, unless the exploration fails. -/
theorem exists_mirrors_of_alone {o : Options} {r : Explored} (h : (explore p o).result = .ok r) :
    ∀ n ≤ ops.length, ∃ s z, p.Reaches s ∧ s.Mirrors z ∧ z.threads.map FlatThread.pc = [n] ∧
      FlatState.turns p.image [ops] (List.replicate n 0) (FlatState.start p) = some z
  | 0, _ => ⟨_, _, .refl, .start p, by rw [FlatState.start, hthreads]; rfl, rfl⟩
  | n + 1, hn => by
    obtain ⟨s, z, hs, hm, hpc, hturns⟩ := exists_mirrors_of_alone h n (Nat.le_of_succ_le hn)
    obtain ⟨ds, run⟩ := Program.reaches_iff.mp hs
    obtain ⟨slot, -, hslots, -⟩ := run.alone hthreads hcode
    have hslot : s.threads[0]? = some slot := by rw [hslots]; rfl
    obtain ⟨threads, cells⟩ := z
    have hflat : threads = [⟨slot.pc, slot.thread.plainRegs⟩] := by
      have := hm.threads_eq
      rwa [hslots] at this
    obtain rfl : slot.pc = n := by
      rw [hflat] at hpc
      exact List.singleton_inj.mp hpc
    have hop := List.getElem?_eq_getElem (l := ops) hn
    have hi : t.code[slot.pc]? = some (ops[slot.pc]).instr := by rw [hcode, List.getElem?_map, hop, Option.map_some]
    have ht : p.threads[0]? = some t := by rw [hthreads]; rfl
    cases he : (ops[slot.pc]).exec (FlatState.read p.image cells) slot.thread.plainRegs with
    | none =>
      obtain ⟨cache, hgoing⟩ := exists_not_fail_of_reaches h hs ht hslot hi
      have hfiled : (slot.thread.withCache cache).Filed := ((frameInvariant_filed.slot p).holds run hslot).of_same rfl rfl
      obtain ⟨x, hx⟩ := Op.fails_of_exec hfiled he s.memory o.maxChooseBits
      exact absurd hx (hgoing x)
    | some result =>
      obtain ⟨regs, w⟩ := result
      subst hflat
      have hturn := FlatState.turn_alone hop he
      obtain ⟨s', hmove, hm'⟩ := hm.step h hs (codes_alone hthreads hcode) (FlatState.step_iff.mpr ⟨0, hturn⟩)
      refine ⟨s', _, hs.tail hmove, hm', rfl, ?_⟩
      rw [FlatState.turns_succ, hturns, Option.bind_some, hturn]

/-- A program of one thread is sequential: an exploration that ends has found exactly one final, the registers and
memory after the instructions of the thread, run one after the other over one flat memory, whatever writes the thread
may promise. -/
theorem finals_alone {o : Options} {r : Explored} (h : (explore p o).result = .ok r) :
    ∃ z, FlatState.turns p.image [ops] (List.replicate ops.length 0) (FlatState.start p) = some z ∧
      z.Finished [ops] ∧ r.finals = [z.final p.image] := by
  obtain ⟨s, z, hs, hm, hpc, hturns⟩ := exists_mirrors_of_alone hthreads hcode h ops.length (Nat.le_refl _)
  have hend : z.Finished [ops] := FlatState.finished_of_pcs_eq hpc
  refine ⟨z, hturns, hend, ?_⟩
  -- whatever a run to the end leaves is what the machine leaves
  have hall : ∀ f ∈ r.finals, f = z.final p.image := by
    intro f hf
    obtain ⟨s, hs, hfinished, hfulfilled, hfinal⟩ := exists_reaches_of_mem_finals h hf
    obtain ⟨ds, run⟩ := Program.reaches_iff.mp hs
    obtain ⟨slot, cells, hslots, hle, hturns', halone⟩ := run.alone hthreads hcode
    have hslot : s.threads[0]? = some slot := by rw [hslots]; rfl
    have hge := hfinished 0 t slot (by rw [hthreads]; rfl) hslot
    rw [hcode, List.length_map] at hge
    rw [Nat.le_antisymm hle hge, hturns] at hturns'
    obtain rfl := Option.some.inj hturns'
    rw [State.final, bind_eq_ok] at hfinal
    obtain ⟨image, himage, hfinal⟩ := hfinal
    have hheld := halone.heldIn (hfulfilled slot (List.mem_of_getElem? hslot))
    have hz := FlatState.final_eq (s := ⟨[⟨ops.length, slot.thread.plainRegs⟩], cells⟩) himage hheld.1 hheld.2
    dsimp only at hz
    rw [run.fits.image_eq] at hz
    rw [hz]
    rw [hslots] at hfinal
    exact pure_eq_ok.mp hfinal
  obtain ⟨f, hf, -⟩ := exists_final_of_reaches h hs (hm.finished (codes_alone hthreads hcode) hend) hm.fulfilled
  obtain ⟨u, done, hinv, -, hr⟩ := invariant_of_explore h
  have hnodup : r.finals.Nodup := hr ▸ hinv.distinct
  refine List.perm_singleton.mp ((List.perm_ext_iff_of_nodup hnodup (List.nodup_singleton _)).mpr fun g => ?_)
  rw [List.mem_singleton]
  refine ⟨hall g, ?_⟩
  rintro rfl
  exact hall f hf ▸ hf

end

/-- A thread stores to a cell twice, with a load in between. -/
def overwrite : List Op :=
  [.store "X1" "X0" .plain, .load "X3" "X0" .plain, .store "X2" "X0" .plain]

/-- The program of that thread, which may promise both writes, in either order. -/
def overwriteProgram : Program where
  threads := [{
    code := overwrite.map Op.instr
    regs := .ofList [("X0", (0 : Int)), ("X1", 1), ("X2", 2)]
    promisable := [(0, 2), (0, 1)] }]

theorem finals_alone_overwrite : ∃ r z, (explore overwriteProgram {}).result = .ok r ∧ 0 < r.stats.stuck ∧
    FlatState.turns overwriteProgram.image [overwrite] (List.replicate overwrite.length 0)
      (FlatState.start overwriteProgram) = some z ∧
    z.threads.map (·.regs["X3"]?) = [some 1] ∧
    z.Finished [overwrite] ∧ r.finals = [z.final overwriteProgram.image] := by
  have stuck : (explore overwriteProgram {}).result.toOption.any (fun r => decide (0 < r.stats.stuck)) = true := by
    decide +kernel
  obtain ⟨r, hr, hstuck⟩ := (Option.any_eq_true _ _).mp stuck
  obtain ⟨z, hz, hend, hfinals⟩ := finals_alone rfl rfl (toOption_eq_some.mp hr)
  have regs : (FlatState.turns overwriteProgram.image [overwrite] (List.replicate overwrite.length 0)
      (FlatState.start overwriteProgram)).map (fun z => z.threads.map (·.regs["X3"]?)) = some [some 1] := by
    decide +kernel
  rw [hz, Option.map_some, Option.some.injEq] at regs
  exact ⟨r, z, toOption_eq_some.mp hr, of_decide_eq_true hstuck, hz, regs, hend, hfinals⟩

end Litmus
