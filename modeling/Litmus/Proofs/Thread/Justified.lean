import Litmus.Proofs.Instruction.Resolving
import Litmus.Proofs.Thread.Registers

/-!
Where values come from. A value that depends on a view is justified if it is given, or was written by an event
up to the view. Main fact: instructions of the usual shapes keep what a thread holds justified, and whatever
they write is justified from before the time of the write. A forwarded value has an earlier view than its own
write; it is justified from there because the value of that write already was.
-/

namespace Litmus

/-- Whether a value is given, or was written by an event up to a view. -/
def Memory.Justifies (m : Memory) (given : Int → Prop) (view : View) (x : Int) : Prop :=
  given x ∨ ∃ time ≤ view, ∃ i loc, m.at? time = some (.write i loc x)

namespace Memory.Justifies

variable {m n : Memory} {given : Int → Prop} {view : View} {x : Int}

theorem mono (h : m.Justifies given view x) (hn : m.Extends n) : n.Justifies given view x :=
  h.imp_right fun ⟨time, hle, i, loc, hx⟩ => ⟨time, hle, i, loc, hn.at?_eq_some hx⟩

theorem le {later : View} (h : m.Justifies given view x) (hle : view ≤ later) : m.Justifies given later x :=
  h.imp_right fun ⟨time, htime, hx⟩ => ⟨time, Int.le_trans htime hle, hx⟩

end Memory.Justifies

/-- What a thread holds is justified, and so are its own writes, those that it has still to do apart. -/
structure Thread.Justified (given : Int → Prop) (m : Memory) (t : Thread) : Prop where
  regs : ∀ {reg : String} {r : Reg}, t.regs[reg]? = some r → m.Justifies given r.view r.value
  history : ∀ w ∈ t.history, m.Justifies given w.held.view w.held.value
  initial : ∀ {reg : String} {x : Int}, t.initial[reg]? = some x → given x
  forwards : ∀ {loc : Int} {w : Forward}, t.forwards[loc]? = some w →
    ∃ i l x, m.at? w.time = some (.write i l x) ∧ m.Justifies given w.view x
  own : ∀ {time loc x : Int}, m.at? time = some (.write t.tid loc x) →
    time ∈ t.promises ∨ ∃ view < time, m.Justifies given view x

namespace Thread.Justified

variable {given : Int → Prop} {m n : Memory} {t u : Thread}

theorem start {tid : Int} {regs : Registers Int} {image : Image}
    (h : ∀ {reg : String} {x : Int}, regs[reg]? = some x → given x) :
    (Thread.start tid regs).Justified given (.ofImage image) where
  regs h := by simp [Thread.start] at h
  history := nofun
  initial := h
  forwards h := by simp [Thread.start] at h
  own {time loc x} he := by
    have hpos := Memory.pos_of_at? he
    have hle : time ≤ 0 := Memory.le_length_of_at? he
    lia

/-- Events of other threads do not matter. -/
theorem grow (h : t.Justified given m) (hn : m.Extends n)
    (hown : ∀ time e, n.at? time = some e → m.at? time = some e ∨ e.tid ≠ t.tid) : t.Justified given n where
  regs hr := (h.regs hr).mono hn
  history w hw := (h.history w hw).mono hn
  initial := h.initial
  forwards hw := by
    obtain ⟨i, l, x, hx, hj⟩ := h.forwards hw
    exact ⟨i, l, x, hn.at?_eq_some hx, hj.mono hn⟩
  own he := by
    have he := (hown _ _ he).resolve_right fun hne => hne rfl
    exact (h.own he).imp_right fun ⟨view, hlt, hj⟩ => ⟨view, hlt, hj.mono hn⟩

/-- Values are all that matters. -/
theorem of_same (h : t.Justified given m) (ht : u.tid = t.tid) (hp : u.promises = t.promises) (hr : u.regs = t.regs)
    (hh : u.history = t.history) (hi : u.initial = t.initial) (hf : u.forwards = t.forwards) : u.Justified given m where
  regs h' := h.regs (hr ▸ h')
  history w hw := h.history w (hh ▸ hw)
  initial h' := h.initial (hi ▸ h')
  forwards h' := h.forwards (hf ▸ h')
  own he := hp ▸ h.own (ht ▸ he)

/-- What a register holds is justified. -/
theorem holds (h : t.Justified given m) {reg : String} {r : Reg} (hr : t.holds reg = .ok r) :
    m.Justifies given r.view r.value := by
  have initial {r : Reg} (hr : t.initialReg reg = .ok r) : m.Justifies given r.view r.value := by
    rw [initialReg] at hr
    split at hr
    · next hi =>
      cases hr
      exact .inl (h.initial hi)
    · cases hr
  rw [Thread.holds] at hr
  split at hr
  · rw [readSystem, readSystemAt] at hr
    split at hr
    · next hl =>
      cases hr
      obtain ⟨w, hw, rfl⟩ := List.mem_map.mp (List.mem_of_getLast? hl)
      exact h.history w (List.mem_of_mem_take (List.mem_filter.mp hw).1)
    · exact initial hr
  · rw [readReg] at hr
    split at hr
    · next hl =>
      cases hr
      exact h.regs hl
    · exact initial hr

/-- A register may be given what is justified. -/
theorem hold (h : t.Justified given m) (reg : String) {r : Reg} (hr : m.Justifies given r.view r.value) :
    (t.hold reg r).Justified given m := by
  rw [Thread.hold_eq]
  refine ⟨?_, ?_, h.initial, h.forwards, h.own⟩
  · intro x v hx
    dsimp only at hx
    split at hx
    · exact h.regs hx
    · rw [Std.ExtTreeMap.getElem?_insert] at hx
      split at hx
      · cases hx
        exact hr
      · exact h.regs hx
  · intro w hw
    dsimp only at hw
    split at hw
    · rcases List.mem_append.mp hw with hw | hw
      · exact h.history w hw
      · rw [List.mem_singleton.mp hw]
        exact hr
    · exact h.history w hw

/-- The values of all registers are justified. -/
theorem plainRegs (h : t.Justified given m) {reg : String} {x : Int} (hx : t.plainRegs[reg]? = some x) :
    ∃ view, m.Justifies given view x := by
  rw [getElem?_plainRegs, Option.or_eq_some_iff, Option.or_eq_some_iff, Option.map_eq_some_iff,
    Option.map_eq_some_iff] at hx
  rcases hx with ⟨r, hr, rfl⟩ | ⟨-, ⟨r, hr, rfl⟩ | ⟨-, hx⟩⟩
  · obtain ⟨w, hw, rfl⟩ := List.mem_map.mp (List.mem_of_getLast? hr)
    exact ⟨_, h.history w (List.mem_filter.mp hw).1⟩
  · exact ⟨_, h.regs hr⟩
  · exact ⟨0, .inl (h.initial hx)⟩

/-! ### Reads and writes -/

/-- What a read returns is justified from its post-view. -/
theorem read {f : Frame} {req : ReadRequest} {addr : View} {r : Memory.Read} (h : f.thread.Justified given f.memory)
    (hgiven : given (f.memory.initial.readCell req.pa)) (hr : r ∈ f.readCandidates req req.pa addr) :
    f.memory.Justifies given (f.readPost req addr r) r.value := by
  rcases Memory.write_of_mem_candidates (List.mem_filter.mp hr).1 with ⟨i, hi⟩ | h0
  · refine Memory.Justifies.le ?_ (View.le_join_right _ _)
    have seen : f.memory.Justifies given r.time r.value := .inr ⟨r.time, Int.le_refl _, i, _, hi⟩
    rw [Frame.readContribution]
    split
    · exact seen
    · next w hw =>
      obtain ⟨j, l, x, hx, hj⟩ := h.forwards hw
      split
      · exact seen
      · next ht =>
        rw [Decidable.not_not.mp ht] at hx ⊢
        split
        · exact seen
        · -- what is forwarded is the value of the write, which its operands justify
          rw [hi] at hx
          cases hx
          exact hj
  · exact .inl (congrArg Memory.Read.value h0 ▸ hgiven)

theorem afterRead {f : Frame} {req : ReadRequest} {addr : View} {r : Memory.Read}
    (h : f.thread.Justified given f.memory) : (f.afterRead req addr r).thread.Justified given f.memory := by
  rw [Frame.thread_afterRead]
  exact h.of_same rfl rfl rfl rfl rfl rfl

/-- A write of a justified value is justified from before its time. -/
theorem afterWrite {f : Frame} {req : WriteRequest} {addr data t : View} {memory : Memory} {promised : Bool}
    (h : f.thread.Justified given f.memory)
    (hplaced : f.Placed (.write f.thread.tid req.pa req.value) memory t promised) (hvalue : f.memory.Justifies given data req.value) (hlt : data < t) :
    (f.afterWrite req (View.join addr data) t memory promised).thread.Justified given memory := by
  rw [Frame.thread_afterWrite]
  have hm := hplaced.grown
  refine ⟨fun hr => (h.regs hr).mono hm, fun w hw => (h.history w hw).mono hm, h.initial, ?_, ?_⟩
  · intro loc w hw
    rw [Std.ExtTreeMap.getElem?_insert] at hw
    split at hw
    · cases hw
      exact ⟨_, _, _, hplaced.at?_eq, (hvalue.mono hm).le (View.le_join_right _ _)⟩
    · obtain ⟨i, l, x, hx, hj⟩ := h.forwards hw
      exact ⟨i, l, x, hm.at?_eq_some hx, hj.mono hm⟩
  · intro time loc x he
    by_cases htime : time = t
    · rw [htime, hplaced.at?_eq] at he
      cases he
      exact .inr ⟨data, htime ▸ hlt, hvalue.mono hm⟩
    · have he := (hplaced.at?_cases _ _ he).resolve_right fun hnew => htime hnew.2.1
      rcases h.own he with hp | ⟨view, hlt, hj⟩
      · exact .inl ((mem_fulfilled hp).resolve_right fun hpt => htime hpt.2)
      · exact .inr ⟨view, hlt, hj.mono hm⟩

theorem promise {f g : Frame} {loc value : Int} {time : View} (h : f.thread.Justified given f.memory)
    (hm : f.memory.Whole) (hp : f.promiseWrite loc value = .ok (g, time)) : g.thread.Justified given g.memory := by
  obtain ⟨-, hg, -, -, hext, -, hat⟩ := Frame.promiseWrite_spec hm hp
  rw [hg]
  refine ⟨fun hr => (h.regs hr).mono hext, fun w hw => (h.history w hw).mono hext, h.initial, ?_, ?_⟩
  · intro loc w hw
    obtain ⟨i, l, x, hx, hj⟩ := h.forwards hw
    exact ⟨i, l, x, hext.at?_eq_some hx, hj.mono hext⟩
  · intro p l x he
    dsimp only at he
    rw [hat] at he
    split at he
    · next hpt => exact .inl (List.mem_append_right _ (List.mem_singleton.mpr hpt))
    · exact (h.own he).imp (List.mem_append_left _) fun ⟨view, hlt, hj⟩ => ⟨view, hlt, hj.mono hext⟩

end Thread.Justified

/-! ### Shapes -/

/-- The shapes of instructions that move, load, store and branch, and barriers. -/
inductive Instr.IsShape : Instr → Prop
  | movImm (dst : String) (value : Int) : IsShape (Shape.movImm dst value)
  | load (dst addr : String) (kind : ReadKind) (exclusive : Bool) : IsShape (Shape.load dst addr kind exclusive)
  | store (src addr : String) (kind : WriteKind) : IsShape (Shape.store src addr kind)
  | storeExclusive (status src addr : String) (kind : WriteKind) : IsShape (Shape.storeExclusive status src addr kind)
  | loadVirtual (dst addr : String) : IsShape (Shape.loadVirtual dst addr)
  | branchOn (reg : String) (target : Int) : IsShape (Shape.branchOn reg target)
  | barrier (b : Barrier) : IsShape (Shape.only (.barrier b))

namespace Frame

/-- Dependencies on a register are no earlier than what it holds. -/
theorem le_depsView_of_reg {f : Frame} {regs : List String} {reads : List Number} {reg : String} {held : Reg}
    {view : View} (hd : f.depsView (.explicit regs reads) = .ok view) (hreg : reg ∈ regs) (hheld : f.thread.holds reg = .ok held) :
    held.view ≤ view := by
  simp only [depsView, bind_eq_ok, pure_eq_ok] at hd
  obtain ⟨views, -, rs, hrs, rfl⟩ := hd
  have hmem : held ∈ rs := (mem_of_mapM_eq_ok hrs).mpr ⟨reg, hreg, hheld⟩
  exact View.le_joinAll (List.mem_append_right _ (List.mem_map_of_mem hmem))

/-- Dependencies on an earlier read are no earlier than its view. -/
theorem le_depsView_of_read {f : Frame} {regs : List String} {reads : List Number} {n : Number} {read view : View}
    (hd : f.depsView (.explicit regs reads) = .ok view) (hn : n ∈ reads) (hread : f.scratch.readView n = .ok read) :
    read ≤ view := by
  simp only [depsView, bind_eq_ok, pure_eq_ok] at hd
  obtain ⟨views, hviews, rs, -, rfl⟩ := hd
  have hmem : read ∈ views := (mem_of_mapM_eq_ok hviews).mpr ⟨n, hn, hread⟩
  exact View.le_joinAll (List.mem_append_left _ hmem)

end Frame

namespace Thread.Justified

variable {given : Int → Prop} {f g : Frame} {as : List Action}

/-- Loading keeps a thread justified when the register is given what was read, and depends on that read. -/
theorem loaded {req : ReadRequest} {dst : String} {n : Int}
    (r : (Instr.ask (.read req) fun value => Shape.only (.writeReg dst value (.explicit [] [.whole n]))).Runs f as g)
    (hva : req.va = none) (hsize : req.size = 8) (hn : f.scratch.readViews.length = n)
    (hcells : ∀ loc, loc % 8 = 0 → given (f.memory.initial.readCell loc)) (h : f.thread.Justified given f.memory) :
    g.thread.Justified given g.memory := by
  cases r with
  | ask hs r =>
    cases hs with
    | fetch hk hf =>
      have hfour := Frame.size_of_fetch hf
      rw [hsize] at hfour
      cases hfour
    | descriptor _ _ hsome =>
      rw [hva] at hsome
      cases hsome
    | @read _ _ addr rd hk hsz ha hd hr hb =>
      cases r with
      | ask hs r =>
        cases hs with
        | writeReg hdep =>
          cases r
          have hread : (f.afterRead req addr rd).scratch.readView (.whole n) = .ok (f.readPost req addr rd) := by
            simp [Scratch.readView, Frame.afterRead, Scratch.addRead, ← hn]
          refine h.afterRead.hold dst ?_
          exact (h.read (hcells _ ha) hr).le (Frame.le_depsView_of_read hdep (List.mem_singleton_self _) hread)

/-- Storing what a register holds keeps a thread justified. -/
theorem stored {req : WriteRequest} {src : String} {held : Reg} {wrote : Bool} {a : Action}
    (hs : (Effect.write req).Step f wrote g a) (hheld : f.thread.holds src = .ok held) (hvalue : req.value = held.value)
    (hdeps : req.dataDeps = .explicit [src] []) (hm : f.memory.Whole) (h : f.thread.Justified given f.memory) :
    g.thread.Justified given g.memory := by
  cases hs with
  | writeFailed => exact h.of_same rfl rfl rfl rfl rfl rfl
  | @write _ _ addr data t memory promised hsz ha hd hd' hp ht =>
    rw [hdeps] at hd'
    have hview := Frame.le_depsView_of_reg hd' (List.mem_singleton_self _) hheld
    have hdata : data ≤ f.writePre req addr data := View.le_joinAll (by simp)
    refine h.afterWrite (Frame.placed hm hp) ?_ (Int.lt_of_le_of_lt hdata (Frame.lt_of_writeTrouble ht).1)
    rw [hvalue]
    exact (h.holds hheld).le hview

/-- What neither writes registers nor memory keeps a thread justified. -/
theorem barrier {b : Barrier} {a : Action} (h : f.thread.Justified given f.memory)
    (hs : (Effect.barrier b).Step f () g a) : g.thread.Justified given g.memory := by
  cases hs with
  | dmb | dsb | isb => exact h.of_same rfl rfl rfl rfl rfl rfl

end Thread.Justified

/-- Instructions of the shapes keep a thread justified, if cells, immediates and statuses are given. -/
theorem Instr.IsShape.justified {i : Instr} {given : Int → Prop} {thread : Thread} {m : Memory} {g : Frame}
    {as : List Action} (hi : i.IsShape) (hm : m.Whole) (hcells : ∀ loc, loc % 8 = 0 → given (m.initial.readCell loc))
    (himm : ∀ dst value, i = Shape.movImm dst value → given value) (hzero : given 0) (hone : given 1)
    (h : thread.Justified given m) (r : i.Runs { thread, memory := m } as g) : g.thread.Justified given g.memory := by
  cases hi with
  | movImm dst value =>
    cases r with | ask hs r =>
    cases hs with | writeReg =>
    cases r with | done =>
    exact h.hold dst (.inl (himm dst value rfl))
  | load dst addr kind exclusive =>
    cases r with | ask hs r =>
    cases hs with | readReg =>
    exact Thread.Justified.loaded r rfl rfl rfl hcells h
  | store src addr kind =>
    cases r with | ask hs r =>
    cases hs with | readReg =>
    cases r with | ask hs r =>
    cases hs with | readReg hheld =>
    cases r with | ask hs r =>
    cases r with | done =>
    exact Thread.Justified.stored hs hheld rfl rfl hm h
  | storeExclusive status src addr kind =>
    cases r with | ask hs r =>
    cases hs with | readReg =>
    cases r with | ask hs r =>
    cases hs with | readReg hheld =>
    cases r with | @ask _ _ _ _ _ wrote _ _ hs r =>
    have hstored := Thread.Justified.stored hs hheld rfl rfl hm h
    cases r with | ask hs r =>
    cases hs with | writeReg =>
    cases r with | done =>
    refine hstored.hold status (.inl ?_)
    cases wrote with
    | true => exact hzero
    | false => exact hone
  | loadVirtual dst addr =>
    cases r with | ask hs r =>
    cases hs with | readReg =>
    obtain ⟨landing, f, bs, hf, r, -⟩ := r.of_resolve
    obtain ⟨cache, hcache⟩ := hf.thread_eq
    cases landing with
    | fault =>
      cases r with | ask hs r =>
      cases hs
    | mapped pa level =>
      have hjustified : f.thread.Justified given f.memory := by
        rw [hf.memory_eq, hcache]
        exact h.of_same rfl rfl rfl rfl rfl rfl
      refine Thread.Justified.loaded r rfl rfl ?_ ?_ hjustified
      · rw [hf.length_eq]
        exact congrArg Nat.cast (Nat.zero_add _)
      · rw [hf.memory_eq]
        exact hcells
  | branchOn reg target =>
    cases r with | ask hs r =>
    cases hs with | readReg =>
    cases r with | ask hs r =>
    cases hs with | announceBranch =>
    cases r with | done =>
    exact h.of_same rfl rfl rfl rfl rfl rfl
  | barrier b =>
    cases r with | ask hs r =>
    cases r with | done =>
    exact h.barrier hs

end Litmus
