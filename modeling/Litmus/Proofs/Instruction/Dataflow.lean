import Litmus.Proofs.Exploration.Barriers
import Litmus.Proofs.Thread.Justified

/-!
How values flow through instructions. An instruction changes only the registers that it may write. Main facts: a
load ends past the view of its address register, and the register that it writes depends on what it has read; a
store comes after both of its registers; a branch holds back writes until its register is known, and
synchronization carries that on to all accesses.
-/

namespace Litmus

/-! ### Registers -/

/-- Whether an instruction writes a register, on some answers. -/
inductive Instr.MayWrite (reg : String) : Instr → Prop
  | here {value : Int} {deps : Deps} {next : Unit → Instr} : MayWrite reg (.ask (.writeReg reg value deps) next)
  | later {e : Effect} {next : e.Answer → Instr} (v : e.Answer) : MayWrite reg (next v) → MayWrite reg (.ask e next)

theorem Instr.not_mayWrite_done {reg : String} : ¬Instr.MayWrite reg .done := nofun

/-- What only asks for an effect writes no register but that of the effect. -/
theorem Instr.not_mayWrite_only {reg : String} {e : Effect} (he : ∀ value deps, e ≠ .writeReg reg value deps) :
    ¬Instr.MayWrite reg (Shape.only e) := by
  intro h
  cases h with
  | here => exact he _ _ rfl
  | later _ h => exact not_mayWrite_done h

/-- Resolving an address writes no register but those of what follows. -/
theorem Instr.not_mayWrite_resolve {reg : String} {va : Int} {next : Paging.Landing → Instr}
    (hnext : ∀ landing, ¬(next landing).MayWrite reg) : ¬(Shape.resolve va next).MayWrite reg := by
  have from_table : ∀ (n : Nat) (table : Int), ¬(Shape.resolveFrom va next n table).MayWrite reg := by
    intro n
    induction n with
    | zero =>
      intro table h
      rw [Shape.resolveFrom] at h
      split at h
      · cases h
      · cases h with
        | later _ h =>
        cases h with
        | later _ h => exact hnext _ h
    | succ n ih =>
      intro table h
      rw [Shape.resolveFrom] at h
      split at h
      · cases h
      · cases h with
        | later descriptor h =>
        dsimp only at h
        split at h
        · exact ih _ h
        · cases h with
          | later _ h => exact hnext _ h
  intro h
  rw [Shape.resolve] at h
  cases h with
  | later started h => exact from_table 3 started.base h

theorem Instr.not_mayWrite_loadVirtual {reg dst : String} (hne : reg ≠ dst) (addr : String) :
    ¬(Shape.loadVirtual dst addr).MayWrite reg := by
  intro h
  cases h with
  | later va h =>
  refine not_mayWrite_resolve ?_ h
  intro landing h
  cases landing with
  | fault level => exact not_mayWrite_only (by simp) h
  | mapped pa level global =>
    cases h with
    | later _ h => exact not_mayWrite_only (by simp [hne.symm]) h

namespace Thread

/-- What a register holds depends on what was written to registers alone. -/
theorem holds_congr {t u : Thread} (hr : u.regs = t.regs) (hh : u.history = t.history) (hi : u.initial = t.initial)
    (reg : String) : u.holds reg = t.holds reg := by
  simp only [holds, readSystem, readSystemAt, readReg, initialReg, hr, hh, hi]

theorem readSystem_eq (t : Thread) (reg : String) :
    t.readSystem reg = ((heldBy reg t.history).getLast?.map Except.ok).getD (t.initialReg reg) := by
  rw [readSystem, readSystemAt, Int.toNat_natCast, List.take_length]
  cases (heldBy reg t.history).getLast? <;> rfl

/-- A write of a register is what it holds after that, and changes no other. -/
theorem holds_hold (t : Thread) (reg : String) (r : Reg) (x : String) :
    (t.hold reg r).holds x = if x = reg then .ok r else t.holds x := by
  rw [hold]
  by_cases hx : x = reg
  · subst hx
    rw [if_pos rfl]
    split
    · next hs => simp [holds, hs, readSystem_eq, writeSystem, raise, heldBy]
    · next hs => simp [holds, hs, readReg, writeReg]
  · rw [if_neg hx]
    split
    · have hnil : heldBy x [⟨reg, r⟩] = [] := by simp [heldBy, Ne.symm hx]
      simp [holds, readSystem_eq, readReg, initialReg, writeSystem, raise, heldBy_append, hnil]
    · simp [holds, readSystem_eq, readReg, initialReg, writeReg, Std.ExtTreeMap.getElem?_insert, Ne.symm hx]

end Thread

/-- An effect changes what a register holds only if it writes that register. -/
theorem Effect.Step.holds_eq {e : Effect} {f g : Frame} {v : e.Answer} {a : Action} {reg : String} (hs : e.Step f v g a)
    (he : ∀ value deps, e ≠ .writeReg reg value deps) : g.thread.holds reg = f.thread.holds reg := by
  cases hs with
  | @writeReg x value deps =>
    have hne : reg ≠ x := by
      rintro rfl
      exact he value deps rfl
    rw [Thread.holds_hold, if_neg hne]
  | read =>
    rw [Frame.thread_afterRead]
    exact Thread.holds_congr rfl rfl rfl reg
  | write =>
    rw [Frame.thread_afterWrite]
    exact Thread.holds_congr rfl rfl rfl reg
  | maintain =>
    rw [Frame.thread_afterMaintain]
    exact Thread.holds_congr rfl rfl rfl reg
  | _ => exact Thread.holds_congr rfl rfl rfl reg

/-- An instruction changes what a register holds only if it may write that register. -/
theorem Instr.Runs.holds_eq {i : Instr} {f g : Frame} {as : List Action} {reg : String} (r : i.Runs f as g)
    (hi : ¬i.MayWrite reg) : g.thread.holds reg = f.thread.holds reg := by
  induction r with
  | done => rfl
  | ask hs _ ih =>
    rw [ih fun h => hi (.later _ h)]
    refine hs.holds_eq ?_
    rintro value deps rfl
    exact hi .here

/-! ### Views -/

namespace Effect.Step

variable {e : Effect} {f g : Frame} {v : e.Answer} {a : Action} {pre : View}

/-- A write comes after all that it is speculative on. -/
theorem speculation_lt {req : WriteRequest} {t : View} (hs : e.Step f v g (.write req pre t)) :
    f.thread.views.speculation < t := by
  cases hs with
  | write _ _ _ _ _ ht => exact Int.lt_of_le_of_lt (View.le_joinAll (by simp)) (Frame.lt_of_writeTrouble ht).1

/-- The pre-view of an access is past the last context synchronization. -/
theorem contextSync_le_pre (hs : e.Step f v g a) (ha : a.pre? = some pre) : f.thread.views.contextSync ≤ pre := by
  cases hs with
  | read | write =>
    cases ha
    exact View.le_joinAll (by simp)
  | _ => cases ha

end Effect.Step

/-- What an instruction has done it did from a frame in which no counter was behind. -/
theorem Instr.Runs.exists_step {i : Instr} {f g : Frame} {as : List Action} (r : i.Runs f as g) {a : Action}
    (ha : a ∈ as) : ∃ (e : Effect) (f' : Frame) (v : e.Answer) (g' : Frame), e.Step f' v g' a ∧
      ∀ c, f.thread.views.get c ≤ f'.thread.views.get c := by
  induction r with
  | done => cases ha
  | ask hs _ ih =>
    rcases List.mem_cons.mp ha with rfl | ha
    · exact ⟨_, _, _, _, hs, fun _ => Int.le_refl _⟩
    · obtain ⟨e, f', v, g', hs', hle⟩ := ih ha
      exact ⟨e, f', v, g', hs', fun c => Int.le_trans (hs.views_le c) (hle c)⟩

/-- Counters only rise while an instruction runs. -/
theorem Instr.Runs.views_le {i : Instr} {f g : Frame} {as : List Action} (r : i.Runs f as g) (c : Counter) :
    f.thread.views.get c ≤ g.thread.views.get c := by
  induction r with
  | done => exact Int.le_refl _
  | ask hs _ ih => exact Int.le_trans (hs.views_le c) ih

/-! ### Shapes -/

/-- The instructions that load into a register through the address in another. -/
inductive Instr.IsLoad (dst addr : String) : Instr → Prop
  | load (kind : ReadKind) (exclusive : Bool) : IsLoad dst addr (Shape.load dst addr kind exclusive)
  | loadVirtual : IsLoad dst addr (Shape.loadVirtual dst addr)

/-- The instructions that store a register through the address in another. -/
inductive Instr.IsStore (src addr : String) : Instr → Prop
  | store (kind : WriteKind) : IsStore src addr (Shape.store src addr kind)
  | storeExclusive (status : String) (kind : WriteKind) : IsStore src addr (Shape.storeExclusive status src addr kind)

/-- What a load has done whose address register held this: one explicit read, past the view of the address. What it
leaves depends on that read, and what follows is speculative until the address is known. -/
structure Loaded (dst : String) (held : Reg) (as : List Action) (t : Thread) : Prop where
  read : ∃ req w pre post, as.filter Action.isRead = [.read req w pre post] ∧ held.view ≤ post ∧
    ∃ result, t.holds dst = .ok result ∧ post ≤ result.view
  speculation : held.view ≤ t.views.speculation

namespace Instr.Runs

variable {f g : Frame} {as : List Action} {dst addr src : String} {held : Reg}

/-- A read through a register, and the write of what was read. -/
theorem loaded {req : ReadRequest} {n : Int} (r : (Instr.ask (.read req) fun value =>
      Shape.only (.writeReg dst value (.explicit [] [.whole n]))).Runs f as g)
    (hdeps : req.deps = .explicit [addr] []) (hva : req.va = none) (hsize : req.size = 8)
    (hn : f.scratch.readViews.length = n) (hheld : f.thread.holds addr = .ok held) : Loaded dst held as g.thread := by
  cases r with | ask hs r =>
  cases hs with
  | fetch hk hf =>
    have hfour := Frame.size_of_fetch hf
    rw [hsize] at hfour
    cases hfour
  | descriptor _ _ hsome =>
    rw [hva] at hsome
    cases hsome
  | @read _ _ view rd hk hsz ha hd hr hb =>
    cases r with | ask hs r =>
    cases r with | done =>
    cases hs with | @writeReg _ _ _ _ result hdep =>
    rw [hdeps] at hd
    have hview : held.view ≤ view := Frame.le_depsView_of_reg hd (List.mem_singleton_self _) hheld
    have hpre : view ≤ f.readPre req view := View.le_joinAll (by simp)
    have hread : (f.afterRead req view rd).scratch.readView (.whole n) = .ok (f.readPost req view rd) := by
      simp [Scratch.readView, Frame.afterRead, Scratch.addRead, ← hn]
    have hholds := (Thread.holds_hold (f.afterRead req view rd).thread dst ⟨rd.value, result⟩ dst).trans (if_pos rfl)
    refine ⟨⟨_, _, _, _, rfl, ?_, _, hholds, ?_⟩, ?_⟩
    · exact Int.le_trans hview (Int.le_trans hpre (View.le_join_left _ _))
    · exact Frame.le_depsView_of_read hdep (List.mem_singleton_self _) hread
    · have hspeculation : view ≤ (f.afterRead req view rd).thread.views.speculation := by
        rw [Frame.thread_afterRead]
        exact View.le_join_right _ _
      exact Int.le_trans hview (Int.le_trans hspeculation ((Effect.Step.writeReg hdep).views_le .speculation))

/-- A write of a register through another comes after both. -/
theorem stored {req req' : WriteRequest} {wrote : Bool} {a : Action} {reg : String} {pre t : View}
    (hs : (Effect.write req).Step f wrote g a) (haddr : req.addrDeps = .explicit [addr] [])
    (hdata : req.dataDeps = .explicit [src] []) (hreg : reg = src ∨ reg = addr) (hheld : f.thread.holds reg = .ok held)
    (ha : a = .write req' pre t) : held.view < t := by
  cases hs with
  | writeFailed => cases ha
  | @write _ _ addrView dataView _ _ _ _ _ hd hd' _ ht =>
    cases ha
    refine Int.lt_of_le_of_lt ?_ (Frame.lt_of_writeTrouble ht).1
    rcases hreg with rfl | rfl
    · rw [hdata] at hd'
      have hview : held.view ≤ dataView := Frame.le_depsView_of_reg hd' (List.mem_singleton_self _) hheld
      exact Int.le_trans hview (View.le_joinAll (by simp))
    · rw [haddr] at hd
      have hview : held.view ≤ addrView := Frame.le_depsView_of_reg hd (List.mem_singleton_self _) hheld
      exact Int.le_trans hview (View.le_joinAll (by simp))

/-- What a load has done. -/
theorem of_isLoad {i : Instr} {thread : Thread} {m : Memory} (r : i.Runs { thread, memory := m } as g)
    (hi : i.IsLoad dst addr) : ∃ held, thread.holds addr = .ok held ∧ Loaded dst held as g.thread := by
  cases hi with
  | load kind exclusive =>
    cases r with | ask hs r =>
    cases hs with | readReg hheld =>
    have h := r.loaded rfl rfl rfl rfl hheld
    exact ⟨_, hheld, h.read, h.speculation⟩
  | loadVirtual =>
    cases r with | ask hs r =>
    cases hs with | @readReg _ _ held hheld =>
    obtain ⟨landing, f, bs, hf, hr, c, rfl⟩ := r.of_resolve
    obtain ⟨cache, hcache⟩ := hf.thread_eq
    cases landing with
    | fault =>
      cases hr with | ask hs _ =>
      cases hs
    | mapped pa level =>
      have hheld' : f.thread.holds addr = .ok held := by
        rw [hcache]
        exact hheld
      have hn : f.scratch.readViews.length = ((level.val + 1 : Nat) : Int) := by
        rw [hf.length_eq]
        exact congrArg Nat.cast (Nat.zero_add _)
      obtain ⟨⟨req, w, pre, post, has, hread⟩, hspeculation⟩ := hr.loaded rfl rfl rfl hn hheld'
      refine ⟨_, hheld, ⟨req, w, pre, post, ?_, hread⟩, hspeculation⟩
      simp [List.filter_append, has, Action.isRead]

/-- What a store has written comes after both of its registers. -/
theorem lt_of_isStore {i : Instr} {thread : Thread} {m : Memory} {reg : String} {req : WriteRequest} {pre t : View}
    (r : i.Runs { thread, memory := m } as g) (hi : i.IsStore src addr) (hreg : reg = src ∨ reg = addr)
    (hheld : thread.holds reg = .ok held) (hwrite : .write req pre t ∈ as) : held.view < t := by
  cases hi with
  | store kind =>
    cases r with | ask hs r =>
    cases hs with | readReg =>
    cases r with | ask hs r =>
    cases hs with | readReg =>
    cases r with | ask hs r =>
    cases r with | done =>
    simp only [List.mem_cons, List.not_mem_nil, or_false, reduceCtorEq, false_or] at hwrite
    exact stored hs rfl rfl hreg hheld hwrite.symm
  | storeExclusive status kind =>
    cases r with | ask hs r =>
    cases hs with | readReg =>
    cases r with | ask hs r =>
    cases hs with | readReg =>
    cases r with | ask hs r =>
    cases r with | ask hs' r =>
    cases hs' with | writeReg =>
    cases r with | done =>
    simp only [List.mem_cons, List.not_mem_nil, or_false, reduceCtorEq, false_or] at hwrite
    exact stored hs rfl rfl hreg hheld hwrite.symm

/-- What follows a branch is speculative until its register is known. -/
theorem speculation_of_branchOn {thread : Thread} {m : Memory} {reg : String} {target : Int}
    (r : (Shape.branchOn reg target).Runs { thread, memory := m } as g) :
    ∃ held, thread.holds reg = .ok held ∧ held.view ≤ g.thread.views.speculation := by
  cases r with | ask hs r =>
  cases hs with | readReg hheld =>
  cases r with | ask hs r =>
  cases hs with | announceBranch hd =>
  cases r with | done =>
  refine ⟨_, hheld, Int.le_trans (Frame.le_depsView_of_reg hd (List.mem_singleton_self _) hheld) ?_⟩
  exact View.le_join_right _ _

/-- Synchronization carries on what a thread is speculative on. -/
theorem contextSync_of_isb (r : Shape.isb.Runs f as g) : f.thread.views.speculation ≤ g.thread.views.contextSync := by
  cases r with | ask hs r =>
  cases hs with | isb =>
  cases r with | done =>
  exact Int.le_trans (View.le_join_left _ _) (View.le_join_right _ _)

end Instr.Runs

end Litmus
