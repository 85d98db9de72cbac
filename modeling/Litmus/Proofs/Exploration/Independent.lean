import Litmus.Proofs.Exploration.Complete
import Litmus.Proofs.Instruction.Postponed

/-!
Moves that append nothing are independent of other threads. A move of a thread reads and changes its own slot and
memory alone. Main facts: an instruction that appends nothing may as well run after a move of another thread, if it
takes no walk or that move adds no maintenance; and two such instructions of different threads may run in either order.
-/

namespace Litmus

/-- The thread that moved. -/
def Deed.tid : Deed → Nat
  | .ran tid _ _ | .promised tid _ => tid

/-- Whether an instruction may start a walk. -/
inductive Instr.MayWalk : Instr → Prop
  | here {va : Int} {next : WalkStart → Instr} : MayWalk (.ask (.startWalk va) next)
  | later {e : Effect} {next : e.Answer → Instr} (v : e.Answer) : MayWalk (next v) → MayWalk (.ask e next)

/-- Only an instruction that starts walks takes one. -/
theorem Instr.Runs.mayWalk {i : Instr} {f g : Frame} {as : List Action} {va : Int} {c : Candidate} (r : i.Runs f as g)
    (h : .walk va c ∈ as) : i.MayWalk := by
  induction r with
  | done => cases h
  | ask hs _ ih =>
    rcases List.mem_cons.mp h with rfl | h
    · cases hs
      exact .here
    · exact .later _ (ih h)

/-- Whether what is new in memory does not concern an instruction that did these things: it took no walk, or no
maintenance is new. -/
def Unconcerned (as : List Action) (m n : Memory) : Prop := (∀ va c, .walk va c ∉ as) ∨ m.SameMaintenance n

namespace State

variable {p : Program} {s s' u : State} {d : Deed}

/-- Slots of different threads may be replaced in either order. -/
theorem withSlot_comm {i j : Nat} {x y : Slot} {m m' n : Memory} (h : i ≠ j) :
    (s.withSlot i x m).withSlot j y n = (s.withSlot j y m').withSlot i x n := by
  rw [withSlot, withSlot, withSlot, withSlot, List.set_comm _ _ h]

/-- A move replaces one slot, and may be made in every state with the same slot and memory. -/
theorem Does.of_same (h : s.Does p d s') (hslot : u.threads[d.tid]? = s.threads[d.tid]?) (hm : u.memory = s.memory) :
    ∃ slot, s' = s.withSlot d.tid slot s'.memory ∧ u.Does p d (u.withSlot d.tid slot s'.memory) := by
  cases h with
  | run ht hs hi hr => exact ⟨_, rfl, .run ht (hslot.trans hs) hi (hm ▸ hr)⟩
  | promise ht hs hpc hw hf => exact ⟨_, rfl, .promise ht (hslot.trans hs) hpc hw (hm ▸ hf)⟩

/-- What a move that runs an instruction is made of. -/
theorem Does.exists_runs {tid pc : Nat} {as : List Action} (h : s.Does p (.ran tid pc as) s') :
    ∃ t slot i f, p.threads[tid]? = some t ∧ s.threads[tid]? = some slot ∧ slot.pc = pc ∧ t.code[pc]? = some i ∧
      i.Runs { thread := slot.thread, memory := s.memory } as f ∧
      s' = s.withSlot tid { slot with pc := slot.pc + 1, thread := f.thread } f.memory := by
  cases h with
  | run ht hs hi hr => exact ⟨_, _, _, _, ht, hs, rfl, hi, hr, rfl⟩

/-- Moves only add to memory. -/
theorem Does.extends (h : s.Does p d s') (hm : s.memory.Whole) : s.memory.Extends s'.memory := by
  cases h with
  | run _ _ _ hr => exact (hr.grows hm).grown
  | promise _ _ _ _ hf => exact (Frame.promiseWrite_grows hm hf).grown

theorem getElem?_withSlot_of_ne {i j : Nat} {x : Slot} {m : Memory} (h : i ≠ j) :
    (s.withSlot i x m).threads[j]? = s.threads[j]? := List.getElem?_set_ne h

end State

namespace Program.Run

variable {p : Program} {ds : List Deed} {s s₁ s₂ : State} {tid pc : Nat} {as : List Action} {d : Deed}

/-- An instruction that appends nothing may as well run once another thread has another slot and memory has grown. -/
theorem does_later (r : p.Run ds s) (h : s.Does p (.ran tid pc as) s₁) (hkept : s₁.memory = s.memory) {i : Nat}
    (hne : i ≠ tid) (other : Slot) {n : Memory} (hn : s.memory.Extends n) (hnew : Unconcerned as s.memory n) :
    (s.withSlot i other n).Does p (.ran tid pc as) (s₁.withSlot i other n) := by
  obtain ⟨t, slot, instr, f, ht, hs, rfl, hi, hr, rfl⟩ := h.exists_runs
  have hruns := hr.inMemory r.fits.whole ((frameInvariant_bounded.slot p).holds r hs) hkept hn hnew
  have hslot : (s.withSlot i other n).threads[tid]? = some slot := (State.getElem?_withSlot_of_ne hne).trans hs
  rw [State.withSlot_comm (Ne.symm hne)]
  exact .run ht hslot hi hruns

/-- An instruction that appends nothing leaves the very same thread in every memory that goes on, if it starts no walk
or no maintenance is new. So it may be postponed after any move of another thread, if it took no walk or that move adds
no maintenance, and two such instructions of different threads commute. -/
theorem appends_nothing_independent (r : p.Run ds s) :
    (∀ (tid : Nat) (slot : Slot) (i : Instr) (as : List Action) (f : Frame) (n : Memory), s.threads[tid]? = some slot →
      i.Runs { thread := slot.thread, memory := s.memory } as f → f.memory = s.memory → s.memory.Extends n →
      ¬i.MayWalk ∨ s.memory.SameMaintenance n →
      i.Runs { thread := slot.thread, memory := n } as { f with memory := n }) ∧
    (∀ (tid pc : Nat) (as : List Action) (d : Deed) (s₁ s₂ : State), s.Does p (.ran tid pc as) s₁ →
      s₁.memory = s.memory → s₁.Does p d s₂ → d.tid ≠ tid → Unconcerned as s.memory s₂.memory →
      ∃ s', s.Does p d s' ∧ s'.Does p (.ran tid pc as) s₂) ∧
    (∀ (tid pc tid' pc' : Nat) (as bs : List Action) (s₁ s₂ : State), s.Does p (.ran tid pc as) s₁ →
      s₁.memory = s.memory → s.Does p (.ran tid' pc' bs) s₂ → s₂.memory = s.memory → tid ≠ tid' →
      ∃ s', s₁.Does p (.ran tid' pc' bs) s' ∧ s₂.Does p (.ran tid pc as) s') := by
  refine ⟨?_, ?_, ?_⟩
  · intro tid slot i as f n hs hr hkept hn hnew
    have hwalk : Unconcerned as s.memory n := hnew.imp_left fun hnone _ _ h => hnone (hr.mayWalk h)
    exact hr.inMemory r.fits.whole ((frameInvariant_bounded.slot p).holds r hs) hkept hn hwalk
  · intro tid pc as d s₁ s₂ h hkept hd hne hnew
    obtain ⟨_, hs₁, -⟩ := h.of_same (u := s) rfl rfl
    have hslot : s.threads[d.tid]? = s₁.threads[d.tid]? := by
      rw [hs₁]
      exact (State.getElem?_withSlot_of_ne (Ne.symm hne)).symm
    obtain ⟨other, hs₂, hd'⟩ := hd.of_same hslot hkept.symm
    have hn : s.memory.Extends s₂.memory := hkept ▸ hd.extends (hkept ▸ r.fits.whole)
    refine ⟨_, hd', ?_⟩
    have hdoes := r.does_later h hkept hne other hn hnew
    rwa [← hs₂] at hdoes
  · intro tid pc tid' pc' as bs s₁ s₂ h hkept h' hkept' hne
    obtain ⟨_, hs₁, -⟩ := h.of_same (u := s) rfl rfl
    have hslot : s₁.threads[tid']? = s.threads[tid']? := by
      rw [hs₁]
      exact State.getElem?_withSlot_of_ne hne
    obtain ⟨other, hs₂, hd'⟩ := h'.of_same hslot hkept
    have hn : s.memory.Extends s₂.memory := hkept'.symm ▸ .refl _
    have hnew : Unconcerned as s.memory s₂.memory := .inr fun _ _ _ => by rw [hkept']
    refine ⟨_, hd', ?_⟩
    have hdoes := r.does_later h hkept (Ne.symm hne) other hn hnew
    have hs₂ : s.withSlot tid' other s₂.memory = s₂ := hs₂.symm
    rwa [hs₂] at hdoes

end Program.Run

/-- A thread can make a move that it can run to a state of some kind. -/
theorem State.exists_does {p : Program} {s : State} {tid pc : Nat} {t : ThreadProgram} {i : Instr} {P : State → Bool}
    (h : s.runsTo tid pc i P = true) (ht : p.threads[tid]? = some t) (hi : t.code[pc]? = some i) :
    ∃ as s', s.Does p (.ran tid pc as) s' ∧ P s' = true := by
  rw [runsTo, Option.any_eq_true] at h
  obtain ⟨slot, hs, h⟩ := h
  rw [Bool.and_eq_true, decide_eq_true_eq, List.any_eq_true] at h
  obtain ⟨rfl, leaf, hl, hP⟩ := h
  cases leaf with
  | done g =>
    obtain ⟨as, hr⟩ := Instr.yields_run.mp (Outcome.yields_of_mem_leaves hl)
    exact ⟨as, _, .run ht hs hi hr, hP⟩
  | _ => cases hP

/-- Tables that map the first page, a load from it, a load from elsewhere, and a thread that maps the page elsewhere. -/
def remappedWhileRead : Program where
  cells := [(0x1000, 0x2003), (0x2000, 0x3003), (0x3000, 0x4003), (0x4000, 0x5403)]
  threads := [
    { code := [Shape.loadVirtual "X3" "X0"], regs := .ofList [("X0", (0 : Int)), ("TTBR0_EL1", 0x1000)] },
    { code := [Shape.load "X3" "X0" .plain false], regs := .ofList [("X0", (0 : Int))] },
    { code := [Shape.only (.write { pa := 0x4000, value := 0x6403 })] }]

theorem appends_nothing_independent_remappedWhileRead :
    ∃ (as bs cs : List Action) (s₀ s₁ s₂ : State) (slot : Slot) (f : Frame),
    remappedWhileRead.start.Does remappedWhileRead (.ran 0 0 as) s₀ ∧
    remappedWhileRead.start.Does remappedWhileRead (.ran 1 0 bs) s₁ ∧
    s₀.Does remappedWhileRead (.ran 2 0 cs) s₂ ∧ s₀.memory = remappedWhileRead.start.memory ∧
    s₁.memory = remappedWhileRead.start.memory ∧ s₂.memory.length = 1 ∧
    remappedWhileRead.start.threads[0]? = some slot ∧
    (Shape.loadVirtual "X3" "X0").Runs { thread := slot.thread, memory := s₂.memory } as { f with memory := s₂.memory } ∧
    (∃ s', remappedWhileRead.start.Does remappedWhileRead (.ran 2 0 cs) s' ∧
      s'.Does remappedWhileRead (.ran 0 0 as) s₂) ∧
    ∃ s', s₀.Does remappedWhileRead (.ran 1 0 bs) s' ∧ s₁.Does remappedWhileRead (.ran 0 0 as) s' := by
  have path : remappedWhileRead.start.runsTo 0 0 (Shape.loadVirtual "X3" "X0") (fun s =>
      decide (s.memory = remappedWhileRead.start.memory) &&
        s.runsTo 2 0 (Shape.only (.write { pa := 0x4000, value := 0x6403 })) fun s =>
          decide (s.memory.length = 1) && s.memory.shown.all fun e => e.location?.isSome) = true := by decide +kernel
  have path' : remappedWhileRead.start.runsTo 1 0 (Shape.load "X3" "X0" .plain false) (fun s =>
      decide (s.memory = remappedWhileRead.start.memory)) = true := by decide +kernel
  obtain ⟨as, s₀, h₀, hP⟩ := State.exists_does (p := remappedWhileRead) path rfl rfl
  obtain ⟨bs, s₁, h₁, hP'⟩ := State.exists_does (p := remappedWhileRead) path' rfl rfl
  rw [Bool.and_eq_true, decide_eq_true_eq] at hP
  obtain ⟨hkept, hP⟩ := hP
  have hkept' := of_decide_eq_true hP'
  obtain ⟨cs, s₂, h₂, hP⟩ := State.exists_does (p := remappedWhileRead) hP rfl rfl
  rw [Bool.and_eq_true, decide_eq_true_eq, List.all_eq_true] at hP
  obtain ⟨hlength, hwrites⟩ := hP
  have extends₂ : s₀.memory.Extends s₂.memory := h₂.extends (hkept ▸ Program.Run.start.fits.whole)
  rw [hkept] at extends₂
  have hnew : remappedWhileRead.start.memory.SameMaintenance s₂.memory := fun t i x => by
    have writesOnly : s₂.memory.at? t ≠ some (.maintain i x) := fun h => by
      cases hwrites _ (Memory.mem_shown.mpr ⟨t, h⟩)
    exact iff_of_false writesOnly fun h => writesOnly (extends₂.at?_eq_some h)
  obtain ⟨leaf, postponed, commute⟩ := Program.Run.appends_nothing_independent (p := remappedWhileRead) .start
  have later := postponed 0 0 as _ s₀ s₂ h₀ hkept h₂ (by simp [Deed.tid]) (.inr hnew)
  have either := commute 0 0 1 0 as bs s₀ s₁ h₀ hkept h₁ hkept' Nat.zero_ne_one
  obtain ⟨_, slot, _, f, ht, hs, hpc, hi, hr, hs₀⟩ := h₀.exists_runs
  obtain rfl := Option.some.inj ht
  obtain rfl := Option.some.inj hi
  have hf : f.memory = remappedWhileRead.start.memory := (congrArg State.memory hs₀).symm.trans hkept
  exact ⟨as, bs, cs, s₀, s₁, s₂, slot, f, h₀, h₁, h₂, hkept, hkept', hlength, hs,
    leaf 0 slot _ as f _ hs hr hf extends₂ (.inr hnew), later, either⟩

end Litmus
