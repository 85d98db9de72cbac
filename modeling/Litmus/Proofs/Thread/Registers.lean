import Litmus.Proofs.Exploration.Move

/-!
What the registers of a thread come to. Application registers keep their last values, system registers a
history, and neither kind is kept with the other. Main facts: a register holds, for the thread itself, what
it has among the plain values, and a write of a register of either kind is an insertion there.
-/

namespace Litmus

/-! ### Insertions one after the other -/

/-- After some insertions a key has what the last one with the key gave it. -/
theorem getElem?_foldl_insert {α : Type} (key : α → String) (value : α → Int) (x : String) :
    ∀ (l : List α) (m : Registers Int), (l.foldl (fun m a => m.insert (key a) (value a)) m)[x]? =
      ((l.filter fun a => key a = x).getLast?.map value).or m[x]?
  | [], m => rfl
  | a :: l, m => by
    rw [List.foldl_cons, getElem?_foldl_insert key value x l, Std.ExtTreeMap.getElem?_insert, List.filter_cons]
    simp only [Std.compare_eq_iff_eq, decide_eq_true_eq]
    split
    · rw [List.getLast?_cons]
      cases (l.filter fun a => key a = x).getLast? <;> rfl
    · rfl

/-- After the insertion of all entries of a map a key has what it has there. -/
theorem getElem?_foldl_toList (r : Registers Reg) (m : Registers Int) (x : String) :
    (r.toList.foldl (fun m (reg, r) => m.insert reg r.value) m)[x]? = (r[x]?.map Reg.value).or m[x]? := by
  rw [getElem?_foldl_insert (fun a : String × Reg => a.1) (fun a => a.2.value)]
  congr 1
  cases hl : (r.toList.filter fun a => a.1 = x).getLast? with
  | none =>
    have hnil := List.getLast?_eq_none_iff.mp hl
    cases hx : r[x]? with
    | none => rfl
    | some v =>
      have hm : (x, v) ∈ r.toList.filter fun a => a.1 = x := by
        simp [Std.ExtTreeMap.mem_toList_iff_getElem?_eq_some, hx]
      rw [hnil] at hm
      cases hm
  | some a =>
    obtain ⟨ha, hk⟩ := List.mem_filter.mp (List.mem_of_getLast? hl)
    obtain ⟨k, v⟩ := a
    have hv : r[k]? = some v := Std.ExtTreeMap.mem_toList_iff_getElem?_eq_some.mp ha
    rw [← show k = x by simpa using hk, hv]
    rfl

namespace Thread

/-- Each kind of register is kept in its own place. -/
structure Filed (t : Thread) : Prop where
  regs : ∀ {reg : String} {r : Reg}, t.regs[reg]? = some r → Register.isSystem reg = false
  history : ∀ w ∈ t.history, Register.isSystem w.reg = true

theorem getElem?_plainRegs (t : Thread) (x : String) : t.plainRegs[x]? =
    ((heldBy x t.history).getLast?.map Reg.value).or ((t.regs[x]?.map Reg.value).or t.initial[x]?) := by
  rw [plainRegs]
  rw [getElem?_foldl_insert SystemWrite.reg (fun w => w.held.value), getElem?_foldl_toList]
  rw [heldBy]
  rw [List.getLast?_map, Option.map_map]
  rfl

theorem heldBy_append (x : String) (ws vs : List SystemWrite) : heldBy x (ws ++ vs) = heldBy x ws ++ heldBy x vs := by
  simp only [heldBy]
  rw [List.filter_append, List.map_append]

namespace Filed

variable {t : Thread}

theorem start (tid : Int) (regs : Registers Int) : (Thread.start tid regs).Filed :=
  ⟨fun h => by simp [Thread.start] at h, fun w h => by simp [Thread.start] at h⟩

theorem of_same {u : Thread} (h : t.Filed) (hr : u.regs = t.regs) (hh : u.history = t.history) : u.Filed :=
  ⟨fun hu => h.regs (hr ▸ hu), fun w hw => h.history w (hh ▸ hw)⟩

theorem heldBy_eq_nil (h : t.Filed) {x : String} (hx : Register.isSystem x = false) : heldBy x t.history = [] := by
  rw [heldBy]
  rw [List.map_eq_nil_iff, List.filter_eq_nil_iff]
  intro w hw he
  have := h.history w hw
  rw [of_decide_eq_true he, hx] at this
  cases this

theorem regs_eq_none (h : t.Filed) {x : String} (hx : Register.isSystem x = true) : t.regs[x]? = none := by
  cases hr : t.regs[x]? with
  | none => rfl
  | some r =>
    have := h.regs hr
    rw [hx] at this
    cases this

theorem hold (h : t.Filed) (reg : String) (r : Reg) : (t.hold reg r).Filed := by
  rw [Thread.hold]
  split
  · next hs =>
    refine ⟨h.regs, ?_⟩
    intro w hw
    rcases List.mem_append.mp hw with hw | hw
    · exact h.history w hw
    · rw [List.mem_singleton.mp hw]
      exact hs
  · next hs =>
    refine ⟨?_, h.history⟩
    intro x v hx
    rw [writeReg, Std.ExtTreeMap.getElem?_insert] at hx
    split at hx
    · next e => rwa [← Std.compare_eq_iff_eq.mp e, ← Bool.not_eq_true]
    · exact h.regs hx

/-- What a register holds is what it has among the plain values. -/
theorem plainRegs_of_holds (h : t.Filed) {reg : String} {r : Reg} (hr : t.holds reg = .ok r) :
    t.plainRegs[reg]? = some r.value := by
  have initial {r : Reg} (hr : t.initialReg reg = .ok r) : t.initial[reg]? = some r.value := by
    rw [initialReg] at hr
    split at hr
    · next hi =>
      cases hr
      exact hi
    · cases hr
  rw [getElem?_plainRegs]
  rw [holds] at hr
  split at hr
  · next hs =>
    rw [readSystem, readSystemAt] at hr
    rw [Int.toNat_natCast, List.take_length] at hr
    split at hr
    · next hl =>
      cases hr
      rw [hl]
      rfl
    · next hl =>
      rw [hl, h.regs_eq_none hs, initial hr]
      rfl
  · next hs =>
    rw [Bool.not_eq_true] at hs
    rw [h.heldBy_eq_nil hs]
    rw [readReg] at hr
    split at hr
    · next hl =>
      cases hr
      rw [hl]
      rfl
    · next hl =>
      rw [hl, initial hr]
      rfl

/-- A register with a plain value holds that value. -/
theorem exists_holds (h : t.Filed) {reg : String} {v : Int} (hv : t.plainRegs[reg]? = some v) :
    ∃ r, t.holds reg = .ok r ∧ r.value = v := by
  cases hr : t.holds reg with
  | ok r =>
    rw [h.plainRegs_of_holds hr] at hv
    exact ⟨r, rfl, Option.some.inj hv⟩
  | error e =>
    have initial {e : Fault} (hr : t.initialReg reg = .error e) : t.initial[reg]? = none := by
      rw [initialReg] at hr
      split at hr
      · cases hr
      · assumption
    rw [getElem?_plainRegs] at hv
    rw [holds] at hr
    split at hr
    · next hs =>
      rw [readSystem, readSystemAt] at hr
      rw [Int.toNat_natCast, List.take_length] at hr
      split at hr
      · cases hr
      · next hl =>
        rw [hl, h.regs_eq_none hs, initial hr] at hv
        cases hv
    · next hs =>
      rw [Bool.not_eq_true] at hs
      rw [h.heldBy_eq_nil hs] at hv
      rw [readReg] at hr
      split at hr
      · cases hr
      · next hl =>
        rw [hl, initial hr] at hv
        cases hv

/-- A write of a register is an insertion among the plain values. -/
theorem plainRegs_hold (h : t.Filed) (reg : String) (r : Reg) :
    (t.hold reg r).plainRegs = t.plainRegs.insert reg r.value := by
  refine Std.ExtTreeMap.ext_getElem? ?_
  intro x
  rw [Std.ExtTreeMap.getElem?_insert, getElem?_plainRegs, getElem?_plainRegs, Thread.hold]
  split
  · rw [writeSystem, raise, heldBy_append]
    simp only [heldBy]
    simp only [Std.compare_eq_iff_eq, List.filter_cons, List.filter_nil, decide_eq_true_eq]
    split
    · simp
    · simp
  · next hs =>
    rw [Bool.not_eq_true] at hs
    rw [writeReg, Std.ExtTreeMap.getElem?_insert]
    simp only [Std.compare_eq_iff_eq]
    split
    · next e =>
      subst e
      rw [h.heldBy_eq_nil hs]
      rfl
    · rfl

end Filed

end Thread

/-! ### Accesses -/

namespace Frame

variable {f : Frame}

theorem plainRegs_afterRead (f : Frame) (req : ReadRequest) (addr : View) (r : Memory.Read) :
    (f.afterRead req addr r).thread.plainRegs = f.thread.plainRegs := by
  rw [thread_afterRead, Thread.plainRegs, Thread.plainRegs]

theorem plainRegs_afterWrite (f : Frame) (req : WriteRequest) (operands t : View) (m : Memory) (promised : Bool) :
    (f.afterWrite req operands t m promised).thread.plainRegs = f.thread.plainRegs := by
  rw [thread_afterWrite, Thread.plainRegs, Thread.plainRegs]

theorem filed_afterRead (h : f.thread.Filed) (req : ReadRequest) (addr : View) (r : Memory.Read) :
    (f.afterRead req addr r).thread.Filed := by
  rw [thread_afterRead]
  exact h.of_same rfl rfl

end Frame

/-- In every run each kind of register is kept in its own place. -/
theorem frameInvariant_filed : FrameInvariant fun _ f => f.thread.Filed where
  start tid regs _ := .start tid regs
  step _ h hs := by
    cases hs with
    | writeReg => exact h.hold _ _
    | read => exact Frame.filed_afterRead h _ _ _
    | write => exact h.of_same (by rw [Frame.thread_afterWrite]) (by rw [Frame.thread_afterWrite])
    | maintain => exact h.of_same (by rw [Frame.thread_afterMaintain]) (by rw [Frame.thread_afterMaintain])
    | _ => exact h.of_same rfl rfl
  next h := h
  promise hm h hp := by
    obtain ⟨-, hg, -⟩ := Frame.promiseWrite_spec hm hp
    rw [hg]
    exact h.of_same rfl rfl
  grow h _ := h

end Litmus
