import Litmus.Proofs.Instruction.Action
import Mathlib.Logic.Basic

/-!
How effects change threads and memory. Reads, writes and register writes each change few fields of a
thread, told here at once; an event is placed at a promise that holds it, or at the end of memory.
Main fact: along an instruction memory only grows, by events of the thread that runs.
-/

namespace Litmus

/-! ### Threads -/

namespace Views

theorem get_raise (v : Views) (c d : Counter) (view : View) :
    (v.raise c view).get d = if d = c then View.join (v.get c) view else v.get d := get_set v c d _

/-- Counters only rise. -/
theorem get_le_get_raise (v : Views) (c d : Counter) (view : View) : v.get d ≤ (v.raise c view).get d := by
  rw [get_raise]
  split
  · next h => exact h ▸ View.le_join_left _ _
  · exact Int.le_refl _

/-- The views after an explicit read. -/
def afterRead (v : Views) (kind : ReadKind) (addr post : View) : Views :=
  let v := v.raise .reads post
  (if kind ≠ .plain then v.raise .acquires post else v).raise .speculation addr

/-- The views after a write. -/
def afterWrite (v : Views) (kind : WriteKind) (time : View) : Views :=
  let v := v.raise .writes time
  if kind = .release then v.raise .releases time else v

end Views

namespace Thread

theorem hold_eq (t : Thread) (reg : String) (r : Reg) : t.hold reg r =
    { t with
      regs := if Register.isSystem reg then t.regs else t.regs.insert reg r
      history := if Register.isSystem reg then t.history ++ [⟨reg, r⟩] else t.history
      views := if Register.isSystem reg then t.views.raise .systemWrites r.view else t.views } := by
  rw [hold]
  split <;> rfl

theorem coherenceOf_insert {t u : Thread} {loc : Int} {view : View} (h : u.coherence = t.coherence.insert loc view)
    (l : Int) : u.coherenceOf l = if l = loc then view else t.coherenceOf l := by
  rw [coherenceOf]
  rw [h, Std.ExtTreeMap.getD_insert]
  simp only [Std.compare_eq_iff_eq]
  exact if_congr eq_comm rfl rfl

/-- Fulfilling a promise leaves all other promises. -/
theorem mem_fulfilled_iff {promises : List View} {promised : Bool} {p t : View} :
    (p ∈ if promised then promises.filter fun p => p != t else promises) ↔
      p ∈ promises ∧ ¬(promised = true ∧ p = t) := by
  cases promised <;> simp

theorem mem_fulfilled {promises : List View} {promised : Bool} {p t : View} (h : p ∈ promises) :
    (p ∈ if promised then promises.filter fun p => p != t else promises) ∨ promised = true ∧ p = t := by
  by_cases ht : promised = true ∧ p = t
  · exact .inr ht
  · exact .inl (mem_fulfilled_iff.mpr ⟨h, ht⟩)

end Thread

namespace Frame

theorem thread_afterRead (f : Frame) (req : ReadRequest) (addr : View) (r : Memory.Read) :
    (f.afterRead req addr r).thread =
      { f.thread with
        coherence := f.thread.coherence.insert req.pa (View.join (f.thread.coherenceOf req.pa) r.time)
        views := f.thread.views.afterRead req.kind addr (f.readPost req addr r)
        monitor := if req.exclusive then some ⟨req.pa, r.time, f.readPost req addr r⟩ else f.thread.monitor } := by
  rw [afterRead, threadAfterRead, Views.afterRead]
  split <;> split <;> simp [*] <;> rfl

theorem thread_afterWrite (f : Frame) (req : WriteRequest) (operands t : View) (m : Memory) (promised : Bool) :
    (f.afterWrite req operands t m promised).thread =
      { f.thread with
        promises := if promised then f.thread.promises.filter fun p => p != t else f.thread.promises
        coherence := f.thread.coherence.insert req.pa (View.join (f.thread.coherenceOf req.pa) t)
        views := f.thread.views.afterWrite req.kind t
        forwards := f.thread.forwards.insert req.pa ⟨t, operands, req.exclusive⟩
        monitor := if req.exclusive then none else f.thread.monitor } := by
  rw [afterWrite, threadAfterWrite, Views.afterWrite]
  split <;> split <;> split <;> simp [*] <;> rfl

theorem thread_afterMaintain (f : Frame) (t : View) (m : Memory) (promised : Bool) :
    (f.afterMaintain t m promised).thread =
      { f.thread with
        promises := if promised then f.thread.promises.filter fun p => p != t else f.thread.promises
        views := f.thread.views.raise .maintenance t
        issued := f.thread.issued.insert t f.thread.syncPoint } := by
  rw [afterMaintain]
  split <;> rfl

end Frame

/-! ### Placing events -/

/-- What it means that an event of a thread was placed at a time. -/
structure Frame.Placed (f : Frame) (e : Event) (memory : Memory) (t : View) (promised : Bool) : Prop where
  whole : memory.Whole
  grown : f.memory.Extends memory
  at?_eq : memory.at? t = some e
  kept : promised = true → memory = f.memory ∧ t ∈ f.thread.promises
  fresh : promised = false → t = f.memory.length + 1 ∧ ∀ p ∈ f.thread.promises, f.memory.at? p ≠ some e
  oldest : ∀ p ∈ f.thread.promises, f.memory.at? p = some e → t ≤ p
  at?_cases : ∀ p x, memory.at? p = some x → f.memory.at? p = some x ∨ promised = false ∧ p = t ∧ x = e

namespace Frame

theorem placed {f : Frame} {e : Event} {memory : Memory} {t : View} {promised : Bool} (hm : f.memory.Whole)
    (h : f.place e = .ok (memory, t, promised)) : f.Placed e memory t promised := by
  rw [place] at h
  split at h
  · next t' ht =>
    obtain ⟨rfl, rfl, rfl⟩ : f.memory = memory ∧ t' = t ∧ true = promised := by simpa using h
    have hmin := List.min?_eq_some_iff.mp ht
    have held := List.mem_filter.mp hmin.1
    refine ⟨hm, .refl _, by simpa using held.2, fun _ => ⟨rfl, held.1⟩, ?_, ?_, fun _ _ => .inl⟩
    · intro h
      cases h
    · intro p hp he
      exact hmin.2 p (List.mem_filter.mpr ⟨hp, by simpa using he⟩)
  · next hnone =>
    have none : ∀ p ∈ f.thread.promises, f.memory.at? p ≠ some e := by
      intro p hp he
      have := List.min?_eq_none_iff.mp hnone
      exact List.not_mem_nil (this ▸ List.mem_filter.mpr ⟨hp, by simpa using he⟩)
    obtain ⟨n, hn, hwhole, hinit, hlen, hat⟩ := Memory.promise_spec hm e
    simp only [hn, bind_eq_ok, Except.ok.injEq, pure_eq_ok, Prod.mk.injEq, Prod.exists] at h
    obtain ⟨_, _, ⟨rfl, rfl⟩, rfl, rfl, rfl⟩ := h
    refine ⟨hwhole, ⟨hinit, by lia, fun p hp => by rw [hat, if_neg (by lia)]⟩, by rw [hat, if_pos rfl], ?_,
      fun _ => ⟨rfl, none⟩, fun p hp he => absurd he (none p hp), ?_⟩
    · intro h
      cases h
    · intro p x hx
      rw [hat] at hx
      split at hx
      · next hp => exact .inr ⟨rfl, hp, by simpa using hx.symm⟩
      · exact .inl hx

/-- The promises that are left once an event was placed are of other times: a new event comes after all of them. -/
theorem Placed.mem_left {f : Frame} {e : Event} {memory : Memory} {t p : View} {promised : Bool}
    (h : f.Placed e memory t promised) (hle : ∀ p ∈ f.thread.promises, p ≤ f.memory.length)
    (hp : p ∈ if promised then f.thread.promises.filter fun p => p != t else f.thread.promises) :
    p ∈ f.thread.promises ∧ p ≠ t := by
  obtain ⟨hp, hne⟩ := Thread.mem_fulfilled_iff.mp hp
  refine ⟨hp, ?_⟩
  cases hpromised : promised with
  | true => exact fun e => hne ⟨hpromised, e⟩
  | false =>
    have := (h.fresh hpromised).1
    have := hle p hp
    lia

end Frame

/-- A write that does write has a later time than its pre-view and the view of its cell. -/
theorem Frame.lt_of_writeTrouble {f : Frame} {req : WriteRequest} {m : Memory} {loc : Int} {pre t : View}
    (h : f.writeTrouble req m loc pre t = none) : pre < t ∧ f.thread.coherenceOf loc < t := by
  rw [writeTrouble] at h
  split at h
  · cases h
  · next ht =>
    have h₁ := View.le_join_left pre (f.thread.coherenceOf loc)
    have h₂ := View.le_join_right pre (f.thread.coherenceOf loc)
    constructor <;> lia

/-! ### Growth -/

/-- What a thread leaves as it is while it runs, and how memory goes on: all new events are its own. -/
structure Frame.Grows (f g : Frame) : Prop where
  whole : f.memory.Whole → g.memory.Whole
  grown : f.memory.Extends g.memory
  own : ∀ t e, g.memory.at? t = some e → f.memory.at? t = some e ∨ e.tid = f.thread.tid
  tid_eq : g.thread.tid = f.thread.tid
  initial_eq : g.thread.initial = f.thread.initial

namespace Frame.Grows

theorem of_same {f g : Frame} (hm : g.memory = f.memory) (ht : g.thread.tid = f.thread.tid)
    (hi : g.thread.initial = f.thread.initial) : f.Grows g :=
  ⟨fun h => hm ▸ h, hm ▸ .refl _, fun _ _ h => .inl (hm ▸ h), ht, hi⟩

theorem refl (f : Frame) : f.Grows f := of_same rfl rfl rfl

theorem trans {f g h : Frame} (hg : f.Grows g) (hh : g.Grows h) : f.Grows h where
  whole hf := hh.whole (hg.whole hf)
  grown := hg.grown.trans hh.grown
  own t e he := (hh.own t e he).elim (hg.own t e) fun ht => .inr (ht.trans hg.tid_eq)
  tid_eq := hh.tid_eq.trans hg.tid_eq
  initial_eq := hh.initial_eq.trans hg.initial_eq

theorem of_placed {f g : Frame} {e : Event} {t : View} {promised : Bool} (h : f.Placed e g.memory t promised)
    (he : e.tid = f.thread.tid) (ht : g.thread.tid = f.thread.tid) (hi : g.thread.initial = f.thread.initial) :
    f.Grows g where
  whole _ := h.whole
  grown := h.grown
  own p x hx := (h.at?_cases p x hx).imp_right fun ⟨_, _, hx⟩ => hx ▸ he
  tid_eq := ht
  initial_eq := hi

end Frame.Grows

theorem Effect.Step.grows {e : Effect} {f g : Frame} {v : e.Answer} {a : Action} (h : e.Step f v g a)
    (hm : f.memory.Whole) : f.Grows g := by
  cases h with
  | writeReg => exact .of_same rfl (by rw [Thread.hold_eq]) (by rw [Thread.hold_eq])
  | read => exact .of_same rfl (by rw [Frame.thread_afterRead]) (by rw [Frame.thread_afterRead])
  | write _ _ _ _ hp =>
    exact .of_placed (Frame.placed hm hp) rfl (by rw [Frame.thread_afterWrite]) (by rw [Frame.thread_afterWrite])
  | maintain _ _ hp =>
    exact .of_placed (Frame.placed hm hp) rfl (by rw [Frame.thread_afterMaintain]) (by rw [Frame.thread_afterMaintain])
  | _ => exact .of_same rfl rfl rfl

theorem Instr.Runs.grows {i : Instr} {f h : Frame} {as : List Action} (r : i.Runs f as h) (hm : f.memory.Whole) :
    f.Grows h := by
  induction r with
  | done => exact .refl _
  | ask hs _ ih =>
    have hg := hs.grows hm
    exact hg.trans (ih (hg.whole hm))

/-- A promise puts one write of the thread at the end of memory. -/
theorem Frame.promiseWrite_spec {f g : Frame} {loc value : Int} {t : View} (hm : f.memory.Whole)
    (h : f.promiseWrite loc value = .ok (g, t)) :
    loc % 8 = 0 ∧ g = { f with memory := g.memory, thread := f.thread.pushPromise t } ∧ g.memory.Whole ∧
      t = f.memory.length + 1 ∧ f.memory.Extends g.memory ∧ g.memory.length = t ∧
      ∀ p, g.memory.at? p = if p = t then some (.write f.thread.tid loc value) else f.memory.at? p := by
  simp only [promiseWrite, bind_eq_ok, checkLocation_eq_ok, pure_eq_ok, Prod.mk.injEq, Prod.exists] at h
  obtain ⟨l, ⟨ha, hl⟩, n, t', hp, rfl, rfl⟩ := h
  subst l
  obtain ⟨n', hn, hwhole, hinit, hlen, hat⟩ := Memory.promise_spec hm (.write f.thread.tid loc value)
  rw [hn] at hp
  cases hp
  exact ⟨ha, rfl, hwhole, rfl, ⟨hinit, by lia, fun p hp => by rw [hat, if_neg (by lia)]⟩, hlen, hat⟩

theorem Frame.promiseWrite_grows {f g : Frame} {loc value : Int} {t : View} (hm : f.memory.Whole)
    (h : f.promiseWrite loc value = .ok (g, t)) : f.Grows g := by
  obtain ⟨-, hg, hwhole, -, hext, -, hat⟩ := promiseWrite_spec hm h
  refine ⟨fun _ => hwhole, hext, ?_, by rw [hg]; rfl, by rw [hg]; rfl⟩
  intro p x hx
  rw [hat] at hx
  split at hx
  · cases hx; exact .inr rfl
  · exact .inl hx

end Litmus
