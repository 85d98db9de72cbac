import Litmus.Instruction
import Litmus.Proofs.Memory.Window

/-!
What effects do. `Effect.Step` gives the rules of all effects as one relation, each with the frame
after it and the action it was: an access of memory, a barrier, maintenance, a walk taken, or nothing of
these. Main facts: an effect yields exactly what some rule allows, and an instruction exactly what
some sequence of rules leads to.
-/

namespace Litmus

open Paging (Maintenance pageOf)

/-- What an effect did, with the views between which it stands. A read has a pre-view and a post-view,
a write or maintenance a pre-view and the time it was given. -/
inductive Action where
  | other
  | read (req : ReadRequest) (r : Memory.Read) (pre post : View)
  | write (req : WriteRequest) (pre time : View)
  | writeFailed (req : WriteRequest)
  | barrier (b : Barrier)
  | maintain (m : Maintenance) (pre time : View)
  | walk (va : Int) (c : Candidate)

/-- Whether a read is one that the program asks for: of a plain or acquire kind. -/
def ReadKind.isExplicit : ReadKind → Bool
  | .plain | .acquire | .acquirePC => true
  | .walk | .fetch => false

namespace Scratch

/-- The walk of a page with these descriptors still to be read. -/
def advance (s : Scratch) (page : Int) (w : Flight) (remaining : List Paging.Step) : Scratch :=
  { s with flights := s.flights.insert page { w with remaining } }

/-- No walk of a page in flight any more. -/
def landed (s : Scratch) (page : Int) : Scratch := { s with flights := s.flights.erase page }

end Scratch

namespace Frame

/-- The frame with a counter of its thread raised to a view. -/
def raised (f : Frame) (e : Counter × View) : Frame := { f with thread := f.thread.raise e.1 e.2 }

/-- The view that an explicit read of `r` ends with. -/
def readPost (f : Frame) (req : ReadRequest) (addr : View) (r : Memory.Read) : View :=
  View.join (f.readPre req addr) (f.readContribution req req.pa r)

/-- The frame after an explicit read of `r`. -/
def afterRead (f : Frame) (req : ReadRequest) (addr : View) (r : Memory.Read) : Frame :=
  { f with
    scratch := f.scratch.addRead (f.readPost req addr r)
    thread := threadAfterRead f.thread req req.pa addr (f.readPost req addr r) r.time }

/-- The frame after a write at time `t`, in the memory that has it. -/
def afterWrite (f : Frame) (req : WriteRequest) (operands t : View) (memory : Memory) (promised : Bool) : Frame where
  scratch := f.scratch.addStrict t
  thread := threadAfterWrite f.thread req req.pa operands t promised
  memory

/-- The frame after maintenance at time `t`, in the memory that has it. -/
def afterMaintain (f : Frame) (t : View) (memory : Memory) (promised : Bool) : Frame where
  scratch := f.scratch.addStrict t
  thread := ((if promised then f.thread.removePromise t else f.thread).raise .maintenance t).recordIssued t
  memory

end Frame

/-- The rules of effects: which answer an effect may get, the frame after it, and what it did. -/
inductive Effect.Step : (e : Effect) → Frame → e.Answer → Frame → Action → Prop
  | readReg {reg : String} {f : Frame} {held : Reg} :
      f.thread.holds reg = .ok held →
      Step (.readReg reg) f held.value { f with scratch := f.scratch.addRegRead held.view } .other
  | writeReg {reg : String} {value : Int} {deps : Deps} {f : Frame} {view : View} :
      f.depsView deps = .ok view →
      Step (.writeReg reg value deps) f () { f with thread := f.thread.hold reg ⟨value, view⟩ } .other
  | fetch {req : ReadRequest} {f : Frame} {value : Int} :
      req.kind = .fetch → f.fetch req = .ok value → Step (.read req) f value f .other
  | descriptor {req : ReadRequest} {f : Frame} {va : Int} {w : Flight} {step : Paging.Step}
      {remaining : List Paging.Step} :
      req.kind = .walk → req.size = 8 → req.va = some va → f.scratch.flights[pageOf va]? = some w →
      w.remaining = step :: remaining → step.pa = req.pa →
      Step (.read req) f step.descriptor { f with scratch := (f.scratch.advance (pageOf va) w remaining).addRead w.time }
        .other
  | read {req : ReadRequest} {f : Frame} {addr : View} {r : Memory.Read} :
      req.kind.isExplicit → req.size = 8 → req.pa % 8 = 0 → f.depsView req.deps = .ok addr →
      r ∈ f.readCandidates req req.pa addr → ¬f.scratch.bound < .whole (f.readPost req addr r) →
      Step (.read req) f r.value (f.afterRead req addr r)
        (.read req r (f.readPre req addr) (f.readPost req addr r))
  | write {req : WriteRequest} {f : Frame} {addr data t : View} {memory : Memory} {promised : Bool} :
      req.size = 8 → req.pa % 8 = 0 → f.depsView req.addrDeps = .ok addr → f.depsView req.dataDeps = .ok data →
      f.place (.write f.thread.tid req.pa req.value) = .ok (memory, t, promised) →
      f.writeTrouble req memory req.pa (f.writePre req addr data) t = none →
      Step (.write req) f true (f.afterWrite req (View.join addr data) t memory promised)
        (.write req (f.writePre req addr data) t)
  | writeFailed {req : WriteRequest} {f : Frame} :
      req.size = 8 → req.pa % 8 = 0 → req.exclusive = true →
      Step (.write req) f false { f with thread := f.thread.monitored none } (.writeFailed req)
  | dmb {kind : BarrierKind} {domain : Paging.Shareability} {f : Frame} :
      domain ≠ .nsh →
      Step (.barrier (.dmb kind domain)) f () (f.raised (Frame.dmbEffect f.thread.views kind)) (.barrier (.dmb kind domain))
  | dsb {kind : BarrierKind} {domain : Paging.Shareability} {f : Frame} :
      domain ≠ .nsh →
      Step (.barrier (.dsb kind domain)) f () (f.raised (Frame.dsbEffect f.thread.views kind)) (.barrier (.dsb kind domain))
  | isb {f : Frame} : Step (.barrier .isb) f () f.synchronize (.barrier .isb)
  | maintain {req : Paging.Request} {deps : Deps} {f : Frame} {m : Maintenance} {operands t : View}
      {memory : Memory} {promised : Bool} :
      req.maintenance = .ok m → f.depsView deps = .ok operands →
      f.place (.maintain f.thread.tid m) = .ok (memory, t, promised) → f.maintainPre operands < t →
      Step (.maintain req deps) f () (f.afterMaintain t memory promised) (.maintain m (f.maintainPre operands) t)
  | announceBranch {target : Int} {deps : Deps} {f : Frame} {view : View} :
      f.depsView deps = .ok view →
      Step (.announceBranch target deps) f () (f.raised (.speculation, view)) .other
  | startWalk {va : Int} {f : Frame} {cs : List Candidate} {c : Candidate} :
      f.walkCandidates va = .ok cs → c ∈ cs →
      Step (.startWalk va) f ⟨c.base, c.asid⟩ { f with scratch := f.scratch.startWalk (pageOf va) c.flight }
        (.walk va c)
  | endWalk {va : Int} {f : Frame} {w : Flight} :
      f.scratch.flights[pageOf va]? = some w → w.remaining = [] → w.context = none ∨ w.bound ≠ .infinity →
      Step (.endWalk va) f () { f with scratch := f.scratch.landed (pageOf va) } .other
  | cacheWalk {va : Int} {f : Frame} {w : Flight} {context : Paging.Context} {cache : Paging.Cache} :
      f.scratch.flights[pageOf va]? = some w → w.remaining = [] → w.context = some context →
      w.bound = .infinity → f.thread.cache.add context w.descriptors = .ok cache →
      Step (.endWalk va) f ()
        { f with scratch := f.scratch.landed (pageOf va), thread := f.thread.withCache cache } .other
  | returnFromException {f : Frame} : Step .returnFromException f () f.synchronize .other
  | halt {f : Frame} : Step .halt f () f.synchronize .other
  | choose {bits : Number} {f : Frame} {picks : List Int} {value : Int} :
      (Space.bits bits).picks = .ok picks → value ∈ picks → Step (.choose bits) f value f .other

/-- How an instruction runs from one frame to another, and what its effects did, in order. -/
inductive Instr.Runs : Instr → Frame → List Action → Frame → Prop
  | done {f : Frame} : Runs .done f [] f
  | ask {e : Effect} {next : e.Answer → Instr} {f g h : Frame} {answer : e.Answer} {a : Action} {as : List Action} :
      e.Step f answer g a → Runs (next answer) g as h → Runs (.ask e next) f (a :: as) h

/-- What is left of an instruction, and the frame, once it has come some way. -/
inductive Instr.Comes : Instr → Frame → Instr → Frame → Prop
  | here {i : Instr} {f : Frame} : Comes i f i f
  | on {e : Effect} {next : e.Answer → Instr} {f g h : Frame} {answer : e.Answer} {a : Action} {i : Instr} :
      e.Step f answer g a → Comes (next answer) g i h → Comes (.ask e next) f i h

theorem Instr.Runs.comes {i : Instr} {f g : Frame} {as : List Action} (r : i.Runs f as g) : i.Comes f .done g := by
  induction r with
  | done => exact .here
  | ask hs _ ih => exact .on hs ih

/-- What is left of an instruction, and the frame, once it has come some way by doing these actions. -/
inductive Instr.ComesBy : Instr → Frame → List Action → Instr → Frame → Prop
  | here {i : Instr} {f : Frame} : ComesBy i f [] i f
  | on {e : Effect} {next : e.Answer → Instr} {f g h : Frame} {answer : e.Answer} {a : Action} {as : List Action}
      {i : Instr} : e.Step f answer g a → ComesBy (next answer) g as i h → ComesBy (.ask e next) f (a :: as) i h

theorem Instr.comes_iff {i j : Instr} {f g : Frame} : i.Comes f j g ↔ ∃ as, i.ComesBy f as j g := by
  constructor
  · intro h
    induction h with
    | here => exact ⟨[], .here⟩
    | on hs _ ih =>
      obtain ⟨as, h⟩ := ih
      exact ⟨_, .on hs h⟩
  · rintro ⟨as, h⟩
    induction h with
    | here => exact .here
    | on hs _ ih => exact .on hs ih

/-! ### The rules are what the machine does -/

namespace Frame

theorem readReg_eq_ok {f g : Frame} {reg : String} {v : Int} : f.readReg reg = .ok (g, v) ↔
    ∃ held, f.thread.holds reg = .ok held ∧ g = { f with scratch := f.scratch.addRegRead held.view } ∧ v = held.value := by
  simp [readReg]

theorem writeReg_eq_ok {f g : Frame} {reg : String} {value : Int} {deps : Deps} :
    f.writeReg reg value deps = .ok g ↔
      ∃ view, f.depsView deps = .ok view ∧ g = { f with thread := f.thread.hold reg ⟨value, view⟩ } := by
  simp [writeReg]

theorem announceBranch_eq_ok {f g : Frame} {deps : Deps} :
    f.announceBranch deps = .ok g ↔ ∃ view, f.depsView deps = .ok view ∧ g = f.raised (.speculation, view) := by
  simp [announceBranch, raised]

theorem barrier_eq_ok {f g : Frame} {b : Barrier} : f.barrier b = .ok g ↔
    match b with
    | .isb => g = f.synchronize
    | .dmb kind domain => domain ≠ .nsh ∧ g = f.raised (dmbEffect f.thread.views kind)
    | .dsb kind domain => domain ≠ .nsh ∧ g = f.raised (dsbEffect f.thread.views kind) := by
  simp only [barrier, raised]
  cases b <;> dsimp only
  · split <;> simp [*, eq_comm]
  · split <;> simp [*, eq_comm]
  · simp [eq_comm]

theorem flight_eq_ok {s : Scratch} {page va : Int} {w : Flight} : s.flight page va = .ok w ↔ s.flights[page]? = some w := by
  rw [Scratch.flight]
  cases s.flights[page]? <;> simp

theorem nextStep_eq_ok {s t : Scratch} {page va pa : Int} {step : Paging.Step} {w : Flight} :
    s.nextStep page va pa = .ok (t, step, w) ↔ ∃ remaining, s.flights[page]? = some w ∧
      w.remaining = step :: remaining ∧ step.pa = pa ∧ t = s.advance page w remaining := by
  rw [Scratch.nextStep]
  simp only [bind_eq_ok, flight_eq_ok]
  constructor
  · rintro ⟨w', hw, h⟩
    split at h
    · simp at h
    · next step' remaining hr =>
      by_cases hpa : step'.pa = pa
      · rw [if_neg (Decidable.not_not.mpr hpa)] at h
        simp only [pure_eq_ok, Prod.mk.injEq] at h
        obtain ⟨rfl, rfl, rfl⟩ := h
        exact ⟨remaining, hw, hr, hpa, rfl⟩
      · rw [if_pos hpa] at h
        simp at h
  · rintro ⟨remaining, hw, hr, hpa, rfl⟩
    refine ⟨w, hw, ?_⟩
    simp [hr, hpa, Scratch.advance]

theorem readDescriptor_eq_ok {f g : Frame} {req : ReadRequest} {v : Int} : f.readDescriptor req = .ok (g, v) ↔
    ∃ va w step remaining, req.va = some va ∧ f.scratch.flights[pageOf va]? = some w ∧
      w.remaining = step :: remaining ∧ step.pa = req.pa ∧ v = step.descriptor ∧
      g = { f with scratch := (f.scratch.advance (pageOf va) w remaining).addRead w.time } := by
  rw [readDescriptor]
  cases hva : req.va with
  | none => simp
  | some va =>
    simp only [bind_eq_ok, nextStep_eq_ok, pure_eq_ok, Prod.exists, Prod.mk.injEq, Option.some.injEq]
    constructor
    · rintro ⟨s, step, w, ⟨remaining, hw, hr, hpa, rfl⟩, rfl, rfl⟩
      exact ⟨va, w, step, remaining, rfl, hw, hr, hpa, rfl, rfl⟩
    · rintro ⟨_, w, step, remaining, rfl, hw, hr, hpa, rfl, rfl⟩
      exact ⟨_, step, w, ⟨remaining, hw, hr, hpa, rfl⟩, rfl, rfl⟩

theorem landed_eq_ok {s t : Scratch} {page va : Int} {w : Flight} : s.endWalk page va = .ok (t, w) ↔
    s.flights[page]? = some w ∧ w.remaining = [] ∧ t = s.landed page := by
  rw [Scratch.endWalk]
  simp only [bind_eq_ok, flight_eq_ok]
  constructor
  · rintro ⟨w', hw, h⟩
    by_cases hr : w'.remaining = []
    · simp only [hr, List.isEmpty_nil, Bool.not_true, Bool.false_eq_true, if_false, pure_eq_ok, Prod.mk.injEq] at h
      obtain ⟨rfl, rfl⟩ := h
      exact ⟨hw, hr, rfl⟩
    · simp [hr] at h
  · rintro ⟨hw, hr, rfl⟩
    exact ⟨w, hw, by simp [hr, Scratch.landed]⟩

theorem endWalk_eq_ok {f g : Frame} {va : Int} : f.endWalk va = .ok g ↔
    ∃ w, f.scratch.flights[pageOf va]? = some w ∧ w.remaining = [] ∧
      ((w.context = none ∨ w.bound ≠ .infinity) ∧ g = { f with scratch := f.scratch.landed (pageOf va) } ∨
        ∃ context cache, w.context = some context ∧ w.bound = .infinity ∧
          f.thread.cache.add context w.descriptors = .ok cache ∧
          g = { f with scratch := f.scratch.landed (pageOf va), thread := f.thread.withCache cache }) := by
  rw [endWalk]
  simp only [bind_eq_ok, landed_eq_ok, Prod.exists]
  constructor
  · rintro ⟨s, w, ⟨hw, hr, rfl⟩, h⟩
    refine ⟨w, hw, hr, ?_⟩
    cases hc : w.context with
    | none => exact .inl ⟨.inl rfl, by simpa [hc] using h⟩
    | some context =>
      by_cases hb : w.bound = .infinity
      · simp only [hc, hb, if_true, bind_eq_ok, pure_eq_ok] at h
        obtain ⟨cache, ha, rfl⟩ := h
        exact .inr ⟨context, cache, rfl, hb, ha, rfl⟩
      · exact .inl ⟨.inr hb, by simpa [hc, hb] using h⟩
  · rintro ⟨w, hw, hr, h⟩
    refine ⟨_, w, ⟨hw, hr, rfl⟩, ?_⟩
    rcases h with ⟨hc | hb, rfl⟩ | ⟨context, cache, hc, hb, ha, rfl⟩
    · simp [hc]
    · cases hc : w.context <;> simp [hb]
    · simp [hc, hb, ha]

theorem size_of_fetch {f : Frame} {req : ReadRequest} {v : Int} (h : f.fetch req = .ok v) : req.size = 4 := by
  by_contra hs
  rw [fetch, if_pos hs] at h
  simp at h

theorem yields_readFrom {f g : Frame} {req : ReadRequest} {addr : View} {r : Memory.Read} {v : Int} :
    (f.readFrom req req.pa addr r).Yields (g, v) ↔
      ¬f.scratch.bound < .whole (f.readPost req addr r) ∧ g = f.afterRead req addr r ∧ v = r.value := by
  change (if f.scratch.bound < .whole (f.readPost req addr r) then _ else
    Outcome.done (f.afterRead req addr r, r.value)).Yields (g, v) ↔ _
  split
  · next hb => simp [hb]
  · next hb => simp [hb]

theorem yields_read {f g : Frame} {req : ReadRequest} {v : Int} :
    (f.read req).Yields (g, v) ↔ ∃ a, Effect.Step (.read req) f v g a := by
  constructor
  · intro h
    rw [read] at h
    split at h
    · next hk =>
      simp only [Outcome.yields_bind', Outcome.yields_lift, Outcome.yields_pure, Prod.mk.injEq] at h
      obtain ⟨value, hf, rfl, rfl⟩ := h
      exact ⟨_, .fetch hk hf⟩
    · next hf =>
      split at h
      · simp at h
      · next hsize =>
        split at h
        · next hk =>
          obtain ⟨va, w, step, remaining, hva, hw, hr, hpa, rfl, rfl⟩ := readDescriptor_eq_ok.mp (Outcome.yields_lift.mp h)
          exact ⟨_, .descriptor hk (Decidable.not_not.mp hsize) hva hw hr hpa⟩
        · next hw =>
          have hk : req.kind.isExplicit = true := by cases hk : req.kind <;> simp_all [ReadKind.isExplicit]
          simp only [readExplicit, Outcome.yields_bind', Outcome.yields_lift, checkLocation_eq_ok,
            Outcome.yields_among] at h
          obtain ⟨loc, ⟨ha, rfl⟩, addr, hd, r, hr, h⟩ := h
          obtain ⟨hb, rfl, rfl⟩ := yields_readFrom.mp h
          exact ⟨_, .read hk (Decidable.not_not.mp hsize) ha hd hr hb⟩
  · rintro ⟨a, h⟩
    rw [read]
    cases h with
    | fetch hk hf => simp [hk, hf]
    | descriptor hk hsize hva hw hr hpa =>
      have hd := readDescriptor_eq_ok.mpr ⟨_, _, _, _, hva, hw, hr, hpa, rfl, rfl⟩
      simp [hk, hsize, hd]
    | @read _ _ addr r hk hsize ha hd hr hb =>
      have hf : req.kind ≠ .fetch := by rintro hf; simp [hf, ReadKind.isExplicit] at hk
      have hw : req.kind ≠ .walk := by rintro hw; simp [hw, ReadKind.isExplicit] at hk
      rw [if_neg hf, if_neg (Decidable.not_not.mpr hsize), if_neg hw]
      simp only [readExplicit, Outcome.yields_bind', Outcome.yields_lift, checkLocation_eq_ok, Outcome.yields_among]
      exact ⟨_, ⟨ha, rfl⟩, addr, hd, r, hr, yields_readFrom.mpr ⟨hb, rfl, rfl⟩⟩

theorem yields_store {f g : Frame} {req : WriteRequest} {v : Bool} :
    (f.store req req.pa).Yields (g, v) ↔ ∃ addr data memory t promised,
      f.depsView req.addrDeps = .ok addr ∧ f.depsView req.dataDeps = .ok data ∧
      f.place (.write f.thread.tid req.pa req.value) = .ok (memory, t, promised) ∧
      f.writeTrouble req memory req.pa (f.writePre req addr data) t = none ∧
      g = f.afterWrite req (View.join addr data) t memory promised ∧ v = true := by
  simp only [store, Outcome.yields_bind', Outcome.yields_lift, Prod.exists, exists_and_left]
  refine exists_congr fun addr => and_congr_right fun _ => exists_congr fun data => and_congr_right fun _ =>
    exists_congr fun memory => exists_congr fun t => exists_congr fun promised => and_congr_right ?_
  intro _
  split <;> simp_all [afterWrite]

theorem yields_write {f g : Frame} {req : WriteRequest} {v : Bool} :
    (f.write req).Yields (g, v) ↔ ∃ a, Effect.Step (.write req) f v g a := by
  constructor
  · intro h
    rw [write] at h
    split at h
    · simp at h
    · next hsize =>
      simp only [Outcome.yields_bind', Outcome.yields_lift, checkLocation_eq_ok] at h
      obtain ⟨loc, ⟨ha, rfl⟩, h⟩ := h
      have stores (h : (f.store req req.pa).Yields (g, v)) : ∃ a, Effect.Step (.write req) f v g a := by
        obtain ⟨addr, data, memory, t, promised, hd, hd', hp, ht, rfl, rfl⟩ := yields_store.mp h
        exact ⟨_, .write (Decidable.not_not.mp hsize) ha hd hd' hp ht⟩
      split at h
      · next he =>
        obtain ⟨c, -, h⟩ := Outcome.yields_among.mp h
        split at h
        · exact stores h
        · simp only [Outcome.yields_done, Prod.mk.injEq] at h
          obtain ⟨rfl, rfl⟩ := h
          exact ⟨_, .writeFailed (Decidable.not_not.mp hsize) ha he⟩
      · exact stores h
  · rintro ⟨a, h⟩
    rw [write]
    cases h with
    | write hsize ha hd hd' hp ht =>
      have stores := yields_store.mpr ⟨_, _, _, _, _, hd, hd', hp, ht, rfl, rfl⟩
      rw [if_neg (Decidable.not_not.mpr hsize), Outcome.yields_bind']
      refine ⟨_, Outcome.yields_lift.mpr (checkLocation_eq_ok.mpr ⟨ha, rfl⟩), ?_⟩
      split
      · exact Outcome.yields_among.mpr ⟨true, by simp, stores⟩
      · exact stores
    | writeFailed hsize ha he =>
      rw [if_neg (Decidable.not_not.mpr hsize), Outcome.yields_bind']
      refine ⟨_, Outcome.yields_lift.mpr (checkLocation_eq_ok.mpr ⟨ha, rfl⟩), ?_⟩
      rw [if_pos he]
      exact Outcome.yields_among.mpr ⟨false, by simp, by simp⟩

theorem yields_maintain {f g : Frame} {req : Paging.Request} {deps : Deps} :
    (f.maintain req deps).Yields g ↔ ∃ a, Effect.Step (.maintain req deps) f () g a := by
  constructor
  · intro h
    simp only [maintain, Outcome.yields_bind', Outcome.yields_lift, Prod.exists] at h
    obtain ⟨m, hm, operands, hd, memory, t, promised, hp, h⟩ := h
    split at h
    · simp at h
    · next ht =>
      rw [Outcome.yields_done] at h
      subst h
      exact ⟨_, .maintain hm hd hp (Int.not_le.mp ht)⟩
  · rintro ⟨a, h⟩
    cases h with
    | maintain hm hd hp ht =>
      simp only [maintain, Outcome.yields_bind', Outcome.yields_lift, Prod.exists]
      refine ⟨_, hm, _, hd, _, _, _, hp, ?_⟩
      rw [if_neg (Int.not_le.mpr ht)]
      exact .done

theorem yields_startWalk {f g : Frame} {va : Int} {s : WalkStart} :
    (f.startWalk va).Yields (g, s) ↔ ∃ a, Effect.Step (.startWalk va) f s g a := by
  simp only [startWalk, Outcome.yields_bind', Outcome.yields_lift, Outcome.yields_among, Outcome.yields_done,
    Prod.mk.injEq]
  constructor
  · rintro ⟨cs, hcs, c, hc, rfl, rfl⟩
    exact ⟨_, .startWalk hcs hc⟩
  · rintro ⟨a, h⟩
    cases h with
    | startWalk hcs hc => exact ⟨_, hcs, _, hc, rfl, rfl⟩

end Frame

theorem yields_answered {o : Outcome Frame} {g : Frame} : (answered o).Yields (g, ()) ↔ o.Yields g := by
  simp [answered, Outcome.yields_map]

theorem yields_answered_ofExcept {x : Except Fault Frame} {g : Frame} :
    (answered (.ofExcept x)).Yields (g, ()) ↔ x = .ok g :=
  yields_answered.trans Outcome.yields_ofExcept

/-- An effect yields what its rules allow. -/
theorem Effect.Step.yields {e : Effect} {f g : Frame} {v : e.Answer} {a : Action} (h : e.Step f v g a) :
    (e.run f).Yields (g, v) := by
  cases h with
  | readReg h => exact Outcome.yields_ofExcept.mpr (Frame.readReg_eq_ok.mpr ⟨_, h, rfl, rfl⟩)
  | writeReg h => exact yields_answered_ofExcept.mpr (Frame.writeReg_eq_ok.mpr ⟨_, h, rfl⟩)
  | announceBranch h => exact yields_answered_ofExcept.mpr (Frame.announceBranch_eq_ok.mpr ⟨_, h, rfl⟩)
  | dmb h | dsb h => exact yields_answered_ofExcept.mpr (Frame.barrier_eq_ok.mpr ⟨h, rfl⟩)
  | isb => exact yields_answered_ofExcept.mpr (Frame.barrier_eq_ok.mpr rfl)
  | fetch hk h => exact Frame.yields_read.mpr ⟨_, .fetch hk h⟩
  | descriptor hk hs hva hw hr hpa => exact Frame.yields_read.mpr ⟨_, .descriptor hk hs hva hw hr hpa⟩
  | read hk hs ha hd hr hb => exact Frame.yields_read.mpr ⟨_, .read hk hs ha hd hr hb⟩
  | write hs ha hd hd' hp ht => exact Frame.yields_write.mpr ⟨_, .write hs ha hd hd' hp ht⟩
  | writeFailed hs ha he => exact Frame.yields_write.mpr ⟨_, .writeFailed hs ha he⟩
  | maintain hm hd hp ht => exact yields_answered.mpr (Frame.yields_maintain.mpr ⟨_, .maintain hm hd hp ht⟩)
  | startWalk hcs hc => exact Frame.yields_startWalk.mpr ⟨_, .startWalk hcs hc⟩
  | endWalk hw hr hc =>
    exact yields_answered_ofExcept.mpr (Frame.endWalk_eq_ok.mpr ⟨_, hw, hr, .inl ⟨hc, rfl⟩⟩)
  | cacheWalk hw hr hc hb ha =>
    exact yields_answered_ofExcept.mpr (Frame.endWalk_eq_ok.mpr ⟨_, hw, hr, .inr ⟨_, _, hc, hb, ha, rfl⟩⟩)
  | returnFromException | halt => exact .done
  | choose hs hn => exact Outcome.yields_anyBits.mpr ⟨_, _, hs, hn, .done⟩

/-- What an effect yields, one of its rules allows. -/
theorem Effect.step_of_yields {f g : Frame} : ∀ {e : Effect} {v : e.Answer}, (e.run f).Yields (g, v) →
    ∃ a, e.Step f v g a
  | .readReg _, _, h => by
    obtain ⟨held, hh, rfl, rfl⟩ := Frame.readReg_eq_ok.mp (Outcome.yields_ofExcept.mp h)
    exact ⟨_, .readReg hh⟩
  | .writeReg _ _ _, _, h => by
    obtain ⟨view, hd, rfl⟩ := Frame.writeReg_eq_ok.mp (yields_answered_ofExcept.mp h)
    exact ⟨_, .writeReg hd⟩
  | .readIndirect _ _, _, h | .update _ _ _, _, h | .discard, _, h => by cases h
  | .read _, _, h => Frame.yields_read.mp h
  | .write _, _, h => Frame.yields_write.mp h
  | .barrier (.dmb _ _), _, h => by
    obtain ⟨hd, rfl⟩ := Frame.barrier_eq_ok.mp (yields_answered_ofExcept.mp h)
    exact ⟨_, .dmb hd⟩
  | .barrier (.dsb _ _), _, h => by
    obtain ⟨hd, rfl⟩ := Frame.barrier_eq_ok.mp (yields_answered_ofExcept.mp h)
    exact ⟨_, .dsb hd⟩
  | .barrier .isb, _, h => by
    obtain rfl := Frame.barrier_eq_ok.mp (yields_answered_ofExcept.mp h)
    exact ⟨_, .isb⟩
  | .maintain _ _, _, h => Frame.yields_maintain.mp (yields_answered.mp h)
  | .announceBranch _ _, _, h => by
    obtain ⟨view, hd, rfl⟩ := Frame.announceBranch_eq_ok.mp (yields_answered_ofExcept.mp h)
    exact ⟨_, .announceBranch hd⟩
  | .startWalk _, _, h => Frame.yields_startWalk.mp h
  | .endWalk _, _, h => by
    obtain ⟨w, hw, hr, ⟨hc, rfl⟩ | ⟨context, cache, hc, hb, ha, rfl⟩⟩ :=
      Frame.endWalk_eq_ok.mp (yields_answered_ofExcept.mp h)
    · exact ⟨_, .endWalk hw hr hc⟩
    · exact ⟨_, .cacheWalk hw hr hc hb ha⟩
  | .returnFromException, _, h => by cases h; exact ⟨_, .returnFromException⟩
  | .halt, _, h => by cases h; exact ⟨_, .halt⟩
  | .choose bits, _, h => by
    obtain ⟨picks, n, hs, hn, h⟩ := Outcome.yields_anyBits.mp h
    cases h
    exact ⟨_, .choose hs hn⟩

/-- An effect yields exactly what its rules allow. -/
theorem Effect.yields_run {e : Effect} {f g : Frame} {v : e.Answer} :
    (e.run f).Yields (g, v) ↔ ∃ a, e.Step f v g a :=
  ⟨step_of_yields, fun ⟨_, h⟩ => h.yields⟩

/-- An instruction yields exactly the frames that it can run to. -/
theorem Instr.yields_run : ∀ {i : Instr} {f h : Frame}, (i.run f).Yields h ↔ ∃ as, i.Runs f as h
  | .done, f, h => by
    rw [Instr.run, Outcome.yields_done]
    exact ⟨fun e => ⟨[], e ▸ .done⟩, fun ⟨_, r⟩ => by cases r; rfl⟩
  | .thrown t, f, h => by
    rw [Instr.run, Outcome.yields_guarded]
    exact ⟨nofun, nofun⟩
  | .ask e next, f, h => by
    rw [Instr.run, Outcome.yields_bind]
    constructor
    · rintro ⟨⟨g, v⟩, hs, hr⟩
      obtain ⟨a, hs⟩ := Effect.yields_run.mp (Outcome.yields_guarded.mp hs)
      obtain ⟨as, hr⟩ := yields_run.mp hr
      exact ⟨a :: as, .ask hs hr⟩
    · rintro ⟨as, r⟩
      cases r with
      | ask hs hr =>
        exact ⟨(_, _), Outcome.yields_guarded.mpr (Effect.yields_run.mpr ⟨_, hs⟩), yields_run.mpr ⟨_, hr⟩⟩

end Litmus
