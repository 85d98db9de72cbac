import Litmus.Instruction
import Litmus.Proofs.Memory.Renamed
import Litmus.Proofs.Outcome.Shuffled

/-!
Instructions of threads with other names. No rule of an effect looks at the name of a thread, except to tell its own
events from those of others. Main fact: if a renaming keeps threads apart, an instruction runs under it to the same
outcome, renamed.
-/

namespace Litmus

variable {α β γ δ : Type} {ρ : Int → Int}

/-! ### Outcomes with changed results -/

namespace Outcome

theorem map_bind {k : α → Outcome β} {F : β → γ} : ∀ {o : Outcome α}, (o.bind k).map F = o.bind fun a => (k a).map F
  | .done _ | .fail _ | .discard _ _ | .thrown _ => rfl
  | .choice _ _ => congrArg _ (funext fun _ => map_bind)

theorem bind_map {F : α → β} {k : β → Outcome γ} : ∀ {o : Outcome α}, (o.map F).bind k = o.bind fun a => k (F a)
  | .done _ | .fail _ | .discard _ _ | .thrown _ => rfl
  | .choice _ _ => congrArg _ (funext fun _ => bind_map)

theorem map_map {F : α → β} {G : β → γ} : ∀ {o : Outcome α}, (o.map F).map G = o.map fun a => G (F a)
  | .done _ | .fail _ | .discard _ _ | .thrown _ => rfl
  | .choice _ _ => congrArg _ (funext fun _ => map_map)

theorem guarded_map {F : α → β} : ∀ {o : Outcome α}, (o.map F).guarded = o.guarded.map F
  | .done _ | .fail _ | .discard _ _ | .thrown (.fault _) | .thrown (.other _ _) => rfl
  | .choice _ _ => congrArg _ (funext fun _ => guarded_map)

/-- Work grafted onto work that may fault goes on from its result as it is, and is changed afterwards. -/
theorem map_bind_lift {x : Except Fault α} {k : α → Outcome β} {F : β → γ} :
    ((liftM x : Outcome α) >>= k).map F = (liftM x : Outcome α) >>= fun a => (k a).map F := map_bind

theorem lift_map {x : Except Fault α} {F : α → β} : (liftM (x.map F) : Outcome β) = (liftM x : Outcome α).map F := by
  cases x <;> rfl

theorem lift_map_bind {x : Except Fault α} {F : α → β} {k : β → Outcome γ} :
    ((liftM (x.map F) : Outcome β) >>= k) = (liftM x : Outcome α) >>= fun a => k (F a) := by
  cases x <;> rfl

theorem among_map {options : List δ} {k : δ → Outcome α} {F : α → β} :
    (among options k).map F = among options fun c => (k c).map F := by
  unfold among
  split
  · rfl
  · rfl
  · refine congrArg _ (funext fun pick => ?_)
    dsimp only
    split <;> rfl

end Outcome

/-! ### Threads and frames -/

namespace Thread

/-- The thread with another name. -/
def renamed (ρ : Int → Int) (t : Thread) : Thread := { t with tid := ρ t.tid }

theorem renamed_injective (h : Function.Injective ρ) : Function.Injective (renamed ρ) := by
  intro t u he
  cases t
  cases u
  simp_all [renamed, h.eq_iff]

theorem hold_renamed (t : Thread) (reg : String) (r : Reg) : (t.renamed ρ).hold reg r = (t.hold reg r).renamed ρ := by
  rw [hold, hold]
  split <;> rfl

end Thread

namespace Frame

variable {f : Frame}

/-- The frame with its threads renamed. -/
def renamed (ρ : Int → Int) (f : Frame) : Frame :=
  { f with thread := f.thread.renamed ρ, memory := f.memory.renamed ρ }

theorem memory_renamed : (f.renamed ρ).memory = f.memory.renamed ρ := rfl

theorem thread_renamed : (f.renamed ρ).thread = f.thread.renamed ρ := rfl

/-- A result with the threads of its frame renamed. -/
def renamedWith (ρ : Int → Int) (x : Frame × α) : Frame × α := (x.1.renamed ρ, x.2)

theorem depsView_renamed (deps : Deps) : (f.renamed ρ).depsView deps = f.depsView deps := by cases deps <;> rfl

theorem readReg_renamed (reg : String) : (f.renamed ρ).readReg reg = (f.readReg reg).map (renamedWith ρ) := by
  change (do let held ← f.thread.holds reg; _) = Except.map _ (do let held ← f.thread.holds reg; _)
  cases f.thread.holds reg <;> rfl

theorem writeReg_renamed (reg : String) (value : Int) (deps : Deps) :
    (f.renamed ρ).writeReg reg value deps = (f.writeReg reg value deps).map (renamed ρ) := by
  rw [writeReg, writeReg, depsView_renamed]
  cases f.depsView deps with
  | error => rfl
  | ok view => exact congrArg Except.ok (congrArg (Frame.mk _ · _) (Thread.hold_renamed _ _ _))

theorem announceBranch_renamed (deps : Deps) :
    (f.renamed ρ).announceBranch deps = (f.announceBranch deps).map (renamed ρ) := by
  rw [announceBranch, announceBranch, depsView_renamed]
  cases f.depsView deps <;> rfl

/-- Events of one thread are placed alike, whatever the threads are called. -/
theorem place_renamed (h : Function.Injective ρ) (e : Event) :
    (f.renamed ρ).place (e.renamed ρ) = (f.place e).map fun x => (x.1.renamed ρ, x.2) := by
  have hfulfil : (f.renamed ρ).memory.fulfil? (e.renamed ρ) (f.renamed ρ).thread.promises =
      f.memory.fulfil? e f.thread.promises := Memory.fulfil?_renamed h _
  rw [place, place, hfulfil]
  cases f.memory.fulfil? e f.thread.promises with
  | some t => rfl
  | none =>
    dsimp only
    rw [memory_renamed, Memory.promise_renamed]
    cases f.memory.promise e <;> rfl

theorem promiseWrite_renamed (loc value : Int) :
    (f.renamed ρ).promiseWrite loc value = (f.promiseWrite loc value).map (renamedWith ρ) := by
  have hpromise (l : Int) : (f.renamed ρ).memory.promise (.write (f.renamed ρ).thread.tid l value) =
      (f.memory.promise (.write f.thread.tid l value)).map fun x => (x.1.renamed ρ, x.2) :=
    Memory.promise_renamed (e := .write f.thread.tid l value)
  rw [promiseWrite, promiseWrite]
  cases checkLocation loc with
  | error => rfl
  | ok l =>
    simp only [bind, Except.bind, hpromise]
    cases f.memory.promise (.write f.thread.tid l value) <;> rfl

/-! ### Reads and writes -/

theorem threadAfterRead_renamed (t : Thread) (req : ReadRequest) (loc : Int) (addr post time : View) :
    threadAfterRead (t.renamed ρ) req loc addr post time = (threadAfterRead t req loc addr post time).renamed ρ := by
  unfold threadAfterRead
  split <;> split <;> rfl

theorem readFrom_renamed (req : ReadRequest) (loc : Int) (addr : View) (r : Memory.Read) :
    (f.renamed ρ).readFrom req loc addr r = (f.readFrom req loc addr r).map (renamedWith ρ) := by
  rw [readFrom, readFrom]
  change (if f.scratch.bound < .whole (View.join (f.readPre req addr) (f.readContribution req loc r)) then _ else _) = _
  split
  · rfl
  · rw [thread_renamed, threadAfterRead_renamed]
    rfl

theorem readCandidates_renamed (req : ReadRequest) (loc : Int) (addr : View) :
    (f.renamed ρ).readCandidates req loc addr = f.readCandidates req loc addr :=
  congrArg (List.filter _) Memory.candidates_renamed

theorem readExplicit_renamed (req : ReadRequest) :
    (f.renamed ρ).readExplicit req = (f.readExplicit req).map (renamedWith ρ) := by
  rw [readExplicit, readExplicit, Outcome.map_bind_lift]
  refine bind_congr fun loc => ?_
  rw [Outcome.map_bind_lift, depsView_renamed]
  refine bind_congr fun addr => ?_
  rw [Outcome.among_map, readCandidates_renamed]
  exact congrArg _ (funext (readFrom_renamed req loc addr))

theorem readDescriptor_renamed (req : ReadRequest) :
    (f.renamed ρ).readDescriptor req = (f.readDescriptor req).map (renamedWith ρ) := by
  rw [readDescriptor, readDescriptor]
  cases req.va with
  | none => rfl
  | some va =>
    have hscratch : (f.renamed ρ).scratch = f.scratch := rfl
    simp only [bind, Except.bind, hscratch]
    cases f.scratch.nextStep (Paging.pageOf va) va req.pa <;> rfl

theorem fetch_renamed (req : ReadRequest) : (f.renamed ρ).fetch req = f.fetch req := by
  have hread (loc : Int) (v : View) : (f.renamed ρ).memory.readAt loc v = f.memory.readAt loc v := Memory.readAt_renamed
  rw [fetch, fetch]
  simp only [hread]
  rfl

theorem read_renamed (req : ReadRequest) : (f.renamed ρ).read req = (f.read req).map (renamedWith ρ) := by
  rw [read, read]
  split
  · rw [fetch_renamed, Outcome.map_bind_lift]
    rfl
  · split
    · rfl
    · split
      · rw [readDescriptor_renamed]
        exact Outcome.lift_map
      · exact readExplicit_renamed req

theorem writeTrouble_renamed (h : Function.Injective ρ) (req : WriteRequest) (m : Memory) (loc : Int) (pre t : View) :
    (f.renamed ρ).writeTrouble req (m.renamed ρ) loc pre t = f.writeTrouble req m loc pre t := by
  have hexclusive : (f.renamed ρ).exclusiveTrouble (m.renamed ρ) loc t = f.exclusiveTrouble m loc t := by
    have halone (v : View) : ((m.renamed ρ).cut t).exclusive loc (f.renamed ρ).thread.tid v =
        (m.cut t).exclusive loc f.thread.tid v := by
      rw [Memory.cut_renamed]
      exact Memory.exclusive_renamed h f.thread.tid
    rw [exclusiveTrouble, exclusiveTrouble]
    simp only [halone]
    rfl
  rw [writeTrouble, writeTrouble, hexclusive]
  rfl

theorem threadAfterWrite_renamed (t : Thread) (req : WriteRequest) (loc : Int) (operands time : View) (promised : Bool) :
    threadAfterWrite (t.renamed ρ) req loc operands time promised =
      (threadAfterWrite t req loc operands time promised).renamed ρ := by
  unfold threadAfterWrite
  split <;> split <;> split <;> rfl

theorem store_renamed (h : Function.Injective ρ) (req : WriteRequest) (loc : Int) :
    (f.renamed ρ).store req loc = (f.store req loc).map (renamedWith ρ) := by
  rw [store, store, Outcome.map_bind_lift, depsView_renamed]
  refine bind_congr fun addr => ?_
  rw [Outcome.map_bind_lift, depsView_renamed]
  refine bind_congr fun data => ?_
  rw [Outcome.map_bind_lift]
  change (liftM ((f.renamed ρ).place ((Event.write f.thread.tid loc req.value).renamed ρ)) >>= _) = _
  rw [place_renamed h, Outcome.lift_map_bind]
  refine bind_congr fun (m, t, promised) => ?_
  have hpre : (f.renamed ρ).writePre req addr data = f.writePre req addr data := rfl
  dsimp only
  rw [writeTrouble_renamed h, hpre]
  cases f.writeTrouble req m loc (f.writePre req addr data) t with
  | some => rfl
  | none =>
    dsimp only
    rw [thread_renamed, threadAfterWrite_renamed]
    rfl

theorem write_renamed (h : Function.Injective ρ) (req : WriteRequest) :
    (f.renamed ρ).write req = (f.write req).map (renamedWith ρ) := by
  rw [write, write]
  split
  · rfl
  · rw [Outcome.map_bind_lift]
    refine bind_congr fun loc => ?_
    split
    · rw [Outcome.among_map]
      refine congrArg _ (funext fun stores => ?_)
      split
      · exact store_renamed h req loc
      · rfl
    · exact store_renamed h req loc

/-! ### Barriers and maintenance -/

theorem maintained_renamed (cache : Paging.Cache) (events : List Event) :
    maintained cache (events.map (Event.renamed ρ)) = maintained cache events := by
  rw [maintained, maintained, List.foldl_map]
  congr 1
  funext c e
  cases e <;> rfl

theorem synchronize_renamed : (f.renamed ρ).synchronize = f.synchronize.renamed ρ := by
  have hpassed (lo hi : View) : (((f.renamed ρ).memory.cut hi).after lo).shown =
      ((f.memory.cut hi).after lo).shown.map (Event.renamed ρ) := by
    rw [memory_renamed, Memory.cut_renamed, Memory.after_renamed, Memory.shown_renamed]
  rw [synchronize, synchronize]
  simp only [hpassed, maintained_renamed]
  rfl

theorem barrier_renamed (b : Barrier) : (f.renamed ρ).barrier b = (f.barrier b).map (renamed ρ) := by
  cases b with
  | isb => exact congrArg Except.ok synchronize_renamed
  | _ =>
    simp only [barrier]
    split <;> rfl

theorem maintain_renamed (h : Function.Injective ρ) (req : Paging.Request) (deps : Deps) :
    (f.renamed ρ).maintain req deps = (f.maintain req deps).map (renamed ρ) := by
  rw [maintain, maintain, Outcome.map_bind_lift]
  refine bind_congr fun m => ?_
  rw [Outcome.map_bind_lift, depsView_renamed]
  refine bind_congr fun operands => ?_
  rw [Outcome.map_bind_lift]
  change (liftM ((f.renamed ρ).place ((Event.maintain f.thread.tid m).renamed ρ)) >>= _) = _
  rw [place_renamed h, Outcome.lift_map_bind]
  refine bind_congr fun (m, t, promised) => ?_
  change (if t ≤ f.maintainPre operands then _ else _) = Outcome.map _ (if t ≤ f.maintainPre operands then _ else _)
  split
  · rfl
  · cases promised <;> rfl

/-! ### Table walks -/

theorem validUntil_renamed (m : Memory) (time : View) (tag : Paging.Tag) :
    Candidate.validUntil (m.renamed ρ) time tag = Candidate.validUntil m time tag := by
  have hfind (P : View × Event → Bool) (hP : ∀ x, P (x.1, x.2.renamed ρ) = P x) :
      ((m.renamed ρ).after time).entries.find? P =
        ((m.after time).entries.find? P).map fun x => (x.1, x.2.renamed ρ) := by
    rw [Memory.after_renamed, Memory.entries_renamed, List.find?_map]
    exact congrArg (Option.map _ <| List.find? · _) (funext hP)
  unfold Candidate.validUntil
  dsimp only
  rw [hfind _ (by rintro ⟨t, e⟩; cases e <;> rfl)]
  cases (m.after time).entries.find? _ <;> rfl

theorem of_renamed (m : Memory) (va : Int) (time : View) (base asid : Int) (w : Paging.Walk) :
    Candidate.of (m.renamed ρ) va time base asid w = Candidate.of m va time base asid w := by
  rw [Candidate.of, Candidate.of, validUntil_renamed]

theorem cachedCandidates_renamed (va base asid : Int) :
    (f.renamed ρ).cachedCandidates va base asid = f.cachedCandidates va base asid := by
  rw [cachedCandidates, cachedCandidates]
  simp only [memory_renamed, of_renamed]
  rfl

theorem freshCandidates_renamed (va base asid : Int) :
    (f.renamed ρ).freshCandidates va base asid = f.freshCandidates va base asid := by
  rw [freshCandidates, freshCandidates]
  simp only [memory_renamed, Memory.cut_renamed, Memory.latest_renamed, of_renamed]
  rfl

theorem walkCandidates_renamed (va : Int) : (f.renamed ρ).walkCandidates va = f.walkCandidates va := by
  rw [walkCandidates, walkCandidates]
  simp only [cachedCandidates_renamed, freshCandidates_renamed]
  rfl

theorem startWalk_renamed (va : Int) : (f.renamed ρ).startWalk va = (f.startWalk va).map (renamedWith ρ) := by
  rw [startWalk, startWalk, walkCandidates_renamed, Outcome.map_bind_lift]
  refine bind_congr fun candidates => ?_
  rw [Outcome.among_map]
  rfl

theorem endWalk_renamed (va : Int) : (f.renamed ρ).endWalk va = (f.endWalk va).map (renamed ρ) := by
  have hscratch : (f.renamed ρ).scratch = f.scratch := rfl
  rw [endWalk, endWalk]
  simp only [bind, Except.bind, hscratch]
  cases f.scratch.endWalk (Paging.pageOf va) va with
  | error => rfl
  | ok x =>
    obtain ⟨scratch, w⟩ := x
    dsimp only
    cases w.context with
    | none => rfl
    | some context =>
      dsimp only
      split
      · change (do let cache ← f.thread.cache.add context w.descriptors; _) =
          Except.map _ (do let cache ← f.thread.cache.add context w.descriptors; _)
        cases f.thread.cache.add context w.descriptors <;> rfl
      · rfl

end Frame

/-! ### Instructions -/

theorem answered_map {o : Outcome Frame} {F : Frame → Frame} :
    answered (o.map F) = (answered o).map fun x => (F x.1, x.2) := by
  rw [answered, answered, Outcome.map_map, Outcome.map_map]

/-- Work of which only the frame is left, and that is renamed, answers with the renamed frame. -/
theorem answered_of_renamed {x y : Except Fault Frame} (h : x = y.map (Frame.renamed ρ)) :
    answered (liftM x) = (answered (liftM y)).map (Frame.renamedWith ρ) := by
  subst h
  cases y <;> rfl

/-- An effect has the same outcome whatever the threads are called. -/
theorem Effect.run_renamed (h : Function.Injective ρ) {f : Frame} : ∀ e : Effect,
    e.run (f.renamed ρ) = (e.run f).map (Frame.renamedWith ρ)
  | .readReg reg => (congrArg _ (Frame.readReg_renamed reg)).trans Outcome.lift_map
  | .writeReg reg value deps => answered_of_renamed (Frame.writeReg_renamed reg value deps)
  | .announceBranch _ deps => answered_of_renamed (Frame.announceBranch_renamed deps)
  | .barrier b => answered_of_renamed (Frame.barrier_renamed b)
  | .endWalk va => answered_of_renamed (Frame.endWalk_renamed va)
  | .readIndirect _ _ | .update _ _ _ | .discard => rfl
  | .read req => Frame.read_renamed req
  | .write req => Frame.write_renamed h req
  | .maintain req deps => (congrArg _ (Frame.maintain_renamed h req deps)).trans answered_map
  | .startWalk va => Frame.startWalk_renamed va
  | .returnFromException | .halt => congrArg (fun f => Outcome.done (f, ())) Frame.synchronize_renamed
  | .choose bits => by
    rw [run, run, Outcome.anyBits_eq_bind, Outcome.anyBits_eq_bind (k := fun value => .done (f, value)), Outcome.map_bind]
    rfl

/-- An instruction has the same outcome whatever the threads are called. -/
theorem Instr.run_renamed (h : Function.Injective ρ) : ∀ (i : Instr) (f : Frame),
    i.run (f.renamed ρ) = (i.run f).map (Frame.renamed ρ)
  | .done, _ | .thrown (.fault _), _ | .thrown (.other _ _), _ => rfl
  | .ask e next, f => by
    rw [run, run, Effect.run_renamed h, Outcome.guarded_map, Outcome.bind_map, Outcome.map_bind]
    exact congrArg _ (funext fun (g, v) => run_renamed h (next v) g)

end Litmus
