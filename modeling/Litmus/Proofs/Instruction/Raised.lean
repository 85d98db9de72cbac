import Litmus.Instruction

/-!
What the parts of effects raise. A choice fails with a code of its own at a pick that is not among its values. Main fact:
no work that an effect does and that may fault raises that code.
-/

namespace Litmus

variable {α β : Type}

/-- Whether work that may fault raises nothing about a pick. -/
def PickFree (x : Except Fault α) : Prop := ∀ f, x = .error f → f.code ≠ .pickOutside

namespace PickFree

theorem ok {a : α} : PickFree (.ok a) := nofun

theorem error {f : Fault} (h : f.code ≠ .pickOutside) : PickFree (.error f : Except Fault α) := by
  rintro _ ⟨⟩
  exact h

theorem bind {x : Except Fault α} {k : α → Except Fault β} (h : PickFree x) (hk : ∀ a, PickFree (k a)) :
    PickFree (x >>= k) := by
  cases x with
  | ok a => exact hk a
  | error f => exact error (h f rfl)

theorem mapM {k : α → Except Fault β} (hk : ∀ a, PickFree (k a)) : ∀ l : List α, PickFree (l.mapM k)
  | [] => ok
  | a :: l => by
    rw [List.mapM_cons]
    exact (hk a).bind fun _ => (mapM hk l).bind fun _ => ok

end PickFree

theorem accessSize_code (size : Number) (kind : String) : (Fault.accessSize size kind).code ≠ .pickOutside := nofun

theorem checkLocation_pickFree (pa : Int) : PickFree (checkLocation pa) := by
  rw [checkLocation]
  split
  · exact .ok
  · exact .error nofun

namespace Thread

variable (t : Thread) (reg : String)

theorem initialReg_pickFree : PickFree (t.initialReg reg) := by
  rw [initialReg]
  split
  · exact .ok
  · exact .error nofun

theorem readSystemAt_pickFree (position : Int) : PickFree (t.readSystemAt reg position) := by
  rw [readSystemAt]
  split
  · exact .ok
  · exact t.initialReg_pickFree reg

theorem holds_pickFree : PickFree (t.holds reg) := by
  rw [holds]
  split
  · exact t.readSystemAt_pickFree reg _
  · rw [readReg]
    split
    · exact .ok
    · exact t.initialReg_pickFree reg

end Thread

namespace Scratch

variable (s : Scratch) (page va : Int)

theorem readView_pickFree (index : Number) : PickFree (s.readView index) := by
  unfold readView
  split
  · split
    · exact .ok
    · exact .error nofun
  · exact .error nofun
  · exact .error nofun

theorem flight_pickFree : PickFree (s.flight page va) := by
  rw [flight]
  split
  · exact .ok
  · exact .error nofun

theorem nextStep_pickFree (pa : Int) : PickFree (s.nextStep page va pa) := by
  refine (s.flight_pickFree page va).bind fun w => ?_
  split
  · exact .error nofun
  · split
    · exact .error nofun
    · exact .ok

theorem endWalk_pickFree : PickFree (s.endWalk page va) := by
  refine (s.flight_pickFree page va).bind fun w => ?_
  split
  · exact .error nofun
  · exact .ok

end Scratch

namespace Paging

theorem descriptorAddress_pickFree (level : Level) (table va : Int) : PickFree (descriptorAddress level table va) := by
  have check (pa : Int) : PickFree (checkAddress pa) := by
    rw [checkAddress]
    split
    · exact .ok
    · exact .error nofun
  exact (check _).bind fun _ => check _

theorem walkFrom_pickFree (va : Int) (read : Level → Int → Int) : ∀ below table, PickFree (walkFrom va read below table)
  | 0, table => (descriptorAddress_pickFree _ table va).bind fun _ => .ok
  | below + 1, table => by
    refine (descriptorAddress_pickFree _ table va).bind fun pa => ?_
    dsimp only
    split
    · exact .ok
    · exact (walkFrom_pickFree va read below _).bind fun _ => .ok

theorem Cache.add_pickFree (c : Cache) (context : Context) (descriptors : List Int) :
    PickFree (c.add context descriptors) := by
  have check : ∀ level, PickFree (Level.check level)
    | .whole n => by
      rw [Level.check]
      split
      · exact .ok
      · exact .error nofun
    | .fraction _ _ | .infinite _ => .error nofun
  exact ((check context.level).bind fun _ => .ok).bind fun _ => .ok

theorem Request.maintenance_pickFree (r : Request) : PickFree r.maintenance := by
  have need (field : String) : ∀ value, PickFree (r.need field value)
    | some _ => .ok
    | none => .error nofun
  unfold maintenance
  by_cases hreach : r.regime ≠ .el10 ∨ r.shareability = .nsh
  · rw [if_pos hreach]
    exact .error nofun
  · rw [if_neg hreach]
    dsimp only
    split
    · exact .ok
    · exact (need _ _).bind fun _ => .ok
    · exact (need _ _).bind fun _ => (need _ _).bind fun _ => .ok
    · exact (need _ _).bind fun _ => .ok

end Paging

namespace Frame

variable (f : Frame)

theorem depsView_pickFree : ∀ deps, PickFree (f.depsView deps)
  | .implicit => .ok
  | .explicit regs reads =>
    (PickFree.mapM f.scratch.readView_pickFree reads).bind fun _ =>
      (PickFree.mapM f.thread.holds_pickFree regs).bind fun _ => .ok

theorem place_pickFree (e : Event) : PickFree (f.place e) := by
  rw [place]
  split
  · exact .ok
  · refine .bind ?_ fun _ => .ok
    rw [Memory.promise]
    split
    · exact .ok
    · exact .error nofun

theorem readDescriptor_pickFree (req : ReadRequest) : PickFree (f.readDescriptor req) := by
  rw [readDescriptor]
  split
  · exact (f.scratch.nextStep_pickFree _ _ _).bind fun _ => .ok
  · exact .error nofun

theorem fetch_pickFree (req : ReadRequest) : PickFree (f.fetch req) := by
  have hread : PickFree (f.memory.readAt (req.pa / 8 * 8) f.thread.views.contextSync) :=
    (checkLocation_pickFree _).bind fun _ => .ok
  unfold fetch
  by_cases hsize : req.size = 4
  · by_cases ha : req.pa % 4 = 0
    · rw [if_neg fun hne => hne hsize, if_neg fun hne => hne ha]
      exact hread.bind fun _ => .ok
    · rw [if_neg fun hne => hne hsize, if_pos ha]
      exact .error nofun
  · rw [if_pos hsize]
    exact .error nofun

theorem barrier_pickFree (b : Barrier) : PickFree (f.barrier b) := by
  have raised (domain : Paging.Shareability) (e : Counter × View) :
      PickFree (if domain = .nsh then .error (.localBarrier b.text) else .ok { f with thread := f.thread.raise e.1 e.2 }) := by
    split
    · exact .error nofun
    · exact .ok
  cases b with
  | isb => exact .ok
  | dmb kind domain => exact raised domain _
  | dsb kind domain => exact raised domain _

theorem walkCandidates_pickFree (va : Int) : PickFree (f.walkCandidates va) := by
  have hwalk (base : Int) (read : Paging.Level → Int → Int) : PickFree (Paging.walk va base read) :=
    Paging.walkFrom_pickFree va read 3 base
  have hcached (base asid : Int) : PickFree (f.cachedCandidates va base asid) :=
    .bind (.mapM (fun _ => .mapM (fun _ => .bind (hwalk base _) fun _ => .ok) _) _) fun _ => .ok
  have hfresh (base asid : Int) : PickFree (f.freshCandidates va base asid) :=
    .mapM (fun _ => .bind (hwalk base _) fun _ => .ok) _
  refine .bind (.bind (f.thread.readSystemAt_pickFree _ _) fun _ => .ok) fun held => ?_
  exact .bind (.mapM (fun r => (hcached _ _).bind fun _ => (hfresh _ _).bind fun _ => .ok) held) fun _ => .ok

theorem endWalk_pickFree (va : Int) : PickFree (f.endWalk va) := by
  refine (f.scratch.endWalk_pickFree _ _).bind fun w => ?_
  dsimp only
  split
  · exact .ok
  · split
    · exact (Paging.Cache.add_pickFree _ _ _).bind fun _ => .ok
    · exact .ok

end Frame

end Litmus
