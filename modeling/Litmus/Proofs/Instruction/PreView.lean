import Litmus.Proofs.Instruction.Fence

/-!
Pre-views of accesses. Counters of a thread only rise, and so does the view that all further effects of an
instruction come after. Main facts: the pre-view of an access is past each counter that the kind of access
waits for, and all accesses of one instruction come after those before them.
-/

namespace Litmus

namespace Action

/-- The view of an explicit access: the post-view of a read, or the time of a write. -/
def view? : Action → Option View
  | .read _ _ _ post => some post
  | .write _ _ time => some time
  | _ => none

/-- The pre-view of an explicit access. -/
def pre? : Action → Option View
  | .read _ _ pre _ | .write _ pre _ => some pre
  | _ => none

/-- Whether an action wrote memory. -/
def isWrite : Action → Bool
  | .write _ _ _ => true
  | _ => false

/-- The counters that an access waits for: barriers and acquires always, barriers of stores if it is a write,
all reads and writes if it is a release, and releases if it is an acquire. -/
inductive WaitsFor : Action → Counter → Prop
  | barrier {a : Action} : WaitsFor a .barrier
  | syncBarrier {a : Action} : WaitsFor a .syncBarrier
  | acquires {a : Action} : WaitsFor a .acquires
  | storeBarrier {a : Action} : a.isWrite = true → WaitsFor a .storeBarrier
  | reads {req : WriteRequest} {pre time : View} : req.kind = .release → WaitsFor (.write req pre time) .reads
  | writes {req : WriteRequest} {pre time : View} : req.kind = .release → WaitsFor (.write req pre time) .writes
  | releases {req : ReadRequest} {r : Memory.Read} {pre post : View} :
      req.kind = .acquire → WaitsFor (.read req r pre post) .releases

end Action

namespace Effect.Step

variable {e : Effect} {f g : Frame} {v : e.Answer} {a : Action} {view pre : View}

/-- Counters only rise. -/
theorem views_le (hs : e.Step f v g a) (c : Counter) : f.thread.views.get c ≤ g.thread.views.get c := by
  cases hs with
  | @writeReg reg value _ _ view =>
    rw [Thread.hold_eq]
    dsimp only
    split
    · exact Views.get_le_get_raise _ .systemWrites c view
    · exact Int.le_refl _
  | read =>
    rw [Frame.thread_afterRead]
    exact Views.get_le_get_afterRead _ c _ _ _
  | write =>
    rw [Frame.thread_afterWrite]
    exact Views.get_le_get_afterWrite _ c _ _
  | dmb | dsb | announceBranch => exact Views.get_le_get_raise _ _ c _
  | @maintain _ _ _ _ _ t =>
    rw [Frame.thread_afterMaintain]
    exact Views.get_le_get_raise _ .maintenance c t
  | isb | returnFromException | halt => exact Views.get_le_get_raise _ .contextSync c _
  | _ => exact Int.le_refl _

/-- The view that all further effects come after only rises. -/
theorem strict_le (hs : e.Step f v g a) : f.scratch.strict ≤ g.scratch.strict := by
  cases hs with
  | descriptor | read | write | maintain | startWalk => exact View.le_join_left _ _
  | _ => exact Int.le_refl _

/-- All further effects come after an access. -/
theorem view_le_strict (hs : e.Step f v g a) (ha : a.view? = some view) : view ≤ g.scratch.strict := by
  cases hs with
  | read | write =>
    cases ha
    exact View.le_join_right _ _
  | _ => cases ha

/-- An access comes after all that the instruction has accessed. -/
theorem strict_le_pre (hs : e.Step f v g a) (ha : a.pre? = some pre) : f.scratch.strict ≤ pre := by
  cases hs with
  | read | write =>
    cases ha
    exact View.le_joinAll (by simp)
  | _ => cases ha

/-- The pre-view of an access is past each counter that it waits for. -/
theorem get_le_pre (hs : e.Step f v g a) (ha : a.pre? = some pre) {c : Counter} (hc : a.WaitsFor c) :
    f.thread.views.get c ≤ pre := by
  cases hs with
  | read =>
    cases ha
    cases hc with
    | storeBarrier hw => cases hw
    | releases hk => exact View.le_joinAll (by simp [hk, Views.get])
    | barrier | syncBarrier | acquires => exact View.le_joinAll (by simp [Views.get])
  | @write req _ addr data =>
    cases ha
    have released (hk : req.kind = .release) : f.thread.views.accesses ≤ f.writePre req addr data :=
      View.le_joinAll (by simp [hk, Views.accesses])
    cases hc with
    | reads hk => exact Int.le_trans (View.le_join_left _ _) (released hk)
    | writes hk => exact Int.le_trans (View.le_join_right _ _) (released hk)
    | storeBarrier | barrier | syncBarrier | acquires => exact View.le_joinAll (by simp [Views.get])
  | _ => cases ha

end Effect.Step

/-- All accesses of one instruction come after those before them. -/
theorem Instr.Runs.pairwise_le {i : Instr} {f g : Frame} {as : List Action} (r : i.Runs f as g) :
    (as.Pairwise fun a b => ∀ view pre, a.view? = some view → b.pre? = some pre → view ≤ pre) ∧
      ∀ b ∈ as, ∀ pre, b.pre? = some pre → f.scratch.strict ≤ pre := by
  induction r with
  | done => exact ⟨.nil, fun b hb => absurd hb List.not_mem_nil⟩
  | ask hs _ ih =>
    obtain ⟨hpairs, hafter⟩ := ih
    refine ⟨List.pairwise_cons.mpr ⟨?_, hpairs⟩, List.forall_mem_cons.mpr ⟨?_, ?_⟩⟩
    · intro b hb view pre hview hpre
      exact Int.le_trans (hs.view_le_strict hview) (hafter b hb pre hpre)
    · intro pre hpre
      exact hs.strict_le_pre hpre
    · intro b hb pre hpre
      exact Int.le_trans hs.strict_le (hafter b hb pre hpre)

end Litmus
