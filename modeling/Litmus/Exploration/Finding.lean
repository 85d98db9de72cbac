import Litmus.Exploration.Options
import Litmus.Exploration.State

/-!
Findings: what exploring one state of a program meets, in order. For each thread with an instruction
left, the leaves of running it on every pick, then the promises that the thread can make. Main facts:
every state found has a lower rank, and a fold that works findings out one at a time is the fold over
the list of all.
-/

namespace Litmus

/-- A result at the end of a path through choices. -/
inductive Leaf (α : Type) where
  | done (a : α)
  | fail (f : Failure Diagnostic)
  | discard (why : Pruning) (detail : Option String)
  | thrown (t : Trouble)
  | tooWide (space : Space)

/-- Whether a choice has more values than may be enumerated. -/
def Space.isTooWide (maxBits : Number) : Space → Bool
  | .options _ => false
  | .bits width => maxBits < width

namespace Outcome

/-- The results behind all picks, in order; a choice that is too wide stands for itself. -/
def leaves {α : Type} (maxBits : Number) : Outcome α → List (Leaf α)
  | .done a => [.done a]
  | .fail f => [.fail f]
  | .discard why detail => [.discard why detail]
  | .thrown t => [.thrown t]
  | .choice space resume =>
    if space.isTooWide maxBits then [.tooWide space]
    else
      match space.picks with
      | .ok picks => picks.flatMap fun pick => (resume pick).leaves maxBits
      | .error t => [.thrown t]

/-- Fold over the results behind all picks, one at a time: past a result that stops the fold, none is
worked out. -/
def foldLeaves {α σ ε : Type} (maxBits : Number) (f : σ → Leaf α → Except ε σ) : Outcome α → σ → Except ε σ
  | .done a, s => f s (.done a)
  | .fail e, s => f s (.fail e)
  | .discard why detail, s => f s (.discard why detail)
  | .thrown t, s => f s (.thrown t)
  | .choice space resume, s =>
    if space.isTooWide maxBits then f s (.tooWide space)
    else
      match space.picks with
      | .ok picks => picks.foldlM (fun s pick => (resume pick).foldLeaves maxBits f s) s
      | .error t => f s (.thrown t)

theorem foldLeaves_eq {α σ ε : Type} {maxBits : Number} {f : σ → Leaf α → Except ε σ} : ∀ (o : Outcome α) (s : σ),
    o.foldLeaves maxBits f s = (o.leaves maxBits).foldlM f s
  | .done _, _ | .fail _, _ | .discard _ _, _ | .thrown _, _ => by simp [foldLeaves, leaves]
  | .choice space resume, s => by
    rw [foldLeaves, leaves]
    split
    · simp
    · split
      · next picks h =>
        clear h
        induction picks generalizing s with
        | nil => rfl
        | cons pick picks ih =>
          rw [List.foldlM_cons, List.flatMap_cons, List.foldlM_append, foldLeaves_eq (resume pick)]
          exact bind_congr ih
      · simp

end Outcome

/-- Why an exploration stops before its end. -/
inductive Stop where
  | budget (b : Budget) (limit : Number)
  | failed (f : Failure Diagnostic)
  | trouble (t : Trouble)

/-- The message of a stop. -/
def Stop.message : Stop → String
  | .budget b limit => s!"ExplorationBudgetExceeded: {b.text} limit ({limit.text}) exceeded"
  | .failed f => f.told.message
  | .trouble t => t.message

/-- What exploring a state meets: an instruction begins to run, a state is reached by running one, a
path through one is pruned, a state is reached by promising a write, or the exploration stops. -/
inductive Finding where
  | began
  | reached (s : State)
  | pruned (tid pc : Nat) (why : Pruning) (detail : Option String)
  | promised (tid : Nat) (time : View) (loc value : Int) (s : State)
  | stopped (stop : Stop)

namespace Finding

/-- The state that was found. -/
def state? : Finding → Option State
  | .reached s | .promised _ _ _ _ s => some s
  | _ => none

/-- The failure of a thread's instruction, told as one of the program. -/
def told (p : Program) (tid pc : Nat) (f : Failure Diagnostic) : Failure Diagnostic :=
  let name := p.name.toList.map fun n => ("program", Value.text n)
  f.wrap s!"Thread {tid} instruction {pc}: {f.told.message}"
    ([("tid", .number (.whole tid)), ("pc", .number (.whole pc))] ++ name)

/-- What a leaf of a thread's next instruction means. -/
def ofLeaf (p : Program) (o : Options) (s : State) (tid : Nat) (slot : Slot) : Leaf Frame → Finding
  | .done f => .reached (s.withSlot tid { slot with pc := slot.pc + 1, thread := f.thread } f.memory)
  | .fail f => .stopped (.failed (told p tid slot.pc f))
  | .discard why detail => .pruned tid slot.pc why detail
  | .thrown t => .stopped (.trouble t)
  | .tooWide _ => .stopped (.budget .chooseBits o.maxChooseBits)

/-- What promising a write means. -/
def ofPromise (s : State) (tid : Nat) (slot : Slot) (w : (Int × Int) × Nat) : Finding :=
  match Frame.promiseWrite { thread := slot.thread, memory := s.memory } w.1.1 w.1.2 with
  | .error f => .stopped (.trouble (.fault f))
  | .ok (f, time) =>
    .promised tid time w.1.1 w.1.2
      (s.withSlot tid { slot with promised := slot.promised ++ [w.2], thread := f.thread } f.memory)

end Finding

namespace State

/-- What running the next instruction of a thread meets, and then making its promises. -/
def findingsOf (p : Program) (o : Options) (s : State) (tid : Nat) (t : ThreadProgram) (slot : Slot) : List Finding :=
  match t.code[slot.pc]? with
  | none => []
  | some instr =>
    .began :: ((instr.runOn slot.thread s.memory).leaves o.maxChooseBits).map (Finding.ofLeaf p o s tid slot)
      ++ (t.unpromised slot.promised).map (Finding.ofPromise s tid slot)

/-- What exploring one thread of a state meets. -/
def findings (p : Program) (o : Options) (s : State) (tid : Nat) : List Finding :=
  match p.threads[tid]?, s.threads[tid]? with
  | some t, some slot => s.findingsOf p o tid t slot
  | _, _ => []

/-- Fold over what exploring one thread of a state meets, one finding at a time: past a finding that stops
the fold, none is worked out. -/
def foldFindings {σ ε : Type} (p : Program) (o : Options) (s : State) (f : σ → Finding → Except ε σ) (a : σ)
    (tid : Nat) : Except ε σ :=
  match p.threads[tid]?, s.threads[tid]? with
  | some t, some slot =>
    match t.code[slot.pc]? with
    | none => .ok a
    | some instr => do
      let a ← f a .began
      let a ← (instr.runOn slot.thread s.memory).foldLeaves o.maxChooseBits
        (fun a leaf => f a (Finding.ofLeaf p o s tid slot leaf)) a
      (t.unpromised slot.promised).foldlM (fun a w => f a (Finding.ofPromise s tid slot w)) a
  | _, _ => .ok a

theorem foldFindings_eq {σ ε : Type} {p : Program} {o : Options} {s : State} {f : σ → Finding → Except ε σ} {a : σ}
    {tid : Nat} : s.foldFindings p o f a tid = (s.findings p o tid).foldlM f a := by
  unfold foldFindings findings
  split
  · unfold findingsOf
    split
    · rfl
    · simp only [Outcome.foldLeaves_eq, List.cons_append, List.foldlM_cons, List.foldlM_append, List.foldlM_map]
  · rfl

/-- The states that exploring a state finds. -/
def found (p : Program) (o : Options) (s : State) : List State :=
  ((List.range s.threads.length).flatMap (s.findings p o)).filterMap Finding.state?

/-! ### Every state found has a lower rank -/

theorem rank_of_findings {p : Program} {o : Options} {s c : State} {tid : Nat} {x : Finding}
    (hx : x ∈ s.findings p o tid) (hc : x.state? = some c) : c.rank p < s.rank p := by
  unfold findings at hx
  split at hx
  · next t slot ht hs =>
    unfold findingsOf at hx
    split at hx
    · cases hx
    · next instr hi =>
      have hpc : slot.pc < t.code.length := (List.getElem?_eq_some_iff.mp hi).1
      rcases List.mem_append.mp hx with hx | hx
      · rcases List.mem_cons.mp hx with rfl | hx
        · cases hc
        · obtain ⟨leaf, _, rfl⟩ := List.mem_map.mp hx
          cases leaf <;> simp only [Finding.ofLeaf, Finding.state?, reduceCtorEq, Option.some.injEq] at hc
          subst hc
          exact rank_withSlot ht hs (Slot.rank_next hpc _)
      · obtain ⟨w, hw, rfl⟩ := List.mem_map.mp hx
        unfold Finding.ofPromise at hc
        split at hc
        · cases hc
        · simp only [Finding.state?, Option.some.injEq] at hc
          subst hc
          exact rank_withSlot ht hs (Slot.rank_promise hw _)
  · cases hx

theorem rank_of_found {p : Program} {o : Options} {s c : State} (h : c ∈ s.found p o) : c.rank p < s.rank p := by
  obtain ⟨x, hx, hc⟩ := List.mem_filterMap.mp h
  obtain ⟨tid, _, hx⟩ := List.mem_flatMap.mp hx
  exact rank_of_findings hx hc

end State

end Litmus
