import Litmus.Exploration.Finding
import Litmus.Exploration.Roll

/-!
The search for all final states. One pass takes a waiting state and deals with what exploring it
meets; each state met for the first time waits in turn. Main fact: every pass lowers the number of
paths that the waiting states still begin, so the search ends.
-/

namespace Litmus

/-- Counts of a search: states that waited, instructions run, pruned paths, states met again, and ends
with promises left. -/
structure Stats where
  jobs : Nat := 0
  steps : Nat := 0
  discards : Nat := 0
  duplicates : Nat := 0
  stuck : Nat := 0
  deriving DecidableEq, Repr, Inhabited

/-- A line of the log. -/
structure LogLine where
  message : String
  data : Record Value

/-- A search under way. The states met are kept settled. The newest line of the log comes first. -/
structure Search where
  frontier : Frontier State
  seen : Roll State.key := .empty
  finals : Roll Final.key := .empty
  stats : Stats := {}
  log : List LogLine := []

/-- A search that was stopped, and its log so far. -/
structure Halted where
  stop : Stop
  log : List LogLine

namespace Search

/-! ### A pass -/

/-- Stop the search. -/
def halt {α : Type} (s : Search) (stop : Stop) : Except Halted α := .error ⟨stop, s.log⟩

/-- Write a line to the log. -/
def note (s : Search) (message : String) (data : Record Value) : Search :=
  { s with log := ⟨message, data⟩ :: s.log }

/-- A state is met: for the first time it waits to be explored, if the budget allows. -/
def meet (o : Options) (s : Search) (c : State) : Except Halted Search :=
  if s.seen.contains c.settled then .ok { s with stats.duplicates := s.stats.duplicates + 1 }
  else
    let jobs := s.stats.jobs + 1
    if o.maxJobs < .whole jobs then s.halt (.budget .jobs o.maxJobs)
    else .ok { s with stats.jobs := jobs, seen := s.seen.push c.settled, frontier := s.frontier.push c }

/-- Deal with a finding. -/
def take (o : Options) (s : Search) : Finding → Except Halted Search
  | .began =>
    let steps := s.stats.steps + 1
    if o.maxSteps < .whole steps then s.halt (.budget .steps o.maxSteps)
    else .ok { s with stats.steps := steps }
  | .reached c => s.meet o c
  | .pruned tid pc why detail =>
    let detail := detail.toList.map fun d => ("detail", Value.text d)
    .ok (({ s with stats.discards := s.stats.discards + 1 } : Search).note
      s!"explore: thread {tid} pc {pc} discarded" (("reason", .text why.text) :: detail))
  | .promised tid time loc value c =>
    (s.note s!"explore: thread {tid} promised write at {time}" [("loc", .big loc), ("value", .big value)]).meet o c
  | .stopped stop => s.halt stop

/-- Deal with all that exploring a state meets, thread by thread. -/
def expand (p : Program) (o : Options) (s : Search) (c : State) : Except Halted Search :=
  (List.range c.threads.length).foldlM (fun s tid => c.foldFindings p o (take o) s tid) s

/-- The warning that a thread ended with promises left. -/
def pendingWarning (slot : Slot) : Diagnostic :=
  .make .pendingPromises (some
    [("tid", .number (.whole slot.thread.tid)), ("count", .number (.whole slot.thread.promises.length))])

/-- Deal with a state without instructions left. It is stuck if promises are left, and final if not. -/
def close (s : Search) (c : State) : Except Halted Search :=
  if c.pending.isEmpty then
    match c.final with
    | .error f => s.halt (.trouble (.fault f))
    | .ok f => .ok (if s.finals.contains f then s else { s with finals := s.finals.push f })
  else
    let stuck : Search := { s with stats.stuck := s.stats.stuck + 1 }
    .ok (c.pending.foldl (fun s slot =>
      let d := pendingWarning slot
      s.note d.message (Record.map Param.value (d.data.getD []))) stuck)

/-- Deal with a waiting state. -/
def visit (p : Program) (o : Options) (s : Search) (c : State) : Except Halted Search :=
  if c.isRunning p then s.expand p o c else s.close c

/-! ### Passes end -/

/-- How many paths of at most `n` moves begin in a state. -/
def paths (p : Program) (o : Options) : Nat → State → Nat
  | 0, _ => 1
  | n + 1, s => 1 + total (paths p o n) (s.found p o)

/-- How many paths begin in a state. -/
def weight (p : Program) (o : Options) (s : State) : Nat := paths p o (s.rank p) s

/-- How many paths the waiting states begin. -/
def load (p : Program) (o : Options) (s : Search) : Nat := total (weight p o) s.frontier.toList

theorem paths_le_succ (p : Program) (o : Options) : ∀ (n : Nat) (s : State), paths p o n s ≤ paths p o (n + 1) s
  | 0, s => by simp only [paths]; omega
  | n + 1, s => by
    have := total_le_total fun c (_ : c ∈ s.found p o) => paths_le_succ p o n c
    rw [paths, paths]; omega

theorem paths_mono (p : Program) (o : Options) (s : State) {m n : Nat} (h : m ≤ n) : paths p o m s ≤ paths p o n s := by
  induction h with
  | refl => exact Nat.le_refl _
  | step _ ih => exact Nat.le_trans ih (paths_le_succ p o _ s)

/-- The states that exploring a state finds begin fewer paths than the state itself. -/
theorem total_weight_found_lt (p : Program) (o : Options) (s : State) :
    total (weight p o) (s.found p o) < weight p o s := by
  unfold weight
  cases h : s.rank p with
  | zero =>
    have : s.found p o = [] := List.eq_nil_iff_forall_not_mem.mpr fun c hc => by
      have := State.rank_of_found hc
      omega
    simp [this, paths, total]
  | succ n =>
    have : total (fun c => paths p o (c.rank p) c) (s.found p o) ≤ total (paths p o n) (s.found p o) :=
      total_le_total fun c hc => paths_mono p o c (Nat.le_of_lt_succ (h ▸ State.rank_of_found hc : c.rank p < n + 1))
    rw [paths]; omega

theorem load_push (p : Program) (o : Options) (s : Search) (c : State) (seen : Roll State.key) (stats : Stats) :
    load p o { s with stats, seen, frontier := s.frontier.push c } = load p o s + weight p o c := by
  simp only [load, Frontier.toList_push]
  cases s.frontier.order
  · simp only [total]; omega
  · simp only [total_append, total]; omega

theorem load_meet {p : Program} {o : Options} {s t : Search} {c : State} (h : s.meet o c = .ok t) :
    load p o t ≤ load p o s + weight p o c := by
  simp only [meet] at h
  split at h
  · cases h; exact Nat.le_add_right _ _
  · split at h
    · cases h
    · cases h; exact Nat.le_of_eq (load_push p o s c _ _)

/-- How many paths begin in the state that a finding found. -/
def findingWeight (p : Program) (o : Options) (x : Finding) : Nat := (x.state?.map (weight p o)).getD 0

theorem load_take {p : Program} {o : Options} {s t : Search} {x : Finding} (h : s.take o x = .ok t) :
    load p o t ≤ load p o s + findingWeight p o x := by
  unfold take at h
  split at h
  · dsimp only at h
    split at h
    · cases h
    · cases h; exact Nat.le_add_right _ _
  · exact load_meet h
  · cases h; exact Nat.le_add_right _ _
  · exact load_meet (s := note s _ _) h
  · cases h

theorem load_foldlM {α : Type} {p : Program} {o : Options} {f : Search → α → Except Halted Search} {w : α → Nat}
    (step : ∀ (s t : Search) (a : α), f s a = .ok t → load p o t ≤ load p o s + w a) :
    ∀ (l : List α) (s t : Search), l.foldlM f s = .ok t → load p o t ≤ load p o s + total w l
  | [], s, t, h => by cases h; exact Nat.le_add_right _ _
  | a :: l, s, t, h => by
    rw [List.foldlM_cons] at h
    cases hs : f s a with
    | error e => rw [hs] at h; cases h
    | ok u =>
      rw [hs] at h
      have h₁ := step s u a hs
      have h₂ := load_foldlM step l u t h
      simp only [total]
      omega

theorem total_findingWeight (p : Program) (o : Options) : ∀ l : List Finding,
    total (findingWeight p o) l = total (weight p o) (l.filterMap Finding.state?)
  | [] => rfl
  | x :: l => by
    rw [total, total_findingWeight p o l, findingWeight]
    cases h : x.state? <;> simp [h, total]

theorem total_threads (p : Program) (o : Options) (c : State) : ∀ tids : List Nat,
    total (fun tid => total (findingWeight p o) (c.findings p o tid)) tids
      = total (weight p o) ((tids.flatMap (c.findings p o)).filterMap Finding.state?)
  | [] => rfl
  | tid :: tids => by
    rw [total, total_threads p o c tids, total_findingWeight, List.flatMap_cons, List.filterMap_append, total_append]

theorem load_expand {p : Program} {o : Options} {s t : Search} {c : State} (h : s.expand p o c = .ok t) :
    load p o t ≤ load p o s + total (weight p o) (c.found p o) := by
  have step (s t : Search) (tid : Nat) (h : c.foldFindings p o (take o) s tid = .ok t) :
      load p o t ≤ load p o s + total (findingWeight p o) (c.findings p o tid) :=
    load_foldlM (w := findingWeight p o) (fun _ _ _ => load_take) _ _ _ (State.foldFindings_eq ▸ h)
  have := load_foldlM step _ _ _ h
  rwa [total_threads] at this

theorem frontier_foldl_note {f : Slot → String × Record Value} : ∀ (l : List Slot) (s : Search),
    (l.foldl (fun s slot => s.note (f slot).1 (f slot).2) s).frontier = s.frontier
  | [], _ => rfl
  | _ :: l, s => frontier_foldl_note l (s.note _ _)

theorem frontier_close {s t : Search} {c : State} (h : s.close c = .ok t) : t.frontier = s.frontier := by
  unfold close at h
  split at h
  · split at h
    · cases h
    · cases h; split <;> rfl
  · cases h
    exact frontier_foldl_note (f := fun slot =>
      ((pendingWarning slot).message, Record.map Param.value ((pendingWarning slot).data.getD []))) _ _

/-- Dealing with a waiting state leaves fewer paths than began in it. -/
theorem load_visit_lt {p : Program} {o : Options} {s t : Search} {c : State} (h : s.visit p o c = .ok t) :
    load p o t < load p o s + weight p o c := by
  have hc := total_weight_found_lt p o c
  unfold visit at h
  split at h
  · have := load_expand h; omega
  · simp only [load, frontier_close h]; omega

/-- A pass: deal with the next waiting state. Nothing when none waits. -/
def pass? (p : Program) (o : Options) (s : Search) : Option (Except Halted Search) :=
  s.frontier.pop?.map fun (c, rest) => ({ s with frontier := rest } : Search).visit p o c

theorem load_pass_lt {p : Program} {o : Options} {s t : Search} (h : s.pass? p o = some (.ok t)) :
    load p o t < load p o s := by
  simp only [pass?, Option.map_eq_some_iff] at h
  obtain ⟨⟨c, rest⟩, hp, hv⟩ := h
  have := load_visit_lt hv
  simp only [load, Frontier.toList_of_pop? hp, total] at this ⊢
  omega

/-- Pass until no state waits. -/
def run (p : Program) (o : Options) (s : Search) : Except Halted Search :=
  match _h : s.pass? p o with
  | none => .ok s
  | some (.error e) => .error e
  | some (.ok t) => run p o t
termination_by load p o s
decreasing_by exact load_pass_lt _h

end Search

end Litmus
