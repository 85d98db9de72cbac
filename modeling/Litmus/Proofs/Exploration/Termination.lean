import Litmus.Proofs.Exploration.Settled

/-!
Explorations end. Each pass of a search leaves fewer paths that the waiting states begin, so there are at most as many
passes as paths begin in the start of the program. Every state that waits at any time is reached by moves, and each move
lowers the rank, so no run is longer than the instructions and the promisable writes of all threads are many.
-/

namespace Litmus

/-! ### Runs are short -/

/-- How many instructions and promisable writes a program has. -/
def Program.size (p : Program) : Nat := total (fun t => t.code.length + t.promisable.length) p.threads

theorem Program.rank_start (p : Program) : p.start.rank p = p.size := by
  have slots (threads : List ThreadProgram) (n : Nat) :
      total (fun x => Slot.rank x.1 x.2) (threads.zip ((threads.zipIdx n).map fun x =>
        { pc := 0, promised := [], thread := .start x.2 x.1.regs })) =
      total (fun t => t.code.length + t.promisable.length) threads := by
    induction threads generalizing n with
    | nil => rfl
    | cons t threads ih =>
      rw [List.zipIdx_cons, List.map_cons, List.zip_cons_cons, total, total, ih]
      simp [Slot.rank, ThreadProgram.unpromised]
  exact slots p.threads 0

theorem State.Does.rank_lt {p : Program} {d : Deed} {s s' : State} (h : s.Does p d s') : s'.rank p < s.rank p := by
  cases h with
  | run ht hs hi _ => exact rank_withSlot ht hs (Slot.rank_next (List.getElem?_eq_some_iff.mp hi).1 _)
  | promise ht hs _ hw _ => exact rank_withSlot ht hs (Slot.rank_promise hw _)

theorem Program.Run.length_add_rank_le {p : Program} {ds : List Deed} {s : State} (r : p.Run ds s) :
    ds.length + s.rank p ≤ p.size := by
  induction r with
  | start => simp [p.rank_start]
  | move _ hd ih =>
    have := hd.rank_lt
    rw [List.length_append, List.length_singleton]
    omega

/-! ### Passes -/

namespace Search

variable {p : Program} {o : Options} {s t : Search}

/-- Whether a pass leads from one search to another. -/
def Pass (p : Program) (o : Options) (s t : Search) : Prop := s.pass? p o = some (.ok t)

/-- How a search ends after a number of passes: no state waits any more, or the last pass stops it. -/
inductive Ends (p : Program) (o : Options) : Search → Nat → Except Halted Search → Prop
  | ended {s : Search} : s.pass? p o = none → Ends p o s 0 (.ok s)
  | halted {s : Search} {h : Halted} : s.pass? p o = some (.error h) → Ends p o s 1 (.error h)
  | pass {s t : Search} {n : Nat} {e : Except Halted Search} :
      s.Pass p o t → Ends p o t n e → Ends p o s (n + 1) e

/-- Some path begins where a state waits. -/
theorem load_pos {e : Except Halted Search} (h : s.pass? p o = some e) : 0 < load p o s := by
  obtain ⟨⟨c, rest⟩, hp, -⟩ := Option.map_eq_some_iff.mp h
  have := total_weight_found_lt p o c
  rw [load, Frontier.toList_of_pop? hp, total]
  omega

/-- A search ends after as many passes at most as paths begin in the states that wait. -/
theorem ends_run (s : Search) : ∃ n ≤ load p o s, s.Ends p o n (s.run p o) := by
  rw [Search.run]
  split
  · next h => exact ⟨0, Nat.zero_le _, .ended h⟩
  · next h => exact ⟨1, load_pos h, .halted h⟩
  · next t h =>
    have := load_pass_lt h
    obtain ⟨n, hn, hends⟩ := ends_run t
    exact ⟨n + 1, by omega, .pass h hends⟩
termination_by load p o s
decreasing_by exact load_pass_lt ‹_›

/-- A pass keeps the invariant of searches. -/
theorem Invariant.pass {done : List State} (h : s.Invariant p o done) (ht : s.Pass p o t) :
    ∃ c, t.Invariant p o (c :: done) := by
  obtain ⟨⟨c, rest⟩, hp, hv⟩ := Option.map_eq_some_iff.mp ht
  exact ⟨c, h.visit hp hv⟩

theorem Invariant.passes {done : List State} (h : s.Invariant p o done)
    (ht : Relation.ReflTransGen (Pass p o) s t) : ∃ done, t.Invariant p o done := by
  induction ht with
  | refl => exact ⟨done, h⟩
  | tail _ hpass ih =>
    obtain ⟨done, h⟩ := ih
    obtain ⟨c, h⟩ := h.pass hpass
    exact ⟨c :: done, h⟩

/-- A search that was stopped was stopped by the last of its passes. -/
theorem Ends.exists_halting {n : Nat} {e : Except Halted Search} (h : s.Ends p o n e) {halted : Halted}
    (he : e = .error halted) : ∃ t, Relation.ReflTransGen (Pass p o) s t ∧ t.pass? p o = some (.error halted) := by
  induction h with
  | ended => cases he
  | halted h =>
    cases he
    exact ⟨_, .refl, h⟩
  | pass hpass _ ih =>
    obtain ⟨t, ht, h⟩ := ih he
    exact ⟨t, .head hpass ht, h⟩

end Search

/-! ### Explorations -/

namespace Program

variable {p : Program} {o : Options}

/-- The search that an exploration begins with, before it has met the start. -/
def begun (p : Program) (o : Options) : Search :=
  ({ frontier := .empty o.order } : Search).note "explore: start"
    ((p.name.toList.map fun n => ("name", Value.text n)) ++
      [("threads", .number (.whole p.threads.length)), ("frontier", .text o.order.text)])

/-- How an exploration ends, after a number of passes. -/
inductive Ends (p : Program) (o : Options) : Nat → Except Stop Explored → Prop
  | unbegun {h : Halted} : (p.begun o).meet o p.start = .error h → Ends p o 0 (.error h.stop)
  | halted {s : Search} {n : Nat} {h : Halted} :
      (p.begun o).meet o p.start = .ok s → s.Ends p o n (.error h) → Ends p o n (.error h.stop)
  | ended {s t : Search} {n : Nat} :
      (p.begun o).meet o p.start = .ok s → s.Ends p o n (.ok t) → Ends p o n (.ok ⟨t.finals.toList, t.stats⟩)

/-- The searches that an exploration comes to: between its passes, and amid one, when it has dealt with some of what
exploring a state meets. -/
inductive Searches (p : Program) (o : Options) : Search → Prop
  | rest {s t : Search} : (p.begun o).meet o p.start = .ok s → Relation.ReflTransGen (Search.Pass p o) s t →
      Searches p o t
  | amid {s t u : Search} {c : State} {rest : Frontier State} {xs ys : List Finding} :
      (p.begun o).meet o p.start = .ok s → Relation.ReflTransGen (Search.Pass p o) s t →
      t.frontier.pop? = some (c, rest) → c.met p o = xs ++ ys →
      xs.foldlM (Search.take o) { t with frontier := rest } = .ok u → Searches p o u

theorem load_start {s : Search} (h : (p.begun o).meet o p.start = .ok s) :
    Search.load p o s ≤ Search.weight p o p.start := by
  have hload := Search.load_meet (p := p) h
  have hempty : Search.load p o (p.begun o) = 0 := by
    rw [Search.load, begun, Search.note, Frontier.toList_empty, total]
  omega

theorem result_eq (p : Program) (o : Options) : (explore p o).result =
    match (do (← (p.begun o).meet o p.start).run p o : Except Halted Search) with
    | .error h => .error h.stop
    | .ok s => .ok ⟨s.finals.toList, s.stats⟩ := by
  rw [explore, ← begun]
  dsimp only
  cases (do (← (p.begun o).meet o p.start).run p o : Except Halted Search) <;> rfl

theorem ends (p : Program) (o : Options) : ∃ n ≤ Search.weight p o p.start, p.Ends o n (explore p o).result := by
  rw [result_eq]
  cases hmeet : (p.begun o).meet o p.start with
  | error h => exact ⟨0, Nat.zero_le _, .unbegun hmeet⟩
  | ok s =>
    obtain ⟨n, hn, hends⟩ := s.ends_run (p := p) (o := o)
    refine ⟨n, hn.trans (load_start hmeet), ?_⟩
    change p.Ends o n (match s.run p o with | .error h => _ | .ok s => _)
    cases hrun : s.run p o with
    | error h => exact .halted hmeet (hrun ▸ hends)
    | ok t => exact .ended hmeet (hrun ▸ hends)

/-- Between passes the invariant of searches holds. -/
theorem exists_invariant {s t : Search} (h : (p.begun o).meet o p.start = .ok s)
    (ht : Relation.ReflTransGen (Search.Pass p o) s t) : ∃ done, t.Invariant p o done :=
  (invariant_meet_start (Frontier.toList_empty _) rfl rfl h).passes ht

/-- Whatever waits at some time is reached by moves. -/
theorem Searches.reaches {s : Search} {c : State} (h : p.Searches o s) (hc : c ∈ s.frontier.toList) : p.Reaches c := by
  cases h with
  | rest hmeet ht =>
    obtain ⟨done, hinv⟩ := exists_invariant hmeet ht
    exact hinv.reached c (.inr hc)
  | @amid _ t _ d rest xs ys hmeet ht hp hxs hu =>
    obtain ⟨done, hinv⟩ := exists_invariant hmeet ht
    have hpop := Frontier.toList_of_pop? hp
    have hg : Search.Grows _ xs s :=
      Search.relates_foldlM (fun _ => .of_same rfl rfl rfl (by simp)) .append Search.grows_take _ _ _ hu
    rcases hg.found c hc with hc | ⟨x, hx, hxc⟩
    · exact hinv.reached c (.inr (hpop ▸ List.mem_cons_of_mem _ hc))
    · have hx : x ∈ d.met p o := hxs ▸ List.mem_append_left _ hx
      obtain ⟨tid, -, hx⟩ := List.mem_flatMap.mp hx
      exact (hinv.reached d (.inr (hpop ▸ List.mem_cons_self ..))).tail (State.move_of_mem_findings hx hxc)

end Program

/-- An exploration always ends, after as many passes at most as paths begin in the start. Every state that waits in it at
any time is reached by moves, by no more of them than the program has instructions and promisable writes. -/
theorem explore_ends (p : Program) (o : Options) :
    (∃ n ≤ Search.weight p o p.start, p.Ends o n (explore p o).result) ∧
    ∀ s, p.Searches o s → ∀ c ∈ s.frontier.toList,
      (∃ ds, p.Run ds c) ∧ ∀ ds, p.Run ds c → ds.length ≤ p.size := by
  refine ⟨p.ends o, fun s hs c hc => ⟨Program.reaches_iff.mp (hs.reaches hc), fun ds hds => ?_⟩⟩
  exact (Nat.le_add_right _ _).trans hds.length_add_rank_le

end Litmus
