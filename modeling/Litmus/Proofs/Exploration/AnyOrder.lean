import Litmus.Proofs.Exploration.Accounts

/-!
The order of an exploration does not matter. A search that ended has met every state that moves reach, each once up to
the order of caches, and its budgets allow as much; so a search in any other order goes on to its end as well, meets the
same, and counts the same.
-/

namespace Litmus

variable {p : Program} {o : Options}

attribute [ext] Stats

/-! ### What any search may meet -/

/-- Settled states that any search of a program stays within: all that moves reach are among them, the budgets allow
them, and no such state ends the search. -/
structure Program.Covers (p : Program) (o : Options) (met : List State) : Prop where
  reached : ∀ c, p.Reaches c → c.settled ∈ met
  jobs : o.maxJobs.Allows met.length
  steps : o.maxSteps.Allows (total (State.count p o .step) met)
  going : ∀ c, p.Reaches c → State.count p o .stop c = 0
  final : ∀ c, p.Reaches c → c.Finished p → c.Fulfilled → ∃ f, c.final = .ok f

/-- The order has no part in what a search may meet. -/
theorem Program.Covers.anyOrder {met : List State} (h : p.Covers o met) (order : Order) : p.Covers { o with order } met :=
  ⟨h.reached, h.jobs, h.steps, h.going, h.final⟩

theorem State.count_eq_settled {k : Tally} (c : State) : State.count p o k c = State.count p o k c.settled :=
  c.settled_alike.symm.count_eq

namespace Search

variable {s t : Search} {c : State} {done met : List State}

theorem Accounts.total_settled (h : s.Accounts p o done) (hempty : s.frontier.toList = []) {f : State → Nat}
    (hf : ∀ c, f c = f c.settled) : total f done = total f s.seen.toList := by
  have hfiled := h.filed
  rw [hempty, List.append_nil] at hfiled
  rw [← total_perm f hfiled, total_map]
  exact total_congr fun c _ => hf c

/-- What a search that ended has met is all that moves reach. -/
theorem Invariant.mem_seen (h : s.Invariant p o done) (hacc : s.Accounts p o done) (hempty : s.frontier.toList = [])
    {d : State} : d ∈ s.seen.toList ↔ ∃ c, p.Reaches c ∧ c.settled = d := by
  constructor
  · intro hd
    obtain ⟨c, hc, rfl⟩ := h.seen d hd
    exact ⟨c, h.reached c hc, rfl⟩
  · rintro ⟨c, hc, rfl⟩
    obtain ⟨d, hd, hal⟩ := h.exists_alike hempty hc
    rw [hal.settled_eq]
    exact hacc.filed.mem_iff.mp (List.mem_map.mpr ⟨d, List.mem_append_left _ hd, rfl⟩)

/-- What a search that ended has met covers every search. -/
theorem Invariant.covers (h : s.Invariant p o done) (hacc : s.Accounts p o done) (hempty : s.frontier.toList = []) :
    p.Covers o s.seen.toList where
  reached c hc := (h.mem_seen hacc hempty).mpr ⟨c, hc, rfl⟩
  jobs := hacc.jobs ▸ hacc.within.jobs
  steps := by
    rw [← hacc.total_settled hempty State.count_eq_settled, ← hacc.steps]
    exact hacc.within.steps
  going c hc := by
    obtain ⟨d, hd, hal⟩ := h.exists_alike hempty hc
    rw [hal.count_eq, State.count, Tally.count, List.count_eq_zero, List.mem_map]
    rintro ⟨x, hx, hstop⟩
    obtain ⟨tid, htid, hx⟩ := List.mem_flatMap.mp hx
    cases x with
    | stopped stop => exact h.going d hd tid (List.mem_range.mp htid) stop hx
    | _ => cases hstop
  final c hc hf hfu := by
    obtain ⟨d, hd, hal⟩ := h.exists_alike hempty hc
    rw [hal.final_eq]
    exact h.final d hd (hal.finished hf) (hal.fulfilled hfu)

/-! ### Searches go on -/

/-- What a search has met is covered, and counted. -/
structure Filed (met : List State) (s : Search) : Prop where
  distinct : s.seen.toList.Nodup
  covered : s.seen.toList ⊆ met
  jobs : s.stats.jobs = s.seen.toList.length

theorem Filed.exists_meet (h : s.Filed met) (hjobs : o.maxJobs.Allows met.length) (hc : c.settled ∈ met) :
    ∃ t, s.meet o c = .ok t ∧ t.Filed met := by
  rw [meet]
  split
  · exact ⟨_, rfl, h.distinct, h.covered, h.jobs⟩
  · next hnew =>
    rw [Roll.contains_iff] at hnew
    have hdistinct := Roll.nodup_push h.distinct hnew
    have hcovered : (s.seen.push c.settled).toList ⊆ met := by
      rw [Roll.toList_push]
      exact List.append_subset.mpr ⟨h.covered, List.cons_subset.mpr ⟨hc, List.nil_subset _⟩⟩
    have hlength : (s.seen.push c.settled).toList.length = s.stats.jobs + 1 := by
      rw [Roll.toList_push, List.length_append, h.jobs]
      rfl
    have hle : s.stats.jobs + 1 ≤ met.length := hlength ▸ (hdistinct.subperm hcovered).length_le
    dsimp only
    rw [if_neg (hjobs.mono hle).not_lt]
    exact ⟨_, rfl, hdistinct, hcovered, hlength.symm⟩

theorem Filed.exists_take {x : Finding} (h : s.Filed met) (hjobs : o.maxJobs.Allows met.length)
    (hsteps : o.maxSteps.Allows (s.stats.steps + Tally.step.count [x])) (hgoing : x.tally ≠ .stop)
    (hfound : ∀ c, x.state? = some c → c.settled ∈ met) : ∃ t, s.take o x = .ok t ∧ t.Filed met := by
  cases x with
  | began =>
    rw [take]
    dsimp only
    rw [if_neg hsteps.not_lt]
    exact ⟨_, rfl, h.distinct, h.covered, h.jobs⟩
  | reached c => exact h.exists_meet hjobs (hfound c rfl)
  | pruned tid pc why detail => exact ⟨_, rfl, h.distinct, h.covered, h.jobs⟩
  | promised tid time loc value c => exact Filed.exists_meet ⟨h.distinct, h.covered, h.jobs⟩ hjobs (hfound c rfl)
  | stopped stop => exact absurd rfl hgoing

theorem Filed.exists_foldlM (hjobs : o.maxJobs.Allows met.length) : ∀ {xs : List Finding} {s : Search}, s.Filed met →
    o.maxSteps.Allows (s.stats.steps + Tally.step.count xs) → Tally.stop.count xs = 0 →
    (∀ x ∈ xs, ∀ c, x.state? = some c → c.settled ∈ met) → ∃ t, xs.foldlM (take o) s = .ok t
  | [], s, _, _, _, _ => ⟨s, rfl⟩
  | x :: xs, s, h, hsteps, hgoing, hfound => by
    have split (k : Tally) : k.count (x :: xs) = k.count [x] + k.count xs := k.count_append [x] xs
    rw [split, ← Nat.add_assoc] at hsteps
    rw [split] at hgoing
    have hx : x.tally ≠ .stop := fun hx => by simp [Tally.count, hx] at hgoing
    obtain ⟨t, ht, h'⟩ := h.exists_take hjobs (hsteps.mono (Nat.le_add_right ..)) hx (hfound x (List.mem_cons_self ..))
    rw [← (counts_take ht).steps] at hsteps
    obtain ⟨u, hu⟩ := Filed.exists_foldlM hjobs h' hsteps (by omega) fun y hy => hfound y (List.mem_cons_of_mem _ hy)
    exact ⟨u, by rw [List.foldlM_cons, ht]; exact hu⟩

/-- A search deals with the next state that waits, if it stays within what is covered. -/
theorem Invariant.exists_visit {rest : Frontier State} (h : s.Invariant p o done) (hacc : s.Accounts p o done)
    (hmet : p.Covers o met) (hp : s.frontier.pop? = some (c, rest)) :
    ∃ t, ({ s with frontier := rest } : Search).visit p o c = .ok t := by
  have hwaiting : c ∈ s.frontier.toList := Frontier.toList_of_pop? hp ▸ List.mem_cons_self ..
  have hreach : p.Reaches c := h.reached c (.inr hwaiting)
  have covered (d : State) (hd : d ∈ done ∨ d ∈ s.frontier.toList) : d.settled ∈ met := hmet.reached d (h.reached d hd)
  rw [Search.visit]
  split
  · rw [expand_eq]
    refine Filed.exists_foldlM hmet.jobs ⟨hacc.distinct, ?_, hacc.jobs⟩ ?_ (hmet.going c hreach) ?_
    · intro d hd
      obtain ⟨e, he, rfl⟩ := h.seen d hd
      exact covered e he
    · -- the steps of distinct states are at most those of all that are covered
      have hdistinct : ((c :: done).map State.settled).Nodup := by
        have hall := hacc.filed.nodup_iff.mpr hacc.distinct
        rw [Frontier.toList_of_pop? hp, (List.perm_middle.map _).nodup_iff, ← List.cons_append, List.map_append] at hall
        exact (List.nodup_append.mp hall).1
      have hsubset : (c :: done).map State.settled ⊆ met := by
        intro d hd
        obtain ⟨e, he, rfl⟩ := List.mem_map.mp hd
        rcases List.mem_cons.mp he with rfl | he
        · exact covered _ (.inr hwaiting)
        · exact covered e (.inl he)
      refine hmet.steps.mono ?_
      calc s.stats.steps + State.count p o .step c = total (State.count p o .step) (c :: done) := by
            rw [hacc.steps, total, Nat.add_comm]
        _ = total (State.count p o .step) ((c :: done).map State.settled) := by
            rw [total_map]
            exact total_congr fun d _ => d.count_eq_settled
        _ ≤ total (State.count p o .step) met := total_le_of_subset _ hdistinct hsubset
    · intro x hx d hd
      obtain ⟨tid, -, hx⟩ := List.mem_flatMap.mp hx
      exact hmet.reached d (hreach.tail (State.move_of_mem_findings hx hd))
  · next hc =>
    rw [State.isRunning_iff, not_not] at hc
    rw [Search.close]
    split
    · next hfu =>
      obtain ⟨f, hf⟩ := hmet.final c hreach hc (State.pending_isEmpty_iff.mp hfu)
      rw [hf]
      exact ⟨_, rfl⟩
    · exact ⟨_, rfl⟩

/-- A search within what is covered goes on to its end. -/
theorem Invariant.exists_run {s : Search} {done : List State} (h : s.Invariant p o done) (hacc : s.Accounts p o done)
    (hmet : p.Covers o met) : ∃ t, s.run p o = .ok t := by
  rw [Search.run]
  split
  · exact ⟨s, rfl⟩
  · next e he =>
    obtain ⟨⟨c, rest⟩, hp, hv⟩ := Option.map_eq_some_iff.mp he
    obtain ⟨t, ht⟩ := h.exists_visit hacc hmet hp
    cases ht.symm.trans hv
  · next t ht =>
    obtain ⟨⟨c, rest⟩, hp, hv⟩ := Option.map_eq_some_iff.mp ht
    exact exists_run (h.visit hp hv) (hacc.visit hp hv) hmet
termination_by load p o s
decreasing_by exact load_pass_lt ‹_›

/-- Two searches that ended have counted the same, if what the one has met is what the other has met, changed into
states that count the same. -/
theorem Accounts.stats_eq_of_perm {p' : Program} {o' : Options} {done' : List State} {F : State → State}
    (hacc : s.Accounts p o done) (hempty : s.frontier.toList = []) (hacc' : t.Accounts p' o' done')
    (hempty' : t.frontier.toList = []) (hseen : t.seen.toList.Perm (s.seen.toList.map F))
    (hcount : ∀ c ∈ s.seen.toList, ∀ k, State.count p' o' k (F c) = State.count p o k c)
    (hstuck : ∀ c ∈ s.seen.toList, (F c).isStuck p' = c.isStuck p) : t.stats = s.stats := by
  have same {f f' : State → Nat} (hf : ∀ c, f c = f c.settled) (hf' : ∀ c, f' c = f' c.settled)
      (h : ∀ c ∈ s.seen.toList, f' (F c) = f c) : total f' done' = total f done := by
    rw [hacc.total_settled hempty hf, hacc'.total_settled hempty' hf', total_perm f' hseen, total_map]
    exact total_congr h
  have counted (k : Tally) : total (State.count p' o' k) done' = total (State.count p o k) done :=
    same State.count_eq_settled State.count_eq_settled fun c hc => hcount c hc k
  have hjobs : t.stats.jobs = s.stats.jobs := by rw [hacc.jobs, hacc'.jobs, hseen.length_eq, List.length_map]
  have hsteps : t.stats.steps = s.stats.steps := by rw [hacc.steps, hacc'.steps, counted]
  have hdiscards : t.stats.discards = s.stats.discards := by rw [hacc.discards, hacc'.discards, counted]
  have hmoves : t.stats.jobs + t.stats.duplicates = s.stats.jobs + s.stats.duplicates := by
    rw [hacc.moves, hacc'.moves, counted]
  have hduplicates : t.stats.duplicates = s.stats.duplicates := by omega
  have hstuck : t.stats.stuck = s.stats.stuck := by
    rw [hacc.stuck, hacc'.stuck]
    exact same (fun c => congrArg Bool.toNat c.settled_alike.symm.isStuck_eq)
      (fun c => congrArg Bool.toNat c.settled_alike.symm.isStuck_eq) fun c hc => congrArg Bool.toNat (hstuck c hc)
  exact Stats.ext hjobs hsteps hdiscards hduplicates hstuck

/-- Two searches that ended, whatever their orders, have met the same and counted the same. -/
theorem Accounts.stats_eq {o' : Options} {done' : List State} (h : s.Invariant p o done) (hacc : s.Accounts p o done)
    (hempty : s.frontier.toList = []) (h' : t.Invariant p o' done') (hacc' : t.Accounts p o' done')
    (hempty' : t.frontier.toList = []) (ho : ∀ k, State.count p o' k = State.count p o k) : t.stats = s.stats := by
  have hseen : t.seen.toList.Perm s.seen.toList := by
    refine (List.perm_ext_iff_of_nodup hacc'.distinct hacc.distinct).mpr fun d => ?_
    rw [h.mem_seen hacc hempty, h'.mem_seen hacc' hempty']
  refine hacc.stats_eq_of_perm hempty hacc' hempty' (F := fun c => c) ?_ (fun c _ k => congrFun (ho k) c) fun c _ => rfl
  rw [List.map_id']
  exact hseen

end Search

/-! ### Moves -/

/-- Whether a leaf is a result. -/
def Leaf.isDone {α : Type} : Leaf α → Bool
  | .done _ => true
  | _ => false

namespace State

variable {s : State} {tid : Nat}

/-- How many moves a thread has in a state: the done leaves of its next instruction, and the writes that it may
promise. -/
def movesOf (p : Program) (o : Options) (s : State) (tid : Nat) : Nat :=
  match p.threads[tid]?, s.threads[tid]? with
  | some t, some slot =>
    match t.code[slot.pc]? with
    | none => 0
    | some i => ((i.runOn slot.thread s.memory).leaves o.maxChooseBits).countP Leaf.isDone
        + (t.unpromised slot.promised).length
  | _, _ => 0

/-- How many moves there are in a state. -/
def moveCount (p : Program) (o : Options) (s : State) : Nat := total (s.movesOf p o) (List.range s.threads.length)

theorem tally_ofLeaf_eq_move {slot : Slot} {l : Leaf Frame} :
    ((Finding.ofLeaf p o s tid slot l).tally == .move) = l.isDone := by
  cases l <;> rfl

theorem count_move_findings (h : ∀ stop, .stopped stop ∉ s.findings p o tid) :
    Tally.move.count (s.findings p o tid) = s.movesOf p o tid := by
  cases ht : p.threads[tid]? with
  | none => simp [findings, movesOf, ht, Tally.count]
  | some t =>
    cases hs : s.threads[tid]? with
    | none => simp [findings, movesOf, ht, hs, Tally.count]
    | some slot =>
      cases hi : t.code[slot.pc]? with
      | none => simp [findings, movesOf, ht, hs, findingsOf, hi, Tally.count]
      | some i =>
        rw [findings_eq ht hs hi] at h ⊢
        have promised (w : (Int × Int) × Nat) (hw : w ∈ t.unpromised slot.promised) :
            (Finding.ofPromise s tid slot w).tally = .move := by
          have hgoing : ∀ stop, Finding.ofPromise s tid slot w ≠ .stopped stop := fun stop hstop =>
            h stop (List.mem_append_right _ (List.mem_map.mpr ⟨w, hw, hstop⟩))
          rw [Finding.ofPromise] at hgoing ⊢
          split
          · next f hf => exact absurd (by rw [hf]) (hgoing (.trouble (.fault f)))
          · rfl
        simp only [movesOf, ht, hs, hi]
        rw [Tally.count_append]
        congr 1
        · rw [Tally.count, List.map_cons, List.map_map, List.count_cons_of_ne (by decide), List.count, List.countP_map]
          exact congrArg (List.countP · _) (funext fun l => tally_ofLeaf_eq_move)
        · rw [Tally.count, List.map_map, List.count_eq_length.mpr, List.length_map]
          rintro _ hk
          obtain ⟨w, hw, rfl⟩ := List.mem_map.mp hk
          exact (promised w hw).symm

/-- Unless it ends the search, exploring a state meets its moves. -/
theorem count_move (h : State.count p o .stop s = 0) : State.count p o .move s = s.moveCount p o := by
  rw [count_eq_total, moveCount]
  refine total_congr fun tid htid => count_move_findings fun stop hstop => ?_
  rw [State.count, Tally.count, List.count_eq_zero] at h
  exact h (List.mem_map.mpr ⟨_, List.mem_flatMap.mpr ⟨tid, htid, hstop⟩, rfl⟩)

end State

/-! ### Explorations -/

/-- An exploration within what is covered ends. -/
theorem Program.Covers.exists_result {met : List State} (h : p.Covers o met) : ∃ r, (explore p o).result = .ok r := by
  have ends (begun : Search) (hf : begun.frontier = .empty o.order) (hs : begun.seen = .empty)
      (hn : begun.finals = .empty) (hstats : begun.stats = {}) (e : Halted) :
      (do (← begun.meet o p.start).run p o : Except Halted Search) ≠ .error e := by
    have hempty : begun.frontier.toList = [] := by rw [hf, Frontier.toList_empty]
    have hfiled : begun.Filed met :=
      ⟨by simp [hs, Roll.toList_empty], by simp [hs, Roll.toList_empty], by simp [hs, hstats, Roll.toList_empty]⟩
    obtain ⟨s, hmeet, -⟩ := hfiled.exists_meet h.jobs (h.reached _ .refl)
    obtain ⟨t, ht⟩ := (invariant_meet_start hempty hs hn hmeet).exists_run (Search.accounts_meet hempty hs hstats hmeet) h
    rw [bind_eq_ok.mpr ⟨s, hmeet, ht⟩]
    exact nofun
  rw [explore]
  dsimp only
  split
  · next e he => exact absurd he (ends _ rfl rfl rfl rfl e)
  · exact ⟨_, rfl⟩

/-- Whatever the options, an exploration that ends has the finals of every other that ends. -/
theorem mem_finals_of_mem_finals {o' : Options} {r r' : Explored} (h : (explore p o).result = .ok r)
    (h' : (explore p o').result = .ok r') {f : Final} (hf : f ∈ r.finals) : f ∈ r'.finals := by
  obtain ⟨c, hc, hend, hfu, he⟩ := exists_reaches_of_mem_finals h hf
  obtain ⟨g, hg, he'⟩ := exists_final_of_reaches h' hc hend hfu
  cases he.symm.trans he'
  exact hg

/-- An exploration that ends, ends in any order: with the same finals and the same counts. The states that it has waiting
and those that it meets again are the start and what the moves of the states that it expands lead to. -/
theorem explore_anyOrder {r : Explored} (h : (explore p o).result = .ok r) :
    (∀ order, ∃ r', (explore p { o with order }).result = .ok r' ∧ r'.stats = r.stats ∧ r'.finals.Perm r.finals) ∧
    ∃ cs, p.Explores o cs r ∧
      r.stats.jobs + r.stats.duplicates = 1 + total (State.moveCount p o) (cs.filter (State.isRunning p)) := by
  obtain ⟨cs, hcs⟩ := exists_explores h
  obtain ⟨s, hinv, hacc, hempty, rfl⟩ := hcs.accounts
  have hmet := hinv.covers hacc hempty
  refine ⟨?_, cs, hcs, ?_⟩
  · intro order
    obtain ⟨r', hr'⟩ := (hmet.anyOrder order).exists_result
    have hmem (f : Final) : f ∈ r'.finals ↔ f ∈ s.finals.toList :=
      ⟨mem_finals_of_mem_finals hr' h, mem_finals_of_mem_finals h hr'⟩
    obtain ⟨cs', hcs'⟩ := exists_explores hr'
    obtain ⟨t, hinv', hacc', hempty', rfl⟩ := hcs'.accounts
    refine ⟨_, hr', Search.Accounts.stats_eq hinv hacc hempty hinv' hacc' hempty' fun _ => rfl, ?_⟩
    exact (List.perm_ext_iff_of_nodup hinv'.distinct hinv.distinct).mpr hmem
  · have hmoves : total (State.moveCount p o) cs = total (State.count p o .move) cs :=
      total_congr fun c hc => (State.count_move (hmet.going c (hinv.reached c (.inl (List.mem_reverse.mpr hc))))).symm
    have hidle : ∀ c ∈ cs, c.isRunning p = false → State.moveCount p o c = 0 := by
      intro c hc hrunning
      have hgoing := hmet.going c (hinv.reached c (.inl (List.mem_reverse.mpr hc)))
      rw [← State.count_move hgoing, State.count, State.met_eq_nil hrunning]
      rfl
    rw [total_filter hidle, hmoves, ← total_perm _ (List.reverse_perm cs)]
    exact hacc.moves

/-- A thread that loads a cell and then stores to it, and may promise that store and one that it never makes; and a thread
whose store may overtake the promise. -/
def overtakenPromise : Program where
  threads := [
    { code := [Shape.load "X3" "X2" .plain false, Shape.store "X1" "X2" .plain],
      regs := .ofList [("X1", (1 : Int)), ("X2", 0)], promisable := [(0, 1), (0, 2)] },
    { code := [Shape.store "X1" "X2" .plain], regs := .ofList [("X1", (5 : Int)), ("X2", 0)] }]

theorem explore_anyOrder_overtakenPromise : ∃ r r', (explore overtakenPromise {}).result = .ok r ∧
    (explore overtakenPromise { order := .bfs }).result = .ok r' ∧ r.finals.length = 3 ∧
    r'.stats = r.stats ∧ r'.finals.Perm r.finals ∧
    ∃ cs, overtakenPromise.Explores {} cs r ∧ r.stats.jobs + r.stats.duplicates =
      1 + total (State.moveCount overtakenPromise {}) (cs.filter (State.isRunning overtakenPromise)) := by
  obtain ⟨r, hr, hlength⟩ := exists_result_of_length (p := overtakenPromise) (o := {}) (n := 3) (by decide +kernel)
  obtain ⟨hany, hmoves⟩ := explore_anyOrder hr
  obtain ⟨r', hr', hstats, hperm⟩ := hany .bfs
  exact ⟨r, r', hr, hr', hlength, hstats, hperm, hmoves⟩

end Litmus
