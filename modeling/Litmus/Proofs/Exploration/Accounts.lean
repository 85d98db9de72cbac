import Litmus.Proofs.Exploration.Settled
import Litmus.Proofs.Number.Order

/-!
The accounts of a search. Between passes the settled states that were met are, each once, those of the states that are
done with and of those that wait; and the counts of the search are those of the states that are done with.
-/

namespace Litmus

theorem Frontier.perm_push {α : Type} {f : Frontier α} {a : α} : (f.push a).toList.Perm (a :: f.toList) := by
  rw [toList_push]
  cases f.order with
  | dfs => exact .refl _
  | bfs => exact List.perm_append_singleton a _

namespace Search

variable {p : Program} {o : Options} {s t u : Search} {c : State} {x : Finding} {xs ys : List Finding}

/-! ### Findings -/

/-- Whether the budgets allow what a search has counted. -/
structure Within (o : Options) (s : Search) : Prop where
  jobs : o.maxJobs.Allows s.stats.jobs
  steps : o.maxSteps.Allows s.stats.steps

/-- What a search counts when it deals with findings. The states that are new to it wait. -/
structure Counts (o : Options) (s : Search) (xs : List Finding) (t : Search) : Prop where
  steps : t.stats.steps = s.stats.steps + Tally.step.count xs
  discards : t.stats.discards = s.stats.discards + Tally.discard.count xs
  moves : t.stats.jobs + t.stats.duplicates = s.stats.jobs + s.stats.duplicates + Tally.move.count xs
  stuck : t.stats.stuck = s.stats.stuck
  within : s.Within o → t.Within o
  waiting : ∃ new : List State, t.frontier.toList.Perm (new ++ s.frontier.toList) ∧
    t.seen.toList = s.seen.toList ++ new.map State.settled ∧ t.stats.jobs = s.stats.jobs + new.length
  distinct : s.seen.toList.Nodup → t.seen.toList.Nodup

theorem Counts.nil (s : Search) : s.Counts o [] s where
  steps := rfl
  discards := rfl
  moves := rfl
  stuck := rfl
  within h := h
  waiting := ⟨[], .refl _, (List.append_nil _).symm, rfl⟩
  distinct h := h

theorem Counts.append (h : s.Counts o xs t) (h' : t.Counts o ys u) : s.Counts o (xs ++ ys) u where
  steps := by rw [h'.steps, h.steps, Tally.count_append, Nat.add_assoc]
  discards := by rw [h'.discards, h.discards, Tally.count_append, Nat.add_assoc]
  moves := by rw [h'.moves, h.moves, Tally.count_append, Nat.add_assoc]
  stuck := h'.stuck.trans h.stuck
  within hs := h'.within (h.within hs)
  waiting := by
    obtain ⟨new, hperm, hseen, hjobs⟩ := h.waiting
    obtain ⟨new', hperm', hseen', hjobs'⟩ := h'.waiting
    refine ⟨new ++ new', ?_, ?_, ?_⟩
    · refine hperm'.trans ((hperm.append_left _).trans ?_)
      rw [← List.append_assoc]
      exact List.perm_append_comm.append_right _
    · rw [hseen', hseen, List.map_append, List.append_assoc]
    · rw [hjobs', hjobs, List.length_append, Nat.add_assoc]
  distinct hs := h'.distinct (h.distinct hs)

theorem counts_meet (hx : x.tally = .move) (h : s.meet o c = .ok t) : s.Counts o [x] t := by
  have hcount (k : Tally) : k.count [x] = if k = .move then 1 else 0 := by
    rw [Tally.count, List.map_singleton, hx]
    cases k <;> rfl
  rw [meet] at h
  split at h
  · cases h
    exact {
      steps := by simp [hcount]
      discards := by simp [hcount]
      moves := by simp [hcount, Nat.add_assoc]
      stuck := rfl
      within := fun hs => ⟨hs.jobs, hs.steps⟩
      waiting := ⟨[], .refl _, (List.append_nil _).symm, rfl⟩
      distinct := fun hs => hs }
  · next hc =>
    rw [Roll.contains_iff] at hc
    dsimp only at h
    split at h
    · cases h
    · next hbudget =>
      cases h
      exact {
        steps := by simp [hcount]
        discards := by simp [hcount]
        moves := by
          rw [hcount, if_pos rfl]
          exact Nat.add_right_comm ..
        stuck := rfl
        within := fun hs => ⟨.inr hbudget, hs.steps⟩
        waiting := ⟨[c], Frontier.perm_push, Roll.toList_push .., rfl⟩
        distinct := fun hs => Roll.nodup_push hs hc }

theorem counts_take (h : s.take o x = .ok t) : s.Counts o [x] t := by
  unfold take at h
  split at h
  · dsimp only at h
    split at h
    · cases h
    · next hbudget =>
      cases h
      exact ⟨rfl, rfl, rfl, rfl, fun hs => ⟨hs.jobs, .inr hbudget⟩, ⟨[], .refl _, (List.append_nil _).symm, rfl⟩, fun hs => hs⟩
  · exact counts_meet rfl h
  · cases h
    exact ⟨rfl, rfl, rfl, rfl, fun hs => ⟨hs.jobs, hs.steps⟩, ⟨[], .refl _, (List.append_nil _).symm, rfl⟩, fun hs => hs⟩
  · next tid time loc value c =>
    have hc := counts_meet (x := .promised tid time loc value c) rfl h
    exact ⟨hc.steps, hc.discards, hc.moves, hc.stuck, fun hs => hc.within ⟨hs.jobs, hs.steps⟩, hc.waiting, hc.distinct⟩
  · cases h

theorem counts_expand (h : s.expand p o c = .ok t) : s.Counts o (c.met p o) t :=
  relates_foldlM Counts.nil Counts.append counts_take _ _ _ (expand_eq ▸ h)

/-! ### Searches -/

/-- What the counts of a search say of the states that it is done with. -/
structure Accounts (p : Program) (o : Options) (s : Search) (done : List State) : Prop where
  filed : ((done ++ s.frontier.toList).map State.settled).Perm s.seen.toList
  distinct : s.seen.toList.Nodup
  within : s.Within o
  jobs : s.stats.jobs = s.seen.toList.length
  steps : s.stats.steps = total (State.count p o .step) done
  discards : s.stats.discards = total (State.count p o .discard) done
  moves : s.stats.jobs + s.stats.duplicates = 1 + total (State.count p o .move) done
  stuck : s.stats.stuck = total (fun c => (c.isStuck p).toNat) done

/-- What closing a state counts. -/
theorem stats_close (h : s.close c = .ok t) :
    t.seen = s.seen ∧ t.stats = { s.stats with stuck := s.stats.stuck + (!c.pending.isEmpty).toNat } := by
  rw [close] at h
  split at h
  · next hp =>
    split at h
    · cases h
    · cases h
      rw [hp]
      split <;> exact ⟨rfl, rfl⟩
  · next hp =>
    cases h
    obtain ⟨hseen, -, hstats⟩ := foldl_note (f := fun slot =>
      ((pendingWarning slot).message, Record.map Param.value ((pendingWarning slot).data.getD []))) c.pending
        { s with stats.stuck := s.stats.stuck + 1 }
    refine ⟨hseen, ?_⟩
    rw [Bool.not_eq_true] at hp
    rw [hp]
    exact hstats

/-- The accounts after a pass, once its findings are counted and then the state itself, if it is stuck. -/
theorem Accounts.next {done : List State} {rest : Frontier State} (h : s.Accounts p o done)
    (hp : s.frontier.pop? = some (c, rest)) (hcounts : ({ s with frontier := rest } : Search).Counts o (c.met p o) u)
    (hfrontier : t.frontier = u.frontier) (hseen : t.seen = u.seen)
    (hstats : t.stats = { u.stats with stuck := u.stats.stuck + (c.isStuck p).toNat }) : t.Accounts p o (c :: done) := by
  obtain ⟨new, hwaiting, hnew, hjobs⟩ := hcounts.waiting
  have hperm : ((c :: done) ++ t.frontier.toList).Perm (done ++ s.frontier.toList ++ new) := by
    rw [hfrontier, Frontier.toList_of_pop? hp]
    refine (hwaiting.append_left _).trans ((List.perm_append_comm.append_left _).trans ?_)
    rw [← List.append_assoc]
    exact List.perm_middle.symm.append_right new
  exact {
    filed := by
      rw [hseen, hnew]
      refine (hperm.map _).trans ?_
      rw [List.map_append]
      exact h.filed.append_right _
    distinct := hseen ▸ hcounts.distinct h.distinct
    within := by
      have hw := hcounts.within ⟨h.within.jobs, h.within.steps⟩
      exact ⟨hstats ▸ hw.jobs, hstats ▸ hw.steps⟩
    jobs := by
      rw [hstats, hseen, hnew, List.length_append, List.length_map]
      exact hjobs.trans (congrArg (· + new.length) h.jobs)
    steps := by
      rw [hstats, total, ← h.steps, Nat.add_comm _ s.stats.steps]
      exact hcounts.steps
    discards := by
      rw [hstats, total, ← h.discards, Nat.add_comm _ s.stats.discards]
      exact hcounts.discards
    moves := by
      rw [hstats, total, Nat.add_comm (State.count p o .move c), ← Nat.add_assoc, ← h.moves]
      exact hcounts.moves
    stuck := by
      rw [hstats, total, ← h.stuck, Nat.add_comm _ s.stats.stuck]
      exact congrArg (· + (c.isStuck p).toNat) hcounts.stuck }

theorem Accounts.visit {done : List State} {rest : Frontier State} (h : s.Accounts p o done)
    (hp : s.frontier.pop? = some (c, rest)) (ht : ({ s with frontier := rest } : Search).visit p o c = .ok t) :
    t.Accounts p o (c :: done) := by
  rw [Search.visit] at ht
  split at ht
  · next hc => exact h.next hp (counts_expand ht) rfl rfl (by simp [State.isStuck, hc])
  · next hc =>
    obtain ⟨hseen, hstats⟩ := stats_close ht
    have hmet : c.met p o = [] := State.met_eq_nil (Bool.not_eq_true _ ▸ hc)
    exact h.next hp (hmet ▸ .nil _) (frontier_close ht) hseen (by simp [hstats, State.isStuck, hc])

/-- The accounts of a search that has met the start alone. -/
theorem accounts_meet (hf : s.frontier.toList = []) (hs : s.seen = .empty) (hstats : s.stats = {})
    (h : s.meet o c = .ok t) : t.Accounts p o [] := by
  have hcounts := counts_meet (x := .reached c) rfl h
  obtain ⟨new, hwaiting, hnew, hjobs⟩ := hcounts.waiting
  rw [hf, List.append_nil] at hwaiting
  rw [hs, Roll.toList_empty, List.nil_append] at hnew
  rw [hstats, Nat.zero_add] at hjobs
  exact {
    filed := hnew ▸ hwaiting.map _
    distinct := hcounts.distinct (by simp [hs, Roll.toList_empty])
    within := hcounts.within ⟨by rw [hstats]; exact .zero, by rw [hstats]; exact .zero⟩
    jobs := by rw [hjobs, hnew, List.length_map]
    steps := by rw [hcounts.steps, hstats]; rfl
    discards := by rw [hcounts.discards, hstats]; rfl
    moves := by rw [hcounts.moves, hstats]; rfl
    stuck := by rw [hcounts.stuck, hstats]; rfl }

end Search

/-- The accounts of an exploration that has ended, over the states that it has passed through. -/
theorem Program.Explores.accounts {p : Program} {o : Options} {cs : List State} {r : Explored} (h : p.Explores o cs r) :
    ∃ s : Search, s.Invariant p o cs.reverse ∧ s.Accounts p o cs.reverse ∧ s.frontier.toList = [] ∧
      r = ⟨s.finals.toList, s.stats⟩ := by
  obtain ⟨begun, s, t, hf, hs, hn, hstats, hmeet, hpasses, rfl⟩ := h
  have hempty : begun.frontier.toList = [] := by rw [hf, Frontier.toList_empty]
  have hinv := hpasses.kept (fun h hp hv => h.visit hp hv) (invariant_meet_start hempty hs hn hmeet)
  have hacc := hpasses.kept (fun h hp hv => h.visit hp hv) (Search.accounts_meet hempty hs hstats hmeet)
  rw [List.append_nil] at hinv hacc
  exact ⟨t, hinv, hacc, hpasses.frontier_eq_nil, rfl⟩

end Litmus
