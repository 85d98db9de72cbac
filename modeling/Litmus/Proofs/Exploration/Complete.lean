import Litmus.Exploration
import Litmus.Proofs.Exploration.Alike

/-!
What an exploration finds. Between passes every state met is reached by moves and either waits or is done
with; a state that is done with has had every state that a move leads to met. A state that was met settled
before is dropped, but one alike is explored in its place, and moves alike. Main fact: when an exploration
ends, its finals are those of all states that any moves reach and in which nothing is left to do.
-/

namespace Litmus

/-! ### Findings are moves -/

namespace State

variable {p : Program} {o : Options} {s c : State} {tid : Nat} {x : Finding}

theorem isRunning_iff : s.isRunning p = true ↔ ¬s.Finished p := by
  simp only [isRunning, List.any_eq_true, decide_eq_true_iff, Prod.exists, Finished, not_forall]
  constructor
  · rintro ⟨t, slot, hm, hpc⟩
    obtain ⟨tid, hz⟩ := List.mem_iff_getElem?.mp hm
    obtain ⟨ht, hs⟩ := List.getElem?_zip_eq_some.mp hz
    exact ⟨tid, t, slot, ht, hs, by omega⟩
  · rintro ⟨tid, t, slot, ht, hs, hpc⟩
    exact ⟨t, slot, List.mem_iff_getElem?.mpr ⟨tid, List.getElem?_zip_eq_some.mpr ⟨ht, hs⟩⟩, by omega⟩

theorem pending_isEmpty_iff : s.pending.isEmpty = true ↔ s.Fulfilled := by
  simp [pending, Thread.hasNoPromises, Fulfilled]

/-- A state without instructions left makes no moves. -/
theorem Finished.not_move (h : s.Finished p) : ¬s.Move p c := by
  rintro (⟨ht, hs, hi, -⟩ | ⟨ht, hs, hpc, -, -⟩)
  · have := h _ _ _ ht hs
    have := (List.getElem?_eq_some_iff.mp hi).1
    omega
  · have := h _ _ _ ht hs
    omega

/-- A state that is found is one that a move leads to. -/
theorem move_of_mem_findings (hx : x ∈ s.findings p o tid) (hc : x.state? = some c) : s.Move p c := by
  rw [findings] at hx
  split at hx
  · next t slot ht hs =>
    rw [findingsOf] at hx
    split at hx
    · cases hx
    · next i hi =>
      rcases List.mem_append.mp hx with hx | hx
      · rcases List.mem_cons.mp hx with rfl | hx
        · cases hc
        · obtain ⟨leaf, hl, rfl⟩ := List.mem_map.mp hx
          cases leaf <;> simp only [Finding.ofLeaf, Finding.state?, reduceCtorEq, Option.some.injEq] at hc
          subst hc
          exact .run ht hs hi (Outcome.yields_of_mem_leaves hl)
      · obtain ⟨w, hw, rfl⟩ := List.mem_map.mp hx
        rw [Finding.ofPromise] at hc
        split at hc
        · cases hc
        · next f time hf =>
          simp only [Finding.state?, Option.some.injEq] at hc
          subst hc
          exact .promise ht hs (List.getElem?_eq_some_iff.mp hi).1 hw hf
  · cases hx

theorem findings_eq {t : ThreadProgram} {slot : Slot} {i : Instr} (ht : p.threads[tid]? = some t)
    (hs : s.threads[tid]? = some slot) (hi : t.code[slot.pc]? = some i) :
    s.findings p o tid =
      .began :: ((i.runOn slot.thread s.memory).leaves o.maxChooseBits).map (Finding.ofLeaf p o s tid slot)
        ++ (t.unpromised slot.promised).map (Finding.ofPromise s tid slot) := by
  simp [findings, ht, hs, findingsOf, hi]

/-- Nothing is found in a state without instructions left. -/
theorem Finished.findings_eq_nil (h : s.Finished p) : s.findings p o tid = [] := by
  rw [findings]
  split
  · next t slot ht hs =>
    rw [findingsOf, List.getElem?_eq_none (h tid t slot ht hs)]
  · rfl

/-- A fold over what exploring threads of a state meets is one over all findings, one after another. -/
theorem foldlM_foldFindings {σ ε : Type} {f : σ → Finding → Except ε σ} : ∀ (tids : List Nat) (a : σ),
    tids.foldlM (fun a tid => s.foldFindings p o f a tid) a = (tids.flatMap (s.findings p o)).foldlM f a
  | [], _ => rfl
  | tid :: tids, a => by
    rw [List.foldlM_cons, List.flatMap_cons, List.foldlM_append, foldFindings_eq]
    exact bind_congr fun b => foldlM_foldFindings tids b

/-- Where a move leads to is found, unless finding it stops the search. -/
theorem exists_finding_of_move (h : s.Move p c)
    (going : ∀ tid < s.threads.length, ∀ stop, .stopped stop ∉ s.findings p o tid) :
    ∃ tid < s.threads.length, ∃ x ∈ s.findings p o tid, x.state? = some c := by
  cases h with
  | @run tid t slot i f ht hs hi hy =>
    have hlt := (List.getElem?_eq_some_iff.mp hs).1
    have hgoing := going tid hlt
    rw [findings_eq ht hs hi] at hgoing
    have hl : .done f ∈ (i.runOn slot.thread s.memory).leaves o.maxChooseBits := by
      refine Outcome.mem_leaves_of_yields hy fun space hw => hgoing (.budget .chooseBits o.maxChooseBits) ?_
      exact List.mem_append_left _ (List.mem_cons_of_mem _ (List.mem_map.mpr ⟨_, hw, rfl⟩))
    refine ⟨tid, hlt, Finding.ofLeaf p o s tid slot (.done f), ?_, rfl⟩
    rw [findings_eq ht hs hi]
    exact List.mem_append_left _ (List.mem_cons_of_mem _ (List.mem_map.mpr ⟨_, hl, rfl⟩))
  | @promise tid t slot w f time ht hs hpc hw hf =>
    have hi := List.getElem?_eq_getElem hpc
    refine ⟨tid, (List.getElem?_eq_some_iff.mp hs).1, Finding.ofPromise s tid slot w, ?_, ?_⟩
    · rw [findings_eq ht hs hi]
      exact List.mem_append_right _ (List.mem_map.mpr ⟨w, hw, rfl⟩)
    · simp only [Finding.ofPromise, hf, Finding.state?]

end State

theorem Frontier.mem_push {α : Type} {f : Frontier α} {a b : α} : b ∈ (f.push a).toList ↔ b = a ∨ b ∈ f.toList := by
  rw [toList_push]
  cases f.order <;> simp [or_comm]

theorem Roll.nodup_push {α : Type} {key : α → List Int} {r : Roll key} {a : α} (h : r.toList.Nodup) (ha : a ∉ r.toList) :
    (r.push a).toList.Nodup := by
  rw [toList_push, List.nodup_append]
  exact ⟨h, by simp, fun b hb c hc e => ha (List.mem_singleton.mp hc ▸ e ▸ hb)⟩

namespace Search

variable {p : Program} {o : Options}

/-! ### Passes -/

/-- How a search goes on when it deals with findings: every state that was found has been met, and what was
met for the first time waits. -/
structure Grows (s : Search) (xs : List Finding) (t : Search) : Prop where
  finals_eq : t.finals = s.finals
  going : ∀ stop, .stopped stop ∉ xs
  waiting : ∀ c ∈ s.frontier.toList, c ∈ t.frontier.toList
  found : ∀ c ∈ t.frontier.toList, c ∈ s.frontier.toList ∨ ∃ x ∈ xs, x.state? = some c
  kept : ∀ d ∈ s.seen.toList, d ∈ t.seen.toList
  met : ∀ x ∈ xs, ∀ c, x.state? = some c → c.settled ∈ t.seen.toList
  seen : ∀ d ∈ t.seen.toList, d ∈ s.seen.toList ∨ ∃ c ∈ t.frontier.toList, c.settled = d

theorem Grows.of_same {s t : Search} {xs : List Finding} (hf : t.finals = s.finals)
    (hw : t.frontier = s.frontier) (hs : t.seen = s.seen) (hx : ∀ x ∈ xs, x.state? = none ∧ ∀ stop, x ≠ .stopped stop) :
    s.Grows xs t where
  finals_eq := hf
  going stop h := (hx _ h).2 stop rfl
  waiting c hc := hw ▸ hc
  found c hc := .inl (hw ▸ hc)
  kept d hd := hs ▸ hd
  met x hxs c hc := by rw [(hx x hxs).1] at hc; cases hc
  seen d hd := .inl (hs ▸ hd)

theorem Grows.append {s t u : Search} {xs ys : List Finding} (h : s.Grows xs t) (h' : t.Grows ys u) :
    s.Grows (xs ++ ys) u where
  finals_eq := h'.finals_eq.trans h.finals_eq
  going stop hm := (List.mem_append.mp hm).elim (h.going stop) (h'.going stop)
  waiting c hc := h'.waiting c (h.waiting c hc)
  found c hc := by
    rcases h'.found c hc with hc | ⟨x, hx, hc⟩
    · exact (h.found c hc).imp_right fun ⟨x, hx, hc⟩ => ⟨x, List.mem_append_left _ hx, hc⟩
    · exact .inr ⟨x, List.mem_append_right _ hx, hc⟩
  kept d hd := h'.kept d (h.kept d hd)
  met x hx c hc := (List.mem_append.mp hx).elim (fun hx => h'.kept _ (h.met x hx c hc)) fun hx => h'.met x hx c hc
  seen d hd := by
    rcases h'.seen d hd with hd | hd
    · exact (h.seen d hd).imp_right fun ⟨c, hc, hd⟩ => ⟨c, h'.waiting c hc, hd⟩
    · exact .inr hd

theorem grows_meet {s t : Search} {c : State} {x : Finding} (hx : x.state? = some c) (h : s.meet o c = .ok t) :
    s.Grows [x] t := by
  have going (stop : Stop) : .stopped stop ∉ [x] := by
    rw [List.mem_singleton]
    rintro rfl
    cases hx
  have met {d : State} {P : State → Prop} (hp : P c) (hd : x.state? = some d) : P d := by
    rw [hx] at hd
    cases hd
    exact hp
  rw [meet] at h
  split at h
  · next hc =>
    cases h
    have hc := Roll.contains_iff.mp hc
    exact ⟨rfl, going, fun _ h => h, fun _ h => .inl h, fun _ h => h,
      fun y hy d hd => by rw [List.mem_singleton.mp hy] at hd; exact met (P := fun d => d.settled ∈ s.seen.toList) hc hd,
      fun _ h => .inl h⟩
  · dsimp only at h
    split at h
    · cases h
    · cases h
      refine ⟨rfl, going, fun d hd => by simp [Frontier.mem_push, hd], ?_,
        fun d hd => by simp [Roll.toList_push, hd], ?_, ?_⟩
      · intro d hd
        rcases Frontier.mem_push.mp hd with rfl | hd
        · exact .inr ⟨x, List.mem_singleton_self x, hx⟩
        · exact .inl hd
      · intro y hy d hd
        rw [List.mem_singleton.mp hy] at hd
        exact met (P := fun d => d.settled ∈ (s.seen.push c.settled).toList) (by simp [Roll.toList_push]) hd
      · intro d hd
        rw [Roll.toList_push, List.mem_append, List.mem_singleton] at hd
        exact hd.imp_right fun hd => ⟨c, Frontier.mem_push.mpr (.inl rfl), hd.symm⟩

theorem grows_take {s t : Search} {x : Finding} (h : s.take o x = .ok t) : s.Grows [x] t := by
  unfold take at h
  split at h
  · dsimp only at h
    split at h
    · cases h
    · cases h
      exact .of_same rfl rfl rfl (by simp [Finding.state?])
  · exact grows_meet rfl h
  · cases h
    exact .of_same rfl rfl rfl (by simp [Finding.state?])
  · next tid time loc value c =>
    have hg := grows_meet (x := .promised tid time loc value c) rfl h
    exact ⟨hg.finals_eq, hg.going, hg.waiting, hg.found, hg.kept, hg.met, hg.seen⟩
  · cases h

/-- Dealing with all that exploring a state meets is dealing with one finding after another. -/
theorem expand_eq {s : Search} {c : State} :
    s.expand p o c = ((List.range c.threads.length).flatMap (c.findings p o)).foldlM (take o) s :=
  State.foldlM_foldFindings _ _

/-- What relates a search before and after each finding relates it before and after all of them. -/
theorem relates_foldlM {T : Search → List Finding → Search → Prop} (nil : ∀ s, T s [] s)
    (append : ∀ {s t u xs ys}, T s xs t → T t ys u → T s (xs ++ ys) u)
    (step : ∀ {s t : Search} {x : Finding}, s.take o x = .ok t → T s [x] t) :
    ∀ (xs : List Finding) (s t : Search), xs.foldlM (take o) s = .ok t → T s xs t
  | [], s, t, h => by
    cases h
    exact nil s
  | x :: xs, s, t, h => by
    rw [List.foldlM_cons, bind_eq_ok] at h
    obtain ⟨u, hu, ht⟩ := h
    exact append (step hu) (relates_foldlM nil append step xs u t ht)

theorem grows_expand {s t : Search} {c : State} (h : s.expand p o c = .ok t) :
    s.Grows ((List.range c.threads.length).flatMap (c.findings p o)) t :=
  relates_foldlM (fun _ => .of_same rfl rfl rfl (by simp)) .append grows_take _ _ _ (expand_eq ▸ h)

theorem foldl_note {f : Slot → String × Record Value} : ∀ (l : List Slot) (s : Search),
    (l.foldl (fun s slot => s.note (f slot).1 (f slot).2) s).seen = s.seen ∧
      (l.foldl (fun s slot => s.note (f slot).1 (f slot).2) s).finals = s.finals ∧
      (l.foldl (fun s slot => s.note (f slot).1 (f slot).2) s).stats = s.stats
  | [], _ => ⟨rfl, rfl, rfl⟩
  | _ :: l, s => foldl_note l (s.note _ _)

/-- Closing a state adds its final, if nothing is left of its promises. -/
theorem close_spec {s t : Search} {c : State} (h : s.close c = .ok t) :
    t.frontier = s.frontier ∧ t.seen = s.seen ∧ (c.Fulfilled → ∃ f, c.final = .ok f) ∧
      (s.finals.toList.Nodup → t.finals.toList.Nodup) ∧
      ∀ f, f ∈ t.finals.toList ↔ f ∈ s.finals.toList ∨ c.Fulfilled ∧ c.final = .ok f := by
  refine ⟨frontier_close h, ?_⟩
  rw [close] at h
  split at h
  · next hp =>
    rw [State.pending_isEmpty_iff] at hp
    split at h
    · cases h
    · next f hf =>
      cases h
      simp only [hf, Except.ok.injEq, exists_eq', hp, true_and, implies_true]
      split
      · next hc =>
        have hc := Roll.contains_iff.mp hc
        refine ⟨rfl, fun hn => hn, fun g => ⟨.inl, ?_⟩⟩
        rintro (hg | rfl)
        · exact hg
        · exact hc
      · next hc =>
        rw [Roll.contains_iff] at hc
        exact ⟨rfl, fun hn => Roll.nodup_push hn hc, fun g => by simp [Roll.toList_push, eq_comm]⟩
  · next hp =>
    rw [State.pending_isEmpty_iff] at hp
    cases h
    obtain ⟨hseen, hfinals, -⟩ := foldl_note (f := fun slot =>
      ((pendingWarning slot).message, Record.map Param.value ((pendingWarning slot).data.getD []))) c.pending
        { s with stats.stuck := s.stats.stuck + 1 }
    refine ⟨hseen, fun h => absurd h hp, ?_, ?_⟩
    · intro hn
      rw [hfinals]
      exact hn
    · intro f
      rw [hfinals]
      simp [hp]

/-! ### Searches -/

/-- What holds of a search between its passes, with the states that it is done with. -/
structure Invariant (p : Program) (o : Options) (s : Search) (done : List State) : Prop where
  reached : ∀ c, c ∈ done ∨ c ∈ s.frontier.toList → p.Reaches c
  started : p.start.settled ∈ s.seen.toList
  seen : ∀ d ∈ s.seen.toList, ∃ c, (c ∈ done ∨ c ∈ s.frontier.toList) ∧ c.settled = d
  closed : ∀ c ∈ done, ∀ c', c.Move p c' → c'.settled ∈ s.seen.toList
  finals : ∀ f, f ∈ s.finals.toList ↔ ∃ c ∈ done, c.Finished p ∧ c.Fulfilled ∧ c.final = .ok f
  final : ∀ c ∈ done, c.Finished p → c.Fulfilled → ∃ f, c.final = .ok f
  distinct : s.finals.toList.Nodup
  going : ∀ c ∈ done, ∀ tid < c.threads.length, ∀ stop, .stopped stop ∉ c.findings p o tid

theorem Invariant.expand {s t : Search} {c : State} {done : List State} {rest : Frontier State}
    (h : s.Invariant p o done) (hp : s.frontier.pop? = some (c, rest)) (hc : ¬c.Finished p)
    (ht : ({ s with frontier := rest } : Search).expand p o c = .ok t) : t.Invariant p o (c :: done) := by
  have hg := grows_expand ht
  have hpop (d : State) : d ∈ s.frontier.toList ↔ d = c ∨ d ∈ rest.toList := by
    rw [Frontier.toList_of_pop? hp, List.mem_cons]
  have hreach : p.Reaches c := h.reached c (.inr ((hpop c).mpr (.inl rfl)))
  have going : ∀ tid < c.threads.length, ∀ stop, .stopped stop ∉ c.findings p o tid := fun tid hlt stop hm =>
    hg.going stop (List.mem_flatMap.mpr ⟨tid, List.mem_range.mpr hlt, hm⟩)
  refine ⟨?_, hg.kept _ h.started, ?_, ?_, ?_, ?_, ?_, ?_⟩
  · intro d hd
    rcases hd with hd | hd
    · rcases List.mem_cons.mp hd with rfl | hd
      · exact hreach
      · exact h.reached d (.inl hd)
    · rcases hg.found d hd with hd | ⟨x, hx, hxd⟩
      · exact h.reached d (.inr ((hpop d).mpr (.inr hd)))
      · obtain ⟨tid, -, hx⟩ := List.mem_flatMap.mp hx
        exact hreach.tail (State.move_of_mem_findings hx hxd)
  · intro d hd
    rcases hg.seen d hd with hd | ⟨e, he, rfl⟩
    · obtain ⟨e, he, rfl⟩ := h.seen d hd
      refine ⟨e, ?_, rfl⟩
      rw [List.mem_cons, hpop] at *
      rcases he with he | rfl | he
      · exact .inl (.inr he)
      · exact .inl (.inl rfl)
      · exact .inr (hg.waiting e he)
    · exact ⟨e, .inr he, rfl⟩
  · intro d hd d' hm
    rcases List.mem_cons.mp hd with rfl | hd
    · obtain ⟨tid, hlt, x, hx, hxd⟩ := State.exists_finding_of_move hm going
      exact hg.met x (List.mem_flatMap.mpr ⟨tid, List.mem_range.mpr hlt, hx⟩) d' hxd
    · exact hg.kept _ (h.closed d hd d' hm)
  · intro f
    rw [hg.finals_eq, h.finals, List.exists_mem_cons_iff]
    exact ⟨.inr, fun hd => hd.resolve_left fun hd => hc hd.1⟩
  · intro d hd hf hfu
    rcases List.mem_cons.mp hd with rfl | hd
    · exact absurd hf hc
    · exact h.final d hd hf hfu
  · rw [hg.finals_eq]
    exact h.distinct
  · exact List.forall_mem_cons.mpr ⟨going, h.going⟩

theorem Invariant.close {s t : Search} {c : State} {done : List State} {rest : Frontier State}
    (h : s.Invariant p o done) (hp : s.frontier.pop? = some (c, rest)) (hc : c.Finished p)
    (ht : ({ s with frontier := rest } : Search).close c = .ok t) : t.Invariant p o (c :: done) := by
  obtain ⟨hfrontier, hseen, hfinal, hdistinct, hfinals⟩ := close_spec ht
  have hmem (d : State) : (d ∈ c :: done ∨ d ∈ t.frontier.toList) ↔ d ∈ done ∨ d ∈ s.frontier.toList := by
    rw [hfrontier, Frontier.toList_of_pop? hp, List.mem_cons, List.mem_cons, or_assoc, or_left_comm]
  refine ⟨fun d hd => h.reached d ((hmem d).mp hd), ?_, ?_, ?_, ?_, ?_, hdistinct h.distinct, ?_⟩
  · rw [hseen]
    exact h.started
  · intro d hd
    rw [hseen] at hd
    obtain ⟨e, he, rfl⟩ := h.seen d hd
    exact ⟨e, (hmem e).mpr he, rfl⟩
  · intro d hd d' hm
    rw [hseen]
    rcases List.mem_cons.mp hd with rfl | hd
    · exact absurd hm hc.not_move
    · exact h.closed d hd d' hm
  · intro f
    rw [hfinals, h.finals, List.exists_mem_cons_iff, or_comm]
    simp [hc]
  · intro d hd hf hfu
    rcases List.mem_cons.mp hd with rfl | hd
    · exact hfinal hfu
    · exact h.final d hd hf hfu
  · refine List.forall_mem_cons.mpr ⟨?_, h.going⟩
    intro tid _ stop hm
    rw [hc.findings_eq_nil] at hm
    cases hm

theorem Invariant.visit {s t : Search} {c : State} {done : List State} {rest : Frontier State} (h : s.Invariant p o done)
    (hp : s.frontier.pop? = some (c, rest)) (ht : ({ s with frontier := rest } : Search).visit p o c = .ok t) :
    t.Invariant p o (c :: done) := by
  rw [Search.visit] at ht
  split at ht
  · next hc => exact h.expand hp (State.isRunning_iff.mp hc) ht
  · next hc =>
    rw [State.isRunning_iff, not_not] at hc
    exact h.close hp hc ht

/-- Passes of a search, until no state waits, through these states. -/
inductive Passes (p : Program) (o : Options) : Search → List State → Search → Prop
  | ended {s : Search} : s.frontier.pop? = none → Passes p o s [] s
  | pass {s t u : Search} {c : State} {rest : Frontier State} {cs : List State} : s.frontier.pop? = some (c, rest) →
      ({ s with frontier := rest } : Search).visit p o c = .ok t → Passes p o t cs u → Passes p o s (c :: cs) u

/-- A search that ends has passed until no state waited. -/
theorem exists_passes {s t : Search} (ht : s.run p o = .ok t) : ∃ cs, s.Passes p o cs t := by
  rw [Search.run] at ht
  split at ht
  · next hn =>
    cases ht
    exact ⟨[], .ended (Option.map_eq_none_iff.mp hn)⟩
  · cases ht
  · next u hu =>
    obtain ⟨cs, hcs⟩ := exists_passes ht
    obtain ⟨⟨c, rest⟩, hp, hv⟩ := Option.map_eq_some_iff.mp hu
    exact ⟨c :: cs, .pass hp hv hcs⟩
termination_by load p o s
decreasing_by exact load_pass_lt ‹_›

theorem Passes.frontier_eq_nil {s t : Search} {cs : List State} (h : s.Passes p o cs t) : t.frontier.toList = [] := by
  induction h with
  | ended hn => exact Frontier.pop?_eq_none_iff.mp hn
  | pass _ _ _ ih => exact ih

/-- What holds of a search with the states that it is done with, and is kept by a pass, holds when the search ends. -/
theorem Passes.kept {I : Search → List State → Prop} {s t : Search} {cs done : List State} (h : s.Passes p o cs t)
    (visit : ∀ {s t : Search} {c : State} {rest : Frontier State} {done : List State}, I s done →
      s.frontier.pop? = some (c, rest) → ({ s with frontier := rest } : Search).visit p o c = .ok t → I t (c :: done))
    (hs : I s done) : I t (cs.reverse ++ done) := by
  induction h generalizing done with
  | ended => exact hs
  | pass hp hv _ ih =>
    rw [List.reverse_cons, List.append_assoc]
    exact ih (visit hs hp hv)

/-- Once nothing waits, a state alike to every state that moves reach has been done with. -/
theorem Invariant.exists_alike {s : Search} {done : List State} (h : s.Invariant p o done)
    (hempty : s.frontier.toList = []) {c : State} (hc : p.Reaches c) : ∃ d ∈ done, c.Alike d := by
  have visited {c : State} (hc : c.settled ∈ s.seen.toList) : ∃ d ∈ done, c.Alike d := by
    obtain ⟨d, hd, he⟩ := h.seen _ hc
    rw [hempty] at hd
    exact ⟨d, hd.resolve_right List.not_mem_nil, State.alike_of_settled_eq he.symm⟩
  induction hc with
  | refl => exact visited h.started
  | tail _ hm ih =>
    obtain ⟨d, hd, hal⟩ := ih
    obtain ⟨d', hm', hal'⟩ := hal.symm.move hm
    obtain ⟨e, he, hal''⟩ := visited (h.closed d hd d' hm')
    exact ⟨e, he, hal'.symm.trans hal''⟩

end Search

/-! ### Explorations -/

theorem invariant_meet_start {p : Program} {o : Options} {s t : Search} (hf : s.frontier.toList = [])
    (hs : s.seen = .empty) (hn : s.finals = .empty) (h : s.meet o p.start = .ok t) : t.Invariant p o [] := by
  have hg := Search.grows_meet (x := .reached p.start) rfl h
  refine ⟨?_, hg.met _ (List.mem_singleton_self _) _ rfl, ?_, by simp, ?_, by simp, ?_, by simp⟩
  · intro c hc
    rcases hg.found c (hc.resolve_left List.not_mem_nil) with hc | ⟨x, hx, hxc⟩
    · rw [hf] at hc
      cases hc
    · rw [List.mem_singleton.mp hx] at hxc
      cases hxc
      exact .refl
  · intro d hd
    rcases hg.seen d hd with hd | ⟨c, hc, he⟩
    · rw [hs] at hd
      cases hd
    · exact ⟨c, .inr hc, he⟩
  · intro f
    rw [hg.finals_eq, hn]
    simp [Roll.toList_empty]
  · rw [hg.finals_eq, hn]
    exact List.nodup_nil

/-- The states that an exploration with this result passes through, one after another. -/
def Program.Explores (p : Program) (o : Options) (cs : List State) (r : Explored) : Prop :=
  ∃ begun s t : Search, begun.frontier = .empty o.order ∧ begun.seen = .empty ∧ begun.finals = .empty ∧
    begun.stats = {} ∧ begun.meet o p.start = .ok s ∧ s.Passes p o cs t ∧ r = ⟨t.finals.toList, t.stats⟩

/-- An exploration that ends has passed through the states that it met. -/
theorem exists_explores {p : Program} {o : Options} {r : Explored} (h : (explore p o).result = .ok r) :
    ∃ cs, p.Explores o cs r := by
  rw [explore] at h
  dsimp only at h
  split at h
  · cases h
  · next s hs =>
    cases h
    rw [bind_eq_ok] at hs
    obtain ⟨t, ht, hs⟩ := hs
    obtain ⟨cs, hcs⟩ := Search.exists_passes hs
    exact ⟨cs, _, t, s, rfl, rfl, rfl, rfl, ht, hcs, rfl⟩

theorem Frontier.toList_empty {α : Type} (order : Order) : (Frontier.empty order : Frontier α).toList = [] := by
  cases order <;> rfl

/-- An exploration that ends has kept its invariant, and nothing waits any more. -/
theorem invariant_of_explore {p : Program} {o : Options} {r : Explored} (h : (explore p o).result = .ok r) :
    ∃ (s : Search) (done : List State), s.Invariant p o done ∧ s.frontier.toList = [] ∧ r.finals = s.finals.toList := by
  obtain ⟨cs, begun, s, t, hf, hs, hn, -, hmeet, hpasses, rfl⟩ := exists_explores h
  have hinv := invariant_meet_start (by rw [hf, Frontier.toList_empty]) hs hn hmeet
  exact ⟨t, _, hpasses.kept (fun h hp hv => h.visit hp hv) hinv, hpasses.frontier_eq_nil, rfl⟩

/-- Every final of an exploration is left of some state that moves reach. -/
theorem exists_reaches_of_mem_finals {p : Program} {o : Options} {r : Explored} (h : (explore p o).result = .ok r)
    {f : Final} (hf : f ∈ r.finals) : ∃ s, p.Reaches s ∧ s.Finished p ∧ s.Fulfilled ∧ s.final = .ok f := by
  obtain ⟨s, done, hinv, -, hr⟩ := invariant_of_explore h
  rw [hr, hinv.finals] at hf
  obtain ⟨c, hc, hend⟩ := hf
  exact ⟨c, hinv.reached c (.inl hc), hend⟩

/-- Of every state that moves reach and in which nothing is left to do, the exploration has the final. -/
theorem exists_final_of_reaches {p : Program} {o : Options} {r : Explored} (h : (explore p o).result = .ok r)
    {s : State} (hs : p.Reaches s) (hf : s.Finished p) (hfu : s.Fulfilled) : ∃ f ∈ r.finals, s.final = .ok f := by
  obtain ⟨t, done, hinv, hempty, hr⟩ := invariant_of_explore h
  obtain ⟨d, hd, hal⟩ := hinv.exists_alike hempty hs
  have hdf := hal.finished hf
  have hdfu := hal.fulfilled hfu
  obtain ⟨f, he⟩ := hinv.final d hd hdf hdfu
  rw [hr]
  exact ⟨f, (hinv.finals f).mpr ⟨d, hd, hdf, hdfu, he⟩, hal.final_eq.trans he⟩

/-- In no state that moves reach does the exploration fail, up to the order of caches. -/
theorem exists_not_fail_of_reaches {p : Program} {o : Options} {r : Explored} (h : (explore p o).result = .ok r)
    {s : State} (hs : p.Reaches s) {tid : Nat} {t : ThreadProgram} {slot : Slot} {i : Instr} (ht : p.threads[tid]? = some t)
    (hslot : s.threads[tid]? = some slot) (hi : t.code[slot.pc]? = some i) :
    ∃ cache, ∀ f, .fail f ∉ (i.runOn (slot.thread.withCache cache) s.memory).leaves o.maxChooseBits := by
  obtain ⟨u, done, hinv, hempty, -⟩ := invariant_of_explore h
  obtain ⟨d, hd, hal⟩ := hinv.exists_alike hempty hs
  obtain ⟨_, hb, cache, -, rfl⟩ := hal.symm.exists_slot hslot
  refine ⟨cache, ?_⟩
  intro f hf
  refine hinv.going d hd tid (List.getElem?_eq_some_iff.mp hb).1 (.failed (Finding.told p tid slot.pc f)) ?_
  rw [State.findings_eq ht hb hi, ← hal.memory_eq]
  exact List.mem_append_left _ (List.mem_cons_of_mem _ (List.mem_map.mpr ⟨_, hf, rfl⟩))

/-- A program whose exploration finds a final has a run to its end. -/
theorem Program.exists_run {p : Program} {o : Options}
    (h : (explore p o).result.toOption.any (fun r => !r.finals.isEmpty) = true) :
    ∃ ds s, p.Run ds s ∧ s.Finished p ∧ s.Fulfilled := by
  cases hr : (explore p o).result with
  | error stop => rw [hr] at h; cases h
  | ok r =>
    have hne : r.finals ≠ [] := by simpa [hr, Except.toOption] using h
    obtain ⟨f, hf⟩ := List.exists_mem_of_ne_nil _ hne
    obtain ⟨s, hs, hend, hfu, -⟩ := exists_reaches_of_mem_finals hr hf
    obtain ⟨ds, hds⟩ := Program.reaches_iff.mp hs
    exact ⟨ds, s, hds, hend, hfu⟩

/-- An exploration of which a number of finals is known has ended. -/
theorem exists_result_of_length {p : Program} {o : Options} {n : Nat}
    (h : (explore p o).result.toOption.map (·.finals.length) = some n) :
    ∃ r, (explore p o).result = .ok r ∧ r.finals.length = n := by
  obtain ⟨r, hr, hn⟩ := Option.map_eq_some_iff.mp h
  cases he : (explore p o).result with
  | error stop => rw [he] at hr; cases hr
  | ok r' =>
    rw [he] at hr
    cases hr
    exact ⟨r, rfl, hn⟩

/-- The state to which a path of moves leads, of which each is told by its place among the states found. -/
def State.follow (p : Program) (o : Options) : List Nat → State → Option State
  | [], s => some s
  | i :: path, s => (s.found p o)[i]?.bind (follow p o path)

theorem State.reaches_of_follow {p : Program} {o : Options} {c : State} : ∀ {path : List Nat} {s : State}, p.Reaches s →
    s.follow p o path = some c → p.Reaches c
  | [], s, hs, h => by
    cases h
    exact hs
  | i :: path, s, hs, h => by
    rw [follow, Option.bind_eq_some_iff] at h
    obtain ⟨d, hd, h⟩ := h
    obtain ⟨x, hx, hxd⟩ := List.mem_filterMap.mp (List.mem_of_getElem? hd)
    obtain ⟨tid, -, hx⟩ := List.mem_flatMap.mp hx
    exact reaches_of_follow (hs.tail (move_of_mem_findings hx hxd)) h

/-- A path that leads to a state of some kind shows that moves reach one. -/
theorem Program.exists_reaches {p : Program} {o : Options} {P : State → Bool} (path : List Nat)
    (h : (p.start.follow p o path).any P = true) : ∃ s, p.Reaches s ∧ P s = true := by
  rw [Option.any_eq_true] at h
  obtain ⟨s, hs, hP⟩ := h
  exact ⟨s, State.reaches_of_follow .refl hs, hP⟩

/-- Whether a thread can run an instruction, at a place of its code, to a state of some kind. -/
def State.runsTo (s : State) (tid pc : Nat) (i : Instr) (P : State → Bool) : Bool :=
  s.threads[tid]?.any fun slot => decide (slot.pc = pc) && ((i.runOn slot.thread s.memory).leaves 8).any fun
    | .done f => P (s.withSlot tid { slot with pc := pc + 1, thread := f.thread } f.memory)
    | _ => false

/-- A run goes on with an instruction that its thread can run. -/
theorem Program.Run.exists_next {p : Program} {ds : List Deed} {s : State} (r : p.Run ds s) {tid pc : Nat}
    {t : ThreadProgram} {i : Instr} {P : State → Bool} (h : s.runsTo tid pc i P = true) (ht : p.threads[tid]? = some t)
    (hi : t.code[pc]? = some i) : ∃ f as g s', i.Runs f as g ∧ p.Run (ds ++ [.ran tid pc as]) s' ∧
      s'.threads[tid]?.map Slot.thread = some g.thread ∧ P s' = true := by
  rw [State.runsTo, Option.any_eq_true] at h
  obtain ⟨slot, hs, h⟩ := h
  rw [Bool.and_eq_true, decide_eq_true_eq, List.any_eq_true] at h
  obtain ⟨rfl, leaf, hl, hP⟩ := h
  cases leaf with
  | done g =>
    obtain ⟨as, hr⟩ := Instr.yields_run.mp (Outcome.yields_of_mem_leaves hl)
    refine ⟨_, as, g, _, hr, r.move (.run ht hs hi hr), ?_, hP⟩
    rw [State.getElem?_withSlot hs, if_pos rfl]
    rfl
  | _ => cases hP

/-- An exploration that ends has found, each once, exactly what is left of the states that any moves reach
and in which every thread is past its last instruction and has no promise left; each of these leaves
something. -/
theorem explore_finals {p : Program} {o : Options} {r : Explored} (h : (explore p o).result = .ok r) :
    r.finals.Nodup ∧
    (∀ f, f ∈ r.finals ↔ ∃ s, p.Reaches s ∧ s.Finished p ∧ s.Fulfilled ∧ s.final = .ok f) ∧
    ∀ s, p.Reaches s → s.Finished p → s.Fulfilled → ∃ f ∈ r.finals, s.final = .ok f := by
  refine ⟨?_, fun f => ⟨exists_reaches_of_mem_finals h, ?_⟩, fun s hs hf hfu => exists_final_of_reaches h hs hf hfu⟩
  · obtain ⟨s, done, hinv, -, hr⟩ := invariant_of_explore h
    rw [hr]
    exact hinv.distinct
  · rintro ⟨s, hs, hf, hfu, he⟩
    obtain ⟨g, hg, he'⟩ := exists_final_of_reaches h hs hf hfu
    rw [he] at he'
    cases he'
    exact hg

/-- A thread stores to a cell, which it may promise to do, and another thread loads the cell. -/
def storeAndLoad : Program where
  threads := [
    { code := [Shape.store "X1" "X2" .plain], regs := .ofList [("X1", (1 : Int)), ("X2", 0)], promisable := [(0, 1)] },
    { code := [Shape.load "X1" "X2" .plain false], regs := .ofList [("X1", (7 : Int)), ("X2", 0)] }]

theorem explore_finals_storeAndLoad : ∃ r, (explore storeAndLoad {}).result = .ok r ∧ r.finals.length = 2 ∧
    r.finals.Nodup ∧
    (∀ f, f ∈ r.finals ↔
      ∃ s, storeAndLoad.Reaches s ∧ s.Finished storeAndLoad ∧ s.Fulfilled ∧ s.final = .ok f) ∧
    ∀ s, storeAndLoad.Reaches s → s.Finished storeAndLoad → s.Fulfilled → ∃ f ∈ r.finals, s.final = .ok f := by
  have two : (explore storeAndLoad {}).result.toOption.map (·.finals.length) = some 2 := by decide +kernel
  cases hr : (explore storeAndLoad {}).result with
  | error stop => rw [hr] at two; cases two
  | ok r =>
    rw [hr] at two
    exact ⟨r, rfl, by simpa [Except.toOption] using two, explore_finals hr⟩

end Litmus
