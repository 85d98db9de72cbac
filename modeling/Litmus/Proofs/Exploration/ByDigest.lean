import Litmus.Proofs.Exploration.Digested
import Litmus.Proofs.Value.Record

/-!
Explorations by digests. `DigestSearch` keeps of the states that it met their digests alone, and files what is left of runs
under digests. Main facts: where the digests that exploring a program takes tell texts apart, the tests of a search on
settled states and on what is left of runs are tests on digests, so that exploring by digests comes to what `explore` does,
its log and where it stops included; and a digest is of a text with plain numbers, as long as no count has to be rounded.
-/

namespace Litmus

/-! ### Texts with plain numbers -/

namespace Value

theorem Exact.entries {κ α : Type} {key : κ → Value} {held : α → Value} {l : List (κ × α)} (hkey : ∀ k, (key k).Exact)
    (hheld : ∀ a, (held a).Exact) : (Value.entries key held l).Exact := by
  refine .list (List.forall_mem_map.mpr fun e _ => .list ?_)
  rw [List.forall_mem_cons, List.forall_mem_singleton]
  exact ⟨hkey e.1, hheld e.2⟩

theorem Exact.byte (b : UInt8) : (Value.count b.toNat).Exact := by
  refine .count (decide_eq_true ?_)
  have hb := b.toNat_lt
  have hmantissa : 256 ≤ 2 * Number.Binary.fullMantissa := by decide
  omega

end Value

/-- The digest of what is left of a run is that of a text with plain numbers. -/
theorem Final.digest_numbered (f : Final) : f.toValue.numbered.digest = f.digest := by
  have hexact : f.toValue.Exact := by
    refine .record ?_
    simp only [List.forall_mem_cons]
    exact ⟨.entries .big .byte, .list (List.forall_mem_map.mpr fun _ _ => .entries .text .big), List.forall_mem_nil _⟩
  rw [digest, Value.digest, Value.digest, hexact.canonical_numbered]

/-- So is the digest of a state, as long as no count in it has to be rounded. -/
theorem State.digest_numbered {s : State} (h : s.toValue.Exact) : s.toValue.numbered.digest = s.digest := by
  rw [digest, Value.digest, Value.digest, h.canonical_numbered]

/-! ### Digests that tell texts apart -/

/-- Whether the digests that exploring a program takes tell texts apart: those of the states that it reaches, and those of
what is left of them. -/
structure Program.Uncollided (p : Program) : Prop where
  states : ∀ s t, p.Reaches s → p.Reaches t → s.digest = t.digest → s.toValue.canonical = t.toValue.canonical
  finals : ∀ s t f g, p.Reaches s → p.Reaches t → s.final = .ok f → t.final = .ok g → f.digest = g.digest →
    f.toValue.canonical = g.toValue.canonical

/-- A program without instructions reaches one state only, so its digests collide with no others. -/
theorem Program.uncollided_of_finished {p : Program} (h : p.start.Finished p) : p.Uncollided := by
  have hstart {s : State} (hs : p.Reaches s) : s = p.start := by
    induction hs with
    | refl => rfl
    | tail _ hm ih =>
      subst ih
      exact absurd hm h.not_move
  constructor
  · intro s t hs ht _
    rw [hstart hs, hstart ht]
  · intro s t f g hs ht hf hg _
    rw [hstart hs] at hf
    rw [hstart ht, hf] at hg
    cases hg
    rfl

namespace Program.Uncollided

variable {p : Program} {s t : State} {f g : Final}

theorem settled_eq_iff (h : p.Uncollided) (hs : p.Reaches s) (ht : p.Reaches t) :
    s.settled = t.settled ↔ s.digest = t.digest := by
  rw [← State.canonical_eq_iff_settled_eq hs ht]
  refine ⟨fun htext => ?_, h.states s t hs ht⟩
  rw [State.digest, State.digest, Value.digest, Value.digest, htext]

theorem final_eq (h : p.Uncollided) (hs : p.Reaches s) (ht : p.Reaches t) (hf : s.final = .ok f) (hg : t.final = .ok g)
    (hdigest : f.digest = g.digest) : f = g :=
  Final.tells_toValue.eq_of_canonical_eq (h.finals s t f g hs ht hf hg hdigest)

end Program.Uncollided

/-- Putting caches in order changes no digest. -/
theorem State.digest_settled (s : State) : s.settled.digest = s.digest := by
  have hslot (slot : Slot) :
      ({ slot with thread := slot.thread.withCache slot.thread.cache.inOrder } : Slot).toValue = slot.toValue := by
    have horder := Paging.Cache.inOrder_eq_of_alike slot.thread.cache.inOrder_alike
    exact Slot.toValue_eq_iff.mpr (congrArg slot.describeWith horder)
  have hthreads : s.settled.threads.map Slot.toValue = s.threads.map Slot.toValue := by
    rw [settled, List.map_map]
    exact List.map_congr_left fun slot _ => hslot slot
  rw [digest, digest, toValue, toValue, hthreads]
  rfl

/-! ### Searches by digests -/

/-- A search under way that keeps the digests of the states met, and what is left of runs under its digest. -/
structure DigestSearch where
  frontier : Frontier State
  seen : List String := []
  finals : List (String × Final) := []
  stats : Stats := {}
  log : List LogLine := []

namespace DigestSearch

/-- Stop the search. -/
def halt {α : Type} (s : DigestSearch) (stop : Stop) : Except Halted α := .error ⟨stop, s.log⟩

/-- Write a line to the log. -/
def note (s : DigestSearch) (message : String) (data : Record Value) : DigestSearch :=
  { s with log := ⟨message, data⟩ :: s.log }

/-- A state is met: if its digest is new it waits to be explored, if the budget allows. -/
def meet (o : Options) (s : DigestSearch) (c : State) : Except Halted DigestSearch :=
  if c.digest ∈ s.seen then .ok { s with stats.duplicates := s.stats.duplicates + 1 }
  else
    let jobs := s.stats.jobs + 1
    if o.maxJobs < .whole jobs then s.halt (.budget .jobs o.maxJobs)
    else .ok { s with stats.jobs := jobs, seen := s.seen ++ [c.digest], frontier := s.frontier.push c }

/-- Deal with a finding. -/
def take (o : Options) (s : DigestSearch) : Finding → Except Halted DigestSearch
  | .began =>
    let steps := s.stats.steps + 1
    if o.maxSteps < .whole steps then s.halt (.budget .steps o.maxSteps)
    else .ok { s with stats.steps := steps }
  | .reached c => s.meet o c
  | .pruned tid pc why detail =>
    let detail := detail.toList.map fun d => ("detail", Value.text d)
    .ok (({ s with stats.discards := s.stats.discards + 1 } : DigestSearch).note
      s!"explore: thread {tid} pc {pc} discarded" (("reason", .text why.text) :: detail))
  | .promised tid time loc value c =>
    (s.note s!"explore: thread {tid} promised write at {time}" [("loc", .big loc), ("value", .big value)]).meet o c
  | .stopped stop => s.halt stop

/-- Deal with all that exploring a state meets, thread by thread. -/
def expand (p : Program) (o : Options) (s : DigestSearch) (c : State) : Except Halted DigestSearch :=
  (List.range c.threads.length).foldlM (fun s tid => c.foldFindings p o (take o) s tid) s

/-- Deal with a state without instructions left: what is left of it takes the place of what has the same digest. -/
def close (s : DigestSearch) (c : State) : Except Halted DigestSearch :=
  if c.pending.isEmpty then
    match c.final with
    | .error f => s.halt (.trouble (.fault f))
    | .ok f => .ok { s with finals := Record.put s.finals (f.digest, f) }
  else
    let stuck : DigestSearch := { s with stats.stuck := s.stats.stuck + 1 }
    .ok (c.pending.foldl (fun s slot =>
      let d := Search.pendingWarning slot
      s.note d.message (Record.map Param.value (d.data.getD []))) stuck)

/-- Deal with a waiting state. -/
def visit (p : Program) (o : Options) (s : DigestSearch) (c : State) : Except Halted DigestSearch :=
  if c.isRunning p then s.expand p o c else s.close c

/-- A pass: deal with the next waiting state. Nothing when none waits. -/
def pass? (p : Program) (o : Options) (s : DigestSearch) : Option (Except Halted DigestSearch) :=
  s.frontier.pop?.map fun (c, rest) => ({ s with frontier := rest } : DigestSearch).visit p o c

/-- What passing until no state waits comes to. -/
inductive Runs (p : Program) (o : Options) : DigestSearch → Except Halted DigestSearch → Prop
  | ended {s : DigestSearch} : s.pass? p o = none → Runs p o s (.ok s)
  | halted {s : DigestSearch} {h : Halted} : s.pass? p o = some (.error h) → Runs p o s (.error h)
  | pass {s t : DigestSearch} {r : Except Halted DigestSearch} : s.pass? p o = some (.ok t) → Runs p o t r → Runs p o s r

/-- What is told of a search that is over. -/
def told : Except Halted DigestSearch → Exploration
  | .error h => ⟨h.log.reverse, .error h.stop⟩
  | .ok s =>
    let closed := s.note "explore: done" (("finals", .number (.whole s.finals.length)) :: s.stats.record)
    ⟨closed.log.reverse, .ok ⟨s.finals.map Prod.snd, s.stats⟩⟩

/-- The search in which nothing has been met. -/
def begun (p : Program) (o : Options) : DigestSearch :=
  let name := p.name.toList.map fun n => ("name", Value.text n)
  ({ frontier := .empty o.order } : DigestSearch).note "explore: start"
    (name ++ [("threads", .number (.whole p.threads.length)), ("frontier", .text o.order.text)])

/-- What exploring a program by digests comes to. -/
inductive Explores (p : Program) (o : Options) : Exploration → Prop
  | halted {h : Halted} : (begun p o).meet o p.start = .error h → Explores p o (told (.error h))
  | run {s : DigestSearch} {r : Except Halted DigestSearch} : (begun p o).meet o p.start = .ok s → s.Runs p o r →
      Explores p o (told r)

/-- Passes come to one end only. -/
theorem Runs.unique {p : Program} {o : Options} {s : DigestSearch} {r r' : Except Halted DigestSearch} (h : s.Runs p o r)
    (h' : s.Runs p o r') : r = r' := by
  induction h with
  | ended hn =>
    cases h' with
    | ended => rfl
    | halted hs | pass hs => cases hn.symm.trans hs
  | halted hs =>
    cases h' with
    | halted hs' =>
      cases hs.symm.trans hs'
      rfl
    | ended hs' | pass hs' => cases hs.symm.trans hs'
  | pass hs _ ih =>
    cases h' with
    | pass hs' h' =>
      cases hs.symm.trans hs'
      exact ih h'
    | ended hs' | halted hs' => cases hs.symm.trans hs'

end DigestSearch

/-! ### Tests on digests -/

namespace Search

variable {p : Program} {o : Options} {s : Search} {c : State}

/-- The search that keeps digests in place of states. -/
def byDigest (s : Search) : DigestSearch where
  frontier := s.frontier
  seen := s.seen.toList.map State.digest
  finals := s.finals.toList.map fun f => (f.digest, f)
  stats := s.stats
  log := s.log

@[simp] theorem frontier_byDigest (s : Search) : s.byDigest.frontier = s.frontier := rfl

@[simp] theorem stats_byDigest (s : Search) : s.byDigest.stats = s.stats := rfl

/-- What waits in a search, and what it has met and found, is of states that moves reach. -/
structure Sound (p : Program) (s : Search) : Prop where
  frontier : ∀ c ∈ s.frontier.toList, p.Reaches c
  seen : ∀ d ∈ s.seen.toList, ∃ c, p.Reaches c ∧ c.settled = d
  finals : ∀ f ∈ s.finals.toList, ∃ c, p.Reaches c ∧ c.final = .ok f

/-- Whether a state was met already is told by its digest. -/
theorem Sound.contains_settled_iff (h : s.Sound p) (hp : p.Uncollided) (hc : p.Reaches c) :
    s.seen.contains c.settled = true ↔ c.digest ∈ s.byDigest.seen := by
  rw [Roll.contains_iff, byDigest, List.mem_map]
  constructor
  · intro hmem
    exact ⟨_, hmem, c.digest_settled⟩
  · rintro ⟨d, hd, hdigest⟩
    obtain ⟨e, he, rfl⟩ := h.seen d hd
    rw [State.digest_settled] at hdigest
    rwa [← (hp.settled_eq_iff he hc).mpr hdigest]

/-- What is found under a digest is what is left of every state with it. -/
theorem Sound.eq_of_digest_eq (h : s.Sound p) (hp : p.Uncollided) (hc : p.Reaches c) {f g : Final} (hf : c.final = .ok f)
    (hg : g ∈ s.finals.toList) (hdigest : g.digest = f.digest) : g = f := by
  obtain ⟨d, hd, hdg⟩ := h.finals g hg
  exact hp.final_eq hd hc hdg hf hdigest

/-- Whether what is left of a run was found already is told by its digest. -/
theorem Sound.contains_final_iff (h : s.Sound p) (hp : p.Uncollided) (hc : p.Reaches c) {f : Final} (hf : c.final = .ok f) :
    s.finals.contains f = true ↔ f.digest ∈ s.byDigest.finals.map Prod.fst := by
  rw [Roll.contains_iff, byDigest, List.map_map, List.mem_map]
  constructor
  · intro hmem
    exact ⟨f, hmem, rfl⟩
  · rintro ⟨g, hg, hdigest⟩
    rwa [← h.eq_of_digest_eq hp hc hf hg hdigest]

/-! ### Steps by digests -/

theorem Sound.byDigest_meet (h : s.Sound p) (hp : p.Uncollided) (hc : p.Reaches c) :
    s.byDigest.meet o c = (s.meet o c).map byDigest := by
  have htest := h.contains_settled_iff hp hc
  rw [DigestSearch.meet, Search.meet]
  by_cases hseen : s.seen.contains c.settled = true
  · rw [if_pos (htest.mp hseen), if_pos hseen]
    rfl
  · rw [if_neg (mt htest.mpr hseen), if_neg hseen, stats_byDigest]
    dsimp only
    split
    · rfl
    · simp [Except.map, byDigest, Roll.toList_push, State.digest_settled]

/-- Notes are taken alike. -/
theorem byDigest_foldl_note {f : Slot → String × Record Value} (l : List Slot) (s : Search) :
    l.foldl (fun s slot => s.note (f slot).1 (f slot).2) s.byDigest =
      (l.foldl (fun s slot => s.note (f slot).1 (f slot).2) s).byDigest :=
  List.foldl_hom byDigest fun _ _ => rfl

theorem Sound.byDigest_take (h : s.Sound p) (hp : p.Uncollided) {x : Finding} (hx : ∀ c, x.state? = some c → p.Reaches c) :
    s.byDigest.take o x = (s.take o x).map byDigest := by
  cases x with
  | began =>
    rw [DigestSearch.take, Search.take, stats_byDigest]
    dsimp only
    split <;> rfl
  | reached c => exact h.byDigest_meet hp (hx c rfl)
  | pruned => rfl
  | promised tid time loc value c =>
    have hnoted : (s.note s!"explore: thread {tid} promised write at {time}" [("loc", .big loc), ("value", .big value)]).Sound p :=
      ⟨h.frontier, h.seen, h.finals⟩
    exact hnoted.byDigest_meet hp (hx c rfl)
  | stopped => rfl

/-- What a search comes to with findings of states that moves reach is sound. -/
theorem Sound.grows {t : Search} {xs : List Finding} (h : s.Sound p) (hg : s.Grows xs t)
    (hxs : ∀ x ∈ xs, ∀ c, x.state? = some c → p.Reaches c) : t.Sound p := by
  have hfrontier : ∀ c ∈ t.frontier.toList, p.Reaches c := by
    intro c hc
    rcases hg.found c hc with hc | ⟨x, hx, hxc⟩
    · exact h.frontier c hc
    · exact hxs x hx c hxc
  refine ⟨hfrontier, fun d hd => ?_, hg.finals_eq ▸ h.finals⟩
  rcases hg.seen d hd with hd | ⟨c, hc, hcd⟩
  · exact h.seen d hd
  · exact ⟨c, hfrontier c hc, hcd⟩

theorem Sound.byDigest_foldlM_take (hp : p.Uncollided) : ∀ {xs : List Finding} {s : Search}, s.Sound p →
    (∀ x ∈ xs, ∀ c, x.state? = some c → p.Reaches c) →
    xs.foldlM (DigestSearch.take o) s.byDigest = (xs.foldlM (Search.take o) s).map byDigest
  | [], _, _, _ => rfl
  | x :: xs, s, h, hxs => by
    rw [List.forall_mem_cons] at hxs
    rw [List.foldlM_cons, List.foldlM_cons, h.byDigest_take hp hxs.1]
    cases hs : s.take o x with
    | error e => rfl
    | ok t =>
      have ht := h.grows (grows_take hs) (List.forall_mem_singleton.mpr hxs.1)
      exact ht.byDigest_foldlM_take hp hxs.2

/-- The states found in a state that moves reach are reached by moves. -/
theorem reaches_of_mem_findings (hc : p.Reaches c) : ∀ x ∈ (List.range c.threads.length).flatMap (c.findings p o),
    ∀ d, x.state? = some d → p.Reaches d := by
  intro x hx d hd
  obtain ⟨tid, -, hx⟩ := List.mem_flatMap.mp hx
  exact hc.tail (State.move_of_mem_findings hx hd)

theorem Sound.byDigest_expand (h : s.Sound p) (hp : p.Uncollided) (hc : p.Reaches c) :
    s.byDigest.expand p o c = (s.expand p o c).map byDigest := by
  rw [DigestSearch.expand, State.foldlM_foldFindings, expand_eq]
  exact h.byDigest_foldlM_take hp (reaches_of_mem_findings hc)

theorem Sound.byDigest_close (h : s.Sound p) (hp : p.Uncollided) (hc : p.Reaches c) :
    s.byDigest.close c = (s.close c).map byDigest := by
  rw [DigestSearch.close, Search.close]
  by_cases hpending : c.pending.isEmpty = true
  · rw [if_pos hpending, if_pos hpending]
    cases hf : c.final with
    | error e => rfl
    | ok f =>
      have htest := h.contains_final_iff hp hc hf
      dsimp only
      by_cases hfound : s.finals.contains f = true
      · have hsame : ∀ x ∈ s.byDigest.finals, x.1 = f.digest → x = (f.digest, f) := by
          intro x hx hdigest
          obtain ⟨g, hg, rfl⟩ := List.mem_map.mp hx
          rw [h.eq_of_digest_eq hp hc hf hg hdigest]
        rw [if_pos hfound, Record.put_eq_self (htest.mp hfound) hsame]
        rfl
      · rw [if_neg hfound, Record.put_eq_append (mt htest.mpr hfound)]
        simp [Except.map, byDigest, Roll.toList_push]
  · rw [if_neg hpending, if_neg hpending]
    exact congrArg Except.ok (byDigest_foldl_note (f := fun slot =>
      ((pendingWarning slot).message, Record.map Param.value ((pendingWarning slot).data.getD []))) c.pending
        { s with stats.stuck := s.stats.stuck + 1 })

/-! ### Passes by digests -/

/-- Without the state that is taken from what waits, a search is sound. -/
theorem Sound.pop {rest : Frontier State} (h : s.Sound p) (hpop : s.frontier.pop? = some (c, rest)) :
    p.Reaches c ∧ ({ s with frontier := rest } : Search).Sound p := by
  have hlist := Frontier.toList_of_pop? hpop
  refine ⟨h.frontier c (hlist ▸ List.mem_cons_self), ?_, h.seen, h.finals⟩
  exact fun d hd => h.frontier d (hlist ▸ List.mem_cons_of_mem _ hd)

theorem Sound.visit {t : Search} (h : s.Sound p) (hc : p.Reaches c) (ht : s.visit p o c = .ok t) : t.Sound p := by
  rw [Search.visit] at ht
  split at ht
  · exact h.grows (grows_expand ht) (reaches_of_mem_findings hc)
  · obtain ⟨hfrontier, hseen, -, -, hfinals⟩ := close_spec ht
    refine ⟨hfrontier ▸ h.frontier, hseen ▸ h.seen, fun f hf => ?_⟩
    rcases (hfinals f).mp hf with hf | ⟨-, hf⟩
    · exact h.finals f hf
    · exact ⟨c, hc, hf⟩

theorem Sound.byDigest_pass? (h : s.Sound p) (hp : p.Uncollided) :
    s.byDigest.pass? p o = (s.pass? p o).map (Except.map byDigest) := by
  rw [DigestSearch.pass?, Search.pass?, frontier_byDigest]
  cases hpop : s.frontier.pop? with
  | none => rfl
  | some next =>
    obtain ⟨c, rest⟩ := next
    obtain ⟨hc, hrest⟩ := h.pop hpop
    refine congrArg some ?_
    change ({ s with frontier := rest } : Search).byDigest.visit p o c =
      (({ s with frontier := rest } : Search).visit p o c).map byDigest
    rw [DigestSearch.visit, Search.visit]
    split
    · exact hrest.byDigest_expand hp hc
    · exact hrest.byDigest_close hp hc

theorem Sound.pass {t : Search} (h : s.Sound p) (ht : s.pass? p o = some (.ok t)) : t.Sound p := by
  rw [Search.pass?, Option.map_eq_some_iff] at ht
  obtain ⟨⟨c, rest⟩, hpop, ht⟩ := ht
  obtain ⟨hc, hrest⟩ := h.pop hpop
  exact hrest.visit hc ht

/-- A search that passes until no state waits is one by digests. -/
theorem Sound.runs_byDigest {s : Search} (h : s.Sound p) (hp : p.Uncollided) :
    s.byDigest.Runs p o ((s.run p o).map byDigest) := by
  have hpass := h.byDigest_pass? (o := o) hp
  rw [Search.run]
  split
  · next hn =>
    rw [hn] at hpass
    exact .ended hpass
  · next e he =>
    rw [he] at hpass
    exact .halted hpass
  · next t ht =>
    rw [ht] at hpass
    exact .pass hpass ((h.pass ht).runs_byDigest hp)
termination_by load p o s
decreasing_by exact load_pass_lt ‹_›

end Search

/-! ### Explorations by digests -/

/-- The search in which nothing has been met. -/
def Search.begun (p : Program) (o : Options) : Search :=
  let name := p.name.toList.map fun n => ("name", Value.text n)
  ({ frontier := .empty o.order } : Search).note "explore: start"
    (name ++ [("threads", .number (.whole p.threads.length)), ("frontier", .text o.order.text)])

theorem Search.sound_begun (p : Program) (o : Options) : (begun p o).Sound p := by
  refine ⟨fun c hc => ?_, fun _ hd => ?_, fun _ hf => ?_⟩
  · have hnone : (begun p o).frontier.toList = [] := Frontier.toList_empty o.order
    rw [hnone] at hc
    cases hc
  · cases hd
  · cases hf

/-- What is told of an exploration is told of its search by digests. -/
theorem explore_eq_told (p : Program) (o : Options) :
    explore p o = DigestSearch.told (((Search.begun p o).meet o p.start >>= Search.run p o).map Search.byDigest) := by
  rw [explore]
  dsimp only
  split
  · next h hend =>
    have hend : (Search.begun p o).meet o p.start >>= Search.run p o = .error h := hend
    rw [hend]
    rfl
  · next s hend =>
    have hend : (Search.begun p o).meet o p.start >>= Search.run p o = .ok s := hend
    have hlength : s.byDigest.finals.length = s.finals.toList.length := List.length_map _
    have hfinals : s.byDigest.finals.map Prod.snd = s.finals.toList := by
      rw [Search.byDigest, List.map_map]
      exact List.map_id _
    rw [hend, Except.map, DigestSearch.told, hlength, hfinals]
    rfl

/-- Where digests tell texts apart, exploring a program by digests comes to its exploration and to nothing else. -/
theorem DigestSearch.explores_iff {p : Program} (hp : p.Uncollided) {o : Options} {e : Exploration} :
    Explores p o e ↔ e = explore p o := by
  have hsound := Search.sound_begun p o
  have hbegun : (Search.begun p o).byDigest = begun p o := rfl
  have hmeet := hsound.byDigest_meet (o := o) hp (c := p.start) .refl
  rw [hbegun] at hmeet
  rw [explore_eq_told]
  cases hstart : (Search.begun p o).meet o p.start with
  | error h =>
    rw [hstart] at hmeet
    constructor
    · rintro (h' | ⟨h', -⟩)
      · cases hmeet.symm.trans h'
        rfl
      · cases hmeet.symm.trans h'
    · rintro rfl
      exact .halted hmeet
  | ok s =>
    rw [hstart] at hmeet
    have hs : s.Sound p := hsound.grows (Search.grows_meet (x := .reached p.start) rfl hstart) (by
      rintro x hx c hc
      rw [List.mem_singleton.mp hx] at hc
      cases hc
      exact .refl)
    have hruns := hs.runs_byDigest (o := o) hp
    constructor
    · rintro (h' | ⟨h', hr⟩)
      · cases hmeet.symm.trans h'
      · cases hmeet.symm.trans h'
        rw [hr.unique hruns]
        rfl
    · rintro rfl
      exact .run hmeet hruns

end Litmus
