import Litmus.Proofs.Exploration.AnyOrder
import Litmus.Proofs.Exploration.Renumbering
import Litmus.Proofs.Instruction.Renamed

/-!
The numbers of threads do not matter. When the threads of a program are dealt out in another order, their numbers in
memory and in the threads themselves change with their places, and each state of the one program is a state of the
other, dealt out in that order. Main fact: an exploration of the one program that ends, ends on the other as well,
counts the same, and finds the same finals, with their registers dealt out in that order.
-/

namespace Litmus

/-- The program with its threads dealt out in another order. -/
def Program.renumbered (p : Program) (r : Renumbering p.threads.length) : Program :=
  { p with threads := r.deal p.threads }

/-- The final with the registers of its threads dealt out in another order. -/
def Final.renumbered {n : Nat} (r : Renumbering n) (f : Final) : Final := { f with regs := r.deal f.regs }

/-- The slot with another name for its thread. -/
def Slot.renamed (ρ : Int → Int) (slot : Slot) : Slot := { slot with thread := slot.thread.renamed ρ }

theorem Final.renumbered_injective {n : Nat} {r : Renumbering n} {f g : Final} (hf : f.regs.length = n)
    (hg : g.regs.length = n) (h : f.renumbered r = g.renumbered r) : f = g := by
  simp only [renumbered, mk.injEq] at h
  have hregs := r.deal_injective hf hg h.2
  cases f
  cases g
  exact congrArg₂ Final.mk h.1 hregs

theorem Slot.renamed_injective {ρ : Int → Int} (h : Function.Injective ρ) : Function.Injective (renamed ρ) := by
  intro a b he
  cases a
  cases b
  simp_all [renamed, (Thread.renamed_injective h).eq_iff]

namespace State

/-- The state with its threads dealt out in another order. -/
def renumbered {n : Nat} (r : Renumbering n) (s : State) : State :=
  ⟨r.deal (s.threads.map (Slot.renamed r.tid)), s.memory.renamed r.tid⟩

/-! ### States dealt out in another order -/

section

variable {n : Nat} {r : Renumbering n} {s t : State} {tid : Nat} {slot : Slot}

theorem length_renumbered (hs : s.threads.length = n) : (s.renumbered r).threads.length = n :=
  r.length_deal (by rw [List.length_map, hs])

theorem getElem?_renumbered (hs : s.threads.length = n) (htid : tid < n) :
    (s.renumbered r).threads[r.place tid]? = s.threads[tid]?.map (Slot.renamed r.tid) :=
  (r.getElem?_deal_place (by rw [List.length_map, hs]) htid).trans List.getElem?_map

theorem withSlot_renumbered (hs : s.threads.length = n) (htid : tid < n) (m : Memory) :
    (s.withSlot tid slot m).renumbered r =
      (s.renumbered r).withSlot (r.place tid) (slot.renamed r.tid) (m.renamed r.tid) := by
  have hset := r.deal_set (l := s.threads.map (Slot.renamed r.tid)) (by rw [List.length_map, hs]) htid
    (slot.renamed r.tid)
  rw [← List.map_set] at hset
  exact congrArg (State.mk · _) hset

theorem settled_renumbered : (s.renumbered r).settled = s.settled.renumbered r := by
  refine congrArg (State.mk · _) ?_
  simp only [settled, renumbered, ← r.deal_map, List.map_map]
  rfl

theorem length_settled : s.settled.threads.length = s.threads.length := List.length_map _

theorem renumbered_injective (hs : s.threads.length = n) (ht : t.threads.length = n)
    (h : s.renumbered r = t.renumbered r) : s = t := by
  simp only [renumbered, mk.injEq] at h
  have hthreads := r.deal_injective (by rw [List.length_map, hs]) (by rw [List.length_map, ht]) h.1
  have hmemory := Memory.renamed_injective r.tid_injective h.2
  cases s
  cases t
  exact congrArg₂ State.mk ((Slot.renamed_injective r.tid_injective).list_map hthreads) hmemory

theorem fulfilled_renumbered (hs : s.threads.length = n) : (s.renumbered r).Fulfilled ↔ s.Fulfilled := by
  have hmem (x : Slot) : x ∈ (s.renumbered r).threads ↔ x ∈ s.threads.map (Slot.renamed r.tid) :=
    (r.deal_perm (by rw [List.length_map, hs])).mem_iff
  simp only [Fulfilled, hmem, List.forall_mem_map]
  rfl

/-- The same is left, with the registers in the other order. -/
theorem final_renumbered : (s.renumbered r).final = s.final.map (Final.renumbered r) := by
  have hregs : ((s.renumbered r).threads.map fun slot => slot.thread.plainRegs) =
      r.deal (s.threads.map fun slot => slot.thread.plainRegs) := by
    rw [renumbered, ← r.deal_map, List.map_map]
    rfl
  have hmemory : (s.renumbered r).memory.snapshot = s.memory.snapshot := Memory.snapshot_renamed
  rw [final, final, hregs, hmemory]
  cases s.memory.snapshot <;> rfl

end

/-! ### Moves -/

variable {p : Program} {r : Renumbering p.threads.length} {o : Options} {s c : State}

theorem start_renumbered : (p.renumbered r).start = p.start.renumbered r := by
  have hlength : (p.start.threads.map (Slot.renamed r.tid)).length = p.threads.length := by simp [Program.start]
  refine congrArg (State.mk · _) (List.ext_getElem? fun i => ?_)
  rw [r.getElem?_deal hlength]
  refine (Program.threads_start _ i).trans ?_
  rw [Program.renumbered, r.getElem?_deal rfl]
  cases h : r.order[i]? with
  | none => rfl
  | some j =>
    obtain ⟨hj, rfl⟩ := r.getElem?_order.mp h
    simp only [Option.bind_some, List.getElem?_map, Program.threads_start, List.getElem?_eq_getElem hj, Option.map_some,
      Slot.renamed, Thread.renamed, Thread.start, r.tid_of_lt hj]

/-- A thread of a state dealt out in the other order has its number, its code and its slot in the state itself. -/
theorem exists_of_renumbered (hs : s.threads.length = p.threads.length) {i : Nat} {t : ThreadProgram} {slot : Slot}
    (ht : (p.renumbered r).threads[i]? = some t) (hslot : (s.renumbered r).threads[i]? = some slot) :
    ∃ tid < p.threads.length, ∃ a, r.place tid = i ∧ p.threads[tid]? = some t ∧ s.threads[tid]? = some a ∧
      slot = a.renamed r.tid := by
  obtain ⟨tid, htid, rfl, ht'⟩ := r.exists_place (l := p.threads) rfl ht
  rw [getElem?_renumbered hs htid, Option.map_eq_some_iff] at hslot
  obtain ⟨a, ha, rfl⟩ := hslot
  exact ⟨tid, htid, a, rfl, ht', ha, rfl⟩

theorem finished_renumbered (hs : s.threads.length = p.threads.length) :
    (s.renumbered r).Finished (p.renumbered r) ↔ s.Finished p := by
  constructor
  · intro h tid t slot ht hslot
    have htid := (List.getElem?_eq_some_iff.mp ht).1
    refine h (r.place tid) t (slot.renamed r.tid) ((r.getElem?_deal_place rfl htid).trans ht) ?_
    rw [getElem?_renumbered hs htid, hslot]
    rfl
  · intro h i t slot ht hslot
    obtain ⟨tid, -, a, rfl, ht, ha, rfl⟩ := exists_of_renumbered hs ht hslot
    exact h tid t a ht ha

theorem isStuck_renumbered (hs : s.threads.length = p.threads.length) :
    (s.renumbered r).isStuck (p.renumbered r) = s.isStuck p := by
  have hrunning : (s.renumbered r).isRunning (p.renumbered r) = s.isRunning p := by
    rw [Bool.eq_iff_iff, isRunning_iff, isRunning_iff, finished_renumbered hs]
  have hpending : (s.renumbered r).pending.isEmpty = s.pending.isEmpty := by
    rw [Bool.eq_iff_iff, pending_isEmpty_iff, pending_isEmpty_iff, fulfilled_renumbered hs]
  rw [isStuck, isStuck, hrunning, hpending]

theorem runOn_renumbered (i : Instr) (slot : Slot) :
    i.runOn (slot.renamed r.tid).thread (s.renumbered r).memory =
      (i.runOn slot.thread s.memory).map (Frame.renamed r.tid) :=
  Instr.run_renamed r.tid_injective i { thread := slot.thread, memory := s.memory }

theorem promiseWrite_renumbered (slot : Slot) (loc value : Int) :
    Frame.promiseWrite { thread := (slot.renamed r.tid).thread, memory := (s.renumbered r).memory } loc value =
      (Frame.promiseWrite { thread := slot.thread, memory := s.memory } loc value).map (Frame.renamedWith r.tid) :=
  Frame.promiseWrite_renamed (f := { thread := slot.thread, memory := s.memory }) loc value

/-- The moves of a state are those of the state dealt out in the other order. -/
theorem move_renumbered (hs : s.threads.length = p.threads.length) :
    (s.renumbered r).Move (p.renumbered r) c ↔ ∃ d, s.Move p d ∧ c = d.renumbered r := by
  constructor
  · rintro (⟨ht, hslot, hi, hf⟩ | ⟨ht, hslot, hpc, hw, hf⟩)
    · obtain ⟨tid, htid, a, rfl, ht, ha, rfl⟩ := exists_of_renumbered hs ht hslot
      rw [runOn_renumbered, Outcome.yields_map] at hf
      obtain ⟨f, hf, rfl⟩ := hf
      refine ⟨_, .run ht ha hi hf, ?_⟩
      rw [withSlot_renumbered hs htid]
      rfl
    · obtain ⟨tid, htid, a, rfl, ht, ha, rfl⟩ := exists_of_renumbered hs ht hslot
      rw [promiseWrite_renumbered] at hf
      obtain ⟨x, hx, he⟩ := map_eq_ok.mp hf
      cases he
      refine ⟨_, .promise ht ha hpc hw hx, ?_⟩
      rw [withSlot_renumbered hs htid]
      rfl
  · rintro ⟨d, hd, rfl⟩
    have moved {tid : Nat} {t : ThreadProgram} {slot : Slot} (ht : p.threads[tid]? = some t)
        (hslot : s.threads[tid]? = some slot) : tid < p.threads.length ∧
          (p.renumbered r).threads[r.place tid]? = some t ∧
          (s.renumbered r).threads[r.place tid]? = some (slot.renamed r.tid) := by
      have htid := (List.getElem?_eq_some_iff.mp ht).1
      exact ⟨htid, (r.getElem?_deal_place rfl htid).trans ht, by rw [getElem?_renumbered hs htid, hslot]; rfl⟩
    cases hd with
    | @run tid t slot i f ht hslot hi hf =>
      obtain ⟨htid, ht, hslot'⟩ := moved ht hslot
      have hf' : (i.runOn (slot.renamed r.tid).thread (s.renumbered r).memory).Yields (f.renamed r.tid) := by
        rw [runOn_renumbered]
        exact Outcome.yields_map.mpr ⟨f, hf, rfl⟩
      rw [withSlot_renumbered hs htid]
      exact .run ht hslot' hi hf'
    | @promise tid t slot w f time ht hslot hpc hw hf =>
      obtain ⟨htid, ht, hslot'⟩ := moved ht hslot
      have hf' : Frame.promiseWrite { thread := (slot.renamed r.tid).thread, memory := (s.renumbered r).memory }
          w.1.1 w.1.2 = .ok (f.renamed r.tid, time) := by
        rw [promiseWrite_renumbered, hf]
        rfl
      rw [withSlot_renumbered hs htid]
      exact .promise ht hslot' hpc hw hf'

end State

theorem Program.Reaches.length_eq {p : Program} {s : State} (h : p.Reaches s) :
    s.threads.length = p.threads.length := by
  obtain ⟨ds, hr⟩ := reaches_iff.mp h
  exact hr.fits.length_eq

/-- What the other program reaches is what this one reaches, dealt out in the other order. -/
theorem Program.reaches_renumbered {p : Program} {r : Renumbering p.threads.length} {c : State} :
    (p.renumbered r).Reaches c ↔ ∃ d, p.Reaches d ∧ c = d.renumbered r := by
  constructor
  · intro h
    induction h with
    | refl => exact ⟨p.start, .refl, State.start_renumbered⟩
    | tail _ hm ih =>
      obtain ⟨d, hd, rfl⟩ := ih
      obtain ⟨e, he, rfl⟩ := (State.move_renumbered hd.length_eq).mp hm
      exact ⟨e, hd.tail he, rfl⟩
  · rintro ⟨d, hd, rfl⟩
    induction hd with
    | refl => exact State.start_renumbered ▸ .refl
    | tail hd hm ih => exact ih.tail ((State.move_renumbered (Reaches.length_eq hd)).mpr ⟨_, hm, rfl⟩)

/-! ### What exploring a state meets -/

/-- Leaves with changed results count the same. -/
theorem Outcome.tally_leaves_map {α β : Type} {m : Number} {F : α → β} : ∀ {o : Outcome α},
    ((o.map F).leaves m).map Leaf.tally = (o.leaves m).map Leaf.tally
  | .done _ | .fail _ | .discard _ _ | .thrown _ => by simp [map, leaves, Leaf.tally]
  | .choice space resume => by
    rw [map, leaves, leaves]
    split
    · rfl
    · cases space.picks with
      | error => rfl
      | ok picks =>
        dsimp only
        rw [List.map_flatMap, List.map_flatMap]
        exact congrArg (List.flatMap · _) (funext fun _ => tally_leaves_map)

namespace State

variable {p : Program} {r : Renumbering p.threads.length} {o : Options} {s : State} {met : List State}

theorem tally_ofPromise_renumbered {tid : Nat} {slot : Slot} (w : (Int × Int) × Nat) :
    (Finding.ofPromise (s.renumbered r) (r.place tid) (slot.renamed r.tid) w).tally =
      (Finding.ofPromise s tid slot w).tally := by
  rw [Finding.ofPromise, Finding.ofPromise, promiseWrite_renumbered]
  cases Frame.promiseWrite { thread := slot.thread, memory := s.memory } w.1.1 w.1.2 <;> rfl

/-- Exploring a thread meets the same, wherever it is dealt to. -/
theorem tallies_renumbered (hs : s.threads.length = p.threads.length) {tid : Nat} (htid : tid < p.threads.length) :
    ((s.renumbered r).findings (p.renumbered r) o (r.place tid)).map Finding.tally =
      (s.findings p o tid).map Finding.tally := by
  have hthread : (p.renumbered r).threads[r.place tid]? = p.threads[tid]? := r.getElem?_deal_place rfl htid
  rw [findings, findings, hthread, getElem?_renumbered hs htid]
  cases p.threads[tid]? with
  | none => rfl
  | some t =>
    cases s.threads[tid]? with
    | none => rfl
    | some slot =>
      change (findingsOf _ _ _ _ t (slot.renamed r.tid)).map _ = (findingsOf _ _ _ _ t slot).map _
      have hpc : (slot.renamed r.tid).pc = slot.pc := rfl
      rw [findingsOf, findingsOf, hpc]
      cases t.code[slot.pc]? with
      | none => rfl
      | some i =>
        have hleaves {p : Program} {s : State} {tid : Nat} {slot : Slot} (ls : List (Leaf Frame)) :
            (ls.map (Finding.ofLeaf p o s tid slot)).map Finding.tally = ls.map Leaf.tally := by
          rw [List.map_map]
          exact List.map_congr_left fun l _ => Finding.tally_ofLeaf l
        simp only [List.map_append, List.map_cons, hleaves, runOn_renumbered, Outcome.tally_leaves_map]
        congr 1
        rw [List.map_map, List.map_map]
        exact List.map_congr_left fun w _ => tally_ofPromise_renumbered w

/-- Exploring a state meets the same in either order. -/
theorem count_renumbered (hs : s.threads.length = p.threads.length) (k : Tally) :
    (s.renumbered r).count (p.renumbered r) o k = s.count p o k := by
  rw [count_eq_total, count_eq_total, length_renumbered hs, hs,
    ← total_perm (fun tid => k.count (s.findings p o tid)) r.perm, ← r.map_place, total_map]
  refine total_congr fun tid htid => ?_
  rw [Tally.count, Tally.count, tallies_renumbered hs (r.mem_order.mp htid)]

end State

/-! ### Explorations -/

variable {p : Program} {o : Options} {e : Explored}

/-- What covers one program covers the other, dealt out in the other order. -/
theorem Program.Covers.renumbered {met : List State} (h : p.Covers o met)
    (hlength : ∀ c ∈ met, c.threads.length = p.threads.length) (r : Renumbering p.threads.length) :
    (p.renumbered r).Covers o (met.map (State.renumbered r)) where
  reached c hc := by
    obtain ⟨d, hd, rfl⟩ := reaches_renumbered.mp hc
    rw [State.settled_renumbered]
    exact List.mem_map_of_mem (h.reached d hd)
  jobs := by
    rw [List.length_map]
    exact h.jobs
  steps := by
    rw [total_map, total_congr fun c hc => State.count_renumbered (hlength c hc) .step]
    exact h.steps
  going c hc := by
    obtain ⟨d, hd, rfl⟩ := reaches_renumbered.mp hc
    rw [State.count_renumbered hd.length_eq]
    exact h.going d hd
  final c hc hf hfu := by
    obtain ⟨d, hd, rfl⟩ := reaches_renumbered.mp hc
    obtain ⟨f, he⟩ := h.final d hd ((State.finished_renumbered hd.length_eq).mp hf)
      ((State.fulfilled_renumbered hd.length_eq).mp hfu)
    rw [State.final_renumbered, he]
    exact ⟨_, rfl⟩

theorem mem_finals_renumbered {r : Renumbering p.threads.length} {e' : Explored} (h : (explore p o).result = .ok e)
    (h' : (explore (p.renumbered r) o).result = .ok e') {f : Final} :
    f ∈ e'.finals ↔ f ∈ e.finals.map (Final.renumbered r) := by
  rw [List.mem_map]
  constructor
  · intro hf
    obtain ⟨c, hc, hend, hfu, he⟩ := exists_reaches_of_mem_finals h' hf
    obtain ⟨d, hd, rfl⟩ := Program.reaches_renumbered.mp hc
    obtain ⟨g, hg, he'⟩ := exists_final_of_reaches h hd ((State.finished_renumbered hd.length_eq).mp hend)
      ((State.fulfilled_renumbered hd.length_eq).mp hfu)
    rw [State.final_renumbered, he'] at he
    cases he
    exact ⟨g, hg, rfl⟩
  · rintro ⟨g, hg, rfl⟩
    obtain ⟨d, hd, hend, hfu, he⟩ := exists_reaches_of_mem_finals h hg
    obtain ⟨f, hf, he'⟩ := exists_final_of_reaches h' (Program.reaches_renumbered.mpr ⟨d, hd, rfl⟩)
      ((State.finished_renumbered hd.length_eq).mpr hend) ((State.fulfilled_renumbered hd.length_eq).mpr hfu)
    rw [State.final_renumbered, he] at he'
    cases he'
    exact hf

/-- The finals of a program have the registers of each of its threads. -/
theorem length_regs_of_mem_finals (h : (explore p o).result = .ok e) {f : Final} (hf : f ∈ e.finals) :
    f.regs.length = p.threads.length := by
  obtain ⟨d, hd, -, -, he⟩ := exists_reaches_of_mem_finals h hf
  rw [State.final, bind_eq_ok] at he
  obtain ⟨image, -, he⟩ := he
  cases he
  rw [List.length_map, hd.length_eq]

/-- An exploration that ends, ends in whatever order the threads are numbered: with the same counts, and the same finals
but for the order of their registers. -/
theorem explore_renumbered (h : (explore p o).result = .ok e) (r : Renumbering p.threads.length) :
    ∃ e', (explore (p.renumbered r) o).result = .ok e' ∧ e'.stats = e.stats ∧
      e'.finals.Perm (e.finals.map (Final.renumbered r)) := by
  obtain ⟨cs, hcs⟩ := exists_explores h
  obtain ⟨s, hinv, hacc, hempty, rfl⟩ := hcs.accounts
  have hlength : ∀ c ∈ s.seen.toList, c.threads.length = p.threads.length := by
    intro c hc
    obtain ⟨d, hd, rfl⟩ := (hinv.mem_seen hacc hempty).mp hc
    rw [State.length_settled, hd.length_eq]
  obtain ⟨e', he'⟩ := ((hinv.covers hacc hempty).renumbered hlength r).exists_result
  have hmem (f : Final) := mem_finals_renumbered (f := f) h he'
  obtain ⟨cs', hcs'⟩ := exists_explores he'
  obtain ⟨t, hinv', hacc', hempty', rfl⟩ := hcs'.accounts
  refine ⟨_, he', ?_, ?_⟩
  · have hdistinct : (s.seen.toList.map (State.renumbered r)).Nodup := hacc.distinct.map_on fun c hc d hd =>
      State.renumbered_injective (hlength c hc) (hlength d hd)
    refine hacc.stats_eq_of_perm hempty hacc' hempty' ?_ (fun c hc => State.count_renumbered (hlength c hc))
      fun c hc => State.isStuck_renumbered (hlength c hc)
    refine (List.perm_ext_iff_of_nodup hacc'.distinct hdistinct).mpr fun d => ?_
    simp only [hinv'.mem_seen hacc' hempty', List.mem_map, hinv.mem_seen hacc hempty, Program.reaches_renumbered]
    constructor
    · rintro ⟨_, ⟨c, hc, rfl⟩, rfl⟩
      exact ⟨_, ⟨c, hc, rfl⟩, State.settled_renumbered.symm⟩
    · rintro ⟨_, ⟨c, hc, rfl⟩, rfl⟩
      exact ⟨_, ⟨c, hc, rfl⟩, State.settled_renumbered⟩
  · have hdistinct : (s.finals.toList.map (Final.renumbered r)).Nodup := hinv.distinct.map_on fun f hf g hg =>
      Final.renumbered_injective (length_regs_of_mem_finals h hf) (length_regs_of_mem_finals h hg)
    exact (List.perm_ext_iff_of_nodup hinv'.distinct hdistinct).mpr hmem

/-- The two threads of `storeAndLoad`, the one that loads first. -/
def loadFirst : Renumbering storeAndLoad.threads.length where
  order := [1, 0]
  perm := .swap ..

theorem explore_renumbered_storeAndLoad : ∃ e e', (explore storeAndLoad {}).result = .ok e ∧ e.finals.length = 2 ∧
    (explore (storeAndLoad.renumbered loadFirst) {}).result = .ok e' ∧ e'.stats = e.stats ∧
    e'.finals.Perm (e.finals.map (Final.renumbered loadFirst)) := by
  obtain ⟨e, he, hlength⟩ := exists_result_of_length (p := storeAndLoad) (o := {}) (n := 2) (by decide +kernel)
  obtain ⟨e', he', hstats, hperm⟩ := explore_renumbered he loadFirst
  exact ⟨e, e', he, hlength, he', hstats, hperm⟩

end Litmus
