import Litmus.Proofs.Instruction.LaterWalks

/-!
Instructions that append nothing. Such an instruction looks at memory only up to views that lie within it, and fulfils
promises that are there already. Main fact: it runs alike, to the very same state of the thread, once memory has grown,
if it takes no walk or if what was added is not maintenance.
-/

namespace Litmus

open Paging

namespace Frame

variable {f g : Frame} {n : Memory}

/-- An event that was placed without adding anything was promised, and fulfils the same promise in a memory that
goes on. -/
theorem place_inMemory (hb : f.Bounded) (hm : f.memory.Whole) (hn : f.memory.Extends n) {e : Event} {t : View}
    {promised : Bool} (hp : f.place e = .ok (f.memory, t, promised)) :
    (f.inMemory n).place e = .ok (n, t, promised) ∧ t ≤ f.memory.length := by
  have hplaced := placed hm hp
  have hinside : t ≤ f.memory.length := Memory.le_length_of_at? hplaced.at?_eq
  refine ⟨?_, hinside⟩
  rw [place] at hp
  rw [place, inMemory, hn.fulfil?_eq (fun p hmem => (hb.thread.promises p hmem).2)]
  cases hf : f.memory.fulfil? e f.thread.promises with
  | some t' =>
    rw [hf] at hp
    cases hp
    rfl
  | none =>
    -- what goes to the end of memory is past it
    rw [hf] at hp
    obtain ⟨⟨m, t'⟩, hpromise, hp⟩ := bind_eq_ok.mp hp
    obtain ⟨m', hm', -, -, hlength, -⟩ := Memory.promise_spec hm e
    rw [hm'] at hpromise
    cases hpromise
    cases hp
    lia

/-- Up to a time inside memory it does not matter what comes later for why a write cannot succeed. -/
theorem writeTrouble_inMemory (hn : f.memory.Extends n) (req : WriteRequest) (loc : Int) (pre : View) {t : View}
    (ht : t ≤ f.memory.length) :
    (f.inMemory n).writeTrouble req n loc pre t = f.writeTrouble req f.memory loc pre t := by
  have hexclusive (v : View) : (n.cut t).exclusive loc f.thread.tid v = (f.memory.cut t).exclusive loc f.thread.tid v :=
    Memory.exclusive_congr (fun t' => hn.at?_cut_eq ht t') _ _ _
  simp only [writeTrouble, exclusiveTrouble, inMemory, hexclusive]

/-- A synchronization looks at memory only up to its own view. -/
theorem synchronize_inMemory (hb : f.Bounded) (hn : f.memory.Extends n) :
    (f.inMemory n).synchronize = f.synchronize.inMemory n := by
  have hsync : f.thread.contextSync.views.contextSync ≤ f.memory.length := (hb.thread.contextSync.views .contextSync).2
  have hpassed : ((n.cut f.thread.contextSync.views.contextSync).after f.thread.views.contextSync).shown =
      ((f.memory.cut f.thread.contextSync.views.contextSync).after f.thread.views.contextSync).shown :=
    Memory.shown_congr fun t => by rw [Memory.at?_after, Memory.at?_after, hn.at?_cut_eq hsync]
  simp only [synchronize, inMemory, hpassed]

/-- What an explicit read may return it may return once memory has grown. -/
theorem readCandidates_inMemory (hb : f.Bounded) (hn : f.memory.Extends n) {req : ReadRequest} {addr : View}
    (hd : f.depsView req.deps = .ok addr) {r : Memory.Read} (hr : r ∈ f.readCandidates req req.pa addr) :
    r ∈ (f.inMemory n).readCandidates req req.pa addr := by
  obtain ⟨hr, hp⟩ := List.mem_filter.mp hr
  have hview := (hb.readPre req (hb.depsView hd)).join (hb.thread.coherence req.pa)
  exact List.mem_filter.mpr ⟨hn.mem_candidates hview.2 hr, hp⟩

/-- A fetch looks at memory only up to the last synchronization. -/
theorem fetch_inMemory (hb : f.Bounded) (hn : f.memory.Extends n) (req : ReadRequest) :
    (f.inMemory n).fetch req = f.fetch req := by
  have hsync : f.thread.views.contextSync ≤ f.memory.length := (hb.thread.views .contextSync).2
  simp only [fetch, inMemory, Memory.readAt, Memory.readLast, hn.latest_cut_eq hsync]

end Frame

/-- Every effect that adds nothing to memory goes alike in a memory that goes on. -/
theorem Effect.Step.inMemory {e : Effect} {f g : Frame} {v : e.Answer} {a : Action} {n : Memory} (hs : e.Step f v g a)
    (hm : f.memory.Whole) (hb : f.Bounded) (hkept : g.memory = f.memory) (hn : f.memory.Extends n)
    (hwalk : (∀ va c, a ≠ .walk va c) ∨ f.memory.SameMaintenance n) :
    e.Step (f.inMemory n) v (g.inMemory n) a := by
  cases hs with
  | readReg hr => exact .readReg hr
  | writeReg hd => exact .writeReg hd
  | fetch hk hf => exact .fetch hk (by rw [Frame.fetch_inMemory hb hn, hf])
  | descriptor hk hsz hva hw hr hpa => exact .descriptor hk hsz hva hw hr hpa
  | read hk hsz ha hd hr hbound => exact .read hk hsz ha hd (Frame.readCandidates_inMemory hb hn hd hr) hbound
  | write hsz ha hd hd' hp ht =>
    obtain rfl := hkept
    obtain ⟨hp, hinside⟩ := Frame.place_inMemory hb hm hn hp
    exact .write hsz ha hd hd' hp (by rw [Frame.writeTrouble_inMemory hn _ _ _ hinside]; exact ht)
  | writeFailed hsz ha he => exact .writeFailed hsz ha he
  | dmb hd => exact .dmb hd
  | dsb hd => exact .dsb hd
  | isb => exact Frame.synchronize_inMemory hb hn ▸ .isb
  | maintain hreq hd hp ht =>
    obtain rfl := hkept
    obtain ⟨hp, -⟩ := Frame.place_inMemory hb hm hn hp
    exact .maintain hreq hd hp ht
  | announceBranch hd => exact .announceBranch hd
  | startWalk hcs hc =>
    have hsame := hwalk.resolve_left fun hnone => hnone _ _ rfl
    obtain ⟨ds, hds, hmem⟩ := Frame.walkCandidates_inMemory hb hn hsame hcs hc
    exact .startWalk hds hmem
  | endWalk hw hr hc => exact .endWalk hw hr hc
  | cacheWalk hw hr hc hbound hadd => exact .cacheWalk hw hr hc hbound hadd
  | returnFromException => exact Frame.synchronize_inMemory hb hn ▸ .returnFromException
  | halt => exact Frame.synchronize_inMemory hb hn ▸ .halt
  | choose hp hv => exact .choose hp hv

/-- An instruction that adds nothing to memory runs alike in a memory that goes on, if it takes no walk or there is no
new maintenance. -/
theorem Instr.Runs.inMemory {i : Instr} {f g : Frame} {as : List Action} {n : Memory} (r : i.Runs f as g)
    (hm : f.memory.Whole) (hb : f.Bounded) (hkept : g.memory = f.memory) (hn : f.memory.Extends n)
    (hwalk : (∀ va c, .walk va c ∉ as) ∨ f.memory.SameMaintenance n) : i.Runs (f.inMemory n) as (g.inMemory n) := by
  induction r with
  | done => exact .done
  | @ask e next f g h answer a as hs r ih =>
    have hgrown := hs.grows hm
    have hm' := hgrown.whole hm
    -- memory only grows, so no effect on the way has added anything
    have hstep : g.memory = f.memory := (hgrown.grown.antisymm (hkept ▸ (r.grows hm').grown) hm hm').symm
    refine .ask (hs.inMemory hm hb hstep hn ?_) (ih hm' (hb.step hm hs) (hkept.trans hstep.symm) (hstep ▸ hn) ?_)
    · exact hwalk.imp_left fun hnone va c ha => hnone va c (ha ▸ List.mem_cons_self)
    · rw [hstep]
      exact hwalk.imp_left fun hnone va c hmem => hnone va c (List.mem_cons_of_mem _ hmem)

end Litmus
