import Litmus.Proofs.Instruction.Resolving

/-!
Where cached lines come from. A line goes back to a walk of memory at some time, from a table that the
thread has had, and no maintenance of its tag lies between that time and the last synchronization. Main
facts: every effect keeps that, a synchronization because it drops what it passes maintenance of, and the
end of a walk because only a walk without maintenance to come is cached.
-/

namespace Litmus

open Paging

/-- What walks read from memory up to a time. -/
def Memory.tableAt (m : Memory) (time : View) : Level → Int → Int := fun _ pa => ((m.cut time).latest pa).value

/-- What walks read up to a time is the same once memory has grown. -/
theorem Memory.Extends.tableAt_eq {m n : Memory} {time : View} (h : m.Extends n) (ht : time ≤ m.length) :
    n.tableAt time = m.tableAt time := by
  funext _ pa
  rw [Memory.tableAt, Memory.tableAt, h.latest_cut_eq ht]

/-- Before its first event memory is as it was at first. -/
theorem Memory.tableAt_of_nonpos (m : Memory) {time : View} (ht : time ≤ 0) : m.tableAt time = m.tableAt 0 := by
  have hidden : ∀ {time : View}, time ≤ 0 → ∀ t, (m.cut time).at? t = none := by
    intro time ht t
    rw [Option.eq_none_iff_forall_ne_some]
    intro e he
    obtain ⟨hle, he⟩ := at?_cut_eq_some_iff.mp he
    exact absurd (pos_of_at? he) (Int.not_lt.mpr (Int.le_trans hle ht))
  funext _ pa
  have hsame : (m.cut time).latest pa = (m.cut 0).latest pa :=
    latest_congr (m := m.cut 0) (n := m.cut time) rfl (fun t => (hidden ht t).trans (hidden (Int.le_refl 0) t).symm) pa
  rw [tableAt, tableAt, hsame]

namespace Thread

/-- Whether a register has held a value, at first or after some write of it. -/
def HasHeld (t : Thread) (reg : String) (value : Int) : Prop :=
  t.initial[reg]? = some value ∨ ∃ w ∈ t.history, w.reg = reg ∧ w.held.value = value

theorem HasHeld.mono {t u : Thread} {reg : String} {value : Int} (h : t.HasHeld reg value) (hi : u.initial = t.initial)
    (hh : ∀ w ∈ t.history, w ∈ u.history) : u.HasHeld reg value :=
  h.imp (fun h => hi ▸ h) fun ⟨w, hw, h⟩ => ⟨w, hh w hw, h⟩

/-- Whatever a system register may be read as, it has held. -/
theorem hasHeld_of_mem_readSystemFrom {t : Thread} {reg : String} {position : Int} {held : List Reg} {r : Reg}
    (h : t.readSystemFrom reg position = .ok held) (hr : r ∈ held) : t.HasHeld reg r.value := by
  have of_mem {ws : List SystemWrite} (hws : ∀ w ∈ ws, w ∈ t.history) (hr : r ∈ heldBy reg ws) :
      t.HasHeld reg r.value := by
    obtain ⟨w, hw, rfl⟩ := List.mem_map.mp hr
    obtain ⟨hw, he⟩ := List.mem_filter.mp hw
    exact .inr ⟨w, hws w hw, of_decide_eq_true he, rfl⟩
  simp only [readSystemFrom, bind_eq_ok, pure_eq_ok] at h
  obtain ⟨first, hfirst, rfl⟩ := h
  rcases List.mem_cons.mp hr with rfl | hr
  · rw [readSystemAt] at hfirst
    split at hfirst
    · next r' hr' =>
      cases hfirst
      exact of_mem (fun w => List.mem_of_mem_take) (List.mem_of_getLast? hr')
    · rw [initialReg] at hfirst
      split at hfirst
      · next value hv =>
        cases hfirst
        exact .inl hv
      · cases hfirst
  · exact of_mem (fun w => List.mem_of_mem_drop) hr

/-- What a cached line goes back to. -/
structure Origin (m : Memory) (t : Thread) (l : Line) (time : View) : Prop where
  inside : time ≤ m.length
  walked : ∃ value va asid w, t.HasHeld Register.tables value ∧
    walk va (Register.tableBase value) (m.tableAt time) = .ok w ∧ w.leaf? va asid = some l.tag ∧
    w.descriptors = l.descriptors
  clear : ∀ (later : View) i x, time < later → later ≤ t.views.contextSync → m.at? later = some (.maintain i x) →
    x.hits l.tag = false

/-- Whether all cached lines go back to walks. -/
def Grounded (m : Memory) (t : Thread) : Prop := ∀ l ∈ t.cache.lines, ∃ time, Origin m t l time

/-- What a thread and memory may do without touching what the lines of the cache go back to. -/
structure Settles (m : Memory) (t : Thread) (n : Memory) (u : Thread) : Prop where
  inside : t.views.contextSync ≤ m.length
  grown : m.Extends n
  initial_eq : u.initial = t.initial
  history : ∀ w ∈ t.history, w ∈ u.history
  contextSync_eq : u.views.contextSync = t.views.contextSync

variable {m n : Memory} {t u : Thread}

theorem Origin.mono {l : Line} {time : View} (h : t.Origin m l time) (hs : Settles m t n u) : u.Origin n l time where
  inside := Int.le_trans h.inside hs.grown.length_le
  walked := by
    obtain ⟨value, va, asid, w, hheld, hw, hl, hd⟩ := h.walked
    refine ⟨value, va, asid, w, hheld.mono hs.initial_eq hs.history, ?_, hl, hd⟩
    rw [hs.grown.tableAt_eq h.inside]
    exact hw
  clear later i x hlt hle hx := by
    rw [hs.contextSync_eq] at hle
    rw [hs.grown.at?_eq later (Int.le_trans hle hs.inside)] at hx
    exact h.clear later i x hlt hle hx

theorem Grounded.mono (h : t.Grounded m) (hs : Settles m t n u) (hc : u.cache = t.cache) : u.Grounded n := by
  intro l hl
  rw [hc] at hl
  obtain ⟨time, ho⟩ := h l hl
  exact ⟨time, ho.mono hs⟩

/-- A cache with one more line is grounded if the line is. -/
theorem Grounded.insert (h : t.Grounded m) {l : Line} {time : View} (hl : t.Origin m l time) :
    (t.withCache (t.cache.insert l)).Grounded m := by
  intro k hk
  have settles {k : Line} {time : View} (hk : t.Origin m k time) : (t.withCache (t.cache.insert l)).Origin m k time :=
    ⟨hk.inside, hk.walked, hk.clear⟩
  rcases Cache.mem_insert.mp hk with hk | rfl
  · obtain ⟨time, ho⟩ := h k hk
    exact ⟨time, settles ho⟩
  · exact ⟨time, settles hl⟩

end Thread

/-! ### Synchronization -/

theorem Frame.mem_maintained {k : Line} : ∀ (events : List Event) (c : Cache), k ∈ (Frame.maintained c events).lines ↔
    k ∈ c.lines ∧ ∀ i x, .maintain i x ∈ events → x.hits k.tag = false
  | [], c => by simp [Frame.maintained]
  | .write tid loc value :: events, c => by
    have ih := mem_maintained (k := k) events c
    rw [maintained] at ih ⊢
    rw [List.foldl_cons, ih]
    simp
  | .maintain tid x :: events, c => by
    have ih := mem_maintained (k := k) events (c.invalidate x)
    rw [maintained] at ih ⊢
    rw [List.foldl_cons, ih, Cache.mem_invalidate]
    constructor
    · rintro ⟨⟨hk, hx⟩, h⟩
      refine ⟨hk, ?_⟩
      intro i y hy
      rcases List.mem_cons.mp hy with hy | hy
      · cases hy
        exact hx
      · exact h i y hy
    · rintro ⟨hk, h⟩
      exact ⟨⟨hk, h tid x List.mem_cons_self⟩, fun i y hy => h i y (List.mem_cons_of_mem _ hy)⟩

/-- Synchronization keeps no line whose tag it passes maintenance of. -/
theorem Thread.Grounded.synchronize {f : Frame} (h : f.thread.Grounded f.memory) :
    f.synchronize.thread.Grounded f.memory := by
  intro l hl
  obtain ⟨hl, hpassed⟩ := (Frame.mem_maintained _ _).mp hl
  obtain ⟨time, ho⟩ := h l hl
  refine ⟨time, ho.inside, ho.walked, ?_⟩
  intro later i x hlt hle hx
  by_cases hbefore : later ≤ f.thread.views.contextSync
  · exact ho.clear later i x hlt hbefore hx
  · refine hpassed i x (Memory.mem_shown.mpr ⟨later, ?_⟩)
    exact Memory.at?_after_eq_some_iff.mpr ⟨Int.not_le.mp hbefore, Memory.at?_cut_eq_some_iff.mpr ⟨hle, hx⟩⟩

/-! ### Effects -/

theorem Views.contextSync_afterRead (v : Views) (kind : ReadKind) (addr post : View) :
    (v.afterRead kind addr post).contextSync = v.contextSync := by
  rw [afterRead]
  split <;> rfl

theorem Views.contextSync_afterWrite (v : Views) (kind : WriteKind) (time : View) :
    (v.afterWrite kind time).contextSync = v.contextSync := by
  rw [afterWrite]
  split <;> rfl

/-- Every effect but the end of a walk keeps the cache grounded. -/
theorem Thread.Grounded.step {e : Effect} {f g : Frame} {v : e.Answer} {a : Action} (h : f.thread.Grounded f.memory)
    (hm : f.memory.Whole) (hb : f.Bounded) (hend : ∀ va, e ≠ .endWalk va) (hs : e.Step f v g a) :
    g.thread.Grounded g.memory := by
  have inside : f.thread.views.contextSync ≤ f.memory.length := (hb.thread.views .contextSync).2
  have hg := hs.grows hm
  cases hs with
  | writeReg =>
    refine h.mono ⟨inside, hg.grown, hg.initial_eq, ?_, ?_⟩ ?_
    · dsimp only
      rw [Thread.hold_eq]
      intro w hw
      dsimp only
      split
      · exact List.mem_append_left _ hw
      · exact hw
    · dsimp only
      rw [Thread.hold_eq]
      dsimp only
      split <;> rfl
    · dsimp only
      rw [Thread.hold_eq]
  | read =>
    rw [Frame.thread_afterRead]
    exact h.mono ⟨inside, hg.grown, rfl, fun _ hw => hw, Views.contextSync_afterRead _ _ _ _⟩ rfl
  | write =>
    rw [Frame.thread_afterWrite]
    exact h.mono ⟨inside, hg.grown, rfl, fun _ hw => hw, Views.contextSync_afterWrite _ _ _⟩ rfl
  | @dmb kind => cases kind <;> exact h.mono ⟨inside, hg.grown, rfl, fun _ hw => hw, rfl⟩ rfl
  | @dsb kind => cases kind <;> exact h.mono ⟨inside, hg.grown, rfl, fun _ hw => hw, rfl⟩ rfl
  | maintain =>
    rw [Frame.thread_afterMaintain]
    exact h.mono ⟨inside, hg.grown, rfl, fun _ hw => hw, rfl⟩ rfl
  | isb | returnFromException | halt => exact h.synchronize
  | endWalk | cacheWalk => exact absurd rfl (hend _)
  | _ => exact h.mono ⟨inside, hg.grown, rfl, fun _ hw => hw, rfl⟩ rfl

/-! ### Walks -/

/-- A walk that holds for ever has no maintenance of its tag to come. -/
theorem Candidate.hits_of_validUntil {m : Memory} {time : View} {tag : Tag} (h : validUntil m time tag = .infinity)
    {later : View} {i : Int} {x : Maintenance} (hlt : time < later) (hx : m.at? later = some (.maintain i x)) :
    x.hits tag = false := by
  rw [validUntil] at h
  split at h
  · cases h
  · next hnone =>
    have hx := Memory.mem_entries.mpr (Memory.at?_after_eq_some_iff.mpr ⟨hlt, hx⟩)
    simpa using List.find?_eq_none.mp hnone _ hx

namespace Frame

variable {f : Frame} {va base asid : Int} {c : Candidate}

/-- A candidate of a grounded cache reads what its line has. -/
theorem IsCached.exists_line (hg : f.thread.Grounded f.memory) (h : f.IsCached va base asid c) :
    ∃ line ∈ f.thread.cache.lines, c.walk.leaf? va asid = some line.tag ∧ c.walk.descriptors = line.descriptors ∧
      c.leaf = some line.tag ∧ c.asid = asid := by
  obtain ⟨line, hl, -, w, hw, hleaf, rfl⟩ := h
  obtain ⟨time, ho⟩ := hg line hl
  obtain ⟨value, va', asid', w', -, hw', -, hd⟩ := ho.walked
  exact ⟨line, hl, hleaf, (replay_descriptors hw' hd hw).trans hd, hleaf, rfl⟩

/-- The line of a walk that may be cached goes back to a walk. -/
theorem origin_of_mem_walkCandidates (hg : f.thread.Grounded f.memory) {cs : List Candidate}
    (hcs : f.walkCandidates va = .ok cs) (hc : c ∈ cs) {tag : Tag} (hleaf : c.leaf = some tag)
    (hbound : c.bound = .infinity) : ∃ time, f.thread.Origin f.memory ⟨tag, c.walk.descriptors⟩ time := by
  obtain ⟨held, hheld, r, hr, hcached | ⟨time, htime, w, hw, rfl⟩⟩ := mem_walkCandidates hcs hc
  · obtain ⟨line, hl, -, hd, hleaf', -⟩ := hcached.exists_line hg
    rw [hleaf] at hleaf'
    cases hleaf'
    rw [hd]
    exact hg line hl
  · have hvalue := Thread.hasHeld_of_mem_readSystemFrom hheld hr
    rw [Candidate.of, Walk.guard_of_leaf? hleaf] at hbound
    exact ⟨time, (mem_walkTimes.mp htime).2, ⟨_, va, _, w, hvalue, hw, hleaf, rfl⟩,
      fun later i x hlt _ hx => Candidate.hits_of_validUntil hbound hlt hx⟩

end Frame

/-- The end of a walk keeps the cache grounded. -/
theorem Thread.Grounded.land {f : Frame} {va : Int} {cs : List Candidate} {c : Candidate} {context : Context} {cache : Cache}
    (h : f.thread.Grounded f.memory) (hcs : f.walkCandidates va = .ok cs) (hc : c ∈ cs)
    (hcontext : c.flight.context = some context) (hbound : c.flight.bound = .infinity)
    (hadd : f.thread.cache.add context c.flight.descriptors = .ok cache) :
    (f.thread.withCache cache).Grounded f.memory := by
  rw [Candidate.flight, Option.map_eq_some_iff] at hcontext
  obtain ⟨tag, hleaf, rfl⟩ := hcontext
  obtain ⟨time, ho⟩ := f.origin_of_mem_walkCandidates h hcs hc hleaf hbound
  rw [Cache.add, Tag.tag_context] at hadd
  cases hadd
  exact h.insert ho

/-- Instructions that walk tables in one piece keep the cache grounded. -/
theorem Instr.Resolving.grounded {i j : Instr} {f g : Frame} (hi : i.Resolving) (hc : i.Comes f j g)
    (hm : f.memory.Whole) (hb : f.Bounded) (h : f.thread.Grounded f.memory) : g.thread.Grounded g.memory := by
  induction hi generalizing f with
  | done | thrown =>
    cases hc
    exact h
  | ask _ hend _ ih =>
    cases hc with
    | here => exact h
    | on hs hc => exact ih _ hc ((hs.grows hm).whole hm) (hb.step hm hs) (h.step hm hb hend hs)
  | @resolve va next hnext ih =>
    rw [Shape.resolve] at hc
    cases hc with
    | here => exact h
    | @on _ _ _ start _ _ _ _ hs hc =>
      have hb := hb.step hm hs
      have hm := (hs.grows hm).whole hm
      cases hs with
      | @startWalk _ _ cs c hcs hmem =>
        have hflight : Frame.InFlight { f with scratch := f.scratch.startWalk (pageOf va) c.flight } f.thread f.memory
            (pageOf va) c.flight :=
          ⟨rfl, rfl, c.flight.remaining, Std.ExtTreeMap.getElem?_insert_self⟩
        rcases hflight.resolveFrom hc with hg | ⟨landing, f', hf', hcomes, hrest⟩
        · rw [hg.thread_eq, hg.memory_eq]
          exact h
        · obtain ⟨hm', hb'⟩ := hcomes.bounded hm hb
          obtain ⟨hthread, hmemory, remaining, hw⟩ := hf'
          rw [← hthread, ← hmemory] at h
          cases hrest with
          | here => exact h
          | on hs hc =>
            refine ih landing hc ((hs.grows hm').whole hm') (hb'.step hm' hs) ?_
            cases hs with
            | endWalk => exact h
            | cacheWalk hw' _ hcontext hbound hadd =>
              rw [hw] at hw'
              cases hw'
              rw [hmemory] at h ⊢
              rw [hthread] at h hadd ⊢
              exact h.land hcs hmem hcontext hbound hadd

end Litmus
