import Litmus.Proofs.Exploration.Complete
import Litmus.Proofs.Thread.Origin

/-!
Maintenance of cached walks is effective. Main fact: in a program whose instructions walk tables in one
piece, once a thread has synchronized past maintenance, every walk that the maintenance is of and that the
thread may take is a walk of memory at the time of the maintenance or later.
-/

namespace Litmus

open Paging

/-- In every run of instructions that walk tables in one piece, cached lines go back to walks. -/
theorem slotInvariant_grounded {p : Program} (hp : ∀ t ∈ p.threads, ∀ i ∈ t.code, i.Resolving) :
    SlotInvariant p fun _ _ slot m => slot.thread.Grounded m where
  start _ := nofun
  run r ht hs hi h hr := by
    have hresolving := hp _ (List.mem_of_getElem? ht) _ (List.mem_of_getElem? hi)
    have hb := (frameInvariant_bounded.slot p).holds r hs
    exact hresolving.grounded hr.comes r.fits.whole hb h
  promise r hs h hf := by
    have hb := (frameInvariant_bounded.slot p).holds r hs
    obtain ⟨-, hg, -, -, hext, -, -⟩ := Frame.promiseWrite_spec r.fits.whole hf
    rw [hg]
    exact h.mono ⟨(hb.thread.views .contextSync).2, hext, rfl, fun _ hw => hw, rfl⟩ rfl
  grow r hs h hext _ := by
    have hb := (frameInvariant_bounded.slot p).holds r hs
    exact h.mono ⟨(hb.thread.views .contextSync).2, hext, rfl, fun _ hw => hw, rfl⟩ rfl

/-- Wherever a thread is, cached lines go back to walks. -/
theorem State.At.grounded {p : Program} {s : State} {tid : Nat} {f : Frame}
    (hp : ∀ t ∈ p.threads, ∀ i ∈ t.code, i.Resolving) (hs : p.Reaches s) (hf : s.At p tid f) :
    f.thread.Grounded f.memory := by
  obtain ⟨ds, hr⟩ := Program.reaches_iff.mp hs
  cases hf with
  | rest hslot => exact (slotInvariant_grounded hp).holds hr hslot
  | amid ht hslot hi hc =>
    have hresolving := hp _ (List.mem_of_getElem? ht) _ (List.mem_of_getElem? hi)
    have hb := (frameInvariant_bounded.slot p).holds hr hslot
    exact hresolving.grounded hc hr.fits.whole hb ((slotInvariant_grounded hp).holds hr hslot)

/-- A candidate of a grounded cache, or of memory, is a walk of memory no earlier than any maintenance of it
that the thread has synchronized past. -/
theorem Thread.Grounded.candidate_since {f : Frame} (h : f.thread.Grounded f.memory) {va : Int} {cs : List Candidate}
    {c : Candidate} (hcs : f.walkCandidates va = .ok cs) (hc : c ∈ cs) {time : View} {i : Int} {m : Maintenance}
    (hm : f.memory.at? time = some (.maintain i m)) (ht : time ≤ f.thread.views.contextSync)
    (hits : m.hits (c.walk.guard va c.asid) = true) :
    ∃ since value w, time ≤ since ∧ since ≤ f.memory.length ∧ f.thread.HasHeld Register.tables value ∧
      walk va (Register.tableBase value) (f.memory.tableAt since) = .ok w ∧ w.descriptors = c.walk.descriptors := by
  obtain ⟨held, hheld, r, hr, hcached | ⟨since, hsince, w, hw, rfl⟩⟩ := Frame.mem_walkCandidates hcs hc
  · obtain ⟨line, hl, hleaf, hd, -, hasid⟩ := hcached.exists_line h
    obtain ⟨since, hinside, ⟨value, va', asid', w', hvalue, hw', hleaf', hd'⟩, hclear⟩ := h line hl
    rw [hasid, Walk.guard_of_leaf? hleaf] at hits
    have hle : time ≤ since := Int.not_lt.mp fun hlt => by
      rw [hclear time i m hlt ht hm] at hits
      cases hits
    -- the walk of the line is that of another address of its region
    have hregion := Walk.region_eq_of_leaf? hleaf hleaf'
    obtain ⟨w, hw, hdw⟩ := walkFrom_of_region_eq hw' hregion
    exact ⟨since, value, w, hle, hinside, hvalue, hw, hdw.trans (hd'.trans hd.symm)⟩
  · obtain ⟨hfirst, hlast⟩ := Frame.mem_walkTimes.mp hsince
    exact ⟨since, r.value, w, Int.le_trans ht hfirst, hlast, Thread.hasHeld_of_mem_readSystemFrom hheld hr, hw, rfl⟩

/-- In a program whose instructions walk tables in one piece, once a thread has synchronized past maintenance,
every walk that it may take and that the maintenance is of is the walk from a table that the thread has had
in memory at some time since the maintenance. -/
theorem State.At.candidate_since_maintenance {p : Program} {s : State} {tid : Nat} {f : Frame}
    (hp : ∀ t ∈ p.threads, ∀ i ∈ t.code, i.Resolving) (hs : p.Reaches s) (hf : s.At p tid f) {time : View} {i : Int}
    {m : Maintenance} (hm : f.memory.at? time = some (.maintain i m)) (ht : time ≤ f.thread.views.contextSync) {va : Int}
    {cs : List Candidate} {c : Candidate} (hcs : f.walkCandidates va = .ok cs) (hc : c ∈ cs)
    (hits : m.hits (c.walk.guard va c.asid) = true) :
    ∃ since value w, time ≤ since ∧ since ≤ f.memory.length ∧ f.thread.HasHeld Register.tables value ∧
      walk va (Register.tableBase value) (f.memory.tableAt since) = .ok w ∧ w.descriptors = c.walk.descriptors :=
  (hf.grounded hp hs).candidate_since hcs hc hm ht hits

/-- Tables that map the first page, a load of it, and maintenance of all walks with what makes it effective. -/
def loadThenMaintain : Program where
  cells := [(0x1000, 0x2003), (0x2000, 0x3003), (0x3000, 0x4003), (0x4000, 0x5403)]
  threads := [{
    code := [Shape.loadVirtual "X1" "X2", Shape.only (.maintain { scope := .all } .none), Shape.dsb .sy, Shape.isb]
    regs := .ofList [("X2", (0 : Int)), ("TTBR0_EL1", 0x1000)] }]

theorem candidate_since_maintenance_loadThenMaintain : ∃ s slot cs c,
    loadThenMaintain.Reaches s ∧ s.threads[0]? = some slot ∧ 1 ≤ slot.thread.views.contextSync ∧
    s.memory.at? 1 = some (.maintain 0 .all) ∧
    Frame.walkCandidates { thread := slot.thread, memory := s.memory } 0 = .ok cs ∧ c ∈ cs ∧ c.walk.steps.length = 4 ∧
    ∃ since value w, 1 ≤ since ∧ since ≤ s.memory.length ∧ slot.thread.HasHeld Register.tables value ∧
      walk 0 (Register.tableBase value) (s.memory.tableAt since) = .ok w ∧ w.descriptors = c.walk.descriptors := by
  have path : (loadThenMaintain.start.follow loadThenMaintain {} [0, 0, 0, 0]).any (fun s => s.threads[0]?.any fun slot =>
      decide (1 ≤ slot.thread.views.contextSync) && decide (s.memory.at? 1 = some (.maintain 0 .all)) &&
        (Frame.walkCandidates { thread := slot.thread, memory := s.memory } 0).toOption.any fun cs =>
          cs.any fun c => c.walk.steps.length = 4) = true := by decide +kernel
  obtain ⟨s, hs, hP⟩ := Program.exists_reaches _ path
  simp only [Option.any_eq_true, Bool.and_eq_true, decide_eq_true_eq, List.any_eq_true] at hP
  obtain ⟨slot, hslot, ⟨hsync, hm⟩, cs, hcs, c, hc, hsteps⟩ := hP
  have hcs : Frame.walkCandidates { thread := slot.thread, memory := s.memory } 0 = .ok cs := by
    cases hw : Frame.walkCandidates { thread := slot.thread, memory := s.memory } 0 with
    | error e => rw [hw] at hcs; cases hcs
    | ok cs' => rw [hw] at hcs; cases hcs; rfl
  have hresolving : ∀ t ∈ loadThenMaintain.threads, ∀ i ∈ t.code, i.Resolving := by
    intro t ht i hi
    rw [List.mem_singleton.mp ht] at hi
    rcases List.mem_cons.mp hi with rfl | hi
    · exact Instr.resolving_loadVirtual _ _
    · rcases List.mem_cons.mp hi with rfl | hi
      · exact .only nofun nofun
      · rcases List.mem_cons.mp hi with rfl | hi
        · exact .only nofun nofun
        · rw [List.mem_singleton.mp hi]
          exact .only nofun nofun
  exact ⟨s, slot, cs, c, hs, hslot, hsync, hm, hcs, hc, hsteps,
    State.At.candidate_since_maintenance hresolving hs (.rest hslot) hm hsync hcs hc rfl⟩

end Litmus
