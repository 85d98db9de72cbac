import Litmus.Proofs.Instruction.Candidates
import Litmus.Proofs.Instruction.Growth

/-!
The order of a cache does not matter. What runs with one cache runs alike with any other that has the
same lines: it asks for the same, gets the same answers, and differs at the end in the order of the cache
alone.
-/

namespace Litmus

open Paging

namespace Paging.Cache

/-- The caches have the same lines, in whatever order. -/
def Alike (c d : Cache) : Prop := ∀ l, l ∈ c.lines ↔ l ∈ d.lines

theorem Alike.symm {c d : Cache} (h : c.Alike d) : d.Alike c := fun l => (h l).symm

theorem alike_of_inOrder_eq {c d : Cache} (h : c.inOrder = d.inOrder) : c.Alike d := fun l => by
  have hc : l ∈ c.inOrder.lines ↔ l ∈ c.lines := (List.mergeSort_perm _ _).mem_iff
  have hd : l ∈ d.inOrder.lines ↔ l ∈ d.lines := (List.mergeSort_perm _ _).mem_iff
  rw [← hc, h, hd]

theorem Alike.add {c d c' : Cache} {context : Context} {ds : List Int} (h : d.Alike c)
    (hc : c.add context ds = .ok c') : ∃ d', d.add context ds = .ok d' ∧ d'.Alike c' := by
  simp only [Cache.add, bind_eq_ok, pure_eq_ok] at hc ⊢
  obtain ⟨tag, ht, rfl⟩ := hc
  exact ⟨_, ⟨tag, ht, rfl⟩, fun l => by rw [mem_insert, mem_insert, h l]⟩

theorem Alike.maintained {events : List Event} : ∀ {c d : Cache}, d.Alike c →
    (Frame.maintained d events).Alike (Frame.maintained c events) := by
  simp only [Frame.maintained]
  induction events with
  | nil => exact fun h => h
  | cons e events ih =>
    intro c d h
    cases e with
    | write => exact ih h
    | maintain _ m => exact ih fun l => by rw [mem_invalidate, mem_invalidate, h l]

end Paging.Cache

/-! ### Candidates -/

namespace Candidate

/-- The lists have the same first candidate of each key. -/
def Alike (cs ds : List Candidate) : Prop :=
  ∀ k : Int × Number × List (Int × Int), cs.find? (fun c => c.key = k) = ds.find? fun c => c.key = k

theorem alike_append {cs ds es : List Candidate} (h : Alike cs ds) : Alike (cs ++ es) (ds ++ es) := fun k => by
  rw [List.find?_append, List.find?_append, h k]

theorem alike_flatten {css dss : List (List Candidate)} (h : List.Forall₂ Alike css dss) :
    Alike css.flatten dss.flatten := fun k => by
  induction h with
  | nil => rfl
  | cons h _ ih => rw [List.flatten_cons, List.flatten_cons, List.find?_append, List.find?_append, h k, ih]

theorem mem_distinct_of_alike {cs ds : List Candidate} (h : Alike cs ds) {c : Candidate} :
    c ∈ distinct cs ↔ c ∈ distinct ds := by rw [mem_distinct, mem_distinct, h c.key]

/-- Lists with the same members are alike when no two members share a key. -/
theorem alike_of_mem_iff {cs ds : List Candidate} (h : ∀ c, c ∈ cs ↔ c ∈ ds)
    (inj : ∀ c ∈ cs, ∀ d ∈ cs, c.key = d.key → c = d) : Alike cs ds := fun k => by
  cases hd : ds.find? fun c => c.key = k with
  | none =>
    rw [List.find?_eq_none] at hd ⊢
    intro c hc
    exact hd c ((h c).mp hc)
  | some d =>
    have hdk : d.key = k := by simpa using List.find?_some hd
    have hdm := (h d).mpr (List.mem_of_find?_eq_some hd)
    cases hc : cs.find? fun c => c.key = k with
    | none => exact absurd (by simpa using hdk) (List.find?_eq_none.mp hc d hdm)
    | some c =>
      have hck : c.key = k := by simpa using List.find?_some hc
      rw [inj c (List.mem_of_find?_eq_some hc) d hdm (hck.trans hdk.symm)]

end Candidate

namespace Frame

variable {f : Frame} {c : Cache} {va base asid : Int}

/-- The frame with another cache. -/
def recached (f : Frame) (c : Cache) : Frame := { f with thread := f.thread.withCache c }

theorem IsCached.eq_of_key {a b : Candidate} (ha : f.IsCached va base asid a) (hb : f.IsCached va base asid b)
    (hk : a.key = b.key) : a = b := by
  obtain ⟨_, _, _, w, hw, _, rfl⟩ := ha
  obtain ⟨_, _, _, w', hw', _, rfl⟩ := hb
  exact Candidate.of_eq_of_key hw hw' hk

theorem isCached_recached (h : c.Alike f.thread.cache) {a : Candidate} :
    (f.recached c).IsCached va base asid a ↔ f.IsCached va base asid a :=
  exists_congr fun l => and_congr_left fun _ => h l

theorem cachedCandidates_recached (h : c.Alike f.thread.cache) {cs : List Candidate}
    (hcs : f.cachedCandidates va base asid = .ok cs) :
    ∃ ds, (f.recached c).cachedCandidates va base asid = .ok ds ∧ Candidate.Alike cs ds := by
  obtain ⟨ds, hds⟩ : ∃ ds, (f.recached c).cachedCandidates va base asid = .ok ds :=
    exists_cachedCandidates.mpr fun line hl => exists_cachedCandidates.mp ⟨cs, hcs⟩ line ((h line).mp hl)
  refine ⟨ds, hds, Candidate.alike_of_mem_iff ?_ ?_⟩
  · intro a
    rw [mem_cachedCandidates hcs, mem_cachedCandidates hds, isCached_recached h]
  · intro a ha b hb
    exact ((mem_cachedCandidates hcs).mp ha).eq_of_key ((mem_cachedCandidates hcs).mp hb)

theorem candidatesOf_recached (h : c.Alike f.thread.cache) {r : Reg} {cs : List Candidate}
    (hcs : f.candidatesOf va r = .ok cs) :
    ∃ ds, (f.recached c).candidatesOf va r = .ok ds ∧ Candidate.Alike cs ds := by
  simp only [candidatesOf, bind_eq_ok, pure_eq_ok] at hcs ⊢
  obtain ⟨cached, hcached, fresh, hfresh, rfl⟩ := hcs
  obtain ⟨cached', hcached', hal⟩ := cachedCandidates_recached h hcached
  exact ⟨_, ⟨cached', hcached', fresh, hfresh, rfl⟩, Candidate.alike_append hal⟩

/-- With a cache in another order the same walks may be taken. -/
theorem walkCandidates_recached (h : c.Alike f.thread.cache) {cs : List Candidate} (hcs : f.walkCandidates va = .ok cs) :
    ∃ ds, (f.recached c).walkCandidates va = .ok ds ∧ ∀ a, a ∈ cs ↔ a ∈ ds := by
  obtain ⟨held, found, hheld, hfound, rfl⟩ := walkCandidates_eq_ok.mp hcs
  obtain ⟨found', hfound', hal⟩ := mapM_alike (fun _ _ _ => candidatesOf_recached h) hfound
  exact ⟨_, walkCandidates_eq_ok.mpr ⟨held, found', hheld, hfound', rfl⟩,
    fun _ => Candidate.mem_distinct_of_alike (Candidate.alike_flatten hal)⟩

end Frame

/-! ### Effects -/

theorem Thread.hold_withCache (t : Thread) (c : Cache) (reg : String) (r : Reg) :
    (t.withCache c).hold reg r = (t.hold reg r).withCache c := by
  rw [hold_eq, hold_eq]
  rfl

namespace Frame

variable {f : Frame} {c : Cache}

theorem afterRead_recached {req : ReadRequest} {addr : View} {r : Memory.Read} :
    (f.recached c).afterRead req addr r = (f.afterRead req addr r).recached c := by
  have hthread : ((f.recached c).afterRead req addr r).thread = (f.afterRead req addr r).thread.withCache c := by
    rw [thread_afterRead, thread_afterRead]
    rfl
  exact congrArg (fun t => { f.afterRead req addr r with thread := t }) hthread

theorem afterWrite_recached {req : WriteRequest} {operands t : View} {m : Memory} {promised : Bool} :
    (f.recached c).afterWrite req operands t m promised = (f.afterWrite req operands t m promised).recached c := by
  have hthread : ((f.recached c).afterWrite req operands t m promised).thread =
      (f.afterWrite req operands t m promised).thread.withCache c := by
    rw [thread_afterWrite, thread_afterWrite]
    rfl
  exact congrArg (fun t' => { f.afterWrite req operands t m promised with thread := t' }) hthread

theorem afterMaintain_recached {t : View} {m : Memory} {promised : Bool} :
    (f.recached c).afterMaintain t m promised = (f.afterMaintain t m promised).recached c := by
  have hthread : ((f.recached c).afterMaintain t m promised).thread =
      (f.afterMaintain t m promised).thread.withCache c := by
    rw [thread_afterMaintain, thread_afterMaintain]
    rfl
  exact congrArg (fun t' => { f.afterMaintain t m promised with thread := t' }) hthread

/-- What synchronization of a frame leaves in the cache. -/
def synchronizedCache (f : Frame) (c : Cache) : Cache :=
  maintained c ((f.memory.cut f.thread.contextSync.views.contextSync).after f.thread.views.contextSync).shown

theorem synchronize_recached : (f.recached c).synchronize = f.synchronize.recached (f.synchronizedCache c) := rfl

theorem synchronizedCache_alike (h : c.Alike f.thread.cache) :
    (f.synchronizedCache c).Alike f.synchronize.thread.cache := h.maintained

end Frame

/-- What a rule does with one cache, it does with any other that has the same lines. -/
theorem Effect.Step.recached {e : Effect} {f g : Frame} {v : e.Answer} {a : Action} (h : e.Step f v g a) {c : Cache}
    (hc : c.Alike f.thread.cache) :
    ∃ d, d.Alike g.thread.cache ∧ e.Step (f.recached c) v (g.recached d) a := by
  cases h with
  | readReg h => exact ⟨c, hc, .readReg (f := f.recached c) h⟩
  | @writeReg reg value deps _ view h =>
    have hstep : Step (.writeReg reg value deps) (f.recached c) ()
        { f.recached c with thread := (f.thread.withCache c).hold reg ⟨value, view⟩ } .other := .writeReg h
    rw [Thread.hold_withCache] at hstep
    refine ⟨c, ?_, hstep⟩
    dsimp only
    rw [Thread.hold_eq]
    exact hc
  | fetch hk h => exact ⟨c, hc, .fetch (f := f.recached c) hk h⟩
  | descriptor hk hs hva hw hr hpa => exact ⟨c, hc, .descriptor (f := f.recached c) hk hs hva hw hr hpa⟩
  | read hk hs ha hd hr hb =>
    refine ⟨c, ?_, ?_⟩
    · rw [Frame.thread_afterRead]
      exact hc
    · rw [← Frame.afterRead_recached]
      exact .read (f := f.recached c) hk hs ha hd hr hb
  | write hs ha hd hd' hp ht =>
    refine ⟨c, ?_, ?_⟩
    · rw [Frame.thread_afterWrite]
      exact hc
    · rw [← Frame.afterWrite_recached]
      exact .write (f := f.recached c) hs ha hd hd' hp ht
  | writeFailed hs ha he => exact ⟨c, hc, .writeFailed (f := f.recached c) hs ha he⟩
  | dmb h => exact ⟨c, hc, .dmb (f := f.recached c) h⟩
  | dsb h => exact ⟨c, hc, .dsb (f := f.recached c) h⟩
  | isb => exact ⟨_, Frame.synchronizedCache_alike hc, Frame.synchronize_recached ▸ .isb⟩
  | maintain hm hd hp ht =>
    refine ⟨c, ?_, ?_⟩
    · rw [Frame.thread_afterMaintain]
      exact hc
    · rw [← Frame.afterMaintain_recached]
      exact .maintain (f := f.recached c) hm hd hp ht
  | announceBranch h => exact ⟨c, hc, .announceBranch (f := f.recached c) h⟩
  | startWalk hcs hm =>
    obtain ⟨ds, hds, hal⟩ := Frame.walkCandidates_recached hc hcs
    exact ⟨c, hc, .startWalk (f := f.recached c) hds ((hal _).mp hm)⟩
  | endWalk hw hr hcx => exact ⟨c, hc, .endWalk (f := f.recached c) hw hr hcx⟩
  | cacheWalk hw hr hcx hb ha =>
    obtain ⟨d, hd, hal⟩ := hc.add ha
    exact ⟨d, hal, .cacheWalk (f := f.recached c) hw hr hcx hb hd⟩
  | returnFromException => exact ⟨_, Frame.synchronizedCache_alike hc, Frame.synchronize_recached ▸ .returnFromException⟩
  | halt => exact ⟨_, Frame.synchronizedCache_alike hc, Frame.synchronize_recached ▸ .halt⟩
  | choose hs hn => exact ⟨c, hc, .choose (f := f.recached c) hs hn⟩

/-- What an instruction does with one cache, it does with any other that has the same lines. -/
theorem Instr.Runs.recached {i : Instr} {f h : Frame} {as : List Action} (r : i.Runs f as h) {c : Cache}
    (hc : c.Alike f.thread.cache) : ∃ d, d.Alike h.thread.cache ∧ i.Runs (f.recached c) as (h.recached d) := by
  induction r generalizing c with
  | done => exact ⟨c, hc, .done⟩
  | ask hs _ ih =>
    obtain ⟨d, hd, hs⟩ := hs.recached hc
    obtain ⟨d, hd, hr⟩ := ih hd
    exact ⟨d, hd, .ask hs hr⟩

end Litmus
