import Litmus.Proofs.Instruction.Action
import Litmus.Proofs.Paging.Walk

/-!
Which walks may be taken. Cached candidates are the replays of cached lines that land on the tag of their
line, fresh ones the walks of memory at the times since the last synchronization; of candidates with one
key the first is kept. Main facts: what each kind of candidate is, and that candidates of the cache with
one key are the same candidate, so that it does not matter in which order the cache has them.
-/

namespace Litmus

open Paging

namespace Candidate

/-- The kept candidates after another one. -/
def keep (kept : List Candidate) (c : Candidate) : List Candidate :=
  if kept.any fun k => k.key = c.key then kept else kept ++ [c]

theorem mem_foldl_keep {c : Candidate} : ∀ {cs kept : List Candidate}, c ∈ cs.foldl keep kept ↔
    c ∈ kept ∨ (∀ k ∈ kept, k.key ≠ c.key) ∧ cs.find? (fun k => k.key = c.key) = some c
  | [], kept => by simp
  | d :: cs, kept => by
    rw [List.foldl_cons, mem_foldl_keep]
    by_cases hd : ∃ k ∈ kept, k.key = d.key
    · -- the key of `d` is taken, so `d` changes nothing
      have hkeep : keep kept d = kept := if_pos (by simpa using hd)
      obtain ⟨k, hk, he⟩ := hd
      rw [hkeep]
      refine or_congr_right (and_congr_right ?_)
      intro hfree
      rw [List.find?_cons_of_neg (by simpa [← he] using hfree k hk)]
    · have hkeep : keep kept d = kept ++ [d] := if_neg (by simpa using hd)
      have hfree : ∀ k ∈ kept, k.key ≠ d.key := fun k hk he => hd ⟨k, hk, he⟩
      rw [hkeep]
      by_cases hc : d.key = c.key
      · rw [List.find?_cons_of_pos (by simpa using hc)]
        grind
      · rw [List.find?_cons_of_neg (by simpa using hc)]
        grind

/-- A candidate is kept exactly when it is the first one of its key. -/
theorem mem_distinct {c : Candidate} {cs : List Candidate} :
    c ∈ distinct cs ↔ cs.find? (fun k => k.key = c.key) = some c := by
  change c ∈ cs.foldl keep [] ↔ _
  simp [mem_foldl_keep]

/-- No candidate is kept twice. -/
theorem nodup_distinct (cs : List Candidate) : (distinct cs).Nodup := by
  have kept : ∀ (cs kept : List Candidate), kept.Nodup → (cs.foldl keep kept).Nodup := by
    intro cs
    induction cs with
    | nil => exact fun _ h => h
    | cons c cs ih =>
      intro kept h
      refine ih _ ?_
      rw [keep]
      split
      · exact h
      · next hnew =>
        have hc : c ∉ kept := fun hc => hnew (List.any_eq_true.mpr ⟨c, hc, decide_eq_true rfl⟩)
        exact List.nodup_append.mpr ⟨h, by simp, fun k hk d hd e =>
          hc (List.mem_singleton.mp hd ▸ e ▸ hk)⟩
  exact kept cs [] List.nodup_nil

theorem mem_of_mem_distinct {c : Candidate} {cs : List Candidate} (h : c ∈ distinct cs) : c ∈ cs :=
  List.mem_of_find?_eq_some (mem_distinct.mp h)

/-- Candidates of walks of one address, taken from one table at one time, are the same if their keys are. -/
theorem of_eq_of_key {m : Memory} {va base asid : Int} {time : View} {read read' : Level → Int → Int} {w w' : Walk}
    (h : Paging.walk va base read = .ok w) (h' : Paging.walk va base read' = .ok w')
    (hk : (of m va time base asid w).key = (of m va time base asid w').key) :
    of m va time base asid w = of m va time base asid w' := by
  have hs := congrArg (fun k => k.2.2.map Prod.snd) hk
  simp only [key, of, List.map_map, Function.comp_def] at hs
  rw [walkFrom_unique h h' hs]

end Candidate

namespace Frame

variable {f : Frame} {va base asid : Int}

/-- What a candidate from the cache is: the replay of a line, landing on the line's own tag. -/
def IsCached (f : Frame) (va base asid : Int) (c : Candidate) : Prop :=
  ∃ line ∈ f.thread.cache.lines, line.tag ∈ cachedTags va asid ∧ ∃ w, replay va base line.descriptors = .ok w ∧
    w.leaf? va asid = some line.tag ∧ c = .of f.memory va f.thread.views.contextSync base asid w

/-- What a candidate from memory is: a walk at some time since the last synchronization. -/
def IsFresh (f : Frame) (va base asid : Int) (c : Candidate) : Prop :=
  ∃ t ∈ f.walkTimes, ∃ w, walk va base (fun _ pa => ((f.memory.cut t).latest pa).value) = .ok w ∧
    c = .of f.memory va t base asid w

/-- The replays of the lines under a tag, in the order of the cache. -/
theorem replays_eq_ok {tag : Tag} {found : List (Option Candidate)}
    (h : (f.thread.cache.find tag).mapM (fun descriptors => do
      let w ← replay va base descriptors
      return if w.leaf? va asid = some tag then
          some (Candidate.of f.memory va f.thread.views.contextSync base asid w)
        else none) = .ok found) {c : Candidate} :
    some c ∈ found ↔ ∃ line ∈ f.thread.cache.lines, line.tag = tag ∧ ∃ w, replay va base line.descriptors = .ok w ∧
      w.leaf? va asid = some tag ∧ c = .of f.memory va f.thread.views.contextSync base asid w := by
  rw [mem_of_mapM_eq_ok h]
  simp only [Cache.mem_find, bind_eq_ok, pure_eq_ok]
  constructor
  · rintro ⟨ds, hl, w, hw, hc⟩
    split at hc
    · next hleaf => exact ⟨_, hl, rfl, w, hw, hleaf, by simpa using hc⟩
    · cases hc
  · rintro ⟨line, hl, rfl, w, hw, hleaf, rfl⟩
    exact ⟨_, hl, w, hw, by rw [if_pos hleaf]⟩

theorem mem_cachedCandidates {cs : List Candidate} (h : f.cachedCandidates va base asid = .ok cs) {c : Candidate} :
    c ∈ cs ↔ f.IsCached va base asid c := by
  simp only [cachedCandidates, bind_eq_ok, pure_eq_ok] at h
  obtain ⟨found, hf, rfl⟩ := h
  simp only [List.mem_filterMap, id_eq, List.mem_flatten, exists_eq_right]
  constructor
  · rintro ⟨found', hm, hc⟩
    obtain ⟨tag, ht, hf'⟩ := (mem_of_mapM_eq_ok hf).mp hm
    obtain ⟨line, hl, rfl, w, hw⟩ := (replays_eq_ok hf').mp hc
    exact ⟨line, hl, ht, w, hw⟩
  · rintro ⟨line, hl, ht, w, hw⟩
    obtain ⟨found', hf'⟩ := exists_mapM_eq_ok.mp ⟨_, hf⟩ line.tag ht
    exact ⟨found', (mem_of_mapM_eq_ok hf).mpr ⟨_, ht, hf'⟩, (replays_eq_ok hf').mpr ⟨line, hl, rfl, w, hw⟩⟩

/-- The cache offers its candidates when every line under a tag of the address can be replayed. -/
theorem exists_cachedCandidates : (∃ cs, f.cachedCandidates va base asid = .ok cs) ↔
    ∀ line ∈ f.thread.cache.lines, line.tag ∈ cachedTags va asid → ∃ w, replay va base line.descriptors = .ok w := by
  simp only [cachedCandidates, bind_eq_ok, pure_eq_ok]
  constructor
  · rintro ⟨_, found, hf, -⟩ line hl ht
    obtain ⟨found', hf'⟩ := exists_mapM_eq_ok.mp ⟨_, hf⟩ line.tag ht
    obtain ⟨c, hc⟩ := exists_mapM_eq_ok.mp ⟨_, hf'⟩ line.descriptors (Cache.mem_find.mpr hl)
    simp only [bind_eq_ok] at hc
    obtain ⟨w, hw, -⟩ := hc
    exact ⟨w, hw⟩
  · intro h
    refine (exists_mapM_eq_ok.mpr ?_).elim fun found hf => ⟨_, found, hf, rfl⟩
    intro tag ht
    refine exists_mapM_eq_ok.mpr ?_
    intro ds hds
    obtain ⟨w, hw⟩ := h _ (Cache.mem_find.mp hds) ht
    exact ⟨_, bind_eq_ok.mpr ⟨w, hw, rfl⟩⟩

theorem mem_freshCandidates {cs : List Candidate} (h : f.freshCandidates va base asid = .ok cs) {c : Candidate} :
    c ∈ cs ↔ f.IsFresh va base asid c := by
  rw [mem_of_mapM_eq_ok h]
  simp only [bind_eq_ok, pure_eq_ok]
  rfl

theorem mem_walkTimes {t : View} : t ∈ f.walkTimes ↔ f.thread.views.contextSync ≤ t ∧ t ≤ f.memory.length := by
  simp only [walkTimes, List.mem_map, List.mem_range]
  constructor
  · rintro ⟨i, hi, rfl⟩
    constructor <;> lia
  · rintro ⟨h₁, h₂⟩
    exact ⟨(t - f.thread.views.contextSync).toNat, by lia, by lia⟩

/-- The candidates for one value of the table register: those of the cache, then those of memory. -/
def candidatesOf (f : Frame) (va : Int) (r : Reg) : Except Fault (List Candidate) := do
  let base := Register.tableBase r.value
  let asid := Register.addressSpace r.value
  return (← f.cachedCandidates va base asid) ++ (← f.freshCandidates va base asid)

theorem walkCandidates_eq_ok {cs : List Candidate} : f.walkCandidates va = .ok cs ↔
    ∃ held found, f.thread.readSystemFrom Register.tables f.thread.syncPoint = .ok held ∧
      held.mapM (f.candidatesOf va) = .ok found ∧ cs = Candidate.distinct found.flatten := by
  simp only [walkCandidates, bind_eq_ok, pure_eq_ok, exists_and_left]
  rfl

/-- Every candidate that is offered is cached or fresh, for a value that the table register may hold. -/
theorem mem_walkCandidates {cs : List Candidate} (h : f.walkCandidates va = .ok cs) {c : Candidate} (hc : c ∈ cs) :
    ∃ held, f.thread.readSystemFrom Register.tables f.thread.syncPoint = .ok held ∧ ∃ r ∈ held,
      f.IsCached va (Register.tableBase r.value) (Register.addressSpace r.value) c ∨
      f.IsFresh va (Register.tableBase r.value) (Register.addressSpace r.value) c := by
  obtain ⟨held, found, hh, hf, rfl⟩ := walkCandidates_eq_ok.mp h
  obtain ⟨cs, hcs, hc⟩ := List.mem_flatten.mp (Candidate.mem_of_mem_distinct hc)
  obtain ⟨r, hr, hcs⟩ := (mem_of_mapM_eq_ok hf).mp hcs
  simp only [candidatesOf, bind_eq_ok, pure_eq_ok] at hcs
  obtain ⟨cached, hcached, fresh, hfresh, rfl⟩ := hcs
  refine ⟨held, hh, r, hr, (List.mem_append.mp hc).imp ?_ ?_⟩
  · exact (mem_cachedCandidates hcached).mp
  · exact (mem_freshCandidates hfresh).mp

end Frame

end Litmus
