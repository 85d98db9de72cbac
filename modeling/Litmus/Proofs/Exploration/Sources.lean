import Litmus.Proofs.Exploration.Deadline
import Litmus.Proofs.Exploration.WalkTimes
import Litmus.Proofs.Instruction.LaterWalks

/-!
Which walks may be taken, exactly. The sources of walks are, for each value that the table register may hold, the
walks of memory at each time since the last synchronization and the replays of what is cached for the address. Main
facts: in every state that is reached each source is offered, once for all sources that read the same steps in one
address space and up to one bound; of these the offered one is the earliest, and all begin in one page frame.
-/

namespace Litmus

open Paging

/-! ### Bounds -/

/-- Whether a bound is the last time before maintenance hits what is kept under a tag since a time. -/
def Memory.KeepsUntil (m : Memory) (time : View) (tag : Tag) (bound : Number) : Prop :=
  (∀ t i x, time < t → ¬bound < .whole t → m.at? t = some (.maintain i x) → x.hits tag = false) ∧
  (bound = .infinity ∨ ∃ (last : View) (i : Int) (x : Maintenance), bound = .whole last ∧ time ≤ last ∧
    m.at? (last + 1) = some (.maintain i x) ∧ x.hits tag = true)

theorem Candidate.keepsUntil_validUntil (m : Memory) (time : View) (tag : Tag) :
    m.KeepsUntil time tag (validUntil m time tag) := by
  constructor
  · intro t i x hlt hbound hx
    by_contra hits
    exact hbound (validUntil_lt hlt hx (Bool.not_eq_false _ ▸ hits))
  · rw [validUntil]
    split
    · next t e hfind =>
      obtain ⟨hlt, he⟩ := Memory.at?_after_eq_some_iff.mp (Memory.mem_entries.mp (List.mem_of_find?_eq_some hfind))
      have hits := List.find?_some hfind
      cases e with
      | write => cases hits
      | maintain i x => exact .inr ⟨t - 1, i, x, rfl, by lia, by rw [Int.sub_add_cancel]; exact he, hits⟩
    · exact .inl rfl

/-! ### Sources -/

namespace Candidate

/-- What an instruction can see of a walk before it ends: the address space, the bound and the steps. -/
def triple (c : Candidate) : Int × Number × List Step := (c.asid, c.bound, c.walk.steps)

theorem key_eq_of_triple_eq {c d : Candidate} (h : c.triple = d.triple) : c.key = d.key :=
  congrArg (fun t : Int × Number × List Step => (t.1, t.2.1, t.2.2.map fun s => (s.pa, s.descriptor))) h

/-- Kept candidates are told apart by their keys. -/
theorem eq_of_mem_distinct {cs : List Candidate} {c d : Candidate} (hc : c ∈ distinct cs) (hd : d ∈ distinct cs)
    (hkey : c.key = d.key) : c = d := by
  rw [mem_distinct] at hc hd
  rw [hkey] at hc
  exact Option.some.inj (hc.symm.trans hd)

end Candidate

namespace Frame

variable {f : Frame} {va : Int} {r r' : Reg} {o c : Candidate} {as : List Action}

/-- The walks that a value of the table register is a source of, each as a candidate of its own: those of memory at
each time since the last synchronization, and at the synchronization the replays of what is cached for the address. -/
inductive Source (f : Frame) (va : Int) (r : Reg) : Candidate → Prop
  | walked {t : View} {w : Walk} : f.thread.views.contextSync ≤ t → t ≤ f.memory.length →
      walk va (Register.tableBase r.value) (f.memory.tableAt t) = .ok w →
      Source f va r (.of f.memory va t (Register.tableBase r.value) (Register.addressSpace r.value) w)
  | cached {level : Level} {space : Option Int} {ds : List Int} {w : Walk} : level ∈ Level.mapping →
      space = none ∨ space = some (Register.addressSpace r.value) → ds ∈ f.thread.cache.find (Tag.of level va space) →
      replay va (Register.tableBase r.value) ds = .ok w →
      Source f va r (.of f.memory va f.thread.views.contextSync (Register.tableBase r.value)
        (Register.addressSpace r.value) w)

theorem mem_cachedTags {asid : Int} {tag : Tag} : tag ∈ cachedTags va asid ↔
    ∃ level ∈ Level.mapping, ∃ space, (space = none ∨ space = some asid) ∧ tag = Tag.of level va space := by
  rw [cachedTags, List.mem_flatMap]
  refine exists_congr fun level => and_congr_right fun _ => ?_
  constructor
  · intro h
    rcases List.mem_cons.mp h with rfl | h
    · exact ⟨_, .inr rfl, rfl⟩
    · exact ⟨_, .inl rfl, List.mem_singleton.mp h⟩
  · rintro ⟨_, rfl | rfl, rfl⟩
    · exact List.mem_cons_of_mem _ (List.mem_singleton_self _)
    · exact List.mem_cons_self

/-- What is cached goes back to walks, so its replay fills the tag that it is cached under. -/
theorem Traced.leaf_of_replay (h : f.Traced as) {level : Level} {space : Option Int} {asid base : Int} {ds : List Int}
    {w : Walk} (hspace : space = none ∨ space = some asid) (hds : ds ∈ f.thread.cache.find (Tag.of level va space))
    (hw : replay va base ds = .ok w) : w.leaf? va asid = some (Tag.of level va space) := by
  obtain ⟨va', c', -, hcurrent, hleaf, hd⟩ := h.lines _ (Cache.mem_find.mp hds)
  rw [hcurrent.leaf_eq] at hleaf
  exact Walk.leaf?_replay hcurrent.walked hd hleaf hspace hw

/-- The candidates for a value of the table register are the sources of it. -/
theorem Traced.mem_candidatesOf (h : f.Traced as) {cs : List Candidate} (hcs : f.candidatesOf va r = .ok cs) :
    o ∈ cs ↔ f.Source va r o := by
  simp only [candidatesOf, bind_eq_ok, pure_eq_ok] at hcs
  obtain ⟨cached, hcached, fresh, hfresh, rfl⟩ := hcs
  rw [List.mem_append, mem_cachedCandidates hcached, mem_freshCandidates hfresh]
  constructor
  · rintro (⟨line, hl, htag, w, hw, -, rfl⟩ | ⟨t, ht, w, hw, rfl⟩)
    · obtain ⟨level, hlevel, space, hspace, htag⟩ := mem_cachedTags.mp htag
      exact .cached hlevel hspace (Cache.mem_find.mpr (htag ▸ hl)) hw
    · obtain ⟨hfirst, hlast⟩ := mem_walkTimes.mp ht
      exact .walked hfirst hlast hw
  · rintro (⟨hfirst, hlast, hw⟩ | ⟨hlevel, hspace, hds, hw⟩)
    · exact .inr ⟨_, mem_walkTimes.mpr ⟨hfirst, hlast⟩, _, hw, rfl⟩
    · have hleaf := h.leaf_of_replay hspace hds hw
      exact .inl ⟨_, Cache.mem_find.mp hds, mem_cachedTags.mpr ⟨_, hlevel, _, hspace, rfl⟩, _, hw, hleaf, rfl⟩

/-- No source fails. -/
theorem exists_candidatesOf (f : Frame) (va : Int) (r : Reg) : ∃ cs, f.candidatesOf va r = .ok cs := by
  have lands (read : Level → Int → Int) : ∃ w, walk va (Register.tableBase r.value) read = .ok w :=
    exists_walkFrom va read 3 (inside_tableBase r.value)
  have hcached : ∃ cached, f.cachedCandidates va (Register.tableBase r.value) (Register.addressSpace r.value) = .ok cached :=
    exists_cachedCandidates.mpr fun line _ _ => lands _
  have hfresh : ∃ fresh, f.freshCandidates va (Register.tableBase r.value) (Register.addressSpace r.value) = .ok fresh := by
    refine exists_mapM_eq_ok.mpr fun t _ => ?_
    obtain ⟨w, hw⟩ := lands fun _ pa => ((f.memory.cut t).latest pa).value
    exact ⟨_, bind_eq_ok.mpr ⟨w, hw, rfl⟩⟩
  obtain ⟨cached, hcached⟩ := hcached
  obtain ⟨fresh, hfresh⟩ := hfresh
  exact ⟨_, bind_eq_ok.mpr ⟨cached, hcached, bind_eq_ok.mpr ⟨fresh, hfresh, rfl⟩⟩⟩

theorem exists_walkCandidates (f : Frame) (va : Int) {held : List Reg}
    (hheld : f.thread.readSystemFrom Register.tables f.thread.syncPoint = .ok held) :
    ∃ cs, f.walkCandidates va = .ok cs := by
  obtain ⟨found, hfound⟩ := exists_mapM_eq_ok.mpr fun r (_ : r ∈ held) => f.exists_candidatesOf va r
  exact ⟨_, walkCandidates_eq_ok.mpr ⟨held, found, hheld, hfound, rfl⟩⟩

theorem nodup_triples {cs : List Candidate} (hcs : f.walkCandidates va = .ok cs) : (cs.map Candidate.triple).Nodup := by
  obtain ⟨_, found, -, -, rfl⟩ := walkCandidates_eq_ok.mp hcs
  exact (Candidate.nodup_distinct _).map_on fun c hc d hd htriple =>
    Candidate.eq_of_mem_distinct hc hd (Candidate.key_eq_of_triple_eq htriple)

namespace Source

theorem exists_walk (h : f.Source va r o) : o.base = Register.tableBase r.value ∧
    o = .of f.memory va o.time (Register.tableBase r.value) (Register.addressSpace r.value) o.walk ∧
    ∃ read, walk va (Register.tableBase r.value) read = .ok o.walk := by
  cases h with
  | walked _ _ hw => exact ⟨rfl, rfl, _, hw⟩
  | cached _ _ _ hw => exact ⟨rfl, rfl, _, hw⟩

/-- Sources that are told apart by what they read and where are told apart by their steps. -/
theorem key_eq_iff (h : f.Source va r o) (h' : f.Source va r' c) : o.key = c.key ↔ o.triple = c.triple := by
  obtain ⟨-, -, read, hw⟩ := h.exists_walk
  obtain ⟨-, -, read', hw'⟩ := h'.exists_walk
  refine ⟨fun hkey => ?_, Candidate.key_eq_of_triple_eq⟩
  simp only [Candidate.key, Prod.mk.injEq] at hkey
  obtain ⟨hasid, hbound, hsteps⟩ := hkey
  have hsteps := (descends_walkFrom (inside_tableBase _) (Nat.le_refl 3) hw).steps_eq
    (descends_walkFrom (inside_tableBase _) (Nat.le_refl 3) hw') hsteps
  rw [Candidate.triple, Candidate.triple, hasid, hbound, hsteps]

/-- A source with the key of another begins in its page frame, and is a source at the same time of the other's value
too. -/
theorem twin (h : f.Source va r o) (h' : f.Source va r' c) (hkey : c.key = o.key) :
    frameOf o.base = frameOf c.base ∧ ∃ d, f.Source va r' d ∧ d.key = o.key ∧ d.time = o.time := by
  obtain ⟨hbase', hc, read', hw'⟩ := h'.exists_walk
  rw [hc] at hkey
  rw [hbase']
  cases h with
  | walked hfirst hlast hw =>
    obtain ⟨hasid, hframe, hw⟩ := Candidate.walk_of_key (inside_tableBase _) (inside_tableBase _) hw' hw hkey
    exact ⟨hframe.symm, _, .walked hfirst hlast hw, by rw [hasid]; rfl, rfl⟩
  | cached hlevel hspace hds hw =>
    obtain ⟨hasid, hframe, hw⟩ := Candidate.walk_of_key (inside_tableBase _) (inside_tableBase _) hw' hw hkey
    rw [← hasid] at hspace
    exact ⟨hframe.symm, _, .cached hlevel hspace hds hw, by rw [hasid]; rfl, rfl⟩

end Source

/-! ### The first of each key is the earliest -/

theorem map_of_mapM {α β ε : Type} {k : α → Except ε β} {g : β → α} : ∀ {l : List α} {bs : List β}, l.mapM k = .ok bs →
    (∀ a b, k a = .ok b → g b = a) → bs.map g = l
  | [], bs, h, _ => by rw [mapM_nil_eq_ok.mp h, List.map_nil]
  | a :: l, _, h, hg => by
    obtain ⟨b, bs, hb, hbs, rfl⟩ := mapM_cons_eq_ok.mp h
    rw [List.map_cons, hg a b hb, map_of_mapM hbs hg]

/-- The candidates for a value of the table register are in the order of their times. -/
theorem pairwise_candidatesOf {cs : List Candidate} (hcs : f.candidatesOf va r = .ok cs) :
    cs.Pairwise fun c d => c.time ≤ d.time := by
  simp only [candidatesOf, bind_eq_ok, pure_eq_ok] at hcs
  obtain ⟨cached, hcached, fresh, hfresh, rfl⟩ := hcs
  have hsync : ∀ c ∈ cached, c.time = f.thread.views.contextSync := by
    intro c hc
    obtain ⟨_, -, -, w, -, -, rfl⟩ := (mem_cachedCandidates hcached).mp hc
    rfl
  have hlater : ∀ d ∈ fresh, f.thread.views.contextSync ≤ d.time := by
    intro d hd
    obtain ⟨t, ht, w, -, rfl⟩ := (mem_freshCandidates hfresh).mp hd
    exact (mem_walkTimes.mp ht).1
  have htimes : fresh.map Candidate.time = f.walkTimes := by
    refine map_of_mapM hfresh fun t c hc => ?_
    obtain ⟨w, -, hc⟩ := bind_eq_ok.mp hc
    rw [pure_eq_ok.mp hc]
    rfl
  have hfreshTimes : (fresh.map Candidate.time).Pairwise (· ≤ ·) := by
    rw [htimes, walkTimes, List.pairwise_map]
    exact List.pairwise_lt_range.imp fun {i j} hij => by lia
  refine List.pairwise_append.mpr ⟨?_, List.pairwise_map.mp hfreshTimes, ?_⟩
  · refine List.pairwise_of_forall_mem_list fun c hc d hd => ?_
    rw [hsync c hc, hsync d hd]
  · intro c hc d hd
    rw [hsync c hc]
    exact hlater d hd

/-- The first element of a kind in an ordered list is before all others of the kind. -/
theorem le_of_find? {p : Candidate → Bool} {cs : List Candidate} {d : Candidate}
    (hcs : cs.Pairwise fun c d => c.time ≤ d.time) (hc : cs.find? p = some c) (hd : d ∈ cs) (hp : p d = true) :
    c.time ≤ d.time := by
  obtain ⟨-, before, rest, rfl, hnone⟩ := List.find?_eq_some_iff_append.mp hc
  rcases List.mem_append.mp hd with hd | hd
  · have := hnone d hd
    rw [hp] at this
    cases this
  · rcases List.mem_cons.mp hd with rfl | hd
    · exact Int.le_refl _
    · exact (List.pairwise_cons.mp (List.pairwise_append.mp hcs).2.1).1 d hd

/-- What is offered is a source, and the earliest of the sources with its key of the same value. -/
theorem Traced.earliest (h : f.Traced as) {cs : List Candidate} {held : List Reg}
    (hheld : f.thread.readSystemFrom Register.tables f.thread.syncPoint = .ok held) (hcs : f.walkCandidates va = .ok cs)
    (hc : c ∈ cs) : ∃ r ∈ held, f.Source va r c ∧ ∀ d, f.Source va r d → d.key = c.key → c.time ≤ d.time := by
  obtain ⟨_, found, hheld', hfound, rfl⟩ := walkCandidates_eq_ok.mp hcs
  cases hheld.symm.trans hheld'
  rw [Candidate.mem_distinct, List.find?_flatten] at hc
  obtain ⟨block, hblock, hfirst⟩ := List.exists_of_findSome?_eq_some hc
  obtain ⟨r, hr, hblock⟩ := (mem_of_mapM_eq_ok hfound).mp hblock
  refine ⟨r, hr, (h.mem_candidatesOf hblock).mp (List.mem_of_find?_eq_some hfirst), ?_⟩
  intro d hd hkey
  exact le_of_find? (pairwise_candidatesOf hblock) hfirst ((h.mem_candidatesOf hblock).mpr hd) (decide_eq_true hkey)

/-- Every source is offered, as itself or as one with its key. -/
theorem Traced.exists_offered (h : f.Traced as) {cs : List Candidate} {held : List Reg}
    (hheld : f.thread.readSystemFrom Register.tables f.thread.syncPoint = .ok held) (hcs : f.walkCandidates va = .ok cs)
    (hr : r ∈ held) (ho : f.Source va r o) : ∃ c ∈ cs, c.key = o.key := by
  obtain ⟨_, found, hheld', hfound, rfl⟩ := walkCandidates_eq_ok.mp hcs
  cases hheld.symm.trans hheld'
  obtain ⟨block, hblock⟩ := f.exists_candidatesOf va r
  have hmem : o ∈ found.flatten := List.mem_flatten.mpr
    ⟨block, (mem_of_mapM_eq_ok hfound).mpr ⟨r, hr, hblock⟩, (h.mem_candidatesOf hblock).mpr ho⟩
  cases hc : found.flatten.find? fun k => k.key = o.key with
  | none => exact absurd rfl (of_decide_eq_false (Bool.not_eq_true _ ▸ List.find?_eq_none.mp hc o hmem))
  | some c =>
    have hkey := List.find?_some hc
    rw [decide_eq_true_eq] at hkey
    exact ⟨c, Candidate.mem_distinct.mpr (by rw [hkey]; exact hc), hkey⟩

/-- The walk of memory at the last synchronization is a source of each value of the table register. -/
theorem Bounded.exists_source (h : f.Bounded) (va : Int) (r : Reg) : ∃ o, f.Source va r o := by
  obtain ⟨w, hw⟩ := exists_walkFrom va (f.memory.tableAt f.thread.views.contextSync) 3 (inside_tableBase r.value)
  exact ⟨_, .walked (Int.le_refl _) (h.thread.views .contextSync).2 hw⟩

end Frame

/-! ### What is offered -/

theorem Thread.readSystemFrom_ne_nil {t : Thread} {reg : String} {position : Int} {held : List Reg}
    (h : t.readSystemFrom reg position = .ok held) : held ≠ [] := by
  simp only [readSystemFrom, bind_eq_ok, pure_eq_ok] at h
  obtain ⟨first, -, rfl⟩ := h
  exact List.cons_ne_nil _ _

/-- In every state that is reached, as long as the table register can be read, some walk of each address may be taken.
The walks that may be are the sources, each address space, bound and steps once. Of the sources with these the one that
is offered has the least time, whichever value of the table register they are sources of, and all begin in one page
frame. It is good until its bound, at which maintenance follows that hits it, if the bound is finite. -/
theorem State.At.walkCandidates_exact {p : Program} {s : State} {tid : Nat} {f : Frame} (hs : p.Reaches s)
    (hf : s.At p tid f) {held : List Reg}
    (hheld : f.thread.readSystemFrom Register.tables f.thread.syncPoint = .ok held) (va : Int) :
    ∃ cs, f.walkCandidates va = .ok cs ∧ (Effect.startWalk va).run f = .among cs (fun c =>
        .done ({ f with scratch := f.scratch.startWalk (pageOf va) c.flight }, ⟨c.base, c.asid⟩)) ∧ cs ≠ [] ∧
      (∀ r ∈ held, ∀ read, ∃ w, walk va (Register.tableBase r.value) read = .ok w) ∧
      (cs.map Candidate.triple).Nodup ∧
      (∀ triple, triple ∈ cs.map Candidate.triple ↔ ∃ r ∈ held, ∃ o, f.Source va r o ∧ o.triple = triple) ∧
      ∀ c ∈ cs, (∃ r ∈ held, f.Source va r c) ∧
        (∀ r ∈ held, ∀ o, f.Source va r o → o.triple = c.triple → c.time ≤ o.time ∧ frameOf o.base = frameOf c.base) ∧
        f.memory.KeepsUntil c.time (c.walk.guard va c.asid) c.bound := by
  obtain ⟨-, as, htraced⟩ := frameInvariant_traced.holdsAt hs hf
  obtain ⟨-, _, hbounded⟩ := frameInvariant_bounded.holdsAt hs hf
  obtain ⟨cs, hcs⟩ := f.exists_walkCandidates va hheld
  have offered {r : Reg} {o : Candidate} (hr : r ∈ held) (ho : f.Source va r o) : ∃ c ∈ cs, c.triple = o.triple := by
    obtain ⟨c, hc, hkey⟩ := htraced.exists_offered hheld hcs hr ho
    obtain ⟨r', -, hsource, -⟩ := htraced.earliest hheld hcs hc
    exact ⟨c, hc, (hsource.key_eq_iff ho).mp hkey⟩
  refine ⟨cs, hcs, ?_, ?_, ?_, Frame.nodup_triples hcs, ?_, ?_⟩
  · simp only [Effect.run, Frame.startWalk, hcs]
    rfl
  · obtain ⟨r, hr⟩ := List.exists_mem_of_ne_nil held (Thread.readSystemFrom_ne_nil hheld)
    obtain ⟨o, ho⟩ := hbounded.exists_source va r
    obtain ⟨c, hc, -⟩ := offered hr ho
    exact List.ne_nil_of_mem hc
  · exact fun r _ read => exists_walkFrom va read 3 (inside_tableBase r.value)
  · intro triple
    rw [List.mem_map]
    constructor
    · rintro ⟨c, hc, rfl⟩
      obtain ⟨r, hr, hsource, -⟩ := htraced.earliest hheld hcs hc
      exact ⟨r, hr, c, hsource, rfl⟩
    · rintro ⟨r, hr, o, ho, rfl⟩
      exact offered hr ho
  · intro c hc
    obtain ⟨r, hr, hsource, hleast⟩ := htraced.earliest hheld hcs hc
    refine ⟨⟨r, hr, hsource⟩, ?_, ?_⟩
    · intro r' _ o ho htriple
      have hkey := (hsource.key_eq_iff ho).mpr htriple.symm
      obtain ⟨hframe, d, hd, hdkey, htime⟩ := ho.twin hsource hkey
      rw [← htime]
      exact ⟨hleast d hd (hdkey.trans hkey.symm), hframe⟩
    · rw [Frame.bound_eq_of_mem hcs hc]
      exact Candidate.keepsUntil_validUntil _ _ _

theorem walkCandidates_exact_remappedPage : ∃ s slot held cs, remappedPage.Reaches s ∧ s.threads[0]? = some slot ∧
    slot.thread.readSystemFrom Register.tables slot.thread.syncPoint = .ok held ∧
    Frame.walkCandidates { thread := slot.thread, memory := s.memory } 0 = .ok cs ∧ cs ≠ [] ∧
    (cs.map Candidate.triple).Nodup ∧ ∀ r ∈ held, ∀ o, Frame.Source { thread := slot.thread, memory := s.memory } 0 r o →
      ∃ c ∈ cs, c.triple = o.triple ∧ c.time ≤ o.time := by
  obtain ⟨ds, s, slot, cs, -, r, hslot, hcs, -⟩ := exists_run_remappedPage
  obtain ⟨held, -, hheld, -⟩ := Frame.walkCandidates_eq_ok.mp hcs
  have hs : remappedPage.Reaches s := Program.reaches_iff.mpr ⟨ds, r⟩
  obtain ⟨cs, hcs, -, hne, -, hnodup, hsources, hleast⟩ := State.At.walkCandidates_exact hs (.rest hslot) hheld 0
  refine ⟨s, slot, held, cs, hs, hslot, hheld, hcs, hne, hnodup, ?_⟩
  intro r hr o ho
  obtain ⟨c, hc, htriple⟩ := List.mem_map.mp ((hsources _).mpr ⟨r, hr, o, ho, rfl⟩)
  exact ⟨c, hc, htriple, ((hleast c hc).2.1 r hr o ho htriple.symm).1⟩

end Litmus
