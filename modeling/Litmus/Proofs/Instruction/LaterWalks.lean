import Litmus.Proofs.Instruction.Bounded
import Litmus.Proofs.Instruction.CacheOrder
import Litmus.Proofs.Memory.Later
import Litmus.Proofs.Paging.Descent

/-!
Walks that may be taken later. Writes add walks of later times to those that may be taken, after the others of the
same table. Main facts: a walk never fails, and the bound of a walk is told by maintenance alone; so, as long as no
maintenance is added, every walk that may be taken may still be taken once memory has grown.
-/

namespace Litmus

open Paging

theorem Paging.inside_tableBase (value : Int) : Inside (Register.tableBase value) := by
  simp only [Inside, Register.tableBase, addressLimit]
  omega

/-! ### Bounds -/

/-- Whether memories have the same maintenance at the same times. -/
def Memory.SameMaintenance (m n : Memory) : Prop :=
  ∀ t i x, n.at? t = some (.maintain i x) ↔ m.at? t = some (.maintain i x)

namespace Candidate

variable {m n : Memory} {va time base asid : Int} {tag : Tag} {w : Walk}

/-- The bound of a walk is told by maintenance alone. -/
theorem validUntil_congr (h : m.SameMaintenance n) : validUntil n time tag = validUntil m time tag := by
  rw [validUntil, validUntil, Memory.find?_entries_congr (m := m.after time) (n := n.after time)]
  intro t e he
  cases e with
  | write => cases he
  | maintain i x => rw [Memory.at?_after_eq_some_iff, Memory.at?_after_eq_some_iff, h t i x]

theorem of_congr (h : m.SameMaintenance n) : of n va time base asid w = of m va time base asid w := by
  rw [of, of, validUntil_congr h]

/-- Walks with one key are of one address space and from tables of one page frame, so that each is a walk from the
table of the other. -/
theorem walk_of_key {time' base' asid' : Int} {w' : Walk} {read read' : Level → Int → Int} (hbase : Inside base)
    (hbase' : Inside base') (h : Paging.walk va base read = .ok w) (h' : Paging.walk va base' read' = .ok w')
    (hkey : (of m va time base asid w).key = (of n va time' base' asid' w').key) :
    asid = asid' ∧ frameOf base = frameOf base' ∧ Paging.walk va base read' = .ok w' := by
  have hhead := congrArg (fun k => k.2.2.head?.map Prod.fst) hkey
  simp only [key, of, List.head?_map, Option.map_map, Function.comp_def] at hhead
  have hsame := (head?_steps hbase h).symm.trans (hhead.trans (head?_steps hbase' h'))
  have hframe : frameOf base = frameOf base' := by
    have := Option.some.inj hsame
    omega
  exact ⟨congrArg Prod.fst hkey, hframe, (walk_eq_of_frameOf_eq hbase hbase' hframe va read').trans h'⟩

end Candidate

/-! ### Candidates -/

/-- Lists with more at their ends have the same first element of a kind, as long as each had one of the kind before
one is added. -/
theorem find?_flatten_of_forall₂ {α : Type} {p : α → Bool} {css dss : List (List α)}
    (h : List.Forall₂ (fun cs ds => ∃ later, ds = cs ++ later ∧ ∀ d ∈ later, p d = true → ∃ c ∈ cs, p c = true)
      css dss) : dss.flatten.find? p = css.flatten.find? p := by
  induction h with
  | nil => rfl
  | @cons cs _ _ _ hd _ ih =>
    obtain ⟨later, rfl, hlater⟩ := hd
    rw [List.flatten_cons, List.flatten_cons, List.find?_append, List.find?_append, List.find?_append, ih]
    cases hc : cs.find? p with
    | some c => rfl
    | none =>
      have hnone := List.find?_eq_none.mp hc
      have hlater : later.find? p = none := List.find?_eq_none.mpr fun d hd hp => by
        obtain ⟨c, hc, hp⟩ := hlater d hd hp
        exact hnone c hc hp
      rw [hlater]
      rfl

namespace Frame

/-- The frame in another memory. -/
def inMemory (f : Frame) (n : Memory) : Frame := { f with memory := n }

variable {f : Frame} {n : Memory} {va base asid : Int}

theorem cachedCandidates_inMemory (h : f.memory.SameMaintenance n) :
    (f.inMemory n).cachedCandidates va base asid = f.cachedCandidates va base asid := by
  simp only [cachedCandidates, inMemory, Candidate.of_congr h]

/-- The times of walks in a memory that goes on come after the others. -/
theorem walkTimes_inMemory (hb : f.Bounded) (hn : f.memory.Extends n) :
    ∃ later, (f.inMemory n).walkTimes = f.walkTimes ++ later := by
  have hfirst := (hb.thread.views .contextSync).2
  have hle := hn.length_le
  have hcount : (n.length - f.thread.views.contextSync + 1).toNat =
      (f.memory.length - f.thread.views.contextSync + 1).toNat + (n.length - f.memory.length).toNat := by
    have : f.thread.views.contextSync ≤ f.memory.length := hfirst
    lia
  rw [walkTimes, inMemory]
  dsimp only
  rw [hcount, List.range_add, List.map_append]
  exact ⟨_, rfl⟩

/-- The walk of memory at a time, as a candidate. -/
def walkAt (m : Memory) (va base asid : Int) (time : View) : Except Fault Candidate := do
  let w ← walk va base fun _ pa => ((m.cut time).latest pa).value
  return Candidate.of m va time base asid w

theorem freshCandidates_eq : f.freshCandidates va base asid = f.walkTimes.mapM (walkAt f.memory va base asid) := rfl

/-- Without new maintenance the walk of memory at a time inside it does not change any more. -/
theorem walkAt_eq {m : Memory} {time : View} (hn : m.Extends n) (h : m.SameMaintenance n) (ht : time ≤ m.length) :
    walkAt n va base asid time = walkAt m va base asid time := by
  simp only [walkAt, hn.latest_cut_eq ht, Candidate.of_congr h]

/-- The walks of a memory that goes on come after the others. -/
theorem freshCandidates_inMemory (hb : f.Bounded) (hn : f.memory.Extends n) (h : f.memory.SameMaintenance n)
    (hbase : Inside base) {fresh : List Candidate} (hf : f.freshCandidates va base asid = .ok fresh) :
    ∃ later, (f.inMemory n).freshCandidates va base asid = .ok (fresh ++ later) := by
  obtain ⟨later, htimes⟩ := walkTimes_inMemory hb hn
  obtain ⟨fresh', hfresh, heq⟩ := mapM_alike (R := Eq) (g := walkAt n va base asid) (fun t ht c hc => by
    rw [walkAt_eq hn h (mem_walkTimes.mp ht).2]
    exact ⟨c, hc, rfl⟩) hf
  rw [List.forall₂_eq_eq_eq] at heq
  subst heq
  have hlands : ∀ t ∈ later, ∃ c, walkAt n va base asid t = .ok c := by
    intro t _
    obtain ⟨w, hw⟩ := exists_walkFrom va (fun _ pa => ((n.cut t).latest pa).value) 3 hbase
    exact ⟨_, bind_eq_ok.mpr ⟨w, hw, rfl⟩⟩
  obtain ⟨cs, hcs⟩ := exists_mapM_eq_ok.mpr hlands
  refine ⟨cs, ?_⟩
  rw [freshCandidates_eq, htimes, List.mapM_append]
  simp only [inMemory, bind_eq_ok, pure_eq_ok]
  exact ⟨fresh, hfresh, cs, hcs, rfl⟩

/-- The candidates for one value of the table register, in a memory that goes on: the same, and then walks of it. -/
theorem candidatesOf_inMemory (hb : f.Bounded) (hn : f.memory.Extends n) (h : f.memory.SameMaintenance n) {r : Reg}
    {cs : List Candidate} (hcs : f.candidatesOf va r = .ok cs) :
    ∃ later, (f.inMemory n).candidatesOf va r = .ok (cs ++ later) ∧ ∀ d ∈ later,
      (f.inMemory n).IsFresh va (Register.tableBase r.value) (Register.addressSpace r.value) d := by
  simp only [candidatesOf, bind_eq_ok, pure_eq_ok] at hcs ⊢
  obtain ⟨cached, hcached, fresh, hfresh, rfl⟩ := hcs
  obtain ⟨later, hlater⟩ := freshCandidates_inMemory hb hn h (inside_tableBase r.value) hfresh
  have hcached' := (cachedCandidates_inMemory h).trans hcached
  refine ⟨later, ⟨cached, hcached', fresh ++ later, hlater, by rw [List.append_assoc]⟩, ?_⟩
  intro d hd
  exact (mem_freshCandidates hlater).mp (List.mem_append_right _ hd)

/-- A walk that reads the same as another, in the same address space, is offered for both values of the table
register. -/
theorem exists_twin {r r' : Reg} {cs : List Candidate} (hcs : f.candidatesOf va r = .ok cs) {c d : Candidate}
    (hc : f.IsCached va (Register.tableBase r'.value) (Register.addressSpace r'.value) c ∨
      f.IsFresh va (Register.tableBase r'.value) (Register.addressSpace r'.value) c)
    (hd : (f.inMemory n).IsFresh va (Register.tableBase r.value) (Register.addressSpace r.value) d)
    (hkey : d.key = c.key) : ∃ c' ∈ cs, c'.key = c.key := by
  obtain ⟨_, -, u, hu, rfl⟩ := hd
  have twin {w : Walk} {time : View} {read : Level → Int → Int}
      (hw : c = .of f.memory va time (Register.tableBase r'.value) (Register.addressSpace r'.value) w)
      (hread : walk va (Register.tableBase r'.value) read = .ok w) :
      Register.addressSpace r.value = Register.addressSpace r'.value ∧
        walk va (Register.tableBase r.value) read = .ok w := by
    obtain ⟨hasid, -, hw'⟩ := Candidate.walk_of_key (inside_tableBase r.value) (inside_tableBase r'.value) hu hread
      (hkey.trans (congrArg Candidate.key hw))
    exact ⟨hasid, hw'⟩
  simp only [candidatesOf, bind_eq_ok, pure_eq_ok] at hcs
  obtain ⟨cached, hcached, fresh, hfresh, rfl⟩ := hcs
  rcases hc with ⟨line, hline, htag, w, hw, hleaf, hc⟩ | ⟨t, ht, w, hw, hc⟩
  · obtain ⟨hasid, hw'⟩ := twin hc hw
    rw [← hasid] at htag hleaf
    have hmem := (mem_cachedCandidates hcached).mpr ⟨line, hline, htag, w, hw', hleaf, rfl⟩
    refine ⟨_, List.mem_append_left _ hmem, ?_⟩
    rw [hc, hasid]
    rfl
  · obtain ⟨hasid, hw'⟩ := twin hc hw
    have hmem := (mem_freshCandidates hfresh).mpr ⟨t, ht, w, hw', rfl⟩
    refine ⟨_, List.mem_append_right _ hmem, ?_⟩
    rw [hc, hasid]
    rfl

/-- Without new maintenance, every walk that may be taken may still be taken once memory has grown. -/
theorem walkCandidates_inMemory (hb : f.Bounded) (hn : f.memory.Extends n) (h : f.memory.SameMaintenance n)
    {cs : List Candidate} (hcs : f.walkCandidates va = .ok cs) {c : Candidate} (hc : c ∈ cs) :
    ∃ ds, (f.inMemory n).walkCandidates va = .ok ds ∧ c ∈ ds := by
  obtain ⟨_, _, r', -, hc'⟩ := mem_walkCandidates hcs hc
  obtain ⟨held, found, hheld, hfound, rfl⟩ := walkCandidates_eq_ok.mp hcs
  obtain ⟨found', hfound', hlater⟩ := mapM_alike (g := (f.inMemory n).candidatesOf va)
    (R := fun cs ds => ∃ later, ds = cs ++ later ∧
      ∀ d ∈ later, decide (d.key = c.key) = true → ∃ c' ∈ cs, decide (c'.key = c.key) = true) (fun r _ cs hcs => by
    obtain ⟨later, hds, hfresh⟩ := candidatesOf_inMemory hb hn h hcs
    refine ⟨_, hds, later, rfl, ?_⟩
    intro d hd hkey
    obtain ⟨c', hmem, hkey'⟩ := exists_twin hcs hc' (hfresh d hd) (of_decide_eq_true hkey)
    exact ⟨c', hmem, decide_eq_true hkey'⟩) hfound
  refine ⟨_, walkCandidates_eq_ok.mpr ⟨held, found', hheld, hfound', rfl⟩, ?_⟩
  rw [Candidate.mem_distinct] at hc ⊢
  rw [find?_flatten_of_forall₂ hlater]
  exact hc

end Frame

end Litmus
