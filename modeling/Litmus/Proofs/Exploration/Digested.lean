import Litmus.Exploration.Digest
import Litmus.Proofs.Exploration.Complete
import Litmus.Proofs.Exploration.Settled
import Litmus.Proofs.Paging.Cache
import Litmus.Proofs.Value.Canonical

/-!
What digests are taken of tells what they are of. Each part of a state has a value from which it can be told again, fields
by their names and tables by what they have for each key; and the text of a value tells the value. Main facts: states that
one program reaches have the same text exactly when they are the same but for the order of caches; and what is left of two
runs has the same text only if it is the same.
-/

namespace Litmus

open Paging (Maintenance Scope)

namespace Value

/-- Whether things can be told from the canonical texts of their values. -/
structure Tells {α : Type} (f : α → Value) : Prop where
  plain : ∀ a, (f a).Plain
  injective : Function.Injective f

namespace Tells

variable {α κ : Type} {f : α → Value} {key : κ → Value}

theorem eq_of_canonical_eq (h : Tells f) {a b : α} (he : (f a).canonical = (f b).canonical) : a = b :=
  h.injective ((h.plain a).eq_of_canonical_eq (h.plain b) he)

theorem count : Tells Value.count := ⟨.count, fun _ _ => Value.count.inj⟩

theorem natCount : Tells fun (n : Nat) => Value.count n := ⟨fun _ => .count _, fun _ _ h => Int.ofNat.inj (Value.count.inj h)⟩

theorem byte : Tells fun (b : UInt8) => Value.count b.toNat :=
  ⟨fun _ => .count _, fun _ _ h => UInt8.toNat_inj.mp (natCount.injective h)⟩

theorem big : Tells Value.big := ⟨.big, fun _ _ => Value.big.inj⟩

theorem text : Tells Value.text := ⟨.text, fun _ _ => Value.text.inj⟩

theorem list (h : Tells f) : Tells fun (l : List α) => .list (l.map f) where
  plain _ := .list (List.forall_mem_map.mpr fun a _ => h.plain a)
  injective _ _ he := List.map_injective_iff.mpr h.injective (Value.list.inj he)

/-- Pairs can be told if both of their sides can. -/
theorem entries (hkey : Tells key) (h : Tells f) : Tells (Value.entries key f) := by
  refine Tells.list (f := fun (k, a) => Value.list [key k, f a]) ⟨?_, ?_⟩
  · rintro ⟨k, a⟩
    refine .list ?_
    simp [hkey.plain k, h.plain a]
  · rintro ⟨k, a⟩ ⟨k', a'⟩ he
    simp only [Value.list.injEq, List.cons.injEq, and_true] at he
    rw [hkey.injective he.1, h.injective he.2]

/-- Registers can be told whatever order they come in. -/
theorem registers (h : Tells f) : Tells (Registers.toValue f) where
  plain r := (text.entries h).plain _
  injective r r' he := by
    have hsorted := (text.entries h).injective he
    have hperm (r : Registers α) : (Text.sortByName r.toList).Perm r.toList := List.mergeSort_perm _ _
    exact Std.ExtTreeMap.ext_toList ((hperm r).symm.trans (hsorted ▸ hperm r'))

theorem table {α : Type} {key : Int → Value} {f : α → Value} (hkey : Tells key) (h : Tells f) :
    Tells fun (t : Table α) => .entries key f t.toList where
  plain _ := (hkey.entries h).plain _
  injective _ _ he := Std.ExtTreeMap.toList_inj.mp ((hkey.entries h).injective he)

end Tells

end Value

open Value (Tells bigMark)

/-! ### Parts of states -/

theorem Views.tells_toValue : Tells Views.toValue where
  plain v := by
    have name (c : Counter) : c.text ≠ bigMark := by cases c <;> decide
    exact .record (List.forall_mem_map.mpr fun c _ => name c) (List.forall_mem_map.mpr fun c _ => .count _)
  injective v w h := by
    have hget (c : Counter) : v.get c = w.get c := by
      have hc : c ∈ Counter.all := by cases c <;> decide
      have hentry := List.map_inj_left.mp (Value.record.inj h) c hc
      exact Value.count.inj (Prod.mk.inj hentry).2
    cases v
    cases w
    simp only [Views.mk.injEq]
    exact ⟨hget .reads, hget .writes, hget .storeBarrier, hget .barrier, hget .syncBarrier, hget .speculation,
      hget .contextSync, hget .maintenance, hget .systemWrites, hget .acquires, hget .releases⟩

theorem Paging.Maintenance.tells_toValue : Tells Maintenance.toValue where
  plain m := by cases m <;> exact .record (by simp [bigMark]) (by simp)
  injective m n h := by cases m <;> cases n <;> simp_all [toValue, Scope.text]

theorem Event.tells_toValue : Tells Event.toValue where
  plain e := by
    cases e with
    | write => exact .record (by simp [bigMark]) (by simp)
    | maintain tid m => exact .record (by simp [bigMark]) (by simp [Maintenance.tells_toValue.plain m])
  injective e e' h := by
    cases e <;> cases e' <;> simp [toValue] at h ⊢
    · exact h
    · exact ⟨h.1, Maintenance.tells_toValue.injective h.2⟩

theorem Reg.tells_toValue : Tells Reg.toValue where
  plain _ := .record (by simp [bigMark]) (by simp)
  injective r r' h := by
    cases r
    cases r'
    simpa [toValue] using h

theorem SystemWrite.tells_toValue : Tells SystemWrite.toValue where
  plain _ := .record (by simp [bigMark]) (by simp)
  injective w w' h := by
    obtain ⟨reg, value, view⟩ := w
    obtain ⟨reg', value', view'⟩ := w'
    simpa [toValue] using h

theorem Forward.tells_toValue : Tells Forward.toValue where
  plain _ := .record (by simp [bigMark]) (by simp)
  injective f f' h := by
    cases f
    cases f'
    simpa [toValue] using h

theorem Monitor.tells_toValue : Tells Monitor.toValue where
  plain m := by
    cases m with
    | none => exact .null
    | some m => exact .record (by simp [bigMark]) (by simp)
  injective m m' h := by
    cases m <;> cases m' <;> simp [toValue] at h ⊢
    next m m' =>
      cases m
      cases m'
      simpa using h

/-- Caches have the same texts exactly when they have the same lines. -/
theorem Paging.Cache.describe_eq_iff_inOrder_eq {c d : Cache} : c.describe = d.describe ↔ c.inOrder = d.inOrder := by
  rw [describe_eq_iff]
  constructor
  · intro h
    refine inOrder_eq_of_alike fun l => ?_
    rw [← mem_tuples, h, mem_tuples]
  · intro h
    ext l
    rw [mem_tuples, mem_tuples, alike_of_inOrder_eq h l]

theorem Slot.plain_toValue (slot : Slot) : slot.toValue.Plain := by
  refine .record (by simp [bigMark]) ?_
  simp only [List.forall_mem_cons, Value.Plain.count, true_and]
  refine ⟨Tells.natCount.list.plain _, Tells.count.list.plain _, Reg.tells_toValue.registers.plain _,
    SystemWrite.tells_toValue.list.plain _, (Tells.table .big .count).plain slot.thread.coherence,
    Views.tells_toValue.plain _, (Tells.table .big Forward.tells_toValue).plain slot.thread.forwards,
    Monitor.tells_toValue.plain _, (Tells.table .count .natCount).plain slot.thread.issued, Tells.text.list.plain _, ?_⟩
  exact List.forall_mem_nil _

/-- Slots have the same value exactly when they have the same description. -/
theorem Slot.toValue_eq_iff {a b : Slot} : a.toValue = b.toValue ↔ a.describe = b.describe := by
  simp only [toValue, Value.record.injEq, List.cons.injEq, Prod.mk.injEq, true_and, and_true, describe, describeWith,
    Description.mk.injEq]
  constructor
  · rintro ⟨hpc, hpromised, hpromises, hregs, hhistory, hsync, hcoherence, hviews, hforwards, hmonitor, hissued, hcache⟩
    exact ⟨Tells.natCount.injective hpc, Tells.natCount.list.injective hpromised, Tells.count.list.injective hpromises,
      Views.tells_toValue.injective hviews, Reg.tells_toValue.registers.injective hregs,
      SystemWrite.tells_toValue.list.injective hhistory, Tells.natCount.injective hsync,
      (Tells.table .big .count).injective hcoherence, (Tells.table .big Forward.tells_toValue).injective hforwards,
      Monitor.tells_toValue.injective hmonitor, (Tells.table .count .natCount).injective hissued,
      Paging.Cache.describe_eq_iff_inOrder_eq.mp (Tells.text.list.injective hcache)⟩
  · rintro ⟨hpc, hpromised, hpromises, hviews, hregs, hhistory, hsync, hcoherence, hforwards, hmonitor, hissued, hcache⟩
    rw [hpc, hpromised, hpromises, hviews, hregs, hhistory, hsync, hcoherence, hforwards, hmonitor, hissued,
      Paging.Cache.describe_eq_iff_inOrder_eq.mpr hcache]
    exact ⟨rfl, rfl, rfl, rfl, rfl, rfl, rfl, rfl, rfl, rfl, rfl, rfl⟩

/-! ### States -/

theorem State.plain_toValue (s : State) : s.toValue.Plain := by
  refine .record (by simp [bigMark]) ?_
  simp only [List.forall_mem_cons]
  exact ⟨Event.tells_toValue.list.plain _, .list (List.forall_mem_map.mpr fun slot _ => slot.plain_toValue),
    List.forall_mem_nil _⟩

/-- A whole memory shows all of its events. -/
theorem Memory.Whole.shown_eq {m : Memory} (hm : m.Whole) : m.shown = m.events := by
  rw [shown, entries, hm.1, hm.2, List.take_length, List.drop_zero, List.map_map]
  exact List.zipIdx_map_fst _ _

/-- Lists are the same by one measure exactly when they are by the other, if that is so of what is in them. -/
theorem map_eq_map_iff_of_forall {α β γ : Type} {f : α → β} {g : α → γ} (h : ∀ a b, f a = f b ↔ g a = g b) :
    ∀ as bs : List α, as.map f = bs.map f ↔ as.map g = bs.map g
  | [], [] => by simp
  | [], _ :: _ => by simp
  | _ :: _, [] => by simp
  | a :: as, b :: bs => by simp [h a b, map_eq_map_iff_of_forall h as bs]

theorem State.toValue_eq_iff {s t : State} (hs : s.memory.Whole) (ht : t.memory.Whole) : s.toValue = t.toValue ↔
    s.memory.events = t.memory.events ∧ s.threads.map Slot.describe = t.threads.map Slot.describe := by
  simp only [toValue, Value.record.injEq, List.cons.injEq, Prod.mk.injEq, true_and, and_true, Value.list.injEq]
  rw [hs.shown_eq, ht.shown_eq, List.map_inj_right fun _ _ h => Event.tells_toValue.injective h,
    map_eq_map_iff_of_forall fun a b => Slot.toValue_eq_iff]

theorem Final.tells_toValue : Tells Final.toValue where
  plain f := by
    refine .record (by simp [bigMark]) ?_
    simp only [List.forall_mem_cons]
    exact ⟨(Tells.table .big .byte).plain f.memory, (Tells.big.registers.list).plain _, List.forall_mem_nil _⟩
  injective f g h := by
    simp only [toValue, Value.record.injEq, List.cons.injEq, Prod.mk.injEq, true_and, and_true] at h
    have hmemory : f.memory = g.memory := (Tells.table .big .byte).injective h.1
    have hregs : f.regs = g.regs := Tells.big.registers.list.injective h.2
    cases f
    cases g
    cases hmemory
    cases hregs
    rfl

/-- What the text of a state tells of two slots that have the same place in it. -/
structure Slot.Same (a b : Slot) : Prop where
  pc : a.pc = b.pc
  promised : a.promised = b.promised
  promises : a.thread.promises = b.thread.promises
  regs : a.thread.regs = b.thread.regs
  history : a.thread.history = b.thread.history
  syncPoint : a.thread.syncPoint = b.thread.syncPoint
  coherence : a.thread.coherence = b.thread.coherence
  views : a.thread.views = b.thread.views
  forwards : a.thread.forwards = b.thread.forwards
  monitor : a.thread.monitor = b.thread.monitor
  issued : a.thread.issued = b.thread.issued
  lines : ∀ l, l ∈ a.thread.cache.lines ↔ l ∈ b.thread.cache.lines

theorem Slot.same_of_describe {a b : Slot} (h : a.describe = b.describe) : a.Same b where
  pc := congrArg Description.pc h
  promised := congrArg Description.promised h
  promises := congrArg Description.promises h
  regs := congrArg Description.regs h
  history := congrArg Description.history h
  syncPoint := congrArg Description.syncPoint h
  coherence := congrArg Description.coherence h
  views := congrArg Description.views h
  forwards := congrArg Description.forwards h
  monitor := congrArg Description.monitor h
  issued := congrArg Description.issued h
  lines := Paging.Cache.alike_of_inOrder_eq (congrArg Description.cache h)

/-- States that a program reaches have the same text exactly when they have the same events and descriptions of slots. -/
theorem State.canonical_eq_iff {p : Program} {s t : State} (hs : p.Reaches s) (ht : p.Reaches t) :
    s.toValue.canonical = t.toValue.canonical ↔
      s.memory.events = t.memory.events ∧ s.threads.map Slot.describe = t.threads.map Slot.describe := by
  obtain ⟨_, rs⟩ := Program.reaches_iff.mp hs
  obtain ⟨_, rt⟩ := Program.reaches_iff.mp ht
  rw [← State.toValue_eq_iff rs.fits.whole rt.fits.whole]
  exact ⟨s.plain_toValue.eq_of_canonical_eq t.plain_toValue, congrArg Value.canonical⟩

/-- They have the same text exactly when they are the same once settled. -/
theorem State.canonical_eq_iff_settled_eq {p : Program} {s t : State} (hs : p.Reaches s) (ht : p.Reaches t) :
    s.toValue.canonical = t.toValue.canonical ↔ s.settled = t.settled :=
  (canonical_eq_iff hs ht).trans (settled_eq_iff hs ht).symm

/-- Of states that a program reaches, the texts that digests are taken of are the same exactly when the states are but for
the order of caches. Then the states have the same events, and their threads agree in all that tells them apart, and cache
the same walks. What is left of two runs has the same text only if it is the same: images with the same bytes, absent ones
too, and the same registers for each thread. -/
theorem Program.digested_tells (p : Program) :
    (∀ s t, p.Reaches s → p.Reaches t →
      (s.toValue.canonical = t.toValue.canonical ↔ s.settled = t.settled) ∧
      (s.toValue.canonical = t.toValue.canonical →
        s.memory.events = t.memory.events ∧ s.threads.length = t.threads.length ∧
        ∀ (tid : Nat) (a b : Slot), s.threads[tid]? = some a → t.threads[tid]? = some b → a.Same b)) ∧
    ∀ f g : Final, f.toValue.canonical = g.toValue.canonical → f.memory = g.memory ∧ f.regs = g.regs := by
  constructor
  · intro s t hs ht
    refine ⟨State.canonical_eq_iff_settled_eq hs ht, ?_⟩
    intro htext
    obtain ⟨hevents, hslots⟩ := (State.canonical_eq_iff hs ht).mp htext
    refine ⟨hevents, by simpa using congrArg List.length hslots, ?_⟩
    intro tid a b ha hb
    have hdescribe := congrArg (·[tid]?) hslots
    simp only [List.getElem?_map, ha, hb, Option.map_some, Option.some.injEq] at hdescribe
    exact Slot.same_of_describe hdescribe
  · intro f g h
    obtain rfl := Final.tells_toValue.eq_of_canonical_eq h
    exact ⟨rfl, rfl⟩

/-- A thread stores to a cell, and another moves a value into a register whose name has to be escaped. -/
def storeBesideMove : Program where
  threads := [
    { code := [Shape.store "X1" "X2" .plain], regs := .ofList [("X1", (-1 : Int)), ("X2", 8)] },
    { code := [Shape.movImm "\"X\\" (-6)] }]

/-- In whichever order the threads run, the states have the same text; and so have images with the same cells, in whichever
order they were written. -/
theorem digested_tells_storeBesideMove : ∃ s t, storeBesideMove.Reaches s ∧ storeBesideMove.Reaches t ∧
    s.memory.events = [.write 0 8 (-1)] ∧ s.toValue.canonical = t.toValue.canonical ∧
    s.settled = t.settled ∧ s.memory.events = t.memory.events ∧ s.threads.length = t.threads.length ∧
    (∀ (tid : Nat) (a b : Slot), s.threads[tid]? = some a → t.threads[tid]? = some b → a.Same b) ∧
    ∃ f g : Final, f.toValue.canonical = g.toValue.canonical ∧ f.memory = g.memory ∧ f.regs = g.regs := by
  have paths : ((storeBesideMove.start.follow storeBesideMove {} [0, 0]).any fun s =>
      s.memory.events = [.write 0 8 (-1)] &&
        (storeBesideMove.start.follow storeBesideMove {} [1, 0]).any fun t =>
          s.toValue.canonical = t.toValue.canonical) = true := by decide +kernel
  simp only [Option.any_eq_true, Bool.and_eq_true, decide_eq_true_eq] at paths
  obtain ⟨s, hs, hevents, t, ht, htext⟩ := paths
  obtain ⟨hstates, hfinals⟩ := Program.digested_tells storeBesideMove
  have hs : storeBesideMove.Reaches s := State.reaches_of_follow .refl hs
  have ht : storeBesideMove.Reaches t := State.reaches_of_follow .refl ht
  obtain ⟨hsettled, htells⟩ := hstates s t hs ht
  obtain ⟨hsame, hlength, hslots⟩ := htells htext
  have himages : (Final.mk (.ofCells [(0, 1), (8, 2)]) []).toValue.canonical =
      (Final.mk (.ofCells [(8, 2), (0, 1)]) []).toValue.canonical := by decide +kernel
  exact ⟨s, t, hs, ht, hevents, htext, hsettled.mp htext, hsame, hlength, hslots, _, _, himages, hfinals _ _ himages⟩

end Litmus
