import Litmus.Proofs.Exploration.Complete
import Litmus.Proofs.Exploration.Relaxed
import Litmus.Proofs.Instruction.Weaker

/-!
Strengthening a program only removes finals. A program may be strengthened by barriers put in anywhere, and by reads
and writes of stronger kinds. Main fact: whatever an exploration of the stronger program finds, one of the program
itself finds. The two run side by side, with the views of the program itself never later; where the stronger one runs
a barrier that was put in, the other waits, and where a thread of the stronger one has but such barriers left it may
still promise, which the other can match by a relaxed move.
-/

namespace Litmus

/-! ### Stronger programs -/

/-- Whether code is other code with instructions strengthened, and with barriers put in anywhere. -/
inductive Fortifies : List Instr → List Instr → Prop
  | nil : Fortifies [] []
  | keep {i i' : Instr} {code code' : List Instr} :
      i.Strengthens i' → Fortifies code code' → Fortifies (i :: code) (i' :: code')
  | dmb {kind : BarrierKind} {domain : Paging.Shareability} {code code' : List Instr} :
      domain ≠ .nsh → Fortifies code code' → Fortifies code (Shape.only (.barrier (.dmb kind domain)) :: code')
  | dsb {kind : BarrierKind} {domain : Paging.Shareability} {code code' : List Instr} :
      domain ≠ .nsh → Fortifies code code' → Fortifies code (Shape.only (.barrier (.dsb kind domain)) :: code')

/-- Whether a thread is another one with stronger code. -/
structure ThreadProgram.Fortifies (t t' : ThreadProgram) : Prop where
  code : Litmus.Fortifies t.code t'.code
  regs_eq : t.regs = t'.regs
  promisable_eq : t.promisable = t'.promisable

/-- Whether a program is another one with stronger code. -/
structure Program.Fortifies (p p' : Program) : Prop where
  cells_eq : p.cells = p'.cells
  threads : List.Forall₂ ThreadProgram.Fortifies p.threads p'.threads

theorem Instr.Strengthens.refl : ∀ i : Instr, i.Strengthens i
  | .done => .done
  | .thrown _ => .thrown
  | .ask _ next => .ask fun v => refl (next v)

/-- What a list is dropped to begins with the item at that place. -/
theorem getElem?_of_drop_eq_cons {α : Type} {l rest : List α} {n : Nat} {a : α} (h : l.drop n = a :: rest) :
    l[n]? = some a ∧ l.drop (n + 1) = rest := by
  rw [← List.head?_drop, ← List.tail_drop, h]
  exact ⟨rfl, rfl⟩

/-- What fortified code begins with strengthens the first instruction, or it is a barrier that was put in: frames that
are below before it runs are below after it. -/
theorem Fortifies.cons_cases {code code' : List Instr} {i' : Instr} (h : Fortifies code (i' :: code')) :
    (∃ i rest, code = i :: rest ∧ i.Strengthens i' ∧ Fortifies rest code') ∨
      Fortifies code code' ∧ ∀ (f g g' : Frame) (as : List Action), i'.Runs g as g' → f.Below g → f.Below g' := by
  cases h with
  | keep hi hcode => exact .inl ⟨_, _, rfl, hi, hcode⟩
  | dmb _ hcode =>
    refine .inr ⟨hcode, ?_⟩
    intro f g g' as r h
    cases r with | ask hs r =>
    cases r
    cases hs
    exact ⟨h.memory_eq, h.thread.raise_right _ _, h.scratch⟩
  | dsb _ hcode =>
    refine .inr ⟨hcode, ?_⟩
    intro f g g' as r h
    cases r with | ask hs r =>
    cases r
    cases hs
    exact ⟨h.memory_eq, h.thread.raise_right _ _, h.scratch⟩

/-! ### States side by side -/

/-- Whether one slot is at the place of another one in the weaker code, and none of its views is later. -/
structure Slot.Below (t t' : ThreadProgram) (a b : Slot) : Prop where
  code : Fortifies (t.code.drop a.pc) (t'.code.drop b.pc)
  promised_eq : a.promised = b.promised
  thread : a.thread.Below b.thread

/-- Whether the slots of one state are below those of another one, and memory is the same. -/
structure State.Below (p p' : Program) (s s' : State) : Prop where
  memory_eq : s.memory = s'.memory
  length_eq : s.threads.length = s'.threads.length
  slots : ∀ (tid : Nat) (a b : Slot), s.threads[tid]? = some a → s'.threads[tid]? = some b →
    ∃ t t', p.threads[tid]? = some t ∧ p'.threads[tid]? = some t' ∧ a.Below t t' b

/-- A promise that can be made under later views can be made under earlier ones. -/
theorem Frame.Below.promiseWrite {f g g' : Frame} {loc value : Int} {time : View} (h : f.Below g)
    (hg : g.promiseWrite loc value = .ok (g', time)) :
    ∃ f', f.promiseWrite loc value = .ok (f', time) ∧ f'.Below g' := by
  simp only [Frame.promiseWrite, bind_eq_ok, pure_eq_ok, Prod.mk.injEq, Prod.exists] at hg ⊢
  obtain ⟨l, hl, m, t, hp, rfl, rfl⟩ := hg
  rw [← h.thread.tid_eq, ← h.memory_eq] at hp
  exact ⟨_, ⟨l, hl, m, _, hp, rfl, rfl⟩, rfl, h.thread.pushPromise _, h.scratch⟩

namespace State.Below

variable {p p' : Program} {s s' u' : State} {tid : Nat} {t' : ThreadProgram} {b : Slot}

theorem start (hp : p.Fortifies p') : p.start.Below p p' p'.start where
  memory_eq := by
    have : p.image = p'.image := by rw [Program.image, Program.image, hp.cells_eq]
    exact congrArg Memory.ofImage this
  length_eq := by simp [Program.start, hp.threads.length_eq]
  slots tid a b ha hb := by
    rw [Program.threads_start, Option.map_eq_some_iff] at ha hb
    obtain ⟨t, ht, rfl⟩ := ha
    obtain ⟨t', ht', rfl⟩ := hb
    have hthread := rel_getElem? hp.threads tid
    rw [ht, ht'] at hthread
    cases hthread with
    | some h => exact ⟨t, t', ht, ht', h.code, rfl, h.regs_eq ▸ .start _ _⟩

/-- What a thread of the stronger state is at, a thread of the other is at as well. -/
theorem exists_slot (hp : p.Fortifies p') (h : s.Below p p' s') (ht' : p'.threads[tid]? = some t')
    (hb : s'.threads[tid]? = some b) : ∃ t a, p.threads[tid]? = some t ∧ t.Fortifies t' ∧ s.threads[tid]? = some a ∧
      a.Below t t' b := by
  have hlt : tid < s.threads.length := h.length_eq ▸ (List.getElem?_eq_some_iff.mp hb).1
  have ha := List.getElem?_eq_getElem hlt
  obtain ⟨t, u, ht, hu, hab⟩ := h.slots tid _ b ha hb
  rw [ht'] at hu
  cases hu
  have hthread := rel_getElem? hp.threads tid
  rw [ht, ht'] at hthread
  cases hthread with
  | some hcode => exact ⟨t, _, ht, hcode, ha, hab⟩

/-- What a thread is at, a thread of the stronger state is at as well. -/
theorem exists_above (h : s.Below p p' s') {a : Slot} (ha : s.threads[tid]? = some a) :
    ∃ t t' b, p.threads[tid]? = some t ∧ p'.threads[tid]? = some t' ∧ s'.threads[tid]? = some b ∧ a.Below t t' b := by
  have hlt : tid < s'.threads.length := h.length_eq ▸ (List.getElem?_eq_some_iff.mp ha).1
  have hb := List.getElem?_eq_getElem hlt
  obtain ⟨t, t', ht, ht', hab⟩ := h.slots tid a _ ha hb
  exact ⟨t, t', _, ht, ht', hb, hab⟩

theorem withSlot (h : s.Below p p' s') {t : ThreadProgram} {a a' b' : Slot} {m m' : Memory}
    (ht : p.threads[tid]? = some t) (ht' : p'.threads[tid]? = some t') (ha : s.threads[tid]? = some a)
    (hb : s'.threads[tid]? = some b) (hm : m = m') (hnew : a'.Below t t' b') :
    (s.withSlot tid a' m).Below p p' (s'.withSlot tid b' m') where
  memory_eq := hm
  length_eq := by simp [State.withSlot, h.length_eq]
  slots i c d hc hd := by
    rw [getElem?_withSlot ha] at hc
    rw [getElem?_withSlot hb] at hd
    split at hc
    · next e =>
      subst e
      rw [if_pos rfl] at hd
      cases hc
      cases hd
      exact ⟨t, t', ht, ht', hnew⟩
    · next e =>
      rw [if_neg e] at hd
      exact h.slots i c d hc hd

/-- The frames in which the threads of both run their next instructions. -/
theorem frame (h : s.Below p p' s') {t t' : ThreadProgram} {a b : Slot} (hab : a.Below t t' b) :
    Frame.Below { thread := a.thread, memory := s.memory } { thread := b.thread, memory := s'.memory } :=
  ⟨h.memory_eq, hab.thread, .start⟩

/-- When the stronger program runs an instruction, the other runs the one that was strengthened, or it waits if the
instruction is a barrier that was put in. -/
theorem run (hp : p.Fortifies p') (hu : ∀ t ∈ p.threads, ∀ i ∈ t.code, i.Untranslated) (h : s.Below p p' s')
    {i' : Instr} {as : List Action} {g : Frame} (ht' : p'.threads[tid]? = some t') (hb : s'.threads[tid]? = some b)
    (hi : t'.code[b.pc]? = some i') (hr : i'.Runs { thread := b.thread, memory := s'.memory } as g) :
    ∃ u, Relation.ReflTransGen (State.RelaxedMove p) s u ∧
      u.Below p p' (s'.withSlot tid { b with pc := b.pc + 1, thread := g.thread } g.memory) := by
  obtain ⟨t, a, ht, -, ha, hab⟩ := h.exists_slot hp ht' hb
  have hcode := hab.code
  obtain ⟨hlt, rfl⟩ := List.getElem?_eq_some_iff.mp hi
  rw [List.drop_eq_getElem_cons hlt] at hcode
  rcases hcode.cons_cases with ⟨i, rest, hdrop, hstrong, hrest⟩ | ⟨hrest, hbarrier⟩
  · obtain ⟨hi, rfl⟩ := getElem?_of_drop_eq_cons hdrop
    obtain ⟨bs, f, hr, hf⟩ := hstrong.weaken (hu t (List.mem_of_getElem? ht) i (List.mem_of_getElem? hi)) hr (h.frame hab)
    exact ⟨_, .single (.run ht ha hi hr.relaxed), h.withSlot ht ht' ha hb hf.memory_eq ⟨hrest, hab.promised_eq, hf.thread⟩⟩
  · have hf := hbarrier _ _ _ _ hr (h.frame hab)
    have hself : s.withSlot tid a s.memory = s := by
      obtain ⟨-, rfl⟩ := List.getElem?_eq_some_iff.mp ha
      rw [State.withSlot, List.set_getElem_self]
    refine ⟨s, .refl, ?_⟩
    rw [← hself]
    exact h.withSlot ht ht' ha hb hf.memory_eq ⟨hrest, hab.promised_eq, hf.thread⟩

/-- When the stronger program makes a promise, the other makes it too, although it may have no instruction left. -/
theorem promise (hp : p.Fortifies p') (h : s.Below p p' s') {w : (Int × Int) × Nat} {g : Frame} {time : View}
    (ht' : p'.threads[tid]? = some t') (hb : s'.threads[tid]? = some b) (hw : w ∈ t'.unpromised b.promised)
    (hg : Frame.promiseWrite { thread := b.thread, memory := s'.memory } w.1.1 w.1.2 = .ok (g, time)) :
    ∃ u, Relation.ReflTransGen (State.RelaxedMove p) s u ∧
      u.Below p p' (s'.withSlot tid { b with promised := b.promised ++ [w.2], thread := g.thread } g.memory) := by
  obtain ⟨t, a, ht, hcode, ha, hab⟩ := h.exists_slot hp ht' hb
  obtain ⟨f, hpromise, hf⟩ := (h.frame hab).promiseWrite hg
  rw [ThreadProgram.unpromised, ← hcode.promisable_eq, ← hab.promised_eq] at hw
  refine ⟨_, .single (.promise ht ha hw hpromise), h.withSlot ht ht' ha hb hf.memory_eq ?_⟩
  exact ⟨hab.code, congrArg (· ++ [w.2]) hab.promised_eq, hf.thread⟩

/-- A move of the stronger program is a relaxed move of the other, or none at all. -/
theorem move (hp : p.Fortifies p') (hu : ∀ t ∈ p.threads, ∀ i ∈ t.code, i.Untranslated) (h : s.Below p p' s')
    (hmove : s'.Move p' u') : ∃ u, Relation.ReflTransGen (State.RelaxedMove p) s u ∧ u.Below p p' u' := by
  obtain ⟨d, hd⟩ := State.move_iff.mp hmove
  cases hd with
  | run ht' hb hi hr => exact h.run hp hu ht' hb hi hr
  | promise ht' hb _ hw hg => exact h.promise hp ht' hb hw hg

/-- Where nothing is left of the stronger code, nothing is left of the other. -/
theorem finished (h : s.Below p p' s') (hend : s'.Finished p') : s.Finished p := by
  intro tid t a ht ha
  obtain ⟨u, t', b, hu, ht', hb, hab⟩ := h.exists_above ha
  rw [ht] at hu
  cases hu
  have hcode := hab.code
  rw [List.drop_eq_nil_of_le (hend tid t' b ht' hb)] at hcode
  cases hdrop : t.code.drop a.pc with
  | nil => exact List.drop_eq_nil_iff.mp hdrop
  | cons =>
    rw [hdrop] at hcode
    cases hcode

theorem fulfilled (h : s.Below p p' s') (hend : s'.Fulfilled) : s.Fulfilled := by
  intro a ha
  obtain ⟨tid, ha⟩ := List.mem_iff_getElem?.mp ha
  obtain ⟨t, t', b, -, -, hb, hab⟩ := h.exists_above ha
  rw [hab.thread.promises_eq]
  exact hend b (List.mem_of_getElem? hb)

/-- The same is left of both: views are no part of it. -/
theorem final_eq (h : s.Below p p' s') : s.final = s'.final := by
  have hregs : s.threads.map (fun slot => slot.thread.plainRegs) = s'.threads.map fun slot => slot.thread.plainRegs := by
    refine List.ext_getElem (by simp [h.length_eq]) ?_
    intro tid hlt hlt'
    rw [List.getElem_map, List.getElem_map]
    rw [List.length_map] at hlt hlt'
    obtain ⟨t, t', -, -, hab⟩ := h.slots tid _ _ (List.getElem?_eq_getElem hlt) (List.getElem?_eq_getElem hlt')
    exact hab.thread.plainRegs_eq
  rw [State.final, State.final, h.memory_eq, hregs]

end State.Below

/-- Whatever state the stronger program reaches, the other reaches one below it by relaxed moves. -/
theorem Program.Fortifies.exists_below {p p' : Program} {s' : State} (hp : p.Fortifies p')
    (hu : ∀ t ∈ p.threads, ∀ i ∈ t.code, i.Untranslated) (hs : p'.Reaches s') :
    ∃ s, p.RelaxedReaches s ∧ s.Below p p' s' := by
  induction hs with
  | refl => exact ⟨_, .refl, .start hp⟩
  | tail _ hmove ih =>
    obtain ⟨s, hs, h⟩ := ih
    obtain ⟨u, hmoves, hbelow⟩ := h.move hp hu hmove
    exact ⟨u, hs.trans hmoves, hbelow⟩

/-- Strengthening a program only removes finals. Whatever an exploration finds of a program with barriers put in and
with reads and writes of raised kinds, one of the program itself finds, if no instruction fetches or walks tables. -/
theorem mem_finals_of_fortifies {p p' : Program} {o o' : Options} {r r' : Explored} (hp : p.Fortifies p')
    (hu : ∀ t ∈ p.threads, ∀ i ∈ t.code, i.Untranslated) (h : (explore p o).result = .ok r)
    (h' : (explore p' o').result = .ok r') {f : Final} (hf : f ∈ r'.finals) : f ∈ r.finals := by
  obtain ⟨s', hs', hend', hful', hfinal'⟩ := exists_reaches_of_mem_finals h' hf
  obtain ⟨s, hs, hbelow⟩ := hp.exists_below hu hs'
  have hful := hbelow.fulfilled hful'
  have hreached := hs.reaches_or_doomed.2.resolve_right fun hd => hd.not_fulfilled hful
  obtain ⟨g, hg, hfinal⟩ := exists_final_of_reaches h hreached (hbelow.finished hend') hful
  rw [hbelow.final_eq, hfinal'] at hfinal
  cases hfinal
  exact hg

/-! ### Loads and stores -/

namespace Shape

variable {dst src addr : String}

theorem strengthens_load {k l : ReadKind} (h : k.Raises l) (exclusive : Bool) :
    (load dst addr k exclusive).Strengthens (load dst addr l exclusive) :=
  .ask fun _ => .read h fun _ => .refl _

theorem strengthens_store {k l : WriteKind} (h : k.Raises l) : (store src addr k).Strengthens (store src addr l) :=
  .ask fun _ => .ask fun _ => .write h fun _ => .refl _

theorem untranslated_load {k : ReadKind} (h : k ≠ .fetch) (exclusive : Bool) : (load dst addr k exclusive).Untranslated :=
  .ask rfl fun _ => .ask (decide_eq_true h) fun _ => .ask rfl fun _ => .done

theorem untranslated_store (k : WriteKind) : (store src addr k).Untranslated :=
  .ask rfl fun _ => .ask rfl fun _ => .ask rfl fun _ => .done

end Shape

/-- Two threads store to a cell each and load the cell of the other, with barriers between. -/
def crossedStores (stored : WriteKind) (barriers : List Instr) (loaded : ReadKind) : Program where
  threads := [
    { code := Shape.store "X1" "X2" stored :: barriers ++ [Shape.load "X3" "X4" loaded false]
      regs := .ofList [("X1", (1 : Int)), ("X2", 0), ("X4", 8)] },
    { code := Shape.store "X1" "X2" stored :: barriers ++ [Shape.load "X3" "X4" loaded false]
      regs := .ofList [("X1", (1 : Int)), ("X2", 8), ("X4", 0)] }]

theorem mem_finals_of_fortifies_crossedStores : ∃ r r', (explore (crossedStores .plain [] .plain) {}).result = .ok r ∧
    (explore (crossedStores .release [Shape.dmb .st, Shape.dsb .sy] .acquire) {}).result = .ok r' ∧
    r.finals.length = 4 ∧ r'.finals.length = 3 ∧ ∀ f ∈ r'.finals, f ∈ r.finals := by
  have hcode : Fortifies [Shape.store "X1" "X2" .plain, Shape.load "X3" "X4" .plain false]
      [Shape.store "X1" "X2" .release, Shape.dmb .st, Shape.dsb .sy, Shape.load "X3" "X4" .acquire false] :=
    .keep (Shape.strengthens_store .release) (.dmb (by decide) (.dsb (by decide)
      (.keep (Shape.strengthens_load .acquire false) .nil)))
  have hp : (crossedStores .plain [] .plain).Fortifies (crossedStores .release [Shape.dmb .st, Shape.dsb .sy] .acquire) :=
    ⟨rfl, .cons ⟨hcode, rfl, rfl⟩ (.cons ⟨hcode, rfl, rfl⟩ .nil)⟩
  have hu : ∀ t ∈ (crossedStores .plain [] .plain).threads, ∀ i ∈ t.code, i.Untranslated := by
    simp [crossedStores, Shape.untranslated_store, Shape.untranslated_load]
  obtain ⟨r, hr, four⟩ := exists_result_of_length
    (show (explore (crossedStores .plain [] .plain) {}).result.toOption.map (·.finals.length) = some 4 by decide +kernel)
  obtain ⟨r', hr', three⟩ := exists_result_of_length
    (show (explore (crossedStores .release [Shape.dmb .st, Shape.dsb .sy] .acquire) {}).result.toOption.map
      (·.finals.length) = some 3 by decide +kernel)
  exact ⟨r, r', hr, hr', four, three, fun f hf => mem_finals_of_fortifies hp hu hr hr' hf⟩

end Litmus
