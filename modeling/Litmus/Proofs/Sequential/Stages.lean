import Litmus.Proofs.Sequential.Turns

/-!
Threads as a course of turns. What a thread of fenced code has run so far are turns at stages, on memory as
it has come to be. Main fact: in every run the stages of a thread never fall, they rise at each store, and
each event of the thread is the write of a store that it has run, or a promise that is still to be kept.
-/

namespace Litmus

/-- An instruction and the stage at which it ran. -/
structure Turn where
  op : Op
  stage : View

/-- Turns, one after the other, lead from some registers to others. -/
inductive Plays (m : Memory) (tid : Int) : List Turn → Registers Int → Registers Int → Prop
  | nil {regs : Registers Int} : Plays m tid [] regs regs
  | cons {x : Turn} {xs : List Turn} {regs mid last : Registers Int} :
      x.op.ActsAt m tid x.stage regs mid → Plays m tid xs mid last → Plays m tid (x :: xs) regs last

namespace Op

/-- What an instruction does at a stage does not change with later events. -/
theorem ActsAt.mono {op : Op} {m n : Memory} {tid : Int} {stage : View} {regs regs' : Registers Int}
    (h : op.ActsAt m tid stage regs regs') (hn : m.Extends n) (hs : stage ≤ m.length) :
    op.ActsAt n tid stage regs regs' := by
  obtain ⟨w, he, hw⟩ := h
  refine ⟨w, ?_, fun loc v h => hn.at?_eq_some (hw loc v h)⟩
  simp only [hn.latest_cut_eq hs]
  exact he

theorem Fenced.clear {code : List Op} (h : Fenced code) {pc : Nat} {op : Op} (hop : code[pc]? = some op)
    (ha : op.isAccess = true) : Clear code pc :=
  h pc (List.getElem?_eq_some_iff.mp hop).1 (by rw [hop]; exact ha)

/-- Behind an access the place is not clear, and behind anything but a full fence only if it was before. -/
theorem Clear.of_succ {code : List Op} {pc : Nat} {op : Op} (h : Clear code (pc + 1)) (hop : code[pc]? = some op) :
    op.isAccess = false ∧ (op.isFullFence = true ∨ Clear code pc) := by
  constructor
  · by_contra ha
    obtain ⟨k, hle, hlt, -⟩ := h pc (Nat.lt_succ_self pc) (by rw [hop]; simpa using ha)
    omega
  · by_cases hf : op.isFullFence = true
    · exact .inl hf
    · refine .inr ?_
      intro i hi hacc
      obtain ⟨k, hk, hik, hfence⟩ := h i (Nat.lt_succ_of_lt hi) hacc
      have hne : k ≠ pc := by
        rintro rfl
        rw [hop] at hfence
        exact hf hfence
      exact ⟨k, by omega, hik, hfence⟩

end Op

namespace Plays

variable {m n : Memory} {tid : Int} {xs : List Turn} {regs mid last : Registers Int}

theorem concat {x : Turn} (h : Plays m tid xs regs mid) (hx : x.op.ActsAt m tid x.stage mid last) :
    Plays m tid (xs ++ [x]) regs last := by
  induction h with
  | nil => exact .cons hx .nil
  | cons ha _ ih => exact .cons ha (ih hx)

theorem mono (h : Plays m tid xs regs last) (hn : m.Extends n) (hs : ∀ x ∈ xs, x.stage ≤ m.length) :
    Plays n tid xs regs last := by
  induction h with
  | nil => exact .nil
  | cons ha _ ih =>
    exact .cons (ha.mono hn (hs _ List.mem_cons_self)) (ih fun x hx => hs x (List.mem_cons_of_mem _ hx))

end Plays

/-- What the code of a thread, the turns that it has taken, its state and memory have to do with one another. -/
structure Staged (code : List Op) (turns : List Turn) (slot : Slot) (m : Memory) : Prop where
  ops_eq : turns.map Turn.op = code.take slot.pc
  plays : Plays m slot.thread.tid turns slot.thread.initial slot.thread.plainRegs
  ordered : turns.Pairwise fun x y => x.stage ≤ y.stage ∧ (y.op.isStore = true → x.stage < y.stage)
  spans : ∀ x ∈ turns, m.Spans x.stage
  counted : ∀ x ∈ turns, x.stage ≤ slot.thread.views.accesses
  events : ∀ t e, m.at? t = some e → e.tid = slot.thread.tid →
    t ∈ slot.thread.promises ∨ ∃ x ∈ turns, x.op.isStore = true ∧ x.stage = t
  fenced : Op.Clear code slot.pc → slot.thread.views.accesses ≤ slot.thread.views.fences

namespace Staged

variable {code : List Op} {turns : List Turn} {slot : Slot} {m : Memory}

theorem start (tid : Int) (regs : Registers Int) (image : Image) :
    Staged code [] { pc := 0, promised := [], thread := .start tid regs } (.ofImage image) where
  ops_eq := rfl
  plays := by
    have hregs : (Thread.start tid regs).plainRegs = regs := rfl
    rw [hregs]
    exact .nil
  ordered := .nil
  spans := nofun
  counted := nofun
  events t e he := by
    have hpos := Memory.pos_of_at? he
    have hle : t ≤ 0 := Memory.le_length_of_at? he
    lia
  fenced _ := Int.le_refl 0

/-- One more instruction is one more turn. -/
theorem run {op : Op} {f : Frame} {stage : View} (h : Staged code turns slot m) (hop : code[slot.pc]? = some op)
    (hg : Frame.Grows { thread := slot.thread, memory := m } f)
    (hr : op.RunsAt { thread := slot.thread, memory := m } f stage) :
    Staged code (turns ++ [⟨op, stage⟩]) { slot with pc := slot.pc + 1, thread := f.thread } f.memory where
  ops_eq := by rw [List.map_append, h.ops_eq, List.take_add_one, hop]; rfl
  plays := by
    have hplays := h.plays.mono hg.grown fun x hx => (h.spans x hx).2
    dsimp only
    rw [hg.tid_eq, hg.initial_eq]
    exact hplays.concat hr.acts
  ordered := by
    refine List.pairwise_append.mpr ⟨h.ordered, List.pairwise_singleton _ _, ?_⟩
    intro x hx y hy
    rw [List.mem_singleton.mp hy]
    have hx := h.counted x hx
    exact ⟨Int.le_trans hx hr.after, fun hs => Int.lt_of_le_of_lt hx (hr.past hs)⟩
  spans x hx := by
    rcases List.mem_append.mp hx with hx | hx
    · exact (h.spans x hx).mono hg.grown
    · exact List.mem_singleton.mp hx ▸ hr.spans
  counted x hx := by
    rcases List.mem_append.mp hx with hx | hx
    · exact Int.le_trans (h.counted x hx) (Int.le_trans hr.after hr.counted)
    · exact List.mem_singleton.mp hx ▸ hr.counted
  events t e he ht := by
    have last {t : View} (h : op.isStore = true ∧ t = stage) :
        ∃ x ∈ turns ++ [⟨op, stage⟩], x.op.isStore = true ∧ x.stage = t := ⟨⟨op, stage⟩, by simp, h.1, h.2.symm⟩
    rcases hr.events t e he with he | hs
    · rcases h.events t e he (ht.trans hg.tid_eq) with hp | ⟨x, hx, hs⟩
      · exact (hr.promises t hp).imp_right last
      · exact .inr ⟨x, List.mem_append_left _ hx, hs⟩
    · exact .inr (last hs)
  fenced hclear := by
    obtain ⟨hquiet, hf | hclear⟩ := hclear.of_succ hop
    · exact hr.fenced hf
    · have := h.fenced hclear
      dsimp only
      rw [hr.quiet hquiet]
      exact Int.le_trans this hr.fences

theorem promise {promised : List Nat} {loc value : Int} {g : Frame} {time : View} (h : Staged code turns slot m)
    (hm : m.Whole) (hp : Frame.promiseWrite { thread := slot.thread, memory := m } loc value = .ok (g, time)) :
    Staged code turns { slot with promised, thread := g.thread } g.memory := by
  obtain ⟨-, hg, -, -, hext, -, hat⟩ := Frame.promiseWrite_spec hm hp
  have hthread : g.thread = slot.thread.pushPromise time := by rw [hg]
  rw [hthread]
  refine ⟨h.ops_eq, h.plays.mono hext fun x hx => (h.spans x hx).2, h.ordered, fun x hx => (h.spans x hx).mono hext,
    h.counted, ?_, h.fenced⟩
  intro t e he ht
  rw [hat] at he
  split at he
  · next e => exact .inl (List.mem_append_right _ (List.mem_singleton.mpr e))
  · exact (h.events t e he ht).imp_left (List.mem_append_left _)

theorem grow {n : Memory} (h : Staged code turns slot m) (hext : m.Extends n)
    (hown : ∀ t e, n.at? t = some e → m.at? t = some e ∨ e.tid ≠ slot.thread.tid) : Staged code turns slot n :=
  ⟨h.ops_eq, h.plays.mono hext fun x hx => (h.spans x hx).2, h.ordered, fun x hx => (h.spans x hx).mono hext,
    h.counted, fun t e he ht => h.events t e ((hown t e he).resolve_right fun hne => hne ht) ht, h.fenced⟩

end Staged

/-- In every run of fenced code, what each thread has run are turns at stages. -/
theorem slotInvariant_staged {p : Program} {code : List (List Op)}
    (hcode : p.threads.map ThreadProgram.code = code.map (List.map Op.instr)) (hf : ∀ ops ∈ code, Op.Fenced ops) :
    SlotInvariant p fun tid _ slot m => ∀ ops, code[tid]? = some ops → ∃ turns, Staged ops turns slot m where
  start _ _ _ := ⟨[], .start _ _ _⟩
  run {ds s tid t slot i as f} r ht hs hi h hr ops hops := by
    have hm := r.fits.whole
    have hb := (frameInvariant_bounded.slot p).holds r hs
    have hfiled := (frameInvariant_filed.slot p).holds r hs
    have hacc := (frameInvariant_accounted.slot p).holds r hs
    obtain ⟨turns, hturns⟩ := h ops hops
    have hinstr : t.code = ops.map Op.instr := by
      have := congrArg (fun l => l[tid]?) hcode
      simpa [ht, hops] using this
    rw [hinstr, List.getElem?_map, Option.map_eq_some_iff] at hi
    obtain ⟨op, hop, rfl⟩ := hi
    have hfence (ha : op.isAccess = true) : slot.thread.views.accesses ≤ slot.thread.views.fences :=
      hturns.fenced ((hf ops (List.mem_of_getElem? hops)).clear hop ha)
    obtain ⟨stage, hstage⟩ := Op.exists_runsAt hb hm hfiled hacc hfence hr
    exact ⟨_, hturns.run hop (hr.grows hm) hstage⟩
  promise r hs h hp ops hops := by
    obtain ⟨turns, hturns⟩ := h ops hops
    exact ⟨turns, hturns.promise r.fits.whole hp⟩
  grow _ _ h hext hown ops hops := by
    obtain ⟨turns, hturns⟩ := h ops hops
    exact ⟨turns, hturns.grow hext hown⟩

end Litmus
