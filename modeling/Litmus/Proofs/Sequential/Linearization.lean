import Litmus.Proofs.Exploration.Complete
import Litmus.Proofs.Memory.Snapshot
import Litmus.Proofs.Sequential.Stages

/-!
Fenced code is sequentially consistent. The turns of all threads are put into one order by their stages: up
to each time the store at that time comes first, and after it whatever has that stage and does not store.
Main fact: what a run of fenced code leaves, some run of the sequentially consistent machine leaves too.
-/

namespace Litmus

/-! ### Lists of threads -/

theorem exists_list_of_forall_lt {α : Type} {n : Nat} {P : Nat → α → Prop} (h : ∀ i < n, ∃ a, P i a) :
    ∃ l : List α, l.length = n ∧ ∀ i a, l[i]? = some a → P i a := by
  choose f hf using fun i : Fin n => h i i.isLt
  refine ⟨List.ofFn f, List.length_ofFn, ?_⟩
  intro i a ha
  rw [List.getElem?_ofFn] at ha
  split at ha
  · next hi =>
    cases ha
    exact hf ⟨i, hi⟩
  · cases ha

theorem map_eq_of_getElem? {α β : Type} {f : α → β} {l : List α} {l' : List β} (hlength : l.length = l'.length)
    (h : ∀ (i : Nat) a, l[i]? = some a → l'[i]? = some (f a)) : l.map f = l' := by
  refine List.ext_getElem? ?_
  intro i
  rw [List.getElem?_map]
  cases hi : l[i]? with
  | none => rw [Option.map_none, List.getElem?_eq_none (hlength ▸ List.getElem?_eq_none_iff.mp hi)]
  | some a => rw [h i a hi, Option.map_some]

theorem total_set_lt {α : Type} {f : α → Nat} {b : α} : ∀ {l : List α} {i : Nat} {a : α}, l[i]? = some a → f b < f a →
    total f (l.set i b) < total f l
  | [], _, _, h, _ => by simp at h
  | x :: l, 0, a, h, hlt => by
    cases h
    exact Nat.add_lt_add_right hlt _
  | x :: l, i + 1, a, h, hlt => Nat.add_lt_add_left (total_set_lt (l := l) h hlt) _

/-! ### Instructions at once -/

namespace Op

variable {op : Op} {read : Int → Int} {regs regs' : Registers Int} {w : Option (Int × Int)}

/-- What does not store writes no cell. -/
theorem eq_none_of_exec (h : op.exec read regs = some (regs', w)) (hs : op.isStore = false) : w = none := by
  cases op with
  | movImm | dmb | dsb | isb =>
    cases h
    rfl
  | load =>
    simp only [exec, Option.bind_eq_some_iff, Option.ite_none_right_eq_some, Option.some.injEq, Prod.mk.injEq] at h
    obtain ⟨_, -, -, -, h⟩ := h
    exact h.symm
  | branchOn =>
    simp only [exec, Option.map_eq_some_iff, Prod.mk.injEq] at h
    obtain ⟨_, -, -, h⟩ := h
    exact h.symm
  | store => cases hs

/-- A store writes a cell, and what it does is independent of what cells hold. -/
theorem exists_eq_some_of_exec (h : op.exec read regs = some (regs', w)) (hs : op.isStore = true) (read' : Int → Int) :
    (∃ x, w = some x) ∧ op.exec read' regs = some (regs', w) := by
  cases op with
  | store =>
    refine ⟨?_, h⟩
    simp only [exec, Option.bind_eq_some_iff, Option.ite_none_right_eq_some, Option.some.injEq, Prod.mk.injEq] at h
    obtain ⟨_, -, _, -, -, -, h⟩ := h
    exact ⟨_, h.symm⟩
  | _ => cases hs

end Op

theorem Plays.eq_of_nil {m : Memory} {tid : Int} {regs last : Registers Int} (h : Plays m tid [] regs last) :
    last = regs := by
  cases h
  rfl

/-- The store of a turn is an event of the thread. -/
theorem Plays.at?_of_mem {m : Memory} {tid : Int} {xs : List Turn} {regs last : Registers Int}
    (h : Plays m tid xs regs last) {x : Turn} (hx : x ∈ xs) (hs : x.op.isStore = true) :
    ∃ loc value, m.at? x.stage = some (.write tid loc value) := by
  induction h with
  | nil => cases hx
  | cons ha _ ih =>
    rcases List.mem_cons.mp hx with rfl | hx
    · obtain ⟨w, he, hw⟩ := ha
      obtain ⟨⟨⟨loc, value⟩, rfl⟩, -⟩ := Op.exists_eq_some_of_exec he hs fun _ => 0
      exact ⟨loc, value, hw loc value rfl⟩
    · exact ih hx

/-! ### The machine behind a memory -/

/-- A thread of the machine on its way: its code, where it is, the turns it has still to take, and the
registers after the last. -/
structure Course where
  code : List Op
  now : FlatThread
  rest : List Turn
  last : Registers Int

/-- The course after one more turn. -/
def Course.next (c : Course) (rest : List Turn) (regs : Registers Int) : Course :=
  { c with now := ⟨c.now.pc + 1, regs⟩, rest }

/-- A course whose turns are still to be taken on the memory after a time. -/
structure Course.Ready (m : Memory) (time : View) (tid : Nat) (c : Course) : Prop where
  ops_eq : c.rest.map Turn.op = c.code.drop c.now.pc
  plays : Plays m tid c.rest c.now.regs c.last
  ordered : c.rest.Pairwise fun x y => x.stage ≤ y.stage ∧ (y.op.isStore = true → x.stage < y.stage)
  inside : ∀ x ∈ c.rest, x.stage ≤ m.length
  ahead : ∀ x ∈ c.rest, time ≤ x.stage ∧ (x.op.isStore = true → time < x.stage)

namespace Course.Ready

variable {m : Memory} {time : View} {tid : Nat} {c : Course} {x : Turn} {xs : List Turn}

/-- A course goes on with its next turn. -/
theorem next (h : c.Ready m time tid) (hr : c.rest = x :: xs) :
    c.code[c.now.pc]? = some x.op ∧ ∃ regs, x.op.ActsAt m tid x.stage c.now.regs regs ∧
      ∀ time', (∀ y ∈ xs, time' ≤ y.stage ∧ (y.op.isStore = true → time' < y.stage)) →
        (c.next xs regs).Ready m time' tid := by
  obtain ⟨hops, hplays, hordered, hinside, -⟩ := h
  rw [hr] at hops hplays hordered hinside
  have hop : c.code[c.now.pc]? = some x.op := by
    have := congrArg List.head? hops
    rwa [List.map_cons, List.head?_cons, List.head?_drop, eq_comm] at this
  refine ⟨hop, ?_⟩
  cases hplays with
  | @cons _ _ _ regs _ hx hxs =>
    refine ⟨regs, hx, fun time' hahead => ⟨?_, hxs, (List.pairwise_cons.mp hordered).2, ?_, hahead⟩⟩
    · have := congrArg List.tail hops
      rwa [List.map_cons, List.tail_cons, List.tail_drop] at this
    · intro y hy
      exact hinside y (List.mem_cons_of_mem _ hy)

/-- If its next turn is at a later stage all its turns are. -/
theorem lt_stage (h : c.Ready m time tid) (hnext : ∀ y ys, c.rest = y :: ys → time < y.stage) (hx : x ∈ c.rest) :
    time < x.stage := by
  have hordered := h.ordered
  cases hrest : c.rest with
  | nil =>
    rw [hrest] at hx
    cases hx
  | cons y ys =>
    have hy := hnext y ys hrest
    rw [hrest] at hx hordered
    rcases List.mem_cons.mp hx with rfl | hx
    · exact hy
    · exact Int.lt_of_lt_of_le hy ((List.pairwise_cons.mp hordered).1 x hx).1

/-- A store of the next time is the next turn, for what comes before it is at an earlier stage. -/
theorem rest_of_store (h : c.Ready m time tid) (hlater : ∀ y ∈ c.rest, time < y.stage) (hx : x ∈ c.rest)
    (hs : x.op.isStore = true) (hstage : x.stage = time + 1) : ∃ xs, c.rest = x :: xs := by
  have hordered := h.ordered
  cases hrest : c.rest with
  | nil =>
    rw [hrest] at hx
    cases hx
  | cons y ys =>
    have hy := hlater y (by rw [hrest]; exact List.mem_cons_self)
    rw [hrest] at hx hordered
    rcases List.mem_cons.mp hx with rfl | hx
    · exact ⟨ys, rfl⟩
    · have := ((List.pairwise_cons.mp hordered).1 x hx).2 hs
      lia

/-- A course with nothing at its stage, and no store at the next time, can wait until then. -/
theorem wait (h : c.Ready m time tid) (hlater : ∀ y ∈ c.rest, time < y.stage)
    (hstores : ∀ y ∈ c.rest, y.op.isStore = true → y.stage ≠ time + 1) : c.Ready m (time + 1) tid := by
  obtain ⟨hops, hplays, hordered, hinside, -⟩ := h
  refine ⟨hops, hplays, hordered, hinside, ?_⟩
  intro y hy
  have hlt := hlater y hy
  constructor
  · lia
  · intro hs
    have hne := hstores y hy hs
    lia

end Course.Ready

/-- The machine is where memory was at a time: its cells hold what was latest then, its threads have taken
all their stores up to then, and whatever comes later is a store to come. -/
structure Behind (m : Memory) (time : View) (cs : List Course) (cells : Table Int) : Prop where
  nonneg : 0 ≤ time
  read : ∀ loc, FlatState.read m.initial cells loc = ((m.cut time).latest loc).value
  written : ∀ loc, loc ∈ cells ↔ loc ∈ (m.cut time).locations
  ready : ∀ (tid : Nat) c, cs[tid]? = some c → c.Ready m time tid
  stores : ∀ t e, time < t → m.at? t = some e →
    ∃ (tid : Nat) (c : Course), e.tid = tid ∧ cs[tid]? = some c ∧ ∃ x ∈ c.rest, x.op.isStore = true ∧ x.stage = t

/-- The state of the machine in which threads are on their way. -/
def Course.state (cs : List Course) (cells : Table Int) : FlatState := ⟨cs.map Course.now, cells⟩

/-- The machine can go on to the end, where it has the registers of the last turns, and the cells that
events wrote hold what is latest. -/
def Completes (m : Memory) (cs : List Course) (cells : Table Int) : Prop :=
  ∃ s, Relation.ReflTransGen (FlatState.Step m.initial (cs.map Course.code)) (Course.state cs cells) s ∧
    s.Finished (cs.map Course.code) ∧ s.threads.map FlatThread.regs = cs.map Course.last ∧
    (∀ loc, FlatState.read m.initial s.cells loc = (m.latest loc).value) ∧ ∀ loc, loc ∈ s.cells ↔ loc ∈ m.locations

namespace Behind

variable {m : Memory} {time : View} {cs : List Course} {cells : Table Int} {tid : Nat} {c : Course} {x : Turn}
  {xs : List Turn}

theorem step_set {regs : Registers Int} {w : Option (Int × Int)} (hc : cs[tid]? = some c)
    (hop : c.code[c.now.pc]? = some x.op)
    (he : x.op.exec (FlatState.read m.initial cells) c.now.regs = some (regs, w)) :
    FlatState.Step m.initial (cs.map Course.code) (Course.state cs cells)
      (Course.state (cs.set tid (c.next xs regs)) (FlatState.write cells w)) := by
  have hthreads : (Course.state cs cells).threads[tid]? = some c.now := by simp [Course.state, hc]
  have hcode : (cs.map Course.code)[tid]? = some c.code := by simp [hc]
  have := FlatState.Step.exec hcode hthreads hop he
  rwa [Course.state, Course.state, List.map_set]

theorem getElem?_set {d : Course} (hc : cs[tid]? = some c) (i : Nat) :
    (cs.set tid d)[i]? = if i = tid then some d else cs[i]? := by
  have := (List.getElem?_eq_some_iff.mp hc).1
  rw [List.getElem?_set]
  by_cases e : i = tid
  · rw [if_pos e, if_pos e.symm, if_pos (by omega)]
  · rw [if_neg e, if_neg (Ne.symm e)]

theorem map_set {α : Type} {f : Course → α} {d : Course} (hc : cs[tid]? = some c) (hf : f d = f c) :
    (cs.set tid d).map f = cs.map f := by
  refine List.ext_getElem? ?_
  intro i
  rw [List.getElem?_map, List.getElem?_map, getElem?_set hc]
  split
  · next e => rw [e, hc, Option.map_some, Option.map_some, hf]
  · rfl

/-- After a turn of one thread the courses are ready if that thread's is and the others' are. -/
theorem ready_set {time' : View} {d : Course} (hc : cs[tid]? = some c) (hd : d.Ready m time' tid)
    (h : ∀ (i : Nat) c, i ≠ tid → cs[i]? = some c → c.Ready m time' i) (i : Nat) (c' : Course)
    (hi : (cs.set tid d)[i]? = some c') : c'.Ready m time' i := by
  rw [getElem?_set hc] at hi
  split at hi
  · next e =>
    cases hi
    exact e ▸ hd
  · next hne => exact h i c' hne hi

/-- After a turn of one thread whatever comes later, but the turn's own store, is still to come. -/
theorem stores_set {regs : Registers Int} {t : View} {e : Event} (h : Behind m time cs cells) (hc : cs[tid]? = some c)
    (hr : c.rest = x :: xs) (hx : x.op.isStore = true → x.stage ≠ t) (ht : time < t) (he : m.at? t = some e) :
    ∃ (i : Nat) (d : Course), e.tid = i ∧ (cs.set tid (c.next xs regs))[i]? = some d ∧
      ∃ y ∈ d.rest, y.op.isStore = true ∧ y.stage = t := by
  obtain ⟨i, d, hi, hd, y, hy, hs, hstage⟩ := h.stores t e ht he
  by_cases e : i = tid
  · subst e
    rw [hc] at hd
    cases hd
    rw [hr] at hy
    rcases List.mem_cons.mp hy with rfl | hy
    · exact absurd hstage (hx hs)
    · exact ⟨i, c.next xs regs, hi, by rw [getElem?_set hc, if_pos rfl], y, hy, hs, hstage⟩
  · exact ⟨i, d, hi, by rw [getElem?_set hc, if_neg e, hd], y, hy, hs, hstage⟩

/-- What is at its stage already and does not store is done at once. -/
theorem now (h : Behind m time cs cells) (hc : cs[tid]? = some c) (hr : c.rest = x :: xs) (hx : x.stage ≤ time) :
    ∃ regs, FlatState.Step m.initial (cs.map Course.code) (Course.state cs cells)
      (Course.state (cs.set tid (c.next xs regs)) cells) ∧ Behind m time (cs.set tid (c.next xs regs)) cells := by
  have hready := h.ready tid c hc
  have ahead := hready.ahead
  rw [hr] at ahead
  obtain ⟨hx', hxs⟩ := List.forall_mem_cons.mp ahead
  have hstage : x.stage = time := Int.le_antisymm hx hx'.1
  have hstore : x.op.isStore = false := by
    by_contra hs
    have := hx'.2 (by simpa using hs)
    lia
  obtain ⟨hop, regs, ⟨w, he, -⟩, hnext⟩ := hready.next hr
  obtain rfl := Op.eq_none_of_exec he hstore
  have hread : FlatState.read m.initial cells = fun loc => ((m.cut x.stage).latest loc).value := by
    funext loc
    rw [hstage, h.read]
  refine ⟨regs, step_set hc hop (hread ▸ he), h.nonneg, h.read, h.written, ?_, ?_⟩
  · exact ready_set hc (hnext time hxs) fun i d _ => h.ready i d
  · intro t e ht he
    refine h.stores_set hc hr ?_ ht he
    intro hs
    rw [hstore] at hs
    cases hs

/-- When nothing is at its stage any more, the store of the next time is. -/
theorem store (h : Behind m time cs cells) (hm : m.Whole)
    (hlater : ∀ (i : Nat) d, cs[i]? = some d → ∀ y ∈ d.rest, time < y.stage) (hlt : time < m.length) :
    ∃ tid c x xs regs cells', cs[tid]? = some c ∧ c.rest = x :: xs ∧
      FlatState.Step m.initial (cs.map Course.code) (Course.state cs cells)
        (Course.state (cs.set tid (c.next xs regs)) cells') ∧
      Behind m (time + 1) (cs.set tid (c.next xs regs)) cells' := by
  obtain ⟨e, he⟩ := hm.exists_at? (t := time + 1) (by have := h.nonneg; lia) (by lia)
  obtain ⟨tid, c, htid, hc, x, hx, hs, hstage⟩ := h.stores _ e (by lia) he
  have hready := h.ready tid c hc
  obtain ⟨xs, hr⟩ := hready.rest_of_store (hlater tid c hc) hx hs hstage
  obtain ⟨hop, regs, ⟨w, hexec, hw⟩, hnext⟩ := hready.next hr
  obtain ⟨⟨⟨loc, value⟩, rfl⟩, hexec⟩ := Op.exists_eq_some_of_exec hexec hs (FlatState.read m.initial cells)
  have hat := hw loc value rfl
  rw [hstage] at hat
  refine ⟨tid, c, x, xs, regs, cells.insert loc value, hc, hr, step_set hc hop hexec, ?_, ?_, ?_, ?_, ?_⟩
  · have := h.nonneg
    lia
  · intro l
    rw [Memory.latest_cut_succ hat, FlatState.read, Std.ExtTreeMap.getD_insert]
    simp only [Std.compare_eq_iff_eq]
    by_cases hl : l = loc
    · rw [if_pos hl.symm, if_pos hl]
    · rw [if_neg (Ne.symm hl), if_neg hl]
      exact h.read l
  · intro l
    rw [Memory.mem_locations_cut_succ hat, Std.ExtTreeMap.mem_insert, Std.compare_eq_iff_eq, h.written, eq_comm]
  · refine ready_set hc (hnext (time + 1) ?_) ?_
    · intro y hy
      have hordered := hready.ordered
      rw [hr] at hordered
      rw [← hstage]
      exact (List.pairwise_cons.mp hordered).1 y hy
    · intro i d hne hd
      have hd' := h.ready i d hd
      refine hd'.wait (hlater i d hd) ?_
      -- the event at the next time is of one thread alone
      intro y hy hys hystage
      obtain ⟨l, v, hl⟩ := hd'.plays.at?_of_mem hy hys
      rw [hystage, hat] at hl
      cases hl
      exact hne rfl
  · intro t e' ht he'
    exact h.stores_set hc hr (fun _ => by lia) (by lia) he'

/-- Once all turns are taken the machine is past its code, with the registers of the last turns. -/
theorem finished (h : Behind m time cs cells) (hrest : ∀ c ∈ cs, c.rest = []) :
    Completes m cs cells := by
  have none : ∀ t, time < t → m.at? t = none := fun t ht => by
    cases he : m.at? t with
    | none => rfl
    | some e =>
      obtain ⟨i, c, -, hc, x, hx, -⟩ := h.stores t e ht he
      rw [hrest c (List.mem_of_getElem? hc)] at hx
      cases hx
  have same := Memory.at?_cut_of_none none
  refine ⟨_, .refl, ?_, ?_, ?_, ?_⟩
  · intro tid ops t hops ht
    rw [List.getElem?_map, Option.map_eq_some_iff] at hops
    obtain ⟨c, hc, rfl⟩ := hops
    rw [Course.state, List.getElem?_map, hc] at ht
    cases ht
    have := (h.ready tid c hc).ops_eq
    rw [hrest c (List.mem_of_getElem? hc), List.map_nil, eq_comm, List.drop_eq_nil_iff] at this
    exact this
  · rw [Course.state, List.map_map, List.map_inj_left]
    intro c hc
    obtain ⟨i, hi⟩ := List.mem_iff_getElem?.mp hc
    have hplays := (h.ready i c hi).plays
    rw [hrest c hc] at hplays
    exact hplays.eq_of_nil.symm
  · intro loc
    rw [Course.state, h.read, Memory.latest_congr (m := m) (n := m.cut time) rfl same]
  · intro loc
    rw [Course.state, h.written, Memory.mem_locations, Memory.mem_locations]
    simp only [same]

/-- What completes after a step completes. -/
theorem completes_of_step {regs : Registers Int} {cells' : Table Int} (hc : cs[tid]? = some c)
    (hstep : FlatState.Step m.initial (cs.map Course.code) (Course.state cs cells)
      (Course.state (cs.set tid (c.next xs regs)) cells'))
    (h : Completes m (cs.set tid (c.next xs regs)) cells') : Completes m cs cells := by
  obtain ⟨s, hs, hend⟩ := h
  have hcode : (cs.set tid (c.next xs regs)).map Course.code = cs.map Course.code := map_set hc rfl
  have hlast : (cs.set tid (c.next xs regs)).map Course.last = cs.map Course.last := map_set hc rfl
  rw [hcode] at hs hend
  rw [hlast] at hend
  exact ⟨s, .head hstep hs, hend⟩

/-- From where the machine is it can go on to the end. -/
theorem completes (hm : m.Whole) (h : Behind m time cs cells) : Completes m cs cells := by
  -- by induction on the number of turns that are left
  induction hn : total (fun c => c.rest.length) cs using Nat.strongRecOn generalizing time cs cells with
  | _ n ih =>
    have fewer {tid : Nat} {c : Course} {x : Turn} {xs : List Turn} {regs : Registers Int} (hc : cs[tid]? = some c)
        (hr : c.rest = x :: xs) : total (fun c => c.rest.length) (cs.set tid (c.next xs regs)) < n := by
      rw [← hn]
      exact total_set_lt hc (by simp [Course.next, hr])
    by_cases hnow : ∃ (tid : Nat) (c : Course) (x : Turn) (xs : List Turn),
        cs[tid]? = some c ∧ c.rest = x :: xs ∧ x.stage ≤ time
    · obtain ⟨tid, c, x, xs, hc, hr, hx⟩ := hnow
      obtain ⟨regs, hstep, hbehind⟩ := h.now hc hr hx
      exact completes_of_step hc hstep (ih _ (fewer hc hr) hbehind rfl)
    · by_cases hrest : ∀ c ∈ cs, c.rest = []
      · exact h.finished hrest
      · have hlater (i : Nat) (d : Course) (hd : cs[i]? = some d) (y : Turn) (hy : y ∈ d.rest) : time < y.stage := by
          refine (h.ready i d hd).lt_stage ?_ hy
          intro z zs hrest
          exact Int.not_le.mp fun hz => hnow ⟨i, d, z, zs, hd, hrest, hz⟩
        obtain ⟨c, hc, hne⟩ : ∃ c ∈ cs, c.rest ≠ [] := by simpa using hrest
        obtain ⟨i, hi⟩ := List.mem_iff_getElem?.mp hc
        obtain ⟨y, hy⟩ := List.exists_mem_of_ne_nil _ hne
        have hlt : time < m.length := Int.lt_of_lt_of_le (hlater i c hi y hy) ((h.ready i c hi).inside y hy)
        obtain ⟨_, _, _, _, _, _, hc, hr, hstep, hbehind⟩ := h.store hm hlater hlt
        exact completes_of_step hc hstep (ih _ (fewer hc hr) hbehind rfl)

/-- At the start nothing of the memory has happened yet. -/
theorem start (hready : ∀ (tid : Nat) c, cs[tid]? = some c → c.Ready m 0 tid)
    (hstores : ∀ t e, m.at? t = some e →
      ∃ (tid : Nat) (c : Course), e.tid = tid ∧ cs[tid]? = some c ∧ ∃ x ∈ c.rest, x.op.isStore = true ∧ x.stage = t) :
    Behind m 0 cs ∅ where
  nonneg := Int.le_refl 0
  read loc := by
    rw [FlatState.read, Std.ExtTreeMap.getD_empty, Memory.latest_cut_zero]
  written loc := by
    refine ⟨fun h => absurd h Std.ExtTreeMap.not_mem_empty, ?_⟩
    intro h
    obtain ⟨t, tid, value, ht⟩ := Memory.mem_locations.mp h
    obtain ⟨hle, ht⟩ := Memory.at?_cut_eq_some_iff.mp ht
    have := Memory.pos_of_at? ht
    lia
  ready := hready
  stores t e _ he := hstores t e he

end Behind

/-! ### From a run to the machine -/

/-- A course through the machine that does what a thread has done in a run to the state. -/
structure Course.Follows (p : Program) (code : List (List Op)) (s : State) (tid : Nat) (c : Course) : Prop where
  code_eq : code[tid]? = some c.code
  now_eq : p.threads[tid]?.map (fun t => ⟨0, t.regs⟩) = some c.now
  last_eq : s.threads[tid]?.map (fun slot => slot.thread.plainRegs) = some c.last
  ready : c.Ready s.memory 0 tid
  stores : ∀ t e, s.memory.at? t = some e → e.tid = tid → ∃ x ∈ c.rest, x.op.isStore = true ∧ x.stage = t

/-- The turns of a thread that is done make a course that follows it. -/
theorem Staged.follows {p : Program} {code : List (List Op)} {s : State} {tid : Nat} {t : ThreadProgram} {slot : Slot}
    {ops : List Op} {turns : List Turn} (h : Staged ops turns slot s.memory) (hfits : s.Fits p)
    (ht : p.threads[tid]? = some t) (hs : s.threads[tid]? = some slot) (hops : code[tid]? = some ops)
    (hend : ops.length ≤ slot.pc) (hpromises : slot.thread.promises = []) :
    Course.Follows p code s tid ⟨ops, ⟨0, t.regs⟩, turns, slot.thread.plainRegs⟩ where
  code_eq := hops
  now_eq := by rw [ht, Option.map_some]
  last_eq := by rw [hs, Option.map_some]
  ready := by
    have hplays := h.plays
    rw [hfits.tid_eq tid slot hs, hfits.initial_eq tid t slot ht hs] at hplays
    refine ⟨by rw [h.ops_eq, List.take_of_length_le hend, List.drop_zero], hplays, h.ordered,
      fun x hx => (h.spans x hx).2, fun x hx => ⟨(h.spans x hx).1, ?_⟩⟩
    intro hstore
    obtain ⟨loc, value, hat⟩ := hplays.at?_of_mem hx hstore
    exact Memory.pos_of_at? hat
  stores time e he htid := by
    have := h.events time e he (htid.trans (hfits.tid_eq tid slot hs).symm)
    rw [hpromises] at this
    exact this.resolve_left List.not_mem_nil

/-- At the end of a run of fenced code each of its threads has a course that follows it. -/
theorem exists_courses {p : Program} {code : List (List Op)} {ds : List Deed} {s : State}
    (hcode : p.threads.map ThreadProgram.code = code.map (List.map Op.instr)) (hfenced : ∀ ops ∈ code, Op.Fenced ops)
    (hrun : p.Run ds s) (hend : s.Finished p) (hfulfilled : s.Fulfilled) :
    ∃ cs : List Course, cs.length = p.threads.length ∧ ∀ (i : Nat) c, cs[i]? = some c → Course.Follows p code s i c := by
  have hfits := hrun.fits
  have hlength : code.length = p.threads.length := by simpa using (congrArg List.length hcode).symm
  refine exists_list_of_forall_lt ?_
  intro i hi
  have ht := List.getElem?_eq_getElem hi
  have hslot := List.getElem?_eq_getElem (hfits.length_eq ▸ hi)
  have hops := List.getElem?_eq_getElem (hlength ▸ hi)
  obtain ⟨turns, hturns⟩ := (slotInvariant_staged hcode hfenced).holds hrun hslot _ hops
  have hinstr := congrArg (fun l => l[i]?) hcode
  simp only [List.getElem?_map, ht, hops, Option.map_some, Option.some.injEq] at hinstr
  have hpc := hend i _ _ ht hslot
  rw [hinstr, List.length_map] at hpc
  exact ⟨_, hturns.follows hfits ht hslot hops hpc (hfulfilled _ (List.getElem_mem _))⟩

/-- Courses that follow the threads of a run start where the machine starts, and lead to their registers. -/
theorem Behind.of_follows {p : Program} {code : List (List Op)} {s : State} {cs : List Course} (hfits : s.Fits p)
    (hcs : cs.length = p.threads.length) (h : ∀ (i : Nat) c, cs[i]? = some c → Course.Follows p code s i c) :
    Behind s.memory 0 cs ∅ ∧ Course.state cs ∅ = FlatState.start p ∧
      cs.map Course.last = s.threads.map fun slot => slot.thread.plainRegs := by
  refine ⟨.start (fun i c hc => (h i c hc).ready) ?_, ?_, ?_⟩
  · intro time e he
    obtain ⟨i, slot, hslot, htid⟩ := hfits.owned time e he
    have hi : i < cs.length := by
      rw [hcs, ← hfits.length_eq]
      exact (List.getElem?_eq_some_iff.mp hslot).1
    have hc := List.getElem?_eq_getElem hi
    exact ⟨i, cs[i], htid, hc, (h i _ hc).stores time e he htid⟩
  · rw [Course.state, FlatState.start]
    congr 1
    refine map_eq_of_getElem? (by rw [hcs, List.length_map]) ?_
    intro i c hc
    rw [List.getElem?_map]
    exact (h i c hc).now_eq
  · refine map_eq_of_getElem? (by rw [hcs, List.length_map, hfits.length_eq]) ?_
    intro i c hc
    rw [List.getElem?_map]
    exact (h i c hc).last_eq

/-- What is left of the machine at its end, if its cells hold what is latest of a memory, is what a snapshot of
the memory is. -/
theorem FlatState.final_eq {s : FlatState} {m : Memory} {image : Image} (h : m.snapshot = .ok image)
    (hread : ∀ loc, read m.initial s.cells loc = (m.latest loc).value) (hcells : ∀ loc, loc ∈ s.cells ↔ loc ∈ m.locations) :
    s.final m.initial = ⟨image, s.threads.map FlatThread.regs⟩ := by
  obtain ⟨haligned, rfl⟩ := Memory.snapshot_eq_ok h
  have hvalue : ∀ x ∈ s.cells.toList, x.2 = (m.latest x.1).value := by
    rintro ⟨loc, value⟩ hx
    have hx := Std.ExtTreeMap.mem_toList_iff_getElem?_eq_some.mp hx
    rw [← hread loc, read, Std.ExtTreeMap.getD_eq_getD_getElem?, hx]
    rfl
  rw [final, Image.foldl_writeCell_eq (fun loc => (m.latest loc).value) _ _ hvalue]
  congr 1
  refine (Image.writeCells_congr haligned ?_ fun _ _ => rfl).symm
  intro loc
  rw [← hcells, Std.ExtTreeMap.map_fst_toList_eq_keys, Std.ExtTreeMap.mem_keys]

/-- What an exploration finds of fenced code, the sequentially consistent machine can leave as well: the same
registers and the same memory, after whole instructions in program order over one flat memory. -/
theorem finals_sequential {p : Program} {o : Options} {r : Explored} {code : List (List Op)}
    (hcode : p.threads.map ThreadProgram.code = code.map (List.map Op.instr)) (hfenced : ∀ ops ∈ code, Op.Fenced ops)
    (h : (explore p o).result = .ok r) {f : Final} (hf : f ∈ r.finals) :
    ∃ s, Relation.ReflTransGen (FlatState.Step p.image code) (FlatState.start p) s ∧ s.Finished code ∧
      s.final p.image = f := by
  obtain ⟨s, hs, hend, hfulfilled, hfinal⟩ := exists_reaches_of_mem_finals h hf
  obtain ⟨ds, hrun⟩ := Program.reaches_iff.mp hs
  have hfits := hrun.fits
  obtain ⟨cs, hcs, hfollows⟩ := exists_courses hcode hfenced hrun hend hfulfilled
  obtain ⟨hbehind, hstart, hlast⟩ := Behind.of_follows hfits hcs hfollows
  have hcodes : cs.map Course.code = code := by
    refine map_eq_of_getElem? ?_ fun i c hc => (hfollows i c hc).code_eq
    rw [hcs]
    simpa using congrArg List.length hcode
  obtain ⟨z, hz, hzend, hzregs, hzread, hzcells⟩ := hbehind.completes hfits.whole
  rw [State.final, bind_eq_ok] at hfinal
  obtain ⟨image, himage, hfinal⟩ := hfinal
  have hzfinal := FlatState.final_eq himage hzread hzcells
  rw [hfits.image_eq] at hz hzfinal
  rw [hcodes, hstart] at hz
  rw [hcodes] at hzend
  refine ⟨z, hz, hzend, ?_⟩
  rw [hzfinal, hzregs, hlast]
  exact (pure_eq_ok.mp hfinal).symm

/-- Two threads store to a cell each, pass a full fence, and load the cell of the other. -/
def storeBuffering : List (List Op) :=
  [[.store "X1" "X2" .plain, .dmb .sy, .load "X3" "X4" .plain],
    [.store "X1" "X2" .release, .dsb .sy, .load "X3" "X4" .acquire]]

/-- The program of store buffering. Without the fences both loads might return zero. -/
def storeBufferingProgram : Program where
  threads := [
    { code := storeBuffering[0].map Op.instr, regs := .ofList [("X1", (1 : Int)), ("X2", 0), ("X4", 8)] },
    { code := storeBuffering[1].map Op.instr, regs := .ofList [("X1", (1 : Int)), ("X2", 8), ("X4", 0)] }]

theorem finals_sequential_storeBuffering : ∃ r, (explore storeBufferingProgram {}).result = .ok r ∧ r.finals.length = 3 ∧
    ∀ f ∈ r.finals, ∃ s,
      Relation.ReflTransGen (FlatState.Step storeBufferingProgram.image storeBuffering)
        (FlatState.start storeBufferingProgram) s ∧
      s.Finished storeBuffering ∧ s.final storeBufferingProgram.image = f := by
  have three : (explore storeBufferingProgram {}).result.toOption.map (·.finals.length) = some 3 := by decide +kernel
  cases hr : (explore storeBufferingProgram {}).result with
  | error stop => rw [hr] at three; cases three
  | ok r =>
    rw [hr] at three
    exact ⟨r, rfl, by simpa [Except.toOption] using three, fun f hf => finals_sequential rfl (by decide) hr hf⟩

end Litmus
