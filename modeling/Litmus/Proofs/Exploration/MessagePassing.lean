import Litmus.Proofs.Exploration.Barriers
import Litmus.Proofs.Thread.Recall

/-!
Message passing. A full barrier is past the time of every write that its thread has accessed, and a read of
another thread's write is past the time of that write. Main fact: what a thread has written or read before it
wrote a flag, behind a full barrier or as a release, is seen by each thread that reads the flag, as an acquire or
before a barrier of loads.
-/

namespace Litmus

/-- The barriers of accesses of a kind, whether of maintenance too or not. -/
inductive Barrier.IsOf (kind : BarrierKind) : Barrier → Prop
  | dmb {domain : Paging.Shareability} : IsOf kind (.dmb kind domain)
  | dsb {domain : Paging.Shareability} : IsOf kind (.dsb kind domain)

namespace Effect.Step

variable {e : Effect} {f g : Frame} {v : e.Answer} {a : Action} {pre : View}

/-- The pre-view of an access is past the barriers that hold back all accesses. -/
theorem fences_le_pre (hs : e.Step f v g a) (ha : a.pre? = some pre) : f.thread.views.fences ≤ pre :=
  View.join_le.mpr ⟨hs.get_le_pre ha .barrier, hs.get_le_pre ha .syncBarrier⟩

/-- The pre-view of a release is past all accesses. -/
theorem accesses_le_pre {req : WriteRequest} {time : View} (hs : e.Step f v g (.write req pre time))
    (hk : req.kind = .release) : f.thread.views.accesses ≤ pre :=
  View.join_le.mpr ⟨hs.get_le_pre rfl (.reads hk), hs.get_le_pre rfl (.writes hk)⟩

/-- A full barrier holds back all accesses. -/
theorem accesses_le_fences {b : Barrier} (hs : e.Step f v g (.barrier b)) (hb : b.IsOf .sy) :
    f.thread.views.accesses ≤ g.thread.views.fences := by
  have raised (c : Counter) (view : View) (hc : c = .barrier ∨ c = .syncBarrier) (hr : f.thread.views.reads ≤ view)
      (hw : f.thread.views.writes ≤ view) : f.thread.views.accesses ≤ (f.thread.views.raise c view).fences := by
    have h := Views.accesses_le_fences_raise f.thread.views c hc hr hw
    rwa [Views.accesses_raise _ _ _ (by rintro rfl; simp at hc) (by rintro rfl; simp at hc)] at h
  cases hb with
  | dmb =>
    cases hs
    exact raised .barrier _ (.inl rfl) (View.le_joinAll (by simp)) (View.le_joinAll (by simp))
  | dsb =>
    cases hs
    exact raised .syncBarrier _ (.inr rfl) (View.le_joinAll (by simp)) (View.le_joinAll (by simp))

end Effect.Step

/-! ### The thread that writes the flag -/

/-- Whether full barriers are past all that was accessed before them. -/
def Fenced (as : List Action) (f : Frame) : Prop :=
  ∀ before b since, as = before ++ .barrier b :: since → b.IsOf .sy → ∀ loc, ∀ x ∈ accessesOf loc before,
    x.time ≤ f.thread.views.fences

theorem Fenced.of_le {as : List Action} {f g : Frame} (h : Fenced as f)
    (hv : ∀ c, f.thread.views.get c ≤ g.thread.views.get c) : Fenced as g :=
  fun before b since hsplit hb loc x hx => Int.le_trans (h before b since hsplit hb loc x hx) (Views.fences_mono hv)

theorem Fenced.step {e : Effect} {as : List Action} {a : Action} {f g : Frame} {v : e.Answer} (hc : Coherent as f)
    (ha : f.thread.Accounted) (h : Fenced as f) (hs : e.Step f v g a) : Fenced (as ++ [a]) g := by
  intro before b since hsplit hb loc x hx
  rcases split_concat hsplit with ⟨rfl, rfl, rfl⟩ | ⟨since, hbefore, -⟩
  · -- the barrier is what was done just now
    exact Int.le_trans (hc.below loc x hx) (Int.le_trans (ha.coherence loc) (hs.accesses_le_fences hb))
  · exact h.of_le hs.views_le before b since hbefore hb loc x hx

/-- In every run full barriers are past all that their thread accessed before them. -/
theorem frameInvariant_fenced : FrameInvariant fun as f => (Coherent as f ∧ f.thread.Accounted) ∧ Fenced as f := by
  have both := frameInvariant_coherent.and frameInvariant_accounted
  refine ⟨?_, ?_, fun h => ⟨both.next h.1, h.2⟩, ?_, fun h hext => ⟨both.grow h.1 hext, h.2⟩⟩
  · intro tid regs image
    exact ⟨both.start tid regs image, fun _ _ _ hsplit => by simp at hsplit⟩
  · intro e as a f g v hm h hs
    exact ⟨both.step hm h.1 hs, h.2.step h.1.1 h.1.2 hs⟩
  · intro as thread m loc value g time hm h hp
    obtain ⟨-, hg, -⟩ := Frame.promiseWrite_spec hm hp
    refine ⟨both.promise hm h.1 hp, h.2.of_le ?_⟩
    intro c
    rw [hg]
    exact Int.le_refl _

/-! ### The thread that reads the flag -/

/-- Whether each read of what another thread has written is past the time of the write. -/
def Informed (as : List Action) (f : Frame) : Prop :=
  ∀ req w pre post, .read req w pre post ∈ as →
    w.time ≤ post ∨ ∃ loc value, f.memory.at? w.time = some (.write f.thread.tid loc value)

theorem Informed.of_same {as : List Action} {f g : Frame} (h : Informed as f) (ht : g.thread.tid = f.thread.tid)
    (hm : f.memory.Extends g.memory) : Informed as g := by
  intro req w pre post hmem
  rw [ht]
  refine (h req w pre post hmem).imp_right ?_
  rintro ⟨loc, value, hat⟩
  exact ⟨loc, value, hm.at?_eq_some hat⟩

/-- What a read adds to its pre-view is the time of the write that it reads, if that is not one of the thread. -/
theorem Frame.readContribution_of_forwards {f : Frame} {req : ReadRequest} {loc : Int} {r : Memory.Read}
    (h : f.thread.Recalls f.memory) : f.readContribution req loc r = r.time ∨
      ∃ value, f.memory.at? r.time = some (.write f.thread.tid loc value) := by
  rw [readContribution]
  split
  · exact .inl rfl
  · next w hw =>
    split
    · exact .inl rfl
    · next ht =>
      rw [← Decidable.not_not.mp ht]
      exact .inr (h.forwarded hw).1

theorem Informed.step {e : Effect} {as : List Action} {a : Action} {f g : Frame} {v : e.Answer} (hm : f.memory.Whole)
    (hr : f.thread.Recalls f.memory) (h : Informed as f) (hs : e.Step f v g a) : Informed (as ++ [a]) g := by
  have hg := hs.grows hm
  have kept := h.of_same hg.tid_eq hg.grown
  intro req w pre post hmem
  rcases List.mem_append.mp hmem with hmem | hmem
  · exact kept req w pre post hmem
  · obtain rfl := List.mem_singleton.mp hmem
    rw [hg.tid_eq]
    cases hs with
    | read =>
      rcases Frame.readContribution_of_forwards hr with hc | ⟨value, hat⟩
      · exact .inl (Int.le_trans (Int.le_of_eq hc.symm) (View.le_join_right _ _))
      · exact .inr ⟨_, value, hg.grown.at?_eq_some hat⟩

/-- In every run each read of what another thread has written is past the time of the write. -/
theorem frameInvariant_informed : FrameInvariant fun as f =>
    ((Coherent as f ∧ f.Bounded) ∧ f.thread.Recalls f.memory) ∧ Informed as f := by
  have recalls := frameInvariant_recalls
  refine ⟨?_, ?_, fun h => ⟨recalls.next h.1, h.2.of_same rfl (.refl _)⟩, ?_, ?_⟩
  · intro tid regs image
    exact ⟨recalls.start tid regs image, fun _ _ _ _ hmem => by cases hmem⟩
  · intro e as a f g v hm h hs
    exact ⟨recalls.step hm h.1 hs, h.2.step hm h.1.2 hs⟩
  · intro as thread m loc value g time hm h hp
    have hg := Frame.promiseWrite_grows hm hp
    exact ⟨recalls.promise hm h.1 hp, h.2.of_same hg.tid_eq hg.grown⟩
  · intro as thread m n h hext
    exact ⟨recalls.grow h.1 hext, h.2.of_same rfl hext⟩

/-! ### Runs -/

/-- What is accessed is a write in memory, or the initial value. -/
theorem Access.IsIn.exists_write {m : Memory} {tid loc : Int} : ∀ {x : Access}, x.IsIn m tid loc →
    x.time = 0 ∨ ∃ i v, m.at? x.time = some (.write i loc v)
  | .read _ _, .inl ⟨i, h⟩ => .inr ⟨i, _, h⟩
  | .read _ _, .inr ⟨h, _⟩ => .inl h
  | .write _ _, h => .inr ⟨_, _, h⟩

namespace Program.Run

variable {p : Program} {ds : List Deed} {s : State} {tid : Nat}

/-- What a thread has accessed is in memory. -/
theorem isIn (r : p.Run ds s) {a : Action} (ha : a ∈ actionsOf tid ds) {loc : Int} {x : Access}
    (hx : a.access? loc = some x) : x.IsIn s.memory tid loc := by
  obtain ⟨slot, hs⟩ := r.exists_slot (List.ne_nil_of_mem ha)
  have hin := ((frameInvariant_coherent.slot p).holds r hs).isIn loc x (List.mem_filterMap.mpr ⟨a, ha, hx⟩)
  dsimp only at hin
  rwa [r.fits.tid_eq tid slot hs] at hin

/-- The pre-view of an access is past the view of each that barriers or the kinds of the two put before it. -/
theorem view_le_pre (r : p.Run ds s) {before between rest : List Action} {a b : Action} {view pre : View}
    (hsplit : actionsOf tid ds = before ++ a :: between ++ b :: rest) (ha : a.view? = some view) (hb : b.pre? = some pre)
    (hbefore : a.Before between b) : view ≤ pre := by
  obtain ⟨e, f, v, g, -, htallied, hs, -⟩ := frameInvariant_tallied.exists_step r hsplit
  obtain ⟨c, hraised, hwaits⟩ := hbefore.exists_counter ha
  exact Int.le_trans (htallied before a between view c rfl ha hraised) (hs.get_le_pre hb hwaits)

/-- A write that is a release, or is behind a full barrier, comes after each write that was accessed before. -/
theorem time_lt_of_published (r : p.Run ds s) {before between rest : List Action} {a : Action} {loc : Int} {x : Access}
    {flag : WriteRequest} {pre t : View} (hsplit : actionsOf tid ds = before ++ a :: between ++ .write flag pre t :: rest)
    (hx : a.access? loc = some x)
    (hflag : flag.kind = .release ∨ ∃ b, .barrier b ∈ between ∧ b.IsOf .sy) : x.time < t := by
  have hstepped := frameInvariant_fenced.exists_step r hsplit
  refine Int.lt_of_le_of_lt ?_ hstepped.write
  obtain ⟨e, f, v, g, -, ⟨⟨hc, ha⟩, hfenced⟩, hs, -⟩ := hstepped
  rcases hflag with hk | ⟨b, hb, hfull⟩
  · have hmem : x ∈ accessesOf loc (before ++ a :: between) := List.mem_filterMap.mpr ⟨a, by simp, hx⟩
    exact Int.le_trans (hc.below loc x hmem) (Int.le_trans (ha.coherence loc) (hs.accesses_le_pre hk))
  · obtain ⟨between₁, between₂, rfl⟩ := List.append_of_mem hb
    have hmem : x ∈ accessesOf loc (before ++ a :: between₁) := List.mem_filterMap.mpr ⟨a, by simp, hx⟩
    exact Int.le_trans (hfenced (before ++ a :: between₁) b between₂ (by simp) hfull loc x hmem) (hs.fences_le_pre rfl)

/-- A read of what another thread has written is past the time of the write. -/
theorem time_le_post (r : p.Run ds s) {i : Nat} (hne : i ≠ tid) {req : ReadRequest} {w : Memory.Read} {pre post : View}
    (hread : .read req w pre post ∈ actionsOf tid ds) {loc value : Int}
    (hw : s.memory.at? w.time = some (.write i loc value)) : w.time ≤ post := by
  obtain ⟨slot, hs⟩ := r.exists_slot (List.ne_nil_of_mem hread)
  obtain ⟨-, hinformed⟩ := (frameInvariant_informed.slot p).holds r hs
  refine (hinformed req w pre post hread).resolve_right ?_
  rintro ⟨l, v, hown⟩
  dsimp only at hown
  rw [hw, r.fits.tid_eq tid slot hs] at hown
  simp only [Option.some.injEq, Event.write.injEq] at hown
  exact hne (Int.ofNat_inj.mp hown.1)

/-- A read that is an acquire, or before a barrier of loads or of all accesses, is before the access after that. -/
theorem before_of_received {req : ReadRequest} {w : Memory.Read} {pre post : View} {between : List Action} {last : Action}
    (h : req.kind = .acquire ∨ req.kind = .acquirePC ∨ ∃ b, .barrier b ∈ between ∧ (b.IsOf .sy ∨ b.IsOf .ld)) :
    (Action.read req w pre post).Before between last := by
  rcases h with hk | hk | ⟨b, hb, (_ | _) | (_ | _)⟩
  · exact .acquire (.inl hk)
  · exact .acquire (.inr hk)
  · exact .dmb hb rfl nofun
  · exact .dsb hb rfl
  · exact .dmb hb rfl nofun
  · exact .dsb hb rfl

/-- Message passing is causal, in every run. Let a thread have written a cell, or read a write of it, before it wrote
a flag, as a release or behind a full barrier, and let another thread have read that write of the flag, as an acquire
or before a barrier of loads or of all accesses. Then each later read of the cell by the other thread returns no older
write, and each later write of it comes after that of the flag. -/
theorem message_passed (r : p.Run ds s) {i j : Nat} (hne : i ≠ j)
    {before between rest : List Action} {a : Action} {loc : Int} {x : Access} {flag : WriteRequest} {pre t : View}
    (hsent : actionsOf i ds = before ++ a :: between ++ .write flag pre t :: rest) (hx : a.access? loc = some x)
    (hflag : flag.kind = .release ∨ ∃ b, .barrier b ∈ between ∧ b.IsOf .sy)
    {before' between' rest' : List Action} {req : ReadRequest} {w : Memory.Read} {pre' post' : View} {last : Action}
    (hreceived : actionsOf j ds = before' ++ .read req w pre' post' :: between' ++ last :: rest') (hw : w.time = t)
    (hreq : req.kind = .acquire ∨ req.kind = .acquirePC ∨ ∃ b, .barrier b ∈ between' ∧ (b.IsOf .sy ∨ b.IsOf .ld)) :
    (∀ req' w' pre'' post'', last = .read req' w' pre'' post'' → req'.pa = loc → x.time ≤ w'.time) ∧
    ∀ req' pre'' t', last = .write req' pre'' t' → t < t' := by
  have hxt : x.time < t := r.time_lt_of_published hsent hx hflag
  have hwrite : s.memory.at? w.time = some (.write i flag.pa flag.value) := by
    have hmem : .write flag pre t ∈ actionsOf i ds := by simp [hsent]
    rw [hw]
    exact r.isIn hmem (if_pos rfl)
  have hpost : t ≤ post' := by
    have hmem : .read req w pre' post' ∈ actionsOf j ds := by simp [hreceived]
    rw [← hw]
    exact r.time_le_post hne hmem hwrite
  have later {pre'' : View} (hlast : last.pre? = some pre'') : t ≤ pre'' :=
    Int.le_trans hpost (r.view_le_pre hreceived rfl hlast (before_of_received hreq))
  have hstepped := frameInvariant_bounded.exists_step r hreceived
  constructor
  · rintro req' w' pre'' post'' rfl rfl
    obtain ⟨-, hreturned, hnewest⟩ := hstepped.read
    have ha : a ∈ actionsOf i ds := by simp [hsent]
    rcases (r.isIn ha hx).exists_write with h0 | ⟨k, v, hat⟩
    · rw [h0]
      rcases hreturned with ⟨k, hk⟩ | hinitial
      · exact Int.le_of_lt (Memory.pos_of_at? hk)
      · exact Int.le_of_eq (congrArg Memory.Read.time hinitial).symm
    · exact hnewest x.time k v hat (Int.le_trans (Int.le_of_lt hxt) (later rfl))
  · rintro req' pre'' t' rfl
    exact Int.lt_of_le_of_lt (later rfl) hstepped.write

end Program.Run

/-! ### Runs of single accesses -/

namespace Instr.Runs

variable {f g : Frame} {as : List Action}

/-- What a write that is not exclusive has done; the thread may forward from it. -/
theorem of_only_write {req : WriteRequest} (r : (Shape.only (.write req)).Runs f as g) (he : req.exclusive = false) :
    ∃ pre t, as = [.write req pre t] ∧ g.thread.forwards[req.pa]?.map Forward.time = some t := by
  cases r with | ask hs r =>
  cases r with | done =>
  cases hs with
  | writeFailed _ _ hexclusive =>
    rw [he] at hexclusive
    cases hexclusive
  | write =>
    refine ⟨_, _, rfl, ?_⟩
    rw [Frame.thread_afterWrite]
    simp

/-- What an explicit read has done; if it is exclusive, the thread monitors the write that it read. -/
theorem of_only_read {req : ReadRequest} (r : (Shape.only (.read req)).Runs f as g) (hk : req.kind.isExplicit = true) :
    ∃ w pre post, as = [.read req w pre post] ∧
      (req.exclusive = true → g.thread.monitor.map Monitor.time = some w.time) := by
  cases r with | ask hs r =>
  cases r with | done =>
  cases hs with
  | fetch hkind | descriptor hkind =>
    rw [hkind] at hk
    cases hk
  | read =>
    refine ⟨_, _, _, rfl, ?_⟩
    intro he
    rw [Frame.thread_afterRead]
    simp [he]

/-- What a barrier of memory accesses has done. -/
theorem of_dmb {kind : BarrierKind} (r : (Shape.dmb kind).Runs f as g) : as = [.barrier (.dmb kind .ish)] := by
  cases r with | ask hs r =>
  cases r with | done =>
  cases hs
  rfl

end Instr.Runs

/-- A thread writes a message and, behind a full barrier, a flag; another thread reads the flag as an acquire, and
then the message. -/
def flaggedMessage : Program where
  threads := [
    { code := [Shape.only (.write { pa := 0, value := 1 }), Shape.dmb .sy, Shape.only (.write { pa := 8, value := 1 })] },
    { code := [Shape.only (.read { pa := 8, kind := .acquire, exclusive := true }), Shape.only (.read { pa := 0 })] }]

theorem message_passed_flaggedMessage : ∃ ds s pre t pre' t' w wpre wpost w' wpre' wpost', flaggedMessage.Run ds s ∧
    actionsOf 0 ds = [.write { pa := 0, value := 1 } pre t, .barrier (.dmb .sy .ish),
      .write { pa := 8, value := 1 } pre' t'] ∧
    actionsOf 1 ds = [.read { pa := 8, kind := .acquire, exclusive := true } w wpre wpost,
      .read { pa := 0 } w' wpre' wpost'] ∧
    w.time = t' ∧ t ≤ w'.time := by
  let flagged (s : State) : Bool := (s.threads[0]?.map Slot.thread).any fun t =>
    decide (t.forwards[(8 : Int)]?.map Forward.time = some 2)
  let informed (s : State) : Bool := (s.threads[1]?.map Slot.thread).any fun t =>
    decide (t.monitor.map Monitor.time = some 2)
  have path : flaggedMessage.start.runsTo 0 0 (Shape.only (.write { pa := 0, value := 1 })) (fun s =>
      s.runsTo 0 1 (Shape.dmb .sy) fun s =>
        s.runsTo 0 2 (Shape.only (.write { pa := 8, value := 1 })) fun s => flagged s &&
          s.runsTo 1 0 (Shape.only (.read { pa := 8, kind := .acquire, exclusive := true })) fun s => informed s &&
            s.runsTo 1 1 (Shape.only (.read { pa := 0 })) fun _ => true) = true := by decide +kernel
  obtain ⟨_, as, _, s, has, r, -, path⟩ := Program.Run.start.exists_next path rfl rfl
  obtain ⟨_, bs, _, s, hbs, r, -, path⟩ := r.exists_next path rfl rfl
  obtain ⟨_, cs, _, s, hcs, r, hg, path⟩ := r.exists_next path rfl rfl
  obtain ⟨hflagged, path⟩ := (Bool.and_eq_true _ _).mp path
  obtain ⟨_, es, _, s, hes, r, hg', path⟩ := r.exists_next path rfl rfl
  obtain ⟨hinformed, path⟩ := (Bool.and_eq_true _ _).mp path
  obtain ⟨_, fs, _, s, hfs, r, -, -⟩ := r.exists_next path rfl rfl
  obtain ⟨pre, t, rfl, -⟩ := has.of_only_write rfl
  obtain rfl := hbs.of_dmb
  obtain ⟨pre', t', rfl, hwritten⟩ := hcs.of_only_write rfl
  obtain ⟨w, wpre, wpost, rfl, hread⟩ := hes.of_only_read rfl
  obtain ⟨w', wpre', wpost', rfl, -⟩ := hfs.of_only_read rfl
  simp only [flagged, hg, Option.any_some, decide_eq_true_eq, hwritten] at hflagged
  simp only [informed, hg', Option.any_some, decide_eq_true_eq, hread rfl] at hinformed
  have htime : w.time = t' := (Option.some.inj hinformed).trans (Option.some.inj hflagged).symm
  let ds : List Deed := [.ran 0 0 [.write { pa := 0, value := 1 } pre t], .ran 0 1 [.barrier (.dmb .sy .ish)],
    .ran 0 2 [.write { pa := 8, value := 1 } pre' t'],
    .ran 1 0 [.read { pa := 8, kind := .acquire, exclusive := true } w wpre wpost],
    .ran 1 1 [.read { pa := 0 } w' wpre' wpost']]
  have hsent : actionsOf 0 ds = [] ++ .write { pa := 0, value := 1 } pre t :: [.barrier (.dmb .sy .ish)] ++
      .write { pa := 8, value := 1 } pre' t' :: [] := rfl
  have hreceived : actionsOf 1 ds = [] ++ .read { pa := 8, kind := .acquire, exclusive := true } w wpre wpost :: [] ++
      .read { pa := 0 } w' wpre' wpost' :: [] := rfl
  obtain ⟨seen, -⟩ := Program.Run.message_passed (show flaggedMessage.Run ds s from r) (by decide : (0 : Nat) ≠ 1) hsent
    (if_pos rfl) (.inr ⟨_, List.mem_cons_self, .dmb⟩) hreceived htime (.inl rfl)
  exact ⟨ds, s, pre, t, pre', t', w, wpre, wpost, w', wpre', wpost', r, rfl, rfl, htime, seen _ _ _ _ rfl rfl⟩

end Litmus
