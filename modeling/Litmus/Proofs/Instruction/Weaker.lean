import Litmus.Proofs.Instruction.Growth
import Litmus.Proofs.Thread.Below

/-!
Effects under earlier views. Where one frame is below another, and no walk is in flight, whatever an effect does in
the other it can do in the one as well, with the same answer and the same events, and so can an effect that asks for
a weaker access. Main fact: an instruction that was strengthened does nothing that the instruction itself could not do.
-/

namespace Litmus

/-! ### Stronger accesses -/

/-- The kinds that a kind of read may be raised to. -/
inductive ReadKind.Raises : ReadKind → ReadKind → Prop
  | refl {k : ReadKind} : Raises k k
  | acquirePC : Raises .plain .acquirePC
  | acquire : Raises .plain .acquire
  | acquirePC_acquire : Raises .acquirePC .acquire

/-- The kinds that a kind of write may be raised to. -/
inductive WriteKind.Raises : WriteKind → WriteKind → Prop
  | refl {k : WriteKind} : Raises k k
  | release : Raises .plain .release

/-- Whether one instruction is another with the kinds of some reads and writes raised, whatever it is answered. -/
inductive Instr.Strengthens : Instr → Instr → Prop
  | done : Strengthens .done .done
  | thrown {t : Trouble} : Strengthens (.thrown t) (.thrown t)
  | ask {e : Effect} {next next' : e.Answer → Instr} :
      (∀ v, Strengthens (next v) (next' v)) → Strengthens (.ask e next) (.ask e next')
  | read {req : ReadRequest} {kind : ReadKind} {next next' : Int → Instr} :
      req.kind.Raises kind → (∀ v, Strengthens (next v) (next' v)) →
      Strengthens (.ask (.read req) next) (.ask (.read { req with kind }) next')
  | write {req : WriteRequest} {kind : WriteKind} {next next' : Bool → Instr} :
      req.kind.Raises kind → (∀ v, Strengthens (next v) (next' v)) →
      Strengthens (.ask (.write req) next) (.ask (.write { req with kind }) next')

/-- Whether an effect neither fetches an instruction nor starts a walk. -/
def Effect.isUntranslated : Effect → Bool
  | .read req => req.kind ≠ .fetch
  | .startWalk _ => false
  | _ => true

/-- Whether an instruction neither fetches nor starts walks, whatever it is answered. -/
inductive Instr.Untranslated : Instr → Prop
  | done : Untranslated .done
  | thrown {t : Trouble} : Untranslated (.thrown t)
  | ask {e : Effect} {next : e.Answer → Instr} :
      e.isUntranslated = true → (∀ v, Untranslated (next v)) → Untranslated (.ask e next)

namespace ReadKind.Raises

variable {k l : ReadKind}

theorem ne_plain (h : k.Raises l) (hk : k ≠ .plain) : l ≠ .plain := by cases h <;> simp_all

theorem eq_acquire (h : k.Raises l) (hk : k = .acquire) : l = .acquire := by cases h <;> simp_all

theorem eq_fetch (h : k.Raises l) (hl : l = .fetch) : k = .fetch := by cases h <;> simp_all

theorem isExplicit (h : k.Raises l) (hl : l.isExplicit = true) : k.isExplicit = true := by
  cases h <;> exact hl

end ReadKind.Raises

theorem WriteKind.Raises.eq_release {k l : WriteKind} (h : k.Raises l) (hk : k = .release) : l = .release := by
  cases h <;> simp_all

/-! ### Frames -/

/-- Whether an instruction has read the same as another one, and none of its views is later; neither walks tables. -/
structure Scratch.Below (s u : Scratch) : Prop where
  regView : s.regView ≤ u.regView
  strict : s.strict ≤ u.strict
  readViews : List.Forall₂ (· ≤ ·) s.readViews u.readViews
  unbounded : s.bound = .infinity
  grounded : u.flights = ∅

/-- Whether a frame has the memory of another one, and none of its views is later. -/
structure Frame.Below (f g : Frame) : Prop where
  memory_eq : f.memory = g.memory
  thread : f.thread.Below g.thread
  scratch : f.scratch.Below g.scratch

namespace Scratch.Below

variable {s u : Scratch} {v w : View}

theorem start : Scratch.start.Below .start := ⟨Int.le_refl _, Int.le_refl _, .nil, rfl, rfl⟩

theorem addRegRead (h : s.Below u) (hv : v ≤ w) : (s.addRegRead v).Below (u.addRegRead w) :=
  { h with regView := View.join_mono h.regView hv }

theorem addStrict (h : s.Below u) (hv : v ≤ w) : (s.addStrict v).Below (u.addStrict w) :=
  { h with strict := View.join_mono h.strict hv }

theorem addRead (h : s.Below u) (hv : v ≤ w) : (s.addRead v).Below (u.addRead w) :=
  { h.addStrict hv with readViews := List.rel_append h.readViews (.cons hv .nil) }

theorem readView (h : s.Below u) {index : Number} (hw : u.readView index = .ok w) :
    ∃ v, s.readView index = .ok v ∧ v ≤ w := by
  cases index with
  | fraction | infinite => cases hw
  | whole n =>
    simp only [Scratch.readView] at hw ⊢
    by_cases hn : 0 ≤ n
    · rw [if_pos hn] at hw ⊢
      split at hw
      · next hu =>
        cases hw
        obtain ⟨v, hs, hv⟩ := exists_of_rel (rel_getElem? h.readViews n.toNat) hu
        exact ⟨v, by rw [hs], hv⟩
      · cases hw
    · rw [if_neg hn] at hw
      cases hw

end Scratch.Below

namespace Frame.Below

variable {f g : Frame} {v w : View}

/-- Dependencies amount to no later a view. -/
theorem depsView (h : f.Below g) {deps : Deps} (hw : g.depsView deps = .ok w) :
    ∃ v, f.depsView deps = .ok v ∧ v ≤ w := by
  cases deps with
  | implicit =>
    cases hw
    exact ⟨_, rfl, View.join_mono h.scratch.regView (View.joinAll_mono h.scratch.readViews)⟩
  | explicit regs reads =>
    simp only [Frame.depsView, bind_eq_ok, pure_eq_ok] at hw ⊢
    obtain ⟨readViews, hreads, held, hheld, rfl⟩ := hw
    obtain ⟨readViews', hreads', hle⟩ := mapM_alike (R := fun w v => v ≤ w) (g := f.scratch.readView)
      (fun _ _ _ hw => h.scratch.readView hw) hreads
    obtain ⟨held', hheld', hbelow⟩ := mapM_alike (R := fun b a => Reg.Below a b) (g := f.thread.holds)
      (fun _ _ _ hb => h.thread.holds hb) hheld
    refine ⟨_, ⟨readViews', hreads', held', hheld', rfl⟩, View.joinAll_mono ?_⟩
    exact List.rel_append hle.flip (List.rel_map (fun _ _ hab => hab.view_le) hbelow.flip)

theorem readPre_le (h : f.Below g) (req : ReadRequest) {kind : ReadKind} (hk : req.kind.Raises kind) (hv : v ≤ w) :
    f.readPre req v ≤ g.readPre { req with kind } w := by
  have views := h.thread.views.le
  have releases : (if req.kind = .acquire then f.thread.views.releases else 0) ≤
      if kind = .acquire then g.thread.views.releases else 0 := by
    by_cases hacquire : req.kind = .acquire
    · rw [if_pos hacquire, if_pos (hk.eq_acquire hacquire)]
      exact views .releases
    · rw [if_neg hacquire]
      split
      · exact h.thread.views.nonneg .releases
      · exact Int.le_refl 0
  exact View.joinAll_mono (.cons hv (.cons (views .barrier) (.cons (views .syncBarrier) (.cons (views .contextSync)
    (.cons (views .acquires) (.cons releases (.cons h.scratch.strict .nil)))))))

/-- A read adds no later a view: a forwarded write adds one that is not past the write. -/
theorem readContribution_le (h : f.Below g) (req : ReadRequest) {kind : ReadKind} (hk : req.kind.Raises kind)
    (loc : Int) (r : Memory.Read) : f.readContribution req loc r ≤ g.readContribution { req with kind } loc r := by
  rw [Frame.readContribution, Frame.readContribution]
  have hforward := h.thread.forwards loc
  generalize f.thread.forwards[loc]? = x at hforward
  generalize g.thread.forwards[loc]? = y at hforward
  cases hforward with
  | none => exact Int.le_refl _
  | @some a b hab =>
    dsimp only
    rw [← hab.time_eq, ← hab.exclusive_eq]
    by_cases ht : a.time ≠ r.time
    · refine Int.le_of_eq ?_
      rw [if_pos ht, if_pos ht]
    · rw [if_neg ht, if_neg ht]
      by_cases hx : a.exclusive = true ∧ (req.kind ≠ .plain ∨ req.exclusive = true)
      · refine Int.le_of_eq ?_
        rw [if_pos hx, if_pos ⟨hx.1, hx.2.imp_left hk.ne_plain⟩]
      · rw [if_neg hx]
        split
        · exact hab.view_le_time
        · exact hab.view_le

theorem readPost_le (h : f.Below g) (req : ReadRequest) {kind : ReadKind} (hk : req.kind.Raises kind) (hv : v ≤ w)
    (r : Memory.Read) : f.readPost req v r ≤ g.readPost { req with kind } w r :=
  View.join_mono (h.readPre_le req hk hv) (h.readContribution_le req hk req.pa r)

theorem writePre_le (h : f.Below g) (req : WriteRequest) {kind : WriteKind} (hk : req.kind.Raises kind) {v' w' : View}
    (hv : v ≤ w) (hv' : v' ≤ w') : f.writePre req v v' ≤ g.writePre { req with kind } w w' := by
  have views := h.thread.views.le
  have released : (if req.kind = .release then View.join f.thread.views.reads f.thread.views.writes else 0) ≤
      if kind = .release then View.join g.thread.views.reads g.thread.views.writes else 0 := by
    by_cases hrelease : req.kind = .release
    · rw [if_pos hrelease, if_pos (hk.eq_release hrelease)]
      exact View.join_mono (views .reads) (views .writes)
    · rw [if_neg hrelease]
      split
      · exact Int.le_trans (h.thread.views.nonneg .reads) (View.le_join_left _ _)
      · exact Int.le_refl 0
  exact View.joinAll_mono (.cons hv (.cons hv' (.cons (views .speculation) (.cons (views .storeBarrier)
    (.cons (views .barrier) (.cons (views .syncBarrier) (.cons (views .contextSync) (.cons (views .acquires)
    (.cons released (.cons h.scratch.strict .nil))))))))))

end Frame.Below

/-! ### Accesses -/

namespace Views.Below

variable {v w : Views} {x y : View}

theorem afterRead (h : v.Below w) {k l : ReadKind} (hk : k.Raises l) {addr addr' : View} (ha : addr ≤ addr') (hx : x ≤ y) :
    (v.afterRead k addr x).Below (w.afterRead l addr' y) := by
  have hreads := h.raise .reads hx
  rw [Views.afterRead, Views.afterRead]
  by_cases hplain : k ≠ .plain
  · rw [if_pos hplain, if_pos (hk.ne_plain hplain)]
    exact (hreads.raise .acquires hx).raise .speculation ha
  · rw [if_neg hplain]
    split
    · exact (hreads.raise_right .acquires y).raise .speculation ha
    · exact hreads.raise .speculation ha

theorem afterWrite (h : v.Below w) {k l : WriteKind} (hk : k.Raises l) (t : View) :
    (v.afterWrite k t).Below (w.afterWrite l t) := by
  have hwrites := h.raise .writes (Int.le_refl t)
  rw [Views.afterWrite, Views.afterWrite]
  by_cases hrelease : k = .release
  · rw [if_pos hrelease, if_pos (hk.eq_release hrelease)]
    exact hwrites.raise .releases (Int.le_refl t)
  · rw [if_neg hrelease]
    split
    · exact hwrites.raise_right .releases t
    · exact hwrites

end Views.Below

namespace Frame.Below

variable {f g : Frame} {v w : View}

theorem place_eq (h : f.Below g) (e : Event) : f.place e = g.place e := by
  rw [Frame.place, Frame.place, h.memory_eq, h.thread.promises_eq]

theorem readCandidates (h : f.Below g) (req : ReadRequest) {kind : ReadKind} (hk : req.kind.Raises kind) (hv : v ≤ w)
    {r : Memory.Read} (hr : r ∈ g.readCandidates { req with kind } req.pa w) : r ∈ f.readCandidates req req.pa v := by
  obtain ⟨hr, hp⟩ := List.mem_filter.mp hr
  rw [← h.memory_eq] at hr
  refine List.mem_filter.mpr ⟨Memory.mem_candidates_of_le ?_ hr, ?_⟩
  · exact View.join_mono (h.readPre_le req hk hv) (Int.le_of_eq (h.thread.coherenceOf_eq req.pa))
  · rw [h.thread.promises_eq]
    exact hp

theorem afterRead (h : f.Below g) (req : ReadRequest) {kind : ReadKind} (hk : req.kind.Raises kind) (hv : v ≤ w)
    (r : Memory.Read) : (f.afterRead req v r).Below (g.afterRead { req with kind } w r) := by
  have hpost := h.readPost_le req hk hv r
  refine ⟨h.memory_eq, ?_, h.scratch.addRead hpost⟩
  rw [thread_afterRead, thread_afterRead]
  refine { h.thread with coherence_eq := ?_, views := h.thread.views.afterRead hk hv hpost, monitor := ?_ }
  · rw [h.thread.coherence_eq, h.thread.coherenceOf_eq]
  · dsimp only
    split
    · exact .some ⟨rfl, rfl⟩
    · exact h.thread.monitor

theorem exclusiveTrouble_eq (h : f.Below g) (m : Memory) (loc : Int) (t : View) :
    f.exclusiveTrouble m loc t = g.exclusiveTrouble m loc t := by
  rw [Frame.exclusiveTrouble, Frame.exclusiveTrouble, h.thread.tid_eq]
  have hmonitor := h.thread.monitor
  generalize f.thread.monitor = x at hmonitor
  generalize g.thread.monitor = y at hmonitor
  cases hmonitor with
  | none => rfl
  | some hab =>
    dsimp only
    rw [hab.1, hab.2]

/-- A write that can succeed can do so under earlier views. -/
theorem writeTrouble_eq_none (h : f.Below g) (req : WriteRequest) {kind : WriteKind} {m : Memory} {loc : Int} {t : View}
    (hv : v ≤ w) (ht : g.writeTrouble { req with kind } m loc w t = none) : f.writeTrouble req m loc v t = none := by
  obtain ⟨hpre, hseen⟩ := lt_of_writeTrouble ht
  have hlt : ¬t ≤ View.join v (f.thread.coherenceOf loc) := by
    rw [h.thread.coherenceOf_eq, Int.not_le]
    exact Int.max_lt.mpr ⟨Int.lt_of_le_of_lt hv hpre, hseen⟩
  rw [writeTrouble] at ht ⊢
  rw [if_neg hlt, h.scratch.unbounded, if_neg (Number.not_infinity_lt _), h.exclusiveTrouble_eq]
  split at ht
  · cases ht
  · split at ht
    · cases ht
    · exact ht

theorem afterWrite (h : f.Below g) (req : WriteRequest) {kind : WriteKind} (hk : req.kind.Raises kind) {t : View}
    (hv : v ≤ w) (hlt : v < t) (m : Memory) (promised : Bool) :
    (f.afterWrite req v t m promised).Below (g.afterWrite { req with kind } w t m promised) := by
  refine ⟨rfl, ?_, h.scratch.addStrict (Int.le_refl t)⟩
  rw [thread_afterWrite, thread_afterWrite]
  refine { h.thread with
    promises_eq := ?_, coherence_eq := ?_, views := h.thread.views.afterWrite hk t, forwards := ?_, monitor := ?_ }
  · rw [h.thread.promises_eq]
  · rw [h.thread.coherence_eq, h.thread.coherenceOf_eq]
  · intro loc
    dsimp only
    rw [Std.ExtTreeMap.getElem?_insert, Std.ExtTreeMap.getElem?_insert]
    split
    · exact .some ⟨rfl, rfl, hv, Int.le_of_lt hlt⟩
    · exact h.thread.forwards loc
  · dsimp only
    split
    · exact .none
    · exact h.thread.monitor

theorem afterMaintain (h : f.Below g) (t : View) (m : Memory) (promised : Bool) :
    (f.afterMaintain t m promised).Below (g.afterMaintain t m promised) := by
  refine ⟨rfl, ?_, h.scratch.addStrict (Int.le_refl t)⟩
  rw [thread_afterMaintain, thread_afterMaintain]
  refine { h.thread with promises_eq := ?_, views := h.thread.views.raise .maintenance (Int.le_refl t) }
  rw [h.thread.promises_eq]

theorem maintainPre_le (h : f.Below g) (hv : v ≤ w) : f.maintainPre v ≤ g.maintainPre w := by
  have views := h.thread.views.le
  exact View.joinAll_mono (.cons (views .contextSync) (.cons (views .syncBarrier) (.cons h.scratch.strict (.cons hv .nil))))

theorem synchronize (h : f.Below g) : f.synchronize.Below g.synchronize :=
  ⟨h.memory_eq, h.thread.contextSync.withCache _ _, h.scratch⟩

theorem raised (h : f.Below g) (c : Counter) (hv : v ≤ w) : (f.raised (c, v)).Below (g.raised (c, w)) :=
  ⟨h.memory_eq, h.thread.raise c hv, h.scratch⟩

theorem dmb (h : f.Below g) (kind : BarrierKind) :
    (f.raised (Frame.dmbEffect f.thread.views kind)).Below (g.raised (Frame.dmbEffect g.thread.views kind)) := by
  have views := h.thread.views.le
  cases kind with
  | sy =>
    exact h.raised .barrier (View.joinAll_mono (.cons (views .reads) (.cons (views .writes) (.cons (views .contextSync)
      (.cons (views .syncBarrier) .nil)))))
  | ld =>
    exact h.raised .barrier (View.joinAll_mono (.cons (views .reads) (.cons (views .contextSync)
      (.cons (views .syncBarrier) .nil))))
  | st =>
    exact h.raised .storeBarrier (View.joinAll_mono (.cons (views .writes) (.cons (views .contextSync)
      (.cons (views .syncBarrier) .nil))))

theorem dsb (h : f.Below g) (kind : BarrierKind) :
    (f.raised (Frame.dsbEffect f.thread.views kind)).Below (g.raised (Frame.dsbEffect g.thread.views kind)) := by
  have views := h.thread.views.le
  cases kind with
  | sy =>
    exact h.raised .syncBarrier (View.joinAll_mono (.cons (views .reads) (.cons (views .writes)
      (.cons (views .maintenance) (.cons (views .contextSync) .nil)))))
  | ld => exact h.raised .syncBarrier (View.join_mono (views .reads) (views .contextSync))
  | st =>
    exact h.raised .syncBarrier (View.joinAll_mono (.cons (views .writes) (.cons (views .maintenance)
      (.cons (views .contextSync) .nil))))

end Frame.Below

/-! ### Steps -/

namespace Effect.Step

variable {f g g' : Frame} {a : Action}

/-- A read of a raised kind does nothing that the read itself could not do under earlier views. -/
theorem weaken_read {req : ReadRequest} {kind : ReadKind} {value : Int}
    (hs : Effect.Step (.read { req with kind }) g value g' a) (h : f.Below g) (hk : req.kind.Raises kind)
    (hf : req.kind ≠ .fetch) : ∃ f' b, Effect.Step (.read req) f value f' b ∧ f'.Below g' := by
  cases hs with
  | fetch hfetch => exact absurd (hk.eq_fetch hfetch) hf
  | descriptor _ _ _ hw =>
    rw [h.scratch.grounded] at hw
    simp at hw
  | @read _ _ w r hx hsize ha hd hr =>
    obtain ⟨v, hd', hv⟩ := h.depsView hd
    have hbound : ¬f.scratch.bound < .whole (f.readPost req v r) := by
      rw [h.scratch.unbounded]
      exact Number.not_infinity_lt _
    exact ⟨_, _, .read (hk.isExplicit hx) hsize ha hd' (h.readCandidates req hk hv hr) hbound, h.afterRead req hk hv r⟩

/-- A write of a raised kind does nothing that the write itself could not do under earlier views. -/
theorem weaken_write {req : WriteRequest} {kind : WriteKind} {wrote : Bool}
    (hs : Effect.Step (.write { req with kind }) g wrote g' a) (h : f.Below g) (hk : req.kind.Raises kind) :
    ∃ f' b, Effect.Step (.write req) f wrote f' b ∧ f'.Below g' := by
  cases hs with
  | @write _ _ w w' t m promised hsize ha hd hd' hp ht =>
    obtain ⟨v, haddr, hv⟩ := h.depsView hd
    obtain ⟨v', hdata, hv'⟩ := h.depsView hd'
    have ht' := h.writeTrouble_eq_none req (h.writePre_le req hk hv hv') ht
    have hoperands : View.join v v' ≤ f.writePre req v v' :=
      View.join_le.mpr ⟨View.le_joinAll (by simp), View.le_joinAll (by simp)⟩
    have hlt := Int.lt_of_le_of_lt hoperands (Frame.lt_of_writeTrouble ht').1
    rw [← h.thread.tid_eq, ← h.place_eq] at hp
    exact ⟨_, _, .write hsize ha haddr hdata hp ht', h.afterWrite req hk (View.join_mono hv hv') hlt m promised⟩
  | writeFailed hsize ha he =>
    exact ⟨_, _, .writeFailed hsize ha he, h.memory_eq, h.thread.unmonitored, h.scratch⟩

/-- What an effect does it can do under earlier views as well, unless it has to do with walks or fetches. -/
theorem weaken {e : Effect} {x : e.Answer} (hs : e.Step g x g' a) (h : f.Below g) (he : e.isUntranslated = true) :
    ∃ f' b, e.Step f x f' b ∧ f'.Below g' := by
  have grounded {page : Int} {w : Flight} (hw : g.scratch.flights[page]? = some w) : False := by
    rw [h.scratch.grounded] at hw
    simp at hw
  cases hs with
  | readReg hb =>
    obtain ⟨held, hheld, hbelow⟩ := h.thread.holds hb
    rw [← hbelow.value_eq]
    exact ⟨_, _, .readReg hheld, h.memory_eq, h.thread, h.scratch.addRegRead hbelow.view_le⟩
  | @writeReg reg value _ _ _ hd =>
    obtain ⟨v, hd, hv⟩ := h.depsView hd
    exact ⟨_, _, .writeReg hd, h.memory_eq, h.thread.hold reg ⟨rfl, hv⟩, h.scratch⟩
  | fetch hk => simp [Effect.isUntranslated, hk] at he
  | descriptor _ _ _ hw => exact (grounded hw).elim
  | read hk hsize ha hd hr hb =>
    exact weaken_read (.read hk hsize ha hd hr hb) h .refl (by simpa [Effect.isUntranslated] using he)
  | write hsize ha hd hd' hp ht => exact weaken_write (.write hsize ha hd hd' hp ht) h .refl
  | writeFailed hsize ha hx => exact weaken_write (.writeFailed hsize ha hx) h .refl
  | @dmb kind _ _ hdomain => exact ⟨_, _, .dmb hdomain, h.dmb kind⟩
  | @dsb kind _ _ hdomain => exact ⟨_, _, .dsb hdomain, h.dsb kind⟩
  | isb => exact ⟨_, _, .isb, h.synchronize⟩
  | @maintain _ _ _ m w t n promised hreq hd hp ht =>
    obtain ⟨v, hd, hv⟩ := h.depsView hd
    rw [← h.thread.tid_eq, ← h.place_eq] at hp
    exact ⟨_, _, .maintain hreq hd hp (Int.lt_of_le_of_lt (h.maintainPre_le hv) ht), h.afterMaintain t n promised⟩
  | announceBranch hd =>
    obtain ⟨v, hd, hv⟩ := h.depsView hd
    exact ⟨_, _, .announceBranch hd, h.raised .speculation hv⟩
  | startWalk => cases he
  | endWalk hw => exact (grounded hw).elim
  | cacheWalk hw => exact (grounded hw).elim
  | returnFromException => exact ⟨_, _, .returnFromException, h.synchronize⟩
  | halt => exact ⟨_, _, .halt, h.synchronize⟩
  | choose hp hv => exact ⟨_, _, .choose hp hv, h⟩

end Effect.Step

/-- An instruction that was strengthened does nothing that the instruction itself could not do under earlier views. -/
theorem Instr.Strengthens.weaken {i i' : Instr} (hi : i.Strengthens i') (hu : i.Untranslated) {f g g' : Frame}
    {as : List Action} (r : i'.Runs g as g') (h : f.Below g) : ∃ bs f', i.Runs f bs f' ∧ f'.Below g' := by
  induction hi generalizing f g as with
  | done =>
    cases r
    exact ⟨_, _, .done, h⟩
  | thrown => cases r
  | ask _ ih =>
    cases hu with
    | ask he hu =>
      cases r with
      | ask hs r =>
        obtain ⟨f', b, hs, h⟩ := hs.weaken h he
        obtain ⟨bs, f'', hr, h⟩ := ih _ (hu _) r h
        exact ⟨_, _, .ask hs hr, h⟩
  | read hk _ ih =>
    cases hu with
    | ask he hu =>
      cases r with
      | ask hs r =>
        obtain ⟨f', b, hs, h⟩ := hs.weaken_read h hk (by simpa [Effect.isUntranslated] using he)
        obtain ⟨bs, f'', hr, h⟩ := ih _ (hu _) r h
        exact ⟨_, _, .ask hs hr, h⟩
  | write hk _ ih =>
    cases hu with
    | ask he hu =>
      cases r with
      | ask hs r =>
        obtain ⟨f', b, hs, h⟩ := hs.weaken_write h hk
        obtain ⟨bs, f'', hr, h⟩ := ih _ (hu _) r h
        exact ⟨_, _, .ask hs hr, h⟩

end Litmus
