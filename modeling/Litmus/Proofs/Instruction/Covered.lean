import Litmus.Proofs.Instruction.Dataflow
import Litmus.Proofs.Instruction.Underway

/-!
Dependencies on everything. An instruction may name, as what an effect depends on, registers and reads that came before,
or leave it to the machine to count in everything that it has read. Main fact: everything covers whatever can be named.
A register that is named counts with its view as it is by then, and in everything with its view as it was read; so the
invariant is that no register that was read has got past everything since, although the instruction may have written it.
-/

namespace Litmus

/-- What the parts of an effect depend on. -/
def Effect.deps : Effect → List Deps
  | .writeReg _ _ deps | .maintain _ deps | .announceBranch _ deps => [deps]
  | .read req => [req.deps]
  | .write req => [req.addrDeps, req.dataDeps]
  | _ => []

/-- Whether an exchange is a read that can be named later: all are but fetches. -/
def Exchange.isRead (x : Exchange) : Bool :=
  match x.effect with
  | .read req => req.kind ≠ .fetch
  | _ => false

/-- Whether dependencies name only what these exchanges have read: registers, and reads by their numbers. -/
def Deps.Names (xs : List Exchange) : Deps → Prop
  | .explicit regs reads =>
    (∀ reg ∈ regs, ∃ x ∈ xs, x.effect = .readReg reg) ∧
      ∀ k ∈ reads, ∃ n : Nat, k = .whole n ∧ n < xs.countP Exchange.isRead
  | .implicit => True

/-- Whether an instruction, from this frame on and whichever way it goes, names only what it has read before. -/
def Instr.NamesOnlyRead (i : Instr) (f : Frame) : Prop :=
  ∀ (xs : List Exchange) (e : Effect) (next : e.Answer → Instr) (g : Frame), i.Exchanges f xs (.ask e next) g →
    ∀ deps ∈ e.deps, deps.Names xs

/-! ### Everything that was read -/

/-- The view of everything that an instruction has read. -/
def Scratch.everything (s : Scratch) : View := View.join s.regView (View.joinAll s.readViews)

namespace Scratch

variable {s : Scratch}

theorem regView_le_everything : s.regView ≤ s.everything := View.le_join_left _ _

theorem readView_le_everything {v : View} (h : v ∈ s.readViews) : v ≤ s.everything :=
  Int.le_trans (View.le_joinAll h) (View.le_join_right _ _)

theorem everything_nonneg : 0 ≤ s.everything :=
  Int.le_trans (View.joinAll_le.mp (Int.le_refl (View.joinAll s.readViews))).1 (View.le_join_right _ _)

theorem everything_le {v : View} : s.everything ≤ v ↔ s.regView ≤ v ∧ 0 ≤ v ∧ ∀ w ∈ s.readViews, w ≤ v := by
  rw [everything, View.join_le, View.joinAll_le]

end Scratch

namespace Effect.Step

variable {e : Effect} {f g : Frame} {v : e.Answer} {a : Action}

theorem regView_le (hs : e.Step f v g a) : f.scratch.regView ≤ g.scratch.regView := by
  cases hs with
  | readReg => exact View.le_join_left _ _
  | _ => exact Int.le_refl _

/-- A read that can be named adds its view to those of the others, and all further effects come after it. -/
theorem readViews_cases (hs : e.Step f v g a) :
    (Exchange.isRead ⟨f, e, v⟩ = false ∧ g.scratch.readViews = f.scratch.readViews) ∨
    ∃ view, Exchange.isRead ⟨f, e, v⟩ = true ∧ g.scratch.readViews = f.scratch.readViews ++ [view] ∧
      view ≤ g.scratch.strict := by
  cases hs with
  | fetch hk => exact .inl ⟨by simp [Exchange.isRead, hk], rfl⟩
  | descriptor hk => exact .inr ⟨_, by simp [Exchange.isRead, hk], rfl, View.le_join_right _ _⟩
  | @read req _ _ _ hk =>
    have hkind : req.kind ≠ .fetch := by
      intro e
      rw [e] at hk
      cases hk
    exact .inr ⟨_, by simp [Exchange.isRead, hkind], rfl, View.le_join_right _ _⟩
  | _ => exact .inl ⟨rfl, rfl⟩

/-- Everything that was read only grows. -/
theorem everything_le (hs : e.Step f v g a) : f.scratch.everything ≤ g.scratch.everything := by
  refine Scratch.everything_le.mpr ⟨?_, Scratch.everything_nonneg, ?_⟩
  · exact Int.le_trans hs.regView_le Scratch.regView_le_everything
  · intro w hw
    rcases hs.readViews_cases with ⟨-, hsame⟩ | ⟨view, -, hmore, -⟩
    · exact Scratch.readView_le_everything (hsame ▸ hw)
    · exact Scratch.readView_le_everything (hmore ▸ List.mem_append_left _ hw)

end Effect.Step

namespace Frame

/-- Whether everything that was read covers what these exchanges have read, as it is by now. -/
structure Covers (xs : List Exchange) (f : Frame) : Prop where
  registers : ∀ x ∈ xs, ∀ reg, x.effect = .readReg reg →
    ∃ held, f.thread.holds reg = .ok held ∧ held.view ≤ f.scratch.everything
  count_eq : f.scratch.readViews.length = xs.countP Exchange.isRead
  strict : 0 ≤ f.scratch.strict ∧ ∀ view ∈ f.scratch.readViews, view ≤ f.scratch.strict

namespace Covers

variable {xs : List Exchange} {f g : Frame}

theorem start (thread : Thread) (memory : Memory) : Covers [] { thread, memory } where
  registers x hx := by cases hx
  count_eq := rfl
  strict := ⟨Int.le_refl 0, fun view hview => by cases hview⟩

/-- Everything is no later than what the registers depended on and what all further effects come after. -/
theorem everything_le (h : f.Covers xs) : f.scratch.everything ≤ View.join f.scratch.regView f.scratch.strict :=
  Scratch.everything_le.mpr ⟨View.le_join_left _ _, Int.le_trans h.strict.1 (View.le_join_right _ _),
    fun w hw => Int.le_trans (h.strict.2 w hw) (View.le_join_right _ _)⟩

theorem exists_readView (h : f.Covers xs) {n : Nat} (hn : n < xs.countP Exchange.isRead) :
    ∃ view, f.scratch.readView (.whole n) = .ok view ∧ view ≤ f.scratch.everything := by
  rw [← h.count_eq] at hn
  refine ⟨f.scratch.readViews[n], ?_, Scratch.readView_le_everything (List.getElem_mem hn)⟩
  simp [Scratch.readView, hn]

/-- Everything covers what can be named. -/
theorem exists_depsView (h : f.Covers xs) {deps : Deps} (hd : deps.Names xs) :
    ∃ view, f.depsView deps = .ok view ∧ view ≤ f.scratch.everything := by
  cases deps with
  | implicit => exact ⟨_, rfl, Int.le_refl _⟩
  | explicit regs reads =>
    obtain ⟨hregs, hreads⟩ := hd
    have registers {reg : String} (hreg : reg ∈ regs) :
        ∃ held, f.thread.holds reg = .ok held ∧ held.view ≤ f.scratch.everything := by
      obtain ⟨x, hx, he⟩ := hregs reg hreg
      exact h.registers x hx reg he
    have views {k : Number} (hk : k ∈ reads) :
        ∃ view, f.scratch.readView k = .ok view ∧ view ≤ f.scratch.everything := by
      obtain ⟨n, rfl, hn⟩ := hreads k hk
      exact h.exists_readView hn
    obtain ⟨readViews, hviews⟩ := exists_mapM_eq_ok.mpr fun k hk => (views hk).imp fun _ hv => hv.1
    obtain ⟨held, hheld⟩ := exists_mapM_eq_ok.mpr fun reg hreg => (registers hreg).imp fun _ hr => hr.1
    refine ⟨View.joinAll (readViews ++ held.map (·.view)), ?_, ?_⟩
    · simp only [depsView, hviews, hheld, bind_eq_ok, pure_eq_ok]
      exact ⟨_, rfl, _, rfl, rfl⟩
    · refine View.joinAll_le.mpr ⟨Scratch.everything_nonneg, ?_⟩
      intro view hview
      rcases List.mem_append.mp hview with hview | hview
      · obtain ⟨k, hk, hkv⟩ := (mem_of_mapM_eq_ok hviews).mp hview
        obtain ⟨view', hview', hle⟩ := views hk
        rw [hkv] at hview'
        cases hview'
        exact hle
      · obtain ⟨r, hr, rfl⟩ := List.mem_map.mp hview
        obtain ⟨reg, hreg, hregr⟩ := (mem_of_mapM_eq_ok hheld).mp hr
        obtain ⟨r', hr', hle⟩ := registers hreg
        rw [hregr] at hr'
        cases hr'
        exact hle

/-- What a register holds that was read stays covered: an effect that writes it names only what is covered. -/
theorem holds_step {e : Effect} {v : e.Answer} {a : Action} (h : f.Covers xs) (hs : e.Step f v g a)
    (hd : ∀ deps ∈ e.deps, deps.Names xs) {reg : String}
    (hreg : ∃ held, f.thread.holds reg = .ok held ∧ held.view ≤ f.scratch.everything) :
    ∃ held, g.thread.holds reg = .ok held ∧ held.view ≤ g.scratch.everything := by
  by_cases he : ∃ value deps, e = .writeReg reg value deps
  · obtain ⟨value, deps, rfl⟩ := he
    cases hs with
    | writeReg hview =>
      obtain ⟨view, hview', hle⟩ := h.exists_depsView (hd deps (List.mem_singleton_self _))
      rw [hview] at hview'
      cases hview'
      exact ⟨_, by rw [Thread.holds_hold, if_pos rfl], hle⟩
  · obtain ⟨held, hheld, hle⟩ := hreg
    have hsame := hs.holds_eq fun value deps heq => he ⟨value, deps, heq⟩
    exact ⟨held, hsame.trans hheld, Int.le_trans hle hs.everything_le⟩

/-- Every effect that names only what was read keeps it covered. -/
theorem step {e : Effect} {v : e.Answer} {a : Action} (h : f.Covers xs) (hs : e.Step f v g a)
    (hd : ∀ deps ∈ e.deps, deps.Names xs) : g.Covers (xs ++ [⟨f, e, v⟩]) where
  registers x hx reg he := by
    rcases List.mem_append.mp hx with hx | hx
    · exact h.holds_step hs hd (h.registers x hx reg he)
    · obtain rfl := List.mem_singleton.mp hx
      dsimp only at he
      subst he
      cases hs with
      | readReg hheld => exact ⟨_, hheld, Int.le_trans (View.le_join_right _ _) Scratch.regView_le_everything⟩
  count_eq := by
    rw [List.countP_append, ← h.count_eq]
    rcases hs.readViews_cases with ⟨hread, hsame⟩ | ⟨view, hread, hmore, -⟩
    · simp [hread, hsame]
    · simp [hread, hmore]
  strict := by
    refine ⟨Int.le_trans h.strict.1 hs.strict_le, ?_⟩
    have earlier {w : View} (hw : w ∈ f.scratch.readViews) : w ≤ g.scratch.strict :=
      Int.le_trans (h.strict.2 w hw) hs.strict_le
    intro w hw
    rcases hs.readViews_cases with ⟨-, hsame⟩ | ⟨view, -, hmore, hle⟩
    · exact earlier (hsame ▸ hw)
    · rcases List.mem_append.mp (hmore ▸ hw) with hw | hw
      · exact earlier hw
      · exact List.mem_singleton.mp hw ▸ hle

/-- However far an instruction comes that names only what it has read, everything covers that. -/
theorem exchanges {i j : Instr} {ys : List Exchange} (hc : i.Exchanges f ys j g) (h : f.Covers xs)
    (hi : ∀ (zs : List Exchange) (e : Effect) (next : e.Answer → Instr) (k : Frame), i.Exchanges f zs (.ask e next) k →
      ∀ deps ∈ e.deps, deps.Names (xs ++ zs)) : g.Covers (xs ++ ys) := by
  induction hc generalizing xs with
  | here => rwa [List.append_nil]
  | @on e next f _ _ v _ _ _ hs _ ih =>
    have hd : ∀ deps ∈ e.deps, deps.Names xs := by
      have hhere := hi [] e next f .here
      rwa [List.append_nil] at hhere
    rw [List.append_cons]
    refine ih (h.step hs hd) ?_
    intro zs e' next' k hk
    rw [← List.append_cons]
    exact hi _ e' next' k (.on hs hk)

end Covers

end Frame

/-- At every point of every way through an instruction that names only registers and reads that it has read before, the
view of any registers and reads that it could name there is known, and no later than the view of everything that it has
read; and that is no later than what its registers depended on and what all further effects come after. It may have
written the registers since it read them, also system registers. -/
theorem Instr.Exchanges.explicit_le_implicit {i j : Instr} {thread : Thread} {memory : Memory} {xs : List Exchange}
    {g : Frame} (hi : i.NamesOnlyRead { thread, memory }) (hc : i.Exchanges { thread, memory } xs j g)
    {regs : List String} {reads : List Number} (hd : (Deps.explicit regs reads).Names xs) :
    ∃ named everything, g.depsView (.explicit regs reads) = .ok named ∧ g.depsView .implicit = .ok everything ∧
      named ≤ everything ∧ named ≤ View.join g.scratch.regView g.scratch.strict ∧
      everything ≤ View.join g.scratch.regView g.scratch.strict := by
  have hcovers := Frame.Covers.exchanges hc (.start thread memory) hi
  obtain ⟨named, hnamed, hle⟩ := hcovers.exists_depsView hd
  have hmost := hcovers.everything_le
  exact ⟨named, g.scratch.everything, hnamed, rfl, hle, Int.le_trans hle hmost, hmost⟩

/-- A load names only what it has read: its address register, and then the read of memory. -/
theorem Instr.namesOnlyRead_load {dst addr : String} {kind : ReadKind} {exclusive : Bool} (hk : kind ≠ .fetch)
    (f : Frame) : (Shape.load dst addr kind exclusive).NamesOnlyRead f := by
  intro xs e next g hc deps hdeps
  cases hc with
  | here => cases hdeps
  | on hreg hc =>
    cases hc with
    | here =>
      obtain rfl := List.mem_singleton.mp hdeps
      simp [Deps.Names]
    | on hread hc =>
      cases hc with
      | here =>
        obtain rfl := List.mem_singleton.mp hdeps
        refine ⟨fun reg hreg => (List.not_mem_nil hreg).elim, fun k hk' => ⟨0, List.mem_singleton.mp hk', ?_⟩⟩
        simp [Exchange.isRead, hk]
      | on _ hc => cases hc

/-- A load into its own address register, of what another thread wrote at time 1: the register ends up with a later view
than it was read with, and everything that the load has read covers it. -/
theorem Instr.explicit_le_implicit_loadThrough :
    ∃ (thread : Thread) (memory : Memory) (xs : List Exchange) (g : Frame),
      (Shape.load "X0" "X0" .plain false).Exchanges { thread, memory } xs .done g ∧
      (Deps.explicit ["X0"] [0]).Names xs ∧ (∃ held, g.thread.holds "X0" = .ok held ∧ held.view = 1) ∧
      ∃ named everything, g.depsView (.explicit ["X0"] [0]) = .ok named ∧ g.depsView .implicit = .ok everything ∧
        named ≤ everything ∧ named ≤ View.join g.scratch.regView g.scratch.strict ∧
        everything ≤ View.join g.scratch.regView g.scratch.strict := by
  let thread : Thread := .start 0 (.ofList [("X0", 0)] compare)
  let memory : Memory := ⟨[.write 1 0 8], ∅, 0, 1, by decide, by decide⟩
  let req : ReadRequest := { pa := 0, deps := .explicit ["X0"] [] }
  let f : Frame := { scratch := Scratch.start.addRegRead 0, thread, memory }
  have hstart : thread.holds "X0" = .ok ⟨0, 0⟩ := by decide +kernel
  have hreg : (Effect.readReg "X0").Step { thread, memory } 0 f .other := @Effect.Step.readReg _ _ ⟨0, 0⟩ hstart
  have hread : (Effect.read req).Step f 8 (f.afterRead req 0 ⟨8, 1⟩) _ :=
    .read (r := ⟨8, 1⟩) rfl rfl rfl (by decide +kernel) (by decide +kernel) (by decide +kernel)
  have hview : (f.afterRead req 0 ⟨8, 1⟩).depsView (.explicit [] [0]) = .ok 1 := by decide +kernel
  have hwrite : (Effect.writeReg "X0" 8 (.explicit [] [0])).Step (f.afterRead req 0 ⟨8, 1⟩) () _ .other := .writeReg hview
  let xs : List Exchange := [⟨{ thread, memory }, .readReg "X0", 0⟩, ⟨f, .read req, 8⟩,
    ⟨f.afterRead req 0 ⟨8, 1⟩, .writeReg "X0" 8 (.explicit [] [0]), ()⟩]
  have hc : (Shape.load "X0" "X0" .plain false).Exchanges { thread, memory } xs .done _ :=
    .on hreg (.on hread (.on hwrite .here))
  have hd : (Deps.explicit ["X0"] [0]).Names xs :=
    ⟨by simp [xs], fun k hk => ⟨0, List.mem_singleton.mp hk, by decide +kernel⟩⟩
  have hheld := Thread.holds_hold (f.afterRead req 0 ⟨8, 1⟩).thread "X0" ⟨8, 1⟩ "X0"
  rw [if_pos rfl] at hheld
  exact ⟨thread, memory, xs, _, hc, hd, ⟨_, hheld, rfl⟩, hc.explicit_le_implicit (namesOnlyRead_load (by decide) _) hd⟩

end Litmus
