import Litmus.Proofs.Instruction.CacheOrder
import Litmus.Proofs.Outcome.Shuffled

/-!
Running an instruction with a cache in another order. Only the walks that may be taken are told from the cache, and
they are the same walks in another order. Main fact: the instruction has the same leaves in another order, with results
that differ in the order of the cache alone.
-/

namespace Litmus

open Paging

namespace Frame

variable {f g : Frame} {c : Cache} {m : Number}

/-- The frames are the same but for the order of the cache. -/
def Recached (f g : Frame) : Prop := ∃ c : Cache, c.Alike f.thread.cache ∧ g = f.recached c

theorem Recached.symm (h : f.Recached g) : g.Recached f := by
  obtain ⟨c, hc, rfl⟩ := h
  exact ⟨f.thread.cache, hc.symm, rfl⟩

theorem Recached.refl (f : Frame) : f.Recached f := ⟨f.thread.cache, fun _ => Iff.rfl, rfl⟩

/-- The answers are the same, and the frames but for the order of the cache. -/
def AnswersAlike {α : Type} (x y : Frame × α) : Prop := x.1.Recached y.1 ∧ x.2 = y.2

theorem AnswersAlike.refl {α : Type} (x : Frame × α) : AnswersAlike x x := ⟨.refl x.1, rfl⟩

theorem depsView_recached (f : Frame) (c : Cache) (deps : Deps) : (f.recached c).depsView deps = f.depsView deps := by
  cases deps <;> rfl

theorem readFrom_recached (hc : c.Alike f.thread.cache) (req : ReadRequest) (addr : View) (r : Memory.Read) :
    (f.readFrom req req.pa addr r).Shuffled m AnswersAlike ((f.recached c).readFrom req req.pa addr r) := by
  change Outcome.Shuffled m AnswersAlike (if f.scratch.bound < .whole (f.readPost req addr r) then _ else
      Outcome.done (f.afterRead req addr r, r.value))
    (if f.scratch.bound < .whole (f.readPost req addr r) then _ else
      Outcome.done ((f.recached c).afterRead req addr r, r.value))
  split
  · exact .discard
  · rw [afterRead_recached]
    refine .done ⟨⟨c, ?_, rfl⟩, rfl⟩
    rw [thread_afterRead]
    exact hc

/-- A location that is one is the address itself. -/
theorem location_recached {pa : Int} : (liftM (checkLocation pa) : Outcome Int).Shuffled m
    (fun l k => l = pa ∧ k = l) (liftM (checkLocation pa)) :=
  .lift (fun l hl => ⟨l, hl, (checkLocation_eq_ok.mp hl).2, rfl⟩) fun l hl => ⟨l, hl⟩

theorem readExplicit_recached (hc : c.Alike f.thread.cache) (req : ReadRequest) :
    (f.readExplicit req).Shuffled m AnswersAlike ((f.recached c).readExplicit req) := by
  refine location_recached.bind ?_
  rintro _ _ ⟨rfl, rfl⟩
  rw [depsView_recached]
  refine .bind_same _ fun addr => ?_
  exact .among (.refl _) fun r => readFrom_recached hc req addr r

/-- A read chooses nothing, or is a plain or acquire read of a cell. -/
theorem read_single_or (req : ReadRequest) :
    (∀ f : Frame, (f.read req).Single) ∨ ∀ f : Frame, f.read req = f.readExplicit req := by
  by_cases hfetch : req.kind = .fetch
  · refine .inl fun f => ?_
    rw [read, if_pos hfetch]
    exact .bind_lift fun _ => .done
  by_cases hsize : req.size ≠ 8
  · refine .inl fun f => ?_
    rw [read, if_neg hfetch, if_pos hsize]
    exact .thrown
  by_cases hwalk : req.kind = .walk
  · refine .inl fun f => ?_
    rw [read, if_neg hfetch, if_neg hsize, if_pos hwalk]
    exact .lift
  · exact .inr fun f => by rw [read, if_neg hfetch, if_neg hsize, if_neg hwalk]

theorem store_recached (hc : c.Alike f.thread.cache) (req : WriteRequest) :
    (f.store req req.pa).Shuffled m AnswersAlike ((f.recached c).store req req.pa) := by
  rw [store, store, depsView_recached, depsView_recached]
  refine .bind_same _ fun addr => ?_
  refine .bind_same _ fun data => ?_
  refine .bind_same (liftM (f.place _)) ?_
  rintro ⟨memory, t, promised⟩
  have htrouble : (f.recached c).writeTrouble req memory req.pa ((f.recached c).writePre req addr data) t =
      f.writeTrouble req memory req.pa (f.writePre req addr data) t := rfl
  dsimp only
  rw [htrouble]
  cases f.writeTrouble req memory req.pa (f.writePre req addr data) t with
  | some trouble => exact .discard
  | none =>
    change Outcome.Shuffled m AnswersAlike (.done (f.afterWrite req (View.join addr data) t memory promised, true))
      (.done ((f.recached c).afterWrite req (View.join addr data) t memory promised, true))
    rw [afterWrite_recached]
    refine .done ⟨⟨c, ?_, rfl⟩, rfl⟩
    rw [thread_afterWrite]
    exact hc

theorem write_recached (hc : c.Alike f.thread.cache) (req : WriteRequest) :
    (f.write req).Shuffled m AnswersAlike ((f.recached c).write req) := by
  rw [write, write]
  split
  · exact .refl _ AnswersAlike.refl _
  · refine location_recached.bind ?_
    rintro _ _ ⟨rfl, rfl⟩
    split
    · refine .among (.refl _) fun stores => ?_
      split
      · exact store_recached hc req
      · exact .done ⟨⟨c, hc, rfl⟩, rfl⟩
    · exact store_recached hc req

theorem maintain_recached (hc : c.Alike f.thread.cache) (req : Request) (deps : Deps) :
    (f.maintain req deps).Shuffled m Recached ((f.recached c).maintain req deps) := by
  rw [maintain, maintain, depsView_recached]
  refine .bind_same _ fun x => ?_
  refine .bind_same _ fun operands => ?_
  refine .bind_same (liftM (f.place _)) ?_
  rintro ⟨memory, t, promised⟩
  change Outcome.Shuffled m Recached
    (if t ≤ f.maintainPre operands then _ else Outcome.done (f.afterMaintain t memory promised))
    (if t ≤ f.maintainPre operands then _ else Outcome.done ((f.recached c).afterMaintain t memory promised))
  split
  · exact .discard
  · rw [afterMaintain_recached]
    refine .done ⟨c, ?_, rfl⟩
    rw [thread_afterMaintain]
    exact hc

/-- With a cache in another order the walks that may be taken come in another order. -/
theorem startWalk_recached (hc : c.Alike f.thread.cache) (va : Int) :
    (f.startWalk va).Shuffled m AnswersAlike ((f.recached c).startWalk va) := by
  have hcs : (liftM (f.walkCandidates va) : Outcome (List Candidate)).Shuffled m List.Perm
      (liftM ((f.recached c).walkCandidates va)) := by
    refine .lift ?_ ?_
    · intro cs hcs
      obtain ⟨ds, hds, hmem⟩ := walkCandidates_recached hc hcs
      refine ⟨ds, hds, ?_⟩
      obtain ⟨_, _, _, _, rfl⟩ := walkCandidates_eq_ok.mp hcs
      obtain ⟨_, _, _, _, rfl⟩ := walkCandidates_eq_ok.mp hds
      exact (List.perm_ext_iff_of_nodup (Candidate.nodup_distinct _) (Candidate.nodup_distinct _)).mpr hmem
    · intro ds hds
      obtain ⟨cs, hcs, -⟩ := walkCandidates_recached (c := f.thread.cache) (f := f.recached c) hc.symm hds
      exact ⟨cs, hcs⟩
  refine hcs.bind ?_
  intro cs ds hp
  exact .among hp fun _ => .done ⟨⟨c, hc, rfl⟩, rfl⟩

end Frame

/-- What an effect does with a cache in another order. -/
theorem Effect.run_recached {m : Number} {f g : Frame} (h : f.Recached g) (e : Effect) :
    (e.run f).Shuffled m Frame.AnswersAlike (e.run g) := by
  have yields {f g : Frame} (h : f.Recached g) (x : Frame × e.Answer) (hx : (e.run f).Yields x) :
      ∃ y, (e.run g).Yields y ∧ Frame.AnswersAlike x y := by
    obtain ⟨c, hc, rfl⟩ := h
    obtain ⟨a, hs⟩ := Effect.yields_run.mp hx
    obtain ⟨d, hd, hs⟩ := hs.recached hc
    exact ⟨_, hs.yields, ⟨d, hd, rfl⟩, rfl⟩
  have single (ho : (e.run f).Single) (ho' : (e.run g).Single) :
      (e.run f).Shuffled m Frame.AnswersAlike (e.run g) :=
    .of_single ho ho' (yields h) fun y hy => (yields h.symm y hy).imp fun _ h => h.1
  obtain ⟨c, hc, rfl⟩ := h
  cases e with
  | readReg reg => exact single .lift .lift
  | writeReg reg value deps => exact single (Outcome.Single.lift.map) (Outcome.Single.lift.map)
  | readIndirect base index => exact single .fail .fail
  | read req =>
    rcases Frame.read_single_or req with hsingle | hexplicit
    · exact single (hsingle _) (hsingle _)
    · rw [run, run, hexplicit, hexplicit]
      exact Frame.readExplicit_recached hc req
  | write req => exact Frame.write_recached hc req
  | update pa size operation => exact single .fail .fail
  | barrier b => exact single Outcome.Single.lift.map Outcome.Single.lift.map
  | maintain req deps => exact (Frame.maintain_recached hc req deps).map fun _ _ h => ⟨h, rfl⟩
  | announceBranch target deps => exact single Outcome.Single.lift.map Outcome.Single.lift.map
  | startWalk va => exact Frame.startWalk_recached hc va
  | endWalk va => exact single Outcome.Single.lift.map Outcome.Single.lift.map
  | returnFromException => exact single .done .done
  | halt => exact single .done .done
  | choose bits => exact .anyBits fun v => .done ⟨⟨c, hc, rfl⟩, rfl⟩
  | discard => exact .discard

/-- With a cache in another order an instruction has the same leaves, in another order. -/
theorem Instr.run_recached {m : Number} : ∀ (i : Instr) {f g : Frame}, f.Recached g →
    (i.run f).Shuffled m Frame.Recached (i.run g)
  | .done, _, _, h => .done h
  | .thrown t, _, _, _ => .refl _ Frame.Recached.refl _
  | .ask e next, f, g, h => by
    refine (Effect.run_recached h e).guarded.bind ?_
    rintro ⟨f', v⟩ ⟨g', _⟩ ⟨h', rfl⟩
    exact run_recached (next v) h'

end Litmus
