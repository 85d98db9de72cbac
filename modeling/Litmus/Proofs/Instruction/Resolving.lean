import Litmus.Proofs.Instruction.Bounded

/-!
Instructions that walk tables in one piece. Between the start and the end of each walk of such an
instruction are the reads of its descriptors alone. Main fact: until the walk ends nothing but the state of
the instruction changes, and it ends with the walk that it started with.
-/

namespace Litmus

open Paging (pageOf Landing)

/-- An instruction whose walks are those of `Shape.resolve`. -/
inductive Instr.Resolving : Instr → Prop
  | done : Resolving .done
  | thrown {t : Trouble} : Resolving (.thrown t)
  | ask {e : Effect} {next : e.Answer → Instr} :
      (∀ va, e ≠ .startWalk va) → (∀ va, e ≠ .endWalk va) → (∀ v, Resolving (next v)) → Resolving (.ask e next)
  | resolve {va : Int} {next : Landing → Instr} : (∀ l, Resolving (next l)) → Resolving (Shape.resolve va next)

namespace Instr

theorem Resolving.only {e : Effect} (hstart : ∀ va, e ≠ .startWalk va) (hend : ∀ va, e ≠ .endWalk va) :
    Resolving (Shape.only e) := .ask hstart hend fun _ => .done

/-- The shape that walks tables does so in one piece. -/
theorem resolving_loadVirtual (dst addr : String) : Resolving (Shape.loadVirtual dst addr) := by
  refine .ask nofun nofun fun va => .resolve ?_
  intro landing
  cases landing with
  | fault level => exact .only nofun nofun
  | mapped pa level global => exact .ask nofun nofun fun value => .only nofun nofun

theorem Comes.bounded {i j : Instr} {f g : Frame} (h : i.Comes f j g) (hm : f.memory.Whole) (hb : f.Bounded) :
    g.memory.Whole ∧ g.Bounded := by
  induction h with
  | here => exact ⟨hm, hb⟩
  | on hs _ ih => exact ih ((hs.grows hm).whole hm) (hb.step hm hs)

end Instr

/-- A frame in which a walk of a page is in flight, with the thread and memory that it started with. -/
structure Frame.InFlight (f : Frame) (thread : Thread) (memory : Memory) (page : Int) (w : Flight) : Prop where
  thread_eq : f.thread = thread
  memory_eq : f.memory = memory
  flight : ∃ remaining, f.scratch.flights[page]? = some { w with remaining }

namespace Frame.InFlight

variable {f g : Frame} {thread : Thread} {memory : Memory} {va : Int} {w : Flight}

/-- Reading a descriptor leaves the walk in flight. -/
theorem descriptor {pa d : Int} {a : Action} (h : f.InFlight thread memory (pageOf va) w)
    (hs : (Effect.read { pa, kind := .walk, va := some va }).Step f d g a) :
    g.InFlight thread memory (pageOf va) w := by
  cases hs with
  | fetch hk => cases hk
  | read hk => cases hk
  | descriptor hk hsz hva hw hr hpa =>
    cases hva
    obtain ⟨remaining, hf⟩ := h.flight
    rw [hf] at hw
    cases hw
    exact ⟨h.thread_eq, h.memory_eq, _, by rw [Scratch.addRead, Scratch.addStrict, Scratch.advance]; exact
      Std.ExtTreeMap.getElem?_insert_self⟩

/-- A walk in flight stays so up to its end, from which the instruction goes on where the walk landed. -/
theorem resolveFrom {next : Landing → Instr} {j : Instr} : ∀ {n : Nat} {table : Int} {f : Frame},
    f.InFlight thread memory (pageOf va) w → (Shape.resolveFrom va next n table).Comes f j g →
    g.InFlight thread memory (pageOf va) w ∨ ∃ landing f', f'.InFlight thread memory (pageOf va) w ∧
      (Shape.resolveFrom va next n table).Comes f (.ask (.endWalk va) fun _ => next landing) f' ∧
      (Instr.ask (.endWalk va) fun _ => next landing).Comes f' j g
  | 0, table, f, hw, h => by
    rw [Shape.resolveFrom] at h ⊢
    cases hpa : Paging.descriptorAddress Paging.Level.last table va with
    | error e =>
      rw [hpa] at h
      cases h
      exact .inl hw
    | ok pa =>
      rw [hpa] at h
      cases h with
      | here => exact .inl hw
      | on hs h => exact .inr ⟨_, _, hw.descriptor hs, .on hs .here, h⟩
  | n + 1, table, f, hw, h => by
    rw [Shape.resolveFrom] at h ⊢
    cases hpa : Paging.descriptorAddress (.above (n + 1)) table va with
    | error e =>
      simp only [hpa] at h
      cases h
      exact .inl hw
    | ok pa =>
      simp only [hpa] at h ⊢
      cases h with
      | here => exact .inl hw
      | @on _ _ _ g' _ d _ _ hs h =>
        have hw := hw.descriptor hs
        cases hn : Paging.nextTable? (.above (n + 1)) d with
        | none =>
          simp only [hn] at h
          exact .inr ⟨_, g', hw, .on hs (by simp only [hn]; exact .here), h⟩
        | some table =>
          simp only [hn] at h
          rcases resolveFrom hw h with hg | ⟨landing, f', hf', hc, hrest⟩
          · exact .inl hg
          · exact .inr ⟨landing, f', hf', .on hs (by simp only [hn]; exact hc), hrest⟩

end Frame.InFlight

/-! ### What resolving changes -/

/-- A frame to which another has come by reading descriptors: only the cache of the thread may be another, and
so many reads were added. -/
structure Frame.Resolves (f g : Frame) (reads : Nat) : Prop where
  memory_eq : g.memory = f.memory
  thread_eq : ∃ cache, g.thread = f.thread.withCache cache
  length_eq : g.scratch.readViews.length = f.scratch.readViews.length + reads

namespace Frame.Resolves

variable {f g h : Frame} {va : Int} {a : Action}

theorem trans {n k : Nat} (hg : f.Resolves g n) (hh : g.Resolves h k) : f.Resolves h (n + k) := by
  obtain ⟨cache, hg'⟩ := hg.thread_eq
  obtain ⟨cache', hh'⟩ := hh.thread_eq
  refine ⟨hh.memory_eq.trans hg.memory_eq, ⟨cache', ?_⟩, ?_⟩
  · rw [hh', hg']
    rfl
  · rw [hh.length_eq, hg.length_eq, Nat.add_assoc]

theorem descriptor {pa d : Int} (hs : (Effect.read { pa, kind := .walk, va := some va }).Step f d g a) :
    f.Resolves g 1 ∧ a = .other := by
  cases hs with
  | fetch hk => cases hk
  | read hk => cases hk
  | descriptor => exact ⟨⟨rfl, ⟨_, rfl⟩, by simp [Scratch.addRead, Scratch.addStrict, Scratch.advance]⟩, rfl⟩

theorem endWalk (hs : (Effect.endWalk va).Step f () g a) : f.Resolves g 0 ∧ a = .other := by
  cases hs with
  | endWalk => exact ⟨⟨rfl, ⟨_, rfl⟩, rfl⟩, rfl⟩
  | cacheWalk => exact ⟨⟨rfl, ⟨_, rfl⟩, rfl⟩, rfl⟩

end Frame.Resolves

namespace Instr.Runs

variable {f g : Frame} {va : Int} {as : List Action} {next : Landing → Instr}

/-- The rest of a walk reads a descriptor at each level down to where it lands. -/
theorem of_resolveFrom : ∀ {n : Nat} {table : Int} {f : Frame} {as : List Action}, n ≤ 3 →
    (Shape.resolveFrom va next n table).Runs f as g →
    ∃ landing h bs k, f.Resolves h k ∧ 3 + k = landing.level.val + n + 1 ∧ (next landing).Runs h bs g ∧
      as = List.replicate (k + 1) .other ++ bs
  | 0, table, f, as, _, r => by
    rw [Shape.resolveFrom] at r
    cases hpa : Paging.descriptorAddress Paging.Level.last table va with
    | error e =>
      rw [hpa] at r
      cases r
    | ok pa =>
      rw [hpa] at r
      cases r with
      | ask hs r =>
        cases r with
        | ask hs' r =>
          obtain ⟨hread, rfl⟩ := Frame.Resolves.descriptor hs
          obtain ⟨hend, rfl⟩ := Frame.Resolves.endWalk hs'
          refine ⟨_, _, _, _, hread.trans hend, ?_, r, rfl⟩
          rw [Paging.landing_level]
          rfl
  | n + 1, table, f, as, hn, r => by
    rw [Shape.resolveFrom] at r
    cases hpa : Paging.descriptorAddress (.above (n + 1)) table va with
    | error e =>
      simp only [hpa] at r
      cases r
    | ok pa =>
      simp only [hpa] at r
      cases r with
      | @ask _ _ _ _ _ d _ _ hs r =>
        cases hnext : Paging.nextTable? (.above (n + 1)) d with
        | none =>
          simp only [hnext] at r
          cases r with
          | ask hs' r =>
            obtain ⟨hread, rfl⟩ := Frame.Resolves.descriptor hs
            obtain ⟨hend, rfl⟩ := Frame.Resolves.endWalk hs'
            refine ⟨_, _, _, _, hread.trans hend, ?_, r, rfl⟩
            rw [Paging.landing_level, Paging.Level.above]
            dsimp only
            omega
        | some table =>
          simp only [hnext] at r
          obtain ⟨hread, rfl⟩ := Frame.Resolves.descriptor hs
          obtain ⟨landing, h, bs, k, hk, hlevel, hr, rfl⟩ := of_resolveFrom (Nat.le_of_succ_le hn) r
          refine ⟨landing, h, bs, 1 + k, hread.trans hk, by omega, hr, ?_⟩
          rw [Nat.add_comm 1 k, List.replicate_succ (n := k + 1), List.cons_append]

/-- Resolving an address reads one descriptor for each level, from the first to that where it landed, and does
nothing else but to take the walk. -/
theorem of_resolve (r : (Shape.resolve va next).Runs f as g) :
    ∃ landing h bs, f.Resolves h (landing.level.val + 1) ∧ (next landing).Runs h bs g ∧
      ∃ c, as = .walk va c :: List.replicate (landing.level.val + 2) .other ++ bs := by
  rw [Shape.resolve] at r
  cases r with
  | ask hs r =>
    cases hs with
    | startWalk =>
      obtain ⟨landing, h, bs, k, hk, hlevel, hr, rfl⟩ := of_resolveFrom (Nat.le_refl 3) r
      obtain rfl : k = landing.level.val + 1 := by omega
      exact ⟨landing, h, bs, ⟨hk.memory_eq, hk.thread_eq, hk.length_eq⟩, hr, _, rfl⟩

end Instr.Runs

end Litmus
