import Litmus.Proofs.Instruction.Raised
import Litmus.Proofs.Number.Order
import Litmus.Proofs.Outcome.Shuffled

/-!
What outcomes throw. What is thrown behind any picks is told by the thrown leaves, and grafting work onto an outcome adds
only what that work throws. Main fact: an instruction that throws nothing but faults, and chooses among as many values as
a natural width has, runs to an outcome that throws nothing, except that there is no counting the values of a choice.
-/

namespace Litmus

variable {α β γ : Type} {m : Number}

/-- That a choice has too many values to count them, where choices may be so wide. -/
def Trouble.IsUncounted (m : Number) (t : Trouble) : Prop :=
  ¬m < .whole Space.uncountedBits ∧ t = .other .rangeError "Maximum BigInt size exceeded"

/-- A fault, or that a choice has too many values. -/
def Trouble.IsKnown (m : Number) (t : Trouble) : Prop := (∃ f, t = .fault f) ∨ t.IsUncounted m

/-! ### Outcomes -/

namespace Space

/-- The values that can be told are the indices below their number. -/
theorem picks_eq_ok {space : Space} {picks : List Int} (h : space.picks = .ok picks) :
    ∃ n, space.size = .ok n ∧ picks = (List.range n).map Int.ofNat := by
  rw [Space.picks] at h
  cases hsize : space.size with
  | ok n =>
    rw [hsize] at h
    cases h
    exact ⟨n, rfl, rfl⟩
  | error t =>
    rw [hsize] at h
    cases h

/-- A pick is among the values exactly if it is not negative and below their number. -/
theorem mem_picks {space : Space} {picks : List Int} {pick : Int} (h : space.picks = .ok picks) :
    pick ∈ picks ↔ ∃ n, space.size = .ok n ∧ 0 ≤ pick ∧ pick < n := by
  obtain ⟨n, hn, rfl⟩ := picks_eq_ok h
  rw [hn, List.mem_map]
  constructor
  · rintro ⟨i, hi, rfl⟩
    exact ⟨n, rfl, Int.natCast_nonneg i, Int.ofNat_lt.mpr (List.mem_range.mp hi)⟩
  · rintro ⟨_, ⟨⟩, hnonneg, hlt⟩
    obtain ⟨i, rfl⟩ := Int.eq_ofNat_of_zero_le hnonneg
    exact ⟨i, List.mem_range.mpr (Int.ofNat_lt.mp hlt), rfl⟩

theorem exists_size_of_picks {space : Space} {picks : List Int} (h : space.picks = .ok picks) :
    ∃ n, space.size = .ok n := (picks_eq_ok h).imp fun _ h => h.1

/-- The values of a natural width are asked for in vain only if they are too many. -/
theorem picks_eq_error {n : Nat} {t : Trouble} (h : (bits (.whole n)).picks = .error t) :
    ¬(n : Int) < uncountedBits ∧ t = .other .rangeError "Maximum BigInt size exceeded" := by
  rw [picks, size, if_neg (Int.not_lt.mpr (Int.natCast_nonneg n))] at h
  split at h
  · cases h
  · next hcount =>
    cases h
    exact ⟨hcount, rfl⟩

end Space

namespace Outcome

/-- A property of all results, failures, pruned paths and thrown faults, which goes on through further work and through
choices among options. -/
structure Kept (P : ∀ {α : Type}, Outcome α → Prop) : Prop where
  done {α : Type} (a : α) : P (.done a)
  fail {α : Type} (f : Failure Diagnostic) : P (.fail f : Outcome α)
  discard {α : Type} (why : Pruning) (detail : Option String) : P (.discard why detail : Outcome α)
  fault {α : Type} (f : Fault) : P (.fault f : Outcome α)
  bind {α β : Type} {o : Outcome α} {k : α → Outcome β} : P o → (∀ a, P (k a)) → P (o.bind k)
  among {α γ : Type} {options : List γ} {k : γ → Outcome α} : (∀ c, P (k c)) → P (Outcome.among options k)

/-- A property of all results and pruned paths, and of all failures and thrown faults that are not for a pick, which goes on
through further work and through choices among options. -/
structure KeptInside (P : ∀ {α : Type}, Outcome α → Prop) : Prop where
  done {α : Type} (a : α) : P (.done a)
  discard {α : Type} (why : Pruning) (detail : Option String) : P (.discard why detail : Outcome α)
  failWith {α : Type} {f : Fault} : f.code ≠ .pickOutside → P (.failWith f : Outcome α)
  fault {α : Type} {f : Fault} : f.code ≠ .pickOutside → P (.fault f : Outcome α)
  bind {α β : Type} {o : Outcome α} {k : α → Outcome β} : P o → (∀ a, P (k a)) → P (o.bind k)
  among {α γ : Type} {options : List γ} {k : γ → Outcome α} : (∀ c, P (k c)) → P (Outcome.among options k)

theorem Kept.inside {P : ∀ {α : Type}, Outcome α → Prop} (h : Kept P) : KeptInside P :=
  ⟨h.done, h.discard, fun _ => h.fail _, fun _ => h.fault _, h.bind, h.among⟩

namespace KeptInside

variable {P : ∀ {α : Type}, Outcome α → Prop} (h : KeptInside P)

include h

theorem lift {x : Except Fault α} (hx : PickFree x) : P (liftM x : Outcome α) := by
  cases x with
  | ok a => exact h.done a
  | error f => exact h.fault (hx f rfl)

theorem bind_lift {x : Except Fault α} {k : α → Outcome β} (hx : PickFree x) (hk : ∀ a, P (k a)) :
    P ((liftM x : Outcome α) >>= k) := h.bind (h.lift hx) hk

theorem map {o : Outcome α} {f : α → β} (ho : P o) : P (o.map f) := by
  rw [map_eq_bind]
  exact h.bind ho fun a => h.done (f a)

end KeptInside

/-- Whether all that an outcome throws, behind any picks, is of one kind. -/
def Throws (m : Number) (T : Trouble → Prop) (o : Outcome α) : Prop := ∀ t, .thrown t ∈ o.leaves m → T t

namespace Throws

variable {T : Trouble → Prop} {o : Outcome α}

theorem done {a : α} : (Outcome.done a).Throws m T := by simp [Throws, leaves]

theorem fail {f : Failure Diagnostic} : (Outcome.fail f : Outcome α).Throws m T := by simp [Throws, leaves]

theorem discard {why : Pruning} {detail : Option String} : (Outcome.discard why detail : Outcome α).Throws m T := by
  simp [Throws, leaves]

theorem fault {f : Fault} : (Outcome.fault f : Outcome α).Throws m (Trouble.IsKnown m) := by
  intro t ht
  rw [Outcome.fault, leaves, List.mem_singleton] at ht
  cases ht
  exact .inl ⟨f, rfl⟩

/-- Work that goes on from an outcome throws what that throws, or something of its own. -/
theorem bind {k : α → Outcome β} (h : o.Throws m T) (hk : ∀ a, (k a).Throws m T) : (o.bind k).Throws m T := by
  intro t ht
  rw [leaves_bind, List.mem_flatMap] at ht
  obtain ⟨l, hl, ht⟩ := ht
  cases l with
  | done a => exact hk a t ht
  | thrown u =>
    rw [Leaf.graft, List.mem_singleton] at ht
    cases ht
    exact h t hl
  | _ => simp [Leaf.graft] at ht

theorem among {options : List γ} {k : γ → Outcome α} (hk : ∀ c, (k c).Throws m T) :
    (Outcome.among options k).Throws m T := by
  by_cases hne : options = []
  · subst hne
    exact discard
  · intro t ht
    rw [leaves_among hne, List.mem_flatMap] at ht
    obtain ⟨c, -, ht⟩ := ht
    exact hk c t ht

/-- What is thrown at a choice is that its values cannot be told, or it is thrown behind some pick. -/
theorem choice {space : Space} {resume : Int → Outcome α}
    (hpicks : ∀ t, ¬space.isTooWide m = true → space.picks = .error t → T t)
    (hresume : ∀ n, space.size = .ok n → ∀ pick, (resume pick).Throws m T) : (Outcome.choice space resume).Throws m T := by
  intro t ht
  rw [leaves] at ht
  split at ht
  · simp at ht
  · next hwide =>
    split at ht
    · next picks hp =>
      obtain ⟨n, hn⟩ := Space.exists_size_of_picks hp
      obtain ⟨pick, -, ht⟩ := List.mem_flatMap.mp ht
      exact hresume n hn pick t ht
    · next u hp =>
      cases List.mem_singleton.mp ht
      exact hpicks _ hwide hp

/-- A choice of a natural width throws only when its values are too many to be counted. -/
theorem anyBits (n : Nat) : (Outcome.anyBits (.whole n) (.done : Int → _)).Throws m (Trouble.IsKnown m) := by
  refine choice ?_ ?_
  · intro t hwide ht
    obtain ⟨hcount, rfl⟩ := Space.picks_eq_error ht
    refine .inr ⟨Number.not_lt_trans (b := .whole n) ?_ ?_, rfl⟩
    · simpa [Space.isTooWide] using hwide
    · rw [Number.whole_lt_whole]
      exact hcount
  · intro size hsize pick
    simp only [hsize]
    split
    · exact fail
    · split
      · exact done
      · exact fail

/-- Once faults are told as failures, only the number of values is left to be thrown. -/
theorem guarded (h : o.Throws m (Trouble.IsKnown m)) : o.guarded.Throws m (Trouble.IsUncounted m) := by
  intro t ht
  rw [leaves_guarded, List.mem_map] at ht
  obtain ⟨l, hl, ht⟩ := ht
  cases l with
  | thrown u =>
    cases u with
    | fault f => cases ht
    | other kind message =>
      cases ht
      rcases h _ hl with ⟨f, hf⟩ | ht
      · cases hf
      · exact ht
  | _ => cases ht

end Throws

theorem throws_kept : Kept fun o => o.Throws m (Trouble.IsKnown m) :=
  ⟨fun _ => .done, fun _ => .fail, fun _ _ => .discard, fun _ => .fault, .bind, .among⟩

end Outcome

/-! ### Effects -/

section

variable {P : ∀ {α : Type}, Outcome α → Prop} (h : Outcome.KeptInside P) (f : Frame)

include h

theorem Frame.read_kept (req : ReadRequest) : P (f.read req) := by
  rw [read]
  split
  · exact h.bind_lift (f.fetch_pickFree req) fun _ => h.done _
  · split
    · exact h.fault (accessSize_code _ _)
    · split
      · exact h.lift (f.readDescriptor_pickFree req)
      · refine h.bind_lift (checkLocation_pickFree _) fun loc => ?_
        refine h.bind_lift (f.depsView_pickFree _) fun addr => h.among fun r => ?_
        rw [readFrom]
        split
        · exact h.discard _ _
        · exact h.done _

theorem Frame.store_kept (req : WriteRequest) (loc : Int) : P (f.store req loc) := by
  refine h.bind_lift (f.depsView_pickFree _) fun addr => h.bind_lift (f.depsView_pickFree _) fun data => ?_
  refine h.bind_lift (f.place_pickFree _) fun placed => ?_
  dsimp only
  split
  · exact h.discard _ _
  · exact h.done _

theorem Frame.write_kept (req : WriteRequest) : P (f.write req) := by
  rw [write]
  split
  · exact h.fault (accessSize_code _ _)
  · refine h.bind_lift (checkLocation_pickFree _) fun loc => ?_
    split
    · refine h.among fun stores => ?_
      split
      · exact f.store_kept h req loc
      · exact h.done _
    · exact f.store_kept h req loc

theorem Frame.maintain_kept (req : Paging.Request) (deps : Deps) : P (f.maintain req deps) := by
  refine h.bind_lift req.maintenance_pickFree fun maintenance => h.bind_lift (f.depsView_pickFree _) fun operands => ?_
  refine h.bind_lift (f.place_pickFree _) fun placed => ?_
  dsimp only
  split
  · exact h.discard _ _
  · exact h.done _

/-- What holds of the parts of outcomes holds of the outcome of each effect, if it does of the choice of any value. -/
theorem Effect.run_keptInside : ∀ {e : Effect}, (∀ bits, e = .choose bits → P (Outcome.anyBits bits .done)) → P (e.run f)
  | .readReg reg, _ => h.lift ((f.thread.holds_pickFree reg).bind fun _ => .ok)
  | .writeReg _ _ deps, _ | .announceBranch _ deps, _ => h.map (h.lift ((f.depsView_pickFree deps).bind fun _ => .ok))
  | .barrier b, _ => h.map (h.lift (f.barrier_pickFree b))
  | .endWalk va, _ => h.map (h.lift (f.endWalk_pickFree va))
  | .readIndirect _ _, _ | .update _ _ _, _ => h.failWith nofun
  | .read req, _ => f.read_kept h req
  | .write req, _ => f.write_kept h req
  | .maintain req deps, _ => h.map (f.maintain_kept h req deps)
  | .startWalk va, _ => h.bind_lift (f.walkCandidates_pickFree va) fun _ => h.among fun _ => h.done _
  | .returnFromException, _ | .halt, _ => h.done _
  | .choose bits, hbits => by
    rw [run, Outcome.anyBits_eq_bind]
    exact h.bind (hbits bits rfl) fun _ => h.done _
  | .discard, _ => h.discard _ _

end

theorem Effect.run_kept {P : ∀ {α : Type}, Outcome α → Prop} (h : Outcome.Kept P) (f : Frame) {e : Effect}
    (hbits : ∀ bits, e = .choose bits → P (Outcome.anyBits bits .done)) : P (e.run f) := run_keptInside h.inside f hbits

/-- Whether an effect that chooses asks for a natural width. -/
def Effect.IsNatural : Effect → Prop
  | .choose bits => ∃ n : Nat, bits = .whole n
  | _ => True

theorem Effect.run_throws {e : Effect} (he : e.IsNatural) (f : Frame) : (e.run f).Throws m (Trouble.IsKnown m) := by
  refine Effect.run_kept Outcome.throws_kept f ?_
  rintro bits rfl
  obtain ⟨n, rfl⟩ := he
  exact .anyBits n

/-- Whether an instruction throws nothing but faults, and chooses among as many values as a natural width has. -/
inductive Instr.Tame : Instr → Prop
  | done : Tame .done
  | thrown {f : Fault} : Tame (.thrown (.fault f))
  | ask {e : Effect} {next : e.Answer → Instr} : e.IsNatural → (∀ v, Tame (next v)) → Tame (.ask e next)

/-- All that a tame instruction throws is told as a failure, unless it is that a choice has too many values. -/
theorem Instr.Tame.run_throws {i : Instr} (h : i.Tame) (f : Frame) : (i.run f).Throws m (Trouble.IsUncounted m) := by
  induction h generalizing f with
  | done => exact .done
  | thrown => exact Outcome.Throws.fault.guarded
  | ask he _ ih => exact (Effect.run_throws he f).guarded.bind fun (g, v) => ih v g

end Litmus
