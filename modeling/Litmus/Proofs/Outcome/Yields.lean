import Litmus.Exploration.Finding
import Mathlib.Data.List.Forall2

/-!
Results of outcomes: an outcome yields what some picks lead it to, and prunes what they lead to being
discarded. Main facts: what each way of building an outcome yields and prunes, that the done leaves of an
outcome that is nowhere too wide are exactly what it yields, and that its pruned leaves are pruned.
-/

namespace Litmus

variable {ε α β γ : Type}

/-! ### Work that may fault -/

@[simp] theorem bind_eq_ok {x : Except ε α} {f : α → Except ε β} {b : β} :
    (x >>= f) = .ok b ↔ ∃ a, x = .ok a ∧ f a = .ok b := by
  cases x <;> simp [bind, Except.bind]

theorem toOption_eq_some {x : Except ε α} {a : α} : x.toOption = some a ↔ x = .ok a := by
  cases x <;> simp [Except.toOption]

@[simp] theorem map_eq_ok {x : Except ε α} {f : α → β} {b : β} : f <$> x = .ok b ↔ ∃ a, x = .ok a ∧ b = f a := by
  cases x <;> simp [Functor.map, Except.map, eq_comm]

@[simp] theorem pure_eq_ok {a b : α} : (pure a : Except ε α) = .ok b ↔ b = a := by
  simp [pure, Except.pure, eq_comm]

@[simp] theorem throw_ne_ok {e : ε} {a : α} : (throw e : Except ε α) ≠ .ok a := nofun

theorem mapM_nil_eq_ok {f : α → Except ε β} {bs : List β} : ([] : List α).mapM f = .ok bs ↔ bs = [] := by
  rw [List.mapM_nil, pure_eq_ok]

theorem mapM_cons_eq_ok {f : α → Except ε β} {a : α} {l : List α} {bs : List β} :
    (a :: l).mapM f = .ok bs ↔ ∃ b bs', f a = .ok b ∧ l.mapM f = .ok bs' ∧ bs = b :: bs' := by
  simp only [List.mapM_cons, bind_eq_ok, pure_eq_ok, exists_and_left]

/-- Work on all items of a list succeeds when it does on each. -/
theorem exists_mapM_eq_ok {f : α → Except ε β} : ∀ {l : List α},
    (∃ bs, l.mapM f = .ok bs) ↔ ∀ a ∈ l, ∃ b, f a = .ok b
  | [] => by simp
  | a :: l => by
    rw [List.forall_mem_cons, ← exists_mapM_eq_ok (l := l)]
    simp only [mapM_cons_eq_ok]
    constructor
    · rintro ⟨_, b, bs, hb, hbs, -⟩
      exact ⟨⟨b, hb⟩, bs, hbs⟩
    · rintro ⟨⟨b, hb⟩, bs, hbs⟩
      exact ⟨_, b, bs, hb, hbs, rfl⟩

theorem mem_of_mapM_eq_ok {f : α → Except ε β} : ∀ {l : List α} {bs : List β}, l.mapM f = .ok bs →
    ∀ {b : β}, b ∈ bs ↔ ∃ a ∈ l, f a = .ok b
  | [], bs, h, b => by simp [mapM_nil_eq_ok.mp h]
  | a :: l, _, h, b => by
    obtain ⟨b', bs, hb, hbs, rfl⟩ := mapM_cons_eq_ok.mp h
    rw [List.mem_cons, mem_of_mapM_eq_ok hbs, List.exists_mem_cons_iff, hb, Except.ok.injEq, eq_comm]

/-- Work that goes alike on each item goes alike on the list, and the results stay side by side. -/
theorem mapM_alike {f g : α → Except ε β} {R : β → β → Prop} : ∀ {l : List α} {bs : List β},
    (∀ a ∈ l, ∀ b, f a = .ok b → ∃ c, g a = .ok c ∧ R b c) → l.mapM f = .ok bs →
    ∃ cs, l.mapM g = .ok cs ∧ List.Forall₂ R bs cs
  | [], bs, _, h => ⟨[], mapM_nil_eq_ok.mpr rfl, by rw [mapM_nil_eq_ok.mp h]; exact .nil⟩
  | a :: l, _, hR, h => by
    obtain ⟨b, bs, hb, hbs, rfl⟩ := mapM_cons_eq_ok.mp h
    obtain ⟨c, hc, hbc⟩ := hR a (List.mem_cons_self ..) b hb
    obtain ⟨cs, hcs, hbcs⟩ := mapM_alike (fun a ha => hR a (List.mem_cons_of_mem _ ha)) hbs
    exact ⟨c :: cs, mapM_cons_eq_ok.mpr ⟨c, cs, hc, hcs, rfl⟩, .cons hbc hbcs⟩

/-- Work whose results are wrapped is the work, and then the wrapping. -/
theorem mapM_map_of_forall {k : α → Except ε β} {k' : α → Except ε γ} {g : β → γ} : ∀ {l : List α},
    (∀ a ∈ l, k' a = g <$> k a) → l.mapM k' = List.map g <$> l.mapM k
  | [], _ => by simp
  | a :: l, h => by
    rw [List.mapM_cons, List.mapM_cons, h a List.mem_cons_self,
      mapM_map_of_forall fun b hb => h b (List.mem_cons_of_mem _ hb)]
    cases k a with
    | error e => rfl
    | ok b => cases l.mapM k <;> rfl

/-- Work on the items of each list, put together, is work on all of them. -/
theorem flatten_mapM {k : β → Except ε γ} {g : α → List β} : ∀ l : List α,
    List.flatten <$> (l.mapM fun a => (g a).mapM k) = (l.flatMap g).mapM k
  | [] => by simp
  | a :: l => by
    rw [List.mapM_cons, List.flatMap_cons, List.mapM_append, ← flatten_mapM l]
    cases (g a).mapM k with
    | error e => rfl
    | ok bs => cases l.mapM fun a => (g a).mapM k <;> rfl

namespace Outcome

/-! ### Options -/

/-- Going on from a choice among options is going on from each option. -/
theorem bind_among {options : List γ} {k : γ → Outcome α} {g : α → Outcome β} :
    (among options k).bind g = among options fun c => (k c).bind g := by
  match options with
  | [] | [_] => rfl
  | c :: d :: rest =>
    simp only [among, Outcome.bind]
    congr 1
    funext pick
    cases if 0 ≤ pick then (c :: d :: rest)[pick.toNat]? else none <;> rfl

theorem guarded_among {options : List γ} {k : γ → Outcome α} :
    (among options k).guarded = among options fun c => (k c).guarded := by
  match options with
  | [] | [_] => rfl
  | c :: d :: rest =>
    simp only [among, guarded]
    congr 1
    funext pick
    cases if 0 ≤ pick then (c :: d :: rest)[pick.toNat]? else none <;> rfl

theorem among_congr {options : List γ} {k k' : γ → Outcome α} (h : ∀ c ∈ options, k c = k' c) :
    among options k = among options k' := by
  match options with
  | [] => rfl
  | [c] => exact h c (List.mem_singleton_self c)
  | c :: d :: rest =>
    simp only [among]
    congr 1
    funext pick
    split
    · next hc =>
      split at hc
      · exact h _ (List.mem_of_getElem? hc)
      · cases hc
    · rfl

/-! ### Results -/

/-- Some picks, each from the space that is offered, lead an outcome to a result. -/
inductive Yields : Outcome α → α → Prop
  | done {a : α} : Yields (.done a) a
  | choice {space : Space} {resume : Int → Outcome α} {picks : List Int} {pick : Int} {a : α} :
      space.picks = .ok picks → pick ∈ picks → Yields (resume pick) a → Yields (.choice space resume) a

@[simp] theorem yields_done {a b : α} : (Outcome.done a).Yields b ↔ b = a :=
  ⟨fun h => by cases h; rfl, fun h => h ▸ .done⟩

@[simp] theorem yields_pure {a b : α} : (pure a : Outcome α).Yields b ↔ b = a := yields_done

@[simp] theorem not_yields_fail {f : Failure Diagnostic} {a : α} : ¬(Outcome.fail f).Yields a := nofun

@[simp] theorem not_yields_discard {why : Pruning} {detail : Option String} {a : α} :
    ¬(Outcome.discard why detail).Yields a := nofun

@[simp] theorem not_yields_prune {why : Pruning} {a : α} : ¬(Outcome.prune why).Yields a := nofun

@[simp] theorem not_yields_thrown {t : Trouble} {a : α} : ¬(Outcome.thrown t).Yields a := nofun

@[simp] theorem not_yields_fault {f : Fault} {a : α} : ¬(Outcome.fault f).Yields a := nofun

@[simp] theorem not_yields_failWith {f : Fault} {a : α} : ¬(Outcome.failWith f).Yields a := nofun

theorem yields_choice {space : Space} {resume : Int → Outcome α} {a : α} :
    (Outcome.choice space resume).Yields a ↔
      ∃ picks pick, space.picks = .ok picks ∧ pick ∈ picks ∧ (resume pick).Yields a := by
  constructor
  · rintro (_ | ⟨hs, hp, h⟩)
    exact ⟨_, _, hs, hp, h⟩
  · rintro ⟨picks, pick, hs, hp, h⟩
    exact .choice hs hp h

/-- Going on yields what the work after some first result yields. -/
theorem yields_bind : ∀ {o : Outcome α} {k : α → Outcome β} {b : β},
    (o.bind k).Yields b ↔ ∃ a, o.Yields a ∧ (k a).Yields b
  | .done a, k, b => by simp [Outcome.bind]
  | .fail _, _, _ | .discard _ _, _, _ | .thrown _, _, _ => by simp [Outcome.bind]
  | .choice space resume, k, b => by
    simp only [Outcome.bind, yields_choice, yields_bind (o := resume _)]
    constructor
    · rintro ⟨picks, pick, hs, hp, a, ha, hb⟩
      exact ⟨a, ⟨picks, pick, hs, hp, ha⟩, hb⟩
    · rintro ⟨a, ⟨picks, pick, hs, hp, ha⟩, hb⟩
      exact ⟨picks, pick, hs, hp, a, ha, hb⟩

@[simp] theorem yields_bind' {o : Outcome α} {k : α → Outcome β} {b : β} :
    (o >>= k).Yields b ↔ ∃ a, o.Yields a ∧ (k a).Yields b := yields_bind

theorem yields_map : ∀ {o : Outcome α} {f : α → β} {b : β}, (o.map f).Yields b ↔ ∃ a, o.Yields a ∧ b = f a
  | .done a, f, b => by simp [Outcome.map]
  | .fail _, _, _ | .discard _ _, _, _ | .thrown _, _, _ => by simp [Outcome.map]
  | .choice space resume, f, b => by
    simp only [Outcome.map, yields_choice, yields_map (o := resume _)]
    constructor
    · rintro ⟨picks, pick, hs, hp, a, ha, hb⟩
      exact ⟨a, ⟨picks, pick, hs, hp, ha⟩, hb⟩
    · rintro ⟨a, ⟨picks, pick, hs, hp, ha⟩, hb⟩
      exact ⟨picks, pick, hs, hp, a, ha, hb⟩

/-- Turning what was thrown into failures loses no result and adds none. -/
@[simp] theorem yields_guarded : ∀ {o : Outcome α} {a : α}, o.guarded.Yields a ↔ o.Yields a
  | .done _, _ | .fail _, _ | .discard _ _, _ | .thrown (.fault _), _ | .thrown (.other _ _), _ => by
    simp [Outcome.guarded]
  | .choice space resume, a => by
    simp only [Outcome.guarded, yields_choice, yields_guarded (o := resume _)]

@[simp] theorem yields_ofExcept {x : Except Fault α} {a : α} : (ofExcept x).Yields a ↔ x = .ok a := by
  cases x <;> simp [ofExcept, eq_comm]

@[simp] theorem yields_lift {x : Except Fault α} {a : α} : (liftM x : Outcome α).Yields a ↔ x = .ok a :=
  yields_ofExcept

/-- Choosing yields what going on from one of the options yields. -/
theorem yields_among {options : List γ} {k : γ → Outcome α} {a : α} :
    (among options k).Yields a ↔ ∃ c ∈ options, (k c).Yields a := by
  simp only [among]
  split
  · simp
  · simp
  · rw [yields_choice]
    constructor
    · rintro ⟨picks, pick, -, -, h⟩
      split at h
      · next c hc =>
        split at hc
        · exact ⟨c, List.mem_of_getElem? hc, h⟩
        · cases hc
      · cases h
    · rintro ⟨c, hc, h⟩
      obtain ⟨i, hi, hc⟩ := List.mem_iff_getElem.mp hc
      refine ⟨_, i, rfl, List.mem_map.mpr ⟨i, List.mem_range.mpr hi, rfl⟩, ?_⟩
      rw [if_pos (Int.natCast_nonneg i), Int.toNat_natCast, List.getElem?_eq_getElem hi, hc]
      exact h

/-- Taking any value of a width yields what going on from one of the values yields. -/
theorem yields_anyBits {width : Number} {k : Int → Outcome α} {a : α} :
    (anyBits width k).Yields a ↔
      ∃ picks n, (Space.bits width).picks = .ok picks ∧ n ∈ picks ∧ (k n).Yields a := by
  rw [anyBits]
  rw [yields_choice]
  refine exists_congr fun picks => exists_congr fun n => and_congr_right fun hs => and_congr_right ?_
  intro hn
  cases hsize : (Space.bits width).size with
  | error t => simp [Space.picks, hsize, Except.map] at hs
  | ok size =>
    simp only [Space.picks, hsize, Except.map, Except.ok.injEq] at hs
    subst hs
    obtain ⟨i, hi, rfl⟩ := List.mem_map.mp hn
    have hi : (i : Int) < size := Int.ofNat_lt.mpr (List.mem_range.mp hi)
    simp [hi, Int.not_lt.mpr (Int.natCast_nonneg i)]

/-! ### Pruned paths -/

/-- Some picks, each from the space that is offered, lead an outcome to being pruned for a reason. -/
inductive Prunes : Outcome α → Pruning → Prop
  | discard {why : Pruning} {detail : Option String} : Prunes (.discard why detail) why
  | choice {space : Space} {resume : Int → Outcome α} {picks : List Int} {pick : Int} {why : Pruning} :
      space.picks = .ok picks → pick ∈ picks → Prunes (resume pick) why → Prunes (.choice space resume) why

@[simp] theorem prunes_discard {why why' : Pruning} {detail : Option String} :
    (Outcome.discard why detail : Outcome α).Prunes why' ↔ why' = why :=
  ⟨fun h => by cases h; rfl, fun h => h ▸ .discard⟩

@[simp] theorem not_prunes_done {a : α} {why : Pruning} : ¬(Outcome.done a).Prunes why := nofun

@[simp] theorem not_prunes_fail {f : Failure Diagnostic} {why : Pruning} : ¬(Outcome.fail f : Outcome α).Prunes why := nofun

@[simp] theorem not_prunes_thrown {t : Trouble} {why : Pruning} : ¬(Outcome.thrown t : Outcome α).Prunes why := nofun

@[simp] theorem not_prunes_fault {f : Fault} {why : Pruning} : ¬(Outcome.fault f : Outcome α).Prunes why := nofun

@[simp] theorem not_prunes_lift {x : Except Fault α} {why : Pruning} : ¬(liftM x : Outcome α).Prunes why := by
  cases x <;> exact nofun

/-- Going on is pruned when the first work is, or the work after one of its results. -/
theorem prunes_bind : ∀ {o : Outcome α} {k : α → Outcome β} {why : Pruning},
    (o.bind k).Prunes why ↔ o.Prunes why ∨ ∃ a, o.Yields a ∧ (k a).Prunes why
  | .done a, k, why => by simp [Outcome.bind]
  | .fail _, _, _ | .thrown _, _, _ => by simp [Outcome.bind]
  | .discard _ _, _, _ => by simp [Outcome.bind]
  | .choice space resume, k, why => by
    rw [Outcome.bind]
    constructor
    · rintro (_ | ⟨hs, hp, h⟩)
      rcases prunes_bind.mp h with h | ⟨a, ha, h⟩
      · exact .inl (.choice hs hp h)
      · exact .inr ⟨a, .choice hs hp ha, h⟩
    · rintro (h | ⟨a, ha, h⟩)
      · cases h with
        | choice hs hp h => exact .choice hs hp (prunes_bind.mpr (.inl h))
      · cases ha with
        | choice hs hp ha => exact .choice hs hp (prunes_bind.mpr (.inr ⟨a, ha, h⟩))

@[simp] theorem prunes_bind' {o : Outcome α} {k : α → Outcome β} {why : Pruning} :
    (o >>= k).Prunes why ↔ o.Prunes why ∨ ∃ a, o.Yields a ∧ (k a).Prunes why := prunes_bind

theorem prunes_map : ∀ {o : Outcome α} {f : α → β} {why : Pruning}, (o.map f).Prunes why → o.Prunes why
  | .discard _ _, _, _, h => by cases h; exact .discard
  | .choice space resume, f, why, h => by
    cases h with
    | choice hs hp h => exact .choice hs hp (prunes_map h)

/-- Choosing is pruned for want of options, or when going on from one of them is. -/
theorem prunes_among {options : List γ} {k : γ → Outcome α} {why : Pruning} (h : (among options k).Prunes why) :
    why = .noCandidate ∨ ∃ c ∈ options, (k c).Prunes why := by
  simp only [among] at h
  split at h
  · cases h
    exact .inl rfl
  · next c => exact .inr ⟨c, List.mem_singleton_self c, h⟩
  · cases h with
    | choice hs hp h =>
      dsimp only at h
      split at h
      · next c hc =>
        split at hc
        · exact .inr ⟨c, List.mem_of_getElem? hc, h⟩
        · cases hc
      · cases h

/-! ### Leaves -/

theorem yields_of_mem_leaves {maxBits : Number} : ∀ {o : Outcome α} {a : α}, .done a ∈ o.leaves maxBits → o.Yields a
  | .done _, a, h => by simpa [leaves] using h
  | .fail _, _, h | .discard _ _, _, h | .thrown _, _, h => by simp [leaves] at h
  | .choice space resume, a, h => by
    rw [leaves] at h
    split at h
    · simp at h
    · split at h
      · next picks hs =>
        obtain ⟨pick, hp, h⟩ := List.mem_flatMap.mp h
        exact .choice hs hp (yields_of_mem_leaves h)
      · simp at h

/-- Whatever an outcome yields is one of its leaves, unless some choice on the way is too wide. -/
theorem mem_leaves_of_yields {maxBits : Number} {o : Outcome α} {a : α} (h : o.Yields a)
    (narrow : ∀ space, .tooWide space ∉ o.leaves maxBits) : .done a ∈ o.leaves maxBits := by
  induction h with
  | done => simp [leaves]
  | @choice space resume picks pick a hs hp _ ih =>
    rw [leaves] at narrow ⊢
    split at narrow
    · simp at narrow
    · next hw =>
      simp only [hs, List.mem_flatMap, not_exists, not_and] at narrow
      simp only [hw, Bool.false_eq_true, if_false, hs, List.mem_flatMap]
      exact ⟨pick, hp, ih fun space => narrow space pick hp⟩

/-- A pruned leaf is one that some picks lead to. -/
theorem prunes_of_mem_leaves {maxBits : Number} {why : Pruning} {detail : Option String} : ∀ {o : Outcome α},
    .discard why detail ∈ o.leaves maxBits → o.Prunes why
  | .discard why' detail', h => by
    rw [leaves, List.mem_singleton] at h
    cases h
    exact .discard
  | .done _, h | .fail _, h | .thrown _, h => by simp [leaves] at h
  | .choice space resume, h => by
    rw [leaves] at h
    split at h
    · simp at h
    · split at h
      · next picks hs =>
        obtain ⟨pick, hp, h⟩ := List.mem_flatMap.mp h
        exact .choice hs hp (prunes_of_mem_leaves h)
      · simp at h

end Outcome

end Litmus
