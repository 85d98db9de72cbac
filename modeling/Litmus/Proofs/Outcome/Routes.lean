import Litmus.Proofs.Outcome.Told

/-!
Routes through outcomes. Picks lead an outcome to a face: a result, or a space to pick from. A route is a sequence of
picks that an explorer tries and cannot make longer. Main facts: work grafted onto an outcome is resumed by the picks
that the outcome leaves over; and the leaves of an outcome are what its routes lead to, the routes taken one after the
other in lexicographic order.
-/

namespace Litmus

variable {α β : Type} {m : Number}

/-- The values of a space that an explorer tries: all of them, or none if they are too many or cannot be told. -/
def Space.tried (m : Number) (space : Space) : List Int :=
  if space.isTooWide m then []
  else
    match space.picks with
    | .ok picks => picks
    | .error _ => []

/-- An explorer tries a pick exactly if the space is not too wide and the pick is one of its values. -/
theorem Space.mem_tried {space : Space} {pick : Int} :
    pick ∈ space.tried m ↔ space.isTooWide m = false ∧ ∃ n, space.size = .ok n ∧ 0 ≤ pick ∧ pick < n := by
  rw [tried]
  cases space.isTooWide m with
  | true => simp
  | false =>
    rw [if_neg Bool.false_ne_true]
    cases hpicks : space.picks with
    | ok picks => simpa using mem_picks hpicks
    | error t => simp [size_of_picks_eq_error hpicks]

theorem Space.pairwise_tried (m : Number) (space : Space) : (space.tried m).Pairwise (· < ·) := by
  rw [tried]
  split
  · exact .nil
  · split
    · next picks hpicks =>
      obtain ⟨n, -, rfl⟩ := picks_eq_ok hpicks
      rw [List.pairwise_map]
      exact List.pairwise_lt_range.imp Int.ofNat_lt.mpr
    · exact .nil

/-- What is seen of an outcome: how it ended, or the space that a pick is awaited from. -/
inductive Face (α : Type) where
  | done (a : α)
  | fail (f : Failure Diagnostic)
  | discard (why : Pruning) (detail : Option String)
  | choice (space : Space)
  | thrown (t : Trouble)

namespace Outcome

/-! ### Picks -/

/-- What is seen of an outcome. -/
def face : Outcome α → Face α
  | .done a => .done a
  | .fail f => .fail f
  | .discard why detail => .discard why detail
  | .choice space _ => .choice space
  | .thrown t => .thrown t

/-- The outcome after these picks, as long as it asks for any, and the picks left over. -/
def spend : Outcome α → List Int → Outcome α × List Int
  | .choice _ resume, pick :: picks => (resume pick).spend picks
  | o, picks => (o, picks)

theorem spend_fst : ∀ (o : Outcome α) (picks : List Int), (o.spend picks).1 = o.resumed picks
  | .choice _ _, [] => rfl
  | .choice _ resume, pick :: picks => spend_fst (resume pick) picks
  | .done _, picks | .fail _, picks | .discard _ _, picks | .thrown _, picks => by cases picks <;> rfl

/-- Picks first resume the outcome that work is grafted onto, and those left over the work. -/
theorem resumed_bind {k : α → Outcome β} : ∀ (o : Outcome α) (picks : List Int),
    (o.bind k).resumed picks = ((o.spend picks).1.bind k).resumed (o.spend picks).2
  | .choice _ _, [] => rfl
  | .choice _ resume, pick :: picks => resumed_bind (resume pick) picks
  | .done _, picks | .fail _, picks | .discard _ _, picks | .thrown _, picks => by cases picks <;> rfl

theorem bind_assoc {γ : Type} {k : α → Outcome β} {k' : β → Outcome γ} : ∀ o : Outcome α,
    (o.bind k).bind k' = o.bind fun a => (k a).bind k'
  | .done _ | .fail _ | .discard _ _ | .thrown _ => rfl
  | .choice _ resume => congrArg _ (funext fun pick => bind_assoc (resume pick))

/-- A result of grafted work is one of the work after some result. -/
theorem resumed_bind_eq_done {k : α → Outcome β} {b : β} : ∀ {o : Outcome α} {picks : List Int},
    (o.bind k).resumed picks = .done b → ∃ a rest, (k a).resumed rest = .done b
  | .done a, picks, h => ⟨a, picks, h⟩
  | .choice _ resume, pick :: picks, h => resumed_bind_eq_done (o := resume pick) h
  | .choice _ _, [], h => by cases h
  | .fail _, picks, h | .discard _ _, picks, h | .thrown _, picks, h => by cases picks <;> cases h

/-- What is seen of an outcome that further work does not go on from. -/
def halted? : Outcome α → Option (Face β)
  | .done _ => none
  | .fail f => some (.fail f)
  | .discard why detail => some (.discard why detail)
  | .choice space _ => some (.choice space)
  | .thrown t => some (.thrown t)

theorem halted?_eq_none {o : Outcome α} (h : (o.halted? : Option (Face β)) = none) : ∃ a, o = .done a := by
  cases o with
  | done a => exact ⟨a, rfl⟩
  | _ => cases h

/-- Work that is not gone on from shows what was seen before it was grafted. -/
theorem face_resumed_bind {k : α → Outcome β} {face : Face β} : ∀ {o : Outcome α} {picks : List Int},
    (o.resumed picks).halted? = some face → ((o.bind k).resumed picks).face = face
  | .choice _ _, [], h => Option.some.inj h
  | .choice _ resume, pick :: picks, h => face_resumed_bind (o := resume pick) h
  | .done _, picks, h => by cases picks <;> cases h
  | .fail _, picks, h | .discard _ _, picks, h | .thrown _, picks, h => by
    cases picks <;> exact Option.some.inj h

/-! ### Routes -/

/-- Whether picks are tried one after the other, with none left over. -/
inductive Tries (m : Number) : Outcome α → List Int → Prop
  | none {o : Outcome α} : Tries m o []
  | pick {space : Space} {resume : Int → Outcome α} {pick : Int} {picks : List Int} :
      pick ∈ space.tried m → Tries m (resume pick) picks → Tries m (.choice space resume) (pick :: picks)

/-- Whether picks that are tried are as many as can be tried. -/
def Route (m : Number) (o : Outcome α) (picks : List Int) : Prop := o.Tries m picks ∧ ∀ pick, ¬o.Tries m (picks ++ [pick])

/-- All routes of an outcome. -/
def routes (m : Number) : Outcome α → List (List Int)
  | .choice space resume =>
    if space.tried m = [] then [[]]
    else (space.tried m).flatMap fun pick => ((resume pick).routes m).map (pick :: ·)
  | .done _ | .fail _ | .discard _ _ | .thrown _ => [[]]

theorem tries_cons {space : Space} {resume : Int → Outcome α} {pick : Int} {picks : List Int} :
    (Outcome.choice space resume).Tries m (pick :: picks) ↔ pick ∈ space.tried m ∧ (resume pick).Tries m picks := by
  constructor
  · rintro (_ | ⟨hpick, h⟩)
    exact ⟨hpick, h⟩
  · rintro ⟨hpick, h⟩
    exact .pick hpick h

theorem Tries.append {o : Outcome α} {picks picks' : List Int} (h : o.Tries m picks) (h' : (o.resumed picks).Tries m picks') :
    o.Tries m (picks ++ picks') := by
  induction h with
  | @none o =>
    have hnil : o.resumed [] = o := by cases o <;> rfl
    rwa [hnil] at h'
  | pick hpick _ ih => exact .pick hpick (ih h')

theorem route_nil {o : Outcome α} : o.Route m [] ↔ ∀ pick, ¬o.Tries m [pick] := and_iff_right .none

theorem route_cons {space : Space} {resume : Int → Outcome α} {pick : Int} {picks : List Int} :
    (Outcome.choice space resume).Route m (pick :: picks) ↔ pick ∈ space.tried m ∧ (resume pick).Route m picks := by
  constructor
  · rintro ⟨h, hmax⟩
    obtain ⟨hpick, h⟩ := tries_cons.mp h
    exact ⟨hpick, h, fun next hnext => hmax next (.pick hpick hnext)⟩
  · rintro ⟨hpick, h, hmax⟩
    exact ⟨.pick hpick h, fun next hnext => hmax next (tries_cons.mp hnext).2⟩

theorem mem_routes : ∀ {o : Outcome α} {picks : List Int}, picks ∈ o.routes m ↔ o.Route m picks
  | .choice space resume, picks => by
    rw [routes]
    cases picks with
    | nil =>
      rw [route_nil]
      simp only [tries_cons]
      split
      · next hnone => simp [hnone]
      · next hsome =>
        obtain ⟨pick, hpick⟩ := List.exists_mem_of_ne_nil _ hsome
        exact ⟨fun h => by simp at h, fun h => absurd ⟨hpick, .none⟩ (h pick)⟩
    | cons pick picks =>
      rw [route_cons, ← mem_routes]
      split
      · next hnone => simp [hnone]
      · simp [eq_comm]
  | .done _, picks | .fail _, picks | .discard _ _, picks | .thrown _, picks => by
    rw [routes, List.mem_singleton]
    constructor
    · rintro rfl
      exact route_nil.mpr fun _ => nofun
    · rintro ⟨h, -⟩
      cases h
      rfl

/-- Routes come in lexicographic order, each once. -/
theorem pairwise_routes : ∀ o : Outcome α, (o.routes m).Pairwise (· < ·)
  | .choice space resume => by
    rw [routes]
    split
    · exact List.pairwise_singleton _ _
    · rw [List.pairwise_flatMap]
      constructor
      · intro pick _
        rw [List.pairwise_map]
        exact (pairwise_routes (resume pick)).imp fun h => List.cons_lt_cons_iff.mpr (.inr ⟨rfl, h⟩)
      · refine (space.pairwise_tried m).imp fun hlt picks hpicks picks' hpicks' => ?_
        obtain ⟨_, -, rfl⟩ := List.mem_map.mp hpicks
        obtain ⟨_, -, rfl⟩ := List.mem_map.mp hpicks'
        exact List.cons_lt_cons_iff.mpr (.inl hlt)
  | .done _ | .fail _ | .discard _ _ | .thrown _ => List.pairwise_singleton _ _

/-! ### Leaves -/

/-- What an explorer has of an outcome at the end of a route: a leaf, unless it is a choice without values. -/
def leaf? (m : Number) : Outcome α → Option (Leaf α)
  | .done a => some (.done a)
  | .fail f => some (.fail f)
  | .discard why detail => some (.discard why detail)
  | .thrown t => some (.thrown t)
  | .choice space _ =>
    if space.isTooWide m then some (.tooWide space)
    else
      match space.picks with
      | .ok _ => none
      | .error t => some (.thrown t)

/-- At the end of a route there is a leaf, or a choice that has no values at all. -/
theorem Route.leaf?_eq_none {o : Outcome α} {picks : List Int} (h : o.Route m picks)
    (hnone : (o.resumed picks).leaf? m = none) :
    ∃ space resume, o.resumed picks = .choice space resume ∧ space.picks = .ok [] := by
  cases hend : o.resumed picks with
  | choice space resume =>
    rw [hend, leaf?] at hnone
    split at hnone
    · cases hnone
    · next hwide =>
      split at hnone
      · next values hvalues =>
        refine ⟨space, resume, rfl, hvalues.trans (congrArg _ (List.eq_nil_iff_forall_not_mem.mpr fun pick hpick => ?_))⟩
        have htried : pick ∈ space.tried m :=
          Space.mem_tried.mpr ⟨Bool.eq_false_iff.mpr hwide, (Space.mem_picks hvalues).mp hpick⟩
        exact h.2 pick (h.1.append (hend ▸ .pick htried .none))
      · cases hnone
  | _ =>
    rw [hend] at hnone
    cases hnone

/-- The leaves of an outcome are what its routes lead to. -/
theorem leaves_eq_routes : ∀ o : Outcome α, o.leaves m = (o.routes m).filterMap fun picks => (o.resumed picks).leaf? m
  | .choice space resume => by
    rw [leaves, routes, Space.tried]
    by_cases hwide : space.isTooWide m
    · simp [hwide, resumed, leaf?]
    · cases hpicks : space.picks with
      | error t => simp [hwide, hpicks, resumed, leaf?]
      | ok picks =>
        have hgo (pick : Int) : (resume pick).leaves m = (((resume pick).routes m).map (pick :: ·)).filterMap
            fun picks => ((Outcome.choice space resume).resumed picks).leaf? m := by
          rw [leaves_eq_routes, List.filterMap_map]
          rfl
        simp only [hwide, Bool.false_eq_true, if_false]
        split
        · next hnone => simp [hnone, hwide, hpicks, resumed, leaf?]
        · rw [List.filterMap_flatMap]
          exact congrArg (List.flatMap · picks) (funext hgo)
  | .done _ | .fail _ | .discard _ _ | .thrown _ => rfl

end Outcome

end Litmus
