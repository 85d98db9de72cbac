import Litmus.Proofs.Text.Injective
import Litmus.Proofs.Text.Template
import Mathlib.Data.List.Chain
import Mathlib.Data.List.Nodup

/-!
Templates that come out as they read. A pattern that is carried out gives less than the dollar sign and the mark that
stand for it, or else what no text between places begins with, so that what comes out stays behind what was filled in and
never catches up. Main fact: if neither names nor what they stand for have braces, filling the places one after the other
comes to filling them literally exactly when nothing that is filled in has a pattern.
-/

namespace Litmus.Text

/-! ### What later fillings leave alone -/

/-- A text comes from another by places being replaced, all of names in `K`. -/
inductive Refilled (K : List Char → Prop) (xs : List Char) : List Char → Prop
  | refl : Refilled K xs xs
  | step {name before after : List Char} (ys : List Char) : K name → Refilled K xs (before ++ (placeText name ++ after)) →
      Refilled K xs (before ++ (ys ++ after))

namespace Refilled

variable {K : List Char → Prop} {xs zs : List Char}

theorem eq_nil (h : Refilled K [] zs) : zs = [] := by
  induction h with
  | refl => rfl
  | step ys hk _ ih => simp [placeText] at ih

/-- A character that begins no place stays in front. -/
theorem of_cons {c : Char} (hc : c ≠ '\x7b') (h : Refilled K (c :: xs) zs) : ∃ ys, zs = c :: ys ∧ Refilled K xs ys := by
  induction h with
  | refl => exact ⟨xs, rfl, .refl⟩
  | @step name before after ws hk _ ih =>
    obtain ⟨ys, hys, hrest⟩ := ih
    cases before with
    | nil => exact absurd (List.cons.inj hys).1.symm hc
    | cons b before =>
      obtain ⟨rfl, rfl⟩ := List.cons.inj hys
      exact ⟨before ++ (ws ++ after), rfl, hrest.step ws hk⟩

/-- So does a place of another name. -/
theorem of_place {a : List Char} (ha : '\x7b' ∉ a ∧ '\x7d' ∉ a) (hK : ∀ n, K n → n ≠ a ∧ '\x7d' ∉ n)
    (h : Refilled K (placeText a ++ xs) zs) : ∃ ys, zs = placeText a ++ ys ∧ Refilled K xs ys := by
  induction h with
  | refl => exact ⟨xs, rfl, .refl⟩
  | @step name before after ws hk _ ih =>
    obtain ⟨ys, hys, hrest⟩ := ih
    rcases List.append_eq_append_iff.mp hys with ⟨as, hplace, hafter⟩ | ⟨bs, rfl, hbehind⟩
    · cases as with
      | nil =>
        rw [List.append_nil] at hplace
        rw [List.nil_append] at hafter
        rw [← hafter] at hrest
        have hfront : Refilled K xs ([] ++ (placeText name ++ after)) := hrest
        exact ⟨ws ++ after, by rw [hplace], hfront.step ws hk⟩
      | cons c as =>
        obtain ⟨rfl, hname⟩ := List.cons.inj hafter
        cases before with
        | nil =>
          have has : a ++ ['\x7d'] = as := (List.cons.inj hplace).2
          have heq : name ++ '\x7d' :: after = a ++ '\x7d' :: ys := by simpa [← has] using hname
          exact absurd (append_cons_injective (hK _ hk).2 ha.2 heq).1 (hK _ hk).1
        | cons b before =>
          have htail : a ++ ['\x7d'] = before ++ '\x7b' :: as := (List.cons.inj hplace).2
          have hmem : '\x7b' ∈ a ++ ['\x7d'] := htail ▸ List.mem_append_right _ List.mem_cons_self
          simp [ha.1] at hmem
    · rw [hbehind] at hrest
      exact ⟨bs ++ (ws ++ after), List.append_assoc _ _ _, hrest.step ws hk⟩

end Refilled

/-! ### What is carried out stays behind -/

/-- A character that has no part in places and begins no pattern. -/
def Calm (c : Char) : Prop := c ∉ ['\x7b', '\x7d', '$', '\'']
  deriving Decidable

/-- A text that is empty or begins with a calm character. -/
def StartsCalm : List Char → Prop
  | [] => True
  | c :: _ => Calm c

theorem Calm.ne {c : Char} (h : Calm c) : c ≠ '\x7b' ∧ c ≠ '$' ∧ c ≠ '\'' := by
  simp only [Calm, List.mem_cons, not_or] at h
  exact ⟨h.1, h.2.2.1, h.2.2.2.1⟩

/-- What a text begins with that starts calm stays calm. -/
theorem Refilled.of_startsCalm {K : List Char → Prop} {xs ys zs : List Char} (hne : xs ≠ []) (hxs : StartsCalm xs)
    (h : Refilled K (xs ++ ys) zs) : ∃ c cs, zs = c :: cs ∧ Calm c := by
  cases xs with
  | nil => exact absurd rfl hne
  | cons c xs =>
    obtain ⟨cs, hzs, -⟩ := h.of_cons (Calm.ne hxs).1
    exact ⟨c, cs, hzs, hxs⟩

theorem Refilled.startsCalm {K : List Char → Prop} {xs zs : List Char} (hxs : StartsCalm xs) (h : Refilled K xs zs) :
    StartsCalm zs := by
  cases xs with
  | nil =>
    rw [h.eq_nil]
    trivial
  | cons c xs =>
    obtain ⟨cs, rfl, -⟩ := h.of_cons (Calm.ne hxs).1
    exact hxs

/-- What can be missing from what comes out: dollar signs and quotes. -/
def Lag (s : List Char) : Prop := s ≠ [] ∧ ∀ c ∈ s, c = '$' ∨ c = '\''

namespace Lag

variable {c : Char} {s t xs ys : List Char}

theorem append (h : Lag s) (ht : Lag t) : Lag (s ++ t) :=
  ⟨List.append_ne_nil_of_left_ne_nil h.1 t, fun d hd => (List.mem_append.mp hd).elim (h.2 d) (ht.2 d)⟩

theorem head (h : Lag s) (he : c :: xs = s ++ ys) : c = '$' ∨ c = '\'' := by
  cases s with
  | nil => exact absurd rfl h.1
  | cons d s =>
    obtain ⟨rfl, -⟩ := List.cons.inj he
    exact h.2 _ List.mem_cons_self

theorem ne_of_calm (h : Lag s) (hc : Calm c) : c :: xs ≠ s ++ ys := fun he => (h.head he).elim hc.ne.2.1 hc.ne.2.2

/-- A character that comes out where dollar signs and quotes are missing is one of them, and others take its place. -/
theorem tail (h : Lag s) (ht : Lag t) (he : c :: xs = s ++ (t ++ ys)) : ∃ s', Lag s' ∧ xs = s' ++ ys := by
  cases s with
  | nil => exact absurd rfl h.1
  | cons d s =>
    have hs : ∀ d ∈ s, d = '$' ∨ d = '\'' := fun d hd => h.2 d (List.mem_cons_of_mem _ hd)
    refine ⟨s ++ t, ⟨List.append_ne_nil_of_right_ne_nil s ht.1, ?_⟩, ?_⟩
    · exact fun d hd => (List.mem_append.mp hd).elim (hs d) (ht.2 d)
    · rw [List.append_assoc]
      exact (List.cons.inj he).2

end Lag

section Expand

variable {K : List Char → Prop} {a before after v s zs rest : List Char}

/-- Once behind, what comes out never catches up with what was filled in. -/
theorem ne_of_lag (ha : '\x7b' ∉ a ∧ '\x7d' ∉ a) (hK : ∀ n, K n → n ≠ a ∧ '\x7d' ∉ n) (hne : before ≠ [])
    (hbefore : StartsCalm before) (hafter : StartsCalm after) (hv : '\x7b' ∉ v) (hs : Lag s)
    (h : Refilled K (expand before (placeText a) after v ++ after) zs) : zs ≠ s ++ (v ++ rest) := by
  fun_induction expand before (placeText a) after v generalizing s zs with
  | case1 r ih =>
    intro he
    obtain ⟨ys, rfl, hys⟩ := h.of_cons (by decide)
    obtain ⟨s', hs', hys'⟩ := hs.tail (t := ['$', '$']) (by simp [Lag]) he
    exact ih (by simp_all) hs' hys hys'
  | case2 r ih =>
    intro he
    rw [List.append_assoc] at h
    obtain ⟨ys, rfl, -⟩ := h.of_place ha hK
    exact (hs.head he).elim (by decide) (by decide)
  | case3 r ih =>
    rw [List.append_assoc] at h
    obtain ⟨c, cs, rfl, hc⟩ := h.of_startsCalm hne hbefore
    exact hs.ne_of_calm hc
  | case4 r ih =>
    intro he
    by_cases hnil : after = []
    · subst hnil
      have hlag : Lag ['$', '\''] := by simp [Lag]
      refine ih (by simp_all) (hs.append hlag) h ?_
      rw [he, List.append_assoc]
      rfl
    · rw [List.append_assoc] at h
      obtain ⟨c, cs, rfl, hc⟩ := h.of_startsCalm hnil hafter
      exact hs.ne_of_calm hc he
  | case5 c r _ _ _ _ ih =>
    intro he
    have hbrace : c ≠ '\x7b' := fun hc => hv (hc ▸ List.mem_cons_self)
    obtain ⟨ys, rfl, hys⟩ := h.of_cons hbrace
    have hlag : Lag [c] := ⟨List.cons_ne_nil _ _, by simpa using hs.head he⟩
    obtain ⟨s', hs', hys'⟩ := hs.tail hlag he
    exact ih (fun hr => hv (List.mem_cons_of_mem _ hr)) hs' hys hys'
  | case6 =>
    intro he
    rw [List.nil_append] at h
    by_cases hnil : after = []
    · subst hnil
      rw [h.eq_nil] at he
      exact hs.1 (List.append_eq_nil_iff.mp he.symm).1
    · rw [← List.append_nil after] at h
      obtain ⟨c, cs, rfl, hc⟩ := h.of_startsCalm hnil hafter
      exact hs.ne_of_calm hc he

theorem Inert.cons {c : Char} (h : ∀ d r, d ∈ marks → c = '$' → v = d :: r → False) (hv : Inert v) : Inert (c :: v) := by
  intro d hd hin
  rcases List.infix_cons_iff.mp hin with ⟨r, hr⟩ | hin
  · obtain ⟨rfl, rfl⟩ := List.cons.inj hr
    exact h d r hd rfl rfl
  · exact hv d hd hin

/-- What comes out as it was filled in has no pattern. -/
theorem inert_of_refilled (ha : '\x7b' ∉ a ∧ '\x7d' ∉ a) (hK : ∀ n, K n → n ≠ a ∧ '\x7d' ∉ n) (hne : before ≠ [])
    (hbefore : StartsCalm before) (hafter : StartsCalm after) (hv : '\x7b' ∉ v)
    (h : Refilled K (expand before (placeText a) after v ++ after) (v ++ rest)) : Inert v := by
  have behind {v s zs : List Char} (hv : '\x7b' ∉ v) (hs : Lag s)
      (h : Refilled K (expand before (placeText a) after v ++ after) zs) : zs ≠ s ++ (v ++ rest) :=
    ne_of_lag ha hK hne hbefore hafter hv hs h
  generalize hzs : v ++ rest = zs at h
  fun_induction expand before (placeText a) after v generalizing zs with
  | case1 r ih =>
    obtain ⟨ys, rfl, hys⟩ := h.of_cons (by decide)
    have hlag : Lag ['$'] := by simp [Lag]
    exact absurd (List.cons.inj hzs).2.symm (behind (by simp_all) hlag hys)
  | case2 r ih =>
    rw [List.append_assoc] at h
    obtain ⟨ys, rfl, -⟩ := h.of_place ha hK
    exact absurd (List.cons.inj hzs).1 (by decide)
  | case3 r ih =>
    rw [List.append_assoc] at h
    obtain ⟨c, cs, rfl, hc⟩ := h.of_startsCalm hne hbefore
    exact absurd (List.cons.inj hzs).1.symm hc.ne.2.1
  | case4 r ih =>
    by_cases hnil : after = []
    · subst hnil
      have hlag : Lag ['$', '\''] := by simp [Lag]
      exact absurd hzs.symm (behind (by simp_all) hlag h)
    · rw [List.append_assoc] at h
      obtain ⟨c, cs, rfl, hc⟩ := h.of_startsCalm hnil hafter
      exact absurd (List.cons.inj hzs).1.symm hc.ne.2.1
  | case5 c r h₁ h₂ h₃ h₄ ih =>
    have hbrace : c ≠ '\x7b' := fun hc => hv (hc ▸ List.mem_cons_self)
    obtain ⟨ys, rfl, hys⟩ := h.of_cons hbrace
    refine .cons ?_ (ih (fun hr => hv (List.mem_cons_of_mem _ hr)) _ (List.cons.inj hzs).2 hys)
    intro d t hd hc hr
    simp only [marks, List.mem_cons, List.not_mem_nil, or_false] at hd
    rcases hd with rfl | rfl | rfl | rfl
    · exact h₁ t hc hr
    · exact h₂ t hc hr
    · exact h₃ t hc hr
    · exact h₄ t hc hr
  | case6 => exact inert_of_not_mem List.not_mem_nil

end Expand

/-! ### Fillings without braces -/

variable {ps qs pre post : List Piece} {done todo fillings : List (String × String)} {name value : String}

/-- Whether a part of a template is a character. -/
def Piece.isChar : Piece → Bool
  | .char _ => true
  | .place _ => false

/-- Whether a part of a template is a place or a calm character. -/
def Piece.Calm : Piece → Prop
  | .char c => Text.Calm c
  | .place _ => True

instance : DecidablePred Piece.Calm
  | .char c => inferInstanceAs (Decidable (Text.Calm c))
  | .place _ => .isTrue trivial

/-- A template of calm characters that begins with one, and where no place follows right upon another. -/
structure Spaced (ps : List Piece) : Prop extends Regular ps where
  calm : ∀ x ∈ ps, x.Calm
  first : ps.head?.all Piece.isChar = true
  apart : ps.IsChain fun a b => a.isChar = true ∨ b.isChar = true

instance (ps : List Piece) : Decidable (Spaced ps) :=
  have : DecidableRel fun a b : Piece => a.isChar = true ∨ b.isChar = true := fun _ _ => instDecidableOr
  decidable_of_iff (Regular ps ∧ (∀ x ∈ ps, x.Calm) ∧ ps.head?.all Piece.isChar = true ∧
    ps.IsChain fun a b => a.isChar = true ∨ b.isChar = true)
    ⟨fun h => ⟨h.1, h.2.1, h.2.2.1, h.2.2.2⟩, fun h => ⟨h.toRegular, h.calm, h.first, h.apart⟩⟩

theorem Spaced.of_append (h : Spaced (pre ++ post)) : Spaced pre where
  nodup := (List.nodup_append.mp (names_append ▸ h.nodup)).1
  braceless n hn := h.braceless n (by rw [names_append]; exact List.mem_append_left _ hn)
  calm x hx := h.calm x (List.mem_append_left _ hx)
  first := by
    cases pre with
    | nil => rfl
    | cons x pre => exact h.first
  apart := h.apart.left_of_append

theorem startsCalm_filled {f : List Char → Option (List Char)} (h : ∀ x ∈ ps, x.Calm)
    (hfirst : ps.head?.all Piece.isChar = true) : StartsCalm (filled f ps) := by
  cases ps with
  | nil => trivial
  | cons x ps =>
    cases x with
    | char c => exact h _ List.mem_cons_self
    | place name => cases hfirst

/-- What stands around a place is calm. -/
theorem Spaced.around {a : List Char} (h : Spaced (pre ++ .place a :: post)) (f : List Char → Option (List Char)) :
    filled f pre ≠ [] ∧ StartsCalm (filled f pre) ∧ StartsCalm (filled f post) := by
  have hcalm := List.forall_mem_append.mp h.calm
  have hapart := h.apart.right_of_append
  have hfirst := h.first
  cases pre with
  | nil => cases hfirst
  | cons x pre =>
    cases x with
    | place n => cases hfirst
    | char c =>
      refine ⟨List.cons_ne_nil _ _, startsCalm_filled hcalm.1 rfl, ?_⟩
      refine startsCalm_filled (fun x hx => hcalm.2 x (List.mem_cons_of_mem _ hx)) ?_
      cases post with
      | nil => rfl
      | cons y post => exact (List.isChain_cons_cons.mp hapart).1.resolve_left Bool.false_ne_true

/-- Fillings with names that are told apart and hold no closing brace, and with no opening brace in what a template has a
place for. -/
structure Braceless (ps : List Piece) (fillings : List (String × String)) : Prop where
  nodup : (fillings.map Prod.fst).Nodup
  names : ∀ e ∈ fillings, '\x7d' ∉ e.1.toList
  values : ∀ e ∈ fillings, .place e.1.toList ∈ ps → '\x7b' ∉ e.2.toList

theorem Braceless.mono (h : Braceless ps fillings) (hqs : qs ⊆ ps) (hdone : done.Sublist fillings) : Braceless qs done where
  nodup := (hdone.map Prod.fst).nodup h.nodup
  names e he := h.names e (hdone.mem he)
  values e he hplace := h.values e (hdone.mem he) (hqs hplace)

theorem skips_of_not_mem {name xs ys : List Char} (h : '\x7b' ∉ xs) : Skips (placeText name) xs ys := by
  induction xs with
  | nil => trivial
  | cons x xs ih =>
    rw [List.mem_cons, not_or] at h
    exact ⟨fun hp => h.1 (List.cons_prefix_cons.mp hp).1, ih h.2⟩

/-- Where a template has no place of a name, none begins, whatever else has been filled. -/
theorem skips_filled {k : List Char} (hps : Spaced ps) (hdone : Braceless ps done) (hqs : qs ⊆ ps) (hk : '\x7d' ∉ k)
    (hmem : .place k ∉ qs) (ys : List Char) : Skips (placeText k) (filled (looked done) qs) ys := by
  have part : ∀ x ∈ qs, ∀ zs, Skips (placeText k) (x.filled (looked done)) zs := by
    intro x hx zs
    cases x with
    | char c =>
      have hc : '\x7b' ≠ c := (hps.calm _ (hqs hx)).ne.1.symm
      exact skips_of_not_mem (by simpa [Piece.filled] using hc)
    | place n =>
      rw [Piece.filled]
      cases hn : looked done n with
      | some v =>
        obtain ⟨name, rfl⟩ : ∃ name : String, n = name.toList := ⟨String.ofList n, String.toList_ofList.symm⟩
        obtain ⟨value, rfl⟩ : ∃ value : String, v = value.toList := ⟨String.ofList v, String.toList_ofList.symm⟩
        exact skips_of_not_mem (hdone.values _ ((looked_eq_some_iff hdone.nodup).mp hn) (hqs hx))
      | none =>
        have hname := hps.braceless n (mem_names.mpr (hqs hx))
        refine ⟨fun hp => ?_, skips_of_not_mem (by simpa using hname.1)⟩
        obtain ⟨ys, hys⟩ := (List.cons_prefix_cons.mp hp).2
        have heq : k ++ '\x7d' :: ys = n ++ '\x7d' :: zs := by simpa using hys
        exact hmem ((append_cons_injective hk hname.2 heq).1 ▸ hx)
  clear hqs hmem
  induction qs with
  | nil => trivial
  | cons x qs ih =>
    rw [filled_cons, skips_append]
    exact ⟨part x List.mem_cons_self _, ih fun y hy => part y (List.mem_cons_of_mem _ hy)⟩

/-- A filling goes where the template has its place, or else changes only what stands behind. -/
theorem fillPlace_behind {K : List Char → Prop} {rest zs : List Char} (hps : Spaced ps)
    (h : Braceless ps (done ++ [(name, value)])) (hvalue : .place name.toList ∈ ps → Inert value.toList)
    (hK : .place name.toList ∉ ps → K name.toList) (hzs : Refilled K rest zs) :
    ∃ zs', fillPlace (filled (looked done) ps ++ zs) name value = filled (looked (done ++ [(name, value)])) ps ++ zs' ∧
      Refilled K rest zs' := by
  have hdone := h.mono (List.Subset.refl ps) (List.sublist_append_left _ _)
  have hname := h.names (name, value) (List.mem_append_right _ List.mem_cons_self)
  have hnew : name ∉ done.map Prod.fst := by
    have hnodup := h.nodup
    rw [List.map_append, List.nodup_append] at hnodup
    exact fun hmem => hnodup.2.2 _ hmem _ (List.mem_singleton.mpr rfl) rfl
  by_cases hmem : .place name.toList ∈ ps
  · have hskips (ys : List Char) := skips_filled hps hdone (upTo_subset name.toList ps) hname
      (not_mem_upTo name.toList ps) ('\x7b' :: ys)
    exact ⟨zs, fillPlace_filled_append hps.toRegular hnew hmem (hvalue hmem) hskips zs, hzs⟩
  · have hskips := skips_filled hps hdone (List.Subset.refl ps) hname hmem zs
    rw [filled_looked_concat hmem]
    rcases fillPlace_append hskips value with hfill | ⟨before, after, rfl, hfill⟩
    · exact ⟨zs, hfill, hzs⟩
    · exact ⟨_, hfill, hzs.step _ (hK hmem)⟩

/-- Fillings go where the template has their places, and change else only what stands behind. -/
theorem foldl_fillPlace_behind {K : List Char → Prop} (hps : Spaced ps) (done todo : List (String × String))
    (rest : List Char) (h : Braceless ps (done ++ todo)) (hvalues : ∀ e ∈ todo, .place e.1.toList ∈ ps → Inert e.2.toList)
    (hK : ∀ e ∈ todo, .place e.1.toList ∉ ps → K e.1.toList) :
    ∃ zs, todo.foldl (fun t (name, filling) => fillPlace t name filling) (filled (looked done) ps ++ rest) =
      filled (looked (done ++ todo)) ps ++ zs ∧ Refilled K rest zs := by
  induction todo using List.reverseRecOn with
  | nil => exact ⟨rest, by rw [List.append_nil, List.foldl_nil], .refl⟩
  | append_singleton todo e ih =>
    rw [← List.append_assoc] at h
    have hlast : e ∈ todo ++ [e] := List.mem_append_right _ (List.mem_singleton.mpr rfl)
    obtain ⟨zs, hfold, hzs⟩ := ih (h.mono (List.Subset.refl ps) (List.sublist_append_left _ _))
      (fun x hx => hvalues x (List.mem_append_left _ hx)) (fun x hx => hK x (List.mem_append_left _ hx))
    rw [List.foldl_append, hfold, ← List.append_assoc]
    exact fillPlace_behind hps h (hvalues e hlast) (hK e hlast) hzs

/-- If a template comes out literally, and nothing before a place has a pattern, then neither has what is filled in there. -/
theorem inert_of_leftmost (hps : Spaced (pre ++ .place name.toList :: post))
    (h : Braceless (pre ++ .place name.toList :: post) (done ++ (name, value) :: todo))
    (hpre : ∀ e ∈ done ++ todo, .place e.1.toList ∈ pre → Inert e.2.toList)
    (hliteral : (done ++ (name, value) :: todo).foldl (fun t (name, filling) => fillPlace t name filling)
      (filled (looked []) (pre ++ .place name.toList :: post)) =
        filled (looked (done ++ (name, value) :: todo)) (pre ++ .place name.toList :: post)) : Inert value.toList := by
  have hplace : .place name.toList ∈ pre ++ .place name.toList :: post := List.mem_append_right _ List.mem_cons_self
  have hname := hps.braceless _ (mem_names.mpr hplace)
  have habsent := hps.not_mem_around.1
  have hleft := h.mono (List.subset_append_left pre _) (List.Sublist.refl _)
  have hdone : Braceless pre done := hleft.mono (List.Subset.refl pre) (List.sublist_append_left _ _)
  -- the other names, whose places may be filled anywhere
  let K : List Char → Prop := fun n => n ≠ name.toList ∧ '\x7d' ∉ n
  have other {e : String × String} (he : e ∈ done ++ todo) : K e.1.toList := by
    have hnodup := h.nodup
    rw [List.map_append, List.map_cons, List.nodup_middle, List.nodup_cons, ← List.map_append] at hnodup
    refine ⟨fun heq => hnodup.1 (List.mem_map.mpr ⟨e, he, String.toList_injective heq⟩), h.names e ?_⟩
    exact ((List.sublist_cons_self _ _).append_left done).mem he
  have hsplit : done ++ (name, value) :: todo = done ++ [(name, value)] ++ todo := by simp
  -- up to its turn the place stands where the template has it
  obtain ⟨zs, hfold, hzs⟩ := foldl_fillPlace_behind hps.of_append [] done
    (placeText name.toList ++ filled (looked []) post) hdone (fun e he => hpre e (List.mem_append_left _ he))
    (fun e he _ => other (List.mem_append_left _ he))
  obtain ⟨after, rfl, hafter⟩ := hzs.of_place hname (fun _ hn => hn)
  have hskips := skips_filled hps.of_append hdone (List.Subset.refl pre) hname.2 habsent (placeText name.toList ++ after)
  -- from then on what was filled in changes by later places alone
  obtain ⟨zs', hfold', hzs'⟩ := foldl_fillPlace_behind hps.of_append (done ++ [(name, value)]) todo
    (expand (filled (looked done) pre) (placeText name.toList) after value.toList ++ after) (hsplit ▸ hleft)
    (fun e he => hpre e (List.mem_append_right _ he)) (fun e he _ => other (List.mem_append_right _ he))
  rw [filled_looked_concat habsent, ← fillPlace_of_skips hskips, ← hsplit] at hfold'
  have hstart : filled (looked []) (pre ++ .place name.toList :: post) =
      filled (looked []) pre ++ (placeText name.toList ++ filled (looked []) post) := by
    rw [filled_append, filled_cons]
    rfl
  have hend : filled (looked (done ++ (name, value) :: todo)) (pre ++ .place name.toList :: post) =
      filled (looked (done ++ (name, value) :: todo)) pre ++
        (value.toList ++ filled (looked (done ++ (name, value) :: todo)) post) := by
    rw [filled_append, filled_cons, Piece.filled,
      (looked_eq_some_iff h.nodup).mpr (List.mem_append_right _ List.mem_cons_self), Option.getD_some]
  rw [List.foldl_append, hstart, hfold, List.foldl_cons, List.nil_append, hfold', hend] at hliteral
  rw [List.append_cancel_left hliteral] at hzs'
  obtain ⟨hne, hbefore, -⟩ := hps.around (looked done)
  exact inert_of_refilled hname (fun _ hn => hn) hne hbefore (hafter.startsCalm (hps.around (looked [])).2.2)
    (h.values (name, value) (List.mem_append_right _ List.mem_cons_self) hplace) hzs'

/-- Without braces in what is filled in no place is met before its own. -/
theorem Braceless.inTurn (h : Braceless ps fillings) (hps : Spaced ps) : InTurn ps fillings := by
  intro i hi
  have hskips := skips_filled hps (h.mono (List.Subset.refl ps) (List.take_sublist i fillings)) (upTo_subset _ ps)
    (h.names _ (List.getElem_mem hi)) (not_mem_upTo fillings[i].1.toList ps) []
  exact hskips.absent (List.cons_ne_nil _ _)

/-- If a template comes out literally, nothing that was filled in has a pattern. -/
theorem inert_of_foldl_eq (hps : Spaced ps) (h : Braceless ps fillings)
    (hliteral : fillings.foldl (fun t (name, filling) => fillPlace t name filling) (filled (looked []) ps) =
      filled (looked fillings) ps) : ∀ e ∈ fillings, .place e.1.toList ∈ ps → Inert e.2.toList := by
  -- one place after the other, from the left
  suffices hleft : ∀ pre post, ps = pre ++ post → ∀ e ∈ fillings, .place e.1.toList ∈ pre → Inert e.2.toList from
    hleft ps [] (List.append_nil ps).symm
  intro pre
  induction pre using List.reverseRecOn with
  | nil => exact fun _ _ _ _ he => absurd he List.not_mem_nil
  | append_singleton pre x ih =>
    intro post hpost e he hx
    rw [List.append_assoc] at hpost
    rcases List.mem_append.mp hx with hx | hx
    · exact ih _ hpost e he hx
    · obtain ⟨done, todo, rfl⟩ := List.append_of_mem he
      cases List.mem_singleton.mp hx
      subst hpost
      refine inert_of_leftmost hps h (fun e' he' => ih _ rfl e' ?_) hliteral
      exact ((List.sublist_cons_self _ _).append_left done).mem he'

/-- Without braces in names and in what they stand for a template comes out literally exactly when nothing that is filled
in has a pattern. -/
theorem fill_eq_literal_iff {template : String} (hps : Spaced (pieces template.toList))
    (h : Braceless (pieces template.toList) fillings) :
    fill template fillings = literal template fillings ↔
      ∀ e ∈ fillings, .place e.1.toList ∈ pieces template.toList → Inert e.2.toList := by
  constructor
  · intro hliteral
    refine inert_of_foldl_eq hps h ?_
    rw [looked_nil, written_pieces]
    exact String.ofList_injective hliteral
  · exact fill_eq_literal hps.toRegular h.nodup (h.inTurn hps)

end Litmus.Text
