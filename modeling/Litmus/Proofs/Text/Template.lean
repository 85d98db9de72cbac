import Litmus.Text.Template
import Litmus.Proofs.Value.Record
import Mathlib.Data.List.Infix
import Mathlib.Data.List.TakeWhile

/-!
Templates as they read: characters that stand for themselves, and places with names. A template is filled literally when
each place that there is something for holds it as it is, all at once. Main fact: filling one place after the other comes to
the same, as long as nothing that is filled in has a pattern, and no place, when its turn comes, is met before the template
has it.
-/

namespace Litmus.Text

/-! ### The parts of a template -/

/-- A part of a template: a character that stands for itself, or a place with its name. -/
inductive Piece where
  | char (c : Char)
  | place (name : List Char)
  deriving DecidableEq

/-- A place as it is written. -/
def placeText (name : List Char) : List Char := '\x7b' :: name ++ ['\x7d']

/-- The name that ends at the first closing brace, and what comes after it. -/
def name? : List Piece → Option (List Char × List Piece)
  | .char c :: ps => if c = '\x7d' then some ([], ps) else (name? ps).map fun (name, rest) => (c :: name, rest)
  | _ => none

/-- The parts of a template. A brace that no place begins with stands for itself. -/
def pieces : List Char → List Piece
  | [] => []
  | c :: cs =>
    match if c = '\x7b' then name? (pieces cs) else none with
    | some (name, rest) => .place name :: rest
    | none => .char c :: pieces cs

/-- A part with its place filled, if `f` has something for it. -/
def Piece.filled (f : List Char → Option (List Char)) : Piece → List Char
  | .char c => [c]
  | .place name => (f name).getD (placeText name)

/-- Parts with their places filled, where `f` has something for them. -/
def filled (f : List Char → Option (List Char)) (ps : List Piece) : List Char := ps.flatMap (Piece.filled f)

/-- What fillings have for a name. -/
def looked (fillings : List (String × String)) (name : List Char) : Option (List Char) :=
  (Record.get? fillings (String.ofList name)).map String.toList

/-- The template with all its places filled at once, each with what it is given as it is. -/
def literal (template : String) (fillings : List (String × String)) : String :=
  String.ofList (filled (looked fillings) (pieces template.toList))

variable {f g : List Char → Option (List Char)} {ps qs : List Piece}

theorem filled_append : filled f (ps ++ qs) = filled f ps ++ filled f qs := List.flatMap_append

theorem filled_cons (x : Piece) : filled f (x :: ps) = x.filled f ++ filled f ps := List.flatMap_cons

theorem filled_congr (h : ∀ name, .place name ∈ ps → f name = g name) : filled f ps = filled g ps := by
  rw [filled, filled, List.flatMap_def, List.flatMap_def]
  refine congrArg List.flatten (List.map_congr_left fun x hx => ?_)
  cases x with
  | char c => rfl
  | place name => rw [Piece.filled, Piece.filled, h name hx]

theorem infix_filled {name value : List Char} (hname : .place name ∈ ps) (hf : f name = some value) :
    value <:+: filled f ps := by
  obtain ⟨pre, post, rfl⟩ := List.append_of_mem hname
  rw [filled_append, filled_cons, Piece.filled, hf, Option.getD_some, ← List.append_assoc]
  exact List.infix_append _ _ _

theorem written_of_name? : ∀ {ps : List Piece} {name : List Char} {rest : List Piece}, name? ps = some (name, rest) →
    filled (fun _ => none) ps = name ++ '\x7d' :: filled (fun _ => none) rest
  | .char c :: ps, name, rest, h => by
    rw [name?] at h
    split at h
    · next hc =>
      cases h
      rw [hc]
      rfl
    · obtain ⟨⟨name', rest'⟩, hname, hpair⟩ := Option.map_eq_some_iff.mp h
      cases hpair
      exact congrArg (c :: ·) (written_of_name? hname)
  | .place _ :: _, _, _, h => by cases h
  | [], _, _, h => by cases h

/-- The parts of a template make up the template. -/
theorem written_pieces : ∀ cs : List Char, filled (fun _ => none) (pieces cs) = cs
  | [] => rfl
  | c :: cs => by
    have ih := written_pieces cs
    rw [pieces]
    split
    · next name rest h =>
      split at h
      · next hc =>
        rw [written_of_name? h] at ih
        rw [filled_cons, Piece.filled, Option.getD_none, placeText, hc]
        simpa using ih
      · cases h
    · rw [filled_cons, ih]
      rfl

/-! ### What fillings have -/

variable {fillings : List (String × String)} {name value : String}

theorem looked_nil : looked [] = fun _ => none := rfl

theorem looked_append (done todo : List (String × String)) (n : List Char) :
    looked (done ++ todo) n = (looked done n).or (looked todo n) := by
  rw [looked, Record.get?, List.lookup_append, Option.map_or]
  rfl

theorem looked_singleton (n : List Char) :
    looked [(name, value)] n = if name.toList = n then some value.toList else none := by
  have hname : name = String.ofList n ↔ name.toList = n := by
    rw [← String.toList_inj, String.toList_ofList]
  rw [looked, Record.get?_cons]
  simp only [hname]
  split <;> rfl

theorem looked_eq_none (h : name ∉ fillings.map Prod.fst) : looked fillings name.toList = none := by
  rw [looked, String.ofList_toList, Record.get?_eq_none _ h]
  rfl

theorem looked_eq_some_iff (h : (fillings.map Prod.fst).Nodup) :
    looked fillings name.toList = some value.toList ↔ (name, value) ∈ fillings := by
  rw [looked, String.ofList_toList, Option.map_eq_some_iff, ← Record.get?_eq_some_iff h]
  constructor
  · rintro ⟨v, hv, he⟩
    rw [hv, String.toList_injective he]
  · intro hv
    exact ⟨value, hv, rfl⟩

/-- Fillings with the same names and values have the same for every name, whatever their order. -/
theorem looked_perm {fillings' : List (String × String)} (h : fillings.Perm fillings')
    (hnames : (fillings.map Prod.fst).Nodup) : looked fillings = looked fillings' := by
  have hnames' : (fillings'.map Prod.fst).Nodup := (h.map Prod.fst).nodup_iff.mp hnames
  funext n
  have hget : Record.get? fillings (String.ofList n) = Record.get? fillings' (String.ofList n) :=
    Option.ext fun v => by rw [Record.get?_eq_some_iff hnames, Record.get?_eq_some_iff hnames', h.mem_iff]
  rw [looked, looked, hget]

/-! ### The first occurrence -/

variable {p xs ys : List Char}

/-- Nowhere in a text, with another behind it, does `p` begin. -/
def Skips (p : List Char) : List Char → List Char → Prop
  | [], _ => True
  | x :: xs, ys => ¬p <+: x :: (xs ++ ys) ∧ Skips p xs ys

theorem skips_append {zs : List Char} : Skips p (xs ++ ys) zs ↔ Skips p xs (ys ++ zs) ∧ Skips p ys zs := by
  induction xs with
  | nil => exact ⟨fun h => ⟨trivial, h⟩, fun h => h.2⟩
  | cons x xs ih => rw [List.cons_append, Skips, Skips, ih, List.append_assoc, and_assoc]

theorem Skips.absent (hp : p ≠ []) : ∀ {xs : List Char}, Skips p xs ys → ¬p <:+: xs
  | [], _, hin => hp (List.eq_nil_of_infix_nil hin)
  | x :: xs, h, hin => by
    rcases List.infix_cons_iff.mp hin with hfirst | hin
    · exact h.1 (hfirst.trans (List.prefix_append (x :: xs) ys))
    · exact h.2.absent hp hin

theorem Skips.splitAt?_append (h : Skips p xs ys) :
    splitAt? p (xs ++ ys) = (splitAt? p ys).map fun (before, after) => (xs ++ before, after) := by
  induction xs with
  | nil => exact Option.map_id'.symm
  | cons x xs ih =>
    have hfirst : ¬p.isPrefixOf (x :: (xs ++ ys)) = true := fun hp => h.1 (List.isPrefixOf_iff_prefix.mp hp)
    rw [List.cons_append, splitAt?, if_neg hfirst, ih h.2, Option.map_map]
    rfl

theorem splitAt?_prefix (h : p ≠ []) : splitAt? p (p ++ ys) = some ([], ys) := by
  cases p with
  | nil => exact absurd rfl h
  | cons a p =>
    have hp : (a :: p).isPrefixOf (a :: (p ++ ys)) = true :=
      List.isPrefixOf_iff_prefix.mpr (List.prefix_append (a :: p) ys)
    rw [List.cons_append, splitAt?, if_pos hp, ← List.cons_append, List.drop_left]

theorem eq_of_splitAt? : ∀ {l before after : List Char}, splitAt? p l = some (before, after) → l = before ++ p ++ after
  | [], _, _, h => by
    rw [splitAt?] at h
    split at h
    · next hp =>
      cases h
      rw [List.isEmpty_iff.mp hp]
      rfl
    · cases h
  | c :: l, _, _, h => by
    rw [splitAt?] at h
    split at h
    · next hp =>
      cases h
      exact (List.prefix_iff_eq_append.mp (List.isPrefixOf_iff_prefix.mp hp)).symm
    · obtain ⟨⟨before, after⟩, hsplit, hpair⟩ := Option.map_eq_some_iff.mp h
      cases hpair
      exact congrArg (c :: ·) (eq_of_splitAt? hsplit)

theorem splitAt?_eq_none (h : ¬p <:+: xs) : splitAt? p xs = none := by
  cases hsplit : splitAt? p xs with
  | none => rfl
  | some pair => exact absurd ⟨pair.1, pair.2, (eq_of_splitAt? hsplit).symm⟩ h

/-- A place that is not in a text does not begin in it either when another place follows. -/
theorem skips_of_absent {name : List Char} (hname : '\x7b' ∉ name) (ys : List Char) :
    ∀ {xs : List Char}, ¬placeText name <:+: xs → Skips (placeText name) xs ('\x7b' :: ys)
  | [], _ => trivial
  | x :: xs, h => by
    refine ⟨fun hp => ?_, skips_of_absent hname ys fun hin => h (List.infix_cons hin)⟩
    rw [← List.cons_append] at hp
    rcases List.prefix_or_prefix_of_prefix hp (List.prefix_append (x :: xs) ('\x7b' :: ys)) with hshort | ⟨q, hq⟩
    · exact h hshort.isInfix
    · rw [← hq, List.prefix_append_right_inj] at hp
      cases q with
      | nil =>
        rw [List.append_nil] at hq
        exact h (hq ▸ List.infix_refl _)
      | cons c q =>
        -- the place goes on beyond the text, and so would have an opening brace in its name
        obtain ⟨rfl, -⟩ := List.cons_prefix_cons.mp hp
        have htail : xs ++ '\x7b' :: q = name ++ ['\x7d'] := (List.cons.inj hq).2
        have hmem : '\x7b' ∈ name ++ ['\x7d'] := htail ▸ List.mem_append_right _ List.mem_cons_self
        simp [hname] at hmem

/-! ### Patterns -/

/-- The characters that make a pattern when a dollar sign stands in front of them. -/
def marks : List Char := ['$', '&', '\x60', '\'']

/-- A text without patterns. -/
def Inert (s : List Char) : Prop := ∀ c ∈ marks, ¬['$', c] <:+: s

instance (s : List Char) : Decidable (Inert s) := List.decidableBAll (fun c => ¬['$', c] <:+: s) marks

theorem Inert.tail {c : Char} {s : List Char} (h : Inert (c :: s)) : Inert s :=
  fun d hd hin => h d hd (List.infix_cons hin)

theorem inert_of_not_mem {s : List Char} (h : '$' ∉ s) : Inert s :=
  fun _ _ hin => h (hin.subset List.mem_cons_self)

/-- A text without patterns goes in as it is. -/
theorem expand_of_inert {before place after s : List Char} (h : Inert s) : expand before place after s = s := by
  have pattern {c : Char} {r : List Char} (hc : c ∈ marks) (h : Inert ('$' :: c :: r)) : False :=
    h c hc (List.prefix_append ['$', c] r).isInfix
  fun_induction expand before place after s with
  | case1 r ih => exact (pattern (by decide) h).elim
  | case2 r ih => exact (pattern (by decide) h).elim
  | case3 r ih => exact (pattern (by decide) h).elim
  | case4 r ih => exact (pattern (by decide) h).elim
  | case5 _ r _ _ _ _ ih => rw [ih h.tail]
  | case6 => rfl

/-! ### One place after the other -/

theorem fillPlace_eq (template : List Char) (name filling : String) :
    fillPlace template name filling =
      match splitAt? (placeText name.toList) template with
      | none => template
      | some (before, after) => before ++ expand before (placeText name.toList) after filling.toList ++ after := rfl

/-- A place that does not begin before is filled where it stands. -/
theorem fillPlace_of_skips {xs ys : List Char} (h : Skips (placeText name.toList) xs (placeText name.toList ++ ys)) :
    fillPlace (xs ++ (placeText name.toList ++ ys)) name value =
      xs ++ (expand xs (placeText name.toList) ys value.toList ++ ys) := by
  have hsplit : splitAt? (placeText name.toList) (xs ++ (placeText name.toList ++ ys)) = some (xs, ys) := by
    have hne : placeText name.toList ≠ [] := List.cons_ne_nil _ _
    rw [h.splitAt?_append, splitAt?_prefix hne]
    simp
  rw [fillPlace_eq, hsplit]
  exact List.append_assoc _ _ _

theorem fillPlace_of_absent {xs : List Char} (h : ¬placeText name.toList <:+: xs) : fillPlace xs name value = xs := by
  rw [fillPlace_eq, splitAt?_eq_none h]

/-- A place that does not begin before is filled behind, if it is there. -/
theorem fillPlace_append {xs ys : List Char} (h : Skips (placeText name.toList) xs ys) (value : String) :
    fillPlace (xs ++ ys) name value = xs ++ ys ∨
      ∃ before after, ys = before ++ (placeText name.toList ++ after) ∧ fillPlace (xs ++ ys) name value =
        xs ++ (before ++ (expand (xs ++ before) (placeText name.toList) after value.toList ++ after)) := by
  rw [fillPlace_eq, h.splitAt?_append]
  cases hsplit : splitAt? (placeText name.toList) ys with
  | none => exact .inl rfl
  | some pair =>
    refine .inr ⟨pair.1, pair.2, ?_, ?_⟩
    · rw [← List.append_assoc]
      exact eq_of_splitAt? hsplit
    · exact (List.append_assoc _ _ _).trans (List.append_assoc _ _ _)

/-- The names of the places of a template. -/
def names : List Piece → List (List Char)
  | [] => []
  | .char _ :: ps => names ps
  | .place name :: ps => name :: names ps

theorem mem_names {n : List Char} : n ∈ names ps ↔ .place n ∈ ps := by
  fun_induction names ps with
  | case1 => simp
  | case2 c ps ih => simp [ih]
  | case3 m ps ih => simp [ih]

theorem names_append : names (ps ++ qs) = names ps ++ names qs := by
  fun_induction names ps with
  | case1 => rfl
  | case2 c ps ih => exact ih
  | case3 m ps ih => exact congrArg (m :: ·) ih

/-- The parts of a template up to the place of a name. -/
def upTo (name : List Char) (ps : List Piece) : List Piece := ps.takeWhile (· != .place name)

theorem upTo_eq_self {n : List Char} (h : .place n ∉ ps) : upTo n ps = ps := by
  rw [upTo, List.takeWhile_eq_self_iff]
  intro x hx
  simpa using fun he : x = .place n => h (he ▸ hx)

theorem upTo_subset (n : List Char) (ps : List Piece) : upTo n ps ⊆ ps := (List.takeWhile_prefix _).subset

theorem not_mem_upTo (n : List Char) (ps : List Piece) : .place n ∉ upTo n ps := fun h => by
  simpa using List.mem_takeWhile_imp h

theorem upTo_append {n : List Char} (h : .place n ∉ ps) : upTo n (ps ++ .place n :: qs) = ps := by
  have hall : ∀ x ∈ ps, (x != Piece.place n) = true := fun x hx => by simpa using fun he : x = .place n => h (he ▸ hx)
  rw [upTo, List.takeWhile_append_of_pos hall, List.takeWhile_cons_of_neg (by simp), List.append_nil]

/-- What is given for a name changes nothing where there is no place of the name. -/
theorem filled_looked_concat {done : List (String × String)} (h : .place name.toList ∉ ps) :
    filled (looked (done ++ [(name, value)])) ps = filled (looked done) ps := by
  refine filled_congr fun n hn => ?_
  have hne : name.toList ≠ n := fun he => h (he ▸ hn)
  rw [looked_append, looked_singleton, if_neg hne, Option.or_none]

/-- A template whose places are told apart by their names, with no braces in them. -/
structure Regular (ps : List Piece) : Prop where
  nodup : (names ps).Nodup
  braceless : ∀ n ∈ names ps, '\x7b' ∉ n ∧ '\x7d' ∉ n

instance (ps : List Piece) : Decidable (Regular ps) :=
  decidable_of_iff ((names ps).Nodup ∧ ∀ n ∈ names ps, '\x7b' ∉ n ∧ '\x7d' ∉ n)
    ⟨fun h => ⟨h.1, h.2⟩, fun h => ⟨h.nodup, h.braceless⟩⟩

/-- A name has one place only. -/
theorem Regular.not_mem_around {n : List Char} (h : Regular (ps ++ .place n :: qs)) : .place n ∉ ps ∧ .place n ∉ qs := by
  have hnodup := h.nodup
  rw [names_append, names, List.nodup_append, List.nodup_cons] at hnodup
  exact ⟨fun hmem => hnodup.2.2 _ (mem_names.mpr hmem) _ List.mem_cons_self rfl,
    fun hmem => hnodup.2.1.1 (mem_names.mpr hmem)⟩

/-- A place that does not begin before the template has it is filled where the template has it, whatever comes behind. -/
theorem fillPlace_filled_append {done : List (String × String)} (hps : Regular ps) (hdone : name ∉ done.map Prod.fst)
    (hmem : .place name.toList ∈ ps) (hvalue : Inert value.toList)
    (hskips : ∀ ys, Skips (placeText name.toList) (filled (looked done) (upTo name.toList ps)) ('\x7b' :: ys))
    (rest : List Char) :
    fillPlace (filled (looked done) ps ++ rest) name value = filled (looked (done ++ [(name, value)])) ps ++ rest := by
  obtain ⟨pre, post, rfl⟩ := List.append_of_mem hmem
  obtain ⟨hpre, hpost⟩ := hps.not_mem_around
  rw [upTo_append hpre] at hskips
  have hplace : (Piece.place name.toList).filled (looked done) = placeText name.toList := by
    rw [Piece.filled, looked_eq_none hdone, Option.getD_none]
  have hfilled : (Piece.place name.toList).filled (looked (done ++ [(name, value)])) = value.toList := by
    rw [Piece.filled, looked_append, looked_eq_none hdone, looked_singleton, if_pos rfl]
    rfl
  rw [filled_append, filled_cons, filled_append, filled_cons, hplace, hfilled, filled_looked_concat hpre,
    filled_looked_concat hpost]
  simp only [List.append_assoc]
  rw [fillPlace_of_skips (hskips _), expand_of_inert hvalue]

/-- Filling the place of a name fills it in the template, with what else has been filled left alone. -/
theorem fillPlace_filled {done : List (String × String)} (hps : Regular ps) (hdone : name ∉ done.map Prod.fst)
    (hmet : ¬placeText name.toList <:+: filled (looked done) (upTo name.toList ps))
    (hvalue : .place name.toList ∈ ps → Inert value.toList) :
    fillPlace (filled (looked done) ps) name value = filled (looked (done ++ [(name, value)])) ps := by
  by_cases hmem : .place name.toList ∈ ps
  · have hname := (hps.braceless _ (mem_names.mpr hmem)).1
    have hfill := fillPlace_filled_append hps hdone hmem (hvalue hmem) (fun ys => skips_of_absent hname ys hmet) []
    rwa [List.append_nil, List.append_nil] at hfill
  · rw [upTo_eq_self hmem] at hmet
    rw [fillPlace_of_absent hmet, filled_looked_concat hmem]

/-- When its turn comes, no place is met before the template has it, and a place that the template does not have is not
met at all. -/
def InTurn (ps : List Piece) (fillings : List (String × String)) : Prop :=
  ∀ i (h : i < fillings.length),
    ¬placeText fillings[i].1.toList <:+: filled (looked (fillings.take i)) (upTo fillings[i].1.toList ps)

instance (ps : List Piece) (fillings : List (String × String)) : Decidable (InTurn ps fillings) :=
  inferInstanceAs (Decidable (∀ i (h : i < fillings.length),
    ¬placeText fillings[i].1.toList <:+: filled (looked (fillings.take i)) (upTo fillings[i].1.toList ps)))

/-- Fillings one after the other come to all of them at once. -/
theorem foldl_fillPlace (hps : Regular ps) (hnames : (fillings.map Prod.fst).Nodup) (hturn : InTurn ps fillings)
    (hinert : ∀ e ∈ fillings, .place e.1.toList ∈ ps → Inert e.2.toList) :
    fillings.foldl (fun t (name, filling) => fillPlace t name filling) (filled (looked []) ps) =
      filled (looked fillings) ps := by
  induction fillings using List.reverseRecOn with
  | nil => rfl
  | append_singleton done e ih =>
    rw [List.map_append, List.nodup_append] at hnames
    have hdone : e.1 ∉ done.map Prod.fst := fun h => hnames.2.2 _ h _ (List.mem_singleton.mpr rfl) rfl
    have hbefore : InTurn ps done := by
      intro i hi
      have := hturn i (by rw [List.length_append]; omega)
      rwa [List.getElem_append_left hi, List.take_append_of_le_length (by omega)] at this
    have hmet : ¬placeText e.1.toList <:+: filled (looked done) (upTo e.1.toList ps) := by
      have := hturn done.length (by simp)
      rwa [List.getElem_concat_length rfl, List.take_left] at this
    rw [List.foldl_append, ih hnames.1 hbefore fun x hx => hinert x (List.mem_append_left _ hx)]
    exact fillPlace_filled hps hdone hmet (hinert e (List.mem_append_right _ (List.mem_singleton.mpr rfl)))

/-- A template filled one place after the other is filled literally. -/
theorem fill_eq_literal {template : String} (hps : Regular (pieces template.toList))
    (hnames : (fillings.map Prod.fst).Nodup) (hturn : InTurn (pieces template.toList) fillings)
    (hinert : ∀ e ∈ fillings, .place e.1.toList ∈ pieces template.toList → Inert e.2.toList) :
    fill template fillings = literal template fillings := by
  have hfold := foldl_fillPlace hps hnames hturn hinert
  rw [looked_nil, written_pieces] at hfold
  rw [fill, literal, hfold]

end Litmus.Text
