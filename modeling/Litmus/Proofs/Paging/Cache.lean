import Litmus.Paging.Cache
import Litmus.Proofs.Paging.Walk
import Litmus.Proofs.Text.Injective
import Mathlib.Data.Finset.Card
import Mathlib.Data.Finset.Lattice.Basic

/-!
Caches as sets of lines. Main facts: what each way to build a cache does to its set; a cache gives the walks of a tag, and
tells how many lines there are, as the set has them; and the text of a line tells the line, so caches have the same
description exactly when they have the same set.
-/

namespace Litmus.Paging

/-- Maintenance affects the context of a tag exactly when it hits the tag. -/
theorem Maintenance.affects_context (m : Maintenance) (t : Tag) : m.affects t.context = .ok (m.hits t) := by
  simp only [affects, hits, Tag.tag_context]
  cases m.address? with
  | none => exact congrArg Except.ok (Bool.and_true _).symm
  | some v => rfl

/-- A context whose level is one names the tag that it is the context of. -/
theorem Context.eq_of_tag {context : Context} {t : Tag} (h : context.tag = .ok t) : context = t.context := by
  obtain ⟨level, region, asid⟩ := context
  cases level with
  | whole n =>
    simp only [tag, Level.check] at h
    split at h
    · next hn =>
      cases h
      simp [Tag.context, Level.number, hn.1]
    · cases h
  | fraction | infinite => cases h

/-! ### Texts of lines -/

/-- The text of the address space of a tag. -/
def Tag.spaceText (t : Tag) : String :=
  match t.asid with
  | none => "*"
  | some asid => Text.hex asid

/-- The text of a tag within its level. -/
def Tag.key (t : Tag) : String := Text.hex t.region ++ "/" ++ t.spaceText

namespace Tag

variable {t u : Tag}

theorem toList_key (t : Tag) : t.key.toList = (Text.hex t.region).toList ++ '/' :: t.spaceText.toList := by
  simp [key]

/-- A text of an address space holds a star, or digits. -/
theorem mem_of_mem_spaceText {c : Char} (h : c ∈ t.spaceText.toList) : c ∈ '*' :: Text.hexChars := by
  rw [spaceText] at h
  split at h
  · rw [List.mem_singleton.mp h]
    exact List.mem_cons_self
  · exact List.mem_cons_of_mem _ (Text.mem_of_mem_hex h)

theorem spaceText_injective (h : t.spaceText = u.spaceText) : t.asid = u.asid := by
  -- a star is no digit
  have star (asid : Int) : Text.hex asid ≠ "*" := by
    intro he
    have hmem : '*' ∈ (Text.hex asid).toList := by
      rw [he]
      exact List.mem_singleton_self _
    exact absurd (Text.mem_of_mem_hex hmem) (by decide)
  rw [spaceText, spaceText] at h
  split at h <;> split at h
  · next ht _ hu => rw [ht, hu]
  · exact absurd h.symm (star _)
  · exact absurd h (star _)
  · next ht _ _ hu => rw [ht, hu, Text.hex_injective h]

/-- The text of a tag within its level tells the region and the address space. -/
theorem key_injective (h : t.key = u.key) : t.region = u.region ∧ t.asid = u.asid := by
  have slash (n : Int) : '/' ∉ (Text.hex n).toList := fun hm => absurd (Text.mem_of_mem_hex hm) (by decide)
  have hlist := congrArg String.toList h
  rw [toList_key, toList_key] at hlist
  obtain ⟨hregion, hspace⟩ := Text.append_cons_injective (slash _) (slash _) hlist
  exact ⟨Text.hex_injective (String.toList_injective hregion), spaceText_injective (String.toList_injective hspace)⟩

theorem colon_not_mem_key (t : Tag) : ':' ∉ t.key.toList := by
  rw [toList_key]
  intro h
  rcases List.mem_append.mp h with h | h
  · exact absurd (Text.mem_of_mem_hex h) (by decide)
  · rcases List.mem_cons.mp h with h | h
    · exact absurd h (by decide)
    · exact absurd (mem_of_mem_spaceText h) (by decide)

end Tag

theorem Level.colon_not_mem : ∀ level : Level, ':' ∉ (toString level.val).toList := by decide

theorem Level.toString_injective : ∀ level level' : Level, (toString level.val).toList = (toString level'.val).toList →
    level = level' := by decide

theorem Line.text_eq (l : Line) :
    l.text = toString l.tag.level.val ++ ":" ++ l.tag.key ++ ":" ++ Text.hexList l.descriptors := by
  have htext : l.text = toString l.tag.level.val ++ ":" ++ Text.hex l.tag.region ++ "/" ++ l.tag.spaceText ++ ":" ++
    Text.hexList l.descriptors := rfl
  rw [htext, Tag.key]
  simp only [String.append_assoc]

theorem Line.toList_text (l : Line) : l.text.toList = (toString l.tag.level.val).toList ++
    ':' :: (l.tag.key.toList ++ ':' :: (Text.hexList l.descriptors).toList) := by
  simp [text_eq]

/-- The text of a line tells the line. -/
theorem Line.text_injective : Function.Injective Line.text := by
  intro l k h
  have hlist := congrArg String.toList h
  rw [toList_text, toList_text] at hlist
  obtain ⟨hlevel, hlist⟩ := Text.append_cons_injective (Level.colon_not_mem _) (Level.colon_not_mem _) hlist
  obtain ⟨hkey, hdescriptors⟩ := Text.append_cons_injective l.tag.colon_not_mem_key k.tag.colon_not_mem_key hlist
  obtain ⟨hregion, hasid⟩ := Tag.key_injective (String.toList_injective hkey)
  obtain ⟨⟨level, region, asid⟩, descriptors⟩ := l
  obtain ⟨⟨level', region', asid'⟩, descriptors'⟩ := k
  obtain rfl := Level.toString_injective _ _ hlevel
  obtain rfl := Text.hexList_injective (String.toList_injective hdescriptors)
  cases hregion
  cases hasid
  rfl

example : Line.text ⟨⟨3, -255, none⟩, [0, 0x10]⟩ = "3:-ff/*:0,10" := by decide

/-! ### Sets of lines -/

/-- A list with an item last, if it is new. -/
def adjoin {α : Type} [DecidableEq α] (xs : List α) (x : α) : List α := if x ∈ xs then xs else xs ++ [x]

theorem adjoin_cons {α : Type} [DecidableEq α] (a : α) (xs : List α) (x : α) :
    adjoin (a :: xs) x = if a = x then a :: xs else a :: adjoin xs x := by
  rw [adjoin, adjoin]
  by_cases ha : a = x
  · rw [if_pos ha, if_pos (ha ▸ List.mem_cons_self)]
  · by_cases hx : x ∈ xs
    · rw [if_neg ha, if_pos hx, if_pos (List.mem_cons_of_mem _ hx)]
    · rw [if_neg ha, if_neg hx, if_neg, List.cons_append]
      exact fun h => (List.mem_cons.mp h).elim (fun e => ha e.symm) hx

/-- A list of items that are all new to another comes after that. -/
theorem foldl_adjoin_of_nodup {α : Type} [DecidableEq α] : ∀ {ys xs : List α}, (xs ++ ys).Nodup →
    ys.foldl adjoin xs = xs ++ ys
  | [], xs, _ => (List.append_nil xs).symm
  | y :: ys, xs, h => by
    have hy : y ∉ xs := fun hm => (List.nodup_append.mp h).2.2 y hm y List.mem_cons_self rfl
    rw [List.append_cons] at h ⊢
    rw [List.foldl_cons, adjoin, if_neg hy, foldl_adjoin_of_nodup h]

namespace Cache

variable {c d : Cache} {t : Tag} {ds : List Int}

/-- The lines of a cache, as a set. -/
def tuples (c : Cache) : Finset Line := c.lines.toFinset

@[simp] theorem mem_tuples {l : Line} : l ∈ c.tuples ↔ l ∈ c.lines := List.mem_toFinset

theorem tuples_empty : empty.tuples = ∅ := rfl

theorem tuples_insert (c : Cache) (l : Line) : (c.insert l).tuples = Insert.insert l c.tuples := by
  ext k
  rw [Finset.mem_insert, mem_tuples, mem_tuples, mem_insert, or_comm]

theorem tuples_union (c d : Cache) : (c.union d).tuples = c.tuples ∪ d.tuples := by
  ext k
  rw [Finset.mem_union, mem_tuples, mem_tuples, mem_tuples, mem_union]

theorem tuples_invalidate (c : Cache) (m : Maintenance) :
    (c.invalidate m).tuples = c.tuples.filter fun l => m.hits l.tag = false := by
  ext k
  rw [Finset.mem_filter, mem_tuples, mem_tuples, mem_invalidate]

theorem add_context (c : Cache) (t : Tag) (ds : List Int) : c.add t.context ds = .ok (c.insert ⟨t, ds⟩) := by
  rw [add, Tag.tag_context]
  rfl

theorem card_tuples (c : Cache) : c.tuples.card = c.size := List.toFinset_card_of_nodup c.distinct

theorem find_insert (c : Cache) (l : Line) (t : Tag) :
    (c.insert l).find t = if l.tag = t then adjoin (c.find t) l.descriptors else c.find t := by
  have hfind : l.tag = t → (l.descriptors ∈ c.find t ↔ l ∈ c.lines) := by
    rintro rfl
    exact mem_find
  unfold insert
  split
  · next hl =>
    split
    · next ht => rw [adjoin, if_pos ((hfind ht).mpr hl)]
    · rfl
  · next hl =>
    rw [find, List.filter_append, List.map_append]
    split
    · next ht =>
      rw [adjoin, if_neg fun h => hl ((hfind ht).mp h)]
      simp [find, ht]
    · next ht => simp [find, ht]

/-- The walks of a tag in both caches are those of the first, and then the new ones of the second. -/
theorem find_union (c d : Cache) (t : Tag) : (c.union d).find t = (d.find t).foldl adjoin (c.find t) := by
  suffices h : ∀ (ls : List Line) (c : Cache), (ls.foldl insert c).find t =
      ((ls.filter fun l => l.tag = t).map (·.descriptors)).foldl adjoin (c.find t) from h _ c
  intro ls
  induction ls with
  | nil => exact fun _ => rfl
  | cons l ls ih =>
    intro c
    rw [List.foldl_cons, ih, find_insert, List.filter_cons]
    split <;> simp_all

theorem find_invalidate (c : Cache) (m : Maintenance) (t : Tag) :
    (c.invalidate m).find t = if m.hits t then [] else c.find t := by
  rw [find, invalidate, List.filter_filter, find]
  split
  · next h =>
    rw [List.map_eq_nil_iff, List.filter_eq_nil_iff]
    intro l _ hl
    rw [Bool.and_eq_true, decide_eq_true_eq] at hl
    rw [hl.1, h] at hl
    cases hl.2
  · next h =>
    refine congrArg _ (List.filter_congr fun l _ => ?_)
    by_cases ht : l.tag = t
    · simp [ht, h]
    · simp [ht]

/-- A cache gives the walks of a tag under each context that names it. -/
theorem get_of_tag {context : Context} (c : Cache) (h : context.tag = .ok t) : c.get context = .ok (c.find t) := by
  rw [get, h]
  rfl

/-! ### Descriptions -/

theorem perm_describe (c : Cache) : c.describe.Perm (c.lines.map Line.text) := List.mergeSort_perm _ _

theorem nodup_describe (c : Cache) : c.describe.Nodup :=
  c.perm_describe.nodup_iff.mpr (c.distinct.map Line.text_injective)

/-- A description has the texts of all lines, and no others. -/
theorem text_mem_describe {l : Line} : l.text ∈ c.describe ↔ l ∈ c.tuples := by
  rw [c.perm_describe.mem_iff, mem_tuples]
  exact ⟨fun h => (List.mem_map_of_injective Line.text_injective).mp h, List.mem_map_of_mem⟩

/-- Caches are described alike exactly when they have the same lines. -/
theorem describe_eq_iff : c.describe = d.describe ↔ c.tuples = d.tuples := by
  constructor
  · intro h
    ext l
    rw [← text_mem_describe, h, text_mem_describe]
  · intro h
    have hlines : c.lines.Perm d.lines := List.perm_of_nodup_nodup_toFinset_eq c.distinct d.distinct h
    exact Text.sort_eq_sort_iff.mpr (hlines.map _)

/-! ### Laws -/

theorem describe_union_assoc (b c d : Cache) : ((b.union c).union d).describe = (b.union (c.union d)).describe :=
  describe_eq_iff.mpr (by simp only [tuples_union, Finset.union_assoc])

theorem describe_union_comm (c d : Cache) : (c.union d).describe = (d.union c).describe :=
  describe_eq_iff.mpr (by simp only [tuples_union, Finset.union_comm])

theorem describe_union_self (c : Cache) : (c.union c).describe = c.describe :=
  describe_eq_iff.mpr (by simp only [tuples_union, Finset.union_self])

theorem describe_invalidate_comm (c : Cache) (m m' : Maintenance) :
    ((c.invalidate m).invalidate m').describe = ((c.invalidate m').invalidate m).describe :=
  describe_eq_iff.mpr (by simp only [tuples_invalidate, Finset.filter_comm])

theorem describe_invalidate_union (c d : Cache) (m : Maintenance) :
    ((c.union d).invalidate m).describe = ((c.invalidate m).union (d.invalidate m)).describe :=
  describe_eq_iff.mpr (by simp only [tuples_invalidate, tuples_union, Finset.filter_union])

end Cache

/-- Maintenance of an address in an address space hits each address of its page, at all levels, in that space and in
what belongs to all. -/
theorem Maintenance.hits_of_page {asid va va' : Int} (lastLevel : Bool) (level : Level) {space : Option Int}
    (hpage : pageOf va' = pageOf va) (hspace : space = none ∨ space = some asid) :
    (Maintenance.va asid va lastLevel).hits (Tag.of level va' space) = true := by
  have hregion : region level va = region level va' := region_eq_of_le (Fin.le_last level) hpage.symm
  rcases hspace with rfl | rfl <;> simp [hits, selects, address?, Tag.of, hregion]

end Litmus.Paging
