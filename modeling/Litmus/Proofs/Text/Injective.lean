import Litmus.Text.Hex
import Litmus.Text.Units
import Mathlib.Data.List.Basic

/-!
Texts that tell what they are of. Hexadecimal texts hold digits and a sign only, so parts that are put together with
other characters between them can be told apart again. Main facts: numbers with the same hexadecimal text are the same,
and so are lists of numbers; the order of texts is linear, so sorting texts forgets their order and nothing else.
-/

namespace Litmus.Text

variable {α : Type}

/-! ### Hexadecimal texts -/

/-- The characters of hexadecimal texts. -/
def hexChars : List Char := "-0123456789abcdef".toList

theorem digitChar_mem : ∀ n < 16, n.digitChar ∈ hexChars.tail := by decide

theorem digitChar_injective : ∀ m < 16, ∀ n < 16, m.digitChar = n.digitChar → m = n := by decide

theorem mem_of_mem_toDigits {c : Char} {n : Nat} (h : c ∈ Nat.toDigits 16 n) : c ∈ hexChars.tail := by
  induction n using Nat.strongRecOn with
  | ind n ih =>
    rw [Nat.toDigits_eq_if (by decide)] at h
    split at h
    · next hn =>
      rw [List.mem_singleton.mp h]
      exact digitChar_mem n hn
    · rcases List.mem_append.mp h with h | h
      · exact ih _ (by omega) h
      · rw [List.mem_singleton.mp h]
        exact digitChar_mem _ (Nat.mod_lt n (by decide))

/-- The last digit of a number, and those before it. -/
theorem toDigits_eq_append (n : Nat) :
    Nat.toDigits 16 n = (if n < 16 then [] else Nat.toDigits 16 (n / 16)) ++ [(n % 16).digitChar] := by
  rw [Nat.toDigits_eq_if (by decide)]
  split
  · next h => rw [Nat.mod_eq_of_lt h, List.nil_append]
  · rfl

theorem toDigits_injective {m n : Nat} (h : Nat.toDigits 16 m = Nat.toDigits 16 n) : m = n := by
  induction m using Nat.strongRecOn generalizing n with
  | ind m ih =>
    rw [toDigits_eq_append m, toDigits_eq_append n, List.append_singleton_inj] at h
    obtain ⟨hfirst, hlast⟩ := h
    have hmod := digitChar_injective _ (Nat.mod_lt m (by decide)) _ (Nat.mod_lt n (by decide)) hlast
    split at hfirst <;> split at hfirst
    · omega
    · exact absurd hfirst.symm Nat.toDigits_ne_nil
    · exact absurd hfirst Nat.toDigits_ne_nil
    · have := ih _ (by omega) hfirst
      omega

theorem toList_hex (n : Int) : (hex n).toList = (if n < 0 then ['-'] else []) ++ Nat.toDigits 16 n.natAbs := by
  rw [hex, String.toList_append, String.toList_ofList]
  split <;> rfl

theorem mem_of_mem_hex {c : Char} {n : Int} (h : c ∈ (hex n).toList) : c ∈ hexChars := by
  rw [toList_hex] at h
  rcases List.mem_append.mp h with h | h
  · split at h
    · rw [List.mem_singleton.mp h]
      decide
    · cases h
  · exact List.mem_of_mem_tail (mem_of_mem_toDigits h)

theorem toList_hex_ne_nil (n : Int) : (hex n).toList ≠ [] := by
  rw [toList_hex]
  exact List.append_ne_nil_of_right_ne_nil _ Nat.toDigits_ne_nil

/-- Numbers with the same hexadecimal text are the same. -/
theorem hex_injective : Function.Injective hex := by
  intro m n h
  have hdigits := congrArg String.toList h
  rw [toList_hex, toList_hex] at hdigits
  -- a sign is not a digit
  have unsigned (k : Nat) (ds : List Char) : Nat.toDigits 16 k ≠ '-' :: ds := fun he =>
    absurd (mem_of_mem_toDigits (he ▸ List.mem_cons_self)) (by decide)
  split at hdigits <;> split at hdigits
  · have := toDigits_injective (List.cons.inj hdigits).2
    omega
  · exact absurd hdigits.symm (unsigned _ _)
  · exact absurd hdigits (unsigned _ _)
  · have := toDigits_injective hdigits
    omega

/-! ### Parts of texts -/

/-- What comes before the first of a character, and what comes after it. -/
theorem append_cons_injective {a : α} : ∀ {xs ys zs ws : List α}, a ∉ xs → a ∉ ys → xs ++ a :: zs = ys ++ a :: ws →
    xs = ys ∧ zs = ws
  | [], [], _, _, _, _, h => ⟨rfl, (List.cons.inj h).2⟩
  | [], y :: ys, _, _, _, hys, h => absurd (List.cons.inj h).1 (fun e => hys (e ▸ List.mem_cons_self))
  | x :: xs, [], _, _, hxs, _, h => absurd (List.cons.inj h).1.symm (fun e => hxs (e ▸ List.mem_cons_self))
  | x :: xs, y :: ys, _, _, hxs, hys, h => by
    obtain ⟨hhead, htail⟩ := List.cons.inj h
    obtain ⟨hfirst, hrest⟩ := append_cons_injective (fun hm => hxs (List.mem_cons_of_mem _ hm))
      (fun hm => hys (List.mem_cons_of_mem _ hm)) htail
    exact ⟨by rw [hhead, hfirst], hrest⟩

/-- Numbers one after the other, in hexadecimal. -/
def hexList (ns : List Int) : String := ",".intercalate (ns.map hex)

theorem toList_hexList (ns : List Int) : (hexList ns).toList = [','].intercalate (ns.map fun n => (hex n).toList) := by
  rw [hexList, String.toList_intercalate, List.map_map]
  rfl

theorem not_comma_mem_hex {n : Int} : ',' ∉ (hex n).toList := fun h => absurd (mem_of_mem_hex h) (by decide)

theorem hexList_eq_empty {ns : List Int} (h : (hexList ns).toList = []) : ns = [] := by
  cases ns with
  | nil => rfl
  | cons n ns =>
    rw [toList_hexList] at h
    cases ns with
    | nil => exact absurd (by simpa using h) (toList_hex_ne_nil n)
    | cons m ns => simp at h

/-- Lists of numbers with the same text are the same. -/
theorem hexList_injective : Function.Injective hexList := by
  intro ms ns h
  have hlist := congrArg String.toList h
  by_cases hms : ms = []
  · subst hms
    exact (hexList_eq_empty hlist.symm).symm
  · have hns : ns ≠ [] := by
      rintro rfl
      exact hms (hexList_eq_empty hlist)
    rw [toList_hexList, toList_hexList] at hlist
    have parts (ks : List Int) (hks : ks ≠ []) :
        ([','].intercalate (ks.map fun n => (hex n).toList)).splitOn ',' = ks.map fun n => (hex n).toList :=
      List.splitOn_intercalate _ (List.forall_mem_map.mpr fun _ _ => not_comma_mem_hex) (by simpa using hks)
    have hparts := congrArg (List.splitOn ',') hlist
    rw [parts ms hms, parts ns hns] at hparts
    exact List.map_injective_iff.mpr (fun _ _ he => hex_injective (String.toList_injective he)) hparts

/-! ### The order of texts -/

/-- The first units of a text tell its first character. -/
theorem charUnits_append_injective {c d : Char} {us vs : List Nat} (h : charUnits c ++ us = charUnits d ++ vs) :
    c = d ∧ us = vs := by
  have valid (c : Char) : c.toNat < 0xD800 ∨ 0xDFFF < c.toNat ∧ c.toNat < 0x110000 := c.valid
  have hc := valid c
  have hd := valid d
  rw [← Char.toNat_inj]
  simp only [charUnits] at h
  split at h <;> split at h <;> simp only [List.cons_append, List.nil_append, List.cons.injEq] at h
  · exact h
  · omega
  · omega
  · obtain ⟨hhigh, hlow, hrest⟩ := h
    exact ⟨by omega, hrest⟩

theorem charUnits_ne_nil (c : Char) : charUnits c ≠ [] := by
  rw [charUnits]
  split <;> exact List.cons_ne_nil _ _

theorem flatMap_charUnits_injective : ∀ {cs ds : List Char}, cs.flatMap charUnits = ds.flatMap charUnits → cs = ds
  | [], [], _ => rfl
  | [], d :: ds, h => absurd (List.append_eq_nil_iff.mp h.symm).1 (charUnits_ne_nil d)
  | c :: cs, [], h => absurd (List.append_eq_nil_iff.mp h).1 (charUnits_ne_nil c)
  | c :: cs, d :: ds, h => by
    obtain ⟨rfl, hrest⟩ := charUnits_append_injective h
    rw [flatMap_charUnits_injective hrest]

theorem units_injective : Function.Injective units := fun _ _ h => String.toList_injective (flatMap_charUnits_injective h)

theorem unitsLe_antisymm {a b : String} (hab : unitsLe a b = true) (hba : unitsLe b a = true) : a = b :=
  units_injective (Std.compare_eq_iff_eq.mp (Std.OrientedCmp.isLE_antisymm hab hba))

theorem unitsLe_trans {a b c : String} (hab : unitsLe a b = true) (hbc : unitsLe b c = true) : unitsLe a c = true :=
  Std.TransOrd.isLE_trans hab hbc

theorem unitsLe_total (a b : String) : (unitsLe a b || unitsLe b a) = true := by
  have hswap : compare (units a) (units b) = (compare (units b) (units a)).swap := Std.OrientedCmp.eq_swap
  rw [unitsLe, unitsLe, hswap]
  cases compare (units b) (units a) <;> rfl

/-- Sorted texts are in ascending order. -/
theorem pairwise_sort (texts : List String) : (sort texts).Pairwise fun a b => unitsLe a b = true := by
  rw [sort]
  refine List.pairwise_mergeSort ?_ ?_ texts
  · intro a b c hab hbc
    exact unitsLe_trans hab hbc
  · intro a b
    exact unitsLe_total a b

/-- Sorting forgets the order of texts and nothing else. -/
theorem sort_eq_sort_iff {texts texts' : List String} : sort texts = sort texts' ↔ texts.Perm texts' := by
  constructor
  · intro h
    have hperm : (sort texts).Perm texts := List.mergeSort_perm texts unitsLe
    rw [h] at hperm
    exact hperm.symm.trans (List.mergeSort_perm texts' unitsLe)
  · intro h
    have hperm : (sort texts).Perm (sort texts') :=
      (List.mergeSort_perm texts unitsLe).trans (h.trans (List.mergeSort_perm texts' unitsLe).symm)
    exact hperm.eq_of_pairwise (fun _ _ _ _ => unitsLe_antisymm) (pairwise_sort texts) (pairwise_sort texts')

end Litmus.Text
