import Litmus.Value.Record
import Mathlib.Data.List.Basic

/-!
What records hold. Putting an entry changes what its own name stands for and nothing else, and bringing the names into a
record's order changes nothing. Main fact: a record laid over another is looked up first.
-/

namespace Litmus.Record

variable {α : Type} {name : String}

theorem get?_cons (e : String × α) (r : Record α) : get? (e :: r) name = if e.1 = name then some e.2 else get? r name := by
  rw [get?, List.lookup_cons]
  by_cases h : name = e.1
  · simp [h]
  · rw [beq_false_of_ne h, if_neg (Ne.symm h), get?]

theorem get?_put (r : Record α) (e : String × α) :
    get? (put r e) name = if e.1 = name then some e.2 else get? r name := by
  induction r with
  | nil => rw [put, get?_cons]
  | cons b r ih =>
    rw [put]
    split
    · next h =>
      rw [get?_cons, get?_cons, h]
      split <;> rfl
    · next h =>
      rw [get?_cons, get?_cons, ih]
      split <;> split <;> simp_all

theorem eq_or_mem_of_mem_put {r : List (String × α)} {e x : String × α} (h : x ∈ put r e) : x = e ∨ x ∈ r := by
  induction r with
  | nil => exact .inl (List.mem_singleton.mp h)
  | cons y r ih =>
    rw [put] at h
    split at h
    · exact (List.mem_cons.mp h).imp_right (List.mem_cons_of_mem _)
    · rcases List.mem_cons.mp h with rfl | h
      · exact .inr List.mem_cons_self
      · exact (ih h).imp_right (List.mem_cons_of_mem _)

/-- Names that occur once still do when an entry is put. -/
theorem nodup_put {r : List (String × α)} (e : String × α) (h : (r.map Prod.fst).Nodup) :
    ((put r e).map Prod.fst).Nodup := by
  induction r with
  | nil => exact List.nodup_cons.mpr ⟨List.not_mem_nil, List.nodup_nil⟩
  | cons x r ih =>
    rw [put]
    split
    · next hx =>
      rw [List.map_cons, ← hx]
      exact h
    · next hx =>
      rw [List.map_cons, List.nodup_cons] at h ⊢
      refine ⟨fun hmem => ?_, ih h.2⟩
      obtain ⟨y, hy, hname⟩ := List.mem_map.mp hmem
      rcases eq_or_mem_of_mem_put hy with rfl | hy
      · exact hx hname.symm
      · exact h.1 (hname ▸ List.mem_map_of_mem hy)

/-- An entry of a new key comes at the end. -/
theorem put_eq_append {κ : Type} [DecidableEq κ] {e : κ × α} : ∀ {r : List (κ × α)}, e.1 ∉ r.map Prod.fst → put r e = r ++ [e]
  | [], _ => rfl
  | x :: r, h => by
    rw [List.map_cons, List.mem_cons, not_or] at h
    rw [put, if_neg (Ne.symm h.1), put_eq_append h.2, List.cons_append]

/-- Putting what is there under its key already changes nothing. -/
theorem put_eq_self {κ : Type} [DecidableEq κ] {e : κ × α} : ∀ {r : List (κ × α)}, e.1 ∈ r.map Prod.fst →
    (∀ x ∈ r, x.1 = e.1 → x = e) → put r e = r
  | x :: r, hmem, hsame => by
    rw [put]
    split
    · next hx => rw [hsame x List.mem_cons_self hx]
    · next hx =>
      rw [List.map_cons, List.mem_cons] at hmem
      rw [put_eq_self (hmem.resolve_left (Ne.symm hx)) fun y hy => hsame y (List.mem_cons_of_mem _ hy)]

theorem nameLe_refl (a : String) : nameLe a a = true := by
  rw [nameLe]
  cases index? a <;> simp

theorem nameLe_total (a b : String) : (nameLe a b || nameLe b a) = true := by
  rw [nameLe, nameLe]
  cases index? a <;> cases index? b <;> simp
  omega

theorem nameLe_trans {a b c : String} (hab : nameLe a b = true) (hbc : nameLe b c = true) : nameLe a c = true := by
  rw [nameLe] at *
  cases ha : index? a <;> cases hb : index? b <;> cases hc : index? c <;> simp_all
  omega

/-- The entries of one name keep their order. -/
theorem filter_arrange (r : Record α) : (arrange r).filter (·.1 == name) = r.filter (·.1 == name) := by
  have hsame : (r.filter (·.1 == name)).Pairwise fun a b => nameLe a.1 b.1 = true := by
    have named (e : String × α) (he : e ∈ r.filter (·.1 == name)) : e.1 = name := by simpa using (List.mem_filter.mp he).2
    refine List.pairwise_of_forall_mem_list fun a ha b hb => ?_
    rw [named a ha, named b hb]
    exact nameLe_refl name
  have hsub : (r.filter (·.1 == name)).Sublist (arrange r) := by
    refine List.sublist_mergeSort ?_ ?_ hsame List.filter_sublist
    · exact fun a b c => nameLe_trans
    · exact fun a b => nameLe_total a.1 b.1
  have hfilter := hsub.filter (·.1 == name)
  simp only [List.filter_filter, Bool.and_self] at hfilter
  exact (hfilter.eq_of_length (((List.mergeSort_perm r _).filter _).length_eq).symm).symm

theorem get?_eq_filter (r : Record α) : get? r name = (r.filter (·.1 == name)).head?.map Prod.snd := by
  induction r with
  | nil => rfl
  | cons e r ih =>
    rw [get?_cons, ih, List.filter_cons]
    by_cases h : e.1 = name <;> simp [h]

theorem get?_eq_none (r : List (String × α)) (h : name ∉ r.map Prod.fst) : get? r name = none := by
  rw [get?_eq_filter, List.filter_eq_nil_iff.mpr, List.head?_nil, Option.map_none]
  intro e he hname
  exact h (List.mem_map.mpr ⟨e, he, by simpa using hname⟩)

/-- Names that occur once tell their entries. -/
theorem get?_eq_some_iff {r : List (String × α)} (h : (r.map Prod.fst).Nodup) {a : α} : get? r name = some a ↔ (name, a) ∈ r := by
  induction r with
  | nil => simp [get?]
  | cons e r ih =>
    rw [List.map_cons, List.nodup_cons] at h
    rw [get?_cons, List.mem_cons]
    split
    · next he =>
      subst he
      rw [Option.some.injEq]
      constructor
      · rintro rfl
        exact .inl rfl
      · rintro (he | hmem)
        · rw [← he]
        · exact absurd (List.mem_map_of_mem hmem) h.1
    · next he =>
      rw [ih h.2]
      exact ⟨.inr, fun hx => hx.resolve_left fun hx => he (hx ▸ rfl)⟩

theorem get?_arrange (r : Record α) : get? (arrange r) name = get? r name := by
  rw [get?_eq_filter, filter_arrange, ← get?_eq_filter]

/-- Of what is laid over a record the last entry of a name counts, and else what the record holds. -/
theorem get?_overlay (lower upper : Record α) :
    get? (overlay lower upper) name = (get? upper.reverse name).or (get? lower name) := by
  rw [overlay, get?_arrange]
  induction upper generalizing lower with
  | nil => rfl
  | cons e upper ih =>
    have happend (r r' : Record α) : get? (r ++ r') name = (get? r name).or (get? r' name) := List.lookup_append
    rw [List.foldl_cons, ih, get?_put, List.reverse_cons, happend, get?_cons, Option.or_assoc]
    split <;> rfl

end Litmus.Record
