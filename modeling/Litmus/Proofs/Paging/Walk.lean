import Litmus.Paging.Tag
import Litmus.Proofs.Outcome.Yields

/-!
How walks are determined. A walk of an address from a table is given by the descriptors it reads, and
these by the entries that the address selects. Main facts: two walks that read the same descriptors from
one table are one walk; a replay of a finished walk reads its descriptors again, whatever the table, and fills
its tag again; and addresses of one region have the same steps down to it, and land alike.
-/

namespace Litmus.Paging

variable {va table : Int} {read : Level → Int → Int} {n : Nat} {w : Walk}

theorem walkFrom_zero_eq_ok : walkFrom va read 0 table = .ok w ↔
    ∃ pa, descriptorAddress Level.last table va = .ok pa ∧
      w = ⟨[⟨Level.last.number, pa, read Level.last pa⟩], landing Level.last va (read Level.last pa)⟩ := by
  simp only [walkFrom, bind_eq_ok, pure_eq_ok]

theorem walkFrom_succ_eq_ok : walkFrom va read (n + 1) table = .ok w ↔
    ∃ pa, descriptorAddress (.above (n + 1)) table va = .ok pa ∧
      ((nextTable? (.above (n + 1)) (read (.above (n + 1)) pa) = none ∧
          w = ⟨[⟨(Level.above (n + 1)).number, pa, read (.above (n + 1)) pa⟩],
            landing (.above (n + 1)) va (read (.above (n + 1)) pa)⟩) ∨
        ∃ next rest, nextTable? (.above (n + 1)) (read (.above (n + 1)) pa) = some next ∧
          walkFrom va read n next = .ok rest ∧
          w = ⟨⟨(Level.above (n + 1)).number, pa, read (.above (n + 1)) pa⟩ :: rest.steps, rest.landing⟩) := by
  rw [walkFrom, bind_eq_ok]
  refine exists_congr fun pa => and_congr_right ?_
  intro _
  dsimp only
  cases nextTable? (.above (n + 1)) (read (.above (n + 1)) pa) with
  | none => simp
  | some next => simp

/-- Walks of an address from one table that read the same descriptors are the same walk. -/
theorem walkFrom_unique {read' : Level → Int → Int} : ∀ {n : Nat} {table : Int} {w w' : Walk},
    walkFrom va read n table = .ok w → walkFrom va read' n table = .ok w' → w.descriptors = w'.descriptors → w = w'
  | 0, table, w, w', h, h', e => by
    obtain ⟨pa, hpa, rfl⟩ := walkFrom_zero_eq_ok.mp h
    obtain ⟨pa', hpa', rfl⟩ := walkFrom_zero_eq_ok.mp h'
    cases hpa.symm.trans hpa'
    simp only [Walk.descriptors, List.map_cons, List.map_nil, List.cons.injEq, and_true] at e
    rw [e]
  | n + 1, table, w, w', h, h', e => by
    obtain ⟨pa, hpa, h⟩ := walkFrom_succ_eq_ok.mp h
    obtain ⟨pa', hpa', h'⟩ := walkFrom_succ_eq_ok.mp h'
    cases hpa.symm.trans hpa'
    rcases h with ⟨hn, rfl⟩ | ⟨next, rest, hn, hr, rfl⟩ <;> rcases h' with ⟨hn', rfl⟩ | ⟨next', rest', hn', hr', rfl⟩ <;>
      simp only [Walk.descriptors, List.map_cons, List.map_nil, List.cons.injEq] at e <;>
      rw [← e.1, hn] at hn'
    · rw [e.1]
    · cases hn'
    · cases hn'
    · cases hn'
      cases walkFrom_unique hr hr' e.2
      rw [e.1]

/-- Walks of an address that read the same descriptors land alike, whatever the tables that they begin at. -/
theorem walkFrom_landing_eq {read' : Level → Int → Int} : ∀ {n : Nat} {table table' : Int} {w w' : Walk},
    walkFrom va read n table = .ok w → walkFrom va read' n table' = .ok w' → w.descriptors = w'.descriptors →
    w.landing = w'.landing
  | 0, table, table', w, w', h, h', e => by
    obtain ⟨pa, -, rfl⟩ := walkFrom_zero_eq_ok.mp h
    obtain ⟨pa', -, rfl⟩ := walkFrom_zero_eq_ok.mp h'
    simp only [Walk.descriptors, List.map_cons, List.map_nil, List.cons.injEq, and_true] at e
    rw [e]
  | n + 1, table, table', w, w', h, h', e => by
    obtain ⟨pa, -, h⟩ := walkFrom_succ_eq_ok.mp h
    obtain ⟨pa', -, h'⟩ := walkFrom_succ_eq_ok.mp h'
    rcases h with ⟨hn, rfl⟩ | ⟨next, rest, hn, hr, rfl⟩ <;> rcases h' with ⟨hn', rfl⟩ | ⟨next', rest', hn', hr', rfl⟩ <;>
      simp only [Walk.descriptors, List.map_cons, List.cons.injEq] at e <;>
      rw [← e.1, hn] at hn'
    · rw [e.1]
    · cases hn'
    · cases hn'
    · have hrest := walkFrom_landing_eq hr hr' e.2
      exact hrest

theorem getD_of_drop {ds es : List Int} {i : Nat} {d : Int} (h : ds.drop i = es) (hd : es.head? = some d) :
    ds.getD i 0 = d := by
  rw [← h, List.head?_drop] at hd
  rw [List.getD_eq_getElem?_getD, hd, Option.getD_some]

/-- A walk that reads again what another walk read, each level at its place, reads the same descriptors and
lands at the same level. -/
theorem walkFrom_replay {va' : Int} {ds : List Int} : ∀ {n : Nat} {table table' : Int} {w w' : Walk}, n ≤ 3 →
    walkFrom va' read n table' = .ok w' → ds.drop (3 - n) = w'.descriptors →
    walkFrom va (fun level _ => ds.getD level.val 0) n table = .ok w → w.descriptors = w'.descriptors
  | 0, table, table', w, w', _, h', hd, h => by
    obtain ⟨pa, -, rfl⟩ := walkFrom_zero_eq_ok.mp h
    obtain ⟨pa', -, rfl⟩ := walkFrom_zero_eq_ok.mp h'
    exact congrArg (fun d => [d]) (getD_of_drop hd rfl)
  | n + 1, table, table', w, w', hn3, h', hd, h => by
    obtain ⟨pa, -, h⟩ := walkFrom_succ_eq_ok.mp h
    obtain ⟨pa', -, h'⟩ := walkFrom_succ_eq_ok.mp h'
    generalize read (Level.above (n + 1)) pa' = d at h'
    -- the descriptor at this level is the first of those that are left
    have first : w'.descriptors.head? = some d := by
      rcases h' with ⟨-, rfl⟩ | ⟨next, rest, -, -, rfl⟩ <;> rfl
    have same : ds.getD (Level.above (n + 1)).val 0 = d := getD_of_drop hd first
    rw [same] at h
    rcases h with ⟨hn, rfl⟩ | ⟨next, rest, hn, hr, rfl⟩ <;> rcases h' with ⟨hn', rfl⟩ | ⟨next', rest', hn', hr', rfl⟩ <;>
      rw [hn] at hn'
    · rfl
    · cases hn'
    · cases hn'
    · have hd' : ds.drop (3 - n) = rest'.descriptors := by
        have := congrArg List.tail hd
        rw [List.tail_drop] at this
        rw [show 3 - n = 3 - (n + 1) + 1 by omega, this]
        rfl
      have := walkFrom_replay (by omega) hr' hd' hr
      simp only [Walk.descriptors, List.map_cons] at this ⊢
      rw [this]

/-- A replay of what a walk read reads the same descriptors, whatever the address and the table. -/
theorem replay_descriptors {va' base base' : Int} {ds : List Int} {w' : Walk} (h' : walk va' base' read = .ok w')
    (hd : w'.descriptors = ds) (h : replay va base ds = .ok w) : w.descriptors = w'.descriptors :=
  walkFrom_replay (Nat.le_refl 3) h' hd.symm h

/-! ### Regions -/

theorem span_pos : ∀ level : Level, 0 < level.span := by decide

theorem span_dvd_span : ∀ l l' : Level, l ≤ l' → l'.span ∣ l.span := by decide

/-- Addresses of one region at some level are in one region at each level above. -/
theorem region_eq_of_le {va va' : Int} {l l' : Level} (hl : l ≤ l') (h : region l' va = region l' va') :
    region l va = region l va' := by
  obtain ⟨k, hk⟩ := span_dvd_span l l' hl
  have coarser (a : Int) : region l a = region l' a / k := by
    rw [region, region, Int.ediv_ediv_of_nonneg (Int.le_of_lt (span_pos l')), hk]
  rw [coarser, coarser, h]

theorem landing_level (level : Level) (va descriptor : Int) : (landing level va descriptor).level = level := by
  rw [landing]
  split <;> rfl

/-- A walk lands no higher than it begins. -/
theorem above_le_level : ∀ {n : Nat} {table : Int} {w : Walk}, walkFrom va read n table = .ok w →
    Level.above n ≤ w.landing.level
  | 0, table, w, h => by
    obtain ⟨pa, -, rfl⟩ := walkFrom_zero_eq_ok.mp h
    exact Fin.le_of_eq (landing_level _ _ _).symm
  | n + 1, table, w, h => by
    obtain ⟨pa, -, ⟨-, rfl⟩ | ⟨next, rest, -, hr, rfl⟩⟩ := walkFrom_succ_eq_ok.mp h
    · exact Fin.le_of_eq (landing_level _ _ _).symm
    · have hrest := above_le_level hr
      refine Fin.le_trans ?_ hrest
      rw [Level.above, Level.above, Fin.mk_le_mk]
      omega

/-- Where a walk that landed for one address lands for another of the region: at the same frame, the other's way
into it. -/
def Landing.relocate (va : Int) : Landing → Landing
  | .mapped pa level global => .mapped (pa / level.span * level.span + va % level.span) level global
  | .fault level => .fault level

theorem landing_relocate (level : Level) (va va' descriptor : Int) :
    landing level va' descriptor = (landing level va descriptor).relocate va' := by
  rw [landing, landing]
  split
  · rfl
  · have hframe : (frameOf descriptor / level.span * level.span + va % level.span) / level.span =
        frameOf descriptor / level.span := by
      have hpos := span_pos level
      rw [Int.add_comm, Int.add_mul_ediv_right _ _ (Int.ne_of_gt hpos),
        Int.ediv_eq_zero_of_lt (Int.emod_nonneg _ (Int.ne_of_gt hpos)) (Int.emod_lt_of_pos _ hpos), Int.zero_add]
    rw [Landing.relocate, hframe]

/-- Walks of addresses of one region, at the level where the walk of one of them lands, take the same steps and land
alike. -/
theorem walkFrom_relocate {va' : Int} : ∀ {n : Nat} {table : Int} {w : Walk}, walkFrom va read n table = .ok w →
    region w.landing.level va' = region w.landing.level va →
    walkFrom va' read n table = .ok ⟨w.steps, w.landing.relocate va'⟩
  | n, table, w, h, hr => by
    have address : descriptorAddress (.above n) table va' = descriptorAddress (.above n) table va := by
      rw [descriptorAddress, descriptorAddress, tableIndex, tableIndex, region_eq_of_le (above_le_level h) hr]
    cases n with
    | zero =>
      obtain ⟨pa, hpa, rfl⟩ := walkFrom_zero_eq_ok.mp h
      exact walkFrom_zero_eq_ok.mpr ⟨pa, address.trans hpa, by rw [landing_relocate _ va va']⟩
    | succ n =>
      obtain ⟨pa, hpa, ⟨hn, rfl⟩ | ⟨next, rest, hn, hrest, rfl⟩⟩ := walkFrom_succ_eq_ok.mp h
      · exact walkFrom_succ_eq_ok.mpr ⟨pa, address.trans hpa, .inl ⟨hn, by rw [landing_relocate _ va va']⟩⟩
      · exact walkFrom_succ_eq_ok.mpr ⟨pa, address.trans hpa, .inr ⟨next, _, hn, walkFrom_relocate hrest hr, rfl⟩⟩

/-- Walks of addresses of one region, at the level where the walk of one of them lands, read the same. -/
theorem walkFrom_of_region_eq {va' : Int} {w' : Walk} (h : walkFrom va' read n table = .ok w')
    (hr : region w'.landing.level va = region w'.landing.level va') :
    ∃ w, walkFrom va read n table = .ok w ∧ w.descriptors = w'.descriptors :=
  ⟨_, walkFrom_relocate h hr, rfl⟩

/-! ### Tags -/

theorem Level.check_number : ∀ level : Level, Level.check level.number = .ok level
  | 0 | 1 | 2 | 3 => rfl

theorem Tag.tag_context (t : Tag) : t.context.tag = .ok t := by
  rw [context, Context.tag, Level.check_number]
  rfl

theorem Walk.guard_of_leaf? {asid : Int} {tag : Tag} (h : w.leaf? va asid = some tag) : w.guard va asid = tag := by
  rw [guard, h, Option.getD_some]

/-- A finished walk fills the tag of the region of its address at the level where it landed. -/
theorem Walk.tag_of_leaf? {asid : Int} {tag : Tag} (h : w.leaf? va asid = some tag) :
    tag.level = w.landing.level ∧ tag.region = region w.landing.level va := by
  rw [leaf?] at h
  cases hl : w.landing with
  | mapped pa level global =>
    rw [hl] at h
    cases h
    exact ⟨rfl, rfl⟩
  | fault level =>
    rw [hl] at h
    cases h

/-- Addresses whose walks fill the same tag lie in one region at the level where the walks landed. -/
theorem Walk.region_eq_of_leaf? {w' : Walk} {va' asid asid' : Int} {tag : Tag} (h : w.leaf? va asid = some tag)
    (h' : w'.leaf? va' asid' = some tag) : region w'.landing.level va = region w'.landing.level va' := by
  obtain ⟨hlevel, hregion⟩ := tag_of_leaf? h
  obtain ⟨hlevel', hregion'⟩ := tag_of_leaf? h'
  rw [← hregion', hregion, ← hlevel, hlevel']

/-- A walk that fills a tag maps at the level of the tag, for all address spaces exactly when the tag is for all. -/
theorem Walk.mapped_of_leaf? {asid : Int} {tag : Tag} (h : w.leaf? va asid = some tag) :
    ∃ pa, w.landing = .mapped pa tag.level tag.asid.isNone := by
  rw [leaf?] at h
  cases hl : w.landing with
  | fault level =>
    rw [hl] at h
    cases h
  | mapped pa level global =>
    rw [hl] at h
    cases h
    exact ⟨pa, by cases global <;> rfl⟩

/-- A replay of what a walk read lands as that walk does, for each address of the region where that landed. -/
theorem Walk.landing_replay {va' base base' : Int} {ds : List Int} {w' : Walk} (h' : walk va' base' read = .ok w')
    (hd : w'.descriptors = ds) (hregion : region w'.landing.level va = region w'.landing.level va')
    (h : replay va base ds = .ok w) : w.landing = w'.landing.relocate va := by
  have hmoved : walk va base' read = .ok ⟨w'.steps, w'.landing.relocate va⟩ := walkFrom_relocate h' hregion
  exact walkFrom_landing_eq h hmoved (replay_descriptors hmoved hd h)

/-- A replay of what a walk read, for an address and address space that its tag serves, fills that tag again. -/
theorem Walk.leaf?_replay {va' base base' asid asid' : Int} {level : Level} {space : Option Int} {ds : List Int}
    {w' : Walk} (h' : walk va' base' read = .ok w') (hd : w'.descriptors = ds)
    (hleaf : w'.leaf? va' asid' = some (Tag.of level va space)) (hspace : space = none ∨ space = some asid)
    (h : replay va base ds = .ok w) : w.leaf? va asid = some (Tag.of level va space) := by
  obtain ⟨hlevel, hregion⟩ := tag_of_leaf? hleaf
  have hlanding := landing_replay h' hd (by rw [← hregion, ← hlevel]; rfl) h
  obtain ⟨pa, hl⟩ := mapped_of_leaf? hleaf
  rw [leaf?, hlanding, hl]
  rcases hspace with rfl | rfl <;> rfl

end Litmus.Paging
