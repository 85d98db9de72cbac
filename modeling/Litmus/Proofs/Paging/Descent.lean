import Mathlib.Algebra.Group.Int.Defs
import Litmus.Proofs.Paging.Walk

/-!
Walks from a table of the scheme. A walk is a loop over the levels, and `descend` is that loop as it stands, with
the trouble it is in when no level ends it. Main facts: a walk fails only when the table it begins at is outside the
scheme, and then at once; else each step reads an aligned address in the table that the step before names, and the
last says how the walk lands; and addresses of one region, at the level where the walk of one of them lands, have
the same steps.
-/

namespace Litmus.Paging

variable {va va' base base' table : Int} {read : Level → Int → Int} {n : Nat} {w w' : Walk}

/-! ### Addresses of the scheme -/

/-- Whether an address lies within the paging scheme. -/
def Inside (pa : Int) : Prop := 0 ≤ pa ∧ pa < addressLimit

instance (pa : Int) : Decidable (Inside pa) := inferInstanceAs (Decidable (_ ∧ _))

theorem checkAddress_of_inside {pa : Int} (h : Inside pa) : checkAddress pa = .ok pa := if_pos h

theorem checkAddress_of_not_inside {pa : Int} (h : ¬Inside pa) : checkAddress pa = .error (.outsideScheme pa) := if_neg h

theorem inside_frameOf (descriptor : Int) : Inside (frameOf descriptor) := by
  simp only [Inside, frameOf, addressLimit, pageSize]
  omega

theorem inside_of_nextTable? {level : Level} {descriptor next : Int} (h : nextTable? level descriptor = some next) :
    Inside next := by
  obtain ⟨-, h⟩ := Option.ite_none_right_eq_some.mp h
  cases h
  exact inside_frameOf _

/-- Where the descriptor for an address lies in a table within the scheme, which is told by its page frame. -/
def entryAddress (level : Level) (table va : Int) : Int := frameOf table + tableIndex level va * 8

theorem inside_entryAddress (level : Level) (table va : Int) : Inside (entryAddress level table va) := by
  simp only [Inside, entryAddress, frameOf, tableIndex, addressLimit, pageSize]
  omega

theorem entryAddress_emod (level : Level) (table va : Int) : entryAddress level table va % 8 = 0 := by
  simp only [entryAddress, frameOf, pageSize]
  omega

theorem descriptorAddress_of_inside (h : Inside base) (level : Level) (va : Int) :
    descriptorAddress level base va = .ok (entryAddress level base va) := by
  rw [descriptorAddress, checkAddress_of_inside h]
  exact checkAddress_of_inside (inside_entryAddress level base va)

theorem descriptorAddress_of_not_inside (h : ¬Inside base) (level : Level) (va : Int) :
    descriptorAddress level base va = .error (.outsideScheme base) := by
  rw [descriptorAddress, checkAddress_of_not_inside h]
  rfl

/-! ### Walks that land -/

/-- Every walk from a table within the scheme lands. -/
theorem exists_walkFrom (va : Int) (read : Level → Int → Int) : ∀ (n : Nat) {table : Int}, Inside table →
    ∃ w, walkFrom va read n table = .ok w
  | 0, _, h => ⟨_, walkFrom_zero_eq_ok.mpr ⟨_, descriptorAddress_of_inside h _ _, rfl⟩⟩
  | n + 1, table, h => by
    cases hn : nextTable? (.above (n + 1)) (read (.above (n + 1)) (entryAddress (.above (n + 1)) table va)) with
    | none => exact ⟨_, walkFrom_succ_eq_ok.mpr ⟨_, descriptorAddress_of_inside h _ _, .inl ⟨hn, rfl⟩⟩⟩
    | some next =>
      obtain ⟨rest, hrest⟩ := exists_walkFrom va read n (inside_of_nextTable? hn)
      exact ⟨_, walkFrom_succ_eq_ok.mpr ⟨_, descriptorAddress_of_inside h _ _, .inr ⟨next, rest, hn, hrest, rfl⟩⟩⟩

/-- A walk from a table outside the scheme fails before it reads anything. -/
theorem walk_of_not_inside (h : ¬Inside base) : walk va base read = .error (.outsideScheme base) := by
  rw [walk, walkFrom, descriptorAddress_of_not_inside h]
  rfl

/-- A walk that lands starts from a table of the scheme. -/
theorem inside_of_walk (h : walk va base read = .ok w) : Inside base := by
  refine Decidable.byContradiction fun hbase => ?_
  rw [walk_of_not_inside hbase] at h
  cases h

/-- Walks from tables of one page frame are the same. -/
theorem walk_eq_of_frameOf_eq (h : Inside base) (h' : Inside base') (he : frameOf base = frameOf base') (va : Int)
    (read : Level → Int → Int) : walk va base read = walk va base' read := by
  rw [walk, walk, walkFrom, walkFrom, descriptorAddress_of_inside h, descriptorAddress_of_inside h', entryAddress,
    entryAddress, he]

/-- The first descriptor of a walk is in the table that it begins at. -/
theorem head?_steps (hbase : Inside base) (h : walk va base read = .ok w) :
    w.steps.head?.map Step.pa = some (frameOf base + tableIndex (.above 3) va * 8) := by
  have haddress := descriptorAddress_of_inside hbase (.above 3) va
  obtain ⟨pa, hpa, ⟨-, rfl⟩ | ⟨next, rest, -, -, rfl⟩⟩ := walkFrom_succ_eq_ok.mp h
  · cases hpa.symm.trans haddress
    rfl
  · cases hpa.symm.trans haddress
    rfl

/-! ### The loop over levels -/

/-- A walk as a loop over levels, in trouble if none of them ends it. -/
def descend (va : Int) (read : Level → Int → Int) : List Level → Int → Except Trouble Walk
  | [], _ => .error (.other .error "walk: level bound exceeded")
  | level :: levels, table => do
    let pa ← (descriptorAddress level table va).mapError .fault
    let descriptor := read level pa
    let step : Step := ⟨level.number, pa, descriptor⟩
    match decode level va descriptor with
    | .landed landing => return ⟨[step], landing⟩
    | .table next =>
      let rest ← descend va read levels next
      return ⟨step :: rest.steps, rest.landing⟩

/-- The levels from the one with so many below it down. -/
def Level.down : Nat → List Level
  | 0 => [Level.last]
  | n + 1 => Level.above (n + 1) :: down n

/-- The loop over the levels from one down is the walk from there. -/
theorem descend_down : ∀ (n : Nat) (table : Int),
    descend va read (Level.down n) table = (walkFrom va read n table).mapError .fault
  | 0, table => by
    rw [Level.down, descend, walkFrom]
    cases descriptorAddress Level.last table va <;> rfl
  | n + 1, table => by
    rw [Level.down, descend, walkFrom]
    cases descriptorAddress (.above (n + 1)) table va with
    | error f => rfl
    | ok pa =>
      simp only [Except.mapError, bind, Except.bind, decode]
      cases nextTable? (.above (n + 1)) (read (.above (n + 1)) pa) with
      | none => rfl
      | some next =>
        dsimp only
        rw [descend_down n next]
        cases walkFrom va read n next <;> rfl

/-! ### The steps of a walk -/

/-- Whether an address lies in the table, of one page, at another. -/
def InTable (table pa : Int) : Prop := table ≤ pa ∧ pa < table + pageSize

/-- What a walk does at one level: it reads a descriptor at an aligned address of the scheme. -/
structure Step.ReadsAt (s : Step) (level : Level) (read : Level → Int → Int) : Prop where
  level_eq : s.level = level.number
  inside : Inside s.pa
  aligned : s.pa % 8 = 0
  descriptor_eq : s.descriptor = read level s.pa

/-- What a walk is that begins in a table of the level `top`. -/
structure Walk.Descends (w : Walk) (va : Int) (read : Level → Int → Int) (top : Nat) (table : Int) : Prop where
  /-- It takes a step at each level down to the one where it lands. -/
  length_eq : top + w.steps.length = w.landing.level.val + 1
  reads : ∀ i s, w.steps[i]? = some s → ∃ level : Level, level.val = top + i ∧ s.ReadsAt level read
  begins : ∀ s, w.steps[0]? = some s → InTable (frameOf table) s.pa
  /-- Each descriptor but the last names the table in which the next one lies. -/
  follows : ∀ i s t, w.steps[i]? = some s → w.steps[i + 1]? = some t → ∃ (level : Level) (next : Int),
    level.val = top + i ∧ decode level va s.descriptor = .table next ∧ InTable next t.pa
  /-- The last descriptor says how the walk lands. -/
  lands : ∃ s, w.steps.getLast? = some s ∧ decode w.landing.level va s.descriptor = .landed w.landing

theorem inTable_entryAddress (level : Level) (table va : Int) : InTable (frameOf table) (entryAddress level table va) := by
  simp only [InTable, entryAddress, tableIndex, pageSize]
  omega

theorem readsAt_entryAddress (level : Level) (table va : Int) (read : Level → Int → Int) :
    (Step.mk level.number (entryAddress level table va) (read level (entryAddress level table va))).ReadsAt level read where
  level_eq := rfl
  inside := inside_entryAddress level table va
  aligned := entryAddress_emod level table va
  descriptor_eq := rfl

theorem landing_of_decode {level : Level} {descriptor : Int} {l : Landing} (h : decode level va descriptor = .landed l) :
    landing level va descriptor = l := by
  rw [decode] at h
  split at h
  · cases h
  · cases h
    rfl

theorem level_of_decode {level : Level} {descriptor : Int} {l : Landing} (h : decode level va descriptor = .landed l) :
    l.level = level := by
  rw [← landing_of_decode h]
  exact landing_level level va descriptor

theorem frameOf_of_decode {level : Level} {descriptor next : Int} (h : decode level va descriptor = .table next) :
    frameOf next = next := by
  rw [decode] at h
  split at h
  · next table hn =>
    cases h
    obtain ⟨-, hn⟩ := Option.ite_none_right_eq_some.mp hn
    cases hn
    simp only [frameOf, addressLimit, pageSize]
    omega
  · cases h

namespace Walk.Descends

/-- A walk that lands at once takes one step. -/
theorem landed {level : Level} {s : Step} {l : Landing} (hs : s.ReadsAt level read) (ht : InTable (frameOf table) s.pa)
    (hd : decode level va s.descriptor = .landed l) : (Walk.mk [s] l).Descends va read level.val table where
  length_eq := by rw [level_of_decode hd]; rfl
  reads
    | 0, t, h => by
      cases h
      exact ⟨level, rfl, hs⟩
    | i + 1, t, h => by simp at h
  begins t h := by
    cases h
    exact ht
  follows i t u _ h := by simp at h
  lands := ⟨s, rfl, by rw [level_of_decode hd]; exact hd⟩

/-- A step before a walk from the table that it names. -/
theorem cons {level : Level} {s : Step} {next : Int} (hs : s.ReadsAt level read) (ht : InTable (frameOf table) s.pa)
    (hd : decode level va s.descriptor = .table next) (hw : w.Descends va read (level.val + 1) next) :
    (Walk.mk (s :: w.steps) w.landing).Descends va read level.val table where
  length_eq := by
    rw [← hw.length_eq, List.length_cons]
    omega
  reads
    | 0, t, h => by
      cases h
      exact ⟨level, rfl, hs⟩
    | i + 1, t, h => by
      obtain ⟨level', hi, h⟩ := hw.reads i t h
      exact ⟨level', by omega, h⟩
  begins t h := by
    cases h
    exact ht
  follows
    | 0, t, u, h, hu => by
      cases h
      have hu := hw.begins u hu
      rw [frameOf_of_decode hd] at hu
      exact ⟨level, next, rfl, hd, hu⟩
    | i + 1, t, u, h, hu => by
      obtain ⟨level', next', hi, h⟩ := hw.follows i t u h hu
      exact ⟨level', next', by omega, h⟩
  lands := by
    obtain ⟨t, ht, h⟩ := hw.lands
    exact ⟨t, by rw [List.getLast?_cons, ht]; rfl, h⟩

/-- Walks from one level are the same steps if they read the same at the same addresses. -/
theorem steps_eq {read' : Level → Int → Int} {top : Nat} {table' : Int} (h : w.Descends va read top table)
    (h' : w'.Descends va' read' top table')
    (he : w.steps.map (fun s => (s.pa, s.descriptor)) = w'.steps.map fun s => (s.pa, s.descriptor)) :
    w.steps = w'.steps := by
  refine List.ext_getElem? fun i => ?_
  have hi := congrArg (·[i]?) he
  simp only [List.getElem?_map] at hi
  cases hs : w.steps[i]? with
  | none =>
    rw [hs] at hi
    exact (Option.map_eq_none_iff.mp hi.symm).symm
  | some s =>
    rw [hs] at hi
    obtain ⟨s', hs', he⟩ := Option.map_eq_some_iff.mp hi.symm
    obtain ⟨level, hl, hr⟩ := h.reads i s hs
    obtain ⟨level', hl', hr'⟩ := h'.reads i s' hs'
    -- the level of a step is told by its place
    have hlevel : s.level = s'.level := by rw [hr.level_eq, hr'.level_eq, Fin.ext (hl.trans hl'.symm)]
    rw [hs', Option.some.injEq]
    cases s
    cases s'
    simp_all

end Walk.Descends

/-- Every walk from a table within the scheme descends from it. -/
theorem descends_walkFrom : ∀ {n : Nat} {table : Int} {w : Walk}, Inside table → n ≤ 3 →
    walkFrom va read n table = .ok w → w.Descends va read (Level.above n).val table
  | 0, table, w, ht, _, h => by
    obtain ⟨pa, hpa, rfl⟩ := walkFrom_zero_eq_ok.mp h
    cases hpa.symm.trans (descriptorAddress_of_inside ht _ va)
    exact .landed (readsAt_entryAddress _ table va read) (inTable_entryAddress _ table va) rfl
  | n + 1, table, w, ht, hn3, h => by
    obtain ⟨pa, hpa, h⟩ := walkFrom_succ_eq_ok.mp h
    cases hpa.symm.trans (descriptorAddress_of_inside ht _ va)
    have hs := readsAt_entryAddress (.above (n + 1)) table va read
    have hin := inTable_entryAddress (.above (n + 1)) table va
    rcases h with ⟨hn, rfl⟩ | ⟨next, rest, hn, hr, rfl⟩
    · exact .landed hs hin (by rw [decode, hn])
    · have hrest := descends_walkFrom (inside_of_nextTable? hn) (by omega) hr
      rw [show (Level.above n).val = (Level.above (n + 1)).val + 1 by simp only [Level.above]; omega] at hrest
      exact .cons hs hin (by rw [decode, hn]) hrest

/-! ### Where a walk lands -/

theorem span_eq_two_pow : ∀ level : Level, level.span = 2 ^ (12 + 9 * (3 - level.val))
  | 0 | 1 | 2 | 3 => rfl

/-- The way into a page or block, from an address of the scheme, stays in the scheme. -/
theorem inside_mapped {base : Int} (h : Inside base) (va : Int) : ∀ level : Level,
    Inside (base / level.span * level.span + va % level.span) ∧
    (base / level.span * level.span + va % level.span) % level.span = va % level.span
  | 0 | 1 | 2 | 3 => by
    simp only [Inside, addressLimit, Level.span] at h ⊢
    omega

/-- A mapping leads to an address of the scheme, the way that the address walked has into a page or block. -/
theorem inside_of_landing {level level' : Level} {descriptor pa : Int} {global : Bool}
    (h : landing level va descriptor = .mapped pa level' global) :
    1 ≤ level'.val ∧ Inside pa ∧ pa % level'.span = va % level'.span := by
  rw [landing] at h
  split at h
  · cases h
  · next hl =>
    cases h
    have hne : level ≠ Level.first := fun e => hl (.inr (.inl e))
    exact ⟨Fin.pos_iff_ne_zero.mpr hne, inside_mapped (inside_frameOf descriptor) va level⟩

theorem Level.mem_mapping : ∀ level : Level, 1 ≤ level.val → level ∈ Level.mapping := by decide

/-- A walk that fills a tag read a descriptor at each level down to that of the tag, which is one that can map. -/
theorem Walk.complete_of_leaf? {asid : Int} {tag : Tag} (h : walk va base read = .ok w) (hleaf : w.leaf? va asid = some tag) :
    tag.level ∈ Level.mapping ∧ w.descriptors.length = tag.level.val + 1 := by
  have hdescends := descends_walkFrom (inside_of_walk h) (Nat.le_refl 3) h
  obtain ⟨s, -, hs⟩ := hdescends.lands
  obtain ⟨pa, hl⟩ := mapped_of_leaf? hleaf
  constructor
  · exact Level.mem_mapping _ (inside_of_landing ((landing_of_decode hs).trans hl)).1
  · rw [descriptors, List.length_map, (tag_of_leaf? hleaf).1, ← hdescends.length_eq]
    exact (Nat.zero_add _).symm

/-- What a walk read that filled a tag is replayed for every address of the region of the tag, from every table of the
scheme: it maps that at the level of the tag, for all address spaces exactly when the tag is for all. -/
theorem Walk.exists_replay {asid : Int} {tag : Tag} (h' : walk va' base' read = .ok w') (hleaf : w'.leaf? va' asid = some tag)
    (hregion : region tag.level va = tag.region) (hbase : Inside base) :
    ∃ w pa, replay va base w'.descriptors = .ok w ∧ w.landing = .mapped pa tag.level tag.asid.isNone := by
  obtain ⟨w, hw⟩ := exists_walkFrom va (fun level _ => w'.descriptors.getD level.val 0) 3 hbase
  obtain ⟨hlevel, hregion'⟩ := tag_of_leaf? hleaf
  have hlanding := landing_replay h' rfl (by rw [← hlevel, hregion, hregion', hlevel]) hw
  obtain ⟨pa, hl⟩ := mapped_of_leaf? hleaf
  rw [hl] at hlanding
  exact ⟨w, _, hw, hlanding⟩

theorem region_eq_of_emod_eq (h : va' % addressLimit = va % addressLimit) (level : Level) :
    region level va' = region level va := by
  rw [region, region, h]

theorem span_dvd_addressLimit : ∀ level : Level, level.span ∣ addressLimit := by decide

theorem landing_eq_of_emod_eq (h : va' % addressLimit = va % addressLimit) (level : Level) (descriptor : Int) :
    landing level va' descriptor = landing level va descriptor := by
  have hspan : va' % level.span = va % level.span := by
    rw [← Int.emod_emod_of_dvd va' (span_dvd_addressLimit level), h, Int.emod_emod_of_dvd va (span_dvd_addressLimit level)]
  simp only [landing, hspan]

/-- Of an address a walk takes no more than the scheme has. -/
theorem walkFrom_eq_of_emod_eq (h : va' % addressLimit = va % addressLimit) : ∀ (n : Nat) (table : Int),
    walkFrom va' read n table = walkFrom va read n table
  | 0, table => by
    simp only [walkFrom, descriptorAddress, tableIndex, region_eq_of_emod_eq h, landing_eq_of_emod_eq h]
  | n + 1, table => by
    simp only [walkFrom, descriptorAddress, tableIndex, region_eq_of_emod_eq h, landing_eq_of_emod_eq h,
      walkFrom_eq_of_emod_eq h n]

/-- A walk is the loop over the levels. From a table outside the scheme it fails; from any other it descends to where
it lands, and a mapping there leads to an address of the scheme. Its steps and where it lands are told by the region
that its address has at the level of the landing, up to the way into that. -/
theorem walk_descends (va base : Int) (read : Level → Int → Int) :
    descend va read (List.finRange 4) base = (walk va base read).mapError .fault ∧
    (¬Inside base → walk va base read = .error (.outsideScheme base)) ∧
    (Inside base → ∃ w, walk va base read = .ok w ∧ w.Descends va read 0 base ∧
      (∀ pa level global, w.landing = .mapped pa level global → 1 ≤ level.val ∧ Inside pa ∧
        pa % 2 ^ (12 + 9 * (3 - level.val)) = va % 2 ^ (12 + 9 * (3 - level.val))) ∧
      (∀ va', region w.landing.level va' = region w.landing.level va →
        walk va' base read = .ok ⟨w.steps, w.landing.relocate va'⟩) ∧
      (∀ va' w' asid asid' tag, walk va' base read = .ok w' → w.leaf? va asid = some tag →
        w'.leaf? va' asid' = some tag → w' = ⟨w.steps, w.landing.relocate va'⟩)) ∧
    ∀ va', va' % addressLimit = va % addressLimit → walk va' base read = walk va base read := by
  refine ⟨descend_down 3 base, walk_of_not_inside, ?_, fun va' h => walkFrom_eq_of_emod_eq h 3 base⟩
  intro hbase
  obtain ⟨w, hw⟩ := exists_walkFrom va read 3 hbase
  have hdescends := descends_walkFrom hbase (Nat.le_refl 3) hw
  refine ⟨w, hw, hdescends, ?_, fun va' h => walkFrom_relocate hw h, ?_⟩
  · intro pa level global hl
    obtain ⟨s, -, hs⟩ := hdescends.lands
    rw [← span_eq_two_pow]
    exact inside_of_landing ((landing_of_decode hs).trans hl)
  · intro va' w' asid asid' tag hw' hleaf hleaf'
    have hmoved := walkFrom_relocate hw (Walk.region_eq_of_leaf? hleaf' hleaf)
    exact Except.ok.inj (hw'.symm.trans hmoved)

/-- Tables that lead to a block of 2 MiB for everything. -/
def oneBlock : Level → Int → Int := fun level _ => [0x2003, 0x3003, 0x40200001, 0].getD level.val 0

theorem walk_descends_oneBlock : ∃ w, walk (-1) 0x1000 oneBlock = .ok w ∧ w.Descends (-1) oneBlock 0 0x1000 ∧
    w.landing = .mapped 0x403fffff 2 true ∧
    walk (-0x200000) 0x1000 oneBlock = .ok ⟨w.steps, .mapped 0x40200000 2 true⟩ ∧
    walk 0xffffffffffff 0x1000 oneBlock = .ok w := by
  obtain ⟨-, -, hinside, hsame⟩ := walk_descends (-1) 0x1000 oneBlock
  obtain ⟨w, hw, hdescends, -, hmoved, -⟩ := hinside (by decide)
  have hlanding : w.landing = .mapped 0x403fffff 2 true := by
    cases hw
    rfl
  have hregion : region w.landing.level (-0x200000) = region w.landing.level (-1) := by
    rw [hlanding]
    decide
  have hblock := hmoved (-0x200000) hregion
  rw [hlanding] at hblock
  exact ⟨w, hw, hdescends, hlanding, hblock, (hsame 0xffffffffffff (by decide)).trans hw⟩

end Litmus.Paging
