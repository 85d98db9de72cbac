import Litmus.Exploration.Total
import Litmus.Proofs.Paging.Cache
import Litmus.Proofs.Value.Record

/-!
Caches by keys. A `Keyed` cache has a layer for each level, in it a shelf for each region and address space under the
text of these, and on the shelf the walks under the texts of their descriptors. Main facts: every shelf stays in step
with its key, whatever is done to the cache; so a keyed cache gives the same walks in the same order as the cache that is
a list of lines, has the same size and the same description, and both are finite sets.
-/

namespace Litmus.Paging

/-- The walks cached under one tag, each under the text of its descriptors. -/
structure Shelf where
  tag : Tag
  walks : List (String × List Int)

/-- A shelf with the walks of another. -/
def Shelf.join (s s' : Shelf) : Shelf := { s with walks := s'.walks.foldl Record.put s.walks }

/-- A cache of a layer for each level, of shelves under the texts of their tags. -/
structure Keyed where
  layers : Level → List (String × Shelf)

namespace Keyed

/-- The cache without shelves. -/
def empty : Keyed := ⟨fun _ => []⟩

/-- The walks cached under a tag. -/
def get (k : Keyed) (t : Tag) : List (List Int) :=
  match Record.get? (k.layers t.level) t.key with
  | some s => s.walks.map Prod.snd
  | none => []

/-- A layer with one more shelf, joined to the one of the same text. -/
def lay (layer : List (String × Shelf)) (e : String × Shelf) : List (String × Shelf) :=
  Record.put layer (e.1, match Record.get? layer e.1 with
    | some s => s.join e.2
    | none => e.2)

/-- The walks of both caches. -/
def union (k m : Keyed) : Keyed := ⟨fun level => (m.layers level).foldl lay (k.layers level)⟩

/-- The cache of one walk. -/
def single (t : Tag) (ds : List Int) : Keyed :=
  ⟨fun level => if level = t.level then [(t.key, ⟨t, [(Text.hexList ds, ds)]⟩)] else []⟩

/-- The cache with a walk under a tag. -/
def add (k : Keyed) (t : Tag) (ds : List Int) : Keyed := k.union (single t ds)

/-- The cache without the shelves that maintenance hits. -/
def invalidate (k : Keyed) (m : Maintenance) : Keyed := ⟨fun level => (k.layers level).filter fun e => !m.hits e.2.tag⟩

/-- How many walks there are. -/
def size (k : Keyed) : Nat :=
  total (fun level => total (fun e => e.2.walks.length) (k.layers level)) (List.finRange 4)

/-- The texts of the walks with those of their shelves, in ascending order. -/
def describe (k : Keyed) : List String :=
  Text.sort <| (List.finRange 4).flatMap fun level => (k.layers level).flatMap fun e =>
    e.2.walks.map fun w => toString level.val ++ ":" ++ e.1 ++ ":" ++ w.1

end Keyed

/-! ### Keys in step -/

/-- Whether each walk is under its own text, and once. -/
structure Named (walks : List (String × List Int)) : Prop where
  nodup : (walks.map Prod.fst).Nodup
  name_eq : ∀ w ∈ walks, w.1 = Text.hexList w.2

namespace Named

variable {walks walks' : List (String × List Int)}

/-- Walks under their own texts are told apart by their descriptors. -/
theorem nodup_snd (h : Named walks) : (walks.map Prod.snd).Nodup := by
  have hnames : walks.map Prod.fst = (walks.map Prod.snd).map Text.hexList := by
    rw [List.map_map]
    exact List.map_congr_left fun w hw => h.name_eq w hw
  exact List.Nodup.of_map _ (hnames ▸ h.nodup)

/-- A walk under its own text is new exactly when its text is. -/
theorem map_snd_put (h : ∀ w ∈ walks, w.1 = Text.hexList w.2) (ds : List Int) :
    (Record.put walks (Text.hexList ds, ds)).map Prod.snd = adjoin (walks.map Prod.snd) ds := by
  induction walks with
  | nil => rfl
  | cons w walks ih =>
    have hw : w.1 = Text.hexList w.2 := h w List.mem_cons_self
    rw [Record.put, List.map_cons, adjoin_cons, ← ih fun w hw => h w (List.mem_cons_of_mem _ hw), hw]
    by_cases hds : w.2 = ds
    · rw [if_pos (congrArg _ hds), if_pos hds, List.map_cons, hds]
    · rw [if_neg fun he => hds (Text.hexList_injective he), if_neg hds, List.map_cons]

theorem put (h : Named walks) (ds : List Int) : Named (Record.put walks (Text.hexList ds, ds)) where
  nodup := Record.nodup_put _ h.nodup
  name_eq w hw := by
    rcases Record.eq_or_mem_of_mem_put hw with rfl | hw
    · rfl
    · exact h.name_eq w hw

/-- Laying walks over others adds the new ones at the end. -/
theorem foldl_put (h : Named walks) (h' : ∀ w ∈ walks', w.1 = Text.hexList w.2) :
    Named (walks'.foldl Record.put walks) ∧
      (walks'.foldl Record.put walks).map Prod.snd = (walks'.map Prod.snd).foldl adjoin (walks.map Prod.snd) := by
  induction walks' generalizing walks with
  | nil => exact ⟨h, rfl⟩
  | cons w walks' ih =>
    obtain ⟨name, ds⟩ := w
    obtain rfl : name = Text.hexList ds := h' _ List.mem_cons_self
    obtain ⟨hnamed, hsnd⟩ := ih (h.put ds) fun w hw => h' w (List.mem_cons_of_mem _ hw)
    exact ⟨hnamed, by rw [List.foldl_cons, hsnd, map_snd_put h.name_eq, List.map_cons, List.foldl_cons]⟩

end Named

/-- Whether a shelf is under the text of its tag, in the layer of its level. -/
structure Shelf.InStep (s : Shelf) (level : Level) (key : String) : Prop where
  level_eq : s.tag.level = level
  key_eq : s.tag.key = key
  named : Named s.walks

theorem Shelf.InStep.join {s s' : Shelf} {level : Level} {key : String} (h : s.InStep level key)
    (h' : s'.InStep level key) : (s.join s').InStep level key :=
  ⟨h.level_eq, h.key_eq, (h.named.foldl_put h'.named.name_eq).1⟩

/-- The text of a tag within its level tells the tag. -/
theorem Tag.eq_of_key {t u : Tag} (hlevel : t.level = u.level) (hkey : t.key = u.key) : t = u := by
  obtain ⟨hregion, hasid⟩ := key_injective hkey
  cases t
  cases u
  simp_all

/-- Whether the shelves of a layer are each under its own text, and once. -/
structure LayerInStep (level : Level) (layer : List (String × Shelf)) : Prop where
  nodup : (layer.map Prod.fst).Nodup
  shelves : ∀ e ∈ layer, e.2.InStep level e.1

namespace LayerInStep

variable {level : Level} {layer layer' : List (String × Shelf)} {key : String}

theorem shelf (h : LayerInStep level layer) {s : Shelf} (hs : Record.get? layer key = some s) : s.InStep level key :=
  h.shelves _ ((Record.get?_eq_some_iff h.nodup).mp hs)

theorem lay (h : LayerInStep level layer) {e : String × Shelf} (he : e.2.InStep level e.1) :
    LayerInStep level (Keyed.lay layer e) where
  nodup := by
    rw [Keyed.lay]
    exact Record.nodup_put _ h.nodup
  shelves x hx := by
    rcases Record.eq_or_mem_of_mem_put hx with rfl | hx
    · dsimp only
      split
      · next s hs => exact (h.shelf hs).join he
      · exact he
    · exact h.shelves x hx

theorem foldl_lay (h : LayerInStep level layer) (h' : ∀ e ∈ layer', e.2.InStep level e.1) :
    LayerInStep level (layer'.foldl Keyed.lay layer) := by
  induction layer' generalizing layer with
  | nil => exact h
  | cons e layer' ih =>
    exact ih (h.lay (h' e List.mem_cons_self)) fun x hx => h' x (List.mem_cons_of_mem _ hx)

end LayerInStep

/-- The shelf under a text in two layers that are joined is that of both. -/
theorem Keyed.get?_foldl_lay {layer layer' : List (String × Shelf)} {key : String} (h : (layer'.map Prod.fst).Nodup) :
    Record.get? (layer'.foldl lay layer) key =
      Option.merge Shelf.join (Record.get? layer key) (Record.get? layer' key) := by
  induction layer' generalizing layer with
  | nil =>
    rw [List.foldl_nil]
    cases Record.get? layer key <;> rfl
  | cons e layer' ih =>
    rw [List.map_cons, List.nodup_cons] at h
    rw [List.foldl_cons, ih h.2, lay, Record.get?_put, Record.get?_cons]
    by_cases he : e.1 = key
    · subst he
      rw [if_pos rfl, if_pos rfl, Record.get?_eq_none layer' h.1]
      cases Record.get? layer e.1 <;> rfl
    · rw [if_neg he, if_neg he]

/-- Whether every layer of a cache is in step. -/
def Keyed.InStep (k : Keyed) : Prop := ∀ level, LayerInStep level (k.layers level)

namespace Keyed

variable {k m : Keyed} {t u : Tag} {ds : List Int}

theorem nodup_get (h : k.InStep) (t : Tag) : (k.get t).Nodup := by
  rw [get]
  split
  · next s hs => exact ((h t.level).shelf hs).named.nodup_snd
  · exact List.nodup_nil

theorem inStep_empty : empty.InStep := fun _ => ⟨List.nodup_nil, nofun⟩

theorem inStep_union (h : k.InStep) (h' : m.InStep) : (k.union m).InStep :=
  fun level => (h level).foldl_lay (h' level).shelves

theorem get_union (h : k.InStep) (h' : m.InStep) (t : Tag) : (k.union m).get t = (m.get t).foldl adjoin (k.get t) := by
  rw [get, union, get?_foldl_lay (h' t.level).nodup]
  have hnodup := nodup_get h' t
  rw [get] at hnodup ⊢
  rw [get]
  cases hs : Record.get? (k.layers t.level) t.key with
  | none =>
    cases hs' : Record.get? (m.layers t.level) t.key with
    | none => rfl
    | some s' =>
      rw [hs'] at hnodup
      have hfold : (s'.walks.map Prod.snd).foldl adjoin [] = s'.walks.map Prod.snd := foldl_adjoin_of_nodup hnodup
      exact hfold.symm
  | some s =>
    cases hs' : Record.get? (m.layers t.level) t.key with
    | none => rfl
    | some s' => exact (((h t.level).shelf hs).named.foldl_put ((h' t.level).shelf hs').named.name_eq).2

theorem inStep_single (t : Tag) (ds : List Int) : (single t ds).InStep := by
  intro level
  rw [single]
  dsimp only
  split
  · next hlevel =>
    refine ⟨List.nodup_singleton _, ?_⟩
    intro e he
    rw [List.mem_singleton.mp he]
    refine ⟨hlevel.symm, rfl, List.nodup_singleton _, ?_⟩
    intro w hw
    rw [List.mem_singleton.mp hw]
  · exact ⟨List.nodup_nil, nofun⟩

theorem get_single (t u : Tag) (ds : List Int) : (single t ds).get u = if t = u then [ds] else [] := by
  rw [get, single]
  dsimp only
  by_cases htu : t = u
  · subst htu
    rw [if_pos rfl, if_pos rfl, Record.get?_cons, if_pos rfl]
    rfl
  · rw [if_neg htu]
    by_cases hlevel : u.level = t.level
    · have hkey : t.key ≠ u.key := fun he => htu (Tag.eq_of_key hlevel.symm he)
      rw [if_pos hlevel, Record.get?_cons, if_neg hkey]
      rfl
    · rw [if_neg hlevel]
      rfl

theorem inStep_invalidate (h : k.InStep) (x : Maintenance) : (k.invalidate x).InStep := fun level =>
  ⟨(h level).nodup.sublist (List.filter_sublist.map _), fun e he => (h level).shelves e (List.mem_filter.mp he).1⟩

theorem get_invalidate (h : k.InStep) (x : Maintenance) (t : Tag) :
    (k.invalidate x).get t = if x.hits t then [] else k.get t := by
  have hnodup := (inStep_invalidate h x t.level).nodup
  have tagged {s : Shelf} (hs : (t.key, s) ∈ k.layers t.level) : s.tag = t :=
    Tag.eq_of_key ((h t.level).shelves _ hs).level_eq ((h t.level).shelves _ hs).key_eq
  have hfind : Record.get? ((k.invalidate x).layers t.level) t.key =
      if x.hits t then none else Record.get? (k.layers t.level) t.key := by
    ext s
    rw [Record.get?_eq_some_iff hnodup, invalidate, List.mem_filter]
    split
    · next hhits =>
      simp only [reduceCtorEq, iff_false, not_and]
      intro hs
      rw [tagged hs, hhits]
      decide
    · next hhits =>
      rw [Record.get?_eq_some_iff (h t.level).nodup, and_iff_left_iff_imp]
      intro hs
      rw [tagged hs]
      simpa using hhits
  rw [get, hfind, get]
  cases x.hits t <;> rfl

/-! ### What a keyed cache tells -/

/-- The lines of the walks, layer by layer. -/
def lines (k : Keyed) : List Line :=
  (List.finRange 4).flatMap fun level => (k.layers level).flatMap fun e => e.2.walks.map fun w => ⟨e.2.tag, w.2⟩

theorem mem_lines (h : k.InStep) {l : Line} : l ∈ k.lines ↔ l.descriptors ∈ k.get l.tag := by
  rw [get]
  constructor
  · intro hl
    obtain ⟨level, -, hl⟩ := List.mem_flatMap.mp hl
    obtain ⟨e, he, hl⟩ := List.mem_flatMap.mp hl
    obtain ⟨w, hw, rfl⟩ := List.mem_map.mp hl
    obtain ⟨hlevel, hkey, -⟩ := (h level).shelves e he
    subst hlevel
    rw [hkey, (Record.get?_eq_some_iff (h _).nodup).mpr he]
    exact List.mem_map_of_mem hw
  · intro hds
    split at hds
    · next s hs =>
      have hmem := (Record.get?_eq_some_iff (h _).nodup).mp hs
      have htag : s.tag = l.tag :=
        Tag.eq_of_key ((h _).shelves _ hmem).level_eq ((h _).shelves _ hmem).key_eq
      obtain ⟨w, hw, hwds⟩ := List.mem_map.mp hds
      refine List.mem_flatMap.mpr ⟨l.tag.level, List.mem_finRange _, List.mem_flatMap.mpr ⟨_, hmem, ?_⟩⟩
      refine List.mem_map.mpr ⟨w, hw, ?_⟩
      rw [htag, hwds]
    · cases hds

/-- The lines of a layer are told apart by their shelves, and those of a shelf by their walks. -/
theorem nodup_lines (h : k.InStep) : k.lines.Nodup := by
  have tag_of {level : Level} {e : String × Shelf} (he : e ∈ k.layers level) {l : Line}
      (hl : l ∈ e.2.walks.map fun w => Line.mk e.2.tag w.2) : l.tag.level = level ∧ l.tag.key = e.1 := by
    obtain ⟨w, -, rfl⟩ := List.mem_map.mp hl
    exact ⟨((h level).shelves e he).level_eq, ((h level).shelves e he).key_eq⟩
  refine List.nodup_flatMap.mpr ⟨fun level _ => List.nodup_flatMap.mpr ⟨?_, ?_⟩, ?_⟩
  · intro e he
    have hnodup := ((h level).shelves e he).named.nodup_snd.map (f := Line.mk e.2.tag) (fun _ _ he => (Line.mk.inj he).2)
    rwa [List.map_map] at hnodup
  · refine (List.pairwise_map.mp (h level).nodup).imp_of_mem ?_
    intro e e' he he' hne l hl hl'
    exact hne ((tag_of he hl).2.symm.trans (tag_of he' hl').2)
  · refine (List.nodup_finRange 4).imp ?_
    intro level level' hne l hl hl'
    obtain ⟨e, he, hl⟩ := List.mem_flatMap.mp hl
    obtain ⟨e', he', hl'⟩ := List.mem_flatMap.mp hl'
    exact hne ((tag_of he hl).1.symm.trans (tag_of he' hl').1)

theorem size_eq (k : Keyed) : k.size = k.lines.length := by
  simp only [size, lines, length_flatMap_eq_total, List.length_map]

theorem describe_eq (h : k.InStep) : k.describe = Text.sort (k.lines.map Line.text) := by
  rw [describe, lines, List.map_flatMap]
  refine congrArg Text.sort (List.flatMap_congr fun level _ => ?_)
  rw [List.map_flatMap]
  refine List.flatMap_congr fun e he => ?_
  rw [List.map_map]
  refine List.map_congr_left fun w hw => ?_
  obtain ⟨hlevel, hkey, hnamed⟩ := (h level).shelves e he
  rw [Function.comp_apply, Line.text_eq, hlevel, hkey, hnamed.name_eq w hw]

/-- Whether a keyed cache has the walks of a cache, those of each tag in their order. -/
structure Shows (k : Keyed) (c : Cache) : Prop where
  inStep : k.InStep
  get_eq : ∀ t, k.get t = c.find t

namespace Shows

variable {c d : Cache}

theorem perm (h : k.Shows c) : k.lines.Perm c.lines :=
  (List.perm_ext_iff_of_nodup (nodup_lines h.inStep) c.distinct).mpr fun l => by
    rw [mem_lines h.inStep, h.get_eq, Cache.mem_find]

theorem size_eq (h : k.Shows c) : k.size = c.size := k.size_eq.trans h.perm.length_eq

theorem describe_eq (h : k.Shows c) : k.describe = c.describe :=
  (Keyed.describe_eq h.inStep).trans (Text.sort_eq_sort_iff.mpr (h.perm.map _))

theorem empty : Keyed.empty.Shows .empty := ⟨inStep_empty, fun _ => rfl⟩

theorem union (h : k.Shows c) (h' : m.Shows d) : (k.union m).Shows (c.union d) where
  inStep := inStep_union h.inStep h'.inStep
  get_eq t := by rw [get_union h.inStep h'.inStep, h.get_eq, h'.get_eq, Cache.find_union]

theorem add (h : k.Shows c) (t : Tag) (ds : List Int) : (k.add t ds).Shows (c.insert ⟨t, ds⟩) where
  inStep := inStep_union h.inStep (inStep_single t ds)
  get_eq u := by
    rw [Keyed.add, get_union h.inStep (inStep_single t ds), get_single, h.get_eq, Cache.find_insert]
    split <;> rfl

theorem invalidate (h : k.Shows c) (x : Maintenance) : (k.invalidate x).Shows (c.invalidate x) where
  inStep := inStep_invalidate h.inStep x
  get_eq t := by rw [get_invalidate h.inStep, h.get_eq, Cache.find_invalidate]

end Shows

end Keyed

/-! ### How caches are built -/

/-- A way to build a cache. -/
inductive Recipe where
  | empty
  | add (r : Recipe) (tag : Tag) (descriptors : List Int)
  | union (r q : Recipe)
  | invalidate (r : Recipe) (m : Maintenance)

namespace Recipe

/-- The cache that is built. -/
def cache : Recipe → Except Fault Cache
  | empty => .ok .empty
  | add r t ds => do (← r.cache).add t.context ds
  | union r q => do return (← r.cache).union (← q.cache)
  | invalidate r m => do return (← r.cache).invalidate m

/-- The keyed cache that is built. -/
def keyed : Recipe → Keyed
  | empty => .empty
  | add r t ds => r.keyed.add t ds
  | union r q => r.keyed.union q.keyed
  | invalidate r m => r.keyed.invalidate m

/-- The set that is built. -/
def tuples : Recipe → Finset Line
  | empty => ∅
  | add r t ds => insert ⟨t, ds⟩ r.tuples
  | union r q => r.tuples ∪ q.tuples
  | invalidate r m => r.tuples.filter fun l => m.hits l.tag = false

/-- Both caches are built, and are the set. -/
theorem exists_cache : ∀ r : Recipe, ∃ c, r.cache = .ok c ∧ r.keyed.Shows c ∧ c.tuples = r.tuples
  | empty => ⟨.empty, rfl, .empty, Cache.tuples_empty⟩
  | add r t ds => by
    obtain ⟨c, hc, hshows, htuples⟩ := r.exists_cache
    refine ⟨c.insert ⟨t, ds⟩, ?_, hshows.add t ds, by rw [Cache.tuples_insert, htuples, tuples]⟩
    rw [cache, hc]
    exact c.add_context t ds
  | union r q => by
    obtain ⟨c, hc, hshows, htuples⟩ := r.exists_cache
    obtain ⟨d, hd, hshows', htuples'⟩ := q.exists_cache
    refine ⟨c.union d, ?_, hshows.union hshows', by rw [Cache.tuples_union, htuples, htuples', tuples]⟩
    rw [cache, hc, hd]
    rfl
  | invalidate r m => by
    obtain ⟨c, hc, hshows, htuples⟩ := r.exists_cache
    refine ⟨c.invalidate m, ?_, hshows.invalidate m, by rw [Cache.tuples_invalidate, htuples, tuples]⟩
    rw [cache, hc]
    rfl

end Recipe

/-- What a cache and a keyed cache tell of a set of lines that both of them are. -/
structure Keyed.Tells (k : Keyed) (c : Cache) (s : Finset Line) : Prop where
  tuples_eq : c.tuples = s
  /-- Under a context both give the walks of its tag, each once. -/
  get_eq : ∀ context t, context.tag = .ok t → c.get context = .ok (k.get t)
  mem_get : ∀ t ds, ds ∈ k.get t ↔ ⟨t, ds⟩ ∈ s
  nodup_get : ∀ t, (k.get t).Nodup
  size_eq : c.size = s.card ∧ k.size = s.card
  /-- Both describe each line once, in ascending order. -/
  describe_eq : k.describe = c.describe
  perm_describe : c.describe.Perm (s.toList.map Line.text)
  nodup_describe : c.describe.Nodup
  sorted_describe : c.describe.Pairwise fun a b => Text.unitsLe a b = true

theorem Keyed.Shows.tells {k : Keyed} {c : Cache} {s : Finset Line} (h : k.Shows c) (hs : c.tuples = s) : k.Tells c s where
  tuples_eq := hs
  get_eq context t ht := by rw [c.get_of_tag ht, h.get_eq]
  mem_get t ds := by rw [h.get_eq, Cache.mem_find, ← hs, Cache.mem_tuples]
  nodup_get t := nodup_get h.inStep t
  size_eq := by rw [h.size_eq, ← hs, Cache.card_tuples, and_self]
  describe_eq := h.describe_eq
  perm_describe := by
    refine c.perm_describe.trans (List.Perm.map _ ?_)
    rw [← hs]
    exact (List.toFinset_toList c.distinct).symm
  nodup_describe := c.nodup_describe
  sorted_describe := Text.pairwise_sort _

/-- However a cache is built, as a list of lines or by keys, it is a finite set of lines, built up as sets are: adding a
walk adds a line, joining caches joins their sets, and maintenance leaves the lines whose contexts it does not affect. It
gives the walks of each context, has the size and the description that the set has, and descriptions are equal exactly
when the sets are. So, as far as descriptions tell, joining caches is associative, commutative and idempotent, and
maintenance commutes with other maintenance and with joining. Maintenance of an address leaves nothing of its page in
the address space or in what belongs to all, at any level, and no maintenance takes a walk from a context that it does
not affect. -/
theorem Recipe.cache_is_set :
    (∀ r : Recipe, ∃ c, r.cache = .ok c ∧ r.keyed.Tells c r.tuples) ∧
    (∀ r q : Recipe, r.keyed.describe = q.keyed.describe ↔ r.tuples = q.tuples) ∧
    (∀ c d : Cache, c.describe = d.describe ↔ c.tuples = d.tuples) ∧
    (∀ b c d : Cache, ((b.union c).union d).describe = (b.union (c.union d)).describe) ∧
    (∀ c d : Cache, (c.union d).describe = (d.union c).describe) ∧
    (∀ c : Cache, (c.union c).describe = c.describe) ∧
    (∀ (c : Cache) (m m' : Maintenance), ((c.invalidate m).invalidate m').describe = ((c.invalidate m').invalidate m).describe) ∧
    (∀ (c d : Cache) (m : Maintenance), ((c.union d).invalidate m).describe = ((c.invalidate m).union (d.invalidate m)).describe) ∧
    (∀ (m : Maintenance) (t : Tag), m.affects t.context = .ok (m.hits t)) ∧
    (∀ (c : Cache) (asid va va' : Int) (lastLevel : Bool) (level : Level) (space : Option Int) (context : Context),
      pageOf va' = pageOf va → space = none ∨ space = some asid → Context.of level.number va' space = .ok context →
      (c.invalidate (.va asid va lastLevel)).get context = .ok []) ∧
    ∀ (c : Cache) (m : Maintenance) (context : Context), m.affects context = .ok false →
      (c.invalidate m).get context = c.get context := by
  refine ⟨?_, ?_, fun _ _ => Cache.describe_eq_iff, Cache.describe_union_assoc, Cache.describe_union_comm,
    Cache.describe_union_self, Cache.describe_invalidate_comm, Cache.describe_invalidate_union,
    Maintenance.affects_context, ?_, ?_⟩
  · intro r
    obtain ⟨c, hc, hshows, htuples⟩ := r.exists_cache
    exact ⟨c, hc, hshows.tells htuples⟩
  · intro r q
    obtain ⟨c, -, hshows, htuples⟩ := r.exists_cache
    obtain ⟨d, -, hshows', htuples'⟩ := q.exists_cache
    rw [hshows.describe_eq, hshows'.describe_eq, Cache.describe_eq_iff, htuples, htuples']
  · intro c asid va va' lastLevel level space context hpage hspace hcontext
    rw [Context.of, Level.check_number] at hcontext
    cases hcontext
    have hhits := Maintenance.hits_of_page lastLevel level hpage hspace
    have hget := (c.invalidate (.va asid va lastLevel)).get_of_tag (Tag.tag_context (Tag.of level va' space))
    rw [Cache.find_invalidate, if_pos hhits] at hget
    exact hget
  · intro c m context haffects
    cases ht : context.tag with
    | error e =>
      rw [Cache.get, Cache.get, ht]
      rfl
    | ok t =>
      rw [Cache.get_of_tag _ ht, Cache.get_of_tag _ ht, Cache.find_invalidate]
      rw [Context.eq_of_tag ht, Maintenance.affects_context] at haffects
      rw [if_neg (by simpa using haffects)]

end Litmus.Paging
