import Litmus.Text.Hex
import Litmus.Text.Units
import Litmus.Paging.Maintenance

/-!
Caches of table walks: a finite set of lines, each a tag with the descriptors of a walk that filled
it, in the order in which they were found. A tag may have several lines at once. Main facts: a line
is in `add` exactly when it was or is the new one, and in `union` when it is in either.
-/

namespace Litmus.Paging

/-- A cached walk: its tag, and the descriptors from the first level down to the leaf. -/
structure Line where
  tag : Tag
  descriptors : List Int
  deriving DecidableEq, Repr

namespace Line

/-- The text of a line, in hexadecimal; a star stands for all address spaces. -/
def text (l : Line) : String :=
  let asid := match l.tag.asid with
    | none => "*"
    | some a => Text.hex a
  let descriptors := ",".intercalate (l.descriptors.map Text.hex)
  s!"{l.tag.level.val}:{Text.hex l.tag.region}/{asid}:{descriptors}"

/-- The numbers that tell lines apart. -/
def code (l : Line) : List Int :=
  let asid : List Int := match l.tag.asid with
    | none => [0]
    | some a => [1, a]
  (l.tag.level.val : Int) :: l.tag.region :: asid ++ l.descriptors

end Line

/-- A set of lines, in the order in which they were found. -/
structure Cache where
  lines : List Line
  distinct : lines.Nodup
  deriving DecidableEq

namespace Cache

/-- The cache without lines. -/
def empty : Cache := ⟨[], List.nodup_nil⟩

instance : Inhabited Cache := ⟨empty⟩

/-- The cache with a line, last if it is new. -/
def insert (c : Cache) (l : Line) : Cache :=
  if h : l ∈ c.lines then c
  else ⟨c.lines ++ [l], by
    rw [List.nodup_append]
    exact ⟨c.distinct, List.nodup_cons.mpr ⟨List.not_mem_nil, List.nodup_nil⟩,
      fun a ha b hb e => h (List.mem_singleton.mp hb ▸ e ▸ ha)⟩⟩

/-- The cache with a walk under a context. -/
def add (c : Cache) (context : Context) (descriptors : List Int) : Except Fault Cache := do
  return c.insert ⟨← context.tag, descriptors⟩

/-- The lines of both caches: those of the first, then the new ones of the second. -/
def union (c d : Cache) : Cache := d.lines.foldl insert c

/-- The cache without the lines that maintenance hits. -/
def invalidate (c : Cache) (m : Maintenance) : Cache :=
  ⟨c.lines.filter fun l => !m.hits l.tag, c.distinct.filter _⟩

/-- The walks cached under a tag. -/
def find (c : Cache) (t : Tag) : List (List Int) := (c.lines.filter fun l => l.tag = t).map (·.descriptors)

/-- The walks cached under a context. -/
def get (c : Cache) (context : Context) : Except Fault (List (List Int)) := do return c.find (← context.tag)

/-- How many lines there are. -/
def size (c : Cache) : Nat := c.lines.length

/-- The texts of the lines, in ascending order. -/
def describe (c : Cache) : List String := Text.sort (c.lines.map Line.text)

/-- The same set of lines, in an order that depends on the set alone. -/
def inOrder (c : Cache) : Cache :=
  ⟨c.lines.mergeSort fun a b => (compare a.code b.code).isLE, (List.mergeSort_perm _ _).nodup_iff.mpr c.distinct⟩

/-! ### Membership -/

theorem mem_insert {c : Cache} {l k : Line} : k ∈ (c.insert l).lines ↔ k ∈ c.lines ∨ k = l := by
  unfold insert
  split
  · exact ⟨Or.inl, fun h => h.elim id fun e => e ▸ ‹_›⟩
  · simp

theorem mem_union {c d : Cache} {k : Line} : k ∈ (c.union d).lines ↔ k ∈ c.lines ∨ k ∈ d.lines := by
  suffices h : ∀ (ls : List Line) (c : Cache), k ∈ (ls.foldl insert c).lines ↔ k ∈ c.lines ∨ k ∈ ls from h _ c
  intro ls
  induction ls with
  | nil => simp
  | cons l ls ih => intro c; rw [List.foldl_cons, ih, mem_insert, List.mem_cons, or_assoc]

theorem mem_invalidate {c : Cache} {m : Maintenance} {k : Line} :
    k ∈ (c.invalidate m).lines ↔ k ∈ c.lines ∧ m.hits k.tag = false := by
  simp [invalidate]

theorem mem_find {c : Cache} {t : Tag} {ds : List Int} : ds ∈ c.find t ↔ Line.mk t ds ∈ c.lines := by
  simp only [find, List.mem_map, List.mem_filter, decide_eq_true_eq]
  constructor
  · rintro ⟨l, ⟨hl, rfl⟩, rfl⟩
    exact hl
  · intro h
    exact ⟨_, ⟨h, rfl⟩, rfl⟩

end Cache

end Litmus.Paging
