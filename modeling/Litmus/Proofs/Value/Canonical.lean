import Litmus.Proofs.Text.Injective
import Litmus.Value
import Std.Data.String.ToInt

/-!
Canonical texts tell their values. A text in quotes ends at the first quote that is not escaped, a whole number before what
is no digit, and lists and records at their own brackets; so of two texts that begin with values, and agree, the values are
the same and so is what follows them. Main facts: values with the same canonical text are the same, unless they hold numbers,
which may be rounded, or records with the name that marks a big integer; and counts are written as the numbers that they
are, as long as those need not be rounded.
-/

namespace Litmus

/-- What comes before the first of other characters, and what comes from there on. -/
theorem Text.append_injective_of_forall {α : Type} {P : α → Prop} : ∀ {xs ys zs ws : List α}, (∀ a ∈ xs, P a) →
    (∀ a ∈ ys, P a) → (∀ a ∈ zs.head?, ¬P a) → (∀ a ∈ ws.head?, ¬P a) → xs ++ zs = ys ++ ws → xs = ys ∧ zs = ws
  | [], [], _, _, _, _, _, _, h => ⟨rfl, h⟩
  | [], y :: ys, zs, _, _, hys, hzs, _, h =>
    absurd (hys y List.mem_cons_self) (hzs y (by rw [← List.nil_append zs, h]; rfl))
  | x :: xs, [], _, ws, hxs, _, _, hws, h =>
    absurd (hxs x List.mem_cons_self) (hws x (by rw [← List.nil_append ws, ← h]; rfl))
  | x :: xs, y :: ys, _, _, hxs, hys, hzs, hws, h => by
    obtain ⟨rfl, htail⟩ := List.cons.inj h
    obtain ⟨rfl, hrest⟩ := append_injective_of_forall (fun a ha => hxs a (List.mem_cons_of_mem _ ha))
      (fun a ha => hys a (List.mem_cons_of_mem _ ha)) hzs hws htail
    exact ⟨rfl, hrest⟩

namespace Value

/-! ### Texts in quotes -/

/-- The characters that are escaped. -/
def escaped : List Char := '"' :: '\\' :: (List.range 0x20).map Char.ofNat

theorem mem_escaped {c : Char} : c ∈ escaped ↔ c = '"' ∨ c = '\\' ∨ c.toNat < 0x20 := by
  have low : c ∈ (List.range 0x20).map Char.ofNat ↔ c.toNat < 0x20 := by
    constructor
    · have hall : (((List.range 0x20).map Char.ofNat).all fun d => d.toNat < 0x20) = true := by decide
      intro h
      exact of_decide_eq_true (List.all_eq_true.mp hall c h)
    · intro h
      exact List.mem_map.mpr ⟨c.toNat, List.mem_range.mpr h, Char.ofNat_toNat c⟩
  rw [escaped, List.mem_cons, List.mem_cons, low]

theorem escape_of_not_mem {c : Char} (h : c ∉ escaped) : (escape c).toList = [c] := by
  have hne {d : Char} (hd : d ∈ escaped) : c ≠ d := fun hc => h (hc ▸ hd)
  rw [escape, if_neg fun hc => h (mem_escaped.mpr (.inr (.inr hc)))]
  · exact String.toList_singleton c
  all_goals exact hne (by decide)

-- Both are checked character by character, over the list alone and not over all characters.
theorem head?_escape_of_mem {c : Char} (hc : c ∈ escaped) : (escape c).toList.head? = some '\\' := by
  have hall : (escaped.all fun c => (escape c).toList.head? == some '\\') = true := by decide +kernel
  exact eq_of_beq (List.all_eq_true.mp hall c hc)

theorem escape_prefixFree {c d : Char} (hc : c ∈ escaped) (hd : d ∈ escaped)
    (h : (escape c).toList <+: (escape d).toList) : c = d := by
  have hall : (escaped.all fun c => escaped.all fun d =>
      !(escape c).toList.isPrefixOf (escape d).toList || c == d) = true := by decide +kernel
  have hcd := List.all_eq_true.mp (List.all_eq_true.mp hall c hc) d hd
  rw [List.isPrefixOf_iff_prefix.mpr h] at hcd
  exact eq_of_beq hcd

/-- The first escapes of two texts that agree are of the same character. -/
theorem escape_append_injective {c d : Char} {cs ds : List Char}
    (h : (escape c).toList ++ cs = (escape d).toList ++ ds) : c = d ∧ cs = ds := by
  have mixed {c d : Char} {cs ds : List Char} (hc : c ∈ escaped) (hd : d ∉ escaped) :
      (escape c).toList ++ cs ≠ (escape d).toList ++ ds := by
    intro h
    have hhead := congrArg List.head? h
    rw [List.head?_append, head?_escape_of_mem hc, escape_of_not_mem hd] at hhead
    exact hd (Option.some.inj hhead ▸ mem_escaped.mpr (.inr (.inl rfl)))
  by_cases hc : c ∈ escaped <;> by_cases hd : d ∈ escaped
  · have hcd : c = d := by
      have hprefix : (escape d).toList <+: (escape c).toList ++ cs := h ▸ List.prefix_append _ _
      rcases List.prefix_or_prefix_of_prefix (List.prefix_append _ cs) hprefix with hcd | hdc
      · exact escape_prefixFree hc hd hcd
      · exact (escape_prefixFree hd hc hdc).symm
    subst hcd
    exact ⟨rfl, List.append_cancel_left h⟩
  · exact absurd h (mixed hc hd)
  · exact absurd h.symm (mixed hd hc)
  · rw [escape_of_not_mem hc, escape_of_not_mem hd] at h
    exact List.cons.inj h

/-- No character is written with a quote in front. -/
theorem exists_escape (c : Char) : ∃ d ds, (escape c).toList = d :: ds ∧ d ≠ '"' := by
  by_cases hc : c ∈ escaped
  · have hhead := head?_escape_of_mem hc
    obtain ⟨ds, hds⟩ := List.head?_eq_some_iff.mp hhead
    exact ⟨_, ds, hds, by decide⟩
  · exact ⟨c, [], escape_of_not_mem hc, fun he => hc (mem_escaped.mpr (.inl he))⟩

theorem flatMap_escape_injective {rest rest' : List Char} : ∀ {cs ds : List Char},
    (cs.flatMap fun c => (escape c).toList) ++ '"' :: rest = (ds.flatMap fun c => (escape c).toList) ++ '"' :: rest' →
      cs = ds ∧ rest = rest'
  | [], [], h => ⟨rfl, (List.cons.inj h).2⟩
  | [], d :: ds, h => by
    obtain ⟨a, as, ha, hne⟩ := exists_escape d
    rw [List.flatMap_cons, ha] at h
    exact absurd (List.cons.inj h).1.symm hne
  | c :: cs, [], h => by
    obtain ⟨a, as, ha, hne⟩ := exists_escape c
    rw [List.flatMap_cons, ha] at h
    exact absurd (List.cons.inj h).1 hne
  | c :: cs, d :: ds, h => by
    rw [List.flatMap_cons, List.flatMap_cons, List.append_assoc, List.append_assoc] at h
    obtain ⟨rfl, hrest⟩ := escape_append_injective h
    obtain ⟨rfl, hend⟩ := flatMap_escape_injective hrest
    exact ⟨rfl, hend⟩

theorem toList_quote (s : String) :
    (quote s).toList = '"' :: ((s.toList.flatMap fun c => (escape c).toList) ++ ['"']) := by
  simp [quote, String.toList_join, List.flatMap_map]

theorem quote_append_injective {s t : String} {rest rest' : List Char}
    (h : (quote s).toList ++ rest = (quote t).toList ++ rest') : s = t ∧ rest = rest' := by
  simp only [toList_quote, List.cons_append, List.append_assoc, List.nil_append] at h
  obtain ⟨hchars, hrest⟩ := flatMap_escape_injective (List.cons.inj h).2
  exact ⟨String.toList_injective hchars, hrest⟩

/-! ### Whole numbers -/

/-- What can follow a value in a text. -/
def Ends (rest : List Char) : Prop := ∀ c ∈ rest.head?, c = ',' ∨ c = ']' ∨ c = '\x7d'

theorem ends_bracket (rest : List Char) : Ends (']' :: rest) := fun _ hc => .inr (.inl (Option.some.inj hc).symm)

theorem ends_brace (rest : List Char) : Ends ('\x7d' :: rest) := fun _ hc => .inr (.inr (Option.some.inj hc).symm)

/-- The characters of whole numbers: digits, and the sign. -/
def IsCountChar (c : Char) : Prop := c.isDigit = true ∨ c = '-'

theorem isCountChar_of_mem {n : Int} : ∀ c ∈ (toString n).toList, IsCountChar c := by
  intro c h
  have digit {m : Nat} (h : c ∈ m.repr.toList) : IsCountChar c := by
    rw [Nat.toList_repr] at h
    exact .inl (Nat.isDigit_of_mem_toDigits (by decide) (by decide) h)
  cases n with
  | ofNat m => exact digit h
  | negSucc m =>
    have happend : (toString (Int.negSucc m)).toList = '-' :: (m + 1).repr.toList := String.toList_append
    rw [happend] at h
    exact (List.mem_cons.mp h).elim .inr digit

theorem toString_ne_nil (n : Int) : (toString n).toList ≠ [] := by
  cases n with
  | ofNat m =>
    have hdigits : (toString (Int.ofNat m)).toList = Nat.toDigits 10 m := Nat.toList_repr
    rw [hdigits]
    exact Nat.toDigits_ne_nil
  | negSucc m => exact fun h => List.cons_ne_nil _ _ (String.toList_append.symm.trans h)

theorem toString_append_injective {m n : Int} {rest rest' : List Char} (he : Ends rest) (he' : Ends rest')
    (h : (toString m).toList ++ rest = (toString n).toList ++ rest') : m = n ∧ rest = rest' := by
  have stops {rest : List Char} (he : Ends rest) : ∀ c ∈ rest.head?, ¬IsCountChar c := by
    intro c hc
    rcases he c hc with rfl | rfl | rfl <;> simp [IsCountChar]
  obtain ⟨htext, hrest⟩ :=
    Text.append_injective_of_forall isCountChar_of_mem isCountChar_of_mem (stops he) (stops he') h
  exact ⟨Int.repr_injective (String.toList_injective htext), hrest⟩

/-! ### Lists of parts -/

theorem intercalate_cons (x : List Char) (xs : List (List Char)) :
    [','].intercalate (x :: xs) = x ++ xs.flatMap fun y => ',' :: y := by
  induction xs generalizing x with
  | nil => simp
  | cons y xs ih => rw [List.intercalate_cons_cons, ih, List.flatMap_cons]; simp

/-- Whether parts can be told off the front of texts, up to what ends them. -/
def Splits {α : Type} (f : α → List Char) (a b : α) : Prop :=
  ∀ rest rest' : List Char, Ends rest → Ends rest' → f a ++ rest = f b ++ rest' → a = b ∧ rest = rest'

section Parts

variable {α : Type} {f : α → List Char} {close : Char} {rest rest' : List Char}

theorem ends_flatMap (hclose : ∀ rest, Ends (close :: rest)) (as : List α) : Ends ((as.flatMap fun a => ',' :: f a) ++ close :: rest) := by
  cases as with
  | nil => exact hclose rest
  | cons a as =>
    intro c hc
    exact .inl (Option.some.inj hc).symm

/-- Parts with commas in front, up to a character that is no comma. -/
theorem flatMap_injective (hclose : ∀ rest, Ends (close :: rest)) (hcomma : close ≠ ',') : ∀ {as bs : List α},
    (∀ a ∈ as, ∀ b ∈ bs, Splits f a b) →
    (as.flatMap fun a => ',' :: f a) ++ close :: rest = (bs.flatMap fun b => ',' :: f b) ++ close :: rest' →
      as = bs ∧ rest = rest'
  | [], [], _, h => ⟨rfl, (List.cons.inj h).2⟩
  | [], b :: bs, _, h => absurd (List.cons.inj h).1 hcomma
  | a :: as, [], _, h => absurd (List.cons.inj h).1.symm hcomma
  | a :: as, b :: bs, hs, h => by
    rw [List.flatMap_cons, List.flatMap_cons, List.append_assoc, List.append_assoc] at h
    obtain ⟨rfl, hmore⟩ := hs a List.mem_cons_self b List.mem_cons_self _ _ (ends_flatMap hclose as) (ends_flatMap hclose bs)
      (List.cons.inj h).2
    obtain ⟨rfl, hrest⟩ := flatMap_injective hclose hcomma
      (fun a ha b hb => hs a (List.mem_cons_of_mem _ ha) b (List.mem_cons_of_mem _ hb)) hmore
    exact ⟨rfl, hrest⟩

/-- Parts with commas between them, up to a character that none of them begins with. -/
theorem intercalate_injective (hclose : ∀ rest, Ends (close :: rest)) (hcomma : close ≠ ',') {as bs : List α}
    (hs : ∀ a ∈ as, ∀ b ∈ bs, Splits f a b) (ha : ∀ a ∈ as, ∃ c cs, f a = c :: cs ∧ c ≠ close)
    (hb : ∀ b ∈ bs, ∃ c cs, f b = c :: cs ∧ c ≠ close)
    (h : [','].intercalate (as.map f) ++ close :: rest = [','].intercalate (bs.map f) ++ close :: rest') :
    as = bs ∧ rest = rest' := by
  cases as with
  | nil =>
    cases bs with
    | nil => exact ⟨rfl, (List.cons.inj h).2⟩
    | cons b bs =>
      obtain ⟨c, cs, hc, hne⟩ := hb b List.mem_cons_self
      rw [List.map_cons, intercalate_cons, hc] at h
      exact absurd (List.cons.inj h).1.symm hne
  | cons a as =>
    cases bs with
    | nil =>
      obtain ⟨c, cs, hc, hne⟩ := ha a List.mem_cons_self
      rw [List.map_cons, intercalate_cons, hc] at h
      exact absurd (List.cons.inj h).1 hne
    | cons b bs =>
      rw [List.map_cons, List.map_cons, intercalate_cons, intercalate_cons, List.flatMap_map, List.flatMap_map,
        List.append_assoc, List.append_assoc] at h
      obtain ⟨rfl, hmore⟩ := hs a List.mem_cons_self b List.mem_cons_self _ _ (ends_flatMap hclose as) (ends_flatMap hclose bs) h
      obtain ⟨rfl, hrest⟩ := flatMap_injective hclose hcomma
        (fun a ha b hb => hs a (List.mem_cons_of_mem _ ha) b (List.mem_cons_of_mem _ hb)) hmore
      exact ⟨rfl, hrest⟩

end Parts

/-! ### Values -/

/-- The name that marks a big integer. -/
def bigMark : String := "__bigint__"

/-- Values whose text tells them: numbers may be rounded, and a record may look like a big integer. -/
inductive Plain : Value → Prop
  | null : Plain .null
  | bool (b : Bool) : Plain (.bool b)
  | count (n : Int) : Plain (.count n)
  | big (n : Int) : Plain (.big n)
  | text (s : String) : Plain (.text s)
  | list {items : List Value} : (∀ v ∈ items, Plain v) → Plain (.list items)
  | record {fields : List (String × Value)} : (∀ e ∈ fields, e.1 ≠ bigMark) → (∀ e ∈ fields, Plain e.2) →
      Plain (.record fields)

attribute [simp] Plain.null Plain.bool Plain.count Plain.big Plain.text

/-- The characters of the canonical text. -/
def chars (v : Value) : List Char := v.canonical.toList

/-- The characters of an entry of a record. -/
def entryChars (e : String × Value) : List Char := (quote e.1).toList ++ ':' :: e.2.chars

theorem canonicalItems_eq : ∀ items : List Value, canonicalItems items = items.map canonical
  | [] => rfl
  | v :: items => by rw [canonicalItems, canonicalItems_eq items, List.map_cons]

theorem canonicalFields_eq : ∀ fields : List (String × Value),
    canonicalFields fields = fields.map fun e => quote e.1 ++ ":" ++ e.2.canonical
  | [] => rfl
  | e :: fields => by rw [canonicalFields, canonicalFields_eq fields, List.map_cons]

theorem chars_list (items : List Value) :
    (Value.list items).chars = '[' :: ([','].intercalate (items.map chars) ++ [']']) := by
  rw [chars, canonical, canonicalItems_eq]
  simp only [String.toList_append, String.toList_intercalate, List.map_map]
  rfl

theorem chars_record (fields : List (String × Value)) :
    (Value.record fields).chars = '\x7b' :: ([','].intercalate (fields.map entryChars) ++ ['\x7d']) := by
  have hentries : fields.map (String.toList ∘ fun e => quote e.1 ++ ":" ++ e.2.canonical) = fields.map entryChars := by
    refine List.map_congr_left fun e _ => ?_
    simp [entryChars, chars]
  rw [chars, canonical, canonicalFields_eq]
  simp only [String.toList_append, String.toList_intercalate, List.map_map, hentries]
  rfl

/-- A big integer is written as a record with its mark. -/
theorem chars_big (n : Int) :
    (Value.big n).chars = '\x7b' :: (entryChars (bigMark, .text (Text.hex n)) ++ ['\x7d']) := by
  have hmark : (quote bigMark).toList = "\"__bigint__\"".toList := by decide +kernel
  rw [chars, canonical, entryChars, hmark]
  simp [chars, canonical]

/-- What the first character of a value tells. -/
inductive Kind where
  | null
  | bool
  | count
  | text
  | list
  | record

/-- The kind of values that begin with this character. -/
def Kind.of (c : Char) : Kind :=
  match c with
  | 'n' => .null
  | 't' | 'f' => .bool
  | '"' => .text
  | '[' => .list
  | '\x7b' => .record
  | _ => .count

/-- The kind of a value. -/
def kind : Value → Kind
  | .null => .null
  | .bool _ => .bool
  | .number _ | .count _ => .count
  | .text _ => .text
  | .list _ => .list
  | .big _ | .record _ => .record

theorem Kind.of_eq_count {c : Char} (h : IsCountChar c) : Kind.of c = .count := by
  rw [Kind.of]
  all_goals
    rintro rfl
    simp [IsCountChar] at h

/-- A value begins with a character of its kind, which is not the end of a list. -/
theorem Plain.exists_chars {v : Value} (hv : v.Plain) :
    ∃ c cs, v.chars = c :: cs ∧ Kind.of c = v.kind ∧ c ≠ ']' := by
  cases hv with
  | null => exact ⟨'n', _, rfl, rfl, by decide⟩
  | bool b =>
    cases b
    · exact ⟨'f', _, rfl, rfl, by decide⟩
    · exact ⟨'t', _, rfl, rfl, by decide⟩
  | count n =>
    cases h : (toString n).toList with
    | nil => exact absurd h (toString_ne_nil n)
    | cons c cs =>
      have hc : IsCountChar c := isCountChar_of_mem c (h ▸ List.mem_cons_self)
      refine ⟨c, cs, h, Kind.of_eq_count hc, ?_⟩
      rintro rfl
      simp [IsCountChar] at hc
  | big n => exact ⟨'\x7b', _, chars_big n, rfl, by decide⟩
  | text s => exact ⟨'"', _, toList_quote s, rfl, by decide⟩
  | list => exact ⟨'[', _, chars_list _, rfl, by decide⟩
  | record => exact ⟨'\x7b', _, chars_record _, rfl, by decide⟩

theorem Plain.kind_eq {v w : Value} (hv : v.Plain) (hw : w.Plain) {rest rest' : List Char}
    (h : v.chars ++ rest = w.chars ++ rest') : v.kind = w.kind := by
  obtain ⟨c, cs, hc, hkind, -⟩ := hv.exists_chars
  obtain ⟨d, ds, hd, hkind', -⟩ := hw.exists_chars
  rw [hc, hd] at h
  rw [← hkind, ← hkind', (List.cons.inj h).1]

theorem splits_entryChars {e e' : String × Value} (h : Splits chars e.2 e'.2) : Splits entryChars e e' := by
  intro rest rest' hr hr' heq
  simp only [entryChars, List.append_assoc] at heq
  obtain ⟨hname, heq⟩ := quote_append_injective heq
  obtain ⟨hvalue, hrest⟩ := h _ _ hr hr' (List.cons.inj heq).2
  exact ⟨Prod.ext hname hvalue, hrest⟩

theorem splits_text (s t : String) : Splits chars (.text s) (.text t) := by
  intro rest rest' _ _ h
  obtain ⟨rfl, hrest⟩ := quote_append_injective h
  exact ⟨rfl, hrest⟩

theorem splits_big (m n : Int) : Splits chars (.big m) (.big n) := by
  intro rest rest' _ _ h
  have hsplits : Splits entryChars (bigMark, .text (Text.hex m)) (bigMark, .text (Text.hex n)) :=
    splits_entryChars (splits_text _ _)
  rw [chars_big, chars_big, List.cons_append, List.cons_append, List.append_assoc, List.append_assoc] at h
  obtain ⟨hentry, hrest⟩ := hsplits _ _ (ends_brace _) (ends_brace _) (List.cons.inj h).2
  have htext : Value.text (Text.hex m) = .text (Text.hex n) := congrArg Prod.snd hentry
  obtain rfl := Text.hex_injective (Value.text.inj htext)
  exact ⟨rfl, (List.cons.inj hrest).2⟩

/-- No record of a plain value looks like a big integer. -/
theorem chars_record_ne_big {fields : List (String × Value)} (hnames : ∀ e ∈ fields, e.1 ≠ bigMark) (n : Int)
    (rest rest' : List Char) : (Value.record fields).chars ++ rest ≠ (Value.big n).chars ++ rest' := by
  intro h
  rw [chars_record, chars_big] at h
  cases fields with
  | nil =>
    rw [entryChars, toList_quote] at h
    cases h
  | cons e fields =>
    rw [List.map_cons, intercalate_cons, entryChars, entryChars] at h
    simp only [List.cons_append, List.append_assoc] at h
    exact hnames e List.mem_cons_self (quote_append_injective (List.cons.inj h).2).1

/-- Of two texts that begin with plain values, and agree, the values are the same and so is what follows. -/
theorem Plain.splits {v w : Value} (hv : v.Plain) (hw : w.Plain) : Splits chars v w := by
  induction hv generalizing w with
  | null =>
    intro rest rest' _ _ h
    have hkind := Plain.kind_eq .null hw h
    cases hw with
    | null => exact ⟨rfl, List.append_cancel_left h⟩
    | _ => cases hkind
  | bool b =>
    intro rest rest' _ _ h
    have hkind := Plain.kind_eq (.bool b) hw h
    cases hw with
    | bool b' =>
      cases b <;> cases b'
      case false.false | true.true => exact ⟨rfl, List.append_cancel_left h⟩
      all_goals cases h
    | _ => cases hkind
  | count n =>
    intro rest rest' hr hr' h
    have hkind := Plain.kind_eq (.count n) hw h
    cases hw with
    | count n' =>
      obtain ⟨rfl, hrest⟩ := toString_append_injective hr hr' h
      exact ⟨rfl, hrest⟩
    | _ => cases hkind
  | big n =>
    intro rest rest' hr hr' h
    have hkind := Plain.kind_eq (.big n) hw h
    cases hw with
    | big n' => exact splits_big n n' _ _ hr hr' h
    | record hnames _ => exact absurd h.symm (chars_record_ne_big hnames n rest' rest)
    | _ => cases hkind
  | text s =>
    intro rest rest' hr hr' h
    have hkind := Plain.kind_eq (.text s) hw h
    cases hw with
    | text s' => exact splits_text s s' _ _ hr hr' h
    | _ => cases hkind
  | @list items hitems ih =>
    intro rest rest' _ _ h
    have hkind := Plain.kind_eq (.list hitems) hw h
    cases hw with
    | @list items' hitems' =>
      rw [chars_list, chars_list] at h
      simp only [List.cons_append, List.append_assoc, List.nil_append] at h
      have begins {items : List Value} (hitems : ∀ v ∈ items, Plain v) :
          ∀ v ∈ items, ∃ c cs, v.chars = c :: cs ∧ c ≠ ']' := fun v hv =>
        let ⟨c, cs, hc, _, hne⟩ := (hitems v hv).exists_chars
        ⟨c, cs, hc, hne⟩
      obtain ⟨rfl, hrest⟩ := intercalate_injective ends_bracket (by decide) (fun v hv v' hv' => ih v hv (hitems' v' hv'))
        (begins hitems) (begins hitems') (List.cons.inj h).2
      exact ⟨rfl, hrest⟩
    | _ => cases hkind
  | @record fields hnames hvalues ih =>
    intro rest rest' _ _ h
    have hkind := Plain.kind_eq (.record hnames hvalues) hw h
    cases hw with
    | big n => exact absurd h (chars_record_ne_big hnames n rest rest')
    | @record fields' hnames' hvalues' =>
      rw [chars_record, chars_record] at h
      simp only [List.cons_append, List.append_assoc, List.nil_append] at h
      have begins (fields : List (String × Value)) : ∀ e ∈ fields, ∃ c cs, entryChars e = c :: cs ∧ c ≠ '\x7d' :=
        fun e _ => ⟨'"', _, by rw [entryChars, toList_quote]; rfl, by decide⟩
      obtain ⟨rfl, hrest⟩ := intercalate_injective ends_brace (by decide)
        (fun e he e' he' => splits_entryChars (ih e he (hvalues' e' he'))) (begins fields) (begins fields')
        (List.cons.inj h).2
      exact ⟨rfl, hrest⟩
    | _ => cases hkind

/-- Plain values with the same canonical text are the same. -/
theorem Plain.eq_of_canonical_eq {v w : Value} (hv : v.Plain) (hw : w.Plain) (h : v.canonical = w.canonical) : v = w := by
  have ends : Ends [] := fun c hc => by cases hc
  refine (hv.splits hw [] [] ends ends ?_).1
  rw [chars, chars, h]

/-! ### Counts as numbers -/

mutual

/-- A value with its counts as numbers. -/
def numbered : Value → Value
  | .count n => .number (.whole n)
  | .list items => .list (numberedItems items)
  | .record fields => .record (numberedFields fields)
  | v => v

/-- The items of a list with their counts as numbers. -/
def numberedItems : List Value → List Value
  | [] => []
  | v :: r => numbered v :: numberedItems r

/-- The entries of a record with their counts as numbers. -/
def numberedFields : List (String × Value) → List (String × Value)
  | [] => []
  | (name, v) :: r => (name, numbered v) :: numberedFields r

end

/-- Values whose counts need not be rounded. -/
inductive Exact : Value → Prop
  | null : Exact .null
  | bool (b : Bool) : Exact (.bool b)
  | number (n : Number) : Exact (.number n)
  | count {n : Int} : (Number.whole n).isExact = true → Exact (.count n)
  | big (n : Int) : Exact (.big n)
  | text (s : String) : Exact (.text s)
  | list {items : List Value} : (∀ v ∈ items, Exact v) → Exact (.list items)
  | record {fields : List (String × Value)} : (∀ e ∈ fields, Exact e.2) → Exact (.record fields)

theorem numberedItems_eq : ∀ items : List Value, numberedItems items = items.map numbered
  | [] => rfl
  | v :: items => by rw [numberedItems, numberedItems_eq items, List.map_cons]

theorem numberedFields_eq : ∀ fields : List (String × Value),
    numberedFields fields = fields.map fun e => (e.1, e.2.numbered)
  | [] => rfl
  | e :: fields => by rw [numberedFields, numberedFields_eq fields, List.map_cons]

/-- Counts that need not be rounded are written as the numbers that they are. -/
theorem Exact.canonical_numbered {v : Value} (h : v.Exact) : v.numbered.canonical = v.canonical := by
  induction h with
  | null | bool | number | big | text => rfl
  | @count n hn =>
    rw [numbered, canonical, canonical, Number.rounded_of_isExact hn]
    simp [Number.text, hn]
  | @list items _ ih =>
    rw [numbered, canonical, canonical, canonicalItems_eq, canonicalItems_eq, numberedItems_eq, List.map_map]
    exact congrArg (fun texts => "[" ++ ",".intercalate texts ++ "]") (List.map_congr_left ih)
  | @record fields _ ih =>
    rw [numbered, canonical, canonical, canonicalFields_eq, canonicalFields_eq, numberedFields_eq, List.map_map]
    refine congrArg (fun texts => "\x7b" ++ ",".intercalate texts ++ "\x7d") (List.map_congr_left fun e he => ?_)
    rw [Function.comp_apply, ih e he]

end Value

end Litmus
