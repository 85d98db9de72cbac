import Litmus.Fault
import Litmus.Proofs.Text.Pattern
import Litmus.Proofs.Value.Canonical

/-!
The messages of diagnostics. Numbers of either kind go into a template as they are, and so do texts, as long as they have
no pattern and bring in no place that is still to be filled. Main fact: the message is then the template with all its
places filled at once, in whatever order the parameters are given; and without braces in names and texts it is so exactly
when no text has a pattern.
-/

namespace Litmus

/-! ### The texts of numbers -/

namespace Number

/-- The characters of the texts of numbers. -/
def IsTextChar (c : Char) : Prop := c.isDigit = true ∨ c ∈ ['+', '-', '.', 'e', 'I', 'n', 'f', 'i', 't', 'y']
  deriving Decidable

theorem isTextChar_of_toDigits {n : Nat} : ∀ c ∈ Nat.toDigits 10 n, IsTextChar c :=
  fun _ hc => .inl (Nat.isDigit_of_mem_toDigits (by decide) (by decide) hc)

theorem isTextChar_of_layOut {ds : List Char} (hds : ∀ c ∈ ds, IsTextChar c) (point : Int) :
    ∀ c ∈ layOut ds point, IsTextChar c := by
  have zeros (n : Nat) : ∀ c ∈ List.replicate n '0', IsTextChar c :=
    fun c hc => .inl (List.eq_of_mem_replicate hc ▸ rfl)
  have taken (n : Nat) : ∀ c ∈ ds.take n, IsTextChar c := fun c hc => hds c (List.mem_of_mem_take hc)
  have dropped (n : Nat) : ∀ c ∈ ds.drop n, IsTextChar c := fun c hc => hds c (List.mem_of_mem_drop hc)
  have dot : IsTextChar '.' := .inr (by decide)
  rw [layOut]
  split
  · exact List.forall_mem_append.mpr ⟨hds, zeros _⟩
  · split
    · exact List.forall_mem_append.mpr ⟨taken _, List.forall_mem_cons.mpr ⟨dot, dropped _⟩⟩
    · split
      · refine List.forall_mem_append.mpr ⟨?_, hds⟩
        exact List.forall_mem_cons.mpr ⟨.inl rfl, List.forall_mem_cons.mpr ⟨dot, zeros _⟩⟩
      · refine List.forall_mem_append.mpr ⟨?_, isTextChar_of_toDigits⟩
        refine List.forall_mem_append.mpr ⟨List.forall_mem_append.mpr ⟨taken 1, ?_⟩, ?_⟩
        · split
          · exact fun _ hc => absurd hc List.not_mem_nil
          · exact List.forall_mem_cons.mpr ⟨dot, dropped 1⟩
        · split <;> exact List.forall_mem_cons.mpr ⟨.inr (by decide), by simp [IsTextChar]⟩

theorem text_cases (n : Number) :
    (∃ m : Int, n.text = toString m) ∨ n.text = (if n.digits < 0 then "-" else "") ++ binaryText n.nearest := by
  unfold text
  generalize n.isExact = exact
  cases exact with
  | false => exact .inr rfl
  | true =>
    cases n with
    | whole m => exact .inl ⟨m, rfl⟩
    | fraction digits places => exact .inr rfl
    | infinite negative => exact .inr rfl

theorem isTextChar_of_binaryText (b : Option Binary) : ∀ c ∈ (binaryText b).toList, IsTextChar c := by
  cases b with
  | none => simp [binaryText, IsTextChar]
  | some b =>
    rw [binaryText]
    split
    · simp [IsTextChar]
    · rw [String.toList_ofList, Decimal.text]
      refine isTextChar_of_layOut (fun c hc => ?_) _
      rw [List.mem_reverse] at hc
      exact isTextChar_of_toDigits c (List.mem_reverse.mp ((List.dropWhile_sublist _).mem hc))

theorem isTextChar_of_text (n : Number) : ∀ c ∈ n.text.toList, IsTextChar c := by
  rcases n.text_cases with ⟨m, hm⟩ | hn
  · rw [hm]
    intro c hc
    rcases Value.isCountChar_of_mem c hc with hc | rfl
    · exact .inl hc
    · exact .inr (by decide)
  · rw [hn, String.toList_append]
    refine List.forall_mem_append.mpr ⟨?_, isTextChar_of_binaryText _⟩
    split <;> simp [IsTextChar]

end Number

/-- Numbers are shown without dollar signs and braces. -/
theorem Param.not_mem_shown {p : Param} (hp : ∀ s, p ≠ .text s) : '$' ∉ p.shown.toList ∧ '\x7b' ∉ p.shown.toList := by
  cases p with
  | text s => exact absurd rfl (hp s)
  | number n =>
    have hn := n.isTextChar_of_text
    exact ⟨fun h => absurd (hn _ h) (by decide), fun h => absurd (hn _ h) (by decide)⟩
  | big n =>
    have hn : ∀ c ∈ (Param.big n).shown.toList, c ∈ ['0', 'x'] ++ Text.hexChars := by
      rw [shown, Text.hexWord, String.toList_append, String.toList_ofList]
      exact List.forall_mem_append.mpr
        ⟨fun _ hc => List.mem_append_left _ hc, fun _ hc => List.mem_append_right _ (Text.mem_of_mem_hex hc)⟩
    exact ⟨fun h => absurd (hn _ h) (by decide +kernel), fun h => absurd (hn _ h) (by decide +kernel)⟩

/-! ### Templates of codes -/

namespace Code

/-- The parts of a code's template. -/
def parts (code : Code) : List Text.Piece := Text.pieces code.template.toList

/-- Whether a code's template has a place for a parameter. -/
def HasPlace (code : Code) (name : String) : Prop := .place name.toList ∈ code.parts
  deriving Decidable

theorem spaced_parts (code : Code) : Text.Spaced code.parts := by
  rw [parts]
  cases code <;> rw [template, String.toList_ofList] <;> decide

end Code

/-! ### Messages -/

namespace Diagnostic

/-- The parameters as they are shown. -/
def fillings (params : Record Param) : List (String × String) := Record.map Param.shown params

/-- The template of a code with all its places filled at once, each with its parameter as it is shown. -/
def literal (code : Code) (params : Record Param) : String := Text.literal code.template (fillings params)

variable {code : Code} {params : Record Param}

theorem mem_fillings {e : String × String} : e ∈ fillings params ↔ ∃ p, (e.1, p) ∈ params ∧ p.shown = e.2 := by
  rw [fillings, Record.map, List.mem_map]
  constructor
  · rintro ⟨⟨name, p⟩, hp, rfl⟩
    exact ⟨p, hp, rfl⟩
  · rintro ⟨p, hp, hshown⟩
    exact ⟨_, hp, Prod.ext rfl hshown⟩

theorem map_fst_fillings (params : Record Param) : (fillings params).map Prod.fst = List.map Prod.fst params := List.map_map

/-- What is known of the texts among the parameters, and of numbers, is known of all that fills the places. -/
theorem forall_fillings (code : Code) (params : Record Param) {P : List Char → Prop} (hnumber : ∀ s, '$' ∉ s → '\x7b' ∉ s → P s) :
    (∀ e ∈ fillings params, .place e.1.toList ∈ code.parts → P e.2.toList) ↔
      ∀ name s, (name, .text s) ∈ params → code.HasPlace name → P s.toList := by
  constructor
  · intro h name s hs
    exact h (name, s) (mem_fillings.mpr ⟨_, hs, rfl⟩)
  · intro h e he hplace
    obtain ⟨p, hp, hshown⟩ := mem_fillings.mp he
    rw [← hshown]
    cases p with
    | text s => exact h _ _ hp hplace
    | number n => exact (Param.not_mem_shown (by simp)).elim (hnumber _)
    | big n => exact (Param.not_mem_shown (by simp)).elim (hnumber _)

/-- The order of the parameters makes no difference to the literal message. -/
theorem literal_perm {other : Record Param} (h : other.Perm params) (hnames : (List.map Prod.fst params).Nodup) :
    literal code other = literal code params := by
  have hother : ((fillings other).map Prod.fst).Nodup := by
    rw [map_fst_fillings]
    exact (h.map Prod.fst).nodup_iff.mpr hnames
  have hperm : (fillings other).Perm (fillings params) := h.map _
  rw [literal, literal, Text.literal, Text.literal, Text.looked_perm hperm hother]

/-- A parameter that the template has a place for is in the literal message as it is shown. -/
theorem shown_infix_literal (hnames : (List.map Prod.fst params).Nodup) {name : String} {p : Param} (hp : (name, p) ∈ params)
    (hplace : code.HasPlace name) : p.shown.toList <:+: (literal code params).toList := by
  have hlooked : Text.looked (fillings params) name.toList = some p.shown.toList :=
    (Text.looked_eq_some_iff (map_fst_fillings params ▸ hnames)).mpr (mem_fillings.mpr ⟨p, hp, rfl⟩)
  rw [literal, Text.literal, String.toList_ofList]
  exact Text.infix_filled hplace hlooked

/-- What the message of a diagnostic holds of its parameters, whose names are told apart. In the template with all its
places filled at once each parameter with a place is there as it is shown. If no text with a place has a pattern, the
message is that, in every order of the parameters in which no place is met before its turn. And without braces, closing
ones in names and opening ones in texts with a place, the message is that exactly when no text with a place has a
pattern. -/
theorem message_exact (code : Code) (params : Record Param) (hnames : (List.map Prod.fst params).Nodup) :
    (∀ name p, (name, p) ∈ params → code.HasPlace name → p.shown.toList <:+: (literal code params).toList) ∧
    ((∀ name s, (name, .text s) ∈ params → code.HasPlace name → Text.Inert s.toList) →
      ∀ other : Record Param, other.Perm params → Text.InTurn code.parts (fillings other) →
        (make code (some other)).message = literal code params) ∧
    ((∀ e ∈ params, '\x7d' ∉ e.1.toList) →
      (∀ name s, (name, .text s) ∈ params → code.HasPlace name → '\x7b' ∉ s.toList) →
      ((make code (some params)).message = literal code params ↔
        ∀ name s, (name, .text s) ∈ params → code.HasPlace name → Text.Inert s.toList)) := by
  have inert (params : Record Param) := forall_fillings code params fun _ h _ => Text.inert_of_not_mem h
  refine ⟨fun _ _ => shown_infix_literal hnames, ?_, ?_⟩
  · intro hinert other hperm hturn
    have hother : (List.map Prod.fst other).Nodup := (hperm.map Prod.fst).nodup_iff.mpr hnames
    rw [← literal_perm hperm hnames]
    refine Text.fill_eq_literal code.spaced_parts.toRegular (map_fst_fillings other ▸ hother) hturn ((inert other).mpr ?_)
    exact fun name s hs => hinert name s (hperm.mem_iff.mp hs)
  · intro hclosed hbrace
    rw [← inert params]
    refine Text.fill_eq_literal_iff code.spaced_parts ⟨map_fst_fillings params ▸ hnames, ?_, ?_⟩
    · intro e he
      obtain ⟨p, hp, -⟩ := mem_fillings.mp he
      exact hclosed _ hp
    · exact (forall_fillings code params fun _ _ h => h).mpr hbrace

/-- Parameters of which one spells the place of the other, and a dollar sign that begins no pattern. -/
def oddKind : Record Param := [("size", .number 4), ("kind", .text "$1{size}")]

/-- A name that is a pattern. -/
def dollarName : Record Param := [("reg", .text "$&")]

theorem message_exact_oddKind :
    (List.map Prod.fst oddKind).Nodup ∧ (List.map Prod.fst dollarName).Nodup ∧
    (make .accessSize (some oddKind)).message = "Access size 4 unsupported for $1{size} access" ∧
    (make .accessSize (some oddKind.reverse)).message = "Access size 4 unsupported for $1{size} access" ∧
    (make .unknownRegister (some dollarName)).message ≠ literal .unknownRegister dollarName := by
  have hodd : (List.map Prod.fst oddKind).Nodup := by decide +kernel
  have hdollar : (List.map Prod.fst dollarName).Nodup := by decide +kernel
  obtain ⟨-, hliteral, -⟩ := message_exact .accessSize oddKind hodd
  obtain ⟨-, -, hiff⟩ := message_exact .unknownRegister dollarName hdollar
  have hinert : ∀ name s, (name, Param.text s) ∈ oddKind → Code.accessSize.HasPlace name → Text.Inert s.toList := by
    intro name s hs _
    obtain ⟨-, rfl⟩ : name = "kind" ∧ s = "$1{size}" := by simpa [oddKind] using hs
    decide +kernel
  have htext : literal .accessSize oddKind = "Access size 4 unsupported for $1{size} access" := by decide +kernel
  refine ⟨hodd, hdollar, ?_, ?_, ?_⟩
  · exact (hliteral hinert oddKind (.refl _) (by decide +kernel)).trans htext
  · exact (hliteral hinert oddKind.reverse (List.reverse_perm _) (by decide +kernel)).trans htext
  · rw [ne_eq, hiff (by decide +kernel)]
    · exact fun h => absurd (h "reg" "$&" List.mem_cons_self (by decide +kernel)) (by decide +kernel)
    · intro name s hs _
      obtain ⟨-, rfl⟩ : name = "reg" ∧ s = "$&" := by simpa [dollarName] using hs
      decide +kernel

/-- A pattern is carried out, and a text that spells a place that is still to be filled is filled itself, so the message
is not always the template filled literally, and not always the same in every order of the parameters. -/
theorem exists_message_not_literal :
    (make .unknownRegister (some dollarName)).message = "Unknown register: {reg}" ∧
    literal .unknownRegister dollarName = "Unknown register: $&" ∧
    (make .accessSize (some [("size", .text "{kind}"), ("kind", .text "plain")])).message =
      "Access size plain unsupported for {kind} access" ∧
    (make .accessSize (some [("kind", .text "plain"), ("size", .text "{kind}")])).message =
      "Access size {kind} unsupported for plain access" := by decide +kernel

end Diagnostic

end Litmus
