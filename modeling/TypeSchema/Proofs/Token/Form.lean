import Mathlib.Data.List.Basic
import TypeSchema.Proofs.Token.Place
import TypeSchema.Proofs.Token.Printed

/-!
# The forms of tokens

The token at the front of a text has one of a few forms: a word or a number, as long as it can be, a
literal to its closing quote, a line break, a space or a mark. Where the text begins with none of
these, the token is its first character. At most one form fits, and it fits at one length only, so a
text can be cut into tokens in one way, and `scan` finds it.
-/

namespace TypeSchema.Token

variable {c : Char} {chars other text rest : List Char} {l : Location}

-- ---------------------------------------------------------------------------
-- Words and numbers
-- ---------------------------------------------------------------------------

def IsSmall (c : Char) : Prop := 'a' ≤ c ∧ c ≤ 'z'

def IsCapital (c : Char) : Prop := 'A' ≤ c ∧ c ≤ 'Z'

def IsDecimal (c : Char) : Prop := '0' ≤ c ∧ c ≤ '9'

/-- A character that may come in a word after the first. -/
def Continues (c : Char) : Prop := IsSmall c ∨ IsCapital c ∨ IsDecimal c ∨ c = '_'

/-- A character that satisfies `first`, and then any number of those that satisfy `later`. -/
def Run (first later : Char → Prop) (chars : List Char) : Prop :=
  ∃ c rest, chars = c :: rest ∧ first c ∧ ∀ d ∈ rest, later d

/-- As a pattern: `[a-z_][a-zA-Z0-9_]*`. -/
def IsSymbol : List Char → Prop := Run (fun c => IsSmall c ∨ c = '_') Continues

/-- As a pattern: `[A-Z][a-zA-Z0-9_]*`. -/
def IsName : List Char → Prop := Run IsCapital Continues

/-- As a pattern: `[0-9]+`. -/
def IsDigits : List Char → Prop := Run IsDecimal IsDecimal

theorem isSmall_iff : c.isLower ↔ IsSmall c := by
  show (decide ('a'.val ≤ c.val) && decide (c.val ≤ 'z'.val)) = true ↔ _
  rw [Bool.and_eq_true, decide_eq_true_eq, decide_eq_true_eq]
  rfl

theorem isCapital_iff : c.isUpper ↔ IsCapital c := by
  show decide ('A'.val ≤ c.val ∧ c.val ≤ 'Z'.val) = true ↔ _
  rw [decide_eq_true_eq]
  rfl

theorem isDecimal_iff : c.isDigit ↔ IsDecimal c := by
  show (decide ('0'.val ≤ c.val) && decide (c.val ≤ '9'.val)) = true ↔ _
  rw [Bool.and_eq_true, decide_eq_true_eq, decide_eq_true_eq]
  rfl

theorem continues_iff : isWordChar c ↔ Continues c := by
  show (c.isUpper || c.isLower || c.isDigit || decide (c = '_')) = true ↔ _
  simp only [Bool.or_eq_true, isSmall_iff, isCapital_iff, isDecimal_iff, decide_eq_true_eq,
    Continues]
  tauto

theorem IsCapital.not_small (h : IsCapital c) : ¬(IsSmall c ∨ c = '_') := by
  rintro (⟨small, -⟩ | rfl)
  · exact absurd (Char.le_trans small h.2) (by decide)
  · exact absurd h.2 (by decide)

theorem wordKind?_symbol : wordKind? c = some .symbol ↔ IsSmall c ∨ c = '_' := by
  rw [← isSmall_iff]
  by_cases h : c.isLower ∨ c = '_' <;> simp [wordKind?, h]

theorem wordKind?_name : wordKind? c = some .name ↔ IsCapital c := by
  by_cases h : IsSmall c ∨ c = '_'
  · simpa [wordKind?_symbol.mpr h] using fun capital => IsCapital.not_small capital h
  · rw [← isSmall_iff] at h
    simp [wordKind?, h, isCapital_iff]

theorem wordKind?_none : wordKind? c = none ↔ ¬(IsSmall c ∨ c = '_') ∧ ¬IsCapital c := by
  rw [← wordKind?_symbol, ← wordKind?_name]
  cases h : wordKind? c with
  | none => simp
  | some kind => rcases wordKind?_eq h with rfl | rfl <;> simp

theorem isWord_symbol : IsWord .symbol chars ↔ IsSymbol chars := by
  simp only [IsWord, IsSymbol, Run, wordKind?_symbol, continues_iff]

theorem isWord_name : IsWord .name chars ↔ IsName chars := by
  simp only [IsWord, IsName, Run, wordKind?_name, continues_iff]

-- ---------------------------------------------------------------------------
-- The longest beginning
-- ---------------------------------------------------------------------------

/-- The characters are the longest beginning of the text of which `P` holds. -/
structure Longest (P : List Char → Prop) (chars text : List Char) : Prop where
  begins : chars <+: text
  holds : P chars
  longest : ∀ other, other <+: text → P other → other.length ≤ chars.length

theorem Longest.unique {P : List Char → Prop} (h : Longest P chars text)
    (h' : Longest P other text) : chars = other := by
  have same := Nat.le_antisymm (h'.longest _ h.begins h.holds) (h.longest _ h'.begins h'.holds)
  exact (List.prefix_of_prefix_length_le h.begins h'.begins same.le).eq_of_length same

theorem longest_run {first later : Char → Prop} {p : Char → Bool} (hp : ∀ d, p d ↔ later d)
    (hc : first c) (rest : List Char) :
    Longest (Run first later) (c :: rest.takeWhile p) (c :: rest) where
  begins := List.cons_prefix_cons.mpr ⟨rfl, List.takeWhile_prefix p⟩
  holds := ⟨c, _, rfl, hc, fun d hd => (hp d).mp (List.all_eq_true.mp List.all_takeWhile d hd)⟩
  longest := by
    rintro _ begins ⟨d, more, rfl, -, hmore⟩
    obtain ⟨rfl, tail, rfl⟩ := List.cons_prefix_cons.mp begins
    rw [List.takeWhile_append_of_pos fun e he => (hp e).mpr (hmore e he)]
    simp

theorem Longest.first {first later : Char → Prop}
    (h : Longest (Run first later) chars (c :: rest)) : first c := by
  obtain ⟨d, more, rfl, hd, -⟩ := h.holds
  obtain ⟨rfl, -⟩ := List.cons_prefix_cons.mp h.begins
  exact hd

-- ---------------------------------------------------------------------------
-- Forms
-- ---------------------------------------------------------------------------

/-- What the token at the front of a text may be. -/
inductive Form where
  | symbol
  | name
  | text
  /-- a literal that is not closed -/
  | openText
  | natural
  /-- a number that does not fit -/
  | overflow
  | crlf
  | newline
  | space
  | mark (m : Mark)

namespace Form

def kind : Form → Kind
  | .symbol => .symbol
  | .name => .name
  | .text => .text
  | .natural => .natural
  | .crlf => .crlf
  | .newline => .newline
  | .space => .space
  | .mark m => .mark m
  | .openText | .overflow => .invalid

/-- The text begins with `chars`, and they are the token of this form. -/
def Fits : Form → List Char → List Char → Prop
  | .symbol, chars, text => Longest IsSymbol chars text
  | .name, chars, text => Longest IsName chars text
  | .text, chars, text =>
    ∃ content, '"' ∉ content ∧ chars = '"' :: content ++ ['"'] ∧ chars <+: text
  | .openText, chars, text => chars = text ∧ ∃ rest, text = '"' :: rest ∧ '"' ∉ rest
  | .natural, chars, text => Longest IsDigits chars text ∧ Natural.value chars < UInt64.size
  | .overflow, chars, text => Longest IsDigits chars text ∧ UInt64.size ≤ Natural.value chars
  | .crlf, chars, text => chars = ['\r', '\n'] ∧ chars <+: text
  | .newline, chars, text => chars = ['\n'] ∧ chars <+: text
  | .space, chars, text => chars = [' '] ∧ chars <+: text
  | .mark m, chars, text => chars = [m.char] ∧ chars <+: text

end Form

/-- The token at the front of a text: of a form that fits, or else of one character. -/
def Begins (text chars : List Char) : Option Form → Prop
  | some form => form.Fits chars text
  | none => (∃ c rest, text = c :: rest ∧ chars = [c]) ∧ ∀ form chars, ¬Form.Fits form chars text

def kindOf : Option Form → Kind
  | some form => form.kind
  | none => .invalid

theorem Form.Fits.ne_nil {form : Form} (h : form.Fits chars text) : text ≠ [] := by
  rintro rfl
  have run {first later : Char → Prop} (h : Longest (Run first later) chars []) : False := by
    obtain ⟨c, rest, rfl, -⟩ := h.holds
    exact absurd h.begins (by simp)
  cases form with
  | symbol | name => exact run h
  | natural | overflow => exact run h.1
  | text =>
    obtain ⟨content, -, rfl, begins⟩ := h
    exact absurd begins (by simp)
  | openText =>
    obtain ⟨-, rest, hrest, -⟩ := h
    cases hrest
  | crlf | newline | space | mark m =>
    obtain ⟨rfl, begins⟩ := h
    exact absurd begins (by simp)

theorem lexeme_of_wordKind {kind : Kind} (h : wordKind? c = some kind) (rest : List Char) :
    lexeme c rest = .run isWordChar (fun _ => kind) c rest := by simp [lexeme, h]

theorem lexeme_of_digit (h : c.isDigit) (rest : List Char) :
    lexeme c rest = .run Char.isDigit
      (fun digits => if (Natural.word? digits).isSome then .natural else .invalid) c rest := by
  simp [lexeme, wordKind?_of_isDigit h, h]

theorem lexeme_of_open (h : '"' ∉ rest) : lexeme '"' rest = ⟨.invalid, '"' :: rest, []⟩ := by
  have opened : rest.dropWhile (fun d => decide (d ≠ '"')) = [] :=
    List.dropWhile_eq_nil_iff.mpr fun d hd => by simpa using ne_of_mem_of_not_mem hd h
  have hword : wordKind? '"' = none := by decide
  have hdigit : Char.isDigit '"' = false := by decide
  simp only [lexeme, hword, hdigit, opened, Bool.false_eq_true, if_false, if_true]

theorem word?_isSome (h : IsDigits chars) :
    (Natural.word? chars).isSome ↔ Natural.value chars < UInt64.size := by
  obtain ⟨c, rest, rfl, hc, hrest⟩ := h
  have digits : (c :: rest).all Char.isDigit := by
    simpa [isDecimal_iff] using ⟨hc, hrest⟩
  simp [Natural.word?, digits]

theorem Longest.lexeme_digits (h : Longest IsDigits chars (c :: rest)) :
    lexeme c rest = ⟨if Natural.value chars < UInt64.size then .natural else .invalid, chars,
      rest.dropWhile Char.isDigit⟩ := by
  have first : IsDecimal c := Longest.first h
  obtain rfl : c :: rest.takeWhile Char.isDigit = chars :=
    (longest_run (fun _ => isDecimal_iff) first rest).unique h
  rw [lexeme_of_digit (isDecimal_iff.mpr first), Lexeme.run]
  simp only [word?_isSome h.holds]

theorem Form.Fits.lexeme {form : Form} (h : form.Fits chars (c :: rest)) :
    (lexeme c rest).kind = form.kind ∧ (lexeme c rest).chars = chars := by
  cases form with
  | symbol =>
    have first := Longest.first h
    rw [lexeme_of_wordKind (wordKind?_symbol.mpr first)]
    exact ⟨rfl, (longest_run (fun _ => continues_iff) first rest).unique h⟩
  | name =>
    have first := Longest.first h
    rw [lexeme_of_wordKind (wordKind?_name.mpr first)]
    exact ⟨rfl, (longest_run (fun _ => continues_iff) first rest).unique h⟩
  | text =>
    obtain ⟨content, hcontent, rfl, after, hafter⟩ := h
    obtain ⟨rfl, rfl⟩ := List.cons.inj hafter
    simp [lexeme_text hcontent, kind]
  | openText =>
    obtain ⟨rfl, after, hafter, hopen⟩ := h
    obtain ⟨rfl, rfl⟩ := List.cons.inj hafter
    simp [lexeme_of_open hopen, kind]
  | natural =>
    obtain ⟨longest, fits⟩ := h
    simpa [longest.lexeme_digits, kind] using fits
  | overflow =>
    obtain ⟨longest, great⟩ := h
    simpa [longest.lexeme_digits, kind] using great
  | crlf =>
    obtain ⟨rfl, after, hafter⟩ := h
    obtain ⟨rfl, rfl⟩ := List.cons.inj hafter
    exact ⟨rfl, rfl⟩
  | newline | space =>
    obtain ⟨rfl, after, hafter⟩ := h
    obtain ⟨rfl, rfl⟩ := List.cons.inj hafter
    exact ⟨rfl, rfl⟩
  | mark m =>
    obtain ⟨rfl, after, hafter⟩ := h
    obtain ⟨rfl, rfl⟩ := List.cons.inj hafter
    simp [lexeme_mark, kind]

-- ---------------------------------------------------------------------------
-- The token at the front
-- ---------------------------------------------------------------------------

theorem Form.Fits.unique {form form' : Form} (h : form.Fits chars text)
    (h' : form'.Fits other text) (hkind : form.kind = form'.kind) : form = form' := by
  have quoteOrDigit {chars other : List Char} (h : Form.openText.Fits chars text)
      (h' : Form.overflow.Fits other text) : False := by
    obtain ⟨-, rest, rfl, -⟩ := h
    exact absurd (Longest.first h'.1) (by simp [IsDecimal])
  cases form <;> cases form' <;> simp only [Form.kind, reduceCtorEq, Kind.mark.injEq] at hkind ⊢
  · exact quoteOrDigit h h'
  · exact quoteOrDigit h' h
  · simp [hkind]

theorem lexeme_of_unfit (h : ∀ (form : Form) (chars : List Char), ¬form.Fits chars (c :: rest)) :
    lexeme c rest = ⟨.invalid, [c], rest⟩ := by
  have small : ¬(IsSmall c ∨ c = '_') := fun first =>
    h .symbol _ (longest_run (fun _ => continues_iff) first rest)
  have capital : ¬IsCapital c := fun first =>
    h .name _ (longest_run (fun _ => continues_iff) first rest)
  have decimal : ¬c.isDigit := by
    intro first
    have longest : Longest IsDigits (c :: rest.takeWhile Char.isDigit) (c :: rest) :=
      longest_run (fun _ => isDecimal_iff) (isDecimal_iff.mp first) rest
    rcases Nat.lt_or_ge (Natural.value _) UInt64.size with fits | great
    · exact h .natural _ ⟨longest, fits⟩
    · exact h .overflow _ ⟨longest, great⟩
  have quote : c ≠ '"' := by
    rintro rfl
    by_cases closed : '"' ∈ rest
    · obtain ⟨content, after, rfl, hcontent⟩ := List.eq_append_cons_of_mem closed
      exact h .text _ ⟨content, hcontent, rfl, after, by simp⟩
    · exact h .openText _ ⟨rfl, rest, rfl, closed⟩
  have single (form : Form) {d : Char} (hform : ∀ text, form.Fits [d] (d :: text)) : c ≠ d := by
    rintro rfl
    exact h form [c] (hform rest)
  have newline : c ≠ '\n' := single .newline fun text => ⟨rfl, text, rfl⟩
  have space : c ≠ ' ' := single .space fun text => ⟨rfl, text, rfl⟩
  have mark : Mark.ofChar? c = none := by
    cases hmark : Mark.ofChar? c with
    | none => rfl
    | some m =>
      obtain rfl := Mark.char_of_ofChar? hmark
      exact (single (.mark m) fun text => ⟨rfl, text, rfl⟩).irrefl.elim
  unfold lexeme
  simp only [wordKind?_none.mpr ⟨small, capital⟩, if_neg decimal, if_neg quote, if_neg newline,
    if_neg space, mark]
  split
  next hcr =>
    split
    next after =>
      subst hcr
      exact (h .crlf _ ⟨rfl, after, rfl⟩).elim
    next => rw [hcr]
  next => rfl

theorem lexeme_begins (c : Char) (rest : List Char) :
    ∃ form, Begins (c :: rest) (lexeme c rest).chars form ∧ (lexeme c rest).kind = kindOf form := by
  by_cases fit : ∃ (form : Form) (chars : List Char), form.Fits chars (c :: rest)
  · obtain ⟨form, chars, h⟩ := fit
    obtain ⟨hkind, hchars⟩ := h.lexeme
    exact ⟨some form, hchars ▸ h, hkind⟩
  · have unfit (form : Form) (chars : List Char) (h : form.Fits chars (c :: rest)) : False :=
      fit ⟨form, chars, h⟩
    rw [lexeme_of_unfit unfit]
    exact ⟨none, ⟨⟨c, rest, rfl, rfl⟩, unfit⟩, rfl⟩

theorem Begins.ne_nil {form : Option Form} (h : Begins text chars form) : text ≠ [] := by
  cases form with
  | some form => exact Form.Fits.ne_nil h
  | none =>
    obtain ⟨⟨c, rest, rfl, -⟩, -⟩ := h
    exact List.cons_ne_nil c rest

theorem Begins.lexeme {form : Option Form} (h : Begins (c :: rest) chars form) :
    (lexeme c rest).kind = kindOf form ∧ (lexeme c rest).chars = chars := by
  cases form with
  | some form => exact Form.Fits.lexeme h
  | none =>
    obtain ⟨⟨d, after, hd, rfl⟩, unfit⟩ := h
    obtain ⟨rfl, rfl⟩ := List.cons.inj hd
    simp [lexeme_of_unfit unfit, kindOf]

theorem Begins.unique {form form' : Option Form} (h : Begins text chars form)
    (h' : Begins text other form') (hkind : kindOf form = kindOf form') : form = form' := by
  cases form with
  | none =>
    cases form' with
    | none => rfl
    | some form' => exact (h.2 form' other h').elim
  | some form =>
    cases form' with
    | none => exact (h'.2 form chars h).elim
    | some form' => exact congrArg some (Form.Fits.unique h h' hkind)

-- ---------------------------------------------------------------------------
-- All tokens
-- ---------------------------------------------------------------------------

/-- The token has the form, before the other tokens of a text. -/
def HasForm (t : Token) (rest : List Token) (form : Option Form) : Prop :=
  Begins (Token.chars (t :: rest)) t.text.toList form ∧ t.kind = kindOf form

/-- The tokens are the source, cut into tokens of these forms, and one end. -/
structure Cuts (source : String) (ts : List Token) : Prop where
  joins : String.join (ts.map (·.text)) = source
  ends : ∃ us stop, ts = us ++ [stop] ∧ (∀ t ∈ us, t.kind ≠ .endOfInput) ∧
    stop.kind = .endOfInput ∧ stop.text = ""
  forms : ∀ t rest, t :: rest <:+ ts → t.kind ≠ .endOfInput → ∃ form, HasForm t rest form

/-- Each token is where the text before it leads to. -/
def Located (start : Location) (ts : List Token) : Prop :=
  ∀ before t rest, ts = before ++ t :: rest → t.location = start.after (Token.chars before)

theorem join_eq_iff {source : String} {ts : List Token} :
    String.join (ts.map (·.text)) = source ↔ Token.chars ts = source.toList := by
  rw [← String.toList_inj, String.toList_join, List.flatMap_map, Token.chars]

theorem HasForm.unique {t : Token} {ts : List Token} {form form' : Option Form}
    (h : HasForm t ts form) (h' : HasForm t ts form') : form = form' :=
  h.1.unique h'.1 (h.2.symm.trans h'.2)

theorem hasForm_of_scan {source : String} {t : Token} {ts : List Token}
    (h : t :: ts <:+ scan source) (ht : t.kind ≠ .endOfInput) : ∃ form, HasForm t ts form := by
  obtain ⟨before, hbefore⟩ := h
  have scanned := scanFrom_behind hbefore.symm (List.cons_ne_nil t ts)
  rcases htext : Token.chars (t :: ts) with _ | ⟨c, rest⟩
  · rw [htext, scanFrom] at scanned
    cases scanned
    exact (ht rfl).elim
  · obtain ⟨form, hbegins, hkind⟩ := lexeme_begins c rest
    rw [htext, scanFrom] at scanned
    obtain ⟨rfl, -⟩ := List.cons.inj scanned
    exact ⟨form, by simpa [htext] using hbegins, hkind⟩

theorem cuts_scan (source : String) : Cuts source (scan source) where
  joins := join_eq_iff.mpr (chars_scan source)
  ends := by
    obtain ⟨us, stop, hscan, hstop, hus⟩ := scan_eq_append source
    have hmem : stop ∈ scan source := by simp [hscan]
    have spelled := scan_spelled hmem
    rw [Spelled, hstop] at spelled
    exact ⟨us, stop, hscan, hus, hstop, String.toList_eq_nil_iff.mp spelled⟩
  forms := fun _ _ => hasForm_of_scan

theorem eq_scanFrom_of_forms {ts : List Token} (l : Location)
    (hends : ∃ us stop, ts = us ++ [stop] ∧ (∀ t ∈ us, t.kind ≠ .endOfInput) ∧
      stop.kind = .endOfInput ∧ stop.text = "")
    (hforms : ∀ t rest, t :: rest <:+ ts → t.kind ≠ .endOfInput → ∃ form, HasForm t rest form) :
    ts.map (fun t => (t.kind, t.text)) =
      (scanFrom l (Token.chars ts)).map fun t => (t.kind, t.text) := by
  obtain ⟨us, stop, rfl, hus, hstop, hempty⟩ := hends
  induction us generalizing l with
  | nil => simp [Token.chars, scanFrom, hstop, hempty]
  | cons t us ih =>
    obtain ⟨ht, hus⟩ := List.forall_mem_cons.mp hus
    obtain ⟨form, hbegins, hkind⟩ := hforms t (us ++ [stop]) List.suffix_rfl ht
    have later := ih (l.after t.text.toList)
      (fun u rest hu => hforms u rest (hu.trans (List.suffix_cons ..))) hus
    obtain ⟨c, rest, htext⟩ := List.exists_cons_of_ne_nil hbegins.ne_nil
    rw [htext] at hbegins
    obtain ⟨hlex, hchars⟩ := hbegins.lexeme
    have whole := lexeme_append c rest
    rw [← htext, hchars, chars_cons] at whole
    rw [List.cons_append, htext, scanFrom]
    simp only [List.map_cons, hlex, hchars, hkind, List.append_cancel_left whole, later]
    simp

theorem Located.tail {t : Token} {ts : List Token} (h : Located l (t :: ts)) :
    Located (l.after t.text.toList) ts := by
  rintro before u rest rfl
  rw [h (t :: before) u rest rfl, chars_cons, Location.after_append]

theorem Located.eq {ts us : List Token} (ht : Located l ts) (hu : Located l us)
    (h : ts.map (fun t => (t.kind, t.text)) = us.map fun t => (t.kind, t.text)) : ts = us := by
  induction ts generalizing us l with
  | nil => exact (List.map_eq_nil_iff.mp h.symm).symm
  | cons t ts ih =>
    cases us with
    | nil => simp at h
    | cons u us =>
      simp only [List.map_cons, List.cons.injEq, Prod.mk.injEq] at h
      obtain ⟨⟨hkind, htext⟩, hrest⟩ := h
      have place : t.location = u.location := (ht [] t ts rfl).trans (hu [] u us rfl).symm
      have first : t = u := by
        cases t
        cases u
        exact Token.mk.injEq .. ▸ ⟨hkind, htext, place⟩
      rw [first, ih ht.tail (htext ▸ hu.tail) hrest]

/-- Scanning cuts a text in the one way in which it can be cut into the longest tokens: each token
has one of the forms and no other, and other tokens with these forms, one after another the same
text, are the same. -/
theorem scan_longest (source : String) :
    Cuts source (scan source) ∧ Located .start (scan source) ∧
      (∀ t rest, t :: rest <:+ scan source → t.kind ≠ .endOfInput → ∃! form, HasForm t rest form) ∧
      ∀ ts, Cuts source ts →
        ts.map (fun t => (t.kind, t.text)) = (scan source).map (fun t => (t.kind, t.text)) ∧
          (Located .start ts → ts = scan source) := by
  refine ⟨cuts_scan source, fun before t rest h => location_of_scanFrom h, fun t rest h ht => ?_,
    fun ts cuts => ?_⟩
  · obtain ⟨form, hform⟩ := hasForm_of_scan h ht
    exact ⟨form, hform, fun other hother => hother.unique hform⟩
  · have same := eq_scanFrom_of_forms .start cuts.ends cuts.forms
    rw [join_eq_iff.mp cuts.joins] at same
    exact ⟨same, fun located => located.eq (fun before t rest h => location_of_scanFrom h) same⟩

/-- A digit in a word and letters behind a number, a lone carriage return before a line break, a
number that is too great and a quote that is not closed behind a literal. -/
theorem scan_longest_of_mixed :
    let source := "x9 09x\r\r\n18446744073709551616\"a\"\"b"
    let ts : List Token :=
      [⟨.symbol, "x9", ⟨1, 1⟩⟩, ⟨.space, " ", ⟨1, 3⟩⟩, ⟨.natural, "09", ⟨1, 4⟩⟩,
        ⟨.symbol, "x", ⟨1, 6⟩⟩, ⟨.invalid, "\r", ⟨1, 7⟩⟩, ⟨.crlf, "\r\n", ⟨1, 8⟩⟩,
        ⟨.invalid, "18446744073709551616", ⟨2, 1⟩⟩, ⟨.text, "\"a\"", ⟨2, 21⟩⟩,
        ⟨.invalid, "\"b", ⟨2, 24⟩⟩, ⟨.endOfInput, "", ⟨2, 26⟩⟩]
    Cuts source ts ∧ Located .start ts ∧ ts = scan source ∧
      ∀ t rest, t :: rest <:+ ts → t.kind ≠ .endOfInput → ∃! form, HasForm t rest form := by
  intro source ts
  have scanned : ts = scan source := by decide +kernel
  have cuts : Cuts source ts := scanned ▸ cuts_scan source
  have located : Located .start ts := by
    intro before t rest h
    exact location_of_scanFrom (scanned.symm.trans h)
  obtain ⟨-, -, forms, only⟩ := scan_longest source
  exact ⟨cuts, located, (only ts cuts).2 located, scanned ▸ forms⟩

end TypeSchema.Token
