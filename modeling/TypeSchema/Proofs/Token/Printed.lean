import Mathlib.Data.List.Basic
import TypeSchema.Proofs.Token.Spelling

/-!
# Scanning what was written

Characters that spell a token are scanned as that token again, as long as what follows does not
continue a word or a number. So a text that is written token by token can be scanned token by
token.
-/

namespace TypeSchema.Token

variable {kind : Kind} {chars rest : List Char} {l : Location}

/-- A word or a number before `rest` ends there. -/
def Stops (rest : List Char) : Prop := ∀ c ∈ rest.head?, isWordChar c = false

theorem stops_nil : Stops [] := by simp [Stops]

theorem stops_cons {c : Char} (h : isWordChar c = false) : Stops (c :: rest) := by
  rintro _ ⟨⟩
  exact h

/-- The token of the kind ends before `rest`. -/
def Kind.EndsBefore : Kind → List Char → Prop
  | .symbol, rest | .name, rest => Stops rest
  | .natural, rest => ∀ c ∈ rest.head?, c.isDigit = false
  | .invalid, _ | .endOfInput, _ => False
  | _, _ => True

theorem takeWhile_append_stop {p : Char → Bool} (hc : ∀ c ∈ chars, p c)
    (hr : ∀ c ∈ rest.head?, p c = false) : (chars ++ rest).takeWhile p = chars := by
  rw [List.takeWhile_append_of_pos hc]
  cases rest with
  | nil => simp
  | cons c rest => simp [hr c rfl]

theorem dropWhile_append_stop {p : Char → Bool} (hc : ∀ c ∈ chars, p c)
    (hr : ∀ c ∈ rest.head?, p c = false) : (chars ++ rest).dropWhile p = rest := by
  rw [List.dropWhile_append_of_pos hc]
  cases rest with
  | nil => rfl
  | cons c rest => simp [hr c rfl]

theorem Stops.noDigit (h : Stops rest) : ∀ c ∈ rest.head?, c.isDigit = false := by
  intro c hc
  have stop := h c hc
  simp only [isWordChar, Char.isAlphanum, Bool.or_eq_false_iff] at stop
  exact stop.1.2

theorem wordKind?_of_isDigit {c : Char} (h : c.isDigit) : wordKind? c = none := by
  have hd : '0'.val.toNat ≤ c.val.toNat ∧ c.val.toNat ≤ '9'.val.toNat := by
    simpa [Char.isDigit, UInt32.le_iff_toNat_le] using h
  change 48 ≤ c.val.toNat ∧ c.val.toNat ≤ 57 at hd
  have hlower : c.isLower = false := by
    change (decide ('a'.val ≤ c.val) && decide (c.val ≤ 'z'.val)) = false
    simp only [UInt32.le_iff_toNat_le, Bool.and_eq_false_iff, decide_eq_false_iff_not]
    change ¬97 ≤ c.val.toNat ∨ _
    omega
  have hupper : c.isUpper = false := by
    change decide ('A'.val ≤ c.val ∧ c.val ≤ 'Z'.val) = false
    simp only [UInt32.le_iff_toNat_le, decide_eq_false_iff_not]
    change ¬(65 ≤ c.val.toNat ∧ _)
    omega
  have hunderscore : c ≠ '_' := by
    rintro rfl
    change 48 ≤ 95 ∧ 95 ≤ 57 at hd
    omega
  simp [wordKind?, hlower, hupper, hunderscore]

theorem lexeme_word (h : IsWord kind chars) (hr : Stops rest) :
    ∃ c more, chars = c :: more ∧ lexeme c (more ++ rest) = ⟨kind, chars, rest⟩ := by
  obtain ⟨c, more, rfl, hk, hmore⟩ := h
  refine ⟨c, more, rfl, ?_⟩
  unfold lexeme
  simp only [hk, Lexeme.run]
  rw [takeWhile_append_stop hmore hr, dropWhile_append_stop hmore hr]

theorem lexeme_natural (h : (Natural.word? chars).isSome)
    (hr : ∀ c ∈ rest.head?, c.isDigit = false) :
    ∃ c more, chars = c :: more ∧ lexeme c (more ++ rest) = ⟨.natural, chars, rest⟩ := by
  obtain ⟨n, hn⟩ := Option.isSome_iff_exists.mp h
  obtain ⟨hne, hd, -⟩ := Natural.word?_eq_some_iff.mp hn
  obtain ⟨c, more, rfl⟩ := List.exists_cons_of_ne_nil hne
  rw [List.all_cons, Bool.and_eq_true, List.all_eq_true] at hd
  refine ⟨c, more, rfl, ?_⟩
  unfold lexeme
  simp only [wordKind?_of_isDigit hd.1, hd.1, if_true, Lexeme.run]
  rw [takeWhile_append_stop hd.2 hr, dropWhile_append_stop hd.2 hr, if_pos h]

theorem lexeme_text {content : List Char} (h : '"' ∉ content) :
    lexeme '"' (content ++ '"' :: rest) = ⟨.text, '"' :: content ++ ['"'], rest⟩ := by
  have hc : ∀ c ∈ content, decide (c ≠ '"') = true := by
    intro c hc
    simpa using ne_of_mem_of_not_mem hc h
  have hr : ∀ c ∈ ('"' :: rest).head?, decide (c ≠ '"') = false := by simp
  have hword : wordKind? '"' = none := by decide
  have hdigit : Char.isDigit '"' = false := by decide
  unfold lexeme
  simp only [hword, hdigit, Bool.false_eq_true, if_false, if_true]
  rw [takeWhile_append_stop hc hr, dropWhile_append_stop hc hr]

theorem lexeme_mark (m : Mark) : lexeme m.char rest = ⟨.mark m, [m.char], rest⟩ := by
  cases m <;> rfl

theorem lexeme_of_spells (h : kind.Spells chars) (hr : kind.EndsBefore rest) :
    ∃ c more, chars = c :: more ∧ lexeme c (more ++ rest) = ⟨kind, chars, rest⟩ := by
  cases kind with
  | symbol | name => exact lexeme_word h hr
  | natural => exact lexeme_natural h hr
  | text =>
    obtain ⟨content, hc, rfl⟩ := h
    exact ⟨'"', content ++ ['"'], rfl, by simpa using lexeme_text hc⟩
  | mark m => exact ⟨m.char, [], h, lexeme_mark m ▸ h ▸ rfl⟩
  | newline | space =>
    obtain rfl := h
    exact ⟨_, [], rfl, rfl⟩
  | crlf =>
    obtain rfl := h
    exact ⟨_, _, rfl, rfl⟩
  | invalid | endOfInput => exact hr.elim

theorem scanFrom_append (kind : Kind) {chars : List Char} (h : kind.Spells chars)
    (hr : kind.EndsBefore rest) :
    scanFrom l (chars ++ rest) =
      ⟨kind, String.ofList chars, l⟩ :: scanFrom (l.after chars) rest := by
  obtain ⟨c, more, rfl, hlex⟩ := lexeme_of_spells h hr
  rw [List.cons_append, scanFrom]
  simp only [hlex]

end TypeSchema.Token
