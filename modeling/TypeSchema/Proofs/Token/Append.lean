import Mathlib.Data.List.TakeWhile
import TypeSchema.Proofs.Token.Place

/-!
# Scanning a text that goes on

A token of a text that ends in a line break stays as it is if more text is appended, unless it is
invalid: only a quote that is not closed, or a character that starts no token, may become part of
another one. So the tokens of the longer text begin with those of the shorter one.
-/

namespace TypeSchema.Token

variable {c : Char} {text rest : List Char} {l : Location}

/-- The text is empty or ends in a line feed. -/
def FullLines (text : List Char) : Prop := ∀ c ∈ text.getLast?, c = '\n'

theorem FullLines.of_append {first : List Char} (h : FullLines (first ++ rest)) :
    FullLines rest := by
  intro d hd
  exact h d (by simp [List.getLast?_append, Option.mem_def.mp hd])

theorem FullLines.mem (h : FullLines (c :: rest)) (hc : c ≠ '\n') : '\n' ∈ rest := by
  have hne : rest ≠ [] := by
    rintro rfl
    exact hc (h c rfl)
  have hlast := h (rest.getLast hne) (by
    simp [List.getLast?_cons, List.getLast?_eq_some_getLast hne])
  exact hlast ▸ List.getLast_mem hne

theorem fullLines_cons (h : rest ≠ []) : FullLines (c :: rest) ↔ FullLines rest := by
  rw [FullLines, FullLines, List.getLast?_cons, List.getLast?_eq_some_getLast h, Option.getD_some]

theorem not_fullLines_append (hne : rest ≠ []) (h : '\n' ∉ rest) : ¬FullLines (text ++ rest) := by
  intro full
  refine h (full.of_append (rest.getLast hne) ?_ ▸ List.getLast_mem hne)
  exact List.getLast?_eq_some_getLast hne

theorem dropWhile_ne_nil {p : Char → Bool} (hc : c ∈ text) (hp : p c = false) :
    text.dropWhile p ≠ [] := by
  intro h
  have := List.dropWhile_eq_nil_iff.mp h c hc
  rw [hp] at this
  cases this

theorem takeWhile_append_of_stops {p : Char → Bool} (h : text.dropWhile p ≠ [])
    (more : List Char) : (text ++ more).takeWhile p = text.takeWhile p := by
  rw [List.takeWhile_append, if_neg]
  intro hlength
  have whole : text.takeWhile p = text := (List.takeWhile_prefix p).eq_of_length hlength
  exact h (List.dropWhile_eq_nil_iff.mpr (List.takeWhile_eq_self_iff.mp whole))

theorem dropWhile_append_of_stops {p : Char → Bool} (h : text.dropWhile p ≠ [])
    (more : List Char) : (text ++ more).dropWhile p = text.dropWhile p ++ more := by
  rw [List.dropWhile_append, if_neg (by simpa using h)]

theorem Lexeme.run_append_of_stops {p : Char → Bool} {kind : List Char → Kind}
    (h : rest.dropWhile p ≠ []) (more : List Char) :
    Lexeme.run p kind c (rest ++ more) =
      { Lexeme.run p kind c rest with rest := (Lexeme.run p kind c rest).rest ++ more } := by
  simp only [run, takeWhile_append_of_stops h, dropWhile_append_of_stops h]

/-- The token at the front of a text stays as it is, unless it is invalid. -/
theorem lexeme_append_of_fullLines (h : FullLines (c :: rest))
    (hkind : (lexeme c rest).kind ≠ .invalid) (more : List Char) :
    lexeme c (rest ++ more) = { lexeme c rest with rest := (lexeme c rest).rest ++ more } := by
  unfold lexeme at hkind ⊢
  split
  next kind hword =>
    have hmem := h.mem fun hc => by simp [hc, wordKind?] at hword
    exact Lexeme.run_append_of_stops (dropWhile_ne_nil hmem (by decide)) more
  next hword =>
    simp only [hword] at hkind
    split
    next hdigit =>
      have hmem := h.mem fun hc => by simp [hc] at hdigit
      exact Lexeme.run_append_of_stops (dropWhile_ne_nil hmem (by decide)) more
    next hdigit =>
      rw [if_neg hdigit] at hkind
      split
      next hquote =>
        rw [if_pos hquote] at hkind
        cases hclose : rest.dropWhile (· ≠ '"') with
        | nil =>
          rw [hclose] at hkind
          exact (hkind rfl).elim
        | cons quote after =>
          have stops : rest.dropWhile (· ≠ '"') ≠ [] := hclose ▸ List.cons_ne_nil _ _
          rw [takeWhile_append_of_stops stops, dropWhile_append_of_stops stops, hclose]
          rfl
      next hquote =>
        rw [if_neg hquote] at hkind
        split
        next hcr =>
          rw [if_pos hcr] at hkind
          split at hkind
          next after => rfl
          next => exact (hkind rfl).elim
        next => rfl

theorem scanFrom_append_of_fullLines (h : FullLines text)
    (hvalid : ∀ t ∈ scanFrom l text, t.kind ≠ .invalid) (more : List Char) :
    scanFrom l (text ++ more) = (scanFrom l text).dropLast ++ scanFrom (l.after text) more := by
  induction hn : text.length using Nat.strongRecOn generalizing l text with
  | _ n ih =>
    cases text with
    | nil => rw [List.nil_append, scanFrom.eq_def l []]; rfl
    | cons c rest =>
      have whole := lexeme_append c rest
      rw [scanFrom] at hvalid ⊢
      obtain ⟨hkind, hvalid⟩ := List.forall_mem_cons.mp hvalid
      have hrest : FullLines (lexeme c rest).rest := .of_append (whole ▸ h)
      have others := ih _ (hn ▸ length_lexeme_rest c rest) hrest hvalid rfl
      have hne : scanFrom (l.after (lexeme c rest).chars) (lexeme c rest).rest ≠ [] := by
        obtain ⟨ts, stop, hscan, -⟩ :=
          scanFrom_eq_append (l.after (lexeme c rest).chars) (lexeme c rest).rest
        simp [hscan]
      rw [List.cons_append, scanFrom, lexeme_append_of_fullLines h hkind,
        List.dropLast_cons_of_ne_nil hne, List.cons_append]
      simp only
      rw [others, ← Location.after_append, whole]

theorem isLineBreak_of_getLast {t : Token} (h : t.Spelled) (hvalid : t.kind ≠ .invalid)
    (hlast : t.text.toList.getLast? = some '\n') : t.kind.isLineBreak := by
  have hmem : '\n' ∈ t.text.toList := List.mem_of_getLast? hlast
  rw [Spelled] at h
  generalize t.text.toList = chars at h hlast hmem
  cases hkind : t.kind with
  | newline | crlf => rfl
  | invalid => exact (hvalid hkind).elim
  | symbol | name =>
    rw [hkind] at h
    obtain ⟨c, rest, rfl, hc, hrest⟩ := h
    rcases List.mem_cons.mp hmem with rfl | hmem
    · cases hc
    · cases hrest _ hmem
  | text =>
    rw [hkind] at h
    obtain ⟨content, -, rfl⟩ := h
    rw [List.getLast?_concat] at hlast
    cases hlast
  | natural =>
    rw [hkind] at h
    obtain ⟨n, hn⟩ := Option.isSome_iff_exists.mp h
    cases List.all_eq_true.mp (Natural.word?_eq_some_iff.mp hn).2.1 _ hmem
  | mark m =>
    rw [hkind] at h
    rw [show chars = [m.char] from h] at hmem
    cases m <;> cases List.mem_singleton.mp hmem
  | space =>
    rw [hkind] at h
    cases h
    cases hlast
  | endOfInput =>
    rw [hkind] at h
    cases h
    cases hlast

end TypeSchema.Token
