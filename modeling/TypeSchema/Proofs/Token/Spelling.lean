import Mathlib.Data.List.Basic
import TypeSchema.Token.Scan

/-!
# How tokens are spelled

The kind of a token tells what its characters look like. Scanning gives such tokens only, and one
token of kind `endOfInput`, the last.
-/

namespace TypeSchema.Token

def IsWord (kind : Kind) (chars : List Char) : Prop :=
  ∃ c rest, chars = c :: rest ∧ wordKind? c = some kind ∧ ∀ d ∈ rest, isWordChar d

instance (kind : Kind) (chars : List Char) : Decidable (IsWord kind chars) :=
  match chars with
  | [] => isFalse nofun
  | c :: rest => decidable_of_iff (wordKind? c = some kind ∧ rest.all isWordChar)
    ⟨fun ⟨hk, hr⟩ => ⟨c, rest, rfl, hk, List.all_eq_true.mp hr⟩,
      fun ⟨_, _, h, hk, hr⟩ => by cases h; exact ⟨hk, List.all_eq_true.mpr hr⟩⟩

/-- The characters of a token of the kind. -/
def Kind.Spells : Kind → List Char → Prop
  | .symbol, chars => IsWord .symbol chars
  | .name, chars => IsWord .name chars
  | .text, chars => ∃ content, '"' ∉ content ∧ chars = '"' :: content ++ ['"']
  | .natural, digits => (Natural.word? digits).isSome
  | .mark m, chars => chars = [m.char]
  | .newline, chars => chars = ['\n']
  | .crlf, chars => chars = ['\r', '\n']
  | .space, chars => chars = [' ']
  | .invalid, _ => True
  | .endOfInput, chars => chars = []

/-- The token looks the way that its kind tells. -/
def Spelled (t : Token) : Prop := t.kind.Spells t.text.toList

section
variable {t : Token} (h : t.Spelled)
include h

theorem Spelled.mark {m : Mark} (hk : t.kind = .mark m) : t.text.toList = [m.char] := by
  rwa [Spelled, hk] at h

theorem Spelled.space (hk : t.kind = .space) : t.text.toList = [' '] := by
  rwa [Spelled, hk] at h

theorem Spelled.endOfInput (hk : t.kind = .endOfInput) : t.text.toList = [] := by
  rwa [Spelled, hk] at h

theorem Spelled.lineBreak (hk : t.kind.isLineBreak) :
    t.text.toList = ['\n'] ∨ t.text.toList = ['\r', '\n'] := by
  rw [Spelled] at h
  cases hkind : t.kind with
  | newline =>
    rw [hkind] at h
    exact .inl h
  | crlf =>
    rw [hkind] at h
    exact .inr h
  | _ => simp [hkind, Kind.isLineBreak] at hk

end

section
variable {t : Token} {ts us : List Token}

theorem spelled_of_suffix (hs : ∀ u ∈ ts, u.Spelled) (h : us <:+ ts) : ∀ u ∈ us, u.Spelled :=
  fun u hu => hs u (h.subset hu)

theorem spelled_of_tail_suffix (hs : ∀ u ∈ t :: ts, u.Spelled) (h : us <:+ ts) :
    ∀ u ∈ us, u.Spelled :=
  spelled_of_suffix hs (h.trans (List.suffix_cons t ts))

end

theorem wordKind?_eq {c : Char} {kind : Kind} (h : wordKind? c = some kind) :
    kind = .symbol ∨ kind = .name := by
  unfold wordKind? at h
  split at h
  · exact .inl (Option.some.inj h).symm
  · split at h
    · exact .inr (Option.some.inj h).symm
    · cases h

theorem lexeme_spells (c : Char) (rest : List Char) :
    (lexeme c rest).kind.Spells (lexeme c rest).chars := by
  unfold lexeme
  split
  next kind hk =>
    have word : IsWord kind (c :: rest.takeWhile isWordChar) :=
      ⟨c, _, rfl, hk, fun d hd => List.all_eq_true.mp List.all_takeWhile d hd⟩
    rcases wordKind?_eq hk with rfl | rfl <;> exact word
  next =>
    split
    next =>
      simp only [Lexeme.run]
      split
      next h => exact h
      next => trivial
    next =>
      split
      next hq =>
        split
        next => trivial
        next quote after hd =>
          refine ⟨rest.takeWhile (· ≠ '"'), fun hm => ?_, ?_⟩
          · simpa using List.all_eq_true.mp List.all_takeWhile _ hm
          · have hquote : quote = '"' := by
              have := List.head?_dropWhile_not (fun d => decide (d ≠ '"')) rest
              rw [hd] at this
              simpa using this
            rw [hq, hquote]
      next =>
        split
        next => split <;> first | rfl | trivial
        next =>
          split
          next hn => exact congrArg (· :: []) hn
          next =>
            split
            next hs => exact congrArg (· :: []) hs
            next =>
              split
              next m hm => exact congrArg (· :: []) (Mark.char_of_ofChar? hm).symm
              next => trivial

theorem lexeme_kind_ne_endOfInput (c : Char) (rest : List Char) :
    (lexeme c rest).kind ≠ .endOfInput := by
  intro h
  have spells := lexeme_spells c rest
  rw [h] at spells
  exact lexeme_chars_ne_nil c rest spells

theorem scanFrom_spelled (l : Location) (text : List Char) : ∀ t ∈ scanFrom l text, t.Spelled := by
  induction h : text.length using Nat.strongRecOn generalizing l text with
  | _ n ih =>
    cases text with
    | nil => simp [scanFrom, Spelled, Kind.Spells]
    | cons c rest =>
      rw [scanFrom, List.forall_mem_cons]
      refine ⟨?_, ih _ (by simpa [← h] using length_lexeme_rest c rest) _ _ rfl⟩
      simpa [Spelled] using lexeme_spells c rest

theorem scan_spelled {source : String} {t : Token} (h : t ∈ scan source) : t.Spelled :=
  scanFrom_spelled _ _ t h

theorem scanFrom_eq_append (l : Location) (text : List Char) :
    ∃ ts stop, scanFrom l text = ts ++ [stop] ∧ stop.kind = .endOfInput ∧
      ∀ t ∈ ts, t.kind ≠ .endOfInput := by
  induction h : text.length using Nat.strongRecOn generalizing l text with
  | _ n ih =>
    cases text with
    | nil => exact ⟨[], _, by rw [scanFrom]; rfl, rfl, by simp⟩
    | cons c rest =>
      obtain ⟨ts, stop, hts, hstop, hne⟩ :=
        ih _ (by simpa [← h] using length_lexeme_rest c rest) (l.after (lexeme c rest).chars)
          (lexeme c rest).rest rfl
      rw [scanFrom, hts]
      exact ⟨_ :: ts, stop, rfl, hstop,
        List.forall_mem_cons.mpr ⟨lexeme_kind_ne_endOfInput c rest, hne⟩⟩

theorem scan_eq_append (source : String) :
    ∃ ts stop, scan source = ts ++ [stop] ∧ stop.kind = .endOfInput ∧
      ∀ t ∈ ts, t.kind ≠ .endOfInput := scanFrom_eq_append _ _

theorem nil_of_endOfInput {source : String} {t : Token} {rest : List Token}
    (h : t :: rest <:+ scan source) (ht : t.kind = .endOfInput) : rest = [] := by
  obtain ⟨ts, stop, hscan, -, hts⟩ := scan_eq_append source
  obtain ⟨before, hbefore⟩ := h
  by_contra hne
  obtain ⟨rest, last, rfl⟩ := List.eq_nil_or_concat' rest |>.resolve_left hne
  rw [hscan, ← List.cons_append, ← List.append_assoc] at hbefore
  have hmem : t ∈ ts := by
    rw [← List.append_inj_left' hbefore rfl]
    simp
  exact hts t hmem ht

end TypeSchema.Token
