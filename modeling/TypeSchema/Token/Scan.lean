import TypeSchema.Natural
import TypeSchema.Token

/-!
# Scanning a text

`Token.scan` cuts a text into tokens, each the longest that its first character can start, and
ends the list with one token of kind `endOfInput`. It accepts every text: characters that start
no token become tokens of kind `invalid`. `text_scan` says that nothing is lost.

There are no escapes inside a literal. A quote that is never closed makes one invalid token of all
that follows, and a run of digits that is too great for 64 bits is one invalid token.
-/

namespace TypeSchema.Token

-- ---------------------------------------------------------------------------
-- One token
-- ---------------------------------------------------------------------------

def isWordChar (c : Char) : Bool := c.isAlphanum || c = '_'

def wordKind? (c : Char) : Option Kind :=
  if c.isLower || c = '_' then some .symbol else if c.isUpper then some .name else none

/-- The kind and the characters of the token at the front of a text, and what follows them. -/
structure Lexeme where
  kind : Kind
  chars : List Char
  rest : List Char

/-- The longest run of `p` after `first` is one token of the kind that its characters call for. -/
def Lexeme.run (p : Char → Bool) (kind : List Char → Kind) (first : Char) (rest : List Char) :
    Lexeme :=
  let chars := first :: rest.takeWhile p
  ⟨kind chars, chars, rest.dropWhile p⟩

def lexeme (c : Char) (rest : List Char) : Lexeme :=
  match wordKind? c with
  | some kind => .run isWordChar (fun _ => kind) c rest
  | none =>
    if c.isDigit then
      .run Char.isDigit
        (fun digits => if (Natural.word? digits).isSome then .natural else .invalid) c rest
    else if c = '"' then
      match rest.dropWhile (· ≠ '"') with
      | [] => ⟨.invalid, c :: rest, []⟩
      | quote :: after => ⟨.text, c :: rest.takeWhile (· ≠ '"') ++ [quote], after⟩
    else if c = '\r' then
      match rest with
      | '\n' :: after => ⟨.crlf, ['\r', '\n'], after⟩
      -- alone, a carriage return is no line break
      | _ => ⟨.invalid, ['\r'], rest⟩
    else
      let kind : Kind :=
        if c = '\n' then .newline
        else if c = ' ' then .space
        else match Mark.ofChar? c with
          | some m => .mark m
          | none => .invalid
      ⟨kind, [c], rest⟩

-- ---------------------------------------------------------------------------
-- Nothing is lost
-- ---------------------------------------------------------------------------

theorem Lexeme.run_append (p : Char → Bool) (kind : List Char → Kind) (c : Char)
    (rest : List Char) :
    (Lexeme.run p kind c rest).chars ++ (Lexeme.run p kind c rest).rest = c :: rest := by
  simp [Lexeme.run, List.takeWhile_append_dropWhile]

theorem lexeme_append (c : Char) (rest : List Char) :
    (lexeme c rest).chars ++ (lexeme c rest).rest = c :: rest := by
  unfold lexeme
  split
  · exact Lexeme.run_append ..
  · split
    · exact Lexeme.run_append ..
    · split
      · split
        · simp
        next after h =>
          have := List.takeWhile_append_dropWhile (p := fun c => decide (c ≠ '"')) (l := rest)
          rw [h] at this
          simpa using this
      · split
        next h => subst h; split <;> simp
        · simp

theorem lexeme_chars_ne_nil (c : Char) (rest : List Char) : (lexeme c rest).chars ≠ [] := by
  unfold lexeme Lexeme.run
  grind

theorem length_lexeme_rest (c : Char) (rest : List Char) :
    (lexeme c rest).rest.length < rest.length + 1 := by
  have h := congrArg List.length (lexeme_append c rest)
  have hne := List.length_pos_iff.2 (lexeme_chars_ne_nil c rest)
  simp only [List.length_append, List.length_cons] at h
  omega

-- ---------------------------------------------------------------------------
-- All tokens
-- ---------------------------------------------------------------------------

def scanFrom (l : Location) : List Char → List Token
  | [] => [⟨.endOfInput, "", l⟩]
  | c :: rest =>
    have := length_lexeme_rest c rest
    let lex := lexeme c rest
    ⟨lex.kind, String.ofList lex.chars, l⟩ :: scanFrom (l.after lex.chars) lex.rest
termination_by text => text.length

def scan (source : String) : List Token := scanFrom .start source.toList

theorem text_scanFrom (l : Location) (text : List Char) :
    (scanFrom l text).flatMap (·.text.toList) = text := by
  induction h : text.length using Nat.strongRecOn generalizing l text with
  | _ n ih =>
    cases text with
    | nil => simp [scanFrom]
    | cons c rest =>
      rw [scanFrom, List.flatMap_cons,
        ih _ (by simpa [← h] using length_lexeme_rest c rest) _ _ rfl]
      simpa using lexeme_append c rest

theorem text_scan (source : String) :
    (scan source).flatMap (·.text.toList) = source.toList :=
  text_scanFrom _ _

end TypeSchema.Token
