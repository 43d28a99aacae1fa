import TypeSchema.Token.Scan

/-!
# Walking through tokens

A cursor stands at a token of a list. The list ends in a token of kind `endOfInput`, and a cursor
never goes past such a token: `next` stays there. So every question about what comes next has an
answer.
-/

namespace TypeSchema

structure Cursor where
  /-- How many tokens lie behind. -/
  position : Nat
  /-- The tokens that lie ahead, without the last of the list. -/
  ahead : List Token
  /-- The last token of the list. -/
  stop : Token
  stop_kind : stop.kind = .endOfInput
  /-- How many tokens lie ahead. -/
  remaining : Nat
  remaining_eq : remaining = ahead.length

namespace Cursor

/-- The cursor at the first of the tokens. An end is added to a list that has none. -/
def ofTokens (tokens : List Token) : Cursor :=
  match tokens.getLast? with
  | none => ⟨0, [], ⟨.endOfInput, "", .start⟩, rfl, 0, rfl⟩
  | some last =>
    if h : last.kind = .endOfInput then ⟨0, tokens.dropLast, last, h, _, rfl⟩
    else ⟨0, tokens, ⟨.endOfInput, "", last.location⟩, rfl, _, rfl⟩

def ofSource (source : String) : Cursor := ofTokens (Token.scan source)

def peek (c : Cursor) : Token := c.ahead.headD c.stop

/-- The token `n` places further on, or the last one. -/
def peekAhead (c : Cursor) (n : Nat) : Token := c.ahead.getD n c.stop

def check (c : Cursor) (kind : Token.Kind) : Bool := c.peek.kind = kind

def atEnd (c : Cursor) : Bool := c.check .endOfInput

/-- The cursor after as many of the tokens ahead, or at the last one. -/
def advance (c : Cursor) (n : Nat) : Cursor :=
  { c with
    position := c.position + min n c.remaining
    ahead := c.ahead.drop n
    remaining := c.remaining - n
    remaining_eq := by rw [c.remaining_eq, List.length_drop] }

/-- The cursor after the token that it stands at; at an end it stays. -/
def next (c : Cursor) : Cursor := if c.atEnd then c else c.advance 1

def run (c : Cursor) (kind : Token.Kind) : Nat :=
  (c.ahead.takeWhile (·.kind = kind)).length

/-- How many tokens are blank lines, if `spaces` spaces stand before them on their line. A blank
line is spaces with the line break, or the end, after them. -/
def blankRun (spaces : Nat) : List Token → Nat
  | [] => spaces
  | t :: rest =>
    if t.kind = .space then blankRun (spaces + 1) rest
    else if t.kind.isLineBreak then spaces + 1 + blankRun 0 rest
    else if t.kind = .endOfInput then spaces
    else 0

/-- The cursor after the blank lines ahead. Spaces that begin another line are kept. -/
def skipBlankLines (c : Cursor) : Cursor := c.advance (blankRun 0 c.ahead)

@[simp] theorem remaining_advance (c : Cursor) (n : Nat) :
    (c.advance n).remaining = c.remaining - n := rfl

@[simp] theorem stop_advance (c : Cursor) (n : Nat) : (c.advance n).stop = c.stop := rfl

@[simp] theorem ahead_advance (c : Cursor) (n : Nat) : (c.advance n).ahead = c.ahead.drop n := rfl

@[simp] theorem position_advance (c : Cursor) (n : Nat) :
    (c.advance n).position = c.position + min n c.remaining := rfl

theorem remaining_next_lt {c : Cursor} (h : c.peek.kind ≠ .endOfInput) :
    c.next.remaining < c.remaining := by
  have ahead : c.ahead ≠ [] := by
    intro none
    rw [peek, none, List.headD_nil] at h
    exact h c.stop_kind
  have := List.length_pos_iff.2 ahead
  have := c.remaining_eq
  rw [next, if_neg (by simpa [atEnd, check] using h), remaining_advance]
  omega

end Cursor

end TypeSchema
