import TypeSchema.Cursor
import TypeSchema.Fault

/-!
# Reading

A `Read` gives a value or a fault and leaves the cursor where it stopped, also after a fault.
Recursion goes through `Read.fix`: a reading may call itself only where fewer tokens lie ahead
than where it began, so every reading ends.
-/

namespace TypeSchema

/-- Reads from a cursor a value or a fault. -/
abbrev Read := EStateM Fault Cursor

namespace Read

variable {α σ : Type}

def ofExcept : Except Fault α → Read α
  | .ok a => pure a
  | .error fault => throw fault

def peek : Read Token := fun c => .ok c.peek c

def peekAhead (n : Nat) : Read Token := fun c => .ok (c.peekAhead n) c

def check (kind : Token.Kind) : Read Bool := fun c => .ok (c.check kind) c

def atEnd : Read Bool := fun c => .ok c.atEnd c

def next : Read Token := fun c => .ok c.peek c.next

def unexpected (expected : List Token.Kind) : Read α :=
  fun c => .error (.unexpected expected c.peek) c

/-- The token at the cursor, if it is of one of the kinds. -/
def expectOneOf (kinds : List Token.Kind) : Read Token := fun c =>
  if c.peek.kind ∈ kinds then next c else unexpected kinds c

def expect (kind : Token.Kind) : Read Token := expectOneOf [kind]

/-- As many tokens of the kind. The end is never used up, so it stands for any number of ends. -/
def skipMany (kind : Token.Kind) : Nat → Read Unit
  | 0 => pure ()
  | n + 1 => do
    let t ← expect kind
    if t.kind = .endOfInput then pure () else skipMany kind n

/-- All tokens of the kind that come in a row, and how many there were. An end is not skipped. -/
def skipWhile (kind : Token.Kind) : Read Nat := fun c =>
  if kind = .endOfInput then .ok 0 c else .ok (c.run kind) (c.advance (c.run kind))

/-- One round of `fix`, which may start another where fewer tokens lie ahead. -/
def fixAt (f : (σ → Read α) → σ → Read α) (s : σ) (c : Cursor) :
    EStateM.Result Fault Cursor α :=
  f (fun t d => if d.remaining < c.remaining then fixAt f t d else unexpected [] d) s c
termination_by c.remaining

/-- The reading that calls itself as `f` says. A call that comes before any token was used up
expects nothing and fails. -/
def fix (f : (σ → Read α) → σ → Read α) (s : σ) : Read α := fixAt f s

def recursive (f : Read α → Read α) : Read α := fix (fun again _ => f (again ())) ()

end Read

end TypeSchema
