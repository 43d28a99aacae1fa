import TypeSchema.Read

/-!
# Layout

Spaces and line breaks are part of the language. A definition has a line that opens its body, a
member a line behind exactly four spaces, and a line that closes it; blank lines may stand before
any of them. Lists in brackets have commas between their items, with spaces allowed after a comma.
-/

namespace TypeSchema.Read

variable {α : Type}

def indentation : Nat := 4

def skipSpaces : Read Unit := do
  let _ ← skipWhile .space

def skipBlankLines : Read Unit := fun c => .ok () c.skipBlankLines

def separator : Read Unit := do
  let _ ← expect .space
  skipSpaces

def lineEnd : Read Unit := do
  skipSpaces
  let _ ← expectOneOf [.newline, .crlf]

/-- The end of a line that nothing need follow. -/
def definitionEnd : Read Unit := do
  skipSpaces
  let _ ← expectOneOf [.newline, .crlf, .endOfInput]

def bodyStart : Read Unit := do
  skipSpaces
  let _ ← expect (.mark .leftBrace)
  lineEnd

/-- Whether the token at the cursor is `mark`, which then is taken. -/
def takeMark (mark : Mark) : Read Bool := do
  if ← check (.mark mark) then
    let _ ← next
    return true
  else return false

/-- Whether the body is closed by the first line that is not blank. -/
def bodyEnd : Read Bool := do
  skipBlankLines
  takeMark .rightBrace

def bodyRound (member : Array α → Read α) (again : Array α → Read (List α)) (members : Array α) :
    Read (List α) := do
  if ← bodyEnd then return members.toList
  skipMany .space indentation
  let m ← member members
  lineEnd
  again (members.push m)

/-- The members of a body to its closing brace, a line each. `member` reads one with those before
it at hand. -/
def body (member : Array α → Read α) : Read (List α) := fix (bodyRound member) #[]

def itemsRound (close : Mark) (item : Array α → Read α) (again : Array α → Read (List α))
    (items : Array α) : Read (List α) := do
  let i ← item items
  let mark ← expectOneOf [.mark .comma, .mark close]
  if mark.kind = .mark close then return (items.push i).toList
  skipSpaces
  again (items.push i)

/-- The items to the closing mark, at least one. `item` reads one with those before it at hand. -/
def items (close : Mark) (item : Array α → Read α) : Read (List α) := fix (itemsRound close item) #[]

def afterColon? (inner : Read α) : Read (Option α) := do
  if ← takeMark .colon then
    skipSpaces
    return some (← inner)
  else return none

end TypeSchema.Read
