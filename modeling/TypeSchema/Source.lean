/-!
# Sources and their lines

A line ends at a line feed, and a carriage return right before the line feed belongs to the line
break. Any other carriage return is a character of its line. Nothing after the last line feed is
no line.
-/

namespace TypeSchema

structure Source where
  file : String
  text : String
  deriving DecidableEq, Repr

namespace Source

def firstLine (text : List Char) : List Char :=
  let line := text.takeWhile (· ≠ '\n')
  if text.drop line.length ≠ [] ∧ line.getLast? = some '\r' then line.dropLast else line

/-- The line that comes after as many line feeds as `before`. -/
def lineAfter? : List Char → Nat → Option (List Char)
  | [], _ => none
  | c :: rest, 0 => some (firstLine (c :: rest))
  | c :: rest, before + 1 =>
    if c = '\n' then lineAfter? rest before else lineAfter? rest (before + 1)

/-- A line by its number, which counts from 1, without its line break. -/
def line? (s : Source) : Nat → Option String
  | 0 => none
  | before + 1 => (lineAfter? s.text.toList before).map String.ofList

end Source

end TypeSchema
