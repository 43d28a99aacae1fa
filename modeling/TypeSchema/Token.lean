import TypeSchema.Location

/-!
# Tokens

A token is a stretch of the text with its kind and the place of its first character. Spaces and
line breaks are tokens too, since layout carries meaning. A token holds no value: identifiers,
literals and numbers are read back out of its text.
-/

namespace TypeSchema

inductive Mark where
  | leftBrace | rightBrace
  | leftAngle | rightAngle
  | leftBracket | rightBracket
  | leftParen | rightParen
  | colon | comma | period | equals | asterisk | questionMark
  deriving DecidableEq, Repr

namespace Mark

def all : List Mark :=
  [.leftBrace, .rightBrace, .leftAngle, .rightAngle, .leftBracket, .rightBracket, .leftParen,
    .rightParen, .colon, .comma, .period, .equals, .asterisk, .questionMark]

def char : Mark → Char
  | .leftBrace => '{'
  | .rightBrace => '}'
  | .leftAngle => '<'
  | .rightAngle => '>'
  | .leftBracket => '['
  | .rightBracket => ']'
  | .leftParen => '('
  | .rightParen => ')'
  | .colon => ':'
  | .comma => ','
  | .period => '.'
  | .equals => '='
  | .asterisk => '*'
  | .questionMark => '?'

def ofChar? (c : Char) : Option Mark := all.find? (·.char = c)

theorem ofChar?_char (m : Mark) : ofChar? m.char = some m := by cases m <;> decide

theorem char_of_ofChar? {c : Char} {m : Mark} (h : ofChar? c = some m) : m.char = c := by
  simpa using List.find?_some h

end Mark

namespace Token

inductive Kind where
  /-- an identifier that starts with a small letter or an underscore -/
  | symbol
  /-- an identifier that starts with a capital letter -/
  | name
  /-- a literal with its quotes -/
  | text
  /-- decimal digits whose number fits in 64 bits -/
  | natural
  | mark (m : Mark)
  /-- a line feed -/
  | newline
  /-- a carriage return and a line feed -/
  | crlf
  /-- a single space -/
  | space
  /-- characters that start no other token -/
  | invalid
  | endOfInput
  deriving DecidableEq, Repr

namespace Kind

def describe : Kind → String
  | .symbol => "symbol"
  | .name => "name"
  | .text => "string literal"
  | .natural => "unsigned integer"
  | .mark m => "`" ++ m.char.toString ++ "`"
  | .newline => "newline"
  | .crlf => "CRLF newline"
  | .space => "space"
  | .invalid => "invalid token"
  | .endOfInput => "end of input"

def isLineBreak : Kind → Bool
  | .newline | .crlf => true
  | _ => false

end Kind

end Token

structure Token where
  kind : Token.Kind
  /-- The exact characters of the token; none at the end of the input. -/
  text : String
  /-- The place of its first character. -/
  location : Location
  deriving DecidableEq, Repr

/-- How many marks underline the token: one for each character that is no line break, but at
least one. -/
def Token.width (t : Token) : Nat :=
  max 1 (min (t.text.toList.countP fun c => c ≠ '\r' ∧ c ≠ '\n') Location.limit)

end TypeSchema
