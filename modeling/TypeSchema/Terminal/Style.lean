/-!
# Styled text

Output for a terminal is lines of spans, each in one style or in none. Whether styles are shown
is decided when the lines are turned into text: then each styled span stands between the sequence
that opens its style and the one that closes every style.
-/

namespace TypeSchema.Terminal

inductive Style where
  /-- what an error is and where -/
  | error
  | warning
  | note
  | help
  | bold
  /-- what leads the eye: gutters and labels beside the error -/
  | guide
  deriving DecidableEq, Repr

def Style.parameters : Style → String
  | .error => "1;31"
  | .warning => "1;33"
  | .note => "1;36"
  | .help => "1;32"
  | .bold => "1"
  | .guide => "1;34"

def escape (parameters : String) : String := "\x1b[" ++ parameters ++ "m"

def reset : String := escape "0"

structure Span where
  style : Option Style
  content : String
  deriving DecidableEq, Repr

namespace Span

def plain (content : String) : Span := ⟨none, content⟩

def styled (style : Style) (content : String) : Span := ⟨some style, content⟩

def text (colors : Bool) (s : Span) : String :=
  match s.style with
  | some style => if colors then escape style.parameters ++ s.content ++ reset else s.content
  | none => s.content

end Span

/-- The spans of a line, which its line feed follows. -/
abbrev Line := List Span

def Line.text (colors : Bool) (line : Line) : String :=
  String.join (line.map (·.text colors)) ++ "\n"

def textOfLines (colors : Bool) (lines : List Line) : String :=
  String.join (lines.map (Line.text colors))

inductive Coloring where
  /-- on a terminal, unless the user asks for none -/
  | auto
  | always
  | never
  deriving DecidableEq, Repr

namespace Coloring

instance : Inhabited Coloring := ⟨.auto⟩

def resolve (mode : Coloring) (onTerminal noColor : Bool) : Bool :=
  match mode with
  | .auto => onTerminal && !noColor
  | .always => true
  | .never => false

/-- The user asks for no colours by setting a variable of the environment to something not empty. -/
def inEnvironment (mode : Coloring) (onTerminal : Bool) (setting : Option String) : Bool :=
  mode.resolve onTerminal (setting.any (! ·.isEmpty))

end Coloring

end TypeSchema.Terminal
