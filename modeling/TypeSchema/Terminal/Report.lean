import TypeSchema.Diagnostic
import TypeSchema.Source
import TypeSchema.Terminal.Style

/-!
# Reports of diagnostics

`report` lays a diagnostic out in lines. With a source at hand each label shows the line it
points at, in a gutter with the line's number, and the marked characters underlined. The gutter
is as wide as the greatest line number of the diagnostic needs, so all its rules stand in one
column.
-/

namespace TypeSchema.Terminal

open Diagnostic

def Style.ofSeverity : Severity → Style
  | .error => .error
  | .warning => .warning
  | .note => .note
  | .help => .help

def Style.ofRole : Role → Style
  | .primary => .error
  | .secondary => .guide

def marker : Role → String
  | .primary => "-->"
  | .secondary => ":::"

def underlineChar : Role → Char
  | .primary => '^'
  | .secondary => '-'

def blanks (n : Nat) : String := String.ofList (List.replicate n ' ')

def alignRight (width : Nat) (text : String) : String := blanks (width - text.length) ++ text

/-- One column more than the greatest line number of the labels has digits. -/
def gutterWidth (labels : List Label) : Nat :=
  ((labels.map fun l => (toString l.location.line).length).max?.getD 1) + 1

/-- A label without its source is its place and its message. -/
def bareLabel (gutter : Nat) (l : Label) : List Line :=
  [[.plain (blanks gutter ++ marker l.role ++ " " ++ toString l.location ++ ": "),
    .styled (.ofRole l.role) l.message]]

def labelMessage (l : Label) : List Span :=
  if l.message.isEmpty then [] else [.plain " ", .styled (.ofRole l.role) l.message]

/-- The line that a label points at, between an empty gutter and the underline. -/
def snippet (gutter : Nat) (l : Label) (line : String) : List Line :=
  let rule (number : String) : Span := .styled .guide (alignRight gutter number ++ " |")
  [[rule ""],
    [rule (toString l.location.line), .plain (" " ++ line)],
    [rule "", .plain (" " ++ blanks (l.location.column - 1)),
      .styled (.ofRole l.role) (String.ofList (List.replicate l.width (underlineChar l.role)))] ++
      labelMessage l]

/-- A label with its source; where the source has no such line, only the place is told. -/
def sourceLabel (gutter : Nat) (source : Source) (l : Label) : List Line :=
  [.plain (blanks gutter), .styled .guide (marker l.role),
    .plain (" " ++ source.file ++ ":" ++ toString l.location)] ::
  match source.line? l.location.line with
  | some line => snippet gutter l line
  | none => []

def labelLines (gutter : Nat) (source : Option Source) (l : Label) : List Line :=
  match source with
  | some source => sourceLabel gutter source l
  | none => bareLabel gutter l

def remark (gutter : Nat) (style : Style) (title content : String) : Line :=
  [.plain (blanks (gutter - 1) ++ " = "), .styled style title, .plain (": " ++ content)]

def report (source : Option Source) (d : Diagnostic) : List Line :=
  let gutter := gutterWidth d.labels
  [.styled (.ofSeverity d.severity) d.severity.text, .styled .bold ("[" ++ d.code.text ++ "]"),
    .plain (": " ++ d.message)] ::
  d.labels.flatMap (labelLines gutter source) ++
  d.notes.map (remark gutter .bold "note") ++
  d.suggestions.map (remark gutter .help "help") ++ [[]]

def counted (n : Nat) (thing : String) : String :=
  toString n ++ " " ++ thing ++ if n = 1 then "" else "s"

/-- The last line of a run: what it was stopped by and what else was found, if anything. -/
def summary (errors warnings : Nat) : List Line :=
  let warned := counted warnings "warning" ++ " emitted"
  if errors = 0 then
    if warnings = 0 then [] else [[.styled .warning "warning", .plain (": " ++ warned)]]
  else
    let cause := if errors = 1 then "previous error" else counted errors "previous error"
    let rest := if warnings = 0 then "" else "; " ++ warned
    [[.styled .error "error", .plain (": aborting due to " ++ cause ++ rest)]]

end TypeSchema.Terminal
