import TypeSchema.Natural
import TypeSchema.Read.Layout
import TypeSchema.Scope

/-!
# Reading types

A type is a literal, a reference, or an array, a slice, a pointer or an option of a type. A
reference is a name, perhaps with a qualifier before it and arguments after it, and no spaces
between these.
-/

namespace TypeSchema.Read

def literalContent (text : String) : String :=
  match text.toList with
  | '"' :: rest => if rest.getLast? = some '"' then String.ofList rest.dropLast else text
  | _ => text

def referenceHead (scope : Scope) : Read Reference := do
  let first ← expectOneOf [.name, .symbol]
  if first.kind = .symbol then
    let _ ← expect (.mark .period)
    let name ← expect .name
    ofExcept (scope.resolveQualified first name)
  else ofExcept (scope.resolve first)

/-- A parameter as an argument is no reference. -/
def argumentOf : Reference → Argument
  | .parameter name => .parameter name
  | r => .reference r

/-- A reference, whose arguments `again` reads. -/
def referenceStep (scope : Scope) (again : Read Reference) : Read Reference := do
  let head ← referenceHead scope
  if ← takeMark .leftAngle then
    return .applied head (← items .rightAngle fun _ => argumentOf <$> again)
  else return head

def reference (scope : Scope) : Read Reference := recursive (referenceStep scope)

def arraySize : Read UInt64 := do
  let size ← expect .natural
  match Natural.word? size.text.toList with
  | some n => return n
  | none => throw (.unexpected [.natural] size)

def typeStart : List Token.Kind :=
  [.text, .name, .symbol, .mark .leftBracket, .mark .asterisk, .mark .questionMark]

def typeStep (scope : Scope) (again : Read TypeExpr) : Read TypeExpr := do
  let t ← peek
  match t.kind with
  | .text =>
    let _ ← next
    return .literal (literalContent t.text)
  | .name | .symbol => return .reference (← reference scope)
  | .mark .leftBracket =>
    let _ ← next
    if ← takeMark .rightBracket then return .slice (← again)
    let size ← arraySize
    let _ ← expect (.mark .rightBracket)
    return .array size (← again)
  | .mark .asterisk =>
    let _ ← next
    return .pointer (← again)
  | .mark .questionMark =>
    let _ ← next
    return .optional (← again)
  | _ => unexpected typeStart

def typeExpr (scope : Scope) : Read TypeExpr := recursive (typeStep scope)

end TypeSchema.Read
