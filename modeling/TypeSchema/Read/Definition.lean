import TypeSchema.Read.TypeExpr

/-!
# Reading definitions

A definition begins at its keyword, which `definition` reads and hands on with its place. What is
defined does not change what is known: a definition is read, and only then accepted.
-/

namespace TypeSchema.Read

variable {α : Type}

-- ---------------------------------------------------------------------------
-- Names, members and parameters
-- ---------------------------------------------------------------------------

def freshName (ctx : Context) (keyword : Location) : Read String := do
  separator
  let name ← expect .name
  ofExcept (ctx.checkFree name keyword)
  return name.text

def freshMember (definition : String) (members : Array (Token × α)) (name : Token) :
    Read Unit :=
  match members.find? (·.1.text = name.text) with
  | some (earlier, _) =>
    throw (.repeatedMember name.text definition name.location earlier.location)
  | none => pure ()

def parameter (earlier : Array String) : Read String := do
  let name ← expect .name
  if name.text ∈ earlier then throw (.repeatedParameter name.text name.location)
  return name.text

/-- The parameters of a definition in angle brackets, if there are any. -/
def parameters : Read (List String) := do
  if ← takeMark .leftAngle then items .rightAngle parameter
  else return []

/-- A definition without parameters is not generic. -/
def generic? (parameters : List String) : Option (List String) :=
  if parameters.isEmpty then none else some parameters

def member (entry : Token × TypeExpr) : Member := ⟨entry.1.text, entry.2⟩

-- ---------------------------------------------------------------------------
-- Structs
-- ---------------------------------------------------------------------------

def fieldEntry (scope : Scope) (earlier : Array (Token × TypeExpr)) : Read (Token × TypeExpr) := do
  let name ← expect .symbol
  freshMember scope.name earlier name
  let _ ← expect (.mark .colon)
  skipSpaces
  return (name, ← typeExpr scope)

def struct (ctx : Context) (keyword : Location) : Read Definition := do
  let name ← freshName ctx keyword
  let parameters ← parameters
  bodyStart
  let fields ← body (fieldEntry { ctx with name, parameters })
  definitionEnd
  return .struct ⟨⟨name, keyword⟩, generic? parameters, fields.map member⟩

-- ---------------------------------------------------------------------------
-- Unions
-- ---------------------------------------------------------------------------

inductive UnionOption where
  | tag (field : String)
  | embedded
  deriving DecidableEq

def unionOption : Read UnionOption := do
  let option ← expect .symbol
  match option.text with
  | "tag" =>
    skipSpaces
    let _ ← expect (.mark .equals)
    skipSpaces
    let field ← expect .symbol
    return .tag field.text
  | "embedded" => return .embedded
  | other => throw (.unknownOption other option.location)

def unionOptions : Read (List UnionOption) := do
  if ← takeMark .leftParen then
    skipSpaces
    items .rightParen fun _ => do
      let option ← unionOption
      skipSpaces
      return option
  else return []

/-- The tag field that the last of the options names, if any does. -/
def tagField (options : List UnionOption) : String :=
  options.foldl (fun
    | _, .tag field => field
    | field, .embedded => field) Union.defaultTagField

def constructorEntry (scope : Scope) (earlier : Array (Token × TypeExpr)) :
    Read (Token × TypeExpr) := do
  let tag ← expect .name
  freshMember scope.name earlier tag
  let type? ← afterColon? (typeExpr scope)
  return (tag, type?.getD .empty)

def payload (ctx : Context) : Read Struct := do
  let name ← expect .name
  ofExcept (ctx.payload name)

/-- A constructor of an embedded union, with the tag merged into the payload. -/
def variantEntry (ctx : Context) (definition tagField : String)
    (earlier : Array (Token × Option Struct)) : Read (Token × Option Struct) := do
  let tag ← expect .name
  freshMember definition earlier tag
  let payload? ← afterColon? (payload ctx)
  return (tag, payload?.map (·.withTag tagField tag.text))

def variantOf (entry : Token × Option Struct) : Variant := ⟨entry.1.text, entry.2⟩

/-- The constructors of a union. An embedded one has a parameter list even where none is written. -/
def unionBody (scope : Scope) (embedded : Bool) (tagField : String) : Read Union.Body := do
  if embedded then
    let entries ← body (variantEntry scope.toContext scope.name tagField)
    return .embedded scope.parameters (entries.map variantOf)
  else
    let entries ← body (constructorEntry scope)
    return .tagged (generic? scope.parameters) (entries.map member)

def union (ctx : Context) (keyword : Location) : Read Definition := do
  let options ← unionOptions
  let name ← freshName ctx keyword
  let parameters ← parameters
  bodyStart
  let body ← unionBody { ctx with name, parameters } (.embedded ∈ options) (tagField options)
  definitionEnd
  return .union ⟨⟨name, keyword⟩, tagField options, body⟩

-- ---------------------------------------------------------------------------
-- Enums
-- ---------------------------------------------------------------------------

def enumValue : Read Enum.Value := do
  let kinds : List Token.Kind := [.text, .natural]
  let t ← peek
  match t.kind with
  | .text =>
    let _ ← next
    return .string (literalContent t.text)
  | .natural =>
    match Natural.word? t.text.toList with
    | some n =>
      let _ ← next
      return .number n
    | none => unexpected kinds
  | _ => unexpected kinds

def itemEntry (definition : String) (earlier : Array (Token × Enum.Value)) :
    Read (Token × Enum.Value) := do
  let tag ← expectOneOf [.symbol, .name]
  freshMember definition earlier tag
  skipSpaces
  let _ ← expect (.mark .equals)
  skipSpaces
  return (tag, ← enumValue)

def itemOf (entry : Token × Enum.Value) : Enum.Item := ⟨entry.1.text, entry.2⟩

def enum (ctx : Context) (keyword : Location) : Read Definition := do
  let name ← freshName ctx keyword
  bodyStart
  let entries ← body (itemEntry name)
  definitionEnd
  return .enum ⟨⟨name, keyword⟩, entries.map itemOf⟩

-- ---------------------------------------------------------------------------
-- Untagged unions and imports
-- ---------------------------------------------------------------------------

def untaggedUnion (ctx : Context) (keyword : Location) : Read Definition := do
  separator
  let second ← expect .symbol
  if second.text ≠ "union" then
    throw (.unknownKeyword ("untagged " ++ second.text) keyword)
  let name ← freshName ctx keyword
  bodyStart
  let cases ← body fun _ => reference { ctx with name, parameters := [] }
  definitionEnd
  return .untagged ⟨⟨name, keyword⟩, cases⟩

/-- The qualifier that an import gives a module: its name, unless another is written. -/
def qualifier (module : Token) : Read Token := do
  skipSpaces
  if ← takeMark .equals then
    skipSpaces
    expect .symbol
  else return module

def importLine (ctx : Context) (keyword : Location) : Read Definition := do
  separator
  let module ← expect .symbol
  let qualifier ← qualifier module
  -- a qualifier that is taken is told before a module that is not there
  ofExcept (ctx.checkFree qualifier keyword)
  if !ctx.library.contains module.text then
    throw (.unknownModule module.text module.location)
  definitionEnd
  return .imports ⟨⟨module.text, keyword⟩, qualifier.text⟩

-- ---------------------------------------------------------------------------
-- Any definition
-- ---------------------------------------------------------------------------

/-- The next definition, or none if only blank lines are left. -/
def definition? (ctx : Context) : Read (Option Definition) := do
  skipBlankLines
  if ← atEnd then return none
  let keyword ← expect .symbol
  match keyword.text with
  | "struct" => some <$> struct ctx keyword.location
  | "union" => some <$> union ctx keyword.location
  | "enum" => some <$> enum ctx keyword.location
  | "untagged" => some <$> untaggedUnion ctx keyword.location
  | "import" => some <$> importLine ctx keyword.location
  | other => throw (.unknownKeyword other keyword.location)

end TypeSchema.Read
