import TypeSchema.Fault
import TypeSchema.Module

/-!
# What names mean

While a module is read, a name is looked up among the primitive types, the definitions accepted so
far, the definition that is being read and its parameters, in this order. A qualified name is
looked up in another module. Nothing is resolved later: a name that means nothing where it stands
is a fault there.
-/

namespace TypeSchema

/-- What is known between two definitions of a module. -/
structure Context where
  /-- the modules that the module may refer to -/
  library : Library
  /-- the definitions of the module so far, by the names that it knows them by -/
  accepted : Table Definition
  /-- which modules the aliases of its imports stand for -/
  aliases : List (String × String)

namespace Context

def initial (library : Library) : Context := ⟨library, .empty, []⟩

/-- The module that a qualifier stands for: the one it is an alias of, or else its namesake. -/
def moduleName (ctx : Context) (qualifier : String) : String :=
  (ctx.aliases.lookup qualifier).getD qualifier

def resolveQualified (ctx : Context) (qualifier name : Token) : Except Fault Reference :=
  let module := ctx.moduleName qualifier.text
  match ctx.library.get? module with
  | none => .error (.unknownModule module qualifier.location)
  | some m =>
    match m.get? name.text with
    | none => .error (.unknownReference (qualifier.text ++ "." ++ name.text) qualifier.location)
    | some d => .ok (.imported qualifier.text d)

/-- Refuses a name that a definition must not take; of a definition that takes one again, the
keyword is at fault. -/
def checkFree (ctx : Context) (name : Token) (keyword : Location) : Except Fault Unit :=
  if Primitive.isName name.text then .error (.reservedName name.text name.location)
  else match ctx.accepted.get? name.text with
    | some earlier => .error (.repeatedDefinition name.text keyword earlier.location)
    | none => .ok ()

def payload (ctx : Context) (name : Token) : Except Fault Struct :=
  if Primitive.isName name.text then
    .error (.unsuitablePayload name.text .primitive name.location)
  else match ctx.accepted.get? name.text with
    | none => .error (.unknownReference name.text name.location)
    | some d =>
      match d.asStruct? with
      | none => .error (.unsuitablePayload name.text (.definition d.kind) name.location)
      | some s => .ok s

def withAlias (ctx : Context) : Definition → Context
  | .imports i => { ctx with aliases := (i.qualifier, i.heading.name) :: ctx.aliases }
  | _ => ctx

@[simp] theorem library_withAlias (ctx : Context) (d : Definition) :
    (ctx.withAlias d).library = ctx.library := by cases d <;> rfl

@[simp] theorem accepted_withAlias (ctx : Context) (d : Definition) :
    (ctx.withAlias d).accepted = ctx.accepted := by cases d <;> rfl

def accept (ctx : Context) (d : Definition) : Except Fault Context :=
  match ctx.accepted.insert? d.key d with
  | none =>
    let previous := (ctx.accepted.get? d.name).elim d.location (·.location)
    .error (.repeatedDefinition d.name d.location previous)
  | some accepted => .ok { ctx with accepted }

end Context

/-- What is known inside a definition. -/
structure Scope extends Context where
  /-- the name of the definition -/
  name : String
  parameters : List String

def Scope.resolve (scope : Scope) (name : Token) : Except Fault Reference :=
  match Primitive.ofName? name.text with
  | some p => .ok (.primitive p)
  | none =>
    match scope.accepted.get? name.text with
    | some d => .ok (.definition d)
    | none =>
      if name.text = scope.name then .ok (.itself scope.name scope.parameters)
      else if name.text ∈ scope.parameters then .ok (.parameter name.text)
      else .error (.unknownReference name.text name.location)

end TypeSchema
