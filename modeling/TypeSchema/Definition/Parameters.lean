import TypeSchema.Definition.Basic

/-!
# Parameters in use

Which parameters of its definition a type mentions. An application counts for its arguments only.
A definition that mentions itself without arguments stands for itself applied to its own
parameters, so such a reference mentions all of them.
-/

namespace TypeSchema

def addName (names : List String) (name : String) : List String :=
  if name ∈ names then names else names ++ [name]

mutual

/-- The names with those that the reference mentions and that are not yet among them. -/
def Reference.addNames (names : List String) : Reference → List String
  | .parameter name => addName names name
  | .itself _ parameters => parameters.foldl addName names
  | .applied _ arguments => Argument.addAllNames names arguments
  | .primitive _ | .definition _ | .imported .. => names

def Argument.addNames (names : List String) : Argument → List String
  | .parameter name => addName names name
  | .reference r => r.addNames names

def Argument.addAllNames (names : List String) : List Argument → List String
  | [] => names
  | a :: rest => Argument.addAllNames (a.addNames names) rest

end

/-- The parameters that the reference mentions, each once, in the order of their first mention. -/
def Reference.parametersInUse (r : Reference) : List String := r.addNames []

def TypeExpr.parametersInUse (t : TypeExpr) : List String :=
  match t.reference? with
  | some r => r.parametersInUse
  | none => []

/-- Those of the names `enclosing` that the type mentions, in the order of `enclosing`. A name of a
primitive type is never taken for a parameter. -/
def TypeExpr.parametersAmong (enclosing : List String) (t : TypeExpr) : List String :=
  let used := t.parametersInUse
  enclosing.filter fun name => name ∈ used ∧ !Primitive.isName name

theorem nodup_addName {names : List String} {name : String} (h : names.Nodup) :
    (addName names name).Nodup := by
  unfold addName
  split
  next => exact h
  next hn => exact List.nodup_append.2 ⟨h, by simp, by grind⟩

end TypeSchema
