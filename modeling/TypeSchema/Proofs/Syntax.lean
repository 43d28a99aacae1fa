import TypeSchema.Token

/-!
# Syntax trees

What a text says before any name in it means something. The leaves are the tokens that carry a
name, a literal or a number; layout and punctuation leave no trace.
-/

namespace TypeSchema

/-- A name, the qualifier before it, and the arguments after it; none if there are no brackets. -/
inductive ReferenceSyntax where
  | mk (qualifier : Option Token) (name : Token) (arguments : List ReferenceSyntax)

inductive TypeSyntax where
  | literal (text : Token)
  | reference (target : ReferenceSyntax)
  | array (size : Token) (item : TypeSyntax)
  | slice (item : TypeSyntax)
  | pointer (item : TypeSyntax)
  | optional (item : TypeSyntax)

inductive OptionSyntax where
  | tag (field : Token)
  | embedded

/-- A member is its name with what stands after it. -/
inductive DefinitionSyntax where
  | struct (keyword name : Token) (parameters : List Token) (fields : List (Token × TypeSyntax))
  | union (keyword : Token) (options : List OptionSyntax) (name : Token)
      (parameters : List Token) (constructors : List (Token × Option TypeSyntax))
  | embedded (keyword : Token) (options : List OptionSyntax) (name : Token)
      (parameters : List Token) (variants : List (Token × Option Token))
  | enum (keyword name : Token) (items : List (Token × Token))
  | untagged (keyword name : Token) (cases : List ReferenceSyntax)
  | imports (keyword module : Token) (qualifier : Option Token)

/-- Induction over a reference, with the claim at hand for each of its arguments. -/
theorem ReferenceSyntax.induction {P : ReferenceSyntax → Prop}
    (step : ∀ qualifier name arguments, (∀ a ∈ arguments, P a) → P ⟨qualifier, name, arguments⟩) :
    ∀ r, P r
  | ⟨qualifier, name, arguments⟩ => step qualifier name arguments fun a _ => induction step a

end TypeSchema
