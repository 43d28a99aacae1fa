import TypeSchema.Definition.Basic

/-!
# Equality of definitions

Two definitions are equal when all of their parts are: places in the text and the definitions that
they refer to count as well. `same_iff` says that the comparison decides equality.
-/

namespace TypeSchema

mutual

def Reference.same : Reference → Reference → Bool
  | .primitive p, .primitive q => p = q
  | .definition d, .definition e => d.same e
  | .imported q d, .imported r e => q = r && d.same e
  | .itself n ps, .itself m qs => n = m && ps = qs
  | .parameter n, .parameter m => n = m
  | .applied r xs, .applied s ys => r.same s && Argument.sameAll xs ys
  | _, _ => false

def Reference.sameAll : List Reference → List Reference → Bool
  | [], [] => true
  | r :: rs, s :: ss => r.same s && Reference.sameAll rs ss
  | _, _ => false

def Argument.same : Argument → Argument → Bool
  | .parameter n, .parameter m => n = m
  | .reference r, .reference s => r.same s
  | _, _ => false

def Argument.sameAll : List Argument → List Argument → Bool
  | [], [] => true
  | x :: xs, y :: ys => x.same y && Argument.sameAll xs ys
  | _, _ => false

def TypeExpr.same : TypeExpr → TypeExpr → Bool
  | .empty, .empty => true
  | .literal s, .literal t => s = t
  | .reference r, .reference s => r.same s
  | .array m t, .array n u => m = n && t.same u
  | .slice t, .slice u => t.same u
  | .pointer t, .pointer u => t.same u
  | .optional t, .optional u => t.same u
  | _, _ => false

def Member.same : Member → Member → Bool
  | ⟨n, t⟩, ⟨m, u⟩ => n = m && t.same u

def Member.sameAll : List Member → List Member → Bool
  | [], [] => true
  | x :: xs, y :: ys => x.same y && Member.sameAll xs ys
  | _, _ => false

def Struct.same : Struct → Struct → Bool
  | ⟨h, ps, xs⟩, ⟨k, qs, ys⟩ => h = k && ps = qs && Member.sameAll xs ys

def Variant.same : Variant → Variant → Bool
  | ⟨n, none⟩, ⟨m, none⟩ => n = m
  | ⟨n, some s⟩, ⟨m, some t⟩ => n = m && s.same t
  | _, _ => false

def Variant.sameAll : List Variant → List Variant → Bool
  | [], [] => true
  | x :: xs, y :: ys => x.same y && Variant.sameAll xs ys
  | _, _ => false

def Union.Body.same : Union.Body → Union.Body → Bool
  | .tagged ps xs, .tagged qs ys => ps = qs && Member.sameAll xs ys
  | .embedded ps xs, .embedded qs ys => ps = qs && Variant.sameAll xs ys
  | _, _ => false

def Union.same : Union → Union → Bool
  | ⟨h, f, b⟩, ⟨k, g, c⟩ => h = k && f = g && b.same c

def UntaggedUnion.same : UntaggedUnion → UntaggedUnion → Bool
  | ⟨h, rs⟩, ⟨k, ss⟩ => h = k && Reference.sameAll rs ss

def Definition.same : Definition → Definition → Bool
  | .struct s, .struct t => s.same t
  | .union u, .union v => u.same v
  | .enum e, .enum f => e = f
  | .untagged u, .untagged v => u.same v
  | .imports i, .imports j => i = j
  | _, _ => false

end

mutual

theorem Reference.same_iff : ∀ a b : Reference, a.same b ↔ a = b
  | .primitive p, b => by cases b <;> simp [Reference.same]
  | .definition d, b => by cases b <;> simp [Reference.same, d.same_iff]
  | .imported q d, b => by cases b <;> simp [Reference.same, d.same_iff]
  | .itself n ps, b => by cases b <;> simp [Reference.same]
  | .parameter n, b => by cases b <;> simp [Reference.same]
  | .applied r xs, b => by
    cases b <;> simp [Reference.same, r.same_iff, Argument.sameAll_iff xs]

theorem Reference.sameAll_iff : ∀ rs ss : List Reference, Reference.sameAll rs ss ↔ rs = ss
  | [], ss => by cases ss <;> simp [Reference.sameAll]
  | r :: rs, ss => by
    cases ss <;> simp [Reference.sameAll, r.same_iff, Reference.sameAll_iff rs]

theorem Argument.same_iff : ∀ a b : Argument, a.same b ↔ a = b
  | .parameter n, b => by cases b <;> simp [Argument.same]
  | .reference r, b => by cases b <;> simp [Argument.same, r.same_iff]

theorem Argument.sameAll_iff : ∀ xs ys : List Argument, Argument.sameAll xs ys ↔ xs = ys
  | [], ys => by cases ys <;> simp [Argument.sameAll]
  | x :: xs, ys => by
    cases ys <;> simp [Argument.sameAll, x.same_iff, Argument.sameAll_iff xs]

theorem TypeExpr.same_iff : ∀ a b : TypeExpr, a.same b ↔ a = b
  | .empty, b => by cases b <;> simp [TypeExpr.same]
  | .literal s, b => by cases b <;> simp [TypeExpr.same]
  | .reference r, b => by cases b <;> simp [TypeExpr.same, r.same_iff]
  | .array n t, b => by cases b <;> simp [TypeExpr.same, t.same_iff]
  | .slice t, b => by cases b <;> simp [TypeExpr.same, t.same_iff]
  | .pointer t, b => by cases b <;> simp [TypeExpr.same, t.same_iff]
  | .optional t, b => by cases b <;> simp [TypeExpr.same, t.same_iff]

theorem Member.same_iff : ∀ a b : Member, a.same b ↔ a = b
  | ⟨n, t⟩, ⟨m, u⟩ => by simp [Member.same, t.same_iff]

theorem Member.sameAll_iff : ∀ xs ys : List Member, Member.sameAll xs ys ↔ xs = ys
  | [], ys => by cases ys <;> simp [Member.sameAll]
  | x :: xs, ys => by
    cases ys <;> simp [Member.sameAll, x.same_iff, Member.sameAll_iff xs]

theorem Struct.same_iff : ∀ a b : Struct, a.same b ↔ a = b
  | ⟨h, ps, xs⟩, ⟨k, qs, ys⟩ => by simp [Struct.same, Member.sameAll_iff xs, and_assoc]

theorem Variant.same_iff : ∀ a b : Variant, a.same b ↔ a = b
  | ⟨n, none⟩, ⟨m, p⟩ => by cases p <;> simp [Variant.same]
  | ⟨n, some s⟩, ⟨m, p⟩ => by cases p <;> simp [Variant.same, s.same_iff]

theorem Variant.sameAll_iff : ∀ xs ys : List Variant, Variant.sameAll xs ys ↔ xs = ys
  | [], ys => by cases ys <;> simp [Variant.sameAll]
  | x :: xs, ys => by
    cases ys <;> simp [Variant.sameAll, x.same_iff, Variant.sameAll_iff xs]

theorem Union.Body.same_iff : ∀ a b : Union.Body, a.same b ↔ a = b
  | .tagged ps xs, b => by cases b <;> simp [Union.Body.same, Member.sameAll_iff xs]
  | .embedded ps xs, b => by cases b <;> simp [Union.Body.same, Variant.sameAll_iff xs]

theorem Union.same_iff : ∀ a b : Union, a.same b ↔ a = b
  | ⟨h, f, b⟩, ⟨k, g, c⟩ => by simp [Union.same, b.same_iff, and_assoc]

theorem UntaggedUnion.same_iff : ∀ a b : UntaggedUnion, a.same b ↔ a = b
  | ⟨h, rs⟩, ⟨k, ss⟩ => by simp [UntaggedUnion.same, Reference.sameAll_iff rs]

theorem Definition.same_iff : ∀ a b : Definition, a.same b ↔ a = b
  | .struct s, b => by cases b <;> simp [Definition.same, s.same_iff]
  | .union u, b => by cases b <;> simp [Definition.same, u.same_iff]
  | .enum e, b => by cases b <;> simp [Definition.same]
  | .untagged u, b => by cases b <;> simp [Definition.same, u.same_iff]
  | .imports i, b => by cases b <;> simp [Definition.same]

end

instance : DecidableEq Definition := fun a b => decidable_of_iff _ (a.same_iff b)

instance : DecidableEq Reference := fun a b => decidable_of_iff _ (a.same_iff b)

instance : DecidableEq TypeExpr := fun a b => decidable_of_iff _ (a.same_iff b)

instance : DecidableEq Struct := fun a b => decidable_of_iff _ (a.same_iff b)

end TypeSchema
