import TypeSchema.Proofs.Library
import TypeSchema.Proofs.Relocated

/-!
# Definitions of a text that was moved

`moved f` puts what stood at a place `l` of the text at the place `f l`. A tree is moved with all of
its tokens. A definition is moved with the definitions of the same text that it refers to; those of
other modules stay where they are. What a tree means moves with the tree.
-/

namespace TypeSchema

variable {f g : Location → Location}

-- ---------------------------------------------------------------------------
-- Trees
-- ---------------------------------------------------------------------------

def Token.moved (f : Location → Location) (t : Token) : Token :=
  { t with location := f t.location }

def ReferenceSyntax.moved (f : Location → Location) : ReferenceSyntax → ReferenceSyntax
  | ⟨qualifier, name, arguments⟩ =>
    ⟨qualifier.map (·.moved f), name.moved f, arguments.map (·.moved f)⟩

def TypeSyntax.moved (f : Location → Location) : TypeSyntax → TypeSyntax
  | .literal t => .literal (t.moved f)
  | .reference r => .reference (r.moved f)
  | .array size item => .array (size.moved f) (item.moved f)
  | .slice item => .slice (item.moved f)
  | .pointer item => .pointer (item.moved f)
  | .optional item => .optional (item.moved f)

def OptionSyntax.moved (f : Location → Location) : OptionSyntax → OptionSyntax
  | .tag field => .tag (field.moved f)
  | .embedded => .embedded

def DefinitionSyntax.moved (f : Location → Location) : DefinitionSyntax → DefinitionSyntax
  | .struct t n parameters fields =>
    .struct (t.moved f) (n.moved f) (parameters.map (·.moved f))
      (fields.map (Prod.map (·.moved f) (·.moved f)))
  | .union t options n parameters constructors =>
    .union (t.moved f) (options.map (·.moved f)) (n.moved f) (parameters.map (·.moved f))
      (constructors.map (Prod.map (·.moved f) fun type? => type?.map (·.moved f)))
  | .embedded t options n parameters variants =>
    .embedded (t.moved f) (options.map (·.moved f)) (n.moved f) (parameters.map (·.moved f))
      (variants.map (Prod.map (·.moved f) fun payload? => payload?.map (·.moved f)))
  | .enum t n items => .enum (t.moved f) (n.moved f) (items.map (Prod.map (·.moved f) (·.moved f)))
  | .untagged t n cases => .untagged (t.moved f) (n.moved f) (cases.map (·.moved f))
  | .imports t module qualifier =>
    .imports (t.moved f) (module.moved f) (qualifier.map (·.moved f))

@[simp] theorem Token.kind_moved (t : Token) : (t.moved f).kind = t.kind := rfl

@[simp] theorem Token.text_moved (t : Token) : (t.moved f).text = t.text := rfl

@[simp] theorem Token.moved_id (t : Token) : t.moved id = t := rfl

@[simp] theorem Token.moved_moved (t : Token) : (t.moved f).moved g = t.moved (g ∘ f) := rfl

theorem Token.map_moved_congr {ts : List Token} (h : ∀ t ∈ ts, f t.location = g t.location) :
    ts.map (·.moved f) = ts.map (·.moved g) := by
  refine List.map_congr_left fun t ht => ?_
  rw [moved, moved, h t ht]

theorem Token.texts_moved (ts : List Token) :
    (ts.map (·.moved f)).map (·.text) = ts.map (·.text) := by
  rw [List.map_map]
  rfl

theorem ReferenceSyntax.moved_id (r : ReferenceSyntax) : r.moved id = r := by
  induction r using ReferenceSyntax.induction with
  | step q n arguments ih =>
    rw [moved, List.map_congr_left ih]
    cases q <;> simp

theorem ReferenceSyntax.moved_moved (r : ReferenceSyntax) :
    (r.moved f).moved g = r.moved (g ∘ f) := by
  induction r using ReferenceSyntax.induction with
  | step q n arguments ih =>
    have others : (arguments.map (·.moved f)).map (·.moved g) = arguments.map (·.moved (g ∘ f)) := by
      rw [List.map_map]
      exact List.map_congr_left ih
    rw [moved, moved, moved, others]
    cases q <;> rfl

theorem TypeSyntax.moved_id (t : TypeSyntax) : t.moved id = t := by
  induction t with
  | literal _ => rfl
  | reference r => rw [moved, r.moved_id]
  | array _ _ ih | slice _ ih | pointer _ ih | optional _ ih => simp [moved, ih]

theorem TypeSyntax.moved_moved (t : TypeSyntax) : (t.moved f).moved g = t.moved (g ∘ f) := by
  induction t with
  | literal _ => rfl
  | reference r => rw [moved, moved, moved, r.moved_moved]
  | array _ _ ih | slice _ ih | pointer _ ih | optional _ ih => simp [moved, ih]

theorem DefinitionSyntax.moved_id (t : DefinitionSyntax) : t.moved id = t := by
  have option (o : OptionSyntax) : o.moved id = o := by cases o <;> rfl
  cases t <;> simp [moved, option, ReferenceSyntax.moved_id, TypeSyntax.moved_id]

theorem DefinitionSyntax.moved_moved (t : DefinitionSyntax) :
    (t.moved f).moved g = t.moved (g ∘ f) := by
  have option (o : OptionSyntax) : (o.moved f).moved g = o.moved (g ∘ f) := by cases o <;> rfl
  cases t <;> simp [moved, Function.comp_def, option, ReferenceSyntax.moved_moved,
    TypeSyntax.moved_moved, Prod.map]

-- ---------------------------------------------------------------------------
-- Definitions
-- ---------------------------------------------------------------------------

abbrev Definition.moved (f : Location → Location) (d : Definition) : Definition :=
  d.relocated f false

/-- The module of the moved text. -/
abbrev Module.moved (f : Location → Location) (m : Module) : Module := m.relocated f false

-- ---------------------------------------------------------------------------
-- Meanings
-- ---------------------------------------------------------------------------

namespace Known

/-- What is known at the same place of the moved text. -/
def moved (f : Location → Location) (k : Known) : Known :=
  { k with earlier := k.earlier.map (·.moved f) }

variable {k : Known}

theorem find?_moved (k : Known) (name : String) :
    (k.moved f).find? name = (k.find? name).map (·.moved f) := by
  rw [find?, moved, List.find?_map, find?]
  congr 2
  funext d
  simp

theorem moduleName_moved (k : Known) (q : String) : (k.moved f).moduleName q = k.moduleName q := by
  rw [moduleName, moved, List.findSome?_map, moduleName]
  exact congrArg (fun p => (k.earlier.findSome? p).getD q) (funext (importedAs?_relocated q))

theorem Free.moved {name : String} (h : k.Free name) : (k.moved f).Free name := by
  rw [free_iff] at h ⊢
  rw [find?_moved, h.2]
  exact ⟨h.1, rfl⟩

end Known

def Inside.moved (f : Location → Location) (s : Inside) : Inside :=
  { s with toKnown := s.toKnown.moved f }

namespace Inside

variable {s : Inside}

theorem NameMeans.moved {x : String} {r : Reference} (h : s.NameMeans x r) :
    (s.moved f).NameMeans x (r.relocated f false) := by
  have found := s.toKnown.find?_moved (f := f) x
  cases h with
  | primitive hp => exact .primitive hp
  | definition hp hd => exact .definition hp (by rw [hd] at found; exact found)
  | itself hp hd hx => exact .itself hp (by rw [hd] at found; exact found) hx
  | parameter hp hd hx hm => exact .parameter hp (by rw [hd] at found; exact found) hx hm

theorem HeadMeans.moved {q : Option Token} {n : Token} {r : Reference} (h : s.HeadMeans q n r) :
    (s.moved f).HeadMeans (q.map (·.moved f)) (n.moved f) (r.relocated f false) := by
  cases h with
  | bare h => exact .bare h.moved
  | qualified hm hd => exact .qualified (by rwa [← s.moduleName_moved (f := f)] at hm) hd

theorem ReferenceMeans.moved {t : ReferenceSyntax} :
    ∀ {r}, s.ReferenceMeans t r →
      (s.moved f).ReferenceMeans (t.moved f) (r.relocated f false) := by
  induction t using ReferenceSyntax.induction with
  | step q n arguments ih =>
    intro r h
    rw [ReferenceSyntax.moved]
    cases h with
    | plain h => exact .plain h.moved
    | applied h hne has =>
      rw [Reference.relocated, Argument.relocatedAll_eq_map]
      refine .applied h.moved (by simpa using hne) ?_
      rw [List.forall₂_map_left_iff, List.forall₂_map_right_iff]
      refine forall₂_imp_mem has fun t ht a ha => ?_
      cases ha with
      | parameter h => exact .parameter (ih t ht h)
      | reference h hr =>
        exact .reference (ih t ht h) fun x hx => hr x (Reference.eq_parameter_of_relocated hx)

theorem TypeMeans.moved {t : TypeSyntax} {type : TypeExpr} (h : s.TypeMeans t type) :
    (s.moved f).TypeMeans (t.moved f) (type.relocated f false) := by
  induction h with
  | literal h => exact .literal h
  | reference h => exact .reference h.moved
  | array hv _ ih => exact .array hv ih
  | slice _ ih => exact .slice ih
  | pointer _ ih => exact .pointer ih
  | optional _ ih => exact .optional ih

theorem FieldMeans.moved {t : Token × TypeSyntax} {m : Member} (h : s.FieldMeans t m) :
    (s.moved f).FieldMeans (t.map (·.moved f) (·.moved f)) (m.relocated f false) := by
  cases h with
  | mk h => exact .mk h.moved

theorem ConstructorMeans.moved {t : Token × Option TypeSyntax} {m : Member}
    (h : s.ConstructorMeans t m) :
    (s.moved f).ConstructorMeans (t.map (·.moved f) fun type? => type?.map (·.moved f))
      (m.relocated f false) := by
  cases h with
  | bare => exact .bare
  | typed h => exact .typed h.moved

end Inside

theorem Distinct.moved {names : List Token} (h : Distinct names) :
    Distinct (names.map (·.moved f)) := by
  rwa [Distinct, Token.texts_moved]

theorem GenericMeans.moved {names : List Token} {generic : Option (List String)}
    (h : GenericMeans names generic) : GenericMeans (names.map (·.moved f)) generic := by
  cases h with
  | none => exact .none
  | some hne =>
    rw [← Token.texts_moved (f := f) names]
    exact .some (by simpa using hne)

theorem tagFieldOf_moved (options : List OptionSyntax) :
    tagFieldOf (options.map (·.moved f)) = tagFieldOf options := by
  have same (o : OptionSyntax) : (o.moved f).field? = o.field? := by cases o <;> rfl
  rw [tagFieldOf, List.filterMap_map, tagFieldOf]
  exact congrArg (fun p => ((options.filterMap p).getLast?).getD _) (funext same)

theorem ItemMeans.moved {t : Token × Token} {i : Enum.Item} (h : ItemMeans t i) :
    ItemMeans (t.map (·.moved f) (·.moved f)) i := by
  obtain ⟨hv⟩ := h
  cases hv with
  | string hk ht => exact .mk (.string hk ht)
  | number hk hn => exact .mk (.number hk hn)

namespace Known

variable {k : Known}

theorem VariantMeans.moved {field : String} {t : Token × Option Token} {v : Variant}
    (h : k.VariantMeans field t v) :
    (k.moved f).VariantMeans field (t.map (·.moved f) fun payload? => payload?.map (·.moved f))
      (v.relocated f false) := by
  cases h with
  | bare => exact .bare
  | @payload n p s h =>
    have found : (k.moved f).find? p.text = some (.struct (s.relocated f false)) := by
      rw [find?_moved, h.2]
      rfl
    cases s
    exact .payload (n := n.moved f) (p := p.moved f) ⟨h.1, found⟩

theorem distinct_moved {α : Type} {lines : List (Token × α)} {inner : α → α}
    (h : Distinct (lines.map Prod.fst)) :
    Distinct ((lines.map (Prod.map (·.moved f) inner)).map Prod.fst) := by
  have same : (lines.map (Prod.map (·.moved f) inner)).map Prod.fst =
      (lines.map Prod.fst).map (·.moved f) := by
    rw [List.map_map, List.map_map]
    rfl
  rw [same]
  exact h.moved

theorem inside_moved (k : Known) (name : String) (parameters : List Token) :
    (⟨k.moved f, name, (parameters.map (·.moved f)).map (·.text)⟩ : Inside) =
      Inside.moved f ⟨k, name, parameters.map (·.text)⟩ := by
  rw [Token.texts_moved]
  rfl

theorem Means.moved {t : DefinitionSyntax} {d : Definition} (h : k.Means t d) :
    (k.moved f).Means (t.moved f) (d.moved f) := by
  cases h with
  | struct hfree hdistinct hgeneric hd hm =>
    rw [Definition.moved, Definition.relocated, Struct.relocated, Member.relocatedAll_eq_map]
    refine .struct hfree.moved hdistinct.moved hgeneric.moved (distinct_moved hd) ?_
    rw [inside_moved, List.forall₂_map_left_iff, List.forall₂_map_right_iff]
    exact hm.imp fun _ _ h => h.moved
  | @union _ options _ _ _ _ _ hfree hdistinct hgeneric hd hm =>
    rw [Definition.moved, Definition.relocated, Union.relocated, Union.Body.relocated,
      Member.relocatedAll_eq_map, ← tagFieldOf_moved options]
    refine .union hfree.moved hdistinct.moved hgeneric.moved (distinct_moved hd) ?_
    rw [inside_moved, List.forall₂_map_left_iff, List.forall₂_map_right_iff]
    exact hm.imp fun _ _ h => h.moved
  | @embedded t options n parameters _ _ hfree hdistinct hd hm =>
    rw [Definition.moved, Definition.relocated, Union.relocated, Union.Body.relocated,
      Variant.relocatedAll_eq_map, ← tagFieldOf_moved options,
      ← Token.texts_moved (f := f) parameters]
    refine .embedded hfree.moved hdistinct.moved (distinct_moved hd) ?_
    rw [tagFieldOf_moved, List.forall₂_map_left_iff, List.forall₂_map_right_iff]
    exact hm.imp fun _ _ h => h.moved
  | enum hfree hd hm =>
    refine .enum hfree.moved (distinct_moved hd) ?_
    rw [List.forall₂_map_left_iff]
    exact hm.imp fun _ _ h => h.moved
  | untagged hfree hm =>
    rw [Definition.moved, Definition.relocated, UntaggedUnion.relocated,
      Reference.relocatedAll_eq_map]
    refine .untagged hfree.moved ?_
    rw [List.forall₂_map_left_iff, List.forall₂_map_right_iff]
    exact hm.imp fun _ _ h => h.moved
  | @imports t module qualifier hfree hm =>
    have name : ((qualifier.map (·.moved f)).getD (module.moved f)).text =
        (qualifier.getD module).text := by cases qualifier <;> rfl
    refine name ▸ Means.imports (t := t.moved f) ?_ hm
    exact name ▸ hfree.moved

theorem AllMean.moved {trees : List DefinitionSyntax} {ds : List Definition}
    (h : k.AllMean trees ds) : (k.moved f).AllMean (trees.map (·.moved f)) (ds.map (·.moved f)) := by
  induction h with
  | nil => exact .nil
  | @cons k t d trees ds h _ ih =>
    have extend : (k.extend d).moved f = (k.moved f).extend (d.moved f) := by
      simp [Known.moved, Known.extend]
    exact .cons h.moved (extend ▸ ih)

end Known

end TypeSchema
