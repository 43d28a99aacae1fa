import TypeSchema.Proofs.Library
import TypeSchema.Proofs.Token.Spelling

/-!
# References are well scoped

A reference in a definition stands for something that was there before the definition, for the
definition itself or for one of its parameters. What the definition refers to has references of its
own, which do not count here: they were judged where they stand.
-/

namespace TypeSchema

-- ---------------------------------------------------------------------------
-- References that occur
-- ---------------------------------------------------------------------------

mutual

/-- The reference and those in it. -/
def Reference.parts : Reference → List Reference
  | .applied head arguments => .applied head arguments :: (head.parts ++ Argument.allParts arguments)
  | .primitive p => [.primitive p]
  | .definition d => [.definition d]
  | .imported qualifier d => [.imported qualifier d]
  | .itself name parameters => [.itself name parameters]
  | .parameter name => [.parameter name]

/-- A parameter as an argument counts as a reference to it. -/
def Argument.parts : Argument → List Reference
  | .parameter name => [.parameter name]
  | .reference r => r.parts

def Argument.allParts : List Argument → List Reference
  | [] => []
  | a :: rest => a.parts ++ Argument.allParts rest

end

theorem Argument.allParts_eq_flatMap (as : List Argument) :
    Argument.allParts as = as.flatMap Argument.parts := by
  induction as with
  | nil => rfl
  | cons a as ih => rw [Argument.allParts, ih, List.flatMap_cons]

def TypeExpr.references : TypeExpr → List Reference
  | .reference r => r.parts
  | .array _ item | .slice item | .pointer item | .optional item => item.references
  | .empty | .literal _ => []

/-- The references in the fields, constructors or cases that are the definition's own. -/
def Definition.references : Definition → List Reference
  | .struct s => s.fields.flatMap (·.type.references)
  | .union u =>
    match u.body with
    | .tagged _ constructors => constructors.flatMap (·.type.references)
    | .embedded _ _ => []
  | .enum _ => []
  | .untagged u => u.cases.flatMap (·.parts)
  | .imports _ => []

namespace Inside

/-- What the reference stands for may be meant inside of the definition. -/
inductive Scoped (s : Inside) : Reference → Prop
  | primitive {p} : Scoped s (.primitive p)
  | definition {d} : d ∈ s.earlier → s.find? d.name = some d → Scoped s (.definition d)
  | imported {q m d} : s.library.get? (s.moduleName q) = some m → m.get? d.name = some d →
      Scoped s (.imported q d)
  | itself : Scoped s (.itself s.name s.parameters)
  | parameter {x} : x ∈ s.parameters → Primitive.ofName? x = none → x ≠ s.name →
      (∀ d ∈ s.earlier, d.name ≠ x) → Scoped s (.parameter x)
  | applied {head arguments} : Scoped s (.applied head arguments)

end Inside

/-- Every name in the definition stands for something that is known where the definition begins, or
for a part of the definition. -/
structure Known.WellScoped (k : Known) (d : Definition) : Prop where
  references : ∀ r ∈ d.references, Inside.Scoped ⟨k, d.name, d.parameters⟩ r
  payloads : ∀ heading field parameters variants,
    d = .union ⟨heading, field, .embedded parameters variants⟩ → ∀ v ∈ variants,
      ∀ p, v.payload = some p → ∃ s, .struct s ∈ k.earlier ∧ p = s.withTag field v.tag

-- ---------------------------------------------------------------------------
-- Names of definitions
-- ---------------------------------------------------------------------------

/-- Types are called by names, modules and their qualifiers by symbols. -/
def Definition.WellNamed : Definition → Prop
  | .imports i => Token.IsWord .symbol i.heading.name.toList ∧ Token.IsWord .symbol i.qualifier.toList
  | d => Token.IsWord .name d.name.toList

theorem Token.isWord_kind_unique {kind kind' : Token.Kind} {chars : List Char}
    (h : Token.IsWord kind chars) (h' : Token.IsWord kind' chars) : kind = kind' := by
  obtain ⟨c, rest, rfl, hk, -⟩ := h
  obtain ⟨_, _, hc, hk', -⟩ := h'
  cases hc
  rw [hk] at hk'
  exact Option.some.inj hk'

theorem Definition.WellNamed.key_eq_name {d : Definition} (h : d.WellNamed)
    (hn : Token.IsWord .name d.key.toList) : d.key = d.name := by
  cases d with
  | imports i => cases Token.isWord_kind_unique hn h.2
  | struct | union | enum | untagged => rfl

theorem Definition.WellNamed.name_ne {d : Definition} (h : d.WellNamed) {x : String}
    (hx : Token.IsWord .name x.toList) (hk : d.key ≠ x) : d.name ≠ x := by
  cases d with
  | imports i =>
    rintro rfl
    cases Token.isWord_kind_unique hx h.1
  | struct | union | enum | untagged => exact hk

theorem Token.Spelled.name {t : Token} (h : t.Spelled) (hk : t.kind = .name) :
    Token.IsWord .name t.text.toList := by
  rwa [Spelled, hk] at h

theorem Token.Spelled.symbol {t : Token} (h : t.Spelled) (hk : t.kind = .symbol) :
    Token.IsWord .symbol t.text.toList := by
  rwa [Spelled, hk] at h

def Known.WellNamed (k : Known) : Prop := ∀ d ∈ k.earlier, d.WellNamed

/-- What is found in a module bears the name that it is found by. -/
def Library.WellNamed (l : Library) : Prop :=
  ∀ name m, l.get? name = some m → ∀ key d, m.get? key = some d → d.key = key ∧ d.WellNamed

theorem forall₂_mem_right {α β : Type} {R : α → β → Prop} {as : List α} {bs : List β}
    (h : List.Forall₂ R as bs) {b : β} (hb : b ∈ bs) : ∃ a ∈ as, R a b := by
  induction h with
  | nil => cases hb
  | cons first _ ih =>
    cases hb with
    | head => exact ⟨_, List.mem_cons_self, first⟩
    | tail _ hb =>
      obtain ⟨a, ha, hr⟩ := ih hb
      exact ⟨a, List.mem_cons_of_mem _ ha, hr⟩

theorem names_of_lines {τ β : Type} {M : Token × τ → β → Prop} {name : β → String}
    {lines : List (Token × τ)} {parts : List β} (h : List.Forall₂ M lines parts)
    (hm : ∀ l p, M l p → l.1.text = name p) :
    (lines.map Prod.fst).map (·.text) = parts.map name := by
  rw [List.map_map, ← List.forall₂_eq_eq_eq, List.forall₂_map_left_iff, List.forall₂_map_right_iff]
  exact h.imp hm

-- ---------------------------------------------------------------------------
-- Parts of spelled tokens
-- ---------------------------------------------------------------------------

namespace Grammar

section
variable {α : Type} {ts rest : List Token} {as : List α} {a : α} (hs : ∀ t ∈ ts, t.Spelled)
include hs

theorem Items.spelled {close : Mark} {item : Rule α} (h : Items close item ts as rest)
    (inner : ∀ a ∈ as, ∀ ts rest, item ts a rest → rest <:+ ts) (ha : a ∈ as) :
    ∃ us after, (∀ t ∈ us, t.Spelled) ∧ item us a after := by
  obtain ⟨us, after, hus, ha⟩ := h.mem inner ha
  exact ⟨us, after, Token.spelled_of_suffix hs hus, ha⟩

theorem Block.meant {β : Type} {R : α → β → Prop} {line : Rule α} {bs : List β} {b : β}
    (h : Block line ts as rest) (inner : ∀ ts a rest, line ts a rest → rest <:+ ts)
    (hm : List.Forall₂ R as bs) (hb : b ∈ bs) :
    ∃ a us after, R a b ∧ (∀ t ∈ us, t.Spelled) ∧ line us a after := by
  obtain ⟨opening, body, -⟩ := h
  obtain ⟨a, ha, hab⟩ := forall₂_mem_right hm hb
  obtain ⟨us, after, hus, ha⟩ := body.mem inner ha
  exact ⟨a, us, after, hab, Token.spelled_of_suffix hs (hus.trans opening.suffix), ha⟩

end

end Grammar

section
variable {ts rest : List Token} (hs : ∀ t ∈ ts, t.Spelled)
include hs

theorem heading_name {n : Token} (h : Grammar.Heading ts n rest) :
    Token.IsWord .name n.text.toList := by
  obtain ⟨before, hkind⟩ := h
  exact (hs n (before.suffix.subset List.mem_cons_self)).name hkind

theorem parameters_words {names : List Token} (h : Grammar.Parameters ts names rest) :
    ∀ x ∈ names.map (·.text), Token.IsWord .name x.toList := by
  intro x hx
  obtain ⟨t, ht, rfl⟩ := List.mem_map.mp hx
  cases h with
  | none => cases ht
  | list _ items =>
    obtain ⟨us, after, hus, hname⟩ := items.spelled (List.forall_mem_of_forall_mem_cons hs)
      (fun _ _ _ _ h => h.suffix) ht
    obtain ⟨hkind⟩ := hname
    exact (hus t List.mem_cons_self).name hkind

theorem tagFieldOf_word {options : List OptionSyntax} (h : Grammar.UnionOptions ts options rest) :
    Token.IsWord .symbol (tagFieldOf options).toList := by
  unfold tagFieldOf
  cases hlast : (options.filterMap OptionSyntax.field?).getLast? with
  | none => exact (by decide : Token.IsWord .symbol Union.defaultTagField.toList)
  | some field =>
    obtain ⟨o, ho, hfield⟩ := List.mem_filterMap.mp (List.mem_of_getLast? hlast)
    cases o with
    | embedded => cases hfield
    | tag t =>
      cases hfield
      cases h with
      | none => cases ho
      | list _ spaces items =>
        obtain ⟨us, after, hus, hoption⟩ := items.spelled
          (Token.spelled_of_tail_suffix hs spaces.suffix) (fun _ _ _ _ h => h.suffix) ho
        cases hoption with
        | mk hoption _ =>
          cases hoption with
          | tag _ before _ after hkind =>
            have field := after.suffix.trans ((List.suffix_cons ..).trans before.suffix)
            exact (hus t (List.mem_cons_of_mem _ (field.subset List.mem_cons_self))).symbol hkind

end

-- ---------------------------------------------------------------------------
-- What is meant is well scoped
-- ---------------------------------------------------------------------------

section
variable {s : Inside} {ts rest : List Token}
variable (hk : s.toKnown.WellNamed) (hl : s.library.WellNamed)
include hk hl

theorem headMeans_scoped {q : Option Token} {n : Token} {r : Reference}
    (h : Grammar.Head ts q n rest) (hs : ∀ t ∈ ts, t.Spelled) (hm : s.HeadMeans q n r) :
    s.Scoped r ∧ r.parts = [r] := by
  have hn : Token.IsWord .name n.text.toList := by
    cases h with
    | bare hkind | qualified _ _ hkind => exact (hs n (by simp)).name hkind
  cases hm with
  | bare hm =>
    cases hm with
    | primitive _ => exact ⟨.primitive, rfl⟩
    | @definition d _ hd =>
      obtain ⟨hmem, hkey⟩ := Known.find?_eq_some hd
      have hname : d.name = n.text := by
        rw [← (hk d hmem).key_eq_name (hkey ▸ hn), hkey]
      exact ⟨.definition hmem (hname ▸ hd), rfl⟩
    | itself _ _ _ => exact ⟨.itself, rfl⟩
    | parameter hp hd hx hmem =>
      refine ⟨.parameter hmem hp hx fun d hd' => (hk d hd').name_ne hn ?_, rfl⟩
      simpa using List.find?_eq_none.mp hd d hd'
  | @qualified q n m d hmodule hd =>
    obtain ⟨hkey, hd'⟩ := hl _ _ hmodule _ _ hd
    have hname : d.name = n.text := by
      rw [← hd'.key_eq_name (hkey ▸ hn), hkey]
    exact ⟨.imported hmodule (hname ▸ hd), rfl⟩

theorem referenceMeans_scoped {t : ReferenceSyntax} :
    ∀ {ts rest r}, Grammar.Reference ts t rest → (∀ t ∈ ts, t.Spelled) → s.ReferenceMeans t r →
      ∀ part ∈ r.parts, s.Scoped part := by
  induction t using ReferenceSyntax.induction with
  | step q n arguments ih =>
    intro ts rest r h hs hm part hpart
    cases hm with
    | plain hm =>
      cases h with
      | plain head | applied head _ _ =>
        obtain ⟨hscoped, hparts⟩ := headMeans_scoped hk hl head hs hm
        rw [hparts] at hpart
        exact List.mem_singleton.mp hpart ▸ hscoped
    | @applied _ _ r _ as hm hne has =>
      cases h with
      | plain => exact (hne rfl).elim
      | applied head _ items =>
        obtain ⟨hscoped, hparts⟩ := headMeans_scoped hk hl head hs hm
        rw [Reference.parts, hparts, Argument.allParts_eq_flatMap] at hpart
        rcases List.mem_cons.mp hpart with rfl | hpart
        · exact .applied
        rcases List.mem_append.mp hpart with hpart | hpart
        · exact List.mem_singleton.mp hpart ▸ hscoped
        obtain ⟨a, ha, hpart⟩ := List.mem_flatMap.mp hpart
        obtain ⟨t, ht, hmeans⟩ := forall₂_mem_right has ha
        have inside := (List.suffix_cons ..).trans head.suffix
        obtain ⟨us, after, hs', hg⟩ := items.spelled (Token.spelled_of_suffix hs inside)
          (fun _ _ _ _ h => h.suffix) ht
        cases hmeans with
        | parameter hm => exact ih t ht hg hs' hm part hpart
        | reference hm _ => exact ih t ht hg hs' hm part hpart

theorem typeMeans_scoped {t : TypeSyntax} {type : TypeExpr} (h : Grammar.TypeExpr ts t rest)
    (hs : ∀ t ∈ ts, t.Spelled) (hm : s.TypeMeans t type) :
    ∀ r ∈ type.references, s.Scoped r := by
  induction h generalizing type with
  | literal _ =>
    cases hm
    exact fun r hr => by cases hr
  | reference h =>
    cases hm with
    | reference hm => exact referenceMeans_scoped hk hl h hs hm
  | slice _ _ _ ih =>
    cases hm with
    | slice hm =>
      have item := ih (fun t ht => hs t (by simp [ht])) hm
      exact item
  | array _ _ _ _ ih =>
    cases hm with
    | array _ hm =>
      have item := ih (fun t ht => hs t (by simp [ht])) hm
      exact item
  | pointer _ _ ih =>
    cases hm with
    | pointer hm =>
      have item := ih (fun t ht => hs t (by simp [ht])) hm
      exact item
  | optional _ _ ih =>
    cases hm with
    | optional hm =>
      have item := ih (fun t ht => hs t (by simp [ht])) hm
      exact item

theorem fieldMeans_scoped {f : Token × TypeSyntax} {m : Member} (h : Grammar.Field ts f rest)
    (hs : ∀ t ∈ ts, t.Spelled) (hm : s.FieldMeans f m) : ∀ r ∈ m.type.references, s.Scoped r := by
  obtain ⟨-, -, spaces, type⟩ := h
  cases hm with
  | mk hm =>
    exact typeMeans_scoped hk hl type
      (Token.spelled_of_tail_suffix hs (spaces.suffix.trans (List.suffix_cons ..))) hm

theorem constructorMeans_scoped {t : Token × Option TypeSyntax} {m : Member}
    (h : Grammar.Tagged Grammar.TypeExpr ts t rest) (hs : ∀ t ∈ ts, t.Spelled)
    (hm : s.ConstructorMeans t m) : ∀ r ∈ m.type.references, s.Scoped r := by
  cases hm with
  | bare => exact fun r hr => by cases hr
  | typed hm =>
    cases h with
    | colon _ _ spaces type =>
      exact typeMeans_scoped hk hl type
        (Token.spelled_of_tail_suffix hs (spaces.suffix.trans (List.suffix_cons ..))) hm

end

/-- The tree was derived from tokens that are spelled as their kinds tell. -/
def DefinitionSyntax.Derived (t : DefinitionSyntax) : Prop :=
  ∃ ts rest, (∀ u ∈ ts, u.Spelled) ∧ Grammar.Definition ts t rest

theorem GenericMeans.getD {names : List Token} {generic : Option (List String)}
    (h : GenericMeans names generic) : generic.getD [] = names.map (·.text) := by
  cases h with
  | none => rfl
  | some _ => rfl

namespace Known

variable {k : Known} {t : DefinitionSyntax} {d : Definition}

theorem Means.wellNamed (h : k.Means t d) (ht : t.Derived) : d.WellNamed := by
  obtain ⟨ts, rest, hs, hg⟩ := ht
  cases hg with
  | struct _ heading _ _ | enum _ heading _ =>
    cases h
    exact heading_name (List.forall_mem_of_forall_mem_cons hs) heading
  | union _ options _ heading _ _ | embedded _ options _ heading _ _ =>
    cases h
    have inside := options.suffix
    exact heading_name (Token.spelled_of_tail_suffix hs inside) heading
  | untagged _ before _ heading _ =>
    cases h
    have inside := (List.suffix_cons ..).trans before.suffix
    exact heading_name (Token.spelled_of_tail_suffix hs inside) heading
  | @imports t us module mid q? _ _ _ before hkind qualifier _ =>
    cases h
    have inside := before.suffix.trans (List.suffix_cons t us)
    have hmodule := (hs module (inside.subset List.mem_cons_self)).symbol hkind
    refine ⟨hmodule, ?_⟩
    cases qualifier with
    | none => exact hmodule
    | mk before _ after hq =>
      have inside := (after.suffix.trans ((List.suffix_cons ..).trans before.suffix)).trans
        ((List.suffix_cons ..).trans inside)
      exact (hs _ (inside.subset List.mem_cons_self)).symbol hq

theorem Means.payload {heading : Heading} {field : String} {parameters : List String}
    {variants : List Variant}
    (h : k.Means t (.union ⟨heading, field, .embedded parameters variants⟩)) {v : Variant}
    (hv : v ∈ variants) {p : Struct} (hp : v.payload = some p) :
    ∃ s, .struct s ∈ k.earlier ∧ p = s.withTag field v.tag := by
  cases h with
  | embedded _ _ _ hm =>
    obtain ⟨line, -, hvm⟩ := forall₂_mem_right hm hv
    cases hvm with
    | bare => cases hp
    | payload hpayload =>
      cases hp
      exact ⟨_, (find?_eq_some hpayload.2).1, rfl⟩

theorem Means.wellScoped (h : k.Means t d) (ht : t.Derived) (hk : k.WellNamed)
    (hl : k.library.WellNamed) : k.WellScoped d := by
  obtain ⟨ts, rest, hs, hg⟩ := ht
  cases hg with
  | struct _ heading parameters block =>
    have inside := parameters.suffix.trans heading.suffix
    cases h with
    | struct _ _ hgeneric _ hm =>
      refine ⟨fun r hr => ?_, fun _ _ _ _ h => by cases h⟩
      obtain ⟨m, hmem, hr⟩ := List.mem_flatMap.mp hr
      obtain ⟨f, us, after, hfm, hs', hfield⟩ := block.meant
        (Token.spelled_of_tail_suffix hs inside) (fun _ _ _ h => h.suffix) hm hmem
      rw [← hgeneric.getD] at hfm
      exact fieldMeans_scoped hk hl hfield hs' hfm r hr
  | union _ options _ heading parameters block =>
    have inside := parameters.suffix.trans (heading.suffix.trans options.suffix)
    cases h with
    | union _ _ hgeneric _ hm =>
      refine ⟨fun r hr => ?_, fun _ _ _ _ h => by cases h⟩
      obtain ⟨m, hmem, hr⟩ := List.mem_flatMap.mp hr
      obtain ⟨c, us, after, hcm, hs', hline⟩ := block.meant
        (Token.spelled_of_tail_suffix hs inside)
        (fun _ _ _ h => h.suffix fun _ _ _ h => h.suffix) hm hmem
      rw [← hgeneric.getD] at hcm
      exact constructorMeans_scoped hk hl hline hs' hcm r hr
  | embedded _ _ _ _ _ _ =>
    have means := h
    cases h
    refine ⟨fun r hr => (List.not_mem_nil hr).elim, ?_⟩
    rintro _ _ _ _ ⟨⟩ v hv p hp
    exact means.payload hv hp
  | enum _ _ _ =>
    cases h
    exact ⟨fun r hr => (List.not_mem_nil hr).elim, fun _ _ _ _ h => by cases h⟩
  | untagged _ before _ heading block =>
    have inside := heading.suffix.trans ((List.suffix_cons ..).trans before.suffix)
    cases h with
    | untagged _ hm =>
      refine ⟨fun r hr => ?_, fun _ _ _ _ h => by cases h⟩
      obtain ⟨c, hmem, hr⟩ := List.mem_flatMap.mp hr
      obtain ⟨line, us, after, hcm, hs', hg⟩ := block.meant
        (Token.spelled_of_tail_suffix hs inside) (fun _ _ _ h => h.suffix) hm hmem
      exact referenceMeans_scoped hk hl hg hs' hcm r hr
  | imports _ _ _ _ _ =>
    cases h
    exact ⟨fun r hr => (List.not_mem_nil hr).elim, fun _ _ _ _ h => by cases h⟩

end Known

end TypeSchema
