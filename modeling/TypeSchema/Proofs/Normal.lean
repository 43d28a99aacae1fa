import TypeSchema.Proofs.Grammar.Order
import TypeSchema.Proofs.Members
import TypeSchema.Proofs.Token.Form

/-!
# Definitions in normal form

Not every definition that can be built comes from a text. Those that do are in normal form: only a
constructor may have the empty type, a parameter list that is kept has parameters, only a name is
applied and it is applied to something, no literal has a quote in it, names look the way that names
of their sort do, and no body declares a name twice. What a definition refers to is in normal form
as well. Parameters and members keep the order in which the text declares them.
-/

namespace TypeSchema

open Token (IsName IsSymbol)

-- ---------------------------------------------------------------------------
-- Normal forms
-- ---------------------------------------------------------------------------

/-- Parameters are called by different names. -/
structure ParametersNormal (parameters : List String) : Prop where
  names : ∀ x ∈ parameters, IsName x.toList
  distinct : parameters.Nodup

/-- A definition is generic exactly if it has parameters. -/
structure GenericNormal (generic : Option (List String)) : Prop where
  parameters : ParametersNormal (generic.getD [])
  kept : generic.isSome ↔ generic.getD [] ≠ []

def Enum.Value.Normal : Enum.Value → Prop
  | .string content => '"' ∉ content.toList
  | .number _ => True

mutual

inductive Reference.Normal : Reference → Prop
  | primitive {p} : Reference.Normal (.primitive p)
  | definition {d} : Definition.Normal d → Reference.Normal (.definition d)
  | imported {q d} : IsSymbol q.toList → Definition.Normal d → Reference.Normal (.imported q d)
  | itself {x parameters} : IsName x.toList → ParametersNormal parameters →
      Reference.Normal (.itself x parameters)
  | parameter {x} : IsName x.toList → Reference.Normal (.parameter x)
  | applied {head arguments} : Reference.Normal head →
      (∀ inner as, head ≠ .applied inner as) → arguments ≠ [] →
      (∀ a ∈ arguments, Argument.Normal a) → Reference.Normal (.applied head arguments)

/-- A parameter as an argument is no reference. -/
inductive Argument.Normal : Argument → Prop
  | parameter {x} : IsName x.toList → Argument.Normal (.parameter x)
  | reference {r} : Reference.Normal r → (∀ x, r ≠ .parameter x) → Argument.Normal (.reference r)

/-- The type of a field, or an inner type: the empty type is none. -/
inductive TypeExpr.Normal : TypeExpr → Prop
  | literal {content} : '"' ∉ content.toList → TypeExpr.Normal (.literal content)
  | reference {r} : Reference.Normal r → TypeExpr.Normal (.reference r)
  | array {n item} : TypeExpr.Normal item → TypeExpr.Normal (.array n item)
  | slice {item} : TypeExpr.Normal item → TypeExpr.Normal (.slice item)
  | pointer {item} : TypeExpr.Normal item → TypeExpr.Normal (.pointer item)
  | optional {item} : TypeExpr.Normal item → TypeExpr.Normal (.optional item)

inductive Member.NormalField : Member → Prop
  | mk {x type} : IsSymbol x.toList → TypeExpr.Normal type → Member.NormalField ⟨x, type⟩

inductive Member.NormalConstructor : Member → Prop
  | empty {x} : IsName x.toList → Member.NormalConstructor ⟨x, .empty⟩
  | typed {x type} : IsName x.toList → TypeExpr.Normal type → Member.NormalConstructor ⟨x, type⟩

inductive Struct.Normal : Struct → Prop
  | mk {heading generic fields} : IsName heading.name.toList → GenericNormal generic →
      (∀ f ∈ fields, Member.NormalField f) → (fields.map (·.name)).Nodup →
      Struct.Normal ⟨heading, generic, fields⟩

/-- A payload is a struct with the tag field before its own fields. -/
inductive Variant.Normal : String → Variant → Prop
  | bare {tagField x} : IsName x.toList → Variant.Normal tagField ⟨x, none⟩
  | payload {tagField x s} : IsName x.toList → Struct.Normal s →
      Variant.Normal tagField ⟨x, some (s.withTag tagField x)⟩

inductive Union.Normal : Union → Prop
  | tagged {heading tagField generic constructors} : IsName heading.name.toList →
      IsSymbol tagField.toList → GenericNormal generic →
      (∀ c ∈ constructors, Member.NormalConstructor c) → (constructors.map (·.name)).Nodup →
      Union.Normal ⟨heading, tagField, .tagged generic constructors⟩
  | embedded {heading tagField parameters variants} : IsName heading.name.toList →
      IsSymbol tagField.toList → ParametersNormal parameters →
      (∀ v ∈ variants, Variant.Normal tagField v) → (variants.map (·.tag)).Nodup →
      Union.Normal ⟨heading, tagField, .embedded parameters variants⟩

inductive Definition.Normal : Definition → Prop
  | struct {s} : Struct.Normal s → Definition.Normal (.struct s)
  | union {u} : Union.Normal u → Definition.Normal (.union u)
  | enum {heading items} : IsName heading.name.toList → (∀ i ∈ items, i.value.Normal) →
      (items.map (·.tag)).Nodup → Definition.Normal (.enum ⟨heading, items⟩)
  | untagged {heading cases} : IsName heading.name.toList →
      (∀ c ∈ cases, Reference.Normal c) → Definition.Normal (.untagged ⟨heading, cases⟩)
  | imports {heading qualifier} : IsSymbol heading.name.toList → IsSymbol qualifier.toList →
      Definition.Normal (.imports ⟨heading, qualifier⟩)

end

/-- The modules hold definitions in normal form. -/
def Library.Normal (l : Library) : Prop :=
  ∀ name m, l.get? name = some m → ∀ key d, m.get? key = some d → d.Normal

structure Known.Normal (k : Known) : Prop where
  library : k.library.Normal
  earlier : ∀ d ∈ k.earlier, d.Normal

-- ---------------------------------------------------------------------------
-- Names in tokens
-- ---------------------------------------------------------------------------

theorem Token.Spelled.isName {t : Token} (h : t.Spelled) (hk : t.kind = .name) :
    IsName t.text.toList := Token.isWord_name.mp (h.name hk)

theorem Token.Spelled.isSymbol {t : Token} (h : t.Spelled) (hk : t.kind = .symbol) :
    IsSymbol t.text.toList := Token.isWord_symbol.mp (h.symbol hk)

theorem Token.Spelled.content {t : Token} (h : t.Spelled) (hk : t.kind = .text) {content : String}
    (ht : t.text = quoted content) : '"' ∉ content.toList := by
  rw [Token.Spelled, hk] at h
  obtain ⟨inner, hinner, htext⟩ := h
  rw [ht, Read.toList_quoted] at htext
  have same : content.toList = inner := by simpa using htext
  exact same ▸ hinner

-- ---------------------------------------------------------------------------
-- Types
-- ---------------------------------------------------------------------------

section
variable {s : Inside} {ts rest : List Token}
variable (hk : s.toKnown.Normal) (hname : IsName s.name.toList)
  (hparameters : ParametersNormal s.parameters)
include hk hname hparameters

theorem headMeans_normal {q : Option Token} {n : Token} {r : Reference}
    (h : Grammar.Head ts q n rest) (hs : ∀ t ∈ ts, t.Spelled) (hm : s.HeadMeans q n r) :
    r.Normal ∧ ∀ inner as, r ≠ .applied inner as := by
  cases hm with
  | bare hm =>
    cases hm with
    | primitive _ => exact ⟨.primitive, nofun⟩
    | definition _ hd => exact ⟨.definition (hk.earlier _ (Known.find?_eq_some hd).1), nofun⟩
    | itself _ _ _ => exact ⟨.itself hname hparameters, nofun⟩
    | parameter _ _ _ hmem => exact ⟨.parameter (hparameters.names _ hmem), nofun⟩
  | qualified hmodule hd =>
    cases h with
    | qualified hq _ _ =>
      have hsymbol := (hs _ List.mem_cons_self).isSymbol hq
      exact ⟨.imported hsymbol (hk.library _ _ hmodule _ _ hd), nofun⟩

theorem referenceMeans_normal {t : ReferenceSyntax} :
    ∀ {ts rest r}, Grammar.Reference ts t rest → (∀ t ∈ ts, t.Spelled) → s.ReferenceMeans t r →
      r.Normal := by
  induction t using ReferenceSyntax.induction with
  | step q n arguments ih =>
    intro ts rest r h hs hm
    cases hm with
    | plain hm =>
      cases h with
      | plain head | applied head _ _ => exact (headMeans_normal hk hname hparameters head hs hm).1
    | @applied _ _ _ _ as hm hne has =>
      cases h with
      | plain => exact (hne rfl).elim
      | applied head _ items =>
        obtain ⟨hnormal, hunapplied⟩ := headMeans_normal hk hname hparameters head hs hm
        have hne' : as ≠ [] := by
          rintro rfl
          cases has
          exact hne rfl
        refine .applied hnormal hunapplied hne' fun a ha => ?_
        have inside := (List.suffix_cons ..).trans head.suffix
        obtain ⟨t, ht, hmeans⟩ := forall₂_mem_right has ha
        obtain ⟨us, after, hs', hg⟩ := items.spelled (Token.spelled_of_suffix hs inside)
          (fun _ _ _ _ h => h.suffix) ht
        cases hmeans with
        | parameter hm =>
          -- as a reference the parameter is normal by induction, and only its name counts here
          cases ih t ht hg hs' hm with
          | parameter hx => exact .parameter hx
        | reference hm hr => exact .reference (ih t ht hg hs' hm) hr

theorem typeMeans_normal {t : TypeSyntax} {type : TypeExpr} (h : Grammar.TypeExpr ts t rest)
    (hs : ∀ t ∈ ts, t.Spelled) (hm : s.TypeMeans t type) : type.Normal := by
  induction h generalizing type with
  | literal hkind =>
    cases hm with
    | literal htext => exact .literal ((hs _ List.mem_cons_self).content hkind htext)
  | reference h =>
    cases hm with
    | reference hm => exact .reference (referenceMeans_normal hk hname hparameters h hs hm)
  | slice _ _ _ ih =>
    cases hm with
    | slice hm => exact .slice (ih (fun t ht => hs t (by simp [ht])) hm)
  | array _ _ _ _ ih =>
    cases hm with
    | array _ hm => exact .array (ih (fun t ht => hs t (by simp [ht])) hm)
  | pointer _ _ ih =>
    cases hm with
    | pointer hm => exact .pointer (ih (fun t ht => hs t (by simp [ht])) hm)
  | optional _ _ ih =>
    cases hm with
    | optional hm => exact .optional (ih (fun t ht => hs t (by simp [ht])) hm)

theorem fieldMeans_normal {f : Token × TypeSyntax} {m : Member} (h : Grammar.Field ts f rest)
    (hs : ∀ t ∈ ts, t.Spelled) (hm : s.FieldMeans f m) : m.NormalField := by
  obtain ⟨hkind, -, spaces, type⟩ := h
  cases hm with
  | mk hm =>
    refine .mk ((hs _ List.mem_cons_self).isSymbol hkind)
      (typeMeans_normal hk hname hparameters type (fun t ht => hs t ?_) hm)
    simp [spaces.suffix.subset ht]

theorem constructorMeans_normal {t : Token × Option TypeSyntax} {m : Member}
    (h : Grammar.Tagged Grammar.TypeExpr ts t rest) (hs : ∀ t ∈ ts, t.Spelled)
    (hm : s.ConstructorMeans t m) : m.NormalConstructor := by
  cases h with
  | bare hkind =>
    cases hm
    exact .empty ((hs _ List.mem_cons_self).isName hkind)
  | colon hkind _ spaces type =>
    cases hm with
    | typed hm =>
      refine .typed ((hs _ List.mem_cons_self).isName hkind)
        (typeMeans_normal hk hname hparameters type (fun t ht => hs t ?_) hm)
      simp [spaces.suffix.subset ht]

end

-- ---------------------------------------------------------------------------
-- Definitions
-- ---------------------------------------------------------------------------

section
variable {ts rest : List Token} (hs : ∀ t ∈ ts, t.Spelled)
include hs

theorem parameters_normal {names : List Token} (h : Grammar.Parameters ts names rest)
    (distinct : Distinct names) : ParametersNormal (names.map (·.text)) where
  names x hx := Token.isWord_name.mp (parameters_words hs h x hx)
  distinct := distinct

theorem generic_normal {names : List Token} {generic : Option (List String)}
    (h : Grammar.Parameters ts names rest) (distinct : Distinct names)
    (hm : GenericMeans names generic) : GenericNormal generic where
  parameters := hm.getD ▸ parameters_normal hs h distinct
  kept := by
    cases hm with
    | none => simp
    | some hne => simpa using hne

theorem tagFieldOf_symbol {options : List OptionSyntax} (h : Grammar.UnionOptions ts options rest) :
    IsSymbol (tagFieldOf options).toList := Token.isWord_symbol.mp (tagFieldOf_word hs h)

theorem value_normal {i : Token × Token} {item : Enum.Item} (h : Grammar.Item ts i rest)
    (hm : ItemMeans i item) : item.value.Normal := by
  obtain ⟨-, before, -, after, -⟩ := h
  have inside := after.suffix.trans ((List.suffix_cons ..).trans before.suffix)
  cases hm with
  | mk hm =>
    cases hm with
    | string hkind htext =>
      exact (hs _ (List.mem_cons_of_mem _ (inside.subset List.mem_cons_self))).content hkind htext
    | number _ _ => trivial

theorem variant_normal {k : Known} (hk : k.Normal) {tagField : String} {v : Token × Option Token}
    {variant : Variant} (h : Grammar.Tagged Grammar.Name ts v rest)
    (hm : k.VariantMeans tagField v variant) : variant.Normal tagField := by
  have hname : IsName v.1.text.toList := by
    cases h with
    | bare hkind | colon hkind _ _ _ => exact (hs _ List.mem_cons_self).isName hkind
  cases hm with
  | bare => exact .bare hname
  | payload hpayload =>
    cases hk.earlier _ (Known.find?_eq_some hpayload.2).1 with
    | struct hstruct => exact .payload hname hstruct

end

namespace Known

variable {k : Known} {t : DefinitionSyntax} {d : Definition}

theorem Means.normal (h : k.Means t d) (ht : t.Derived) (hk : k.Normal) : d.Normal := by
  have named := h.wellNamed ht
  have distinct := h.nodup_members
  obtain ⟨ts, rest, hs, hg⟩ := ht
  -- all parts of a definition are derived from what stands behind its keyword
  have inside {us : List Token} (hus : us <:+ ts.tail) : ∀ t ∈ us, t.Spelled :=
    Token.spelled_of_suffix hs (hus.trans (List.tail_suffix ts))
  cases hg with
  | struct _ heading parameters block =>
    cases h with
    | struct _ hdistinct hgeneric _ hm =>
      have hname := Token.isWord_name.mp named
      have hgeneric := generic_normal (inside heading.suffix) parameters hdistinct hgeneric
      have hparameters := parameters_normal (inside heading.suffix) parameters hdistinct
      refine .struct (.mk hname hgeneric (fun f hf => ?_) distinct)
      obtain ⟨line, us, after, hfm, hs', hfield⟩ := block.meant
        (inside (parameters.suffix.trans heading.suffix)) (fun _ _ _ h => h.suffix) hm hf
      exact fieldMeans_normal (s := ⟨k, _, _⟩) hk hname hparameters hfield hs' hfm
  | union _ options _ heading parameters block =>
    have hheading := heading.suffix.trans options.suffix
    cases h with
    | union _ hdistinct hgeneric _ hm =>
      have hname := Token.isWord_name.mp named
      have hgeneric := generic_normal (inside hheading) parameters hdistinct hgeneric
      have hparameters := parameters_normal (inside hheading) parameters hdistinct
      have htag := tagFieldOf_symbol (inside List.suffix_rfl) options
      refine .union (.tagged hname htag hgeneric (fun c hc => ?_) distinct)
      obtain ⟨line, us, after, hcm, hs', hg⟩ := block.meant
        (inside (parameters.suffix.trans hheading))
        (fun _ _ _ h => h.suffix fun _ _ _ h => h.suffix) hm hc
      exact constructorMeans_normal (s := ⟨k, _, _⟩) hk hname hparameters hg hs' hcm
  | embedded _ options _ heading parameters block =>
    have hheading := heading.suffix.trans options.suffix
    cases h with
    | embedded _ hdistinct _ hm =>
      have hname := Token.isWord_name.mp named
      have hparameters := parameters_normal (inside hheading) parameters hdistinct
      have htag := tagFieldOf_symbol (inside List.suffix_rfl) options
      refine .union (.embedded hname htag hparameters (fun v hv => ?_) distinct)
      obtain ⟨line, us, after, hvm, hs', hg⟩ := block.meant
        (inside (parameters.suffix.trans hheading))
        (fun _ _ _ h => h.suffix fun _ _ _ h => h.suffix) hm hv
      exact variant_normal hs' hk hg hvm
  | enum _ heading block =>
    cases h with
    | enum _ _ hm =>
      refine .enum (Token.isWord_name.mp named) (fun i hi => ?_) distinct
      obtain ⟨line, us, after, him, hs', hg⟩ := block.meant (inside heading.suffix)
        (fun _ _ _ h => h.suffix) hm hi
      exact value_normal hs' hg him
  | untagged _ before _ heading block =>
    have hheading := heading.suffix.trans ((List.suffix_cons ..).trans before.suffix)
    cases h with
    | untagged _ hm =>
      have hname := Token.isWord_name.mp named
      have none : ParametersNormal [] := ⟨List.forall_mem_nil _, .nil⟩
      refine .untagged hname fun c hc => ?_
      obtain ⟨line, us, after, hcm, hs', hg⟩ := block.meant (inside hheading)
        (fun _ _ _ h => h.suffix) hm hc
      exact referenceMeans_normal (s := ⟨k, _, []⟩) hk hname none hg hs' hcm
  | imports _ _ _ _ _ =>
    cases h
    exact .imports (Token.isWord_symbol.mp named.1) (Token.isWord_symbol.mp named.2)

theorem Normal.extend (hk : k.Normal) (hd : d.Normal) : (k.extend d).Normal where
  library := hk.library
  earlier := by
    intro e he
    rcases List.mem_append.mp he with he | he
    · exact hk.earlier e he
    · exact List.mem_singleton.mp he ▸ hd

theorem AllMean.normal {trees : List DefinitionSyntax} {ds : List Definition}
    (h : k.AllMean trees ds) (ht : ∀ t ∈ trees, t.Derived) (hk : k.Normal) :
    ∀ d ∈ ds, d.Normal := by
  induction h with
  | nil => exact fun d hd => by cases hd
  | cons hm _ ih =>
    obtain ⟨hderived, ht⟩ := List.forall_mem_cons.mp ht
    have hd := hm.normal hderived hk
    exact List.forall_mem_cons.mpr ⟨hd, ih ht (hk.extend hd)⟩

end Known

-- ---------------------------------------------------------------------------
-- The order in the text
-- ---------------------------------------------------------------------------

/-- The definition is written in the text, from its keyword on: its name and behind that its
parameters and the names in its body, in the order in which the definition has them. Each name in
the body begins a line. -/
def Definition.WrittenIn (d : Definition) (text : String) : Prop :=
  ∃ before keyword used after name parameters members,
    Token.scan text = before ++ keyword :: (used ++ after) ∧ keyword.location = d.location ∧
    (name :: (parameters ++ members)).Sublist used ∧ name.text = d.name ∧
    parameters.map Token.text = d.parameters ∧ members.map Token.text = d.members ∧
    ∀ t ∈ members, t.Opens used

theorem Known.Means.heading {k : Known} {t : DefinitionSyntax} {d : Definition} (h : k.Means t d) :
    d.location = t.keyword.location ∧ d.name = t.name.text ∧
      d.parameters = t.parameters.map (·.text) := by
  cases h with
  | struct _ _ hgeneric _ _ | union _ _ hgeneric _ _ => exact ⟨rfl, rfl, hgeneric.getD⟩
  | embedded _ _ _ _ | enum _ _ _ | untagged _ _ | imports _ _ => exact ⟨rfl, rfl, rfl⟩

-- ---------------------------------------------------------------------------
-- Modules and libraries
-- ---------------------------------------------------------------------------

variable {file text : String} {l : Library} {m : Module}

theorem Library.Normal.read (hl : l.Normal) (h : Module.read file text l = .ok m) :
    ∀ d ∈ m.definitions, d.Normal := by
  obtain ⟨trees, ds, hfile, hall, hholds⟩ := Module.read_ok h
  rw [hholds.definitions]
  exact hall.normal (hfile.derived fun _ => Token.scan_spelled) ⟨hl, fun _ hd => by cases hd⟩

theorem Library.normal_of_sources {sources : List Source} (h : Library.ofSources sources = .ok l) :
    l.Normal := by
  refine Library.Loads.keep (P := fun m => ∀ key d, m.get? key = some d → d.Normal) h
    (fun hl hread key d hd => ?_) fun _ _ hm => by cases hm
  obtain ⟨_, _, _, _, hholds⟩ := Module.read_ok hread
  exact Library.Normal.read hl hread d (hholds.definitions ▸ (hholds.get? hd).1)

namespace Module

theorem read_writtenIn (h : Module.read file text l = .ok m) :
    ∀ d ∈ m.definitions, d.WrittenIn text := by
  obtain ⟨trees, ds, hfile, hall, hholds⟩ := Module.read_ok h
  intro d hd
  rw [hholds.definitions] at hd
  obtain ⟨i, hi⟩ := List.mem_iff_getElem?.mp hd
  obtain ⟨t, ht, hm⟩ := hall.means hi
  obtain ⟨us, after, ⟨before, hus⟩, hdefinition⟩ := hfile.mem ht
  obtain ⟨used, rfl, hnames, hopens⟩ := hdefinition.order
  obtain ⟨hlocation, hname, hparameters⟩ := hm.heading
  exact ⟨before, _, used, after, _, _, _, hus.symm, hlocation.symm, hnames, hname.symm,
    hparameters.symm, hm.members.symm, hopens⟩

/-- What is read is in normal form, and in the order of the text. -/
theorem read_normal {sources : List Source} (hl : Library.ofSources sources = .ok l)
    (h : Module.read file text l = .ok m) :
    ∀ d ∈ m.definitions, d.Normal ∧ d.WrittenIn text :=
  fun d hd => ⟨(Library.normal_of_sources hl).read h d hd, read_writtenIn h d hd⟩

/-- Definitions of each kind but the untagged one, and two of them have parameters. -/
theorem read_normal_of_import :
    let basic : Source := ⟨"basic.gotyno", "struct Point \x7b\n    x: U8\n\x7d\n"⟩
    let text := "import basic = b\nstruct Item<T> \x7b\n    at: b.Point\n    id: T\n\x7d\n" ++
      "union(embedded) Part \x7b\n    Own: Item\n    Gap\n\x7d\n" ++
      "union All<K> \x7b\n    Some: []Item<K>\n    None\n\x7d\n" ++
      "enum Color \x7b\n    red = \"r\"\n\x7d\n"
    ∃ l m, Library.ofSources [basic] = .ok l ∧ Module.read "media.gotyno" text l = .ok m ∧
      m.definitions.map (fun d => (d.name, d.parameters, d.members)) =
        [("basic", [], []), ("Item", ["T"], ["at", "id"]), ("Part", [], ["Own", "Gap"]),
          ("All", ["K"], ["Some", "None"]), ("Color", [], ["red"])] ∧
      ∀ d ∈ m.definitions, d.Normal ∧ d.WrittenIn text := by
  intro basic text
  obtain ⟨l, hl⟩ : ∃ l, Library.ofSources [basic] = .ok l :=
    Library.ok_of_isSome (by decide +kernel)
  have names : ((Library.ofSources [basic]).toOption.bind fun l =>
      (Module.read "media.gotyno" text l).toOption.map fun m =>
        m.definitions.map fun d => (d.name, d.parameters, d.members)) =
      some [("basic", [], []), ("Item", ["T"], ["at", "id"]), ("Part", [], ["Own", "Gap"]),
        ("All", ["K"], ["Some", "None"]), ("Color", [], ["red"])] := by decide +kernel
  rw [hl] at names
  obtain ⟨m, h, hnames⟩ := Library.ok_of_map_toOption names
  exact ⟨l, m, hl, h, hnames, read_normal hl h⟩

end Module

end TypeSchema
