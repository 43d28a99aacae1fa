import TypeSchema.Proofs.Written.Member

/-!
# Written definitions mean what they were written for

The text of a definition is derived again as a definition of its kind, which means the same where
what is known differs in places only. Leading zeros of a size, the layout and the order of a
union's options are not kept: none of them is part of the meaning.
-/

namespace TypeSchema

open Token (Stops IsWord scanFrom stops_cons)

variable {k k' : Known} {x : String} {ps : List String} {ts rest : List Token}

-- ---------------------------------------------------------------------------
-- Headings
-- ---------------------------------------------------------------------------

theorem heading_write (h : IsWord .name x.toList) (l : Location) {more : List Char}
    (hmore : Stops more) : ∃ n l', n.text = x ∧
      Grammar.Heading (scanFrom l (' ' :: (x.toList ++ more))) n (scanFrom l' more) := by
  obtain ⟨space, l₁, hspace, hscan₁⟩ := scan_space l (x.toList ++ more)
  obtain ⟨l₂, hscan₂⟩ := scan_name h hmore l₁
  refine ⟨⟨.name, x, l₁⟩, l₂, rfl, ?_⟩
  rw [hscan₁, hscan₂]
  exact .mk (.one hspace) rfl

def keywords : List String := ["struct", "union", "enum", "untagged", "import", "tag", "embedded"]

theorem keywords_spelled : ∀ word ∈ keywords, IsWord .symbol word.toList := by decide

theorem keyword_write {word : String} (h : word ∈ keywords) (more : List Char)
    (hmore : Stops more) (l : Location) :
    ∃ t l', Grammar.Keyword word t ∧ scanFrom l (word.toList ++ more) = t :: scanFrom l' more := by
  obtain ⟨l', hscan⟩ := scan_symbol (keywords_spelled word h) hmore l
  exact ⟨_, l', ⟨rfl, rfl⟩, hscan⟩

theorem parameterList_stops (names : List String) {more : List Char} (h : Stops more) :
    Stops ((parameterList names).toList ++ more) := by
  cases names with
  | nil => exact h
  | cons name names =>
    rintro c hc
    obtain rfl : '<' = c := by simpa [parameterList] using hc
    rfl

theorem parameters_write {names : List String} (h : ∀ x ∈ names, IsWord .name x.toList)
    (l : Location) (more : List Char) :
    ∃ trees l', trees.map (·.text) = names ∧
      Grammar.Parameters (scanFrom l ((parameterList names).toList ++ more)) trees
        (scanFrom l' more) := by
  by_cases hne : names = []
  · subst hne
    exact ⟨[], l, rfl, .none⟩
  have htext : (parameterList names).toList ++ more =
      '<' :: ((", ".intercalate (names.map id)).toList ++ '>' :: more) := by
    simp [parameterList, hne]
  obtain ⟨t, l₁, ht, hscan⟩ := scan_mark (m := .leftAngle) (c := '<') rfl l
    ((", ".intercalate (names.map id)).toList ++ '>' :: more)
  obtain ⟨trees, l₂, hitems, hgood⟩ := items_write .rightAngle rfl hne
    (fun x hx => name_writes (h x hx)) l₁ more
  refine ⟨trees, l₂, ?_, ?_⟩
  · rw [← List.forall₂_eq_eq_eq, List.forall₂_map_left_iff]
    exact hgood.flip
  · rw [htext, hscan]
    exact .list ht hitems

theorem block_write {α β γ : Type} {rule : Grammar.Rule α} {M : α → β → Prop} {text : β → String}
    {f : β → γ} {bs : List β}
    (h : ∀ b ∈ bs, Writes (text b) rule fun t => ∃ b', M t b' ∧ f b' = f b) (l : Location)
    (more : List Char) :
    ∃ as bs' l', Grammar.Block rule (scanFrom l (" \x7b\n".toList ++
      ((String.join ((bs.map text).map bodyLine)).toList ++ '\x7d' :: '\n' :: more))) as
        (scanFrom l' more) ∧ List.Forall₂ M as bs' ∧ bs'.map f = bs.map f := by
  obtain ⟨space, l₁, hspace, hscan₁⟩ := scan_space l ('\x7b' :: '\n' ::
    ((String.join ((bs.map text).map bodyLine)).toList ++ '\x7d' :: '\n' :: more))
  obtain ⟨brace, l₂, hbrace, hscan₂⟩ := scan_mark (m := .leftBrace) (c := '\x7b') rfl l₁ ('\n' ::
    ((String.join ((bs.map text).map bodyLine)).toList ++ '\x7d' :: '\n' :: more))
  obtain ⟨newline, l₃, hnewline, hscan₃⟩ := scan_newline l₂
    ((String.join ((bs.map text).map bodyLine)).toList ++ '\x7d' :: '\n' :: more)
  obtain ⟨as, l₄, hbody, hgood⟩ := body_write h l₃ ('\n' :: more)
  obtain ⟨ending, l₅, hending, hscan₅⟩ := scan_newline l₄ more
  obtain ⟨bs', hbs, hmap⟩ := forall₂_choose hgood
  have hscan : scanFrom l (" \x7b\n".toList ++ ((String.join ((bs.map text).map bodyLine)).toList ++
      '\x7d' :: '\n' :: more)) = space :: brace :: newline :: scanFrom l₃
        ((String.join ((bs.map text).map bodyLine)).toList ++ '\x7d' :: '\n' :: more) := by
    rw [← hscan₃, ← hscan₂, ← hscan₁]
    rfl
  refine ⟨as, bs', l₅, hscan ▸ ?_, hbs, hmap⟩
  exact .mk ⟨brace, _, .one hspace, hbrace, .newline hnewline⟩ hbody
    (.line (hscan₅ ▸ .newline hending))

section
variable {α β γ : Type} {rule : Grammar.Rule α} {M : α → β → Prop} {text : β → String}
variable {f : β → γ} {bs : List β}

def declaration (x : String) (ps members : List String) (more : List Char) : List Char :=
  ' ' :: (x.toList ++ ((parameterList ps).toList ++ (" \x7b\n".toList ++
    ((String.join (members.map bodyLine)).toList ++ '\x7d' :: '\n' :: more))))

theorem declaration_write (hx : IsWord .name x.toList) (hps : ∀ p ∈ ps, IsWord .name p.toList)
    (h : ∀ b ∈ bs, Writes (text b) rule fun t => ∃ b', M t b' ∧ f b' = f b) (l : Location)
    (more : List Char) :
    ∃ n mid names opening as bs' l', n.text = x ∧ names.map (·.text) = ps ∧
      Grammar.Heading (scanFrom l (declaration x ps (bs.map text) more)) n mid ∧
      Grammar.Parameters mid names opening ∧ Grammar.Block rule opening as (scanFrom l' more) ∧
      List.Forall₂ M as bs' ∧ bs'.map f = bs.map f := by
  have hopening : Stops (" \x7b\n".toList ++ ((String.join ((bs.map text).map bodyLine)).toList ++
      '\x7d' :: '\n' :: more)) := stops_cons rfl
  obtain ⟨n, l₁, hn, heading⟩ := heading_write hx l (parameterList_stops ps hopening)
  obtain ⟨names, l₂, hnames, parameters⟩ := parameters_write hps l₁ (" \x7b\n".toList ++
    ((String.join ((bs.map text).map bodyLine)).toList ++ '\x7d' :: '\n' :: more))
  obtain ⟨as, bs', l₃, block, hbs, hmap⟩ := block_write h l₂ more
  exact ⟨n, _, names, _, as, bs', l₃, hn, hnames, heading, parameters, block, hbs, hmap⟩

end

theorem distinct_write {τ β : Type} {M M' : Token × τ → β → Prop} (name : β → String)
    {lines lines' : List (Token × τ)} {parts parts' : List β} (h : List.Forall₂ M lines parts)
    (h' : List.Forall₂ M' lines' parts') (hm : ∀ l p, M l p → l.1.text = name p)
    (hm' : ∀ l p, M' l p → l.1.text = name p) (hparts : parts'.map name = parts.map name)
    (hd : Distinct (lines.map Prod.fst)) : Distinct (lines'.map Prod.fst) := by
  unfold Distinct at *
  rwa [names_of_lines h' hm', hparts, ← names_of_lines h hm]

-- ---------------------------------------------------------------------------
-- Options of a union
-- ---------------------------------------------------------------------------

def OptionSyntax.text : OptionSyntax → String
  | .tag field => "tag = " ++ field.text
  | .embedded => "embedded"

/-- An option that names a tag field names it with a symbol. -/
def OptionSyntax.Spelled (o : OptionSyntax) : Prop := ∀ x ∈ o.field?, IsWord .symbol x.toList

def Union.options (u : Union) : List OptionSyntax :=
  (if u.tagField = defaultTagField then [] else [.tag ⟨.symbol, u.tagField, .start⟩]) ++
    if u.isEmbedded then [.embedded] else []

theorem Union.optionList_eq (u : Union) : u.optionList = if u.options = [] then "" else
    "(" ++ ", ".intercalate (u.options.map OptionSyntax.text) ++ ")" := by
  unfold optionList options
  by_cases htag : u.tagField = defaultTagField <;> by_cases hembedded : u.isEmbedded <;>
    simp [htag, hembedded, OptionSyntax.text]

theorem Union.tagFieldOf_options (u : Union) : tagFieldOf u.options = u.tagField := by
  unfold options tagFieldOf
  by_cases htag : u.tagField = defaultTagField <;> by_cases hembedded : u.isEmbedded <;>
    simp [htag, hembedded, OptionSyntax.field?, List.filterMap_cons]

theorem Union.embedded_mem_options (u : Union) : .embedded ∈ u.options ↔ u.isEmbedded := by
  unfold options
  by_cases htag : u.tagField = defaultTagField <;> simp [htag]

theorem Union.options_spelled {u : Union} (h : IsWord .symbol u.tagField.toList) :
    ∀ o ∈ u.options, o.Spelled := by
  intro o ho x hx
  unfold options at ho
  rcases List.mem_append.mp ho with ho | ho
  · split at ho
    · cases ho
    · obtain rfl := List.mem_singleton.mp ho
      cases hx
      exact h
  · split at ho
    · obtain rfl := List.mem_singleton.mp ho
      cases hx
    · cases ho

theorem tagFieldOf_congr {os os' : List OptionSyntax}
    (h : os.map OptionSyntax.field? = os'.map OptionSyntax.field?) :
    tagFieldOf os = tagFieldOf os' := by
  have named (os : List OptionSyntax) :
      os.filterMap OptionSyntax.field? = (os.map OptionSyntax.field?).filterMap id := by
    rw [List.filterMap_map]
    rfl
  rw [tagFieldOf, tagFieldOf, named, h, named]

theorem embedded_mem_congr {os os' : List OptionSyntax}
    (h : os.map OptionSyntax.field? = os'.map OptionSyntax.field?) :
    .embedded ∈ os ↔ .embedded ∈ os' := by
  have unnamed (os : List OptionSyntax) : .embedded ∈ os ↔ none ∈ os.map OptionSyntax.field? := by
    rw [List.mem_map]
    constructor
    · exact fun h => ⟨_, h, rfl⟩
    · rintro ⟨o, ho, hnone⟩
      cases o with
      | tag => cases hnone
      | embedded => exact ho
  rw [unnamed, h, ← unnamed]

theorem option_writes {o : OptionSyntax} (h : o.Spelled) :
    Writes o.text Grammar.SpacedOption fun o' => o'.field? = o.field? := by
  intro l more hmore
  cases o with
  | embedded =>
    obtain ⟨t, l₁, ht, hscan⟩ := keyword_write (by simp [keywords] : "embedded" ∈ keywords) more
      hmore l
    refine ⟨.embedded, l₁, ?_, rfl⟩
    rw [OptionSyntax.text, hscan]
    exact .mk (.embedded ht) (.refl _)
  | tag field =>
    have htext : (OptionSyntax.tag field).text.toList ++ more =
        "tag".toList ++ ' ' :: '=' :: ' ' :: (field.text.toList ++ more) := by
      simp [OptionSyntax.text]
    obtain ⟨t, l₁, ht, hscan₁⟩ := keyword_write (by simp [keywords] : "tag" ∈ keywords)
      (' ' :: '=' :: ' ' :: (field.text.toList ++ more)) (stops_cons rfl) l
    obtain ⟨space₁, l₂, hspace₁, hscan₂⟩ := scan_space l₁ ('=' :: ' ' :: (field.text.toList ++ more))
    obtain ⟨equals, l₃, hequals, hscan₃⟩ := scan_mark (m := .equals) (c := '=') rfl l₂
      (' ' :: (field.text.toList ++ more))
    obtain ⟨space₂, l₄, hspace₂, hscan₄⟩ := scan_space l₃ (field.text.toList ++ more)
    obtain ⟨l₅, hscan₅⟩ := scan_symbol (h _ rfl) hmore l₄
    refine ⟨.tag ⟨.symbol, field.text, l₄⟩, l₅, ?_, rfl⟩
    rw [htext, hscan₁, hscan₂, hscan₃, hscan₄, hscan₅]
    exact .mk (.tag ht (.one hspace₁) hequals (.one hspace₂) rfl) (.refl _)

theorem optionList_stops (u : Union) {more : List Char} (h : Stops more) :
    Stops (u.optionList.toList ++ more) := by
  rw [u.optionList_eq]
  split
  · exact h
  · rintro c hc
    obtain rfl : '(' = c := by simpa using hc
    rfl

theorem options_write {u : Union} (h : IsWord .symbol u.tagField.toList) (l : Location)
    (more : List Char) :
    ∃ options l', Grammar.UnionOptions (scanFrom l (u.optionList.toList ++ more)) options
        (scanFrom l' more) ∧
      tagFieldOf options = u.tagField ∧ (.embedded ∈ options ↔ u.isEmbedded) := by
  rw [← u.tagFieldOf_options, ← u.embedded_mem_options, u.optionList_eq]
  split
  next hnone =>
    exact ⟨[], l, .none, by rw [hnone], by rw [hnone]⟩
  next hsome =>
    have htext : ("(" ++ ", ".intercalate (u.options.map OptionSyntax.text) ++ ")").toList ++ more =
        '(' :: ((", ".intercalate (u.options.map OptionSyntax.text)).toList ++ ')' :: more) := by
      simp
    obtain ⟨t, l₁, ht, hscan⟩ := scan_mark (m := .leftParen) (c := '(') rfl l
      ((", ".intercalate (u.options.map OptionSyntax.text)).toList ++ ')' :: more)
    obtain ⟨options, l₂, hitems, hgood⟩ := items_write .rightParen rfl hsome
      (fun o ho => option_writes (Union.options_spelled h o ho)) l₁ more
    have hfields : options.map OptionSyntax.field? = u.options.map OptionSyntax.field? := by
      rw [← List.forall₂_eq_eq_eq, List.forall₂_map_left_iff, List.forall₂_map_right_iff]
      exact hgood.flip
    refine ⟨options, l₂, ?_, tagFieldOf_congr hfields, embedded_mem_congr hfields⟩
    rw [htext, hscan]
    exact .list ht (.refl _) hitems

-- ---------------------------------------------------------------------------
-- Definitions
-- ---------------------------------------------------------------------------

/-- The text of the definition, on lines of its own, is derived as a tree that means the same up to
places. -/
def Known.Rewrites (k : Known) (d : Definition) : Prop :=
  ∀ l more, ∃ t' d' l', Grammar.Definition (scanFrom l (d.text.toList ++ '\n' :: more)) t'
    (scanFrom l' more) ∧ k.Means t' d' ∧ d'.unplaced = d.unplaced

theorem toList_bodyText (introduction : String) (members : List String) (more : List Char) :
    (bodyText introduction members).toList ++ more = introduction.toList ++ (" \x7b\n".toList ++
      ((String.join (members.map bodyLine)).toList ++ '\x7d' :: more)) := by
  simp [bodyText]

theorem Grammar.Parameters.none_of_map {names : List Token} (h : Parameters ts names rest)
    (hn : names.map (·.text) = []) : rest = ts := by
  cases h with
  | none => rfl
  | list _ items => cases items <;> cases hn

theorem Union.toList_text (u : Union) (more : List Char) :
    u.text.toList ++ '\n' :: more = "union".toList ++ (u.optionList.toList ++
      declaration u.heading.name u.parameters u.memberTexts more) := by
  rw [Union.text, toList_bodyText]
  simp [declaration]

theorem union_write {α β γ : Type} {rule : Grammar.Rule α} {M : α → β → Prop} {text : β → String}
    {f : β → γ} {bs : List β} (u : Union) (hparameters : u.parameters = ps)
    (hmembers : u.memberTexts = bs.map text) (hx : IsWord .name u.heading.name.toList)
    (hps : ∀ p ∈ ps, IsWord .name p.toList) (htag : IsWord .symbol u.tagField.toList)
    (h : ∀ b ∈ bs, Writes (text b) rule fun t => ∃ b', M t b' ∧ f b' = f b) (l : Location)
    (more : List Char) :
    ∃ t ts options mid n after names opening as bs' l',
      scanFrom l (u.text.toList ++ '\n' :: more) = t :: ts ∧ Grammar.Keyword "union" t ∧
      Grammar.UnionOptions ts options mid ∧ tagFieldOf options = u.tagField ∧
      (.embedded ∈ options ↔ u.isEmbedded) ∧ n.text = u.heading.name ∧
      names.map (·.text) = ps ∧ Grammar.Heading mid n after ∧
      Grammar.Parameters after names opening ∧ Grammar.Block rule opening as (scanFrom l' more) ∧
      List.Forall₂ M as bs' ∧ bs'.map f = bs.map f := by
  subst hparameters
  obtain ⟨t, l₁, hword, hscan⟩ := keyword_write (by simp [keywords] : "union" ∈ keywords)
    (u.optionList.toList ++ declaration u.heading.name u.parameters (bs.map text) more)
    (optionList_stops u (stops_cons rfl)) l
  obtain ⟨options, l₂, hoptions, hfield, hembedded⟩ := options_write htag l₁
    (declaration u.heading.name u.parameters (bs.map text) more)
  obtain ⟨n, mid, names, opening, as, bs', l₃, hn, hnames, heading, parameters, block, hbs, hmap⟩ :=
    declaration_write hx hps h l₂ more
  rw [← hmembers, ← u.toList_text] at hscan
  exact ⟨t, _, options, _, n, mid, names, opening, as, bs', l₃, hscan, hword,
    hmembers ▸ hoptions, hfield, hembedded, hn, hnames, heading, parameters, block, hbs, hmap⟩

theorem generic_write {names names' : List Token} {generic : Option (List String)}
    (h : GenericMeans names generic) (hn : names'.map (·.text) = names.map (·.text)) :
    GenericMeans names' generic := by
  rw [Read.eq_generic? h, ← hn]
  exact Read.generic?_means

theorem distinct_of_texts {names names' : List Token} (h : Distinct names)
    (hn : names'.map (·.text) = names.map (·.text)) : Distinct names' := by
  unfold Distinct at *
  rwa [hn]

section
variable (hk : k.Alike k') (hw : k.WellNamed) (hl : k.library.WellNamed)
include hk hw hl

theorem struct_rewrites {t n : Token} {names : List Token} {fields : List (Token × TypeSyntax)}
    {d : Definition} (h : Grammar.Definition ts (.struct t n names fields) rest)
    (hs : ∀ t ∈ ts, t.Spelled) (hm : k.Means (.struct t n names fields) d) : k'.Rewrites d := by
  cases h with
  | struct _ heading parameters block =>
    cases hm with
    | @struct _ _ _ _ generic members hfree hdistinct hgeneric hd hm =>
      intro l more
      have hwrites : ∀ m ∈ members, Writes m.fieldText Grammar.Field fun f' => ∃ m',
          Inside.FieldMeans ⟨k', n.text, names.map (·.text)⟩ f' m' ∧ m'.unplaced = m.unplaced := by
        intro m hmem
        have inside := parameters.suffix.trans heading.suffix
        obtain ⟨f, us, after, hfm, hs', hfield⟩ := block.meant
          (Token.spelled_of_tail_suffix hs inside) (fun _ _ _ h => h.suffix) hm hmem
        cases hfm with
        | mk hfm => exact field_writes hk hw hl hfield hs' hfm
      have hname := heading_name (List.forall_mem_of_forall_mem_cons hs) heading
      have hwords :=
        parameters_words (Token.spelled_of_tail_suffix hs heading.suffix) parameters
      have htext : (Definition.text (.struct ⟨⟨n.text, t.location⟩, generic, members⟩)).toList ++
          '\n' :: more = "struct".toList ++
            declaration n.text (names.map (·.text)) (members.map Member.fieldText) more := by
        rw [Definition.text, Struct.text, toList_bodyText, Struct.parameters, hgeneric.getD]
        simp [declaration]
      obtain ⟨t', l₁, hword, hscan⟩ := keyword_write (by simp [keywords] : "struct" ∈ keywords)
        (declaration n.text (names.map (·.text)) (members.map Member.fieldText) more)
        (stops_cons rfl) l
      obtain ⟨n', mid, names', opening', lines, members', l₂, hn, hnames, heading', parameters',
        block', hmeans, hmap⟩ := declaration_write hname hwords hwrites l₁ more
      rw [htext, hscan]
      rw [← hn, ← hnames] at hmeans
      refine ⟨_, _, l₂, .struct hword heading' parameters' block', .struct ?_
        (distinct_of_texts hdistinct hnames) (generic_write hgeneric hnames) ?_ hmeans, ?_⟩
      · rw [hn]
        exact hk.free hfree
      · refine distinct_write Member.name hm hmeans (fun _ _ h => h.called) (fun _ _ h => h.called)
          ?_ hd
        simpa [Function.comp_def] using congrArg (List.map Member.name) hmap
      · simp [Definition.relocated, Struct.relocated, Heading.relocated, hn, hmap]

theorem union_rewrites {t n : Token} {options : List OptionSyntax} {names : List Token}
    {constructors : List (Token × Option TypeSyntax)} {d : Definition}
    (h : Grammar.Definition ts (.union t options n names constructors) rest)
    (hs : ∀ t ∈ ts, t.Spelled) (hm : k.Means (.union t options n names constructors) d) :
    k'.Rewrites d := by
  cases h with
  | union _ hoptions _ heading parameters block =>
    cases hm with
    | @union _ _ _ _ _ generic members hfree hdistinct hgeneric hd hm =>
      intro l more
      have inside := heading.suffix.trans hoptions.suffix
      have hwrites : ∀ m ∈ members, Writes m.constructorText (Grammar.Tagged Grammar.TypeExpr)
          fun c' => ∃ m', Inside.ConstructorMeans ⟨k', n.text, names.map (·.text)⟩ c' m' ∧
            m'.unplaced = m.unplaced := by
        intro m hmem
        have inside := parameters.suffix.trans inside
        obtain ⟨c, us, after, hcm, hs', hline⟩ := block.meant
          (Token.spelled_of_tail_suffix hs inside)
          (fun _ _ _ h => h.suffix fun _ _ _ h => h.suffix) hm hmem
        exact constructor_writes hk hw hl hline hs' hcm
      have hname := heading_name (Token.spelled_of_tail_suffix hs hoptions.suffix) heading
      have hwords := parameters_words (Token.spelled_of_tail_suffix hs inside) parameters
      have htag := tagFieldOf_word (List.forall_mem_of_forall_mem_cons hs) hoptions
      obtain ⟨t', us, options', mid, n', after, names', opening', lines, members', l₁, hscan, hword,
        hoptions', hfield, hembedded, hn, hnames, heading', parameters', block', hmeans, hmap⟩ :=
        union_write ⟨⟨n.text, t.location⟩, tagFieldOf options, .tagged generic members⟩
          hgeneric.getD rfl hname hwords htag hwrites l more
      rw [Definition.text, hscan]
      rw [← hnames, ← show n'.text = n.text from hn] at hmeans
      refine ⟨_, _, l₁, .union hword hoptions' (by simp [hembedded, Union.isEmbedded]) heading'
        parameters' block', .union ?_ (distinct_of_texts hdistinct hnames)
        (generic_write hgeneric hnames) ?_ hmeans, ?_⟩
      · rw [hn]
        exact hk.free hfree
      · refine distinct_write Member.name hm hmeans (fun _ _ h => h.called)
          (fun _ _ h => h.called) ?_ hd
        simpa [Function.comp_def] using congrArg (List.map Member.name) hmap
      · simp [Definition.relocated, Union.relocated, Union.Body.relocated, Heading.relocated, hn,
          hmap, hfield]

omit hw hl in
theorem embedded_rewrites {t n : Token} {options : List OptionSyntax} {names : List Token}
    {lines : List (Token × Option Token)} {d : Definition}
    (h : Grammar.Definition ts (.embedded t options n names lines) rest)
    (hs : ∀ t ∈ ts, t.Spelled) (hm : k.Means (.embedded t options n names lines) d) :
    k'.Rewrites d := by
  cases h with
  | embedded _ hoptions _ heading parameters block =>
    cases hm with
    | @embedded _ _ _ _ _ variants hfree hdistinct hd hm =>
      intro l more
      have inside := heading.suffix.trans hoptions.suffix
      have hwrites : ∀ v ∈ variants, Writes v.text (Grammar.Tagged Grammar.Name) fun c' =>
          ∃ v', k'.VariantMeans (tagFieldOf options) c' v' ∧ v'.unplaced = v.unplaced := by
        intro v hv
        have inside := parameters.suffix.trans inside
        obtain ⟨c, us, after, hcv, hs', hline⟩ := block.meant
          (Token.spelled_of_tail_suffix hs inside)
          (fun _ _ _ h => h.suffix fun _ _ _ h => h.suffix) hm hv
        exact variant_writes hk hline hs' hcv
      have hname := heading_name (Token.spelled_of_tail_suffix hs hoptions.suffix) heading
      have hwords := parameters_words (Token.spelled_of_tail_suffix hs inside) parameters
      have htag := tagFieldOf_word (List.forall_mem_of_forall_mem_cons hs) hoptions
      obtain ⟨t', us, options', mid, n', after, names', opening', lines', variants', l₁, hscan,
        hword, hoptions', hfield, hembedded, hn, hnames, heading', parameters', block', hmeans,
        hmap⟩ :=
        union_write ⟨⟨n.text, t.location⟩, tagFieldOf options,
          .embedded (names.map Token.text) variants⟩ rfl rfl hname hwords htag hwrites l more
      rw [Definition.text, hscan]
      rw [← show tagFieldOf options' = tagFieldOf options from hfield] at hmeans
      refine ⟨_, _, l₁, .embedded hword hoptions' (hembedded.mpr rfl) heading' parameters' block',
        .embedded ?_ (distinct_of_texts hdistinct hnames) ?_ hmeans, ?_⟩
      · rw [hn]
        exact hk.free hfree
      · refine distinct_write Variant.tag hm hmeans (fun _ _ h => h.called)
          (fun _ _ h => h.called) ?_ hd
        simpa [Function.comp_def] using congrArg (List.map Variant.tag) hmap
      · simp [Definition.relocated, Union.relocated, Union.Body.relocated, Heading.relocated, hn,
          hmap, hfield, hnames, Union.parameters]

omit hw hl in
theorem enum_rewrites {t n : Token} {lines : List (Token × Token)} {d : Definition}
    (h : Grammar.Definition ts (.enum t n lines) rest) (hs : ∀ t ∈ ts, t.Spelled)
    (hm : k.Means (.enum t n lines) d) : k'.Rewrites d := by
  cases h with
  | enum _ heading block =>
    cases hm with
    | @enum _ _ _ items hfree hd hm =>
      intro l more
      have hwrites : ∀ i ∈ items, Writes (i.tag ++ " = " ++ i.value.text) Grammar.Item fun i' =>
          ∃ item', ItemMeans i' item' ∧ item' = i := by
        intro i hi
        obtain ⟨line, us, after, him, hs', hitem⟩ := block.meant
          (Token.spelled_of_tail_suffix hs heading.suffix) (fun _ _ _ h => h.suffix) hm hi
        exact item_writes hitem hs' him
      have hname := heading_name (List.forall_mem_of_forall_mem_cons hs) heading
      obtain ⟨t', l₁, hword, hscan⟩ := keyword_write (by simp [keywords] : "enum" ∈ keywords)
        (declaration n.text [] (items.map fun i => i.tag ++ " = " ++ i.value.text) more)
        (stops_cons rfl) l
      obtain ⟨n', mid, names, opening', lines', items', l₂, hn, hnames, heading', parameters,
        block', hmeans, hmap⟩ :=
          declaration_write (f := id) hname (List.forall_mem_nil _) hwrites l₁ more
      have htext : (Definition.text (.enum ⟨⟨n.text, t.location⟩, items⟩)).toList ++ '\n' :: more =
          "enum".toList ++
            declaration n.text [] (items.map fun i => i.tag ++ " = " ++ i.value.text) more := by
        rw [Definition.text, Enum.text, toList_bodyText]
        simp [declaration, parameterList]
      rw [htext, hscan]
      obtain rfl : items' = items := by simpa using hmap
      obtain rfl := parameters.none_of_map hnames
      refine ⟨_, _, l₂, .enum hword heading' block', .enum ?_ ?_ hmeans, ?_⟩
      · rw [hn]
        exact hk.free hfree
      · exact distinct_write Enum.Item.tag hm hmeans (fun _ _ h => h.called)
          (fun _ _ h => h.called) rfl hd
      · simp [Definition.relocated, Enum.relocated, Heading.relocated, hn]

theorem untagged_rewrites {t n : Token} {lines : List ReferenceSyntax} {d : Definition}
    (h : Grammar.Definition ts (.untagged t n lines) rest) (hs : ∀ t ∈ ts, t.Spelled)
    (hm : k.Means (.untagged t n lines) d) : k'.Rewrites d := by
  cases h with
  | untagged _ before _ heading block =>
    cases hm with
    | @untagged _ _ _ cases hfree hm =>
      intro l more
      have inside := heading.suffix.trans ((List.suffix_cons ..).trans before.suffix)
      have hwrites : ∀ r ∈ cases, Writes r.text Grammar.Reference fun t' =>
          ∃ r', Inside.ReferenceMeans ⟨k', n.text, []⟩ t' r' ∧ r'.unplaced = r.unplaced := by
        intro r hr
        obtain ⟨line, us, after, hrm, hs', hreference⟩ := block.meant
          (Token.spelled_of_tail_suffix hs inside) (fun _ _ _ h => h.suffix) hm hr
        exact reference_writes hk hw hl hreference hs' hrm
      have hname := heading_name
        (Token.spelled_of_tail_suffix hs ((List.suffix_cons ..).trans before.suffix)) heading
      obtain ⟨t', l₁, hword, hscan₁⟩ := keyword_write (by simp [keywords] : "untagged" ∈ keywords)
        (' ' :: ("union".toList ++ declaration n.text [] (cases.map Reference.text) more))
        (stops_cons rfl) l
      obtain ⟨space, l₂, hspace, hscan₂⟩ := scan_space l₁
        ("union".toList ++ declaration n.text [] (cases.map Reference.text) more)
      obtain ⟨second, l₃, hsecond, hscan₃⟩ := keyword_write (by simp [keywords] : "union" ∈ keywords)
        (declaration n.text [] (cases.map Reference.text) more) (stops_cons rfl) l₂
      obtain ⟨n', mid, names, opening', lines', cases', l₄, hn, hnames, heading', parameters,
        block', hmeans, hmap⟩ := declaration_write hname (List.forall_mem_nil _) hwrites l₃ more
      have htext : (Definition.text (.untagged ⟨⟨n.text, t.location⟩, cases⟩)).toList ++
          '\n' :: more = "untagged".toList ++ (' ' :: ("union".toList ++
            declaration n.text [] (cases.map Reference.text) more)) := by
        rw [Definition.text, UntaggedUnion.text, toList_bodyText]
        simp [declaration, parameterList]
      rw [htext, hscan₁, hscan₂, hscan₃]
      obtain rfl := parameters.none_of_map hnames
      rw [← hn] at hmeans
      refine ⟨_, _, l₄, .untagged hword (.one hspace) hsecond heading' block',
        .untagged ?_ hmeans, ?_⟩
      · rw [hn]
        exact hk.free hfree
      · simp [Definition.relocated, UntaggedUnion.relocated, Heading.relocated, hn, hmap]

omit hw hl in
theorem import_rewrites {t module : Token} {q : Option Token} {d : Definition}
    (h : Grammar.Definition ts (.imports t module q) rest) (hs : ∀ t ∈ ts, t.Spelled)
    (hm : k.Means (.imports t module q) d) : k'.Rewrites d := by
  have hnamed := hm.wellNamed ⟨ts, rest, hs, h⟩
  cases hm with
  | imports hfree hmodule =>
    obtain ⟨hname, hqualifier⟩ := hnamed
    intro l more
    generalize (q.getD module).text = qualifier at hfree hqualifier
    by_cases heq : qualifier = module.text
    · subst heq
      obtain ⟨t', l₁, hword, hscan₁⟩ := keyword_write (by simp [keywords] : "import" ∈ keywords)
        (' ' :: (module.text.toList ++ '\n' :: more)) (stops_cons rfl) l
      obtain ⟨space, l₂, hspace, hscan₂⟩ := scan_space l₁ (module.text.toList ++ '\n' :: more)
      obtain ⟨l₃, hscan₃⟩ := scan_symbol hname (stops_cons rfl : Stops ('\n' :: more)) l₂
      obtain ⟨newline, l₄, hnewline, hscan₄⟩ := scan_newline l₃ more
      have htext : (Definition.text (.imports ⟨⟨module.text, t.location⟩, module.text⟩)).toList ++
          '\n' :: more = "import".toList ++ (' ' :: (module.text.toList ++ '\n' :: more)) := by
        simp [Definition.text, Import.text]
      rw [htext, hscan₁, hscan₂, hscan₃, hscan₄]
      exact ⟨_, _, l₄, .imports hword (.one hspace) rfl .none (.line (.newline hnewline)),
        .imports (hk.free hfree) (hk.contains hmodule), rfl⟩
    · obtain ⟨t', l₁, hword, hscan₁⟩ := keyword_write (by simp [keywords] : "import" ∈ keywords)
        (' ' :: (module.text.toList ++ ' ' :: '=' :: ' ' :: (qualifier.toList ++ '\n' :: more)))
        (stops_cons rfl) l
      obtain ⟨space₁, l₂, hspace₁, hscan₂⟩ := scan_space l₁
        (module.text.toList ++ ' ' :: '=' :: ' ' :: (qualifier.toList ++ '\n' :: more))
      obtain ⟨l₃, hscan₃⟩ := scan_symbol hname
        (stops_cons rfl : Stops (' ' :: '=' :: ' ' :: (qualifier.toList ++ '\n' :: more))) l₂
      obtain ⟨space₂, l₄, hspace₂, hscan₄⟩ := scan_space l₃
        ('=' :: ' ' :: (qualifier.toList ++ '\n' :: more))
      obtain ⟨equals, l₅, hequals, hscan₅⟩ := scan_mark (m := .equals) (c := '=') rfl l₄
        (' ' :: (qualifier.toList ++ '\n' :: more))
      obtain ⟨space₃, l₆, hspace₃, hscan₆⟩ := scan_space l₅ (qualifier.toList ++ '\n' :: more)
      obtain ⟨l₇, hscan₇⟩ := scan_symbol hqualifier (stops_cons rfl : Stops ('\n' :: more)) l₆
      obtain ⟨newline, l₈, hnewline, hscan₈⟩ := scan_newline l₇ more
      have htext : (Definition.text (.imports ⟨⟨module.text, t.location⟩, qualifier⟩)).toList ++
          '\n' :: more = "import".toList ++ (' ' :: (module.text.toList ++
            ' ' :: '=' :: ' ' :: (qualifier.toList ++ '\n' :: more))) := by
        simp [Definition.text, Import.text, heq]
      rw [htext, hscan₁, hscan₂, hscan₃, hscan₄, hscan₅, hscan₆, hscan₇, hscan₈]
      exact ⟨_, _, l₈, .imports hword (.one hspace₁) rfl
        (.mk (.one hspace₂) hequals (.one hspace₃) rfl) (.line (.newline hnewline)),
        .imports (hk.free hfree) (hk.contains hmodule), rfl⟩

theorem definition_rewrites {t : DefinitionSyntax} {d : Definition} (hm : k.Means t d)
    (ht : t.Derived) : k'.Rewrites d := by
  obtain ⟨ts, rest, hs, h⟩ := ht
  cases t with
  | struct => exact struct_rewrites hk hw hl h hs hm
  | union => exact union_rewrites hk hw hl h hs hm
  | embedded => exact embedded_rewrites hk h hs hm
  | enum => exact enum_rewrites hk h hs hm
  | untagged => exact untagged_rewrites hk hw hl h hs hm
  | imports => exact import_rewrites hk h hs hm

end

end TypeSchema
