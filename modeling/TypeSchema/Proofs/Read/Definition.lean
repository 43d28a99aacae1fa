import TypeSchema.Proofs.Read.TypeExpr
import TypeSchema.Read.Definition

/-!
# Definitions and their rules

A definition is read exactly where the grammar has one that keeps the static rules. Its names are
checked while it is read, its layout between them; either may refuse it first, and what is left is
the same.
-/

namespace TypeSchema.Read

open Grammar (Rule Spaces Keyword)
open Cursor (IsContent content_of_kind)

variable {α β τ : Type} {k : Known} {ctx : Context} {c d e : Cursor} {ts rest : List Token}
variable {keyword : Token}

-- ---------------------------------------------------------------------------
-- Names that differ
-- ---------------------------------------------------------------------------

section
variable {called : τ → String} {name : α → String} {R : τ → α → Prop}
variable {before as : List α} {trees : List τ}

/-- What is read has the name that its tree has, and nothing before it has that name. -/
def Fresh (called : τ → String) (name : α → String) (R : τ → α → Prop) (before : List α) (t : τ)
    (a : α) : Prop :=
  name a = called t ∧ called t ∉ before.map name ∧ R t a

theorem nodup_of_fresh (h : Each (Fresh called name R) before trees as)
    (hb : (before.map name).Nodup) : (before.map name ++ trees.map called).Nodup := by
  induction h with
  | nil => simpa using hb
  | cons first _ ih =>
    obtain ⟨hname, hfresh, -⟩ := first
    have hb' := List.nodup_append.mpr ⟨hb, List.pairwise_singleton _ (called _), by
      rintro x hx y hy rfl
      exact hfresh ((List.mem_singleton.mp hy).symm ▸ hx)⟩
    simpa [hname] using ih (by simpa [hname] using hb')

theorem fresh_of_nodup (h : List.Forall₂ (fun t a => name a = called t ∧ R t a) trees as)
    (hn : (before.map name ++ trees.map called).Nodup) :
    Each (Fresh called name R) before trees as := by
  induction h generalizing before with
  | nil => exact .nil
  | cons first _ ih =>
    obtain ⟨hname, hr⟩ := first
    refine .cons ⟨hname, fun hmem => ?_, hr⟩ (ih (by simpa [hname] using hn))
    exact (List.nodup_append.mp hn).2.2 _ hmem _ (by simp) rfl

end

def lineName (line : Token × τ) : String := line.1.text

theorem distinct_lines {lines : List (Token × τ)} :
    Distinct (lines.map Prod.fst) ↔ (lines.map lineName).Nodup := by
  rw [Distinct, List.map_map]
  rfl

/-- A line of a body gives an entry with the same name, and the entry a part of the definition. -/
abbrev Line (M : Token × τ → β → Prop) (f : Token × α → β) :
    List (Token × α) → Token × τ → Token × α → Prop :=
  Fresh lineName lineName fun t entry => entry.1 = t.1 ∧ M t (f entry)

theorem lines_mean {M : Token × τ → β → Prop} {f : Token × α → β}
    {trees : List (Token × τ)} {entries : List (Token × α)}
    (h : Each (Line M f) [] trees entries) :
    Distinct (trees.map Prod.fst) ∧ List.Forall₂ M trees (entries.map f) := by
  refine ⟨?_, ?_⟩
  · simpa using distinct_lines.mpr (nodup_of_fresh h (by simp))
  · rw [List.forall₂_map_right_iff]
    exact h.forall₂ fun _ _ _ h => h.2.2.2

theorem lines_of_mean {M : Token × τ → β → Prop} {f : Token × α → β}
    (entry : ∀ t b, M t b → ∃ a, f (t.1, a) = b) {trees : List (Token × τ)} {parts : List β}
    (hd : Distinct (trees.map Prod.fst)) (h : List.Forall₂ M trees parts) :
    ∃ entries, Each (Line M f) [] trees entries ∧ entries.map f = parts := by
  suffices hentries : ∃ entries, List.Forall₂ (fun t a => lineName a = lineName t ∧
      a.1 = t.1 ∧ M t (f a)) trees entries ∧ entries.map f = parts by
    obtain ⟨entries, he, hparts⟩ := hentries
    exact ⟨entries, fresh_of_nodup he (distinct_lines.mp hd), hparts⟩
  clear hd
  induction h with
  | nil => exact ⟨[], .nil, rfl⟩
  | @cons t b _ _ first _ ih =>
    obtain ⟨entries, he, rfl⟩ := ih
    obtain ⟨a, rfl⟩ := entry _ _ first
    exact ⟨(t.1, a) :: entries, .cons ⟨rfl, rfl, first⟩ he, rfl⟩

section
variable {M : Token × τ → β → Prop} {f : Token × α → β} {line : Rule (Token × τ)}
variable {member : Array (Token × α) → Read (Token × α)}

theorem lines_ok {entries : List (Token × α)} (hs : ∀ ts t rest, line ts t rest → rest <:+ ts)
    (hm : ∀ acc d a e, d.tokens <:+ c.tokens → member acc d = .ok a e →
      ∃ t, line d.tokens t e.tokens ∧ Line M f acc.toList t a)
    (h : body member c = .ok entries e) :
    ∃ trees, Grammar.Body line c.tokens trees e.tokens ∧ Distinct (trees.map Prod.fst) ∧
      List.Forall₂ M trees (entries.map f) := by
  obtain ⟨trees, hbody, heach⟩ := body_ok hs hm h
  exact ⟨trees, hbody, lines_mean heach⟩

theorem lines_runs {trees : List (Token × τ)} {parts : List β}
    (hs : ∀ ts t rest, line ts t rest → rest <:+ ts)
    (first : ∀ ts t rest, line ts t rest → ∃ u more, ts = u :: more ∧ IsContent u.kind)
    (entry : ∀ t b, M t b → ∃ a, f (t.1, a) = b)
    (hm : ∀ acc us t a after, us <:+ ts → line us t after → (∀ mark, Unmarked mark after) →
      Line M f acc.toList t a → Runs (member acc) us a after)
    (h : Grammar.Body line ts trees rest) (hd : Distinct (trees.map Prod.fst))
    (hmeans : List.Forall₂ M trees parts) :
    ∃ entries, Runs (body member) ts entries rest ∧ entries.map f = parts := by
  obtain ⟨entries, heach, hparts⟩ := lines_of_mean entry hd hmeans
  refine ⟨entries, body_runs hs first ?_ h heach, hparts⟩
  intro acc us t a after next hus hl hnext htells
  exact hm acc us t a after hus hl (fun _ => lineEnd_unmarked hnext) htells

end

theorem freshMember_ok {definition : String} {members : Array (Token × α)} {name : Token} :
    freshMember definition members name c = .ok () d ↔
      name.text ∉ members.toList.map lineName ∧ c = d := by
  unfold freshMember
  cases hm : members.find? (·.1.text = name.text) with
  | none =>
    have hfresh : name.text ∉ members.toList.map lineName := by
      simpa [lineName] using hm
    rw [pure_ok]
    exact ⟨fun h => ⟨hfresh, h.2⟩, fun h => ⟨rfl, h.2⟩⟩
  | some m =>
    have htaken : name.text ∈ members.toList.map lineName := by
      have := Array.find?_some hm
      exact List.mem_map.mpr
        ⟨m, by simpa using Array.mem_of_find?_eq_some hm, by simpa [lineName] using this⟩
    simp [htaken]

theorem freshMember_runs {definition : String} {members : Array (Token × α)} {name : Token}
    (h : name.text ∉ members.toList.map lineName) :
    Runs (freshMember definition members name) ts () ts :=
  fun c hc => ⟨c, freshMember_ok.mpr ⟨h, rfl⟩, hc⟩

-- ---------------------------------------------------------------------------
-- Names and parameters
-- ---------------------------------------------------------------------------

theorem freshName_ok (hk : k.Describes ctx) {place : Location} {x : String}
    (h : freshName ctx place c = .ok x e) :
    ∃ n, Grammar.Heading c.tokens n e.tokens ∧ k.Free n.text ∧ x = n.text := by
  obtain ⟨_, d, hsep, h⟩ := bind_ok.mp h
  obtain ⟨n, d₁, hn, h⟩ := bind_ok.mp h
  obtain ⟨_, d₂, hcheck, h⟩ := bind_ok.mp h
  obtain ⟨rfl, rfl⟩ := pure_ok.mp h
  obtain ⟨hfree, rfl⟩ := ofExcept_ok.mp hcheck
  obtain ⟨hkind, hd⟩ := expect_tokens (by decide) hn
  exact ⟨n, .mk (hd ▸ separator_ok hsep) hkind, hk.checkFree_ok_iff.mp hfree, rfl⟩

theorem freshName_runs (hk : k.Describes ctx) {place : Location} {n : Token}
    (h : Grammar.Heading ts n rest) (hn : k.Free n.text) :
    Runs (freshName ctx place) ts n.text rest := by
  obtain ⟨before, hkind⟩ := h
  refine (separator_runs before (by rw [hkind]; decide)).bind ?_
  refine (expect_runs hkind (by decide)).bind ?_
  exact (ofExcept_runs (hk.checkFree_ok_iff.mpr hn)).bind (Runs.pure _)

theorem heading_unmarked {mark : Mark} {n : Token} (h : Grammar.Heading ts n rest) :
    Unmarked mark ts := by
  obtain ⟨before, -⟩ := h
  exact separator_unmarked before

abbrev Parameter : List String → Token → String → Prop :=
  Fresh Token.text id fun t x => x = t.text

theorem parameter_ok {earlier : Array String} {x : String} (h : parameter earlier c = .ok x d) :
    ∃ t, Grammar.Name c.tokens t d.tokens ∧ Parameter earlier.toList t x := by
  obtain ⟨t, d, ht, h⟩ := bind_ok.mp h
  obtain ⟨hkind, hc⟩ := expect_tokens (by decide) ht
  split at h
  next =>
    obtain ⟨_, _, h, -⟩ := bind_ok.mp h
    exact (throw_ok.mp h).elim
  next hfresh =>
    obtain ⟨rfl, rfl⟩ := pure_ok.mp h
    exact ⟨t, hc ▸ .mk hkind, rfl, by simpa using hfresh, rfl⟩

theorem parameters_ok {names : List String} (h : parameters c = .ok names e) :
    ∃ trees, Grammar.Parameters c.tokens trees e.tokens ∧ Distinct trees ∧
      names = trees.map (·.text) := by
  obtain ⟨bracket, d, hb, h⟩ := bind_ok.mp h
  cases bracket with
  | false =>
    obtain ⟨rfl, rfl⟩ := pure_ok.mp h
    exact ⟨[], takeMark_false hb ▸ .none, .nil, rfl⟩
  | true =>
    obtain ⟨t, ht, hd⟩ := takeMark_true hb
    obtain ⟨trees, hitems, heach⟩ := items_ok (L := Grammar.Name) (T := Parameter)
      (fun _ _ _ _ h => parameter_ok h) h
    refine ⟨trees, hd ▸ .list ht hitems, nodup_of_fresh heach (by simp), ?_⟩
    rw [eq_comm, ← List.forall₂_eq_eq_eq, List.forall₂_map_left_iff]
    exact heach.forall₂ fun _ _ _ h => h.2.2.symm

theorem parameters_runs {trees : List Token} (h : Grammar.Parameters ts trees rest)
    (hrest : Unmarked .leftAngle rest) (hd : Distinct trees) :
    Runs parameters ts (trees.map (·.text)) rest := by
  cases h with
  | none => exact hrest.runs.bind (Runs.pure [])
  | list ht hitems =>
    refine (takeMark_true_runs ht).bind ?_
    have each : Each Parameter [] trees (trees.map (·.text)) := by
      refine fresh_of_nodup ?_ hd
      rw [List.forall₂_map_right_iff, List.forall₂_same]
      exact fun _ _ => ⟨rfl, rfl⟩
    refine items_runs (by decide) (fun _ _ _ _ h => h.suffix) ?_ ?_ hitems each
    · rintro ts t rest ⟨hkind⟩
      exact ⟨_, _, rfl, by rw [hkind]; decide⟩
    · rintro t - acc us x u after - ⟨hkind⟩ - ⟨-, hfresh, rfl⟩
      refine (expect_runs hkind (by decide)).bind ?_
      rw [if_neg (by simpa using hfresh)]
      exact Runs.pure _

theorem generic?_means {trees : List Token} :
    GenericMeans trees (generic? (trees.map (·.text))) := by
  cases trees with
  | nil => exact .none
  | cons t trees => exact .some (List.cons_ne_nil t trees)

theorem eq_generic? {trees : List Token} {generic : Option (List String)}
    (h : GenericMeans trees generic) : generic = generic? (trees.map (·.text)) := by
  cases h with
  | none => rfl
  | some hne => simp [generic?, hne]

-- ---------------------------------------------------------------------------
-- Structs
-- ---------------------------------------------------------------------------

theorem fieldEntry_ok (hk : k.Describes ctx) {x : String} {parameters : List String}
    {earlier : Array (Token × TypeExpr)} {entry : Token × TypeExpr}
    (hs : ∀ t ∈ c.tokens, t.Spelled)
    (h : fieldEntry { ctx with name := x, parameters } earlier c = .ok entry e) :
    ∃ t, Grammar.Field c.tokens t e.tokens ∧
      Line (Inside.FieldMeans ⟨k, x, parameters⟩) member earlier.toList t entry := by
  obtain ⟨n, d, hn, h⟩ := bind_ok.mp h
  obtain ⟨_, d₁, hcheck, h⟩ := bind_ok.mp h
  obtain ⟨colon, d₂, hcolon, h⟩ := bind_ok.mp h
  obtain ⟨_, d₃, hspaces, h⟩ := bind_ok.mp h
  obtain ⟨type, d₄, htype, h⟩ := bind_ok.mp h
  obtain ⟨rfl, rfl⟩ := pure_ok.mp h
  obtain ⟨hkind, hc⟩ := expect_tokens (by decide) hn
  obtain ⟨hfresh, rfl⟩ := freshMember_ok.mp hcheck
  obtain ⟨hcolonKind, hd⟩ := expect_tokens (by decide) hcolon
  have spaces := skipSpaces_ok hspaces
  rw [hc, hd] at hs ⊢
  obtain ⟨t, ht, hm⟩ := typeExpr_ok hk
    (Token.spelled_of_tail_suffix hs (spaces.suffix.trans (List.suffix_cons ..))) htype
  exact ⟨(n, t), .mk hkind hcolonKind spaces ht, rfl, hfresh, rfl, .mk hm⟩

theorem field_head {t : Token × TypeSyntax} (h : Grammar.Field ts t rest) :
    ∃ u more, ts = u :: more ∧ IsContent u.kind := by
  obtain ⟨hkind, -, -, -⟩ := h
  exact ⟨_, _, rfl, content_of_kind hkind rfl⟩

theorem fieldEntry_runs (hk : k.Describes ctx) {x : String} {parameters : List String}
    {earlier : Array (Token × TypeExpr)} {entry : Token × TypeExpr} {t : Token × TypeSyntax}
    (hs : ∀ t ∈ ts, t.Spelled) (h : Grammar.Field ts t rest)
    (hrest : ∀ mark, Unmarked mark rest)
    (hm : Line (Inside.FieldMeans ⟨k, x, parameters⟩) member earlier.toList t entry) :
    Runs (fieldEntry { ctx with name := x, parameters } earlier) ts entry rest := by
  obtain ⟨hkind, hcolon, spaces, type⟩ := h
  obtain ⟨name, exprType⟩ := entry
  obtain ⟨-, hfresh, rfl, hm⟩ := hm
  cases hm with
  | mk hm =>
    refine (expect_runs hkind (by decide)).bind ((freshMember_runs hfresh).bind ?_)
    refine (expect_runs hcolon (by decide)).bind ?_
    obtain ⟨u, more, rfl, hu⟩ := typeExpr_head type
    refine (skipSpaces_runs spaces hu.1).bind ?_
    refine (typeExpr_runs hk (fun t ht => hs t ?_) type (hrest _) hm).bind (Runs.pure _)
    simp [spaces.suffix.subset ht]

theorem struct_ok (hk : k.Describes ctx) (hw : Keyword "struct" keyword)
    (hs : ∀ t ∈ c.tokens, t.Spelled) {def_ : Definition}
    (h : struct ctx keyword.location c = .ok def_ e) :
    ∃ t, Grammar.Definition (keyword :: c.tokens) t e.tokens ∧ k.Means t def_ := by
  obtain ⟨x, d, hname, h⟩ := bind_ok.mp h
  obtain ⟨ps, d₁, hparameters, h⟩ := bind_ok.mp h
  obtain ⟨_, d₂, hstart, h⟩ := bind_ok.mp h
  obtain ⟨entries, d₃, hbody, h⟩ := bind_ok.mp h
  obtain ⟨_, d₄, hend, h⟩ := bind_ok.mp h
  obtain ⟨rfl, rfl⟩ := pure_ok.mp h
  obtain ⟨n, heading, hfree, rfl⟩ := freshName_ok hk hname
  obtain ⟨names, hnames, hdistinct, rfl⟩ := parameters_ok hparameters
  have opening := bodyStart_ok hstart
  have inside := opening.suffix.trans (hnames.suffix.trans heading.suffix)
  obtain ⟨fields, hfields, hd, hm⟩ := lines_ok (fun _ _ _ h => h.suffix) (fun _ _ _ _ hd =>
    fieldEntry_ok hk (Token.spelled_of_suffix hs (hd.trans inside))) hbody
  exact ⟨_, .struct hw heading hnames (.mk opening hfields (definitionEnd_ok hend)),
    .struct hfree hdistinct generic?_means hd hm⟩

theorem struct_runs (hk : k.Describes ctx) {t n : Token} {names : List Token}
    {fields : List (Token × TypeSyntax)} {def_ : Definition} (hs : ∀ t ∈ ts, t.Spelled)
    (h : Grammar.Definition (keyword :: ts) (.struct t n names fields) rest)
    (hm : k.Means (.struct t n names fields) def_) :
    Runs (struct ctx keyword.location) ts def_ rest := by
  cases h with
  | struct _ heading parameters block =>
    obtain ⟨opening, body, ending⟩ := block
    cases hm with
    | struct hfree hdistinct hgeneric hd hm =>
      have inside := opening.suffix.trans (parameters.suffix.trans heading.suffix)
      obtain ⟨entries, hentries, rfl⟩ := lines_runs (f := member) (fun _ _ _ h => h.suffix)
        (fun _ _ _ h => field_head h) (fun _ _ ⟨_⟩ => ⟨_, rfl⟩) (fun _ _ _ _ _ hus h =>
          fieldEntry_runs hk (Token.spelled_of_suffix hs (hus.trans inside)) h) body hd hm
      rw [eq_generic? hgeneric]
      refine (freshName_runs hk heading hfree).bind ?_
      refine (parameters_runs parameters (bodyStart_unmarked opening (by decide)) hdistinct).bind ?_
      refine (bodyStart_runs opening).bind (hentries.bind ?_)
      exact (definitionEnd_runs ending).bind (Runs.pure _)

-- ---------------------------------------------------------------------------
-- Union options
-- ---------------------------------------------------------------------------

def optionOf : OptionSyntax → UnionOption
  | .tag field => .tag field.text
  | .embedded => .embedded

theorem unionOption_ok {option : UnionOption} (h : unionOption c = .ok option e) :
    ∃ t, Grammar.UnionOption c.tokens t e.tokens ∧ optionOf t = option := by
  obtain ⟨t, d, ht, h⟩ := bind_ok.mp h
  obtain ⟨hkind, hc⟩ := expect_tokens (by decide) ht
  rw [hc]
  generalize htext : t.text = text at h
  split at h
  next =>
    obtain ⟨_, d₁, hbefore, h⟩ := bind_ok.mp h
    obtain ⟨equals, d₂, hequals, h⟩ := bind_ok.mp h
    obtain ⟨_, d₃, hafter, h⟩ := bind_ok.mp h
    obtain ⟨field, d₄, hfield, h⟩ := bind_ok.mp h
    obtain ⟨rfl, rfl⟩ := pure_ok.mp h
    obtain ⟨heq, hd₁⟩ := expect_tokens (by decide) hequals
    obtain ⟨hfieldKind, hd₃⟩ := expect_tokens (by decide) hfield
    exact ⟨_, .tag ⟨hkind, htext⟩ (hd₁ ▸ skipSpaces_ok hbefore) heq (hd₃ ▸ skipSpaces_ok hafter)
      hfieldKind, rfl⟩
  next =>
    obtain ⟨rfl, rfl⟩ := pure_ok.mp h
    exact ⟨_, .embedded ⟨hkind, htext⟩, rfl⟩
  next => exact (throw_ok.mp h).elim

theorem unionOption_runs {t : OptionSyntax} (h : Grammar.UnionOption ts t rest) :
    Runs unionOption ts (optionOf t) rest := by
  cases h with
  | tag hw before hequals after hfield =>
    refine (expect_runs hw.1 (by decide)).bind ?_
    rw [hw.2]
    refine (skipSpaces_runs before (by rw [hequals]; decide)).bind ?_
    refine (expect_runs hequals (by decide)).bind ?_
    refine (skipSpaces_runs after (by rw [hfield]; decide)).bind ?_
    exact (expect_runs hfield (by decide)).bind (Runs.pure _)
  | embedded hw =>
    refine (expect_runs hw.1 (by decide)).bind ?_
    rw [hw.2]
    exact Runs.pure _

theorem unionOption_head {t : OptionSyntax} (h : Grammar.UnionOption ts t rest) :
    ∃ u more, ts = u :: more ∧ u.kind = .symbol := by
  cases h with
  | tag hw _ _ _ _ => exact ⟨_, _, rfl, hw.1⟩
  | embedded hw => exact ⟨_, _, rfl, hw.1⟩

theorem unionOptions_ok {options : List UnionOption} (h : unionOptions c = .ok options e) :
    ∃ trees, Grammar.UnionOptions c.tokens trees e.tokens ∧ options = trees.map optionOf := by
  obtain ⟨bracket, d, hb, h⟩ := bind_ok.mp h
  cases bracket with
  | false =>
    obtain ⟨rfl, rfl⟩ := pure_ok.mp h
    exact ⟨[], takeMark_false hb ▸ .none, rfl⟩
  | true =>
    obtain ⟨t, ht, hd⟩ := takeMark_true hb
    obtain ⟨_, d₁, hspaces, h⟩ := bind_ok.mp h
    obtain ⟨trees, hitems, heach⟩ := items_ok (L := Grammar.SpacedOption)
      (T := fun _ t option => optionOf t = option) (fun _ c option d h => by
        obtain ⟨_, d₁, hoption, h⟩ := bind_ok.mp h
        obtain ⟨_, d₂, hspaces, h⟩ := bind_ok.mp h
        obtain ⟨rfl, rfl⟩ := pure_ok.mp h
        obtain ⟨t, ht, rfl⟩ := unionOption_ok hoption
        exact ⟨t, .mk ht (skipSpaces_ok hspaces), rfl⟩) h
    refine ⟨trees, hd ▸ .list ht (skipSpaces_ok hspaces) hitems, ?_⟩
    rw [eq_comm, ← List.forall₂_eq_eq_eq, List.forall₂_map_left_iff]
    exact heach.forall₂ fun _ _ _ h => h

theorem unionOptions_runs {trees : List OptionSyntax} (h : Grammar.UnionOptions ts trees rest)
    (hrest : Unmarked .leftParen rest) : Runs unionOptions ts (trees.map optionOf) rest := by
  cases h with
  | none => exact hrest.runs.bind (Runs.pure [])
  | list ht spaces hitems =>
    have head {ts rest : List Token} {t : OptionSyntax} (h : Grammar.SpacedOption ts t rest) :
        ∃ u more, ts = u :: more ∧ u.kind ≠ .space := by
      obtain ⟨option, -⟩ := h
      obtain ⟨u, more, hts, hu⟩ := unionOption_head option
      exact ⟨u, more, hts, by rw [hu]; decide⟩
    obtain ⟨_, -, _, first⟩ := items_first hitems
    obtain ⟨u, more, rfl, hu⟩ := head first
    refine (takeMark_true_runs ht).bind ((skipSpaces_runs spaces hu).bind ?_)
    refine items_runs (L := Grammar.SpacedOption) (T := fun _ t option => optionOf t = option)
      (by decide) (fun _ _ _ _ h => h.suffix) (fun _ _ _ h => head h) ?_ hitems (Each.of_forall₂ ?_)
    · rintro t - acc us _ v after - ⟨option, spaces⟩ hv rfl
      refine (unionOption_runs option).bind ((skipSpaces_runs spaces ?_).bind (Runs.pure _))
      rcases hv with hv | hv <;> rw [hv] <;> decide
    · rw [List.forall₂_map_right_iff, List.forall₂_same]
      exact fun _ _ => rfl

theorem tagField_eq (trees : List OptionSyntax) :
    tagField (trees.map optionOf) = tagFieldOf trees := by
  unfold tagField tagFieldOf
  generalize Union.defaultTagField = field
  induction trees generalizing field with
  | nil => rfl
  | cons t trees ih =>
    rw [List.map_cons, List.foldl_cons, ih]
    cases t with
    | tag named =>
      have hfield : (OptionSyntax.tag named).field? = some named.text := rfl
      rw [List.filterMap_cons_some hfield, List.getLast?_cons, Option.getD_some]
      rfl
    | embedded => rfl

theorem embedded_mem {trees : List OptionSyntax} :
    .embedded ∈ trees.map optionOf ↔ .embedded ∈ trees := by
  rw [List.mem_map]
  refine ⟨?_, fun h => ⟨_, h, rfl⟩⟩
  rintro ⟨t, ht, hoption⟩
  cases t with
  | tag field => cases hoption
  | embedded => exact ht

-- ---------------------------------------------------------------------------
-- Unions
-- ---------------------------------------------------------------------------

section
variable {inner : Read α} {line : Rule τ}

theorem afterColon?_ok {R : τ → α → Prop} {n : Token} {a? : Option α} (hn : n.kind = .name)
    (hi : ∀ d a e, d.tokens <:+ c.tokens → inner d = .ok a e → ∃ t, line d.tokens t e.tokens ∧ R t a)
    (h : afterColon? inner c = .ok a? e) :
    ∃ t?, Grammar.Tagged line (n :: c.tokens) (n, t?) e.tokens ∧ Option.Rel R t? a? := by
  obtain ⟨colon, d, hb, h⟩ := bind_ok.mp h
  cases colon with
  | false =>
    obtain ⟨rfl, rfl⟩ := pure_ok.mp h
    exact ⟨none, takeMark_false hb ▸ .bare hn, .none⟩
  | true =>
    obtain ⟨t, ht, hc⟩ := takeMark_true hb
    obtain ⟨_, d₁, hspaces, h⟩ := bind_ok.mp h
    obtain ⟨a, d₂, ha, h⟩ := bind_ok.mp h
    obtain ⟨rfl, rfl⟩ := pure_ok.mp h
    have spaces := skipSpaces_ok hspaces
    rw [hc] at hi ⊢
    obtain ⟨tree, htree, hr⟩ := hi _ _ _ (spaces.suffix.trans (List.suffix_cons ..)) ha
    exact ⟨some tree, .colon hn ht spaces htree, .some hr⟩

theorem afterColon?_runs {R : τ → α → Prop} {n : Token} {t? : Option τ} {a? : Option α}
    (first : ∀ ts t rest, line ts t rest → ∃ u more, ts = u :: more ∧ IsContent u.kind)
    (hi : ∀ us t a, us <:+ ts → line us t rest → R t a → Runs inner us a rest)
    (h : Grammar.Tagged line (n :: ts) (n, t?) rest) (hrest : Unmarked .colon rest)
    (hr : Option.Rel R t? a?) : Runs (afterColon? inner) ts a? rest := by
  cases h with
  | bare =>
    cases hr
    exact hrest.runs.bind (Runs.pure none)
  | colon _ hcolon spaces htree =>
    cases hr with
    | some hr =>
      obtain ⟨u, more, rfl, hu⟩ := first _ _ _ htree
      refine (takeMark_true_runs hcolon).bind ((skipSpaces_runs spaces hu.1).bind ?_)
      refine Runs.bind (hi _ _ _ ?_ htree hr) (Runs.pure _)
      exact spaces.suffix.trans (List.suffix_cons ..)

theorem tagged_head {t : Token × Option τ} (h : Grammar.Tagged line ts t rest) :
    ∃ more, ts = t.1 :: more ∧ t.1.kind = .name := by
  cases h with
  | bare hn | colon hn _ _ _ => exact ⟨_, rfl, hn⟩

end

theorem constructorEntry_ok (hk : k.Describes ctx) {x : String} {parameters : List String}
    {earlier : Array (Token × TypeExpr)} {entry : Token × TypeExpr}
    (hs : ∀ t ∈ c.tokens, t.Spelled)
    (h : constructorEntry { ctx with name := x, parameters } earlier c = .ok entry e) :
    ∃ t, Grammar.Tagged Grammar.TypeExpr c.tokens t e.tokens ∧
      Line (Inside.ConstructorMeans ⟨k, x, parameters⟩) member earlier.toList t entry := by
  obtain ⟨n, d, hn, h⟩ := bind_ok.mp h
  obtain ⟨_, d₁, hcheck, h⟩ := bind_ok.mp h
  obtain ⟨type?, d₂, htype, h⟩ := bind_ok.mp h
  obtain ⟨rfl, rfl⟩ := pure_ok.mp h
  obtain ⟨hkind, hc⟩ := expect_tokens (by decide) hn
  obtain ⟨hfresh, rfl⟩ := freshMember_ok.mp hcheck
  rw [hc] at hs ⊢
  obtain ⟨t?, ht, hr⟩ := afterColon?_ok hkind (fun d a e hd h => typeExpr_ok hk
    (Token.spelled_of_tail_suffix hs hd) h) htype
  refine ⟨(n, t?), ht, rfl, hfresh, rfl, ?_⟩
  cases hr with
  | none => exact .bare
  | some hm => exact .typed hm

theorem constructorEntry_runs (hk : k.Describes ctx) {x : String} {parameters : List String}
    {earlier : Array (Token × TypeExpr)} {entry : Token × TypeExpr}
    {t : Token × Option TypeSyntax} (hs : ∀ t ∈ ts, t.Spelled)
    (h : Grammar.Tagged Grammar.TypeExpr ts t rest) (hrest : ∀ mark, Unmarked mark rest)
    (hm : Line (Inside.ConstructorMeans ⟨k, x, parameters⟩) member earlier.toList t entry) :
    Runs (constructorEntry { ctx with name := x, parameters } earlier) ts entry rest := by
  obtain ⟨n, t?⟩ := t
  obtain ⟨_, type⟩ := entry
  obtain ⟨-, hfresh, rfl, hm⟩ := hm
  have hrel : ∃ type?, Option.Rel (Inside.TypeMeans ⟨k, x, parameters⟩) t? type? ∧
      type?.getD .empty = type := by
    cases hm with
    | bare => exact ⟨none, .none, rfl⟩
    | typed hm => exact ⟨some type, .some hm, rfl⟩
  obtain ⟨type?, hr, rfl⟩ := hrel
  obtain ⟨more, rfl, hkind⟩ := tagged_head h
  refine (expect_runs hkind (by decide)).bind ((freshMember_runs hfresh).bind ?_)
  refine (afterColon?_runs (fun _ _ _ => typeExpr_head) ?_ h (hrest _) hr).bind (Runs.pure _)
  intro us t a hus ht hm
  exact typeExpr_runs hk (Token.spelled_of_tail_suffix hs hus) ht (hrest _) hm

theorem payload_ok (hk : k.Describes ctx) {s : Struct} (h : payload ctx c = .ok s e) :
    ∃ p, Grammar.Name c.tokens p e.tokens ∧ k.PayloadMeans p s := by
  obtain ⟨p, d, hp, h⟩ := bind_ok.mp h
  obtain ⟨hs, rfl⟩ := ofExcept_ok.mp h
  obtain ⟨hkind, hc⟩ := expect_tokens (by decide) hp
  exact ⟨p, hc ▸ .mk hkind, hk.payload_ok_iff.mp hs⟩

theorem payload_runs (hk : k.Describes ctx) {p : Token} {s : Struct}
    (h : Grammar.Name ts p rest) (hp : k.PayloadMeans p s) :
    Runs (payload ctx) ts s rest := by
  obtain ⟨hkind⟩ := h
  exact (expect_runs hkind (by decide)).bind (ofExcept_runs (hk.payload_ok_iff.mpr hp))

theorem variantEntry_ok (hk : k.Describes ctx) {x field : String}
    {earlier : Array (Token × Option Struct)} {entry : Token × Option Struct}
    (h : variantEntry ctx x field earlier c = .ok entry e) :
    ∃ t, Grammar.Tagged Grammar.Name c.tokens t e.tokens ∧
      Line (k.VariantMeans field) variantOf earlier.toList t entry := by
  obtain ⟨n, d, hn, h⟩ := bind_ok.mp h
  obtain ⟨_, d₁, hcheck, h⟩ := bind_ok.mp h
  obtain ⟨payload?, d₂, hpayload, h⟩ := bind_ok.mp h
  obtain ⟨rfl, rfl⟩ := pure_ok.mp h
  obtain ⟨hkind, hc⟩ := expect_tokens (by decide) hn
  obtain ⟨hfresh, rfl⟩ := freshMember_ok.mp hcheck
  rw [hc]
  obtain ⟨t?, ht, hr⟩ := afterColon?_ok hkind (fun _ _ _ _ h => payload_ok hk h) hpayload
  refine ⟨(n, t?), ht, rfl, hfresh, rfl, ?_⟩
  cases hr with
  | none => exact .bare
  | some hm => exact .payload hm

theorem variantEntry_runs (hk : k.Describes ctx) {x field : String}
    {earlier : Array (Token × Option Struct)} {entry : Token × Option Struct}
    {t : Token × Option Token} (h : Grammar.Tagged Grammar.Name ts t rest)
    (hrest : ∀ mark, Unmarked mark rest)
    (hm : Line (k.VariantMeans field) variantOf earlier.toList t entry) :
    Runs (variantEntry ctx x field earlier) ts entry rest := by
  obtain ⟨_, t?⟩ := t
  obtain ⟨n, tagged?⟩ := entry
  obtain ⟨-, hfresh, rfl, hm⟩ := hm
  simp only [variantOf] at hm
  have hrel : ∃ payload?, Option.Rel k.PayloadMeans t? payload? ∧
      payload?.map (·.withTag field n.text) = tagged? := by
    cases hm with
    | bare => exact ⟨none, .none, rfl⟩
    | payload hp => exact ⟨some _, .some hp, rfl⟩
  obtain ⟨payload?, hr, rfl⟩ := hrel
  obtain ⟨more, rfl, hkind⟩ := tagged_head h
  refine (expect_runs hkind (by decide)).bind ((freshMember_runs hfresh).bind ?_)
  refine (afterColon?_runs (R := k.PayloadMeans) ?_ (fun _ _ _ _ => payload_runs hk) h (hrest _)
    hr).bind (Runs.pure _)
  rintro ts t rest ⟨hn⟩
  exact ⟨_, _, rfl, content_of_kind hn rfl⟩

theorem tagged_content {line : Rule τ} {t : Token × Option τ}
    (h : Grammar.Tagged line ts t rest) : ∃ u more, ts = u :: more ∧ IsContent u.kind := by
  obtain ⟨more, rfl, hn⟩ := tagged_head h
  exact ⟨_, more, rfl, content_of_kind hn rfl⟩

theorem union_ok (hk : k.Describes ctx) (hw : Keyword "union" keyword)
    (hs : ∀ t ∈ c.tokens, t.Spelled) {def_ : Definition}
    (h : union ctx keyword.location c = .ok def_ e) :
    ∃ t, Grammar.Definition (keyword :: c.tokens) t e.tokens ∧ k.Means t def_ := by
  obtain ⟨options, d, hoptions, h⟩ := bind_ok.mp h
  obtain ⟨x, d₁, hname, h⟩ := bind_ok.mp h
  obtain ⟨ps, d₂, hparameters, h⟩ := bind_ok.mp h
  obtain ⟨_, d₃, hstart, h⟩ := bind_ok.mp h
  obtain ⟨part, d₄, hbody, h⟩ := bind_ok.mp h
  obtain ⟨_, d₅, hend, h⟩ := bind_ok.mp h
  obtain ⟨rfl, rfl⟩ := pure_ok.mp h
  obtain ⟨trees, hgrammar, rfl⟩ := unionOptions_ok hoptions
  obtain ⟨n, heading, hfree, rfl⟩ := freshName_ok hk hname
  obtain ⟨names, hnames, hdistinct, rfl⟩ := parameters_ok hparameters
  have opening := bodyStart_ok hstart
  have inside :=
    opening.suffix.trans (hnames.suffix.trans (heading.suffix.trans hgrammar.suffix))
  rw [tagField_eq] at hbody ⊢
  unfold unionBody at hbody
  by_cases hembedded : .embedded ∈ trees
  · rw [if_pos (by simpa using embedded_mem.mpr hembedded)] at hbody
    obtain ⟨entries, d₆, hentries, hbody⟩ := bind_ok.mp hbody
    obtain ⟨rfl, rfl⟩ := pure_ok.mp hbody
    obtain ⟨variants, hvariants, hd, hm⟩ := lines_ok (fun _ _ _ h => h.suffix fun _ _ _ h =>
      h.suffix) (fun _ _ _ _ _ => variantEntry_ok hk) hentries
    exact ⟨_, .embedded hw hgrammar hembedded heading hnames
      (.mk opening hvariants (definitionEnd_ok hend)), .embedded hfree hdistinct hd hm⟩
  · rw [if_neg (by simpa using mt embedded_mem.mp hembedded)] at hbody
    obtain ⟨entries, d₆, hentries, hbody⟩ := bind_ok.mp hbody
    obtain ⟨rfl, rfl⟩ := pure_ok.mp hbody
    obtain ⟨constructors, hconstructors, hd, hm⟩ := lines_ok (fun _ _ _ h => h.suffix fun _ _ _ h =>
      h.suffix) (fun _ _ _ _ hd => constructorEntry_ok hk fun t ht =>
        hs t ((hd.trans inside).subset ht)) hentries
    exact ⟨_, .union hw hgrammar hembedded heading hnames
      (.mk opening hconstructors (definitionEnd_ok hend)),
      .union hfree hdistinct generic?_means hd hm⟩

theorem union_runs (hk : k.Describes ctx) {t n : Token} {options : List OptionSyntax}
    {names : List Token} {constructors : List (Token × Option TypeSyntax)} {def_ : Definition}
    (hs : ∀ t ∈ ts, t.Spelled)
    (h : Grammar.Definition (keyword :: ts) (.union t options n names constructors) rest)
    (hm : k.Means (.union t options n names constructors) def_) :
    Runs (union ctx keyword.location) ts def_ rest := by
  cases h with
  | union _ hoptions hembedded heading parameters block =>
    obtain ⟨opening, body, ending⟩ := block
    cases hm with
    | union hfree hdistinct hgeneric hd hm =>
      have inside :=
        opening.suffix.trans (parameters.suffix.trans (heading.suffix.trans hoptions.suffix))
      obtain ⟨entries, hentries, rfl⟩ := lines_runs (f := member)
        (fun _ _ _ h => h.suffix fun _ _ _ h => h.suffix) (fun _ _ _ h => tagged_content h)
        (fun _ _ hm => by cases hm with | bare | typed _ => exact ⟨_, rfl⟩)
        (fun _ _ _ _ _ hus h => constructorEntry_runs hk
          (Token.spelled_of_suffix hs (hus.trans inside)) h) body hd hm
      rw [eq_generic? hgeneric, ← tagField_eq]
      refine (unionOptions_runs hoptions (heading_unmarked heading)).bind ?_
      refine (freshName_runs hk heading hfree).bind ?_
      refine (parameters_runs parameters (bodyStart_unmarked opening (by decide)) hdistinct).bind ?_
      refine (bodyStart_runs opening).bind ?_
      refine Runs.bind ?_ ((definitionEnd_runs ending).bind (Runs.pure _))
      rw [unionBody, if_neg (by simpa using mt embedded_mem.mp hembedded)]
      exact hentries.bind (Runs.pure _)

theorem embedded_runs (hk : k.Describes ctx) {t n : Token} {options : List OptionSyntax}
    {names : List Token} {variants : List (Token × Option Token)} {def_ : Definition}
    (h : Grammar.Definition (keyword :: ts) (.embedded t options n names variants) rest)
    (hm : k.Means (.embedded t options n names variants) def_) :
    Runs (union ctx keyword.location) ts def_ rest := by
  cases h with
  | embedded _ hoptions hembedded heading parameters block =>
    obtain ⟨opening, body, ending⟩ := block
    cases hm with
    | embedded hfree hdistinct hd hm =>
      obtain ⟨entries, hentries, rfl⟩ := lines_runs (f := variantOf)
        (fun _ _ _ h => h.suffix fun _ _ _ h => h.suffix) (fun _ _ _ h => tagged_content h)
        (fun _ _ hm => by cases hm with | bare | payload _ => exact ⟨_, rfl⟩)
        (fun _ _ _ _ _ _ h => variantEntry_runs hk h) body hd hm
      rw [← tagField_eq]
      refine (unionOptions_runs hoptions (heading_unmarked heading)).bind ?_
      refine (freshName_runs hk heading hfree).bind ?_
      refine (parameters_runs parameters (bodyStart_unmarked opening (by decide)) hdistinct).bind ?_
      refine (bodyStart_runs opening).bind ?_
      refine Runs.bind ?_ ((definitionEnd_runs ending).bind (Runs.pure _))
      rw [unionBody, if_pos (by simpa using embedded_mem.mpr hembedded), tagField_eq]
      exact hentries.bind (Runs.pure _)

-- ---------------------------------------------------------------------------
-- Enums
-- ---------------------------------------------------------------------------

theorem enumValue_ok {value : Enum.Value} (hs : ∀ t ∈ c.tokens, t.Spelled)
    (h : enumValue c = .ok value e) :
    ∃ t : Token, c.tokens = t :: e.tokens ∧ ValueMeans t value := by
  obtain ⟨t, d, hp, h⟩ := bind_ok.mp h
  obtain ⟨rfl, rfl⟩ := peek_ok.mp hp
  generalize hkind : c.peek.kind = kind at h
  split at h
  next =>
    obtain ⟨_, d, hd, h⟩ := bind_ok.mp h
    obtain ⟨rfl, rfl⟩ := pure_ok.mp h
    obtain ⟨rfl, hc⟩ := next_tokens (by rw [hkind]; decide) hd
    have hspelled := hs c.peek (hc ▸ List.mem_cons_self)
    exact ⟨_, hc, .string hkind (quoted_literalContent hspelled hkind)⟩
  next =>
    cases hw : Natural.word? c.peek.text.toList with
    | some n =>
      rw [hw] at h
      obtain ⟨_, d, hd, h⟩ := bind_ok.mp h
      obtain ⟨rfl, rfl⟩ := pure_ok.mp h
      obtain ⟨rfl, hc⟩ := next_tokens (by rw [hkind]; decide) hd
      exact ⟨_, hc, .number hkind (value_of_word? hw)⟩
    | none =>
      rw [hw] at h
      exact (unexpected_ok.mp h).elim
  next => exact (unexpected_ok.mp h).elim

theorem enumValue_runs {t : Token} {value : Enum.Value} (hs : t.Spelled) (h : ValueMeans t value) :
    Runs enumValue (t :: rest) value rest := by
  refine peek_runs.bind ?_
  cases h with
  | string hkind htext =>
    simp only [hkind]
    rw [htext, literalContent_quoted]
    exact (next_runs (by rw [hkind]; decide)).bind (Runs.pure _)
  | number hkind hv =>
    simp only [hkind, word?_of_value hs hkind hv]
    exact (next_runs (by rw [hkind]; decide)).bind (Runs.pure _)

theorem kind_of_valueMeans {t : Token} {value : Enum.Value} (h : ValueMeans t value) :
    t.kind = .text ∨ t.kind = .natural := by
  cases h with
  | string hkind _ => exact .inl hkind
  | number hkind _ => exact .inr hkind

theorem itemEntry_ok {x : String} {earlier : Array (Token × Enum.Value)}
    {entry : Token × Enum.Value} (hs : ∀ t ∈ c.tokens, t.Spelled)
    (h : itemEntry x earlier c = .ok entry e) :
    ∃ t, Grammar.Item c.tokens t e.tokens ∧ Line ItemMeans itemOf earlier.toList t entry := by
  obtain ⟨n, d, hn, h⟩ := bind_ok.mp h
  obtain ⟨_, d₁, hcheck, h⟩ := bind_ok.mp h
  obtain ⟨_, d₂, hbefore, h⟩ := bind_ok.mp h
  obtain ⟨equals, d₃, hequals, h⟩ := bind_ok.mp h
  obtain ⟨_, d₄, hafter, h⟩ := bind_ok.mp h
  obtain ⟨value, d₅, hvalue, h⟩ := bind_ok.mp h
  obtain ⟨rfl, rfl⟩ := pure_ok.mp h
  obtain ⟨hkind, hc⟩ := expectOneOf_tokens (by decide) hn
  obtain ⟨hfresh, rfl⟩ := freshMember_ok.mp hcheck
  obtain ⟨hequalsKind, hd₂⟩ := expect_tokens (by decide) hequals
  have before := skipSpaces_ok hbefore
  have after := skipSpaces_ok hafter
  rw [hd₂] at before
  have inside := after.suffix.trans ((List.suffix_cons ..).trans before.suffix)
  rw [hc] at hs ⊢
  obtain ⟨t, ht, hm⟩ := enumValue_ok (Token.spelled_of_tail_suffix hs inside)
    hvalue
  refine ⟨(n, t), .mk (by simpa using hkind) before hequalsKind (ht ▸ after)
    (kind_of_valueMeans hm), rfl, hfresh, rfl, .mk hm⟩

theorem item_head {t : Token × Token} (h : Grammar.Item ts t rest) :
    ∃ u more, ts = u :: more ∧ IsContent u.kind := by
  obtain ⟨hkind, -, -, -, -⟩ := h
  exact ⟨_, _, rfl, hkind.elim (content_of_kind · rfl) (content_of_kind · rfl)⟩

theorem itemEntry_runs {x : String} {earlier : Array (Token × Enum.Value)}
    {entry : Token × Enum.Value} {t : Token × Token} (hs : ∀ t ∈ ts, t.Spelled)
    (h : Grammar.Item ts t rest) (hm : Line ItemMeans itemOf earlier.toList t entry) :
    Runs (itemEntry x earlier) ts entry rest := by
  obtain ⟨hkind, before, hequals, after, hvalue⟩ := h
  obtain ⟨n, value⟩ := entry
  obtain ⟨-, hfresh, rfl, hm⟩ := hm
  cases hm with
  | mk hm =>
    refine (expectOneOf_runs (by simpa using hkind) ?_).bind ((freshMember_runs hfresh).bind ?_)
    · rcases hkind with hkind | hkind <;> rw [hkind] <;> decide
    refine (skipSpaces_runs before (by rw [hequals]; decide)).bind ?_
    refine (expect_runs hequals (by decide)).bind ?_
    refine (skipSpaces_runs after ?_).bind ?_
    · rcases hvalue with hvalue | hvalue <;> rw [hvalue] <;> decide
    refine (enumValue_runs (hs _ ?_) hm).bind (Runs.pure _)
    have inside := after.suffix.trans ((List.suffix_cons ..).trans before.suffix)
    exact List.mem_cons_of_mem _ (inside.subset List.mem_cons_self)

theorem enum_ok (hk : k.Describes ctx) (hw : Keyword "enum" keyword)
    (hs : ∀ t ∈ c.tokens, t.Spelled) {def_ : Definition}
    (h : enum ctx keyword.location c = .ok def_ e) :
    ∃ t, Grammar.Definition (keyword :: c.tokens) t e.tokens ∧ k.Means t def_ := by
  obtain ⟨x, d, hname, h⟩ := bind_ok.mp h
  obtain ⟨_, d₁, hstart, h⟩ := bind_ok.mp h
  obtain ⟨entries, d₂, hbody, h⟩ := bind_ok.mp h
  obtain ⟨_, d₃, hend, h⟩ := bind_ok.mp h
  obtain ⟨rfl, rfl⟩ := pure_ok.mp h
  obtain ⟨n, heading, hfree, rfl⟩ := freshName_ok hk hname
  have opening := bodyStart_ok hstart
  have inside := opening.suffix.trans heading.suffix
  obtain ⟨items, hitems, hd, hm⟩ := lines_ok (fun _ _ _ h => h.suffix) (fun _ _ _ _ hd =>
    itemEntry_ok (Token.spelled_of_suffix hs (hd.trans inside))) hbody
  exact ⟨_, .enum hw heading (.mk opening hitems (definitionEnd_ok hend)), .enum hfree hd hm⟩

theorem enum_runs (hk : k.Describes ctx) {t n : Token} {items : List (Token × Token)}
    {def_ : Definition} (hs : ∀ t ∈ ts, t.Spelled)
    (h : Grammar.Definition (keyword :: ts) (.enum t n items) rest)
    (hm : k.Means (.enum t n items) def_) : Runs (enum ctx keyword.location) ts def_ rest := by
  cases h with
  | enum _ heading block =>
    obtain ⟨opening, body, ending⟩ := block
    cases hm with
    | enum hfree hd hm =>
      have inside := opening.suffix.trans heading.suffix
      obtain ⟨entries, hentries, rfl⟩ := lines_runs (f := itemOf) (fun _ _ _ h => h.suffix)
        (fun _ _ _ h => item_head h) (fun _ _ ⟨_⟩ => ⟨_, rfl⟩) (fun _ _ _ _ _ hus h _ =>
          itemEntry_runs (Token.spelled_of_suffix hs (hus.trans inside)) h) body hd hm
      refine (freshName_runs hk heading hfree).bind ((bodyStart_runs opening).bind ?_)
      exact hentries.bind ((definitionEnd_runs ending).bind (Runs.pure _))

-- ---------------------------------------------------------------------------
-- Untagged unions and imports
-- ---------------------------------------------------------------------------

theorem untaggedUnion_ok (hk : k.Describes ctx) (hw : Keyword "untagged" keyword)
    {def_ : Definition} (h : untaggedUnion ctx keyword.location c = .ok def_ e) :
    ∃ t, Grammar.Definition (keyword :: c.tokens) t e.tokens ∧ k.Means t def_ := by
  obtain ⟨_, d, hsep, h⟩ := bind_ok.mp h
  obtain ⟨second, d₁, hsecond, h⟩ := bind_ok.mp h
  obtain ⟨hkind, hd⟩ := expect_tokens (by decide) hsecond
  split at h
  next =>
    obtain ⟨_, _, h, -⟩ := bind_ok.mp h
    exact (throw_ok.mp h).elim
  next hword =>
    obtain ⟨x, d₂, hname, h⟩ := bind_ok.mp h
    obtain ⟨_, d₃, hstart, h⟩ := bind_ok.mp h
    obtain ⟨cases, d₄, hbody, h⟩ := bind_ok.mp h
    obtain ⟨_, d₅, hend, h⟩ := bind_ok.mp h
    obtain ⟨rfl, rfl⟩ := pure_ok.mp h
    obtain ⟨n, heading, hfree, rfl⟩ := freshName_ok hk hname
    obtain ⟨lines, hlines, heach⟩ := body_ok (L := Grammar.Reference)
      (T := fun _ => Inside.ReferenceMeans ⟨k, n.text, []⟩) (fun _ _ _ h => h.suffix)
      (fun _ _ _ _ _ h => reference_ok hk h) hbody
    exact ⟨_, .untagged hw (hd ▸ separator_ok hsep) ⟨hkind, by simpa using hword⟩ heading
      (.mk (bodyStart_ok hstart) hlines (definitionEnd_ok hend)),
      .untagged hfree (heach.forall₂ fun _ _ _ h => h)⟩

theorem untaggedUnion_runs (hk : k.Describes ctx) {t n : Token} {cases : List ReferenceSyntax}
    {def_ : Definition} (h : Grammar.Definition (keyword :: ts) (.untagged t n cases) rest)
    (hm : k.Means (.untagged t n cases) def_) :
    Runs (untaggedUnion ctx keyword.location) ts def_ rest := by
  cases h with
  | untagged _ before hw heading block =>
    obtain ⟨opening, body, ending⟩ := block
    cases hm with
    | untagged hfree hm =>
      refine (separator_runs before (by rw [hw.1]; decide)).bind ?_
      refine (expect_runs hw.1 (by decide)).bind ?_
      rw [if_neg (by simpa using hw.2)]
      refine (freshName_runs hk heading hfree).bind ((bodyStart_runs opening).bind ?_)
      refine Runs.bind ?_ ((definitionEnd_runs ending).bind (Runs.pure _))
      refine body_runs (L := Grammar.Reference) (fun _ _ _ h => h.suffix) ?_ ?_ body
        (Each.of_forall₂ hm)
      · exact fun _ _ _ h => reference_content h
      · intro _ us t a after next _ h hnext hm
        exact reference_runs hk h (lineEnd_unmarked hnext) hm

theorem qualifier_ok {module q : Token} (h : qualifier module c = .ok q e) :
    ∃ q? mid, Grammar.Qualifier c.tokens q? mid ∧ Spaces mid e.tokens ∧ q?.getD module = q := by
  obtain ⟨_, d, hspaces, h⟩ := bind_ok.mp h
  obtain ⟨equals, d₁, hb, h⟩ := bind_ok.mp h
  have before := skipSpaces_ok hspaces
  cases equals with
  | false =>
    obtain ⟨rfl, rfl⟩ := pure_ok.mp h
    exact ⟨none, _, .none, takeMark_false hb ▸ before, rfl⟩
  | true =>
    obtain ⟨t, ht, hd⟩ := takeMark_true hb
    obtain ⟨_, d₂, hafter, h⟩ := bind_ok.mp h
    obtain ⟨hkind, hd₂⟩ := expect_tokens (by decide) h
    exact ⟨some q, _, .mk (hd ▸ before) ht (hd₂ ▸ skipSpaces_ok hafter) hkind, .refl _, rfl⟩

theorem qualifier_runs (module : Token) {q? : Option Token} {mid : List Token}
    (h : Grammar.Qualifier ts q? mid) (hend : Grammar.DefinitionEnd mid rest) :
    ∃ after, Runs (qualifier module) ts (q?.getD module) after ∧
      Grammar.DefinitionEnd after rest := by
  cases h with
  | mk before hequals after hq =>
    refine ⟨mid, ?_, hend⟩
    refine (skipSpaces_runs before (by rw [hequals]; decide)).bind ?_
    refine (takeMark_true_runs hequals).bind ?_
    exact (skipSpaces_runs after (by rw [hq]; decide)).bind (expect_runs hq (by decide))
  | none =>
    have hnext : ∃ t more, Spaces ts (t :: more) ∧ (t.kind.isLineBreak ∨ t.kind = .endOfInput) ∧
        Grammar.DefinitionEnd (t :: more) rest := by
      cases hend with
      | line hline =>
        obtain ⟨t, ht, spaces⟩ := hline
        exact ⟨t, rest, spaces, .inl ht, .line ⟨t, ht, .refl _⟩⟩
      | input spaces ht => exact ⟨_, _, spaces, .inr ht, .input (.refl _) ht⟩
    obtain ⟨t, more, spaces, ht, hend⟩ := hnext
    have hkinds : t.kind ≠ .space ∧ t.kind ≠ .mark .equals := by
      constructor <;> intro hkind <;> simp [hkind, Token.Kind.isLineBreak] at ht
    refine ⟨t :: more, (skipSpaces_runs spaces hkinds.1).bind ?_, hend⟩
    exact (takeMark_false_runs hkinds.2).bind (Runs.pure _)

theorem importLine_ok (hk : k.Describes ctx) (hw : Keyword "import" keyword) {def_ : Definition}
    (h : importLine ctx keyword.location c = .ok def_ e) :
    ∃ t, Grammar.Definition (keyword :: c.tokens) t e.tokens ∧ k.Means t def_ := by
  obtain ⟨_, d, hsep, h⟩ := bind_ok.mp h
  obtain ⟨module, d₁, hmodule, h⟩ := bind_ok.mp h
  obtain ⟨q, d₂, hqualifier, h⟩ := bind_ok.mp h
  obtain ⟨_, d₃, hcheck, h⟩ := bind_ok.mp h
  obtain ⟨hkind, hd⟩ := expect_tokens (by decide) hmodule
  obtain ⟨q?, mid, hq, spaces, rfl⟩ := qualifier_ok hqualifier
  obtain ⟨hfree, rfl⟩ := ofExcept_ok.mp hcheck
  split at h
  next =>
    obtain ⟨_, _, h, -⟩ := bind_ok.mp h
    exact (throw_ok.mp h).elim
  next hknown =>
    obtain ⟨_, d₄, hend, h⟩ := bind_ok.mp h
    obtain ⟨rfl, rfl⟩ := pure_ok.mp h
    refine ⟨_, .imports hw (hd ▸ separator_ok hsep) hkind hq
      (.of_spaces spaces (definitionEnd_ok hend)), .imports (hk.checkFree_ok_iff.mp hfree) ?_⟩
    simpa [hk.library] using hknown

theorem importLine_runs (hk : k.Describes ctx) {t module : Token} {q? : Option Token}
    {def_ : Definition} (h : Grammar.Definition (keyword :: ts) (.imports t module q?) rest)
    (hm : k.Means (.imports t module q?) def_) :
    Runs (importLine ctx keyword.location) ts def_ rest := by
  cases h with
  | imports _ before hkind hq ending =>
    cases hm with
    | imports hfree hknown =>
      obtain ⟨after, hrun, hend⟩ := qualifier_runs module hq ending
      refine (separator_runs before (by rw [hkind]; decide)).bind ?_
      refine (expect_runs hkind (by decide)).bind (hrun.bind ?_)
      refine (ofExcept_runs (hk.checkFree_ok_iff.mpr hfree)).bind ?_
      rw [if_neg (by simpa [hk.library] using hknown)]
      exact (definitionEnd_runs hend).bind (Runs.pure _)

-- ---------------------------------------------------------------------------
-- Any definition
-- ---------------------------------------------------------------------------

theorem definition?_ok (hk : k.Describes ctx) (hs : ∀ t ∈ c.tokens, t.Spelled)
    {d? : Option Definition} (h : definition? ctx c = .ok d? e) :
    match d? with
    | none => ∃ mid, Grammar.BlankLines c.tokens mid ∧ Spaces mid e.tokens ∧ e.atEnd
    | some d => ∃ mid t, Grammar.BlankLines c.tokens mid ∧ Grammar.Definition mid t e.tokens ∧
        k.Means t d := by
  obtain ⟨_, d, hblank, h⟩ := bind_ok.mp h
  obtain ⟨b, d', hatEnd, h⟩ := bind_ok.mp h
  obtain ⟨mid, blank, spaces, left⟩ := skipBlankLines_ok hblank
  obtain ⟨rfl, rfl⟩ := atEnd_ok.mp hatEnd
  split at h
  next hend =>
    obtain ⟨rfl, rfl⟩ := pure_ok.mp h
    exact ⟨mid, blank, spaces, hend⟩
  next hend =>
    obtain ⟨keyword, d₁, hkeyword, h⟩ := bind_ok.mp h
    obtain ⟨hkind, hd⟩ := expect_tokens (by decide) hkeyword
    obtain rfl : mid = d.tokens :=
      left.resolve_right (by rw [Cursor.peek_of_tokens hd, hkind]; decide)
    have hs₁ : ∀ t ∈ d₁.tokens, t.Spelled := fun t ht =>
      hs t (blank.suffix.subset (hd ▸ List.mem_cons_of_mem _ ht))
    -- each keyword has a reading of its own, which hands on what it reads
    have handOn {r : Read Definition} (h : (some <$> r) d₁ = .ok d? e) (hr : ∀ def_,
        r d₁ = .ok def_ e → ∃ t, Grammar.Definition (keyword :: d₁.tokens) t e.tokens ∧
          k.Means t def_) :
        ∃ def_ t, d? = some def_ ∧ Grammar.Definition d.tokens t e.tokens ∧ k.Means t def_ := by
      obtain ⟨def_, hdef, rfl⟩ := map_ok.mp h
      obtain ⟨t, ht, hm⟩ := hr def_ hdef
      exact ⟨def_, t, rfl, hd ▸ ht, hm⟩
    suffices hdef : ∃ def_ t, d? = some def_ ∧ Grammar.Definition d.tokens t e.tokens ∧
        k.Means t def_ by
      obtain ⟨def_, t, rfl, ht, hm⟩ := hdef
      exact ⟨_, t, blank, ht, hm⟩
    generalize htext : keyword.text = text at h
    have hword : Keyword text keyword := ⟨hkind, htext⟩
    split at h
    next => exact handOn h fun _ => struct_ok hk hword hs₁
    next => exact handOn h fun _ => union_ok hk hword hs₁
    next => exact handOn h fun _ => enum_ok hk hword hs₁
    next => exact handOn h fun _ => untaggedUnion_ok hk hword
    next => exact handOn h fun _ => importLine_ok hk hword
    next => exact (throw_ok.mp h).elim

theorem definition?_end_runs (ctx : Context) {t : Token} {mid : List Token}
    (blank : Grammar.BlankLines ts mid) (spaces : Spaces mid (t :: rest))
    (ht : t.kind = .endOfInput) :
    Runs (definition? ctx) ts none (t :: rest) := by
  refine (skipBlankLines_end_runs blank spaces ht).bind ?_
  exact (atEnd_runs (decide_eq_true ht)).bind (Runs.pure none)

theorem definition?_runs (hk : k.Describes ctx) {mid : List Token} {t : DefinitionSyntax}
    {def_ : Definition} (hs : ∀ t ∈ ts, t.Spelled) (blank : Grammar.BlankLines ts mid)
    (h : Grammar.Definition mid t rest) (hm : k.Means t def_) :
    Runs (definition? ctx) ts (some def_) rest := by
  obtain ⟨keyword, more, rfl, hkind, -⟩ := h.suffix
  have hs' : ∀ t ∈ more, t.Spelled := fun t ht =>
    hs t (blank.suffix.subset (List.mem_cons_of_mem _ ht))
  refine (skipBlankLines_runs blank (.refl _) ?_).bind ?_
  · exact content_of_kind hkind rfl
  refine (atEnd_runs (b := false) (by rw [hkind]; decide)).bind ?_
  rw [if_neg (by decide)]
  refine (expect_runs hkind (by decide)).bind ?_
  cases h with
  | struct hw heading parameters block =>
    rw [hw.2]
    exact (struct_runs hk hs' (.struct hw heading parameters block) hm).map some
  | union hw options hembedded heading parameters block =>
    rw [hw.2]
    exact (union_runs hk hs' (.union hw options hembedded heading parameters block) hm).map some
  | embedded hw options hembedded heading parameters block =>
    rw [hw.2]
    exact (embedded_runs hk (.embedded hw options hembedded heading parameters block) hm).map some
  | enum hw heading block =>
    rw [hw.2]
    exact (enum_runs hk hs' (.enum hw heading block) hm).map some
  | untagged hw before hw' heading block =>
    rw [hw.2]
    exact (untaggedUnion_runs hk (.untagged hw before hw' heading block) hm).map some
  | imports hw before hmodule qualifier ending =>
    rw [hw.2]
    exact (importLine_runs hk (.imports hw before hmodule qualifier ending) hm).map some

end TypeSchema.Read
