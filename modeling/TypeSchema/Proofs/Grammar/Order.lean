import TypeSchema.Proofs.Grammar.Takes

/-!
# The order of names

The names that a definition declares stand in its tokens in the order of its tree: first its own
name, then its parameters, then its members. A member that has a name begins a line of the body.
-/

namespace TypeSchema

namespace DefinitionSyntax

def keyword : DefinitionSyntax → Token
  | .struct t _ _ _ | .union t _ _ _ _ | .embedded t _ _ _ _ | .enum t _ _ | .untagged t _ _
  | .imports t _ _ => t

def name : DefinitionSyntax → Token
  | .struct _ n _ _ | .union _ _ n _ _ | .embedded _ _ n _ _ | .enum _ n _ | .untagged _ n _
  | .imports _ n _ => n

def parameters : DefinitionSyntax → List Token
  | .struct _ _ parameters _ | .union _ _ _ parameters _ | .embedded _ _ _ parameters _ =>
    parameters
  | .enum .. | .untagged .. | .imports .. => []

/-- The names that begin the lines of the body. -/
def members : DefinitionSyntax → List Token
  | .struct _ _ _ fields => fields.map Prod.fst
  | .union _ _ _ _ constructors => constructors.map Prod.fst
  | .embedded _ _ _ _ variants => variants.map Prod.fst
  | .enum _ _ items => items.map Prod.fst
  | .untagged .. | .imports .. => []

end DefinitionSyntax

/-- The token begins a line of a body: it comes after a line break and four spaces. -/
def Token.Opens (t : Token) (used : List Token) : Prop :=
  ∃ before lineBreak spaces after, used = before ++ lineBreak :: (spaces ++ t :: after) ∧
    lineBreak.kind.isLineBreak ∧ spaces.length = 4 ∧ ∀ s ∈ spaces, s.kind = .space

theorem Token.Opens.append {t : Token} {used : List Token} (h : t.Opens used)
    (first last : List Token) : t.Opens (first ++ (used ++ last)) := by
  obtain ⟨before, lineBreak, spaces, after, rfl, hbreak⟩ := h
  exact ⟨first ++ before, lineBreak, spaces, after ++ last, by simp, hbreak⟩

namespace Grammar

variable {α : Type} {ts mid rest names more : List Token} {t : Token}

/-- Between `ts` and `rest` stand the names, in this order. -/
def Order (names ts rest : List Token) : Prop := ∃ used, ts = used ++ rest ∧ names.Sublist used

theorem Order.none (h : rest <:+ ts) : Order [] ts rest := by
  obtain ⟨used, rfl⟩ := h
  exact ⟨used, rfl, List.nil_sublist used⟩

theorem Order.one (h : rest <:+ more) : Order [t] (t :: more) rest := by
  obtain ⟨used, rfl⟩ := h
  exact ⟨t :: used, rfl, by simp⟩

theorem Order.trans (h : Order names ts mid) (h' : Order more mid rest) :
    Order (names ++ more) ts rest := by
  obtain ⟨used, rfl, hnames⟩ := h
  obtain ⟨used', rfl, hmore⟩ := h'
  exact ⟨used ++ used', (List.append_assoc ..).symm, hnames.append hmore⟩

theorem Order.after (h : Order names mid rest) (hmid : mid <:+ ts) : Order names ts rest :=
  (Order.none hmid).trans h

-- ---------------------------------------------------------------------------
-- Headings
-- ---------------------------------------------------------------------------

theorem Items.order {close : Mark} (h : Items close Name ts names rest) : Order names ts rest := by
  induction h with
  | last item _ =>
    cases item
    exact .one (List.suffix_cons ..)
  | more item _ spaces _ ih =>
    cases item
    exact (Order.one (spaces.suffix.trans (List.suffix_cons ..))).trans ih

theorem Parameters.order (h : Parameters ts names rest) : Order names ts rest := by
  cases h with
  | none => exact .none List.suffix_rfl
  | list _ items => exact items.order.after (List.suffix_cons ..)

theorem Heading.order {n : Token} (h : Heading ts n rest) : Order [n] ts rest := by
  obtain ⟨separator, -⟩ := h
  exact (Order.one List.suffix_rfl).after separator.suffix

-- ---------------------------------------------------------------------------
-- Bodies
-- ---------------------------------------------------------------------------

theorem BlankLines.lineBreak (h : BlankLines ts rest) {first : Token}
    (hfirst : first.kind.isLineBreak) :
    ∃ before last, first :: ts = before ++ last :: rest ∧ last.kind.isLineBreak := by
  induction h generalizing first with
  | none => exact ⟨[], first, rfl, hfirst⟩
  | more line _ ih =>
    obtain ⟨t, ht, spaces, -, rfl⟩ := line
    obtain ⟨before, last, heq, hlast⟩ := ih ht
    exact ⟨first :: (spaces ++ before), last, by simp [heq], hlast⟩

def Named (line : Rule (Token × α)) : Prop :=
  ∀ ts a rest, line ts a rest → ∃ more, ts = a.1 :: more ∧ rest <:+ more

theorem Field.named : Named Field := by
  rintro _ _ rest ⟨-, -, spaces, type⟩
  exact ⟨_, rfl, type.suffix.trans (spaces.suffix.trans (List.suffix_cons ..))⟩

theorem Tagged.named {inner : Rule α} (hi : ∀ ts a rest, inner ts a rest → rest <:+ ts) :
    Named (Tagged inner) := by
  intro _ _ rest h
  cases h with
  | bare _ => exact ⟨_, rfl, List.suffix_rfl⟩
  | colon _ _ spaces a =>
    exact ⟨_, rfl, (hi _ _ _ a).trans (spaces.suffix.trans (List.suffix_cons ..))⟩

theorem Item.named : Named Item := by
  rintro _ _ rest ⟨-, before, -, after, -⟩
  have value := (List.suffix_cons ..).trans after.suffix
  exact ⟨_, rfl, value.trans ((List.suffix_cons ..).trans before.suffix)⟩

/-- Between `ts` and `rest` stand the members, in this order, and each begins a line. -/
def Lines (members ts rest : List Token) : Prop :=
  ∃ used, ts = used ++ rest ∧ members.Sublist used ∧ ∀ t ∈ members, t.Opens used

theorem Lines.none (h : rest <:+ ts) : Lines [] ts rest := by
  obtain ⟨used, rfl⟩ := h
  exact ⟨used, rfl, List.nil_sublist used, by simp⟩

theorem Lines.within {members last : List Token} (h : Lines members mid last) (hmid : mid <:+ ts)
    (hrest : rest <:+ last) : Lines members ts rest := by
  obtain ⟨used, rfl, hmembers, hopens⟩ := h
  obtain ⟨before, rfl⟩ := hmid
  obtain ⟨after, rfl⟩ := hrest
  refine ⟨before ++ (used ++ after), by simp, ?_, fun t ht => (hopens t ht).append before after⟩
  exact List.sublist_append_of_sublist_right (List.sublist_append_of_sublist_left hmembers)

theorem Order.lines {members : List Token} (h : Order names ts mid) (h' : Lines members mid rest) :
    ∃ used, ts = used ++ rest ∧ (names ++ members).Sublist used ∧ ∀ t ∈ members, t.Opens used := by
  obtain ⟨used, rfl, hnames⟩ := h
  obtain ⟨used', rfl, hmembers, hopens⟩ := h'
  refine ⟨used ++ used', (List.append_assoc ..).symm, hnames.append hmembers, fun t ht => ?_⟩
  simpa using (hopens t ht).append used []

theorem Body.lines {line : Rule (Token × α)} {as : List (Token × α)} (h : Body line ts as rest)
    (hline : Named line) {first : Token} (hfirst : first.kind.isLineBreak) :
    Lines (as.map Prod.fst) (first :: ts) rest := by
  induction h generalizing first with
  | close blank _ =>
    obtain ⟨used, hused⟩ := (List.suffix_cons ..).trans blank.suffix
    exact ⟨first :: used, by rw [List.cons_append, hused], by simp, by simp⟩
  | @line _ _ _ a _ _ _ _ blank indent content lineEnd _ ih =>
    obtain ⟨before, last, heq, hlast⟩ := blank.lineBreak hfirst
    obtain ⟨spaces, hlength, hspaces, rfl⟩ := indent
    obtain ⟨more, rfl, between, rfl⟩ := hline _ _ _ content
    obtain ⟨t, ht, spaces', -, rfl⟩ := lineEnd
    obtain ⟨used, hused, hnames, hopens⟩ := ih ht
    refine ⟨before ++ last :: (spaces ++ a.1 :: (between ++ (spaces' ++ used))), ?_, ?_, ?_⟩
    · rw [heq, hused]
      simp
    · rw [List.map_cons]
      refine List.sublist_append_of_sublist_right (.cons _ ?_)
      refine List.sublist_append_of_sublist_right (.cons_cons _ ?_)
      exact List.sublist_append_of_sublist_right (List.sublist_append_of_sublist_right hnames)
    · rw [List.map_cons, List.forall_mem_cons]
      refine ⟨⟨before, last, spaces, _, rfl, hlast, hlength, hspaces⟩, fun u hu => ?_⟩
      simpa using (hopens u hu).append
        (before ++ last :: (spaces ++ a.1 :: (between ++ spaces'))) []

theorem Block.lines {line : Rule (Token × α)} {as : List (Token × α)} (h : Block line ts as rest)
    (hline : Named line) : Lines (as.map Prod.fst) ts rest := by
  obtain ⟨⟨brace, inner, spaces, -, first, hfirst, spaces'⟩, body, ending⟩ := h
  have inside := spaces'.suffix.trans ((List.suffix_cons ..).trans spaces.suffix)
  exact (body.lines hline hfirst).within inside ending.suffix

/-- The names that a definition declares, in the order in which they stand behind its keyword. -/
theorem Definition.order {tree : DefinitionSyntax} (h : Definition ts tree rest) :
    ∃ used, ts = tree.keyword :: (used ++ rest) ∧
      (tree.name :: (tree.parameters ++ tree.members)).Sublist used ∧
      ∀ t ∈ tree.members, t.Opens used := by
  have whole {more : List Token} (ht : ts = tree.keyword :: more) {mid : List Token}
      (heading : Order (tree.name :: tree.parameters) more mid)
      (lines : Lines tree.members mid rest) :
      ∃ used, ts = tree.keyword :: (used ++ rest) ∧
        (tree.name :: (tree.parameters ++ tree.members)).Sublist used ∧
        ∀ t ∈ tree.members, t.Opens used := by
    obtain ⟨used, rfl, hnames, hopens⟩ := heading.lines lines
    exact ⟨used, ht, hnames, hopens⟩
  cases h with
  | struct _ heading parameters block =>
    exact whole rfl (heading.order.trans parameters.order) (block.lines Field.named)
  | union _ options _ heading parameters block =>
    exact whole rfl ((heading.order.trans parameters.order).after options.suffix)
      (block.lines (Tagged.named fun _ _ _ h => h.suffix))
  | embedded _ options _ heading parameters block =>
    exact whole rfl ((heading.order.trans parameters.order).after options.suffix)
      (block.lines (Tagged.named fun _ _ _ h => h.suffix))
  | enum _ heading block => exact whole rfl heading.order (block.lines Item.named)
  | untagged _ before _ heading block =>
    exact whole rfl (heading.order.after ((List.suffix_cons ..).trans before.suffix))
      (.none (block.takes fun _ _ _ h => h.takes).suffix)
  | imports _ before _ qualifier ending =>
    exact whole rfl ((Order.one List.suffix_rfl).after before.suffix)
      (.none (ending.suffix.trans qualifier.suffix))

end Grammar

end TypeSchema
