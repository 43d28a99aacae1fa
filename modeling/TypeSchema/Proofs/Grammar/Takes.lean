import Mathlib.Data.List.Basic
import TypeSchema.Proofs.Grammar

/-!
# Rules take tokens from the front

Each rule takes some tokens and leaves the others as they are, and none of those that it takes is
invalid. It would take the same tokens whatever came after them. Only the end of a definition looks
at what comes next, and only where the input ends in the middle of a line.
-/

namespace TypeSchema.Grammar

/-- Between `ts` and `rest` stand tokens that are valid, and the rule takes them whatever comes
after them. -/
def Takes (rule : List Token → List Token → Prop) (ts rest : List Token) : Prop :=
  ∃ used, ts = used ++ rest ∧ (∀ t ∈ used, t.kind ≠ .invalid) ∧ ∀ other, rule (used ++ other) other

section
variable {r s : List Token → List Token → Prop} {ts mid rest : List Token}

theorem Takes.suffix (h : Takes r ts rest) : rest <:+ ts :=
  let ⟨used, h, _⟩ := h
  ⟨used, h.symm⟩

theorem Takes.valid (h : Takes r ts rest)
    (hrest : ∀ t ∈ rest, t.kind ≠ .invalid) : ∀ t ∈ ts, t.kind ≠ .invalid := by
  obtain ⟨used, rfl, hused, -⟩ := h
  exact fun t ht => (List.mem_append.mp ht).elim (hused t) (hrest t)

theorem Takes.instead (h : Takes r ts rest)
    (hrest : rest ≠ []) (more : List Token) : r (ts.dropLast ++ more) (rest.dropLast ++ more) := by
  obtain ⟨used, rfl, -, h⟩ := h
  rw [List.dropLast_append_of_ne_nil hrest, List.append_assoc]
  exact h _

theorem Takes.imp (h : Takes r ts rest) (himp : ∀ ts rest, r ts rest → s ts rest) :
    Takes s ts rest :=
  let ⟨used, hts, valid, h⟩ := h
  ⟨used, hts, valid, fun other => himp _ _ (h other)⟩

theorem Takes.one {t : Token} (ht : t.kind ≠ .invalid) :
    Takes (fun ts rest => ts = t :: rest) (t :: rest) rest :=
  ⟨[t], rfl, by simpa using ht, fun _ => rfl⟩

theorem Takes.none (h : ∀ ts, r ts ts) : Takes r ts ts := ⟨[], rfl, nofun, h⟩

theorem Takes.spaces {spaces : List Token} (h : ∀ t ∈ spaces, t.kind = .space) :
    Takes (fun ts rest => ts = spaces ++ rest) (spaces ++ rest) rest :=
  ⟨spaces, rfl, fun t ht => by simp [h t ht], fun _ => rfl⟩

theorem Takes.andThen (h : Takes r ts mid) (h' : Takes s mid rest) :
    Takes (fun ts rest => ∃ mid, r ts mid ∧ s mid rest) ts rest := by
  obtain ⟨us, rfl, hus, h⟩ := h
  obtain ⟨vs, rfl, hvs, h'⟩ := h'
  refine ⟨us ++ vs, (List.append_assoc ..).symm, fun t ht => ?_, fun other => ?_⟩
  · exact (List.mem_append.mp ht).elim (hus t) (hvs t)
  · exact ⟨vs ++ other, List.append_assoc .. ▸ h _, h' other⟩

end

theorem Spaces.refl (ts : List Token) : Spaces ts ts := ⟨[], by simp, rfl⟩

theorem Spaces.trans {ts mid rest : List Token} : Spaces ts mid → Spaces mid rest → Spaces ts rest
  | ⟨before, hb, h⟩, ⟨after, ha, h'⟩ =>
    ⟨before ++ after, by simpa [or_imp, forall_and] using ⟨hb, ha⟩, by simp [h, h']⟩

section
variable {ts rest : List Token}

theorem Spaces.takes : Spaces ts rest → Takes Spaces ts rest
  | ⟨spaces, hs, h⟩ => h ▸ (Takes.spaces hs).imp fun _ _ h => ⟨spaces, hs, h⟩

theorem Separator.takes : Separator ts rest → Takes Separator ts rest
  | ⟨t, _, ht, h, spaces⟩ =>
    h ▸ ((Takes.one (by simp [ht])).andThen spaces.takes).imp
      fun _ _ ⟨more, h, spaces⟩ => ⟨t, more, ht, h, spaces⟩

theorem Indentation.takes : Indentation ts rest → Takes Indentation ts rest
  | ⟨spaces, hn, hs, h⟩ => h ▸ (Takes.spaces hs).imp fun _ _ h => ⟨spaces, hn, hs, h⟩

theorem Indentation.length : Indentation ts rest → ts.length = rest.length + 4
  | ⟨_, hn, _, h⟩ => by rw [h, List.length_append, hn, Nat.add_comm]

theorem valid_of_isLineBreak {t : Token} (h : t.kind.isLineBreak) : t.kind ≠ .invalid := by
  intro ht
  rw [ht] at h
  cases h

theorem LineEnd.takes : LineEnd ts rest → Takes LineEnd ts rest
  | ⟨t, ht, spaces⟩ =>
    (spaces.takes.andThen (.one (valid_of_isLineBreak ht))).imp
      fun _ _ ⟨_, spaces, h⟩ => ⟨t, ht, h ▸ spaces⟩

theorem BlankLines.takes (h : BlankLines ts rest) : Takes BlankLines ts rest := by
  induction h with
  | none => exact .none fun _ => .none
  | more line _ ih => exact (line.takes.andThen ih).imp fun _ _ ⟨_, line, blank⟩ => .more line blank

theorem BodyStart.takes : BodyStart ts rest → Takes BodyStart ts rest
  | ⟨t, _, spaces, ht, line⟩ =>
    (spaces.takes.andThen ((Takes.one (by simp [ht])).andThen line.takes)).imp
      fun _ _ ⟨_, spaces, mid, h, line⟩ => ⟨t, mid, h ▸ spaces, ht, line⟩

theorem Spaces.suffix (h : Spaces ts rest) : rest <:+ ts := h.takes.suffix

theorem Separator.suffix (h : Separator ts rest) : rest <:+ ts := h.takes.suffix

theorem Indentation.suffix (h : Indentation ts rest) : rest <:+ ts := h.takes.suffix

theorem LineEnd.suffix (h : LineEnd ts rest) : rest <:+ ts := h.takes.suffix

theorem BlankLines.suffix (h : BlankLines ts rest) : rest <:+ ts := h.takes.suffix

theorem BodyStart.suffix (h : BodyStart ts rest) : rest <:+ ts := h.takes.suffix

end

-- ---------------------------------------------------------------------------
-- Lists
-- ---------------------------------------------------------------------------

section
variable {α : Type} {close : Mark} {item line : Rule α} {ts rest : List Token} {as : List α}

theorem Items.takes (h : Items close item ts as rest)
    (inner : ∀ a ∈ as, ∀ ts rest, item ts a rest → Takes (item · a ·) ts rest) :
    Takes (Items close item · as ·) ts rest := by
  induction h with
  | last first ht =>
    have first := inner _ (by simp) _ _ first
    exact (first.andThen (.one (by simp [ht]))).imp fun _ _ ⟨_, first, h⟩ => .last (h ▸ first) ht
  | more first ht spaces _ ih =>
    have first := inner _ (by simp) _ _ first
    have others := ih fun a ha => inner a (by simp [ha])
    exact (first.andThen ((Takes.one (by simp [ht])).andThen (spaces.takes.andThen others))).imp
      fun _ _ ⟨_, first, _, h, _, spaces, others⟩ => .more (h ▸ first) ht spaces others

theorem Items.mem (h : Items close item ts as rest)
    (inner : ∀ a ∈ as, ∀ ts rest, item ts a rest → rest <:+ ts) {a : α} (ha : a ∈ as) :
    ∃ us after, us <:+ ts ∧ item us a after := by
  induction h with
  | last first _ =>
    obtain rfl := List.mem_singleton.mp ha
    exact ⟨_, _, List.suffix_refl _, first⟩
  | more first _ spaces _ ih =>
    cases ha with
    | head => exact ⟨_, _, List.suffix_refl _, first⟩
    | tail _ ha =>
      obtain ⟨us, after, hus, item⟩ := ih (fun a ha => inner a (by simp [ha])) ha
      have next := (List.suffix_cons ..).trans (inner _ (by simp) _ _ first)
      exact ⟨us, after, hus.trans (spaces.suffix.trans next), item⟩

theorem Body.takes (h : Body line ts as rest)
    (inner : ∀ ts a rest, line ts a rest → Takes (line · a ·) ts rest) :
    Takes (Body line · as ·) ts rest := by
  induction h with
  | close blank ht =>
    exact (blank.takes.andThen (.one (by simp [ht]))).imp
      fun _ _ ⟨_, blank, h⟩ => .close (h ▸ blank) ht
  | line blank indent content lineEnd _ ih =>
    exact (blank.takes.andThen (indent.takes.andThen ((inner _ _ _ content).andThen
      (lineEnd.takes.andThen ih)))).imp
        fun _ _ ⟨_, blank, _, indent, _, content, _, lineEnd, others⟩ =>
          .line blank indent content lineEnd others

theorem Body.mem (h : Body line ts as rest) (inner : ∀ ts a rest, line ts a rest → rest <:+ ts)
    {a : α} (ha : a ∈ as) : ∃ us after, us <:+ ts ∧ line us a after := by
  induction h with
  | close _ _ => cases ha
  | line blank indent content lineEnd _ ih =>
    have start := indent.suffix.trans blank.suffix
    cases ha with
    | head => exact ⟨_, _, start, content⟩
    | tail _ ha =>
      obtain ⟨us, after, hus, line⟩ := ih ha
      exact ⟨us, after, hus.trans (lineEnd.suffix.trans ((inner _ _ _ content).trans start)), line⟩

end

-- ---------------------------------------------------------------------------
-- Types and members
-- ---------------------------------------------------------------------------

section
variable {ts rest : List Token}

theorem Name.takes {t : Token} : Name ts t rest → Takes (Name · t ·) ts rest
  | .mk ht => (Takes.one (by simp [ht])).imp fun _ _ h => h ▸ .mk ht

theorem Head.takes {q : Option Token} {n : Token} : Head ts q n rest → Takes (Head · q n ·) ts rest
  | .bare hn => (Takes.one (by simp [hn])).imp fun _ _ h => h ▸ .bare hn
  | .qualified hq hdot hn => by
    refine ((Takes.one (by simp [hq])).andThen ((Takes.one (by simp [hdot])).andThen
      (.one (by simp [hn])))).imp ?_
    rintro _ _ ⟨_, rfl, _, rfl, rfl⟩
    exact .qualified hq hdot hn

theorem Reference.takes {r : ReferenceSyntax} :
    ∀ {ts rest : List Token}, Reference ts r rest → Takes (Reference · r ·) ts rest := by
  induction r using ReferenceSyntax.induction with
  | step q n arguments ih =>
    intro ts rest h
    cases h with
    | plain head => exact head.takes.imp fun _ _ head => .plain head
    | applied head ht items =>
      have items := items.takes fun a ha ts rest h => ih a ha h
      exact (head.takes.andThen ((Takes.one (by simp [ht])).andThen items)).imp
        fun _ _ ⟨_, head, _, h, items⟩ => .applied (h ▸ head) ht items

theorem TypeExpr.takes {type : TypeSyntax} (h : TypeExpr ts type rest) :
    Takes (TypeExpr · type ·) ts rest := by
  induction h with
  | literal ht => exact (Takes.one (by simp [ht])).imp fun _ _ h => h ▸ .literal ht
  | reference h => exact h.takes.imp fun _ _ h => .reference h
  | slice hl hr _ ih =>
    refine ((Takes.one (by simp [hl])).andThen ((Takes.one (by simp [hr])).andThen ih)).imp ?_
    rintro _ _ ⟨_, rfl, _, rfl, item⟩
    exact .slice hl hr item
  | array hl hsize hr _ ih =>
    refine ((Takes.one (by simp [hl])).andThen ((Takes.one (by simp [hsize])).andThen
      ((Takes.one (by simp [hr])).andThen ih))).imp ?_
    rintro _ _ ⟨_, rfl, _, rfl, _, rfl, item⟩
    exact .array hl hsize hr item
  | pointer ht _ ih =>
    exact ((Takes.one (by simp [ht])).andThen ih).imp
      fun _ _ ⟨_, h, item⟩ => h ▸ .pointer ht item
  | optional ht _ ih =>
    exact ((Takes.one (by simp [ht])).andThen ih).imp
      fun _ _ ⟨_, h, item⟩ => h ▸ .optional ht item

theorem Field.takes {f : Token × TypeSyntax} : Field ts f rest → Takes (Field · f ·) ts rest
  | .mk hn hcolon spaces type => by
    refine ((Takes.one (by simp [hn])).andThen ((Takes.one (by simp [hcolon])).andThen
      (spaces.takes.andThen type.takes))).imp ?_
    rintro _ _ ⟨_, rfl, _, rfl, _, spaces', type'⟩
    exact .mk hn hcolon spaces' type'

theorem Tagged.takes {α : Type} {inner : Rule α} {m : Token × Option α}
    (h : Tagged inner ts m rest)
    (hi : ∀ ts a rest, inner ts a rest → Takes (inner · a ·) ts rest) :
    Takes (Tagged inner · m ·) ts rest := by
  cases h with
  | bare hn => exact (Takes.one (by simp [hn])).imp fun _ _ h => h ▸ .bare hn
  | colon hn hcolon spaces content =>
    refine ((Takes.one (by simp [hn])).andThen ((Takes.one (by simp [hcolon])).andThen
      (spaces.takes.andThen (hi _ _ _ content)))).imp ?_
    rintro _ _ ⟨_, rfl, _, rfl, _, spaces', content'⟩
    exact .colon hn hcolon spaces' content'

theorem assigned_takes {ts mid rest : List Token} {equals value : Token}
    (before : Spaces ts (equals :: mid)) (hequals : equals.kind = .mark .equals)
    (after : Spaces mid (value :: rest)) (hvalue : value.kind ≠ .invalid) :
    Takes (fun ts rest => ∃ mid, Spaces ts (equals :: mid) ∧ Spaces mid (value :: rest)) ts rest :=
  (before.takes.andThen ((Takes.one (by simp [hequals])).andThen
    (after.takes.andThen (.one hvalue)))).imp
      fun _ _ ⟨_, before, mid, h, _, after, h'⟩ => ⟨mid, h ▸ before, h' ▸ after⟩

theorem Item.takes {i : Token × Token} : Item ts i rest → Takes (Item · i ·) ts rest
  | .mk htag before hequals after hvalue =>
    have tag := Takes.one (by rcases htag with htag | htag <;> simp [htag])
    have value := assigned_takes before hequals after (by
      rcases hvalue with hvalue | hvalue <;> simp [hvalue])
    (tag.andThen value).imp fun _ _ ⟨_, h, _, before, after⟩ =>
      h ▸ .mk htag before hequals after hvalue

-- ---------------------------------------------------------------------------
-- Parts of definitions
-- ---------------------------------------------------------------------------

theorem Keyword.valid {word : String} {t : Token} (h : Keyword word t) : t.kind ≠ .invalid := by
  simp [h.1]

theorem UnionOption.takes {o : OptionSyntax} :
    UnionOption ts o rest → Takes (UnionOption · o ·) ts rest
  | .tag word before hequals after hfield =>
    ((Takes.one word.valid).andThen (assigned_takes before hequals after (by simp [hfield]))).imp
      fun _ _ ⟨_, h, _, before, after⟩ => h ▸ .tag word before hequals after hfield
  | .embedded word => (Takes.one word.valid).imp fun _ _ h => h ▸ .embedded word

theorem SpacedOption.takes {o : OptionSyntax} :
    SpacedOption ts o rest → Takes (SpacedOption · o ·) ts rest
  | .mk option spaces =>
    (option.takes.andThen spaces.takes).imp fun _ _ ⟨_, option, spaces⟩ => .mk option spaces

theorem UnionOptions.takes {os : List OptionSyntax} :
    UnionOptions ts os rest → Takes (UnionOptions · os ·) ts rest
  | .none => .none fun _ => .none
  | .list ht spaces items =>
    ((Takes.one (by simp [ht])).andThen (spaces.takes.andThen
      (items.takes fun _ _ _ _ h => h.takes))).imp
        fun _ _ ⟨_, h, _, spaces, items⟩ => h ▸ .list ht spaces items

theorem Parameters.takes {names : List Token} :
    Parameters ts names rest → Takes (Parameters · names ·) ts rest
  | .none => .none fun _ => .none
  | .list ht items =>
    ((Takes.one (by simp [ht])).andThen (items.takes fun _ _ _ _ h => h.takes)).imp
      fun _ _ ⟨_, h, items⟩ => h ▸ .list ht items

theorem Qualifier.takes {q : Option Token} :
    Qualifier ts q rest → Takes (Qualifier · q ·) ts rest
  | .none => .none fun _ => .none
  | .mk before hequals after hq =>
    (assigned_takes before hequals after (by simp [hq])).imp
      fun _ _ ⟨_, before, after⟩ => .mk before hequals after hq

theorem Heading.takes {n : Token} : Heading ts n rest → Takes (Heading · n ·) ts rest
  | .mk before hn =>
    (before.takes.andThen (.one (by simp [hn]))).imp fun _ _ ⟨_, before, h⟩ => .mk (h ▸ before) hn

theorem Head.suffix {q : Option Token} {n : Token} (h : Head ts q n rest) : rest <:+ ts :=
  h.takes.suffix

theorem Name.suffix {t : Token} (h : Name ts t rest) : rest <:+ ts := h.takes.suffix

theorem Reference.suffix {r : ReferenceSyntax} (h : Reference ts r rest) : rest <:+ ts :=
  h.takes.suffix

theorem TypeExpr.suffix {type : TypeSyntax} (h : TypeExpr ts type rest) : rest <:+ ts :=
  h.takes.suffix

theorem Field.suffix {f : Token × TypeSyntax} (h : Field ts f rest) : rest <:+ ts :=
  h.takes.suffix

theorem Tagged.suffix {α : Type} {inner : Rule α} {m : Token × Option α}
    (h : Tagged inner ts m rest) (hi : ∀ ts a rest, inner ts a rest → rest <:+ ts) :
    rest <:+ ts := by
  cases h with
  | bare _ => exact List.suffix_cons ..
  | colon _ _ spaces content =>
    exact (hi _ _ _ content).trans (spaces.suffix.trans (List.suffix_append [_, _] _))

theorem Item.suffix {i : Token × Token} (h : Item ts i rest) : rest <:+ ts := h.takes.suffix

theorem SpacedOption.suffix {o : OptionSyntax} (h : SpacedOption ts o rest) : rest <:+ ts :=
  h.takes.suffix

theorem UnionOptions.suffix {os : List OptionSyntax} (h : UnionOptions ts os rest) :
    rest <:+ ts := h.takes.suffix

theorem Parameters.suffix {names : List Token} (h : Parameters ts names rest) : rest <:+ ts :=
  h.takes.suffix

theorem Qualifier.suffix {q : Option Token} (h : Qualifier ts q rest) : rest <:+ ts :=
  h.takes.suffix

theorem Heading.suffix {n : Token} (h : Heading ts n rest) : rest <:+ ts := h.takes.suffix

end

-- ---------------------------------------------------------------------------
-- Definitions
-- ---------------------------------------------------------------------------

/-- The end of the input comes after a line break, if anything comes before it. -/
def LinesEnd (ts : List Token) : Prop :=
  ∀ last t more, last :: t :: more <:+ ts → t.kind = .endOfInput → last.kind.isLineBreak

section
variable {ts rest : List Token}

theorem LinesEnd.suffix {us : List Token} (h : LinesEnd ts) (hs : us <:+ ts) : LinesEnd us :=
  fun last t more hm ht => h last t more (hm.trans hs) ht

theorem LinesEnd.no_input {t stop : Token} (h : LinesEnd (t :: ts))
    (ht : t.kind.isLineBreak = false) (spaces : Spaces ts (stop :: rest))
    (hstop : stop.kind = .endOfInput) : False := by
  obtain ⟨between, hb, rfl⟩ := spaces
  -- the last token before the end is a space or `t` itself
  obtain ⟨before, last, hlast⟩ := List.eq_nil_or_concat' (t :: between) |>.resolve_left (by simp)
  have lineBreak : last.kind.isLineBreak :=
    h last stop rest ⟨before, by simp [← List.cons_append, hlast]⟩ hstop
  have hmem : last ∈ t :: between := by simp [hlast]
  rcases List.mem_cons.mp hmem with rfl | hmem
  · rw [ht] at lineBreak
    cases lineBreak
  · rw [hb _ hmem] at lineBreak
    cases lineBreak

theorem DefinitionEnd.takes {t : Token} (h : DefinitionEnd ts rest)
    (ht : t.kind.isLineBreak = false) :
    Takes (fun us other => LinesEnd (t :: ts) → DefinitionEnd us other) ts rest := by
  cases h with
  | line h => exact h.takes.imp fun _ _ h _ => .line h
  | input spaces hstop =>
    exact spaces.takes.imp fun _ _ _ lines => (lines.no_input ht spaces hstop).elim

theorem DefinitionEnd.suffix (h : DefinitionEnd ts rest) : rest <:+ ts := by
  cases h with
  | line h => exact h.suffix
  | input h _ => exact h.suffix

theorem DefinitionEnd.of_spaces {mid : List Token} (spaces : Spaces ts mid)
    (h : DefinitionEnd mid rest) : DefinitionEnd ts rest := by
  cases h with
  | line h =>
    obtain ⟨t, ht, more⟩ := h
    exact .line ⟨t, ht, spaces.trans more⟩
  | input more ht => exact .input (spaces.trans more) ht

theorem Body.brace {α : Type} {line : Rule α} {as : List α} (h : Body line ts as rest)
    (inner : ∀ ts a rest, line ts a rest → rest <:+ ts) :
    ∃ t, t.kind = .mark .rightBrace ∧ t :: rest <:+ ts := by
  induction h with
  | close blank ht => exact ⟨_, ht, blank.suffix⟩
  | line blank indent content lineEnd _ ih =>
    obtain ⟨t, ht, hsuffix⟩ := ih
    exact ⟨t, ht, hsuffix.trans (lineEnd.suffix.trans ((inner _ _ _ content).trans
      (indent.suffix.trans blank.suffix)))⟩

theorem Block.takes {α : Type} {line : Rule α} {as : List α}
    (inner : ∀ ts a rest, line ts a rest → Takes (line · a ·) ts rest) :
    Block line ts as rest → Takes (fun us other => LinesEnd ts → Block line us as other) ts rest
  | .mk opening body ending => by
    obtain ⟨t, ht, hsuffix⟩ := body.brace fun _ _ _ h => (inner _ _ _ h).suffix
    have last := ending.takes (by rw [ht]; rfl : t.kind.isLineBreak = false)
    refine (opening.takes.andThen ((body.takes inner).andThen last)).imp ?_
    rintro _ _ ⟨_, opening', _, body', ending'⟩ lines
    exact .mk opening' body' (ending' (lines.suffix (hsuffix.trans opening.suffix)))

theorem Qualifier.last {q : Option Token} {t : Token} (h : Qualifier ts q rest)
    (ht : t.kind = .symbol) : ∃ u, u.kind = .symbol ∧ u :: rest <:+ t :: ts := by
  cases h with
  | none => exact ⟨t, ht, List.suffix_refl _⟩
  | mk before _ after hq =>
    exact ⟨_, hq, after.suffix.trans ((List.suffix_cons ..).trans
      (before.suffix.trans (List.suffix_cons ..)))⟩

theorem Definition.takes {d : DefinitionSyntax} (h : Definition ts d rest) :
    ∃ t more, ts = t :: more ∧ t.kind = .symbol ∧
      Takes (fun us other => LinesEnd more → Definition (t :: us) d other) more rest := by
  cases h with
  | struct word heading parameters block =>
    refine ⟨_, _, rfl, word.1, (heading.takes.andThen (parameters.takes.andThen
      (block.takes fun _ _ _ h => h.takes))).imp ?_⟩
    rintro _ _ ⟨_, heading', _, parameters', block'⟩ lines
    have inside := parameters.suffix.trans heading.suffix
    exact .struct word heading' parameters' (block' (lines.suffix inside))
  | union word options hoptions heading parameters block =>
    refine ⟨_, _, rfl, word.1, (options.takes.andThen (heading.takes.andThen
      (parameters.takes.andThen (block.takes fun _ _ _ h => h.takes fun _ _ _ h => h.takes)))).imp
        ?_⟩
    rintro _ _ ⟨_, options', _, heading', _, parameters', block'⟩ lines
    have inside := parameters.suffix.trans (heading.suffix.trans options.suffix)
    exact .union word options' hoptions heading' parameters' (block' (lines.suffix inside))
  | embedded word options hoptions heading parameters block =>
    refine ⟨_, _, rfl, word.1, (options.takes.andThen (heading.takes.andThen
      (parameters.takes.andThen (block.takes fun _ _ _ h => h.takes fun _ _ _ h => h.takes)))).imp
        ?_⟩
    rintro _ _ ⟨_, options', _, heading', _, parameters', block'⟩ lines
    have inside := parameters.suffix.trans (heading.suffix.trans options.suffix)
    exact .embedded word options' hoptions heading' parameters' (block' (lines.suffix inside))
  | enum word heading block =>
    refine ⟨_, _, rfl, word.1, (heading.takes.andThen
      (block.takes fun _ _ _ h => h.takes)).imp ?_⟩
    rintro _ _ ⟨_, heading', block'⟩ lines
    exact .enum word heading' (block' (lines.suffix heading.suffix))
  | untagged word before second heading block =>
    refine ⟨_, _, rfl, word.1, (before.takes.andThen ((Takes.one second.valid).andThen
      (heading.takes.andThen (block.takes fun _ _ _ h => h.takes)))).imp ?_⟩
    rintro _ _ ⟨_, before', _, rfl, _, heading', block'⟩ lines
    have inside := heading.suffix.trans ((List.suffix_cons ..).trans before.suffix)
    exact .untagged word before' second heading' (block' (lines.suffix inside))
  | imports word before hmodule qualifier ending =>
    obtain ⟨u, hu, hsuffix⟩ := qualifier.last hmodule
    have last := ending.takes (by rw [hu]; rfl : u.kind.isLineBreak = false)
    refine ⟨_, _, rfl, word.1, (before.takes.andThen ((Takes.one (by simp [hmodule])).andThen
      (qualifier.takes.andThen last))).imp ?_⟩
    rintro _ _ ⟨_, before', _, rfl, _, qualifier', ending'⟩ lines
    have inside := hsuffix.trans before.suffix
    exact .imports word before' hmodule qualifier' (ending' (lines.suffix inside))

theorem Definition.suffix {d : DefinitionSyntax} (h : Definition ts d rest) :
    ∃ t more, ts = t :: more ∧ t.kind = .symbol ∧ rest <:+ more := by
  obtain ⟨t, more, hts, ht, takes⟩ := h.takes
  exact ⟨t, more, hts, ht, takes.suffix⟩

theorem Definition.valid {d : DefinitionSyntax} (h : Definition ts d rest)
    (hrest : ∀ t ∈ rest, t.kind ≠ .invalid) : ∀ t ∈ ts, t.kind ≠ .invalid := by
  obtain ⟨t, more, rfl, ht, takes⟩ := h.takes
  exact List.forall_mem_cons.mpr ⟨by simp [ht], takes.valid hrest⟩

theorem Definition.instead {d : DefinitionSyntax} (h : Definition ts d rest) (lines : LinesEnd ts)
    (hrest : rest ≠ []) (more : List Token) :
    Definition (ts.dropLast ++ more) d (rest.dropLast ++ more) := by
  obtain ⟨t, others, rfl, -, takes⟩ := h.takes
  have hne : others ≠ [] := fun h => hrest (List.suffix_nil.mp (h ▸ takes.suffix))
  rw [List.dropLast_cons_of_ne_nil hne, List.cons_append]
  exact takes.instead hrest more (lines.suffix (List.suffix_cons ..))

theorem File.ne_nil {trees : List DefinitionSyntax} (h : File ts trees) : ts ≠ [] := by
  rintro rfl
  cases h with
  | done blank spaces _ => cases List.suffix_nil.mp (spaces.suffix.trans blank.suffix)
  | definition blank definition _ =>
    obtain ⟨_, _, rfl, -⟩ := definition.suffix
    cases List.suffix_nil.mp blank.suffix

theorem File.valid {trees : List DefinitionSyntax} (h : File ts trees) :
    ∀ t ∈ ts, t.kind ≠ .invalid := by
  induction h with
  | done blank spaces ht => exact blank.takes.valid (spaces.takes.valid (by simp [ht]))
  | definition blank definition _ ih => exact blank.takes.valid (definition.valid ih)

end

end TypeSchema.Grammar
