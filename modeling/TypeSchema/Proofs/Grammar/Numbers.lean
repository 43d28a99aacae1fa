import TypeSchema.Proofs.Grammar

/-!
# Numbers in a definition

A number stands in a definition only as the size of an array or as the value of an enum. So the
numbers among the tokens of a definition are the numbers of its tree, in the same order.
-/

namespace TypeSchema

def TypeSyntax.sizes : TypeSyntax → List Token
  | .array size item => size :: item.sizes
  | .slice item | .pointer item | .optional item => item.sizes
  | .literal _ | .reference _ => []

def DefinitionSyntax.numbers : DefinitionSyntax → List Token
  | .struct _ _ _ fields => fields.flatMap (·.2.sizes)
  | .union _ _ _ _ constructors => constructors.flatMap fun c => c.2.elim [] TypeSyntax.sizes
  | .enum _ _ items => items.flatMap fun i => if i.2.kind = .natural then [i.2] else []
  | .embedded .. | .untagged .. | .imports .. => []

namespace Grammar

variable {α : Type} {ts mid rest ns ms : List Token} {t : Token}

/-- Between `ts` and `rest` stand these numbers and no others, in this order. -/
def Numbers (ns ts rest : List Token) : Prop :=
  ∃ used, ts = used ++ rest ∧ used.filter (·.kind = .natural) = ns

abbrev Numberless (ts rest : List Token) : Prop := Numbers [] ts rest

theorem Numberless.refl (ts : List Token) : Numberless ts ts := ⟨[], rfl, rfl⟩

theorem Numberless.one (ht : t.kind ≠ .natural) : Numberless (t :: rest) rest :=
  ⟨[t], rfl, by simpa using ht⟩

theorem Numbers.number (ht : t.kind = .natural) : Numbers [t] (t :: rest) rest :=
  ⟨[t], rfl, by simpa using ht⟩

theorem Numbers.trans (h : Numbers ns ts mid) (h' : Numbers ms mid rest) :
    Numbers (ns ++ ms) ts rest := by
  obtain ⟨used, rfl, rfl⟩ := h
  obtain ⟨used', rfl, rfl⟩ := h'
  exact ⟨used ++ used', (List.append_assoc ..).symm, List.filter_append ..⟩

theorem Numberless.andThen (h : Numberless ts mid) (h' : Numbers ns mid rest) :
    Numbers ns ts rest := h.trans h'

theorem Numbers.andThen (h : Numbers ns ts mid) (h' : Numberless mid rest) :
    Numbers ns ts rest := by
  have := h.trans h'
  rwa [List.append_nil] at this

-- ---------------------------------------------------------------------------
-- Layout
-- ---------------------------------------------------------------------------

theorem Spaces.numberless (h : Spaces ts rest) : Numberless ts rest := by
  obtain ⟨spaces, hs, rfl⟩ := h
  exact ⟨spaces, rfl, List.filter_eq_nil_iff.mpr fun t ht => by simp [hs t ht]⟩

theorem Separator.numberless (h : Separator ts rest) : Numberless ts rest := by
  obtain ⟨t, more, ht, rfl, spaces⟩ := h
  exact (Numberless.one (by simp [ht])).andThen spaces.numberless

theorem Indentation.numberless : Indentation ts rest → Numberless ts rest
  | ⟨spaces, _, hs, h⟩ => Spaces.numberless ⟨spaces, hs, h⟩

theorem LineEnd.numberless (h : LineEnd ts rest) : Numberless ts rest := by
  obtain ⟨t, ht, spaces⟩ := h
  refine spaces.numberless.andThen (Numberless.one fun hn => ?_)
  rw [hn] at ht
  cases ht

theorem DefinitionEnd.numberless (h : DefinitionEnd ts rest) : Numberless ts rest := by
  cases h with
  | line h => exact h.numberless
  | input spaces _ => exact spaces.numberless

theorem BlankLines.numberless (h : BlankLines ts rest) : Numberless ts rest := by
  induction h with
  | none => exact .refl _
  | more line _ ih => exact line.numberless.andThen ih

theorem BodyStart.numberless (h : BodyStart ts rest) : Numberless ts rest := by
  obtain ⟨t, mid, spaces, ht, line⟩ := h
  exact spaces.numberless.andThen ((Numberless.one (by simp [ht])).andThen line.numberless)

section
variable {close : Mark} {item line : Rule α} {as : List α} {shown : α → List Token}

theorem Items.numberless (h : Items close item ts as rest)
    (hitem : ∀ a ∈ as, ∀ ts rest, item ts a rest → Numberless ts rest) : Numberless ts rest := by
  induction h with
  | last first ht => exact (hitem _ (by simp) _ _ first).andThen (Numberless.one (by simp [ht]))
  | more first ht spaces _ ih =>
    have others := ih fun a ha => hitem a (by simp [ha])
    exact (hitem _ (by simp) _ _ first).andThen
      ((Numberless.one (by simp [ht])).andThen (spaces.numberless.andThen others))

theorem Body.numbers (h : Body line ts as rest)
    (hline : ∀ ts a rest, line ts a rest → Numbers (shown a) ts rest) :
    Numbers (as.flatMap shown) ts rest := by
  induction h with
  | close blank ht => exact blank.numberless.andThen (Numberless.one (by simp [ht]))
  | line blank indent content lineEnd _ ih =>
    have inside := (hline _ _ _ content).andThen lineEnd.numberless
    exact blank.numberless.andThen (indent.numberless.andThen (inside.trans ih))

theorem Block.numbers (h : Block line ts as rest)
    (hline : ∀ ts a rest, line ts a rest → Numbers (shown a) ts rest) :
    Numbers (as.flatMap shown) ts rest := by
  obtain ⟨start, body, ending⟩ := h
  exact start.numberless.andThen ((body.numbers hline).andThen ending.numberless)

theorem Block.numberless (h : Block line ts as rest)
    (hline : ∀ ts a rest, line ts a rest → Numberless ts rest) : Numberless ts rest := by
  have none : Numbers (as.flatMap fun _ => []) ts rest := h.numbers hline
  rwa [List.flatMap_eq_nil_iff.mpr fun _ _ => rfl] at none

end

-- ---------------------------------------------------------------------------
-- Types and members
-- ---------------------------------------------------------------------------

theorem Name.numberless (h : Name ts t rest) : Numberless ts rest := by
  obtain ⟨ht⟩ := h
  exact .one (by simp [ht])

theorem Head.numberless {q : Option Token} {n : Token} (h : Head ts q n rest) :
    Numberless ts rest := by
  cases h with
  | bare hn => exact .one (by simp [hn])
  | qualified hq hdot hn =>
    exact (Numberless.one (by simp [hq])).andThen
      ((Numberless.one (by simp [hdot])).andThen (Numberless.one (by simp [hn])))

theorem Reference.numberless {r : ReferenceSyntax} :
    ∀ {ts rest : List Token}, Reference ts r rest → Numberless ts rest := by
  induction r using ReferenceSyntax.induction with
  | step q n arguments ih =>
    intro ts rest h
    cases h with
    | plain head => exact head.numberless
    | applied head ht items =>
      have items := items.numberless fun a ha ts rest h => ih a ha h
      exact head.numberless.andThen ((Numberless.one (by simp [ht])).andThen items)

theorem TypeExpr.numbers {type : TypeSyntax} (h : TypeExpr ts type rest) :
    Numbers type.sizes ts rest := by
  induction h with
  | literal ht => exact Numberless.one (by simp [ht])
  | reference h => exact h.numberless
  | slice hl hr _ ih =>
    exact (Numberless.one (by simp [hl])).andThen ((Numberless.one (by simp [hr])).andThen ih)
  | array hl hsize hr _ ih =>
    exact (Numberless.one (by simp [hl])).andThen ((Numbers.number hsize).trans
      ((Numberless.one (by simp [hr])).andThen ih))
  | pointer ht _ ih | optional ht _ ih => exact (Numberless.one (by simp [ht])).andThen ih

theorem Field.numbers {f : Token × TypeSyntax} (h : Field ts f rest) :
    Numbers f.2.sizes ts rest := by
  obtain ⟨hn, hcolon, spaces, type⟩ := h
  exact (Numberless.one (by simp [hn])).andThen ((Numberless.one (by simp [hcolon])).andThen
    (spaces.numberless.andThen type.numbers))

theorem Tagged.numbers {inner : Rule α} {shown : α → List Token} {m : Token × Option α}
    (h : Tagged inner ts m rest)
    (hi : ∀ ts a rest, inner ts a rest → Numbers (shown a) ts rest) :
    Numbers (m.2.elim [] shown) ts rest := by
  cases h with
  | bare hn => exact Numberless.one (by simp [hn])
  | colon hn hcolon spaces content =>
    exact (Numberless.one (by simp [hn])).andThen ((Numberless.one (by simp [hcolon])).andThen
      (spaces.numberless.andThen (hi _ _ _ content)))

theorem Tagged.numberless {inner : Rule α} {m : Token × Option α} (h : Tagged inner ts m rest)
    (hi : ∀ ts a rest, inner ts a rest → Numberless ts rest) : Numberless ts rest := by
  have none : Numbers (m.2.elim [] fun _ => []) ts rest := h.numbers hi
  obtain ⟨n, inside⟩ := m
  cases inside <;> exact none

theorem assigned_numberless {equals : Token} (before : Spaces ts (equals :: mid))
    (hequals : equals.kind = .mark .equals) (after : Spaces mid rest) : Numberless ts rest :=
  before.numberless.andThen ((Numberless.one (by simp [hequals])).andThen after.numberless)

theorem Item.numbers {i : Token × Token} (h : Item ts i rest) :
    Numbers (if i.2.kind = .natural then [i.2] else []) ts rest := by
  obtain ⟨htag, before, hequals, after, hvalue⟩ := h
  refine (Numberless.one (by rcases htag with htag | htag <;> simp [htag])).andThen
    ((assigned_numberless before hequals after).andThen ?_)
  rcases hvalue with hvalue | hvalue
  · simpa [hvalue] using Numberless.one (by simp [hvalue])
  · simpa [hvalue] using Numbers.number hvalue

-- ---------------------------------------------------------------------------
-- Definitions
-- ---------------------------------------------------------------------------

theorem Keyword.numberless {word : String} (h : Keyword word t) : Numberless (t :: rest) rest :=
  .one (by simp [h.1])

theorem SpacedOption.numberless {o : OptionSyntax} (h : SpacedOption ts o rest) :
    Numberless ts rest := by
  obtain ⟨option, spaces⟩ := h
  refine Numberless.andThen ?_ spaces.numberless
  cases option with
  | tag word before hequals after hfield =>
    exact word.numberless.andThen ((assigned_numberless before hequals after).andThen
      (Numberless.one (by simp [hfield])))
  | embedded word => exact word.numberless

theorem UnionOptions.numberless {os : List OptionSyntax} (h : UnionOptions ts os rest) :
    Numberless ts rest := by
  cases h with
  | none => exact .refl _
  | list ht spaces items =>
    exact (Numberless.one (by simp [ht])).andThen (spaces.numberless.andThen
      (items.numberless fun _ _ _ _ h => h.numberless))

theorem Parameters.numberless {names : List Token} (h : Parameters ts names rest) :
    Numberless ts rest := by
  cases h with
  | none => exact .refl _
  | list ht items =>
    exact (Numberless.one (by simp [ht])).andThen (items.numberless fun _ _ _ _ h => h.numberless)

theorem Qualifier.numberless {q : Option Token} (h : Qualifier ts q rest) :
    Numberless ts rest := by
  cases h with
  | none => exact .refl _
  | mk before hequals after hq =>
    exact (assigned_numberless before hequals after).andThen (Numberless.one (by simp [hq]))

theorem Heading.numberless {n : Token} (h : Heading ts n rest) : Numberless ts rest := by
  obtain ⟨separator, hn⟩ := h
  exact separator.numberless.andThen (Numberless.one (by simp [hn]))

/-- The numbers among the tokens of a definition are those of its tree. -/
theorem Definition.numbers {tree : DefinitionSyntax} (h : Definition ts tree rest) :
    Numbers tree.numbers ts rest := by
  cases h with
  | struct word heading parameters block =>
    exact word.numberless.andThen (heading.numberless.andThen (parameters.numberless.andThen
      (block.numbers fun _ _ _ h => h.numbers)))
  | union word options _ heading parameters block =>
    exact word.numberless.andThen (options.numberless.andThen (heading.numberless.andThen
      (parameters.numberless.andThen (block.numbers fun _ _ _ h =>
        h.numbers fun _ _ _ h => h.numbers))))
  | embedded word options _ heading parameters block =>
    exact word.numberless.andThen (options.numberless.andThen (heading.numberless.andThen
      (parameters.numberless.andThen (block.numberless fun _ _ _ h =>
        h.numberless fun _ _ _ h => h.numberless))))
  | enum word heading block =>
    exact word.numberless.andThen (heading.numberless.andThen
      (block.numbers fun _ _ _ h => h.numbers))
  | untagged word before word' heading block =>
    exact word.numberless.andThen (before.numberless.andThen (word'.numberless.andThen
      (heading.numberless.andThen (block.numberless fun _ _ _ h => h.numberless))))
  | imports word before hmodule qualifier ending =>
    exact word.numberless.andThen (before.numberless.andThen
      ((Numberless.one (by simp [hmodule])).andThen
        (qualifier.numberless.andThen ending.numberless)))

end Grammar

end TypeSchema
