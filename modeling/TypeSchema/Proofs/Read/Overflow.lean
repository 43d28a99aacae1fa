import TypeSchema.Proofs.Read.Outcome
import TypeSchema.Read.Definition

/-!
# Where a number would be taken

Two readings of the same, where in one an invalid token stands in the place of a number, go the same
way up to that place. If the one with the number takes it, the other stops there and faults: it
expects what an array size or the value of an enum may be, and tells the invalid token. The readings
are gone through once, side by side.
-/

namespace TypeSchema.Read

variable {α β σ : Type}

/-- Where lists of tokens part: an invalid token on the one side, a number on the other, and anything
behind them. -/
structure Fork where
  invalid : Token
  number : Token
  invalidRest : List Token
  numberRest : List Token
  invalid_kind : invalid.kind = .invalid
  number_kind : number.kind = .natural

/-- What is expected where a number may come: the size of an array, or the value of an enum. -/
def numberKinds : List (List Token.Kind) := [[.natural], [.text, .natural]]

namespace Fork

variable {k : Fork} {c c' d d' : Cursor}

/-- Up to the fork the same tokens lie ahead. -/
def Ahead (k : Fork) (c c' : Cursor) : Prop :=
  ∃ before, c.tokens = before ++ k.invalid :: k.invalidRest ∧
    c'.tokens = before ++ k.number :: k.numberRest

theorem Ahead.lt (h : k.Ahead c c') : k.numberRest.length < c'.tokens.length := by
  obtain ⟨before, -, h⟩ := h
  rw [h, List.length_append, List.length_cons]
  omega

theorem Ahead.peek (h : k.Ahead c c') : c.peek = k.invalid ∧ c'.peek = k.number ∨
    c.peek = c'.peek ∧ k.Ahead c.next c'.next := by
  obtain ⟨before, hc, hc'⟩ := id h
  cases before with
  | nil => exact .inl ⟨Cursor.peek_of_tokens hc, Cursor.peek_of_tokens hc'⟩
  | cons t before =>
    have peek := Cursor.peek_of_tokens hc
    have peek' := Cursor.peek_of_tokens hc'
    refine .inr ⟨peek.trans peek'.symm, ?_⟩
    by_cases ht : t.kind = .endOfInput
    · rwa [Cursor.next_of_atEnd (peek ▸ ht), Cursor.next_of_atEnd (peek' ▸ ht)]
    · exact ⟨before, Cursor.tokens_next hc ht, Cursor.tokens_next hc' ht⟩

theorem Ahead.check (h : k.Ahead c c') {kind : Token.Kind}
    (hk : kind ≠ .invalid ∧ kind ≠ .natural) : c.check kind = c'.check kind := by
  rcases h.peek with ⟨hp, hp'⟩ | ⟨same, -⟩
  · simp [Cursor.check, hp, hp', k.invalid_kind, k.number_kind, hk.1.symm, hk.2.symm]
  · rw [Cursor.check, Cursor.check, same]

theorem Ahead.remaining_lt_iff (h : k.Ahead c c') (h' : k.Ahead d d') :
    d.remaining < c.remaining ↔ d'.remaining < c'.remaining := by
  obtain ⟨before, hc, hc'⟩ := h
  obtain ⟨after, hd, hd'⟩ := h'
  have := c.length_tokens
  have := c'.length_tokens
  have := d.length_tokens
  have := d'.length_tokens
  simp only [hc, hc', hd, hd', List.length_append, List.length_cons] at *
  omega

theorem dropWhile_append_cons (p : Token → Bool) (before rest : List Token) {t : Token}
    (ht : p t = false) :
    (before ++ t :: rest).dropWhile p = before.dropWhile p ++ t :: rest := by
  rw [List.dropWhile_append]
  split
  next he => rw [List.dropWhile_cons_of_neg (by simp [ht]), List.isEmpty_iff.mp he, List.nil_append]
  next => rfl

theorem Ahead.skipSpaces (h : k.Ahead c c') :
    k.Ahead (c.advance (c.run .space)) (c'.advance (c'.run .space)) := by
  obtain ⟨before, hc, hc'⟩ := h
  refine ⟨before.dropWhile (·.kind = .space), ?_, ?_⟩
  · rw [Cursor.tokens_advance_run (by decide), hc,
      dropWhile_append_cons _ _ _ (by simp [k.invalid_kind])]
  · rw [Cursor.tokens_advance_run (by decide), hc',
      dropWhile_append_cons _ _ _ (by simp [k.number_kind])]

theorem blankRun_before {t u : Token} (ht : Cursor.IsContent t.kind) (hu : Cursor.IsContent u.kind)
    (ts us before : List Token) (n : Nat) :
    Cursor.blankRun n (before ++ t :: ts) = Cursor.blankRun n (before ++ u :: us) ∧
      Cursor.blankRun n (before ++ t :: ts) ≤ n + before.length := by
  induction before generalizing n with
  | nil => simp [Cursor.blankRun_content ht, Cursor.blankRun_content hu]
  | cons v before ih =>
    obtain ⟨same, le⟩ := ih (n + 1)
    obtain ⟨same', le'⟩ := ih 0
    simp only [List.cons_append, Cursor.blankRun, List.length_cons]
    split
    · exact ⟨same, by omega⟩
    · split
      · exact ⟨by rw [same'], by omega⟩
      · split <;> exact ⟨rfl, by omega⟩

theorem Ahead.skipBlankLines (h : k.Ahead c c') : k.Ahead c.skipBlankLines c'.skipBlankLines := by
  obtain ⟨before, hc, hc'⟩ := h
  have content {t : Token} (ht : t.kind = .invalid ∨ t.kind = .natural) :
      Cursor.IsContent t.kind :=
    ht.elim (Cursor.content_of_kind · rfl) (Cursor.content_of_kind · rfl)
  obtain ⟨same, le⟩ := blankRun_before (content (.inl k.invalid_kind))
    (content (.inr k.number_kind)) k.invalidRest k.numberRest before 0
  rw [Nat.zero_add] at le
  refine ⟨before.drop (Cursor.blankRun 0 (before ++ k.invalid :: k.invalidRest)), ?_, ?_⟩
  · rw [Cursor.tokens_skipBlankLines, hc, List.drop_append_of_le_length le]
  · rw [Cursor.tokens_skipBlankLines, hc', ← same, List.drop_append_of_le_length le]

-- ---------------------------------------------------------------------------
-- Two readings
-- ---------------------------------------------------------------------------

/-- What two readings come to, one on each side of the fork. -/
inductive Outcome (k : Fork) :
    EStateM.Result Fault Cursor α → EStateM.Result Fault Cursor α → Prop
  /-- neither has come past the fork -/
  | before {a d d'} : k.Ahead d d' → Outcome k (.ok a d) (.ok a d')
  /-- the number was not taken, and never will -/
  | stopped {result f d'} : k.numberRest.length < d'.tokens.length →
      Outcome k result (.error f d')
  /-- the number may be taken, but the invalid token is not -/
  | refused {kinds d result} : kinds ∈ numberKinds →
      Outcome k (.error (.unexpected kinds k.invalid) d) result

/-- From before the fork, the readings come to such an outcome. -/
def Meets (k : Fork) (x x' : Read α) : Prop := ∀ c c', k.Ahead c c' → k.Outcome (x c) (x' c')

theorem Outcome.bind {x x' : Read α} {f f' : α → Read β} (hx : k.Outcome (x c) (x' c'))
    (hf : ∀ a, k.Meets (f a) (f' a)) : k.Outcome ((x >>= f) c) ((x' >>= f') c') := by
  show k.Outcome (EStateM.bind x f c) (EStateM.bind x' f' c')
  unfold EStateM.bind
  generalize x c = result at hx
  generalize x' c' = result' at hx
  cases hx with
  | before h => exact hf _ _ _ h
  | stopped h => exact .stopped h
  | refused h => exact .refused h

theorem Meets.bind {x x' : Read α} {f f' : α → Read β} (hx : k.Meets x x')
    (hf : ∀ a, k.Meets (f a) (f' a)) : k.Meets (x >>= f) (x' >>= f') :=
  fun c c' h => (hx c c' h).bind hf

end Fork

variable {k : Fork}

theorem pure_meets (a : α) : k.Meets (pure a : Read α) (pure a) := fun _ _ h => .before h

theorem Fork.Meets.map {x x' : Read α} (f : α → β) (hx : k.Meets x x') :
    k.Meets (f <$> x) (f <$> x') := by
  rw [map_eq_pure_bind, map_eq_pure_bind]
  exact hx.bind fun _ => pure_meets _

theorem throw_meets (f : Fault) : k.Meets (throw f : Read α) (throw f) :=
  fun _ _ h => .stopped h.lt

theorem ite_meets {p : Prop} [Decidable p] {x x' y y' : Read α} (hx : k.Meets x x')
    (hy : k.Meets y y') : k.Meets (if p then x else y) (if p then x' else y') := by
  split
  · exact hx
  · exact hy

theorem ofExcept_meets (x : Except Fault α) : k.Meets (ofExcept x) (ofExcept x) := by
  cases x with
  | ok a => exact pure_meets a
  | error f => exact throw_meets f

theorem atEnd_meets : k.Meets atEnd atEnd := by
  intro c c' h
  have same : c.atEnd = c'.atEnd := h.check (by decide)
  rw [atEnd, atEnd, same]
  exact .before h

theorem takeMark_meets (mark : Mark) : k.Meets (takeMark mark) (takeMark mark) := by
  intro c c' h
  rw [takeMark_ok.mpr ⟨rfl, rfl⟩, takeMark_ok.mpr ⟨rfl, rfl⟩, h.check (by simp)]
  refine .before ?_
  split
  next hmark =>
    rcases h.peek with ⟨-, hp'⟩ | ⟨-, hnext⟩
    · simp [Cursor.check, hp', k.number_kind] at hmark
    · exact hnext
  next => exact h

theorem expectOneOf_meets {kinds : List Token.Kind} (hk : .invalid ∉ kinds ∧ .natural ∉ kinds) :
    k.Meets (expectOneOf kinds) (expectOneOf kinds) := by
  intro c c' h
  have stops (hp : c'.peek.kind ∉ kinds) :
      k.Outcome (expectOneOf kinds c) (expectOneOf kinds c') := by
    rw [expectOneOf, expectOneOf, if_neg hp]
    exact .stopped h.lt
  rcases h.peek with ⟨-, hp'⟩ | ⟨same, hnext⟩
  · exact stops (by simpa [hp', k.number_kind] using hk.2)
  · by_cases hp : c'.peek.kind ∈ kinds
    · rw [expectOneOf, expectOneOf, same, if_pos hp, if_pos hp, next, next,
        same]
      exact .before hnext
    · exact stops hp

theorem expect_meets {kind : Token.Kind} (hk : kind ≠ .invalid ∧ kind ≠ .natural) :
    k.Meets (expect kind) (expect kind) :=
  expectOneOf_meets (by simpa using ⟨hk.1.symm, hk.2.symm⟩)

theorem expectNatural_meets : k.Meets (expect .natural) (expect .natural) := by
  intro c c' h
  rcases h.peek with ⟨hp, -⟩ | ⟨same, hnext⟩
  · have refuses : expect .natural c = .error (.unexpected [.natural] k.invalid) c := by
      rw [expect, expectOneOf, if_neg (by simp [hp, k.invalid_kind]), unexpected, hp]
    rw [refuses]
    exact .refused (by simp [numberKinds])
  · by_cases hp : c'.peek.kind ∈ [Token.Kind.natural]
    · rw [expect, expectOneOf, expectOneOf, same, if_pos hp, if_pos hp, next,
        next, same]
      exact .before hnext
    · rw [expect, expectOneOf, expectOneOf, if_neg hp]
      exact .stopped h.lt

theorem fix_meets {f f' : (σ → Read α) → σ → Read α}
    (step : ∀ again again', (∀ s, k.Meets (again s) (again' s)) →
      ∀ s, k.Meets (f again s) (f' again' s)) (s : σ) : k.Meets (fix f s) (fix f' s) := by
  intro c c' h
  induction hn : c.remaining using Nat.strongRecOn generalizing s c c' with
  | _ n ih =>
    rw [fix_eq, fix_eq]
    refine step _ _ (fun s d d' hd => ?_) s c c' h
    -- both sides are as far on as each other, so the same calls are let through
    rw [guarded, guarded]
    by_cases hlt : d.remaining < c.remaining
    · rw [if_pos hlt, if_pos ((h.remaining_lt_iff hd).mp hlt)]
      exact ih _ (hn ▸ hlt) s d d' hd rfl
    · rw [if_neg (mt (h.remaining_lt_iff hd).mpr hlt)]
      exact .stopped hd.lt

theorem recursive_meets {f f' : Read α → Read α}
    (step : ∀ again again', k.Meets again again' → k.Meets (f again) (f' again')) :
    k.Meets (recursive f) (recursive f') :=
  fix_meets (fun again again' ih _ => step (again ()) (again' ()) (ih ())) ()

theorem peek_meets {f f' : Token → Read α}
    (fork : ∀ c c', c.peek = k.invalid → c'.peek = k.number → k.Ahead c c' →
      k.Outcome (f k.invalid c) (f' k.number c'))
    (same : ∀ c c', c'.peek = c.peek → k.Ahead c c' → k.Ahead c.next c'.next →
      k.Outcome (f c.peek c) (f' c.peek c')) : k.Meets (peek >>= f) (peek >>= f') := by
  intro c c' h
  show k.Outcome (f c.peek c) (f' c'.peek c')
  rcases h.peek with ⟨hp, hp'⟩ | ⟨hp, hnext⟩
  · rw [hp, hp']
    exact fork c c' hp hp' h
  · rw [← hp]
    exact same c c' hp.symm h hnext

-- ---------------------------------------------------------------------------
-- Layout
-- ---------------------------------------------------------------------------

theorem skipSpaces_meets : k.Meets skipSpaces skipSpaces :=
  fun _ _ h => (.before h.skipSpaces : k.Outcome (.ok () _) (.ok () _))

theorem skipBlankLines_meets : k.Meets skipBlankLines skipBlankLines :=
  fun _ _ h => .before h.skipBlankLines

theorem skipMany_meets {kind : Token.Kind} (hk : kind ≠ .invalid ∧ kind ≠ .natural) :
    ∀ n, k.Meets (skipMany kind n) (skipMany kind n)
  | 0 => pure_meets ()
  | n + 1 => (expect_meets hk).bind fun _ => ite_meets (pure_meets ()) (skipMany_meets hk n)

theorem separator_meets : k.Meets separator separator :=
  (expect_meets (by decide)).bind fun _ => skipSpaces_meets

theorem lineEnd_meets : k.Meets lineEnd lineEnd :=
  skipSpaces_meets.bind fun _ => (expectOneOf_meets (by decide)).bind fun _ => pure_meets ()

theorem definitionEnd_meets : k.Meets definitionEnd definitionEnd :=
  skipSpaces_meets.bind fun _ => (expectOneOf_meets (by decide)).bind fun _ => pure_meets ()

theorem bodyStart_meets : k.Meets bodyStart bodyStart :=
  skipSpaces_meets.bind fun _ => (expect_meets (by decide)).bind fun _ => lineEnd_meets

theorem body_meets {member : Array α → Read α}
    (h : ∀ members, k.Meets (member members) (member members)) :
    k.Meets (body member) (body member) := by
  refine fix_meets (fun again again' ih members => ?_) _
  refine (skipBlankLines_meets.bind fun _ => takeMark_meets _).bind fun _ =>
    ite_meets (pure_meets _) ?_
  exact (skipMany_meets (by decide) _).bind fun _ => (h members).bind fun m =>
    lineEnd_meets.bind fun _ => ih (members.push m)

theorem items_meets {close : Mark} {item item' : Array α → Read α}
    (h : ∀ is, k.Meets (item is) (item' is)) : k.Meets (items close item) (items close item') := by
  refine fix_meets (fun again again' ih is => ?_) _
  exact (h is).bind fun i => (expectOneOf_meets (by simp)).bind fun _ =>
    ite_meets (pure_meets _) (skipSpaces_meets.bind fun _ => ih (is.push i))

theorem afterColon?_meets {inner : Read α} (h : k.Meets inner inner) :
    k.Meets (afterColon? inner) (afterColon? inner) :=
  (takeMark_meets _).bind fun _ =>
    ite_meets (skipSpaces_meets.bind fun _ => h.bind fun _ => pure_meets _) (pure_meets _)

-- ---------------------------------------------------------------------------
-- Types
-- ---------------------------------------------------------------------------

theorem referenceHead_meets (scope : Scope) :
    k.Meets (referenceHead scope) (referenceHead scope) := by
  refine (expectOneOf_meets (by decide)).bind fun _ => ite_meets ?_ (ofExcept_meets _)
  exact (expect_meets (by decide)).bind fun _ => (expect_meets (by decide)).bind fun _ =>
    ofExcept_meets _

theorem reference_meets (scope : Scope) : k.Meets (reference scope) (reference scope) := by
  refine recursive_meets fun again again' ih => ?_
  refine (referenceHead_meets scope).bind fun _ => (takeMark_meets _).bind fun _ =>
    ite_meets ?_ (pure_meets _)
  exact (items_meets fun _ => ih.map _).bind fun _ => pure_meets _

theorem arraySize_meets : k.Meets arraySize arraySize := by
  refine expectNatural_meets.bind fun size => ?_
  cases Natural.word? size.text.toList with
  | some n => exact pure_meets n
  | none => exact throw_meets _

theorem typeExpr_meets (scope : Scope) : k.Meets (typeExpr scope) (typeExpr scope) := by
  refine recursive_meets fun again again' ih => peek_meets ?_ ?_
  · intro c c' _ hp' h
    rw [k.number_kind]
    exact .stopped h.lt
  · intro c c' same h hnext
    have first {f f' : Token → Read TypeExpr} (hf : ∀ t, k.Meets (f t) (f' t)) :
        k.Outcome ((next >>= f) c) ((next >>= f') c') := by
      refine Fork.Outcome.bind ?_ hf
      rw [next, next, same]
      exact .before hnext
    generalize c.peek.kind = kind
    split
    · exact first fun _ => pure_meets _
    · exact ((reference_meets scope).bind fun _ => pure_meets _) c c' h
    · exact ((reference_meets scope).bind fun _ => pure_meets _) c c' h
    · refine first fun _ => (takeMark_meets _).bind fun _ => ite_meets ?_ ?_
      · exact ih.bind fun _ => pure_meets _
      · exact arraySize_meets.bind fun _ => (expect_meets (by decide)).bind fun _ =>
          ih.bind fun _ => pure_meets _
    · exact first fun _ => ih.bind fun _ => pure_meets _
    · exact first fun _ => ih.bind fun _ => pure_meets _
    · exact .stopped h.lt

-- ---------------------------------------------------------------------------
-- Definitions
-- ---------------------------------------------------------------------------

theorem freshName_meets (ctx : Context) (keyword : Location) :
    k.Meets (freshName ctx keyword) (freshName ctx keyword) :=
  separator_meets.bind fun _ => (expect_meets (by decide)).bind fun _ =>
    (ofExcept_meets _).bind fun _ => pure_meets _

theorem freshMember_meets (x : String) (members : Array (Token × α)) (name : Token) :
    k.Meets (freshMember x members name) (freshMember x members name) := by
  unfold freshMember
  split
  · exact throw_meets _
  · exact pure_meets ()

theorem parameters_meets : k.Meets parameters parameters := by
  refine (takeMark_meets _).bind fun _ => ite_meets (items_meets fun _ => ?_) (pure_meets _)
  exact (expect_meets (by decide)).bind fun _ =>
    ite_meets ((throw_meets _).bind fun _ => pure_meets _) (pure_meets _)

theorem fieldEntry_meets (scope : Scope) (earlier : Array (Token × TypeExpr)) :
    k.Meets (fieldEntry scope earlier) (fieldEntry scope earlier) :=
  (expect_meets (by decide)).bind fun _ => (freshMember_meets _ _ _).bind fun _ =>
    (expect_meets (by decide)).bind fun _ => skipSpaces_meets.bind fun _ =>
      (typeExpr_meets scope).bind fun _ => pure_meets _

theorem struct_meets (ctx : Context) (keyword : Location) :
    k.Meets (struct ctx keyword) (struct ctx keyword) :=
  (freshName_meets ctx keyword).bind fun _ => parameters_meets.bind fun _ =>
    bodyStart_meets.bind fun _ => (body_meets (fieldEntry_meets _)).bind fun _ =>
      definitionEnd_meets.bind fun _ => pure_meets _

theorem unionOption_meets : k.Meets unionOption unionOption := by
  refine (expect_meets (by decide)).bind fun option => ?_
  split
  · exact skipSpaces_meets.bind fun _ => (expect_meets (by decide)).bind fun _ =>
      skipSpaces_meets.bind fun _ => (expect_meets (by decide)).bind fun _ => pure_meets _
  · exact pure_meets _
  · exact throw_meets _

theorem unionOptions_meets : k.Meets unionOptions unionOptions := by
  refine (takeMark_meets _).bind fun _ => ite_meets ?_ (pure_meets _)
  exact skipSpaces_meets.bind fun _ => items_meets fun _ =>
    unionOption_meets.bind fun _ => skipSpaces_meets.bind fun _ => pure_meets _

theorem constructorEntry_meets (scope : Scope) (earlier : Array (Token × TypeExpr)) :
    k.Meets (constructorEntry scope earlier) (constructorEntry scope earlier) :=
  (expect_meets (by decide)).bind fun _ => (freshMember_meets _ _ _).bind fun _ =>
    (afterColon?_meets (typeExpr_meets scope)).bind fun _ => pure_meets _

theorem variantEntry_meets (ctx : Context) (x field : String)
    (earlier : Array (Token × Option Struct)) :
    k.Meets (variantEntry ctx x field earlier) (variantEntry ctx x field earlier) := by
  refine (expect_meets (by decide)).bind fun _ => (freshMember_meets _ _ _).bind fun _ => ?_
  refine (afterColon?_meets ?_).bind fun _ => pure_meets _
  exact (expect_meets (by decide)).bind fun _ => ofExcept_meets _

theorem union_meets (ctx : Context) (keyword : Location) :
    k.Meets (union ctx keyword) (union ctx keyword) := by
  refine unionOptions_meets.bind fun _ => (freshName_meets ctx keyword).bind fun _ =>
    parameters_meets.bind fun _ => bodyStart_meets.bind fun _ => Fork.Meets.bind ?_ fun _ =>
      definitionEnd_meets.bind fun _ => pure_meets _
  refine ite_meets ?_ ?_
  · exact (body_meets (variantEntry_meets _ _ _)).bind fun _ => pure_meets _
  · exact (body_meets (constructorEntry_meets _)).bind fun _ => pure_meets _

theorem enumValue_meets : k.Meets enumValue enumValue := by
  refine peek_meets ?_ ?_
  · intro c c' hp _ _
    rw [k.invalid_kind]
    show k.Outcome (unexpected _ c) _
    rw [unexpected, hp]
    exact .refused (by simp [numberKinds])
  · intro c c' same h hnext
    have first {f : Token → Read Enum.Value} (hf : ∀ t, k.Meets (f t) (f t)) :
        k.Outcome ((next >>= f) c) ((next >>= f) c') := by
      refine Fork.Outcome.bind ?_ hf
      rw [next, next, same]
      exact .before hnext
    generalize c.peek.kind = kind
    split
    · exact first fun _ => pure_meets _
    · cases Natural.word? c.peek.text.toList with
      | some n => exact first fun _ => pure_meets _
      | none => exact .stopped h.lt
    · exact .stopped h.lt

theorem itemEntry_meets (x : String) (earlier : Array (Token × Enum.Value)) :
    k.Meets (itemEntry x earlier) (itemEntry x earlier) :=
  (expectOneOf_meets (by decide)).bind fun _ => (freshMember_meets _ _ _).bind fun _ =>
    skipSpaces_meets.bind fun _ => (expect_meets (by decide)).bind fun _ =>
      skipSpaces_meets.bind fun _ => enumValue_meets.bind fun _ => pure_meets _

theorem enum_meets (ctx : Context) (keyword : Location) :
    k.Meets (enum ctx keyword) (enum ctx keyword) :=
  (freshName_meets ctx keyword).bind fun _ => bodyStart_meets.bind fun _ =>
    (body_meets (itemEntry_meets _)).bind fun _ => definitionEnd_meets.bind fun _ => pure_meets _

theorem untaggedUnion_meets (ctx : Context) (keyword : Location) :
    k.Meets (untaggedUnion ctx keyword) (untaggedUnion ctx keyword) := by
  refine separator_meets.bind fun _ => (expect_meets (by decide)).bind fun _ => ?_
  have rest := (freshName_meets (k := k) ctx keyword).bind fun name =>
    bodyStart_meets.bind fun _ => (body_meets fun _ =>
      reference_meets { ctx with name, parameters := [] }).bind fun cases =>
        definitionEnd_meets.bind fun _ =>
          pure_meets (Definition.untagged ⟨⟨name, keyword⟩, cases⟩)
  exact ite_meets ((throw_meets _).bind fun _ => rest) rest

theorem importLine_meets (ctx : Context) (keyword : Location) :
    k.Meets (importLine ctx keyword) (importLine ctx keyword) := by
  refine separator_meets.bind fun _ => (expect_meets (by decide)).bind fun module => ?_
  refine Fork.Meets.bind ?_ fun _ => (ofExcept_meets _).bind fun _ => ite_meets ?_ ?_
  · exact skipSpaces_meets.bind fun _ => (takeMark_meets _).bind fun _ =>
      ite_meets (skipSpaces_meets.bind fun _ => expect_meets (by decide)) (pure_meets module)
  · exact (throw_meets _).bind fun _ => definitionEnd_meets.bind fun _ => pure_meets _
  · exact definitionEnd_meets.bind fun _ => pure_meets _

theorem definition?_meets (ctx : Context) : k.Meets (definition? ctx) (definition? ctx) := by
  refine skipBlankLines_meets.bind fun _ => atEnd_meets.bind fun _ =>
    ite_meets (pure_meets none) ((expect_meets (by decide)).bind fun keyword => ?_)
  split
  · exact (struct_meets ctx _).map some
  · exact (union_meets ctx _).map some
  · exact (enum_meets ctx _).map some
  · exact (untaggedUnion_meets ctx _).map some
  · exact (importLine_meets ctx _).map some
  · exact throw_meets _

end TypeSchema.Read
