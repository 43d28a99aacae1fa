import TypeSchema.Proofs.Grammar.Numbers
import TypeSchema.Proofs.Members
import TypeSchema.Proofs.Read.Overflow
import TypeSchema.Proofs.Reader.Faults
import TypeSchema.Proofs.References
import TypeSchema.Proofs.Token.Form

/-!
# Numbers are read exactly

A run of digits is one token, and a number exactly if it fits into 64 bits. So no reader comes upon
a number that it cannot read. The numbers in a definition that was accepted are those that stand in
its tokens, and a run that is too great, where a number would be taken, is what the fault tells.
-/

namespace TypeSchema

variable {text : String} {l : Library} {k : Known} {c : Cursor} {r after : Reader}

-- ---------------------------------------------------------------------------
-- Runs of digits
-- ---------------------------------------------------------------------------

namespace Token

variable {t : Token} {rest : List Token}

/-- The token is all the digits from its place on, of which there is at least one. -/
def IsDigitRun (t : Token) (rest : List Token) : Prop :=
  Longest IsDigits t.text.toList (chars (t :: rest))

theorem isDigitRun_of_scan (h : t :: rest <:+ scan text) {d : Char} {more : List Char}
    (ht : t.text.toList = d :: more) (hd : IsDecimal d) : IsDigitRun t rest ∧
      t.kind = if Natural.value t.text.toList < UInt64.size then .natural else .invalid := by
  have valid : t.kind ≠ .endOfInput := by
    intro hk
    have spelled := scan_spelled (h.subset List.mem_cons_self)
    rw [Spelled, hk, ht] at spelled
    cases spelled
  obtain ⟨form, begins, hkind⟩ := hasForm_of_scan h valid
  have whole : chars (t :: rest) = d :: (more ++ chars rest) := by rw [chars_cons, ht]; rfl
  have longest : Longest IsDigits (d :: (more ++ chars rest).takeWhile Char.isDigit)
      (d :: (more ++ chars rest)) := longest_run (fun _ => isDecimal_iff) hd _
  rw [whole] at begins
  obtain ⟨hlex, hchars⟩ := begins.lexeme
  rw [longest.lexeme_digits] at hlex hchars
  rw [IsDigitRun, whole, ← hchars]
  exact ⟨longest, hkind.trans hlex.symm⟩

theorem number_of_scan (h : t :: rest <:+ scan text) (ht : t.kind = .natural) :
    IsDigitRun t rest ∧ ∃ n, Natural.word? t.text.toList = some n := by
  have spelled := scan_spelled (h.subset List.mem_cons_self)
  rw [Spelled, ht] at spelled
  obtain ⟨n, hn⟩ := Option.isSome_iff_exists.mp spelled
  obtain ⟨hne, digits, -⟩ := Natural.word?_eq_some_iff.mp hn
  obtain ⟨d, more, htext⟩ := List.exists_cons_of_ne_nil hne
  have first : d.isDigit := by simp_all
  exact ⟨(isDigitRun_of_scan h htext (isDecimal_iff.mp first)).1, n, hn⟩

end Token

-- ---------------------------------------------------------------------------
-- Numbers that are read
-- ---------------------------------------------------------------------------

def TypeExpr.sizes : TypeExpr → List UInt64
  | .array size item => size :: item.sizes
  | .slice item | .pointer item | .optional item => item.sizes
  | .empty | .literal _ | .reference _ => []

def Enum.Value.numbers : Enum.Value → List UInt64
  | .number n => [n]
  | .string _ => []

/-- The sizes of arrays and the values that are numbers. Payloads belong to the definitions that they
are taken from. -/
def Definition.numbers : Definition → List UInt64
  | .struct s => s.fields.flatMap (·.type.sizes)
  | .union ⟨_, _, .tagged _ constructors⟩ => constructors.flatMap (·.type.sizes)
  | .enum e => e.items.flatMap (·.value.numbers)
  | .union ⟨_, _, .embedded ..⟩ | .untagged _ | .imports _ => []

/-- The numbers are those that the digits denote. -/
def Denotes (digits : List Token) (numbers : List UInt64) : Prop :=
  digits.map (fun t => Natural.value t.text.toList) = numbers.map UInt64.toNat

theorem Denotes.append {digits more : List Token} {numbers others : List UInt64}
    (h : Denotes digits numbers) (h' : Denotes more others) :
    Denotes (digits ++ more) (numbers ++ others) := by
  unfold Denotes at h h' ⊢
  rw [List.map_append, List.map_append, h, h']

theorem denotes_flatMap {α β : Type} {R : α → β → Prop} {f : α → List Token} {g : β → List UInt64}
    (h : ∀ a b, R a b → Denotes (f a) (g b)) {as : List α} {bs : List β}
    (hs : List.Forall₂ R as bs) : Denotes (as.flatMap f) (bs.flatMap g) := by
  induction hs with
  | nil => rfl
  | cons hab _ ih => exact (h _ _ hab).append ih

theorem Inside.TypeMeans.sizes {i : Inside} {t : TypeSyntax} {type : TypeExpr}
    (h : i.TypeMeans t type) : Denotes t.sizes type.sizes := by
  induction h with
  | literal _ | reference _ => rfl
  | @array size n _ _ hn _ ih =>
    have first : Denotes [size] [n] := congrArg (· :: []) hn
    exact first.append ih
  | slice _ ih | pointer _ ih | optional _ ih => exact ih

theorem Known.Means.numbers {tree : DefinitionSyntax} {d : Definition} (h : k.Means tree d) :
    Denotes tree.numbers d.numbers := by
  cases h with
  | struct _ _ _ _ hm =>
    refine denotes_flatMap (fun _ _ h => ?_) hm
    obtain ⟨type⟩ := h
    exact type.sizes
  | union _ _ _ _ hm =>
    refine denotes_flatMap (fun _ _ h => ?_) hm
    cases h with
    | bare => rfl
    | typed type => exact type.sizes
  | enum _ _ hm =>
    refine denotes_flatMap (fun _ _ h => ?_) hm
    obtain ⟨value⟩ := h
    cases value with
    | string hk _ => simp [Denotes, hk, Enum.Value.numbers]
    | number hk hn => simp [Denotes, hk, Enum.Value.numbers, hn]
  | embedded _ _ _ _ | untagged _ _ | imports _ _ => rfl

theorem Known.Means.payload_numbers {tree : DefinitionSyntax} {d : Definition} (h : k.Means tree d)
    {p : Struct} (hp : p ∈ d.payloads) : ∃ s, .struct s ∈ k.earlier ∧
      (Definition.struct p).numbers = (Definition.struct s).numbers := by
  unfold Definition.payloads at hp
  split at hp
  next heading field parameters variants =>
    obtain ⟨v, hv, hp⟩ := List.mem_filterMap.mp hp
    obtain ⟨s, hs, rfl⟩ := h.payload hv hp
    exact ⟨s, hs, rfl⟩
  next => cases hp

-- ---------------------------------------------------------------------------
-- Readings of one number
-- ---------------------------------------------------------------------------

theorem Cursor.number_ok (h : c.tokens <:+ Token.scan text) (hk : c.peek.kind = .natural) :
    ∃ n : UInt64, Natural.value c.peek.text.toList = n.toNat ∧
      Read.arraySize c = .ok n c.next ∧ Read.enumValue c = .ok (.number n) c.next := by
  rw [tokens_eq_cons (by simp [hk])] at h
  obtain ⟨-, n, hn⟩ := Token.number_of_scan h hk
  refine ⟨n, (Natural.word?_eq_some_iff.mp hn).2.2, ?_, ?_⟩
  · refine Read.bind_ok.mpr ⟨_, _, Read.expectOneOf_ok.mpr ⟨by simp [hk], rfl, rfl⟩, ?_⟩
    rw [hn]
    rfl
  · refine Read.bind_ok.mpr ⟨_, _, Read.peek_ok.mpr ⟨rfl, rfl⟩, ?_⟩
    rw [hk, hn]
    rfl

namespace Reader

-- ---------------------------------------------------------------------------
-- Where the numbers of a definition stand
-- ---------------------------------------------------------------------------

/-- Each accepted definition is what stands somewhere in the text, given those before it. -/
def Written (r : Reader) (text : String) (l : Library) : Prop :=
  ∀ i d, r.definitions[i]? = some d → ∃ before ts tree rest, Token.scan text = before ++ ts ∧
    Grammar.Definition ts tree rest ∧ Known.Means ⟨l, r.definitions.take i⟩ tree d

theorem Sound.written_next (h : r.Sound text l) (written : r.Written text l) :
    r.next.2.Written text l := by
  have step := h.within.step
  generalize hnext : r.next = result at step ⊢
  obtain ⟨outcome, after⟩ := result
  cases step with
  | fault _ | finished _ => exact written
  | @accepted d cursor context _ _ =>
    obtain ⟨mid, tree, blank, definition, means, within⟩ := next_some h.within hnext
    obtain ⟨before, inside⟩ := blank.suffix.trans h.within.tokens
    have hds : Reader.definitions ⟨context, cursor⟩ = r.definitions ++ [d] := within.definitions
    intro i e he
    rw [hds] at he ⊢
    rcases Nat.lt_or_ge i r.definitions.length with hi | hi
    · rw [List.getElem?_append_left hi] at he
      rw [List.take_append_of_le_length hi.le]
      exact written i e he
    · rw [List.getElem?_append_right hi, List.getElem?_singleton] at he
      split at he
      next hlast =>
        cases he
        rw [List.take_left' (by omega)]
        exact ⟨before, mid, tree, _, inside.symm, definition, means⟩
      next => cases he

theorem calls_written (text : String) (l : Library) (cs : List Call) :
    ((ofSource text l).calls cs).Written text l := by
  have keeps := calls_keep (P := fun r => r.Sound text l ∧ r.Written text l)
    (fun _ h => ⟨h.1.next, h.1.written_next h.2⟩)
    ⟨sound_ofSource text l, fun i d hd => by cases hd⟩ cs
  exact keeps.2

-- ---------------------------------------------------------------------------
-- Where a number would be taken
-- ---------------------------------------------------------------------------

/-- Behind these tokens the reader takes a number as the next token of a definition: with some number
there, and something behind that, the next call goes past the number. -/
def TakesNumber (r : Reader) (before : List Token) : Prop :=
  ∃ (other : Reader) (n : Token) (rest : List Token), other.context = r.context ∧
    other.cursor.tokens = before ++ n :: rest ∧ n.kind = .natural ∧
    other.next.2.cursor.tokens.length ≤ rest.length

theorem cursor_next (r : Reader) :
    r.next.2.cursor = Read.left (Read.definition? r.context r.cursor) := by
  unfold next
  split
  next h => rw [h]; rfl
  next h => rw [h]; rfl
  next h =>
    rw [h]
    simp only
    split <;> rfl

theorem takesNumber_of_definition (hk : k.Describes r.context)
    {before more mid rest : List Token} {n : Token} {tree : DefinitionSyntax} {d : Definition}
    (hc : c.tokens = before ++ n :: more) (hs : ∀ t ∈ c.tokens, t.Spelled)
    (blank : Grammar.BlankLines c.tokens mid) (definition : Grammar.Definition mid tree rest)
    (means : k.Means tree d) (hn : n.kind = .natural) (past : rest.length ≤ more.length) :
    r.TakesNumber before := by
  obtain ⟨e, he, hrest⟩ := Read.definition?_runs hk hs blank definition means c rfl
  refine ⟨⟨r.context, c⟩, n, more, rfl, hc, hn, ?_⟩
  rw [cursor_next, he]
  exact hrest.symm ▸ past

theorem next_of_takesNumber {before rest : List Token} {t : Token} (h : r.TakesNumber before)
    (hr : r.cursor.tokens = before ++ t :: rest) (ht : t.kind = .invalid) :
    ∃ expected ∈ Read.numberKinds, r.next.1 = .error (.unexpected expected t) := by
  obtain ⟨other, n, others, hcontext, hother, hn, past⟩ := h
  let fork : Read.Fork := ⟨t, n, rest, others, ht, hn⟩
  have outcome : fork.Outcome _ _ :=
    Read.definition?_meets r.context r.cursor other.cursor ⟨before, hr, hother⟩
  rw [cursor_next, hcontext] at past
  generalize hread : Read.definition? r.context r.cursor = result at outcome
  generalize Read.definition? r.context other.cursor = result' at outcome past
  cases outcome with
  | before ahead => exact (Nat.not_le.mpr ahead.lt past).elim
  | stopped ahead => exact (Nat.not_le.mpr ahead past).elim
  | refused hkinds =>
    refine ⟨_, hkinds, ?_⟩
    unfold next
    rw [hread]

/-- Whatever a reader was asked for before: every number of the text fits into 64 bits, so none is
refused for its digits, and the numbers in a definition that was accepted are those in its tokens. A
number is taken wherever the language has one; digits that are too great there are told by the
fault, all of them and at their place. -/
theorem calls_numbers (text : String) (l : Library) (cs : List Call) :
    let r := (ofSource text l).calls cs
    (∀ t rest, t :: rest <:+ Token.scan text → t.kind = .natural →
      t.IsDigitRun rest ∧ ∃ n, Natural.word? t.text.toList = some n) ∧
    (∀ c : Cursor, c.tokens <:+ Token.scan text → c.peek.kind = .natural → ∃ n : UInt64,
      Natural.value c.peek.text.toList = n.toNat ∧
        Read.arraySize c = .ok n c.next ∧ Read.enumValue c = .ok (.number n) c.next) ∧
    (∀ expected t, r.next.1 = .error (.unexpected expected t) → t.kind ∉ expected) ∧
    (∀ i d, r.definitions[i]? = some d → ∃ before span rest tree,
      Token.scan text = before ++ (span ++ rest) ∧ Grammar.Definition (span ++ rest) tree rest ∧
        Known.Means ⟨l, r.definitions.take i⟩ tree d ∧
        Denotes (span.filter (·.kind = .natural)) d.numbers ∧
        ∀ p ∈ d.payloads, ∃ s, .struct s ∈ r.definitions.take i ∧
          (Definition.struct p).numbers = (Definition.struct s).numbers) ∧
    (∀ (c : Cursor) before n more mid rest tree d, c.tokens = before ++ n :: more →
      (∀ t ∈ c.tokens, t.Spelled) → Grammar.BlankLines c.tokens mid →
      Grammar.Definition mid tree rest → Known.Means ⟨l, r.definitions⟩ tree d →
      n.kind = .natural → rest.length ≤ more.length → r.TakesNumber before) ∧
    ∀ before t rest, r.cursor.tokens = before ++ t :: rest →
      (∃ d more, t.text.toList = d :: more ∧ Token.IsDecimal d) →
      UInt64.size ≤ Natural.value t.text.toList → r.TakesNumber before →
      ∃ passed expected, Token.scan text = passed ++ t :: rest ∧ t.IsDigitRun rest ∧
        t.kind = .invalid ∧ t.location = Location.start.after (Token.chars passed) ∧
        expected ∈ Read.numberKinds ∧ r.next.1 = .error (.unexpected expected t) := by
  intro r
  have sound : r.Sound text l := (sound_ofSource text l).calls cs
  refine ⟨fun t rest => Token.number_of_scan, fun c => Cursor.number_ok, fun expected t hf => ?_,
    fun i d hd => ?_, fun _ _ _ _ _ _ _ _ => takesNumber_of_definition sound.within.describes,
    fun before t rest hr digits great takes => ?_⟩
  · cases sound.about hf with
    | unexpected _ hk => exact hk
  · obtain ⟨before, ts, tree, rest, inside, definition, means⟩ := calls_written text l cs i d hd
    obtain ⟨span, rfl, hnumbers⟩ := definition.numbers
    exact ⟨before, span, rest, tree, inside, definition, means, hnumbers ▸ means.numbers,
      fun p => means.payload_numbers⟩
  · obtain ⟨digit, more, ht, hdigit⟩ := digits
    have here : t :: rest <:+ Token.scan text :=
      (hr ▸ List.suffix_append before (t :: rest)).trans sound.within.tokens
    obtain ⟨run, hkind⟩ := Token.isDigitRun_of_scan here ht hdigit
    rw [if_neg (Nat.not_lt.mpr great)] at hkind
    obtain ⟨expected, hexpected, hnext⟩ := next_of_takesNumber takes hr hkind
    obtain ⟨passed, hscan⟩ := here
    exact ⟨passed, expected, hscan.symm, run, hkind,
      Token.location_of_scanFrom hscan.symm, hexpected, hnext⟩

/-- The greatest number is read, with zeros before it. The next number after it is not, and the place
in which it stands takes any other. -/
theorem calls_numbers_of_overflow :
    let text := "struct A \x7b\n    x: [0018446744073709551615]U8\n\x7d\n" ++
      "struct B \x7b\n    y: [18446744073709551616]U8\n\x7d\n"
    let r := (ofSource text .empty).calls [.next]
    let t : Token := ⟨.invalid, "18446744073709551616", ⟨5, 9⟩⟩
    r.definitions.map Definition.numbers = [[18446744073709551615]] ∧
      ∃ before rest, r.cursor.tokens = before ++ t :: rest ∧
        UInt64.size ≤ Natural.value t.text.toList ∧ r.TakesNumber before ∧
        ∃ passed expected, Token.scan text = passed ++ t :: rest ∧ t.IsDigitRun rest ∧
          t.kind = .invalid ∧ t.location = Location.start.after (Token.chars passed) ∧
          expected ∈ Read.numberKinds ∧ r.next.1 = .error (.unexpected expected t) := by
  intro text r t
  let before := r.cursor.tokens.take 14
  let rest := r.cursor.tokens.drop 15
  let zero : Token := ⟨.natural, "0", .start⟩
  let stop : Token := ⟨.endOfInput, "", .start⟩
  have numbers : r.definitions.map Definition.numbers = [[18446744073709551615]] := by
    decide +kernel
  have tokens : r.cursor.tokens = before ++ t :: rest := by decide +kernel
  have great : UInt64.size ≤ Natural.value t.text.toList := by decide +kernel
  have takes : r.TakesNumber before :=
    ⟨⟨r.context, .ofTokens (before ++ [zero, stop])⟩, zero, [stop], rfl, by decide +kernel, rfl,
      by decide +kernel⟩
  have digits : t.text.toList = '1' :: "8446744073709551616".toList := by decide +kernel
  have digit : Token.IsDecimal '1' := Token.isDecimal_iff.mp rfl
  obtain ⟨-, -, -, -, -, overflow⟩ := calls_numbers text .empty [.next]
  exact ⟨numbers, before, rest, tokens, great, takes,
    overflow before t rest tokens ⟨_, _, digits, digit⟩ great takes⟩

end Reader

end TypeSchema
