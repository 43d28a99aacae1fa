import TypeSchema.Proofs.Read.Advance

/-!
# Readings that call themselves

A reading that calls itself does so only at a later place than the one where it began, on every
input. So it never runs into the end that `fix` puts to calls that come before a token was used
up, and it is what its own equation says, with no such end in it.
-/

namespace TypeSchema

variable {α β σ : Type} {c d e : Cursor}

namespace Cursor

/-- The second cursor is further on than the first. -/
def Later (c d : Cursor) : Prop := c.Leads d ∧ c.position < d.position

theorem Later.trans_leads (h : c.Later d) (h' : d.Leads e) : c.Later e :=
  ⟨h.1.trans h', Nat.lt_of_lt_of_le h.2 h'.position⟩

theorem Leads.trans_later (h : c.Leads d) (h' : d.Later e) : c.Later e :=
  ⟨h.trans h'.1, Nat.lt_of_le_of_lt h.position h'.2⟩

theorem Leads.later_iff (h : c.Leads d) : c.Later d ↔ d.tokens.length < c.tokens.length := by
  obtain ⟨passed, htokens, hposition, -⟩ := h.passed
  rw [Later, and_iff_right h, htokens, hposition, List.length_append]
  omega

theorem Later.remaining_lt (h : c.Later d) : d.remaining < c.remaining := by
  have := h.1.later_iff.mp h
  rw [d.length_tokens, c.length_tokens] at this
  omega

theorem later_next (h : c.peek.kind ≠ .endOfInput) (hv : c.peek.kind ≠ .invalid) :
    c.Later c.next := by
  rw [(leads_next hv).later_iff, tokens_eq_cons h]
  exact Nat.lt_succ_self _

-- ---------------------------------------------------------------------------
-- Blank lines, one at a time
-- ---------------------------------------------------------------------------

def afterSpaces (c : Cursor) : Token := c.peekAhead (c.run .space)

def nextLine (c : Cursor) : Cursor := c.advance (c.run .space + 1)

theorem ahead_eq_spaces (c : Cursor) :
    ∃ spaces rest, c.ahead = spaces ++ rest ∧ (∀ t ∈ spaces, t.kind = .space) ∧
      spaces.length = c.run .space ∧ c.afterSpaces = rest.headD c.stop ∧
      c.afterSpaces.kind ≠ .space := by
  have split := List.takeWhile_append_dropWhile (p := (·.kind = .space)) (l := c.ahead)
  refine ⟨_, c.ahead.dropWhile (·.kind = .space), split.symm, fun t ht => ?_, rfl, ?_⟩
  · simpa using List.all_eq_true.mp List.all_takeWhile t ht
  have after : c.afterSpaces = (c.ahead.dropWhile (·.kind = .space)).headD c.stop := by
    rw [afterSpaces, peekAhead, run, ← drop_length_takeWhile, List.headD_eq_head?_getD,
      List.head?_drop, List.getD_eq_getElem?_getD]
  refine ⟨after, ?_⟩
  rw [after]
  cases hrest : c.ahead.dropWhile (·.kind = .space) with
  | nil => simp [c.stop_kind]
  | cons t rest =>
    have := List.head?_dropWhile_not (fun t : Token => decide (t.kind = .space)) c.ahead
    simpa [hrest] using this

theorem skipBlankLines_eq (c : Cursor) : c.skipBlankLines =
    if c.afterSpaces.kind.isLineBreak then c.nextLine.skipBlankLines
    else if c.afterSpaces.kind = .endOfInput then c.advance (c.run .space)
    else c := by
  obtain ⟨spaces, rest, hahead, hspaces, hlength, hafter, hspace⟩ := c.ahead_eq_spaces
  rw [skipBlankLines, hahead, blankRun_spaces hspaces, hlength, Nat.zero_add]
  cases rest with
  | nil => simp [hafter, c.stop_kind, Token.Kind.isLineBreak, blankRun]
  | cons t rest =>
    replace hafter : c.afterSpaces = t := hafter
    rw [hafter] at hspace ⊢
    by_cases hbreak : t.kind.isLineBreak
    · have hnext : c.nextLine.ahead = rest := by
        rw [nextLine, ahead_advance, hahead, ← hlength, ← List.drop_drop, List.drop_left]
        rfl
      rw [if_pos hbreak, blankRun_lineBreak hbreak, skipBlankLines, hnext, nextLine,
        advance_advance]
    · rw [if_neg hbreak]
      by_cases hend : t.kind = .endOfInput
      · rw [if_pos hend, blankRun_endOfInput hend]
      · rw [if_neg hend, blankRun_content ⟨hspace, by simpa using hbreak, hend⟩, advance_zero]

theorem take_nextLine (h : c.afterSpaces.kind.isLineBreak) :
    c.run .space + 1 ≤ c.remaining ∧ ∃ spaces : List Token, (∀ t ∈ spaces, t.kind = .space) ∧
      c.ahead.take (c.run .space + 1) = spaces ++ [c.afterSpaces] := by
  obtain ⟨spaces, rest, hahead, hspaces, hlength, hafter, -⟩ := c.ahead_eq_spaces
  cases rest with
  | nil => simp [hafter, c.stop_kind, Token.Kind.isLineBreak] at h
  | cons t rest =>
    replace hafter : c.afterSpaces = t := hafter
    refine ⟨?_, spaces, hspaces, ?_⟩
    · rw [c.remaining_eq, hahead, List.length_append, hlength, List.length_cons]
      omega
    · rw [hahead, ← hlength, hafter, List.take_append]
      simp

theorem later_nextLine (h : c.afterSpaces.kind.isLineBreak) : c.Later c.nextLine := by
  obtain ⟨within, spaces, hspaces, taken⟩ := take_nextLine h
  refine ⟨⟨_, rfl, fun u hu => ?_⟩, ?_⟩
  · rw [taken] at hu
    rcases List.mem_append.mp hu with hu | hu
    · simp [hspaces u hu]
    · obtain rfl := List.mem_singleton.mp hu
      rintro hinvalid
      simp [hinvalid, Token.Kind.isLineBreak] at h
  · rw [nextLine, position_advance]
    omega

end Cursor

namespace Read

-- ---------------------------------------------------------------------------
-- The same from some places on
-- ---------------------------------------------------------------------------

/-- Two readings that do the same at every cursor of which `P` holds. -/
def SameWhere (P : Cursor → Prop) (x y : Read α) : Prop := ∀ c, P c → x c = y c

theorem SameWhere.refl (P : Cursor → Prop) (x : Read α) : SameWhere P x x := fun _ _ => rfl

/-- `Q` tells where the first of two readings leaves the cursor. -/
theorem SameWhere.bind {P : Cursor → Prop} {Q : α → Cursor → Prop} {x y : Read α}
    {f g : α → Read β} (hx : SameWhere P x y) (hQ : ∀ c a d, P c → x c = .ok a d → Q a d)
    (hf : ∀ a, SameWhere (Q a) (f a) (g a)) : SameWhere P (x >>= f) (y >>= g) := by
  intro c hc
  show EStateM.bind x f c = EStateM.bind y g c
  unfold EStateM.bind
  rw [← hx c hc]
  cases hr : x c with
  | ok a d => exact hf a d (hQ c a d hc hr)
  | error fault d => rfl

theorem SameWhere.after {P : Cursor → Prop} {Q : α → Cursor → Prop} (x : Read α)
    {f g : α → Read β} (hQ : ∀ c a d, P c → x c = .ok a d → Q a d)
    (hf : ∀ a, SameWhere (Q a) (f a) (g a)) : SameWhere P (x >>= f) (x >>= g) :=
  (refl P x).bind hQ hf

theorem SameWhere.bind_later {x y : Read α} {f g : α → Read β} (hx : SameWhere c.Later x y)
    (ha : Advances x) (hf : ∀ a, SameWhere c.Later (f a) (g a)) :
    SameWhere c.Later (x >>= f) (y >>= g) :=
  hx.bind (fun _ _ _ hd hr => hd.trans_leads (ha.ok hr)) hf

theorem Advances.same {x : Read α} {f g : α → Read β} (ha : Advances x)
    (hf : ∀ a, SameWhere c.Later (f a) (g a)) : SameWhere c.Later (x >>= f) (x >>= g) :=
  (SameWhere.refl _ x).bind_later ha hf

theorem SameWhere.map_later (f : α → β) {x y : Read α} (hx : SameWhere c.Later x y)
    (ha : Advances x) : SameWhere c.Later (f <$> x) (f <$> y) := by
  rw [map_eq_pure_bind, map_eq_pure_bind]
  exact hx.bind_later ha fun _ => refl _ _

theorem SameWhere.ite {P : Cursor → Prop} {p : Prop} [Decidable p] {x x' y y' : Read α}
    (hx : SameWhere P x x') (hy : SameWhere P y y') :
    SameWhere P (if p then x else y) (if p then x' else y') := by
  split
  · exact hx
  · exact hy

-- ---------------------------------------------------------------------------
-- Readings that use a token up
-- ---------------------------------------------------------------------------

theorem expectOneOf_later {kinds : List Token.Kind} {t : Token} (hn : .endOfInput ∉ kinds)
    (hv : .invalid ∉ kinds) (h : expectOneOf kinds c = .ok t d) : c.Later d := by
  obtain ⟨hk, rfl, rfl⟩ := expectOneOf_ok.mp h
  exact Cursor.later_next (fun he => hn (he ▸ hk)) fun he => hv (he ▸ hk)

theorem expect_later {kind : Token.Kind} {t : Token} (hn : kind ≠ .endOfInput)
    (hv : kind ≠ .invalid) (h : expect kind c = .ok t d) : c.Later d :=
  expectOneOf_later (by simpa using hn.symm) (by simpa using hv.symm) h

theorem indentation_later (h : skipMany .space indentation c = .ok () d) : c.Later d := by
  obtain ⟨t, e, ht, hrest⟩ := bind_ok.mp h
  refine (expect_later (by decide) (by decide) ht).trans_leads (Advances.ok ?_ hrest)
  exact ite_advances (pure_advances ()) (skipMany_advances (by decide) _)

-- ---------------------------------------------------------------------------
-- Calls at later places
-- ---------------------------------------------------------------------------

/-- A reading that `f` builds out of `again` uses `again` only at later places than the one where
it began: what `again` does elsewhere makes no difference, as long as it does not go back. -/
def CallsLater (f : (σ → Read α) → σ → Read β) : Prop :=
  ∀ again again' c s, (∀ t, Advances (again t)) → (∀ t, SameWhere c.Later (again t) (again' t)) →
    f again s c = f again' s c

/-- A reading that calls itself at later places only, never goes back, and is what `f` says whether
or not `fix` looks at where it is called. -/
structure Progresses (f : (σ → Read α) → σ → Read α) : Prop where
  callsLater : CallsLater f
  advances : ∀ s, Advances (fix f s)
  fix_eq : ∀ s, fix f s = f (fix f) s

theorem CallsLater.progresses {f : (σ → Read α) → σ → Read α} (h : CallsLater f)
    (ha : ∀ s, Advances (fix f s)) : Progresses f := by
  refine ⟨h, ha, fun s => funext fun c => ?_⟩
  rw [Read.fix_eq]
  refine (h (fix f) (guarded f c.remaining) c s ha fun t d hd => ?_).symm
  rw [guarded, if_pos hd.remaining_lt]

theorem itemsRound_callsLater (close : Mark) {item : Array α → Read α}
    (h : ∀ is, Advances (item is)) : CallsLater (itemsRound close item) := by
  intro again again' c is _ same
  refine SameWhere.after (P := (· = c)) (Q := fun _ => c.Leads) (item is) ?_ (fun i => ?_) c rfl
  · rintro _ i d rfl hi
    exact (h is).ok hi
  refine .after _ (Q := fun _ => c.Later) (fun d mark e hd hmark => ?_) fun mark => ?_
  · exact hd.trans_later (expectOneOf_later (by simp) (by simp) hmark)
  · exact .ite (.refl _ _) (skipSpaces_advances.same fun _ => same _)

theorem bodyRound_callsLater {member : Array α → Read α} (h : ∀ members, Advances (member members)) :
    CallsLater (bodyRound member) := by
  intro again again' c members _ same
  refine SameWhere.after (P := (· = c)) (Q := fun _ => c.Leads) bodyEnd ?_ (fun ended => ?_) c rfl
  · rintro _ ended d rfl hd
    exact (skipBlankLines_advances.bind fun _ => takeMark_advances _).ok hd
  refine .ite (.refl _ _) (.after _ (Q := fun _ => c.Later) (fun d _ e hd he => ?_) fun _ => ?_)
  · exact hd.trans_later (indentation_later he)
  · refine (h members).same fun m => ?_
    exact lineEnd_advances.same fun _ => same _

theorem items_same (close : Mark) {item item' : Array α → Read α} (h : ∀ is, Advances (item is))
    (same : ∀ is, SameWhere c.Later (item is) (item' is)) :
    SameWhere c.Later (items close item) (items close item') := by
  suffices ∀ is, SameWhere c.Later (fix (itemsRound close item) is) (fix (itemsRound close item') is)
    from this #[]
  intro is d hd
  induction hn : d.remaining using Nat.strongRecOn generalizing is d with
  | _ n ih =>
    have again (t : Array α) : SameWhere c.Later (guarded (itemsRound close item) d.remaining t)
        (guarded (itemsRound close item') d.remaining t) := by
      intro e he
      unfold guarded
      split
      next hlt => exact ih _ (hn ▸ hlt) t e he rfl
      next => rfl
    rw [Read.fix_eq, Read.fix_eq (itemsRound close item')]
    refine (same is).bind_later (h is) (fun i => ?_) d hd
    refine (expectOneOf_advances (by simp)).same fun mark => ?_
    exact .ite (.refl _ _) (skipSpaces_advances.same fun _ => again _)

-- ---------------------------------------------------------------------------
-- Types and references
-- ---------------------------------------------------------------------------

theorem typeStep_callsLater (scope : Scope) :
    CallsLater fun again (_ : Unit) => typeStep scope (again ()) := by
  intro again again' c _ ha same
  have inner : SameWhere c.Later (again ()) (again' ()) := same ()
  have first (h : c.peek.kind ≠ .endOfInput) (hv : c.peek.kind ≠ .invalid)
      {f g : Token → Read TypeExpr} (hf : ∀ t, SameWhere c.Later (f t) (g t)) :
      SameWhere (· = c) (next >>= f) (next >>= g) := by
    refine .after _ ?_ hf
    rintro _ t d rfl hd
    obtain ⟨-, rfl⟩ := next_ok.mp hd
    exact Cursor.later_next h hv
  refine SameWhere.after (P := (· = c)) (Q := fun t d => c.peek = t ∧ d = c) peek ?_ (fun t => ?_)
    c rfl
  · rintro _ t d rfl hd
    obtain ⟨ht, rfl⟩ := peek_ok.mp hd
    exact ⟨ht, rfl⟩
  rintro d ⟨rfl, rfl⟩
  generalize hkind : d.peek.kind = kind
  split
  · rfl
  · rfl
  · rfl
  · refine first (by simp [hkind]) (by simp [hkind]) (fun _ => ?_) d rfl
    refine (takeMark_advances _).same fun _ => .ite ?_ ?_
    · exact inner.bind_later (ha ()) fun _ => .refl _ _
    · refine arraySize_advances.same fun _ => ?_
      refine (expect_advances (by decide)).same fun _ => ?_
      exact inner.bind_later (ha ()) fun _ => .refl _ _
  · exact first (by simp [hkind]) (by simp [hkind])
      (fun _ => inner.bind_later (ha ()) fun _ => .refl _ _) d rfl
  · exact first (by simp [hkind]) (by simp [hkind])
      (fun _ => inner.bind_later (ha ()) fun _ => .refl _ _) d rfl
  · rfl

/-- The arguments of a reference, from the opening mark on. -/
def arguments (again : Read Reference) : Read (List Argument) := do
  let _ ← expect (.mark .leftAngle)
  items .rightAngle fun _ => argumentOf <$> again

def referenceWith (scope : Scope) (arguments : Read (List Argument)) : Read Reference := do
  let head ← referenceHead scope
  if ← check (.mark .leftAngle) then
    return .applied head (← arguments)
  else return head

theorem referenceStep_eq (scope : Scope) (again : Read Reference) :
    referenceStep scope again = referenceWith scope (arguments again) := by
  funext c
  refine SameWhere.after (P := (· = c)) (Q := fun _ _ => True) _ (fun _ _ _ _ _ => trivial)
    (fun head d _ => ?_) c rfl
  have checked : check (.mark .leftAngle) d = .ok (d.check (.mark .leftAngle)) d := rfl
  rw [bind_of_ok (takeMark_ok.mpr ⟨rfl, rfl⟩), bind_of_ok checked]
  cases hmark : d.check (.mark .leftAngle) with
  | false => rfl
  | true =>
    have mark : d.peek.kind = .mark .leftAngle := by simpa [Cursor.check] using hmark
    have taken : arguments again d = items .rightAngle (fun _ => argumentOf <$> again) d.next :=
      bind_of_ok (expectOneOf_ok.mpr ⟨by simp [mark], rfl, rfl⟩)
    show EStateM.bind _ _ _ = EStateM.bind _ _ _
    simp only [EStateM.bind, if_true, taken]

theorem referenceHead_later {scope : Scope} {r : Reference} (h : referenceHead scope c = .ok r d) :
    c.Later d := by
  obtain ⟨first, e, hfirst, hrest⟩ := bind_ok.mp h
  refine (expectOneOf_later (by decide) (by decide) hfirst).trans_leads (Advances.ok ?_ hrest)
  refine ite_advances ?_ (ofExcept_advances _)
  exact (expect_advances (by decide)).bind fun _ => (expect_advances (by decide)).bind fun _ =>
    ofExcept_advances _

theorem referenceWith_callsLater (scope : Scope) :
    CallsLater fun arguments (_ : Unit) => referenceWith scope (arguments ()) := by
  intro arguments arguments' c _ ha same
  refine SameWhere.after (P := (· = c)) (Q := fun _ => c.Later) _ ?_ (fun head => ?_) c rfl
  · rintro _ head d rfl hd
    exact referenceHead_later hd
  · refine Advances.same (fun d => .refl d) fun _ => .ite ?_ (.refl _ _)
    exact (same ()).bind_later (ha ()) fun _ => .refl _ _

theorem arguments_callsLater : CallsLater fun again (_ : Unit) => arguments (again ()) := by
  intro again again' c _ ha same
  refine SameWhere.after (P := (· = c)) (Q := fun _ => c.Later) _ ?_ (fun _ => ?_) c rfl
  · rintro _ t d rfl hd
    exact expect_later (by decide) (by decide) hd
  · exact items_same _ (fun _ => (ha ()).map _) fun _ => (same ()).map_later _ (ha ())

theorem arguments_advances {again : Read Reference} (h : Advances again) :
    Advances (arguments again) :=
  (expect_advances (by decide)).bind fun _ => items_advances fun _ => h.map _

theorem referenceStep_callsLater (scope : Scope) :
    CallsLater fun again (_ : Unit) => referenceStep scope (again ()) := by
  intro again again' c _ ha same
  simp only [referenceStep_eq]
  refine referenceWith_callsLater scope (fun _ => arguments (again ()))
    (fun _ => arguments (again' ())) c () (fun _ => arguments_advances (ha ())) fun _ d hd => ?_
  exact arguments_callsLater again again' d () ha fun t e he => same t e (hd.trans_leads he.1)

theorem typeStep_progresses (scope : Scope) :
    Progresses fun again (_ : Unit) => typeStep scope (again ()) :=
  (typeStep_callsLater scope).progresses fun _ => typeExpr_advances scope

theorem referenceStep_progresses (scope : Scope) :
    Progresses fun again (_ : Unit) => referenceStep scope (again ()) :=
  (referenceStep_callsLater scope).progresses fun _ => reference_advances scope

-- ---------------------------------------------------------------------------
-- Loops
-- ---------------------------------------------------------------------------

/-- The rounds of the loops that a definition is read by. -/
inductive Loop : ∀ {α : Type}, ((Array α → Read (List α)) → Array α → Read (List α)) → Prop
  | parameters : Loop (itemsRound .rightAngle parameter)
  | arguments (scope : Scope) :
      Loop (itemsRound .rightAngle fun _ => argumentOf <$> reference scope)
  | options : Loop (itemsRound .rightParen fun _ => do
      let option ← unionOption
      skipSpaces
      return option)
  | fields (scope : Scope) : Loop (bodyRound (fieldEntry scope))
  | constructors (scope : Scope) : Loop (bodyRound (constructorEntry scope))
  | variants (ctx : Context) (definition tagField : String) :
      Loop (bodyRound (variantEntry ctx definition tagField))
  | enumItems (definition : String) : Loop (bodyRound (itemEntry definition))
  | cases (scope : Scope) : Loop (bodyRound fun _ => reference scope)

theorem Loop.progresses {α : Type} {round : (Array α → Read (List α)) → Array α → Read (List α)}
    (h : Loop round) : Progresses round := by
  have items {α : Type} {close : Mark} {item : Array α → Read α} (h : ∀ is, Advances (item is)) :
      Progresses (itemsRound close item) :=
    (itemsRound_callsLater close h).progresses (itemsRounds_advance h)
  have body {α : Type} {member : Array α → Read α} (h : ∀ members, Advances (member members)) :
      Progresses (bodyRound member) := (bodyRound_callsLater h).progresses (bodyRounds_advance h)
  cases h with
  | parameters => exact items parameter_advances
  | arguments scope => exact items fun _ => (reference_advances scope).map _
  | options => exact items fun _ => spacedOption_advances
  | fields scope => exact body (fieldEntry_advances scope)
  | constructors scope => exact body (constructorEntry_advances scope)
  | variants ctx definition tagField => exact body (variantEntry_advances ctx definition tagField)
  | enumItems definition => exact body (itemEntry_advances definition)
  | cases scope => exact body fun _ => reference_advances scope

-- ---------------------------------------------------------------------------
-- Definitions
-- ---------------------------------------------------------------------------

theorem definition?_later {ctx : Context} {x : Definition}
    (h : definition? ctx c = .ok (some x) d) : c.Later d := by
  obtain ⟨_, start, hstart, h⟩ := bind_ok.mp h
  obtain ⟨ended, start, hended, h⟩ := bind_ok.mp h
  obtain ⟨-, rfl⟩ := atEnd_ok.mp hended
  refine (skipBlankLines_advances.ok hstart).trans_later ?_
  split at h
  next => cases (pure_ok.mp h).1
  next =>
    obtain ⟨keyword, e, hkeyword, h⟩ := bind_ok.mp h
    refine (expect_later (by decide) (by decide) hkeyword).trans_leads ?_
    generalize keyword.text = text at h
    split at h
    · exact ((struct_advances ctx _).map some).ok h
    · exact ((union_advances ctx _).map some).ok h
    · exact ((enum_advances ctx _).map some).ok h
    · exact ((untaggedUnion_advances ctx _).map some).ok h
    · exact ((importLine_advances ctx _).map some).ok h
    · exact (throw_ok.mp h).elim

end Read

end TypeSchema
