import Mathlib.Data.List.Forall2
import TypeSchema.Proofs.Grammar.Takes
import TypeSchema.Proofs.Read.Outcome

/-!
# Layout and its rules

What the readings of layout take is what the rules of layout allow. The rules leave open how much of
a run of spaces or of blank lines is taken; a reading takes all of it. So it agrees with a rule only
where the rule leaves something else ahead, which is why the directions are told apart: `…_ok` is
read off a success, and `Runs.…` asks for what has to follow.
-/

namespace TypeSchema.Read

open Grammar (Rule Spaces Separator Indentation LineEnd DefinitionEnd BlankLines BodyStart)
open Cursor (blankRun IsContent)

variable {α τ : Type} {c d e : Cursor} {ts mid rest : List Token} {t : Token}

-- ---------------------------------------------------------------------------
-- Spaces and line ends
-- ---------------------------------------------------------------------------

theorem skipSpaces_ok (h : skipSpaces c = .ok () d) : Spaces c.tokens d.tokens := by
  obtain ⟨n, d', h, hd⟩ := bind_ok.mp h
  obtain ⟨-, rfl⟩ := pure_ok.mp hd
  cases h
  rw [Cursor.tokens_advance_run (by decide)]
  refine ⟨c.tokens.takeWhile (·.kind = .space), ?_, List.takeWhile_append_dropWhile.symm⟩
  intro t ht
  simpa using List.all_eq_true.mp List.all_takeWhile t ht

theorem skipSpaces_runs (h : Spaces ts (t :: rest)) (ht : t.kind ≠ .space) :
    Runs skipSpaces ts () (t :: rest) := by
  obtain ⟨spaces, hs, rfl⟩ := h
  intro c hc
  refine ⟨c.advance (c.run .space), rfl, ?_⟩
  rw [Cursor.tokens_advance_run (by decide), hc, List.dropWhile_append_of_pos (by simpa using hs),
    List.dropWhile_cons_of_neg (by simpa using ht)]

theorem separator_ok (h : separator c = .ok () e) : Separator c.tokens e.tokens := by
  obtain ⟨t, d, ht, h⟩ := bind_ok.mp h
  obtain ⟨hk, hc⟩ := expect_tokens (by decide) ht
  exact ⟨t, d.tokens, hk, hc, skipSpaces_ok h⟩

theorem separator_runs (h : Separator ts (t :: rest)) (ht : t.kind ≠ .space) :
    Runs separator ts () (t :: rest) := by
  obtain ⟨space, more, hk, rfl, spaces⟩ := h
  exact (expect_runs hk (by decide)).bind (skipSpaces_runs spaces ht)

theorem isLineBreak_iff {kind : Token.Kind} :
    kind.isLineBreak ↔ kind ∈ [Token.Kind.newline, .crlf] := by
  cases kind <;> simp [Token.Kind.isLineBreak]

theorem ne_space_of_isLineBreak {kind : Token.Kind} (h : kind.isLineBreak) : kind ≠ .space := by
  rintro rfl
  cases h

theorem lineEnd_ok (h : lineEnd c = .ok () e) : LineEnd c.tokens e.tokens := by
  obtain ⟨_, d, hs, h⟩ := bind_ok.mp h
  obtain ⟨t, e', ht, he⟩ := bind_ok.mp h
  obtain ⟨-, rfl⟩ := pure_ok.mp he
  obtain ⟨hk, hd⟩ := expectOneOf_tokens (by decide) ht
  exact ⟨t, isLineBreak_iff.mpr hk, hd ▸ skipSpaces_ok hs⟩

theorem lineEnd_runs (h : LineEnd ts rest) : Runs lineEnd ts () rest := by
  obtain ⟨t, ht, spaces⟩ := h
  refine (skipSpaces_runs spaces (ne_space_of_isLineBreak ht)).bind ?_
  refine (expectOneOf_runs (isLineBreak_iff.mp ht) ?_).bind (Runs.pure ())
  intro he
  rw [he] at ht
  cases ht

theorem definitionEnd_ok (h : definitionEnd c = .ok () e) : DefinitionEnd c.tokens e.tokens := by
  obtain ⟨_, d, hs, h⟩ := bind_ok.mp h
  obtain ⟨t, e', ht, he⟩ := bind_ok.mp h
  obtain ⟨-, rfl⟩ := pure_ok.mp he
  obtain ⟨hk, rfl, rfl⟩ := expectOneOf_ok.mp ht
  have spaces := skipSpaces_ok hs
  by_cases hend : d.peek.kind = .endOfInput
  · rw [Cursor.next_of_atEnd hend]
    obtain ⟨t, rest, hd⟩ := List.exists_cons_of_ne_nil (by simp [Cursor.tokens] : d.tokens ≠ [])
    rw [hd] at spaces ⊢
    exact .input spaces (Cursor.peek_of_tokens hd ▸ hend)
  · rw [Cursor.tokens_eq_cons hend] at spaces
    refine .line ⟨d.peek, isLineBreak_iff.mpr ?_, spaces⟩
    simpa [hend] using hk

theorem definitionEnd_runs (h : DefinitionEnd ts rest) : Runs definitionEnd ts () rest := by
  cases h with
  | line h =>
    obtain ⟨t, ht, spaces⟩ := h
    refine (skipSpaces_runs spaces (ne_space_of_isLineBreak ht)).bind ?_
    refine (expectOneOf_runs ?_ ?_).bind (Runs.pure ())
    · have := isLineBreak_iff.mp ht
      simp only [List.mem_cons, List.not_mem_nil, or_false] at this ⊢
      exact this.imp_right .inl
    · intro he
      rw [he] at ht
      cases ht
  | input spaces ht =>
    refine (skipSpaces_runs spaces (by rw [ht]; decide)).bind ?_
    exact (expectOneOf_end_runs (by decide) ht).bind (Runs.pure ())

theorem bodyStart_ok (h : bodyStart c = .ok () e) : BodyStart c.tokens e.tokens := by
  obtain ⟨_, d, hs, h⟩ := bind_ok.mp h
  obtain ⟨t, d', ht, h⟩ := bind_ok.mp h
  obtain ⟨hk, hd⟩ := expect_tokens (by decide) ht
  exact ⟨t, d'.tokens, hd ▸ skipSpaces_ok hs, hk, lineEnd_ok h⟩

theorem bodyStart_runs (h : BodyStart ts rest) : Runs bodyStart ts () rest := by
  obtain ⟨t, mid, spaces, ht, line⟩ := h
  refine (skipSpaces_runs spaces (by rw [ht]; decide)).bind ?_
  exact (expect_runs ht (by decide)).bind (lineEnd_runs line)

-- ---------------------------------------------------------------------------
-- What layout begins with
-- ---------------------------------------------------------------------------

theorem spaces_unmarked {mark : Mark} (h : Spaces ts (t :: rest)) (ht : t.kind ≠ .mark mark) :
    Unmarked mark ts := by
  obtain ⟨spaces, hs, rfl⟩ := h
  cases spaces with
  | nil => exact ⟨t, rest, rfl, ht⟩
  | cons s spaces => exact ⟨s, _, rfl, by rw [hs s (by simp)]; nofun⟩

theorem separator_unmarked {mark : Mark} (h : Separator ts rest) : Unmarked mark ts := by
  obtain ⟨s, more, hs, rfl, -⟩ := h
  exact ⟨s, more, rfl, by rw [hs]; nofun⟩

theorem lineEnd_unmarked {mark : Mark} (h : LineEnd ts rest) : Unmarked mark ts := by
  obtain ⟨t, ht, spaces⟩ := h
  refine spaces_unmarked spaces fun hmark => ?_
  rw [hmark] at ht
  cases ht

theorem bodyStart_unmarked {mark : Mark} (h : BodyStart ts rest) (hm : mark ≠ .leftBrace) :
    Unmarked mark ts := by
  obtain ⟨t, mid, spaces, ht, -⟩ := h
  exact spaces_unmarked spaces (by rw [ht]; simpa using hm.symm)

-- ---------------------------------------------------------------------------
-- Indentation
-- ---------------------------------------------------------------------------

theorem skipMany_ok {kind : Token.Kind} (hk : kind ≠ .endOfInput) {n : Nat}
    (h : skipMany kind n c = .ok () e) : ∃ run : List Token, run.length = n ∧
      (∀ t ∈ run, t.kind = kind) ∧ c.tokens = run ++ e.tokens := by
  induction n generalizing c with
  | zero =>
    obtain ⟨-, rfl⟩ := pure_ok.mp h
    exact ⟨[], rfl, by simp, rfl⟩
  | succ n ih =>
    obtain ⟨t, d, ht, h⟩ := bind_ok.mp h
    obtain ⟨ht, hc⟩ := expect_tokens hk ht
    rw [if_neg (by rw [ht]; exact hk)] at h
    obtain ⟨run, hn, hrun, hd⟩ := ih h
    exact ⟨t :: run, by simp [hn], by simpa [ht] using hrun, by rw [hc, hd, List.cons_append]⟩

theorem indentation_ok (h : skipMany .space indentation c = .ok () e) :
    Indentation c.tokens e.tokens := skipMany_ok (by decide) h

theorem skipMany_runs {kind : Token.Kind} (hk : kind ≠ .endOfInput) {run : List Token}
    (h : ∀ t ∈ run, t.kind = kind) : Runs (skipMany kind run.length) (run ++ rest) () rest := by
  induction run with
  | nil => exact Runs.pure ()
  | cons t run ih =>
    have ht := h t (by simp)
    refine (expect_runs ht hk).bind ?_
    rw [if_neg (by rw [ht]; exact hk)]
    exact ih fun t ht => h t (by simp [ht])

theorem indentation_runs (h : Indentation ts rest) :
    Runs (skipMany .space indentation) ts () rest := by
  obtain ⟨spaces, hn, hs, rfl⟩ := h
  rw [show indentation = spaces.length from hn.symm]
  exact skipMany_runs (by decide) hs

-- ---------------------------------------------------------------------------
-- Blank lines
-- ---------------------------------------------------------------------------

theorem blankLines_drop {stop : Token} (hstop : stop.kind = .endOfInput) (ts spaces : List Token)
    (hs : ∀ t ∈ spaces, t.kind = .space) {rest : List Token}
    (hr : rest = (spaces ++ (ts ++ [stop])).drop (blankRun spaces.length (ts ++ [stop]))) :
    ∃ mid, BlankLines (spaces ++ (ts ++ [stop])) mid ∧ Spaces mid rest ∧
      (mid = rest ∨ ∃ t more, rest = t :: more ∧ t.kind = .endOfInput) := by
  induction ts generalizing spaces with
  | nil =>
    rw [List.nil_append, Cursor.blankRun_endOfInput hstop, List.drop_left] at hr
    exact ⟨_, .none, ⟨spaces, hs, hr ▸ rfl⟩, .inr ⟨_, _, hr, hstop⟩⟩
  | cons t ts ih =>
    rw [List.cons_append] at hr ⊢
    by_cases hspace : t.kind = .space
    · have hs' : ∀ u ∈ spaces ++ [t], u.kind = .space := by
        simpa [or_imp, forall_and, hspace] using hs
      rw [blankRun, if_pos hspace] at hr
      simpa using ih (spaces ++ [t]) hs' (by simpa using hr)
    · by_cases hbreak : t.kind.isLineBreak
      · rw [Cursor.blankRun_lineBreak hbreak, ← List.drop_drop, ← List.drop_drop,
          List.drop_left] at hr
        obtain ⟨mid, blank, left⟩ := ih [] (by simp) hr
        exact ⟨mid, .more ⟨t, hbreak, spaces, hs, rfl⟩ blank, left⟩
      · by_cases hend : t.kind = .endOfInput
        · rw [Cursor.blankRun_endOfInput hend, List.drop_left] at hr
          exact ⟨_, .none, ⟨spaces, hs, hr ▸ rfl⟩, .inr ⟨_, _, hr, hend⟩⟩
        · rw [Cursor.blankRun_content ⟨hspace, by simpa using hbreak, hend⟩, List.drop_zero] at hr
          exact ⟨_, .none, hr ▸ .refl _, .inl hr.symm⟩

theorem skipBlankLines_ok (h : skipBlankLines c = .ok () d) :
    ∃ mid, BlankLines c.tokens mid ∧ Spaces mid d.tokens ∧
      (mid = d.tokens ∨ d.peek.kind = .endOfInput) := by
  cases h
  obtain ⟨mid, blank, spaces, left⟩ :=
    blankLines_drop c.stop_kind c.ahead [] (by simp) (Cursor.tokens_skipBlankLines c)
  refine ⟨mid, blank, spaces, left.imp_right ?_⟩
  rintro ⟨t, more, hd, ht⟩
  rw [Cursor.peek_of_tokens hd, ht]

theorem drop_blankRun {spaces : List Token} (hs : ∀ t ∈ spaces, t.kind = .space)
    (ht : IsContent t.kind ∨ t.kind = .endOfInput)
    (h : BlankLines ts (spaces ++ t :: rest)) :
    ts.drop (blankRun 0 ts) = if t.kind = .endOfInput then t :: rest else spaces ++ t :: rest := by
  generalize hm : spaces ++ t :: rest = mid at h
  induction h with
  | none =>
    rw [← hm, Cursor.blankRun_spaces hs]
    rcases ht with ht | ht
    · rw [Cursor.blankRun_content ht, if_neg ht.2.2, List.drop_zero]
    · rw [Cursor.blankRun_endOfInput ht, if_pos ht, Nat.zero_add, List.drop_left]
  | more line _ ih =>
    obtain ⟨t, hbreak, before, hb, rfl⟩ := line
    rw [Cursor.blankRun_spaces hb, Cursor.blankRun_lineBreak hbreak, Nat.zero_add,
      ← List.drop_drop, ← List.drop_drop, List.drop_left]
    exact ih hm

theorem skipBlankLines_runs {before : List Token} (h : BlankLines ts before)
    (hb : Spaces before (t :: rest)) (ht : IsContent t.kind) :
    Runs skipBlankLines ts () before := by
  obtain ⟨spaces, hs, rfl⟩ := hb
  intro c hc
  refine ⟨c.skipBlankLines, rfl, ?_⟩
  rw [Cursor.tokens_skipBlankLines, hc, drop_blankRun hs (.inl ht) h, if_neg ht.2.2]

theorem skipBlankLines_end_runs {before : List Token} (h : BlankLines ts before)
    (hb : Spaces before (t :: rest)) (ht : t.kind = .endOfInput) :
    Runs skipBlankLines ts () (t :: rest) := by
  obtain ⟨spaces, hs, rfl⟩ := hb
  intro c hc
  refine ⟨c.skipBlankLines, rfl, ?_⟩
  rw [Cursor.tokens_skipBlankLines, hc, drop_blankRun hs (.inr ht) h, if_pos ht]

-- ---------------------------------------------------------------------------
-- Bodies and lists
-- ---------------------------------------------------------------------------

/-- Each tree tells what was read for it, given what was read for those before it, which follow
`before`. -/
inductive Each (T : List α → τ → α → Prop) : List α → List τ → List α → Prop
  | nil {before} : Each T before [] []
  | cons {before a trees as t} : T before t a → Each T (before ++ [a]) trees as →
      Each T before (t :: trees) (a :: as)

theorem bodyEnd_true (h : bodyEnd c = .ok true d) :
    ∃ t : Token, BlankLines c.tokens (t :: d.tokens) ∧ t.kind = .mark .rightBrace := by
  obtain ⟨_, e, hblank, hmark⟩ := bind_ok.mp h
  obtain ⟨mid, blank, -, left⟩ := skipBlankLines_ok hblank
  obtain ⟨t, ht, he⟩ := takeMark_true hmark
  have hmid : mid = e.tokens :=
    left.resolve_right (by rw [Cursor.peek_of_tokens he, ht]; decide)
  exact ⟨t, he ▸ hmid ▸ blank, ht⟩

theorem bodyEnd_false (h : bodyEnd c = .ok false d) (hi : Indentation d.tokens rest) :
    BlankLines c.tokens d.tokens := by
  obtain ⟨_, e, hblank, hmark⟩ := bind_ok.mp h
  obtain ⟨mid, blank, -, left⟩ := skipBlankLines_ok hblank
  obtain rfl := takeMark_false hmark
  refine left.resolve_right (fun hend => ?_) ▸ blank
  obtain ⟨spaces, hn, hs, htokens⟩ := hi
  cases spaces with
  | nil => cases hn
  | cons s spaces =>
    rw [Cursor.peek_of_tokens (htokens.trans (List.cons_append ..)), hs s (by simp)] at hend
    cases hend

theorem bodyEnd_true_runs (h : BlankLines ts (t :: rest)) (ht : t.kind = .mark .rightBrace) :
    Runs bodyEnd ts true rest :=
  (skipBlankLines_runs h (.refl _) (Cursor.content_of_kind ht rfl)).bind
    (takeMark_true_runs ht)

theorem bodyEnd_false_runs {before : List Token} (h : BlankLines ts before)
    (hi : Indentation before (t :: rest)) (ht : IsContent t.kind) :
    Runs bodyEnd ts false before := by
  obtain ⟨spaces, hn, hs, rfl⟩ := hi
  refine (skipBlankLines_runs h ⟨spaces, hs, rfl⟩ ht).bind ?_
  cases spaces with
  | nil => cases hn
  | cons s spaces => exact takeMark_false_runs (by rw [hs s (by simp)]; decide)

section
variable {L : Rule τ} {T : List α → τ → α → Prop}

theorem body_ok {member : Array α → Read α} {as : List α}
    (hs : ∀ ts t rest, L ts t rest → rest <:+ ts)
    (hm : ∀ acc d a e, d.tokens <:+ c.tokens → member acc d = .ok a e →
      ∃ t, L d.tokens t e.tokens ∧ T acc.toList t a)
    (h : body member c = .ok as e) :
    ∃ trees, Grammar.Body L c.tokens trees e.tokens ∧ Each T [] trees as := by
  suffices hfix : c.tokens <:+ c.tokens → ∃ trees new, as = (#[] : Array α).toList ++ new ∧
      Grammar.Body L c.tokens trees e.tokens ∧ Each T (#[] : Array α).toList trees new by
    obtain ⟨trees, new, rfl, hb, he⟩ := hfix (List.suffix_refl _)
    exact ⟨trees, hb, he⟩
  refine fix_ok (P := fun acc d as e => d.tokens <:+ c.tokens → ∃ trees new,
    as = acc.toList ++ new ∧ Grammar.Body L d.tokens trees e.tokens ∧
      Each T acc.toList trees new) ?_ h
  intro again acc d as e ih h hc
  obtain ⟨closed, d', hd, h⟩ := bind_ok.mp h
  cases closed with
  | true =>
    obtain ⟨rfl, rfl⟩ := pure_ok.mp h
    obtain ⟨t, blank, ht⟩ := bodyEnd_true hd
    exact ⟨[], [], by simp, .close blank ht, .nil⟩
  | false =>
    obtain ⟨_, d₁, hindent, h⟩ := bind_ok.mp h
    obtain ⟨a, d₂, ha, h⟩ := bind_ok.mp h
    obtain ⟨_, d₃, hline, h⟩ := bind_ok.mp h
    have indent := indentation_ok hindent
    have blank := bodyEnd_false hd indent
    have lineEnd := lineEnd_ok hline
    have hc₁ := indent.suffix.trans (blank.suffix.trans hc)
    obtain ⟨tree, hl, htells⟩ := hm acc d₁ a d₂ hc₁ ha
    have hc₃ := lineEnd.suffix.trans ((hs _ _ _ hl).trans hc₁)
    obtain ⟨trees, new, rfl, hb, he⟩ := ih _ _ _ _ h hc₃
    exact ⟨tree :: trees, a :: new, by simp, .line blank indent hl lineEnd hb,
      .cons htells (by simpa using he)⟩

/-- A member is read wherever its line may stand, for `first` tells that it begins with something. -/
theorem body_runs {member : Array α → Read α} {trees : List τ} {as : List α}
    (hs : ∀ ts t rest, L ts t rest → rest <:+ ts)
    (first : ∀ ts t rest, L ts t rest → ∃ u more, ts = u :: more ∧ IsContent u.kind)
    (hm : ∀ acc us t a after next, us <:+ ts → L us t after → LineEnd after next →
      T acc.toList t a → Runs (member acc) us a after)
    (h : Grammar.Body L ts trees rest) (he : Each T [] trees as) :
    Runs (body member) ts as rest := by
  suffices hfix : ∀ (acc : Array α) as, Each T acc.toList trees as →
      Runs (fix (bodyRound member) acc) ts (acc.toList ++ as) rest by
    exact hfix #[] as he
  clear he as
  induction h with
  | close blank ht =>
    intro acc as he
    cases he
    rw [List.append_nil]
    exact fix_runs fun _ _ => (bodyEnd_true_runs blank ht).bind (Runs.pure _)
  | @line ts before content t after next trees rest blank indent hl lineEnd _ ih =>
    intro acc as he
    cases he with
    | @cons _ a _ as _ htells he =>
      obtain ⟨u, more, rfl, hu⟩ := first _ _ _ hl
      have hcontent := indent.suffix.trans blank.suffix
      have hnext := lineEnd.suffix.trans ((hs _ _ _ hl).trans hcontent)
      have shorter : next.length < ts.length := by
        have := blank.suffix.length_le
        have := indent.length
        have := (hs _ _ _ hl).length_le
        have := lineEnd.suffix.length_le
        omega
      have tail := ih (fun acc us t a after next hus => hm acc us t a after next (hus.trans hnext))
        (acc.push a) as (by simpa using he)
      rw [show acc.toList ++ a :: as = (acc.push a).toList ++ as by simp]
      refine fix_runs fun again ihagain => (bodyEnd_false_runs blank indent hu).bind ?_
      refine (indentation_runs indent).bind ?_
      refine (hm acc _ _ a _ _ hcontent hl lineEnd htells).bind ?_
      exact (lineEnd_runs lineEnd).bind (ihagain _ _ _ _ shorter tail)

theorem items_ok {close : Mark} {item : Array α → Read α} {as : List α}
    (hi : ∀ acc c a d, item acc c = .ok a d → ∃ t, L c.tokens t d.tokens ∧ T acc.toList t a)
    (h : items close item c = .ok as e) :
    ∃ trees, Grammar.Items close L c.tokens trees e.tokens ∧ Each T [] trees as := by
  suffices hfix : ∃ trees new, as = (#[] : Array α).toList ++ new ∧
      Grammar.Items close L c.tokens trees e.tokens ∧
        Each T (#[] : Array α).toList trees new by
    obtain ⟨trees, new, rfl, hb, he⟩ := hfix
    exact ⟨trees, hb, he⟩
  refine fix_ok (P := fun acc c as e => ∃ trees new, as = acc.toList ++ new ∧
    Grammar.Items close L c.tokens trees e.tokens ∧ Each T acc.toList trees new) ?_ h
  intro again acc c as e ih h
  obtain ⟨a, d, ha, h⟩ := bind_ok.mp h
  obtain ⟨mark, d₁, hmark, h⟩ := bind_ok.mp h
  obtain ⟨tree, hl, htells⟩ := hi acc c a d ha
  obtain ⟨hk, hd⟩ := expectOneOf_tokens (by simp) hmark
  rw [hd] at hl
  split at h
  next hclose =>
    obtain ⟨rfl, rfl⟩ := pure_ok.mp h
    exact ⟨[tree], [a], by simp, .last hl hclose, .cons htells .nil⟩
  next hclose =>
    obtain ⟨_, d₂, hspaces, h⟩ := bind_ok.mp h
    obtain ⟨trees, new, rfl, hb, he⟩ := ih _ _ _ _ h
    have hcomma : mark.kind = .mark .comma := by simpa [hclose] using hk
    exact ⟨tree :: trees, a :: new, by simp, .more hl hcomma (skipSpaces_ok hspaces) hb,
      .cons htells (by simpa using he)⟩

theorem items_first {close : Mark} {trees : List τ} (h : Grammar.Items close L ts trees rest) :
    ∃ t ∈ trees, ∃ after, L ts t after := by
  cases h with
  | last item _ => exact ⟨_, by simp, _, item⟩
  | more item _ _ _ => exact ⟨_, by simp, _, item⟩

theorem items_runs {close : Mark} (hclose : close ≠ .comma) {item : Array α → Read α}
    {trees : List τ} {as : List α}
    (hs : ∀ t ∈ trees, ∀ ts rest, L ts t rest → rest <:+ ts)
    (first : ∀ ts t rest, L ts t rest → ∃ u more, ts = u :: more ∧ u.kind ≠ .space)
    (hi : ∀ t ∈ trees, ∀ acc us a u after, us <:+ ts → L us t (u :: after) →
      u.kind = .mark .comma ∨ u.kind = .mark close → T acc.toList t a →
      Runs (item acc) us a (u :: after))
    (h : Grammar.Items close L ts trees rest) (he : Each T [] trees as) :
    Runs (items close item) ts as rest := by
  suffices hfix : ∀ (acc : Array α) as, Each T acc.toList trees as →
      Runs (fix (itemsRound close item) acc) ts (acc.toList ++ as) rest by
    exact hfix #[] as he
  clear he as
  induction h with
  | last hl ht =>
    intro acc as he
    cases he with
    | @cons _ a _ as _ htells he =>
      cases he
      refine fix_runs fun _ _ => ?_
      refine (hi _ (by simp) acc _ a _ _ (List.suffix_refl _) hl (.inr ht) htells).bind ?_
      refine (expectOneOf_runs (by simp [ht]) (by rw [ht]; nofun)).bind ?_
      rw [if_pos ht, Array.toList_push]
      exact Runs.pure _
  | @more ts t u after next trees rest hl ht spaces tail ih =>
    intro acc as he
    cases he with
    | @cons _ a _ as _ htells he =>
      have hafter := (List.suffix_cons u after).trans (hs _ (by simp) _ _ hl)
      have hnext := spaces.suffix.trans hafter
      have shorter : next.length < ts.length := by
        have := (hs _ (by simp) _ _ hl).length_le
        have := spaces.suffix.length_le
        simp only [List.length_cons] at *
        omega
      have tailRuns := ih (fun t ht => hs t (by simp [ht]))
        (fun t ht acc us a u after hus => hi t (by simp [ht]) acc us a u after (hus.trans hnext))
        (acc.push a) as (by simpa using he)
      rw [show acc.toList ++ a :: as = (acc.push a).toList ++ as by simp]
      obtain ⟨_, _, _, item⟩ := items_first tail
      obtain ⟨v, more, rfl, hv⟩ := first _ _ _ item
      refine fix_runs fun again ihagain => ?_
      refine (hi _ (by simp) acc _ a _ _ (List.suffix_refl _) hl (.inl ht) htells).bind ?_
      refine (expectOneOf_runs (by simp [ht]) (by rw [ht]; nofun)).bind ?_
      rw [if_neg (by rw [ht]; simpa using hclose.symm)]
      exact (skipSpaces_runs spaces hv).bind (ihagain _ _ _ _ shorter tailRuns)

theorem Each.forall₂ {R : τ → α → Prop} {before : List α} {trees : List τ} {as : List α}
    (h : Each T before trees as) (hr : ∀ before t a, T before t a → R t a) :
    List.Forall₂ R trees as := by
  induction h with
  | nil => exact .nil
  | cons first _ ih => exact .cons (hr _ _ _ first) ih

theorem Each.of_forall₂ {R : τ → α → Prop} {before : List α} {trees : List τ} {as : List α}
    (h : List.Forall₂ R trees as) : Each (fun _ => R) before trees as := by
  induction h generalizing before with
  | nil => exact .nil
  | cons first _ ih => exact .cons first ih

end

end TypeSchema.Read
