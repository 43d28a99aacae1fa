import TypeSchema.Proofs.Cursor.Operations
import TypeSchema.Proofs.Grammar.Relaid
import TypeSchema.Proofs.Read.Layout
import TypeSchema.Proofs.Read.Progress

/-!
# The block of blank lines ahead

The tokens ahead of a cursor begin with some blank lines, as many as can be cut off, and this cut is
the only one. Skipping blank lines goes on line by line. It uses up all of that block and nothing
behind it, except for spaces that only the end comes after.
-/

namespace TypeSchema

open Grammar (Spaces LineEnd Begun)
open Cursor (IsContent)

variable {c d : Cursor} {ts rest rest' line : List Token} {lines lines' : List (List Token)}

-- ---------------------------------------------------------------------------
-- Cutting lines off
-- ---------------------------------------------------------------------------

/-- The tokens are lines that hold nothing but spaces, with a rest behind them. -/
structure BlankThen (ts : List Token) (lines : List (List Token)) (rest : List Token) : Prop where
  tokens : ts = lines.flatten ++ rest
  blank : ∀ line ∈ lines, LineEnd line []

/-- The lines are as many as can be cut off. -/
structure BlankBlock (ts : List Token) (lines : List (List Token)) (rest : List Token) : Prop
    extends BlankThen ts lines rest where
  most : ∀ lines' rest', BlankThen ts lines' rest' → lines'.length ≤ lines.length

theorem lineEnd_append (h : LineEnd line []) (rest : List Token) : LineEnd (line ++ rest) rest := by
  obtain ⟨t, ht, spaces, hs, rfl⟩ := h
  exact ⟨t, ht, spaces, hs, by simp⟩

theorem BlankThen.cons (h : LineEnd line []) (others : BlankThen ts lines rest) :
    BlankThen (line ++ ts) (line :: lines) rest where
  tokens := by rw [others.tokens, List.flatten_cons, List.append_assoc]
  blank := List.forall_mem_cons.mpr ⟨h, others.blank⟩

theorem BlankThen.compare (h : BlankThen ts lines rest) (h' : BlankThen ts lines' rest') :
    lines <+: lines' ∨ lines' <+: lines := by
  induction lines generalizing ts lines' with
  | nil => exact .inl List.nil_prefix
  | cons line lines ih =>
    cases lines' with
    | nil => exact .inr List.nil_prefix
    | cons line' lines' =>
      obtain ⟨tokens, blank⟩ := h
      obtain ⟨tokens', blank'⟩ := h'
      rw [List.flatten_cons, List.append_assoc] at tokens tokens'
      obtain ⟨hline, others⟩ := List.forall_mem_cons.mp blank
      obtain ⟨hline', others'⟩ := List.forall_mem_cons.mp blank'
      -- a blank line ends in one place only
      have behind : lines.flatten ++ rest = lines'.flatten ++ rest' :=
        LineEnd.unique (tokens ▸ lineEnd_append hline _) (tokens' ▸ lineEnd_append hline' _)
      obtain rfl : line = line' := by
        rw [tokens, behind] at tokens'
        exact List.append_cancel_right tokens'
      refine (ih ⟨rfl, others⟩ ⟨behind, others'⟩).imp ?_ ?_ <;>
        exact fun shorter => List.cons_prefix_cons.mpr ⟨rfl, shorter⟩

theorem BlankBlock.unique (h : BlankBlock ts lines rest) (h' : BlankBlock ts lines' rest') :
    lines' = lines ∧ rest' = rest := by
  have length : lines'.length = lines.length :=
    Nat.le_antisymm (h.most _ _ h'.toBlankThen) (h'.most _ _ h.toBlankThen)
  obtain rfl : lines' = lines := by
    rcases h.compare h'.toBlankThen with shorter | shorter
    · exact (shorter.eq_of_length length.symm).symm
    · exact shorter.eq_of_length length
  exact ⟨rfl, List.append_cancel_left (h'.tokens.symm.trans h.tokens)⟩

/-- No more lines can be cut off where the rest begins with another line. -/
theorem BlankThen.block (h : BlankThen ts lines rest) (begun : Begun rest) :
    BlankBlock ts lines rest where
  toBlankThen := h
  most lines' rest' h' := by
    rcases h.compare h' with ⟨more, rfl⟩ | shorter
    · cases more with
      | nil => simp
      | cons line more =>
        have tokens := h.tokens.symm.trans h'.tokens
        rw [List.flatten_append, List.flatten_cons, List.append_assoc] at tokens
        have hrest := List.append_cancel_left tokens
        rw [List.append_assoc] at hrest
        have blank : LineEnd line [] := h'.blank line (by simp)
        exact (begun.not_lineEnd (hrest ▸ lineEnd_append blank _)).elim
    · exact shorter.length_le

-- ---------------------------------------------------------------------------
-- Line by line
-- ---------------------------------------------------------------------------

/-- How blank lines come to an end, with the spaces that are used up and the tokens that are left:
at a line with content, or at the end of the input. -/
inductive Ending : List Token → List Token → List Token → Prop
  | content {rest t more} : Spaces rest (t :: more) → IsContent t.kind → Ending rest [] rest
  | input {spaces stop} : (∀ t ∈ spaces, t.kind = .space) → stop.kind = .endOfInput →
      Ending (spaces ++ [stop]) spaces [stop]

theorem Ending.begun {passed left : List Token} (h : Ending rest passed left) : Begun rest := by
  cases h with
  | content line content => exact Grammar.begun_of_content line content
  | input hspaces hstop => exact Grammar.begun_of_end ⟨_, hspaces, rfl⟩ hstop

namespace Cursor

theorem ahead_cases (h : ∀ t ∈ c.ahead, t.kind ≠ .endOfInput) :
    c.afterSpaces.kind.isLineBreak ∨ (∀ t ∈ c.ahead, t.kind = .space) ∨
      ∃ t more, Spaces c.tokens (t :: more) ∧ IsContent t.kind := by
  obtain ⟨spaces, rest, hahead, hspaces, -, hafter, hspace⟩ := c.ahead_eq_spaces
  cases rest with
  | nil =>
    rw [List.append_nil] at hahead
    exact .inr (.inl (hahead ▸ hspaces))
  | cons t more =>
    replace hafter : c.afterSpaces = t := hafter
    cases hbreak : t.kind.isLineBreak with
    | true => exact .inl (hafter ▸ hbreak)
    | false =>
      have hend : t.kind ≠ .endOfInput := h t (by simp [hahead])
      refine .inr (.inr ⟨t, more ++ [c.stop], ⟨spaces, hspaces, ?_⟩, hafter ▸ hspace, hbreak, hend⟩)
      rw [tokens, hahead, List.append_assoc, List.cons_append]

theorem gives_nextLine (h : c.afterSpaces.kind.isLineBreak) :
    ∃ line, LineEnd line [] ∧ c.Gives line c.nextLine := by
  obtain ⟨within, spaces, hspaces, taken⟩ := take_nextLine h
  refine ⟨spaces ++ [c.afterSpaces], ⟨_, h, spaces, hspaces, rfl⟩, ?_⟩
  rw [← taken]
  refine gives_advance within fun t ht => ?_
  rw [taken] at ht
  rcases List.mem_append.mp ht with ht | ht
  · simp [hspaces t ht]
  · obtain rfl := List.mem_singleton.mp ht
    intro hend
    rw [hend] at h
    cases h

theorem skipBlankLines_of_spaces (h : ∀ t ∈ c.ahead, t.kind = .space) :
    c.skipBlankLines = c.advance c.ahead.length := by
  have run := blankRun_spaces h 0 []
  rw [List.append_nil, Nat.zero_add] at run
  rw [skipBlankLines, run, blankRun]

theorem skipBlankLines_of_content {t : Token} (h : Spaces c.tokens (t :: rest))
    (ht : IsContent t.kind) : c.skipBlankLines = c := by
  obtain ⟨spaces, hs, htokens⟩ := h
  rw [skipBlankLines, ← blankRun_append_stop c.stop_kind, ← tokens, htokens, blankRun_spaces hs,
    blankRun_content ht, advance_zero]

/-- One blank line after the other is used up, until they come to an end. -/
theorem skipBlankLines_ends (c : Cursor) (h : ∀ t ∈ c.ahead, t.kind ≠ .endOfInput) :
    ∃ lines rest passed, BlankThen c.tokens lines rest ∧
      Ending rest passed c.skipBlankLines.tokens ∧
      c.Gives (lines.flatten ++ passed) c.skipBlankLines := by
  rcases ahead_cases h with hbreak | hspaces | ⟨t, more, line, content⟩
  · obtain ⟨line, hline, here⟩ := gives_nextLine hbreak
    have further := (later_nextLine hbreak).remaining_lt
    obtain ⟨lines, rest, passed, cut, ending, others⟩ :=
      skipBlankLines_ends c.nextLine fun t ht => h t (List.mem_of_mem_drop ht)
    rw [skipBlankLines_eq, if_pos hbreak]
    refine ⟨line :: lines, rest, passed, ?_, ending, ?_⟩
    · rw [here.split.1]
      exact cut.cons hline
    · rw [List.flatten_cons, List.append_assoc]
      exact here.trans others
  · have all := gives_advance (Nat.le_of_eq c.remaining_eq.symm)
      fun t ht => h t (List.mem_of_mem_take ht)
    rw [List.take_length] at all
    have left : (c.advance c.ahead.length).tokens = [c.stop] := by
      rw [tokens, ahead_advance, List.drop_length, stop_advance, List.nil_append]
    rw [skipBlankLines_of_spaces hspaces, left]
    exact ⟨[], c.tokens, c.ahead, ⟨rfl, by simp⟩, .input hspaces c.stop_kind, all⟩
  · rw [skipBlankLines_of_content line content]
    exact ⟨[], c.tokens, [], ⟨rfl, by simp⟩, .content line content, .none⟩
termination_by c.remaining

-- ---------------------------------------------------------------------------
-- What is skipped
-- ---------------------------------------------------------------------------

theorem check_eq (c : Cursor) (kind : Token.Kind) :
    c.check kind = c.tokens.head?.any (·.kind = kind) := by
  rw [List.head?_eq_getElem?, getElem?_tokens_zero, Option.any_some]
  rfl

theorem bodyEnd_eq (c : Cursor) :
    Read.bodyEnd c = if c.skipBlankLines.check (.mark .rightBrace) then
      .ok true c.skipBlankLines.next else .ok false c.skipBlankLines := by
  have run : Read.bodyEnd c = Read.takeMark .rightBrace c.skipBlankLines := rfl
  rw [run, Read.takeMark_ok.mpr ⟨rfl, rfl⟩]
  split
  next closed => rw [closed]
  next closed => rw [Bool.eq_false_iff.mpr closed]

/-- Spaces that only the end of the input comes after. -/
def OnlySpaces (ts : List Token) : Prop :=
  ∃ stop, stop.kind = .endOfInput ∧ Spaces ts [stop]

/-- What skipping does where the blank lines ahead are `lines` and `rest` is behind them. -/
structure SkipsBlock (c : Cursor) (lines : List (List Token)) (rest : List Token) : Prop where
  /-- The lines are used up. The spaces behind them are not. -/
  block : ¬OnlySpaces rest → c.Gives lines.flatten c.skipBlankLines ∧ c.skipBlankLines.tokens = rest
  input : OnlySpaces rest → c.skipBlankLines.tokens = [c.stop]
  again : c.skipBlankLines.skipBlankLines = c.skipBlankLines
  /-- The brace that closes a body is taken exactly if it comes first. -/
  brace : Read.bodyEnd c = if rest.head?.any (·.kind = .mark .rightBrace) then
    .ok true c.skipBlankLines.next else .ok false c.skipBlankLines

theorem head?_of_onlySpaces (h : OnlySpaces ts) {mark : Mark} :
    ts.head?.any (·.kind = .mark mark) = false := by
  obtain ⟨stop, hstop, spaces, hspaces, rfl⟩ := h
  cases spaces with
  | nil => simp [hstop]
  | cons space spaces => simp [hspaces space List.mem_cons_self]

theorem skipsBlock_of_ending {passed : List Token}
    (ending : Ending rest passed c.skipBlankLines.tokens)
    (given : c.Gives (lines.flatten ++ passed) c.skipBlankLines) : c.SkipsBlock lines rest := by
  have brace := c.bodyEnd_eq
  rw [check_eq] at brace
  generalize hleft : c.skipBlankLines.tokens = left at ending brace
  cases ending with
  | content line content =>
    have more : ¬OnlySpaces rest := by
      rintro ⟨stop, hstop, spaces⟩
      exact Grammar.not_end_of_content line content spaces hstop
    rw [List.append_nil] at given
    exact ⟨fun _ => ⟨given, hleft⟩, fun only => (more only).elim,
      skipBlankLines_of_content (hleft ▸ line) content, brace⟩
  | @input _ stop hspaces hstop =>
    have only : OnlySpaces (passed ++ [stop]) := ⟨stop, hstop, passed, hspaces, rfl⟩
    have none : c.skipBlankLines.ahead = [] := by
      have length := congrArg List.length hleft
      rw [tokens, List.length_append] at length
      exact List.length_eq_zero_iff.mp (Nat.succ.inj length)
    refine ⟨fun more => (more only).elim, fun _ => ?_, ?_, ?_⟩
    · rw [tokens, none]
      rfl
    · rw [skipBlankLines_of_spaces (by simp [none]), none]
      exact advance_zero _
    · rw [brace, head?_of_onlySpaces only, head?_of_onlySpaces ⟨stop, hstop, .refl _⟩]

/-- Where the last token is the only end, the tokens ahead begin with one block of as many blank
lines as can be cut off. Skipping blank lines uses up this block, and no space of a line behind it;
a second time it does nothing. -/
theorem skipBlankLines_block (h : ∀ t ∈ c.ahead, t.kind ≠ .endOfInput) :
    ∃ lines rest, BlankBlock c.tokens lines rest ∧
      (∀ lines' rest', BlankBlock c.tokens lines' rest' → lines' = lines ∧ rest' = rest) ∧
      c.SkipsBlock lines rest := by
  obtain ⟨lines, rest, passed, cut, ending, given⟩ := c.skipBlankLines_ends h
  have block := cut.block ending.begun
  exact ⟨lines, rest, block, fun _ _ other => block.unique other,
    skipsBlock_of_ending ending given⟩

/-- Behind an opening brace there are two blank lines, of two and three tokens. The four spaces of
the third line stay. -/
theorem skipBlankLines_block_behind_brace :
    let c := (ofSource "\x7b \n  \r\n    a\n\x7d").advance 1
    (∀ t ∈ c.ahead, t.kind ≠ .endOfInput) ∧ c.skipBlankLines.position = 1 + 5 ∧
      ∃ lines rest, BlankBlock c.tokens lines rest ∧
        (∀ lines' rest', BlankBlock c.tokens lines' rest' → lines' = lines ∧ rest' = rest) ∧
        c.SkipsBlock lines rest := by
  intro c
  have h : ∀ t ∈ c.ahead, t.kind ≠ .endOfInput := by decide +kernel
  exact ⟨h, by decide +kernel, skipBlankLines_block h⟩

end Cursor

end TypeSchema
