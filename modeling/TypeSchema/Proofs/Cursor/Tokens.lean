import TypeSchema.Cursor

/-!
# The tokens ahead of a cursor

All that a reading can see of a cursor is the list of tokens from where it stands to the last one.
Every operation on cursors is told here by what it does to that list.
-/

namespace TypeSchema.Cursor

/-- The token that the cursor stands at and all that come after it. -/
def tokens (c : Cursor) : List Token := c.ahead ++ [c.stop]

theorem length_tokens (c : Cursor) : c.tokens.length = c.remaining + 1 := by
  simp [tokens, c.remaining_eq]

theorem peek_of_tokens {c : Cursor} {t : Token} {rest : List Token} (h : c.tokens = t :: rest) :
    c.peek = t := by
  unfold tokens at h
  unfold peek
  cases hc : c.ahead with
  | nil => simp_all
  | cons a as => simp_all

theorem tokens_of_atEnd {c : Cursor} (h : c.atEnd) :
    ∃ t rest, t.kind = .endOfInput ∧ c.tokens = t :: rest := by
  obtain ⟨t, rest, ht⟩ := List.exists_cons_of_ne_nil (by simp [tokens] : c.tokens ≠ [])
  refine ⟨t, rest, ?_, ht⟩
  simpa [atEnd, check, peek_of_tokens ht] using h

theorem tokens_advance {c : Cursor} {n : Nat} (h : n ≤ c.remaining) :
    (c.advance n).tokens = c.tokens.drop n := by
  rw [c.remaining_eq] at h
  rw [tokens, tokens, List.drop_append_of_le_length h, ahead_advance, stop_advance]

theorem tokens_eq_cons {c : Cursor} (h : c.peek.kind ≠ .endOfInput) :
    c.tokens = c.peek :: c.next.tokens := by
  have hr := remaining_next_lt h
  rw [next, if_neg (by simpa [atEnd, check] using h)] at hr ⊢
  rw [remaining_advance] at hr
  rw [tokens_advance (by omega)]
  cases hc : c.tokens with
  | nil => simp [tokens] at hc
  | cons t rest => rw [peek_of_tokens hc, List.drop_one, List.tail_cons]

theorem tokens_next {c : Cursor} {t : Token} {rest : List Token} (h : c.tokens = t :: rest)
    (ht : t.kind ≠ .endOfInput) : c.next.tokens = rest := by
  have hp := peek_of_tokens h
  have hc := tokens_eq_cons (c := c) (hp ▸ ht)
  rw [h] at hc
  exact (List.cons.inj hc).2.symm

theorem next_of_atEnd {c : Cursor} (h : c.peek.kind = .endOfInput) : c.next = c := by
  rw [next, if_pos (by simpa [atEnd, check] using h)]

theorem drop_length_takeWhile {α : Type} (p : α → Bool) (l : List α) :
    l.drop (l.takeWhile p).length = l.dropWhile p := by
  have h := congrArg (List.drop (l.takeWhile p).length)
    (List.takeWhile_append_dropWhile (p := p) (l := l))
  rw [List.drop_left] at h
  exact h.symm

theorem tokens_advance_run {c : Cursor} {kind : Token.Kind} (h : kind ≠ .endOfInput) :
    (c.advance (c.run kind)).tokens = c.tokens.dropWhile (·.kind = kind) := by
  have hs : c.stop.kind ≠ kind := by rw [c.stop_kind]; exact h.symm
  rw [tokens, tokens, ahead_advance, run, drop_length_takeWhile, List.dropWhile_append]
  split
  next he => simp_all
  next => rfl

-- ---------------------------------------------------------------------------
-- Blank lines
-- ---------------------------------------------------------------------------

theorem blankRun_spaces {spaces : List Token} (h : ∀ t ∈ spaces, t.kind = .space) (n : Nat)
    (ts : List Token) : blankRun n (spaces ++ ts) = blankRun (n + spaces.length) ts := by
  induction spaces generalizing n with
  | nil => rfl
  | cons t spaces ih =>
    rw [List.cons_append, blankRun, if_pos (h t (by simp)),
      ih (fun t ht => h t (by simp [ht])), List.length_cons]
    congr 1
    omega

theorem blankRun_lineBreak {t : Token} (h : t.kind.isLineBreak) (n : Nat) (ts : List Token) :
    blankRun n (t :: ts) = n + 1 + blankRun 0 ts := by
  rw [blankRun, if_neg (by intro hs; rw [hs] at h; cases h), if_pos h]

theorem blankRun_endOfInput {t : Token} (h : t.kind = .endOfInput) (n : Nat) (ts : List Token) :
    blankRun n (t :: ts) = n := by
  rw [blankRun, if_neg (by rw [h]; decide), if_neg (by rw [h]; decide), if_pos h]

/-- The kinds that make a line no blank line. -/
def IsContent (kind : Token.Kind) : Prop :=
  kind ≠ .space ∧ kind.isLineBreak = false ∧ kind ≠ .endOfInput

/-- The kinds that `IsContent` allows, as a function that computes. -/
def isContent : Token.Kind → Bool
  | .space | .newline | .crlf | .endOfInput => false
  | _ => true

theorem content_of_kind {t : Token} {kind : Token.Kind} (h : t.kind = kind)
    (hk : isContent kind) : IsContent t.kind := by
  rw [h]
  cases kind with
  | space | newline | crlf | endOfInput => cases hk
  | _ => exact ⟨nofun, rfl, nofun⟩

theorem blankRun_content {t : Token} (h : IsContent t.kind) (n : Nat) (ts : List Token) :
    blankRun n (t :: ts) = 0 := by
  rw [blankRun, if_neg h.1, if_neg (by simp [h.2.1]), if_neg h.2.2]

theorem blankRun_append_stop {stop : Token} (h : stop.kind = .endOfInput) (n : Nat)
    (ts : List Token) : blankRun n (ts ++ [stop]) = blankRun n ts := by
  induction ts generalizing n with
  | nil => exact blankRun_endOfInput h n []
  | cons t ts ih => simp only [List.cons_append, blankRun, ih]

theorem blankRun_le (n : Nat) (ts : List Token) : blankRun n ts ≤ n + ts.length := by
  induction ts generalizing n with
  | nil => simp [blankRun]
  | cons t ts ih =>
    have h0 := ih 0
    have h1 := ih (n + 1)
    rw [blankRun, List.length_cons]
    split
    · omega
    · split
      · omega
      · split <;> omega

theorem tokens_skipBlankLines (c : Cursor) :
    c.skipBlankLines.tokens = c.tokens.drop (blankRun 0 c.tokens) := by
  have h := blankRun_le 0 c.ahead
  rw [skipBlankLines, tokens_advance (by rw [c.remaining_eq]; omega)]
  congr 1
  exact (blankRun_append_stop c.stop_kind 0 c.ahead).symm

end TypeSchema.Cursor
