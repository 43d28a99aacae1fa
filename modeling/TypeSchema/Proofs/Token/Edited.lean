import TypeSchema.Proofs.Moved
import TypeSchema.Proofs.Token.Place
import TypeSchema.Proofs.Token.Printed

/-!
# Scanning a text that was edited

Where a text is edited behind a token, the tokens before are scanned again as they are, if the new
text does not go on with a word there. The tokens behind the edit are scanned again as well, and
what matters for their places is only the line and the column at which they begin.
-/

namespace TypeSchema

-- ---------------------------------------------------------------------------
-- Lines
-- ---------------------------------------------------------------------------

namespace Location

variable {l : Location} {chars : List Char}

theorem line_after (h : l.line + chars.count '\n' ≤ limit) :
    (l.after chars).line = l.line + chars.count '\n' := by
  rw [line_after_eq_min (by omega), Nat.min_eq_left h]

theorem line_start_after (h : 1 + chars.count '\n' ≤ limit) :
    (start.after chars).line = 1 + chars.count '\n' := line_after h

theorem line_after_of_not_mem (h : '\n' ∉ chars) : (l.after chars).line = l.line := by
  induction chars generalizing l with
  | nil => rfl
  | cons c chars ih =>
    rw [List.mem_cons, not_or] at h
    rw [after_cons, ih h.2, next, if_neg (Ne.symm h.1)]

/-- The place one line further down. -/
def down (l : Location) : Location := { l with line := l.line + 1 }

theorem down_after (h : l.line + chars.count '\n' < limit) :
    l.down.after chars = (l.after chars).down := by
  induction chars generalizing l with
  | nil => rfl
  | cons c chars ih =>
    rw [after_cons, after_cons]
    by_cases hc : c = '\n'
    · rw [hc, List.count_cons_self] at h
      have step : l.down.next c = (l.next c).down := by
        simp only [next, hc, if_true, down]
        rw [Nat.min_eq_left (by omega), Nat.min_eq_left (by omega)]
      rw [step, ih]
      simp only [next, hc, if_true]
      omega
    · rw [List.count_cons_of_ne hc] at h
      have step : l.down.next c = (l.next c).down := by simp only [next, if_neg hc, down]
      have line : (l.next c).line = l.line := by simp only [next, if_neg hc]
      rw [step, ih (line ▸ h)]

end Location

namespace Token

variable {l : Location} {text : List Char} {before after : List Token}

theorem scanFrom_down (h : l.line + text.count '\n' < Location.limit) :
    scanFrom l.down text = (scanFrom l text).map (·.moved Location.down) := by
  induction hn : text.length using Nat.strongRecOn generalizing l text with
  | _ n ih =>
    cases text with
    | nil => simp [scanFrom, moved]
    | cons c rest =>
      have whole := congrArg (List.count '\n') (lexeme_append c rest)
      rw [List.count_append] at whole
      have passed : l.line + (lexeme c rest).chars.count '\n' < Location.limit := by omega
      have left : (l.after (lexeme c rest).chars).line + (lexeme c rest).rest.count '\n' <
          Location.limit := by
        rw [Location.line_after (Nat.le_of_lt passed)]
        omega
      rw [scanFrom, scanFrom, List.map_cons, Location.down_after passed,
        ih _ (hn ▸ length_lexeme_rest c rest) left rfl]
      rfl

theorem le_line_of_mem {t : Token} (ht : t ∈ scanFrom l text)
    (hcount : l.line + text.count '\n' ≤ Location.limit) : l.line ≤ t.location.line := by
  obtain ⟨front, back, h⟩ := List.append_of_mem ht
  have whole := congrArg (List.count '\n') (text_scanFrom l text)
  rw [h, List.flatMap_append, List.count_append] at whole
  have line : (l.after (chars front)).line = l.line + (chars front).count '\n' :=
    Location.line_after (by
      rw [chars]
      omega)
  rw [location_of_scanFrom h, line]
  exact Nat.le_add_right _ _

-- ---------------------------------------------------------------------------
-- Before and behind an edit
-- ---------------------------------------------------------------------------

theorem scanFrom_split (h : scanFrom l text = before ++ after) (hne : after ≠ []) :
    (∀ t ∈ before, t.kind ≠ .endOfInput) ∧ ∃ us stop, after = us ++ [stop] ∧
      stop.kind = .endOfInput ∧ ∀ t ∈ us, t.kind ≠ .endOfInput := by
  obtain ⟨ts, stop, hscan, hstop, hts⟩ := scanFrom_eq_append l text
  obtain ⟨us, last, rfl⟩ := (List.eq_nil_or_concat' after).resolve_left hne
  rw [hscan, ← List.append_assoc] at h
  obtain ⟨rfl, hlast⟩ := List.append_inj' h rfl
  cases hlast
  exact ⟨fun t ht => hts t (List.mem_append_left _ ht), us, stop, rfl, hstop,
    fun t ht => hts t (List.mem_append_right _ ht)⟩

theorem lexeme_endsBefore {c : Char} {rest : List Char} (hkind : (lexeme c rest).kind ≠ .invalid) :
    (lexeme c rest).kind.EndsBefore (lexeme c rest).rest := by
  have run (p : Char → Bool) : ∀ d ∈ (rest.dropWhile p).head?, p d = false := by
    intro d hd
    have := List.head?_dropWhile_not p rest
    rw [Option.mem_def.mp hd] at this
    simpa using this
  unfold lexeme at hkind ⊢
  split
  next kind hword =>
    rcases wordKind?_eq hword with rfl | rfl <;> exact run isWordChar
  next hword =>
    simp only [hword] at hkind
    split
    next hdigit =>
      rw [if_pos hdigit] at hkind
      simp only [Lexeme.run] at hkind ⊢
      split
      next => exact run Char.isDigit
      next h => exact hkind (if_neg h)
    next hdigit =>
      rw [if_neg hdigit] at hkind
      split
      next hquote =>
        rw [if_pos hquote] at hkind
        split
        next h =>
          rw [h] at hkind
          exact hkind rfl
        next => trivial
      next hquote =>
        rw [if_neg hquote] at hkind
        split
        next hcr =>
          rw [if_pos hcr] at hkind
          split at hkind
          next => trivial
          next => exact (hkind rfl).elim
        next hcr =>
          rw [if_neg hcr] at hkind
          simp only at hkind ⊢
          split
          next => trivial
          next hnewline =>
            rw [if_neg hnewline] at hkind
            split
            next => trivial
            next hspace =>
              rw [if_neg hspace] at hkind
              cases hmark : Mark.ofChar? c with
              | some m => trivial
              | none =>
                rw [hmark] at hkind
                exact hkind rfl

/-- A token is scanned again with other characters behind it, if they begin like the old ones or
with no word. -/
theorem lexeme_instead {c : Char} {rest other : List Char} (hkind : (lexeme c rest).kind ≠ .invalid)
    (h : other.head? = (lexeme c rest).rest.head? ∨ Stops other) :
    ∃ first more, (lexeme c rest).chars = first :: more ∧
      lexeme first (more ++ other) = { lexeme c rest with rest := other } := by
  have ends := lexeme_endsBefore hkind
  refine lexeme_of_spells (lexeme_spells c rest) ?_
  generalize (lexeme c rest).kind = kind at ends
  cases kind with
  | symbol | name =>
    rcases h with h | h
    · exact fun d hd => ends d (h ▸ hd)
    · exact h
  | natural =>
    rcases h with h | h
    · exact fun d hd => ends d (h ▸ hd)
    · exact h.noDigit
  | _ => exact ends

theorem scanFrom_instead {other : List Char} (h : scanFrom l text = before ++ after)
    (hne : after ≠ []) (hvalid : ∀ t ∈ before, t.kind ≠ .invalid) (hstop : Stops other) :
    scanFrom l (chars before ++ other) = before ++ scanFrom (l.after (chars before)) other := by
  induction before generalizing l text with
  | nil => rfl
  | cons t before ih =>
    cases text with
    | nil =>
      rw [scanFrom, List.cons_append] at h
      exact (hne (List.append_eq_nil_iff.mp (List.cons.inj h).2.symm).2).elim
    | cons c rest =>
      rw [scanFrom, List.cons_append] at h
      obtain ⟨rfl, hrest⟩ := List.cons.inj h
      obtain ⟨hkind, hvalid⟩ := List.forall_mem_cons.mp hvalid
      -- behind the token come the characters of the others, or the new ones
      have ahead : (chars before ++ other).head? = (lexeme c rest).rest.head? ∨
          Stops (chars before ++ other) := by
        cases before with
        | nil => exact .inr hstop
        | cons u before =>
          have hmem : u ∈ scanFrom (l.after (lexeme c rest).chars) (lexeme c rest).rest := by
            simp [hrest]
          have hkind := (scanFrom_split hrest hne).1 u List.mem_cons_self
          obtain ⟨d, ds, hd⟩ := List.exists_cons_of_ne_nil (text_ne_nil_of_scanFrom hmem hkind)
          left
          rw [← text_scanFrom _ (lexeme c rest).rest, hrest]
          simp [hd]
      obtain ⟨first, more, hchars, hlex⟩ := lexeme_instead hkind ahead
      have again : scanFrom l ((lexeme c rest).chars ++ (chars before ++ other)) =
          ⟨(lexeme c rest).kind, String.ofList (lexeme c rest).chars, l⟩ ::
            scanFrom (l.after (lexeme c rest).chars) (chars before ++ other) := by
        rw [hchars, List.cons_append, scanFrom]
        simp only [hlex, hchars]
      rw [chars_cons, String.toList_ofList, List.append_assoc, again, ih hrest hvalid,
        List.cons_append, Location.after_append]

-- ---------------------------------------------------------------------------
-- Spaces and line breaks
-- ---------------------------------------------------------------------------

def lineBreaks : List (List Char) := [['\n'], ['\r', '\n']]

variable {new : List Char}

theorem count_of_mem_lineBreaks (h : new ∈ lineBreaks) : new.count '\n' = 1 := by
  rcases List.mem_pair.mp h with rfl | rfl <;> rfl

theorem after_lineBreak (h : new ∈ lineBreaks) (l : Location) :
    l.after new = ⟨min (l.line + 1) Location.limit, 1⟩ := by
  rcases List.mem_pair.mp h with rfl | rfl <;> rfl

theorem Spelled.mem_lineBreaks {t : Token} (hs : t.Spelled) (ht : t.kind.isLineBreak) :
    t.text.toList ∈ lineBreaks := List.mem_pair.mpr (hs.lineBreak ht)

theorem scanFrom_lineBreak (h : new ∈ lineBreaks) (l : Location) (rest : List Char) :
    ∃ t, t.kind.isLineBreak ∧ scanFrom l (new ++ rest) =
      t :: scanFrom ⟨min (l.line + 1) Location.limit, 1⟩ rest := by
  rw [← after_lineBreak h]
  rcases List.mem_pair.mp h with rfl | rfl
  · exact ⟨_, rfl, scanFrom_append .newline rfl trivial⟩
  · exact ⟨_, rfl, scanFrom_append .crlf rfl trivial⟩

theorem scanFrom_spaces (n : Nat) (l : Location) (rest : List Char) :
    ∃ spaces l', (∀ s ∈ spaces, s.kind = .space) ∧ l'.line = l.line ∧
      scanFrom l (List.replicate n ' ' ++ rest) = spaces ++ scanFrom l' rest := by
  induction n generalizing l with
  | zero => exact ⟨[], l, nofun, rfl, rfl⟩
  | succ n ih =>
    obtain ⟨spaces, l', hs, hl, hscan⟩ := ih (l.after [' '])
    refine ⟨⟨.space, String.ofList [' '], l⟩ :: spaces, l', by simpa using hs, hl, ?_⟩
    rw [List.cons_append, ← hscan]
    exact scanFrom_append .space rfl trivial

theorem not_mem_chars_spaces {spaces : List Token} (hs : ∀ s ∈ spaces, s.Spelled)
    (hk : ∀ s ∈ spaces, s.kind = .space) : '\n' ∉ chars spaces := by
  rw [chars, List.mem_flatMap]
  rintro ⟨s, hmem, h⟩
  rw [(hs s hmem).space (hk s hmem), List.mem_singleton] at h
  exact absurd h (by decide)

theorem stops_lineBreak (h : new ∈ lineBreaks) (rest : List Char) : Stops (new ++ rest) := by
  rcases List.mem_pair.mp h with rfl | rfl <;> exact stops_cons rfl

theorem stops_spaces {rest : List Char} (h : Stops rest) (n : Nat) :
    Stops (List.replicate n ' ' ++ rest) := by
  cases n with
  | zero => exact h
  | succ n => exact stops_cons rfl

end Token

end TypeSchema
