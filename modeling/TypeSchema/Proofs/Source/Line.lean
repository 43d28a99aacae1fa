import Mathlib.Data.List.DropRight
import TypeSchema.Proofs.Token.Form
import TypeSchema.Source

/-!
# The line that a token is on

Tokens count lines by the line feeds before them, and a column for each other character, carriage
returns among them. A source is cut into lines at the same line feeds, but a carriage return right
before one belongs to no line. The two agree: no token ends between the characters of a line break,
so each token is found on the line of its number, behind as many characters as its column says.
-/

namespace TypeSchema

namespace Source

-- ---------------------------------------------------------------------------
-- The first line
-- ---------------------------------------------------------------------------

/-- The line is the text up to its first line break: up to a line feed, or up to the carriage return
right before that. -/
inductive UpToBreak : List Char → List Char → Prop
  | all {text} : '\n' ∉ text → UpToBreak text text
  | newline {line rest} : '\n' ∉ line → line.getLast? ≠ some '\r' →
      UpToBreak (line ++ '\n' :: rest) line
  | crlf {line rest} : '\n' ∉ line → UpToBreak (line ++ '\r' :: '\n' :: rest) line

variable {text line first more : List Char}

theorem firstLine_of_not_mem (h : '\n' ∉ text) : firstLine text = text := by
  have whole : text.takeWhile (fun c => decide (c ≠ '\n')) = text :=
    List.takeWhile_eq_self_iff.mpr fun c hc => by simpa using ne_of_mem_of_not_mem hc h
  simp only [firstLine, whole, List.drop_length, ne_eq, not_true_eq_false, false_and, if_false]

theorem firstLine_of_break (h : '\n' ∉ line) (rest : List Char) :
    firstLine (line ++ '\n' :: rest) =
      if line.getLast? = some '\r' then line.dropLast else line := by
  have before : (line ++ '\n' :: rest).takeWhile (fun c => decide (c ≠ '\n')) = line := by
    rw [List.takeWhile_append_of_pos fun c hc => by simpa using ne_of_mem_of_not_mem hc h]
    simp
  simp only [firstLine, before, List.drop_left, ne_eq, reduceCtorEq, not_false_eq_true, true_and]

theorem upToBreak_firstLine (text : List Char) : UpToBreak text (firstLine text) := by
  by_cases h : '\n' ∈ text
  · obtain ⟨line, rest, rfl, hline⟩ := List.eq_append_cons_of_mem h
    rw [firstLine_of_break hline]
    split
    next hlast =>
      obtain ⟨line, rfl⟩ := List.getLast?_eq_some_iff.mp hlast
      rw [List.dropLast_concat, List.append_assoc]
      exact .crlf fun hmem => hline (by simp [hmem])
    next hlast => exact .newline hline hlast
  · rw [firstLine_of_not_mem h]
    exact .all h

theorem UpToBreak.subset (h : UpToBreak text line) : line ⊆ text := by
  cases h with
  | all _ => exact List.Subset.refl _
  | newline _ _ | crlf _ => exact List.subset_append_left ..

theorem UpToBreak.newline_not_mem (h : UpToBreak text line) : '\n' ∉ line := by
  cases h <;> assumption

theorem firstLine_append (hfirst : '\n' ∉ first)
    (h : first.getLast? = some '\r' → more.head? ≠ some '\n') :
    firstLine (first ++ more) = first ++ firstLine more := by
  by_cases hmore : '\n' ∈ more
  · obtain ⟨line, rest, rfl, hline⟩ := List.eq_append_cons_of_mem hmore
    rw [← List.append_assoc, firstLine_of_break (by simp [hfirst, hline]),
      firstLine_of_break hline]
    rcases List.eq_nil_or_concat' line with rfl | ⟨line, c, rfl⟩
    · rw [List.append_nil, if_neg fun hlast => h hlast rfl]
      simp
    · rw [← List.append_assoc, List.getLast?_concat, List.getLast?_concat, List.dropLast_concat,
        List.dropLast_concat]
      split <;> simp
  · rw [firstLine_of_not_mem hmore, firstLine_of_not_mem (by simp [hfirst, hmore])]

theorem firstLine_append_of_mem (h : '\n' ∈ first) (more : List Char) :
    firstLine (first ++ more) = firstLine first := by
  obtain ⟨line, rest, rfl, hline⟩ := List.eq_append_cons_of_mem h
  rw [List.append_assoc, List.cons_append, firstLine_of_break hline, firstLine_of_break hline]

-- ---------------------------------------------------------------------------
-- A line by its number
-- ---------------------------------------------------------------------------

theorem lineAfter?_behind_break (before text : List Char) :
    lineAfter? (before ++ '\n' :: text) (before.count '\n' + 1) = lineAfter? text 0 := by
  induction before with
  | nil => simp [lineAfter?]
  | cons c before ih =>
    rw [List.cons_append, List.count_cons]
    by_cases hc : c = '\n'
    · simpa [lineAfter?, hc] using ih
    · simpa [lineAfter?, hc] using ih

theorem lineAfter?_zero (h : text ≠ []) : lineAfter? text 0 = some (firstLine text) := by
  cases text with
  | nil => exact (h rfl).elim
  | cons c text => rfl

/-- Each line is the first one of what the text is from there on. -/
theorem upToBreak_of_lineAfter? {n : Nat} (h : lineAfter? text n = some line) :
    ∃ later, later <:+ text ∧ UpToBreak later line := by
  induction text generalizing n with
  | nil => cases h
  | cons c text ih =>
    cases n with
    | zero =>
      cases h
      exact ⟨c :: text, List.suffix_rfl, upToBreak_firstLine _⟩
    | succ n =>
      obtain ⟨before, h⟩ : ∃ before, lineAfter? text before = some line := by
        rw [lineAfter?] at h
        split at h <;> exact ⟨_, h⟩
      obtain ⟨later, hlater, upTo⟩ := ih h
      exact ⟨later, hlater.trans (List.suffix_cons c text), upTo⟩

theorem upToBreak_of_line? {s : Source} {n : Nat} {line : String} (h : s.line? n = some line) :
    ∃ later, later <:+ s.text.toList ∧ UpToBreak later line.toList := by
  cases n with
  | zero => cases h
  | succ n =>
    obtain ⟨chars, hchars, rfl⟩ := Option.map_eq_some_iff.mp h
    rw [String.toList_ofList]
    exact upToBreak_of_lineAfter? hchars

theorem lastLine_cases (text : List Char) :
    '\n' ∉ text ∧ text.count '\n' = 0 ∧ text.rtakeWhile (· ≠ '\n') = text ∨
      ∃ earlier current, text = earlier ++ '\n' :: current ∧ '\n' ∉ current ∧
        text.count '\n' = earlier.count '\n' + 1 ∧ text.rtakeWhile (· ≠ '\n') = current := by
  by_cases hbreak : '\n' ∈ text.reverse
  · obtain ⟨current, earlier, hsplit, hcurrent⟩ := List.eq_append_cons_of_mem hbreak
    obtain rfl : text = earlier.reverse ++ '\n' :: current.reverse := by
      rw [← List.reverse_reverse text, hsplit]
      simp
    refine .inr ⟨earlier.reverse, current.reverse, rfl, by simpa using hcurrent, ?_, ?_⟩
    · simp [List.count_eq_zero.mpr hcurrent]
    · rw [List.rtakeWhile, hsplit,
        List.takeWhile_append_of_pos fun c hc => by simpa using ne_of_mem_of_not_mem hc hcurrent]
      simp
  · rw [List.mem_reverse] at hbreak
    refine .inl ⟨hbreak, List.count_eq_zero.mpr hbreak, ?_⟩
    refine List.rtakeWhile_eq_self_iff.mpr fun c hc => ?_
    simpa using ne_of_mem_of_not_mem hc hbreak

theorem lineAfter?_count (before : List Char) (h : text ≠ []) :
    lineAfter? (before ++ text) (before.count '\n') =
      some (firstLine (before.rtakeWhile (· ≠ '\n') ++ text)) := by
  rcases lastLine_cases before with ⟨-, count, passed⟩ | ⟨earlier, current, rfl, -, count, passed⟩
  · rw [passed, count, lineAfter?_zero (by simp [h])]
  · rw [passed, count, List.append_assoc, List.cons_append, lineAfter?_behind_break,
      lineAfter?_zero (by simp [h])]

theorem lineAfter?_end (h : lineAfter? text (text.count '\n') = some line) :
    line = text.rtakeWhile (· ≠ '\n') := by
  have whole {text : List Char} (hbreak : '\n' ∉ text) (h : lineAfter? text 0 = some line) :
      line = text := by
    rw [lineAfter?_zero fun hnil => by simp [hnil, lineAfter?] at h,
      firstLine_of_not_mem hbreak] at h
    exact (Option.some.inj h).symm
  rcases lastLine_cases text with
    ⟨hbreak, count, passed⟩ | ⟨earlier, current, rfl, hcurrent, count, passed⟩
  · rw [passed]
    exact whole hbreak (count ▸ h)
  · rw [count, lineAfter?_behind_break] at h
    rw [passed]
    exact whole hcurrent h

end Source

-- ---------------------------------------------------------------------------
-- Tokens and line breaks
-- ---------------------------------------------------------------------------

namespace Token

open Source (firstLine)

variable {source : String} {t : Token} {before ts : List Token} {form : Option Form}

theorem HasForm.kind_eq (h : HasForm t ts form) {text : List Char} {other : Form}
    (hother : other.Fits text (chars (t :: ts))) : t.kind = other.kind := by
  obtain ⟨c, rest, htext⟩ := List.exists_cons_of_ne_nil h.1.ne_nil
  have scanned := h.1
  rw [htext] at scanned hother
  rw [h.2, ← scanned.lexeme.1, hother.lexeme.1]

theorem Run.not_mem {first later : Char → Prop} {chars : List Char} {c : Char}
    (h : Run first later chars) (hfirst : ¬first c) (hlater : ¬later c) : c ∉ chars := by
  obtain ⟨d, rest, rfl, hd, hrest⟩ := h
  rintro (_ | ⟨_, hc⟩)
  · exact hfirst hd
  · exact hlater (hrest c hc)

theorem not_continues_return : ¬Continues '\r' := by
  rw [← continues_iff]
  decide

theorem HasForm.not_between (h : HasForm t ts form) (hlast : t.text.toList.getLast? = some '\r') :
    (chars ts).head? ≠ some '\n' := by
  obtain ⟨hbegins, -⟩ := h
  have hmem : '\r' ∈ t.text.toList := List.mem_of_getLast? hlast
  have small : ¬IsSmall '\r' := fun h => not_continues_return (.inl h)
  have capital : ¬IsCapital '\r' := fun h => not_continues_return (.inr (.inl h))
  have decimal : ¬IsDecimal '\r' := fun h => not_continues_return (.inr (.inr (.inl h)))
  rw [chars_cons] at hbegins
  intro hhead
  obtain ⟨more, hmore⟩ := List.head?_eq_some_iff.mp hhead
  cases form with
  | none =>
    obtain ⟨⟨c, rest, htext, hchars⟩, unfit⟩ := hbegins
    obtain rfl : c = '\r' := by simpa [hchars] using hlast
    exact unfit .crlf _ ⟨rfl, more, by simp [hchars, hmore]⟩
  | some form =>
    cases form with
    | symbol => exact hbegins.holds.not_mem (by simp [small]) not_continues_return hmem
    | name => exact hbegins.holds.not_mem capital not_continues_return hmem
    | natural | overflow => exact hbegins.1.holds.not_mem decimal decimal hmem
    | text =>
      obtain ⟨content, -, hchars, -⟩ := hbegins
      rw [hchars, List.getLast?_concat] at hlast
      cases hlast
    | openText =>
      obtain ⟨hchars, -⟩ := hbegins
      simp [hmore] at hchars
    | crlf | newline | space =>
      rw [hbegins.1] at hlast
      cases hlast
    | mark m =>
      rw [hbegins.1] at hlast
      cases m <;> cases hlast

theorem HasForm.isLineBreak (h : HasForm t ts form) (hne : t.text.toList ≠ [])
    (hempty : firstLine t.text.toList = []) : t.kind.isLineBreak := by
  have upTo := Source.upToBreak_firstLine t.text.toList
  rw [hempty] at upTo
  generalize htext : t.text.toList = text at upTo hne
  cases upTo with
  | all _ => exact (hne rfl).elim
  | @newline _ rest _ _ =>
    have fits : Form.newline.Fits ['\n'] (chars (t :: ts)) :=
      ⟨rfl, rest ++ chars ts, by simp [htext]⟩
    rw [h.kind_eq fits]
    rfl
  | @crlf _ rest _ =>
    have fits : Form.crlf.Fits ['\r', '\n'] (chars (t :: ts)) :=
      ⟨rfl, rest ++ chars ts, by simp [htext]⟩
    rw [h.kind_eq fits]
    rfl

theorem not_between (h : scan source = before ++ t :: ts)
    (hlast : (chars before).getLast? = some '\r') : (chars (t :: ts)).head? ≠ some '\n' := by
  rcases List.eq_nil_or_concat' before with rfl | ⟨before, u, rfl⟩
  · cases hlast
  have here : u :: t :: ts <:+ scan source := ⟨before, by simp [h]⟩
  have hu : u.text.toList ≠ [] := text_ne_nil (h.trans (List.append_assoc ..))
  obtain ⟨form, hform⟩ := hasForm_of_scan here fun hend => by cases nil_of_endOfInput here hend
  have joined : chars (before ++ [u]) = chars before ++ u.text.toList := by simp [chars]
  rw [joined, List.getLast?_append_of_ne_nil _ hu] at hlast
  exact hform.not_between hlast

/-- The characters of its line that stand before a token. -/
def lineBefore (before : List Token) : List Char := (chars before).rtakeWhile (· ≠ '\n')

/-- In a short text the line of a token's number is what was passed of it, with the text from the
token up to the line break, and its column counts what was passed. -/
theorem line?_of_scan {s : Source} (hshort : s.text.length < Location.limit)
    (h : scan s.text = before ++ t :: ts) (ht : t.kind ≠ .endOfInput) :
    s.line? t.location.line =
        some (String.ofList (lineBefore before ++ firstLine (chars (t :: ts)))) ∧
      t.location.column = 1 + (lineBefore before).length := by
  have hne : chars (t :: ts) ≠ [] := by
    have hmem : t ∈ scanFrom .start s.text.toList := by rw [← scan, h]; simp
    simp [text_ne_nil_of_scanFrom hmem ht]
  have place := location_eq_behind hshort h
  have whole : s.text.toList = chars before ++ chars (t :: ts) := by
    rw [← chars_append, ← h, chars_scan]
  refine ⟨?_, by rw [place]; rfl⟩
  rw [place, Location.behind, Nat.add_comm, Source.line?, whole, Source.lineAfter?_count _ hne,
    Option.map_some]
  congr 2
  refine Source.firstLine_append (fun hmem => ?_) fun hlast => not_between h ?_
  · simpa using List.mem_rtakeWhile_imp hmem
  · obtain ⟨first, hfirst⟩ := (chars before).rtakeWhile_suffix (· ≠ '\n')
    rw [← hfirst, List.getLast?_append_of_ne_nil _ fun hnil => ?_]
    · exact hlast
    · rw [hnil] at hlast
      cases hlast

theorem firstLine_lineBreak (h : t.Spelled) (hbreak : t.kind.isLineBreak) :
    firstLine (chars (t :: ts)) = [] := by
  rw [chars_cons]
  rcases h.lineBreak hbreak with h | h
  · rw [h]
    exact Source.firstLine_of_break List.not_mem_nil (chars ts)
  · have single : '\n' ∉ ['\r'] := by decide
    rw [h]
    exact Source.firstLine_of_break single (chars ts)

theorem HasForm.firstLine_prefix (h : HasForm t ts form) :
    firstLine t.text.toList <+: firstLine (chars (t :: ts)) := by
  rw [chars_cons]
  by_cases hmem : '\n' ∈ t.text.toList
  · rw [Source.firstLine_append_of_mem hmem]
  · rw [Source.firstLine_of_not_mem hmem, Source.firstLine_append hmem h.not_between]
    exact List.prefix_append ..

/-- The token stands on the line of its number. A line break ends that line: as many characters are
on it as the column counts before the line break. Of any other token the characters up to its first
line break are there, from the column on. -/
def OnLine (t : Token) (s : Source) : Prop :=
  ∃ line, s.line? t.location.line = some line ∧
    (t.kind.isLineBreak → line.length + 1 = t.location.column) ∧
    (¬t.kind.isLineBreak → t.location.column ≤ line.length ∧
      ∃ first, Source.UpToBreak t.text.toList first ∧
        first <+: line.toList.drop (t.location.column - 1))

/-- In a short text the places of tokens are places on the lines of the source. -/
theorem scan_on_lines {s : Source} (hshort : s.text.length < Location.limit)
    (ht : t ∈ scan s.text) (hend : t.kind ≠ .endOfInput) : t.OnLine s := by
  obtain ⟨before, ts, hscan⟩ := List.append_of_mem ht
  have here : t :: ts <:+ scan s.text := ⟨before, hscan.symm⟩
  obtain ⟨form, hform⟩ := hasForm_of_scan here hend
  obtain ⟨hline, hcolumn⟩ := line?_of_scan hshort hscan hend
  refine ⟨_, hline, fun hbreak => ?_, fun hbreak => ?_⟩
  · rw [firstLine_lineBreak (scan_spelled ht) hbreak, List.append_nil, String.length_ofList, hcolumn,
      Nat.add_comm]
  · have hne : firstLine t.text.toList ≠ [] := fun hempty =>
      hbreak (hform.isLineBreak (text_ne_nil_of_scanFrom ht hend) hempty)
    have begins := hform.firstLine_prefix
    have := begins.length_le
    have := List.length_pos_iff.mpr hne
    refine ⟨?_, _, Source.upToBreak_firstLine t.text.toList, ?_⟩
    · rw [String.length_ofList, List.length_append]
      omega
    · rwa [String.toList_ofList, hcolumn, Nat.add_sub_cancel_left, List.drop_left]

/-- Both kinds of line break, a lone carriage return before one, a literal over two lines and a quote
that is never closed. -/
theorem scan_on_lines_of_open_quote :
    let s : Source := ⟨"a.gotyno", "a\r\r\n\"b\r\nü\"\n\r \"c\n"⟩
    let lineBreak : Token := ⟨.crlf, "\r\n", ⟨1, 3⟩⟩
    let literal : Token := ⟨.text, "\"b\r\nü\"", ⟨2, 1⟩⟩
    let quote : Token := ⟨.invalid, "\"c\n", ⟨4, 3⟩⟩
    s.text.length < Location.limit ∧
      (scan s.text).map (fun t => (t.kind, t.location, s.line? t.location.line)) =
        [(.symbol, ⟨1, 1⟩, some "a\r"), (.invalid, ⟨1, 2⟩, some "a\r"), (.crlf, ⟨1, 3⟩, some "a\r"),
          (.text, ⟨2, 1⟩, some "\"b"), (.newline, ⟨3, 3⟩, some "ü\""),
          (.invalid, ⟨4, 1⟩, some "\r \"c"), (.space, ⟨4, 2⟩, some "\r \"c"),
          (.invalid, ⟨4, 3⟩, some "\r \"c"), (.endOfInput, ⟨5, 1⟩, none)] ∧
      lineBreak ∈ scan s.text ∧ lineBreak.OnLine s ∧ literal ∈ scan s.text ∧ literal.OnLine s ∧
      quote ∈ scan s.text ∧ quote.OnLine s := by
  intro s lineBreak literal quote
  have hshort : s.text.length < Location.limit := by decide +kernel
  have hlineBreak : lineBreak ∈ scan s.text := by decide +kernel
  have hliteral : literal ∈ scan s.text := by decide +kernel
  have hquote : quote ∈ scan s.text := by decide +kernel
  exact ⟨hshort, by decide +kernel, hlineBreak, scan_on_lines hshort hlineBreak (by decide),
    hliteral, scan_on_lines hshort hliteral (by decide), hquote,
    scan_on_lines hshort hquote (by decide)⟩

end Token

end TypeSchema
