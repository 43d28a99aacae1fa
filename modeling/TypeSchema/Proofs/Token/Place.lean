import Mathlib.Data.List.DropRight
import Mathlib.Data.List.Infix
import TypeSchema.Proofs.Token.Spelling

/-!
# Where tokens stand

A token is at the place to which the characters before it lead. In a text that is short enough for
no count to stop, no two points of the text share a place, and later tokens are at greater places:
the line counts the line feeds passed, the column the characters passed since the last of them.
-/

namespace TypeSchema

namespace Location

variable {l : Location} {text name : String} {c : Char} {chars : List Char}

theorem lt_trans {a b d : Location} (h : a < b) (h' : b < d) : a < d := by
  rw [lt_iff] at *
  omega

theorem lt_irrefl (a : Location) : ¬a < a := by
  rw [lt_iff]
  omega

theorem lt_next (hl : l.line < limit) (hc : l.column < limit) : l < l.next c := by
  rw [lt_iff, next]
  split
  · exact .inl (Nat.lt_min.mpr ⟨Nat.lt_succ_self _, hl⟩)
  · exact .inr ⟨rfl, Nat.lt_min.mpr ⟨Nat.lt_succ_self _, hc⟩⟩

theorem next_le (l : Location) (c : Char) :
    (l.next c).line ≤ l.line + 1 ∧ (l.next c).column ≤ l.column + 1 := by
  unfold next
  split
  · exact ⟨Nat.min_le_left _ _, Nat.le_add_left _ _⟩
  · exact ⟨Nat.le_succ _, Nat.min_le_left _ _⟩

theorem lt_after (hne : chars ≠ []) (hl : l.line + chars.length ≤ limit)
    (hc : l.column + chars.length ≤ limit) : l < l.after chars := by
  induction chars generalizing l with
  | nil => exact (hne rfl).elim
  | cons c chars ih =>
    rw [List.length_cons] at hl hc
    have first : l < l.next c := lt_next (by omega) (by omega)
    rw [after_cons]
    by_cases hlast : chars = []
    · rwa [hlast, after_nil]
    · have := l.next_le c
      exact lt_trans first (ih hlast (by omega) (by omega))

theorem after_le (l : Location) (chars : List Char) :
    (l.after chars).line ≤ l.line + chars.length ∧
      (l.after chars).column ≤ l.column + chars.length := by
  induction chars generalizing l with
  | nil => exact ⟨Nat.le_refl _, Nat.le_refl _⟩
  | cons c chars ih =>
    have := l.next_le c
    have := ih (l.next c)
    rw [after_cons, List.length_cons]
    omega

theorem start_lt_after {before : List Char} (hne : chars ≠ [])
    (h : (before ++ chars).length < limit) :
    start.after before < start.after (before ++ chars) := by
  have bound : (start.after before).line ≤ 1 + before.length ∧
      (start.after before).column ≤ 1 + before.length := after_le start before
  rw [List.length_append] at h
  rw [after_append]
  exact lt_after hne (by omega) (by omega)

theorem line_after_eq_min (h : l.line ≤ limit) :
    (l.after chars).line = min (l.line + chars.count '\n') limit := by
  induction chars generalizing l with
  | nil => simp [h]
  | cons c chars ih =>
    rw [after_cons, List.count_cons]
    by_cases hc : c = '\n'
    · rw [ih (by simp only [next, hc, if_true]; exact Nat.min_le_right _ _)]
      simp only [next, hc, if_true, beq_self_eq_true]
      omega
    · rw [ih (by simpa [next, hc] using h)]
      simp [next, hc]

/-- The place behind `before` by count: a line for each line feed, a column for each character after
the last of them. -/
def behind (before : List Char) : Location :=
  ⟨1 + before.count '\n', 1 + (before.rtakeWhile (· ≠ '\n')).length⟩

theorem start_after_eq_behind (h : chars.length < limit) : start.after chars = behind chars := by
  induction chars using List.reverseRecOn with
  | nil => rfl
  | append_singleton chars c ih =>
    rw [List.length_append, List.length_singleton] at h
    have hcount : chars.count '\n' ≤ chars.length := List.count_le_length
    have hcolumn := (chars.rtakeWhile_suffix (· ≠ '\n')).length_le
    rw [after_append, ih (by omega), after_cons, after_nil, next]
    simp only [behind]
    split
    next hc =>
      rw [List.rtakeWhile_concat_neg _ _ _ (by simp [hc]), List.count_append, hc,
        List.count_singleton_self, Nat.min_eq_left (by omega)]
      rfl
    next hc =>
      rw [List.rtakeWhile_concat_pos _ _ _ (by simp [hc]), List.count_append,
        List.count_singleton, if_neg (by simpa using hc), Nat.min_eq_left (by omega),
        List.length_append, List.length_singleton, Nat.add_assoc]
      rfl

/-- The place belongs to one point of the text, and the characters of `name` come there. -/
def Shows (l : Location) (text name : String) : Prop :=
  ∃ before after, text.toList = before ++ (name.toList ++ after) ∧
    ∀ first, first <+: text.toList → (start.after first = l ↔ first = before)

/-- In a short text, a place belongs to one beginning of the text only. -/
theorem eq_of_after_eq (hshort : text.length < limit) {first before : List Char}
    (hf : first <+: text.toList) (hb : before <+: text.toList)
    (h : start.after first = start.after before) : first = before := by
  have shorter {a b : List Char} (hb : b <+: text.toList) (hab : a <+: b)
      (h : start.after a = start.after b) : a = b := by
    obtain ⟨chars, rfl⟩ := hab
    by_contra hne
    have := hb.length_le
    rw [String.length_toList] at this
    have lt : start.after a < start.after (a ++ chars) :=
      start_lt_after (by simpa using hne) (by omega)
    exact lt_irrefl _ (h ▸ lt)
  rcases List.prefix_or_prefix_of_prefix hf hb with hp | hp
  · exact shorter hb hp h
  · exact (shorter hf hp h.symm).symm

end Location

namespace Token

variable {l : Location} {text : String}

def chars (ts : List Token) : List Char := ts.flatMap (·.text.toList)

@[simp] theorem chars_cons (t : Token) (ts : List Token) :
    chars (t :: ts) = t.text.toList ++ chars ts := List.flatMap_cons

@[simp] theorem chars_append (ts us : List Token) : chars (ts ++ us) = chars ts ++ chars us :=
  List.flatMap_append

theorem chars_scan (text : String) : chars (scan text) = text.toList := text_scan text

theorem location_of_scanFrom {text : List Char} {before rest : List Token} {t : Token}
    (h : scanFrom l text = before ++ t :: rest) : t.location = l.after (chars before) := by
  induction before generalizing l text with
  | nil =>
    cases text with
    | nil =>
      rw [scanFrom] at h
      cases h
      rfl
    | cons c text =>
      rw [scanFrom] at h
      cases h
      rfl
  | cons b before ih =>
    cases text with
    | nil =>
      rw [scanFrom] at h
      simp at h
    | cons c text =>
      rw [scanFrom, List.cons_append] at h
      obtain ⟨hb, hrest⟩ := List.cons.inj h
      rw [ih hrest, chars_cons, Location.after_append, ← hb, String.toList_ofList]

theorem scanFrom_behind {text : List Char} {before after : List Token}
    (h : scanFrom l text = before ++ after) (hne : after ≠ []) :
    after = scanFrom (l.after (chars before)) (chars after) := by
  induction before generalizing l text with
  | nil =>
    obtain rfl : chars after = text := by
      rw [← List.nil_append after, ← h]
      exact text_scanFrom l text
    exact h.symm
  | cons t before ih =>
    cases text with
    | nil =>
      rw [scanFrom, List.cons_append] at h
      exact (hne (List.append_eq_nil_iff.mp (List.cons.inj h).2.symm).2).elim
    | cons c rest =>
      rw [scanFrom, List.cons_append] at h
      obtain ⟨ht, hrest⟩ := List.cons.inj h
      rw [chars_cons, Location.after_append, ← ht, String.toList_ofList]
      exact ih hrest

theorem text_ne_nil_of_scanFrom {text : List Char} {t : Token} (h : t ∈ scanFrom l text)
    (ht : t.kind ≠ .endOfInput) : t.text.toList ≠ [] := by
  induction hn : text.length using Nat.strongRecOn generalizing l text with
  | _ n ih =>
    cases text with
    | nil =>
      rw [scanFrom, List.mem_singleton] at h
      subst h
      exact (ht rfl).elim
    | cons c text =>
      rw [scanFrom] at h
      rcases List.mem_cons.mp h with rfl | h
      · simpa using lexeme_chars_ne_nil c text
      · exact ih _ (by simpa [← hn] using length_lexeme_rest c text) h rfl

theorem text_ne_nil {before rest : List Token} {t u : Token}
    (h : scan text = before ++ t :: u :: rest) : t.text.toList ≠ [] := by
  have hmem : t ∈ scan text := by simp [h]
  refine text_ne_nil_of_scanFrom hmem fun ht => ?_
  cases nil_of_endOfInput ⟨before, h.symm⟩ ht

theorem suffix_shows (hshort : text.length < Location.limit) {t : Token} {ts : List Token}
    (h : t :: ts <:+ scan text) {name : String} (hn : name.toList <+: chars (t :: ts)) :
    t.location.Shows text name := by
  obtain ⟨before, hbefore⟩ := h
  obtain ⟨after, hafter⟩ := hn
  have whole : text.toList = chars before ++ (name.toList ++ after) := by
    rw [hafter, ← chars_append, hbefore, chars_scan]
  have place : t.location = Location.start.after (chars before) :=
    location_of_scanFrom hbefore.symm
  refine ⟨chars before, after, whole, fun first hfirst => ⟨fun heq => ?_, fun heq => ?_⟩⟩
  · exact Location.eq_of_after_eq hshort hfirst ⟨_, whole.symm⟩ (heq.trans place)
  · rw [heq, place]

theorem location_lt (hshort : text.length < Location.limit) {t u : Token} {ts : List Token}
    (h : t :: ts <:+ scan text) (hu : u ∈ ts) : t.location < u.location := by
  obtain ⟨before, hbefore⟩ := h
  obtain ⟨between, rest, rfl⟩ := List.append_of_mem hu
  have split : scan text = (before ++ t :: between) ++ u :: rest := by simp [← hbefore]
  have here : t.location = _ := location_of_scanFrom hbefore.symm
  have there : u.location = _ := location_of_scanFrom split
  have nonempty : t.text.toList ≠ [] := by
    obtain ⟨v, more, hmore⟩ := List.exists_cons_of_ne_nil (by simp : between ++ u :: rest ≠ [])
    exact text_ne_nil (hmore ▸ hbefore.symm)
  have whole := chars_scan text
  rw [split, chars_append] at whole
  have bound := congrArg List.length whole
  rw [List.length_append, String.length_toList] at bound
  rw [here, there, chars_append, chars_cons]
  refine Location.start_lt_after (by simp [nonempty]) ?_
  simp only [chars_append, chars_cons] at bound ⊢
  omega

theorem location_eq_behind (hshort : text.length < Location.limit) {t : Token}
    {before rest : List Token} (h : scan text = before ++ t :: rest) :
    t.location = .behind (chars before) := by
  have whole := congrArg List.length (chars_scan text)
  rw [h, chars_append, List.length_append, String.length_toList] at whole
  have place : t.location = Location.start.after (chars before) := location_of_scanFrom h
  rw [place, Location.start_after_eq_behind (by omega)]

theorem pairwise_location_lt (hshort : text.length < Location.limit) {ts : List Token}
    (h : ts <:+ scan text) : ts.Pairwise (·.location < ·.location) := by
  induction ts with
  | nil => exact .nil
  | cons t ts ih =>
    exact .cons (fun _ hu => location_lt hshort h hu) (ih ((List.suffix_cons t ts).trans h))

/-- Scanning loses nothing and places everything: the tokens are the text, piece by piece, with one
end behind them, and in a text that is short enough each is at the place of its first character. -/
theorem scan_covers (source : String) :
    String.join ((scan source).map (·.text)) = source ∧
      (∃ ts stop, scan source = ts ++ [stop] ∧ (∀ t ∈ ts, t.text ≠ "" ∧ t.kind ≠ .endOfInput) ∧
        stop.kind = .endOfInput ∧ stop.text = "") ∧
      (source.length < Location.limit →
        (∀ before t rest, scan source = before ++ t :: rest →
          t.location = .behind (String.join (before.map (·.text))).toList) ∧
        (scan source).Pairwise (·.location < ·.location)) := by
  have joined (ts : List Token) : (String.join (ts.map (·.text))).toList = chars ts := by
    rw [String.toList_join, List.flatMap_map, chars]
  refine ⟨?_, ?_, fun hshort => ⟨fun before t rest h => ?_, ?_⟩⟩
  · rw [← String.toList_inj, joined, chars_scan]
  · obtain ⟨ts, stop, hscan, hstop, hts⟩ := scan_eq_append source
    refine ⟨ts, stop, hscan, fun t ht => ⟨fun hempty => ?_, hts t ht⟩, hstop, ?_⟩
    · have hmem : t ∈ scan source := by simp [hscan, ht]
      exact text_ne_nil_of_scanFrom hmem (hts t ht) (by rw [hempty]; rfl)
    · have hmem : stop ∈ scan source := by simp [hscan]
      have spelled := scan_spelled hmem
      rw [Spelled, hstop] at spelled
      exact String.toList_eq_nil_iff.mp spelled
  · rw [joined, location_eq_behind hshort h]
  · exact pairwise_location_lt hshort (List.suffix_refl _)

/-- A literal over two lines, both kinds of line break, a lone carriage return and a quote that is
never closed. -/
theorem scan_covers_of_open_quote :
    let source := "a\r\n\"b\nü\"\r \"c\n"
    source.length < Location.limit ∧
      (scan source).map (fun t => (t.kind, t.location)) =
        [(.symbol, ⟨1, 1⟩), (.crlf, ⟨1, 2⟩), (.text, ⟨2, 1⟩), (.invalid, ⟨3, 3⟩), (.space, ⟨3, 4⟩),
          (.invalid, ⟨3, 5⟩), (.endOfInput, ⟨4, 1⟩)] ∧
      (∀ before t rest, scan source = before ++ t :: rest →
        t.location = .behind (String.join (before.map (·.text))).toList) ∧
      (scan source).Pairwise (·.location < ·.location) := by
  intro source
  have hshort : source.length < Location.limit := by decide +kernel
  exact ⟨hshort, by decide +kernel, (scan_covers source).2.2 hshort⟩

end Token

end TypeSchema
