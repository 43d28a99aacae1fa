import TypeSchema.Proofs.Grammar.Relaid
import TypeSchema.Proofs.Token.Edited

/-!
# Texts that are laid out anew

An edit of the layout exchanges one kind of line break for the other, changes how many spaces stand
before a line break or before the end of the text, or puts in a blank line. None of them changes
what is read: the definitions are the same, and they stand further down by as many lines as were
put in before them.
-/

namespace TypeSchema

open Grammar (LineEnd Relaid RelaidLines)
open Token (chars lineBreaks scan scanFrom)

-- ---------------------------------------------------------------------------
-- Edits
-- ---------------------------------------------------------------------------

/-- Where a place comes to if blank lines are put in, one after another. Each is told by the number
that it gets, which the lines from there on lose. -/
def Location.pushed (inserted : List Nat) (l : Location) : Location :=
  { l with line := inserted.foldl (fun n line => if line ≤ n then n + 1 else n) l.line }

theorem Location.pushed_nil : pushed [] = id := rfl

theorem Location.pushed_append (first others : List Nat) :
    pushed (first ++ others) = pushed others ∘ pushed first := by
  funext l
  simp [pushed, List.foldl_append]

theorem Location.pushed_of_lt {l : Location} {line : Nat} (h : l.line < line) :
    pushed [line] l = l := by
  simp [pushed, Nat.not_le.mpr h]

theorem Location.pushed_of_le {l : Location} {line : Nat} (h : line ≤ l.line) :
    pushed [line] l = l.down := by
  simp [pushed, down, h]

/-- Behind these tokens a line begins: there are none, or the last is a line break. -/
def Token.BeginsLine (before : List Token) : Prop := ∀ t ∈ before.getLast?, t.kind.isLineBreak

instance (before : List Token) : Decidable (Token.BeginsLine before) :=
  inferInstanceAs (Decidable (∀ t ∈ before.getLast?, t.kind.isLineBreak))

/-- One edit of the layout between two texts, and the numbers of the lines that it puts in. What is
a line break and what is not is told by the tokens, so the line breaks of a literal stay. -/
inductive LayoutEdit (text text' : String) : List Nat → Prop
  /-- one line break for another -/
  | lineBreak (before : List Token) (t : Token) (after : List Token) (new : List Char) :
      scan text = before ++ t :: after → t.kind.isLineBreak → new ∈ lineBreaks →
      text'.toList = chars before ++ (new ++ chars after) → LayoutEdit text text' []
  /-- another number of spaces before a line break or the end -/
  | spaces (before old : List Token) (t : Token) (after : List Token) (n : Nat) :
      scan text = before ++ (old ++ t :: after) → (∀ s ∈ old, s.kind = .space) →
      t.kind.isLineBreak ∨ t.kind = .endOfInput →
      text'.toList = chars before ++ (List.replicate n ' ' ++ chars (t :: after)) →
      LayoutEdit text text' []
  /-- a line of spaces at the beginning or behind a line break -/
  | blankLine (before after : List Token) (n : Nat) (new : List Char) :
      scan text = before ++ after → Token.BeginsLine before → new ∈ lineBreaks →
      text'.toList = chars before ++ (List.replicate n ' ' ++ (new ++ chars after)) →
      LayoutEdit text text' [1 + (chars before).count '\n']

/-- Any number of edits, one after another. -/
inductive LayoutEdits : String → String → List Nat → Prop
  | none {text} : LayoutEdits text text []
  | more {text mid text' first others} : LayoutEdit text mid first →
      LayoutEdits mid text' others → LayoutEdits text text' (first ++ others)

-- ---------------------------------------------------------------------------
-- Tokens of an edited text
-- ---------------------------------------------------------------------------

section

variable {text text' : String} {inserted : List Nat} {before old after : List Token} {t : Token}
  {n : Nat} {new other : List Char} {f : Location → Location}

namespace Token

theorem beginsLine_concat (ht : t.kind.isLineBreak) : BeginsLine (before ++ [t]) := by
  simpa [BeginsLine] using ht

theorem BeginsLine.ne_nil (hbefore : BeginsLine before) (h : scan text = before ++ after) :
    after ≠ [] := by
  rintro rfl
  obtain ⟨ts, stop, hscan, hstop, -⟩ := scan_eq_append text
  rw [hscan, List.append_nil] at h
  have last := hbefore stop (by simp [← h])
  rw [hstop] at last
  cases last

theorem scan_edited (h : scan text = before ++ after) (hne : after ≠ [])
    (hvalid : ∀ t ∈ scan text, t.kind ≠ .invalid) (htext : text'.toList = chars before ++ other)
    (hstop : Stops other) :
    scan text' = before ++ scanFrom (Location.start.after (chars before)) other := by
  rw [scan, htext]
  exact scanFrom_instead h hne (fun t ht => hvalid t (h ▸ List.mem_append_left _ ht)) hstop

theorem scan_lineEnd (h : scan text = before ++ after) (hne : after ≠ [])
    (hvalid : ∀ t ∈ scan text, t.kind ≠ .invalid) (hnew : new ∈ lineBreaks)
    (htext : text'.toList = chars before ++ (List.replicate n ' ' ++ (new ++ other))) :
    ∃ ts, scan text' = before ++ ts ∧ LineEnd ts (scanFrom
      ⟨min ((Location.start.after (chars before)).line + 1) Location.limit, 1⟩ other) := by
  obtain ⟨spaces, l, hs, hl, hspaces⟩ :=
    scanFrom_spaces n (Location.start.after (chars before)) (new ++ other)
  obtain ⟨u, hu, hbreak⟩ := scanFrom_lineBreak hnew l other
  rw [hl] at hbreak
  refine ⟨_, ?_, u, hu, spaces, hs, rfl⟩
  rw [scan_edited h hne hvalid htext (stops_spaces (stops_lineBreak hnew _) n), hspaces, hbreak]

theorem scan_behind_lineBreak (h : scan text = (before ++ [t]) ++ after)
    (ht : t.kind.isLineBreak) :
    after = scanFrom ⟨min ((Location.start.after (chars before)).line + 1) Location.limit, 1⟩
      (chars after) := by
  have hmem : t ∈ scan text := by simp [h]
  have behind := scanFrom_behind h ((beginsLine_concat ht).ne_nil h)
  rwa [chars_append, chars_cons, Location.after_append, Location.after_append,
    after_lineBreak ((scan_spelled hmem).mem_lineBreaks ht)] at behind

theorem relaid_moved (h : scan text = before ++ after) (hne : after ≠ []) :
    Relaid f after (after.map (·.moved f)) := by
  obtain ⟨-, us, stop, rfl, hstop, hus⟩ := scanFrom_split h hne
  rw [List.map_append]
  exact Relaid.append hus (.stop (.refl _) hstop (.refl _) hstop)

theorem relaid_before (h : scan text = before ++ after) (hne : after ≠ [])
    (hf : ∀ t ∈ before, f t.location = t.location) {ts : List Token} (hr : Relaid f after ts) :
    Relaid f (before ++ after) (before ++ ts) := by
  have same : before.map (·.moved f) = before := by
    rw [map_moved_congr (g := id) hf]
    simp
  have := Relaid.append (scanFrom_split h hne).1 hr
  rwa [same] at this

end Token

-- ---------------------------------------------------------------------------
-- Edits at the end of a line
-- ---------------------------------------------------------------------------

open Token

theorem relaid_of_lineEnd (h : scan text = before ++ (old ++ t :: after))
    (hold : ∀ s ∈ old, s.kind = .space) (ht : t.kind.isLineBreak)
    (hvalid : ∀ t ∈ scan text, t.kind ≠ .invalid) (hnew : new ∈ lineBreaks)
    (htext : text'.toList = chars before ++ (List.replicate n ' ' ++ (new ++ chars after))) :
    Relaid (.pushed []) (scan text) (scan text') := by
  obtain ⟨ts, hscan, hend⟩ := scan_lineEnd h (by simp) hvalid hnew htext
  have split : scan text = ((before ++ old) ++ [t]) ++ after := by simp [h]
  -- spaces do not bring the text to another line
  have line : (Location.start.after (chars (before ++ old))).line =
      (Location.start.after (chars before)).line := by
    rw [chars_append, Location.after_append]
    refine Location.line_after_of_not_mem (not_mem_chars_spaces (fun s hs => ?_) hold)
    have hmem : s ∈ scan text := by simp [h, hs]
    exact scan_spelled hmem
  have behind := scan_behind_lineBreak split ht
  rw [line] at behind
  rw [← behind] at hend
  have rest : Relaid id after after := by
    simpa using relaid_moved (f := id) split ((beginsLine_concat ht).ne_nil split)
  rw [h, hscan]
  exact relaid_before h (by simp) (fun _ _ => rfl)
    (.line ⟨t, ht, old, hold, rfl⟩ .none hend .none rest)

theorem relaid_of_end (h : scan text = before ++ (old ++ t :: after))
    (hold : ∀ s ∈ old, s.kind = .space) (ht : t.kind = .endOfInput)
    (hvalid : ∀ t ∈ scan text, t.kind ≠ .invalid)
    (htext : text'.toList = chars before ++ (List.replicate n ' ' ++ chars (t :: after))) :
    Relaid (.pushed []) (scan text) (scan text') := by
  have split : scan text = (before ++ old) ++ t :: after := by rw [h, List.append_assoc]
  obtain rfl : after = [] := nil_of_endOfInput ⟨_, split.symm⟩ ht
  have hmem : t ∈ scan text := by simp [h]
  rw [chars_cons, (scan_spelled hmem).endOfInput ht] at htext
  obtain ⟨spaces, l, hs, -, hspaces⟩ :=
    scanFrom_spaces n (Location.start.after (chars before)) []
  rw [scanFrom] at hspaces
  have hscan := scan_edited h (by simp) hvalid htext (stops_spaces stops_nil n)
  rw [h, hscan]
  refine relaid_before h (by simp) (fun _ _ => rfl) ?_
  exact .stop ⟨old, hold, rfl⟩ ht ⟨spaces, hs, hspaces⟩ rfl

-- ---------------------------------------------------------------------------
-- Blank lines that are put in
-- ---------------------------------------------------------------------------

namespace Token

theorem after_beginsLine (h : scan text = before ++ after) (hbefore : BeginsLine before)
    (hcount : 1 + (chars before).count '\n' ≤ Location.limit) :
    Location.start.after (chars before) = ⟨1 + (chars before).count '\n', 1⟩ := by
  have line := Location.line_start_after hcount
  have column : (Location.start.after (chars before)).column = 1 := by
    rcases List.eq_nil_or_concat' before with rfl | ⟨init, t, rfl⟩
    · rfl
    · have hmem : t ∈ scan text := by simp [h]
      have ht := hbefore t (by simp)
      rw [chars_append, chars_cons, Location.after_append, Location.after_append,
        after_lineBreak ((scan_spelled hmem).mem_lineBreaks ht)]
      rfl
  exact Location.mk.injEq .. ▸ ⟨line, column⟩

theorem line_lt_of_mem (h : scan text = before ++ after) (hbefore : BeginsLine before)
    (hcount : 1 + (chars before).count '\n' ≤ Location.limit) (ht : t ∈ before) :
    t.location.line < 1 + (chars before).count '\n' := by
  obtain ⟨front, back, rfl⟩ := List.append_of_mem ht
  have place : t.location = Location.start.after (chars front) :=
    location_of_scanFrom (h.trans (List.append_assoc ..))
  -- the last of the tokens from `t` on is a line break, which `t` comes before or is
  obtain ⟨init, u, hlast⟩ := (List.eq_nil_or_concat' (t :: back)).resolve_left (by simp)
  rw [hlast] at h hbefore hcount ⊢
  have hmem : u ∈ scan text := by simp [h]
  have feed := count_of_mem_lineBreaks
    ((scan_spelled hmem).mem_lineBreaks (hbefore u (by simp)))
  simp only [chars_append, chars_cons, List.count_append, feed] at hcount ⊢
  rw [place, Location.line_start_after (by omega)]
  omega

theorem scanFrom_nextLine {line : Nat} {text : List Char}
    (h : line + text.count '\n' < Location.limit) :
    scanFrom ⟨line + 1, 1⟩ text = (scanFrom ⟨line, 1⟩ text).map (·.moved (.pushed [line])) := by
  calc scanFrom (Location.down ⟨line, 1⟩) text
    _ = (scanFrom ⟨line, 1⟩ text).map (·.moved Location.down) := scanFrom_down h
    _ = (scanFrom ⟨line, 1⟩ text).map (·.moved (.pushed [line])) :=
      map_moved_congr fun t ht => (Location.pushed_of_le (le_line_of_mem ht (Nat.le_of_lt h))).symm

end Token

theorem relaidLines_of_blankLine (h : scan text = before ++ after) (hbefore : BeginsLine before)
    (hvalid : ∀ t ∈ scan text, t.kind ≠ .invalid) (hnew : new ∈ lineBreaks)
    (htext : text'.toList = chars before ++ (List.replicate n ' ' ++ (new ++ chars after)))
    (hlines : text'.toList.count '\n' < Location.limit) :
    RelaidLines (.pushed [1 + (chars before).count '\n']) (scan text) (scan text') := by
  have hne := hbefore.ne_nil h
  have count : (chars before).count '\n' + (1 + (chars after).count '\n') < Location.limit := by
    rw [htext, List.count_append, List.count_append, List.count_append,
      count_of_mem_lineBreaks hnew] at hlines
    omega
  have place := after_beginsLine h hbefore (by omega)
  have behind := scanFrom_behind h hne
  obtain ⟨ts, hscan, hend⟩ := scan_lineEnd h hne hvalid hnew htext
  -- what comes behind is scanned again one line further down
  have next : 1 + (chars before).count '\n' + 1 ≤ Location.limit := by omega
  rw [place] at behind
  rw [place, Nat.min_eq_left next, scanFrom_nextLine (by omega), ← behind] at hend
  have rest := relaid_moved (f := .pushed [1 + (chars before).count '\n']) h hne
  rcases List.eq_nil_or_concat' before with rfl | ⟨init, t, rfl⟩
  · rw [hscan, h]
    exact ⟨after, _, .none, .more hend .none, rest⟩
  · have ht := hbefore t (by simp)
    have fixed := fun u (hu : u ∈ init) =>
      Location.pushed_of_lt (line_lt_of_mem h hbefore (by omega) (List.mem_append_left _ hu))
    rw [List.append_assoc] at h hscan
    rw [h, hscan]
    exact (relaid_before h (by simp) fixed (.line ⟨t, ht, .refl _⟩ .none ⟨t, ht, .refl _⟩
      (.more hend .none) rest)).lines

-- ---------------------------------------------------------------------------
-- One edit, and many
-- ---------------------------------------------------------------------------

theorem LayoutEdit.relaid (h : LayoutEdit text text' inserted)
    (hvalid : ∀ t ∈ scan text, t.kind ≠ .invalid)
    (hlines : text'.toList.count '\n' < Location.limit) :
    RelaidLines (.pushed inserted) (scan text) (scan text') := by
  cases h with
  | lineBreak before t after new hscan ht hnew htext =>
    have split : scan text = before ++ ([] ++ t :: after) := hscan
    exact (relaid_of_lineEnd (n := 0) split nofun ht hvalid hnew htext).lines
  | spaces before old t after n hscan hold ht htext =>
    rcases ht with ht | ht
    · have hmem : t ∈ scan text := by simp [hscan]
      rw [chars_cons] at htext
      exact (relaid_of_lineEnd hscan hold ht hvalid ((scan_spelled hmem).mem_lineBreaks ht)
        htext).lines
    · exact (relaid_of_end hscan hold ht hvalid htext).lines
  | blankLine before after n new hscan hbefore hnew htext =>
    exact relaidLines_of_blankLine hscan hbefore hvalid hnew htext hlines

theorem LayoutEdit.count_le (h : LayoutEdit text text' inserted) :
    text.toList.count '\n' ≤ text'.toList.count '\n' := by
  have spelled : ∀ t ∈ scan text, t.Spelled := fun _ ht => scan_spelled ht
  rw [← chars_scan text]
  cases h with
  | lineBreak before t after new hscan ht hnew htext =>
    have feed := count_of_mem_lineBreaks ((spelled t (by simp [hscan])).mem_lineBreaks ht)
    rw [hscan, htext]
    simp only [chars_append, chars_cons, List.count_append, feed, count_of_mem_lineBreaks hnew]
    exact Nat.le_refl _
  | spaces before old t after n hscan hold ht htext =>
    have none := List.count_eq_zero.mpr
      (not_mem_chars_spaces (fun s hs => spelled s (by simp [hscan, hs])) hold)
    rw [hscan, htext]
    simp only [chars_append, List.count_append, none]
    omega
  | blankLine before after n new hscan hbefore hnew htext =>
    rw [hscan, htext]
    simp only [chars_append, List.count_append]
    omega

namespace LayoutEdits

theorem count_le (h : LayoutEdits text text' inserted) :
    text.toList.count '\n' ≤ text'.toList.count '\n' := by
  induction h with
  | none => exact Nat.le_refl _
  | more edit _ ih => exact edit.count_le.trans ih

theorem file (h : LayoutEdits text text' inserted) {trees : List DefinitionSyntax}
    (hfile : Grammar.File (scan text) trees) (hlines : text'.toList.count '\n' < Location.limit) :
    Grammar.File (scan text') (trees.map (·.moved (.pushed inserted))) := by
  induction h generalizing trees with
  | none => simpa [Location.pushed_nil, DefinitionSyntax.moved_id] using hfile
  | @more text mid text' first others edit edits ih =>
    have relaid := edit.relaid hfile.valid (Nat.lt_of_le_of_lt edits.count_le hlines)
    have both := ih (hfile.relaid relaid) hlines
    rw [List.map_map] at both
    simpa [Function.comp_def, Location.pushed_append, DefinitionSyntax.moved_moved] using both

end LayoutEdits

/-- A text that is read is read after any edits of its layout: the definitions are the same, and
each stands further down by the blank lines put in before it. Without such lines nothing is
changed. -/
theorem Module.read_edited {file : String} {l : Library} {m : Module}
    (edits : LayoutEdits text text' inserted) (hshort : text'.length < Location.limit)
    (h : Module.read file text l = .ok m) :
    Module.read file text' l = .ok (m.moved (.pushed inserted)) ∧
      (inserted = [] → Module.read file text' l = .ok m) := by
  have hlines : text'.toList.count '\n' < Location.limit :=
    Nat.lt_of_le_of_lt List.count_le_length (by rwa [String.length_toList])
  obtain ⟨trees, ds, hfile, hmean, hholds⟩ := read_ok h
  have hfile' := edits.file hfile hlines
  constructor
  · obtain ⟨m', hread, hholds'⟩ := read_of_file file hfile' (hmean.moved (f := .pushed inserted))
    rw [hread, hholds'.eq (hholds.relocated _ _)]
  · rintro rfl
    have same : trees.map (·.moved (.pushed [])) = trees := by
      simp [Location.pushed_nil, DefinitionSyntax.moved_id]
    obtain ⟨m', hread, hholds'⟩ := read_of_file file (same ▸ hfile') hmean
    rw [hread, hholds'.eq hholds]

/-- Spaces are taken away, a line feed becomes a break of two characters, and then a blank line is
put in behind the import. The break in the literal stays. -/
theorem Module.read_edited_of_blankLine :
    let basic : Source := ⟨"basic.gotyno", "struct Point \x7b\n    x: U8\n\x7d\n"⟩
    let text :=
      "import basic\nunion Note \x7b\n    At: basic.Point \n    Text: \"a\nb\"\n\x7d"
    let same :=
      "import basic\nunion Note \x7b\r\n    At: basic.Point\n    Text: \"a\nb\"\n\x7d"
    let further :=
      "import basic\n  \nunion Note \x7b\r\n    At: basic.Point\n    Text: \"a\nb\"\n\x7d"
    ∃ l m, Library.ofSources [basic] = .ok l ∧ Module.read "note.gotyno" text l = .ok m ∧
      m.definitions.map (·.heading.location) = [⟨1, 1⟩, ⟨2, 1⟩] ∧
      LayoutEdits text same [] ∧ Module.read "note.gotyno" same l = .ok m ∧
      LayoutEdits text further [2] ∧
      Module.read "note.gotyno" further l = .ok (m.moved (.pushed [2])) := by
  intro basic text same further
  let mid := "import basic\nunion Note \x7b\n    At: basic.Point\n    Text: \"a\nb\"\n\x7d"
  have fewer : LayoutEdit text mid [] :=
    .spaces ((scan text).take 20) [⟨.space, " ", ⟨3, 20⟩⟩] ⟨.newline, "\n", ⟨3, 21⟩⟩
      ((scan text).drop 22) 0 (by decide +kernel) (by decide) (.inl rfl) (by decide +kernel)
  have exchanged : LayoutEdit mid same [] :=
    .lineBreak ((scan mid).take 9) ⟨.newline, "\n", ⟨2, 13⟩⟩ ((scan mid).drop 10) ['\r', '\n']
      (by decide +kernel) rfl (by decide) (by decide +kernel)
  have second : 1 + (chars ((scan same).take 4)).count '\n' = 2 := by decide +kernel
  have blank : LayoutEdit same further [1 + (chars ((scan same).take 4)).count '\n'] :=
    .blankLine ((scan same).take 4) ((scan same).drop 4) 2 ['\n'] (by decide +kernel)
      (by decide +kernel) (by decide) (by decide +kernel)
  rw [second] at blank
  have unmoved : LayoutEdits text same [] := .more fewer (.more exchanged .none)
  have moved : LayoutEdits text further [2] := .more fewer (.more exchanged (.more blank .none))
  obtain ⟨l, hl, hread⟩ := Library.ok_of_map_toOption (x := Library.ofSources [basic])
    (f := fun l => (Module.read "note.gotyno" text l).toOption.map
      fun m => m.definitions.map (·.heading.location))
    (b := some [⟨1, 1⟩, ⟨2, 1⟩]) (by decide +kernel)
  obtain ⟨m, hm, places⟩ := Library.ok_of_map_toOption hread
  exact ⟨l, m, hl, hm, places, unmoved,
    (read_edited unmoved (by decide +kernel) hm).2 rfl, moved,
    (read_edited moved (by decide +kernel) hm).1⟩

end

end TypeSchema
