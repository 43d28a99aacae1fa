import TypeSchema.Proofs.Source.Line
import TypeSchema.Terminal.Emitter

/-!
# Colours only add escape sequences

An emitter writes the same characters with colours and without. With colours there are sequences
between them, each of which opens a style or closes it, and no style is opened within another.
-/

namespace TypeSchema

namespace Terminal

-- ---------------------------------------------------------------------------
-- Sequences in a text
-- ---------------------------------------------------------------------------

/-- What stands in a text for a terminal: a character to show, or a sequence with its parameters. -/
inductive Piece where
  | shown (c : Char)
  | sequence (parameters : List Char)
  deriving DecidableEq

/-- The sequence at the front of a text and what follows it. It is an escape character, a bracket
and what comes up to the next `m`, which there must be. -/
def sequence? : List Char → Option (List Char × List Char)
  | '\x1b' :: '[' :: rest =>
    match rest.dropWhile (· ≠ 'm') with
    | _ :: after => some (rest.takeWhile (· ≠ 'm'), after)
    | [] => none
  | _ => none

theorem length_lt_of_sequence? {text parameters after : List Char}
    (h : sequence? text = some (parameters, after)) : after.length < text.length := by
  unfold sequence? at h
  split at h
  next rest =>
    split at h
    next c after' hafter =>
      cases h
      have := congrArg List.length hafter
      have := (List.dropWhile_suffix (l := rest) (fun c => decide (c ≠ 'm'))).length_le
      simp only [List.length_cons] at *
      omega
    next => cases h
  next => cases h

def pieces : List Char → List Piece
  | [] => []
  | c :: rest =>
    match h : sequence? (c :: rest) with
    | some (parameters, after) =>
      have := length_lt_of_sequence? h
      .sequence parameters :: pieces after
    | none => .shown c :: pieces rest
termination_by text => text.length
decreasing_by
  · assumption
  · exact Nat.lt_succ_self rest.length

namespace Piece

def char? : Piece → Option Char
  | .shown c => some c
  | .sequence _ => none

def parameters? : Piece → Option (List Char)
  | .shown _ => none
  | .sequence parameters => some parameters

end Piece

/-- The text with every sequence deleted. -/
def withoutSequences (text : String) : String :=
  String.ofList ((pieces text.toList).filterMap Piece.char?)

def sequences (text : String) : List (List Char) :=
  (pieces text.toList).filterMap Piece.parameters?

/-- Each sequence opens a style, and the next one closes it. -/
inductive Paired : List (List Char) → Prop
  | none : Paired []
  | pair {opening rest} : opening ≠ ['0'] → Paired rest → Paired (opening :: ['0'] :: rest)

theorem Paired.append {first others : List (List Char)} (h : Paired first) (h' : Paired others) :
    Paired (first ++ others) := by
  induction h with
  | none => exact h'
  | pair hopening _ ih => exact .pair hopening ih

theorem Paired.flatMap {α : Type} {f : α → List (List Char)} (h : ∀ a, Paired (f a)) (as : List α) :
    Paired (as.flatMap f) := by
  induction as with
  | nil => exact .none
  | cons a as ih => exact (h a).append ih

theorem pieces_append {text : List Char} (h : '\x1b' ∉ text) (rest : List Char) :
    pieces (text ++ rest) = text.map .shown ++ pieces rest := by
  induction text with
  | nil => rfl
  | cons c text ih =>
    rw [List.mem_cons, not_or] at h
    have none : sequence? (c :: (text ++ rest)) = none := by
      unfold sequence?
      split
      next heq => exact (h.1 (List.cons.inj heq).1.symm).elim
      next => rfl
    rw [List.cons_append, pieces]
    split
    next hsome => cases none.symm.trans hsome
    next => rw [ih h.2, List.map_cons, List.cons_append]

theorem pieces_escape {parameters : String} (h : 'm' ∉ parameters.toList) (rest : List Char) :
    pieces ((escape parameters).toList ++ rest) = .sequence parameters.toList :: pieces rest := by
  have inside (c : Char) (hc : c ∈ parameters.toList) : decide (c ≠ 'm') = true := by
    simpa using ne_of_mem_of_not_mem hc h
  have dropped : (parameters.toList ++ 'm' :: rest).dropWhile (· ≠ 'm') = 'm' :: rest := by
    rw [List.dropWhile_append_of_pos inside]
    rfl
  have taken : (parameters.toList ++ 'm' :: rest).takeWhile (· ≠ 'm') = parameters.toList := by
    rw [List.takeWhile_append_of_pos inside]
    simp
  have whole : (escape parameters).toList ++ rest =
      '\x1b' :: '[' :: (parameters.toList ++ 'm' :: rest) := by simp [escape]
  have found : sequence? ('\x1b' :: '[' :: (parameters.toList ++ 'm' :: rest)) =
      some (parameters.toList, rest) := by simp only [sequence?, dropped, taken]
  rw [whole, pieces]
  split
  next hsome =>
    cases found.symm.trans hsome
    rfl
  next hnone => cases found.symm.trans hnone

-- ---------------------------------------------------------------------------
-- Lines in pieces
-- ---------------------------------------------------------------------------

def Unescaped (text : String) : Prop := '\x1b' ∉ text.toList

def Span.pieces (s : Span) : List Piece :=
  match s.style with
  | some style =>
    .sequence style.parameters.toList :: s.content.toList.map .shown ++ [.sequence ['0']]
  | none => s.content.toList.map .shown

def Line.pieces (line : Line) : List Piece := line.flatMap Span.pieces ++ [.shown '\n']

def Line.Unescaped (line : Line) : Prop := ∀ s ∈ line, Terminal.Unescaped s.content

theorem Span.pieces_text {s : Span} (h : Unescaped s.content) (rest : List Char) :
    Terminal.pieces ((s.text true).toList ++ rest) = s.pieces ++ Terminal.pieces rest := by
  obtain ⟨style, content⟩ := s
  cases style with
  | none => exact pieces_append h rest
  | some style =>
    have parameters : 'm' ∉ style.parameters.toList := by cases style <;> decide
    have whole : (Span.text true ⟨some style, content⟩).toList ++ rest =
        (escape style.parameters).toList ++ (content.toList ++ (reset.toList ++ rest)) := by
      simp [Span.text]
    rw [whole, pieces_escape parameters, pieces_append h, reset, pieces_escape (by decide)]
    simp [Span.pieces]

theorem Line.pieces_text {line : Line} (h : line.Unescaped) (rest : List Char) :
    Terminal.pieces ((line.text true).toList ++ rest) = line.pieces ++ Terminal.pieces rest := by
  have feed : '\x1b' ∉ ['\n'] := by decide
  have spans (rest : List Char) :
      Terminal.pieces (line.flatMap (fun s => (s.text true).toList) ++ rest) =
        line.flatMap Span.pieces ++ Terminal.pieces rest := by
    induction line with
    | nil => rfl
    | cons s line ih =>
      obtain ⟨hs, hline⟩ := List.forall_mem_cons.mp h
      rw [List.flatMap_cons, List.append_assoc, Span.pieces_text hs, ih hline, List.flatMap_cons,
        List.append_assoc]
  have whole : (line.text true).toList ++ rest =
      line.flatMap (fun s => (s.text true).toList) ++ (['\n'] ++ rest) := by
    simp [Line.text, List.flatMap_map]
  rw [whole, spans, pieces_append feed, Line.pieces, List.append_assoc]
  rfl

theorem pieces_textOfLines {lines : List Line} (h : ∀ line ∈ lines, line.Unescaped) :
    pieces (textOfLines true lines).toList = lines.flatMap Line.pieces := by
  induction lines with
  | nil => simp [textOfLines, pieces]
  | cons line lines ih =>
    obtain ⟨hline, hlines⟩ := List.forall_mem_cons.mp h
    have whole : (textOfLines true (line :: lines)).toList =
        (line.text true).toList ++ (textOfLines true lines).toList := by simp [textOfLines]
    rw [whole, Line.pieces_text hline, ih hlines, List.flatMap_cons]

theorem Span.chars_pieces (s : Span) :
    s.pieces.filterMap Piece.char? = (s.text false).toList := by
  obtain ⟨style, content⟩ := s
  have shown : Piece.char? ∘ Piece.shown = some := rfl
  cases style <;> simp [Span.pieces, Span.text, List.filterMap_cons, shown, Piece.char?]

theorem Span.paired_pieces (s : Span) : Paired (s.pieces.filterMap Piece.parameters?) := by
  obtain ⟨style, content⟩ := s
  have shown : Piece.parameters? ∘ Piece.shown = fun _ => none := rfl
  cases style with
  | none =>
    simp only [Span.pieces, List.filterMap_map, shown, List.filterMap_none]
    exact .none
  | some style =>
    have opens : style.parameters.toList ≠ ['0'] := by cases style <;> decide
    simpa [Span.pieces, shown, Piece.parameters?] using Paired.pair opens .none

theorem withoutSequences_textOfLines {lines : List Line} (h : ∀ line ∈ lines, line.Unescaped) :
    withoutSequences (textOfLines true lines) = textOfLines false lines := by
  have line (line : Line) : line.pieces.filterMap Piece.char? = (line.text false).toList := by
    simp [Line.pieces, Line.text, List.filterMap_flatMap, List.flatMap_map, Span.chars_pieces,
      Piece.char?]
  rw [withoutSequences, pieces_textOfLines h, List.filterMap_flatMap, ← String.toList_inj]
  simp [textOfLines, List.flatMap_map, line]

theorem paired_textOfLines {lines : List Line} (h : ∀ line ∈ lines, line.Unescaped) :
    Paired (sequences (textOfLines true lines)) := by
  rw [sequences, pieces_textOfLines h, List.filterMap_flatMap]
  refine Paired.flatMap (fun line => ?_) lines
  rw [Line.pieces, List.filterMap_append, List.filterMap_flatMap]
  exact (Paired.flatMap Span.paired_pieces line).append .none

theorem Span.text_false (s : Span) : s.text false = s.content := by
  unfold Span.text
  split <;> rfl

theorem unescaped_textOfLines {lines : List Line} (h : ∀ line ∈ lines, line.Unescaped) :
    Unescaped (textOfLines false lines) := by
  simp only [Unescaped, textOfLines, Line.text, String.toList_join, List.mem_flatMap, List.mem_map]
  rintro ⟨_, ⟨line, hline, rfl⟩, hmem⟩
  simp only [String.toList_append, String.toList_join, List.mem_append, List.mem_flatMap,
    List.mem_map] at hmem
  rcases hmem with ⟨_, ⟨s, hs, rfl⟩, hmem⟩ | hmem
  · exact h line hline s hs (s.text_false ▸ hmem)
  · exact absurd hmem (by decide)

-- ---------------------------------------------------------------------------
-- What a report is made of
-- ---------------------------------------------------------------------------

end Terminal

def Source.texts (s : Source) : List String := [s.file, s.text]

def Diagnostic.texts (d : Diagnostic) : List String :=
  d.message :: d.labels.map (·.message) ++ d.notes ++ d.suggestions

theorem isDigit_of_mem_toString {n : Nat} {c : Char} (h : c ∈ (toString n).toList) : c.isDigit := by
  have digits : (toString n).toList = Nat.toDigits 10 n := Nat.toList_repr
  rw [digits] at h
  exact Nat.isDigit_of_mem_toDigits (by decide) (by decide) h

namespace Terminal

variable {d : Diagnostic} {lb : Diagnostic.Label} {s : Source} {source : Option Source}

instance (text : String) : Decidable (Unescaped text) :=
  inferInstanceAs (Decidable ('\x1b' ∉ text.toList))

@[simp] theorem unescaped_append {first second : String} :
    Unescaped (first ++ second) ↔ Unescaped first ∧ Unescaped second := by
  simp [Unescaped]

@[simp] theorem unescaped_blanks (n : Nat) : Unescaped (blanks n) := by
  simp [Unescaped, blanks]

@[simp] theorem unescaped_repr (n : Nat) : Unescaped n.repr := fun h =>
  absurd (isDigit_of_mem_toString h) (by decide)

@[simp] theorem unescaped_location (l : Location) : Unescaped (toString l) := by
  have colon : Unescaped ":" := by decide
  show Unescaped (toString l.line ++ ":" ++ toString l.column)
  simp [colon]

@[simp] theorem unescaped_marker (role : Diagnostic.Role) : Unescaped (marker role) := by
  cases role <;> decide

@[simp] theorem unescaped_underline (role : Diagnostic.Role) (n : Nat) :
    Unescaped (String.ofList (List.replicate n (underlineChar role))) := by
  cases role <;> simp [Unescaped, underlineChar]

@[simp] theorem Line.unescaped_nil : Line.Unescaped [] := by simp [Line.Unescaped]

@[simp] theorem Line.unescaped_cons {span : Span} {line : Line} :
    Line.Unescaped (span :: line) ↔ Terminal.Unescaped span.content ∧ Line.Unescaped line :=
  List.forall_mem_cons

theorem unescaped_labelMessage (h : Unescaped lb.message) : Line.Unescaped (labelMessage lb) := by
  unfold labelMessage
  split <;> simp +decide [Span.plain, Span.styled, h]

theorem unescaped_snippet {line : String} (hlb : Unescaped lb.message) (hline : Unescaped line)
    (gutter : Nat) : ∀ row ∈ snippet gutter lb line, Line.Unescaped row := by
  have message := unescaped_labelMessage hlb
  simp +decide [snippet, alignRight, Span.plain, Span.styled, hline, message]

theorem unescaped_labelLines (hs : ∀ s ∈ source, ∀ text ∈ s.texts, Unescaped text)
    (hlb : Unescaped lb.message) (gutter : Nat) :
    ∀ row ∈ labelLines gutter source lb, Line.Unescaped row := by
  cases source with
  | none => simp +decide [labelLines, bareLabel, Span.plain, Span.styled, hlb]
  | some s =>
    have file : Unescaped s.file := hs s rfl s.file (by simp [Source.texts])
    have text : Unescaped s.text := hs s rfl s.text (by simp [Source.texts])
    rw [labelLines, sourceLabel, List.forall_mem_cons]
    refine ⟨by simp +decide [Span.plain, Span.styled, file], ?_⟩
    cases hline : s.line? lb.location.line with
    | none => simp
    | some line =>
      obtain ⟨_, later, upTo⟩ := Source.upToBreak_of_line? hline
      exact unescaped_snippet hlb (fun h => text (later.subset (upTo.subset h))) gutter

theorem unescaped_remark {content : String} (h : Unescaped content) (gutter : Nat) (style : Style)
    {title : String} (htitle : Unescaped title) :
    Line.Unescaped (remark gutter style title content) := by
  simp +decide [remark, Span.plain, Span.styled, h, htitle]

theorem unescaped_report (hs : ∀ s ∈ source, ∀ text ∈ s.texts, Unescaped text)
    (hd : ∀ text ∈ d.texts, Unescaped text) : ∀ row ∈ report source d, Line.Unescaped row := by
  have message : Unescaped d.message := hd _ (by simp [Diagnostic.texts])
  have severity : Unescaped d.severity.text := by cases d.severity <;> decide
  have code : Unescaped d.code.text := by cases d.code <;> decide
  have labels : ∀ lb ∈ d.labels, Unescaped lb.message := fun lb hlb => by
    have := List.mem_map_of_mem (f := Diagnostic.Label.message) hlb
    exact hd _ (by simp [Diagnostic.texts, -List.mem_map, this])
  intro row hrow
  simp only [report, List.mem_append, List.mem_cons, List.mem_flatMap, List.mem_map,
    List.not_mem_nil, or_false] at hrow
  rcases hrow with (((rfl | ⟨lb, hlb, hrow⟩) | ⟨note, hnote, rfl⟩) | ⟨help, hhelp, rfl⟩) | rfl
  · simp +decide [Span.plain, Span.styled, message, severity, code]
  · exact unescaped_labelLines hs (labels lb hlb) _ row hrow
  · exact unescaped_remark (hd _ (by simp [Diagnostic.texts, hnote])) _ _ (by decide)
  · exact unescaped_remark (hd _ (by simp [Diagnostic.texts, hhelp])) _ _ (by decide)
  · exact Line.unescaped_nil

theorem unescaped_summary (errors warnings : Nat) :
    ∀ row ∈ summary errors warnings, Line.Unescaped row := by
  have counted (n : Nat) (thing : String) (h : Unescaped thing) : Unescaped (counted n thing) := by
    unfold Terminal.counted
    split <;> simp +decide [h]
  have warned := counted warnings "warning" (by decide)
  have failed := counted errors "previous error" (by decide)
  unfold summary
  split
  · split <;> simp +decide [Span.plain, Span.styled, warned]
  · simp only [List.forall_mem_singleton]
    split <;> split <;> simp +decide [Span.plain, Span.styled, warned, failed]

-- ---------------------------------------------------------------------------
-- Commands
-- ---------------------------------------------------------------------------

def Command.texts : Command → List String
  | .emit d => d.texts
  | .emitAll ds => ds.flatMap (·.texts)
  | .setSource source => source.toList.flatMap (·.texts)
  | .summary _ _ | .flush => []

namespace Emitter

variable {e : Emitter} {commands : List Command}

def allLines (e : Emitter) : List Command → List Line
  | [] => []
  | c :: rest => e.lines c ++ (e.next c).allLines rest

theorem colors_next (e : Emitter) (c : Command) : (e.next c).colors = e.colors := by
  cases c <;> rfl

theorem join_run (e : Emitter) (commands : List Command) :
    String.join (e.run commands) = textOfLines e.colors (e.allLines commands) := by
  induction commands generalizing e with
  | nil => rfl
  | cons c commands ih =>
    have rest := ih (e.next c)
    rw [colors_next] at rest
    simp [run, allLines, rest, textOfLines]

/-- Colours decide nothing about the lines. -/
theorem allLines_withColors (e : Emitter) (colors : Bool) (commands : List Command) :
    Emitter.allLines { e with colors } commands = e.allLines commands := by
  induction commands generalizing e with
  | nil => rfl
  | cons c commands ih =>
    have next : Emitter.next { e with colors } c = { e.next c with colors } := by cases c <;> rfl
    have lines : Emitter.lines { e with colors } c = e.lines c := by cases c <;> rfl
    rw [allLines, allLines, next, lines, ih]

theorem unescaped_lines (hs : ∀ s ∈ e.source, ∀ text ∈ s.texts, Unescaped text) {c : Command}
    (hc : ∀ text ∈ c.texts, Unescaped text) : ∀ row ∈ e.lines c, Line.Unescaped row := by
  cases c with
  | emit d => exact unescaped_report hs hc
  | emitAll ds =>
    intro row hrow
    obtain ⟨d, hd, hrow⟩ := List.mem_flatMap.mp hrow
    exact unescaped_report hs (fun text h => hc text (List.mem_flatMap_of_mem hd h)) row hrow
  | summary errors warnings => exact unescaped_summary errors warnings
  | setSource _ | flush => nofun

theorem unescaped_allLines (hs : ∀ s ∈ e.source, ∀ text ∈ s.texts, Unescaped text)
    (hc : ∀ c ∈ commands, ∀ text ∈ c.texts, Unescaped text) :
    ∀ row ∈ e.allLines commands, Line.Unescaped row := by
  induction commands generalizing e with
  | nil => nofun
  | cons c commands ih =>
    obtain ⟨first, others⟩ := List.forall_mem_cons.mp hc
    have next : ∀ s ∈ (e.next c).source, ∀ text ∈ s.texts, Unescaped text := by
      cases c with
      | setSource source =>
        intro s hsource text htext
        exact first text (List.mem_flatMap_of_mem (Option.mem_toList.mpr hsource) htext)
      | emit _ | emitAll _ | summary _ _ | flush => exact hs
    exact List.forall_mem_append.mpr ⟨unescaped_lines hs first, ih next others⟩

/-- With colours an emitter writes what it writes without, and sequences that open styles and close
them one after another. -/
theorem run_colors (e : Emitter) (commands : List Command)
    (hs : ∀ s ∈ e.source, ∀ text ∈ s.texts, Unescaped text)
    (hc : ∀ c ∈ commands, ∀ text ∈ c.texts, Unescaped text) :
    let colored := String.join (Emitter.run { e with colors := true } commands)
    let plain := String.join (Emitter.run { e with colors := false } commands)
    withoutSequences colored = plain ∧ Unescaped plain ∧ Paired (sequences colored) := by
  have lines := unescaped_allLines hs hc
  simp only [join_run, allLines_withColors]
  exact ⟨withoutSequences_textOfLines lines, unescaped_textOfLines lines, paired_textOfLines lines⟩

/-- A line that is there, one that is not, remarks and a summary, after a report without a source. -/
theorem run_colors_of_missing_line :
    let s : Source := ⟨"a.gotyno", "struct A \x7b\n\x7d"⟩
    let d : Diagnostic :=
      { code := .repeatedDefinition, message := "twice", notes := ["once"], suggestions := ["rename"],
        labels := [.primary ⟨1, 8⟩ 1 "here", .secondary ⟨7, 1⟩ 2 "there", .secondary ⟨2, 1⟩ 1 ""] }
    let e : Emitter := { colors := true }
    let commands := [.emit d, .setSource (some s), .emitAll [d], .summary 2 1, .flush]
    let colored := String.join (Emitter.run { e with colors := true } commands)
    let plain := String.join (Emitter.run { e with colors := false } commands)
    (∀ s ∈ e.source, ∀ text ∈ s.texts, Unescaped text) ∧
      (∀ c ∈ commands, ∀ text ∈ c.texts, Unescaped text) ∧
      withoutSequences colored = plain ∧ Unescaped plain ∧ Paired (sequences colored) := by
  intro s d e commands colored plain
  have hs : ∀ s ∈ e.source, ∀ text ∈ s.texts, Unescaped text := nofun
  have hc : ∀ c ∈ commands, ∀ text ∈ c.texts, Unescaped text := by decide +kernel
  exact ⟨hs, hc, run_colors e commands hs hc⟩

end Emitter

end Terminal

end TypeSchema
