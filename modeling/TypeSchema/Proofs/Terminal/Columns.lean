import TypeSchema.Proofs.Terminal.Colors
import TypeSchema.Proofs.Terminal.Report

/-!
# Columns in reports

All bars of a report stand in one column, however many digits the numbers of its lines have. The
marks of a label begin below the character that it points at, and there are as many as it is wide.
-/

namespace TypeSchema.Terminal

open Diagnostic (Label)

variable {lb : Label} {labels : List Label} {s : Source} {gutter : Nat}
  {line number rest row : String} {c : Char} {before after : List Char}

-- ---------------------------------------------------------------------------
-- Rows
-- ---------------------------------------------------------------------------

/-- The first such character of the row stands behind `column` others. -/
def FirstAt (c : Char) (column : Nat) (row : String) : Prop :=
  c ∈ row.toList ∧ row.toList.idxOf c = column

/-- The column in which the marks of a label begin: the bar and a blank stand before the line that
they are below. -/
def markColumn (bar : Nat) (lb : Label) : Nat := bar + 2 + (lb.location.column - 1)

/-- The message of a label behind its marks, with a blank between. -/
def beside (lb : Label) : String := if lb.message.isEmpty then "" else " " ++ lb.message

/-- The rows of a label with its line. -/
structure LinedUp (bar : Nat) (lb : Label) (line above middle below : String) : Prop where
  bars : ∀ row ∈ [above, middle, below], FirstAt '|' bar row
  quoted : ∃ n, middle = blanks n ++ toString lb.location.line ++ " | " ++ line
  marked : FirstAt (underlineChar lb.role) (markColumn bar lb) below
  pointed : middle.toList.drop (markColumn bar lb) = line.toList.drop (lb.location.column - 1)
  marks : below.toList.drop (markColumn bar lb) =
    List.replicate lb.width (underlineChar lb.role) ++ (beside lb).toList
  -- A message may have such characters, too.
  total : below.toList.count (underlineChar lb.role) =
    lb.width + lb.message.toList.count (underlineChar lb.role)
  -- Only a message has line feeds, and it stands behind the marks.
  single : '\n' ∉ above.toList ∧ '\n' ∉ middle.toList ∧
    '\n' ∉ below.toList.take (markColumn bar lb + lb.width)

/-- The row that tells the place of a label. -/
def placeRow (bar : Nat) (s : Source) (lb : Label) : String :=
  blanks (bar - 1) ++ marker lb.role ++ " " ++ s.file ++ ":" ++ toString lb.location

/-- The rows of a label: its place, and below that its line, if the source has it. -/
inductive LabelRows (bar : Nat) (s : Source) (lb : Label) : List String → Prop
  | shown {line above middle below} : s.line? lb.location.line = some line →
      LinedUp bar lb line above middle below →
      LabelRows bar s lb [placeRow bar s lb, above, middle, below]
  | missing : s.line? lb.location.line = none → LabelRows bar s lb [placeRow bar s lb]

/-- The row of a remark, whose sign stands one column before the bars. -/
def remarkRow (bar : Nat) (title content : String) : String :=
  blanks (bar - 2) ++ " = " ++ title ++ ": " ++ content

def textOfRows (rows : List String) : String := String.join (rows.map (· ++ "\n"))

theorem textOfLines_false (lines : List Line) :
    textOfLines false lines = textOfRows (lines.map Line.content) := by
  have text : Line.text false = fun line => line.content ++ "\n" := by
    funext line
    simp only [Line.text, Line.content, Span.text_false]
  simp [textOfLines, textOfRows, text, Function.comp_def]

theorem firstAt_append (h : c ∉ before) (hrow : row.toList = before ++ c :: after) :
    FirstAt c before.length row := by
  refine ⟨by simp [hrow], ?_⟩
  rw [hrow, List.idxOf_append_of_notMem h, List.idxOf_cons_self, Nat.add_zero]

-- ---------------------------------------------------------------------------
-- The gutter
-- ---------------------------------------------------------------------------

/-- A gutter holds a number for which it has room, or nothing. -/
structure FitsGutter (gutter : Nat) (number : String) : Prop where
  room : number.length ≤ gutter
  digits : ∀ d ∈ number.toList, d.isDigit

theorem FitsGutter.none : FitsGutter gutter "" := ⟨Nat.zero_le gutter, nofun⟩

theorem FitsGutter.of_mem (h : lb ∈ labels) :
    FitsGutter (gutterWidth labels) (toString lb.location.line) where
  room := Nat.le_succ_of_le (List.le_max?_getD_of_mem (List.mem_map_of_mem h))
  digits _ := isDigit_of_mem_toString

def ruled (gutter : Nat) (number rest : String) : String := alignRight gutter number ++ " |" ++ rest

theorem ruled_append (gutter : Nat) (number rest more : String) :
    ruled gutter number rest ++ more = ruled gutter number (rest ++ more) := String.append_assoc

@[simp] theorem toList_blanks (n : Nat) : (blanks n).toList = List.replicate n ' ' := by
  rw [blanks, String.toList_ofList]

theorem toList_ruled (gutter : Nat) (number rest : String) :
    (ruled gutter number rest).toList =
      (alignRight gutter number).toList ++ [' '] ++ '|' :: rest.toList := by
  simp [ruled]

theorem FitsGutter.length (h : FitsGutter gutter number) :
    (alignRight gutter number).toList.length = gutter := by
  rw [alignRight, String.toList_append, List.length_append, toList_blanks, List.length_replicate,
    String.length_toList, Nat.sub_add_cancel h.room]

theorem FitsGutter.not_mem (h : FitsGutter gutter number) (hblank : c ≠ ' ') (hdigit : ¬c.isDigit) :
    c ∉ (alignRight gutter number).toList := by
  have hnumber : c ∉ number.toList := fun hmem => hdigit (h.digits c hmem)
  simp [alignRight, hblank, hnumber]

theorem FitsGutter.firstAt_bar (h : FitsGutter gutter number) (rest : String) :
    FirstAt '|' (gutter + 1) (ruled gutter number rest) := by
  have before : '|' ∉ (alignRight gutter number).toList ++ [' '] := by simp [h.not_mem]
  have bar := firstAt_append before (toList_ruled gutter number rest)
  rwa [List.length_append, h.length] at bar

theorem FitsGutter.mem_ruled (h : FitsGutter gutter number) (hblank : c ≠ ' ') (hbar : c ≠ '|')
    (hdigit : ¬c.isDigit) : c ∈ (ruled gutter number rest).toList ↔ c ∈ rest.toList := by
  simp [toList_ruled, h.not_mem hblank hdigit, hblank, hbar]

theorem FitsGutter.drop_ruled (h : FitsGutter gutter number) (n : Nat) :
    (ruled gutter number rest).toList.drop (gutter + 2 + n) = rest.toList.drop n := by
  have length : ((alignRight gutter number).toList ++ [' ', '|']).length = gutter + 2 := by
    rw [List.length_append, h.length]
    rfl
  have whole : (ruled gutter number rest).toList =
      (alignRight gutter number).toList ++ [' ', '|'] ++ rest.toList := by simp [toList_ruled]
  rw [whole, ← length, List.drop_length_add_append]

-- ---------------------------------------------------------------------------
-- Labels
-- ---------------------------------------------------------------------------

def beforeMarks (gutter : Nat) (lb : Label) : String :=
  ruled gutter "" (" " ++ blanks (lb.location.column - 1))

def marksAndMessage (lb : Label) : String :=
  String.ofList (List.replicate lb.width (underlineChar lb.role)) ++ beside lb

theorem content_labelMessage (lb : Label) : Line.content (labelMessage lb) = beside lb := by
  unfold labelMessage beside
  split <;> simp [Line.content, Span.plain, Span.styled]

theorem content_snippet (gutter : Nat) (lb : Label) (line : String) :
    (snippet gutter lb line).map Line.content =
      [ruled gutter "" "", ruled gutter (toString lb.location.line) (" " ++ line),
        beforeMarks gutter lb ++ marksAndMessage lb] := by
  have message := content_labelMessage lb
  rw [Line.content] at message
  simp [snippet, beforeMarks, marksAndMessage, ruled, Line.content, Span.plain, Span.styled,
    String.append_assoc, message]

theorem length_beforeMarks (gutter : Nat) (lb : Label) :
    (beforeMarks gutter lb).toList.length = markColumn (gutter + 1) lb := by
  have gutterLength : (alignRight gutter "").toList.length = gutter := FitsGutter.none.length
  simp only [beforeMarks, toList_ruled, String.toList_append, List.length_append, List.length_cons,
    List.length_nil, gutterLength, toList_blanks, List.length_replicate, markColumn]
  have blank : " ".toList.length = 1 := rfl
  omega

theorem not_mem_beforeMarks (hblank : c ≠ ' ') (hbar : c ≠ '|') (hdigit : ¬c.isDigit) :
    c ∉ (beforeMarks gutter lb).toList := by
  rw [beforeMarks, FitsGutter.none.mem_ruled hblank hbar hdigit]
  simp [hblank]

theorem not_mem_beforeMarks_underlineChar (gutter : Nat) (lb : Label) :
    underlineChar lb.role ∉ (beforeMarks gutter lb).toList := by
  cases lb.role <;> exact not_mem_beforeMarks (by decide) (by decide) (by decide)

theorem count_beside (lb : Label) : (beside lb).toList.count (underlineChar lb.role) =
    lb.message.toList.count (underlineChar lb.role) := by
  unfold beside
  split
  next hempty => simp [String.isEmpty_iff.mp hempty]
  next => cases lb.role <;> simp [underlineChar]

theorem linedUp (h : FitsGutter gutter (toString lb.location.line)) (hline : '\n' ∉ line.toList) :
    LinedUp (gutter + 1) lb line (ruled gutter "" "")
      (ruled gutter (toString lb.location.line) (" " ++ line))
      (beforeMarks gutter lb ++ marksAndMessage lb) where
  bars := by
    simp only [beforeMarks, ruled_append, List.forall_mem_cons]
    exact ⟨FitsGutter.none.firstAt_bar _, h.firstAt_bar _, FitsGutter.none.firstAt_bar _, nofun⟩
  quoted := by
    have rule : " |" ++ (" " ++ line) = " | " ++ line := by
      rw [← String.append_assoc]
      rfl
    refine ⟨gutter - (toString lb.location.line).length, ?_⟩
    simp only [ruled, alignRight, String.append_assoc, rule]
  marked := by
    obtain ⟨width, hwidth⟩ := Nat.exists_eq_succ_of_ne_zero lb.width_pos.ne'
    have marks : (beforeMarks gutter lb ++ marksAndMessage lb).toList =
        (beforeMarks gutter lb).toList ++ underlineChar lb.role ::
          (List.replicate width (underlineChar lb.role) ++ (beside lb).toList) := by
      simp [marksAndMessage, hwidth, List.replicate_succ]
    exact length_beforeMarks gutter lb ▸
      firstAt_append (not_mem_beforeMarks_underlineChar gutter lb) marks
  pointed := by
    have column : markColumn (gutter + 1) lb = gutter + 2 + (1 + (lb.location.column - 1)) := by
      unfold markColumn
      omega
    rw [column, h.drop_ruled, Nat.add_comm 1]
    simp
  marks := by
    rw [String.toList_append, List.drop_left' (length_beforeMarks gutter lb)]
    simp [marksAndMessage]
  total := by
    have before := List.count_eq_zero.mpr (not_mem_beforeMarks_underlineChar gutter lb)
    simp [marksAndMessage, before, count_beside]
  single := by
    refine ⟨?_, ?_, ?_⟩
    · rw [FitsGutter.none.mem_ruled (by decide) (by decide) (by decide)]
      exact List.not_mem_nil
    · rw [h.mem_ruled (by decide) (by decide) (by decide)]
      simpa using hline
    · have marks : (beforeMarks gutter lb ++ marksAndMessage lb).toList =
          ((beforeMarks gutter lb).toList ++ List.replicate lb.width (underlineChar lb.role)) ++
            (beside lb).toList := by simp [marksAndMessage]
      have before : '\n' ∉ (beforeMarks gutter lb).toList :=
        not_mem_beforeMarks (by decide) (by decide) (by decide)
      rw [marks, List.take_left' (by simp [← length_beforeMarks])]
      cases lb.role <;> simp [before, underlineChar]

theorem labelRows (h : FitsGutter gutter (toString lb.location.line)) (s : Source) :
    LabelRows (gutter + 1) s lb ((sourceLabel gutter s lb).map Line.content) := by
  have place : Line.content [.plain (blanks gutter), .styled .guide (marker lb.role),
      .plain (" " ++ s.file ++ ":" ++ toString lb.location)] = placeRow (gutter + 1) s lb := by
    simp [Line.content, Span.plain, Span.styled, placeRow, String.append_assoc]
  rw [sourceLabel, List.map_cons, place]
  cases hline : s.line? lb.location.line with
  | none => exact .missing hline
  | some line =>
    obtain ⟨_, -, upTo⟩ := Source.upToBreak_of_line? hline
    simp only [content_snippet]
    exact .shown hline (linedUp h upTo.newline_not_mem)

-- ---------------------------------------------------------------------------
-- Reports
-- ---------------------------------------------------------------------------

theorem content_remark (gutter : Nat) (style : Style) (title content : String) :
    Line.content (remark gutter style title content) = remarkRow (gutter + 1) title content := by
  simp [remark, Line.content, Span.plain, Span.styled, remarkRow, String.append_assoc]

theorem content_report (s : Source) (d : Diagnostic) :
    (report (some s) d).map Line.content =
      (d.severity.text ++ "[" ++ d.code.text ++ "]: " ++ d.message) ::
        (d.labels.map fun lb =>
          (sourceLabel (gutterWidth d.labels) s lb).map Line.content).flatten ++
        d.notes.map (remarkRow (gutterWidth d.labels + 1) "note") ++
          d.suggestions.map (remarkRow (gutterWidth d.labels + 1) "help") ++ [""] := by
  have close : "]" ++ (": " ++ d.message) = "]: " ++ d.message := by
    rw [← String.append_assoc]
    rfl
  have title : Line.content [.styled (.ofSeverity d.severity) d.severity.text,
      .styled .bold ("[" ++ d.code.text ++ "]"), .plain (": " ++ d.message)] =
      d.severity.text ++ "[" ++ d.code.text ++ "]: " ++ d.message := by
    simp [Line.content, Span.plain, Span.styled, String.append_assoc, close]
  have remarks (style : Style) (title : String) (contents : List String) :
      (contents.map (remark (gutterWidth d.labels) style title)).map Line.content =
        contents.map (remarkRow (gutterWidth d.labels + 1) title) := by
    simp [content_remark]
  have labels : (d.labels.flatMap (labelLines (gutterWidth d.labels) (some s))).map Line.content =
      (d.labels.map fun lb =>
        (sourceLabel (gutterWidth d.labels) s lb).map Line.content).flatten := by
    rw [List.flatMap_def, List.map_flatten, List.map_map]
    rfl
  simp only [report, List.map_append, List.map_cons, title, labels, remarks]
  rfl

/-- A report with a source and without colours. Below the title are the rows of the labels, each
with its line if the source has it and all with their bars in one column, and then the remarks. -/
theorem Emitter.run_emit_lined_up (s : Source) (d : Diagnostic) :
    ∃ bar blocks, List.Forall₂ (LabelRows bar s) d.labels blocks ∧
      Emitter.run { colors := false, source := some s } [.emit d] =
        [textOfRows ((d.severity.text ++ "[" ++ d.code.text ++ "]: " ++ d.message) ::
          blocks.flatten ++ d.notes.map (remarkRow bar "note") ++
            d.suggestions.map (remarkRow bar "help") ++ [""])] := by
  refine ⟨gutterWidth d.labels + 1,
    d.labels.map fun lb => (sourceLabel (gutterWidth d.labels) s lb).map Line.content, ?_, ?_⟩
  · rw [List.forall₂_map_right_iff, List.forall₂_same]
    exact fun lb hlb => labelRows (.of_mem hlb) s
  · rw [← content_report, ← textOfLines_false]
    rfl

/-- Numbers with one digit and with two, a line that is not there and a mark behind its line. -/
example :
    let s : Source := ⟨"a.gotyno", "\n\n\n\n\n\n\n\nenum A \x7b\n\x7d"⟩
    let d : Diagnostic :=
      { code := .repeatedDefinition, message := "twice", notes := ["once"],
        labels := [.primary ⟨9, 6⟩ 1 "here", .secondary ⟨120, 1⟩ 1 "there",
          .secondary ⟨10, 3⟩ 2 ""] }
    Emitter.run { colors := false, source := some s } [.emit d] =
      [textOfRows ["error[E2003]: twice", "    --> a.gotyno:9:6", "     |", "   9 | enum A \x7b",
        "     |      ^ here", "    ::: a.gotyno:120:1", "    ::: a.gotyno:10:3", "     |",
        "  10 | \x7d", "     |   --", "    = note: once", ""]] := by
  decide +kernel

end TypeSchema.Terminal
