import TypeSchema.Proofs.Culprit
import TypeSchema.Proofs.Labels
import TypeSchema.Proofs.Token.Append

/-!
# Labels in reports

A report quotes the line of each label and underlines it, with the message beside the underline. The
line is there for every token but one: where a text has full lines only, its end is on a line that
the text has not. A label there is told by its place alone, and its message is lost.
-/

namespace TypeSchema

open Diagnostic (Label)

variable {sources : List Source} {s : Source} {l : Library} {file text : String} {f : Fault}
  {lb : Label} {chars : List Char}

-- ---------------------------------------------------------------------------
-- Which lines a text has
-- ---------------------------------------------------------------------------

open Token (FullLines)

theorem Source.lineAfter?_isSome_iff {n : Nat} :
    (lineAfter? chars n).isSome ↔
      n < chars.count '\n' ∨ n = chars.count '\n' ∧ ¬FullLines chars := by
  induction chars generalizing n with
  | nil => simp [lineAfter?, FullLines]
  | cons c rest ih =>
    have count : (c :: rest).count '\n' = rest.count '\n' + if c = '\n' then 1 else 0 := by
      simp [List.count_cons]
    cases n with
    | zero =>
      by_cases hmem : '\n' ∈ c :: rest
      · simp [lineAfter?, List.count_pos_iff.mpr hmem]
      · have unfinished : ¬FullLines ([] ++ c :: rest) :=
          Token.not_fullLines_append (List.cons_ne_nil c rest) hmem
        rw [List.nil_append] at unfinished
        simp [lineAfter?, unfinished, List.count_eq_zero.mpr hmem]
    | succ n =>
      by_cases hc : c = '\n'
      · have full : FullLines (c :: rest) ↔ FullLines rest := by
          cases rest with
          | nil => simp [FullLines, hc]
          | cons d rest => exact Token.fullLines_cons (List.cons_ne_nil d rest)
        rw [lineAfter?, if_pos hc, ih, count, if_pos hc, full, Nat.add_lt_add_iff_right,
          Nat.add_right_cancel_iff]
      · have full (hn : n + 1 = rest.count '\n') : FullLines (c :: rest) ↔ FullLines rest := by
          refine Token.fullLines_cons ?_
          rintro rfl
          cases hn
        rw [lineAfter?, if_neg hc, ih, count, if_neg hc, Nat.add_zero]
        refine or_congr_right (and_congr_right fun hn => not_congr (full hn).symm)

namespace Token

theorem line?_eq_none_iff {t : Token} (ht : t ∈ scan s.text) :
    s.line? t.location.line = none ↔
      t.kind = .endOfInput ∧ FullLines s.text.toList ∧
        s.text.toList.count '\n' < Location.limit := by
  obtain ⟨before, us, hscan⟩ := List.append_of_mem ht
  have whole : s.text.toList = Token.chars before ++ Token.chars (t :: us) := by
    rw [← chars_append, ← hscan, chars_scan]
  have place : t.location.line = min (1 + (Token.chars before).count '\n') Location.limit := by
    rw [location_of_scanFrom hscan, Location.line_after_eq_min (by decide)]
    rfl
  have number : t.location.line =
      min ((Token.chars before).count '\n') (Location.limit - 1) + 1 := by
    rw [place, Location.limit]
    omega
  rw [number, Source.line?, Option.map_eq_none_iff, ← Option.not_isSome_iff_eq_none,
    Source.lineAfter?_isSome_iff]
  by_cases hend : t.kind = .endOfInput
  · obtain rfl := nil_of_endOfInput ⟨before, hscan.symm⟩ hend
    have none : Token.chars [t] = [] := by simp [Token.chars, (scan_spelled ht).endOfInput hend]
    rw [whole, none, List.append_nil]
    by_cases full : FullLines (Token.chars before)
    · simp only [hend, full, not_true_eq_false, and_false, or_false, true_and, Location.limit]
      omega
    · simp only [full, not_false_eq_true, and_true, false_and, and_false, iff_false, not_not]
      omega
  · have hne : Token.chars (t :: us) ≠ [] := by
      simp [text_ne_nil_of_scanFrom ht hend]
    refine iff_of_false (not_not_intro ?_) fun h => hend h.1
    rw [whole, List.count_append]
    by_cases hmem : '\n' ∈ Token.chars (t :: us)
    · have := List.count_pos_iff.mpr hmem
      omega
    · rw [List.count_eq_zero.mpr hmem, Nat.add_zero]
      exact (Nat.lt_or_eq_of_le (Nat.min_le_left _ _)).imp_right fun h =>
        ⟨h, not_fullLines_append hne hmem⟩

end Token

/-- The line of a label is there, unless the end of a text with full lines only was not expected. -/
theorem Module.read_line_eq_none_iff (h : Module.read file s.text l = .error f)
    (hlb : lb ∈ f.labels) :
    s.line? lb.location.line = none ↔
      ∃ expected found, f = .unexpected expected found ∧ found.kind = .endOfInput ∧
        FullLines s.text.toList ∧ s.text.toList.count '\n' < Location.limit := by
  rcases read_marks h hlb with ⟨hf, hword⟩ | ⟨expected, found, rfl, hmem, hlocation, -⟩
  · obtain ⟨before, t, us, hscan, hend, hlocation, -⟩ := hword.token
    have ht : t ∈ Token.scan s.text := by simp [hscan]
    rw [hlocation, Token.line?_eq_none_iff ht]
    exact iff_of_false (fun h => hend h.1) fun ⟨expected, found, h, _⟩ => hf expected found h
  · rw [hlocation, Token.line?_eq_none_iff hmem]
    constructor
    · exact fun h => ⟨expected, found, rfl, h⟩
    · rintro ⟨_, _, ⟨⟩, h⟩
      exact h

-- ---------------------------------------------------------------------------
-- What is written of a text at fault
-- ---------------------------------------------------------------------------

open Terminal in
/-- A text that cannot be read is reported with the source that it is from. Each label is shown with
its line and its message, except where the end of a text with full lines only was not expected: the
text has no such line. -/
theorem Library.ofSources_reports (h : ofSources sources = .error (.unreadable file f)) :
    ∃ s rows title remarks, (LoadFault.unreadable file f).sourceIn? sources = some s ∧
      (∀ coloring, (LoadFault.unreadable file f).render sources coloring =
        textOfLines (coloring.resolve false false) rows) ∧
      rows.map Line.content =
        title :: f.labels.flatMap (shown (gutterWidth f.labels) s) ++ remarks ∧
      ∀ lb ∈ f.labels, s.line? lb.location.line = none ↔
        ∃ expected found, f = .unexpected expected found ∧ found.kind = .endOfInput ∧
          FullLines s.text.toList ∧ s.text.toList.count '\n' < Location.limit := by
  obtain ⟨before, s, after, l, rfl, rfl, others, -, hread⟩ := unreadable_in h
  have quoted : (LoadFault.unreadable s.file f).sourceIn? (before ++ s :: after) = some s :=
    LoadFault.sourceIn?_append rfl others
  obtain ⟨title, remarks, hcontent⟩ := f.content_report s
  refine ⟨s, report (some s) f.toDiagnostic ++ summary 1 0, title,
    remarks ++ (summary 1 0).map Line.content, quoted, fun coloring => LoadFault.render_eq quoted _,
    ?_, fun lb hlb => Module.read_line_eq_none_iff hread hlb⟩
  rw [List.map_append, hcontent, List.append_assoc]

open Terminal in
/-- Both labels of a field that is declared twice have their lines. -/
theorem Library.ofSources_reports_of_repeated_field :
    let s : Source := ⟨"a.gotyno", "struct A \x7b\n    f: U8\n    f: ?U8\n\x7d\n"⟩
    let f : Fault := .repeatedMember "f" "A" ⟨3, 5⟩ ⟨2, 5⟩
    ofSources [s] = .error (.unreadable "a.gotyno" f) ∧
      ∃ rows title remarks,
        (∀ coloring, (LoadFault.unreadable "a.gotyno" f).render [s] coloring =
          textOfLines (coloring.resolve false false) rows) ∧
        rows.map Line.content = title :: ["  --> a.gotyno:3:5", "   |", " 3 |     f: ?U8",
          "   |     ^ declared again here", "  ::: a.gotyno:2:5", "   |", " 2 |     f: U8",
          "   |     - first declared here"] ++ remarks := by
  intro s f
  have h : ofSources [s] = .error (.unreadable "a.gotyno" f) := error_of_map (by decide +kernel)
  obtain ⟨s', rows, title, remarks, quoted, hrender, hcontent, -⟩ := ofSources_reports h
  have single : (LoadFault.unreadable "a.gotyno" f).sourceIn? [s] = some s := by decide +kernel
  obtain rfl := Option.some.inj (single.symm.trans quoted)
  refine ⟨h, rows, title, remarks, hrender, ?_⟩
  rw [hcontent]
  congr 2
  decide +kernel

/-- The line after the last line feed is not there, and neither is the message of the label. -/
theorem Library.ofSources_report_lacks_line :
    let s : Source := ⟨"a.gotyno", "struct A \x7b\n"⟩
    ∃ f, ofSources [s] = .error (.unreadable "a.gotyno" f) ∧
      (LoadFault.unreadable "a.gotyno" f).sourceIn? [s] = some s ∧
      (∃ lb ∈ f.labels, s.line? lb.location.line = none ∧ lb.message = "expected space") ∧
      (LoadFault.unreadable "a.gotyno" f).render [s] .never =
        "error[E1001]: expected space, found end of input\n  --> a.gotyno:2:1\n" ++
        "  = note: fields, constructors and enum values are indented by exactly four spaces\n" ++
        "\nerror: aborting due to previous error\n" := by
  intro s
  have h : ofSources [s] = .error (.unreadable "a.gotyno"
      (.unexpected [.space] ⟨.endOfInput, "", ⟨2, 1⟩⟩)) := error_of_map (by decide +kernel)
  exact ⟨_, h, by decide +kernel, ⟨_, List.mem_singleton_self _, by decide +kernel, rfl⟩,
    by decide +kernel⟩

end TypeSchema
