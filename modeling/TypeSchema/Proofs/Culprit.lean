import Mathlib.Data.Nat.Find
import TypeSchema.Proofs.Loading

/-!
# The source at fault

A fault of a batch tells the name of a file, and sources may have the same file name, so the name
alone does not tell where the fault was found. It was found in the first source of that name, which
is the one that the report quotes: a source whose file was there before repeats a module name, and
that is found out before its text is read.
-/

namespace TypeSchema

open Diagnostic (Label)

variable {sources : List Source} {s : Source} {l : Library} {file : String} {f : Fault} {lb : Label}

namespace Library

theorem load_of_error {fault : LoadFault} (h : ofSources sources = .error fault) :
    ∃ before s after l, sources = before ++ s :: after ∧ ofSources before = .ok l ∧
      l.Holds before ∧ l.load s = .error fault := by
  classical
  have stops : ∃ k, Stops sources k := by
    by_contra none
    obtain ⟨l, hl, -⟩ := ofSources_take (k := sources.length) fun j _ hj => none ⟨j, hj⟩
    rw [List.take_length, h] at hl
    cases hl
  obtain ⟨l, hl, hholds⟩ := ofSources_take fun j => Nat.find_min stops
  generalize hk : Nat.find stops = k at hl hholds
  have hstops : Stops sources k := hk ▸ Nat.find_spec stops
  obtain ⟨s, hs, -⟩ := id hstops
  obtain ⟨-, found, hfound⟩ := hholds.load_of_stops hs hstops
  have whole := ofSources_of_load hs hl hfound (sources.drop (k + 1))
  rw [List.take_append_drop, h] at whole
  cases whole
  have hlt := (List.getElem?_eq_some_iff.mp hs).1
  refine ⟨sources.take k, s, sources.drop (k + 1), l, ?_, hl, hholds, hfound⟩
  rw [← (List.getElem?_eq_some_iff.mp hs).2, List.getElem_cons_drop hlt, List.take_append_drop]

theorem Holds.of_load_unreadable {before : List Source} (h : l.Holds before)
    (hload : l.load s = .error (.unreadable file f)) :
    s.file = file ∧ Module.read s.file s.text l = .error f ∧ ∀ e ∈ before, e.file ≠ s.file := by
  have fresh : Fresh s before := by
    intro e he hname
    rw [h.load_repeated he hname] at hload
    cases hload
  cases hread : Module.read s.file s.text l with
  | ok m =>
    obtain ⟨l', hl', -⟩ := h.load fresh hread
    rw [hl'] at hload
    cases hload
  | error g =>
    rw [h.load_unreadable fresh hread] at hload
    cases hload
    exact ⟨rfl, rfl, fun e he hfile => fresh e he (congrArg ModuleName.ofPath hfile)⟩

/-- A fault in a text was found in the first source of the file that it tells, with the modules of
the sources before it at hand. -/
theorem unreadable_in (h : ofSources sources = .error (.unreadable file f)) :
    ∃ before s after l, sources = before ++ s :: after ∧ s.file = file ∧
      (∀ e ∈ before, e.file ≠ file) ∧ ofSources before = .ok l ∧
      Module.read file s.text l = .error f := by
  obtain ⟨before, s, after, l, rfl, hl, hholds, hload⟩ := load_of_error h
  obtain ⟨rfl, hread, others⟩ := hholds.of_load_unreadable hload
  exact ⟨before, s, after, l, rfl, rfl, others, hl, hread⟩

end Library

theorem LoadFault.sourceIn?_append {fault : LoadFault} {before after : List Source}
    (hs : s.file = fault.file) (others : ∀ e ∈ before, e.file ≠ fault.file) :
    fault.sourceIn? (before ++ s :: after) = some s := by
  refine List.find?_eq_some_iff_append.mpr ⟨decide_eq_true hs, before, after, rfl, ?_⟩
  exact fun e he => by simp [others e he]

-- ---------------------------------------------------------------------------
-- What a report shows of its labels
-- ---------------------------------------------------------------------------

namespace Terminal

def Line.content (line : Line) : String := String.join (line.map (·.content))

/-- What a report shows of a label: its place, and below that its line, if there is one, between an
empty gutter and the underline with the message. -/
def shown (gutter : Nat) (s : Source) (lb : Label) : List String :=
  (blanks gutter ++ marker lb.role ++ " " ++ s.file ++ ":" ++ toString lb.location) ::
  match s.line? lb.location.line with
  | some line =>
    [blanks gutter ++ " |",
      alignRight gutter (toString lb.location.line) ++ " | " ++ line,
      blanks gutter ++ " | " ++ blanks (lb.location.column - 1) ++
        String.ofList (List.replicate lb.width (underlineChar lb.role)) ++ " " ++ lb.message]
  | none => []

theorem content_sourceLabel {gutter : Nat} (h : lb.message ≠ "") :
    (sourceLabel gutter s lb).map Line.content = shown gutter s lb := by
  have rule (text : String) : " |" ++ (" " ++ text) = " | " ++ text := by
    rw [← String.append_assoc]
    rfl
  unfold sourceLabel shown
  cases s.line? lb.location.line with
  | none => simp [Line.content, Span.plain, Span.styled, String.append_assoc]
  | some line =>
    simp [Line.content, Span.plain, Span.styled, snippet, alignRight, labelMessage,
      String.append_assoc, h, rule]

end Terminal

theorem Fault.label_message_ne_empty (hlb : lb ∈ f.labels) : lb.message ≠ "" := by
  cases f with
  | unexpected expected found =>
    obtain rfl := List.mem_singleton.mp hlb
    simp only [Label.primary, Label.of]
    split <;> simp
  | repeatedDefinition _ _ _ | repeatedMember _ _ _ _ =>
    rcases List.mem_pair.mp hlb with rfl | rfl <;> simp [Label.primary, Label.secondary, Label.of]
  | unknownKeyword _ _ | unknownOption _ _ | repeatedParameter _ _ | unsuitablePayload _ _ _
  | unknownReference _ _ | unknownModule _ _ | reservedName _ _ =>
    obtain rfl := List.mem_singleton.mp hlb
    simp [Label.primary, Label.of]

open Terminal in
theorem Fault.content_report (f : Fault) (s : Source) :
    ∃ title remarks, (report (some s) f.toDiagnostic).map Line.content =
      title :: f.labels.flatMap (shown (gutterWidth f.labels) s) ++ remarks := by
  have labels : (f.labels.flatMap (sourceLabel (gutterWidth f.labels) s)).map Line.content =
      f.labels.flatMap (shown (gutterWidth f.labels) s) := by
    rw [List.map_flatMap]
    exact List.flatMap_congr fun lb hlb => content_sourceLabel (label_message_ne_empty hlb)
  obtain ⟨head, tail, hreport⟩ : ∃ head tail, report (some s) f.toDiagnostic =
      head :: f.labels.flatMap (sourceLabel (gutterWidth f.labels) s) ++ tail :=
    ⟨_, _, by rw [report, List.append_assoc, List.append_assoc]; rfl⟩
  refine ⟨head.content, tail.map Line.content, ?_⟩
  rw [hreport, List.map_append, List.map_cons, labels]

open Terminal in
theorem LoadFault.render_eq {fault : LoadFault} (h : fault.sourceIn? sources = some s)
    (coloring : Coloring) : fault.render sources coloring =
      textOfLines (coloring.resolve false false)
        (report (some s) fault.toDiagnostic ++ summary 1 0) := by
  rw [render, h]
  simp [Emitter.run, Emitter.lines, Emitter.next, textOfLines]

open Terminal in
/-- The first source of the file that a fault tells is the one that the fault was found in, given the
modules of the sources before it. What is written is a report with that source: each label is shown
with its line in it. -/
theorem Library.ofSources_quotes (h : ofSources sources = .error (.unreadable file f)) :
    ∃ before s after l, sources = before ++ s :: after ∧ s.file = file ∧
      (∀ e ∈ before, e.file ≠ file) ∧ ofSources before = .ok l ∧
      Module.read file s.text l = .error f ∧
      (LoadFault.unreadable file f).sourceIn? sources = some s ∧
      (∀ coloring, (LoadFault.unreadable file f).render sources coloring =
        textOfLines (coloring.resolve false false)
          (report (some s) f.toDiagnostic ++ summary 1 0)) ∧
      ∃ title remarks, (report (some s) f.toDiagnostic).map Line.content =
        title :: f.labels.flatMap (shown (gutterWidth f.labels) s) ++ remarks := by
  obtain ⟨before, s, after, l, rfl, rfl, others, hl, hread⟩ := unreadable_in h
  have quoted : (LoadFault.unreadable s.file f).sourceIn? (before ++ s :: after) = some s :=
    LoadFault.sourceIn?_append rfl others
  exact ⟨before, s, after, l, rfl, rfl, others, hl, hread, quoted, LoadFault.render_eq quoted,
    f.content_report s⟩

open Terminal in
/-- Of two sources of one file the first is at fault, and is quoted; the second would be read. -/
theorem Library.ofSources_quotes_first :
    let basic : Source := ⟨"basic.gotyno", "struct Point \x7b\n    x: U8\n\x7d\n"⟩
    let faulty : Source := ⟨"way.gotyno",
      "import basic\nstruct Way \x7b\n    way: []basic.Line\n\x7d\n"⟩
    let again : Source := ⟨"way.gotyno", "enum Way \x7b\n    up = 1\n\x7d\n"⟩
    let f : Fault := .unknownReference "basic.Line" ⟨3, 12⟩
    let fault : LoadFault := .unreadable "way.gotyno" f
    ofSources [basic, faulty, again] = .error fault ∧
      fault.sourceIn? [basic, faulty, again] = some faulty ∧
      (∃ before after l, [basic, faulty, again] = before ++ faulty :: after ∧
        ofSources before = .ok l ∧ Module.read "way.gotyno" faulty.text l = .error f) ∧
      (∀ coloring, fault.render [basic, faulty, again] coloring =
        textOfLines (coloring.resolve false false)
          (report (some faulty) f.toDiagnostic ++ summary 1 0)) ∧
      ∃ title remarks, (report (some faulty) f.toDiagnostic).map Line.content =
        title :: ["  --> way.gotyno:3:12", "   |", " 3 |     way: []basic.Line",
          "   |            ^^^^^^^^^^ not defined at this point"] ++ remarks := by
  intro basic faulty again f fault
  have h : ofSources [basic, faulty, again] = .error fault := error_of_map (by decide +kernel)
  have single : fault.sourceIn? [basic, faulty, again] = some faulty := by decide +kernel
  obtain ⟨before, s, after, l, hsources, -, -, hl, hread, quoted, hrender, title, remarks,
    hcontent⟩ := ofSources_quotes h
  obtain rfl := Option.some.inj (single.symm.trans quoted)
  refine ⟨h, single, ⟨before, after, l, hsources, hl, hread⟩, hrender, title, remarks, ?_⟩
  rw [hcontent]
  congr 2
  decide +kernel

end TypeSchema
