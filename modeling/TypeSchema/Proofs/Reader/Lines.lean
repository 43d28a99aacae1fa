import TypeSchema.Proofs.Reader.Append
import TypeSchema.Proofs.Reader.Edited
import TypeSchema.Proofs.Reader.Faults

/-!
# Definitions begin lines

In a text that is read to its end each definition stands where a line begins: the one before ends
with its line, and blank lines are skipped as a whole. After a fault a reader may go on in the middle
of a line, and then only the order of the definitions is left of that.
-/

namespace TypeSchema

open Grammar (BlankLines DefinitionEnd LineEnd)
open Token (BeginsLine chars scan)

variable {k : Known} {l : Library} {text : String} {ts mid rest : List Token} {t : Token}

-- ---------------------------------------------------------------------------
-- Tokens at the beginning of a line
-- ---------------------------------------------------------------------------

/-- The tokens are all that follows in the text, from the beginning of a line on. -/
def Token.FromLine (text : String) (ts : List Token) : Prop :=
  ∃ before, scan text = before ++ ts ∧ BeginsLine before

namespace Token.FromLine

theorem all (text : String) : FromLine text (scan text) := ⟨[], rfl, by simp [BeginsLine]⟩

theorem suffix (h : FromLine text ts) : ts <:+ scan text := by
  obtain ⟨before, hscan, -⟩ := h
  exact ⟨before, hscan.symm⟩

theorem column_eq_one (hshort : text.length < Location.limit) (h : FromLine text (t :: ts)) :
    t.location.column = 1 := by
  obtain ⟨before, hscan, hbegins⟩ := h
  have feeds : (chars before).count '\n' < Location.limit := by
    have whole := congrArg List.length (chars_scan text)
    rw [hscan, chars_append, List.length_append, String.length_toList] at whole
    have : (chars before).count '\n' ≤ (chars before).length := List.count_le_length
    omega
  have place : t.location = Location.start.after (chars before) := location_of_scanFrom hscan
  rw [place, after_beginsLine hscan hbegins (by omega)]

end Token.FromLine

open Token (FromLine)

theorem Grammar.LineEnd.fromLine (h : LineEnd ts rest) (hts : ts <:+ scan text) :
    FromLine text rest := by
  obtain ⟨t, ht, spaces, -, rfl⟩ := h
  obtain ⟨before, hscan⟩ := hts
  exact ⟨before ++ spaces ++ [t], by simp [← hscan], Token.beginsLine_concat ht⟩

theorem Grammar.BlankLines.fromLine (h : BlankLines ts mid) (hts : FromLine text ts) :
    FromLine text mid := by
  induction h with
  | none => exact hts
  | more line _ ih => exact ih (line.fromLine hts.suffix)

theorem Grammar.DefinitionEnd.fromLine (h : DefinitionEnd ts rest) (hts : ts <:+ scan text) :
    FromLine text rest ∨ ∃ stop, rest = [stop] ∧ stop.kind = .endOfInput := by
  cases h with
  | line line => exact .inl (line.fromLine hts)
  | input spaces ht =>
    obtain rfl := Token.nil_of_endOfInput (spaces.suffix.trans hts) ht
    exact .inr ⟨_, rfl, ht⟩

-- ---------------------------------------------------------------------------
-- How a definition ends
-- ---------------------------------------------------------------------------

theorem Grammar.Block.ends {α : Type} {line : Grammar.Rule α} {as : List α}
    (inner : ∀ ts a rest, line ts a rest → rest <:+ ts) :
    Grammar.Block line ts as rest → ∃ last, last <:+ ts ∧ DefinitionEnd last rest
  | .mk opening body ending => by
    obtain ⟨t, -, hsuffix⟩ := body.brace inner
    exact ⟨_, (List.suffix_cons ..).trans (hsuffix.trans opening.suffix), ending⟩

theorem Grammar.Definition.ends {tree : DefinitionSyntax} (h : Grammar.Definition ts tree rest) :
    ∃ last, last <:+ ts ∧ DefinitionEnd last rest := by
  cases h with
  | struct _ heading parameters block =>
    obtain ⟨last, hlast, ending⟩ := block.ends fun _ _ _ h => h.suffix
    have inside := parameters.suffix.trans heading.suffix
    exact ⟨last, hlast.trans (inside.trans (List.suffix_cons ..)), ending⟩
  | union _ options _ heading parameters block =>
    obtain ⟨last, hlast, ending⟩ := block.ends fun _ _ _ h => h.suffix fun _ _ _ h => h.suffix
    have inside := parameters.suffix.trans (heading.suffix.trans options.suffix)
    exact ⟨last, hlast.trans (inside.trans (List.suffix_cons ..)), ending⟩
  | embedded _ options _ heading parameters block =>
    obtain ⟨last, hlast, ending⟩ := block.ends fun _ _ _ h => h.suffix fun _ _ _ h => h.suffix
    have inside := parameters.suffix.trans (heading.suffix.trans options.suffix)
    exact ⟨last, hlast.trans (inside.trans (List.suffix_cons ..)), ending⟩
  | enum _ heading block =>
    obtain ⟨last, hlast, ending⟩ := block.ends fun _ _ _ h => h.suffix
    exact ⟨last, hlast.trans (heading.suffix.trans (List.suffix_cons ..)), ending⟩
  | untagged _ before _ heading block =>
    obtain ⟨last, hlast, ending⟩ := block.ends fun _ _ _ h => h.suffix
    have inside := heading.suffix.trans ((List.suffix_cons ..).trans before.suffix)
    exact ⟨last, hlast.trans (inside.trans (List.suffix_cons ..)), ending⟩
  | imports _ before _ qualifier ending =>
    have inside := qualifier.suffix.trans ((List.suffix_cons ..).trans before.suffix)
    exact ⟨_, inside.trans (List.suffix_cons ..), ending⟩

theorem Grammar.File.nil_of_end {trees : List DefinitionSyntax} (h : Grammar.File [t] trees)
    (ht : t.kind = .endOfInput) : trees = [] := by
  cases h with
  | done _ _ _ => rfl
  | definition blank definition _ =>
    obtain ⟨keyword, more, rfl, hkind, -⟩ := definition.suffix
    -- the keyword would be the only token, which is an end
    obtain ⟨before, hbefore⟩ := blank.suffix
    have hmem : keyword ∈ [t] := hbefore ▸ List.mem_append_right _ List.mem_cons_self
    rw [List.mem_singleton.mp hmem, ht] at hkind
    cases hkind

-- ---------------------------------------------------------------------------
-- Where definitions stand
-- ---------------------------------------------------------------------------

/-- The definition is at the token that introduces it: from there on the text is the definition, and
the token comes first in its line. -/
def Known.IntroducedIn (k : Known) (text : String) (d : Definition) : Prop :=
  ∃ keyword more tree rest, FromLine text (keyword :: more) ∧
    Grammar.Definition (keyword :: more) tree rest ∧ k.Means tree d ∧
    keyword.Introduces d.kind ∧ d.location = keyword.location

theorem Known.IntroducedIn.column_eq_one {d : Definition} (hshort : text.length < Location.limit)
    (h : k.IntroducedIn text d) : d.location.column = 1 := by
  obtain ⟨keyword, more, _, _, line, -, -, -, hlocation⟩ := h
  rw [hlocation, line.column_eq_one hshort]

theorem Known.AllMean.introduced {trees : List DefinitionSyntax} {ds : List Definition}
    (hm : k.AllMean trees ds) (h : Grammar.File ts trees) (hts : FromLine text ts) {i : Nat}
    {d : Definition} (hd : ds[i]? = some d) :
    Known.IntroducedIn { k with earlier := k.earlier ++ ds.take i } text d := by
  induction h generalizing k ds i with
  | done _ _ _ =>
    cases hm
    cases hd
  | definition blank definition file ih =>
    cases hm with
    | @cons _ _ first _ ds hmeans hall =>
      have line := blank.fromLine hts
      cases i with
      | zero =>
        cases hd
        obtain ⟨keyword, more, rfl, hkind, hlocation⟩ := definition.introduces hmeans
        refine ⟨keyword, more, _, _, line, definition, ?_, hkind, hlocation⟩
        simpa using hmeans
      | succ i =>
        obtain ⟨last, hlast, ending⟩ := definition.ends
        rcases ending.fromLine (hlast.trans line.suffix) with hrest | ⟨stop, rfl, hstop⟩
        · have further := ih hall hrest hd
          rwa [Known.extend_append] at further
        · obtain rfl := file.nil_of_end hstop
          cases hall
          cases hd

namespace Reader

variable {r : Reader}

theorem Sound.ordered_next (hshort : text.length < Location.limit) (h : r.Sound text l)
    (placed : r.Placed text) (ordered : r.definitions.Pairwise (·.location < ·.location)) :
    r.next.2.definitions.Pairwise (·.location < ·.location) := by
  have step := h.within.step
  generalize hnext : r.next = result at step ⊢
  obtain ⟨outcome, after⟩ := result
  cases step with
  | fault _ | finished _ => exact ordered
  | @accepted d cursor context _ _ =>
    obtain ⟨mid, tree, blank, ht, hm, hafter⟩ := next_some h.within hnext
    obtain ⟨keyword, more, rfl, -, hlocation⟩ := ht.introduces hm
    have ahead : keyword ∈ r.cursor.tokens := blank.suffix.subset List.mem_cons_self
    rw [hafter.definitions]
    refine List.pairwise_append.mpr ⟨ordered, List.pairwise_singleton _ _, fun e he d' hd' => ?_⟩
    obtain ⟨t, -, het, behind⟩ := placed e he
    rw [List.mem_singleton.mp hd', hlocation, het]
    exact behind.location_lt hshort ahead

theorem calls_ordered (hshort : text.length < Location.limit) (l : Library) (cs : List Call) :
    ((ofSource text l).calls cs).definitions.Pairwise (·.location < ·.location) := by
  have keeps := calls_keep
    (P := fun r => r.Sound text l ∧ r.Placed text ∧
      r.definitions.Pairwise (·.location < ·.location))
    (fun _ h => ⟨h.1.next, h.1.placed_next h.2.1, h.1.ordered_next hshort h.2.1 h.2.2⟩)
    ⟨sound_ofSource text l, (fun d hd => by cases hd), .nil⟩ cs
  exact keeps.2.2

end Reader

/-- In a short text that is read, each definition begins a line, with the token that introduces it,
and each line begins behind that of the definition before. Whatever a reader is asked for, it accepts
definitions in the order of the text. -/
theorem Module.read_in_lines (hshort : text.length < Location.limit) (l : Library) :
    (∀ file m, Module.read file text l = .ok m →
      (∀ i d, m.definitions[i]? = some d →
        Known.IntroducedIn ⟨l, m.definitions.take i⟩ text d ∧ d.location.column = 1) ∧
      m.definitions.Pairwise (·.location.line < ·.location.line)) ∧
    ∀ cs, ((Reader.ofSource text l).calls cs).definitions.Pairwise (·.location < ·.location) := by
  refine ⟨fun file m h => ?_, Reader.calls_ordered hshort l⟩
  obtain ⟨trees, ds, hfile, hall, hholds⟩ := read_ok h
  rw [hholds.definitions]
  have introduced (i : Nat) (d : Definition) (hd : ds[i]? = some d) :
      Known.IntroducedIn ⟨l, ds.take i⟩ text d := by
    simpa using hall.introduced hfile (FromLine.all text) hd
  have first (d : Definition) (hd : d ∈ ds) : d.location.column = 1 := by
    obtain ⟨i, hi⟩ := List.mem_iff_getElem?.mp hd
    exact (introduced i d hi).column_eq_one hshort
  refine ⟨fun i d hd => ⟨introduced i d hd, first d (List.mem_of_getElem? hd)⟩, ?_⟩
  have ordered : ds.Pairwise (·.location < ·.location) := by
    have := Reader.calls_ordered hshort l [.resolveAll]
    rwa [← hholds.definitions, definitions_of_read h]
  -- in one column, a later place is in a later line
  refine ordered.imp_of_mem fun hd he hlt => ?_
  rw [Location.lt_iff, first _ hd, first _ he] at hlt
  omega

/-- A literal over two lines and a line of spaces come before the second definition. Where a line
cannot be read, the next definition is taken from the middle of it. -/
theorem Module.read_in_lines_of_broken_line :
    let text := "enum Size \x7b\r\n    small = \"a\nb\"\n\x7d\n  \n" ++
      "struct Box \x7b\n    size: Size\n\x7d"
    let broken := "enum Size \x7b\n    small = 1\n\x7d\nstruct Box struct Case \x7b\n\x7d\n"
    let r := (Reader.ofSource broken .empty).calls [.resolveAll, .next]
    ∃ m, Module.read "box.gotyno" text .empty = .ok m ∧
      m.definitions.map (·.location) = [⟨1, 1⟩, ⟨6, 1⟩] ∧
      (∀ i d, m.definitions[i]? = some d →
        Known.IntroducedIn ⟨.empty, m.definitions.take i⟩ text d ∧ d.location.column = 1) ∧
      m.definitions.Pairwise (·.location.line < ·.location.line) ∧
      r.definitions.map (·.location) = [⟨1, 1⟩, ⟨4, 12⟩] ∧
      r.definitions.Pairwise (·.location < ·.location) := by
  intro text broken r
  have hshort : text.length < Location.limit := by decide +kernel
  have hbroken : broken.length < Location.limit := by decide +kernel
  obtain ⟨m, h, places⟩ := Library.ok_of_map_toOption
    (x := Module.read "box.gotyno" text .empty) (f := fun m => m.definitions.map (·.location))
    (b := [⟨1, 1⟩, ⟨6, 1⟩]) (by decide +kernel)
  obtain ⟨introduced, ordered⟩ := (read_in_lines hshort .empty).1 _ m h
  exact ⟨m, h, places, introduced, ordered, by decide +kernel,
    (read_in_lines hbroken .empty).2 [.resolveAll, .next]⟩

end TypeSchema
