import TypeSchema.Proofs.Reader.Symbols
import TypeSchema.Proofs.Token.Append

/-!
# Text that is appended

What is appended to full lines changes none of the definitions in them. The lines were read without
an invalid token, so they are cut into the same tokens again; each definition ends with the line
break of its last line, so it takes the same tokens again, whatever comes after them.
-/

namespace TypeSchema

variable {l : Library} {text : String} {ts mid rest : List Token}

-- ---------------------------------------------------------------------------
-- Tokens of full lines
-- ---------------------------------------------------------------------------

theorem Token.scan_linesEnd (h : FullLines text.toList)
    (hvalid : ∀ t ∈ scan text, t.kind ≠ .invalid) : Grammar.LinesEnd (scan text) := by
  intro last t more hsuffix ht
  obtain rfl := nil_of_endOfInput ((List.suffix_cons ..).trans hsuffix) ht
  have hmem := hsuffix.subset List.mem_cons_self
  obtain ⟨before, hbefore⟩ := hsuffix
  refine isLineBreak_of_getLast (scan_spelled hmem) (hvalid last hmem) ?_
  have hstop : t.text.toList = [] := by
    have hmem : t ∈ scan text := by simp [← hbefore]
    have spelled := scan_spelled hmem
    rwa [Spelled, ht] at spelled
  have hne : last.text.toList ≠ [] := text_ne_nil hbefore.symm
  have whole : text.toList = chars before ++ last.text.toList := by
    rw [← chars_scan, ← hbefore]
    simp [hstop, chars]
  rw [whole] at h
  rw [List.getLast?_eq_some_getLast hne]
  exact congrArg some (h.of_append _ (by simp [List.getLast?_eq_some_getLast hne]))

-- ---------------------------------------------------------------------------
-- Readers
-- ---------------------------------------------------------------------------

namespace Reader

variable {r : Reader} {trees : List DefinitionSyntax} {ds : List Definition}

/-- What as many calls of `next` give. -/
def nexts (r : Reader) : Nat → List (Except Fault (Option Definition))
  | 0 => []
  | n + 1 => r.next.1 :: r.next.2.nexts n

theorem nexts_of_file (h : Grammar.File ts trees) (lines : Grammar.LinesEnd ts)
    (hr : r.Sound text l) {more : List Token} (hts : r.cursor.tokens = ts.dropLast ++ more)
    (hm : Known.AllMean ⟨l, r.definitions⟩ trees ds) :
    ∃ after : Reader, after.Sound text l ∧ after.definitions = r.definitions ++ ds ∧
      r.nexts ds.length = ds.map (fun d => .ok (some d)) ∧ r.drain = after.drain := by
  induction h generalizing r ds with
  | done _ _ _ =>
    cases hm
    exact ⟨r, hr, (List.append_nil _).symm, rfl, rfl⟩
  | @definition ts mid tree rest trees blank definition file ih =>
    cases hm with
    | @cons _ _ d _ ds hm hall =>
      -- the rules that derived the definition derive it again, with the appended tokens behind it
      have lines' := lines.suffix blank.suffix
      obtain ⟨t, others, rfl, -, hsuffix⟩ := definition.suffix
      have blank' := blank.takes.instead (List.cons_ne_nil _ _) more
      have definition' := definition.instead lines' file.ne_nil more
      obtain ⟨mid, hnext, htokens, hmid⟩ :=
        next_of_definition hr.within (hts ▸ blank') definition' hm
      have sound : mid.Sound text l := by
        have := hr.next
        rwa [hnext] at this
      have hdefinitions : mid.definitions = r.definitions ++ [d] := hmid.definitions
      have inside := lines'.suffix (hsuffix.trans (List.suffix_cons ..))
      have hall : Known.AllMean ⟨l, mid.definitions⟩ trees ds := by
        rw [hdefinitions]
        exact hall
      obtain ⟨after, hafter, hds, hnexts, hdrain⟩ := ih inside sound htokens hall
      refine ⟨after, hafter, by simp [hds, hdefinitions], ?_,
        (drain_of_next_some hr.within hnext).trans hdrain⟩
      rw [List.length_cons, nexts, hnext, List.map_cons, hnexts]

theorem Sound.definitions_prefix (h : r.Sound text l) (cs : List Call) :
    r.definitions <+: (r.calls cs).definitions := by
  refine (calls_keep (P := fun after => after.Sound text l ∧ r.definitions <+: after.definitions)
    (fun mid hmid => ⟨hmid.1.next, hmid.2.trans ?_⟩) ⟨h, List.prefix_refl _⟩ cs).2
  have changes := hmid.1.within.step.changes hmid.1.within
  generalize mid.next = result at changes ⊢
  obtain ⟨outcome, after⟩ := result
  show mid.definitions <+: after.definitions
  match outcome with
  | .error _ =>
    have same : after.context = mid.context := changes
    rw [definitions, definitions, same]
  | .ok none =>
    have same : after.context = mid.context := changes.1
    rw [definitions, definitions, same]
  | .ok (some d) =>
    have more : after.definitions = mid.definitions ++ [d] := changes.1
    rw [more]
    exact List.prefix_append ..

end Reader

namespace Module

theorem definitions_of_read {file : String} {m : Module} (h : Module.read file text l = .ok m) :
    m.definitions = (Reader.ofSource text l).resolveAll.2.definitions := by
  unfold Module.read at h
  show _ = (Reader.ofSource text l).drain.2.definitions
  generalize (Reader.ofSource text l).drain = result at h ⊢
  obtain ⟨outcome, after⟩ := result
  cases outcome with
  | error _ => cases h
  | ok _ =>
    cases h
    rfl

theorem size_eq (m : Module) : m.size = m.definitions.length := rfl

/-- Full lines that were read are read again, whatever is appended to them: their definitions come
first, one from each call of `next`, and they are kept also if the rest cannot be read. -/
theorem read_append {file first : String} {m : Module}
    (hlines : first = "" ∨ ∃ line, first = line ++ "\n") (h : Module.read file first l = .ok m)
    (second : String) :
    let r := Reader.ofSource (first ++ second) l
    r.nexts m.size = m.definitions.map (fun d => .ok (some d)) ∧
      (∀ m', Module.read file (first ++ second) l = .ok m' → m.definitions <+: m'.definitions) ∧
      m.definitions <+: r.resolveAll.2.definitions := by
  intro r
  obtain ⟨trees, ds, hfile, hall, hholds⟩ := read_ok h
  have full : Token.FullLines first.toList := by
    rcases hlines with rfl | ⟨line, rfl⟩ <;> simp [Token.FullLines]
  have tokens : r.cursor.tokens = (Token.scan first).dropLast ++
      Token.scanFrom (Location.start.after first.toList) second.toList := by
    show (Cursor.ofSource _).tokens = _
    rw [Cursor.tokens_ofSource, Token.scan, String.toList_append]
    exact Token.scanFrom_append_of_fullLines full hfile.valid _
  obtain ⟨after, sound, hdefinitions, hnexts, hdrain⟩ := Reader.nexts_of_file hfile
    (Token.scan_linesEnd full hfile.valid) (Reader.sound_ofSource _ l) tokens hall
  have grows : ds <+: r.resolveAll.2.definitions := by
    have kept := sound.definitions_prefix [.resolveAll]
    rw [hdefinitions] at kept
    show ds <+: r.drain.2.definitions
    rw [hdrain]
    exact kept
  rw [size_eq, hholds.definitions]
  exact ⟨hnexts, fun m' hm' => definitions_of_read hm' ▸ grows, grows⟩

/-- A quote that is never closed takes nothing of the lines before it. -/
theorem read_append_of_open_quote :
    let first := "enum Size \x7b\n    small = 1\n\x7d" ++ "\n"
    let second := "\"struct Point \x7b\n\x7d\n"
    let r := Reader.ofSource (first ++ second) .empty
    ∃ m, Module.read "size.gotyno" first .empty = .ok m ∧ m.size = 1 ∧
      r.nexts m.size = m.definitions.map (fun d => .ok (some d)) ∧
      (∀ m', Module.read "size.gotyno" (first ++ second) .empty = .ok m' →
        m.definitions <+: m'.definitions) ∧
      m.definitions <+: r.resolveAll.2.definitions := by
  intro first second r
  have hsize : (Module.read "size.gotyno" first .empty).toOption.map Module.size = some 1 := by
    decide +kernel
  cases h : Module.read "size.gotyno" first .empty with
  | error _ =>
    rw [h] at hsize
    cases hsize
  | ok m =>
    rw [h] at hsize
    exact ⟨m, rfl, Option.some.inj hsize, read_append (.inr ⟨_, rfl⟩) h second⟩

end Module

end TypeSchema
