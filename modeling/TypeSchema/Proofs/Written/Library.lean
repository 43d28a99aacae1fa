import TypeSchema.Proofs.Reader.Calls
import TypeSchema.Proofs.Written.Definition

/-!
# Written libraries are loaded again

The definitions of a module are written one after another with a line between them. Such a text is
read in the place of the source that the module came from, after modules that were written the same
way, and gives the same module up to places. Written once more, it stays as it is.
-/

namespace TypeSchema

open Token (scanFrom)

variable {k k' : Known} {l l' : Library}

/-- The text of definitions, with an empty line between them. -/
def Definition.texts (ds : List Definition) : String :=
  "\n\n".intercalate (ds.map Definition.text) ++ "\n"

def Module.text (m : Module) : String := Definition.texts m.definitions

/-- The file of a module as it is written. -/
def Module.source (m : Module) : Source := ⟨m.file, m.text⟩

def Library.sources (l : Library) : List Source := l.modules.map Module.source

theorem Definition.texts_eq_of_unplaced {ds es : List Definition}
    (h : ds.map unplaced = es.map unplaced) : texts ds = texts es := by
  have written (ds : List Definition) : (ds.map unplaced).map text = ds.map text := by
    simp [Function.comp_def, Definition.text_relocated]
  rw [texts, texts, ← written, h, written]

theorem Module.source_eq_of_unplaced {m n : Module} (h : m.unplaced = n.unplaced) :
    m.source = n.source := by
  have hfile : m.unplaced.file = n.unplaced.file := by rw [h]
  have htext : m.text = n.text :=
    Definition.texts_eq_of_unplaced (congrArg Module.definitions h)
  rw [source, source, htext, show m.file = n.file from hfile]

theorem Library.sources_eq_of_unplaced
    (h : l.modules.map Module.unplaced = l'.modules.map Module.unplaced) :
    l.sources = l'.sources := by
  have written := List.forall₂_eq_eq_eq ▸ h
  rw [List.forall₂_map_left_iff, List.forall₂_map_right_iff] at written
  rw [sources, sources, ← List.forall₂_eq_eq_eq, List.forall₂_map_left_iff,
    List.forall₂_map_right_iff]
  exact written.imp fun _ _ => Module.source_eq_of_unplaced

-- ---------------------------------------------------------------------------
-- Files
-- ---------------------------------------------------------------------------

theorem Grammar.File.blank {ts mid : List Token} {trees : List DefinitionSyntax}
    (line : LineEnd ts mid) (h : File mid trees) : File ts trees := by
  cases h with
  | done blank spaces ht => exact .done (.more line blank) spaces ht
  | definition blank d rest => exact .definition (.more line blank) d rest

theorem Known.WellNamed.extend (h : k.WellNamed) {d : Definition} (hd : d.WellNamed) :
    (k.extend d).WellNamed := by
  intro e he
  rcases List.mem_append.mp he with he | he
  · exact h e he
  · exact List.mem_singleton.mp he ▸ hd

theorem file_rewrites {trees : List DefinitionSyntax} {ds : List Definition}
    (h : k.AllMean trees ds) (ht : ∀ t ∈ trees, t.Derived) (hk : k.Alike k') (hw : k.WellNamed)
    (hl : k.library.WellNamed) (p : Location) :
    ∃ trees' ds', Grammar.File (scanFrom p (Definition.texts ds).toList) trees' ∧
      k'.AllMean trees' ds' ∧ ds'.map Definition.unplaced = ds.map Definition.unplaced := by
  induction h generalizing k' p with
  | nil =>
    obtain ⟨newline, p₁, hnewline, hscan⟩ := scan_newline p []
    refine ⟨[], [], ?_, .nil, rfl⟩
    rw [show (Definition.texts []).toList = ['\n'] from rfl, hscan, scanFrom]
    exact .done (.more (.newline hnewline) .none) (.refl _) rfl
  | @cons k t d trees ds hm hall ih =>
    obtain ⟨hderived, ht⟩ := List.forall_mem_cons.mp ht
    have rewrites := definition_rewrites hk hw hl hm hderived
    cases ds with
    | nil =>
      cases hall
      obtain ⟨t', d', p₁, hg, hm', hunplaced⟩ := rewrites p []
      refine ⟨[t'], [d'], ?_, .cons hm' .nil, by simp [hunplaced]⟩
      rw [show (Definition.texts [d]).toList = d.text.toList ++ ['\n'] by simp [Definition.texts]]
      exact .definition .none hg (.done .none (by rw [scanFrom]; exact .refl _) rfl)
    | cons e ds =>
      have htext : (Definition.texts (d :: e :: ds)).toList =
          d.text.toList ++ '\n' :: '\n' :: (Definition.texts (e :: ds)).toList := by
        simp [Definition.texts, String.intercalate_cons_cons]
      obtain ⟨t', d', p₁, hg, hm', hunplaced⟩ :=
        rewrites p ('\n' :: (Definition.texts (e :: ds)).toList)
      obtain ⟨newline, p₂, hnewline, hscan⟩ := scan_newline p₁ (Definition.texts (e :: ds)).toList
      obtain ⟨trees', ds', hfile, hall', hmap⟩ :=
        ih ht (hk.extend hunplaced) (hw.extend (hm.wellNamed hderived)) hl p₂
      refine ⟨t' :: trees', d' :: ds', ?_, .cons hm' hall', by simp [hunplaced, hmap]⟩
      rw [htext]
      exact .definition .none hg (hscan ▸ hfile.blank (.newline hnewline))

-- ---------------------------------------------------------------------------
-- Modules and libraries
-- ---------------------------------------------------------------------------

theorem Module.read_text {file text : String} {m : Module} (h : Module.read file text l = .ok m)
    (hl : l.WellNamed) (hall : l.modules.map Module.unplaced = l'.modules.map Module.unplaced) :
    ∃ m', Module.read file m.text l' = .ok m' ∧ m'.unplaced = m.unplaced := by
  obtain ⟨trees, ds, hfile, hmeans, hholds⟩ := read_ok h
  have alike : Known.Alike ⟨l, []⟩ ⟨l', []⟩ := ⟨hall, rfl⟩
  have derived := hfile.derived fun _ => Token.scan_spelled
  obtain ⟨trees', ds', hfile', hmeans', hmap⟩ :=
    file_rewrites hmeans derived alike (fun _ hd => by cases hd) hl .start
  have htext : m.text = Definition.texts ds := by rw [Module.text, hholds.definitions]
  obtain ⟨m', hread, hholds'⟩ := read_of_file file (htext ▸ hfile') hmeans'
  exact ⟨m', hread, (hmap ▸ hholds'.relocated _ _).eq (hholds.relocated _ _)⟩

namespace Library

variable {s : Source} {sources : List Source}

theorem get?_none_of_unplaced (h : l.modules.map Module.unplaced = l'.modules.map Module.unplaced)
    {name : String} (hn : l.get? name = none) : l'.get? name = none := by
  cases hm : l'.get? name with
  | none => rfl
  | some m =>
    rw [get?_eq_find?] at hm
    obtain ⟨m', hm', -⟩ := Known.Alike.find?_map (f := Module.unplaced) (fun _ => rfl) h.symm hm
    rw [← get?_eq_find?, hn] at hm'
    cases hm'

theorem load_text {after : Library} (h : l.load s = .ok after) (hl : l.WellNamed)
    (hall : l.modules.map Module.unplaced = l'.modules.map Module.unplaced) :
    ∃ m after', after.modules = l.modules ++ [m] ∧ m.file = s.file ∧
      l'.load m.source = .ok after' ∧
      after.modules.map Module.unplaced = after'.modules.map Module.unplaced := by
  obtain ⟨hfree, m, hread, hinsert⟩ := load_ok.mp h
  obtain ⟨m', hread', hunplaced⟩ := Module.read_text hread hl hall
  obtain ⟨_, _, _, _, hholds⟩ := Module.read_ok hread
  have hfree' := get?_none_of_unplaced hall hfree
  have hname : m'.unplaced.name = m.unplaced.name := by rw [hunplaced]
  have hname' : m'.name = ModuleName.ofPath s.file := Eq.trans hname hholds.name
  obtain ⟨after', hinsert'⟩ := insert?_of_free (hname' ▸ hfree')
  rw [← hholds.file] at hfree' hread'
  refine ⟨m, after', modules_insert? hinsert, hholds.file,
    load_ok.mpr ⟨hfree', m', hread', hinsert'⟩, ?_⟩
  rw [modules_insert? hinsert, modules_insert? hinsert']
  simp [hall, hunplaced]

theorem Loads.text {after : Library} (h : l.Loads sources after) (hl : l.WellNamed)
    (hall : l.modules.map Module.unplaced = l'.modules.map Module.unplaced) :
    ∃ ms after', after.modules = l.modules ++ ms ∧ ms.map Module.file = sources.map Source.file ∧
      l'.Loads (ms.map Module.source) after' ∧
      after.modules.map Module.unplaced = after'.modules.map Module.unplaced := by
  induction sources generalizing l l' with
  | nil =>
    cases h
    exact ⟨[], l', by simp, rfl, rfl, hall⟩
  | cons s sources ih =>
    obtain ⟨mid, hs, hrest⟩ := loads_cons.mp h
    obtain ⟨m, mid', hmodules, hfile, hload, hmid⟩ := load_text hs hl hall
    have hmidNamed : Loads l [s] mid := loads_cons.mpr ⟨mid, hs, rfl⟩
    obtain ⟨ms, after', hafter, hfiles, hloads, hunplaced⟩ :=
      ih hrest (hmidNamed.wellNamed hl) hmid
    refine ⟨m :: ms, after', by simp [hafter, hmodules], by simp [hfile, hfiles], ?_, hunplaced⟩
    exact loads_cons.mpr ⟨mid', hload, hloads⟩

/-- What sources became is written as sources that become the same, up to places, and that are
written the same again. -/
theorem ofSources_text (h : ofSources sources = .ok l) :
    l.sources.map Source.file = sources.map Source.file ∧
      ∃ l', ofSources l.sources = .ok l' ∧
        l'.modules.map Module.unplaced = l.modules.map Module.unplaced ∧
        l'.sources = l.sources := by
  obtain ⟨ms, l', hmodules, hfiles, hloads, hunplaced⟩ :=
    Loads.text h (fun _ _ hm => by cases hm) (rfl : empty.modules.map _ = empty.modules.map _)
  obtain rfl : l.modules = ms := hmodules
  refine ⟨?_, l', hloads, hunplaced.symm, sources_eq_of_unplaced hunplaced.symm⟩
  rw [← hfiles, Library.sources, List.map_map]
  rfl

/-- Neither the layout of these sources nor the zeros of a size are written again. -/
theorem ofSources_text_of_imports :
    let basic : Source := ⟨"basic.gotyno",
      "struct Point<T> \x7b\n\n    x:T\n    rest: [007]T  \n\x7d\n"⟩
    let shapes : Source := ⟨"shapes.gotyno",
      "\nimport basic = b\nstruct Circle \x7b\n    radius: U8\n\x7d\n" ++
      "union(embedded, tag = kind) Shape \x7b\n    Round: Circle\n    Nothing\n\x7d\n" ++
      "union Node<A> \x7b\n    Leaf: b.Point<A>\n    More: *Node<A>\n\x7d\n" ++
      "enum Color \x7b\n    red = \"r\"\n    Blue = 2\n\x7d\n" ++
      "untagged union Any \x7b\n    Circle\n    b.Point<Circle>\n\x7d\n"⟩
    ∃ l, ofSources [basic, shapes] = .ok l ∧
      l.sources.map Source.file = [basic, shapes].map Source.file ∧
      ∃ l', ofSources l.sources = .ok l' ∧
        l'.modules.map Module.unplaced = l.modules.map Module.unplaced ∧
        l'.sources = l.sources := by
  intro basic shapes
  obtain ⟨l, h⟩ : ∃ l, ofSources [basic, shapes] = .ok l := ok_of_isSome (by decide +kernel)
  exact ⟨l, h, ofSources_text h⟩

end Library

end TypeSchema
