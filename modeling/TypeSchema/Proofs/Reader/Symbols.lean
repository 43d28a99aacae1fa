import Mathlib.Data.List.Nodup
import TypeSchema.Proofs.Reader.Calls

/-!
# What a reader knows

What is known changes only where a definition is accepted, and then by that definition alone. The
keys of the accepted definitions stay apart from each other and from the primitive types, and the
aliases are those of the accepted imports, whose modules are in the library. So a definition that
was read is never refused, and no alias leads to a module that is not there.
-/

namespace TypeSchema

variable {k : Known} {l : Library} {text : String} {r after : Reader}

-- ---------------------------------------------------------------------------
-- At the end of the text
-- ---------------------------------------------------------------------------

theorem Cursor.skipBlankLines_of_atEnd {c : Cursor} (h : c.atEnd) : c.skipBlankLines = c := by
  have hpeek : c.peek.kind = .endOfInput := by simpa [atEnd, check] using h
  have none : blankRun 0 c.ahead = 0 := by
    unfold peek at hpeek
    cases hc : c.ahead with
    | nil => rfl
    | cons t ts =>
      rw [hc, List.headD_cons] at hpeek
      exact blankRun_endOfInput hpeek 0 ts
  rw [skipBlankLines, none, advance_zero]

theorem Known.find?_extend (k : Known) (d : Definition) (name : String) :
    (k.extend d).find? name = (k.find? name).or (if d.key = name then some d else none) := by
  rw [find?, extend, List.find?_append, List.find?_singleton]
  simp [find?]

theorem Known.importedAs?_eq_some {q m : String} {d : Definition} :
    importedAs? q d = some m ↔ ∃ i, d = .imports i ∧ i.qualifier = q ∧ i.heading.name = m := by
  cases d with
  | imports i => simp [importedAs?]
  | struct | union | enum | untagged => simp [importedAs?]

theorem Known.Means.contains {t : DefinitionSyntax} {i : Import} (h : k.Means t (.imports i)) :
    k.library.contains i.heading.name := by
  cases h with
  | imports _ hm => exact hm

namespace Reader

theorem next_of_atEnd (h : r.cursor.atEnd) : r.next = (.ok none, r) := by
  have skip : Read.skipBlankLines r.cursor = .ok () r.cursor := by
    rw [Read.skipBlankLines, Cursor.skipBlankLines_of_atEnd h]
  have hd : Read.definition? r.context r.cursor = .ok none r.cursor := by
    refine Read.bind_ok.mpr ⟨(), r.cursor, skip, Read.bind_ok.mpr ⟨true, r.cursor, ?_, rfl⟩⟩
    exact Read.atEnd_ok.mpr ⟨h, rfl⟩
  unfold next
  rw [hd]

theorem calls_of_atEnd (h : r.cursor.atEnd) (cs : List Call) : r.calls cs = r := by
  refine calls_keep (P := (· = r)) ?_ rfl cs
  rintro _ rfl
  rw [next_of_atEnd h]

-- ---------------------------------------------------------------------------
-- One call
-- ---------------------------------------------------------------------------

/-- Two look-ups agree, but for a key that had no meaning in the first. -/
def Extends {α : Type} (find find' : String → Option α) (key : String) : Prop :=
  find key = none ∧ ∀ name, name ≠ key → find' name = find name

/-- What a call of `next` may change of what is known, by what it gives. -/
def Changes (r : Reader) : Except Fault (Option Definition) → Reader → Prop
  | .error _, after => after.context = r.context
  | .ok (some d), after =>
    after.definitions = r.definitions ++ [d] ∧ after.context.accepted.get? d.key = some d ∧
      Extends r.context.accepted.get? after.context.accepted.get? d.key ∧
      Extends (r.context.aliases.lookup ·) (after.context.aliases.lookup ·) d.key
  | .ok none, after => after.context = r.context ∧ ∀ cs, (after.calls cs).next.1 = .ok none

theorem Step.changes (hr : r.Within text k) {outcome : Except Fault (Option Definition)}
    (h : r.Step outcome after) : r.Changes outcome after := by
  cases h with
  | fault _ => exact rfl
  | finished hd =>
    refine ⟨rfl, fun cs => ?_⟩
    obtain ⟨_, _, _, hend⟩ := Read.definition?_ok hr.describes hr.spelled hd
    rw [calls_of_atEnd hend, next_of_atEnd hend]
  | @accepted d cursor context _ hc =>
    have describes := hr.describes.accept hc
    have free := hr.describes.find?_of_accept hc
    refine ⟨?_, ?_, ⟨(hr.describes.get? _).trans free, fun name hname => ?_⟩,
      ⟨(hr.describes.aliases _).trans (Known.findSome?_importedAs? free), fun q hq => ?_⟩⟩
    · have values : Reader.definitions ⟨context, cursor⟩ = (k.extend d).earlier := describes.values
      rw [values, Known.extend, ← hr.describes.values]
      rfl
    · rw [describes.get?, Known.find?_extend, free]
      simp
    · rw [describes.get?, hr.describes.get?, Known.find?_extend]
      simp [Ne.symm hname]
    · have other : Known.importedAs? q d = none := by
        cases hi : Known.importedAs? q d with
        | none => rfl
        | some m => exact (hq (Known.key_of_importedAs? hi).symm).elim
      show context.aliases.lookup q = r.context.aliases.lookup q
      rw [describes.aliases, hr.describes.aliases, Known.extend, List.findSome?_append]
      simp [other]

/-- Whatever a reader was asked for before: a fault leaves what is known as it was, an accepted
definition comes after all others and hides none of them, and after the end nothing more comes. The
cursor never goes back. -/
theorem calls_changes (text : String) (l : Library) (cs : List Call) :
    let r := (ofSource text l).calls cs
    r.Changes r.next.1 r.next.2 ∧ r.cursor.position ≤ r.next.2.cursor.position := by
  intro r
  have within := ((sound_ofSource text l).calls cs).within
  exact ⟨within.step.changes within, within.step.leads.position⟩

-- ---------------------------------------------------------------------------
-- Keys and aliases
-- ---------------------------------------------------------------------------

/-- How the names that a reader knows hang together. -/
structure Keyed (r : Reader) (l : Library) : Prop where
  /-- Each definition is stored once, under its key. -/
  entries : r.context.accepted.entries = r.definitions.map fun d => (d.key, d)
  distinct : (r.definitions.map Definition.key).Nodup
  found : ∀ key d, r.context.accepted.get? key = some d ↔ d ∈ r.definitions ∧ d.key = key
  notPrimitive : ∀ d ∈ r.definitions, Primitive.isName d.key = false
  aliases : ∀ q m, r.context.aliases.lookup q = some m ↔
    ∃ i, .imports i ∈ r.definitions ∧ i.qualifier = q ∧ i.heading.name = m
  loaded : ∀ i, .imports i ∈ r.definitions → l.contains i.heading.name
  /-- A definition that is read next is accepted. -/
  accepts : ∀ d cursor, Read.definition? r.context r.cursor = .ok (some d) cursor →
    ∃ context, (r.context.withAlias d).accept d = .ok context
  /-- An alias is never told to be an unknown module. -/
  resolves : ∀ q n : Token, (∃ m, r.context.aliases.lookup q.text = some m) →
    ∀ module location, r.context.resolveQualified q n ≠ .error (.unknownModule module location)

theorem Sound.keyed (h : r.Sound text l) : r.Keyed l := by
  have describes := h.within.describes
  have entries := describes.entries
  have distinct : (r.definitions.map Definition.key).Nodup := by
    have nodup := r.context.accepted.keys_nodup
    rwa [entries, List.map_map] at nodup
  -- the keys are distinct, so a key tells the definition
  have unique {d e : Definition} (hd : d ∈ r.definitions) (he : e ∈ r.definitions)
      (hk : d.key = e.key) : d = e := List.inj_on_of_nodup_map distinct hd he hk
  have means {d : Definition} (hd : d ∈ r.definitions) :
      ∃ t k, Known.Means k t d ∧ k.library = l := by
    obtain ⟨trees, hall, -⟩ := h.means
    obtain ⟨i, hi⟩ := List.mem_iff_getElem?.mp hd
    obtain ⟨t, -, hm⟩ := hall.means hi
    exact ⟨t, _, hm, rfl⟩
  have found (key : String) (d : Definition) :
      r.context.accepted.get? key = some d ↔ d ∈ r.definitions ∧ d.key = key := by
    rw [describes.get?]
    refine ⟨Known.find?_eq_some, ?_⟩
    rintro ⟨hd, rfl⟩
    have some : (Known.find? ⟨l, r.definitions⟩ d.key).isSome :=
      List.find?_isSome.mpr ⟨d, hd, by simp⟩
    obtain ⟨e, he⟩ := Option.isSome_iff_exists.mp some
    obtain ⟨hmem, hkey⟩ := Known.find?_eq_some he
    rw [he, unique hmem hd hkey]
  have aliases (q m : String) : r.context.aliases.lookup q = some m ↔
      ∃ i, .imports i ∈ r.definitions ∧ i.qualifier = q ∧ i.heading.name = m := by
    rw [describes.aliases]
    constructor
    · intro hm
      obtain ⟨d, hd, hi⟩ := List.exists_of_findSome?_eq_some hm
      obtain ⟨i, rfl, hq, hname⟩ := Known.importedAs?_eq_some.mp hi
      exact ⟨i, hd, hq, hname⟩
    · rintro ⟨i, hi, rfl, rfl⟩
      have some : (r.definitions.findSome? (Known.importedAs? i.qualifier)).isSome :=
        List.findSome?_isSome_iff.mpr ⟨_, hi, by simp [Known.importedAs?]⟩
      obtain ⟨m, hm⟩ := Option.isSome_iff_exists.mp some
      obtain ⟨d, hd, hdm⟩ := List.exists_of_findSome?_eq_some hm
      obtain rfl := unique hd hi (Known.key_of_importedAs? hdm)
      obtain ⟨_, heq, -, rfl⟩ := Known.importedAs?_eq_some.mp hdm
      cases heq
      exact hm
  have loaded (i : Import) (hi : .imports i ∈ r.definitions) : l.contains i.heading.name := by
    obtain ⟨t, k, hm, rfl⟩ := means hi
    exact hm.contains
  refine ⟨entries, distinct, found, fun d hd => ?_, aliases, loaded, fun d cursor hd => ?_, ?_⟩
  · obtain ⟨t, k, hm, -⟩ := means hd
    rw [Primitive.isName, hm.free.1]
    rfl
  · exact h.within.accept_ok hd
  · rintro q n ⟨m, hm⟩ module location
    obtain ⟨i, hi, -, rfl⟩ := (aliases _ _).mp hm
    obtain ⟨found, hfound⟩ := Library.contains_iff.mp (loaded i hi)
    rw [Context.resolveQualified, Context.moduleName, hm, describes.library]
    simp only [Option.getD_some, hfound]
    split <;> simp

/-- Whatever a reader was asked for, its keys are distinct and none is the name of a primitive type,
its aliases are its imports, and the next definition that it reads will be accepted. -/
theorem calls_keyed (text : String) (l : Library) (cs : List Call) :
    ((ofSource text l).calls cs).Keyed l :=
  ((sound_ofSource text l).calls cs).keyed

end Reader

end TypeSchema
