import TypeSchema.Proofs.Read.Definition
import TypeSchema.Proofs.Relocated
import TypeSchema.Reader

/-!
# A module is read exactly where it is in the language

A text is in the language of a library if its tokens have a derivation as a file, and each tree of
the derivation means a definition given the library and the definitions before it. Those are the
texts that are read, and the definitions are the ones that are meant.
-/

namespace TypeSchema

open Grammar (BlankLines Spaces)

variable {k : Known} {text file : String} {l : Library}

theorem Cursor.tokens_ofSource (text : String) :
    (Cursor.ofSource text).tokens = Token.scan text := by
  obtain ⟨ts, stop, hscan, hstop, -⟩ := Token.scan_eq_append text
  rw [ofSource, ofTokens, hscan]
  simp [hstop, tokens]

namespace Known

theorem Means.free {t : DefinitionSyntax} {d : Definition} (h : k.Means t d) : k.Free d.key := by
  cases h with
  | struct h _ _ _ _ | union h _ _ _ _ | embedded h _ _ _ | enum h _ _ | untagged h _
  | imports h _ => exact h

theorem extend_append (k : Known) (d : Definition) (ds : List Definition) :
    { k.extend d with earlier := (k.extend d).earlier ++ ds } =
      { k with earlier := k.earlier ++ d :: ds } := by
  simp [extend]

end Known

namespace Reader

/-- What is known to the reader, whose cursor stands in the text. -/
structure Within (r : Reader) (text : String) (k : Known) : Prop where
  describes : k.Describes r.context
  tokens : r.cursor.tokens <:+ Token.scan text

theorem within_ofSource (text : String) (l : Library) :
    (ofSource text l).Within text ⟨l, []⟩ :=
  ⟨Known.initial_describes l, (Cursor.tokens_ofSource text).symm ▸ List.suffix_refl _⟩

theorem Within.spelled {r : Reader} (h : r.Within text k) : ∀ t ∈ r.cursor.tokens, t.Spelled :=
  fun _ ht => Token.scan_spelled (h.tokens.subset ht)

-- ---------------------------------------------------------------------------
-- One definition
-- ---------------------------------------------------------------------------

/-- What a call of `next` comes to. That a definition is read and then refused is not among it. -/
inductive Step (r : Reader) : Except Fault (Option Definition) → Reader → Prop
  | fault {f cursor} : Read.definition? r.context r.cursor = .error f cursor →
      Step r (.error f) { r with cursor }
  | finished {cursor} : Read.definition? r.context r.cursor = .ok none cursor →
      Step r (.ok none) { r with cursor }
  | accepted {d cursor context} : Read.definition? r.context r.cursor = .ok (some d) cursor →
      (r.context.withAlias d).accept d = .ok context → Step r (.ok (some d)) ⟨context, cursor⟩

theorem Within.accept_ok {r : Reader} {d : Definition} {cursor : Cursor} (hr : r.Within text k)
    (hd : Read.definition? r.context r.cursor = .ok (some d) cursor) :
    ∃ context, (r.context.withAlias d).accept d = .ok context := by
  obtain ⟨_, _, _, _, hm⟩ := Read.definition?_ok hr.describes hr.spelled hd
  exact hr.describes.accept_ok (Known.free_iff.mp hm.free).2

theorem Within.step {r : Reader} (hr : r.Within text k) : r.Step r.next.1 r.next.2 := by
  unfold next
  split
  next f cursor hd => exact .fault hd
  next cursor hd => exact .finished hd
  next d cursor hd =>
    obtain ⟨context, hc⟩ := hr.accept_ok hd
    simp only [hc]
    exact .accepted hd hc

theorem next_some {r after : Reader} {d : Definition} (hr : r.Within text k)
    (h : r.next = (.ok (some d), after)) :
    ∃ mid t, BlankLines r.cursor.tokens mid ∧ Grammar.Definition mid t after.cursor.tokens ∧
      k.Means t d ∧ after.Within text (k.extend d) := by
  have step := hr.step
  rw [h] at step
  cases step with
  | accepted hd hc =>
    obtain ⟨mid, t, blank, ht, hm⟩ := Read.definition?_ok hr.describes hr.spelled hd
    obtain ⟨_, _, rfl, -, hsuffix⟩ := ht.suffix
    have inside := hsuffix.trans ((List.suffix_cons ..).trans blank.suffix)
    exact ⟨_, t, blank, ht, hm, hr.describes.accept hc, inside.trans hr.tokens⟩

theorem next_none {r after : Reader} (hr : r.Within text k) (h : r.next = (.ok none, after)) :
    Grammar.File r.cursor.tokens [] ∧ after.context = r.context ∧
      ∃ stop, after.cursor.tokens = [stop] ∧ stop.kind = .endOfInput := by
  have step := hr.step
  rw [h] at step
  cases step with
  | finished hd =>
    obtain ⟨mid, blank, spaces, hend⟩ := Read.definition?_ok hr.describes hr.spelled hd
    obtain ⟨t, rest, ht, htokens⟩ := Cursor.tokens_of_atEnd hend
    rw [htokens] at spaces
    have last := (spaces.suffix.trans blank.suffix).trans hr.tokens
    obtain rfl := Token.nil_of_endOfInput last ht
    exact ⟨.done blank spaces ht, rfl, t, htokens, ht⟩

theorem next_of_definition {r : Reader} {mid rest : List Token} {t : DefinitionSyntax}
    {d : Definition} (hr : r.Within text k) (blank : BlankLines r.cursor.tokens mid)
    (ht : Grammar.Definition mid t rest) (hm : k.Means t d) :
    ∃ after, r.next = (.ok (some d), after) ∧ after.cursor.tokens = rest ∧
      after.Within text (k.extend d) := by
  obtain ⟨cursor, hd, hrest⟩ := Read.definition?_runs hr.describes hr.spelled blank ht hm _ rfl
  obtain ⟨context, hc⟩ := hr.accept_ok hd
  have hnext : r.next = (.ok (some d), ⟨context, cursor⟩) := by
    unfold next
    rw [hd]
    simp only [hc]
  obtain ⟨_, _, -, -, -, hafter⟩ := next_some hr hnext
  exact ⟨_, hnext, hrest, hafter⟩

theorem next_of_end {r : Reader} {mid : List Token} {t : Token}
    (blank : BlankLines r.cursor.tokens mid) (spaces : Spaces mid [t])
    (ht : t.kind = .endOfInput) :
    ∃ after, r.next = (.ok none, after) ∧ after.context = r.context := by
  obtain ⟨cursor, hd, -⟩ := Read.definition?_end_runs r.context blank spaces ht _ rfl
  refine ⟨{ r with cursor }, ?_, rfl⟩
  unfold next
  rw [hd]

-- ---------------------------------------------------------------------------
-- All definitions
-- ---------------------------------------------------------------------------

theorem drain_ok {r after : Reader} (hr : r.Within text k) (h : r.drain = (.ok (), after)) :
    ∃ trees ds, Grammar.File r.cursor.tokens trees ∧ k.AllMean trees ds ∧
      Known.Describes { k with earlier := k.earlier ++ ds } after.context := by
  induction hn : r.cursor.remaining using Nat.strongRecOn generalizing r k with
  | _ n ih =>
    rw [drain] at h
    split at h
    next => cases h
    next after' hnext =>
      cases h
      obtain ⟨hfile, hcontext, -⟩ := next_none hr hnext
      exact ⟨[], [], hfile, .nil, by simpa [hcontext] using hr.describes⟩
    next d mid hnext =>
      split at h
      next hlt =>
        obtain ⟨start, t, blank, ht, hm, hmid⟩ := next_some hr hnext
        obtain ⟨trees, ds, hfile, hall, hdescribes⟩ := ih _ (hn ▸ hlt) hmid h rfl
        refine ⟨t :: trees, d :: ds, .definition blank ht hfile, .cons hm hall, ?_⟩
        rwa [Known.extend_append] at hdescribes
      next => cases h

theorem remaining_lt_of_next_some {r mid : Reader} {d : Definition} (hr : r.Within text k)
    (h : r.next = (.ok (some d), mid)) : mid.cursor.remaining < r.cursor.remaining := by
  obtain ⟨_, _, blank, ht, -, -⟩ := next_some hr h
  obtain ⟨_, _, rfl, -, hsuffix⟩ := ht.suffix
  have := r.cursor.length_tokens
  have := mid.cursor.length_tokens
  have := blank.suffix.length_le
  have := hsuffix.length_le
  simp only [List.length_cons] at *
  omega

theorem drain_of_next_some {r mid : Reader} {d : Definition} (hr : r.Within text k)
    (h : r.next = (.ok (some d), mid)) : r.drain = mid.drain := by
  rw [drain, h]
  simp only [remaining_lt_of_next_some hr h, if_true]

theorem drain_of_file {r : Reader} {ts : List Token} {trees : List DefinitionSyntax}
    {ds : List Definition} (hr : r.Within text k) (hts : r.cursor.tokens = ts)
    (h : Grammar.File ts trees) (hm : k.AllMean trees ds) :
    ∃ after, r.drain = (.ok (), after) ∧
      Known.Describes { k with earlier := k.earlier ++ ds } after.context := by
  induction h generalizing r k ds with
  | done blank spaces ht =>
    cases hm
    obtain ⟨after, hnext, hcontext⟩ := next_of_end (hts ▸ blank) spaces ht
    refine ⟨after, ?_, by simpa [hcontext] using hr.describes⟩
    rw [drain, hnext]
  | @definition ts mid t rest trees blank ht _ ih =>
    cases hm with
    | @cons _ _ d _ ds hm hall =>
      obtain ⟨mid, hnext, hrest, hmid⟩ := next_of_definition hr (hts ▸ blank) ht hm
      obtain ⟨after, hdrain, hdescribes⟩ := ih hmid hrest hall
      rw [Known.extend_append] at hdescribes
      exact ⟨after, (drain_of_next_some hr hnext).trans hdrain, hdescribes⟩

end Reader

-- ---------------------------------------------------------------------------
-- Modules
-- ---------------------------------------------------------------------------

namespace Module

/-- A module of the file whose table holds the definitions under their keys. -/
structure Holds (m : Module) (file : String) (ds : List Definition) : Prop where
  name : m.name = ModuleName.ofPath file
  file : m.file = file
  entries : m.table.entries = ds.map fun d => (d.key, d)

theorem Holds.definitions {m : Module} {ds : List Definition} (h : m.Holds file ds) :
    m.definitions = ds := by
  rw [Module.definitions, ← Table.map_snd_entries, h.entries, List.map_map]
  exact List.map_id _

theorem Holds.eq {m n : Module} {ds : List Definition} (hm : m.Holds file ds)
    (hn : n.Holds file ds) : m = n := by
  have table : m.table = n.table := Table.eq_of_entries (hm.entries.trans hn.entries.symm)
  obtain ⟨name, mfile, _⟩ := m
  obtain ⟨hname, hfile, -⟩ := hm
  obtain ⟨name', nfile, _⟩ := n
  obtain ⟨hname', hfile', -⟩ := hn
  simp only at hname hname' hfile hfile' table
  rw [hname, hname', hfile, hfile', table]

theorem Holds.relocated {m : Module} {ds : List Definition} (h : m.Holds file ds)
    (f : Location → Location) (abroad : Bool) :
    (m.relocated f abroad).Holds file (ds.map (·.relocated f abroad)) where
  name := h.name
  file := h.file
  entries := by
    rw [Module.relocated, Table.entries_map, h.entries, List.map_map, List.map_map]
    exact List.map_congr_left fun d _ => by simp

theorem read_ok {m : Module} (h : Module.read file text l = .ok m) :
    ∃ trees ds, Grammar.File (Token.scan text) trees ∧ Known.AllMean ⟨l, []⟩ trees ds ∧
      m.Holds file ds := by
  unfold Module.read at h
  generalize hdrain : (Reader.ofSource text l).drain = result at h
  obtain ⟨outcome, after⟩ := result
  cases outcome with
  | error fault => cases h
  | ok u =>
    cases h
    obtain ⟨trees, ds, hfile, hall, hdescribes⟩ :=
      Reader.drain_ok (Reader.within_ofSource text l) hdrain
    refine ⟨trees, ds, Cursor.tokens_ofSource text ▸ hfile, hall, rfl, rfl,
      hdescribes.entries⟩

theorem read_of_file {trees : List DefinitionSyntax} {ds : List Definition} (file : String)
    (h : Grammar.File (Token.scan text) trees) (hm : Known.AllMean ⟨l, []⟩ trees ds) :
    ∃ m, Module.read file text l = .ok m ∧ m.Holds file ds := by
  obtain ⟨after, hdrain, hdescribes⟩ := Reader.drain_of_file (Reader.within_ofSource text l)
    (Cursor.tokens_ofSource text) h hm
  refine ⟨after.finish file, ?_, rfl, rfl, hdescribes.entries⟩
  unfold Module.read
  rw [hdrain]
  rfl

/-- A text is read exactly if it is in the language, and gives the definitions that are meant. -/
theorem read_iff_language {ds : List Definition} :
    (∃ m, Module.read file text l = .ok m ∧ m.definitions = ds) ↔
      ∃ trees, Grammar.File (Token.scan text) trees ∧ Known.AllMean ⟨l, []⟩ trees ds := by
  constructor
  · rintro ⟨m, h, rfl⟩
    obtain ⟨trees, ds, hfile, hall, hholds⟩ := read_ok h
    exact ⟨trees, hfile, hholds.definitions ▸ hall⟩
  · rintro ⟨trees, hfile, hall⟩
    obtain ⟨m, h, hholds⟩ := read_of_file file hfile hall
    exact ⟨m, h, hholds.definitions⟩

end Module

end TypeSchema
