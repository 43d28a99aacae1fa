import TypeSchema.Proofs.Read.Advance
import TypeSchema.Proofs.References

/-!
# A reader that is asked again and again

A reader may be asked for the next definition or for all of them, in any order and also after a
fault, from wherever the fault left the cursor. What it has accepted keeps its meaning through all
of that: each accepted definition is one that the definitions before it give a meaning.
-/

namespace TypeSchema

variable {k : Known} {l : Library} {text : String}

theorem Grammar.File.mem {ts : List Token} {trees : List DefinitionSyntax}
    (h : Grammar.File ts trees) {t : DefinitionSyntax} (ht : t ∈ trees) :
    ∃ us rest, us <:+ ts ∧ Grammar.Definition us t rest := by
  induction h with
  | done _ _ _ => cases ht
  | definition blank definition _ ih =>
    obtain ⟨_, _, rfl, -, hsuffix⟩ := definition.suffix
    cases ht with
    | head => exact ⟨_, _, blank.suffix, definition⟩
    | tail _ ht =>
      obtain ⟨us, rest, hus, h⟩ := ih ht
      exact ⟨us, rest, hus.trans (hsuffix.trans ((List.suffix_cons ..).trans blank.suffix)), h⟩

theorem Grammar.File.derived {ts : List Token} {trees : List DefinitionSyntax}
    (h : Grammar.File ts trees) (hs : ∀ t ∈ ts, t.Spelled) : ∀ t ∈ trees, t.Derived := by
  intro t ht
  obtain ⟨us, rest, hus, definition⟩ := h.mem ht
  exact ⟨us, rest, Token.spelled_of_suffix hs hus, definition⟩

namespace Known

theorem AllMean.append {ts : List DefinitionSyntax} {ds : List Definition} {t : DefinitionSyntax}
    {d : Definition} (h : k.AllMean ts ds)
    (hm : Means { k with earlier := k.earlier ++ ds } t d) : k.AllMean (ts ++ [t]) (ds ++ [d]) := by
  induction h with
  | nil => exact .cons (by simpa using hm) .nil
  | cons first _ ih => exact .cons first (ih (extend_append _ _ _ ▸ hm))

theorem AllMean.means {ts : List DefinitionSyntax} {ds : List Definition} (h : k.AllMean ts ds)
    {i : Nat} {d : Definition} (hd : ds[i]? = some d) :
    ∃ t ∈ ts, Means { k with earlier := k.earlier ++ ds.take i } t d := by
  induction h generalizing i with
  | nil => cases hd
  | @cons k t first ts ds hm _ ih =>
    cases i with
    | zero =>
      cases hd
      exact ⟨t, List.mem_cons_self, by simpa using hm⟩
    | succ i =>
      obtain ⟨u, hu, hm⟩ := ih hd
      exact ⟨u, List.mem_cons_of_mem _ hu, extend_append k first (ds.take i) ▸ hm⟩

theorem AllMean.wellNamed {ts : List DefinitionSyntax} {ds : List Definition} (h : k.AllMean ts ds)
    (ht : ∀ t ∈ ts, t.Derived) : ∀ d ∈ ds, d.WellNamed := by
  intro d hd
  obtain ⟨i, hi⟩ := List.mem_iff_getElem?.mp hd
  obtain ⟨t, hmem, hm⟩ := h.means hi
  exact hm.wellNamed (ht t hmem)

end Known

-- ---------------------------------------------------------------------------
-- The names in a library
-- ---------------------------------------------------------------------------

theorem Module.Holds.get? {m : Module} {file : String} {ds : List Definition} (h : m.Holds file ds)
    {key : String} {d : Definition} (hd : m.get? key = some d) : d ∈ ds ∧ d.key = key := by
  rw [Module.get?, Table.get?_eq_lookup, h.entries] at hd
  obtain ⟨before, after, split, -⟩ := List.lookup_eq_some_iff.mp hd
  have hmem : (key, d) ∈ ds.map fun d => (d.key, d) := by simp [split]
  obtain ⟨d', hd', heq⟩ := List.mem_map.mp hmem
  cases heq
  exact ⟨hd', rfl⟩

theorem Module.wellNamed_of_read {m : Module} {file text : String}
    (h : Module.read file text l = .ok m) {key : String} {d : Definition}
    (hd : m.get? key = some d) : d.key = key ∧ d.WellNamed := by
  obtain ⟨trees, ds, hfile, hall, hholds⟩ := Module.read_ok h
  obtain ⟨hmem, hkey⟩ := hholds.get? hd
  exact ⟨hkey, hall.wellNamed (hfile.derived fun _ => Token.scan_spelled) d hmem⟩

theorem Library.Loads.wellNamed {l' : Library} {sources : List Source} (h : l.Loads sources l')
    (hl : l.WellNamed) : l'.WellNamed :=
  h.keep (P := fun m => ∀ key d, m.get? key = some d → d.key = key ∧ d.WellNamed)
    (fun _ hread _ _ hd => Module.wellNamed_of_read hread hd) hl

theorem Library.wellNamed_of_sources {sources : List Source}
    (h : Library.ofSources sources = .ok l) : l.WellNamed :=
  Library.Loads.wellNamed h fun _ _ hm => by cases hm

-- ---------------------------------------------------------------------------
-- Calls
-- ---------------------------------------------------------------------------

namespace Reader

inductive Call where
  | next
  | resolveAll

/-- The reader after it was asked, whatever came out. -/
def call (r : Reader) : Call → Reader
  | .next => r.next.2
  | .resolveAll => r.resolveAll.2

def calls (r : Reader) (cs : List Call) : Reader := cs.foldl call r

theorem calls_keep {P : Reader → Prop} (step : ∀ r, P r → P r.next.2) {r : Reader} (h : P r)
    (cs : List Call) : P (r.calls cs) := by
  -- a call for all definitions is a run of calls of `next`, each with fewer tokens ahead
  have drained (r : Reader) (h : P r) : P r.drain.2 := by
    induction hn : r.cursor.remaining using Nat.strongRecOn generalizing r with
    | _ n ih =>
      have hnext := step r h
      rw [drain]
      split
      next hr => rwa [hr] at hnext
      next hr => rwa [hr] at hnext
      next hr =>
        rw [hr] at hnext
        split
        next hlt => exact ih _ (hn ▸ hlt) _ hnext rfl
        next => exact hnext
  induction cs generalizing r with
  | nil => exact h
  | cons c cs ih =>
    cases c with
    | next => exact ih (step r h)
    | resolveAll => exact ih (drained r h)

/-- The reader stands in the text, and what it has accepted has a meaning. -/
structure Sound (r : Reader) (text : String) (l : Library) : Prop where
  within : r.Within text ⟨l, r.definitions⟩
  means : ∃ trees, Known.AllMean ⟨l, []⟩ trees r.definitions ∧ ∀ t ∈ trees, t.Derived

theorem Within.definitions {r : Reader} {ds : List Definition} (h : r.Within text ⟨l, ds⟩) :
    r.definitions = ds := h.describes.values

theorem sound_ofSource (text : String) (l : Library) : (ofSource text l).Sound text l :=
  ⟨within_ofSource text l, [], .nil, fun t ht => by cases ht⟩

theorem Step.leads {r after : Reader} {outcome : Except Fault (Option Definition)}
    (h : r.Step outcome after) : r.cursor.Leads after.cursor := by
  have leads : r.cursor.Leads (Read.left (Read.definition? r.context r.cursor)) :=
    Read.definition?_advances r.context r.cursor
  cases h with
  | fault hd | finished hd | accepted hd _ =>
    rw [hd] at leads
    exact leads

theorem Sound.next {r : Reader} (h : r.Sound text l) : r.next.2.Sound text l := by
  have step := h.within.step
  generalize hnext : r.next = result at step ⊢
  obtain ⟨outcome, after⟩ := result
  have tokens := step.leads.tokens.trans h.within.tokens
  cases step with
  | fault _ | finished _ => exact ⟨⟨h.within.describes, tokens⟩, h.means⟩
  | @accepted d cursor context _ _ =>
    obtain ⟨trees, hall, hderived⟩ := h.means
    obtain ⟨mid, t, blank, ht, hm, hafter⟩ := next_some h.within hnext
    have hds : Reader.definitions ⟨context, cursor⟩ = r.definitions ++ [d] := hafter.definitions
    refine ⟨hds ▸ hafter, trees ++ [t], hds ▸ hall.append hm, fun u hu => ?_⟩
    rcases List.mem_append.mp hu with hu | hu
    · exact hderived u hu
    · obtain rfl := List.mem_singleton.mp hu
      exact ⟨mid, _, fun u hu => h.within.spelled u (blank.suffix.subset hu), ht⟩

theorem Sound.calls {r : Reader} (h : r.Sound text l) (cs : List Call) :
    (r.calls cs).Sound text l :=
  calls_keep (P := (Sound · text l)) (fun _ => Sound.next) h cs

/-- Whatever a reader was asked for, what it has accepted is well scoped: it refers to what was
accepted before it, and there to what is still found. -/
theorem calls_wellScoped {sources : List Source} (hl : Library.ofSources sources = .ok l)
    (text : String) (cs : List Call) {i : Nat} {d : Definition}
    (hd : ((ofSource text l).calls cs).definitions[i]? = some d) :
    Known.WellScoped ⟨l, ((ofSource text l).calls cs).definitions.take i⟩ d ∧
      ∀ t, .definition t ∈ d.references →
        ((ofSource text l).calls cs).context.accepted.get? t.name = some t := by
  have sound := (sound_ofSource text l).calls cs
  generalize (ofSource text l).calls cs = r at hd sound
  obtain ⟨trees, hall, hderived⟩ := sound.means
  obtain ⟨t, ht, hm⟩ := hall.means hd
  have earlier : Known.WellNamed ⟨l, r.definitions.take i⟩ := fun e he =>
    hall.wellNamed hderived e (List.mem_of_mem_take he)
  have hscoped : Known.WellScoped ⟨l, r.definitions.take i⟩ d :=
    hm.wellScoped (hderived t ht) earlier (Library.wellNamed_of_sources hl)
  refine ⟨hscoped, fun target htarget => ?_⟩
  cases hscoped.references _ htarget with
  | definition _ hfind =>
    rw [sound.within.describes.get?, Known.find?, ← List.take_append_drop i r.definitions,
      List.find?_append]
    exact Option.or_eq_some_iff.mpr (.inl hfind)

/-- No definition begins with the third word: the reader faults, and then accepts one more. -/
theorem calls_wellScoped_after_fault :
    let basic : Source := ⟨"basic.gotyno", "struct Point \x7b\n    x: U8\n\x7d\n"⟩
    let text := "import basic = b\nstruct Item<T> \x7b\n    at: b.Point\n    value: T\n\x7d\n" ++
      "broken\nuntagged union Entry \x7b\n    Item<Entry>\n    b.Point\n\x7d\n"
    ∃ l d, Library.ofSources [basic] = .ok l ∧
      ((ofSource text l).calls [.resolveAll, .next]).definitions[2]? = some d ∧
      Known.WellScoped ⟨l, ((ofSource text l).calls [.resolveAll, .next]).definitions.take 2⟩ d ∧
      ∀ t, .definition t ∈ d.references →
        ((ofSource text l).calls [.resolveAll, .next]).context.accepted.get? t.name = some t := by
  intro basic text
  obtain ⟨l, hl⟩ : ∃ l, Library.ofSources [basic] = .ok l :=
    Library.ok_of_isSome (by decide +kernel)
  have accepted : ((Library.ofSources [basic]).toOption.bind fun l =>
      ((ofSource text l).calls [.resolveAll, .next]).definitions[2]?).isSome := by decide +kernel
  rw [hl] at accepted
  obtain ⟨d, hd⟩ := Option.isSome_iff_exists.mp accepted
  exact ⟨l, d, hl, hd, calls_wellScoped hl text _ hd⟩

end Reader

end TypeSchema
