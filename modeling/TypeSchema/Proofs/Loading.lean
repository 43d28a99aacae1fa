import Mathlib.Data.List.Nodup
import Mathlib.Data.List.TakeDrop
import TypeSchema.Proofs.Library

/-!
# The first source at fault

Loading goes through the sources in their order. As long as no source repeats a name and each can
be read with the modules of those before it at hand, the library holds one module for each of them;
the first source for which that fails is the one that is reported, and those behind it do not
matter.
-/

namespace TypeSchema.Library

variable {l l' : Library} {s e : Source} {m : Module} {f : Fault} {sources more : List Source}
  {i k : Nat}

-- ---------------------------------------------------------------------------
-- A library is its modules
-- ---------------------------------------------------------------------------

theorem entries_eq (l : Library) : l.table.entries = l.modules.map fun m => (m.name, m) := by
  rw [modules, ← Table.map_snd_entries, List.map_map]
  refine (List.map_id _).symm.trans (List.map_congr_left fun entry hentry => ?_)
  exact Prod.ext (l.keyed entry hentry) rfl

theorem eq_of_modules (h : l.modules = l'.modules) : l = l' :=
  eq_of_table (Table.eq_of_entries (by rw [entries_eq, entries_eq, h]))

theorem nodup_names (l : Library) : (l.modules.map (·.name)).Nodup := by
  have keys := l.table.keys_nodup
  rwa [entries_eq, List.map_map] at keys

theorem eq_of_name {n : Module} (hm : m ∈ l.modules) (hn : n ∈ l.modules) (h : m.name = n.name) :
    m = n := List.inj_on_of_nodup_map l.nodup_names hm hn h

theorem mem_of_get? {name : String} (h : l.get? name = some m) : m ∈ l.modules := by
  rw [get?, Table.get?_eq_lookup] at h
  obtain ⟨before, after, split, -⟩ := List.lookup_eq_some_iff.1 h
  rw [modules, ← Table.map_snd_entries]
  exact List.mem_map.mpr ⟨(name, m), by simp [split], rfl⟩

theorem get?_of_mem (h : m ∈ l.modules) : l.get? m.name = some m := by
  obtain ⟨n, hn⟩ : ∃ n, l.get? m.name = some n := by
    refine contains_iff.mp (Table.contains_iff.mpr ?_)
    rw [← Table.map_fst_entries, entries_eq, List.map_map]
    exact List.mem_map.mpr ⟨m, h, rfl⟩
  obtain rfl : n = m := eq_of_name (mem_of_get? hn) h (name_of_get? hn)
  exact hn

-- ---------------------------------------------------------------------------
-- One module for each source
-- ---------------------------------------------------------------------------

/-- The library has one module for each source, in their order: the one that is read for it with the
modules of the sources before it at hand. It has the file of the source, and is found under the
name of that file. -/
structure Holds (l : Library) (sources : List Source) : Prop where
  length : l.modules.length = sources.length
  read : ∀ i s, sources[i]? = some s → ∃ m before,
    l.modules[i]? = some m ∧ before.modules = l.modules.take i ∧
      Module.read s.file s.text before = .ok m ∧ m.file = s.file ∧
      l.get? (ModuleName.ofPath s.file) = some m

theorem holds_empty : empty.Holds [] := ⟨rfl, by simp⟩

theorem Holds.unique (h : l.Holds sources) (h' : l'.Holds sources) : l = l' := by
  have same (i : Nat) : l.modules.take i = l'.modules.take i := by
    induction i with
    | zero => rfl
    | succ i ih =>
      rw [List.take_add_one, List.take_add_one, ih]
      cases hs : sources[i]? with
      | none =>
        have short := List.getElem?_eq_none_iff.mp hs
        rw [List.getElem?_eq_none (h.length ▸ short), List.getElem?_eq_none (h'.length ▸ short)]
      | some s =>
        obtain ⟨m, before, hm, hbefore, hread, -⟩ := h.read i s hs
        obtain ⟨m', before', hm', hbefore', hread', -⟩ := h'.read i s hs
        obtain rfl : before = before' := eq_of_modules (by rw [hbefore, hbefore', ih])
        obtain rfl : m = m' := Except.ok.inj (hread.symm.trans hread')
        rw [hm, hm']
  have lengths := h.length.trans h'.length.symm
  refine eq_of_modules ?_
  rw [← List.take_length (l := l.modules), same, lengths, List.take_length]

theorem Holds.insert (h : l.Holds sources) (hread : Module.read s.file s.text l = .ok m)
    (hinsert : l.insert? m = some l') : l'.Holds (sources ++ [s]) where
  length := by simp [modules_insert? hinsert, h.length]
  read i e he := by
    have modules := modules_insert? hinsert
    rcases Nat.lt_or_ge i sources.length with hi | hi
    · rw [List.getElem?_append_left hi] at he
      obtain ⟨n, before, hn, hbefore, hreads, hfile, hget⟩ := h.read i e he
      have inside : i < l.modules.length := h.length ▸ hi
      refine ⟨n, before, ?_, ?_, hreads, hfile, ?_⟩
      · rw [modules, List.getElem?_append_left inside, hn]
      · rw [modules, List.take_append_of_le_length (Nat.le_of_lt inside), hbefore]
      · have hmem : n ∈ l'.modules := by simp [modules, mem_of_get? hget]
        rw [← name_of_get? hget, get?_of_mem hmem]
    · obtain ⟨rfl, rfl⟩ : i = sources.length ∧ s = e := by
        rw [List.getElem?_append_right hi, List.getElem?_singleton] at he
        split at he
        next hlast =>
          exact ⟨Nat.le_antisymm (Nat.sub_eq_zero_iff_le.mp hlast) hi, Option.some.inj he⟩
        next => cases he
      obtain ⟨_, _, _, _, hholds⟩ := Module.read_ok hread
      refine ⟨m, l, ?_, ?_, hread, hholds.file, ?_⟩
      · simp [modules, ← h.length]
      · simp [modules, ← h.length]
      · rw [get?_insert? hinsert, if_pos hholds.name.symm]

theorem Holds.get?_of_mem (h : l.Holds sources) (he : e ∈ sources) :
    ∃ m, l.get? (ModuleName.ofPath e.file) = some m ∧ m.file = e.file := by
  obtain ⟨i, hi⟩ := List.mem_iff_getElem?.mp he
  obtain ⟨m, -, -, -, -, hfile, hget⟩ := h.read i e hi
  exact ⟨m, hget, hfile⟩

theorem Holds.mem_of_get? (h : l.Holds sources) {name : String} (hm : l.get? name = some m) :
    ∃ e ∈ sources, ModuleName.ofPath e.file = name := by
  obtain ⟨i, hi⟩ := List.mem_iff_getElem?.mp (Library.mem_of_get? hm)
  have inside := (List.getElem?_eq_some_iff.mp hi).1
  rw [h.length] at inside
  obtain ⟨n, -, hn, -, -, -, hget⟩ := h.read i _ (List.getElem?_eq_getElem inside)
  obtain rfl : m = n := Option.some.inj (hi.symm.trans hn)
  exact ⟨_, List.getElem_mem inside, (name_of_get? hget).symm.trans (name_of_get? hm)⟩

-- ---------------------------------------------------------------------------
-- One more source
-- ---------------------------------------------------------------------------

/-- The source has the name of none of the others. -/
def Fresh (s : Source) (sources : List Source) : Prop :=
  ∀ e ∈ sources, ModuleName.ofPath e.file ≠ ModuleName.ofPath s.file

theorem Holds.get?_of_fresh (h : l.Holds sources) (fresh : Fresh s sources) :
    l.get? (ModuleName.ofPath s.file) = none := by
  cases hm : l.get? (ModuleName.ofPath s.file) with
  | none => rfl
  | some m =>
    obtain ⟨e, he, hname⟩ := h.mem_of_get? hm
    exact (fresh e he hname).elim

theorem Holds.load_repeated (h : l.Holds sources) (he : e ∈ sources)
    (hname : ModuleName.ofPath e.file = ModuleName.ofPath s.file) :
    l.load s = .error (.repeatedModule (ModuleName.ofPath s.file) s.file e.file) := by
  obtain ⟨m, hget, hfile⟩ := h.get?_of_mem he
  rw [load, ← hname]
  simp [hget, hfile, bind, Except.bind, throw, throwThe, MonadExceptOf.throw]

theorem Holds.load_unreadable (h : l.Holds sources) (fresh : Fresh s sources)
    (hread : Module.read s.file s.text l = .error f) :
    l.load s = .error (.unreadable s.file f) := by
  rw [load, h.get?_of_fresh fresh, hread]
  rfl

theorem insert?_of_read (free : l.get? (ModuleName.ofPath s.file) = none)
    (hread : Module.read s.file s.text l = .ok m) : ∃ l', l.insert? m = some l' := by
  obtain ⟨_, _, _, _, hholds⟩ := Module.read_ok hread
  exact insert?_of_free (hholds.name ▸ free)

theorem Holds.load (h : l.Holds sources) (fresh : Fresh s sources)
    (hread : Module.read s.file s.text l = .ok m) :
    ∃ l', l.load s = .ok l' ∧ l'.Holds (sources ++ [s]) := by
  have free := h.get?_of_fresh fresh
  obtain ⟨l', hinsert⟩ := insert?_of_read free hread
  exact ⟨l', load_ok.mpr ⟨free, m, hread, hinsert⟩, h.insert hread hinsert⟩

-- ---------------------------------------------------------------------------
-- All sources
-- ---------------------------------------------------------------------------

/-- The source at `k` has the name of one before it, or is not read with the modules of those before
it at hand. -/
def Stops (sources : List Source) (k : Nat) : Prop :=
  ∃ s, sources[k]? = some s ∧ (¬Fresh s (sources.take k) ∨
    ∃ l f, l.Holds (sources.take k) ∧ Module.read s.file s.text l = .error f)

theorem ofSources_append (sources more : List Source) :
    ofSources (sources ++ more) = ofSources sources >>= fun l => more.foldlM Library.load l :=
  List.foldlM_append

/-- Up to the first source at fault the library grows by one module for each source. -/
theorem ofSources_take (h : ∀ j < k, ¬Stops sources j) :
    ∃ l, ofSources (sources.take k) = .ok l ∧ l.Holds (sources.take k) := by
  induction k with
  | zero => exact ⟨empty, rfl, holds_empty⟩
  | succ k ih =>
    obtain ⟨l, hl, hholds⟩ := ih fun j hj => h j (Nat.lt_succ_of_lt hj)
    rw [List.take_add_one]
    cases hs : sources[k]? with
    | none => exact ⟨l, by simpa using hl, by simpa using hholds⟩
    | some s =>
      have loads := h k (Nat.lt_succ_self k)
      simp only [Stops, hs, Option.some.injEq, exists_eq_left', not_or, not_not] at loads
      obtain ⟨fresh, readable⟩ := loads
      cases hread : Module.read s.file s.text l with
      | error f => exact (readable ⟨l, f, hholds, hread⟩).elim
      | ok m =>
        obtain ⟨l', hload, hholds'⟩ := hholds.load fresh hread
        refine ⟨l', ?_, hholds'⟩
        simp [ofSources_append, hl, hload, bind, Except.bind, pure, Except.pure]

theorem Holds.load_of_stops (h : l.Holds (sources.take k)) (hs : sources[k]? = some s)
    (stops : Stops sources k) :
    (Fresh s (sources.take k) → ∃ f, Module.read s.file s.text l = .error f) ∧
      ∃ fault, l.load s = .error fault := by
  obtain ⟨s', hs', stops⟩ := stops
  obtain rfl : s = s' := Option.some.inj (hs.symm.trans hs')
  have unreadable (fresh : Fresh s (sources.take k)) :
      ∃ f, Module.read s.file s.text l = .error f := by
    obtain ⟨l', f, h', hread⟩ := stops.resolve_left (not_not.mpr fresh)
    exact ⟨f, h.unique h' ▸ hread⟩
  refine ⟨unreadable, ?_⟩
  by_cases fresh : Fresh s (sources.take k)
  · obtain ⟨f, hread⟩ := unreadable fresh
    exact ⟨_, h.load_unreadable fresh hread⟩
  · simp only [Fresh, not_forall, not_not] at fresh
    obtain ⟨e, he, hname⟩ := fresh
    exact ⟨_, h.load_repeated he hname⟩

theorem ofSources_of_load {fault : LoadFault} (hs : sources[k]? = some s)
    (hl : ofSources (sources.take k) = .ok l) (hload : l.load s = .error fault)
    (more : List Source) : ofSources (sources.take (k + 1) ++ more) = .error fault := by
  simp [List.take_add_one, hs, ofSources_append, hl, hload, bind, Except.bind]

theorem not_stops_of_ok (h : ofSources (sources.take k) = .ok l) : ∀ j < k, ¬Stops sources j := by
  induction k generalizing l with
  | zero => simp
  | succ k ih =>
    obtain ⟨mid, hmid, hlast⟩ : ∃ mid, ofSources (sources.take k) = .ok mid ∧
        sources[k]?.toList.foldlM Library.load mid = .ok l := by
      rw [List.take_add_one, ofSources_append] at h
      cases hmid : ofSources (sources.take k) with
      | error fault => simp [hmid, bind, Except.bind] at h
      | ok mid => exact ⟨mid, rfl, by simpa [hmid, bind, Except.bind] using h⟩
    have before := ih hmid
    intro j hj stops
    rcases Nat.lt_succ_iff_lt_or_eq.mp hj with hj | rfl
    · exact before j hj stops
    · obtain ⟨mid', hmid', hholds⟩ := ofSources_take before
      obtain rfl : mid = mid' := Except.ok.inj (hmid.symm.trans hmid')
      obtain ⟨s, hs, -⟩ := id stops
      obtain ⟨-, fault, hfault⟩ := hholds.load_of_stops hs stops
      simp [hs, hfault, bind, Except.bind] at hlast

/-- Sources are loaded one by one, and the first that is at fault is reported. If there is none, the
library holds one module for each source. If there is one, then it has the name of another before
it, which is reported whatever its text is, or the fault is the one that is found in it with the
modules of the sources before it at hand; sources behind it do not matter. That a module is read for
a new name and then refused does not happen. -/
theorem ofSources_first_fault (sources : List Source) :
    ((∀ k, ¬Stops sources k) → ∃ l, ofSources sources = .ok l ∧ l.Holds sources) ∧
      (∀ k, Stops sources k → (∀ j < k, ¬Stops sources j) →
        ∃ s l, sources[k]? = some s ∧ l.Holds (sources.take k) ∧
          (∀ e ∈ sources.take k, ModuleName.ofPath e.file = ModuleName.ofPath s.file →
            ofSources sources =
              .error (.repeatedModule (ModuleName.ofPath s.file) s.file e.file)) ∧
          (Fresh s (sources.take k) → ∃ f, Module.read s.file s.text l = .error f ∧
            ofSources sources = .error (.unreadable s.file f)) ∧
          ∀ more, ofSources (sources.take (k + 1) ++ more) = ofSources sources) ∧
      ∀ (l : Library) (s : Source) (m : Module), l.get? (ModuleName.ofPath s.file) = none →
        Module.read s.file s.text l = .ok m → ∃ l', l.insert? m = some l' := by
  refine ⟨fun loads => ?_, fun k stops before => ?_, fun l s m => insert?_of_read⟩
  · obtain ⟨l, hl, hholds⟩ := ofSources_take (k := sources.length) fun j _ => loads j
    rw [List.take_length] at hl hholds
    exact ⟨l, hl, hholds⟩
  · obtain ⟨l, hl, hholds⟩ := ofSources_take before
    obtain ⟨s, hs, -⟩ := id stops
    obtain ⟨unreadable, fault, hfault⟩ := hholds.load_of_stops hs stops
    have whole {fault : LoadFault} (hload : l.load s = .error fault) :
        ofSources sources = .error fault := by
      simpa using ofSources_of_load hs hl hload (sources.drop (k + 1))
    refine ⟨s, l, hs, hholds, fun e he hname => whole (hholds.load_repeated he hname),
      fun fresh => ?_, fun more => ?_⟩
    · obtain ⟨f, hread⟩ := unreadable fresh
      exact ⟨f, hread, whole (hholds.load_unreadable fresh hread)⟩
    · rw [ofSources_of_load hs hl hfault, whole hfault]

/-- A name is repeated in another directory with another extension, where the text is no module; and
a text is at fault before the repeated name. -/
theorem ofSources_first_fault_of_namesake :
    let basic : Source := ⟨"lib/basic.gotyno", "struct Point \x7b\n    x: U8\n\x7d\n"⟩
    let shapes : Source := ⟨"shapes.gotyno",
      "import basic = b\nunion Shape \x7b\n    Dot: b.Point\n\x7d\n"⟩
    let faulty : Source := ⟨"way.gotyno",
      "import basic\nstruct Way \x7b\n    way: []basic.Line\n\x7d\n"⟩
    let again : Source := ⟨"old/basic.txt", "struct basic"⟩
    (∃ l, ofSources [basic, shapes] = .ok l ∧ l.Holds [basic, shapes]) ∧
      Stops [basic, shapes, again, faulty] 2 ∧
      ofSources [basic, shapes, again, faulty] =
        .error (.repeatedModule "basic" "old/basic.txt" "lib/basic.gotyno") ∧
      Stops [basic, faulty, again] 1 ∧
      (∃ f, ofSources [basic, faulty, again] = .error (.unreadable "way.gotyno" f)) ∧
      ∃ m l', Module.read basic.file basic.text empty = .ok m ∧ empty.insert? m = some l' := by
  intro basic shapes faulty again
  have names : ModuleName.ofPath basic.file = "basic" ∧ ModuleName.ofPath again.file = "basic" ∧
      ModuleName.ofPath faulty.file = "way" := by decide +kernel
  obtain ⟨hbasic, hagain, hfaulty⟩ := names
  -- two sources that are loaded
  obtain ⟨l, hl⟩ : ∃ l, ofSources [basic, shapes] = .ok l := ok_of_isSome (by decide +kernel)
  have loads : ∀ k, ¬Stops [basic, shapes] k := by
    intro k stops
    have inside : ∀ j < 2, ¬Stops [basic, shapes] j := not_stops_of_ok hl
    obtain ⟨s, hs, -⟩ := id stops
    exact inside k (List.getElem?_eq_some_iff.mp hs).1 stops
  -- a name that is repeated
  have repeats : Stops [basic, shapes, again, faulty] 2 :=
    ⟨again, rfl, .inl fun fresh => fresh basic (by simp) (hbasic.trans hagain.symm)⟩
  obtain ⟨s, _, hs, -, repeated, -⟩ := (ofSources_first_fault [basic, shapes, again, faulty]).2.1 2
    repeats (not_stops_of_ok (k := 2) hl)
  obtain rfl : again = s := Option.some.inj hs
  have reported := repeated basic (by simp) (hbasic.trans hagain.symm)
  -- a fault in a text
  obtain ⟨l₁, hl₁, hread⟩ := ok_of_map_toOption (x := ofSources ([basic, faulty, again].take 1))
    (f := fun l => (Module.read faulty.file faulty.text l).toOption.isNone) (b := true)
    (by decide +kernel)
  have before := not_stops_of_ok hl₁
  obtain ⟨f, hf⟩ : ∃ f, Module.read faulty.file faulty.text l₁ = .error f := by
    cases hm : Module.read faulty.file faulty.text l₁ with
    | error f => exact ⟨f, rfl⟩
    | ok m => simp [hm, Except.toOption] at hread
  have holds : l₁.Holds ([basic, faulty, again].take 1) := by
    obtain ⟨l, hl, hholds⟩ := ofSources_take before
    exact Except.ok.inj (hl₁.symm.trans hl) ▸ hholds
  have stops : Stops [basic, faulty, again] 1 := ⟨faulty, rfl, .inr ⟨l₁, f, holds, hf⟩⟩
  obtain ⟨s, _, hs, -, -, unreadable, -⟩ := (ofSources_first_fault [basic, faulty, again]).2.1 1
    stops before
  obtain rfl : faulty = s := Option.some.inj hs
  have fresh : Fresh faulty [basic] := by
    intro e he
    rw [List.mem_singleton.mp he, hbasic, hfaulty]
    decide
  obtain ⟨f, -, hfault⟩ := unreadable fresh
  -- a module that is read
  obtain ⟨m, hm⟩ : ∃ m, Module.read basic.file basic.text empty = .ok m :=
    ok_of_isSome (by decide +kernel)
  obtain ⟨l', hinsert⟩ := (ofSources_first_fault []).2.2 empty basic m rfl hm
  exact ⟨(ofSources_first_fault [basic, shapes]).1 loads, repeats, hagain ▸ reported, stops,
    ⟨f, hfault⟩, m, l', hm, hinsert⟩

end TypeSchema.Library
