import TypeSchema.Proofs.Library
import TypeSchema.Proofs.Read.Progress

/-!
# Reading comes to an end

Each definition brings a reader further, so a text has fewer definitions than tokens, and reading
all of them is a run of calls for the next one that is no longer than the text. Loading sources is
a run for each of them.
-/

namespace TypeSchema

open Read (CallsLater Progresses Loop)

variable {text : String} {l : Library} {sources : List Source}

namespace Reader

theorem later_of_next_some {r after : Reader} {d : Definition}
    (h : r.next = (.ok (some d), after)) : r.cursor.Later after.cursor := by
  unfold next at h
  split at h
  next => cases h
  next => cases h
  next read =>
    simp only at h
    split at h
    next => cases h
    next =>
      cases h
      exact Read.definition?_later read

/-- The outcome of `n` calls of `next`, each after the one before, up to the first that does not
give a definition. -/
inductive Drains : Reader → Nat → Except Fault Unit → Reader → Prop
  | fault {r after : Reader} {f : Fault} : r.next = (.error f, after) →
      Drains r 1 (.error f) after
  | done {r after : Reader} : r.next = (.ok none, after) → Drains r 1 (.ok ()) after
  | more {r mid after : Reader} {d : Definition} {n : Nat} {outcome : Except Fault Unit} :
      r.next = (.ok (some d), mid) → Drains mid n outcome after → Drains r (n + 1) outcome after

theorem Drains.calls_le {r after : Reader} {n : Nat} {outcome : Except Fault Unit}
    (h : r.Drains n outcome after) : n ≤ r.cursor.tokens.length := by
  induction h with
  | fault _ | done _ => exact Cursor.length_tokens _ ▸ Nat.le_add_left ..
  | more next _ ih =>
    have later := later_of_next_some next
    have := later.1.later_iff.mp later
    omega

theorem drain_drains (r : Reader) : ∃ n, r.Drains n r.drain.1 r.drain.2 := by
  induction hn : r.cursor.remaining using Nat.strongRecOn generalizing r with
  | _ k ih =>
    rw [drain]
    split
    next next => exact ⟨1, .fault next⟩
    next next => exact ⟨1, .done next⟩
    next mid next =>
      have later := (later_of_next_some next).remaining_lt
      obtain ⟨n, run⟩ := ih _ (hn ▸ later) mid rfl
      rw [if_pos later]
      exact ⟨n + 1, .more next run⟩

end Reader

theorem Module.read_drains (file text : String) (l : Library) :
    ∃ n outcome after, (Reader.ofSource text l).Drains n outcome after ∧
      Module.read file text l = outcome.map fun _ => after.finish file := by
  obtain ⟨n, run⟩ := (Reader.ofSource text l).drain_drains
  exact ⟨n, _, _, run, rfl⟩

theorem Reader.Drains.calls_le_of_source {after : Reader} {n : Nat} {outcome : Except Fault Unit}
    (h : (ofSource text l).Drains n outcome after) : n ≤ (Token.scan text).length :=
  Cursor.tokens_ofSource text ▸ h.calls_le

namespace Library

/-- The outcome of loading the sources one after the other, in `n` calls of `next` in all. -/
inductive Run : Library → List Source → Nat → Except LoadFault Library → Prop
  | done {l : Library} : Run l [] 0 (.ok l)
  | repeated {l : Library} {s : Source} {rest : List Source} {m : Module} :
      l.get? (ModuleName.ofPath s.file) = some m →
      Run l (s :: rest) 0 (.error (.repeatedModule (ModuleName.ofPath s.file) s.file m.file))
  | unreadable {l : Library} {s : Source} {rest : List Source} {n : Nat} {f : Fault}
      {after : Reader} : l.get? (ModuleName.ofPath s.file) = none →
      (Reader.ofSource s.text l).Drains n (.error f) after →
      Run l (s :: rest) n (.error (.unreadable s.file f))
  | loaded {l grown : Library} {s : Source} {rest : List Source} {m n : Nat} {after : Reader}
      {outcome : Except LoadFault Library} : l.get? (ModuleName.ofPath s.file) = none →
      (Reader.ofSource s.text l).Drains m (.ok ()) after →
      l.insert? (after.finish s.file) = some grown → Run grown rest n outcome →
      Run l (s :: rest) (m + n) outcome

theorem Run.calls_le {n : Nat} {outcome : Except LoadFault Library} (h : Run l sources n outcome) :
    n ≤ (sources.flatMap fun s => Token.scan s.text).length := by
  induction h with
  | done => exact Nat.zero_le _
  | repeated _ => exact Nat.zero_le _
  | unreadable _ read =>
    rw [List.flatMap_cons, List.length_append]
    exact Nat.le_add_right_of_le read.calls_le_of_source
  | loaded _ read _ _ ih =>
    rw [List.flatMap_cons, List.length_append]
    exact Nat.add_le_add read.calls_le_of_source ih

theorem foldlM_run (l : Library) (sources : List Source) :
    ∃ n, Run l sources n (sources.foldlM load l) := by
  induction sources generalizing l with
  | nil => exact ⟨0, .done⟩
  | cons s rest ih =>
    rw [List.foldlM_cons]
    cases hname : l.get? (ModuleName.ofPath s.file) with
    | some m =>
      have taken : l.load s = .error
          (.repeatedModule (ModuleName.ofPath s.file) s.file m.file) := by
        simp [load, hname, bind, Except.bind, throw, throwThe, MonadExceptOf.throw]
      exact ⟨0, taken ▸ .repeated hname⟩
    | none =>
      obtain ⟨n, outcome, after, run, hread⟩ := Module.read_drains s.file s.text l
      cases outcome with
      | error f =>
        have unread : l.load s = .error (.unreadable s.file f) := by
          rw [load, hname, hread]
          rfl
        exact ⟨n, unread ▸ .unreadable hname run⟩
      | ok _ =>
        obtain ⟨grown, hinsert⟩ := insert?_of_free (m := after.finish s.file) hname
        obtain ⟨m, others⟩ := ih grown
        have read : l.load s = .ok grown := load_ok.mpr ⟨hname, _, hread, hinsert⟩
        exact ⟨n + m, read ▸ .loaded hname run hinsert others⟩

/-- Reading always comes to an end, since it always makes progress. Types, references with their
arguments, loops and the skipping of blank lines go on at later places only, and a definition leaves
the cursor at a later place. So a text is read in at most as many calls for the next definition as
it has tokens, and sources are loaded in at most as many as they have tokens together. -/
theorem ofSources_progresses :
    -- types, and references with their arguments
    (∀ scope : Scope, (Progresses fun again (_ : Unit) => Read.typeStep scope (again ())) ∧
      (Progresses fun again (_ : Unit) => Read.referenceStep scope (again ())) ∧
      (∀ again, Read.referenceStep scope again =
        Read.referenceWith scope (Read.arguments again)) ∧
      CallsLater fun arguments (_ : Unit) => Read.referenceWith scope (arguments ())) ∧
    (CallsLater fun again (_ : Unit) => Read.arguments (again ())) ∧
    -- loops
    (∀ {α : Type} {round : (Array α → Read (List α)) → Array α → Read (List α)},
      Loop round → Progresses round) ∧
    (∀ c : Cursor, (c.skipBlankLines =
        if c.afterSpaces.kind.isLineBreak then c.nextLine.skipBlankLines
        else if c.afterSpaces.kind = .endOfInput then c.advance (c.run .space)
        else c) ∧
      (c.afterSpaces.kind.isLineBreak → c.Later c.nextLine)) ∧
    -- definitions, modules and libraries
    (∀ {r after : Reader} {d : Definition}, r.next = (.ok (some d), after) →
      r.cursor.Later after.cursor) ∧
    (∀ r : Reader, ∃ n ≤ r.cursor.tokens.length, ∃ outcome after, r.Drains n outcome after ∧
      r.resolveAll = (outcome.map fun _ => after.definitions, after)) ∧
    (∀ file text l, ∃ n ≤ (Token.scan text).length, ∃ outcome after,
      (Reader.ofSource text l).Drains n outcome after ∧
      Module.read file text l = outcome.map fun _ => after.finish file) ∧
    ∀ sources, ∃ n ≤ (sources.flatMap fun s => Token.scan s.text).length,
      Run empty sources n (ofSources sources) := by
  refine ⟨fun scope => ⟨Read.typeStep_progresses scope, Read.referenceStep_progresses scope,
      Read.referenceStep_eq scope, Read.referenceWith_callsLater scope⟩,
    Read.arguments_callsLater, Loop.progresses,
    fun c => ⟨c.skipBlankLines_eq, Cursor.later_nextLine⟩, Reader.later_of_next_some,
    fun r => ?_, fun file text l => ?_, fun sources => ?_⟩
  · obtain ⟨n, run⟩ := r.drain_drains
    exact ⟨n, run.calls_le, _, _, run, rfl⟩
  · obtain ⟨n, outcome, after, run, hread⟩ := Module.read_drains file text l
    exact ⟨n, run.calls_le_of_source, outcome, after, run, hread⟩
  · obtain ⟨n, run⟩ := foldlM_run empty sources
    exact ⟨n, run.calls_le, run⟩

/-- The line break of the blank line, the fields of the struct and the struct itself each bring the
reader further. -/
theorem ofSources_progresses_of_blank_line :
    let r := Reader.ofSource " \nstruct A \x7b\n\x7d\n" empty
    Progresses (Read.bodyRound (Read.fieldEntry ⟨r.context, "A", []⟩)) ∧
      (r.cursor.afterSpaces.kind.isLineBreak ∧ r.cursor.Later r.cursor.nextLine) ∧
      r.next.1 = .ok (some (.struct ⟨⟨"A", ⟨2, 1⟩⟩, none, []⟩)) ∧
      r.cursor.Later r.next.2.cursor := by
  intro r
  have hbreak : r.cursor.afterSpaces.kind.isLineBreak := by decide +kernel
  have hnext : r.next.1 = .ok (some (.struct ⟨⟨"A", ⟨2, 1⟩⟩, none, []⟩)) := by decide +kernel
  obtain ⟨-, -, loops, lines, definitions, -⟩ := ofSources_progresses
  exact ⟨loops (.fields _), ⟨hbreak, (lines r.cursor).2 hbreak⟩, hnext,
    definitions (Prod.ext hnext rfl)⟩

end Library

end TypeSchema
