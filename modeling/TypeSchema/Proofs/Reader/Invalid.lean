import TypeSchema.Proofs.Reader.Faults

/-!
# Invalid tokens are not passed

No call takes an invalid token, also after faults. So a text that has one is not read: the reader
stays before the first of them, and reports a fault there or at an earlier place. A text that is
read is read to its end.
-/

namespace TypeSchema

variable {l : Library} {text : String} {t : Token} {f : Fault}

theorem Token.mem_of_mem_upToInvalid {u : Token} {before rest : List Token}
    (ht : t.kind = .invalid) (hu : u ∈ upToInvalid (before ++ t :: rest)) : u ∈ before ∨ u = t := by
  induction before with
  | nil => simpa [upToInvalid, ht] using hu
  | cons v before ih =>
    rw [List.cons_append, upToInvalid] at hu
    split at hu
    next => exact .inl (List.mem_cons.mpr (.inl (List.mem_singleton.mp hu)))
    next =>
      rcases List.mem_cons.mp hu with rfl | hu
      · exact .inl List.mem_cons_self
      · exact (ih hu).imp_left (List.mem_cons_of_mem v)

namespace Reader

variable {r : Reader}

/-- The tokens that lie behind, none of which is invalid. -/
def Clean (r : Reader) (text : String) : Prop :=
  ∃ passed, Token.scan text = passed ++ r.cursor.tokens ∧ r.cursor.position = passed.length ∧
    ∀ t ∈ passed, t.kind ≠ .invalid

theorem clean_ofSource (text : String) (l : Library) : (ofSource text l).Clean text := by
  refine ⟨[], (Cursor.tokens_ofSource text).symm, ?_, nofun⟩
  show (Cursor.ofTokens (Token.scan text)).position = 0
  unfold Cursor.ofTokens
  split
  · rfl
  · split <;> rfl

theorem Clean.leads {after : Reader} (h : r.Clean text) (hr : r.cursor.Leads after.cursor) :
    after.Clean text := by
  obtain ⟨passed, hscan, hposition, hvalid⟩ := h
  obtain ⟨more, htokens, hmore, hvalid'⟩ := hr.passed
  refine ⟨passed ++ more, ?_, ?_, ?_⟩
  · rw [hscan, htokens, List.append_assoc]
  · rw [hmore, hposition, List.length_append]
  · exact List.forall_mem_append.mpr ⟨hvalid, hvalid'⟩

theorem Clean.ahead {before rest : List Token} (h : r.Clean text)
    (hscan : Token.scan text = before ++ t :: rest) (ht : t.kind = .invalid) :
    ∃ passed between, before = passed ++ between ∧ r.cursor.position = passed.length ∧
      r.cursor.tokens = between ++ t :: rest := by
  obtain ⟨passed, hsplit, hposition, hvalid⟩ := h
  rcases List.append_eq_append_iff.mp (hscan.symm.trans hsplit) with
    ⟨between, hpassed, htokens⟩ | ⟨between, hbefore, htokens⟩
  · cases between with
    | nil => exact ⟨passed, [], by simpa using hpassed.symm, hposition, by simpa using htokens.symm⟩
    | cons u between =>
      obtain ⟨rfl, -⟩ := List.cons.inj htokens
      exact (hvalid t (by simp [hpassed]) ht).elim
  · exact ⟨passed, between, hbefore, hposition, htokens⟩

/-- The reader has accepted what has a meaning and lies behind, and has passed no invalid token. -/
structure Stands (r : Reader) (text : String) (l : Library) : Prop where
  sound : r.Sound text l
  placed : r.Placed text
  clean : r.Clean text

theorem stands_ofSource (text : String) (l : Library) : (ofSource text l).Stands text l :=
  ⟨sound_ofSource text l, nofun, clean_ofSource text l⟩

theorem Stands.next (h : r.Stands text l) : r.next.2.Stands text l :=
  ⟨h.sound.next, h.sound.placed_next h.placed, h.clean.leads h.sound.within.step.leads⟩

theorem Stands.drain (h : r.Stands text l) : ∃ last : Reader, last.Stands text l ∧
    last.next.2 = r.drain.2 ∧ (last.next.1 = .ok none ∧ r.drain.1 = .ok () ∨
      ∃ f, last.next.1 = .error f ∧ r.drain.1 = .error f) := by
  induction hn : r.cursor.remaining using Nat.strongRecOn generalizing r with
  | _ n ih =>
    have hnext := h.next
    cases hr : r.next with
    | mk outcome after =>
      rw [hr] at hnext
      match outcome with
      | .error f =>
        rw [Reader.drain, hr]
        exact ⟨r, h, by rw [hr], .inr ⟨f, by rw [hr], rfl⟩⟩
      | .ok none =>
        rw [Reader.drain, hr]
        exact ⟨r, h, by rw [hr], .inl ⟨by rw [hr], rfl⟩⟩
      | .ok (some d) =>
        rw [drain_of_next_some h.sound.within hr]
        exact ih _ (hn ▸ remaining_lt_of_next_some h.sound.within hr) hnext rfl

theorem Stands.not_lt (hshort : text.length < Location.limit) (h : r.Stands text l)
    (hf : r.next.1 = .error f) {before rest : List Token}
    (hscan : Token.scan text = before ++ t :: rest) (ht : t.kind = .invalid) :
    ¬t.location < f.location := by
  obtain ⟨u, hu, hlocation⟩ := (h.sound.about_reach hf).token
  obtain ⟨passed, between, rfl, -, htokens⟩ := h.clean.ahead hscan ht
  rw [Cursor.reach, htokens] at hu
  intro later
  rw [← hlocation] at later
  rcases Token.mem_of_mem_upToInvalid ht hu with hu | rfl
  · obtain ⟨first, others, rfl⟩ := List.append_of_mem hu
    have behind : u :: (others ++ t :: rest) <:+ Token.scan text :=
      ⟨passed ++ first, by simp [hscan]⟩
    have earlier : u.location < t.location := Token.location_lt hshort behind (by simp)
    exact Location.lt_irrefl _ (Location.lt_trans earlier later)
  · exact Location.lt_irrefl _ later

end Reader

/-- Invalid tokens are never passed over in silence: a text that has one is not read, and no call,
also after faults, brings the reader behind it or finds the fault behind it. Where a text is read,
the reader comes to the end of it. -/
theorem Module.read_refuses (file text : String) (l : Library) :
    (∀ before t rest, Token.scan text = before ++ t :: rest → t.kind = .invalid →
      (∀ cs, ((Reader.ofSource text l).calls cs).cursor.position ≤ before.length) ∧
        ∃ f, Module.read file text l = .error f ∧
          (text.length < Location.limit → ¬t.location < f.location)) ∧
      ∀ m, Module.read file text l = .ok m →
        ((Reader.ofSource text l).call .resolveAll).cursor.position + 1 =
            (Token.scan text).length ∧
          ((Reader.ofSource text l).call .resolveAll).cursor.peek.kind = .endOfInput := by
  obtain ⟨last, hlast, hafter, outcome⟩ := (Reader.stands_ofSource text l).drain
  have hread : Module.read file text l = ((Reader.ofSource text l).drain.1).map
      fun _ => (Reader.ofSource text l).drain.2.finish file := rfl
  refine ⟨fun before t rest hscan ht => ⟨fun cs => ?_, ?_⟩, fun m hm => ?_⟩
  · have stands := Reader.calls_keep (P := (Reader.Stands · text l)) (fun _ h => h.next)
      (Reader.stands_ofSource text l) cs
    obtain ⟨passed, between, rfl, hposition, -⟩ := stands.clean.ahead hscan ht
    rw [hposition, List.length_append]
    exact Nat.le_add_right _ _
  · cases hm : Module.read file text l with
    | ok m =>
      obtain ⟨_, _, hfile, -⟩ := Module.read_ok hm
      exact (hfile.valid t (by simp [hscan]) ht).elim
    | error f =>
      refine ⟨f, rfl, fun hshort => ?_⟩
      rcases outcome with ⟨-, hdrain⟩ | ⟨g, hg, hdrain⟩
      · rw [hread, hdrain] at hm
        cases hm
      · rw [hread, hdrain] at hm
        cases hm
        exact hlast.not_lt hshort hg hscan ht
  · rcases outcome with ⟨hnone, -⟩ | ⟨g, -, hdrain⟩
    · obtain ⟨-, -, stop, htokens, hstop⟩ :=
        Reader.next_none hlast.sound.within (Prod.ext hnone hafter)
      have clean := hlast.next.clean
      rw [hafter] at clean
      obtain ⟨passed, hscan, hposition, -⟩ := clean
      refine ⟨?_, (Cursor.peek_of_tokens htokens).symm ▸ hstop⟩
      show (Reader.ofSource text l).drain.2.cursor.position + 1 = _
      rw [hscan, htokens, hposition, List.length_append, List.length_singleton]
    · rw [hread, hdrain] at hm
      cases hm

/-- A line that is no definition is passed and a quote that is not closed is not, however often the
reader is asked. Where the quote is closed the text is read to its end. -/
theorem Module.read_refuses_open_quote :
    let faulty := "broken\nenum B \x7b\n    a = \"b\n\x7d\n"
    let closed := "enum B \x7b\n    a = \"b\"\n\x7d\n"
    let calls : List Reader.Call := [.resolveAll, .resolveAll, .next, .resolveAll]
    (∃ before t rest f, Token.scan faulty = before ++ t :: rest ∧ t.kind = .invalid ∧
      ((Reader.ofSource faulty .empty).calls calls).cursor.position = before.length ∧
      ((Reader.ofSource faulty .empty).calls calls).cursor.position ≤ before.length ∧
      Module.read "b.gotyno" faulty .empty = .error f ∧ ¬t.location < f.location) ∧
    ∃ m, Module.read "b.gotyno" closed .empty = .ok m ∧
      ((Reader.ofSource closed .empty).call .resolveAll).cursor.position + 1 =
        (Token.scan closed).length ∧
      ((Reader.ofSource closed .empty).call .resolveAll).cursor.peek.kind = .endOfInput := by
  intro faulty closed calls
  have hshort : faulty.length < Location.limit := by decide +kernel
  have hscan : Token.scan faulty = (Token.scan faulty).take 16 ++
      ⟨.invalid, "\"b\n\x7d\n", ⟨3, 9⟩⟩ :: (Token.scan faulty).drop 17 := by decide +kernel
  have stays : ((Reader.ofSource faulty .empty).calls calls).cursor.position =
      ((Token.scan faulty).take 16).length := by decide +kernel
  obtain ⟨position, f, hf, place⟩ := (read_refuses "b.gotyno" faulty .empty).1 _ _ _ hscan rfl
  obtain ⟨m, hm⟩ : ∃ m, Module.read "b.gotyno" closed .empty = .ok m :=
    Library.ok_of_isSome (by decide +kernel)
  exact ⟨⟨_, _, _, f, hscan, rfl, stays, position calls, hf, place hshort⟩, m, hm,
    (read_refuses "b.gotyno" closed .empty).2 m hm⟩

end TypeSchema
