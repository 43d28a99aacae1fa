import TypeSchema.Proofs.Read.Advance

/-!
# A cursor that is asked again and again

Whatever a cursor is asked for, it stays in its list and never goes past an end. The calls of `next`
that an operation amounts to use up the tokens one after another, so none is lost and none comes
twice. `skipMany` and `skipWhile` are told by the run of tokens of one kind that lies ahead.
-/

namespace TypeSchema

variable {c d e : Cursor} {kind : Token.Kind} {ts us : List Token} {n : Nat}

namespace Cursor

-- ---------------------------------------------------------------------------
-- The list of a cursor
-- ---------------------------------------------------------------------------

/-- The list that a cursor walks through: an end comes behind tokens that have none there. -/
def ended (tokens : List Token) : List Token :=
  if tokens.getLast?.any (·.kind = .endOfInput) then tokens
  else tokens ++ [⟨.endOfInput, "", (tokens.getLast?.map (·.location)).getD .start⟩]

theorem tokens_ofTokens (tokens : List Token) : (ofTokens tokens).tokens = ended tokens := by
  unfold ofTokens ended
  cases hlast : tokens.getLast? with
  | none =>
    obtain rfl := List.getLast?_eq_none_iff.mp hlast
    rfl
  | some last =>
    by_cases hkind : last.kind = .endOfInput
    · obtain ⟨front, rfl⟩ := List.getLast?_eq_some_iff.mp hlast
      simp [hkind, Cursor.tokens]
    · simp [hkind, Cursor.tokens]

theorem position_ofTokens (tokens : List Token) : (ofTokens tokens).position = 0 := by
  unfold ofTokens
  split
  · rfl
  · split <;> rfl

-- ---------------------------------------------------------------------------
-- Tokens that are used up
-- ---------------------------------------------------------------------------

/-- Calls of `next` lead to another cursor, and give these tokens on the way. An end is not among
them, since it is never used up. -/
inductive Gives : Cursor → List Token → Cursor → Prop
  | none {c : Cursor} : Gives c [] c
  | token {c d : Cursor} {ts} :
      c.peek.kind ≠ .endOfInput → Gives c.next ts d → Gives c (c.peek :: ts) d

theorem Gives.trans (h : c.Gives ts d) (h' : d.Gives us e) : c.Gives (ts ++ us) e := by
  induction h with
  | none => exact h'
  | token hkind _ ih => exact .token hkind (ih h')

theorem next_eq_advance (h : c.peek.kind ≠ .endOfInput) : c.next = c.advance 1 := by
  rw [next, if_neg (by simpa [atEnd, check] using h)]

theorem ahead_eq_cons (h : c.peek.kind ≠ .endOfInput) : c.ahead = c.peek :: c.next.ahead := by
  rw [next_eq_advance h, ahead_advance]
  unfold peek at h ⊢
  cases hc : c.ahead with
  | nil => simp [hc, c.stop_kind] at h
  | cons t rest => rfl

theorem position_next (h : c.peek.kind ≠ .endOfInput) : c.next.position = c.position + 1 := by
  have := remaining_next_lt h
  rw [next_eq_advance h, position_advance]
  omega

theorem Gives.split (h : c.Gives ts d) :
    c.tokens = ts ++ d.tokens ∧ d.position = c.position + ts.length ∧
      ∀ t ∈ ts, t.kind ≠ .endOfInput := by
  induction h with
  | none => simp
  | token hkind _ ih =>
    obtain ⟨htokens, hposition, hkinds⟩ := ih
    refine ⟨?_, ?_, List.forall_mem_cons.mpr ⟨hkind, hkinds⟩⟩
    · rw [tokens_eq_cons hkind, htokens, List.cons_append]
    · rw [hposition, position_next hkind, List.length_cons]
      omega

theorem gives_next (c : Cursor) : ∃ ts, c.Gives ts c.next := by
  by_cases h : c.peek.kind = .endOfInput
  · rw [next_of_atEnd h]
    exact ⟨[], .none⟩
  · exact ⟨_, .token h .none⟩

theorem gives_advance (hn : n ≤ c.remaining) (h : ∀ t ∈ c.ahead.take n, t.kind ≠ .endOfInput) :
    c.Gives (c.ahead.take n) (c.advance n) := by
  induction n generalizing c with
  | zero =>
    rw [List.take_zero, advance_zero]
    exact .none
  | succ n ih =>
    have hpeek : c.peek ∈ c.ahead.take (n + 1) := by
      rw [c.remaining_eq] at hn
      unfold peek
      cases hc : c.ahead with
      | nil => simp [hc] at hn
      | cons t rest => simp
    have hkind := h _ hpeek
    have hnext := next_eq_advance hkind
    rw [ahead_eq_cons hkind, List.take_succ_cons] at h ⊢
    have further := ih (c := c.next) (by rw [hnext, remaining_advance]; omega)
      fun t ht => h t (List.mem_cons_of_mem _ ht)
    rw [hnext, advance_advance, Nat.add_comm, ← hnext] at further
    exact .token hkind further

-- ---------------------------------------------------------------------------
-- Runs of one kind
-- ---------------------------------------------------------------------------

theorem run_le_remaining (c : Cursor) (kind : Token.Kind) : c.run kind ≤ c.remaining := by
  rw [c.remaining_eq]
  exact (List.takeWhile_prefix _).length_le

theorem run_eq (h : kind ≠ .endOfInput) :
    c.run kind = (c.tokens.takeWhile (·.kind = kind)).length := by
  have hs : c.stop.kind ≠ kind := by
    rw [c.stop_kind]
    exact h.symm
  rw [run, tokens, List.takeWhile_append]
  split
  next hall => simp [hs, hall]
  next => rfl

theorem run_of_ne (h : c.peek.kind ≠ kind) : c.run kind = 0 := by
  unfold run peek at *
  cases hc : c.ahead with
  | nil => rfl
  | cons t rest => simp_all

theorem run_of_eq (hkind : c.peek.kind = kind) (h : kind ≠ .endOfInput) :
    c.run kind = c.next.run kind + 1 := by
  rw [run, ahead_eq_cons (hkind ▸ h), List.takeWhile_cons_of_pos (by simpa using hkind),
    List.length_cons, run]

theorem kind_of_mem_take {t : Token} (hn : n ≤ (ts.takeWhile (·.kind = kind)).length)
    (ht : t ∈ ts.take n) : t.kind = kind := by
  have inRun : t ∈ ts.takeWhile (·.kind = kind) := by
    rw [List.prefix_iff_eq_take.mp (List.takeWhile_prefix (l := ts) (p := (·.kind = kind)))]
    exact List.take_subset_take_left _ hn ht
  simpa using List.all_eq_true.mp List.all_takeWhile t inRun

theorem gives_of_le_run (h : kind ≠ .endOfInput) (hn : n ≤ c.run kind) :
    c.Gives (c.ahead.take n) (c.advance n) :=
  gives_advance (Nat.le_trans hn (c.run_le_remaining kind)) fun _ ht =>
    kind_of_mem_take hn ht ▸ h

/-- Tokens of one kind come next, as many as `n` says. -/
def NextAre (kind : Token.Kind) (n : Nat) (ts : List Token) : Prop :=
  ∃ next rest, ts = next ++ rest ∧ next.length = n ∧ ∀ t ∈ next, t.kind = kind

theorem nextAre_iff : NextAre kind n ts ↔ n ≤ (ts.takeWhile (·.kind = kind)).length := by
  constructor
  · rintro ⟨next, rest, rfl, rfl, h⟩
    rw [List.takeWhile_append_of_pos (by simpa using h), List.length_append]
    exact Nat.le_add_right _ _
  · intro h
    have := (List.takeWhile_prefix (l := ts) (p := (·.kind = kind))).length_le
    exact ⟨ts.take n, ts.drop n, (List.take_append_drop n ts).symm,
      List.length_take_of_le (by omega), fun t ht => kind_of_mem_take h ht⟩

end Cursor

namespace Read

theorem expect_of_eq (h : c.peek.kind = kind) : expect kind c = .ok c.peek c.next :=
  expectOneOf_ok.mpr ⟨by simp [h], rfl, rfl⟩

theorem expect_of_ne (h : c.peek.kind ≠ kind) :
    expect kind c = .error (.unexpected [kind] c.peek) c := by
  simp [expect, expectOneOf, h, unexpected]

theorem bind_of_error {α β : Type} {x : Read α} {f : α → Read β} {fault : Fault}
    (h : x c = .error fault d) : (x >>= f) c = .error fault d := by
  show EStateM.bind x f c = _
  rw [EStateM.bind, h]

end Read

open Cursor in
theorem Read.skipMany_eq (h : kind ≠ .endOfInput) (n : Nat) (c : Cursor) :
    skipMany kind n c = if n ≤ c.run kind then .ok () (c.advance n) else
      .error (.unexpected [kind] (c.advance (c.run kind)).peek) (c.advance (c.run kind)) := by
  induction n generalizing c with
  | zero =>
    rw [if_pos (Nat.zero_le _), advance_zero]
    rfl
  | succ n ih =>
    by_cases hkind : c.peek.kind = kind
    · have hnext := next_eq_advance (hkind ▸ h)
      rw [skipMany, bind_of_ok (expect_of_eq hkind), if_neg (hkind ▸ h), ih, run_of_eq hkind h,
        hnext, advance_advance, advance_advance, Nat.add_comm 1, Nat.add_comm 1]
      simp only [Nat.add_le_add_iff_right]
    · rw [run_of_ne hkind, if_neg (Nat.not_succ_le_zero n), advance_zero, skipMany,
        bind_of_error (expect_of_ne hkind)]

namespace Cursor

-- ---------------------------------------------------------------------------
-- Operations
-- ---------------------------------------------------------------------------

inductive Operation where
  | peek
  | peekAhead (n : Nat)
  | check (kind : Token.Kind)
  | atEnd
  | unexpected (expected : List Token.Kind)
  | next
  | expect (kind : Token.Kind)
  | expectOneOf (kinds : List Token.Kind)
  | skipMany (kind : Token.Kind) (n : Nat)
  | skipWhile (kind : Token.Kind)

/-- The operation only looks at what lies ahead. -/
def Operation.Looks : Operation → Prop
  | .peek | .peekAhead _ | .check _ | .atEnd | .unexpected _ => True
  | .next | .expect _ | .expectOneOf _ | .skipMany _ _ | .skipWhile _ => False

def perform (c : Cursor) : Operation → Cursor
  | .peek => Read.left (Read.peek c)
  | .peekAhead n => Read.left (Read.peekAhead n c)
  | .check kind => Read.left (Read.check kind c)
  | .atEnd => Read.left (Read.atEnd c)
  | .unexpected expected => Read.left (Read.unexpected (α := Unit) expected c)
  | .next => Read.left (Read.next c)
  | .expect kind => Read.left (Read.expect kind c)
  | .expectOneOf kinds => Read.left (Read.expectOneOf kinds c)
  | .skipMany kind n => Read.left (Read.skipMany kind n c)
  | .skipWhile kind => Read.left (Read.skipWhile kind c)

def performAll (c : Cursor) (ops : List Operation) : Cursor := ops.foldl perform c

theorem perform_of_looks {op : Operation} (h : op.Looks) (c : Cursor) : c.perform op = c := by
  cases op with
  | peek | peekAhead _ | check _ | atEnd | unexpected _ => rfl
  | next | expect _ | expectOneOf _ | skipMany _ _ | skipWhile _ => exact h.elim

theorem perform_expectOneOf (c : Cursor) (kinds : List Token.Kind) :
    c.perform (.expectOneOf kinds) = if c.peek.kind ∈ kinds then c.next else c := by
  rw [perform, Read.expectOneOf]
  split <;> rfl

theorem perform_skipMany (h : kind ≠ .endOfInput) (c : Cursor) (n : Nat) :
    c.perform (.skipMany kind n) = c.advance (min n (c.run kind)) := by
  rw [perform, Read.skipMany_eq h]
  split
  next hn => rw [Nat.min_eq_left hn, Read.left]
  next hn => rw [Nat.min_eq_right (Nat.le_of_not_le hn), Read.left]

/-- An end stands for any number of ends and is not used up. -/
theorem perform_skipMany_end (c : Cursor) (n : Nat) : c.perform (.skipMany .endOfInput n) = c := by
  cases n with
  | zero => rfl
  | succ n =>
    by_cases hkind : c.peek.kind = .endOfInput
    · rw [perform, Read.skipMany, Read.bind_of_ok (Read.expect_of_eq hkind), if_pos hkind,
        next_of_atEnd hkind]
      rfl
    · rw [perform, Read.skipMany, Read.bind_of_error (Read.expect_of_ne hkind), Read.left]

theorem gives_expectOneOf (c : Cursor) (kinds : List Token.Kind) :
    ∃ ts, c.Gives ts (c.perform (.expectOneOf kinds)) := by
  rw [perform_expectOneOf]
  split
  · exact c.gives_next
  · exact ⟨[], .none⟩

/-- Each operation comes to some calls of `next`. -/
theorem perform_gives (c : Cursor) (op : Operation) : ∃ ts, c.Gives ts (c.perform op) := by
  cases op with
  | peek | peekAhead _ | check _ | atEnd | unexpected _ => exact ⟨[], .none⟩
  | next => exact c.gives_next
  | expect kind => exact c.gives_expectOneOf [kind]
  | expectOneOf kinds => exact c.gives_expectOneOf kinds
  | skipMany kind n =>
    by_cases hkind : kind = .endOfInput
    · rw [hkind, perform_skipMany_end]
      exact ⟨[], .none⟩
    · rw [perform_skipMany hkind]
      exact ⟨_, gives_of_le_run hkind (Nat.min_le_right _ _)⟩
  | skipWhile kind =>
    rw [perform, Read.skipWhile]
    split
    next => exact ⟨[], .none⟩
    next hkind => exact ⟨_, gives_of_le_run hkind (Nat.le_refl _)⟩

theorem performAll_gives (c : Cursor) (ops : List Operation) :
    ∃ ts, c.Gives ts (c.performAll ops) := by
  induction ops generalizing c with
  | nil => exact ⟨[], .none⟩
  | cons op ops ih =>
    obtain ⟨ts, first⟩ := c.perform_gives op
    obtain ⟨us, others⟩ := ih (c.perform op)
    exact ⟨ts ++ us, first.trans others⟩

-- ---------------------------------------------------------------------------
-- Where a cursor stands, and what it answers there
-- ---------------------------------------------------------------------------

/-- The cursor came from the first one by using up the tokens of the list up to its position. -/
structure StandsIn (c first : Cursor) (held : List Token) : Prop where
  ends : ∃ ts stop, held = ts ++ [stop] ∧ stop.kind = .endOfInput
  /-- It is not past the first end, so there is a token where it stands. -/
  position_le : c.position ≤ held.findIdx (·.kind = .endOfInput)
  position_lt : c.position < held.length
  ahead : c.tokens = held.drop c.position
  /-- The tokens used up so far, each once and in order. -/
  used : ∀ ts, first.Gives ts c ↔ ts = held.take c.position

/-- The answers of a cursor that stands in the list. -/
structure Answers (c : Cursor) (held : List Token) : Prop where
  peek : held[c.position]? = some c.peek
  peekAhead : ∀ n, held[min (c.position + n) (held.length - 1)]? = some (c.peekAhead n)
  check : ∀ kind t, held[c.position]? = some t →
    Read.check kind c = .ok (decide (t.kind = kind)) c
  unexpected : ∀ expected t, held[c.position]? = some t →
    Read.unexpected (α := Unit) expected c = .error (.unexpected expected t) c
  /-- The token that is handed out is the one here, and only an end is not used up. -/
  next : ∃ t d, held[c.position]? = some t ∧ Read.next c = .ok t d ∧
    d.position = c.position + if t.kind = .endOfInput then 0 else 1
  expect : ∀ kind t, held[c.position]? = some t → Read.expect kind c =
    if t.kind = kind then Read.next c else .error (.unexpected [kind] t) c
  expectOneOf : ∀ kinds t, held[c.position]? = some t → Read.expectOneOf kinds c =
    if t.kind ∈ kinds then Read.next c else .error (.unexpected kinds t) c
  /-- Nothing that only looks, and no refusal, moves the cursor. -/
  looks : ∀ op : Operation, op.Looks → c.perform op = c
  expect_refused : ∀ kind f d, Read.expect kind c = .error f d → d = c
  expectOneOf_refused : ∀ kinds f d, Read.expectOneOf kinds c = .error f d → d = c
  /-- No operation goes back. -/
  forward : ∀ op, c.position ≤ (c.perform op).position
  skipMany : ∀ kind n, kind ≠ .endOfInput → NextAre kind n (held.drop c.position) →
    ∃ d, Read.skipMany kind n c = .ok () d ∧ d.position = c.position + n
  skipMany_refused : ∀ kind n, kind ≠ .endOfInput → ¬NextAre kind n (held.drop c.position) →
    ∃ d t, Read.skipMany kind n c = .error (.unexpected [kind] t) d ∧
      d.position = c.position + ((held.drop c.position).takeWhile (·.kind = kind)).length ∧
      held[d.position]? = some t
  skipWhile : ∀ kind, kind ≠ .endOfInput →
    ∃ d, Read.skipWhile kind c =
        .ok ((held.drop c.position).takeWhile (·.kind = kind)).length d ∧
      d.position = c.position + ((held.drop c.position).takeWhile (·.kind = kind)).length
  skipWhile_end : Read.skipWhile .endOfInput c = .ok 0 c

theorem getElem?_tokens_zero (c : Cursor) : c.tokens[0]? = some c.peek := by
  unfold tokens peek
  cases c.ahead <;> rfl

theorem getElem?_tokens (c : Cursor) (n : Nat) :
    c.tokens[min n (c.tokens.length - 1)]? = some (c.peekAhead n) := by
  rw [tokens, peekAhead, List.length_append, List.length_singleton, Nat.add_sub_cancel]
  rcases Nat.lt_or_ge n c.ahead.length with hn | hn
  · rw [Nat.min_eq_left (Nat.le_of_lt hn), List.getElem?_append_left hn]
    simp [List.getD_eq_getElem?_getD, hn]
  · rw [Nat.min_eq_right hn, List.getElem?_concat_length, List.getD_eq_getElem?_getD,
      List.getElem?_eq_none hn, Option.getD_none]

theorem position_advance_run (c : Cursor) (kind : Token.Kind) :
    (c.advance (c.run kind)).position = c.position + c.run kind := by
  rw [position_advance, Nat.min_eq_left (c.run_le_remaining kind)]

theorem StandsIn.of_gives {first : Cursor} (hfirst : first.position = 0) (h : first.Gives ts c) :
    c.StandsIn first first.tokens := by
  obtain ⟨htokens, hposition, hkinds⟩ := h.split
  rw [hfirst, Nat.zero_add] at hposition
  have hlength := c.length_tokens
  refine ⟨⟨first.ahead, first.stop, rfl, first.stop_kind⟩, ?_, ?_, ?_, ?_⟩
  · -- the tokens behind are no ends
    have before : ts.findIdx (·.kind = .endOfInput) = ts.length :=
      List.findIdx_eq_length_of_false fun t ht => by simpa using hkinds t ht
    rw [htokens, List.findIdx_append, before, if_neg (Nat.lt_irrefl _), hposition]
    exact Nat.le_add_left _ _
  · rw [htokens, List.length_append]
    omega
  · rw [htokens, hposition, List.drop_left]
  · rw [htokens, hposition, List.take_left]
    intro us
    refine ⟨fun h' => ?_, fun h' => h' ▸ h⟩
    exact List.append_cancel_right (h'.split.1.symm.trans htokens)

theorem StandsIn.answers {first : Cursor} {held : List Token} (h : c.StandsIn first held) :
    c.Answers held := by
  have tokens := h.ahead
  have length := congrArg List.length tokens
  have within := h.position_lt
  rw [List.length_drop] at length
  have offset (n : Nat) : held[c.position + n]? = c.tokens[n]? := by
    rw [tokens, List.getElem?_drop]
  have refused (kinds : List Token.Kind) (f : Fault) (d : Cursor)
      (hd : Read.expectOneOf kinds c = .error f d) : d = c := by
    unfold Read.expectOneOf at hd
    split at hd <;> cases hd
    rfl
  have here : held[c.position]? = some c.peek := by
    rw [← c.getElem?_tokens_zero]
    exact offset 0
  have peek_eq {t : Token} (ht : held[c.position]? = some t) : c.peek = t :=
    Option.some.inj (here.symm.trans ht)
  refine ⟨here, fun n => ?_, fun _ _ ht => peek_eq ht ▸ rfl, fun _ _ ht => peek_eq ht ▸ rfl,
    ⟨_, _, here, rfl, ?_⟩, fun kind _ ht => ?_, fun _ _ ht => peek_eq ht ▸ rfl,
    fun _ hop => perform_of_looks hop c, fun _ => refused _, refused, fun op => ?_,
    fun kind n hkind hnext => ?_, fun kind n hkind hnext => ?_, fun kind hkind => ?_, rfl⟩
  · rw [← c.getElem?_tokens, ← offset]
    congr 1
    omega
  · split
    next hend => rw [next_of_atEnd hend, Nat.add_zero]
    next hend => exact position_next hend
  · rw [Read.expect, Read.expectOneOf, ← peek_eq ht]
    simp only [List.mem_singleton]
    rfl
  · obtain ⟨ts, hts⟩ := c.perform_gives op
    rw [hts.split.2.1]
    exact Nat.le_add_right _ _
  · rw [← tokens, nextAre_iff, ← run_eq hkind] at hnext
    have := c.run_le_remaining kind
    refine ⟨c.advance n, by rw [Read.skipMany_eq hkind, if_pos hnext], ?_⟩
    rw [position_advance, Nat.min_eq_left (by omega)]
  · rw [← tokens, nextAre_iff, ← run_eq hkind] at hnext
    rw [← tokens, ← run_eq hkind]
    refine ⟨_, _, by rw [Read.skipMany_eq hkind, if_neg hnext], position_advance_run c kind, ?_⟩
    rw [position_advance_run, offset, ← getElem?_tokens_zero,
      tokens_advance (c.run_le_remaining kind), List.getElem?_drop, Nat.add_zero]
  · rw [← tokens, ← run_eq hkind]
    exact ⟨_, by rw [Read.skipWhile, if_neg hkind], position_advance_run c kind⟩

/-- Whatever a cursor was asked for, it stands in its list at or before the first end, behind the
tokens that it has used up, and answers from there. -/
theorem performAll_standsIn (tokens : List Token) (ops : List Operation) :
    ((ofTokens tokens).performAll ops).StandsIn (ofTokens tokens) (ended tokens) ∧
      ((ofTokens tokens).performAll ops).Answers (ended tokens) := by
  obtain ⟨ts, h⟩ := (ofTokens tokens).performAll_gives ops
  have stands := StandsIn.of_gives (position_ofTokens tokens) h
  rw [tokens_ofTokens] at stands
  exact ⟨stands, stands.answers⟩

/-- The end in the middle stops the cursor: the greatest count of spaces is refused there, and so the
name behind it is never used up, nor the end that was added. -/
theorem performAll_standsIn_of_inner_end :
    let space : Token := ⟨.space, " ", ⟨1, 1⟩⟩
    let stop : Token := ⟨.endOfInput, "", ⟨1, 2⟩⟩
    let name : Token := ⟨.name, "A", ⟨1, 2⟩⟩
    let held := [space, stop, name, ⟨.endOfInput, "", ⟨1, 2⟩⟩]
    let c := (ofTokens [space, stop, name]).performAll [.skipMany .space (UInt64.size - 1), .next]
    c.position = 1 ∧ c.peekAhead 1 = name ∧ c.StandsIn (ofTokens [space, stop, name]) held ∧
      c.Answers held := by
  intro space stop name held c
  exact ⟨by decide +kernel, by decide +kernel, performAll_standsIn _ _⟩

end Cursor

end TypeSchema
