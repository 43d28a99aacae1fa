import TypeSchema.Proofs.Cursor.Tokens
import TypeSchema.Read.Layout

/-!
# What a reading does

A reading that succeeds is opened step by step: `bind_ok` and its kin say what each step gave and
where it left the cursor, and `fix_ok` is the induction over a reading that calls itself. In the
other direction, `Runs` says that a reading succeeds wherever certain tokens lie ahead, and is put
together from the steps with `Runs.bind`.
-/

namespace TypeSchema.Read

variable {α β σ : Type} {c d e : Cursor} {ts mid rest : List Token} {t : Token}

-- ---------------------------------------------------------------------------
-- Success, step by step
-- ---------------------------------------------------------------------------

theorem bind_ok {x : Read α} {f : α → Read β} {b : β} :
    (x >>= f) c = .ok b e ↔ ∃ a d, x c = .ok a d ∧ f a d = .ok b e := by
  show EStateM.bind x f c = .ok b e ↔ _
  unfold EStateM.bind
  cases x c with
  | ok a d =>
    refine ⟨fun h => ⟨a, d, rfl, h⟩, ?_⟩
    rintro ⟨_, _, hx, h⟩
    cases hx
    exact h
  | error fault d => simp

theorem bind_of_ok {x : Read α} {f : α → Read β} {a : α} (h : x c = .ok a d) :
    (x >>= f) c = f a d := by
  show EStateM.bind x f c = _
  rw [EStateM.bind, h]

theorem pure_ok {a b : α} : (pure a : Read α) c = .ok b d ↔ a = b ∧ c = d := by
  show EStateM.Result.ok a c = .ok b d ↔ _
  simp

theorem map_ok {f : α → β} {x : Read α} {b : β} :
    (f <$> x) c = .ok b d ↔ ∃ a, x c = .ok a d ∧ f a = b := by
  show EStateM.map f x c = .ok b d ↔ _
  unfold EStateM.map
  cases x c with
  | ok a d =>
    refine ⟨fun h => ?_, ?_⟩
    · cases h
      exact ⟨a, rfl, rfl⟩
    · rintro ⟨_, hx, rfl⟩
      cases hx
      rfl
  | error fault d => simp

@[simp] theorem throw_ok {fault : Fault} {a : α} : (throw fault : Read α) c = .ok a d ↔ False :=
  ⟨nofun, False.elim⟩

theorem ofExcept_ok {x : Except Fault α} {a : α} : ofExcept x c = .ok a d ↔ x = .ok a ∧ c = d := by
  cases x with
  | ok b => simp [ofExcept, pure_ok]
  | error fault => simp [ofExcept]

theorem peek_ok : peek c = .ok t d ↔ c.peek = t ∧ c = d := by simp [peek]

theorem atEnd_ok {b : Bool} : atEnd c = .ok b d ↔ c.atEnd = b ∧ c = d := by simp [atEnd]

theorem next_ok : next c = .ok t d ↔ c.peek = t ∧ c.next = d := by simp [next]

@[simp] theorem unexpected_ok {kinds : List Token.Kind} {a : α} :
    (unexpected kinds : Read α) c = .ok a d ↔ False := ⟨nofun, False.elim⟩

theorem expectOneOf_ok {kinds : List Token.Kind} :
    expectOneOf kinds c = .ok t d ↔ t.kind ∈ kinds ∧ c.peek = t ∧ c.next = d := by
  unfold expectOneOf
  split
  next h =>
    rw [next_ok]
    exact ⟨fun ⟨hp, hn⟩ => ⟨hp ▸ h, hp, hn⟩, And.right⟩
  next h =>
    rw [unexpected_ok]
    exact ⟨False.elim, fun ⟨hk, hp, _⟩ => h (hp ▸ hk)⟩

theorem expectOneOf_tokens {kinds : List Token.Kind} (hn : .endOfInput ∉ kinds)
    (h : expectOneOf kinds c = .ok t d) : t.kind ∈ kinds ∧ c.tokens = t :: d.tokens := by
  obtain ⟨hk, rfl, rfl⟩ := expectOneOf_ok.mp h
  exact ⟨hk, Cursor.tokens_eq_cons fun he => hn (he ▸ hk)⟩

theorem expect_tokens {kind : Token.Kind} (hn : kind ≠ .endOfInput)
    (h : expect kind c = .ok t d) : t.kind = kind ∧ c.tokens = t :: d.tokens := by
  have ⟨hk, ht⟩ := expectOneOf_tokens (by simpa using hn.symm) h
  exact ⟨by simpa using hk, ht⟩

theorem next_tokens (hn : c.peek.kind ≠ .endOfInput) (h : next c = .ok t d) :
    c.peek = t ∧ c.tokens = t :: d.tokens := by
  obtain ⟨rfl, rfl⟩ := next_ok.mp h
  exact ⟨rfl, Cursor.tokens_eq_cons hn⟩

theorem takeMark_ok {mark : Mark} {b : Bool} :
    takeMark mark c = .ok b d ↔
      c.check (.mark mark) = b ∧ d = if c.check (.mark mark) then c.next else c := by
  have run : takeMark mark c = .ok (c.check (.mark mark))
      (if c.check (.mark mark) then c.next else c) := by
    refine bind_ok.mpr ⟨_, c, rfl, ?_⟩
    cases c.check (.mark mark) <;> rfl
  rw [run, EStateM.Result.ok.injEq, @eq_comm Cursor]

theorem takeMark_true {mark : Mark} (h : takeMark mark c = .ok true d) :
    ∃ t : Token, t.kind = .mark mark ∧ c.tokens = t :: d.tokens := by
  obtain ⟨hc, hd⟩ := takeMark_ok.mp h
  have hk : c.peek.kind = .mark mark := by simpa [Cursor.check] using hc
  rw [if_pos hc] at hd
  exact ⟨c.peek, hk, hd ▸ Cursor.tokens_eq_cons (by simp [hk])⟩

theorem takeMark_false {mark : Mark} (h : takeMark mark c = .ok false d) : c = d := by
  obtain ⟨hc, hd⟩ := takeMark_ok.mp h
  rw [hc] at hd
  exact hd.symm

-- ---------------------------------------------------------------------------
-- A reading that calls itself
-- ---------------------------------------------------------------------------

/-- What a round of `fix` that began with `n` tokens ahead hands to itself. -/
def guarded (f : (σ → Read α) → σ → Read α) (n : Nat) (s : σ) : Read α :=
  fun c => if c.remaining < n then fix f s c else unexpected [] c

theorem fix_eq (f : (σ → Read α) → σ → Read α) (s : σ) (c : Cursor) :
    fix f s c = f (guarded f c.remaining) s c := by
  rw [fix, fixAt]
  rfl

/-- What every round keeps, if the calls in it keep it, holds of a reading that succeeds. -/
theorem fix_ok {f : (σ → Read α) → σ → Read α} {P : σ → Cursor → α → Cursor → Prop}
    (step : ∀ again s c a e, (∀ s d a e, again s d = .ok a e → P s d a e) →
      f again s c = .ok a e → P s c a e)
    {s : σ} {a : α} (h : fix f s c = .ok a e) : P s c a e := by
  induction hn : c.remaining using Nat.strongRecOn generalizing s c a e with
  | _ n ih =>
    rw [fix_eq] at h
    refine step _ s c a e ?_ h
    intro s d a e h
    unfold guarded at h
    split at h
    next hlt => exact ih _ (hn ▸ hlt) h rfl
    next => exact (unexpected_ok.mp h).elim

-- ---------------------------------------------------------------------------
-- Readings that succeed
-- ---------------------------------------------------------------------------

/-- Where `ts` lies ahead, `r` gives `a` and leaves `rest` ahead. -/
def Runs (r : Read α) (ts : List Token) (a : α) (rest : List Token) : Prop :=
  ∀ c : Cursor, c.tokens = ts → ∃ d, r c = .ok a d ∧ d.tokens = rest

theorem Runs.bind {x : Read α} {f : α → Read β} {a : α} {b : β} (hx : Runs x ts a mid)
    (hf : Runs (f a) mid b rest) : Runs (x >>= f) ts b rest := by
  intro c hc
  obtain ⟨d, hd, hm⟩ := hx c hc
  obtain ⟨e, he, hr⟩ := hf d hm
  exact ⟨e, bind_ok.mpr ⟨a, d, hd, he⟩, hr⟩

theorem Runs.pure (a : α) : Runs (pure a) ts a ts := fun c hc => ⟨c, rfl, hc⟩

theorem Runs.map {x : Read α} {a : α} (f : α → β) (hx : Runs x ts a rest) :
    Runs (f <$> x) ts (f a) rest := by
  intro c hc
  obtain ⟨d, hd, hr⟩ := hx c hc
  exact ⟨d, map_ok.mpr ⟨a, hd, rfl⟩, hr⟩

theorem ofExcept_runs {x : Except Fault α} {a : α} (h : x = .ok a) : Runs (ofExcept x) ts a ts :=
  fun c hc => ⟨c, ofExcept_ok.mpr ⟨h, rfl⟩, hc⟩

theorem peek_runs : Runs peek (t :: rest) t (t :: rest) :=
  fun c hc => ⟨c, peek_ok.mpr ⟨Cursor.peek_of_tokens hc, rfl⟩, hc⟩

theorem next_runs (ht : t.kind ≠ .endOfInput) : Runs next (t :: rest) t rest :=
  fun c hc => ⟨c.next, next_ok.mpr ⟨Cursor.peek_of_tokens hc, rfl⟩, Cursor.tokens_next hc ht⟩

theorem atEnd_runs {b : Bool} (hb : decide (t.kind = .endOfInput) = b) :
    Runs atEnd (t :: rest) b (t :: rest) := by
  intro c hc
  refine ⟨c, atEnd_ok.mpr ⟨?_, rfl⟩, hc⟩
  rw [Cursor.atEnd, Cursor.check, Cursor.peek_of_tokens hc, hb]

theorem expectOneOf_runs {kinds : List Token.Kind} (hk : t.kind ∈ kinds)
    (ht : t.kind ≠ .endOfInput) : Runs (expectOneOf kinds) (t :: rest) t rest :=
  fun c hc => ⟨c.next, expectOneOf_ok.mpr ⟨hk, Cursor.peek_of_tokens hc, rfl⟩,
    Cursor.tokens_next hc ht⟩

theorem expectOneOf_end_runs {kinds : List Token.Kind} (hk : .endOfInput ∈ kinds)
    (ht : t.kind = .endOfInput) : Runs (expectOneOf kinds) (t :: rest) t (t :: rest) := by
  intro c hc
  have hp := Cursor.peek_of_tokens hc
  exact ⟨c, expectOneOf_ok.mpr ⟨ht ▸ hk, hp, Cursor.next_of_atEnd (hp ▸ ht)⟩, hc⟩

theorem expect_runs {kind : Token.Kind} (hk : t.kind = kind) (hn : kind ≠ .endOfInput) :
    Runs (expect kind) (t :: rest) t rest :=
  expectOneOf_runs (by simp [hk]) (hk ▸ hn)

theorem takeMark_true_runs {mark : Mark} (hk : t.kind = .mark mark) :
    Runs (takeMark mark) (t :: rest) true rest := by
  intro c hc
  have hm : c.check (.mark mark) := by simp [Cursor.check, Cursor.peek_of_tokens hc, hk]
  refine ⟨c.next, takeMark_ok.mpr ⟨hm, (if_pos hm).symm⟩, Cursor.tokens_next hc ?_⟩
  simp [hk]

theorem takeMark_false_runs {mark : Mark} (hk : t.kind ≠ .mark mark) :
    Runs (takeMark mark) (t :: rest) false (t :: rest) := by
  intro c hc
  have hm : c.check (.mark mark) = false := by simp [Cursor.check, Cursor.peek_of_tokens hc, hk]
  exact ⟨c, takeMark_ok.mpr ⟨hm, by simp [hm]⟩, hc⟩

def Unmarked (mark : Mark) (ts : List Token) : Prop :=
  ∃ t rest, ts = t :: rest ∧ t.kind ≠ .mark mark

theorem Unmarked.runs {mark : Mark} (h : Unmarked mark ts) : Runs (takeMark mark) ts false ts := by
  obtain ⟨t, rest, rfl, ht⟩ := h
  exact takeMark_false_runs ht

theorem fix_runs {f : (σ → Read α) → σ → Read α} {s : σ} {a : α}
    (h : ∀ again : σ → Read α, (∀ s us a rest, us.length < ts.length → Runs (fix f s) us a rest →
      Runs (again s) us a rest) → Runs (f again s) ts a rest) :
    Runs (fix f s) ts a rest := by
  intro c hc
  rw [fix_eq]
  refine h (guarded f c.remaining) ?_ c hc
  intro s us a rest hlt hr d hd
  obtain ⟨e, he, hrest⟩ := hr d hd
  have hguard : d.remaining < c.remaining := by
    have := c.length_tokens
    have := d.length_tokens
    rw [hc, hd] at *
    omega
  exact ⟨e, by rw [guarded, if_pos hguard, he], hrest⟩

-- ---------------------------------------------------------------------------
-- A reading that calls itself with nothing to hand over
-- ---------------------------------------------------------------------------

theorem recursive_ok {f : Read α → Read α} {P : Cursor → α → Cursor → Prop}
    (step : ∀ again c a e, (∀ d a e, again d = .ok a e → P d a e) → f again c = .ok a e → P c a e)
    {a : α} (h : recursive f c = .ok a e) : P c a e :=
  fix_ok (P := fun _ => P) (fun again _ c a e ih => step (again ()) c a e (ih ())) h

theorem recursive_runs {f : Read α → Read α} {a : α}
    (h : ∀ again : Read α, (∀ us a rest, us.length < ts.length → Runs (recursive f) us a rest →
      Runs again us a rest) → Runs (f again) ts a rest) :
    Runs (recursive f) ts a rest :=
  fix_runs fun again ih => h (again ()) (ih ())

end TypeSchema.Read
