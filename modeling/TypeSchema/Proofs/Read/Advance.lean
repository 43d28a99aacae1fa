import Mathlib.Data.List.TakeDrop
import TypeSchema.Proofs.Read.Outcome
import TypeSchema.Read.Definition

/-!
# Readings only advance

No reading goes back, whether it succeeds or fails: the cursor afterwards is the cursor before,
moved on by some tokens. So a reader that goes on after a fault still reads its own text. None of
the tokens that it is moved on by is invalid, since no reading takes a token of that kind.
-/

namespace TypeSchema

namespace Cursor

theorem advance_zero (c : Cursor) : c.advance 0 = c := by
  cases c
  simp [advance]

theorem advance_advance (c : Cursor) (m n : Nat) : (c.advance m).advance n = c.advance (m + n) := by
  simp only [advance, List.drop_drop, Nat.sub_sub, Cursor.mk.injEq, and_true]
  omega

/-- The second cursor is the first, moved on by some tokens, none of which is invalid. -/
def Leads (c d : Cursor) : Prop :=
  ∃ n, d = c.advance n ∧ ∀ t ∈ c.ahead.take n, t.kind ≠ .invalid

theorem Leads.refl (c : Cursor) : c.Leads c := ⟨0, c.advance_zero.symm, by simp⟩

theorem Leads.trans {c d e : Cursor} (h : c.Leads d) (h' : d.Leads e) : c.Leads e := by
  obtain ⟨m, rfl, hm⟩ := h
  obtain ⟨n, rfl, hn⟩ := h'
  refine ⟨m + n, c.advance_advance m n, ?_⟩
  rw [List.take_add, List.forall_mem_append]
  exact ⟨hm, hn⟩

theorem leads_next {c : Cursor} (h : c.peek.kind ≠ .invalid) : c.Leads c.next := by
  unfold next
  split
  · exact .refl c
  · refine ⟨1, rfl, fun t ht => ?_⟩
    rw [peek] at h
    cases hc : c.ahead with
    | nil => simp [hc] at ht
    | cons u rest => simp_all

theorem Leads.passed {c d : Cursor} (h : c.Leads d) : ∃ passed, c.tokens = passed ++ d.tokens ∧
    d.position = c.position + passed.length ∧ ∀ t ∈ passed, t.kind ≠ .invalid := by
  obtain ⟨n, rfl, hn⟩ := h
  refine ⟨c.ahead.take n, ?_, ?_, hn⟩
  · rw [Cursor.tokens, Cursor.tokens, ahead_advance, stop_advance, ← List.append_assoc,
      List.take_append_drop]
  · rw [position_advance, List.length_take, c.remaining_eq]

theorem Leads.tokens {c d : Cursor} (h : c.Leads d) : d.tokens <:+ c.tokens := by
  obtain ⟨passed, htokens, -, -⟩ := h.passed
  exact ⟨passed, htokens.symm⟩

theorem Leads.position {c d : Cursor} (h : c.Leads d) : c.position ≤ d.position := by
  obtain ⟨passed, -, hposition, -⟩ := h.passed
  exact hposition ▸ Nat.le_add_right _ _

theorem valid_blankRun (ts : List Token) (n : Nat) :
    ∀ t ∈ ts.take (blankRun n ts - n), t.kind ≠ .invalid := by
  induction ts generalizing n with
  | nil => simp
  | cons t ts ih =>
    intro u hu
    rw [blankRun] at hu
    split at hu
    next hspace =>
      rcases Nat.lt_or_ge n (blankRun (n + 1) ts) with hn | hn
      · rw [show blankRun (n + 1) ts - n = blankRun (n + 1) ts - (n + 1) + 1 by omega,
          List.take_succ_cons] at hu
        rcases List.mem_cons.mp hu with rfl | hu
        · simp [hspace]
        · exact ih (n + 1) u hu
      · simp [Nat.sub_eq_zero_of_le hn] at hu
    next =>
      split at hu
      next hbreak =>
        rw [Nat.add_assoc, Nat.add_sub_cancel_left, Nat.add_comm, List.take_succ_cons] at hu
        rcases List.mem_cons.mp hu with rfl | hu
        · intro hk
          simp [hk, Token.Kind.isLineBreak] at hbreak
        · exact ih 0 u hu
      next => split at hu <;> simp at hu

end Cursor

namespace Read

variable {α β σ : Type}

def left : EStateM.Result Fault Cursor α → Cursor
  | .ok _ d | .error _ d => d

def AdvancesAt (r : Read α) (c : Cursor) : Prop := c.Leads (left (r c))

def Advances (r : Read α) : Prop := ∀ c : Cursor, AdvancesAt r c

theorem AdvancesAt.ok {r : Read α} {c d : Cursor} {a : α} (h : AdvancesAt r c)
    (hr : r c = .ok a d) : c.Leads d := by
  unfold AdvancesAt at h
  rwa [hr] at h

theorem Advances.ok {r : Read α} (h : Advances r) {c d : Cursor} {a : α} (hr : r c = .ok a d) :
    c.Leads d := (h c).ok hr

theorem pure_advances (a : α) : Advances (pure a : Read α) := .refl

theorem throw_advances (fault : Fault) : Advances (throw fault : Read α) := .refl

theorem AdvancesAt.bind {x : Read α} {f : α → Read β} {c : Cursor} (hx : AdvancesAt x c)
    (hf : ∀ a d, x c = .ok a d → AdvancesAt (f a) d) : AdvancesAt (x >>= f) c := by
  unfold AdvancesAt at hx
  show c.Leads (left (EStateM.bind x f c))
  unfold EStateM.bind
  cases hc : x c with
  | error fault d =>
    rw [hc] at hx
    exact hx
  | ok a d =>
    rw [hc] at hx
    exact hx.trans (hf a d hc)

theorem Advances.bind {x : Read α} {f : α → Read β} (hx : Advances x) (hf : ∀ a, Advances (f a)) :
    Advances (x >>= f) := fun c => (hx c).bind fun a d _ => hf a d

theorem Advances.map {x : Read α} (f : α → β) (hx : Advances x) : Advances (f <$> x) := by
  rw [map_eq_pure_bind]
  exact hx.bind fun _ => pure_advances _

theorem ite_advances {p : Prop} [Decidable p] {x y : Read α} (hx : Advances x) (hy : Advances y) :
    Advances (if p then x else y) := by
  split
  · exact hx
  · exact hy

theorem ofExcept_advances (x : Except Fault α) : Advances (ofExcept x) := by
  cases x with
  | ok a => exact pure_advances a
  | error fault => exact throw_advances fault

theorem unexpected_advances (kinds : List Token.Kind) : Advances (unexpected kinds : Read α) :=
  .refl

theorem peek_advances : Advances peek := .refl

theorem atEnd_advances : Advances atEnd := .refl

theorem next_advancesAt {c : Cursor} (h : c.peek.kind ≠ .invalid) : AdvancesAt next c :=
  Cursor.leads_next h

theorem expectOneOf_advances {kinds : List Token.Kind} (h : .invalid ∉ kinds) :
    Advances (expectOneOf kinds) := by
  intro c
  unfold AdvancesAt expectOneOf
  split
  next hc => exact next_advancesAt fun hk => h (hk ▸ hc)
  next => exact .refl c

theorem expect_advances {kind : Token.Kind} (h : kind ≠ .invalid) : Advances (expect kind) :=
  expectOneOf_advances (by simpa using h.symm)

theorem fix_advances {f : (σ → Read α) → σ → Read α}
    (h : ∀ again, (∀ s, Advances (again s)) → ∀ s, Advances (f again s)) (s : σ) :
    Advances (fix f s) := by
  intro c
  induction hn : c.remaining using Nat.strongRecOn generalizing s c with
  | _ n ih =>
    unfold AdvancesAt
    rw [fix_eq]
    refine h _ (fun s d => ?_) s c
    unfold AdvancesAt guarded
    split
    next hlt => exact ih _ (hn ▸ hlt) s d rfl
    next => exact .refl d

theorem recursive_advances {f : Read α → Read α} (h : ∀ again, Advances again → Advances (f again)) :
    Advances (recursive f) :=
  fix_advances (fun again ih _ => h (again ()) (ih ())) ()

-- ---------------------------------------------------------------------------
-- Layout
-- ---------------------------------------------------------------------------

theorem skipSpaces_advances : Advances skipSpaces := by
  refine Advances.bind (fun c => ⟨c.run .space, rfl, fun t ht => ?_⟩) fun _ => pure_advances ()
  rw [Cursor.run, ← List.prefix_iff_eq_take.mp (List.takeWhile_prefix _)] at ht
  have space : t.kind = .space := by simpa using List.all_eq_true.mp List.all_takeWhile t ht
  simp [space]

theorem skipBlankLines_advances : Advances skipBlankLines :=
  fun c => ⟨Cursor.blankRun 0 c.ahead, rfl, Cursor.valid_blankRun c.ahead 0⟩

theorem separator_advances : Advances separator :=
  (expect_advances (by decide)).bind fun _ => skipSpaces_advances

theorem lineEnd_advances : Advances lineEnd :=
  skipSpaces_advances.bind fun _ => (expectOneOf_advances (by decide)).bind fun _ =>
    pure_advances ()

theorem definitionEnd_advances : Advances definitionEnd :=
  skipSpaces_advances.bind fun _ => (expectOneOf_advances (by decide)).bind fun _ =>
    pure_advances ()

theorem bodyStart_advances : Advances bodyStart :=
  skipSpaces_advances.bind fun _ => (expect_advances (by decide)).bind fun _ => lineEnd_advances

theorem takeMark_advances (mark : Mark) : Advances (takeMark mark) := by
  intro c
  unfold AdvancesAt
  rw [takeMark_ok.mpr ⟨rfl, rfl⟩]
  show c.Leads (if c.check (.mark mark) then c.next else c)
  split
  next h =>
    have hk : c.peek.kind = .mark mark := by simpa [Cursor.check] using h
    exact Cursor.leads_next (by simp [hk])
  next => exact .refl c

theorem skipMany_advances {kind : Token.Kind} (h : kind ≠ .invalid) :
    ∀ n, Advances (skipMany kind n)
  | 0 => pure_advances ()
  | n + 1 => (expect_advances h).bind fun _ =>
    ite_advances (pure_advances ()) (skipMany_advances h n)

theorem bodyRounds_advance {member : Array α → Read α} (h : ∀ members, Advances (member members))
    (members : Array α) : Advances (fix (bodyRound member) members) := by
  refine fix_advances (fun again ih members => ?_) members
  refine (skipBlankLines_advances.bind fun _ => takeMark_advances _).bind fun _ =>
    ite_advances (pure_advances _) ?_
  exact (skipMany_advances (by decide) _).bind fun _ => (h members).bind fun m =>
    lineEnd_advances.bind fun _ => ih (members.push m)

theorem body_advances {member : Array α → Read α} (h : ∀ members, Advances (member members)) :
    Advances (body member) := bodyRounds_advance h #[]

theorem itemsRounds_advance {close : Mark} {item : Array α → Read α}
    (h : ∀ is, Advances (item is)) (is : Array α) : Advances (fix (itemsRound close item) is) := by
  refine fix_advances (fun again ih is => ?_) is
  exact (h is).bind fun i => (expectOneOf_advances (by simp)).bind fun _ =>
    ite_advances (pure_advances _) (skipSpaces_advances.bind fun _ => ih (is.push i))

theorem items_advances {close : Mark} {item : Array α → Read α} (h : ∀ is, Advances (item is)) :
    Advances (items close item) := itemsRounds_advance h #[]

theorem afterColon?_advances {inner : Read α} (h : Advances inner) : Advances (afterColon? inner) :=
  (takeMark_advances _).bind fun _ =>
    ite_advances (skipSpaces_advances.bind fun _ => h.bind fun _ => pure_advances _)
      (pure_advances _)

-- ---------------------------------------------------------------------------
-- Types
-- ---------------------------------------------------------------------------

theorem referenceHead_advances (scope : Scope) : Advances (referenceHead scope) := by
  refine (expectOneOf_advances (by decide)).bind fun _ => ite_advances ?_ (ofExcept_advances _)
  exact (expect_advances (by decide)).bind fun _ => (expect_advances (by decide)).bind fun _ =>
    ofExcept_advances _

theorem reference_advances (scope : Scope) : Advances (reference scope) := by
  refine recursive_advances fun again ih => ?_
  refine (referenceHead_advances scope).bind fun _ => (takeMark_advances _).bind fun _ =>
    ite_advances ?_ (pure_advances _)
  exact (items_advances fun _ => ih.map _).bind fun _ => pure_advances _

theorem arraySize_advances : Advances arraySize := by
  refine (expect_advances (by decide)).bind fun size => ?_
  cases Natural.word? size.text.toList with
  | some n => exact pure_advances n
  | none => exact throw_advances _

theorem typeExpr_advances (scope : Scope) : Advances (typeExpr scope) := by
  refine recursive_advances fun again ih c => (peek_advances c).bind fun t d hd => ?_
  obtain ⟨rfl, rfl⟩ := peek_ok.mp hd
  generalize hkind : c.peek.kind = kind
  have first (hk : kind ≠ .invalid) : AdvancesAt next c := next_advancesAt (hkind ▸ hk)
  split
  · exact (first (by decide)).bind fun _ d _ => pure_advances _ d
  · exact ((reference_advances scope).bind fun _ => pure_advances _) c
  · exact ((reference_advances scope).bind fun _ => pure_advances _) c
  · refine (first (by decide)).bind fun _ d _ => ?_
    refine ((takeMark_advances _).bind fun _ => ite_advances ?_ ?_) d
    · exact ih.bind fun _ => pure_advances _
    · exact arraySize_advances.bind fun _ => (expect_advances (by decide)).bind fun _ =>
        ih.bind fun _ => pure_advances _
  · exact (first (by decide)).bind fun _ d _ => (ih.bind fun _ => pure_advances _) d
  · exact (first (by decide)).bind fun _ d _ => (ih.bind fun _ => pure_advances _) d
  · exact unexpected_advances _ c

-- ---------------------------------------------------------------------------
-- Definitions
-- ---------------------------------------------------------------------------

theorem freshName_advances (ctx : Context) (keyword : Location) :
    Advances (freshName ctx keyword) :=
  separator_advances.bind fun _ => (expect_advances (by decide)).bind fun _ =>
    (ofExcept_advances _).bind fun _ => pure_advances _

theorem freshMember_advances (x : String) (members : Array (Token × α)) (name : Token) :
    Advances (freshMember x members name) := by
  unfold freshMember
  split
  · exact throw_advances _
  · exact pure_advances ()

theorem parameter_advances (earlier : Array String) : Advances (parameter earlier) :=
  (expect_advances (by decide)).bind fun _ =>
    ite_advances ((throw_advances _).bind fun _ => pure_advances _) (pure_advances _)

theorem parameters_advances : Advances parameters :=
  (takeMark_advances _).bind fun _ => ite_advances (items_advances parameter_advances)
    (pure_advances _)

theorem fieldEntry_advances (scope : Scope) (earlier : Array (Token × TypeExpr)) :
    Advances (fieldEntry scope earlier) :=
  (expect_advances (by decide)).bind fun _ => (freshMember_advances _ _ _).bind fun _ =>
    (expect_advances (by decide)).bind fun _ => skipSpaces_advances.bind fun _ =>
      (typeExpr_advances scope).bind fun _ => pure_advances _

theorem struct_advances (ctx : Context) (keyword : Location) : Advances (struct ctx keyword) :=
  (freshName_advances ctx keyword).bind fun _ => parameters_advances.bind fun _ =>
    bodyStart_advances.bind fun _ => (body_advances (fieldEntry_advances _)).bind fun _ =>
      definitionEnd_advances.bind fun _ => pure_advances _

theorem unionOption_advances : Advances unionOption := by
  refine (expect_advances (by decide)).bind fun option => ?_
  split
  · exact skipSpaces_advances.bind fun _ => (expect_advances (by decide)).bind fun _ =>
      skipSpaces_advances.bind fun _ => (expect_advances (by decide)).bind fun _ => pure_advances _
  · exact pure_advances _
  · exact throw_advances _

theorem spacedOption_advances :
    Advances (do let option ← unionOption; skipSpaces; return option) :=
  unionOption_advances.bind fun _ => skipSpaces_advances.bind fun _ => pure_advances _

theorem unionOptions_advances : Advances unionOptions := by
  refine (takeMark_advances _).bind fun _ => ite_advances ?_ (pure_advances _)
  exact skipSpaces_advances.bind fun _ => items_advances fun _ => spacedOption_advances

theorem constructorEntry_advances (scope : Scope) (earlier : Array (Token × TypeExpr)) :
    Advances (constructorEntry scope earlier) :=
  (expect_advances (by decide)).bind fun _ => (freshMember_advances _ _ _).bind fun _ =>
    (afterColon?_advances (typeExpr_advances scope)).bind fun _ => pure_advances _

theorem variantEntry_advances (ctx : Context) (x field : String)
    (earlier : Array (Token × Option Struct)) : Advances (variantEntry ctx x field earlier) := by
  refine (expect_advances (by decide)).bind fun _ => (freshMember_advances _ _ _).bind fun _ => ?_
  refine (afterColon?_advances ?_).bind fun _ => pure_advances _
  exact (expect_advances (by decide)).bind fun _ => ofExcept_advances _

theorem union_advances (ctx : Context) (keyword : Location) : Advances (union ctx keyword) := by
  refine unionOptions_advances.bind fun _ => (freshName_advances ctx keyword).bind fun _ =>
    parameters_advances.bind fun _ => bodyStart_advances.bind fun _ => Advances.bind ?_ fun _ =>
      definitionEnd_advances.bind fun _ => pure_advances _
  refine ite_advances ?_ ?_
  · exact (body_advances (variantEntry_advances _ _ _)).bind fun _ => pure_advances _
  · exact (body_advances (constructorEntry_advances _)).bind fun _ => pure_advances _

theorem enumValue_advances : Advances enumValue := by
  refine fun c => (peek_advances c).bind fun t d hd => ?_
  obtain ⟨rfl, rfl⟩ := peek_ok.mp hd
  generalize hkind : c.peek.kind = kind
  have first (hk : kind ≠ .invalid) : AdvancesAt next c := next_advancesAt (hkind ▸ hk)
  split
  · exact (first (by decide)).bind fun _ d _ => pure_advances _ d
  · split
    · exact (first (by decide)).bind fun _ d _ => pure_advances _ d
    · exact unexpected_advances _ c
  · exact unexpected_advances _ c

theorem itemEntry_advances (x : String) (earlier : Array (Token × Enum.Value)) :
    Advances (itemEntry x earlier) :=
  (expectOneOf_advances (by decide)).bind fun _ => (freshMember_advances _ _ _).bind fun _ =>
    skipSpaces_advances.bind fun _ => (expect_advances (by decide)).bind fun _ =>
      skipSpaces_advances.bind fun _ => enumValue_advances.bind fun _ => pure_advances _

theorem enum_advances (ctx : Context) (keyword : Location) : Advances (enum ctx keyword) :=
  (freshName_advances ctx keyword).bind fun _ => bodyStart_advances.bind fun _ =>
    (body_advances (itemEntry_advances _)).bind fun _ => definitionEnd_advances.bind fun _ =>
      pure_advances _

theorem untaggedUnion_advances (ctx : Context) (keyword : Location) :
    Advances (untaggedUnion ctx keyword) := by
  refine separator_advances.bind fun _ => (expect_advances (by decide)).bind fun _ =>
    ite_advances ?_ ?_
  · exact (throw_advances _).bind fun _ => (freshName_advances ctx keyword).bind fun _ =>
      bodyStart_advances.bind fun _ => (body_advances fun _ => reference_advances _).bind fun _ =>
        definitionEnd_advances.bind fun _ => pure_advances _
  · exact (freshName_advances ctx keyword).bind fun _ =>
      bodyStart_advances.bind fun _ => (body_advances fun _ => reference_advances _).bind fun _ =>
        definitionEnd_advances.bind fun _ => pure_advances _

theorem importLine_advances (ctx : Context) (keyword : Location) :
    Advances (importLine ctx keyword) := by
  refine separator_advances.bind fun _ => (expect_advances (by decide)).bind fun module => ?_
  refine Advances.bind ?_ fun _ => (ofExcept_advances _).bind fun _ => ite_advances ?_ ?_
  · exact skipSpaces_advances.bind fun _ => (takeMark_advances _).bind fun _ =>
      ite_advances (skipSpaces_advances.bind fun _ => expect_advances (by decide))
        (pure_advances module)
  · exact (throw_advances _).bind fun _ => definitionEnd_advances.bind fun _ => pure_advances _
  · exact definitionEnd_advances.bind fun _ => pure_advances _

theorem definition?_advances (ctx : Context) : Advances (definition? ctx) := by
  refine skipBlankLines_advances.bind fun _ => atEnd_advances.bind fun _ =>
    ite_advances (pure_advances none) ((expect_advances (by decide)).bind fun keyword => ?_)
  split
  · exact (struct_advances ctx _).map some
  · exact (union_advances ctx _).map some
  · exact (enum_advances ctx _).map some
  · exact (untaggedUnion_advances ctx _).map some
  · exact (importLine_advances ctx _).map some
  · exact throw_advances _

end Read

end TypeSchema
