import Mathlib.Data.List.Forall2
import TypeSchema.Definition.Printer
import TypeSchema.Proofs.Grammar.Takes
import TypeSchema.Proofs.Token.Printed

/-!
# Written text follows the rules

What is written token by token is scanned token by token, wherever it stands. `Writes` says of a
piece of text that a rule derives a tree from its tokens; lists and bodies put such pieces together.
-/

namespace TypeSchema

open Grammar (Rule Spaces)
open Token (Stops IsWord isWordChar scanFrom stops_cons)

variable {α β : Type} {rest : List Char}

-- ---------------------------------------------------------------------------
-- Single tokens
-- ---------------------------------------------------------------------------

theorem scan_token (kind : Token.Kind) {x : String} (h : kind.Spells x.toList)
    (hr : kind.EndsBefore rest) (l : Location) :
    ∃ l', scanFrom l (x.toList ++ rest) = ⟨kind, x, l⟩ :: scanFrom l' rest :=
  ⟨_, by rw [Token.scanFrom_append kind h hr, String.ofList_toList]⟩

theorem scan_name {x : String} (h : IsWord .name x.toList) (hr : Stops rest) (l : Location) :
    ∃ l', scanFrom l (x.toList ++ rest) = ⟨.name, x, l⟩ :: scanFrom l' rest :=
  scan_token .name h hr l

theorem scan_symbol {x : String} (h : IsWord .symbol x.toList) (hr : Stops rest) (l : Location) :
    ∃ l', scanFrom l (x.toList ++ rest) = ⟨.symbol, x, l⟩ :: scanFrom l' rest :=
  scan_token .symbol h hr l

theorem scan_mark {m : Mark} {c : Char} (h : m.char = c) (l : Location) (rest : List Char) :
    ∃ t l', t.kind = .mark m ∧ scanFrom l (c :: rest) = t :: scanFrom l' rest :=
  ⟨_, _, rfl, Token.scanFrom_append (.mark m) (congrArg (· :: []) h.symm) trivial⟩

theorem scan_space (l : Location) (rest : List Char) :
    ∃ t l', t.kind = .space ∧ scanFrom l (' ' :: rest) = t :: scanFrom l' rest :=
  ⟨_, _, rfl, Token.scanFrom_append .space rfl trivial⟩

theorem scan_newline (l : Location) (rest : List Char) :
    ∃ t l', t.kind = .newline ∧ scanFrom l ('\n' :: rest) = t :: scanFrom l' rest :=
  ⟨_, _, rfl, Token.scanFrom_append .newline rfl trivial⟩

namespace Grammar

theorem Spaces.one {t : Token} {ts : List Token} (h : t.kind = .space) : Spaces (t :: ts) ts :=
  ⟨[t], by simpa using h, rfl⟩

theorem Separator.one {t : Token} {ts : List Token} (h : t.kind = .space) : Separator (t :: ts) ts :=
  ⟨t, ts, h, rfl, .refl ts⟩

theorem LineEnd.newline {t : Token} {ts : List Token} (h : t.kind = .newline) :
    LineEnd (t :: ts) ts :=
  ⟨t, by simp [h, Token.Kind.isLineBreak], .refl _⟩

end Grammar

-- ---------------------------------------------------------------------------
-- Pieces of text
-- ---------------------------------------------------------------------------

/-- Wherever the text ends its last word, the rule derives from its tokens what is `good`. -/
def Writes (text : String) (rule : Rule α) (good : α → Prop) : Prop :=
  ∀ l rest, Stops rest → ∃ a l', rule (scanFrom l (text.toList ++ rest)) a (scanFrom l' rest) ∧ good a

theorem Writes.imp {text : String} {rule : Rule α} {good better : α → Prop}
    (h : Writes text rule good) (hi : ∀ a, good a → better a) : Writes text rule better := by
  intro l rest hr
  obtain ⟨a, l', hrule, ha⟩ := h l rest hr
  exact ⟨a, l', hrule, hi a ha⟩

theorem name_writes {x : String} (h : IsWord .name x.toList) :
    Writes x Grammar.Name fun t => t.text = x := by
  intro l rest hr
  obtain ⟨l', hscan⟩ := scan_name h hr l
  refine ⟨⟨.name, x, l⟩, l', ?_, rfl⟩
  rw [hscan]
  exact .mk rfl

section
variable {inner : Rule α} {good : α → Prop} {n text : String}

theorem bare_writes (h : IsWord .name n.toList) :
    Writes n (Grammar.Tagged inner) fun t => ∃ tag, t = (tag, none) ∧ tag.text = n := by
  intro l rest hr
  obtain ⟨l', hscan⟩ := scan_name h hr l
  refine ⟨(⟨.name, n, l⟩, none), l', ?_, _, rfl, rfl⟩
  rw [hscan]
  exact .bare rfl

theorem tagged_writes (h : IsWord .name n.toList) (hi : Writes text inner good) :
    Writes (n ++ ": " ++ text) (Grammar.Tagged inner) fun t =>
      ∃ tag a, t = (tag, some a) ∧ tag.text = n ∧ good a := by
  intro l rest hr
  have htext : (n ++ ": " ++ text).toList ++ rest =
      n.toList ++ ':' :: ' ' :: (text.toList ++ rest) := by
    simp
  obtain ⟨l₁, hscan₁⟩ := scan_name h
    (stops_cons rfl : Stops (':' :: ' ' :: (text.toList ++ rest))) l
  obtain ⟨colon, l₂, hcolon, hscan₂⟩ := scan_mark (m := .colon) (c := ':') rfl l₁
    (' ' :: (text.toList ++ rest))
  obtain ⟨space, l₃, hspace, hscan₃⟩ := scan_space l₂ (text.toList ++ rest)
  obtain ⟨a, l₄, ha, hgood⟩ := hi l₃ rest hr
  refine ⟨(⟨.name, n, l⟩, some a), l₄, ?_, _, a, rfl, rfl, hgood⟩
  rw [htext, hscan₁, hscan₂, hscan₃]
  exact .colon rfl hcolon (.one hspace) ha

end

section
variable {rule : Rule α} {text : β → String} {good : β → α → Prop}

theorem items_write (close : Mark) (hclose : isWordChar close.char = false) {bs : List β}
    (hne : bs ≠ []) (h : ∀ b ∈ bs, Writes (text b) rule (good b)) (l : Location)
    (rest : List Char) :
    ∃ as l', Grammar.Items close rule
      (scanFrom l ((", ".intercalate (bs.map text)).toList ++ close.char :: rest)) as
      (scanFrom l' rest) ∧ List.Forall₂ good bs as := by
  induction bs generalizing l with
  | nil => exact (hne rfl).elim
  | cons b bs ih =>
    cases bs with
    | nil =>
      obtain ⟨a, l₁, ha, hgood⟩ := h b (by simp) l (close.char :: rest) (stops_cons hclose)
      obtain ⟨t, l₂, ht, hscan⟩ := scan_mark (m := close) rfl l₁ rest
      rw [hscan] at ha
      exact ⟨[a], l₂, by simpa using .last ha ht, .cons hgood .nil⟩
    | cons b' bs =>
      have htext : (", ".intercalate ((b :: b' :: bs).map text)).toList ++ close.char :: rest =
          (text b).toList ++ ',' :: ' ' ::
            ((", ".intercalate ((b' :: bs).map text)).toList ++ close.char :: rest) := by
        simp [String.intercalate_cons_cons]
      obtain ⟨a, l₁, ha, hgood⟩ := h b (by simp) l (',' :: ' ' ::
        ((", ".intercalate ((b' :: bs).map text)).toList ++ close.char :: rest)) (stops_cons rfl)
      obtain ⟨comma, l₂, hcomma, hscan⟩ := scan_mark (m := .comma) rfl l₁ (' ' ::
        ((", ".intercalate ((b' :: bs).map text)).toList ++ close.char :: rest))
      obtain ⟨space, l₃, hspace, hscan'⟩ := scan_space l₂
        ((", ".intercalate ((b' :: bs).map text)).toList ++ close.char :: rest)
      obtain ⟨as, l₄, has, hgoods⟩ := ih (by simp) (fun b hb => h b (by simp [hb])) l₃
      rw [show Mark.comma.char = ',' from rfl, hscan'] at hscan
      rw [hscan] at ha
      rw [htext]
      exact ⟨a :: as, l₄, .more ha hcomma (.one hspace) has, .cons hgood hgoods⟩

theorem bodyLine_write {b : β} {line : String} (h : Writes line rule (good b)) (l : Location)
    (rest : List Char) :
    ∃ content a after l', Grammar.Indentation (scanFrom l ((bodyLine line).toList ++ rest)) content ∧
      rule content a after ∧ Grammar.LineEnd after (scanFrom l' rest) ∧ good b a := by
  have htext : (bodyLine line).toList ++ rest =
      ' ' :: ' ' :: ' ' :: ' ' :: (line.toList ++ '\n' :: rest) := by
    simp [bodyLine]
  rw [htext]
  obtain ⟨s₁, l₁, h₁, hscan₁⟩ := scan_space l (' ' :: ' ' :: ' ' :: (line.toList ++ '\n' :: rest))
  obtain ⟨s₂, l₂, h₂, hscan₂⟩ := scan_space l₁ (' ' :: ' ' :: (line.toList ++ '\n' :: rest))
  obtain ⟨s₃, l₃, h₃, hscan₃⟩ := scan_space l₂ (' ' :: (line.toList ++ '\n' :: rest))
  obtain ⟨s₄, l₄, h₄, hscan₄⟩ := scan_space l₃ (line.toList ++ '\n' :: rest)
  obtain ⟨a, l₅, ha, hgood⟩ := h l₄ ('\n' :: rest) (stops_cons rfl)
  obtain ⟨t, l₆, ht, hscan₅⟩ := scan_newline l₅ rest
  rw [hscan₁, hscan₂, hscan₃, hscan₄]
  refine ⟨_, a, _, l₆, ⟨[s₁, s₂, s₃, s₄], rfl, ?_, rfl⟩, ha, hscan₅ ▸ .newline ht, hgood⟩
  simp [h₁, h₂, h₃, h₄]

theorem body_write {bs : List β} (h : ∀ b ∈ bs, Writes (text b) rule (good b)) (l : Location)
    (rest : List Char) :
    ∃ as l', Grammar.Body rule (scanFrom l ((String.join ((bs.map text).map bodyLine)).toList ++
      '\x7d' :: rest)) as (scanFrom l' rest) ∧ List.Forall₂ good bs as := by
  induction bs generalizing l with
  | nil =>
    obtain ⟨t, l', ht, hscan⟩ := scan_mark (m := .rightBrace) (c := '\x7d') rfl l rest
    exact ⟨[], l', by simpa [hscan] using .close .none ht, .nil⟩
  | cons b bs ih =>
    obtain ⟨content, a, after, l₁, hindent, ha, hend, hgood⟩ := bodyLine_write (h b (by simp)) l
      ((String.join ((bs.map text).map bodyLine)).toList ++ '\x7d' :: rest)
    obtain ⟨as, l₂, has, hgoods⟩ := ih (fun b hb => h b (by simp [hb])) l₁
    refine ⟨a :: as, l₂, ?_, .cons hgood hgoods⟩
    have htext : (String.join (((b :: bs).map text).map bodyLine)).toList ++ '\x7d' :: rest =
        (bodyLine (text b)).toList ++
          ((String.join ((bs.map text).map bodyLine)).toList ++ '\x7d' :: rest) := by
      simp
    rw [htext]
    exact .line .none hindent ha hend has

end

end TypeSchema
