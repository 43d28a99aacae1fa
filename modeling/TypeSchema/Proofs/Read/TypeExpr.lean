import TypeSchema.Proofs.Read.Layout
import TypeSchema.Proofs.Scope.Known
import TypeSchema.Proofs.Token.Spelling
import TypeSchema.Read.TypeExpr

/-!
# Types and their rules

A type is read exactly where the grammar has one and the names in it mean something. A reading of a
reference takes the arguments after it if there are any, so it agrees with the rule where no opening
bracket is left ahead.
-/

namespace TypeSchema.Read

open Grammar (Rule)

variable {k : Known} {ctx : Context} {x : String} {parameters : List String}
variable {c d e : Cursor} {ts rest : List Token}

-- ---------------------------------------------------------------------------
-- Literals and numbers
-- ---------------------------------------------------------------------------

theorem literalContent_of_toList {text : String} {content : List Char}
    (h : text.toList = '"' :: content ++ ['"']) : literalContent text = String.ofList content := by
  simp [literalContent, h]

theorem toList_quoted (content : String) :
    (quoted content).toList = '"' :: content.toList ++ ['"'] := by
  simp [quoted]

theorem literalContent_quoted (content : String) : literalContent (quoted content) = content := by
  rw [literalContent_of_toList (toList_quoted content), String.ofList_toList]

theorem quoted_literalContent {t : Token} (hs : t.Spelled) (hk : t.kind = .text) :
    t.text = quoted (literalContent t.text) := by
  rw [Token.Spelled, hk] at hs
  obtain ⟨content, -, h⟩ := hs
  rw [literalContent_of_toList h, ← String.toList_inj, toList_quoted, String.toList_ofList, h]

theorem word?_of_value {t : Token} {n : UInt64} (hs : t.Spelled) (hk : t.kind = .natural)
    (hv : Natural.value t.text.toList = n.toNat) : Natural.word? t.text.toList = some n := by
  rw [Token.Spelled, hk] at hs
  obtain ⟨m, hm⟩ := Option.isSome_iff_exists.mp hs
  obtain ⟨hne, hd, -⟩ := Natural.word?_eq_some_iff.mp hm
  exact Natural.word?_eq_some_iff.mpr ⟨hne, hd, hv⟩

theorem value_of_word? {digits : List Char} {n : UInt64} (h : Natural.word? digits = some n) :
    Natural.value digits = n.toNat := (Natural.word?_eq_some_iff.mp h).2.2

-- ---------------------------------------------------------------------------
-- References
-- ---------------------------------------------------------------------------

theorem referenceHead_ok (hk : k.Describes ctx) {r : Reference}
    (h : referenceHead { ctx with name := x, parameters } c = .ok r e) :
    ∃ q n, Grammar.Head c.tokens q n e.tokens ∧ Inside.HeadMeans ⟨k, x, parameters⟩ q n r := by
  obtain ⟨first, d, hf, h⟩ := bind_ok.mp h
  obtain ⟨hkind, hc⟩ := expectOneOf_tokens (by decide) hf
  split at h
  next hsymbol =>
    obtain ⟨dot, d₁, hdot, h⟩ := bind_ok.mp h
    obtain ⟨name, d₂, hname, h⟩ := bind_ok.mp h
    obtain ⟨hr, rfl⟩ := ofExcept_ok.mp h
    obtain ⟨hdotKind, hd⟩ := expect_tokens (by decide) hdot
    obtain ⟨hnameKind, hd₁⟩ := expect_tokens (by decide) hname
    rw [hc, hd, hd₁]
    exact ⟨_, _, .qualified hsymbol hdotKind hnameKind, hk.resolveQualified_ok_iff.mp hr⟩
  next hsymbol =>
    obtain ⟨hr, rfl⟩ := ofExcept_ok.mp h
    rw [hc]
    exact ⟨_, _, .bare (by simpa [hsymbol] using hkind), .bare (hk.resolve_ok_iff.mp hr)⟩

theorem referenceHead_runs (hk : k.Describes ctx) {q : Option Token} {n : Token} {r : Reference}
    (h : Grammar.Head ts q n rest) (hm : Inside.HeadMeans ⟨k, x, parameters⟩ q n r) :
    Runs (referenceHead { ctx with name := x, parameters }) ts r rest := by
  cases h with
  | bare hn =>
    cases hm with
    | bare hm =>
      refine (expectOneOf_runs (by simp [hn]) (by rw [hn]; decide)).bind ?_
      rw [if_neg (by rw [hn]; decide)]
      exact ofExcept_runs (hk.resolve_ok_iff.mpr hm)
  | qualified hq hdot hn =>
    refine (expectOneOf_runs (by simp [hq]) (by rw [hq]; decide)).bind ?_
    rw [if_pos hq]
    refine (expect_runs hdot (by decide)).bind ((expect_runs hn (by decide)).bind ?_)
    exact ofExcept_runs (hk.resolveQualified_ok_iff.mpr hm)

theorem argumentOf_means {s : Inside} {t : ReferenceSyntax} {r : Reference}
    (h : s.ReferenceMeans t r) : s.ArgumentMeans t (argumentOf r) := by
  cases r with
  | parameter x => exact .parameter h
  | _ => exact .reference h nofun

theorem argumentOf_eq {s : Inside} {t : ReferenceSyntax} {a : Argument} (h : s.ArgumentMeans t a) :
    ∃ r, s.ReferenceMeans t r ∧ argumentOf r = a := by
  cases h with
  | parameter h => exact ⟨_, h, rfl⟩
  | @reference _ r h hr =>
    refine ⟨r, h, ?_⟩
    cases r with
    | parameter x => exact (hr x rfl).elim
    | _ => rfl

theorem reference_ok (hk : k.Describes ctx) {r : Reference}
    (h : reference { ctx with name := x, parameters } c = .ok r e) :
    ∃ t, Grammar.Reference c.tokens t e.tokens ∧
      Inside.ReferenceMeans ⟨k, x, parameters⟩ t r := by
  refine recursive_ok (P := fun c r e => ∃ t, Grammar.Reference c.tokens t e.tokens ∧
    Inside.ReferenceMeans ⟨k, x, parameters⟩ t r) ?_ h
  intro again c r e ih h
  obtain ⟨head, d, hhead, h⟩ := bind_ok.mp h
  obtain ⟨q, n, hg, hm⟩ := referenceHead_ok hk hhead
  obtain ⟨bracket, d₁, hb, h⟩ := bind_ok.mp h
  cases bracket with
  | false =>
    obtain ⟨rfl, rfl⟩ := pure_ok.mp h
    exact ⟨_, .plain (takeMark_false hb ▸ hg), .plain hm⟩
  | true =>
    obtain ⟨as, d₂, has, h⟩ := bind_ok.mp h
    obtain ⟨rfl, rfl⟩ := pure_ok.mp h
    obtain ⟨t, ht, hd⟩ := takeMark_true hb
    obtain ⟨arguments, hitems, heach⟩ := items_ok (L := Grammar.Reference)
      (T := fun _ => Inside.ArgumentMeans ⟨k, x, parameters⟩) (fun acc c a d ha => by
        obtain ⟨r, hr, rfl⟩ := map_ok.mp ha
        obtain ⟨t, hg, hm⟩ := ih _ _ _ hr
        exact ⟨t, hg, argumentOf_means hm⟩) has
    refine ⟨_, .applied (hd ▸ hg) ht hitems, .applied hm ?_ (heach.forall₂ fun _ _ _ h => h)⟩
    obtain ⟨a, ha, -⟩ := items_first hitems
    exact List.ne_nil_of_mem ha

theorem head_content {q : Option Token} {n : Token} (h : Grammar.Head ts q n rest) :
    ∃ u more, ts = u :: more ∧ (u.kind = .symbol ∨ u.kind = .name) := by
  cases h with
  | bare hn => exact ⟨_, _, rfl, .inr hn⟩
  | qualified hq _ _ => exact ⟨_, _, rfl, .inl hq⟩

theorem reference_head {t : ReferenceSyntax} (h : Grammar.Reference ts t rest) :
    ∃ u more, ts = u :: more ∧ (u.kind = .symbol ∨ u.kind = .name) := by
  cases h with
  | plain head => exact head_content head
  | applied head _ _ => exact head_content head

theorem reference_runs (hk : k.Describes ctx) {t : ReferenceSyntax} :
    ∀ {ts rest r}, Grammar.Reference ts t rest → Unmarked .leftAngle rest →
      Inside.ReferenceMeans ⟨k, x, parameters⟩ t r →
      Runs (reference { ctx with name := x, parameters }) ts r rest := by
  induction t using ReferenceSyntax.induction with
  | step q n arguments ih =>
    intro ts rest r h hrest hm
    refine recursive_runs fun again ihagain => ?_
    cases h with
    | plain head =>
      cases hm with
      | plain hm => exact (referenceHead_runs hk head hm).bind (hrest.runs.bind (Runs.pure _))
      | applied _ hne _ => exact (hne rfl).elim
    | @applied _ _ _ u after _ _ head hu hitems =>
      cases hm with
      | plain hm =>
        obtain ⟨a, ha, -⟩ := items_first hitems
        cases ha
      | applied hm hne has =>
        refine (referenceHead_runs hk head hm).bind ((takeMark_true_runs hu).bind ?_)
        refine Runs.bind (items_runs (L := Grammar.Reference) (by decide)
          (fun _ _ _ _ h => h.suffix) ?_ ?_ hitems (Each.of_forall₂ has)) (Runs.pure _)
        · intro ts t rest h
          obtain ⟨u, more, rfl, hu⟩ := reference_head h
          exact ⟨u, more, rfl, by rcases hu with hu | hu <;> rw [hu] <;> decide⟩
        · intro a ha acc us b v next hus hg hv htells
          obtain ⟨r, hr, rfl⟩ := argumentOf_eq htells
          have hnext : Unmarked .leftAngle (v :: next) :=
            ⟨v, next, rfl, by rcases hv with hv | hv <;> rw [hv] <;> decide⟩
          have shorter : us.length < ts.length := by
            have := hus.length_le
            have := head.suffix.length_le
            simp only [List.length_cons] at this
            omega
          exact (ihagain _ _ _ shorter (ih a ha hg hnext hr)).map argumentOf

-- ---------------------------------------------------------------------------
-- Types
-- ---------------------------------------------------------------------------

theorem arraySize_ok {n : UInt64} (h : arraySize c = .ok n e) :
    ∃ size : Token, size.kind = .natural ∧ c.tokens = size :: e.tokens ∧
      Natural.value size.text.toList = n.toNat := by
  obtain ⟨size, d, hsize, h⟩ := bind_ok.mp h
  obtain ⟨hkind, hc⟩ := expect_tokens (by decide) hsize
  cases hw : Natural.word? size.text.toList with
  | some m =>
    rw [hw] at h
    obtain ⟨rfl, rfl⟩ := pure_ok.mp h
    exact ⟨size, hkind, hc, value_of_word? hw⟩
  | none =>
    rw [hw] at h
    exact (throw_ok.mp h).elim

theorem arraySize_runs {size : Token} {n : UInt64} (hs : size.Spelled)
    (hkind : size.kind = .natural) (hv : Natural.value size.text.toList = n.toNat) :
    Runs arraySize (size :: rest) n rest := by
  refine (expect_runs hkind (by decide)).bind ?_
  rw [word?_of_value hs hkind hv]
  exact Runs.pure n

theorem typeExpr_ok (hk : k.Describes ctx) {type : TypeExpr} (hs : ∀ t ∈ c.tokens, t.Spelled)
    (h : typeExpr { ctx with name := x, parameters } c = .ok type e) :
    ∃ t, Grammar.TypeExpr c.tokens t e.tokens ∧ Inside.TypeMeans ⟨k, x, parameters⟩ t type := by
  refine recursive_ok (P := fun c type e => (∀ t ∈ c.tokens, t.Spelled) →
    ∃ t, Grammar.TypeExpr c.tokens t e.tokens ∧ Inside.TypeMeans ⟨k, x, parameters⟩ t type) ?_ h hs
  intro again c type e ih h hs
  obtain ⟨t, d, hp, h⟩ := bind_ok.mp h
  obtain ⟨rfl, rfl⟩ := peek_ok.mp hp
  -- what the step of a kind other than a reference takes first
  have taken {u : Token} {d : Cursor} (hn : c.peek.kind ≠ .endOfInput) (h : next c = .ok u d) :
      c.tokens = c.peek :: d.tokens ∧ ∀ t ∈ d.tokens, t.Spelled := by
    obtain ⟨rfl, hc⟩ := next_tokens hn h
    exact ⟨hc, fun t ht => hs t (hc ▸ List.mem_cons_of_mem _ ht)⟩
  generalize hkind : c.peek.kind = kind at h
  split at h
  next =>
    obtain ⟨_, d, hd, h⟩ := bind_ok.mp h
    obtain ⟨rfl, rfl⟩ := pure_ok.mp h
    obtain ⟨hc, -⟩ := taken (by rw [hkind]; decide) hd
    rw [hc]
    have hspelled := hs c.peek (hc ▸ List.mem_cons_self)
    exact ⟨_, .literal hkind, .literal (quoted_literalContent hspelled hkind)⟩
  next =>
    obtain ⟨r, d, hr, h⟩ := bind_ok.mp h
    obtain ⟨rfl, rfl⟩ := pure_ok.mp h
    obtain ⟨t, hg, hm⟩ := reference_ok hk hr
    exact ⟨_, .reference hg, .reference hm⟩
  next =>
    obtain ⟨r, d, hr, h⟩ := bind_ok.mp h
    obtain ⟨rfl, rfl⟩ := pure_ok.mp h
    obtain ⟨t, hg, hm⟩ := reference_ok hk hr
    exact ⟨_, .reference hg, .reference hm⟩
  next =>
    obtain ⟨_, d, hd, h⟩ := bind_ok.mp h
    obtain ⟨hc, hs⟩ := taken (by rw [hkind]; nofun) hd
    obtain ⟨closed, d₁, hclosed, h⟩ := bind_ok.mp h
    cases closed with
    | true =>
      obtain ⟨item, d₂, hitem, h⟩ := bind_ok.mp h
      obtain ⟨rfl, rfl⟩ := pure_ok.mp h
      obtain ⟨r, hr, hd⟩ := takeMark_true hclosed
      obtain ⟨t, hg, hm⟩ := ih _ _ _ hitem fun t ht => hs t (hd ▸ List.mem_cons_of_mem _ ht)
      rw [hc, hd]
      exact ⟨_, .slice hkind hr hg, .slice hm⟩
    | false =>
      obtain rfl := takeMark_false hclosed
      obtain ⟨n, d₂, hn, h⟩ := bind_ok.mp h
      obtain ⟨r, d₃, hr, h⟩ := bind_ok.mp h
      obtain ⟨item, d₄, hitem, h⟩ := bind_ok.mp h
      obtain ⟨rfl, rfl⟩ := pure_ok.mp h
      obtain ⟨size, hsize, hd, hv⟩ := arraySize_ok hn
      obtain ⟨hr, hd₂⟩ := expect_tokens (by decide) hr
      have hs₃ : ∀ t ∈ d₃.tokens, t.Spelled := fun t ht => hs t (by rw [hd, hd₂]; simp [ht])
      obtain ⟨t, hg, hm⟩ := ih _ _ _ hitem hs₃
      rw [hc, hd, hd₂]
      exact ⟨_, .array hkind hsize hr hg, .array hv hm⟩
  next =>
    obtain ⟨_, d, hd, h⟩ := bind_ok.mp h
    obtain ⟨item, d₁, hitem, h⟩ := bind_ok.mp h
    obtain ⟨rfl, rfl⟩ := pure_ok.mp h
    obtain ⟨hc, hs⟩ := taken (by rw [hkind]; nofun) hd
    obtain ⟨t, hg, hm⟩ := ih _ _ _ hitem hs
    rw [hc]
    exact ⟨_, .pointer hkind hg, .pointer hm⟩
  next =>
    obtain ⟨_, d, hd, h⟩ := bind_ok.mp h
    obtain ⟨item, d₁, hitem, h⟩ := bind_ok.mp h
    obtain ⟨rfl, rfl⟩ := pure_ok.mp h
    obtain ⟨hc, hs⟩ := taken (by rw [hkind]; nofun) hd
    obtain ⟨t, hg, hm⟩ := ih _ _ _ hitem hs
    rw [hc]
    exact ⟨_, .optional hkind hg, .optional hm⟩
  next => exact (unexpected_ok.mp h).elim

theorem reference_content {t : ReferenceSyntax} (h : Grammar.Reference ts t rest) :
    ∃ u more, ts = u :: more ∧ Cursor.IsContent u.kind := by
  obtain ⟨u, more, rfl, hu⟩ := reference_head h
  exact ⟨u, more, rfl, hu.elim (Cursor.content_of_kind · rfl) (Cursor.content_of_kind · rfl)⟩

theorem typeExpr_head {t : TypeSyntax} (h : Grammar.TypeExpr ts t rest) :
    ∃ u more, ts = u :: more ∧ Cursor.IsContent u.kind := by
  cases h with
  | literal hu | slice hu _ _ | array hu _ _ _ | pointer hu _ | optional hu _ =>
    exact ⟨_, _, rfl, Cursor.content_of_kind hu rfl⟩
  | reference h => exact reference_content h

theorem typeExpr_runs (hk : k.Describes ctx) {t : TypeSyntax} {type : TypeExpr}
    (hs : ∀ t ∈ ts, t.Spelled) (h : Grammar.TypeExpr ts t rest) (hrest : Unmarked .leftAngle rest)
    (hm : Inside.TypeMeans ⟨k, x, parameters⟩ t type) :
    Runs (typeExpr { ctx with name := x, parameters }) ts type rest := by
  induction h generalizing type with
  | @literal u rest hu =>
    cases hm with
    | @literal _ content hc =>
      refine recursive_runs fun again ihagain => peek_runs.bind ?_
      simp only [hu]
      refine (next_runs (by rw [hu]; decide)).bind ?_
      rw [show content = literalContent u.text by rw [hc, literalContent_quoted]]
      exact Runs.pure _
  | reference h =>
    cases hm with
    | reference hm =>
      obtain ⟨u, more, rfl, hu⟩ := reference_head h
      refine recursive_runs fun again ihagain => peek_runs.bind ?_
      have run := reference_runs hk h hrest hm
      rcases hu with hu | hu
      · simp only [hu]
        exact run.bind (Runs.pure _)
      · simp only [hu]
        exact run.bind (Runs.pure _)
  | slice hl hr _ ih =>
    cases hm with
    | slice hm =>
      have inner := ih (fun t ht => hs t (by simp [ht])) hrest hm
      refine recursive_runs fun again ihagain => peek_runs.bind ?_
      simp only [hl]
      refine (next_runs (by rw [hl]; nofun)).bind ((takeMark_true_runs hr).bind ?_)
      exact (ihagain _ _ _ (by simp only [List.length_cons]; omega) inner).bind (Runs.pure _)
  | array hl hn hr _ ih =>
    cases hm with
    | array hv hm =>
      have inner := ih (fun t ht => hs t (by simp [ht])) hrest hm
      refine recursive_runs fun again ihagain => peek_runs.bind ?_
      simp only [hl]
      refine (next_runs (by rw [hl]; nofun)).bind ?_
      refine (takeMark_false_runs (by rw [hn]; nofun)).bind ?_
      refine (arraySize_runs (hs _ (by simp)) hn hv).bind ((expect_runs hr (by decide)).bind ?_)
      exact (ihagain _ _ _ (by simp only [List.length_cons]; omega) inner).bind (Runs.pure _)
  | pointer hu _ ih =>
    cases hm with
    | pointer hm =>
      have inner := ih (fun t ht => hs t (by simp [ht])) hrest hm
      refine recursive_runs fun again ihagain => peek_runs.bind ?_
      simp only [hu]
      refine (next_runs (by rw [hu]; nofun)).bind ?_
      exact (ihagain _ _ _ (by simp only [List.length_cons]; omega) inner).bind (Runs.pure _)
  | optional hu _ ih =>
    cases hm with
    | optional hm =>
      have inner := ih (fun t ht => hs t (by simp [ht])) hrest hm
      refine recursive_runs fun again ihagain => peek_runs.bind ?_
      simp only [hu]
      refine (next_runs (by rw [hu]; nofun)).bind ?_
      exact (ihagain _ _ _ (by simp only [List.length_cons]; omega) inner).bind (Runs.pure _)

end TypeSchema.Read
