import TypeSchema.Proofs.References
import TypeSchema.Proofs.Unplaced
import TypeSchema.Proofs.Written.Layout

/-!
# Written types mean what they were written for

A reference is written with the name that it was read by, and what is found by that name among
definitions that differ in places only, differs in places only.
-/

namespace TypeSchema

open Token (Stops IsWord scanFrom stops_cons)

theorem forall₂_choose {α β γ : Type} {M : α → β → Prop} {f : β → γ} {bs : List β} {as : List α}
    (h : List.Forall₂ (fun b a => ∃ b', M a b' ∧ f b' = f b) bs as) :
    ∃ bs', List.Forall₂ M as bs' ∧ bs'.map f = bs.map f := by
  induction h with
  | nil => exact ⟨[], .nil, rfl⟩
  | cons first _ ih =>
    obtain ⟨b, hb, hf⟩ := first
    obtain ⟨bs, hbs, hfs⟩ := ih
    exact ⟨b :: bs, .cons hb hbs, by simp [hf, hfs]⟩

theorem argumentOf_text (r : Reference) : (Read.argumentOf r).text = r.text := by
  cases r <;> rfl

theorem argumentOf_unplaced {r r' : Reference} (h : r'.unplaced = r.unplaced) :
    (Read.argumentOf r').unplaced = (Read.argumentOf r).unplaced := by
  have commutes (r : Reference) : (Read.argumentOf r).unplaced = Read.argumentOf r.unplaced := by
    cases r <;> rfl
  rw [commutes, h, commutes]

theorem toList_toString (n : UInt64) : (toString n.toNat).toList = Nat.toDigits 10 n.toNat :=
  Nat.toList_repr

theorem value_toString (n : UInt64) : Natural.value (toString n.toNat).toList = n.toNat := by
  rw [toList_toString]
  exact (Natural.word?_eq_some_iff.mp (Natural.word?_toDigits n)).2.2

theorem scan_natural (n : UInt64) {rest : List Char} (hr : Stops rest) (l : Location) :
    ∃ l', scanFrom l ((toString n.toNat).toList ++ rest) =
      ⟨.natural, toString n.toNat, l⟩ :: scanFrom l' rest := by
  refine scan_token .natural ?_ hr.noDigit l
  rw [toList_toString]
  exact Option.isSome_iff_exists.mpr ⟨n, Natural.word?_toDigits n⟩

theorem scan_quoted {t : Token} {content : String} (hs : t.Spelled) (hk : t.kind = .text)
    (ht : t.text = quoted content) (l : Location) (rest : List Char) :
    ∃ l', scanFrom l ((quoted content).toList ++ rest) =
      ⟨.text, quoted content, l⟩ :: scanFrom l' rest := by
  refine scan_token .text ?_ trivial l
  rw [Token.Spelled, hk, ht] at hs
  exact hs

section
variable {k k' : Known} {x : String} {ps : List String} {ts rest : List Token}
variable (hk : k.Alike k') (hw : k.WellNamed) (hl : k.library.WellNamed)
include hk hw hl

theorem head_write {q : Option Token} {n : Token} {r : Reference} (h : Grammar.Head ts q n rest)
    (hs : ∀ t ∈ ts, t.Spelled) (hm : Inside.HeadMeans ⟨k, x, ps⟩ q n r) (l : Location)
    {more : List Char} (hmore : Stops more) :
    ∃ q' n' r' l', Grammar.Head (scanFrom l (r.text.toList ++ more)) q' n' (scanFrom l' more) ∧
      Inside.HeadMeans ⟨k', x, ps⟩ q' n' r' ∧ r'.unplaced = r.unplaced := by
  have hn : IsWord .name n.text.toList := by
    cases h with
    | bare hkind | qualified _ _ hkind => exact (hs n (by simp)).name hkind
  cases hm with
  | bare hm =>
    -- a bare name is written as it was read
    have hname : r.text = n.text ∧ ∃ r', Inside.NameMeans ⟨k', x, ps⟩ n.text r' ∧
        r'.unplaced = r.unplaced := by
      cases hm with
      | primitive hp => exact ⟨Primitive.name_of_ofName? hp, _, .primitive hp, rfl⟩
      | @definition d hp hd =>
        obtain ⟨hmem, hkey⟩ := Known.find?_eq_some hd
        obtain ⟨d', hd', hunplaced⟩ := hk.find? hd
        refine ⟨?_, _, .definition hp hd', congrArg Reference.definition hunplaced⟩
        exact ((hw d hmem).key_eq_name (hkey ▸ hn)).symm.trans hkey
      | itself hp hd hx => exact ⟨hx.symm, _, .itself hp (hk.find?_none hd) hx, rfl⟩
      | parameter hp hd hx hmem =>
        exact ⟨rfl, _, .parameter hp (hk.find?_none hd) hx hmem, rfl⟩
    obtain ⟨htext, r', hr', hunplaced⟩ := hname
    obtain ⟨l', hscan⟩ := scan_name hn hmore l
    rw [htext, hscan]
    exact ⟨none, _, r', l', .bare rfl, .bare hr', hunplaced⟩
  | @qualified q n m d hmodule hd =>
    obtain ⟨hkey, hnamed⟩ := hl _ _ hmodule _ _ hd
    have hname : d.name = n.text := (hnamed.key_eq_name (hkey ▸ hn)).symm.trans hkey
    obtain ⟨m', d', hm', hd', hunplaced⟩ := hk.get? hmodule hd
    have hq : IsWord .symbol q.text.toList := by
      cases h with
      | qualified hkind _ _ => exact (hs q (by simp)).symbol hkind
    have htext : (Reference.imported q.text d).text.toList ++ more =
        q.text.toList ++ '.' :: (n.text.toList ++ more) := by
      simp [Reference.text, hname]
    obtain ⟨l₁, hscan₁⟩ := scan_symbol hq 
      (stops_cons rfl : Stops ('.' :: (n.text.toList ++ more))) l
    obtain ⟨dot, l₂, hdot, hscan₂⟩ :=
      scan_mark (m := .period) (c := '.') rfl l₁ (n.text.toList ++ more)
    obtain ⟨l₃, hscan₃⟩ := scan_name hn hmore l₂
    rw [htext, hscan₁, hscan₂, hscan₃]
    refine ⟨some _, _, _, l₃, .qualified rfl hdot rfl, .qualified ?_ hd',
      congrArg (Reference.imported q.text) hunplaced⟩
    rw [← hk.moduleName]
    exact hm'

theorem reference_writes {t : ReferenceSyntax} :
    ∀ {ts rest r}, Grammar.Reference ts t rest → (∀ t ∈ ts, t.Spelled) →
      Inside.ReferenceMeans ⟨k, x, ps⟩ t r → Writes r.text Grammar.Reference fun t' =>
        ∃ r', Inside.ReferenceMeans ⟨k', x, ps⟩ t' r' ∧ r'.unplaced = r.unplaced := by
  induction t using ReferenceSyntax.induction with
  | step q n arguments ih =>
    intro ts rest r h hs hm l more hmore
    cases hm with
    | plain hm =>
      cases h with
      | plain head | applied head _ _ =>
        obtain ⟨q', n', r', l', hg, hm', hunplaced⟩ := head_write hk hw hl head hs hm l hmore
        exact ⟨_, l', .plain hg, r', .plain hm', hunplaced⟩
    | @applied _ _ head _ as hm hne has =>
      cases h with
      | plain => exact (hne rfl).elim
      | applied hhead _ items =>
        have hargument : ∀ a ∈ as, Writes a.text Grammar.Reference fun t' =>
            ∃ a', Inside.ArgumentMeans ⟨k', x, ps⟩ t' a' ∧ a'.unplaced = a.unplaced := by
          intro a ha
          obtain ⟨t, ht, hmeans⟩ := forall₂_mem_right has ha
          have inside := (List.suffix_cons ..).trans hhead.suffix
          obtain ⟨us, after, hs', hg⟩ := items.spelled (Token.spelled_of_suffix hs inside)
            (fun _ _ _ _ h => h.suffix) ht
          obtain ⟨r, hr, rfl⟩ := Read.argumentOf_eq hmeans
          rw [argumentOf_text]
          refine (ih t ht hg hs' hr).imp ?_
          rintro t' ⟨r', hr', hunplaced⟩
          exact ⟨_, Read.argumentOf_means hr', argumentOf_unplaced hunplaced⟩
        have hne' : as ≠ [] := by
          rintro rfl
          cases has
          exact hne rfl
        have htext : (Reference.applied head as).text.toList ++ more = head.text.toList ++ '<' ::
            ((", ".intercalate (as.map Argument.text)).toList ++ '>' :: more) := by
          simp [Reference.text, Argument.texts_eq_map]
        obtain ⟨q', n', r', l₁, hg, hm', hunplaced⟩ := head_write hk hw hl hhead hs hm l
          (stops_cons rfl : Stops ('<' ::
            ((", ".intercalate (as.map Argument.text)).toList ++ '>' :: more)))
        obtain ⟨t, l₂, ht, hscan⟩ := scan_mark (m := .leftAngle) (c := '<') rfl l₁
          ((", ".intercalate (as.map Argument.text)).toList ++ '>' :: more)
        obtain ⟨trees, l₃, hitems, hgood⟩ := items_write .rightAngle rfl hne' hargument
          l₂ more
        obtain ⟨as', has', hmap⟩ := forall₂_choose hgood
        rw [hscan] at hg
        have hne₂ : trees ≠ [] := by
          rintro rfl
          cases hgood
          exact hne' rfl
        refine ⟨_, l₃, htext ▸ .applied hg ht hitems, _, .applied hm' hne₂ has', ?_⟩
        simp [Reference.relocated, hunplaced, hmap]

theorem typeExpr_writes {t : TypeSyntax} {type : TypeExpr} (h : Grammar.TypeExpr ts t rest)
    (hs : ∀ t ∈ ts, t.Spelled) (hm : Inside.TypeMeans ⟨k, x, ps⟩ t type) :
    Writes type.text Grammar.TypeExpr fun t' =>
      ∃ type', Inside.TypeMeans ⟨k', x, ps⟩ t' type' ∧ type'.unplaced = type.unplaced := by
  induction h generalizing type with
  | @literal u rest hu =>
    cases hm with
    | @literal _ content htext =>
      intro l more hmore
      obtain ⟨l', hscan⟩ := scan_quoted (hs u (by simp)) hu htext l more
      refine ⟨.literal ⟨.text, quoted content, l⟩, l', ?_, _, .literal rfl, rfl⟩
      rw [show (TypeExpr.literal content).text = quoted content from rfl, hscan]
      exact .literal rfl
  | reference h =>
    cases hm with
    | reference hm =>
      intro l more hmore
      obtain ⟨t', l', hg, r', hr', hunplaced⟩ := reference_writes hk hw hl h hs hm l more hmore
      exact ⟨_, l', .reference hg, _, .reference hr', congrArg TypeExpr.reference hunplaced⟩
  | slice _ _ _ ih =>
    cases hm with
    | @slice _ item hm =>
      intro l more hmore
      have inner := ih (fun t ht => hs t (by simp [ht])) hm
      have htext : item.slice.text.toList ++ more = '[' :: ']' :: (item.text.toList ++ more) := by
        simp [TypeExpr.text]
      obtain ⟨left, l₁, hleft, hscan₁⟩ := scan_mark (m := .leftBracket) (c := '[') rfl l
        (']' :: (item.text.toList ++ more))
      obtain ⟨right, l₂, hright, hscan₂⟩ := scan_mark (m := .rightBracket) (c := ']') rfl l₁
        (item.text.toList ++ more)
      obtain ⟨t', l₃, hg, type', hm', hunplaced⟩ := inner l₂ more hmore
      rw [htext, hscan₁, hscan₂]
      exact ⟨_, l₃, .slice hleft hright hg, _, .slice hm', congrArg TypeExpr.slice hunplaced⟩
  | array _ _ _ _ ih =>
    cases hm with
    | @array _ n _ item _ hm =>
      intro l more hmore
      have inner := ih (fun t ht => hs t (by simp [ht])) hm
      have htext : (TypeExpr.array n item).text.toList ++ more =
          '[' :: ((toString n.toNat).toList ++ ']' :: (item.text.toList ++ more)) := by
        simp [TypeExpr.text]
      obtain ⟨left, l₁, hleft, hscan₁⟩ := scan_mark (m := .leftBracket) (c := '[') rfl l
        ((toString n.toNat).toList ++ ']' :: (item.text.toList ++ more))
      obtain ⟨l₂, hscan₂⟩ := scan_natural n
        (stops_cons rfl : Stops (']' :: (item.text.toList ++ more))) l₁
      obtain ⟨right, l₃, hright, hscan₃⟩ := scan_mark (m := .rightBracket) (c := ']') rfl l₂
        (item.text.toList ++ more)
      obtain ⟨t', l₄, hg, type', hm', hunplaced⟩ := inner l₃ more hmore
      rw [htext, hscan₁, hscan₂, hscan₃]
      exact ⟨_, l₄, .array hleft rfl hright hg, _, .array (value_toString n) hm',
        congrArg (TypeExpr.array n) hunplaced⟩
  | pointer _ _ ih =>
    cases hm with
    | @pointer _ item hm =>
      intro l more hmore
      have inner := ih (fun t ht => hs t (by simp [ht])) hm
      obtain ⟨t, l₁, ht, hscan⟩ := scan_mark (m := .asterisk) (c := '*') rfl l
        (item.text.toList ++ more)
      obtain ⟨t', l₂, hg, type', hm', hunplaced⟩ := inner l₁ more hmore
      refine ⟨_, l₂, ?_, _, .pointer hm', congrArg TypeExpr.pointer hunplaced⟩
      rw [show item.pointer.text.toList ++ more = '*' :: (item.text.toList ++ more) by
        simp [TypeExpr.text], hscan]
      exact .pointer ht hg
  | optional _ _ ih =>
    cases hm with
    | @optional _ item hm =>
      intro l more hmore
      have inner := ih (fun t ht => hs t (by simp [ht])) hm
      obtain ⟨t, l₁, ht, hscan⟩ := scan_mark (m := .questionMark) (c := '?') rfl l
        (item.text.toList ++ more)
      obtain ⟨t', l₂, hg, type', hm', hunplaced⟩ := inner l₁ more hmore
      refine ⟨_, l₂, ?_, _, .optional hm', congrArg TypeExpr.optional hunplaced⟩
      rw [show item.optional.text.toList ++ more = '?' :: (item.text.toList ++ more) by
        simp [TypeExpr.text], hscan]
      exact .optional ht hg

end

end TypeSchema
