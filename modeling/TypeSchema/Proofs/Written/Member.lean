import TypeSchema.Proofs.Written.TypeExpr

/-!
# Written members mean what they were written for

A field, a constructor or a case is written on a line of its own. The payload of an embedded union
is written as the struct that it was made from, without the tag field that it was given.
-/

namespace TypeSchema

open Token (Stops scanFrom stops_cons)

variable {k k' : Known} {x : String} {ps : List String} {ts rest : List Token}

-- What a line means has the name that the line begins with.

theorem Inside.FieldMeans.called {s : Inside} {f : Token × TypeSyntax} {m : Member}
    (h : s.FieldMeans f m) : f.1.text = m.name := by
  cases h
  rfl

theorem Inside.ConstructorMeans.called {s : Inside} {c : Token × Option TypeSyntax} {m : Member}
    (h : s.ConstructorMeans c m) : c.1.text = m.name := by
  cases h <;> rfl

theorem Known.VariantMeans.called {field : String} {c : Token × Option Token} {v : Variant}
    (h : k.VariantMeans field c v) : c.1.text = v.tag := by
  cases h <;> rfl

theorem ItemMeans.called {i : Token × Token} {item : Enum.Item} (h : ItemMeans i item) :
    i.1.text = item.tag := by
  cases h
  rfl

theorem Known.Alike.payload (hk : k.Alike k') {name : String} {s : Struct}
    (h : k.find? name = some (.struct s)) :
    ∃ s', k'.find? name = some (.struct s') ∧ s'.unplaced = s.unplaced := by
  obtain ⟨d', hd', hunplaced⟩ := hk.find? h
  cases d' with
  | struct s' => exact ⟨s', hd', by simpa [Definition.relocated] using hunplaced⟩
  | _ => cases hunplaced

section
variable (hk : k.Alike k') (hw : k.WellNamed) (hl : k.library.WellNamed)

section
include hk hw hl

theorem field_writes {n : Token} {t : TypeSyntax} {type : TypeExpr}
    (h : Grammar.Field ts (n, t) rest) (hs : ∀ t ∈ ts, t.Spelled)
    (hm : Inside.TypeMeans ⟨k, x, ps⟩ t type) :
    Writes (Member.fieldText ⟨n.text, type⟩) Grammar.Field fun f' =>
      ∃ m', Inside.FieldMeans ⟨k', x, ps⟩ f' m' ∧ m'.unplaced = Member.unplaced ⟨n.text, type⟩ := by
  cases h with
  | mk hn _ spaces htype =>
    intro l more hmore
    have htext : (Member.fieldText ⟨n.text, type⟩).toList ++ more =
        n.text.toList ++ ':' :: ' ' :: (type.text.toList ++ more) := by
      simp [Member.fieldText]
    have inner := typeExpr_writes hk hw hl htype
      (Token.spelled_of_tail_suffix hs (spaces.suffix.trans (List.suffix_cons ..))) hm
    obtain ⟨l₁, hscan₁⟩ := scan_symbol ((hs n (by simp)).symbol hn)
      (stops_cons rfl : Stops (':' :: ' ' :: (type.text.toList ++ more))) l
    obtain ⟨colon, l₂, hcolon, hscan₂⟩ := scan_mark (m := .colon) (c := ':') rfl l₁
      (' ' :: (type.text.toList ++ more))
    obtain ⟨space, l₃, hspace, hscan₃⟩ := scan_space l₂ (type.text.toList ++ more)
    obtain ⟨t', l₄, hg, type', hm', hunplaced⟩ := inner l₃ more hmore
    rw [htext, hscan₁, hscan₂, hscan₃]
    exact ⟨_, l₄, .mk rfl hcolon (.one hspace) hg, _, .mk hm',
      congrArg (Member.mk n.text) hunplaced⟩

theorem constructor_writes {c : Token × Option TypeSyntax} {m : Member}
    (h : Grammar.Tagged Grammar.TypeExpr ts c rest) (hs : ∀ t ∈ ts, t.Spelled)
    (hm : Inside.ConstructorMeans ⟨k, x, ps⟩ c m) :
    Writes m.constructorText (Grammar.Tagged Grammar.TypeExpr) fun c' =>
      ∃ m', Inside.ConstructorMeans ⟨k', x, ps⟩ c' m' ∧ m'.unplaced = m.unplaced := by
  cases hm with
  | @bare n =>
    cases h with
    | bare hn =>
      refine (bare_writes ((hs n (by simp)).name hn)).imp ?_
      rintro _ ⟨tag, rfl, htag⟩
      exact ⟨_, .bare, by rw [htag]⟩
  | @typed n t type hm =>
    cases h with
    | colon hn _ spaces htype =>
      have htext : Member.constructorText ⟨n.text, type⟩ = n.text ++ ": " ++ type.text := by
        have hne : type.isEmpty = false := by cases hm <;> rfl
        simp [Member.constructorText, hne]
      have inner := typeExpr_writes hk hw hl htype
        (Token.spelled_of_tail_suffix hs (spaces.suffix.trans (List.suffix_cons ..))) hm
      rw [htext]
      refine (tagged_writes ((hs n (by simp)).name hn) inner).imp ?_
      rintro _ ⟨tag, t', rfl, htag, type', hm', hunplaced⟩
      exact ⟨_, .typed hm', by rw [htag]; exact congrArg (Member.mk n.text) hunplaced⟩

end

include hk in
theorem variant_writes {field : String} {c : Token × Option Token} {v : Variant}
    (h : Grammar.Tagged Grammar.Name ts c rest) (hs : ∀ t ∈ ts, t.Spelled)
    (hm : k.VariantMeans field c v) :
    Writes v.text (Grammar.Tagged Grammar.Name) fun c' =>
      ∃ v', k'.VariantMeans field c' v' ∧ v'.unplaced = v.unplaced := by
  cases hm with
  | @bare n =>
    cases h with
    | bare hn =>
      refine (bare_writes ((hs n (by simp)).name hn)).imp ?_
      rintro _ ⟨tag, rfl, htag⟩
      exact ⟨_, .bare, by rw [htag]⟩
  | @payload n p s hp =>
    cases h with
    | colon hn _ spaces hname =>
      obtain ⟨s', hs', hunplaced⟩ := hk.payload hp.2
      have htext : Variant.text ⟨n.text, some (s.withTag field n.text)⟩ = n.text ++ ": " ++ p.text :=
        congrArg (n.text ++ ": " ++ ·) (Known.find?_eq_some hp.2).2
      have merged := calc (s'.withTag field n.text).unplaced
        _ = s'.unplaced.withTag field n.text := s'.withTag_relocated field n.text
        _ = s.unplaced.withTag field n.text := by rw [hunplaced]
        _ = (s.withTag field n.text).unplaced := (s.withTag_relocated field n.text).symm
      refine htext ▸ ?_
      obtain ⟨hpname⟩ := hname
      have hpword := (hs p (by simp [spaces.suffix.subset List.mem_cons_self])).name hpname
      refine (tagged_writes ((hs n (by simp)).name hn) (name_writes hpword)).imp ?_
      rintro _ ⟨tag, p', rfl, htag, hp'⟩
      refine ⟨_, .payload ⟨hp' ▸ hp.1, hp' ▸ hs'⟩, ?_⟩
      rw [htag]
      exact congrArg (fun s => Variant.mk n.text (some s)) merged

theorem value_write {t : Token} {v : Enum.Value} (hs : t.Spelled) (hm : ValueMeans t v)
    (l : Location) {more : List Char} (hmore : Stops more) :
    ∃ t' l', ValueMeans t' v ∧ scanFrom l (v.text.toList ++ more) = t' :: scanFrom l' more := by
  cases hm with
  | @string content hkind htext =>
    obtain ⟨l', hscan⟩ := scan_quoted hs hkind htext l more
    exact ⟨_, l', .string rfl rfl, hscan⟩
  | @number n _ _ =>
    obtain ⟨l', hscan⟩ := scan_natural n hmore l
    exact ⟨⟨.natural, toString n.toNat, l⟩, l', .number rfl (value_toString n), hscan⟩

theorem item_writes {i : Token × Token} {item : Enum.Item} (h : Grammar.Item ts i rest)
    (hs : ∀ t ∈ ts, t.Spelled) (hm : ItemMeans i item) :
    Writes (item.tag ++ " = " ++ item.value.text) Grammar.Item fun i' =>
      ∃ item', ItemMeans i' item' ∧ item' = item := by
  cases hm with
  | @mk tag t v hm =>
    cases h with
    | mk hkind before _ after _ =>
      intro l more hmore
      have htext : (tag.text ++ " = " ++ v.text).toList ++ more =
          tag.text.toList ++ ' ' :: '=' :: ' ' :: (v.text.toList ++ more) := by
        simp
      have hspelled := hs tag (by simp)
      have hends : tag.kind.EndsBefore (' ' :: '=' :: ' ' :: (v.text.toList ++ more)) := by
        rcases hkind with hkind | hkind <;> rw [hkind] <;> exact stops_cons rfl
      have inside := after.suffix.trans ((List.suffix_cons ..).trans before.suffix)
      have ht := hs t (List.mem_cons_of_mem _ (inside.subset List.mem_cons_self))
      obtain ⟨l₁, hscan₁⟩ := scan_token _ hspelled hends l
      obtain ⟨space₁, l₂, hspace₁, hscan₂⟩ := scan_space l₁ ('=' :: ' ' :: (v.text.toList ++ more))
      obtain ⟨equals, l₃, hequals, hscan₃⟩ := scan_mark (m := .equals) (c := '=') rfl l₂
        (' ' :: (v.text.toList ++ more))
      obtain ⟨space₂, l₄, hspace₂, hscan₄⟩ := scan_space l₃ (v.text.toList ++ more)
      obtain ⟨t', l₅, hm', hscan₅⟩ := value_write ht hm l₄ hmore
      refine ⟨(⟨tag.kind, tag.text, l⟩, t'), l₅, ?_, _, .mk hm', rfl⟩
      rw [htext, hscan₁, hscan₂, hscan₃, hscan₄, hscan₅]
      exact .mk hkind (.one hspace₁) hequals (.one hspace₂) (Read.kind_of_valueMeans hm')

end

end TypeSchema
