import TypeSchema.Load
import TypeSchema.Proofs.Reader

/-!
# Libraries from sources

Loading a source adds the module that is read for it, and a larger library reads it the same. So
what a batch of sources becomes does not depend on the order of the sources, as long as it becomes
a library at all.
-/

namespace TypeSchema

variable {l l' : Library} {s : Source} {m : Module}

namespace Library

theorem get?_insert? (h : l.insert? m = some l') (name : String) :
    l'.get? name = if name = m.name then some m else l.get? name :=
  Table.get?_insert? (table_insert? h) name

theorem modules_insert? (h : l.insert? m = some l') : l'.modules = l.modules ++ [m] :=
  Table.values_insert? (table_insert? h)

theorem insert?_of_free {m : Module} (h : l.get? m.name = none) :
    ∃ grown, l.insert? m = some grown := by
  cases hinsert : l.insert? m with
  | some grown => exact ⟨grown, rfl⟩
  | none =>
    have taken := insert?_eq_none_iff.mp hinsert
    rw [contains_eq, h] at taken
    cases taken

theorem load_ok : l.load s = .ok l' ↔ l.get? (ModuleName.ofPath s.file) = none ∧
    ∃ m, Module.read s.file s.text l = .ok m ∧ l.insert? m = some l' := by
  rw [load]
  cases hfree : l.get? (ModuleName.ofPath s.file) with
  | some previous => simp [bind, Except.bind, throw, throwThe, MonadExceptOf.throw]
  | none =>
    cases hread : Module.read s.file s.text l with
    | error fault => simp [bind, Except.bind, Except.mapError]
    | ok m =>
      cases hinsert : l.insert? m with
      | none =>
        simp [hinsert, bind, Except.bind, Except.mapError, throw, throwThe,
          MonadExceptOf.throw]
      | some grown =>
        simp [hinsert, bind, Except.bind, Except.mapError, pure, Except.pure]

/-- The smaller library's modules are in the larger one. -/
def Sub (l l' : Library) : Prop := ∀ name m, l.get? name = some m → l'.get? name = some m

theorem Sub.contains (h : l.Sub l') {name : String} (hc : l.contains name) : l'.contains name := by
  obtain ⟨m, hm⟩ := contains_iff.mp hc
  exact contains_iff.mpr ⟨m, h name m hm⟩

theorem Sub.antisymm (h : l.Sub l') (h' : l'.Sub l) (name : String) :
    l.get? name = l'.get? name := by
  cases hm : l.get? name with
  | some m => exact (h name m hm).symm
  | none =>
    cases hm' : l'.get? name with
    | none => rfl
    | some m =>
      rw [h' name m hm'] at hm
      cases hm

end Library

-- ---------------------------------------------------------------------------
-- Meanings in a larger library
-- ---------------------------------------------------------------------------

theorem forall₂_imp_mem {α β : Type} {R S : α → β → Prop} {as : List α} {bs : List β}
    (h : List.Forall₂ R as bs) (hi : ∀ a ∈ as, ∀ b, R a b → S a b) : List.Forall₂ S as bs := by
  induction h with
  | nil => exact .nil
  | cons first _ ih =>
    exact .cons (hi _ (by simp) _ first) (ih fun a ha => hi a (by simp [ha]))

namespace Inside

variable {i : Inside}

theorem NameMeans.mono {x : String} {r : Reference} (h : i.NameMeans x r) :
    NameMeans { i with library := l' } x r := by
  cases h with
  | primitive hp => exact .primitive hp
  | definition hp hd => exact .definition hp hd
  | itself hp hd hx => exact .itself hp hd hx
  | parameter hp hd hx hm => exact .parameter hp hd hx hm

theorem HeadMeans.mono (hl : i.library.Sub l') {q : Option Token} {n : Token} {r : Reference}
    (h : i.HeadMeans q n r) : HeadMeans { i with library := l' } q n r := by
  cases h with
  | bare h => exact .bare h.mono
  | qualified hm hd => exact .qualified (hl _ _ hm) hd

theorem ReferenceMeans.mono (hl : i.library.Sub l') {t : ReferenceSyntax} :
    ∀ {r}, i.ReferenceMeans t r → ReferenceMeans { i with library := l' } t r := by
  induction t using ReferenceSyntax.induction with
  | step q n arguments ih =>
    intro r h
    cases h with
    | plain h => exact .plain (h.mono hl)
    | applied h hne has =>
      refine .applied (h.mono hl) hne (forall₂_imp_mem has fun t ht a ha => ?_)
      cases ha with
      | parameter h => exact .parameter (ih t ht h)
      | reference h hr => exact .reference (ih t ht h) hr

theorem TypeMeans.mono (hl : i.library.Sub l') {t : TypeSyntax} {type : TypeExpr}
    (h : i.TypeMeans t type) : TypeMeans { i with library := l' } t type := by
  induction h with
  | literal h => exact .literal h
  | reference h => exact .reference (h.mono hl)
  | array hv _ ih => exact .array hv ih
  | slice _ ih => exact .slice ih
  | pointer _ ih => exact .pointer ih
  | optional _ ih => exact .optional ih

theorem FieldMeans.mono (hl : i.library.Sub l') {f : Token × TypeSyntax} {m : Member}
    (h : i.FieldMeans f m) : FieldMeans { i with library := l' } f m := by
  cases h with
  | mk h => exact .mk (h.mono hl)

theorem ConstructorMeans.mono (hl : i.library.Sub l') {t : Token × Option TypeSyntax} {m : Member}
    (h : i.ConstructorMeans t m) : ConstructorMeans { i with library := l' } t m := by
  cases h with
  | bare => exact .bare
  | typed h => exact .typed (h.mono hl)

end Inside

namespace Known

variable {k : Known}

theorem VariantMeans.mono {field : String} {t : Token × Option Token} {v : Variant}
    (h : k.VariantMeans field t v) : VariantMeans { k with library := l' } field t v := by
  cases h with
  | bare => exact .bare
  | payload h => exact .payload h

theorem Means.mono (hl : k.library.Sub l') {t : DefinitionSyntax} {d : Definition}
    (h : k.Means t d) : Means { k with library := l' } t d := by
  cases h with
  | struct hfree hdistinct hgeneric hd hm =>
    exact .struct hfree hdistinct hgeneric hd (hm.imp fun _ _ h => h.mono hl)
  | union hfree hdistinct hgeneric hd hm =>
    exact .union hfree hdistinct hgeneric hd (hm.imp fun _ _ h => h.mono hl)
  | embedded hfree hdistinct hd hm =>
    exact .embedded hfree hdistinct hd (hm.imp fun _ _ h => h.mono)
  | enum hfree hd hm => exact .enum hfree hd hm
  | untagged hfree hm => exact .untagged hfree (hm.imp fun _ _ h => h.mono hl)
  | imports hfree hm => exact .imports hfree (hl.contains hm)

theorem AllMean.mono {trees : List DefinitionSyntax} {ds : List Definition}
    (h : k.AllMean trees ds) (hl : k.library.Sub l') :
    AllMean { k with library := l' } trees ds := by
  induction h with
  | nil => exact .nil
  | cons h _ ih => exact .cons (h.mono hl) (ih hl)

end Known

theorem Module.read_mono {file text : String} (hl : l.Sub l')
    (h : Module.read file text l = .ok m) : Module.read file text l' = .ok m := by
  obtain ⟨trees, ds, hfile, hall, hholds⟩ := read_ok h
  obtain ⟨m', h', hholds'⟩ := read_of_file file hfile (hall.mono hl)
  rw [h', hholds'.eq hholds]

-- ---------------------------------------------------------------------------
-- Batches of sources
-- ---------------------------------------------------------------------------

namespace Library

variable {sources sources' : List Source}

theorem load_sub (h : l.load s = .ok l') : l.Sub l' := by
  obtain ⟨hfree, m, hread, hinsert⟩ := load_ok.mp h
  intro name n hn
  rw [get?_insert? hinsert, if_neg]
  · exact hn
  · rintro rfl
    obtain ⟨_, _, _, _, hholds⟩ := Module.read_ok hread
    rw [hholds.name, hfree] at hn
    cases hn

/-- A library after some sources, and the library after more of them. -/
def Loads (l : Library) (sources : List Source) (l' : Library) : Prop :=
  sources.foldlM load l = .ok l'

theorem loads_cons {sources : List Source} :
    l.Loads (s :: sources) l' ↔ ∃ mid, l.load s = .ok mid ∧ mid.Loads sources l' := by
  unfold Loads
  rw [List.foldlM_cons]
  cases l.load s <;> simp [bind, Except.bind]

theorem Loads.sub (h : l.Loads sources l') : l.Sub l' := by
  induction sources generalizing l with
  | nil =>
    cases h
    exact fun _ _ h => h
  | cons s sources ih =>
    obtain ⟨mid, hs, h⟩ := loads_cons.mp h
    exact fun name m hm => ih h name m (load_sub hs name m hm)

/-- What holds of each module that is read where it holds of all before, holds of all modules. -/
theorem Loads.keep {P : Module → Prop} (h : l.Loads sources l')
    (step : ∀ {l : Library} {s : Source} {m : Module}, (∀ name m, l.get? name = some m → P m) →
      Module.read s.file s.text l = .ok m → P m)
    (hl : ∀ name m, l.get? name = some m → P m) : ∀ name m, l'.get? name = some m → P m := by
  induction sources generalizing l with
  | nil =>
    cases h
    exact hl
  | cons s sources ih =>
    obtain ⟨mid, hs, hrest⟩ := loads_cons.mp h
    obtain ⟨-, m, hread, hinsert⟩ := load_ok.mp hs
    refine ih hrest fun name n hn => ?_
    rw [get?_insert? hinsert] at hn
    split at hn
    next =>
      cases hn
      exact step hl hread
    next => exact hl name n hn

theorem Loads.read (h : l.Loads sources l') (hs : s ∈ sources) :
    ∃ m, Module.read s.file s.text l' = .ok m ∧ l'.get? m.name = some m := by
  induction sources generalizing l with
  | nil => cases hs
  | cons first sources ih =>
    obtain ⟨mid, hfirst, hrest⟩ := loads_cons.mp h
    cases hs with
    | head =>
      obtain ⟨-, m, hread, hinsert⟩ := load_ok.mp hfirst
      refine ⟨m, Module.read_mono h.sub hread, hrest.sub _ _ ?_⟩
      rw [get?_insert? hinsert, if_pos rfl]
    | tail _ hs => exact ih hrest hs

theorem Loads.sub_of_read (h : l.Loads sources l') {whole : Library} (hl : l.Sub whole)
    (hread : ∀ s ∈ sources, ∃ m, Module.read s.file s.text whole = .ok m ∧
      whole.get? m.name = some m) : l'.Sub whole := by
  induction sources generalizing l with
  | nil =>
    cases h
    exact hl
  | cons s sources ih =>
    obtain ⟨mid, hs, hrest⟩ := loads_cons.mp h
    refine ih hrest ?_ fun s hs => hread s (by simp [hs])
    obtain ⟨-, m, hm, hinsert⟩ := load_ok.mp hs
    obtain ⟨m', hm', hget⟩ := hread s (by simp)
    obtain rfl : m = m' := by
      rw [Module.read_mono hl hm] at hm'
      cases hm'
      rfl
    intro name n hn
    rw [get?_insert? hinsert] at hn
    split at hn
    next hname =>
      cases hn
      exact hname ▸ hget
    next => exact hl name n hn

theorem ok_of_isSome {ε α : Type} {result : Except ε α} (h : result.toOption.isSome) :
    ∃ a, result = .ok a := by
  cases result with
  | error _ => cases h
  | ok a => exact ⟨a, rfl⟩

theorem ok_of_map_toOption {ε α β : Type} {x : Except ε α} {f : α → β} {b : β}
    (h : x.toOption.map f = some b) : ∃ a, x = .ok a ∧ f a = b := by
  cases x with
  | error _ => cases h
  | ok a => exact ⟨a, rfl, Option.some.inj h⟩

theorem error_of_map {ε α : Type} {x : Except ε α} {e : ε}
    (h : x.map (fun _ => ()) = .error e) : x = .error e := by
  cases x with
  | error _ => exact congrArg Except.error (Except.error.inj h)
  | ok _ => cases h

theorem sub_of_perm (hp : sources.Perm sources') (h : ofSources sources = .ok l)
    (h' : ofSources sources' = .ok l') : l.Sub l' :=
  Loads.sub_of_read h (fun _ _ hm => by cases hm) fun _ hs => Loads.read h' (hp.subset hs)

/-- The order of the sources does not matter: what two orders become has the same modules. -/
theorem ofSources_order (hp : sources.Perm sources') (h : ofSources sources = .ok l)
    (h' : ofSources sources' = .ok l') :
    (∀ name, l.contains name = l'.contains name) ∧ ∀ name, l.get? name = l'.get? name := by
  have same := (sub_of_perm hp h h').antisymm (sub_of_perm hp.symm h' h)
  exact ⟨fun name => by rw [contains_eq, contains_eq, same], same⟩

/-- A third module may be read before or after a module and the one that imports it. -/
theorem ofSources_order_of_three :
    let basic : Source := ⟨"basic.gotyno", "struct Point \x7b\n    x: U8\n\x7d\n"⟩
    let shapes : Source := ⟨"shapes.gotyno",
      "import basic = b\nunion Shape \x7b\n    Dot: b.Point\n    Path: []b.Point\n\x7d\n"⟩
    let colors : Source := ⟨"colors.gotyno", "enum Color \x7b\n    red = \"r\"\n\x7d\n"⟩
    ∃ l l', [basic, shapes, colors].Perm [colors, basic, shapes] ∧
      ofSources [basic, shapes, colors] = .ok l ∧ ofSources [colors, basic, shapes] = .ok l' ∧
      (∀ name, l.contains name = l'.contains name) ∧ ∀ name, l.get? name = l'.get? name := by
  intro basic shapes colors
  have hp : [basic, shapes, colors].Perm [colors, basic, shapes] := by decide
  obtain ⟨l, h⟩ : ∃ l, ofSources [basic, shapes, colors] = .ok l :=
    ok_of_isSome (by decide +kernel)
  obtain ⟨l', h'⟩ : ∃ l', ofSources [colors, basic, shapes] = .ok l' :=
    ok_of_isSome (by decide +kernel)
  exact ⟨l, l', hp, h, h', ofSources_order hp h h'⟩

end Library

end TypeSchema
