import TypeSchema.Proofs.Library
import TypeSchema.Proofs.Read.Outcome

/-!
# Reading with more modules at hand

Reading asks for a module only by its name, and ends where there is none of that name. So a larger
library changes nothing, not even a fault, unless reading ended for want of a module. The readings
are gone through once, side by side with themselves in the larger library.
-/

namespace TypeSchema

/-- A module was wanted that is not there. -/
def Fault.IsUnknownModule (f : Fault) : Prop := ∃ name location, f = .unknownModule name location

namespace Read

variable {α β σ : Type}

/-- The second reading does what the first does, unless the first ends for want of a module. -/
def Agrees (r r' : Read α) : Prop :=
  ∀ c : Cursor, r' c = r c ∨ ∃ f d, r c = .error f d ∧ f.IsUnknownModule

theorem Agrees.refl (r : Read α) : Agrees r r := fun _ => .inl rfl

theorem Agrees.bind {x x' : Read α} {f f' : α → Read β} (hx : Agrees x x')
    (hf : ∀ a, Agrees (f a) (f' a)) : Agrees (x >>= f) (x' >>= f') := by
  intro c
  show EStateM.bind x' f' c = EStateM.bind x f c ∨ ∃ g d, EStateM.bind x f c = .error g d ∧ _
  unfold EStateM.bind
  rcases hx c with same | ⟨g, d, hg, unknown⟩
  · rw [same]
    cases x c with
    | ok a d => exact hf a d
    | error g d => exact .inl rfl
  · rw [hg]
    exact .inr ⟨g, d, rfl, unknown⟩

theorem Agrees.map {x x' : Read α} (f : α → β) (hx : Agrees x x') : Agrees (f <$> x) (f <$> x') := by
  rw [map_eq_pure_bind, map_eq_pure_bind]
  exact hx.bind fun _ => .refl _

theorem ite_agrees {p : Prop} [Decidable p] {x x' y y' : Read α} (hx : Agrees x x')
    (hy : Agrees y y') : Agrees (if p then x else y) (if p then x' else y') := by
  split
  · exact hx
  · exact hy

theorem ofExcept_agrees {x x' : Except Fault α}
    (h : x' = x ∨ ∃ f, x = .error f ∧ f.IsUnknownModule) : Agrees (ofExcept x) (ofExcept x') := by
  rcases h with rfl | ⟨f, rfl, unknown⟩
  · exact .refl _
  · exact fun c => .inr ⟨f, c, rfl, unknown⟩

theorem fix_agrees {f f' : (σ → Read α) → σ → Read α}
    (h : ∀ again again', (∀ s, Agrees (again s) (again' s)) → ∀ s, Agrees (f again s) (f' again' s))
    (s : σ) : Agrees (fix f s) (fix f' s) := by
  intro c
  induction hn : c.remaining using Nat.strongRecOn generalizing s c with
  | _ n ih =>
    rw [fix_eq, fix_eq]
    refine h _ _ (fun s d => ?_) s c
    unfold guarded
    split
    next hlt => exact ih _ (hn ▸ hlt) s d rfl
    next => exact .inl rfl

theorem recursive_agrees {f f' : Read α → Read α}
    (h : ∀ again again', Agrees again again' → Agrees (f again) (f' again')) :
    Agrees (recursive f) (recursive f') :=
  fix_agrees (fun again again' ih _ => h (again ()) (again' ()) (ih ())) ()

-- ---------------------------------------------------------------------------
-- Layout
-- ---------------------------------------------------------------------------

theorem body_agrees {member member' : Array α → Read α}
    (h : ∀ members, Agrees (member members) (member' members)) :
    Agrees (body member) (body member') := by
  refine fix_agrees (fun again again' ih members => ?_) _
  refine (Agrees.refl _).bind fun _ => ite_agrees (.refl _) ((Agrees.refl _).bind fun _ => ?_)
  exact (h members).bind fun m => (Agrees.refl _).bind fun _ => ih (members.push m)

theorem items_agrees {close : Mark} {item item' : Array α → Read α}
    (h : ∀ is, Agrees (item is) (item' is)) : Agrees (items close item) (items close item') := by
  refine fix_agrees (fun again again' ih is => ?_) _
  exact (h is).bind fun i => (Agrees.refl _).bind fun _ =>
    ite_agrees (.refl _) ((Agrees.refl _).bind fun _ => ih (is.push i))

theorem afterColon?_agrees {inner inner' : Read α} (h : Agrees inner inner') :
    Agrees (afterColon? inner) (afterColon? inner') :=
  (Agrees.refl _).bind fun _ =>
    ite_agrees ((Agrees.refl _).bind fun _ => h.bind fun _ => .refl _) (.refl _)

-- ---------------------------------------------------------------------------
-- Types
-- ---------------------------------------------------------------------------

section
variable (scope : Scope) {l' : Library} (hl : scope.library.Sub l')
include hl

theorem resolveQualified_agrees (q n : Token) :
    Context.resolveQualified { scope.toContext with library := l' } q n =
        scope.resolveQualified q n ∨
      ∃ f, scope.resolveQualified q n = .error f ∧ f.IsUnknownModule := by
  have same : Context.moduleName { scope.toContext with library := l' } q.text =
    scope.moduleName q.text := rfl
  simp only [Context.resolveQualified, same]
  cases hm : scope.library.get? (scope.moduleName q.text) with
  | some m =>
    rw [hl _ _ hm]
    exact .inl rfl
  | none => exact .inr ⟨_, rfl, _, _, rfl⟩

theorem referenceHead_agrees :
    Agrees (referenceHead scope) (referenceHead { scope with library := l' }) := by
  refine (Agrees.refl _).bind fun first => ite_agrees ?_ (.refl _)
  exact (Agrees.refl _).bind fun _ => (Agrees.refl _).bind fun name =>
    ofExcept_agrees (resolveQualified_agrees scope hl first name)

theorem reference_agrees : Agrees (reference scope) (reference { scope with library := l' }) := by
  refine recursive_agrees fun again again' ih => ?_
  refine (referenceHead_agrees scope hl).bind fun _ => (Agrees.refl _).bind fun _ =>
    ite_agrees ?_ (.refl _)
  exact (items_agrees fun _ => ih.map argumentOf).bind fun _ => .refl _

theorem typeExpr_agrees : Agrees (typeExpr scope) (typeExpr { scope with library := l' }) := by
  refine recursive_agrees fun again again' ih => (Agrees.refl peek).bind fun t => ?_
  have reference := (reference_agrees scope hl).bind fun r =>
    Agrees.refl (pure (TypeExpr.reference r))
  split
  · exact .refl _
  · exact reference
  · exact reference
  · refine (Agrees.refl _).bind fun _ => (Agrees.refl _).bind fun _ =>
      ite_agrees (ih.bind fun _ => .refl _) ?_
    exact (Agrees.refl _).bind fun _ => (Agrees.refl _).bind fun _ => ih.bind fun _ => .refl _
  · exact (Agrees.refl _).bind fun _ => ih.bind fun _ => .refl _
  · exact (Agrees.refl _).bind fun _ => ih.bind fun _ => .refl _
  · exact .refl _

theorem fieldEntry_agrees (earlier : Array (Token × TypeExpr)) :
    Agrees (fieldEntry scope earlier) (fieldEntry { scope with library := l' } earlier) := by
  refine (Agrees.refl _).bind fun _ => (Agrees.refl _).bind fun _ => (Agrees.refl _).bind fun _ => ?_
  exact (Agrees.refl _).bind fun _ => (typeExpr_agrees scope hl).bind fun _ => .refl _

theorem constructorEntry_agrees (earlier : Array (Token × TypeExpr)) :
    Agrees (constructorEntry scope earlier)
      (constructorEntry { scope with library := l' } earlier) :=
  (Agrees.refl _).bind fun _ => (Agrees.refl _).bind fun _ =>
    (afterColon?_agrees (typeExpr_agrees scope hl)).bind fun _ => .refl _

theorem unionBody_agrees (embedded : Bool) (field : String) :
    Agrees (unionBody scope embedded field)
      (unionBody { scope with library := l' } embedded field) :=
  ite_agrees (.refl _) ((body_agrees (constructorEntry_agrees scope hl)).bind fun _ => .refl _)

end

-- ---------------------------------------------------------------------------
-- Definitions
-- ---------------------------------------------------------------------------

section
variable {ctx : Context} {l' : Library} (hl : ctx.library.Sub l') (keyword : Location)
include hl

theorem struct_agrees : Agrees (struct ctx keyword) (struct { ctx with library := l' } keyword) := by
  refine (Agrees.refl _).bind fun name => (Agrees.refl _).bind fun parameters =>
    (Agrees.refl _).bind fun _ => ?_
  exact (body_agrees (fieldEntry_agrees { ctx with name, parameters } hl)).bind fun _ =>
    .refl _

theorem union_agrees : Agrees (union ctx keyword) (union { ctx with library := l' } keyword) := by
  refine (Agrees.refl _).bind fun options => (Agrees.refl _).bind fun name =>
    (Agrees.refl _).bind fun parameters => (Agrees.refl _).bind fun _ => ?_
  exact (unionBody_agrees { ctx with name, parameters } hl _ _).bind fun _ => .refl _

theorem untaggedUnion_agrees :
    Agrees (untaggedUnion ctx keyword) (untaggedUnion { ctx with library := l' } keyword) := by
  refine (Agrees.refl _).bind fun _ => (Agrees.refl _).bind fun second => ?_
  have others := (Agrees.refl (freshName ctx keyword)).bind fun name =>
    (Agrees.refl bodyStart).bind fun _ => (body_agrees fun _ => reference_agrees
      { ctx with name, parameters := [] } hl).bind fun cases =>
        (Agrees.refl definitionEnd).bind fun _ =>
          Agrees.refl (pure (Definition.untagged ⟨⟨name, keyword⟩, cases⟩))
  exact ite_agrees ((Agrees.refl _).bind fun _ => others) others

theorem importLine_agrees :
    Agrees (importLine ctx keyword) (importLine { ctx with library := l' } keyword) := by
  refine (Agrees.refl separator).bind fun _ => (Agrees.refl (expect .symbol)).bind fun module =>
    (Agrees.refl (qualifier module)).bind fun _ => (Agrees.refl _).bind fun _ => ?_
  cases hc : ctx.library.contains module.text with
  | true =>
    rw [hl.contains hc]
    exact .refl _
  | false => exact fun c => .inr ⟨_, c, rfl, _, _, rfl⟩

theorem definition?_agrees :
    Agrees (definition? ctx) (definition? { ctx with library := l' }) := by
  refine (Agrees.refl _).bind fun _ => (Agrees.refl _).bind fun _ =>
    ite_agrees (.refl _) ((Agrees.refl _).bind fun keyword => ?_)
  split
  · exact (struct_agrees hl _).map some
  · exact (union_agrees hl _).map some
  · exact .refl _
  · exact (untaggedUnion_agrees hl _).map some
  · exact (importLine_agrees hl _).map some
  · exact .refl _

end

end Read

-- ---------------------------------------------------------------------------
-- Modules
-- ---------------------------------------------------------------------------

section
variable {l l' : Library}

namespace Context

theorem withAlias_withLibrary (ctx : Context) (l' : Library) (d : Definition) :
    withAlias { ctx with library := l' } d = { ctx.withAlias d with library := l' } := by
  cases d <;> rfl

theorem accept_withLibrary (ctx : Context) (l' : Library) (d : Definition) :
    accept { ctx with library := l' } d =
      (ctx.accept d).map fun after => { after with library := l' } := by
  simp only [accept]
  cases ctx.accepted.insert? d.key d <;> rfl

theorem library_accept {ctx after : Context} {d : Definition} (h : ctx.accept d = .ok after) :
    after.library = ctx.library := by
  rw [accept] at h
  split at h
  next => cases h
  next =>
    cases h
    rfl

end Context

namespace Reader

def withLibrary (r : Reader) (l' : Library) : Reader :=
  { r with context := { r.context with library := l' } }

theorem library_next (r : Reader) : r.next.2.context.library = r.context.library := by
  unfold next
  split
  next => rfl
  next => rfl
  next d _ _ =>
    simp only
    split
    next => exact Context.library_withAlias ..
    next h => exact (Context.library_accept h).trans (Context.library_withAlias ..)

theorem next_withLibrary {r : Reader} (hl : r.context.library.Sub l') :
    (r.withLibrary l').next = (r.next.1, r.next.2.withLibrary l') ∨
      ∃ f, r.next.1 = .error f ∧ f.IsUnknownModule := by
  unfold next
  rcases Read.definition?_agrees hl r.cursor with same | ⟨f, cursor, hf, unknown⟩
  · left
    rw [show Read.definition? (r.withLibrary l').context (r.withLibrary l').cursor = _ from same]
    cases Read.definition? r.context r.cursor with
    | error f cursor => rfl
    | ok d? cursor =>
      cases d? with
      | none => rfl
      | some d =>
        have known : (r.withLibrary l').context.withAlias d =
            { r.context.withAlias d with library := l' } := Context.withAlias_withLibrary ..
        simp only [known, Context.accept_withLibrary]
        cases (r.context.withAlias d).accept d <;> rfl
  · right
    rw [hf]
    exact ⟨f, rfl, unknown⟩

theorem drain_withLibrary {r : Reader} (hl : r.context.library.Sub l') :
    (r.withLibrary l').drain = (r.drain.1, r.drain.2.withLibrary l') ∨
      ∃ f, r.drain.1 = .error f ∧ f.IsUnknownModule := by
  induction hn : r.cursor.remaining using Nat.strongRecOn generalizing r with
  | _ n ih =>
    have library := r.library_next
    rw [drain.eq_def (r.withLibrary l'), drain.eq_def r]
    rcases next_withLibrary hl with same | ⟨f, hf, unknown⟩
    · rw [same]
      generalize r.next = result at library
      obtain ⟨outcome, after⟩ := result
      match outcome with
      | .error f => exact .inl rfl
      | .ok none => exact .inl rfl
      | .ok (some d) =>
        by_cases hlt : after.cursor.remaining < r.cursor.remaining
        · have hl : after.context.library.Sub l' := by
            rwa [show after.context.library = _ from library]
          simpa [withLibrary, hlt] using ih _ (hn ▸ hlt) hl rfl
        · left
          simp [withLibrary, hlt]
    · right
      generalize r.next = result at hf
      obtain ⟨outcome, after⟩ := result
      cases hf
      exact ⟨f, rfl, unknown⟩

end Reader

theorem Module.read_of_sub (hl : l.Sub l') (file text : String) :
    Module.read file text l' = Module.read file text l ∨
      ∃ f, Module.read file text l = .error f ∧ f.IsUnknownModule := by
  unfold Module.read
  rcases Reader.drain_withLibrary (r := .ofSource text l) hl with same | ⟨f, hf, unknown⟩
  · left
    rw [show Reader.ofSource text l' = (Reader.ofSource text l).withLibrary l' from rfl, same]
    generalize (Reader.ofSource text l).drain = result
    obtain ⟨outcome, after⟩ := result
    cases outcome <;> rfl
  · right
    refine ⟨f, ?_, unknown⟩
    show (Reader.ofSource text l).drain.1.map _ = _
    rw [hf]
    rfl

-- ---------------------------------------------------------------------------
-- Batches of sources
-- ---------------------------------------------------------------------------

namespace Library

variable {s : Source} {sources : List Source} {small big : Library} {m : Module}

theorem loads_append {before after : List Source} :
    l.Loads (before ++ after) l' ↔ ∃ mid, l.Loads before mid ∧ mid.Loads after l' := by
  unfold Loads
  rw [List.foldlM_append]
  cases before.foldlM load l <;> simp [bind, Except.bind]

theorem Sub.get?_eq_none (h : l.Sub l') {name : String} (fresh : l'.get? name = none) :
    l.get? name = none := by
  cases hm : l.get? name with
  | none => rfl
  | some m =>
    rw [h name m hm] at fresh
    cases fresh

/-- The larger library has one more module, and otherwise those of the smaller one. -/
def Adds (small : Library) (m : Module) (big : Library) : Prop :=
  ∀ name, big.get? name = if name = m.name then some m else small.get? name

theorem Adds.sub (h : small.Adds m big) (fresh : small.get? m.name = none) : small.Sub big := by
  intro name n hn
  rw [h name, if_neg]
  · exact hn
  · rintro rfl
    rw [fresh] at hn
    cases hn

theorem Adds.load (h : small.Adds m big) (fresh : l.get? m.name = none)
    (hs : small.load s = .ok l) :
    ∃ n l', big.load s = .ok l' ∧ l.Adds m l' ∧ l.modules = small.modules ++ [n] ∧
      l'.modules = big.modules ++ [n] := by
  obtain ⟨hname, n, hread, hinsert⟩ := load_ok.mp hs
  have hn : n.name = ModuleName.ofPath s.file := by
    obtain ⟨_, _, _, _, hholds⟩ := Module.read_ok hread
    exact hholds.name
  have hne : n.name ≠ m.name := by
    intro heq
    rw [get?_insert? hinsert, if_pos heq.symm] at fresh
    cases fresh
  have free : big.get? n.name = none := by rw [h n.name, if_neg hne, hn, hname]
  obtain ⟨l', hinsert'⟩ := insert?_of_free free
  refine ⟨n, l', load_ok.mpr ⟨hn ▸ free, n, ?_, hinsert'⟩, fun name => ?_, modules_insert? hinsert,
    modules_insert? hinsert'⟩
  · exact Module.read_mono (h.sub ((load_sub hs).get?_eq_none fresh)) hread
  · rw [get?_insert? hinsert', get?_insert? hinsert, h name]
    by_cases hx : name = n.name
    · rw [if_pos hx, if_pos hx, if_neg (hx ▸ hne)]
    · rw [if_neg hx, if_neg hx]

theorem Adds.loads (h : small.Adds m big) (fresh : l.get? m.name = none)
    (hs : small.Loads sources l) :
    ∃ more l', big.Loads sources l' ∧ l.Adds m l' ∧ l.modules = small.modules ++ more ∧
      l'.modules = big.modules ++ more := by
  induction sources generalizing small big with
  | nil =>
    cases hs
    exact ⟨[], big, rfl, h, (List.append_nil _).symm, (List.append_nil _).symm⟩
  | cons s sources ih =>
    obtain ⟨mid, hfirst, hrest⟩ := loads_cons.mp hs
    obtain ⟨n, mid', hfirst', hadds, hn, hn'⟩ := h.load (hrest.sub.get?_eq_none fresh) hfirst
    obtain ⟨more, l', hrest', hl', hmore, hmore'⟩ := ih hadds hrest
    refine ⟨n :: more, l', loads_cons.mpr ⟨mid', hfirst', hrest'⟩, hl', ?_, ?_⟩
    · rw [hmore, hn, List.append_assoc, List.singleton_append]
    · rw [hmore', hn', List.append_assoc, List.singleton_append]

/-- More modules at hand change neither what a text means nor the fault that is found in it, unless
the fault was that a module is not there. So a source with a new module name that can be read where
it is put among others adds its module, and leaves the modules of the others as they are. -/
theorem read_with_more :
    (∀ (l l' : Library) (file text : String), l.Sub l' →
      (∀ name location, Module.read file text l ≠ .error (.unknownModule name location)) →
      Module.read file text l' = Module.read file text l) ∧
    ∀ (before after : List Source) (extra : Source) (l mid : Library) (m : Module),
      ofSources (before ++ after) = .ok l → ofSources before = .ok mid →
      Module.read extra.file extra.text mid = .ok m → l.get? (ModuleName.ofPath extra.file) = none →
      ∃ more l', ofSources (before ++ extra :: after) = .ok l' ∧
        l.modules = mid.modules ++ more ∧ l'.modules = mid.modules ++ m :: more ∧
        ∀ name, l'.get? name =
          if name = ModuleName.ofPath extra.file then some m else l.get? name := by
  constructor
  · intro l l' file text hl h
    rcases Module.read_of_sub hl file text with same | ⟨_, hf, name, location, rfl⟩
    · exact same
    · exact (h name location hf).elim
  · intro before after extra l mid m hall hbefore hread fresh
    obtain ⟨mid', hmid, hafter⟩ := loads_append.mp hall
    obtain rfl : mid = mid' := Except.ok.inj (hbefore.symm.trans hmid)
    have hm : m.name = ModuleName.ofPath extra.file := by
      obtain ⟨_, _, _, _, hholds⟩ := Module.read_ok hread
      exact hholds.name
    rw [← hm] at fresh ⊢
    have free : mid.get? m.name = none := hafter.sub.get?_eq_none fresh
    obtain ⟨grown, hinsert⟩ := insert?_of_free free
    have adds : mid.Adds m grown := get?_insert? hinsert
    obtain ⟨more, l', hafter', hl', hmore, hmore'⟩ := adds.loads fresh hafter
    refine ⟨more, l', ?_, hmore, ?_, hl'⟩
    · exact loads_append.mpr ⟨mid, hmid, loads_cons.mpr
        ⟨grown, load_ok.mpr ⟨hm ▸ free, m, hread, hinsert⟩, hafter'⟩⟩
    · rw [hmore', modules_insert? hinsert, List.append_assoc, List.singleton_append]

/-- A module of the name that another module has for a third takes nothing from it. -/
theorem read_with_more_of_namesake :
    let basic : Source := ⟨"basic.gotyno", "struct Point \x7b\n    x: U8\n\x7d\n"⟩
    let shapes : Source := ⟨"shapes.gotyno",
      "import basic = b\nunion Shape \x7b\n    Dot: b.Point\n    Path: []b.Point\n\x7d\n"⟩
    let extra : Source := ⟨"b.gotyno", "enum Point \x7b\n    origin = 0\n\x7d\n"⟩
    let faulty := "import basic = b\nstruct Way \x7b\n    way: []b.Line\n\x7d\n"
    ∃ l mid m more l', ofSources ([basic] ++ [shapes]) = .ok l ∧ ofSources [basic] = .ok mid ∧
      Module.read extra.file extra.text mid = .ok m ∧
      ofSources ([basic] ++ extra :: [shapes]) = .ok l' ∧
      l.modules = mid.modules ++ more ∧ l'.modules = mid.modules ++ m :: more ∧
      (∀ name, l'.get? name = if name = "b" then some m else l.get? name) ∧
      Module.read "way.gotyno" faulty mid = .error (.unknownReference "b.Line" ⟨3, 12⟩) ∧
      Module.read "way.gotyno" faulty l = .error (.unknownReference "b.Line" ⟨3, 12⟩) := by
  intro basic shapes extra faulty
  obtain ⟨l, hall, fresh⟩ := ok_of_map_toOption (x := ofSources ([basic] ++ [shapes]))
    (f := fun l => (l.get? "b").isNone) (b := true) (by decide +kernel)
  obtain ⟨mid, hmid, hread⟩ := ok_of_map_toOption (x := ofSources [basic])
    (f := fun mid => (Module.read extra.file extra.text mid).toOption.isSome) (b := true)
    (by decide +kernel)
  obtain ⟨mid', hmid', hfault⟩ := ok_of_map_toOption (x := ofSources [basic])
    (f := fun mid => match Module.read "way.gotyno" faulty mid with
      | .error f => some f
      | .ok _ => none) (b := some (.unknownReference "b.Line" ⟨3, 12⟩)) (by decide +kernel)
  obtain rfl : mid = mid' := Except.ok.inj (hmid.symm.trans hmid')
  obtain ⟨m, hm⟩ := ok_of_isSome hread
  have hfaulty : Module.read "way.gotyno" faulty mid =
      .error (.unknownReference "b.Line" ⟨3, 12⟩) := by
    cases h : Module.read "way.gotyno" faulty mid with
    | ok _ =>
      rw [h] at hfault
      cases hfault
    | error f =>
      rw [h] at hfault
      exact congrArg _ (Option.some.inj hfault)
  have hsub : mid.Sub l := by
    obtain ⟨_, hbefore, hafter⟩ := loads_append.mp hall
    exact Except.ok.inj (hmid.symm.trans hbefore) ▸ hafter.sub
  have name : ModuleName.ofPath extra.file = "b" := by decide +kernel
  obtain ⟨more, l', hload, hmore, hmore', hget⟩ := read_with_more.2 [basic] [shapes] extra l mid m
    hall hmid hm (name ▸ Option.isNone_iff_eq_none.mp fresh)
  refine ⟨l, mid, m, more, l', hall, hmid, hm, hload, hmore, hmore', name ▸ hget, hfaulty, ?_⟩
  rw [read_with_more.1 mid l _ _ hsub fun _ _ h => by simp [hfaulty] at h, hfaulty]

end Library

end

end TypeSchema
