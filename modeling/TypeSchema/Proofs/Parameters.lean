import TypeSchema.Definition.Parameters
import TypeSchema.Proofs.Members

/-!
# Which parameters are in use

The collector goes through a type from left to right and keeps each name the first time. What it
finds stands in operands: the references in a type that are not themselves applied to arguments. In
a definition that means something each of them means something inside of that definition, so its own
parameters are all that the collector can find there.
-/

namespace TypeSchema

-- ---------------------------------------------------------------------------
-- What a type mentions
-- ---------------------------------------------------------------------------

mutual

/-- The references in the reference that have no arguments and are not given any, from left to
right. -/
def Reference.operands : Reference → List Reference
  | .applied _ arguments => Argument.allOperands arguments
  | .primitive p => [.primitive p]
  | .definition d => [.definition d]
  | .imported qualifier d => [.imported qualifier d]
  | .itself name parameters => [.itself name parameters]
  | .parameter name => [.parameter name]

/-- A parameter as an argument counts as a reference to it. -/
def Argument.operands : Argument → List Reference
  | .parameter name => [.parameter name]
  | .reference r => r.operands

def Argument.allOperands : List Argument → List Reference
  | [] => []
  | a :: rest => a.operands ++ Argument.allOperands rest

end

def TypeExpr.operands : TypeExpr → List Reference
  | .reference r => r.operands
  | .array _ item | .slice item | .pointer item | .optional item => item.operands
  | .empty | .literal _ => []

/-- The parameters that an operand mentions: the definition itself stands for all of its own. -/
def Reference.named : Reference → List String
  | .parameter name => [name]
  | .itself _ parameters => parameters
  | .primitive _ | .definition _ | .imported .. | .applied .. => []

/-- The parameters that the type mentions, as often as it does, from left to right. -/
def TypeExpr.mentions (t : TypeExpr) : List String := t.operands.flatMap (·.named)

theorem TypeExpr.mem_mentions {t : TypeExpr} {x : String} :
    x ∈ t.mentions ↔
      .parameter x ∈ t.operands ∨ ∃ name ps, .itself name ps ∈ t.operands ∧ x ∈ ps := by
  rw [mentions, List.mem_flatMap]
  constructor
  · rintro ⟨r, hr, hx⟩
    cases r with
    | parameter name =>
      obtain rfl := List.mem_singleton.mp hx
      exact .inl hr
    | itself name ps => exact .inr ⟨name, ps, hr, hx⟩
    | primitive | definition | imported | applied => cases hx
  · rintro (hr | ⟨name, ps, hr, hx⟩)
    · exact ⟨_, hr, List.mem_singleton_self x⟩
    · exact ⟨_, hr, hx⟩

theorem Argument.allOperands_eq_flatMap (as : List Argument) :
    Argument.allOperands as = as.flatMap Argument.operands := by
  induction as with
  | nil => rfl
  | cons a as ih => rw [Argument.allOperands, ih, List.flatMap_cons]

-- ---------------------------------------------------------------------------
-- The collector
-- ---------------------------------------------------------------------------

theorem nodup_foldl_addName {names more : List String} (h : names.Nodup) :
    (more.foldl addName names).Nodup := by
  induction more generalizing names with
  | nil => exact h
  | cons x more ih => exact ih (nodup_addName h)

theorem addName_eraseDups (names : List String) (x : String) :
    addName names.eraseDups x = (names ++ [x]).eraseDups := by
  rw [List.eraseDups_append]
  by_cases h : x ∈ names
  · simp [addName, List.removeAll, h]
  · simp [addName, List.removeAll, List.eraseDups_cons, h]

theorem foldl_addName_eraseDups (names more : List String) :
    more.foldl addName names.eraseDups = (names ++ more).eraseDups := by
  induction more generalizing names with
  | nil => rw [List.foldl_nil, List.append_nil]
  | cons x more ih => rw [List.foldl_cons, addName_eraseDups, ih, List.append_assoc]; rfl

mutual

theorem Reference.addNames_eq (names : List String) :
    ∀ r : Reference, r.addNames names = (r.operands.flatMap Reference.named).foldl addName names
  | .applied head arguments => by
    rw [Reference.addNames, Reference.operands, Argument.addAllNames_eq names arguments]
  | .itself name parameters => by simp [Reference.addNames, Reference.operands, Reference.named]
  | .parameter name => by simp [Reference.addNames, Reference.operands, Reference.named]
  | .primitive p => by simp [Reference.addNames, Reference.operands, Reference.named]
  | .definition d => by simp [Reference.addNames, Reference.operands, Reference.named]
  | .imported qualifier d => by simp [Reference.addNames, Reference.operands, Reference.named]

theorem Argument.addNames_eq (names : List String) :
    ∀ a : Argument, a.addNames names = (a.operands.flatMap Reference.named).foldl addName names
  | .parameter name => by simp [Argument.addNames, Argument.operands, Reference.named]
  | .reference r => by rw [Argument.addNames, Argument.operands, r.addNames_eq names]

theorem Argument.addAllNames_eq (names : List String) :
    ∀ as : List Argument, Argument.addAllNames names as =
      ((Argument.allOperands as).flatMap Reference.named).foldl addName names
  | [] => rfl
  | a :: rest => by
    rw [Argument.addAllNames, Argument.allOperands, List.flatMap_append, List.foldl_append,
      a.addNames_eq names, Argument.addAllNames_eq _ rest]

end

theorem Reference.parametersInUse_eq (r : Reference) :
    r.parametersInUse = (r.operands.flatMap named).eraseDups := by
  rw [parametersInUse, r.addNames_eq []]
  exact foldl_addName_eraseDups [] _

theorem TypeExpr.parametersInUse_eq : ∀ t : TypeExpr, t.parametersInUse = t.mentions.eraseDups
  | .reference r => r.parametersInUse_eq
  | .array _ item | .slice item | .pointer item | .optional item => item.parametersInUse_eq
  | .empty | .literal _ => rfl

theorem TypeExpr.mem_parametersInUse {t : TypeExpr} {x : String} :
    x ∈ t.parametersInUse ↔ x ∈ t.mentions := by
  rw [t.parametersInUse_eq, List.mem_eraseDups]

theorem TypeExpr.nodup_parametersInUse (t : TypeExpr) : t.parametersInUse.Nodup := by
  unfold parametersInUse
  split
  next r _ =>
    rw [Reference.parametersInUse, r.addNames_eq []]
    exact nodup_foldl_addName .nil
  next => exact .nil

-- ---------------------------------------------------------------------------
-- Those of given names
-- ---------------------------------------------------------------------------

/-- `picked` has those of the names for which `p` holds, in their order and as often as they
occur. -/
structure Picks (p : String → Prop) (names picked : List String) : Prop where
  sublist : picked.Sublist names
  only : ∀ x ∈ picked, p x
  all : ∀ x, p x → picked.count x = names.count x

theorem Picks.eq {p : String → Prop} {names picked other : List String} (h : Picks p names picked)
    (h' : Picks p names other) : picked = other := by
  classical
  have filtered {picked : List String} (h : Picks p names picked) :
      picked = names.filter (p ·) := by
    have hsub : picked.Sublist (names.filter (p ·)) := by
      rw [← List.filter_eq_self.mpr fun x hx => decide_eq_true (h.only x hx)]
      exact h.sublist.filter _
    refine hsub.eq_of_length (List.Perm.length_eq (List.perm_iff_count.mpr fun x => ?_))
    by_cases hx : p x
    · rw [h.all x hx, List.count_filter (by simpa using hx)]
    · rw [List.count_eq_zero_of_not_mem fun hmem => hx (h.only x hmem),
        List.count_eq_zero_of_not_mem (by simp [hx])]
  exact (filtered h).trans (filtered h').symm

theorem Picks.filter (p : String → Bool) (names : List String) :
    Picks (p · = true) names (names.filter p) :=
  ⟨List.filter_sublist, fun _ hx => (List.mem_filter.mp hx).2, fun _ hx => List.count_filter hx⟩

theorem Primitive.isName_eq_false_iff {x : String} :
    Primitive.isName x = false ↔ ∀ p : Primitive, p.name ≠ x := by
  rw [isName, Option.isSome_eq_false_iff, Option.isNone_iff_eq_none, ofName?, List.find?_eq_none]
  simp [mem_all]

theorem TypeExpr.picks_parametersAmong (enclosing : List String) (t : TypeExpr) :
    Picks (fun x => x ∈ t.parametersInUse ∧ ∀ p : Primitive, p.name ≠ x) enclosing
      (t.parametersAmong enclosing) := by
  unfold parametersAmong
  simpa [Primitive.isName_eq_false_iff] using
    Picks.filter (fun x => x ∈ t.parametersInUse ∧ !Primitive.isName x) enclosing

theorem TypeExpr.mem_parametersAmong {enclosing : List String} {t : TypeExpr} {x : String} :
    x ∈ t.parametersAmong enclosing ↔
      x ∈ enclosing ∧ x ∈ t.mentions ∧ ∀ p : Primitive, p.name ≠ x := by
  simp [parametersAmong, mem_parametersInUse, Primitive.isName_eq_false_iff]

theorem TypeExpr.parametersAmong_congr {t u : TypeExpr}
    (h : ∀ x, x ∈ t.parametersInUse ↔ x ∈ u.parametersInUse) (enclosing : List String) :
    t.parametersAmong enclosing = u.parametersAmong enclosing := by
  refine (t.picks_parametersAmong enclosing).eq ?_
  simpa [h] using u.picks_parametersAmong enclosing

-- ---------------------------------------------------------------------------
-- Operands mean something
-- ---------------------------------------------------------------------------

namespace Inside

variable {s : Inside}

theorem HeadMeans.operands {q : Option Token} {n : Token} {r : Reference}
    (h : s.HeadMeans q n r) : r.operands = [r] := by
  cases h with
  | bare h => cases h <;> rfl
  | qualified => rfl

theorem HeadMeans.parameter {q : Option Token} {n : Token} {x : String}
    (h : s.HeadMeans q n (.parameter x)) :
    x ∈ s.parameters ∧ ∀ p : Primitive, p.name ≠ x := by
  cases h with
  | bare h =>
    cases h with
    | parameter hp _ _ hx =>
      refine ⟨hx, fun p hname => ?_⟩
      rw [← hname, Primitive.ofName?_name] at hp
      cases hp

theorem HeadMeans.itself {q : Option Token} {n : Token} {name : String} {ps : List String}
    (h : s.HeadMeans q n (.itself name ps)) : ps = s.parameters := by
  cases h with
  | bare h =>
    cases h with
    | itself _ _ _ => rfl

theorem ReferenceMeans.operands {t : ReferenceSyntax} :
    ∀ {r}, s.ReferenceMeans t r → ∀ o ∈ r.operands, ∃ q n, s.HeadMeans q n o := by
  induction t using ReferenceSyntax.induction with
  | step q n arguments ih =>
    intro r h o ho
    cases h with
    | plain head =>
      rw [head.operands] at ho
      exact ⟨q, n, List.mem_singleton.mp ho ▸ head⟩
    | applied head _ has =>
      rw [Reference.operands, Argument.allOperands_eq_flatMap] at ho
      obtain ⟨a, ha, ho⟩ := List.mem_flatMap.mp ho
      obtain ⟨t, ht, hmeans⟩ := forall₂_mem_right has ha
      cases hmeans with
      | parameter hm => exact ih t ht hm o ho
      | reference hm _ => exact ih t ht hm o ho

theorem TypeMeans.operands {t : TypeSyntax} {type : TypeExpr} (h : s.TypeMeans t type) :
    ∀ o ∈ type.operands, ∃ q n, s.HeadMeans q n o := by
  induction h with
  | literal _ => exact fun o ho => by cases ho
  | reference h => exact h.operands
  | array _ _ ih | slice _ ih | pointer _ ih | optional _ ih => exact ih

end Inside

/-- The types of the fields or of the constructors. The variants of an embedded union have none but
those of the structs they hold. -/
def Definition.types : Definition → List TypeExpr
  | .struct s => s.fields.map (·.type)
  | .union ⟨_, _, .tagged _ constructors⟩ => constructors.map (·.type)
  | .union ⟨_, _, .embedded ..⟩ | .enum _ | .untagged _ | .imports _ => []

/-- What the types of the definition mention are parameters of the definition. -/
def Definition.UsesOwn (d : Definition) : Prop :=
  ∀ t ∈ d.types, ∀ x ∈ t.parametersInUse, x ∈ d.parameters

theorem Definition.UsesOwn.withTag {s : Struct} (h : (Definition.struct s).UsesOwn)
    (tagField tag : String) : (Definition.struct (s.withTag tagField tag)).UsesOwn := by
  intro t ht
  rcases List.mem_cons.mp ht with rfl | ht
  · exact fun x hx => by cases hx
  · exact h t ht

namespace Known

variable {k : Known} {tree : DefinitionSyntax} {d : Definition}

theorem Means.operands (h : k.Means tree d) {t : TypeExpr} (ht : t ∈ d.types) :
    ∀ o ∈ t.operands, ∃ q n, Inside.HeadMeans ⟨k, d.name, d.parameters⟩ q n o := by
  cases h with
  | struct _ _ hgeneric _ hm =>
    obtain ⟨m, hmem, rfl⟩ := List.mem_map.mp ht
    obtain ⟨_, -, hfield⟩ := forall₂_mem_right hm hmem
    rw [← hgeneric.getD] at hfield
    cases hfield with
    | mk h => exact h.operands
  | union _ _ hgeneric _ hm =>
    obtain ⟨m, hmem, rfl⟩ := List.mem_map.mp ht
    obtain ⟨_, -, hconstructor⟩ := forall₂_mem_right hm hmem
    rw [← hgeneric.getD] at hconstructor
    cases hconstructor with
    | bare => exact fun o ho => by cases ho
    | typed h => exact h.operands
  | embedded _ _ _ _ | enum _ _ _ | untagged _ _ | imports _ _ => cases ht

theorem Means.parameters_of_mentions (h : k.Means tree d) {t : TypeExpr} (ht : t ∈ d.types)
    {x : String} (hx : x ∈ t.mentions) : x ∈ d.parameters := by
  rcases TypeExpr.mem_mentions.mp hx with ho | ⟨_, ps, ho, hx⟩
  · obtain ⟨_, _, head⟩ := h.operands ht _ ho
    exact head.parameter.1
  · obtain ⟨_, _, head⟩ := h.operands ht _ ho
    rwa [head.itself] at hx

theorem Means.usesOwn (h : k.Means tree d) : d.UsesOwn := fun _ ht _ hx =>
  h.parameters_of_mentions ht (TypeExpr.mem_parametersInUse.mp hx)

theorem Means.payloads (h : k.Means tree d) {p : Struct} (hp : p ∈ d.payloads) :
    ∃ s tagField tag, .struct s ∈ k.earlier ∧ p = s.withTag tagField tag := by
  have means := h
  cases h with
  | embedded _ _ _ _ =>
    obtain ⟨v, hv, hp⟩ := List.mem_filterMap.mp hp
    obtain ⟨s, hs, rfl⟩ := means.payload hv hp
    exact ⟨s, _, _, hs, rfl⟩
  | struct _ _ _ _ _ | union _ _ _ _ _ | enum _ _ _ | untagged _ _ | imports _ _ => cases hp

theorem AllMean.usesOwn {trees : List DefinitionSyntax} {ds : List Definition} {l : Library}
    (h : AllMean ⟨l, []⟩ trees ds) (hd : d ∈ ds) :
    d.UsesOwn ∧ ∀ p ∈ d.payloads, (Definition.struct p).UsesOwn := by
  have means {d : Definition} (hd : d ∈ ds) :
      ∃ i tree, Means ⟨l, ds.take i⟩ tree d := by
    obtain ⟨i, hi⟩ := List.mem_iff_getElem?.mp hd
    obtain ⟨tree, -, hm⟩ := h.means hi
    exact ⟨i, tree, hm⟩
  obtain ⟨i, tree, hm⟩ := means hd
  refine ⟨hm.usesOwn, fun p hp => ?_⟩
  obtain ⟨s, tagField, tag, hs, rfl⟩ := hm.payloads hp
  obtain ⟨_, _, hm⟩ := means (List.mem_of_mem_take hs)
  exact hm.usesOwn.withTag tagField tag

end Known

-- ---------------------------------------------------------------------------
-- Parameters of what was accepted
-- ---------------------------------------------------------------------------

/-- The names in use are the mentioned ones, each where it comes first, and those among given names
keep the order of the given ones. In whatever a reader has accepted, and in the structs that an
embedded union holds, they are parameters of the definition. -/
theorem Reader.calls_parametersInUse :
    (∀ t : TypeExpr, t.parametersInUse.Nodup ∧ t.parametersInUse = t.mentions.eraseDups) ∧
      (∀ enclosing (t : TypeExpr),
        Picks (fun x => x ∈ t.parametersInUse ∧ ∀ p : Primitive, p.name ≠ x) enclosing
          (t.parametersAmong enclosing)) ∧
      (∀ enclosing (t u : TypeExpr), (∀ x, x ∈ t.parametersInUse ↔ x ∈ u.parametersInUse) →
        t.parametersAmong enclosing = u.parametersAmong enclosing) ∧
      ∀ text l cs, ∀ d ∈ ((ofSource text l).calls cs).definitions,
        d.UsesOwn ∧ ∀ p ∈ d.payloads, (Definition.struct p).UsesOwn := by
  refine ⟨fun t => ⟨t.nodup_parametersInUse, t.parametersInUse_eq⟩,
    fun enclosing t => t.picks_parametersAmong enclosing,
    fun enclosing t u h => TypeExpr.parametersAmong_congr h enclosing, fun text l cs d hd => ?_⟩
  obtain ⟨trees, hall, -⟩ := ((sound_ofSource text l).calls cs).means
  exact hall.usesOwn hd

/-- One field mentions the parameters in another order than the definition, and one mentions them
all. The payload of the union is the struct with its parameters. -/
theorem Reader.calls_parametersInUse_of_shelf :
    let text := "struct Shelf<K, V> \x7b\n    next: ?Shelf<V, Shelf<U8, K>>\n" ++
      "    all: []Shelf\n\x7d\nbroken\nunion(embedded) Stock<T> \x7b\n    Full: Shelf\n    Empty\n\x7d\n"
    let r := (ofSource text .empty).calls [.resolveAll, .next]
    ∃ shelf stock next all p, r.definitions = [shelf, stock] ∧ shelf.types = [next, all] ∧
      stock.payloads = [p] ∧ next.parametersInUse = ["V", "K"] ∧ all.parametersInUse = ["K", "V"] ∧
        next.parametersAmong shelf.parameters = all.parametersAmong shelf.parameters ∧
          shelf.UsesOwn ∧ (Definition.struct p).UsesOwn := by
  intro text r
  have hused : r.definitions.map (·.types.map (·.parametersInUse)) =
      [[["V", "K"], ["K", "V"]], []] := by decide +kernel
  have hpayloads : r.definitions.map (·.payloads.length) = [0, 1] := by decide +kernel
  obtain ⟨shelf, stock, hds⟩ := List.length_eq_two.mp (by simpa using congrArg List.length hused)
  simp only [hds, List.map_cons, List.map_nil, List.cons.injEq, and_true] at hused hpayloads
  obtain ⟨next, all, htypes⟩ :=
    List.length_eq_two.mp (by simpa using congrArg List.length hused.1)
  simp only [htypes, List.map_cons, List.map_nil, List.cons.injEq, and_true] at hused
  obtain ⟨p, hp⟩ := List.length_eq_one_iff.mp hpayloads.2
  obtain ⟨-, -, same, accepted⟩ := calls_parametersInUse
  have accepted : ∀ d ∈ r.definitions, _ := accepted text .empty [.resolveAll, .next]
  have hshelf := accepted shelf (by simp [hds])
  have hstock := accepted stock (by simp [hds])
  exact ⟨shelf, stock, next, all, p, hds, htypes, hp, hused.1.1, hused.1.2,
    same _ next all fun x => by simp [hused.1, or_comm], hshelf.1, hstock.2 p (by simp [hp])⟩

namespace Module

variable {file text : String} {l : Library} {m : Module} {d : Definition} {t : TypeExpr}

/-- Of the parameters of a definition that was read, a type in it is reported to mention those that
stand in it without arguments, and all of them if the definition itself does. -/
theorem read_parametersAmong (h : Module.read file text l = .ok m) (hd : d ∈ m.definitions)
    (ht : t ∈ d.types) (x : String) :
    x ∈ t.parametersAmong d.parameters ↔
      .parameter x ∈ t.operands ∨
        (∃ name ps, .itself name ps ∈ t.operands) ∧ x ∈ d.parameters ∧
          ∀ p : Primitive, p.name ≠ x := by
  obtain ⟨trees, ds, -, hall, hholds⟩ := read_ok h
  rw [hholds.definitions] at hd
  obtain ⟨i, hi⟩ := List.mem_iff_getElem?.mp hd
  obtain ⟨tree, -, hm⟩ := hall.means hi
  have operands := hm.operands ht
  rw [TypeExpr.mem_parametersAmong, TypeExpr.mem_mentions]
  constructor
  · rintro ⟨hx, ho | ⟨name, ps, ho, -⟩, hp⟩
    · exact .inl ho
    · exact .inr ⟨⟨name, ps, ho⟩, hx, hp⟩
  · rintro (ho | ⟨⟨name, ps, ho⟩, hx, hp⟩)
    · obtain ⟨_, _, head⟩ := operands _ ho
      exact ⟨head.parameter.1, .inl ho, head.parameter.2⟩
    · obtain ⟨_, _, head⟩ := operands _ ho
      exact ⟨hx, .inr ⟨name, ps, ho, by rw [head.itself]; exact hx⟩, hp⟩

/-- A parameter as an argument, and the struct itself without arguments. -/
theorem read_parametersAmong_of_tree :
    let source := "struct Tree<K, V> \x7b\n    root: ?Tree<K, String>\n    kin: []Tree\n\x7d\n"
    ∃ m d root kin, Module.read "tree.gotyno" source .empty = .ok m ∧ d ∈ m.definitions ∧
      d.parameters = ["K", "V"] ∧ d.types = [root, kin] ∧
      "K" ∈ root.parametersAmong d.parameters ∧ "V" ∉ root.parametersAmong d.parameters ∧
      "V" ∈ kin.parametersAmong d.parameters := by
  intro source
  obtain ⟨m, h, hdefinitions⟩ := Library.ok_of_map_toOption
    (x := Module.read "tree.gotyno" source .empty)
    (f := fun m => m.definitions.map fun d => (d.parameters, d.types.map (·.operands)))
    (b := [(["K", "V"], [[.parameter "K", .primitive .string], [.itself "Tree" ["K", "V"]]])])
    (by decide +kernel)
  obtain ⟨d, hd⟩ := List.length_eq_one_iff.mp (by simpa using congrArg List.length hdefinitions)
  simp only [hd, List.map_cons, List.map_nil, List.cons.injEq, Prod.mk.injEq, and_true]
    at hdefinitions
  obtain ⟨hparameters, hoperands⟩ := hdefinitions
  obtain ⟨root, kin, htypes⟩ :=
    List.length_eq_two.mp (by simpa using congrArg List.length hoperands)
  simp only [htypes, List.map_cons, List.map_nil, List.cons.injEq, and_true] at hoperands
  have hmem : d ∈ m.definitions := by simp [hd]
  have hroot := read_parametersAmong h hmem (t := root) (by simp [htypes])
  have hkin := read_parametersAmong h hmem (t := kin) (by simp [htypes])
  refine ⟨m, d, root, kin, h, hmem, hparameters, htypes, (hroot "K").mpr ?_,
    fun hV => ?_, (hkin "V").mpr ?_⟩
  · exact .inl (by simp [hoperands.1])
  · simpa [hoperands.1] using (hroot "V").mp hV
  · exact .inr ⟨⟨"Tree", ["K", "V"], by simp [hoperands.2]⟩, by simp [hparameters],
      Primitive.isName_eq_false_iff.mp (by decide)⟩

/-- A parameter that is itself given arguments is not reported. -/
theorem read_drops_applied_parameter :
    let source := "struct A<T> \x7b\n    f: T<String>\n\x7d\n"
    ∃ m, Module.read "a.gotyno" source .empty = .ok m ∧
      ∃ d ∈ m.definitions, ∃ t ∈ d.types, "T" ∈ d.parameters ∧
        .parameter "T" ∈ t.references ∧ "T" ∉ t.parametersAmong d.parameters := by
  intro source
  have hread : ((Module.read "a.gotyno" source .empty).toOption.map fun m =>
      m.definitions.any fun d => d.types.any fun t => "T" ∈ d.parameters ∧
        .parameter "T" ∈ t.references ∧ "T" ∉ t.parametersAmong d.parameters) = some true := by
    decide +kernel
  obtain ⟨m, h, hany⟩ := Library.ok_of_map_toOption hread
  obtain ⟨d, hd, hany⟩ := List.any_eq_true.mp hany
  obtain ⟨t, ht, hT⟩ := List.any_eq_true.mp hany
  exact ⟨m, h, d, hd, t, ht, of_decide_eq_true hT⟩

end Module

end TypeSchema
