import TypeSchema.Proofs.Meaning
import TypeSchema.Scope

/-!
# Look-ups give meanings

A context describes what is known if it holds the same library and the same definitions, and knows
the same aliases. Then each look-up in it succeeds exactly where a name has a meaning, and gives
that meaning. Accepting a definition keeps the two together.
-/

namespace TypeSchema.Known

/-- The context holds what is known. -/
structure Describes (k : Known) (ctx : Context) : Prop where
  library : ctx.library = k.library
  entries : ctx.accepted.entries = k.earlier.map fun d => (d.key, d)
  aliases : ∀ q, ctx.aliases.lookup q = k.earlier.findSome? (importedAs? q)

theorem find?_eq_some {k : Known} {name : String} {d : Definition} (h : k.find? name = some d) :
    d ∈ k.earlier ∧ d.key = name := by
  refine ⟨List.mem_of_find?_eq_some h, ?_⟩
  simpa using List.find?_some h

theorem free_iff {k : Known} {name : String} :
    k.Free name ↔ Primitive.ofName? name = none ∧ k.find? name = none := by
  simp [Free, find?]

theorem key_of_importedAs? {q m : String} {d : Definition} (h : importedAs? q d = some m) :
    d.key = q := by
  cases d with
  | imports i =>
    simp only [importedAs?] at h
    split at h
    next hq => exact hq
    next => cases h
  | _ => cases h

theorem findSome?_importedAs? {k : Known} {q : String} (h : k.find? q = none) :
    k.earlier.findSome? (importedAs? q) = none := by
  rw [List.findSome?_eq_none_iff]
  intro d hd
  cases hi : importedAs? q d with
  | none => rfl
  | some m =>
    have := List.find?_eq_none.mp h d hd
    simp [key_of_importedAs? hi] at this

theorem initial_describes (l : Library) : Describes ⟨l, []⟩ (.initial l) :=
  ⟨rfl, rfl, fun _ => rfl⟩

namespace Describes

variable {k : Known} {ctx after : Context} {d : Definition}

theorem get? (h : k.Describes ctx) (name : String) : ctx.accepted.get? name = k.find? name := by
  rw [Table.get?_eq_lookup, h.entries, find?]
  induction k.earlier with
  | nil => rfl
  | cons d ds ih =>
    rw [List.map_cons, List.lookup_cons, List.find?_cons, ih]
    by_cases hn : d.key = name
    · simp [hn]
    · simp [hn, beq_false_of_ne (Ne.symm hn)]

theorem moduleName (h : k.Describes ctx) (q : String) : ctx.moduleName q = k.moduleName q := by
  rw [Context.moduleName, h.aliases, Known.moduleName]

theorem values (h : k.Describes ctx) : ctx.accepted.values = k.earlier := by
  rw [← Table.map_snd_entries, h.entries, List.map_map]
  exact List.map_id _

theorem accept_ok (h : k.Describes ctx) (free : k.find? d.key = none) :
    ∃ after, (ctx.withAlias d).accept d = .ok after := by
  rw [Context.accept, Context.accepted_withAlias]
  split
  next hn =>
    rw [Table.insert?_eq_none_iff] at hn
    rw [← h.get?, Table.get?_eq_none_iff] at free
    exact (free hn).elim
  next => exact ⟨_, rfl⟩

theorem find?_of_accept (h : k.Describes ctx) (ha : (ctx.withAlias d).accept d = .ok after) :
    k.find? d.key = none := by
  rw [Context.accept, Context.accepted_withAlias] at ha
  split at ha
  next => cases ha
  next accepted hi =>
    rw [← h.get?, Table.get?_eq_none_iff]
    intro taken
    rw [Table.insert?_eq_none_iff.mpr taken] at hi
    cases hi

theorem lookup_withAlias (h : k.Describes ctx) (free : k.find? d.key = none) (q : String) :
    (ctx.withAlias d).aliases.lookup q = (k.extend d).earlier.findSome? (importedAs? q) := by
  rw [extend, List.findSome?_append, ← h.aliases]
  cases d with
  | imports i =>
    by_cases hq : q = i.qualifier
    · have none : ctx.aliases.lookup i.qualifier = none := by
        rw [h.aliases]
        exact findSome?_importedAs? free
      simp [Context.withAlias, hq, importedAs?, none]
    · simp [Context.withAlias, List.lookup_cons, beq_false_of_ne hq, importedAs?, Ne.symm hq]
  | struct | union | enum | untagged => simp [Context.withAlias, importedAs?]

theorem accept (h : k.Describes ctx) (ha : (ctx.withAlias d).accept d = .ok after) :
    (k.extend d).Describes after := by
  have free := h.find?_of_accept ha
  rw [Context.accept, Context.accepted_withAlias] at ha
  split at ha
  next => cases ha
  next accepted hi =>
    cases ha
    refine ⟨(ctx.library_withAlias d).trans h.library, ?_, h.lookup_withAlias free⟩
    rw [Table.entries_insert? hi, h.entries, extend, List.map_append]
    rfl

-- ---------------------------------------------------------------------------
-- Look-ups
-- ---------------------------------------------------------------------------

theorem checkFree_ok_iff (h : k.Describes ctx) {name : Token} {keyword : Location} :
    ctx.checkFree name keyword = .ok () ↔ k.Free name.text := by
  rw [Context.checkFree, free_iff, Primitive.isName, h.get?]
  cases Primitive.ofName? name.text with
  | some p => simp
  | none => cases k.find? name.text <;> simp

theorem payload_ok_iff (h : k.Describes ctx) {name : Token} {s : Struct} :
    ctx.payload name = .ok s ↔ k.PayloadMeans name s := by
  rw [PayloadMeans, Context.payload, Primitive.isName, h.get?]
  cases Primitive.ofName? name.text with
  | some p => simp
  | none =>
    cases k.find? name.text with
    | none => simp
    | some d => cases d <;> simp [Definition.asStruct?]

theorem resolve_ok_iff (h : k.Describes ctx) {x : String} {parameters : List String}
    {name : Token} {r : Reference} :
    Scope.resolve { ctx with name := x, parameters } name = .ok r ↔
      Inside.NameMeans ⟨k, x, parameters⟩ name.text r := by
  simp only [Scope.resolve, h.get?]
  constructor
  · intro hr
    split at hr
    next p hp =>
      cases hr
      exact .primitive hp
    next hp =>
      split at hr
      next d hd =>
        cases hr
        exact .definition hp hd
      next hd =>
        split at hr
        next hx =>
          cases hr
          exact .itself hp hd hx
        next hx =>
          split at hr
          next hm =>
            cases hr
            exact .parameter hp hd hx hm
          next => cases hr
  · intro hm
    cases hm with
    | primitive hp => rw [hp]
    | definition hp hd => rw [hp, show k.find? name.text = _ from hd]
    | itself hp hd hx => rw [hp, show k.find? name.text = _ from hd, if_pos hx]
    | parameter hp hd hx hm =>
      rw [hp, show k.find? name.text = _ from hd, if_neg hx, if_pos hm]

theorem resolveQualified_ok_iff (h : k.Describes ctx) {x : String} {parameters : List String}
    {q n : Token} {r : Reference} :
    ctx.resolveQualified q n = .ok r ↔
      Inside.HeadMeans ⟨k, x, parameters⟩ (some q) n r := by
  simp only [Context.resolveQualified, h.moduleName, h.library]
  constructor
  · intro hr
    split at hr
    next => cases hr
    next m hm =>
      split at hr
      next => cases hr
      next d hd =>
        cases hr
        exact .qualified hm hd
  · rintro (_ | ⟨hm, hd⟩)
    rw [show k.library.get? (k.moduleName q.text) = _ from hm]
    simp only [hd]

end Describes

end TypeSchema.Known
