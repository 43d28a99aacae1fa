import TypeSchema.Proofs.Read.Blame
import TypeSchema.Proofs.Reader.Symbols
import TypeSchema.Proofs.Token.Place

/-!
# Faults point into the text

In a text that is short enough for no count to stop, a fault is at the place of one token, and what
the fault tells stands there: the name that means nothing, the keyword of the definition that takes
a name again. Of two definitions or members with one name, the fault tells where the earlier is.
-/

namespace TypeSchema

variable {k : Known} {l : Library} {text name : String} {ts : List Token} {t : Token} {f : Fault}

/-- A token of the text at the place introduces a definition of the kind. -/
def Location.Introduces (l : Location) (text : String) (kind : Definition.Kind) : Prop :=
  ∃ t ∈ Token.scan text, t.location = l ∧ t.Introduces kind

/-- What the fault tells is found at the places that it tells. -/
def Fault.PointsInto (text : String) (ctx : Context) : Fault → Prop
  | .unexpected expected found => found ∈ Token.scan text ∧ found.kind ∉ expected
  | .unknownKeyword keyword l => l.Shows text (firstWord keyword)
  | .unknownOption name l | .repeatedParameter name l | .unsuitablePayload name _ l
  | .unknownReference name l | .unknownModule name l | .reservedName name l => l.Shows text name
  | .repeatedDefinition name l previous =>
    (∃ kind, l.Introduces text kind) ∧ previous < l ∧
      ∃ d, ctx.accepted.get? name = some d ∧ d.location = previous ∧
        previous.Introduces text d.kind
  | .repeatedMember name _ l previous =>
    l.Shows text name ∧ previous < l ∧ previous.Shows text name

-- ---------------------------------------------------------------------------
-- Tokens of a short text
-- ---------------------------------------------------------------------------

namespace Token

theorem mem_shows (hshort : text.length < Location.limit) (ht : t ∈ scan text) :
    t.location.Shows text t.text := by
  obtain ⟨before, rest, hscan⟩ := List.append_of_mem ht
  refine suffix_shows hshort ⟨before, hscan.symm⟩ ?_
  rw [chars_cons]
  exact List.prefix_append ..

/-- A qualified name is told as it stands, since no blank may come between its parts. -/
theorem qualified_shows (hshort : text.length < Location.limit) {q dot n : Token}
    (h : q :: dot :: n :: ts <:+ scan text) (hdot : dot.kind = .mark .period) :
    q.location.Shows text (q.text ++ "." ++ n.text) := by
  refine suffix_shows hshort h ?_
  have spelled := scan_spelled (h.subset (by simp : dot ∈ q :: dot :: n :: ts))
  have period : dot.text.toList = ".".toList := spelled.mark hdot
  simp [period]

theorem eq_of_location_eq (hshort : text.length < Location.limit) {u : Token}
    (ht : t ∈ scan text) (hu : u ∈ scan text) (h : t.location = u.location) : t = u := by
  obtain ⟨before, rest, hscan⟩ := List.append_of_mem ht
  have here : t :: rest <:+ scan text := ⟨before, hscan.symm⟩
  rw [hscan] at hu
  rcases List.mem_append.mp hu with hu | hu
  · obtain ⟨first, between, rfl⟩ := List.append_of_mem hu
    have there : u :: (between ++ t :: rest) <:+ scan text := ⟨first, by simp [hscan]⟩
    exact (Location.lt_irrefl _ (h ▸ location_lt hshort there (by simp))).elim
  · rcases List.mem_cons.mp hu with rfl | hu
    · rfl
    · exact (Location.lt_irrefl _ (h ▸ location_lt hshort here hu)).elim

theorem Behind.location_lt (hshort : text.length < Location.limit) {u : Token}
    (h : t.Behind (scan text) ts) (hu : u ∈ ts) : t.location < u.location := by
  obtain ⟨rest, hrest, hts⟩ := h
  exact Token.location_lt hshort hrest (hts.subset hu)

end Token

theorem Fault.About.token {ctx : Context} (h : f.About ts ctx) :
    ∃ t ∈ ts, t.location = f.location := by
  cases h with
  | unexpected ht _ | keyword ht _ | option ht _ | parameter ht _ | payload ht _ | reference ht _
  | module ht _ | definition ht _ _ | reserved ht _ => exact ⟨_, ht, rfl⟩
  | untagged hts _ _ _ | qualified hts _ _ _ | member hts _ _ _ =>
    exact ⟨_, hts.subset List.mem_cons_self, rfl⟩

-- ---------------------------------------------------------------------------
-- Where definitions are
-- ---------------------------------------------------------------------------

theorem Grammar.Definition.introduces {rest : List Token} {tree : DefinitionSyntax}
    {d : TypeSchema.Definition} (h : Grammar.Definition ts tree rest) (hm : k.Means tree d) :
    ∃ keyword more, ts = keyword :: more ∧ keyword.Introduces d.kind ∧
      d.location = keyword.location := by
  cases h with
  | struct word _ _ _ | union word _ _ _ _ _ | embedded word _ _ _ _ _ | enum word _ _
  | untagged word _ _ _ _ | imports word _ _ _ _ =>
    cases hm
    refine ⟨_, _, rfl, ?_, rfl⟩
    rw [Definition.kind]
    exact word

namespace Reader

variable {r after : Reader}

/-- The accepted definitions are those of keywords that lie behind. -/
def Placed (r : Reader) (text : String) : Prop :=
  ∀ d ∈ r.definitions, ∃ t : Token, t.Introduces d.kind ∧ d.location = t.location ∧
    t.Behind (Token.scan text) r.cursor.tokens

theorem Placed.leads (h : r.Placed text) (hdefinitions : after.definitions = r.definitions)
    (hr : r.cursor.Leads after.cursor) : after.Placed text := by
  intro d hd
  obtain ⟨t, hkind, hlocation, behind⟩ := h d (hdefinitions ▸ hd)
  exact ⟨t, hkind, hlocation, behind.mono hr.tokens⟩

theorem Sound.placed_next (h : r.Sound text l) (placed : r.Placed text) :
    r.next.2.Placed text := by
  have step := h.within.step
  generalize hnext : r.next = result at step ⊢
  obtain ⟨outcome, after⟩ := result
  have leads := step.leads
  cases step with
  | fault _ | finished _ => exact placed.leads rfl leads
  | @accepted d cursor context _ _ =>
    obtain ⟨mid, tree, blank, ht, hm, hafter⟩ := next_some h.within hnext
    obtain ⟨keyword, more, rfl, hkind, hlocation⟩ := ht.introduces hm
    intro e he
    rw [hafter.definitions] at he
    rcases List.mem_append.mp he with he | he
    · obtain ⟨t, hkind, hlocation, behind⟩ := placed e he
      exact ⟨t, hkind, hlocation, behind.mono leads.tokens⟩
    · obtain rfl := List.mem_singleton.mp he
      obtain ⟨_, _, heq, -, hsuffix⟩ := ht.suffix
      cases heq
      exact ⟨keyword, hkind, hlocation, more, blank.suffix.trans h.within.tokens, hsuffix⟩

theorem calls_placed (text : String) (l : Library) (cs : List Call) :
    ((ofSource text l).calls cs).Placed text := by
  have keeps := calls_keep (P := fun r => r.Sound text l ∧ r.Placed text)
    (fun _ h => ⟨h.1.next, h.1.placed_next h.2⟩)
    ⟨sound_ofSource text l, fun d hd => by cases hd⟩ cs
  exact keeps.2

-- ---------------------------------------------------------------------------
-- Faults
-- ---------------------------------------------------------------------------

theorem Keyed.loaded_aliases (h : r.Keyed l) (hl : r.context.library = l) :
    Read.Loaded r.context := by
  intro q m hm
  obtain ⟨i, hi, -, rfl⟩ := (h.aliases q m).mp hm
  exact hl ▸ h.loaded i hi

theorem Sound.about_reach (h : r.Sound text l) (hf : r.next.1 = .error f) :
    f.About r.cursor.reach r.context := by
  have step := h.within.step
  rw [hf] at step
  generalize r.next.2 = after at step
  cases step with
  | fault hd =>
    have loaded := h.keyed.loaded_aliases h.within.describes.library
    have spelled : ∀ t ∈ r.cursor.reach, t.Spelled := fun t ht =>
      h.within.spelled t ((Token.upToInvalid_prefix _).subset ht)
    exact (Read.definition?_blames loaded spelled).fault (List.suffix_refl _) hd

theorem Sound.about (h : r.Sound text l) (hf : r.next.1 = .error f) :
    f.About r.cursor.tokens r.context := by
  obtain ⟨more, hmore⟩ := Token.upToInvalid_prefix r.cursor.tokens
  exact hmore ▸ (h.about_reach hf).append more

theorem Placed.pointsInto (hshort : text.length < Location.limit) (placed : r.Placed text)
    (hr : r.cursor.tokens <:+ Token.scan text) (keyed : r.Keyed l)
    (h : f.About r.cursor.tokens r.context) : f.PointsInto text r.context := by
  cases h with
  | unexpected ht hk => exact ⟨hr.subset ht, hk⟩
  | keyword ht hk =>
    show Location.Shows _ _ _
    rw [firstWord_text (Token.scan_spelled (hr.subset ht)) hk]
    exact Token.mem_shows hshort (hr.subset ht)
  | untagged hts hkind _ _ =>
    show Location.Shows _ _ _
    rw [firstWord_untagged, ← hkind.2]
    exact Token.mem_shows hshort (hr.subset (hts.subset List.mem_cons_self))
  | option ht _ | parameter ht _ | payload ht _ | reference ht _ | module ht _ | reserved ht _ =>
    exact Token.mem_shows hshort (hr.subset ht)
  | qualified hts _ hdot _ => exact Token.qualified_shows hshort (hts.trans hr) hdot
  | @definition name t kind d ht hkind hd =>
    obtain ⟨u, hu, hlocation, behind⟩ := placed d ((keyed.found _ _).mp hd).1
    refine ⟨⟨kind, t, hr.subset ht, rfl, hkind⟩, hlocation ▸ behind.location_lt hshort ht,
      d, hd, rfl, u, ?_, hlocation.symm, hu⟩
    obtain ⟨_, hrest, -⟩ := behind
    exact hrest.subset List.mem_cons_self
  | @member t u us x hts _ behind hsame =>
    obtain ⟨rest, hrest, hus⟩ := behind
    have here : u ∈ Token.scan text := hr.subset (hts.subset List.mem_cons_self)
    have there : t ∈ Token.scan text := hr.subset (hrest.subset List.mem_cons_self)
    exact ⟨Token.mem_shows hshort here,
      Token.location_lt hshort (hrest.trans hr) (hus.subset List.mem_cons_self),
      hsame ▸ Token.mem_shows hshort there⟩

/-- Whatever a reader was asked for before, the fault that comes next is at the place of one token,
and what it tells is found in the text. -/
theorem calls_points (hshort : text.length < Location.limit) (l : Library) (cs : List Call)
    (h : ((ofSource text l).calls cs).next.1 = .error f) :
    (∃! t, t ∈ Token.scan text ∧ t.location = f.location) ∧
      f.PointsInto text ((ofSource text l).calls cs).context := by
  have sound := (sound_ofSource text l).calls cs
  have placed := calls_placed text l cs
  generalize (ofSource text l).calls cs = r at h sound placed
  have about := sound.about h
  -- no two tokens share a place, so there is one token only
  refine ⟨?_, placed.pointsInto hshort sound.within.tokens sound.keyed about⟩
  obtain ⟨t, ht, hlocation⟩ := about.token
  have hscan := sound.within.tokens.subset ht
  refine ⟨t, ⟨hscan, hlocation⟩, fun u hu => ?_⟩
  exact Token.eq_of_location_eq hshort hu.1 hscan (hu.2.trans hlocation.symm)

/-- The line that is no definition is passed, and the name that is then taken again is known. -/
theorem calls_points_after_fault :
    let text := "enum A \x7b\n    a = 1\n\x7d\nbroken\nstruct A \x7b\n\x7d\n"
    let r := (ofSource text .empty).calls [.resolveAll]
    let f : Fault := .repeatedDefinition "A" ⟨5, 1⟩ ⟨1, 1⟩
    text.length < Location.limit ∧ r.next.1 = .error f ∧
      (∃! t, t ∈ Token.scan text ∧ t.location = f.location) ∧ f.PointsInto text r.context := by
  intro text r f
  have hshort : text.length < Location.limit := by decide +kernel
  have hf : r.next.1 = .error f := by decide +kernel
  exact ⟨hshort, hf, calls_points hshort .empty _ hf⟩

end Reader

end TypeSchema
