import TypeSchema.Proofs.Moved

/-!
# Tokens that are laid out anew

Two texts may differ in the kinds of their line breaks, in the spaces before line breaks, and in
blank lines. Then their tokens are the same one by one, apart from places, except where lines end:
there the end of a line with the blank lines after it stands for another. Each rule takes from the
second text what it takes from the first, for a line that ends may end either way.
-/

namespace TypeSchema.Grammar

open Cursor (IsContent content_of_kind)

/-- From the middle of a line on, the tokens `ts'` are the tokens `ts` laid out anew, and `f` tells
where each has its place. -/
inductive Relaid (f : Location → Location) : List Token → List Token → Prop
  | token {t ts ts'} : t.kind.isLineBreak = false → t.kind ≠ .endOfInput → Relaid f ts ts' →
      Relaid f (t :: ts) (t.moved f :: ts')
  | line {ts mid rest ts' mid' rest'} : LineEnd ts mid → BlankLines mid rest → LineEnd ts' mid' →
      BlankLines mid' rest' → Relaid f rest rest' → Relaid f ts ts'
  | stop {ts t ts' t'} : Spaces ts [t] → t.kind = .endOfInput → Spaces ts' [t'] →
      t'.kind = .endOfInput → Relaid f ts ts'

variable {f : Location → Location} {ts ts' mid rest : List Token} {t u : Token}

/-- From the beginning of a line on, the tokens `ts'` are the tokens `ts` laid out anew. -/
def RelaidLines (f : Location → Location) (ts ts' : List Token) : Prop :=
  ∃ mid mid', BlankLines ts mid ∧ BlankLines ts' mid' ∧ Relaid f mid mid'

theorem Relaid.lines (h : Relaid f ts ts') : RelaidLines f ts ts' := ⟨ts, ts', .none, .none, h⟩

-- ---------------------------------------------------------------------------
-- How a line goes on
-- ---------------------------------------------------------------------------

theorem Spaces.dropWhile (h : Spaces ts (t :: rest)) (ht : t.kind ≠ .space) :
    ts.dropWhile (·.kind = .space) = t :: rest := by
  obtain ⟨spaces, hs, rfl⟩ := h
  rw [List.dropWhile_append_of_pos (by simpa using hs),
    List.dropWhile_cons_of_neg (by simpa using ht)]

theorem Spaces.unique {rest' : List Token} (h : Spaces ts (t :: rest)) (ht : t.kind ≠ .space)
    (h' : Spaces ts (u :: rest')) (hu : u.kind ≠ .space) : t = u ∧ rest = rest' :=
  List.cons.inj ((h.dropWhile ht).symm.trans (h'.dropWhile hu))

theorem LineEnd.unique (h : LineEnd ts mid) (h' : LineEnd ts rest) : mid = rest := by
  obtain ⟨t, ht, spaces⟩ := h
  obtain ⟨u, hu, spaces'⟩ := h'
  exact (spaces.unique (Read.ne_space_of_isLineBreak ht) spaces'
    (Read.ne_space_of_isLineBreak hu)).2

theorem not_end_of_content {stop : Token} (h : Spaces ts (t :: rest)) (ht : IsContent t.kind)
    (h' : Spaces ts (stop :: mid)) (hstop : stop.kind = .endOfInput) : False := by
  obtain ⟨rfl, -⟩ := h.unique ht.1 h' (by simp [hstop])
  exact ht.2.2 hstop

/-- The line is not a blank one. -/
def Begun (ts : List Token) : Prop :=
  ∃ t rest, Spaces ts (t :: rest) ∧ t.kind ≠ .space ∧ t.kind.isLineBreak = false

theorem begun_of_content (h : Spaces ts (t :: rest)) (ht : IsContent t.kind) : Begun ts :=
  ⟨t, rest, h, ht.1, ht.2.1⟩

theorem begun_of_end (h : Spaces ts (t :: rest)) (ht : t.kind = .endOfInput) : Begun ts :=
  ⟨t, rest, h, by simp [ht], by rw [ht]; rfl⟩

theorem Begun.not_lineEnd (h : Begun ts) (h' : LineEnd ts rest) : False := by
  obtain ⟨t, _, spaces, ht, hline⟩ := h
  obtain ⟨u, hu, spaces'⟩ := h'
  obtain ⟨rfl, -⟩ := spaces.unique ht spaces' (Read.ne_space_of_isLineBreak hu)
  rw [hu] at hline
  cases hline

theorem BlankLines.trans (h : BlankLines ts mid) (h' : BlankLines mid rest) :
    BlankLines ts rest := by
  induction h with
  | none => exact h'
  | more line _ ih => exact .more line (ih h')

theorem BlankLines.between (h : BlankLines ts mid) (h' : BlankLines ts rest) (hr : Begun rest) :
    BlankLines mid rest := by
  induction h with
  | none => exact h'
  | more line _ ih =>
    cases h' with
    | none => exact (hr.not_lineEnd line).elim
    | more line' blank => exact ih (line.unique line' ▸ blank)

theorem Relaid.step (h : Relaid f (u :: ts) ts') (ahead : Spaces (u :: ts) (t :: rest))
    (ht : IsContent t.kind) : ∃ us, ts' = u.moved f :: us ∧ Relaid f ts us := by
  cases h with
  | token _ _ h => exact ⟨_, rfl, h⟩
  | line line _ _ _ _ => exact ((begun_of_content ahead ht).not_lineEnd line).elim
  | stop stop hstop _ _ => exact (not_end_of_content ahead ht stop hstop).elim

theorem Relaid.content (h : Relaid f (t :: rest) ts') (ht : IsContent t.kind) :
    ∃ us, ts' = t.moved f :: us ∧ Relaid f rest us :=
  h.step (.refl _) ht

theorem Relaid.content_behind {spaces : List Token} (h : Relaid f (spaces ++ t :: rest) ts')
    (hs : ∀ s ∈ spaces, s.kind = .space) (ht : IsContent t.kind) :
    ∃ us, ts' = spaces.map (·.moved f) ++ us ∧ Relaid f (t :: rest) us := by
  induction spaces generalizing ts' with
  | nil => exact ⟨ts', rfl, h⟩
  | cons s spaces ih =>
    obtain ⟨us, rfl, others⟩ := h.step ⟨s :: spaces, hs, rfl⟩ ht
    obtain ⟨vs, rfl, content⟩ := ih others fun s hm => hs s (List.mem_cons_of_mem _ hm)
    exact ⟨vs, rfl, content⟩

theorem Relaid.append {us : List Token} (hu : ∀ t ∈ us, t.kind ≠ .endOfInput)
    (h : Relaid f ts ts') : Relaid f (us ++ ts) (us.map (·.moved f) ++ ts') := by
  induction us with
  | nil => exact h
  | cons u us ih =>
    obtain ⟨hend, hu⟩ := List.forall_mem_cons.mp hu
    cases hline : u.kind.isLineBreak with
    | false => exact .token hline hend (ih hu)
    | true => exact .line ⟨u, hline, .refl _⟩ .none ⟨u.moved f, hline, .refl _⟩ .none (ih hu)

-- ---------------------------------------------------------------------------
-- Layout
-- ---------------------------------------------------------------------------

theorem spaces_moved {spaces : List Token} (hs : ∀ s ∈ spaces, s.kind = .space) :
    ∀ s ∈ spaces.map (·.moved f), s.kind = .space := by
  simpa using hs

theorem Spaces.relaid (h : Spaces ts (t :: rest)) (ht : IsContent t.kind)
    (hr : Relaid f ts ts') : ∃ us, Spaces ts' us ∧ Relaid f (t :: rest) us := by
  obtain ⟨spaces, hs, rfl⟩ := h
  obtain ⟨us, rfl, content⟩ := hr.content_behind hs ht
  exact ⟨us, ⟨_, spaces_moved hs, rfl⟩, content⟩

theorem Separator.relaid (h : Separator ts (t :: rest)) (ht : IsContent t.kind)
    (hr : Relaid f ts ts') : ∃ us, Separator ts' us ∧ Relaid f (t :: rest) us := by
  obtain ⟨s, more, hs, rfl, spaces⟩ := h
  have ahead : Spaces (s :: more) (t :: rest) := Spaces.trans ⟨[s], by simpa using hs, rfl⟩ spaces
  obtain ⟨vs, rfl, others⟩ := hr.step ahead ht
  obtain ⟨us, spaces', content⟩ := spaces.relaid ht others
  exact ⟨us, ⟨s.moved f, _, hs, rfl, spaces'⟩, content⟩

theorem Indentation.spaces : Indentation ts rest → Spaces ts rest
  | ⟨spaces, _, hs, h⟩ => ⟨spaces, hs, h⟩

theorem Indentation.relaid (h : Indentation ts (t :: rest)) (ht : IsContent t.kind)
    (hr : Relaid f ts ts') : ∃ us, Indentation ts' us ∧ Relaid f (t :: rest) us := by
  obtain ⟨spaces, hn, hs, rfl⟩ := h
  obtain ⟨us, rfl, content⟩ := hr.content_behind hs ht
  exact ⟨us, ⟨_, (List.length_map _).trans hn, spaces_moved hs, rfl⟩, content⟩

theorem LineEnd.relaid (h : LineEnd ts rest) (hr : Relaid f ts ts') :
    ∃ us, LineEnd ts' us ∧ RelaidLines f rest us := by
  induction hr with
  | @token s _ _ hs _ _ ih =>
    obtain ⟨t, ht, spaces, hall, hts⟩ := h
    cases spaces with
    | nil =>
      cases hts
      rw [hs] at ht
      cases ht
    | cons s spaces =>
      cases hts
      obtain ⟨hs, hall⟩ := List.forall_mem_cons.mp hall
      obtain ⟨us, ⟨t', ht', spaces'⟩, hr⟩ := ih ⟨t, ht, spaces, hall, rfl⟩
      exact ⟨us, ⟨t', ht', Spaces.trans ⟨[_], by simpa using hs, rfl⟩ spaces'⟩, hr⟩
  | line line blank line' blank' hr _ =>
    obtain rfl := line.unique h
    exact ⟨_, line', _, _, blank, blank', hr⟩
  | stop stop hstop _ _ => exact ((begun_of_end stop hstop).not_lineEnd h).elim

theorem Relaid.input (hr : Relaid f ts ts') (h : Spaces ts (t :: rest))
    (ht : t.kind = .endOfInput) : rest = [] ∧ ∃ t', Spaces ts' [t'] ∧ t'.kind = .endOfInput := by
  induction hr with
  | @token s _ _ _ hs _ ih =>
    obtain ⟨spaces, hall, hts⟩ := h
    cases spaces with
    | nil =>
      cases hts
      exact (hs ht).elim
    | cons s spaces =>
      cases hts
      obtain ⟨hspace, hall⟩ := List.forall_mem_cons.mp hall
      obtain ⟨hrest, t', spaces', ht'⟩ := ih ⟨spaces, hall, rfl⟩
      exact ⟨hrest, t', Spaces.trans ⟨[_], by simpa using hspace, rfl⟩ spaces', ht'⟩
  | line line _ _ _ _ _ =>
    exact ((begun_of_end h ht).not_lineEnd line).elim
  | @stop _ _ _ t' stop hstop stop' hstop' =>
    obtain ⟨-, hrest⟩ := h.unique (by simp [ht]) stop (by simp [hstop])
    exact ⟨hrest, t', stop', hstop'⟩

theorem DefinitionEnd.relaid (h : DefinitionEnd ts rest) (hr : Relaid f ts ts') :
    ∃ us, DefinitionEnd ts' us ∧ RelaidLines f rest us := by
  cases h with
  | line line =>
    obtain ⟨us, line', hr⟩ := line.relaid hr
    exact ⟨us, .line line', hr⟩
  | input spaces ht =>
    obtain ⟨rfl, t', spaces', ht'⟩ := hr.input spaces ht
    exact ⟨[t'], .input spaces' ht', (Relaid.stop (.refl _) ht (.refl _) ht').lines⟩

theorem BodyStart.relaid (h : BodyStart ts rest) (hr : Relaid f ts ts') :
    ∃ us, BodyStart ts' us ∧ RelaidLines f rest us := by
  obtain ⟨t, mid, spaces, ht, line⟩ := h
  obtain ⟨_, spaces', here⟩ := spaces.relaid (content_of_kind ht rfl) hr
  obtain ⟨_, rfl, inner⟩ := here.content (content_of_kind ht rfl)
  obtain ⟨us, line', next⟩ := line.relaid inner
  exact ⟨us, ⟨_, _, spaces', ht, line'⟩, next⟩

theorem LineEnd.length_lt (h : LineEnd ts rest) : rest.length < ts.length := by
  obtain ⟨t, -, spaces⟩ := h
  exact Nat.lt_of_succ_le spaces.suffix.length_le

theorem BlankLines.relaid (h : BlankLines ts rest) (begun : Begun rest)
    (hr : RelaidLines f ts ts') : ∃ us, BlankLines ts' us ∧ Relaid f rest us := by
  induction hn : ts.length using Nat.strongRecOn generalizing ts ts' with
  | _ n ih =>
    obtain ⟨mid, us, blank, blank', hr⟩ := hr
    cases blank.between h begun with
    | none => exact ⟨us, blank', hr⟩
    | more line others =>
      obtain ⟨vs, line', hr⟩ := line.relaid hr
      have shorter := Nat.lt_of_lt_of_le line.length_lt blank.suffix.length_le
      obtain ⟨ws, others', hr⟩ := ih _ (hn ▸ shorter) others hr rfl
      exact ⟨ws, blank'.trans (.more line' others'), hr⟩

-- ---------------------------------------------------------------------------
-- Lists
-- ---------------------------------------------------------------------------

section
variable {α : Type} {close : Mark} {item line : Rule α} {as : List α} {g : α → α}

/-- What the rule allows begins with a token of content. -/
def BeginsWithContent (item : Rule α) : Prop :=
  ∀ ts a rest, item ts a rest → ∃ u more, ts = u :: more ∧ IsContent u.kind

/-- What the rule takes it takes from tokens that are laid out anew, and gives the same, moved. -/
def Survives (f : Location → Location) (g : α → α) (item : Rule α) : Prop :=
  ∀ ts a rest ts', item ts a rest → Relaid f ts ts' → ∃ us, item ts' (g a) us ∧ Relaid f rest us

theorem Items.relaid (h : Items close item ts as rest)
    (first : BeginsWithContent item)
    (inner : ∀ a ∈ as, ∀ ts t rest ts', item ts a (t :: rest) → IsContent t.kind →
      Relaid f ts ts' → ∃ us, item ts' (g a) us ∧ Relaid f (t :: rest) us)
    (hr : Relaid f ts ts') : ∃ us, Items close item ts' (as.map g) us ∧ Relaid f rest us := by
  induction h generalizing ts' with
  | last item ht =>
    obtain ⟨_, item', hr₁⟩ := inner _ (by simp) _ _ _ _ item (content_of_kind ht rfl) hr
    obtain ⟨us, rfl, hr₂⟩ := hr₁.content (content_of_kind ht rfl)
    exact ⟨us, .last item' ht, hr₂⟩
  | more item ht spaces others ih =>
    obtain ⟨_, item', hr₁⟩ := inner _ (by simp) _ _ _ _ item (content_of_kind ht rfl) hr
    obtain ⟨_, rfl, hr₂⟩ := hr₁.content (content_of_kind ht rfl)
    obtain ⟨a, -, _, second⟩ := Read.items_first others
    obtain ⟨_, _, rfl, hu⟩ := first _ a _ second
    obtain ⟨_, spaces', hr₃⟩ := spaces.relaid hu hr₂
    obtain ⟨us, others', hr₄⟩ := ih (fun a ha => inner a (List.mem_cons_of_mem _ ha)) hr₃
    exact ⟨us, .more item' ht spaces' others', hr₄⟩

theorem Body.relaid (h : Body line ts as rest)
    (first : BeginsWithContent line) (inner : Survives f g line)
    (hr : RelaidLines f ts ts') : ∃ us, Body line ts' (as.map g) us ∧ Relaid f rest us := by
  induction h generalizing ts' with
  | close blank ht =>
    obtain ⟨_, blank', hr₁⟩ :=
      blank.relaid (begun_of_content (.refl _) (content_of_kind ht rfl)) hr
    obtain ⟨us, rfl, hr₂⟩ := hr₁.content (content_of_kind ht rfl)
    exact ⟨us, .close blank' ht, hr₂⟩
  | line blank indent content lineEnd _ ih =>
    obtain ⟨u, more, rfl, hu⟩ := first _ _ _ content
    obtain ⟨_, blank', hr₁⟩ := blank.relaid (begun_of_content indent.spaces hu) hr
    obtain ⟨_, indent', hr₂⟩ := indent.relaid hu hr₁
    obtain ⟨_, content', hr₃⟩ := inner _ _ _ _ content hr₂
    obtain ⟨_, lineEnd', hr₄⟩ := lineEnd.relaid hr₃
    obtain ⟨us, others', hr₅⟩ := ih hr₄
    exact ⟨us, .line blank' indent' content' lineEnd' others', hr₅⟩

theorem Block.relaid (h : Block line ts as rest)
    (first : BeginsWithContent line) (inner : Survives f g line)
    (hr : Relaid f ts ts') : ∃ us, Block line ts' (as.map g) us ∧ RelaidLines f rest us := by
  obtain ⟨opening, body, ending⟩ := h
  obtain ⟨_, opening', hr₁⟩ := opening.relaid hr
  obtain ⟨_, body', hr₂⟩ := body.relaid first inner hr₁
  obtain ⟨us, ending', hr₃⟩ := ending.relaid hr₂
  exact ⟨us, .mk opening' body' ending', hr₃⟩

end

-- ---------------------------------------------------------------------------
-- Types and members
-- ---------------------------------------------------------------------------

theorem Name.relaid (h : Name ts t rest) (hr : Relaid f ts ts') :
    ∃ us, Name ts' (t.moved f) us ∧ Relaid f rest us := by
  obtain ⟨ht⟩ := h
  obtain ⟨us, rfl, hr₁⟩ := hr.content (content_of_kind ht rfl)
  exact ⟨us, .mk ht, hr₁⟩

theorem Name.first : BeginsWithContent Name := by
  rintro _ _ _ ⟨ht⟩
  exact ⟨_, _, rfl, content_of_kind ht rfl⟩

theorem Head.relaid {q : Option Token} {n : Token} (h : Head ts q n rest) (hr : Relaid f ts ts') :
    ∃ us, Head ts' (q.map (·.moved f)) (n.moved f) us ∧ Relaid f rest us := by
  cases h with
  | bare hn =>
    obtain ⟨us, rfl, hr₁⟩ := hr.content (content_of_kind hn rfl)
    exact ⟨us, .bare hn, hr₁⟩
  | qualified hq hdot hn =>
    obtain ⟨_, rfl, hr₁⟩ := hr.content (content_of_kind hq rfl)
    obtain ⟨_, rfl, hr₂⟩ := hr₁.content (content_of_kind hdot rfl)
    obtain ⟨us, rfl, hr₃⟩ := hr₂.content (content_of_kind hn rfl)
    exact ⟨us, .qualified hq hdot hn, hr₃⟩

theorem Reference.first : BeginsWithContent Reference := fun _ _ _ => Read.reference_content

theorem Reference.relaid {r : ReferenceSyntax} : ∀ {ts rest ts' : List Token},
    Reference ts r rest → Relaid f ts ts' →
      ∃ us, Reference ts' (r.moved f) us ∧ Relaid f rest us := by
  induction r using ReferenceSyntax.induction with
  | step q n arguments ih =>
    intro ts rest ts' h hr
    rw [ReferenceSyntax.moved]
    cases h with
    | plain head =>
      obtain ⟨us, head', hr₁⟩ := head.relaid hr
      exact ⟨us, .plain head', hr₁⟩
    | applied head ht items =>
      obtain ⟨_, head', hr₁⟩ := head.relaid hr
      obtain ⟨_, rfl, hr₂⟩ := hr₁.content (content_of_kind ht rfl)
      obtain ⟨us, items', hr₃⟩ := items.relaid Reference.first
        (fun a ha _ _ _ _ item _ => ih a ha item) hr₂
      exact ⟨us, .applied head' ht items', hr₃⟩

theorem TypeExpr.relaid {type : TypeSyntax} (h : TypeExpr ts type rest) (hr : Relaid f ts ts') :
    ∃ us, TypeExpr ts' (type.moved f) us ∧ Relaid f rest us := by
  induction h generalizing ts' with
  | literal ht =>
    obtain ⟨us, rfl, hr₁⟩ := hr.content (content_of_kind ht rfl)
    exact ⟨us, .literal ht, hr₁⟩
  | reference h =>
    obtain ⟨us, h', hr₁⟩ := h.relaid hr
    exact ⟨us, .reference h', hr₁⟩
  | slice hl hright _ ih =>
    obtain ⟨_, rfl, hr₁⟩ := hr.content (content_of_kind hl rfl)
    obtain ⟨_, rfl, hr₂⟩ := hr₁.content (content_of_kind hright rfl)
    obtain ⟨us, item, hr₃⟩ := ih hr₂
    exact ⟨us, .slice hl hright item, hr₃⟩
  | array hl hsize hright _ ih =>
    obtain ⟨_, rfl, hr₁⟩ := hr.content (content_of_kind hl rfl)
    obtain ⟨_, rfl, hr₂⟩ := hr₁.content (content_of_kind hsize rfl)
    obtain ⟨_, rfl, hr₃⟩ := hr₂.content (content_of_kind hright rfl)
    obtain ⟨us, item, hr₄⟩ := ih hr₃
    exact ⟨us, .array hl hsize hright item, hr₄⟩
  | pointer ht _ ih =>
    obtain ⟨_, rfl, hr₁⟩ := hr.content (content_of_kind ht rfl)
    obtain ⟨us, item, hr₂⟩ := ih hr₁
    exact ⟨us, .pointer ht item, hr₂⟩
  | optional ht _ ih =>
    obtain ⟨_, rfl, hr₁⟩ := hr.content (content_of_kind ht rfl)
    obtain ⟨us, item, hr₂⟩ := ih hr₁
    exact ⟨us, .optional ht item, hr₂⟩

theorem Field.relaid {m : Token × TypeSyntax} (h : Field ts m rest) (hr : Relaid f ts ts') :
    ∃ us, Field ts' (m.map (·.moved f) (·.moved f)) us ∧ Relaid f rest us := by
  obtain ⟨hn, hcolon, spaces, type⟩ := h
  obtain ⟨_, rfl, hr₁⟩ := hr.content (content_of_kind hn rfl)
  obtain ⟨_, rfl, hr₂⟩ := hr₁.content (content_of_kind hcolon rfl)
  obtain ⟨_, _, rfl, hu⟩ := Read.typeExpr_head type
  obtain ⟨_, spaces', hr₃⟩ := spaces.relaid hu hr₂
  obtain ⟨us, type', hr₄⟩ := type.relaid hr₃
  exact ⟨us, .mk hn hcolon spaces' type', hr₄⟩

theorem Tagged.relaid {α : Type} {inner : Rule α} {g : α → α} {m : Token × Option α}
    (h : Tagged inner ts m rest) (first : BeginsWithContent inner) (hi : Survives f g inner)
    (hr : Relaid f ts ts') :
    ∃ us, Tagged inner ts' (m.map (·.moved f) fun a? => a?.map g) us ∧ Relaid f rest us := by
  cases h with
  | bare hn =>
    obtain ⟨us, rfl, hr₁⟩ := hr.content (content_of_kind hn rfl)
    exact ⟨us, .bare hn, hr₁⟩
  | colon hn hcolon spaces content =>
    obtain ⟨_, rfl, hr₁⟩ := hr.content (content_of_kind hn rfl)
    obtain ⟨_, rfl, hr₂⟩ := hr₁.content (content_of_kind hcolon rfl)
    obtain ⟨_, _, rfl, hu⟩ := first _ _ _ content
    obtain ⟨_, spaces', hr₃⟩ := spaces.relaid hu hr₂
    obtain ⟨us, content', hr₄⟩ := hi _ _ _ _ content hr₃
    exact ⟨us, .colon hn hcolon spaces' content', hr₄⟩

theorem assigned_relaid {equals value : Token} (before : Spaces ts (equals :: mid))
    (hequals : equals.kind = .mark .equals) (after : Spaces mid (value :: rest))
    (hvalue : IsContent value.kind) (hr : Relaid f ts ts') :
    ∃ mid' us, Spaces ts' (equals.moved f :: mid') ∧ Spaces mid' (value.moved f :: us) ∧
      Relaid f rest us := by
  obtain ⟨_, before', hr₁⟩ := before.relaid (content_of_kind hequals rfl) hr
  obtain ⟨mid', rfl, hr₂⟩ := hr₁.content (content_of_kind hequals rfl)
  obtain ⟨_, after', hr₃⟩ := after.relaid hvalue hr₂
  obtain ⟨us, rfl, hr₄⟩ := hr₃.content hvalue
  exact ⟨mid', us, before', after', hr₄⟩

theorem Item.relaid {m : Token × Token} (h : Item ts m rest) (hr : Relaid f ts ts') :
    ∃ us, Item ts' (m.map (·.moved f) (·.moved f)) us ∧ Relaid f rest us := by
  obtain ⟨htag, before, hequals, after, hvalue⟩ := h
  obtain ⟨_, rfl, hr₁⟩ := hr.content (htag.elim (content_of_kind · rfl) (content_of_kind · rfl))
  obtain ⟨_, us, before', after', hr₂⟩ := assigned_relaid before hequals after
    (hvalue.elim (content_of_kind · rfl) (content_of_kind · rfl)) hr₁
  exact ⟨us, .mk htag before' hequals after' hvalue, hr₂⟩

-- ---------------------------------------------------------------------------
-- Parts of definitions
-- ---------------------------------------------------------------------------

theorem UnionOption.relaid {o : OptionSyntax} (h : UnionOption ts o rest) (hr : Relaid f ts ts') :
    ∃ us, UnionOption ts' (o.moved f) us ∧ Relaid f rest us := by
  cases h with
  | tag word before hequals after hfield =>
    obtain ⟨_, rfl, hr₁⟩ := hr.content (content_of_kind word.1 rfl)
    obtain ⟨_, us, before', after', hr₂⟩ := assigned_relaid before hequals after
      (content_of_kind hfield rfl) hr₁
    exact ⟨us, .tag word before' hequals after' hfield, hr₂⟩
  | embedded word =>
    obtain ⟨us, rfl, hr₁⟩ := hr.content (content_of_kind word.1 rfl)
    exact ⟨us, .embedded word, hr₁⟩

theorem SpacedOption.first : BeginsWithContent SpacedOption := by
  rintro _ _ _ ⟨option, -⟩
  obtain ⟨u, more, rfl, hu⟩ := Read.unionOption_head option
  exact ⟨u, more, rfl, content_of_kind hu rfl⟩

theorem UnionOptions.relaid {os : List OptionSyntax} (h : UnionOptions ts os rest)
    (hr : Relaid f ts ts') :
    ∃ us, UnionOptions ts' (os.map (·.moved f)) us ∧ Relaid f rest us := by
  cases h with
  | none => exact ⟨ts', .none, hr⟩
  | list ht spaces items =>
    obtain ⟨_, rfl, hr₁⟩ := hr.content (content_of_kind ht rfl)
    obtain ⟨o, -, _, option⟩ := Read.items_first items
    obtain ⟨_, _, rfl, hu⟩ := SpacedOption.first _ o _ option
    obtain ⟨_, spaces', hr₂⟩ := spaces.relaid hu hr₁
    obtain ⟨us, items', hr₃⟩ := items.relaid SpacedOption.first (g := OptionSyntax.moved f)
      (fun _ _ _ _ _ _ h ht hr => by
        -- the spaces behind an option are kept, since the list goes on behind them
        obtain ⟨option, spaces⟩ := h
        obtain ⟨_, option', hr₁⟩ := option.relaid hr
        obtain ⟨us, spaces', hr₂⟩ := spaces.relaid ht hr₁
        exact ⟨us, .mk option' spaces', hr₂⟩) hr₂
    exact ⟨us, .list ht spaces' items', hr₃⟩

theorem Parameters.relaid {names : List Token} (h : Parameters ts names rest)
    (hr : Relaid f ts ts') :
    ∃ us, Parameters ts' (names.map (·.moved f)) us ∧ Relaid f rest us := by
  cases h with
  | none => exact ⟨ts', .none, hr⟩
  | list ht items =>
    obtain ⟨_, rfl, hr₁⟩ := hr.content (content_of_kind ht rfl)
    obtain ⟨us, items', hr₂⟩ := items.relaid Name.first (fun _ _ _ _ _ _ h _ => h.relaid) hr₁
    exact ⟨us, .list ht items', hr₂⟩

theorem Qualifier.relaid {q : Option Token} (h : Qualifier ts q rest) (hr : Relaid f ts ts') :
    ∃ us, Qualifier ts' (q.map (·.moved f)) us ∧ Relaid f rest us := by
  cases h with
  | none => exact ⟨ts', .none, hr⟩
  | mk before hequals after hq =>
    obtain ⟨_, us, before', after', hr₁⟩ := assigned_relaid before hequals after
      (content_of_kind hq rfl) hr
    exact ⟨us, .mk before' hequals after' hq, hr₁⟩

theorem Heading.relaid {n : Token} (h : Heading ts n rest) (hr : Relaid f ts ts') :
    ∃ us, Heading ts' (n.moved f) us ∧ Relaid f rest us := by
  obtain ⟨before, hn⟩ := h
  obtain ⟨_, before', hr₁⟩ := before.relaid (content_of_kind hn rfl) hr
  obtain ⟨us, rfl, hr₂⟩ := hr₁.content (content_of_kind hn rfl)
  exact ⟨us, .mk before' hn, hr₂⟩

-- ---------------------------------------------------------------------------
-- Definitions
-- ---------------------------------------------------------------------------

theorem embedded_mem_moved {options : List OptionSyntax} :
    .embedded ∈ options.map (·.moved f) ↔ .embedded ∈ options := by
  rw [List.mem_map]
  constructor
  · rintro ⟨o, ho, h⟩
    cases o with
    | embedded => exact ho
    | tag _ => cases h
  · exact fun h => ⟨_, h, rfl⟩

theorem Definition.relaid {d : DefinitionSyntax} (h : Definition ts d rest)
    (hr : Relaid f ts ts') :
    ∃ us, Definition ts' (d.moved f) us ∧ RelaidLines f rest us := by
  cases h with
  | struct word heading parameters block =>
    obtain ⟨_, rfl, hr₁⟩ := hr.content (content_of_kind word.1 rfl)
    obtain ⟨_, heading', hr₂⟩ := heading.relaid hr₁
    obtain ⟨_, parameters', hr₃⟩ := parameters.relaid hr₂
    obtain ⟨us, block', hr₄⟩ := block.relaid (fun _ _ _ => Read.field_head)
      (fun _ _ _ _ h => h.relaid) hr₃
    exact ⟨us, .struct word heading' parameters' block', hr₄⟩
  | union word options hoptions heading parameters block =>
    obtain ⟨_, rfl, hr₁⟩ := hr.content (content_of_kind word.1 rfl)
    obtain ⟨_, options', hr₂⟩ := options.relaid hr₁
    obtain ⟨_, heading', hr₃⟩ := heading.relaid hr₂
    obtain ⟨_, parameters', hr₄⟩ := parameters.relaid hr₃
    obtain ⟨us, block', hr₅⟩ := block.relaid (fun _ _ _ => Read.tagged_content)
      (fun _ _ _ _ h => h.relaid (fun _ _ _ => Read.typeExpr_head) fun _ _ _ _ h => h.relaid) hr₄
    exact ⟨us, .union word options' (mt embedded_mem_moved.mp hoptions) heading' parameters' block',
      hr₅⟩
  | embedded word options hoptions heading parameters block =>
    obtain ⟨_, rfl, hr₁⟩ := hr.content (content_of_kind word.1 rfl)
    obtain ⟨_, options', hr₂⟩ := options.relaid hr₁
    obtain ⟨_, heading', hr₃⟩ := heading.relaid hr₂
    obtain ⟨_, parameters', hr₄⟩ := parameters.relaid hr₃
    obtain ⟨us, block', hr₅⟩ := block.relaid (fun _ _ _ => Read.tagged_content)
      (fun _ _ _ _ h => h.relaid Name.first fun _ _ _ _ h => h.relaid) hr₄
    exact ⟨us, .embedded word options' (embedded_mem_moved.mpr hoptions) heading' parameters'
      block', hr₅⟩
  | enum word heading block =>
    obtain ⟨_, rfl, hr₁⟩ := hr.content (content_of_kind word.1 rfl)
    obtain ⟨_, heading', hr₂⟩ := heading.relaid hr₁
    obtain ⟨us, block', hr₃⟩ := block.relaid (fun _ _ _ => Read.item_head)
      (fun _ _ _ _ h => h.relaid) hr₂
    exact ⟨us, .enum word heading' block', hr₃⟩
  | untagged word before second heading block =>
    obtain ⟨_, rfl, hr₁⟩ := hr.content (content_of_kind word.1 rfl)
    obtain ⟨_, before', hr₂⟩ := before.relaid (content_of_kind second.1 rfl) hr₁
    obtain ⟨_, rfl, hr₃⟩ := hr₂.content (content_of_kind second.1 rfl)
    obtain ⟨_, heading', hr₄⟩ := heading.relaid hr₃
    obtain ⟨us, block', hr₅⟩ := block.relaid Reference.first (fun _ _ _ _ h => h.relaid) hr₄
    exact ⟨us, .untagged word before' second heading' block', hr₅⟩
  | imports word before hmodule qualifier ending =>
    obtain ⟨_, rfl, hr₁⟩ := hr.content (content_of_kind word.1 rfl)
    obtain ⟨_, before', hr₂⟩ := before.relaid (content_of_kind hmodule rfl) hr₁
    obtain ⟨_, rfl, hr₃⟩ := hr₂.content (content_of_kind hmodule rfl)
    obtain ⟨_, qualifier', hr₄⟩ := qualifier.relaid hr₃
    obtain ⟨us, ending', hr₅⟩ := ending.relaid hr₄
    exact ⟨us, .imports word before' hmodule qualifier' ending', hr₅⟩

/-- Tokens that are laid out anew are a file with the same trees, moved. -/
theorem File.relaid {trees : List DefinitionSyntax} (h : File ts trees)
    (hr : RelaidLines f ts ts') : File ts' (trees.map (·.moved f)) := by
  induction h generalizing ts' with
  | done blank spaces ht =>
    obtain ⟨_, blank', hr₁⟩ := blank.relaid (begun_of_end spaces ht) hr
    obtain ⟨-, t', spaces', ht'⟩ := hr₁.input spaces ht
    exact .done blank' spaces' ht'
  | definition blank definition _ ih =>
    obtain ⟨t, _, rfl, ht, -⟩ := definition.suffix
    obtain ⟨_, blank', hr₁⟩ :=
      blank.relaid (begun_of_content (.refl _) (content_of_kind ht rfl)) hr
    obtain ⟨_, definition', hr₂⟩ := definition.relaid hr₁
    exact .definition blank' definition' (ih hr₂)

end TypeSchema.Grammar
