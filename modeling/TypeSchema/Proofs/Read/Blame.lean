import Mathlib.Data.List.TakeWhile
import TypeSchema.Proofs.Read.Advance
import TypeSchema.Proofs.Read.Definition

/-!
# Faults are about tokens that lie ahead

A reading that faults names a token that lay ahead of it, and says of that token what is so: it has
none of the expected kinds, its text is the name that means nothing, or an earlier member has the
same text. The readings are gone through once; what a fault tells is stated by `Fault.About`. Since
no reading takes an invalid token, the token that a fault names is not behind the first of those.
-/

namespace TypeSchema

-- ---------------------------------------------------------------------------
-- Tokens within reach
-- ---------------------------------------------------------------------------

/-- The tokens up to the first that is invalid, and that one. -/
def Token.upToInvalid : List Token → List Token
  | [] => []
  | t :: ts => if t.kind = .invalid then [t] else t :: upToInvalid ts

theorem Token.upToInvalid_append {passed : List Token} (h : ∀ t ∈ passed, t.kind ≠ .invalid)
    (ts : List Token) : upToInvalid (passed ++ ts) = passed ++ upToInvalid ts := by
  induction passed with
  | nil => rfl
  | cons t passed ih =>
    obtain ⟨ht, hpassed⟩ := List.forall_mem_cons.mp h
    rw [List.cons_append, upToInvalid, if_neg ht, ih hpassed, List.cons_append]

theorem Token.upToInvalid_prefix (ts : List Token) : upToInvalid ts <+: ts := by
  induction ts with
  | nil => exact List.prefix_rfl
  | cons t ts ih =>
    rw [upToInvalid]
    split
    next => exact ⟨ts, rfl⟩
    next => exact List.cons_prefix_cons.mpr ⟨rfl, ih⟩

namespace Cursor

/-- The tokens ahead that a reading can see. -/
def reach (c : Cursor) : List Token := Token.upToInvalid c.tokens

theorem peek_mem_reach (c : Cursor) : c.peek ∈ c.reach := by
  obtain ⟨t, rest, ht⟩ := List.exists_cons_of_ne_nil (by simp [tokens] : c.tokens ≠ [])
  rw [reach, ht, peek_of_tokens ht, Token.upToInvalid]
  split <;> simp

theorem reach_of_tokens {c d : Cursor} {t : Token} (h : c.tokens = t :: d.tokens)
    (ht : t.kind ≠ .invalid) : c.reach = t :: d.reach := by
  rw [reach, reach, h, Token.upToInvalid, if_neg ht]

theorem Leads.reach {c d : Cursor} (h : c.Leads d) : d.reach <:+ c.reach := by
  obtain ⟨passed, htokens, -, hpassed⟩ := h.passed
  rw [Cursor.reach, Cursor.reach, htokens, Token.upToInvalid_append hpassed]
  exact List.suffix_append ..

end Cursor

-- ---------------------------------------------------------------------------
-- What faults tell
-- ---------------------------------------------------------------------------

def firstWord (text : String) : String := String.ofList (text.toList.takeWhile (· ≠ ' '))

theorem firstWord_text {t : Token} (h : t.Spelled) (ht : t.kind = .symbol) :
    firstWord t.text = t.text := by
  rw [Token.Spelled, ht] at h
  obtain ⟨c, rest, htext, hc, hrest⟩ := h
  have first : c ≠ ' ' := by
    rintro rfl
    exact absurd hc (by decide)
  have others : ∀ d ∈ rest, d ≠ ' ' := by
    rintro d hd rfl
    exact absurd (hrest _ hd) (by decide)
  rw [firstWord, List.takeWhile_eq_self_iff.mpr ?_, String.ofList_toList]
  simpa [htext] using ⟨first, others⟩

theorem firstWord_untagged (second : String) :
    firstWord ("untagged " ++ second) = firstWord Definition.Kind.untagged.keyword := by
  rw [firstWord, String.toList_append]
  rfl

/-- The token begins a definition of the kind. -/
def Token.Introduces (t : Token) (kind : Definition.Kind) : Prop :=
  Grammar.Keyword (firstWord kind.keyword) t

/-- Of the tokens `ts`, only `us` are left, and `t` is not among them. -/
def Token.Behind (t : Token) (ts us : List Token) : Prop := ∃ vs, t :: vs <:+ ts ∧ us <:+ vs

theorem Token.Behind.mono {t : Token} {ts us us' : List Token} (h : t.Behind ts us)
    (hus : us' <:+ us) : t.Behind ts us' := by
  obtain ⟨vs, hvs, hsuffix⟩ := h
  exact ⟨vs, hvs, hus.trans hsuffix⟩

def Token.IsIdentifier (t : Token) : Prop := t.kind = .symbol ∨ t.kind = .name

/-- The fault tells of tokens among `ts`, and of what is known in `ctx`. The names that it tells are
identifiers. -/
inductive Fault.About (ts : List Token) (ctx : Context) : Fault → Prop
  | unexpected {expected t} : t ∈ ts → t.kind ∉ expected → About ts ctx (.unexpected expected t)
  | keyword {t} : t ∈ ts → t.kind = .symbol → About ts ctx (.unknownKeyword t.text t.location)
  | untagged {t u more us} : t :: more <:+ ts → t.Introduces .untagged →
      Grammar.Separator more (u :: us) → u.kind = .symbol →
      About ts ctx (.unknownKeyword ("untagged " ++ u.text) t.location)
  | option {t} : t ∈ ts → t.IsIdentifier → About ts ctx (.unknownOption t.text t.location)
  | parameter {t} : t ∈ ts → t.IsIdentifier → About ts ctx (.repeatedParameter t.text t.location)
  | payload {t found} : t ∈ ts → t.IsIdentifier →
      About ts ctx (.unsuitablePayload t.text found t.location)
  | reference {t} : t ∈ ts → t.IsIdentifier → About ts ctx (.unknownReference t.text t.location)
  | qualified {q dot n rest} : q :: dot :: n :: rest <:+ ts → q.IsIdentifier →
      dot.kind = .mark .period → n.IsIdentifier →
      About ts ctx (.unknownReference (q.text ++ "." ++ n.text) q.location)
  | module {t} : t ∈ ts → t.IsIdentifier → About ts ctx (.unknownModule t.text t.location)
  | definition {name t kind d} : t ∈ ts → t.Introduces kind → ctx.accepted.get? name = some d →
      About ts ctx (.repeatedDefinition name t.location d.location)
  | member {t u : Token} {us x} : u :: us <:+ ts → u.IsIdentifier → t.Behind ts (u :: us) →
      t.text = u.text → About ts ctx (.repeatedMember u.text x u.location t.location)
  | reserved {t} : t ∈ ts → t.IsIdentifier → About ts ctx (.reservedName t.text t.location)

theorem Grammar.Separator.append {ts rest : List Token} (h : Separator ts rest)
    (more : List Token) : Separator (ts ++ more) (rest ++ more) := by
  obtain ⟨t, _, hk, rfl, spaces, hspaces, rfl⟩ := h
  exact ⟨t, spaces ++ (rest ++ more), hk, by simp, spaces, hspaces, rfl⟩

theorem Cursor.separator_reach {c d : Cursor} (h : Grammar.Separator c.tokens d.tokens) :
    Grammar.Separator c.reach d.reach := by
  obtain ⟨t, _, hk, hc, spaces, hspaces, rfl⟩ := h
  have valid {t : Token} (hk : t.kind = .space) : t.kind ≠ .invalid := by
    rw [hk]
    decide
  refine ⟨t, spaces ++ d.reach, hk, ?_, spaces, hspaces, rfl⟩
  rw [reach, hc, Token.upToInvalid, if_neg (valid hk),
    Token.upToInvalid_append fun s hs => valid (hspaces s hs), reach]

theorem Fault.About.append {ts : List Token} {ctx : Context} {f : Fault} (h : f.About ts ctx)
    (more : List Token) : f.About (ts ++ more) ctx := by
  have longer {us : List Token} (h : us <:+ ts) : us ++ more <:+ ts ++ more := by
    obtain ⟨before, rfl⟩ := h
    exact ⟨before, by simp⟩
  have mem {t : Token} (ht : t ∈ ts) : t ∈ ts ++ more := List.mem_append_left more ht
  cases h with
  | unexpected ht hk => exact .unexpected (mem ht) hk
  | keyword ht hk => exact .keyword (mem ht) hk
  | untagged hts hkind spaces hk => exact .untagged (longer hts) hkind (spaces.append more) hk
  | option ht hk => exact .option (mem ht) hk
  | parameter ht hk => exact .parameter (mem ht) hk
  | payload ht hk => exact .payload (mem ht) hk
  | reference ht hk => exact .reference (mem ht) hk
  | qualified hts hq hdot hn => exact .qualified (longer hts) hq hdot hn
  | module ht hk => exact .module (mem ht) hk
  | definition ht hkind hd => exact .definition (mem ht) hkind hd
  | @member t u us x hts hk behind hsame =>
    obtain ⟨vs, hvs, hus⟩ := behind
    obtain ⟨between, rfl⟩ := hus
    exact .member (longer hts) hk ⟨_, longer hvs, between, by simp⟩ hsame
  | reserved ht hk => exact .reserved (mem ht) hk

namespace Read

open Grammar (Keyword)

variable {α β σ : Type} {ts us : List Token} {ctx : Context} {c d : Cursor} {t keyword : Token}

/-- From `c` on, the reading stays among `ts`, and faults only about them. -/
def BlamesAt (ts : List Token) (ctx : Context) (r : Read α) (c : Cursor) : Prop :=
  match r c with
  | .ok _ d => d.reach <:+ ts
  | .error f _ => f.About ts ctx

/-- The reading stays among `ts` and faults only about them, if it begins there. -/
def Blames (ts : List Token) (ctx : Context) (r : Read α) : Prop :=
  ∀ c : Cursor, c.reach <:+ ts → BlamesAt ts ctx r c

theorem Blames.fault {r : Read α} {f : Fault} (h : Blames ts ctx r) (hc : c.reach <:+ ts)
    (hr : r c = .error f d) : f.About ts ctx := by
  have blames := h c hc
  unfold BlamesAt at blames
  rwa [hr] at blames

theorem BlamesAt.of_eq {r r' : Read α} (hr : r c = r' c) (h : BlamesAt ts ctx r' c) :
    BlamesAt ts ctx r c := by
  unfold BlamesAt
  rwa [hr]

theorem BlamesAt.bind {x : Read α} {f : α → Read β} (hx : BlamesAt ts ctx x c)
    (hf : ∀ a d, x c = .ok a d → d.reach <:+ ts → BlamesAt ts ctx (f a) d) :
    BlamesAt ts ctx (x >>= f) c := by
  unfold BlamesAt at hx ⊢
  show match EStateM.bind x f c with
    | .ok _ d => d.reach <:+ ts
    | .error f _ => f.About ts ctx
  unfold EStateM.bind
  cases hc : x c with
  | error fault d =>
    rw [hc] at hx
    exact hx
  | ok a d =>
    rw [hc] at hx
    exact hf a d hc hx

theorem Blames.bind {x : Read α} {f : α → Read β} (hx : Blames ts ctx x)
    (hf : ∀ a, Blames ts ctx (f a)) : Blames ts ctx (x >>= f) :=
  fun c hc => (hx c hc).bind fun a d _ hd => hf a d hd

theorem pure_blames (a : α) : Blames ts ctx (pure a : Read α) := fun _ hc => hc

theorem BlamesAt.map {x : Read α} (f : α → β) (hx : BlamesAt ts ctx x c) :
    BlamesAt ts ctx (f <$> x) c := by
  rw [map_eq_pure_bind]
  exact hx.bind fun _ d _ hd => pure_blames _ d hd

theorem Blames.map {x : Read α} (f : α → β) (hx : Blames ts ctx x) : Blames ts ctx (f <$> x) :=
  fun c hc => (hx c hc).map f

theorem throw_blames {f : Fault} (h : f.About ts ctx) : Blames ts ctx (throw f : Read α) :=
  fun _ _ => h

theorem ite_blames {p : Prop} [Decidable p] {x y : Read α} (hx : p → Blames ts ctx x)
    (hy : ¬p → Blames ts ctx y) : Blames ts ctx (if p then x else y) := by
  split
  next h => exact hx h
  next h => exact hy h

theorem ofExcept_blames {x : Except Fault α} (h : ∀ f, x = .error f → f.About ts ctx) :
    Blames ts ctx (ofExcept x) := by
  cases x with
  | ok a => exact pure_blames a
  | error f => exact throw_blames (h f rfl)

theorem Advances.blames {r : Read α} (h : Advances r) (hr : ∀ c, ∃ a d, r c = .ok a d) :
    Blames ts ctx r := by
  intro c hc
  obtain ⟨a, d, hd⟩ := hr c
  unfold BlamesAt
  rw [hd]
  exact (h.ok hd).reach.trans hc

theorem peek_blames : Blames ts ctx peek := peek_advances.blames fun _ => ⟨_, _, rfl⟩

theorem atEnd_blames : Blames ts ctx atEnd := atEnd_advances.blames fun _ => ⟨_, _, rfl⟩

theorem next_blamesAt (hc : c.reach <:+ ts) (h : c.peek.kind ≠ .invalid) :
    BlamesAt ts ctx next c := (Cursor.leads_next h).reach.trans hc

theorem skipSpaces_blames : Blames ts ctx skipSpaces :=
  skipSpaces_advances.blames fun _ => ⟨_, _, rfl⟩

theorem skipBlankLines_blames : Blames ts ctx skipBlankLines :=
  skipBlankLines_advances.blames fun _ => ⟨_, _, rfl⟩

theorem unexpected_blamesAt {kinds : List Token.Kind} (hc : c.reach <:+ ts)
    (hk : c.peek.kind ∉ kinds) : BlamesAt ts ctx (unexpected kinds : Read α) c :=
  .unexpected (hc.subset c.peek_mem_reach) hk

theorem expectOneOf_blames {kinds : List Token.Kind} (hv : .invalid ∉ kinds) :
    Blames ts ctx (expectOneOf kinds) := by
  intro c hc
  by_cases h : c.peek.kind ∈ kinds
  · exact .of_eq (if_pos h) (next_blamesAt hc fun hk => hv (hk ▸ h))
  · exact .of_eq (if_neg h) (unexpected_blamesAt hc h)

theorem expect_blames {kind : Token.Kind} (hv : kind ≠ .invalid) : Blames ts ctx (expect kind) :=
  expectOneOf_blames (by simpa using hv.symm)

theorem BlamesAt.take {kinds : List Token.Kind} (hn : .endOfInput ∉ kinds ∧ .invalid ∉ kinds)
    {f : Token → Read β} (hc : c.reach <:+ ts)
    (hf : ∀ t d, t.kind ∈ kinds → c.reach = t :: d.reach → d.reach <:+ ts →
      BlamesAt ts ctx (f t) d) : BlamesAt ts ctx (expectOneOf kinds >>= f) c := by
  refine (expectOneOf_blames hn.2 c hc).bind fun t d ht hd => ?_
  obtain ⟨hk, htokens⟩ := expectOneOf_tokens hn.1 ht
  exact hf t d hk (Cursor.reach_of_tokens htokens fun hv => hn.2 (hv ▸ hk)) hd

theorem Blames.take {kinds : List Token.Kind} (hn : .endOfInput ∉ kinds ∧ .invalid ∉ kinds)
    {f : Token → Read β}
    (hf : ∀ t ∈ ts, t.kind ∈ kinds → Blames ts ctx (f t)) :
    Blames ts ctx (expectOneOf kinds >>= f) :=
  fun _ hc => BlamesAt.take hn hc fun t _ hk htokens hd =>
    hf t (hc.subset (htokens ▸ List.mem_cons_self)) hk _ hd

/-- What each round keeps, if the calls in it keep it, where `P` tells when a round may begin. -/
theorem fix_blamesAt {f : (σ → Read α) → σ → Read α} {P : σ → Cursor → Prop}
    (hP : ∀ s c, P s c → c.reach <:+ ts)
    (step : ∀ again, (∀ s c, P s c → BlamesAt ts ctx (again s) c) → ∀ s c, P s c →
      BlamesAt ts ctx (f again s) c)
    {s : σ} (h : P s c) : BlamesAt ts ctx (fix f s) c := by
  induction hn : c.remaining using Nat.strongRecOn generalizing s c with
  | _ n ih =>
    -- a call without progress faults as well, and expects nothing
    refine .of_eq (fix_eq f s c) (step _ (fun s d hd => ?_) s c h)
    by_cases hlt : d.remaining < c.remaining
    · exact .of_eq (if_pos hlt) (ih _ (hn ▸ hlt) hd rfl)
    · exact .of_eq (if_neg hlt) (unexpected_blamesAt (hP s d hd) List.not_mem_nil)

theorem recursive_blames {f : Read α → Read α}
    (step : ∀ again, Blames ts ctx again → Blames ts ctx (f again)) :
    Blames ts ctx (recursive f) :=
  fun _ hc => fix_blamesAt (P := fun _ c => c.reach <:+ ts) (fun _ _ h => h)
    (fun again ih _ c h => step (again ()) (fun c hc => ih () c hc) c h) hc

-- ---------------------------------------------------------------------------
-- Layout
-- ---------------------------------------------------------------------------

theorem separator_blames : Blames ts ctx separator :=
  (expect_blames (by decide)).bind fun _ => skipSpaces_blames

theorem lineEnd_blames : Blames ts ctx lineEnd :=
  skipSpaces_blames.bind fun _ => (expectOneOf_blames (by decide)).bind fun _ => pure_blames ()

theorem definitionEnd_blames : Blames ts ctx definitionEnd :=
  skipSpaces_blames.bind fun _ => (expectOneOf_blames (by decide)).bind fun _ => pure_blames ()

theorem bodyStart_blames : Blames ts ctx bodyStart :=
  skipSpaces_blames.bind fun _ => (expect_blames (by decide)).bind fun _ => lineEnd_blames

theorem takeMark_blames (mark : Mark) : Blames ts ctx (takeMark mark) :=
  (takeMark_advances mark).blames fun _ => ⟨_, _, takeMark_ok.mpr ⟨rfl, rfl⟩⟩

theorem bodyEnd_blames : Blames ts ctx bodyEnd :=
  skipBlankLines_blames.bind fun _ => takeMark_blames _

theorem skipMany_blames {kind : Token.Kind} (hv : kind ≠ .invalid) :
    ∀ n, Blames ts ctx (skipMany kind n)
  | 0 => pure_blames ()
  | n + 1 => (expect_blames hv).bind fun _ =>
    ite_blames (fun _ => pure_blames ()) fun _ => skipMany_blames hv n

theorem items_blames {close : Mark} {item : Array α → Read α} (h : ∀ is, Blames ts ctx (item is)) :
    Blames ts ctx (items close item) := by
  intro c hc
  refine fix_blamesAt (P := fun _ c => c.reach <:+ ts) (fun _ _ h => h) ?_ hc
  intro again ih is c hc
  refine (h is |>.bind fun i => (expectOneOf_blames (by simp)).bind fun mark => ?_) c hc
  exact ite_blames (fun _ => pure_blames _) fun _ => skipSpaces_blames.bind fun _ => ih _

theorem afterColon?_blames {inner : Read α} (h : Blames ts ctx inner) :
    Blames ts ctx (afterColon? inner) :=
  (takeMark_blames _).bind fun _ => ite_blames
    (fun _ => skipSpaces_blames.bind fun _ => h.bind fun _ => pure_blames _) fun _ => pure_blames _

/-- The members of a body are read with the tokens of those before them at hand. `P` tells where a
member may be read after others, and stays so when the cursor goes on. -/
theorem body_blames {member : Array α → Read α} {P : α → List Token → Prop}
    (mono : ∀ a us us', P a us → us' <:+ us → P a us')
    (hm : ∀ members c, c.reach <:+ ts → (∀ m ∈ members, P m c.reach) →
      BlamesAt ts ctx (member members) c)
    (hP : ∀ members c m d, c.reach <:+ ts → member members c = .ok m d → P m d.reach)
    (advances : ∀ members, Advances (member members)) : Blames ts ctx (body member) := by
  intro c hc
  refine fix_blamesAt (P := fun members c => c.reach <:+ ts ∧ ∀ m ∈ members, P m c.reach)
    (fun _ _ h => h.1) ?_ ⟨hc, by simp⟩
  -- the members read so far carry `P` through a round: over the line, then with its own member
  rintro again ih members c ⟨hc, hmembers⟩
  refine (bodyEnd_blames c hc).bind fun closed d hd htokens => ?_
  have afterEnd := (skipBlankLines_advances.bind fun _ => takeMark_advances _).ok hd
  split
  · exact pure_blames _ d htokens
  refine (skipMany_blames (by decide) _ d htokens).bind fun _ d₁ hd₁ htokens₁ => ?_
  have here := afterEnd.trans ((skipMany_advances (by decide) _).ok hd₁)
  have before : ∀ m ∈ members, P m d₁.reach := fun m hmem =>
    mono m _ _ (hmembers m hmem) here.reach
  refine (hm members d₁ htokens₁ before).bind fun m d₂ hd₂ htokens₂ => ?_
  refine (lineEnd_blames d₂ htokens₂).bind fun _ d₃ hd₃ htokens₃ => ?_
  have line := lineEnd_advances.ok hd₃
  have past := ((advances members).ok hd₂).trans line
  refine ih _ d₃ ⟨htokens₃, fun m' hmem => ?_⟩
  rcases Array.mem_push.mp hmem with hmem | rfl
  · exact mono m' _ _ (before m' hmem) past.reach
  · exact mono m' _ _ (hP members d₁ m' d₂ htokens₁ hd₂) line.reach

-- ---------------------------------------------------------------------------
-- Names
-- ---------------------------------------------------------------------------

def Loaded (ctx : Context) : Prop := ∀ q m, ctx.aliases.lookup q = some m → ctx.library.contains m

theorem resolve_about {scope : Scope} {f : Fault} (ht : t ∈ ts) (hk : t.IsIdentifier)
    (h : scope.resolve t = .error f) : f.About ts ctx := by
  unfold Scope.resolve at h
  split at h
  next => cases h
  next =>
    split at h
    next => cases h
    next =>
      split at h
      next => cases h
      next =>
        split at h
        next => cases h
        next =>
          cases h
          exact .reference ht hk

theorem resolveQualified_about (hl : Loaded ctx) {q dot n : Token} {f : Fault}
    (htokens : q :: dot :: n :: us <:+ ts) (hq : q.IsIdentifier) (hdot : dot.kind = .mark .period)
    (hn : n.IsIdentifier) (h : ctx.resolveQualified q n = .error f) : f.About ts ctx := by
  simp only [Context.resolveQualified] at h
  split at h
  next hmodule =>
    cases h
    have itself : ctx.moduleName q.text = q.text := by
      cases ha : ctx.aliases.lookup q.text with
      | none => rw [Context.moduleName, ha, Option.getD_none]
      | some m =>
        have hm := hl _ _ ha
        rw [Context.moduleName, ha, Option.getD_some] at hmodule
        rw [Library.contains_eq, hmodule] at hm
        cases hm
    rw [itself]
    exact .module (htokens.subset List.mem_cons_self) hq
  next =>
    split at h
    next =>
      cases h
      exact .qualified htokens hq hdot hn
    next => cases h

theorem checkFree_about {kind : Definition.Kind} (hkeyword : keyword ∈ ts)
    (hkind : keyword.Introduces kind) (ht : t ∈ ts) (hk : t.IsIdentifier) {f : Fault}
    (h : ctx.checkFree t keyword.location = .error f) : f.About ts ctx := by
  unfold Context.checkFree at h
  split at h
  next =>
    cases h
    exact .reserved ht hk
  next =>
    split at h
    next hd =>
      cases h
      exact .definition hkeyword hkind hd
    next => cases h

theorem payload_about (ht : t ∈ ts) (hk : t.IsIdentifier) {f : Fault}
    (h : ctx.payload t = .error f) : f.About ts ctx := by
  unfold Context.payload at h
  split at h
  next =>
    cases h
    exact .payload ht hk
  next =>
    split at h
    next =>
      cases h
      exact .reference ht hk
    next =>
      split at h
      next =>
        cases h
        exact .payload ht hk
      next => cases h

theorem freshName_blames {kind : Definition.Kind} (hkeyword : keyword ∈ ts)
    (hkind : keyword.Introduces kind) : Blames ts ctx (freshName ctx keyword.location) := by
  refine separator_blames.bind fun _ => Blames.take (by decide) fun n hn hk => ?_
  have word : n.IsIdentifier := .inr (by simpa using hk)
  exact (ofExcept_blames fun _ => checkFree_about hkeyword hkind hn word).bind fun _ =>
    pure_blames _

theorem parameters_blames : Blames ts ctx parameters := by
  refine (takeMark_blames _).bind fun _ => ite_blames (fun _ => items_blames fun earlier => ?_)
    fun _ => pure_blames _
  refine Blames.take (by decide) fun n hn hk => ite_blames (fun _ => ?_) fun _ => pure_blames _
  exact (throw_blames (.parameter hn (.inr (by simpa using hk)))).bind fun _ => pure_blames _

-- ---------------------------------------------------------------------------
-- Types
-- ---------------------------------------------------------------------------

section
variable (hl : Loaded ctx) {x : String} {parameters : List String}
include hl

theorem referenceHead_blames :
    Blames ts ctx (referenceHead { ctx with name := x, parameters }) := by
  intro c hc
  refine BlamesAt.take (by decide) hc fun q d hq htokens hd => ?_
  have word : q.IsIdentifier := by simpa [Token.IsIdentifier, or_comm] using hq
  split
  next =>
    refine BlamesAt.take (by decide) hd fun dot d₁ hdot htokens₁ hd₁ => ?_
    refine BlamesAt.take (by decide) hd₁ fun n d₂ hn htokens₂ hd₂ => ?_
    rw [htokens, htokens₁, htokens₂] at hc
    exact ofExcept_blames (fun _ => resolveQualified_about hl hc word (by simpa using hdot)
      (.inr (by simpa using hn))) d₂ hd₂
  next =>
    have hmem : q ∈ ts := hc.subset (htokens ▸ List.mem_cons_self)
    exact ofExcept_blames (fun _ => resolve_about hmem word) d hd

theorem reference_blames : Blames ts ctx (reference { ctx with name := x, parameters }) := by
  refine recursive_blames fun again ih => ?_
  refine (referenceHead_blames hl).bind fun _ => (takeMark_blames _).bind fun _ =>
    ite_blames (fun _ => ?_) fun _ => pure_blames _
  exact (items_blames fun _ => ih.map _).bind fun _ => pure_blames _

variable (hs : ∀ t ∈ ts, t.Spelled)
include hs

omit hl in
theorem arraySize_blames : Blames ts ctx arraySize := by
  refine Blames.take (by decide) fun size hsize hkind => ?_
  have spelled := hs size hsize
  rw [Token.Spelled, show size.kind = .natural by simpa using hkind] at spelled
  obtain ⟨n, hn⟩ := Option.isSome_iff_exists.mp spelled
  rw [hn]
  exact pure_blames n

theorem typeExpr_blames : Blames ts ctx (typeExpr { ctx with name := x, parameters }) := by
  refine recursive_blames fun again ih c hc => ?_
  refine (peek_blames c hc).bind fun t d hd hdt => ?_
  obtain ⟨rfl, rfl⟩ := peek_ok.mp hd
  generalize hkind : c.peek.kind = kind
  have first (hk : kind ≠ .invalid) : BlamesAt ts ctx next c := next_blamesAt hc (hkind ▸ hk)
  split
  next => exact (first (by decide)).bind fun _ d _ hd => pure_blames _ d hd
  next => exact ((reference_blames hl).bind fun _ => pure_blames _) c hc
  next => exact ((reference_blames hl).bind fun _ => pure_blames _) c hc
  next =>
    refine (first (by decide)).bind fun _ d _ hd => ((takeMark_blames _).bind fun _ => ?_) d hd
    refine ite_blames (fun _ => ih.bind fun _ => pure_blames _) fun _ => ?_
    exact (arraySize_blames hs).bind fun _ => (expect_blames (by decide)).bind fun _ =>
      ih.bind fun _ => pure_blames _
  next => exact (first (by decide)).bind fun _ d _ hd => (ih.bind fun _ => pure_blames _) d hd
  next => exact (first (by decide)).bind fun _ d _ hd => (ih.bind fun _ => pure_blames _) d hd
  next =>
    refine unexpected_blamesAt hc ?_
    rw [hkind]
    simp_all [typeStart]

end

-- ---------------------------------------------------------------------------
-- Lines of a body
-- ---------------------------------------------------------------------------

theorem freshMember_blamesAt {x : String} {members : Array (Token × α)} (hk : t.IsIdentifier)
    (hbefore : ∀ m ∈ members, m.1.Behind ts (t :: c.reach)) (hc : t :: c.reach <:+ ts) :
    BlamesAt ts ctx (freshMember x members t) c := by
  have tail := (List.suffix_cons ..).trans hc
  unfold freshMember
  split
  next m other hm =>
    have same : m.text = t.text := by simpa using Array.find?_some hm
    exact throw_blames (.member hc hk (hbefore _ (Array.mem_of_find?_eq_some hm)) same) c tail
  next => exact pure_blames () c tail

theorem lines_blames (kinds : List Token.Kind) (words : kinds ⊆ [.symbol, .name]) {x : String}
    {inner : Token → Read (Token × α)} (hinner : ∀ n, Blames ts ctx (inner n))
    (advances : ∀ n, Advances (inner n))
    (name : ∀ n c entry d, inner n c = .ok entry d → entry.1 = n) :
    Blames ts ctx (body fun earlier => do
      let n ← expectOneOf kinds
      freshMember x earlier n
      inner n) := by
  have hn : .endOfInput ∉ kinds ∧ .invalid ∉ kinds :=
    ⟨fun h => by simpa using words h, fun h => by simpa using words h⟩
  refine body_blames (P := fun entry us => entry.1.Behind ts us) (fun _ _ _ h => h.mono) ?_ ?_ ?_
  · intro earlier c hc hbefore
    refine BlamesAt.take hn hc fun n d hk htokens hd => ?_
    have word : n.IsIdentifier := by simpa [Token.IsIdentifier] using words hk
    rw [htokens] at hc hbefore
    exact (freshMember_blamesAt word hbefore hc).bind fun _ d' _ hd' => hinner n d' hd'
  · intro earlier c entry e hc h
    obtain ⟨n, d, hn', h⟩ := bind_ok.mp h
    obtain ⟨_, d', hfresh, h⟩ := bind_ok.mp h
    obtain ⟨-, rfl⟩ := freshMember_ok.mp hfresh
    obtain ⟨hk, htokens⟩ := expectOneOf_tokens hn.1 hn'
    rw [Cursor.reach_of_tokens htokens fun hv => hn.2 (hv ▸ hk)] at hc
    rw [name n _ _ _ h]
    exact ⟨d.reach, hc, ((advances n).ok h).reach⟩
  · exact fun earlier => (expectOneOf_advances hn.2).bind fun n =>
      (freshMember_advances _ _ _).bind fun _ => advances n

-- ---------------------------------------------------------------------------
-- Definitions
-- ---------------------------------------------------------------------------

theorem unionOptions_blames : Blames ts ctx unionOptions := by
  refine (takeMark_blames _).bind fun _ => ite_blames (fun _ => ?_) fun _ => pure_blames _
  refine skipSpaces_blames.bind fun _ => items_blames fun _ => Blames.bind ?_ fun _ =>
    skipSpaces_blames.bind fun _ => pure_blames _
  refine Blames.take (by decide) fun option hoption hk => ?_
  split
  · exact skipSpaces_blames.bind fun _ => (expect_blames (by decide)).bind fun _ =>
      skipSpaces_blames.bind fun _ => (expect_blames (by decide)).bind fun _ => pure_blames _
  · exact pure_blames _
  · exact throw_blames (.option hoption (.inl (by simpa using hk)))

theorem enumValue_blames (hs : ∀ t ∈ ts, t.Spelled) : Blames ts ctx enumValue := by
  intro c hc
  refine (peek_blames c hc).bind fun t d hd _ => ?_
  obtain ⟨rfl, rfl⟩ := peek_ok.mp hd
  generalize hkind : c.peek.kind = kind
  have first (hk : kind ≠ .invalid) : BlamesAt ts ctx next c := next_blamesAt hc (hkind ▸ hk)
  split
  next => exact (first (by decide)).bind fun _ d _ hd => pure_blames _ d hd
  next =>
    have spelled := hs c.peek (hc.subset c.peek_mem_reach)
    rw [Token.Spelled, hkind] at spelled
    obtain ⟨n, hn⟩ := Option.isSome_iff_exists.mp spelled
    simp only [hn]
    exact (first (by decide)).bind fun _ d _ hd => pure_blames _ d hd
  next =>
    refine unexpected_blamesAt hc ?_
    rw [hkind]
    simp_all

theorem qualifier_mem {module q : Token} (hmodule : module ∈ ts) (hk : module.kind = .symbol)
    (hc : c.reach <:+ ts) (h : qualifier module c = .ok q d) : q ∈ ts ∧ q.kind = .symbol := by
  obtain ⟨_, d₁, hspaces, h⟩ := bind_ok.mp h
  obtain ⟨equals, d₂, hequals, h⟩ := bind_ok.mp h
  cases equals with
  | false => exact (pure_ok.mp h).1 ▸ ⟨hmodule, hk⟩
  | true =>
    obtain ⟨_, d₃, hspaces', h⟩ := bind_ok.mp h
    obtain ⟨hq, rfl, -⟩ := expectOneOf_ok.mp h
    have leads := ((skipSpaces_advances.ok hspaces).trans ((takeMark_advances _).ok hequals)).trans
      (skipSpaces_advances.ok hspaces')
    exact ⟨hc.subset (leads.reach.subset d₃.peek_mem_reach), by simpa using hq⟩

section
variable (hl : Loaded ctx) (hs : ∀ t ∈ ts, t.Spelled)
include hl hs

theorem fields_blames {x : String} {parameters : List String} :
    Blames ts ctx (body (fieldEntry { ctx with name := x, parameters })) := by
  refine lines_blames [.symbol] (by decide) (fun n => ?_) (fun n => ?_) ?_
  · exact (expect_blames (by decide)).bind fun _ => skipSpaces_blames.bind fun _ =>
      (typeExpr_blames hl hs).bind fun _ => pure_blames _
  · exact (expect_advances (by decide)).bind fun _ => skipSpaces_advances.bind fun _ =>
      (typeExpr_advances _).bind fun _ => pure_advances _
  · intro n c entry d h
    obtain ⟨_, _, _, h⟩ := bind_ok.mp h
    obtain ⟨_, _, _, h⟩ := bind_ok.mp h
    obtain ⟨_, _, _, h⟩ := bind_ok.mp h
    exact (pure_ok.mp h).1 ▸ rfl

theorem constructors_blames {x : String} {parameters : List String} :
    Blames ts ctx (body (constructorEntry { ctx with name := x, parameters })) := by
  refine lines_blames [.name] (by decide) (fun n => ?_) (fun n => ?_) ?_
  · exact (afterColon?_blames (typeExpr_blames hl hs)).bind fun _ => pure_blames _
  · exact (afterColon?_advances (typeExpr_advances _)).bind fun _ => pure_advances _
  · intro n c entry d h
    obtain ⟨_, _, _, h⟩ := bind_ok.mp h
    exact (pure_ok.mp h).1 ▸ rfl

omit hl hs in
theorem variants_blames {x field : String} : Blames ts ctx (body (variantEntry ctx x field)) := by
  refine lines_blames [.name] (by decide) (fun n => ?_) (fun n => ?_) ?_
  · refine (afterColon?_blames ?_).bind fun _ => pure_blames _
    exact Blames.take (by decide) fun p hp hk => ofExcept_blames fun _ =>
      payload_about hp (.inr (by simpa using hk))
  · refine (afterColon?_advances ?_).bind fun _ => pure_advances _
    exact (expect_advances (by decide)).bind fun _ => ofExcept_advances _
  · intro n c entry d h
    obtain ⟨_, _, _, h⟩ := bind_ok.mp h
    exact (pure_ok.mp h).1 ▸ rfl

omit hl in
theorem enumItems_blames {x : String} : Blames ts ctx (body (itemEntry x)) := by
  refine lines_blames [.symbol, .name] (by decide) (fun n => ?_) (fun n => ?_) ?_
  · exact skipSpaces_blames.bind fun _ => (expect_blames (by decide)).bind fun _ =>
      skipSpaces_blames.bind fun _ => (enumValue_blames hs).bind fun _ => pure_blames _
  · exact skipSpaces_advances.bind fun _ => (expect_advances (by decide)).bind fun _ =>
      skipSpaces_advances.bind fun _ => enumValue_advances.bind fun _ => pure_advances _
  · intro n c entry d h
    obtain ⟨_, _, _, h⟩ := bind_ok.mp h
    obtain ⟨_, _, _, h⟩ := bind_ok.mp h
    obtain ⟨_, _, _, h⟩ := bind_ok.mp h
    obtain ⟨_, _, _, h⟩ := bind_ok.mp h
    exact (pure_ok.mp h).1 ▸ rfl

omit hs in
theorem references_blames {x : String} {parameters : List String} :
    Blames ts ctx (body fun _ => reference { ctx with name := x, parameters }) :=
  body_blames (P := fun _ _ => True) (fun _ _ _ _ _ => trivial)
    (fun _ c hc _ => reference_blames hl c hc) (fun _ _ _ _ _ _ => trivial)
    fun _ => reference_advances _

variable (hkeyword : keyword ∈ ts)
include hkeyword

theorem struct_blames (hkind : keyword.Introduces .struct) :
    Blames ts ctx (struct ctx keyword.location) :=
  (freshName_blames hkeyword hkind).bind fun _ => parameters_blames.bind fun _ =>
    bodyStart_blames.bind fun _ => (fields_blames hl hs).bind fun _ =>
      definitionEnd_blames.bind fun _ => pure_blames _

theorem union_blames (hkind : keyword.Introduces .union) :
    Blames ts ctx (union ctx keyword.location) := by
  refine unionOptions_blames.bind fun _ => (freshName_blames hkeyword hkind).bind fun _ =>
    parameters_blames.bind fun _ => bodyStart_blames.bind fun _ => Blames.bind ?_ fun _ =>
      definitionEnd_blames.bind fun _ => pure_blames _
  refine ite_blames (fun _ => ?_) fun _ => ?_
  · exact variants_blames.bind fun _ => pure_blames _
  · exact (constructors_blames hl hs).bind fun _ => pure_blames _

omit hl in
theorem enum_blames (hkind : keyword.Introduces .enum) :
    Blames ts ctx (enum ctx keyword.location) :=
  (freshName_blames hkeyword hkind).bind fun _ => bodyStart_blames.bind fun _ =>
    (enumItems_blames hs).bind fun _ => definitionEnd_blames.bind fun _ => pure_blames _

omit hs hkeyword in
theorem untaggedUnion_blamesAt (hkind : keyword.Introduces .untagged)
    (hc : keyword :: c.reach <:+ ts) :
    BlamesAt ts ctx (untaggedUnion ctx keyword.location) c := by
  have hkeyword : keyword ∈ ts := hc.subset List.mem_cons_self
  have rest : Blames ts ctx (do
      let name ← freshName ctx keyword.location
      bodyStart
      let cases ← body fun _ => reference { ctx with name, parameters := [] }
      definitionEnd
      return Definition.untagged ⟨⟨name, keyword.location⟩, cases⟩) :=
    (freshName_blames hkeyword hkind).bind fun _ => bodyStart_blames.bind fun _ =>
      (references_blames hl).bind fun _ => definitionEnd_blames.bind fun _ => pure_blames _
  refine (separator_blames c ((List.suffix_cons ..).trans hc)).bind fun _ d hspaces hd => ?_
  refine BlamesAt.take (by decide) hd fun second d₁ hsecond htokens hd₁ => ?_
  have spaces := Cursor.separator_reach (separator_ok hspaces)
  rw [htokens] at spaces
  refine ite_blames (fun _ => ?_) (fun _ => rest) d₁ hd₁
  exact (throw_blames (.untagged hc hkind spaces (by simpa using hsecond))).bind fun _ => rest

omit hl hs in
theorem importLine_blames (hkind : keyword.Introduces .imports) :
    Blames ts ctx (importLine ctx keyword.location) := by
  have ending (q : Token) (module : Token) : Blames ts ctx (do
      definitionEnd
      return Definition.imports ⟨⟨module.text, keyword.location⟩, q.text⟩) :=
    definitionEnd_blames.bind fun _ => pure_blames _
  refine separator_blames.bind fun _ => Blames.take (by decide) fun module hmodule hk c hc => ?_
  have word : module.kind = .symbol := by simpa using hk
  have reads : Blames ts ctx (qualifier module) :=
    skipSpaces_blames.bind fun _ => (takeMark_blames _).bind fun _ => ite_blames
      (fun _ => skipSpaces_blames.bind fun _ => expect_blames (by decide)) fun _ => pure_blames _
  refine (reads c hc).bind fun q d hq hd => ?_
  obtain ⟨hmem, hqualifier⟩ := qualifier_mem hmodule word hc hq
  refine ((ofExcept_blames fun _ => checkFree_about hkeyword hkind hmem (.inl hqualifier)).bind
    fun _ => ?_) d hd
  refine ite_blames (fun _ => ?_) fun _ => ending q module
  exact (throw_blames (.module hmodule (.inl word))).bind fun _ => ending q module

omit hkeyword in
theorem definition?_blames : Blames ts ctx (definition? ctx) := by
  refine skipBlankLines_blames.bind fun _ => atEnd_blames.bind fun _ =>
    ite_blames (fun _ => pure_blames none) fun _ c hc => ?_
  refine BlamesAt.take (by decide) hc fun keyword d hk htokens hd => ?_
  rw [htokens] at hc
  have hkeyword : keyword ∈ ts := hc.subset List.mem_cons_self
  have symbol : keyword.kind = .symbol := by simpa using hk
  split
  next h => exact (struct_blames hl hs hkeyword ⟨symbol, h⟩).map some d hd
  next h => exact (union_blames hl hs hkeyword ⟨symbol, h⟩).map some d hd
  next h => exact (enum_blames hs hkeyword ⟨symbol, h⟩).map some d hd
  next h => exact (untaggedUnion_blamesAt hl ⟨symbol, h⟩ hc).map some
  next h => exact (importLine_blames hkeyword ⟨symbol, h⟩).map some d hd
  next => exact throw_blames (.keyword hkeyword symbol) d hd

end

end Read

end TypeSchema
