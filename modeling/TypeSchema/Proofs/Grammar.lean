import TypeSchema.Proofs.Syntax

/-!
# The grammar

A rule relates the tokens that lie ahead to a tree and to the tokens that lie ahead after it, the
end of the input among them. A rule only says what may stand in a text: how much of it a reading
takes where several shares are possible, and what names mean, is told elsewhere.
-/

namespace TypeSchema.Grammar

/-- `R ts a rest`: the tokens `ts` begin with an `a`, and `rest` comes after it. -/
abbrev Rule (α : Type) := List Token → α → List Token → Prop

-- ---------------------------------------------------------------------------
-- Layout
-- ---------------------------------------------------------------------------

def Spaces (ts rest : List Token) : Prop :=
  ∃ spaces : List Token, (∀ t ∈ spaces, t.kind = .space) ∧ ts = spaces ++ rest

def Separator (ts rest : List Token) : Prop :=
  ∃ t more, t.kind = .space ∧ ts = t :: more ∧ Spaces more rest

def Indentation (ts rest : List Token) : Prop :=
  ∃ spaces : List Token, spaces.length = 4 ∧ (∀ t ∈ spaces, t.kind = .space) ∧ ts = spaces ++ rest

def LineEnd (ts rest : List Token) : Prop :=
  ∃ t, t.kind.isLineBreak ∧ Spaces ts (t :: rest)

/-- The end of a line that may be the last: an end of the input is not used up. -/
inductive DefinitionEnd : List Token → List Token → Prop
  | line {ts rest} : LineEnd ts rest → DefinitionEnd ts rest
  | input {ts t rest} : Spaces ts (t :: rest) → t.kind = .endOfInput →
      DefinitionEnd ts (t :: rest)

/-- Any number of lines that hold nothing but spaces. -/
inductive BlankLines : List Token → List Token → Prop
  | none {ts} : BlankLines ts ts
  | more {ts mid rest} : LineEnd ts mid → BlankLines mid rest → BlankLines ts rest

/-- The line that opens a body ends here. -/
def BodyStart (ts rest : List Token) : Prop :=
  ∃ t mid, Spaces ts (t :: mid) ∧ t.kind = .mark .leftBrace ∧ LineEnd mid rest

/-- The lines of a body to its closing brace, which begins its line. -/
inductive Body {α : Type} (line : Rule α) : Rule (List α)
  | close {ts t rest} : BlankLines ts (t :: rest) → t.kind = .mark .rightBrace →
      Body line ts [] rest
  | line {ts before content a after next as rest} : BlankLines ts before →
      Indentation before content → line content a after → LineEnd after next →
      Body line next as rest → Body line ts (a :: as) rest

/-- Items with commas between them to the closing mark, at least one. -/
inductive Items {α : Type} (close : Mark) (item : Rule α) : Rule (List α)
  | last {ts a t rest} : item ts a (t :: rest) → t.kind = .mark close →
      Items close item ts [a] rest
  | more {ts a t after next as rest} : item ts a (t :: after) → t.kind = .mark .comma →
      Spaces after next → Items close item next as rest → Items close item ts (a :: as) rest

-- ---------------------------------------------------------------------------
-- Types
-- ---------------------------------------------------------------------------

inductive Name : Rule Token
  | mk {t rest} : t.kind = .name → Name (t :: rest) t rest

/-- A reference before its arguments. -/
inductive Head : List Token → Option Token → Token → List Token → Prop
  | bare {n rest} : n.kind = .name → Head (n :: rest) none n rest
  | qualified {q dot n rest} : q.kind = .symbol → dot.kind = .mark .period → n.kind = .name →
      Head (q :: dot :: n :: rest) (some q) n rest

inductive Reference : Rule ReferenceSyntax
  | plain {ts q n rest} : Head ts q n rest → Reference ts ⟨q, n, []⟩ rest
  | applied {ts q n t after arguments rest} : Head ts q n (t :: after) →
      t.kind = .mark .leftAngle → Items .rightAngle Reference after arguments rest →
      Reference ts ⟨q, n, arguments⟩ rest

inductive TypeExpr : Rule TypeSyntax
  | literal {t rest} : t.kind = .text → TypeExpr (t :: rest) (.literal t) rest
  | reference {ts r rest} : Reference ts r rest → TypeExpr ts (.reference r) rest
  | slice {l r ts item rest} : l.kind = .mark .leftBracket → r.kind = .mark .rightBracket →
      TypeExpr ts item rest → TypeExpr (l :: r :: ts) (.slice item) rest
  | array {l size r ts item rest} : l.kind = .mark .leftBracket → size.kind = .natural →
      r.kind = .mark .rightBracket → TypeExpr ts item rest →
      TypeExpr (l :: size :: r :: ts) (.array size item) rest
  | pointer {t ts item rest} : t.kind = .mark .asterisk → TypeExpr ts item rest →
      TypeExpr (t :: ts) (.pointer item) rest
  | optional {t ts item rest} : t.kind = .mark .questionMark → TypeExpr ts item rest →
      TypeExpr (t :: ts) (.optional item) rest

-- ---------------------------------------------------------------------------
-- Members
-- ---------------------------------------------------------------------------

inductive Field : Rule (Token × TypeSyntax)
  | mk {n colon ts mid type rest} : n.kind = .symbol → colon.kind = .mark .colon →
      Spaces ts mid → TypeExpr mid type rest → Field (n :: colon :: ts) (n, type) rest

/-- A tag, and after a colon and spaces what `inner` says, unless there is no colon. -/
inductive Tagged {α : Type} (inner : Rule α) : Rule (Token × Option α)
  | bare {n rest} : n.kind = .name → Tagged inner (n :: rest) (n, none) rest
  | colon {n colon ts mid a rest} : n.kind = .name → colon.kind = .mark .colon →
      Spaces ts mid → inner mid a rest → Tagged inner (n :: colon :: ts) (n, some a) rest

inductive Item : Rule (Token × Token)
  | mk {tag ts equals mid value rest} : tag.kind = .symbol ∨ tag.kind = .name →
      Spaces ts (equals :: mid) → equals.kind = .mark .equals → Spaces mid (value :: rest) →
      value.kind = .text ∨ value.kind = .natural → Item (tag :: ts) (tag, value) rest

-- ---------------------------------------------------------------------------
-- Definitions
-- ---------------------------------------------------------------------------

/-- A word that has a meaning of its own where it stands. -/
def Keyword (word : String) (t : Token) : Prop := t.kind = .symbol ∧ t.text = word

inductive UnionOption : Rule OptionSyntax
  | tag {t ts equals mid field rest} : Keyword "tag" t → Spaces ts (equals :: mid) →
      equals.kind = .mark .equals → Spaces mid (field :: rest) → field.kind = .symbol →
      UnionOption (t :: ts) (.tag field) rest
  | embedded {t rest} : Keyword "embedded" t → UnionOption (t :: rest) .embedded rest

inductive SpacedOption : Rule OptionSyntax
  | mk {ts option mid rest} : UnionOption ts option mid → Spaces mid rest →
      SpacedOption ts option rest

inductive UnionOptions : Rule (List OptionSyntax)
  | none {ts} : UnionOptions ts [] ts
  | list {t ts mid options rest} : t.kind = .mark .leftParen → Spaces ts mid →
      Items .rightParen SpacedOption mid options rest → UnionOptions (t :: ts) options rest

inductive Parameters : Rule (List Token)
  | none {ts} : Parameters ts [] ts
  | list {t ts names rest} : t.kind = .mark .leftAngle → Items .rightAngle Name ts names rest →
      Parameters (t :: ts) names rest

/-- What stands after the name of an imported module. -/
inductive Qualifier : Rule (Option Token)
  | none {ts} : Qualifier ts none ts
  | mk {ts equals mid q rest} : Spaces ts (equals :: mid) → equals.kind = .mark .equals →
      Spaces mid (q :: rest) → q.kind = .symbol → Qualifier ts (some q) rest

inductive Heading : Rule Token
  | mk {ts n rest} : Separator ts (n :: rest) → n.kind = .name → Heading ts n rest

/-- A body with its braces, to the end of the last line. -/
inductive Block {α : Type} (line : Rule α) : Rule (List α)
  | mk {ts next members last rest} : BodyStart ts next → Body line next members last →
      DefinitionEnd last rest → Block line ts members rest

inductive Definition : Rule DefinitionSyntax
  | struct {t ts n after parameters opening fields rest} : Keyword "struct" t →
      Heading ts n after → Parameters after parameters opening → Block Field opening fields rest →
      Definition (t :: ts) (.struct t n parameters fields) rest
  | union {t ts options mid n after parameters opening constructors rest} : Keyword "union" t →
      UnionOptions ts options mid → .embedded ∉ options →
      Heading mid n after → Parameters after parameters opening →
      Block (Tagged TypeExpr) opening constructors rest →
      Definition (t :: ts) (.union t options n parameters constructors) rest
  | embedded {t ts options mid n after parameters opening variants rest} : Keyword "union" t →
      UnionOptions ts options mid → .embedded ∈ options →
      Heading mid n after → Parameters after parameters opening →
      Block (Tagged Name) opening variants rest →
      Definition (t :: ts) (.embedded t options n parameters variants) rest
  | enum {t ts n opening items rest} : Keyword "enum" t → Heading ts n opening →
      Block Item opening items rest → Definition (t :: ts) (.enum t n items) rest
  | untagged {t ts second mid n opening cases rest} : Keyword "untagged" t →
      Separator ts (second :: mid) → Keyword "union" second → Heading mid n opening →
      Block Reference opening cases rest → Definition (t :: ts) (.untagged t n cases) rest
  | imports {t ts module mid qualifier last rest} : Keyword "import" t →
      Separator ts (module :: mid) → module.kind = .symbol → Qualifier mid qualifier last →
      DefinitionEnd last rest → Definition (t :: ts) (.imports t module qualifier) rest

/-- Definitions and blank lines to the end of the input. -/
inductive File : List Token → List DefinitionSyntax → Prop
  | done {ts mid t} : BlankLines ts mid → Spaces mid [t] → t.kind = .endOfInput → File ts []
  | definition {ts mid d rest ds} : BlankLines ts mid → Definition mid d rest → File rest ds →
      File ts (d :: ds)

end TypeSchema.Grammar
