import TypeSchema.Proofs.Reader.Invalid
import TypeSchema.Proofs.Source.Line

/-!
# What labels mark

A label marks the front of a token: an identifier, a name that begins with one, or whatever token
was not expected. An identifier has no line break in it, so its mark stays under its line. A literal
or a quote that is never closed may go on over several lines, and its mark is as wide as all of them
together.
-/

namespace TypeSchema

open Diagnostic (Label)

variable {l : Library} {file text : String} {s : Source} {ts : List Token} {t : Token} {f : Fault}
  {lb : Label}

-- ---------------------------------------------------------------------------
-- Words
-- ---------------------------------------------------------------------------

/-- The characters are all on one line. -/
def Unbroken (chars : List Char) : Prop := ∀ c ∈ chars, c ≠ '\r' ∧ c ≠ '\n'

theorem Unbroken.append {first second : List Char} (h : Unbroken first) (h' : Unbroken second) :
    Unbroken (first ++ second) := List.forall_mem_append.mpr ⟨h, h'⟩

theorem Token.IsWord.unbroken {kind : Token.Kind} {chars : List Char}
    (h : Token.IsWord kind chars) : Unbroken chars := by
  obtain ⟨c, rest, rfl, hc, hrest⟩ := h
  refine List.forall_mem_cons.mpr ⟨⟨?_, ?_⟩, fun d hd => ⟨?_, ?_⟩⟩
  · rintro rfl
    cases hc
  · rintro rfl
    cases hc
  · rintro rfl
    cases hrest _ hd
  · rintro rfl
    cases hrest _ hd

theorem Token.IsIdentifier.unbroken (h : t.IsIdentifier) (hs : t.Spelled) :
    Unbroken t.text.toList := by
  rcases h with hk | hk
  · exact (hs.symbol hk).unbroken
  · exact (hs.name hk).unbroken

theorem Token.IsIdentifier.length_pos (h : t.IsIdentifier) (hs : t.Spelled) :
    0 < t.text.toList.length := by
  rcases h with hk | hk
  · obtain ⟨c, rest, hchars, -⟩ := hs.symbol hk
    simp [hchars]
  · obtain ⟨c, rest, hchars, -⟩ := hs.name hk
    simp [hchars]

theorem Grammar.Separator.chars {rest : List Token} (h : Separator ts rest)
    (hs : ∀ t ∈ ts, t.Spelled) :
    ∃ blank, Token.chars ts = blank ++ Token.chars rest ∧ Unbroken blank ∧ 0 < blank.length := by
  obtain ⟨t, _, hk, rfl, spaces, hspaces, rfl⟩ := h
  have first := (hs t (by simp)).space hk
  have unbroken : Unbroken (Token.chars (t :: spaces)) := by
    intro c hc
    obtain ⟨u, hu, hc⟩ := List.mem_flatMap.mp hc
    have hkind : u.kind = .space := by
      rcases List.mem_cons.mp hu with rfl | hu
      · exact hk
      · exact hspaces u hu
    rw [(hs u (List.mem_append_left rest hu)).space hkind] at hc
    obtain rfl := List.mem_singleton.mp hc
    decide
  exact ⟨Token.chars (t :: spaces), by simp, unbroken, by simp [first]⟩

/-- The label is at a token of the text and marks nothing but characters on one line, which come
there. -/
inductive Diagnostic.Label.MarksWord (lb : Label) (text : String) : Prop
  | mk {t us word} : t :: us <:+ Token.scan text → lb.location = t.location →
      word <+: Token.chars (t :: us) → Unbroken word → lb.width ≤ word.length →
      MarksWord lb text

namespace Diagnostic.Label

variable {role : Role} {message name : String}

theorem marksWord_of_prefix (word : List Char) (h : t :: ts <:+ Token.scan text)
    (hword : word <+: Token.chars (t :: ts)) (unbroken : Unbroken word) (hpos : 0 < word.length)
    (hname : name.toList.length ≤ word.length) :
    (of role t.location (Fault.nameWidth name) message).MarksWord text := by
  rw [String.length_toList] at hname
  exact .mk h rfl hword unbroken (max_le hpos ((Nat.min_le_left _ _).trans hname))

theorem marksWord_of_mem (ht : t ∈ Token.scan text) (hk : t.IsIdentifier) :
    (of role t.location (Fault.nameWidth t.text) message).MarksWord text := by
  obtain ⟨before, rest, hscan⟩ := List.append_of_mem ht
  have spelled := Token.scan_spelled ht
  refine marksWord_of_prefix t.text.toList ⟨before, hscan.symm⟩ ?_ (hk.unbroken spelled)
    (hk.length_pos spelled) le_rfl
  rw [Token.chars_cons]
  exact List.prefix_append ..

theorem marksWord_first (ht : t ∈ Token.scan text) (hk : t.IsIdentifier) :
    (of role t.location 1 message).MarksWord text := by
  have marks : (of role t.location (Fault.nameWidth t.text) message).MarksWord text :=
    marksWord_of_mem ht hk
  obtain ⟨h, hlocation, hword, unbroken, hwidth⟩ := marks
  exact .mk h hlocation hword unbroken ((Nat.le_max_left 1 _).trans hwidth)

theorem marksWord_of_qualified {q dot n : Token} (h : q :: dot :: n :: ts <:+ Token.scan text)
    (hq : q.IsIdentifier) (hdot : dot.kind = .mark .period) (hn : n.IsIdentifier) :
    (of role q.location (Fault.nameWidth (q.text ++ "." ++ n.text)) message).MarksWord text := by
  have spelled : ∀ t ∈ [q, dot, n], t.Spelled := fun t ht =>
    Token.scan_spelled (h.subset (List.mem_append_left ts ht))
  have period : dot.text.toList = ['.'] := (spelled dot (by simp)).mark hdot
  have hpos := hq.length_pos (spelled q (by simp))
  refine marksWord_of_prefix (q.text.toList ++ (['.'] ++ n.text.toList)) h ?_ ?_ ?_ ?_
  · simp [period]
  · have unbroken : Unbroken ['.'] := List.forall_mem_singleton.mpr (by decide)
    exact (hq.unbroken (spelled q (by simp))).append
      (unbroken.append (hn.unbroken (spelled n (by simp))))
  · rw [List.length_append]
    omega
  · simp

/-- The name in the fault has one space, and the text may have more of them. -/
theorem marksWord_of_untagged {u : Token} {us : List Token} (h : t :: ts <:+ Token.scan text)
    (hkind : t.Introduces .untagged) (spaces : Grammar.Separator ts (u :: us))
    (hk : u.kind = .symbol) :
    (of role t.location (Fault.nameWidth ("untagged " ++ u.text)) message).MarksWord text := by
  have spelled : ∀ t ∈ ts, t.Spelled := fun u hu =>
    Token.scan_spelled (h.subset (List.mem_cons_of_mem t hu))
  obtain ⟨blank, hblank, unbroken, hpos⟩ := spaces.chars spelled
  have word : t.text.toList = "untagged".toList := congrArg String.toList hkind.2
  have first : Unbroken t.text.toList :=
    Token.IsIdentifier.unbroken (.inl hkind.1) (Token.scan_spelled (h.subset List.mem_cons_self))
  have second : Unbroken u.text.toList :=
    Token.IsIdentifier.unbroken (.inl hk) (spelled u (spaces.suffix.subset List.mem_cons_self))
  refine marksWord_of_prefix (t.text.toList ++ (blank ++ u.text.toList)) h ?_
    (first.append (unbroken.append second)) ?_ ?_
  · simp [hblank]
  · simp [word]
  · simp only [word, String.toList_append, List.length_append]
    have : "untagged ".toList.length = "untagged".toList.length + 1 := by decide
    omega

end Diagnostic.Label

-- ---------------------------------------------------------------------------
-- Labels of faults
-- ---------------------------------------------------------------------------

namespace Reader

open Diagnostic.Label

variable {r : Reader}

theorem Placed.marksWord (placed : r.Placed text) (hr : r.cursor.tokens <:+ Token.scan text)
    (keyed : r.Keyed l) (h : f.About r.cursor.tokens r.context)
    (hf : ∀ expected found, f ≠ .unexpected expected found) (hlb : lb ∈ f.labels) :
    lb.MarksWord text := by
  cases h with
  | unexpected _ _ => exact (hf _ _ rfl).elim
  | keyword ht hk =>
    obtain rfl := List.mem_singleton.mp hlb
    exact marksWord_of_mem (hr.subset ht) (.inl hk)
  | untagged hts hkind spaces hk =>
    obtain rfl := List.mem_singleton.mp hlb
    exact marksWord_of_untagged (hts.trans hr) hkind spaces hk
  | option ht hk | parameter ht hk | payload ht hk | reference ht hk | module ht hk
  | reserved ht hk =>
    obtain rfl := List.mem_singleton.mp hlb
    exact marksWord_of_mem (hr.subset ht) hk
  | qualified hts hq hdot hn =>
    obtain rfl := List.mem_singleton.mp hlb
    exact marksWord_of_qualified (hts.trans hr) hq hdot hn
  | @definition name t kind d ht hkind hd =>
    obtain ⟨u, hu, hlocation, _, hrest, -⟩ := placed d ((keyed.found _ _).mp hd).1
    rcases List.mem_pair.mp hlb with rfl | rfl
    · exact marksWord_first (hr.subset ht) (.inl hkind.1)
    · rw [hlocation]
      exact marksWord_first (hrest.subset List.mem_cons_self) (.inl hu.1)
  | @member t u us x hts hk behind hsame =>
    obtain ⟨rest, hrest, -⟩ := behind
    have here : u ∈ Token.scan text := hr.subset (hts.subset List.mem_cons_self)
    rcases List.mem_pair.mp hlb with rfl | rfl
    · exact marksWord_of_mem here hk
    · have spelled := Token.scan_spelled here
      refine marksWord_of_prefix u.text.toList (hrest.trans hr) ?_ (hk.unbroken spelled)
        (hk.length_pos spelled) le_rfl
      rw [Token.chars_cons, hsame]
      exact List.prefix_append ..

end Reader

theorem Module.read_error (h : Module.read file text l = .error f) :
    ∃ last : Reader, last.Stands text l ∧ last.next.1 = .error f := by
  obtain ⟨last, hlast, -, outcome⟩ := (Reader.stands_ofSource text l).drain
  have hread : Module.read file text l = ((Reader.ofSource text l).drain.1).map
      fun _ => (Reader.ofSource text l).drain.2.finish file := rfl
  rw [hread] at h
  rcases outcome with ⟨-, hdrain⟩ | ⟨g, hg, hdrain⟩
  · rw [hdrain] at h
    cases h
  · rw [hdrain] at h
    cases h
    exact ⟨last, hlast, hg⟩

/-- A label marks a word, or else the token that was not expected. -/
theorem Module.read_marks (h : Module.read file text l = .error f) (hlb : lb ∈ f.labels) :
    (∀ expected found, f ≠ .unexpected expected found) ∧ lb.MarksWord text ∨
      ∃ expected found, f = .unexpected expected found ∧ found ∈ Token.scan text ∧
        lb.location = found.location ∧ lb.width = found.width := by
  obtain ⟨last, hlast, hf⟩ := read_error h
  have hr := hlast.sound.within.tokens
  have about := hlast.sound.about hf
  by_cases hne : ∀ expected found, f ≠ .unexpected expected found
  · exact .inl ⟨hne, hlast.placed.marksWord hr hlast.sound.keyed about hne hlb⟩
  · cases about with
    | unexpected ht _ =>
      obtain rfl := List.mem_singleton.mp hlb
      exact .inr ⟨_, _, rfl, hr.subset ht, rfl, max_eq_right (Nat.le_max_left 1 _)⟩
    | _ => exact (hne nofun).elim

-- ---------------------------------------------------------------------------
-- The room on the line
-- ---------------------------------------------------------------------------

theorem Unbroken.firstLine_prefix {word chars : List Char} (h : Unbroken word)
    (hword : word <+: chars) : word <+: Source.firstLine chars := by
  obtain ⟨more, rfl⟩ := hword
  rw [Source.firstLine_append (fun hmem => (h _ hmem).2 rfl) fun hlast =>
    ((h _ (List.mem_of_getLast? hlast)).1 rfl).elim]
  exact List.prefix_append ..

theorem Diagnostic.Label.MarksWord.token (h : lb.MarksWord text) :
    ∃ before t us, Token.scan text = before ++ t :: us ∧ t.kind ≠ .endOfInput ∧
      lb.location = t.location ∧ lb.width ≤ (Source.firstLine (Token.chars (t :: us))).length := by
  obtain @⟨t, us, word, ⟨before, hscan⟩, hlocation, hword, unbroken, hwidth⟩ := h
  have hfits := hwidth.trans (unbroken.firstLine_prefix hword).length_le
  refine ⟨before, t, us, hscan.symm, fun hend => ?_, hlocation, hfits⟩
  obtain rfl := Token.nil_of_endOfInput ⟨before, hscan⟩ hend
  have ht : t ∈ Token.scan text := by simp [← hscan]
  obtain rfl : word = [] := by
    simpa [Token.chars, (Token.scan_spelled ht).endOfInput hend] using hword
  exact (lb.width_pos.trans_le hwidth).false

namespace Token

theorem width_of_all_breaks (h : ∀ c ∈ t.text.toList, c = '\r' ∨ c = '\n') : t.width = 1 := by
  have none : t.text.toList.countP (fun c => c ≠ '\r' ∧ c ≠ '\n') = 0 := by
    rw [List.countP_eq_zero]
    intro c hc
    rcases h c hc with rfl | rfl <;> simp
  rw [width, none]
  rfl

theorem width_le (t : Token) : t.width ≤ max 1 t.text.toList.length :=
  max_le (Nat.le_max_left 1 _)
    ((Nat.min_le_left _ _).trans (List.countP_le_length.trans (Nat.le_max_right 1 _)))

end Token

section
variable (hshort : s.text.length < Location.limit) {line : String}
include hshort

theorem Diagnostic.Label.MarksWord.fits (h : lb.MarksWord s.text)
    (hline : s.line? lb.location.line = some line) :
    lb.location.column - 1 + lb.width ≤ line.length := by
  obtain ⟨before, t, us, hscan, hend, hlocation, hwidth⟩ := h.token
  obtain ⟨hfound, hcolumn⟩ := Token.line?_of_scan hshort hscan hend
  rw [hlocation, hfound] at hline
  obtain rfl := Option.some.inj hline
  rw [hlocation, hcolumn, String.length_ofList, List.length_append]
  omega

namespace Token

theorem firstLine_fills (ht : t ∈ scan s.text) (hmem : '\n' ∈ t.text.toList)
    (hline : s.line? t.location.line = some line) :
    t.location.column - 1 + (Source.firstLine t.text.toList).length = line.length := by
  have hend : t.kind ≠ .endOfInput := by
    intro hend
    rw [(scan_spelled ht).endOfInput hend] at hmem
    cases hmem
  obtain ⟨before, us, hscan⟩ := List.append_of_mem ht
  obtain ⟨hfound, hcolumn⟩ := line?_of_scan hshort hscan hend
  rw [hfound] at hline
  obtain rfl := Option.some.inj hline
  rw [hcolumn, String.length_ofList, List.length_append, chars_cons,
    Source.firstLine_append_of_mem hmem]
  omega

theorem column_endOfInput (ht : t ∈ scan s.text) (hend : t.kind = .endOfInput)
    (hline : s.line? t.location.line = some line) : t.location.column = line.length + 1 := by
  obtain ⟨before, us, hscan⟩ := List.append_of_mem ht
  obtain rfl := nil_of_endOfInput ⟨before, hscan.symm⟩ hend
  have whole : chars before = s.text.toList := by
    rw [← chars_scan, hscan]
    simp [chars, (scan_spelled ht).endOfInput hend]
  rw [location_eq_behind hshort hscan, whole] at hline ⊢
  rw [Location.behind, Nat.add_comm, Source.line?] at hline
  obtain ⟨last, hlast, rfl⟩ := Option.map_eq_some_iff.mp hline
  rw [Source.lineAfter?_end hlast, String.length_ofList, Location.behind]
  exact Nat.add_comm ..

theorem width_fits (ht : t ∈ scan s.text) (hbreak : '\n' ∈ t.text.toList → t.kind.isLineBreak)
    (hline : s.line? t.location.line = some line) :
    t.location.column - 1 + t.width ≤ line.length + 1 := by
  by_cases hend : t.kind = .endOfInput
  · rw [width_of_all_breaks (by simp [(scan_spelled ht).endOfInput hend]),
      column_endOfInput hshort ht hend hline]
    omega
  obtain ⟨found, hfound, onBreak, onLine⟩ := scan_on_lines hshort ht hend
  obtain rfl := Option.some.inj (hline.symm.trans hfound)
  by_cases hk : t.kind.isLineBreak
  · have := onBreak hk
    rw [width_of_all_breaks (by rcases (scan_spelled ht).lineBreak hk with h | h <;> simp [h])]
    omega
  · obtain ⟨hcolumn, first, upTo, hfirst⟩ := onLine hk
    have hlength := hfirst.length_le
    have whole : first = t.text.toList := by
      generalize t.text.toList = chars at hbreak upTo
      cases upTo with
      | all _ => rfl
      | newline _ _ | crlf _ => exact (hk (hbreak (by simp))).elim
    rw [whole, List.length_drop] at hlength
    have hwidth := t.width_le
    simp only [String.length_toList] at hlength hwidth
    omega

end Token

end

-- ---------------------------------------------------------------------------
-- Marks under their lines
-- ---------------------------------------------------------------------------

/-- The token that was not expected goes on behind a line break. -/
def Fault.Spans : Fault → Prop
  | .unexpected _ found => '\n' ∈ found.text.toList ∧ ¬found.kind.isLineBreak
  | _ => False

/-- The mark of a label ends on its line, or one character behind it where a line break or the end
of the input is marked. Only the mark of a token that goes on behind a line break is wider: the
token fills up the line, and what it has on other lines counts as well. -/
theorem Module.read_labels_fit (hshort : s.text.length < Location.limit)
    (h : Module.read file s.text l = .error f) (hlb : lb ∈ f.labels) {line : String}
    (hline : s.line? lb.location.line = some line) :
    (¬f.Spans → lb.location.column - 1 + lb.width ≤ line.length + 1) ∧
      ∀ expected found, f = .unexpected expected found → f.Spans →
        lb.location.column - 1 + (Source.firstLine found.text.toList).length = line.length ∧
          lb.width = found.width := by
  rcases read_marks h hlb with ⟨hf, hword⟩ | ⟨expected, found, rfl, hmem, hlocation, hwidth⟩
  · have fits := hword.fits hshort hline
    exact ⟨fun _ => by omega, fun expected found h => (hf expected found h).elim⟩
  · rw [hlocation] at hline ⊢
    rw [hwidth]
    refine ⟨fun hspans => ?_, fun _ _ hf hspans => ?_⟩
    · exact Token.width_fits hshort hmem (fun hbreak => by_contra fun hk => hspans ⟨hbreak, hk⟩)
        hline
    · cases hf
      exact ⟨Token.firstLine_fills hshort hmem hspans.1 hline, rfl⟩

/-- The end of the input is marked behind its line. -/
theorem Module.read_labels_fit_at_end :
    let s : Source := ⟨"a.gotyno", "struct A"⟩
    let f : Fault := .unexpected [.mark .leftBrace] ⟨.endOfInput, "", ⟨1, 9⟩⟩
    ∃ lb ∈ f.labels, s.text.length < Location.limit ∧
      Module.read s.file s.text .empty = .error f ∧
      s.line? lb.location.line = some "struct A" ∧
      lb.location.column - 1 + lb.width = "struct A".length + 1 ∧
      (¬f.Spans → lb.location.column - 1 + lb.width ≤ "struct A".length + 1) ∧
      ∀ expected found, f = .unexpected expected found → f.Spans →
        lb.location.column - 1 + (Source.firstLine found.text.toList).length = "struct A".length ∧
          lb.width = found.width := by
  intro s f
  have hshort : s.text.length < Location.limit := by decide +kernel
  have h : Module.read s.file s.text .empty = .error f := Library.error_of_map (by decide +kernel)
  have hline : s.line? 1 = some "struct A" := by decide +kernel
  obtain ⟨lb, hlabels, hlocation, hwidth⟩ :
      ∃ lb, f.labels = [lb] ∧ lb.location = ⟨1, 9⟩ ∧ lb.width = 1 := ⟨_, rfl, rfl, rfl⟩
  have hlb : lb ∈ f.labels := by simp [hlabels]
  have hline : s.line? lb.location.line = some "struct A" := by rw [hlocation]; exact hline
  exact ⟨lb, hlb, hshort, h, hline, by rw [hlocation, hwidth]; rfl,
    read_labels_fit hshort h hlb hline⟩

/-- The mark of a literal over two lines has the width of both, and its line has less room. -/
theorem Module.read_label_overhangs :
    let s : Source := ⟨"a.gotyno", "struct \"ab\ncdefgh\" \x7b\n\x7d\n"⟩
    s.text.length < Location.limit ∧
      ∃ f, Module.read s.file s.text .empty = .error f ∧ ∃ lb ∈ f.labels, ∃ line,
        s.line? lb.location.line = some line ∧
          ¬lb.location.column - 1 + lb.width ≤ line.length + 1 := by
  intro s
  let found : Token := ⟨.text, "\"ab\ncdefgh\"", ⟨1, 8⟩⟩
  have h : Module.read s.file s.text .empty = .error (.unexpected [.name] found) :=
    Library.error_of_map (by decide +kernel)
  have hline : s.line? 1 = some "struct \"ab" := by decide +kernel
  exact ⟨by decide +kernel, _, h, _, List.mem_singleton_self _, _, hline, by decide +kernel⟩

end TypeSchema
