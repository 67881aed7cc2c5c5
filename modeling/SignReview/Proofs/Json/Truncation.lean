import SignReview.Proofs.Json.Completion

/-!
# Documents that are cut off

What a document is called that has been cut off depends on the place of the cut.  Where it has not
begun, it holds no value; where a literal is torn and what is left of it is none, an octet is out of
place; everywhere else it is incomplete, or still a document.

* `exists_cut`: a cut is between two lexemes or in one.
* `lexemes_unclosed`, `lexemes_torn`: what is read of a string or literal that is cut off.
* `ReadsTo`: a text that can be read to its end, `ReadsTo.parse_incomplete`: what becomes of it,
  `ReadsTo.parse_fault`: what becomes of it with a lexeme more that cannot be read.
* `Document.parse_of_cut`: a cut anywhere, `Document.parse_of_truncated`: all kinds of cuts, and how
  a text that is incomplete goes on.
-/

namespace SignReview.Json

open Lexeme

/-! ### The place of a cut -/

/-- A text that is cut off ends between two lexemes or in one. -/
theorem exists_cut {ls : List Lexeme} {text : Bytes} (h : text <+: ls.flatMap Lexeme.text) :
    (∃ left right, ls = left ++ right ∧ text = left.flatMap Lexeme.text) ∨
      ∃ left lexeme right part, ls = left ++ lexeme :: right ∧
        text = left.flatMap Lexeme.text ++ part ∧ part <+: lexeme.text ∧ part ≠ [] ∧
        part ≠ lexeme.text := by
  induction ls generalizing text with
  | nil => exact Or.inl ⟨[], [], rfl, List.prefix_nil.mp h⟩
  | cons lexeme ls ih =>
    rw [List.flatMap_cons] at h
    rcases List.prefix_or_prefix_of_prefix h (List.prefix_append _ _) with hInside | hBehind
    · by_cases hNil : text = []
      · exact Or.inl ⟨[], lexeme :: ls, rfl, hNil⟩
      by_cases hWhole : text = lexeme.text
      · exact Or.inl ⟨[lexeme], ls, rfl, by simpa using hWhole⟩
      · exact Or.inr ⟨[], lexeme, ls, text, rfl, rfl, hInside, hNil, hWhole⟩
    · obtain ⟨rest, rfl⟩ := hBehind
      rcases ih ((List.prefix_append_right_inj _).mp h) with hEnd | hTorn
      · obtain ⟨left, right, rfl, rfl⟩ := hEnd
        exact Or.inl ⟨lexeme :: left, right, rfl, rfl⟩
      · obtain ⟨left, torn, right, part, rfl, rfl, hTorn⟩ := hTorn
        refine Or.inr ⟨lexeme :: left, torn, right, part, rfl, ?_, hTorn⟩
        rw [List.flatMap_cons, List.append_assoc]

/-! ### Lexemes that are cut off -/

namespace Lexeme

/-- Wherever it is cut off, the text is read from this place in a string without an end of the
string. -/
def Inside.Passes (inside : Inside) (text : Bytes) : Prop :=
  ∀ part, part <+: text → ∀ read, scan (.quoted inside read) part = [.unclosed (read.reverse ++ part)]

theorem Inside.passes_nil (inside : Inside) : inside.Passes [] := by
  intro part hPart read
  rw [List.prefix_nil.mp hPart, scan, List.append_nil]

theorem Inside.passes_cons {inside next : Inside} {c : UInt8} {text : Bytes}
    (hNext : inside.next? c = some next) (hQuote : ¬(inside = .plain ∧ c = 0x22))
    (h : next.Passes text) : inside.Passes (c :: text) := by
  intro part hPart read
  rcases List.prefix_cons_iff.mp hPart with rfl | ⟨rest, rfl, hRest⟩
  · exact inside.passes_nil [] (List.prefix_refl []) read
  · rw [scan_quoted_cons hNext hQuote, h rest hRest]
    simp

theorem Inside.passes_contents {contents : Bytes} (h : Grammar.Contents contents) :
    Inside.plain.Passes contents := by
  have hHex : ∀ {left : Nat} {c : UInt8} {text : Bytes}, Bytes.isHexDigit c →
      (Inside.hex left).Passes text → (Inside.hex (left + 1)).Passes (c :: text) := fun hc h =>
    Inside.passes_cons (by simp [Inside.next?, hc]) (by simp) h
  have hBackslash : ∀ {text : Bytes}, Inside.escape.Passes text →
      Inside.plain.Passes (0x5c :: text) := Inside.passes_cons rfl (by decide)
  induction h with
  | nil => exact Inside.passes_nil _
  | plain hQuote hOther _ ih =>
    exact Inside.passes_cons (by simp [Inside.next?, hOther]) (fun h => hQuote h.2) ih
  | escape hEscape _ ih =>
    refine hBackslash (Inside.passes_cons ?_ (by simp) ih)
    simp [Inside.next?, isEscape_iff.mpr hEscape]
  | @unicode _ _ _ last _ h₁ h₂ h₃ h₄ _ ih =>
    have hUnicode : Inside.escape.next? 0x75 = some (.hex 3) := rfl
    have hPlain : (Inside.hex 0).next? last = some .plain := by simp [Inside.next?, h₄]
    have hLast := Inside.passes_cons hPlain (by simp) ih
    exact hBackslash (Inside.passes_cons hUnicode (by decide) (hHex h₁ (hHex h₂ (hHex h₃ hLast))))

end Lexeme

theorem lexemes_unclosed {contents part : Bytes} (h : Grammar.Contents contents)
    (hPart : part <+: contents) : lexemes (0x22 :: part) = [.unclosed part] := by
  rw [lexemes, scan, if_pos rfl, Inside.passes_contents h part hPart]
  rfl

/-- A literal that is cut off is read as what is left of it, if that is a literal. -/
theorem lexemes_torn {word part : Bytes} (h : Grammar.Literal word) (hPart : part <+: word)
    (hSome : part ≠ []) :
    lexemes part = if Literal.isLiteral part then [.literal part] else [.malformed part] := by
  obtain ⟨c, tail, rfl⟩ := List.exists_cons_of_ne_nil hSome
  have hOctets : ∀ d ∈ tail, ofByte? d = none := fun d hd =>
    ofByte?_of_literal h (hPart.subset (List.mem_cons_of_mem c hd))
  obtain ⟨first, rest, rfl, hStart⟩ := startsLiteral_of_literal h
  obtain rfl : c = first := (List.cons_prefix_cons.mp hPart).1
  have hWord := scan_word hOctets [c] []
  rw [List.append_nil] at hWord
  rw [lexemes, scan, if_neg (not_quote_of_startsLiteral hStart), if_pos hStart, hWord, scan]
  simp

theorem Lexeme.Separated.getLast?_ne {left right : List Lexeme} {lexeme : Lexeme}
    (h : Separated (left ++ lexeme :: right)) (hEnds : lexeme.endsLiteral = false) :
    ∀ word, left.getLast? ≠ some (.literal word) := by
  intro word hLast
  induction left with
  | nil => cases hLast
  | cons first left ih =>
    cases left with
    | nil =>
      have hNext := h.1 word (Option.some.inj hLast) lexeme rfl
      rw [hEnds] at hNext
      cases hNext
    | cons second left => exact ih h.2 hLast

/-! ### Texts that can be read -/

/-- All of the text can be read within the limits, which leads to the reading `r`. -/
structure ReadsTo (limits : Limits) (text : Bytes) (r : Reading) : Prop where
  length_le : text.length ≤ limits.maxDocument
  legal : ∀ lexeme ∈ lexemes text, lexeme.Legal
  run : (lexemes text).foldlM Reading.step .start = .ok r
  size_le : r.size ≤ limits.tokenBudget

/-- There is nothing but spaces, tabs, line feeds and carriage returns in the text. -/
def Blanks (text : Bytes) : Prop := ∀ c ∈ text, c ∈ ([0x20, 0x09, 0x0a, 0x0d] : Bytes)

namespace ReadsTo

variable {limits : Limits} {text : Bytes} {r : Reading}

theorem length_le_mark (h : ReadsTo limits text r) : text.length ≤ Token.openMark :=
  Nat.le_trans h.length_le (Nat.min_le_right _ _)

theorem build (h : ReadsTo limits text r) :
    (lexemes text).foldlM (Builder.step limits.tokenBudget) .start =
      .ok (r.builder (place 0 (lexemes text)) text.length) :=
  (Builder.run_start h.length_le_mark h.legal).mpr ⟨r, h.run, h.size_le, rfl⟩

theorem parse_eq (h : ReadsTo limits text r) :
    Document.parse text limits = (r.builder (place 0 (lexemes text)) text.length).finish >>=
      fun tokens => .ok ⟨text.toArray, tokens⟩ := by
  rw [Document.parse, if_neg (Nat.not_lt.mpr h.length_le), Token.table, h.build]
  rfl

theorem parse_start (h : ReadsTo limits text .start) :
    Document.parse text limits = .error .zeroTokens := by
  rw [h.parse_eq]
  rfl

theorem parse_incomplete (h : ReadsTo limits text r) (hStart : r ≠ .start)
    (hRefused : ∀ doc, Document.parse text limits ≠ .ok doc) :
    Document.parse text limits = .error .incompleteJson := by
  rcases r.finish_cases with hNone | ⟨tree, _, hFinish⟩ | ⟨_, hFinish⟩
  · exact absurd hNone.1 hStart
  · exact absurd (h.parse_eq.trans (by rw [hFinish]; rfl)) (hRefused _)
  · rw [h.parse_eq, hFinish]
    rfl

/-- Behind a text that can be read, one lexeme more is refused for the reason of its step. -/
theorem parse_fault (h : ReadsTo limits text r) {part : Bytes} (lexeme : Lexeme) {e : Error}
    (hLength : (text ++ part).length ≤ limits.maxDocument)
    (hLexemes : lexemes (text ++ part) = lexemes text ++ [lexeme])
    (hStep : ∀ pos offset, (r.builder pos offset).step limits.tokenBudget lexeme = .error e) :
    Document.parse (text ++ part) limits = .error e := by
  have hRun : (lexemes (text ++ part)).foldlM (Builder.step limits.tokenBudget) .start =
      .error e := by
    rw [hLexemes, List.foldlM_append, h.build]
    exact bind_eq_error_iff.mpr (Or.inr ⟨_, rfl, bind_eq_error_iff.mpr (Or.inl (hStep _ _))⟩)
  rw [Document.parse, if_neg (Nat.not_lt.mpr hLength), Token.table, hRun]
  rfl

theorem blanks (h : ReadsTo limits text .start) : Blanks text := by
  have hNone : [] = (lexemes text).filter (!·.isBlank) := Reading.lexemes_of_run h.run
  intro c hc
  rw [← flatMap_text_lexemes text] at hc
  obtain ⟨lexeme, hLexeme, hText⟩ := List.mem_flatMap.mp hc
  have hBlank := List.filter_eq_nil_iff.mp hNone.symm lexeme hLexeme
  have hLegal := h.legal lexeme hLexeme
  cases lexeme with
  | blank d => exact List.mem_singleton.mp hText ▸ hLegal
  | _ => exact absurd rfl hBlank

theorem of_blanks (hBlanks : Blanks text) (hLength : text.length ≤ limits.maxDocument) :
    ReadsTo limits text .start := by
  have hLegal : ∀ lexeme ∈ text.map Lexeme.blank, lexeme.Legal := fun lexeme hMem => by
    obtain ⟨c, hc, rfl⟩ := List.mem_map.mp hMem
    exact hBlanks c hc
  have hNone : (text.map Lexeme.blank).filter (!·.isBlank) = [] := by
    simp [Lexeme.isBlank]
  have hSeparated : Separated (text.map Lexeme.blank) :=
    separated_of_filter (by rw [hNone]; trivial)
  have hText : (text.map Lexeme.blank).flatMap Lexeme.text = text := by
    rw [List.flatMap_map]
    exact List.flatMap_singleton' text
  have hLexemes : lexemes text = text.map Lexeme.blank := by
    rw [← lexemes_flatMap_text hLegal hSeparated, hText]
  have hRun : (text.map Lexeme.blank).foldlM Reading.step .start = .ok .start := by
    rw [← Reading.run_filter, hNone]
    rfl
  exact ⟨hLength, hLexemes ▸ hLegal, hLexemes ▸ hRun, Nat.zero_le _⟩

end ReadsTo

/-- A text of blanks holds no value. -/
theorem Document.parse_of_blanks {text : Bytes} {limits : Limits} (hBlanks : Blanks text)
    (hLength : text.length ≤ limits.maxDocument) : parse text limits = .error .zeroTokens :=
  (ReadsTo.of_blanks hBlanks hLength).parse_start

/-! ### Spellings that are cut off -/

/-- The text ends in one of the literals that are spelled, of which `part` is left. -/
def CutsLiteral (ls : List Lexeme) (text part : Bytes) : Prop :=
  ∃ left word right, ls = left ++ .literal word :: right ∧
    text = left.flatMap Lexeme.text ++ part ∧ part <+: word ∧ part ≠ [] ∧ part ≠ word

namespace Spells

variable {left right : List Lexeme} {lexeme : Lexeme} {tree : Tree} {limits : Limits}

theorem legal_left (h : Spells (left ++ right) tree) : ∀ lexeme ∈ left, lexeme.Legal :=
  fun lexeme hMem => h.legal lexeme (List.mem_append_left right hMem)

/-- A cut between lexemes keeps those in front of it. -/
theorem lexemes_left (h : Spells (left ++ right) tree) :
    lexemes (left.flatMap Lexeme.text) = left :=
  lexemes_flatMap_text h.legal_left h.separated.left

/-- What stands in front of a cut can be read. -/
theorem readsTo_left (h : Spells (left ++ right) tree)
    (hLength : (left.flatMap Lexeme.text).length ≤ limits.maxDocument)
    (hSize : tree.size ≤ limits.tokenBudget) :
    ∃ r, ReadsTo limits (left.flatMap Lexeme.text) r ∧
      right.foldlM Reading.step r = .ok ⟨[], .done tree⟩ := by
  have hRun := h.run
  rw [List.foldlM_append] at hRun
  obtain ⟨r, hLeft, hRight⟩ := bind_eq_ok_iff.mp hRun
  have hTree : r.size ≤ 0 + tree.size := Reading.size_le_of_run hRight
  have hLexemes := h.lexemes_left
  exact ⟨r, ⟨hLength, hLexemes.symm ▸ h.legal_left, hLexemes.symm ▸ hLeft, by omega⟩, hRight⟩

theorem lexemes_of_torn (h : Spells (left ++ lexeme :: right) tree)
    (hEnds : lexeme.endsLiteral = false) (part : Bytes) :
    lexemes (left.flatMap Lexeme.text ++ part) =
      lexemes (left.flatMap Lexeme.text) ++ lexemes part := by
  have hSeparated := h.separated
  rw [h.lexemes_left]
  refine lexemes_flatMap_text_append h.legal_left hSeparated.left fun word hWord => ?_
  exact absurd hWord (hSeparated.getLast?_ne hEnds word)

/-- In front of a lexeme that is torn, all can be read, and so could the lexeme. -/
theorem exists_step {part : Bytes} (h : Spells (left ++ lexeme :: right) tree)
    (hLength : (left.flatMap Lexeme.text ++ part).length ≤ limits.maxDocument)
    (hSize : tree.size ≤ limits.tokenBudget) :
    ∃ r next, ReadsTo limits (left.flatMap Lexeme.text) r ∧ r.step lexeme = .ok next ∧
      next.size ≤ limits.tokenBudget := by
  have hLeft : (left.flatMap Lexeme.text).length ≤ limits.maxDocument := by
    rw [List.length_append] at hLength
    omega
  obtain ⟨r, hRead, hRun⟩ := h.readsTo_left hLeft hSize
  rw [List.foldlM_cons] at hRun
  obtain ⟨next, hStep, hRight⟩ := bind_eq_ok_iff.mp hRun
  have hTree : next.size ≤ 0 + tree.size := Reading.size_le_of_run hRight
  exact ⟨r, next, hRead, hStep, by omega⟩

/-- A string that is cut off is incomplete. -/
theorem parse_of_torn_string {contents part : Bytes}
    (h : Spells (left ++ .string contents :: right) tree) (hPart : part <+: contents)
    (hLength : (left.flatMap Lexeme.text ++ 0x22 :: part).length ≤ limits.maxDocument)
    (hSize : tree.size ≤ limits.tokenBudget) :
    Document.parse (left.flatMap Lexeme.text ++ 0x22 :: part) limits = .error .incompleteJson := by
  obtain ⟨r, next, hRead, hStep, _⟩ := h.exists_step hLength hSize
  have hContents : Grammar.Contents contents := h.legal (.string contents) (by simp)
  refine hRead.parse_fault (.unclosed part) hLength ?_ fun pos offset => ?_
  · rw [h.lexemes_of_torn rfl, lexemes_unclosed hContents hPart]
  · rw [Reading.step_unclosed]
    cases Reading.step_eq_ok hStep with
    | name => rfl
    | string => rfl

/-- A literal that is cut off is out of place where what is left of it is none. -/
theorem parse_of_torn_literal {word part : Bytes}
    (h : Spells (left ++ .literal word :: right) tree) (hPart : part <+: word) (hSome : part ≠ [])
    (hNone : ¬Grammar.Literal part)
    (hLength : (left.flatMap Lexeme.text ++ part).length ≤ limits.maxDocument)
    (hSize : tree.size ≤ limits.tokenBudget) :
    Document.parse (left.flatMap Lexeme.text ++ part) limits = .error .unexpectedCharacters := by
  obtain ⟨r, next, hRead, _⟩ := h.exists_step hLength hSize
  have hWord : Grammar.Literal word := h.legal (.literal word) (by simp)
  refine hRead.parse_fault (.malformed part) hLength ?_ fun pos offset => rfl
  rw [h.lexemes_of_torn rfl, lexemes_torn hWord hPart hSome,
    if_neg fun hLiteral => hNone (Literal.isLiteral_iff.mp hLiteral)]

theorem readsTo_torn_literal {word part : Bytes}
    (h : Spells (left ++ .literal word :: right) tree) (hPart : part <+: word) (hSome : part ≠ [])
    (hLiteral : Grammar.Literal part)
    (hLength : (left.flatMap Lexeme.text ++ part).length ≤ limits.maxDocument)
    (hSize : tree.size ≤ limits.tokenBudget) :
    ∃ parts, ReadsTo limits (left.flatMap Lexeme.text ++ part)
      ⟨parts, .done (.literal part)⟩ := by
  obtain ⟨r, next, hRead, hStep, hNext⟩ := h.exists_step hLength hSize
  have hWord : Grammar.Literal word := h.legal (.literal word) (by simp)
  have hLexemes : lexemes (left.flatMap Lexeme.text ++ part) =
      lexemes (left.flatMap Lexeme.text) ++ [.literal part] := by
    rw [h.lexemes_of_torn rfl, lexemes_torn hWord hPart hSome,
      if_pos (Literal.isLiteral_iff.mpr hLiteral)]
  cases Reading.step_eq_ok hStep with
  | literal parts =>
    refine ⟨parts, hLength, ?_, ?_, hNext⟩
    · rw [hLexemes, List.forall_mem_append]
      exact ⟨hRead.legal, List.forall_mem_singleton.mpr hLiteral⟩
    · rw [hLexemes, List.foldlM_append, hRead.run]
      rfl

end Spells

namespace Document

variable {limits : Limits}

/-- Wherever a document is cut off, what is left is a document, or it is incomplete, blank, or ends
in what is no literal any more. -/
theorem parse_of_cut {ls : List Lexeme} {tree : Tree} (h : Spells ls tree) {text : Bytes}
    (hText : text <+: ls.flatMap Lexeme.text) (hLength : text.length ≤ limits.maxDocument)
    (hSize : tree.size ≤ limits.tokenBudget) (hRefused : ∀ doc, parse text limits ≠ .ok doc)
    (hBlanks : ¬Blanks text) (hLiteral : ∀ part, CutsLiteral ls text part → Grammar.Literal part) :
    parse text limits = .error .incompleteJson := by
  rcases exists_cut hText with hBetween | hTorn
  · obtain ⟨left, right, rfl, rfl⟩ := hBetween
    obtain ⟨r, hRead, _⟩ := h.readsTo_left hLength hSize
    refine hRead.parse_incomplete ?_ hRefused
    rintro rfl
    exact hBlanks hRead.blanks
  · obtain ⟨left, lexeme, right, part, rfl, rfl, hPart, hSome, hWhole⟩ := hTorn
    by_cases hString : ∃ contents, lexeme = .string contents
    · obtain ⟨contents, rfl⟩ := hString
      rcases List.prefix_concat_iff.mp hPart with hClosed | hPart
      · exact absurd hClosed hWhole
      · rcases List.prefix_cons_iff.mp hPart with rfl | ⟨read, rfl, hRead⟩
        · exact absurd rfl hSome
        · exact h.parse_of_torn_string hRead hLength hSize
    by_cases hWord : ∃ word, lexeme = .literal word
    · obtain ⟨word, rfl⟩ := hWord
      have hPartLiteral := hLiteral part ⟨left, word, right, rfl, rfl, hPart, hSome, hWhole⟩
      obtain ⟨parts, hRead⟩ :=
        h.readsTo_torn_literal hPart hSome hPartLiteral hLength hSize
      exact hRead.parse_incomplete (fun hStart => by cases hStart) hRefused
    · -- No other lexeme can be torn.
      obtain ⟨c, hSingle, _⟩ := ofByte?_of_legal (h.legal lexeme (by simp))
        (fun contents hContents => hString ⟨contents, hContents⟩)
        (fun word hWhole => hWord ⟨word, hWhole⟩)
      rw [hSingle] at hPart hWhole
      rcases List.prefix_cons_iff.mp hPart with rfl | ⟨read, rfl, hRead⟩
      · exact absurd rfl hSome
      · rw [List.prefix_nil.mp hRead] at hWhole
        exact absurd rfl hWhole

/-- Documents that are cut off are told apart from texts that are no part of any.  What is called
incomplete can be completed.  Of a document within the limits, what is left when its end is missing
holds no value if there are only blanks, has an octet out of place if it ends in a part of a literal
that is none, and is incomplete or a document in all other cases. -/
theorem parse_of_truncated (limits : Limits) :
    (∀ text, parse text limits = .error .incompleteJson →
      ∃ suffix ls tree, Spells ls tree ∧ ls.flatMap Lexeme.text = text ++ suffix) ∧
    ∀ ls tree, Spells ls tree → (ls.flatMap Lexeme.text).length ≤ limits.maxDocument →
      tree.size ≤ limits.tokenBudget →
      ∀ text, text <+: ls.flatMap Lexeme.text → (∀ doc, parse text limits ≠ .ok doc) →
        (Blanks text → parse text limits = .error .zeroTokens) ∧
        ((∃ part, CutsLiteral ls text part ∧ ¬Grammar.Literal part) →
          parse text limits = .error .unexpectedCharacters) ∧
        (¬Blanks text → (∀ part, CutsLiteral ls text part → Grammar.Literal part) →
          parse text limits = .error .incompleteJson) := by
  refine ⟨fun text h => exists_spells_of_incomplete h, ?_⟩
  intro ls tree hSpells hLength hSize text hText hRefused
  have hShort : text.length ≤ limits.maxDocument := Nat.le_trans hText.length_le hLength
  refine ⟨fun hBlanks => parse_of_blanks hBlanks hShort, ?_, ?_⟩
  · rintro ⟨part, ⟨left, word, right, rfl, rfl, hPart, hSome, _⟩, hNone⟩
    exact hSpells.parse_of_torn_literal hPart hSome hNone hShort hSize
  · exact fun hBlanks hLiteral =>
      parse_of_cut hSpells hText hShort hSize hRefused hBlanks hLiteral

/-- A list of a negative number is malformed when its end from the digit on is missing, and
incomplete when all behind the first bracket is. -/
theorem parse_of_truncated_oneNumber :
    Spells [.opening .array, .literal [0x2d, 0x31], .closing .array]
        (.array [.literal [0x2d, 0x31]]) ∧
      parse [0x5b, 0x2d] {} = .error .unexpectedCharacters ∧
      parse [0x5b] {} = .error .incompleteJson ∧
      ∃ suffix ls tree, Spells ls tree ∧ ls.flatMap Lexeme.text = [0x5b] ++ suffix := by
  have hNumber : Grammar.Literal [0x2d, 0x31] := Literal.isLiteral_iff.mp (by decide)
  have hSpells : Spells [.opening .array, .literal [0x2d, 0x31], .closing .array]
      (.array [.literal [0x2d, 0x31]]) := by
    refine ⟨?_, rfl⟩
    simp [Legal, hNumber]
  have hMinus : ¬Grammar.Literal [0x2d] := fun h => by
    cases Literal.isLiteral_iff.mpr h
  have hTorn : CutsLiteral [.opening .array, .literal [0x2d, 0x31], .closing .array] [0x5b, 0x2d]
      [0x2d] := ⟨[.opening .array], [0x2d, 0x31], _, rfl, rfl, by decide, by decide, by decide⟩
  have hWhole : ∀ part, ¬CutsLiteral [.opening .array, .literal [0x2d, 0x31], .closing .array]
      [0x5b] part := by
    rintro part ⟨left, word, right, hLexemes, hText, _, hSome, _⟩
    cases left with
    | nil => cases hLexemes
    | cons first left =>
      obtain ⟨rfl, _⟩ := List.cons.inj hLexemes
      exact hSome (List.append_eq_nil_iff.mp (List.cons.inj hText).2.symm).2
  have hRefused : ∀ text ∈ ([[0x5b, 0x2d], [0x5b]] : List Bytes), ∀ doc,
      parse text {} ≠ .ok doc := by
    intro text hText doc hDoc
    rcases List.mem_pair.mp hText with rfl | rfl
    · cases hDoc
    · cases hDoc
  obtain ⟨hCompletion, hCut⟩ := parse_of_truncated {}
  have hCuts := hCut _ _ hSpells (by decide) (by decide)
  have hMalformed := (hCuts [0x5b, 0x2d] (by decide) (hRefused _ (by simp))).2.1
    ⟨[0x2d], hTorn, hMinus⟩
  have hIncomplete := (hCuts [0x5b] (by decide) (hRefused _ (by simp))).2.2
    (fun hBlanks => absurd (hBlanks 0x5b (by simp)) (by decide))
    fun part hPart => absurd hPart (hWhole part)
  exact ⟨hSpells, hMalformed, hIncomplete, hCompletion _ hIncomplete⟩

end Document

end SignReview.Json
