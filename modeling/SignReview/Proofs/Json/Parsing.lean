import SignReview.Json.Document
import SignReview.Proofs.Json.Building
import SignReview.Proofs.Json.Layout
import SignReview.Proofs.Json.Runs

/-!
# What is parsed

`Document.parse` accepts the texts that spell a tree, and its table is that of the tree.

* `Token.table_eq_ok_iff`: the table of a text.
* `Document.Parsed`: a document that has been read from a spelling of a tree.
* `parse_reads_tree`: what is accepted and what is made of it, `isOpen_of_parse_longestArray`: the
  one place where the number of the mark is an end.
-/

namespace SignReview.Json

open Lexeme

/-! ### The table of a text -/

theorem Builder.step_of_isFault (budget : Nat) (b : Builder) {lexeme : Lexeme}
    (h : lexeme.isFault) : ∃ e, Builder.step budget b lexeme = .error e := by
  cases lexeme with
  | unclosed contents =>
    rw [Builder.step]
    split
    · exact ⟨_, rfl⟩
    · exact ⟨_, rfl⟩
  | malformed rest => exact ⟨_, rfl⟩
  | _ => cases h

theorem Builder.isFault_of_run {budget : Nat} {ls : List Lexeme} {b c : Builder}
    (h : ls.foldlM (Builder.step budget) b = .ok c) : ∀ lexeme ∈ ls, lexeme.isFault = false := by
  induction ls generalizing b with
  | nil => intro lexeme hMem; cases hMem
  | cons lexeme ls ih =>
    cases hStep : Builder.step budget b lexeme with
    | error e => rw [List.foldlM_cons, hStep] at h; cases h
    | ok next =>
      rw [foldlM_cons_ok hStep] at h
      refine List.forall_mem_cons.mpr ⟨?_, ih h⟩
      cases hFault : lexeme.isFault with
      | false => rfl
      | true =>
        obtain ⟨e, hError⟩ := Builder.step_of_isFault budget b hFault
        rw [hStep] at hError
        cases hError

/-- The builder reads legal lexemes as a reading does that stays within the budget. -/
theorem Builder.run_legal {budget : Nat} {ls : List Lexeme} {b : Builder}
    (hLength : (ls.flatMap Lexeme.text).length ≤ Token.openMark)
    (hLegal : ∀ lexeme ∈ ls, lexeme.Legal) :
    ls.foldlM (Builder.step budget) .start = .ok b ↔
      ∃ s, ls.foldlM Reading.step .start = .ok s ∧ s.size ≤ budget ∧
        b = s.builder (place 0 ls) (ls.flatMap Lexeme.text).length := by
  have hPos : ∀ j, place 0 ls (Reading.start.lexemes.length + j) = place 0 ls j := fun j => by
    rw [show Reading.start.lexemes.length + j = j from Nat.zero_add j]
  have hEnd : 0 + (ls.flatMap Lexeme.text).length ≤ Token.openMark := by rwa [Nat.zero_add]
  rw [← Reading.start_builder (place 0 ls), Reading.run_builder
    (fun l hl => (hLegal l hl).text_ne_nil) hPos (fun i hi => by cases hi) hEnd (Nat.zero_le _),
    Nat.zero_add]

theorem Builder.run_start {budget : Nat} {text : Bytes} {b : Builder}
    (hLength : text.length ≤ Token.openMark) (hLegal : ∀ lexeme ∈ lexemes text, lexeme.Legal) :
    (lexemes text).foldlM (Builder.step budget) .start = .ok b ↔
      ∃ s, (lexemes text).foldlM Reading.step .start = .ok s ∧ s.size ≤ budget ∧
        b = s.builder (place 0 (lexemes text)) text.length := by
  rw [← flatMap_text_lexemes text] at hLength
  rw [Builder.run_legal hLength hLegal, flatMap_text_lexemes]

/-- A spelling of a tree is read as the tree. -/
theorem Spells.run {ls : List Lexeme} {tree : Tree} (h : Spells ls tree) :
    ls.foldlM Reading.step .start = .ok ⟨[], .done tree⟩ := by
  rw [← Reading.run_filter, h.filter_eq]
  exact Reading.run_lexemes tree []

/-- A text has a table if it spells a tree within the budget, and the table is that of the
tree. -/
theorem Token.table_eq_ok_iff {budget : Nat} {text : Bytes} {tokens : Array Token}
    (hLength : text.length ≤ Token.openMark) :
    Token.table budget text = .ok tokens ↔
      ∃ ls tree, Spells ls tree ∧ ls.flatMap Lexeme.text = text ∧ tree.size ≤ budget ∧
        tokens = (tree.table (place 0 ls) 0).toArray := by
  constructor
  · intro h
    rw [Token.table] at h
    cases hFold : (lexemes text).foldlM (Builder.step budget) .start with
    | error e => rw [hFold] at h; cases h
    | ok b =>
      rw [hFold] at h
      have hLegal : ∀ lexeme ∈ lexemes text, lexeme.Legal := fun lexeme hMem => by
        rcases legal_of_mem_lexemes hMem with hLegal | hFault
        · exact hLegal
        · rw [Builder.isFault_of_run hFold lexeme hMem] at hFault
          cases hFault
      obtain ⟨s, hRun, hSize, rfl⟩ := (Builder.run_start hLength hLegal).mp hFold
      obtain ⟨tree, rfl, rfl⟩ := Reading.finish_builder.mp h
      have hFilter : tree.lexemes = (lexemes text).filter (!·.isBlank) :=
        Reading.lexemes_of_run hRun
      refine ⟨lexemes text, tree, ⟨hLegal, hFilter.symm⟩, flatMap_text_lexemes text, ?_, rfl⟩
      simpa [Reading.size, Reading.partSize, Focus.size] using hSize
  · rintro ⟨ls, tree, hSpells, rfl, hSize, rfl⟩
    have hLexemes := hSpells.lexemes_eq
    have hRead := hSpells.run
    have hLegal : ∀ lexeme ∈ lexemes (ls.flatMap Lexeme.text), lexeme.Legal := by
      rw [hLexemes]
      exact hSpells.legal
    have hFold : (lexemes (ls.flatMap Lexeme.text)).foldlM (Builder.step budget) .start =
        .ok (Reading.builder (place 0 ls) (ls.flatMap Lexeme.text).length ⟨[], .done tree⟩) := by
      rw [Builder.run_start hLength hLegal, hLexemes]
      exact ⟨_, hRead, by simpa [Reading.size, Reading.partSize, Focus.size] using hSize, rfl⟩
    rw [Token.table, hFold]
    exact Reading.finish_done tree

/-! ### Documents -/

/-- The document has been read from the spelling `ls` of the tree. -/
structure Document.Parsed (doc : Document) (ls : List Lexeme) (tree : Tree) : Prop where
  spells : Spells ls tree
  bytes_eq : doc.bytes.toList = ls.flatMap Lexeme.text
  tokens_eq : doc.tokens.toList = tree.table (place 0 ls) 0

theorem Document.parse_eq_ok_iff {text : Bytes} {limits : Limits} {doc : Document}
    (hLength : text.length ≤ limits.maxDocument) :
    Document.parse text limits = .ok doc ↔
      ∃ ls tree, doc.Parsed ls tree ∧ doc.bytes.toList = text ∧ tree.size ≤ limits.tokenBudget := by
  have hMark : text.length ≤ Token.openMark := Nat.le_trans hLength (Nat.min_le_right _ _)
  have hParse : Document.parse text limits =
      Token.table limits.tokenBudget text >>= fun tokens => .ok ⟨text.toArray, tokens⟩ := by
    rw [Document.parse, if_neg (Nat.not_lt.mpr hLength)]
    rfl
  rw [hParse]
  constructor
  · intro h
    cases hTable : Token.table limits.tokenBudget text with
    | error e => rw [hTable] at h; cases h
    | ok tokens =>
      rw [hTable] at h
      obtain rfl := Except.ok.inj h
      obtain ⟨ls, tree, hSpells, hText, hSize, rfl⟩ := (Token.table_eq_ok_iff hMark).mp hTable
      exact ⟨ls, tree, ⟨hSpells, hText.symm, rfl⟩, rfl, hSize⟩
  · rintro ⟨ls, tree, ⟨hSpells, hBytes, hTokens⟩, hText, hSize⟩
    have hTable := (Token.table_eq_ok_iff hMark).mpr
      ⟨ls, tree, hSpells, hBytes.symm.trans hText, hSize, rfl⟩
    obtain ⟨bytes, tokens⟩ := doc
    rw [hTable, ← hText, ← hTokens]
    rfl

theorem Spells.exists_parsed {ls : List Lexeme} {tree : Tree} (h : Spells ls tree) {limits : Limits}
    (hLength : (ls.flatMap Lexeme.text).length ≤ limits.maxDocument)
    (hSize : tree.size ≤ limits.tokenBudget) :
    ∃ doc, Document.parse (ls.flatMap Lexeme.text) limits = .ok doc ∧ doc.Parsed ls tree := by
  have hParsed : Document.Parsed
      ⟨(ls.flatMap Lexeme.text).toArray, (tree.table (place 0 ls) 0).toArray⟩ ls tree :=
    ⟨h, rfl, rfl⟩
  exact ⟨_, (Document.parse_eq_ok_iff hLength).mpr ⟨ls, tree, hParsed, rfl, hSize⟩, hParsed⟩

theorem Document.length_le_of_parse {text : Bytes} {limits : Limits} {doc : Document}
    (h : Document.parse text limits = .ok doc) : text.length ≤ limits.maxDocument := by
  rw [Document.parse] at h
  by_cases hLong : limits.maxDocument < text.length
  · rw [if_pos hLong] at h
    cases h
  · exact Nat.le_of_not_lt hLong

/-- A document that has been accepted has been read from a spelling of a tree. -/
theorem Document.exists_parsed {text : Bytes} {limits : Limits} {doc : Document}
    (h : Document.parse text limits = .ok doc) :
    ∃ ls tree, doc.Parsed ls tree ∧ doc.bytes.toList = text ∧ tree.size ≤ limits.tokenBudget :=
  (parse_eq_ok_iff (length_le_of_parse h)).mp h

namespace Document.Parsed

variable {doc : Document} {ls : List Lexeme} {tree : Tree}

theorem laid (h : doc.Parsed ls tree) : Laid doc.bytes.toList (place 0 ls) 0 tree where
  legal := h.spells.tree_legal
  stands := h.bytes_eq ▸ h.spells.stands

/-- A document has been read from one spelling of one tree. -/
theorem unique (h : doc.Parsed ls tree) {ls' : List Lexeme} {tree' : Tree}
    (hSpells : Spells ls' tree') (hText : ls'.flatMap Lexeme.text = doc.bytes.toList) :
    ls' = ls ∧ tree' = tree := by
  have hSame : ls' = ls := by
    rw [← hSpells.lexemes_eq, ← h.spells.lexemes_eq, hText, h.bytes_eq]
  refine ⟨hSame, Tree.lexemes_injective ?_⟩
  rw [← hSpells.filter_eq, ← h.spells.filter_eq, hSame]

theorem eq_of_bytes (h : doc.Parsed ls tree) {doc' : Document} {ls' : List Lexeme} {tree' : Tree}
    (h' : doc'.Parsed ls' tree') (hBytes : doc'.bytes.toList = doc.bytes.toList) : doc' = doc := by
  obtain ⟨rfl, rfl⟩ := h.unique h'.spells (h'.bytes_eq.symm.trans hBytes)
  obtain ⟨bytes, tokens⟩ := doc
  obtain ⟨bytes', tokens'⟩ := doc'
  obtain rfl : bytes' = bytes := Array.toList_inj.mp hBytes
  obtain rfl : tokens' = tokens := Array.toList_inj.mp (h'.tokens_eq.trans h.tokens_eq.symm)
  rfl

theorem size_tokens (h : doc.Parsed ls tree) : doc.tokens.size = tree.size := by
  rw [← Array.length_toList, h.tokens_eq, Tree.length_table]

theorem bounds (h : doc.Parsed ls tree) {token : Token} (hToken : token ∈ doc.tokens.toList) :
    token.start ≤ token.stop ∧ token.stop ≤ doc.bytes.toList.length := by
  rw [h.tokens_eq] at hToken
  obtain ⟨_, hOrder, _, hStop⟩ := h.laid.between token hToken
  exact ⟨hOrder, Nat.le_trans hStop h.laid.stands.end_le⟩

/-- Only the first token reaches up to the end of the text. -/
theorem stop_lt (h : doc.Parsed ls tree) {i : Nat} {token : Token}
    (hToken : doc.tokens[i + 1]? = some token) : token.stop < doc.bytes.toList.length := by
  rw [← Array.getElem?_toList, h.tokens_eq, Tree.table_eq, List.getElem?_cons_succ] at hToken
  have hRoot : tree.token (place 0 ls) 0 ∈ doc.tokens.toList := by
    rw [h.tokens_eq, Tree.table_eq]
    exact List.mem_cons_self
  exact Nat.lt_of_lt_of_le (h.laid.stop_lt (List.mem_of_getElem? hToken)) (h.bounds hRoot).2

/-- The octets of a token can always be read. -/
theorem slice (h : doc.Parsed ls tree) {i : Nat} {token : Token}
    (hToken : doc.tokens[i]? = some token) :
    doc.slice i = .ok (doc.bytes.toList.extract token.start token.stop) := by
  have hMem : token ∈ doc.tokens.toList := Array.mem_toList_iff.mpr (Array.mem_of_getElem? hToken)
  have hRange := h.bounds hMem
  rw [Array.length_toList] at hRange
  have hRead : doc.token i = .ok token := by rw [Document.token, hToken]
  rw [Document.slice, hRead]
  show (if _ then _ else _) = _
  rw [if_pos hRange, Array.toList_extract]
  rfl

end Document.Parsed

/-- A text that is accepted within several limits is read as the same document. -/
theorem Document.eq_of_parse {text : Bytes} {limits limits' : Limits} {doc doc' : Document}
    (h : Document.parse text limits = .ok doc) (h' : Document.parse text limits' = .ok doc') :
    doc' = doc := by
  obtain ⟨_, _, hParsed, hText, _⟩ := Document.exists_parsed h
  obtain ⟨_, _, hParsed', hText', _⟩ := Document.exists_parsed h'
  exact hParsed.eq_of_bytes hParsed' (hText'.trans hText.symm)

/-- What `Document.parse` accepts, and what it makes of it: the texts that spell a tree within the
budget, and the table of the tree.  No container keeps the mark of an open one, up to one case: in a
text of the greatest length the stop of the first token may be the number of the mark. -/
theorem parse_reads_tree {text : Bytes} {limits : Limits}
    (hLength : text.length ≤ limits.maxDocument) :
    ((∃ doc, Document.parse text limits = .ok doc) ↔
      ∃ ls tree, Spells ls tree ∧ ls.flatMap Lexeme.text = text ∧
        tree.size ≤ limits.tokenBudget) ∧
    ∀ doc, Document.parse text limits = .ok doc → doc.bytes.toList = text ∧
      ∃ ls tree, Spells ls tree ∧ ls.flatMap Lexeme.text = text ∧
        (∀ ls' tree', Spells ls' tree' → ls'.flatMap Lexeme.text = text → ls' = ls ∧ tree' = tree) ∧
        doc.tokens.toList = tree.table (place 0 ls) 0 ∧
        Stands text (place 0 ls) 0 tree.lexemes ∧
        doc.tokens.toList.Pairwise Token.Before ∧
        ∀ i, match doc.tokens[i]? with
          | some token =>
            token.Fits text ∧ token.start ≤ token.stop ∧ token.stop ≤ text.length ∧
              (token.isOpen → i = 0 ∧ text.length = Token.openMark) ∧
              doc.slice i = .ok (text.extract token.start token.stop)
          | none => doc.slice i = .error .noData := by
  have hMark : text.length ≤ Token.openMark := Nat.le_trans hLength (Nat.min_le_right _ _)
  refine ⟨⟨?_, ?_⟩, ?_⟩
  · rintro ⟨doc, hDoc⟩
    obtain ⟨ls, tree, hParsed, hBytes, hSize⟩ := (Document.parse_eq_ok_iff hLength).mp hDoc
    exact ⟨ls, tree, hParsed.spells, hParsed.bytes_eq.symm.trans hBytes, hSize⟩
  · rintro ⟨ls, tree, hSpells, hText, hSize⟩
    have hParsed : Document.Parsed ⟨text.toArray, (tree.table (place 0 ls) 0).toArray⟩ ls tree :=
      ⟨hSpells, hText.symm, rfl⟩
    exact ⟨_, (Document.parse_eq_ok_iff hLength).mpr ⟨ls, tree, hParsed, rfl, hSize⟩⟩
  · intro doc hDoc
    obtain ⟨ls, tree, hParsed, hBytes, _⟩ := (Document.parse_eq_ok_iff hLength).mp hDoc
    have hLaid := hParsed.laid
    rw [hBytes] at hLaid
    refine ⟨hBytes, ls, tree, hParsed.spells, hParsed.bytes_eq.symm.trans hBytes, ?_,
      hParsed.tokens_eq, hLaid.stands, hParsed.tokens_eq ▸ hLaid.pairwise, ?_⟩
    · intro ls' tree' hSpells hText
      exact hParsed.unique hSpells (hText.trans hBytes.symm)
    · intro i
      cases hToken : doc.tokens[i]? with
      | none =>
        simp only [Document.slice, Document.token, hToken]
        rfl
      | some token =>
        have hMem : token ∈ doc.tokens.toList :=
          Array.mem_toList_iff.mpr (Array.mem_of_getElem? hToken)
        obtain ⟨hOrder, hStop⟩ := hParsed.bounds hMem
        rw [hBytes] at hStop
        refine ⟨hLaid.fits token (hParsed.tokens_eq ▸ hMem), hOrder, hStop, ?_, ?_⟩
        · intro hOpen
          have hEnd : token.stop = Token.openMark := by
            simp only [Token.isOpen, Bool.and_eq_true, beq_iff_eq] at hOpen
            exact hOpen.1
          cases i with
          | zero => exact ⟨rfl, by omega⟩
          | succ i =>
            have hInside := hParsed.stop_lt hToken
            rw [hBytes] at hInside
            omega
        · rw [hParsed.slice hToken, hBytes]

/-- An array with as many spaces in it as a text has room for. -/
def longestArray : List Run := [⟨[0x5b], 1⟩, ⟨[0x20], 0xfffffffd⟩, ⟨[0x5d], 1⟩]

/-- The array of the greatest length is accepted, and its token has the number of the mark. -/
theorem isOpen_of_parse_longestArray :
    (longestArray.flatMap Run.text).length ≤ Limits.maxDocument { maxBytes := 0xffffffff } ∧
      ∃ doc, Document.parse (longestArray.flatMap Run.text) { maxBytes := 0xffffffff } = .ok doc ∧
        ∃ token, doc.tokens[0]? = some token ∧ token.isOpen := by
  -- in runs the text is never written out
  have hTokens : Document.readRuns longestArray { maxBytes := 0xffffffff } =
      .ok #[⟨.array, 0, 0xffffffff⟩] := by rfl
  rw [Document.readRuns_eq] at hTokens
  cases hDoc : Document.parse (longestArray.flatMap Run.text) { maxBytes := 0xffffffff } with
  | error e =>
    rw [hDoc] at hTokens
    cases hTokens
  | ok doc =>
    rw [hDoc] at hTokens
    have hRoot : doc.tokens = #[⟨.array, 0, 0xffffffff⟩] := Except.ok.inj hTokens
    refine ⟨Document.length_le_of_parse hDoc, doc, rfl, ⟨.array, 0, 0xffffffff⟩, ?_, rfl⟩
    rw [hRoot]
    rfl

theorem parse_reads_tree_of_list :
    ∃ doc, Document.parse [0x5b, 0x20, 0x31, 0x5d] {} = .ok doc ∧
      doc.tokens.toList = [⟨.array, 0, 4⟩, ⟨.primitive, 2, 3⟩] ∧
      ∃ ls tree, Spells ls tree ∧ ls.flatMap Lexeme.text = [0x5b, 0x20, 0x31, 0x5d] ∧
        doc.tokens.toList = tree.table (place 0 ls) 0 := by
  have hLength : ([0x5b, 0x20, 0x31, 0x5d] : Bytes).length ≤ Limits.maxDocument {} := by decide
  obtain ⟨_, hTable⟩ := parse_reads_tree hLength
  refine ⟨⟨#[0x5b, 0x20, 0x31, 0x5d], #[⟨.array, 0, 4⟩, ⟨.primitive, 2, 3⟩]⟩, by rfl, rfl, ?_⟩
  obtain ⟨_, ls, tree, hSpells, hText, _, hTokens, _⟩ := hTable
    ⟨#[0x5b, 0x20, 0x31, 0x5d], #[⟨.array, 0, 4⟩, ⟨.primitive, 2, 3⟩]⟩ (by rfl)
  exact ⟨ls, tree, hSpells, hText, hTokens⟩

end SignReview.Json
