import SignReview.Json.Canonical
import SignReview.Proofs.Json.Recovery

/-!
# Compact texts

`Document.hasWhitespace` looks at the stretches between the string tokens.  In a text that spells a
tree these stretches hold the octets of the other lexemes and the quotes, so that whitespace is
found exactly where the spelling has blanks.  A text without whitespace is the compact text of its
tree.

* `stringsAt`: the string tokens of a spelling, `filter_table`: they are those of the table.
* `Document.Parsed.hasWhitespace_eq`: whitespace is a blank of the spelling.
-/

namespace SignReview.Json

open Lexeme

/-! ### String tokens -/

def Token.isString (token : Token) : Bool := token.kind = .string

def stringsAt (pos : Nat → Nat) : Nat → List Lexeme → List Token
  | _, [] => []
  | k, .string contents :: ls => .quoted (pos k) contents :: stringsAt pos (k + 1) ls
  | k, _ :: ls => stringsAt pos (k + 1) ls

theorem stringsAt_cons {lexeme : Lexeme} (h : ∀ contents, lexeme ≠ .string contents)
    (pos : Nat → Nat) (k : Nat) (ls : List Lexeme) :
    stringsAt pos k (lexeme :: ls) = stringsAt pos (k + 1) ls := by
  cases lexeme with
  | string contents => exact absurd rfl (h contents)
  | _ => rfl

theorem stringsAt_append (pos : Nat → Nat) (k : Nat) (left right : List Lexeme) :
    stringsAt pos k (left ++ right) =
      stringsAt pos k left ++ stringsAt pos (k + left.length) right := by
  induction left generalizing k with
  | nil => rfl
  | cons lexeme left ih =>
    have hNumber : k + 1 + left.length = k + (lexeme :: left).length := by
      rw [List.length_cons]; omega
    rw [List.cons_append]
    by_cases hString : ∃ contents, lexeme = .string contents
    · obtain ⟨contents, rfl⟩ := hString
      rw [stringsAt, stringsAt, ih, hNumber, List.cons_append]
    · have hOther : ∀ contents, lexeme ≠ .string contents :=
        fun contents h => hString ⟨contents, h⟩
      rw [stringsAt_cons hOther, stringsAt_cons hOther, ih, hNumber]

theorem stringsAt_of_not_mem {ls : List Lexeme} (h : ∀ contents, .string contents ∉ ls)
    (pos : Nat → Nat) (k : Nat) : stringsAt pos k ls = [] := by
  induction ls generalizing k with
  | nil => rfl
  | cons lexeme ls ih =>
    rw [stringsAt_cons fun contents hEq => h contents (hEq ▸ List.mem_cons_self)]
    exact ih (fun contents hMem => h contents (List.mem_cons_of_mem _ hMem)) _

theorem filter_elementTable {pos : Nat → Nat} {trees : List Tree} {ls : List Lexeme}
    (h : Spread trees ls) (hTrees : ∀ tree ∈ trees, ∀ k,
      (tree.table pos k).filter Token.isString = stringsAt pos k tree.lexemes) (k : Nat) :
    (Tree.elementTable pos k trees).filter Token.isString = stringsAt pos k ls := by
  induction trees generalizing k ls with
  | nil => exact (stringsAt_of_not_mem h pos k).symm
  | cons tree trees ih =>
    obtain ⟨separator, rest, rfl, hSeparator, hRest⟩ := h
    rw [Tree.elementTable, List.filter_append, hTrees tree List.mem_cons_self,
      ih hRest fun t ht => hTrees t (List.mem_cons_of_mem _ ht), stringsAt_append,
      stringsAt_cons hSeparator]

theorem filter_table (pos : Nat → Nat) (k : Nat) (tree : Tree) :
    (tree.table pos k).filter Token.isString = stringsAt pos k tree.lexemes := by
  induction tree using Tree.childrenInd generalizing k with
  | h tree ih =>
    cases hLeaf : tree.isLeaf with
    | true =>
      cases tree with
      | string contents => rfl
      | literal text => rfl
      | object members => cases hLeaf
      | array elements => cases hLeaf
    | false =>
      obtain ⟨c, ls, hLexemes, hSpread⟩ := Tree.exists_spread hLeaf
      have hToken : (tree.token pos k).isString = false := by
        cases tree with
        | object members => rfl
        | array elements => rfl
        | string contents => cases hLeaf
        | literal text => cases hLeaf
      rw [Tree.table_eq, List.filter_cons_of_neg (by simp [hToken]), hLexemes,
        stringsAt_cons (by simp)]
      exact filter_elementTable hSpread (fun t ht k => ih t ht k) (k + 1)

/-! ### Whitespace between strings -/

theorem Document.outside_filter (size offset : Nat) (tokens : List Token) :
    outside size offset (tokens.filter Token.isString) = outside size offset tokens := by
  induction tokens generalizing offset with
  | nil => rfl
  | cons token tokens ih =>
    by_cases hString : token.kind = .string
    · rw [List.filter_cons_of_pos (by simp [Token.isString, hString]), outside, outside,
        if_pos hString, if_pos hString, ih]
    · rw [List.filter_cons_of_neg (by simp [Token.isString, hString]), outside, if_neg hString, ih]

theorem isWhitespace_of_isDigit {c : UInt8} (h : Bytes.isDigit c) :
    Document.isWhitespace c = false := by
  simp only [Bytes.isDigit, Bool.and_eq_true, decide_eq_true_eq, UInt8.le_iff_toNat_le] at h
  simp only [Document.isWhitespace, Bool.or_eq_false_iff, Bool.and_eq_false_iff,
    decide_eq_false_iff_not, beq_eq_false_iff_ne, ne_eq, ← UInt8.toNat_inj,
    UInt8.le_iff_toNat_le] at h ⊢
  have hLow : (0x30 : UInt8).toNat = 0x30 := rfl
  have hBlank : (0x20 : UInt8).toNat = 0x20 := rfl
  have hReturn : (0x0d : UInt8).toNat = 0x0d := rfl
  omega

theorem isWhitespace_of_literal {word : Bytes} (h : Grammar.Literal word) :
    word.any Document.isWhitespace = false := by
  have hMarks : ∀ c ∈ Grammar.marks, Document.isWhitespace c = false := by decide +kernel
  rw [List.any_eq_false]
  intro c hc
  rw [Bool.not_eq_true]
  rcases h.mem c hc with hDigit | hMark
  · exact isWhitespace_of_isDigit hDigit
  · exact hMarks c hMark

theorem any_isWhitespace {lexeme : Lexeme} (h : lexeme.Legal)
    (hString : ∀ contents, lexeme ≠ .string contents) :
    lexeme.text.any Document.isWhitespace = lexeme.isBlank := by
  cases lexeme with
  | blank c =>
    have hBlanks : ∀ c ∈ ([0x20, 0x09, 0x0a, 0x0d] : Bytes), Document.isWhitespace c = true := by
      decide +kernel
    rw [Lexeme.text, List.any_cons, hBlanks c h]
    rfl
  | opening c => cases c <;> decide
  | closing c => cases c <;> decide
  | colon => decide
  | comma => decide
  | string contents => exact absurd rfl (hString contents)
  | literal word => exact isWhitespace_of_literal h
  | unclosed contents => exact absurd h (by simp [Legal])
  | malformed rest => exact absurd h (by simp [Legal])

theorem extract_append_text {before piece rest : Bytes} {gap : Nat} (h : gap ≤ before.length) :
    (before ++ (piece ++ rest)).extract gap (before ++ piece).length =
      (before ++ (piece ++ rest)).extract gap before.length ++ piece := by
  have hDrop : (before ++ (piece ++ rest)).drop gap = before.drop gap ++ (piece ++ rest) :=
    List.drop_append_of_le_length h
  have hLeft : before.length - gap = (before.drop gap).length := by rw [List.length_drop]
  have hBoth : (before ++ piece).length - gap = (before.drop gap ++ piece).length := by
    simp only [List.length_append, List.length_drop]
    omega
  rw [List.extract_eq_take_drop, List.extract_eq_take_drop, hDrop, hLeft, hBoth, List.take_left,
    ← List.append_assoc, List.take_left]

/-- The stretches outside the strings of a spelling hold whitespace where it has a blank.  The
first of them has begun at `gap`. -/
theorem any_outside {text before : Bytes} {pos : Nat → Nat} {k gap : Nat} {ls : List Lexeme}
    (hText : text = before ++ ls.flatMap Lexeme.text) (hLegal : ∀ lexeme ∈ ls, lexeme.Legal)
    (hPos : ∀ j, pos (k + j) = place before.length ls j) (hGap : gap ≤ before.length) :
    (Document.outside text.length gap (stringsAt pos k (ls.filter (!·.isBlank)))).any
        (fun stretch => (text.extract stretch.1 stretch.2).any Document.isWhitespace) =
      ((text.extract gap before.length).any Document.isWhitespace || ls.any isBlank) := by
  induction ls generalizing before k gap with
  | nil =>
    rw [List.flatMap_nil, List.append_nil] at hText
    simp [stringsAt, Document.outside, hText]
  | cons lexeme ls ih =>
    have hBehind : text = (before ++ lexeme.text) ++ ls.flatMap Lexeme.text := by
      rw [hText, List.flatMap_cons, List.append_assoc]
    have hRest : ∀ l ∈ ls, l.Legal := fun l hl => hLegal l (List.mem_cons_of_mem _ hl)
    have hStep : lexeme.isBlank = false →
        pos k = before.length ∧
          ∀ j, pos (k + 1 + j) = place (before ++ lexeme.text).length ls j := by
      intro hBlank
      constructor
      · rw [← Nat.add_zero k, hPos, place_zero hBlank]
      · intro j
        rw [Nat.add_assoc, Nat.add_comm 1, hPos, place_succ hBlank, List.length_append]
    by_cases hString : ∃ contents, lexeme = .string contents
    · obtain ⟨contents, rfl⟩ := hString
      obtain ⟨hFirst, hNext⟩ := hStep rfl
      have hStop : before.length + 1 + contents.length + 1 =
          (before ++ (Lexeme.string contents).text).length := by
        simp [Lexeme.text]; omega
      have hKind : (Token.quoted (pos k) contents).kind = .string := rfl
      rw [List.filter_cons_of_pos rfl, stringsAt, Document.outside, if_pos hKind, List.any_cons,
        List.any_cons]
      simp only [Token.quoted, hFirst, Nat.add_sub_cancel, hStop]
      have hEmpty : ∀ n, text.extract n n = [] := fun n => by
        rw [List.extract_eq_take_drop, Nat.sub_self, List.take_zero]
      rw [ih hBehind hRest hNext (Nat.le_refl _), hEmpty]
      rfl
    · have hOther : ∀ contents, lexeme ≠ .string contents :=
        fun contents h => hString ⟨contents, h⟩
      have hMore : gap ≤ (before ++ lexeme.text).length := by
        rw [List.length_append]
        omega
      -- The stretch goes on through a lexeme that is no string.
      have hStretch : (text.extract gap (before ++ lexeme.text).length).any Document.isWhitespace =
          ((text.extract gap before.length).any Document.isWhitespace || lexeme.isBlank) := by
        rw [← any_isWhitespace (hLegal lexeme List.mem_cons_self) hOther, ← List.any_append,
          hText, List.flatMap_cons, extract_append_text hGap]
      rw [List.any_cons, ← Bool.or_assoc, ← hStretch]
      cases hBlank : lexeme.isBlank with
      | true =>
        have hNext : ∀ j, pos (k + j) = place (before ++ lexeme.text).length ls j := fun j => by
          rw [hPos, place_blank hBlank, List.length_append]
        rw [List.filter_cons_of_neg (by simp [hBlank])]
        exact ih hBehind hRest hNext hMore
      | false =>
        rw [List.filter_cons_of_pos (by simp [hBlank]), stringsAt_cons hOther]
        exact ih hBehind hRest (hStep hBlank).2 hMore

/-- There is whitespace outside the strings of a document if its spelling has a blank. -/
theorem Document.Parsed.hasWhitespace_eq {doc : Document} {ls : List Lexeme} {tree : Tree}
    (h : doc.Parsed ls tree) : doc.hasWhitespace = ls.any isBlank := by
  have hText : doc.bytes.toList = [] ++ ls.flatMap Lexeme.text := h.bytes_eq
  have hPos : ∀ j, place 0 ls (0 + j) = place ([] : Bytes).length ls j := fun j => by
    rw [Nat.zero_add]
    rfl
  have hAny := any_outside hText h.spells.legal hPos (Nat.le_refl _)
  rw [h.spells.filter_eq, ← filter_table, Document.outside_filter, ← h.tokens_eq,
    Array.length_toList, List.length_nil] at hAny
  have hSame : (fun gap : Nat × Nat => (doc.bytes.extract gap.1 gap.2).any isWhitespace) =
      fun gap => (doc.bytes.toList.extract gap.1 gap.2).any isWhitespace := by
    funext gap
    rw [← Array.toList_extract, Array.any_toList]
  rw [Document.hasWhitespace, hSame, hAny]
  simp

/-! ### Compact texts and trees -/

/-- Without whitespace, there are only the lexemes of the tree. -/
theorem Document.Parsed.eq_lexemes {doc : Document} {ls : List Lexeme} {tree : Tree}
    (h : doc.Parsed ls tree) (hBlank : doc.hasWhitespace = false) : ls = tree.lexemes := by
  rw [h.hasWhitespace_eq, List.any_eq_false] at hBlank
  rw [← h.spells.filter_eq]
  exact (List.filter_eq_self.mpr fun lexeme hMem => by simpa using hBlank lexeme hMem).symm

/-- A text without whitespace is the compact text of its tree. -/
theorem Document.Parsed.eq_compact {doc : Document} {ls : List Lexeme} {tree : Tree}
    (h : doc.Parsed ls tree) (hBlank : doc.hasWhitespace = false) :
    doc.bytes.toList = tree.compact := by
  rw [h.bytes_eq, h.eq_lexemes hBlank, Tree.compact]

theorem Document.Parsed.hasWhitespace_of_compact {doc : Document} {tree : Tree}
    (h : doc.Parsed tree.lexemes tree) : doc.hasWhitespace = false := by
  rw [h.hasWhitespace_eq, List.any_eq_false]
  intro lexeme hMem
  rw [tree.isBlank_of_mem lexeme hMem]
  exact Bool.false_ne_true

theorem Tree.Legal.parse_compact {tree : Tree} (h : tree.Legal) {limits : Limits}
    (hLength : tree.compact.length ≤ limits.maxDocument) (hSize : tree.size ≤ limits.tokenBudget) :
    ∃ doc, Document.parse tree.compact limits = .ok doc ∧ doc.tree = .ok tree ∧
      doc.hasWhitespace = false := by
  obtain ⟨doc, hParse, hParsed⟩ := h.spells.exists_parsed hLength hSize
  exact ⟨doc, hParse, hParsed.tree_eq, hParsed.hasWhitespace_of_compact⟩

/-- Compact texts and trees stand for each other. -/
theorem compact_iff_tree (limits : Limits) :
    (∀ text doc, Document.parse text limits = .ok doc → doc.hasWhitespace = false →
      ∃ tree, doc.tree = .ok tree ∧ text = tree.compact) ∧
    (∀ tree : Tree, tree.Legal → tree.compact.length ≤ limits.maxDocument →
      tree.size ≤ limits.tokenBudget →
      ∃ doc, Document.parse tree.compact limits = .ok doc ∧ doc.tree = .ok tree ∧
        doc.hasWhitespace = false) ∧
    ∀ limits' text text' doc doc', Document.parse text limits = .ok doc →
      Document.parse text' limits' = .ok doc' → doc.hasWhitespace = false →
      doc'.hasWhitespace = false → doc.tree = doc'.tree → text = text' := by
  have hCompact : ∀ limits text doc, Document.parse text limits = .ok doc →
      doc.hasWhitespace = false → ∃ tree, doc.tree = .ok tree ∧ text = tree.compact := by
    intro limits text doc hDoc hBlank
    obtain ⟨ls, tree, hParsed, rfl, _⟩ := Document.exists_parsed hDoc
    exact ⟨tree, hParsed.tree_eq, hParsed.eq_compact hBlank⟩
  refine ⟨hCompact limits, fun tree hLegal hLength hSize => hLegal.parse_compact hLength hSize, ?_⟩
  intro limits' text text' doc doc' hDoc hDoc' hBlank hBlank' hSame
  obtain ⟨tree, hTree, rfl⟩ := hCompact limits text doc hDoc hBlank
  obtain ⟨tree', hTree', rfl⟩ := hCompact limits' text' doc' hDoc' hBlank'
  rw [hTree, hTree'] at hSame
  rw [Except.ok.inj hSame]

theorem compact_iff_tree_of_list :
    (∃ tree, Document.tree ⟨#[0x5b, 0x31, 0x5d], #[⟨.array, 0, 3⟩, ⟨.primitive, 1, 2⟩]⟩ = .ok tree ∧
      [0x5b, 0x31, 0x5d] = tree.compact) ∧
    ∃ doc, Document.parse (Tree.compact (.array [.literal [0x31]])) {} = .ok doc ∧
      doc.tree = .ok (.array [.literal [0x31]]) ∧ doc.hasWhitespace = false := by
  obtain ⟨hCompact, hTree, _⟩ := compact_iff_tree {}
  have hLegal : Tree.Legal (.array [.literal [0x31]]) := by
    intro lexeme hMem
    simp only [Tree.lexemes, Tree.elementLexemes, List.cons_append, List.nil_append,
      List.mem_cons, List.not_mem_nil, or_false] at hMem
    rcases hMem with rfl | rfl | rfl
    · trivial
    · exact Literal.isLiteral_iff.mp (by decide)
    · trivial
  exact ⟨hCompact _ _ (by rfl) (by decide +kernel), hTree _ hLegal (by decide) (by decide)⟩

end SignReview.Json
