import SignReview.Proofs.Json.Compact
import SignReview.Proofs.Json.Subtree

/-!
# A blank more

A blank may be put between any two lexemes of a document.  The document has the same tree then, and
its strings and literals are what they were.  Where no string and no literal would be torn apart,
there is such a place.

* `Lexeme.token?`: the token of a leaf, `HasTokens`: the leaves among lexemes have their tokens,
  `Tree.hasTokens_table`: those of a tree are in its table.
* `Token.IsOutside`: a place does not tear a token apart, `Document.Parsed.exists_split`: where that
  holds of all tokens, it is a place between two lexemes.
* `Spells.blank`: one blank more, `Tree.map_kind_table`, `Document.Parsed.slice_eq`: what is the
  same in all spellings of a tree.
-/

namespace SignReview.Json

open Lexeme

/-! ### Leaves and their tokens -/

def Lexeme.token? (start : Nat) : Lexeme → Option Token
  | .string contents => some (.quoted start contents)
  | .literal text => some (.word start text)
  | _ => none

/-- The tokens of the leaves among lexemes, the first of which is number `k`, are among `tokens`. -/
def HasTokens (pos : Nat → Nat) (k : Nat) (ls : List Lexeme) (tokens : List Token) : Prop :=
  ∀ (j : Nat) (lexeme : Lexeme), ls[j]? = some lexeme →
    ∀ token ∈ lexeme.token? (pos (k + j)), token ∈ tokens

namespace HasTokens

variable {pos : Nat → Nat} {k : Nat}

theorem nil : HasTokens pos k [] [] := by
  intro j lexeme hLexeme
  cases hLexeme

theorem leaf {lexeme : Lexeme} {token : Token} (h : lexeme.token? (pos k) = some token) :
    HasTokens pos k [lexeme] [token] := by
  intro j other hOther found hFound
  cases j with
  | zero =>
    obtain rfl := Option.some.inj hOther
    rw [Nat.add_zero, h] at hFound
    exact List.mem_singleton.mpr (Option.some.inj hFound).symm
  | succ j => cases hOther

theorem other {lexeme : Lexeme} (h : ∀ start, lexeme.token? start = none) :
    HasTokens pos k [lexeme] [] := by
  intro j other hOther found hFound
  cases j with
  | zero =>
    obtain rfl := Option.some.inj hOther
    rw [h] at hFound
    cases hFound
  | succ j => cases hOther

theorem append {left right : List Lexeme} {tokens tokens' : List Token}
    (hLeft : HasTokens pos k left tokens) (hRight : HasTokens pos (k + left.length) right tokens') :
    HasTokens pos k (left ++ right) (tokens ++ tokens') := by
  intro j lexeme hLexeme token hToken
  by_cases hj : j < left.length
  · rw [List.getElem?_append_left hj] at hLexeme
    exact List.mem_append_left _ (hLeft j lexeme hLexeme token hToken)
  · rw [List.getElem?_append_right (Nat.le_of_not_lt hj)] at hLexeme
    refine List.mem_append_right _ (hRight _ lexeme hLexeme token ?_)
    rwa [Nat.add_assoc, Nat.add_sub_cancel' (Nat.le_of_not_lt hj)]

end HasTokens

namespace Tree

variable {pos : Nat → Nat}

theorem hasTokens_members {members : List (Bytes × Tree)}
    (h : ∀ m ∈ members, ∀ k, HasTokens pos k m.2.lexemes (m.2.table pos k)) (k : Nat) :
    HasTokens pos k (memberLexemes members) (memberTable pos k members) := by
  induction members generalizing k with
  | nil => exact .nil
  | cons m members ih =>
    obtain ⟨name, value⟩ := m
    obtain ⟨hFirst, hRest⟩ := List.forall_mem_cons.mp h
    have hName : HasTokens pos k [.string name] [.quoted (pos k) name] := .leaf rfl
    have hColon : HasTokens pos (k + 1) [.colon] [] := .other fun _ => rfl
    cases members with
    | nil =>
      rw [memberTable, memberTable, List.append_nil]
      exact hName.append (hColon.append (hFirst (k + 2)))
    | cons n members =>
      have hComma : HasTokens pos (k + 2 + value.lexemes.length) [.comma] [] := .other fun _ => rfl
      exact hName.append (hColon.append ((hFirst (k + 2)).append (hComma.append (ih hRest _))))

theorem hasTokens_elements {elements : List Tree}
    (h : ∀ e ∈ elements, ∀ k, HasTokens pos k e.lexemes (e.table pos k)) (k : Nat) :
    HasTokens pos k (elementLexemes elements) (elementTable pos k elements) := by
  induction elements generalizing k with
  | nil => exact .nil
  | cons e elements ih =>
    obtain ⟨hFirst, hRest⟩ := List.forall_mem_cons.mp h
    cases elements with
    | nil =>
      rw [elementTable, elementTable, List.append_nil]
      exact hFirst k
    | cons d elements =>
      have hComma : HasTokens pos (k + e.lexemes.length) [.comma] [] := .other fun _ => rfl
      exact (hFirst k).append (hComma.append (ih hRest _))

theorem hasTokens_table (tree : Tree) (k : Nat) :
    HasTokens pos k tree.lexemes (tree.table pos k) := by
  have hBracket : ∀ {inner : List Lexeme} {tokens : List Token} (c : Container) (token : Token)
      (k : Nat), HasTokens pos (k + 1) inner tokens →
        HasTokens pos k (.opening c :: (inner ++ [.closing c])) (token :: tokens) := by
    intro inner tokens c token k hInner
    have hOpening : HasTokens pos k [.opening c] [] := .other fun _ => rfl
    have hClosing : HasTokens pos (k + 1 + inner.length) [.closing c] [] := .other fun _ => rfl
    have hAll := hOpening.append (hInner.append hClosing)
    rw [List.nil_append, List.append_nil] at hAll
    intro j lexeme hLexeme found hFound
    exact List.mem_cons_of_mem _ (hAll j lexeme hLexeme found hFound)
  induction tree using Tree.ind generalizing k with
  | object members ih => exact hBracket .object _ k (hasTokens_members ih (k + 1))
  | array elements ih => exact hBracket .array _ k (hasTokens_elements ih (k + 1))
  | string contents => exact .leaf rfl
  | literal text => exact .leaf rfl

end Tree

/-! ### Places between lexemes -/

/-- A place in a text is at the end of a lexeme or inside one. -/
theorem exists_lexeme_of_le {ls : List Lexeme} {place : Nat}
    (h : place ≤ (ls.flatMap Lexeme.text).length) :
    (∃ left right, ls = left ++ right ∧ (left.flatMap Lexeme.text).length = place) ∨
      ∃ left lexeme right, ls = left ++ lexeme :: right ∧
        (left.flatMap Lexeme.text).length < place ∧
        place < (left.flatMap Lexeme.text).length + lexeme.text.length := by
  induction ls generalizing place with
  | nil =>
    refine Or.inl ⟨[], [], rfl, ?_⟩
    exact (Nat.le_zero.mp h).symm
  | cons lexeme ls ih =>
    rw [List.flatMap_cons, List.length_append] at h
    rcases Nat.eq_zero_or_pos place with rfl | hPos
    · exact Or.inl ⟨[], lexeme :: ls, rfl, rfl⟩
    · by_cases hInside : place < lexeme.text.length
      · exact Or.inr ⟨[], lexeme, ls, rfl, hPos, by simpa using hInside⟩
      · rcases @ih (place - lexeme.text.length) (by omega) with hEnd | hLater
        · obtain ⟨left, right, rfl, hLength⟩ := hEnd
          refine Or.inl ⟨lexeme :: left, right, rfl, ?_⟩
          rw [List.flatMap_cons, List.length_append, hLength]
          omega
        · obtain ⟨left, other, right, rfl, hLow, hHigh⟩ := hLater
          refine Or.inr ⟨lexeme :: left, other, right, rfl, ?_, ?_⟩
          · rw [List.flatMap_cons, List.length_append]
            omega
          · rw [List.flatMap_cons, List.length_append]
            omega

/-- The place in front of octet `place` is neither between the quotes of the token nor inside it, if
it is a string or literal. -/
structure Token.IsOutside (place : Nat) (token : Token) : Prop where
  string : token.kind = .string → place < token.start ∨ token.stop < place
  literal : token.kind = .primitive → place ≤ token.start ∨ token.stop ≤ place

instance (place : Nat) (token : Token) : Decidable (token.IsOutside place) :=
  decidable_of_iff ((token.kind = .string → place < token.start ∨ token.stop < place) ∧
    (token.kind = .primitive → place ≤ token.start ∨ token.stop ≤ place))
    ⟨fun h => ⟨h.1, h.2⟩, fun h => ⟨h.string, h.literal⟩⟩

/-- There is no place inside a lexeme but that of a string or literal. -/
theorem exists_token_of_lt {lexeme : Lexeme} (h : lexeme.Legal) {start place : Nat}
    (hLow : start < place) (hHigh : place < start + lexeme.text.length) :
    ∃ token ∈ lexeme.token? start, ¬token.IsOutside place := by
  cases lexeme with
  | string contents =>
    refine ⟨.quoted start contents, rfl, fun hOutside => ?_⟩
    have hPlace := hOutside.string rfl
    simp only [Token.quoted, Lexeme.text, List.length_append, List.length_cons,
      List.length_nil] at hPlace hHigh
    omega
  | literal text =>
    refine ⟨.word start text, rfl, fun hOutside => ?_⟩
    have hPlace := hOutside.literal rfl
    simp only [Token.word, Lexeme.text] at hPlace hHigh
    omega
  | blank c => exact absurd hHigh (Nat.not_lt.mpr hLow)
  | opening c => cases c <;> exact absurd hHigh (Nat.not_lt.mpr hLow)
  | closing c => cases c <;> exact absurd hHigh (Nat.not_lt.mpr hLow)
  | colon => exact absurd hHigh (Nat.not_lt.mpr hLow)
  | comma => exact absurd hHigh (Nat.not_lt.mpr hLow)
  | unclosed contents => exact h.elim
  | malformed rest => exact h.elim

/-- In a compact document, a place outside all strings and literals is one between lexemes. -/
theorem Document.Parsed.exists_split {doc : Document} {tree : Tree}
    (h : doc.Parsed tree.lexemes tree) {front back : Bytes}
    (hText : doc.bytes.toList = front ++ back)
    (hOutside : ∀ token ∈ doc.tokens.toList, token.IsOutside front.length) :
    ∃ left right, tree.lexemes = left ++ right ∧ left.flatMap Lexeme.text = front ∧
      right.flatMap Lexeme.text = back := by
  have hAll : tree.lexemes.flatMap Lexeme.text = front ++ back := h.bytes_eq.symm.trans hText
  have hLength : front.length ≤ (tree.lexemes.flatMap Lexeme.text).length := by
    rw [hAll, List.length_append]
    omega
  rcases exists_lexeme_of_le hLength with ⟨left, right, hSplit, hFront⟩ | hInside
  · rw [hSplit, List.flatMap_append] at hAll
    obtain ⟨hFront, hBack⟩ := List.append_inj hAll hFront
    exact ⟨left, right, hSplit, hFront, hBack⟩
  · obtain ⟨left, lexeme, right, hSplit, hLow, hHigh⟩ := hInside
    -- a lexeme of more than one octet has a token, which is torn apart here
    have hMem : lexeme ∈ tree.lexemes := by simp [hSplit]
    obtain ⟨token, hToken, hTorn⟩ :=
      exists_token_of_lt (h.spells.legal lexeme hMem) hLow hHigh
    have hBlank : ∀ l ∈ left ++ lexeme :: right, l.isBlank = false := hSplit ▸ tree.isBlank_of_mem
    have hPlace : place 0 tree.lexemes left.length = (left.flatMap Lexeme.text).length := by
      obtain ⟨hLeft, hRight⟩ := List.forall_mem_append.mp hBlank
      rw [hSplit, place_append hLeft hRight, Nat.zero_add]
    have hLexeme : tree.lexemes[left.length]? = some lexeme := by simp [hSplit]
    have hHas : HasTokens (place 0 tree.lexemes) 0 tree.lexemes doc.tokens.toList :=
      h.tokens_eq ▸ tree.hasTokens_table 0
    have hTable := hHas left.length lexeme hLexeme token (by rwa [Nat.zero_add, hPlace])
    exact absurd (hOutside token hTable) hTorn

/-! ### One tree in two spellings -/

/-- A blank may stand anywhere among the lexemes. -/
theorem Spells.blank {left right : List Lexeme} {tree : Tree} (h : Spells (left ++ right) tree)
    {c : UInt8} (hBlank : c ∈ ([0x20, 0x09, 0x0a, 0x0d] : Bytes)) :
    Spells (left ++ .blank c :: right) tree where
  legal := by
    have hLegal := h.legal
    rw [List.forall_mem_append] at hLegal ⊢
    exact ⟨hLegal.1, List.forall_mem_cons.mpr ⟨hBlank, hLegal.2⟩⟩
  filter_eq := by
    rw [← h.filter_eq, List.filter_append, List.filter_append]
    rfl

theorem map_kind_elementTable {trees : List Tree} {pos pos' : Nat → Nat}
    (h : ∀ tree ∈ trees, ∀ k k',
      (tree.table pos k).map Token.kind = (tree.table pos' k').map Token.kind) (k k' : Nat) :
    (Tree.elementTable pos k trees).map Token.kind =
      (Tree.elementTable pos' k' trees).map Token.kind := by
  induction trees generalizing k k' with
  | nil => rfl
  | cons tree trees ih =>
    obtain ⟨hFirst, hRest⟩ := List.forall_mem_cons.mp h
    rw [Tree.elementTable, Tree.elementTable, List.map_append, List.map_append, hFirst k k',
      ih hRest]

/-- The kinds of the tokens do not depend on where the lexemes stand. -/
theorem Tree.map_kind_table (tree : Tree) (pos pos' : Nat → Nat) (k k' : Nat) :
    (tree.table pos k).map Token.kind = (tree.table pos' k').map Token.kind := by
  induction tree using Tree.childrenInd generalizing k k' with
  | h tree ih =>
    rw [Tree.table_eq, Tree.table_eq, List.map_cons, List.map_cons, Tree.kind_token,
      Tree.kind_token, map_kind_elementTable fun child hChild => ih child hChild]

/-- The token of a leaf covers the same octets in all spellings of a tree. -/
theorem Document.Parsed.slice_eq {doc doc' : Document} {ls ls' : List Lexeme} {root : Tree}
    (h : doc.Parsed ls root) (h' : doc'.Parsed ls' root) {i : Nat} {token : Token}
    (hToken : doc.token i = .ok token) (hLeaf : token.isLeaf) :
    ∃ octets, doc.slice i = .ok octets ∧ doc'.slice i = .ok octets := by
  have hi : i < root.size := by
    obtain ⟨hi, _⟩ := Array.getElem?_eq_some_iff.mp (token_eq_ok_iff.mp hToken)
    rwa [h.size_tokens] at hi
  obtain ⟨k, tree, hAt, hAt'⟩ := Tree.exists_of_lt
    (fun k i tree => OccursAt doc ls k i tree ∧ OccursAt doc' ls' k i tree)
    (by
      rintro k i tree child left right ⟨hAt, hAt'⟩ hChildren
      exact ⟨hAt.child h hChildren, hAt'.child h' hChildren⟩)
    ⟨h.occursAt, h'.occursAt⟩ (Nat.zero_le i) (by omega)
  have hOccurs : Occurs doc i tree := ⟨ls, root, k, h, hAt⟩
  have hOccurs' : Occurs doc' i tree := ⟨ls', root, k, h', hAt'⟩
  rw [hOccurs.isLeaf_eq hToken] at hLeaf
  cases tree with
  | string contents => exact ⟨contents, hOccurs.slice_string, hOccurs'.slice_string⟩
  | literal text => exact ⟨text, hOccurs.slice_literal, hOccurs'.slice_literal⟩
  | object members => cases hLeaf
  | array elements => cases hLeaf

end SignReview.Json
