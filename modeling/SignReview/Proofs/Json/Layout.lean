import SignReview.Proofs.Json.Spelling

/-!
# How the tokens of a tree lie in a text

Where the lexemes of a tree stand in a text, its tokens are ranges of the text: those of the
children lie inside that of the tree, one behind the other.

* `Laid`: the lexemes of a tree are legal and stand in the text, `LaidApart`: those of children.
* `Laid.between`: where tokens lie, `Laid.pairwise`: how two of them lie to each other.
* `Laid.fits`: what a token covers.
-/

namespace SignReview.Json

open Lexeme

/-! ### Lexemes one behind the other -/

namespace Stands

variable {text : Bytes} {pos : Nat → Nat} {k : Nat} {ls rest : List Lexeme}

theorem le_length (h : Stands text pos k ls) : pos k ≤ text.length := by
  induction ls generalizing k with
  | nil => exact h
  | cons lexeme ls ih =>
    obtain ⟨_, hNext, hRest⟩ := h
    have := ih hRest
    omega

theorem le_add (h : Stands text pos k ls) {j : Nat} (hj : j ≤ ls.length) :
    pos k ≤ pos (k + j) := by
  induction ls generalizing k j with
  | nil =>
    obtain rfl : j = 0 := by simpa using hj
    exact Nat.le_refl _
  | cons lexeme ls ih =>
    obtain ⟨_, hNext, hRest⟩ := h
    cases j with
    | zero => exact Nat.le_refl _
    | succ j =>
      have := ih hRest (Nat.le_of_succ_le_succ hj)
      rw [show k + (j + 1) = k + 1 + j by omega]
      omega

theorem append (h : Stands text pos k (ls ++ rest)) :
    Stands text pos k ls ∧ Stands text pos (k + ls.length) rest := by
  induction ls generalizing k with
  | nil => exact ⟨h.le_length, h⟩
  | cons lexeme ls ih =>
    obtain ⟨hText, hNext, hRest⟩ := h
    obtain ⟨hLeft, hRight⟩ := ih hRest
    refine ⟨⟨hText, hNext, hLeft⟩, ?_⟩
    rwa [show k + 1 + ls.length = k + (lexeme :: ls).length by simp; omega] at hRight

theorem end_le (h : Stands text pos k ls) : pos (k + ls.length) ≤ text.length := by
  rw [← List.append_nil ls] at h
  exact h.append.2

end Stands

theorem Lexeme.Legal.text_ne_nil {lexeme : Lexeme} (h : lexeme.Legal) : lexeme.text ≠ [] := by
  cases lexeme with
  | blank c => simp [text]
  | opening c => cases c <;> simp [text]
  | closing c => cases c <;> simp [text]
  | colon => simp [text]
  | comma => simp [text]
  | string contents => simp [text]
  | literal word =>
    rintro rfl
    exact absurd (Literal.isLiteral_iff.mpr h) (by decide)
  | unclosed contents => exact absurd h (by simp [Legal])
  | malformed rest => exact absurd h (by simp [Legal])

/-! ### Children apart from each other -/

/-- The lexemes of trees, each with one more lexeme behind it that is no string. -/
def Spread : List Tree → List Lexeme → Prop
  | [], ls => ∀ contents, .string contents ∉ ls
  | tree :: trees, ls =>
    ∃ separator rest, ls = tree.lexemes ++ separator :: rest ∧
      (∀ contents, separator ≠ .string contents) ∧ Spread trees rest

theorem spread_elements (elements : List Tree) (c : Container) :
    Spread elements (Tree.elementLexemes elements ++ [.closing c]) := by
  induction elements with
  | nil => simp [Spread, Tree.elementLexemes]
  | cons e elements ih =>
    cases elements with
    | nil => exact ⟨.closing c, [], rfl, by simp, by simp [Spread]⟩
    | cons d elements =>
      refine ⟨.comma, _, ?_, by simp, ih⟩
      rw [Tree.elementLexemes_cons (by simp), List.append_assoc]
      rfl

theorem spread_members (members : List (Bytes × Tree)) (c : Container) :
    Spread (Tree.inTurns members) (Tree.memberLexemes members ++ [.closing c]) := by
  induction members with
  | nil => simp [Spread, Tree.inTurns, Tree.memberLexemes]
  | cons m members ih =>
    obtain ⟨name, value⟩ := m
    cases members with
    | nil =>
      have hValue : Spread [value] (value.lexemes ++ [.closing c]) :=
        ⟨.closing c, [], rfl, by simp, by simp [Spread]⟩
      exact ⟨.colon, _, rfl, by simp, hValue⟩
    | cons n members =>
      have hValue : Spread (value :: Tree.inTurns (n :: members))
          (value.lexemes ++ .comma :: (Tree.memberLexemes (n :: members) ++ [.closing c])) :=
        ⟨.comma, _, rfl, by simp, ih⟩
      refine ⟨.colon, _, ?_, by simp, hValue⟩
      rw [Tree.memberLexemes_cons (by simp), List.cons_append, List.cons_append, List.append_assoc]
      rfl

def Tree.isLeaf : Tree → Bool
  | .string _ | .literal _ => true
  | .object _ | .array _ => false

theorem Tree.children_of_isLeaf {tree : Tree} (h : tree.isLeaf) : tree.children = [] := by
  cases tree with
  | string contents => rfl
  | literal text => rfl
  | _ => cases h

theorem Tree.exists_spread {tree : Tree} (h : tree.isLeaf = false) :
    ∃ c ls, tree.lexemes = .opening c :: ls ∧ Spread tree.children ls := by
  cases tree with
  | object members => exact ⟨_, _, rfl, spread_members members _⟩
  | array elements => exact ⟨_, _, rfl, spread_elements elements _⟩
  | string contents => cases h
  | literal text => cases h

/-- The lexemes of a tree, the first of which is number `k`, are legal and stand in the text. -/
structure Laid (text : Bytes) (pos : Nat → Nat) (k : Nat) (tree : Tree) : Prop where
  legal : tree.Legal
  stands : Stands text pos k tree.lexemes

/-- Trees stand in the text with one lexeme behind each, the last of which is number `last`. -/
def LaidApart (text : Bytes) (pos : Nat → Nat) (last : Nat) : Nat → List Tree → Prop
  | _, [] => True
  | k, tree :: trees =>
    Laid text pos k tree ∧ k + tree.lexemes.length ≤ last ∧
      pos (k + tree.lexemes.length) ≤ pos last ∧
      pos (k + tree.lexemes.length) < pos (k + tree.lexemes.length + 1) ∧
      LaidApart text pos last (k + tree.lexemes.length + 1) trees

variable {text : Bytes} {pos : Nat → Nat} {k last : Nat}

theorem Spread.laidApart {trees : List Tree} {ls : List Lexeme} (h : Spread trees ls)
    (hLegal : ∀ lexeme ∈ ls, lexeme.Legal) (hStands : Stands text pos k ls)
    (hLast : k + ls.length = last + 1) : LaidApart text pos last k trees := by
  induction trees generalizing k ls with
  | nil => trivial
  | cons tree trees ih =>
    obtain ⟨separator, rest, rfl, _, hSpread⟩ := h
    rw [List.forall_mem_append, List.forall_mem_cons] at hLegal
    obtain ⟨hTree, hSeparator, hRest⟩ := hLegal
    obtain ⟨hFirst, hBehind⟩ := hStands.append
    have hLength := List.length_pos_iff.mpr hSeparator.text_ne_nil
    have hNumber : k + tree.lexemes.length + rest.length = last := by
      simp only [List.length_append, List.length_cons] at hLast
      omega
    have hMore : pos (k + tree.lexemes.length) ≤ pos (k + tree.lexemes.length + rest.length) :=
      hBehind.le_add (by simp)
    obtain ⟨_, hNext, hStands⟩ := hBehind
    rw [hNumber] at hMore
    exact ⟨⟨hTree, hFirst⟩, by omega, hMore, by omega, ih hSpread hRest hStands (by omega)⟩

/-- The children of a tree lie between its brackets. -/
theorem Laid.children {tree : Tree} (h : Laid text pos k tree) :
    LaidApart text pos (k + tree.lexemes.length - 1) (k + 1) tree.children := by
  obtain ⟨hLegal, hStands⟩ := h
  cases hLeaf : tree.isLeaf with
  | true =>
    rw [Tree.children_of_isLeaf hLeaf]
    trivial
  | false =>
    obtain ⟨c, ls, hLexemes, hSpread⟩ := Tree.exists_spread hLeaf
    rw [Tree.Legal, hLexemes, List.forall_mem_cons] at hLegal
    rw [hLexemes] at hStands ⊢
    exact hSpread.laidApart hLegal.2 hStands.2.2 (by rw [List.length_cons]; omega)

/-! ### Where the tokens are -/

/-- The token starts at `low` or behind it and ends at `high` or in front of it. -/
structure Token.Between (low high : Nat) (token : Token) : Prop where
  le_start : low ≤ token.start
  start_le : token.start ≤ token.stop
  start_lt : token.start < high
  stop_le : token.stop ≤ high

/-- The token `b` comes behind `a`, and lies in it or outside it. -/
structure Token.Before (a b : Token) : Prop where
  start_lt : a.start < b.start
  nested_or_disjoint : b.stop ≤ a.stop ∨ a.stop < b.start

theorem Token.Between.mono {low high low' high' : Nat} {token : Token}
    (h : token.Between low high) (hLow : low' ≤ low) (hHigh : high ≤ high') :
    token.Between low' high' where
  le_start := Nat.le_trans hLow h.le_start
  start_le := h.start_le
  start_lt := Nat.lt_of_lt_of_le h.start_lt hHigh
  stop_le := Nat.le_trans h.stop_le hHigh

namespace Laid

variable {tree : Tree}

/-- A container reaches from its opening bracket up to and with its closing bracket. -/
theorem brackets (h : Laid text pos k tree) (hLeaf : tree.isLeaf = false) :
    (tree.token pos k).start = pos k ∧ pos k < pos (k + 1) ∧
      pos (k + 1) ≤ pos (k + tree.lexemes.length - 1) ∧
      (tree.token pos k).stop = pos (k + tree.lexemes.length - 1) + 1 ∧
      pos (k + tree.lexemes.length - 1) + 1 ≤ pos (k + tree.lexemes.length) := by
  obtain ⟨hLegal, hStands⟩ := h
  have hAll : ∀ (opening closing : Container) (inner : List Lexeme),
      Stands text pos k (.opening opening :: (inner ++ [.closing closing])) →
      pos k < pos (k + 1) ∧ pos (k + 1) ≤ pos (k + 1 + inner.length) ∧
        pos (k + 1 + inner.length) + 1 ≤ pos (k + 1 + inner.length + 1) := by
    intro opening closing inner hStands
    obtain ⟨_, hOpening, hInner⟩ := hStands
    obtain ⟨_, _, hClosing, _⟩ := hInner.append
    have hMore := hInner.le_add (j := inner.length) (by simp)
    cases opening <;> cases closing <;>
      exact ⟨hOpening, hMore, hClosing⟩
  cases tree with
  | object members =>
    obtain ⟨hFirst, hMore, hLast⟩ := hAll .object .object _ hStands
    have hNumber : k + (Tree.object members).lexemes.length =
        k + 1 + (Tree.memberLexemes members).length + 1 := by
      simp [Tree.lexemes]; omega
    rw [hNumber, Nat.add_sub_cancel]
    exact ⟨rfl, hFirst, hMore, rfl, hLast⟩
  | array elements =>
    obtain ⟨hFirst, hMore, hLast⟩ := hAll .array .array _ hStands
    have hNumber : k + (Tree.array elements).lexemes.length =
        k + 1 + (Tree.elementLexemes elements).length + 1 := by
      simp [Tree.lexemes]; omega
    rw [hNumber, Nat.add_sub_cancel]
    exact ⟨rfl, hFirst, hMore, rfl, hLast⟩
  | string contents => cases hLeaf
  | literal text => cases hLeaf

theorem between_token (h : Laid text pos k tree) :
    (tree.token pos k).Between (pos k) (pos (k + tree.lexemes.length)) := by
  cases hLeaf : tree.isLeaf with
  | false =>
    obtain ⟨hStart, hFirst, hMore, hStop, hLast⟩ := h.brackets hLeaf
    constructor <;> omega
  | true =>
    obtain ⟨hLegal, hStands⟩ := h
    cases tree with
    | string contents =>
      obtain ⟨_, hNext, _⟩ := hStands
      simp only [Lexeme.text, List.length_append, List.length_cons, List.length_nil] at hNext
      constructor <;> simp [Tree.token, Token.quoted, Tree.lexemes] <;> omega
    | literal word =>
      have hWord := List.length_pos_iff.mpr (Legal.text_ne_nil (hLegal _ List.mem_cons_self))
      obtain ⟨_, hNext, _⟩ := hStands
      simp only [Lexeme.text] at hNext hWord
      constructor <;> simp [Tree.token, Token.word, Tree.lexemes] <;> omega
    | object members => cases hLeaf
    | array elements => cases hLeaf

end Laid

theorem LaidApart.between {trees : List Tree} (h : LaidApart text pos last k trees)
    (hTrees : ∀ tree ∈ trees, ∀ k, Laid text pos k tree →
      ∀ token ∈ tree.table pos k, token.Between (pos k) (pos (k + tree.lexemes.length))) :
    ∀ token ∈ Tree.elementTable pos k trees, token.Between (pos k) (pos last) := by
  induction trees generalizing k with
  | nil => intro token hToken; cases hToken
  | cons tree trees ih =>
    obtain ⟨hFirst, _, hEnd, hNext, hRest⟩ := h
    have hStart := hFirst.stands.le_add (Nat.le_refl _)
    intro token hToken
    rw [Tree.elementTable, List.mem_append] at hToken
    rcases hToken with hToken | hToken
    · exact (hTrees tree List.mem_cons_self k hFirst token hToken).mono (Nat.le_refl _) hEnd
    · exact (ih hRest (fun t ht => hTrees t (List.mem_cons_of_mem _ ht)) token hToken).mono
        (by omega) (Nat.le_refl _)

/-- The tokens of a tree lie where its lexemes stand. -/
theorem Laid.between {tree : Tree} (h : Laid text pos k tree) :
    ∀ token ∈ tree.table pos k, token.Between (pos k) (pos (k + tree.lexemes.length)) := by
  induction tree using Tree.childrenInd generalizing k with
  | h tree ih =>
    intro token hToken
    rw [Tree.table_eq, List.mem_cons] at hToken
    rcases hToken with rfl | hToken
    · exact h.between_token
    · cases hLeaf : tree.isLeaf with
      | true =>
        rw [Tree.children_of_isLeaf hLeaf] at hToken
        cases hToken
      | false =>
        obtain ⟨_, hFirst, _, _, hLast⟩ := h.brackets hLeaf
        exact (h.children.between (fun t ht k => ih t ht) token hToken).mono
          (by omega) (by omega)

theorem LaidApart.between_of_mem {trees : List Tree} (h : LaidApart text pos last k trees) :
    ∀ token ∈ Tree.elementTable pos k trees, token.Between (pos k) (pos last) :=
  h.between fun _ _ _ hTree => hTree.between

theorem LaidApart.pairwise {trees : List Tree} (h : LaidApart text pos last k trees)
    (hTrees : ∀ tree ∈ trees, ∀ k, Laid text pos k tree →
      (tree.table pos k).Pairwise Token.Before) :
    (Tree.elementTable pos k trees).Pairwise Token.Before := by
  induction trees generalizing k with
  | nil => exact List.Pairwise.nil
  | cons tree trees ih =>
    obtain ⟨hFirst, _, _, hNext, hRest⟩ := h
    rw [Tree.elementTable, List.pairwise_append]
    refine ⟨hTrees tree List.mem_cons_self k hFirst,
      ih hRest fun t ht => hTrees t (List.mem_cons_of_mem _ ht), fun a ha b hb => ?_⟩
    have hLeft := hFirst.between a ha
    have hRight := hRest.between_of_mem b hb
    have hStop := hLeft.stop_le
    have hStart := hRight.le_start
    exact ⟨Nat.lt_of_lt_of_le (Nat.lt_trans hLeft.start_lt hNext) hStart, Or.inr (by omega)⟩

/-- The tokens of a tree come in order, each inside or outside those in front of it. -/
theorem Laid.pairwise {tree : Tree} (h : Laid text pos k tree) :
    (tree.table pos k).Pairwise Token.Before := by
  induction tree using Tree.childrenInd generalizing k with
  | h tree ih =>
    rw [Tree.table_eq, List.pairwise_cons]
    refine ⟨fun token hToken => ?_, h.children.pairwise fun t ht k => ih t ht⟩
    cases hLeaf : tree.isLeaf with
    | true =>
      rw [Tree.children_of_isLeaf hLeaf] at hToken
      cases hToken
    | false =>
      obtain ⟨hStart, hFirst, _, hStop, _⟩ := h.brackets hLeaf
      obtain ⟨hLow, _, _, hHigh⟩ := h.children.between_of_mem token hToken
      exact ⟨by omega, Or.inl (by omega)⟩

/-- What a tree contains ends in front of its end. -/
theorem Laid.stop_lt {tree : Tree} (h : Laid text pos k tree) {token : Token}
    (hToken : token ∈ Tree.elementTable pos (k + 1) tree.children) :
    token.stop < (tree.token pos k).stop := by
  cases hLeaf : tree.isLeaf with
  | true =>
    rw [Tree.children_of_isLeaf hLeaf] at hToken
    cases hToken
  | false =>
    obtain ⟨_, _, _, hStop, _⟩ := h.brackets hLeaf
    have hHigh := (h.children.between_of_mem token hToken).stop_le
    omega

/-! ### What the tokens cover -/

/-- A container covers its brackets, a string all between its quotes, a literal itself. -/
def Token.Fits (text : Bytes) (token : Token) : Prop :=
  match token.kind with
  | .object => ∃ inner, text.extract token.start token.stop = 0x7b :: inner ++ [0x7d]
  | .array => ∃ inner, text.extract token.start token.stop = 0x5b :: inner ++ [0x5d]
  | .string =>
    Grammar.Contents (text.extract token.start token.stop) ∧ 0 < token.start ∧
      text.extract (token.start - 1) (token.stop + 1) =
        0x22 :: text.extract token.start token.stop ++ [0x22]
  | .primitive => Grammar.Literal (text.extract token.start token.stop)

theorem extract_of_isPrefix {piece : Bytes} {i : Nat} (h : piece <+: text.drop i) :
    text.extract i (i + piece.length) = piece := by
  rw [List.extract_eq_take_drop, Nat.add_sub_cancel_left]
  exact (List.prefix_iff_eq_take.mp h).symm

theorem extract_brackets {a b : UInt8} {i j : Nat} (ha : [a] <+: text.drop i)
    (hb : [b] <+: text.drop j) (hij : i < j) :
    ∃ inner, text.extract i (j + 1) = a :: inner ++ [b] := by
  obtain ⟨rest, hRest⟩ := ha
  obtain ⟨m, rfl⟩ : ∃ m, j = i + 1 + m := ⟨j - i - 1, by omega⟩
  have hLast : (rest.drop m).take 1 = [b] := by
    rw [← List.drop_drop, ← List.drop_drop, ← hRest] at hb
    exact (List.prefix_iff_eq_take.mp hb).symm
  refine ⟨rest.take m, ?_⟩
  rw [List.extract_eq_take_drop, ← hRest, show i + 1 + m + 1 - i = (m + 1) + 1 by omega,
    List.singleton_append, List.take_succ_cons, List.take_add, hLast, List.cons_append]

theorem Stands.extract_container {c : Container} {inner : List Lexeme}
    (h : Stands text pos k (.opening c :: (inner ++ [.closing c]))) :
    ∃ middle, text.extract (pos k) (pos (k + 1 + inner.length) + 1) =
      (Lexeme.opening c).text ++ middle ++ (Lexeme.closing c).text := by
  obtain ⟨hOpening, hFirst, hBehind⟩ := h
  obtain ⟨hInner, hClosing, _⟩ := hBehind.append
  have hMore := hInner.le_add (Nat.le_refl _)
  cases c with
  | object =>
    have hOrder : pos k < pos (k + 1 + inner.length) := Nat.lt_of_lt_of_le hFirst hMore
    obtain ⟨middle, hMiddle⟩ := extract_brackets hOpening hClosing hOrder
    exact ⟨middle, hMiddle⟩
  | array =>
    have hOrder : pos k < pos (k + 1 + inner.length) := Nat.lt_of_lt_of_le hFirst hMore
    obtain ⟨middle, hMiddle⟩ := extract_brackets hOpening hClosing hOrder
    exact ⟨middle, hMiddle⟩

namespace Laid

theorem extract_string {contents : Bytes} (h : Laid text pos k (.string contents)) :
    text.extract (pos k) (pos k + 1 + contents.length + 1) = 0x22 :: contents ++ [0x22] := by
  have hText := extract_of_isPrefix h.stands.1
  rwa [Lexeme.text, List.length_append, List.length_cons, List.length_singleton,
    Nat.add_comm contents.length, ← Nat.add_assoc, ← Nat.add_assoc] at hText

theorem extract_contents {contents : Bytes} (h : Laid text pos k (.string contents)) :
    text.extract (pos k + 1) (pos k + 1 + contents.length) = contents := by
  obtain ⟨rest, hRest⟩ := h.stands.1
  apply extract_of_isPrefix
  rw [← List.drop_drop, ← hRest, Lexeme.text, List.cons_append, List.cons_append,
    List.drop_succ_cons,
    List.drop_zero, List.append_assoc]
  exact List.prefix_append _ _

theorem extract_literal {word : Bytes} (h : Laid text pos k (.literal word)) :
    text.extract (pos k) (pos k + word.length) = word :=
  extract_of_isPrefix h.stands.1

theorem fits_token {tree : Tree} (h : Laid text pos k tree) : (tree.token pos k).Fits text := by
  cases tree with
  | object members =>
    obtain ⟨middle, hMiddle⟩ := Stands.extract_container h.stands
    exact ⟨middle, hMiddle⟩
  | array elements =>
    obtain ⟨middle, hMiddle⟩ := Stands.extract_container h.stands
    exact ⟨middle, hMiddle⟩
  | string contents =>
    rw [Token.Fits]
    simp only [Tree.token, Token.quoted, Nat.add_sub_cancel]
    rw [h.extract_contents, h.extract_string]
    exact ⟨h.legal _ List.mem_cons_self, Nat.succ_pos _, rfl⟩
  | literal word =>
    rw [Token.Fits]
    simp only [Tree.token, Token.word]
    rw [h.extract_literal]
    exact h.legal _ List.mem_cons_self

end Laid

theorem LaidApart.forall_elements {P : Token → Prop} {trees : List Tree}
    (h : LaidApart text pos last k trees)
    (hTrees : ∀ tree ∈ trees, ∀ k, Laid text pos k tree → ∀ token ∈ tree.table pos k, P token) :
    ∀ token ∈ Tree.elementTable pos k trees, P token := by
  induction trees generalizing k with
  | nil => intro token hToken; cases hToken
  | cons tree trees ih =>
    obtain ⟨hFirst, _, _, _, hRest⟩ := h
    rw [Tree.elementTable, List.forall_mem_append]
    exact ⟨hTrees tree List.mem_cons_self k hFirst,
      ih hRest fun t ht => hTrees t (List.mem_cons_of_mem _ ht)⟩

/-- The tokens of a tree cover what they stand for. -/
theorem Laid.fits {tree : Tree} (h : Laid text pos k tree) :
    ∀ token ∈ tree.table pos k, token.Fits text := by
  induction tree using Tree.childrenInd generalizing k with
  | h tree ih =>
    rw [Tree.table_eq, List.forall_mem_cons]
    exact ⟨h.fits_token, h.children.forall_elements fun t ht k => ih t ht⟩

end SignReview.Json
