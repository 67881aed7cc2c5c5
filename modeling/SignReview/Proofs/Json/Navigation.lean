import SignReview.Json.Member
import SignReview.Proofs.Json.Parsing
import Mathlib.Data.List.Forall2

/-!
# Children in the table

The children of a token are found by their places alone.  Where a tree occurs in a document, they
are the children of the tree.

* `Occurs`: the table of a tree is the part of a document's table that starts with token `i`.
* `Occurs.children`: the children of the token, `Occurs.members`: the members of an object.
* `Occurs.slice_string`, `Occurs.slice_literal`: what a leaf covers.
-/

namespace SignReview.Json

open Lexeme

/-! ### The search for children in a list -/

def childIndices (stop : Nat) : Nat → Nat → List Token → List Nat
  | _, _, [] => []
  | index, past, token :: tokens =>
    if stop ≤ token.start then
      []
    else if token.start ≤ past then
      childIndices stop (index + 1) past tokens
    else
      index :: childIndices stop (index + 1) token.stop tokens

theorem Document.childrenFrom_eq (doc : Document) (stop left : Nat) :
    ∀ index past, doc.tokens.size - index ≤ left →
      doc.childrenFrom stop left index past =
        childIndices stop index past (doc.tokens.toList.drop index) := by
  induction left with
  | zero =>
    intro index past hLeft
    rw [List.drop_eq_nil_of_le (by rw [Array.length_toList]; omega)]
    rfl
  | succ left ih =>
    intro index past hLeft
    by_cases hIndex : index < doc.tokens.size
    · have hSome : doc.tokens[index]? = some doc.tokens[index] := Array.getElem?_eq_getElem hIndex
      rw [List.drop_eq_getElem_cons (by rwa [Array.length_toList]), Document.childrenFrom, hSome,
        childIndices]
      simp only [Array.getElem_toList]
      rw [ih (index + 1) past (by omega), ih (index + 1) _ (by omega)]
    · have hNone : doc.tokens[index]? = none := Array.getElem?_eq_none (Nat.le_of_not_lt hIndex)
      rw [List.drop_eq_nil_of_le (by rw [Array.length_toList]; omega), Document.childrenFrom, hNone]
      rfl

theorem childIndices_append {stop past : Nat} {inner : List Token} (rest : List Token)
    (h : ∀ token ∈ inner, token.start < stop ∧ token.start ≤ past) (index : Nat) :
    childIndices stop index past (inner ++ rest) =
      childIndices stop (index + inner.length) past rest := by
  induction inner generalizing index with
  | nil => rfl
  | cons token inner ih =>
    obtain ⟨hStop, hPast⟩ := h token List.mem_cons_self
    rw [List.cons_append, childIndices, if_neg (Nat.not_le.mpr hStop), if_pos hPast,
      ih fun t ht => h t (List.mem_cons_of_mem _ ht)]
    rw [List.length_cons, Nat.add_assoc, Nat.add_comm 1]

theorem childIndices_of_le {stop : Nat} {tokens : List Token}
    (h : ∀ token ∈ tokens, stop ≤ token.start) (index past : Nat) :
    childIndices stop index past tokens = [] := by
  cases tokens with
  | nil => rfl
  | cons token tokens => rw [childIndices, if_pos (h token List.mem_cons_self)]

/-- The numbers of trees whose tables stand one behind the other. -/
def numbers : Nat → List Tree → List Nat
  | _, [] => []
  | index, tree :: trees => index :: numbers (index + tree.size) trees

variable {text : Bytes} {pos : Nat → Nat} {k last : Nat}

theorem LaidApart.childIndices_eq {trees : List Tree} (h : LaidApart text pos last k trees)
    {stop past : Nat} {after : List Token} (hPast : past < pos k) (hStop : pos last ≤ stop)
    (hAfter : ∀ token ∈ after, stop ≤ token.start) (index : Nat) :
    childIndices stop index past (Tree.elementTable pos k trees ++ after) =
      numbers index trees := by
  induction trees generalizing k past index with
  | nil => exact childIndices_of_le hAfter index past
  | cons tree trees ih =>
    obtain ⟨hFirst, _, hEnd, hNext, hRest⟩ := h
    obtain ⟨hLow, _, hHigh, hLast⟩ := hFirst.between_token
    have hInner : ∀ token ∈ Tree.elementTable pos (k + 1) tree.children,
        token.start < stop ∧ token.start ≤ (tree.token pos k).stop := by
      intro token hToken
      cases hLeaf : tree.isLeaf with
      | true =>
        rw [Tree.children_of_isLeaf hLeaf] at hToken
        cases hToken
      | false =>
        obtain ⟨_, _, _, hClose, _⟩ := hFirst.brackets hLeaf
        have hStart := (hFirst.children.between_of_mem token hToken).start_lt
        omega
    have hLength : (Tree.elementTable pos (k + 1) tree.children).length + 1 = tree.size := by
      rw [← Tree.length_table pos k tree, Tree.table_eq, List.length_cons]
    rw [Tree.elementTable, Tree.table_eq, List.append_assoc, List.cons_append, childIndices,
      if_neg (by omega), if_neg (by omega), childIndices_append _ hInner,
      ih hRest (by omega), numbers, Nat.add_right_comm, Nat.add_assoc, hLength]

/-! ### Trees in a document -/

theorem Tree.elementTable_append (pos : Nat → Nat) (k : Nat) (left right : List Tree) :
    elementTable pos k (left ++ right) =
      elementTable pos k left ++ elementTable pos (k + (elementsBefore left).length) right := by
  induction left generalizing k with
  | nil => rfl
  | cons tree left ih =>
    have hNumber : k + tree.lexemes.length + 1 + (elementsBefore left).length =
        k + (elementsBefore (tree :: left)).length := by
      simp [elementsBefore]; omega
    rw [List.cons_append, elementTable, ih, hNumber, elementTable, List.append_assoc]

theorem LaidApart.append {left right : List Tree} (h : LaidApart text pos last k (left ++ right)) :
    LaidApart text pos last (k + (Tree.elementsBefore left).length) right := by
  induction left generalizing k with
  | nil => exact h
  | cons tree left ih =>
    obtain ⟨_, _, _, _, hRest⟩ := h
    have hNumber : k + tree.lexemes.length + 1 + (Tree.elementsBefore left).length =
        k + (Tree.elementsBefore (tree :: left)).length := by
      simp [Tree.elementsBefore]; omega
    rw [← hNumber]
    exact ih hRest

theorem Spread.append {left right : List Tree} {ls : List Lexeme} (h : Spread (left ++ right) ls) :
    ∃ a b, ls = a ++ b ∧ a.length = (Tree.elementsBefore left).length ∧ Spread right b := by
  induction left generalizing ls with
  | nil => exact ⟨[], ls, rfl, rfl, h⟩
  | cons tree left ih =>
    obtain ⟨separator, rest, rfl, _, hRest⟩ := h
    obtain ⟨a, b, rfl, hLength, hSpread⟩ := ih hRest
    refine ⟨tree.lexemes ++ separator :: a, b, by simp, ?_, hSpread⟩
    simp only [List.length_append, List.length_cons, hLength, Tree.elementsBefore,
      List.flatMap_cons, List.length_nil]
    omega

/-- In the document, lexeme number `k` is the first of the tree, and token `i` too. -/
structure OccursAt (doc : Document) (ls : List Lexeme) (k i : Nat) (tree : Tree) : Prop where
  lexemes : ∃ a b, ls.filter (!·.isBlank) = a ++ (tree.lexemes ++ b) ∧ a.length = k
  tokens : ∃ before after, doc.tokens.toList = before ++ (tree.table (place 0 ls) k ++ after) ∧
    before.length = i ∧ ∀ token ∈ after, place 0 ls (k + tree.lexemes.length) ≤ token.start

/-- Token `i` of the document is the first of the tree. -/
def Occurs (doc : Document) (i : Nat) (tree : Tree) : Prop :=
  ∃ ls root k, doc.Parsed ls root ∧ OccursAt doc ls k i tree

theorem Document.Parsed.occursAt {doc : Document} {ls : List Lexeme} {tree : Tree}
    (h : doc.Parsed ls tree) : OccursAt doc ls 0 0 tree := by
  refine ⟨⟨[], [], ?_, rfl⟩, ⟨[], [], ?_, rfl, ?_⟩⟩
  · rw [List.append_nil, List.nil_append, h.spells.filter_eq]
  · rw [List.append_nil, List.nil_append, h.tokens_eq]
  · intro token hToken
    cases hToken

theorem Document.Parsed.occurs {doc : Document} {ls : List Lexeme} {tree : Tree}
    (h : doc.Parsed ls tree) : Occurs doc 0 tree :=
  ⟨ls, tree, 0, h, h.occursAt⟩

def Tree.kind : Tree → Kind
  | .object _ => .object
  | .array _ => .array
  | .string _ => .string
  | .literal _ => .primitive

theorem Tree.kind_token (tree : Tree) (pos : Nat → Nat) (k : Nat) :
    (tree.token pos k).kind = tree.kind := by
  cases tree <;> rfl

theorem Tree.isLeaf_token (tree : Tree) (pos : Nat → Nat) (k : Nat) :
    (tree.token pos k).isLeaf = tree.isLeaf := by
  cases tree <;> rfl

namespace OccursAt

variable {doc : Document} {ls : List Lexeme} {root tree : Tree} {i : Nat}

theorem laid (h : OccursAt doc ls k i tree) (hParsed : doc.Parsed ls root) :
    Laid doc.bytes.toList (place 0 ls) k tree := by
  obtain ⟨a, b, hLexemes, rfl⟩ := h.lexemes
  rw [hParsed.spells.filter_eq] at hLexemes
  have hLegal := hParsed.laid.legal
  have hStands := hParsed.laid.stands
  rw [Tree.Legal, hLexemes, List.forall_mem_append, List.forall_mem_append] at hLegal
  rw [hLexemes] at hStands
  exact ⟨hLegal.2.1, Nat.zero_add a.length ▸ hStands.append.2.append.1⟩

theorem token_eq (h : OccursAt doc ls k i tree) :
    doc.tokens[i]? = some (tree.token (place 0 ls) k) := by
  obtain ⟨before, after, hTokens, rfl, _⟩ := h.tokens
  rw [← Array.getElem?_toList, hTokens, List.getElem?_append_right (Nat.le_refl _), Nat.sub_self,
    Tree.table_eq]
  rfl

/-- A child occurs behind the trees in front of it. -/
theorem child {left right : List Tree} {child : Tree} (h : OccursAt doc ls k i tree)
    (hParsed : doc.Parsed ls root) (hChildren : tree.children = left ++ child :: right) :
    OccursAt doc ls (k + 1 + (Tree.elementsBefore left).length) (i + 1 + Tree.elementSize left)
      child := by
  have hLaid := h.laid hParsed
  have hLeaf : tree.isLeaf = false := by
    cases hTree : tree.isLeaf with
    | false => rfl
    | true =>
      rw [Tree.children_of_isLeaf hTree] at hChildren
      simp at hChildren
  obtain ⟨before, after, hTokens, hBefore, hAfter⟩ := h.tokens
  constructor
  · obtain ⟨a, b, hRoot, rfl⟩ := h.lexemes
    obtain ⟨c, inner, hLexemes, hSpread⟩ := Tree.exists_spread hLeaf
    rw [hChildren] at hSpread
    obtain ⟨a', b', rfl, hLength, separator, rest, rfl, _⟩ := hSpread.append
    rw [hRoot, hLexemes]
    exact ⟨a ++ .opening c :: a', separator :: rest ++ b, by simp, by simp [hLength]; omega⟩
  · have hApart := hLaid.children
    rw [hChildren] at hApart
    obtain ⟨_, hNumber, hEnd, hNext, hRight⟩ := hApart.append
    obtain ⟨_, _, _, _, hClose⟩ := hLaid.brackets hLeaf
    rw [Tree.table_eq, hChildren, Tree.elementTable_append, Tree.elementTable] at hTokens
    refine ⟨before ++ tree.token (place 0 ls) k :: Tree.elementTable (place 0 ls) (k + 1) left,
      Tree.elementTable (place 0 ls)
        (k + 1 + (Tree.elementsBefore left).length + child.lexemes.length + 1) right ++ after,
      by rw [hTokens]; simp only [List.append_assoc, List.cons_append], ?_, ?_⟩
    · simp only [List.length_append, List.length_cons, Tree.length_elementTable, hBefore]
      omega
    · rw [List.forall_mem_append]
      constructor
      · intro token hToken
        have hStart := (hRight.between_of_mem token hToken).le_start
        omega
      · intro token hToken
        have hStart := hAfter token hToken
        omega

end OccursAt

theorem forall₂_numbers {P : Nat → Tree → Prop} {index : Nat} {trees : List Tree}
    (h : ∀ left tree right, trees = left ++ tree :: right →
      P (index + Tree.elementSize left) tree) :
    List.Forall₂ P (numbers index trees) trees := by
  induction trees generalizing index with
  | nil => exact .nil
  | cons tree trees ih =>
    refine .cons (h [] tree trees rfl) (ih fun left other right hTrees => ?_)
    have hOther := h (tree :: left) other right (by rw [hTrees]; rfl)
    rwa [Tree.elementSize, ← Nat.add_assoc] at hOther

namespace Occurs

variable {doc : Document} {tree : Tree} {i : Nat}

theorem token (h : Occurs doc i tree) :
    ∃ token, doc.token i = .ok token ∧ token.kind = tree.kind := by
  obtain ⟨ls, root, k, _, hAt⟩ := h
  exact ⟨_, by rw [Document.token, hAt.token_eq], tree.kind_token _ _⟩

theorem slice_string {contents : Bytes} (h : Occurs doc i (.string contents)) :
    doc.slice i = .ok contents := by
  obtain ⟨ls, root, k, hParsed, hAt⟩ := h
  rw [hParsed.slice hAt.token_eq]
  exact congrArg _ (hAt.laid hParsed).extract_contents

theorem slice_literal {text : Bytes} (h : Occurs doc i (.literal text)) :
    doc.slice i = .ok text := by
  obtain ⟨ls, root, k, hParsed, hAt⟩ := h
  rw [hParsed.slice hAt.token_eq]
  exact congrArg _ (hAt.laid hParsed).extract_literal

/-- The children of a token are those of its tree. -/
theorem children (h : Occurs doc i tree) {token : Token} (hToken : doc.token i = .ok token) :
    doc.childrenOf i token = numbers (i + 1) tree.children ∧
      List.Forall₂ (Occurs doc) (numbers (i + 1) tree.children) tree.children := by
  obtain ⟨ls, root, k, hParsed, hAt⟩ := h
  have hLaid := hAt.laid hParsed
  constructor
  · obtain ⟨before, after, hTokens, hBefore, hAfter⟩ := hAt.tokens
    obtain rfl : tree.token (place 0 ls) k = token := by
      rw [Document.token, hAt.token_eq] at hToken
      exact Except.ok.inj hToken
    have hRest : doc.tokens.toList.drop (i + 1) =
        Tree.elementTable (place 0 ls) (k + 1) tree.children ++ after := by
      rw [hTokens, Tree.table_eq, ← hBefore, List.cons_append, ← List.drop_drop]
      simp
    have hOrder := hLaid.between_token.start_lt
    rw [Document.childrenOf, Document.childrenFrom_eq _ _ _ _ _ (Nat.le_refl _), hRest,
      Tree.isLeaf_token]
    cases hLeaf : tree.isLeaf with
    | true =>
      rw [Tree.children_of_isLeaf hLeaf, if_pos rfl]
      refine childIndices_of_le (fun token hMem => ?_) _ _
      have hStart := hAfter token hMem
      exact Nat.le_trans (Nat.le_of_lt hOrder) hStart
    | false =>
      obtain ⟨hStart, hFirst, _, hStop, hClose⟩ := hLaid.brackets hLeaf
      rw [if_neg Bool.false_ne_true]
      refine hLaid.children.childIndices_eq (by omega) (by omega) (fun token hMem => ?_) _
      have hStart := hAfter token hMem
      omega
  · refine forall₂_numbers fun left child right hChildren => ?_
    exact ⟨ls, root, _, hParsed, hAt.child hParsed hChildren⟩

theorem children_eq (h : Occurs doc i tree) :
    doc.children i = .ok (numbers (i + 1) tree.children) := by
  obtain ⟨token, hToken, _⟩ := h.token
  rw [Document.children, hToken]
  exact congrArg _ (h.children hToken).1

theorem contents (h : Occurs doc i tree) (kind : Kind) :
    doc.contents kind i =
      if tree.kind = kind then .ok (numbers (i + 1) tree.children) else .error .unexpectedType := by
  obtain ⟨token, hToken, hKind⟩ := h.token
  rw [Document.contents, Document.children, hToken, ← hKind, ← (h.children hToken).1]
  rfl

/-- The elements of an array are the trees that it holds. -/
theorem elements {elements : List Tree} (h : Occurs doc i (.array elements)) :
    doc.contents .array i = .ok (numbers (i + 1) elements) ∧
      List.Forall₂ (Occurs doc) (numbers (i + 1) elements) elements := by
  obtain ⟨token, hToken, _⟩ := h.token
  refine ⟨?_, (h.children hToken).2⟩
  rw [h.contents]
  rfl

end Occurs

def nameNumbers : Nat → List (Bytes × Tree) → List Nat
  | _, [] => []
  | index, (_, value) :: members => index :: nameNumbers (index + 1 + value.size) members

theorem everySecond_numbers (index : Nat) (members : List (Bytes × Tree)) :
    Document.everySecond (numbers index (Tree.inTurns members)) = nameNumbers index members := by
  induction members generalizing index with
  | nil => rfl
  | cons m members ih =>
    obtain ⟨name, value⟩ := m
    rw [Tree.inTurns, numbers, numbers, Document.everySecond, ih]
    rfl

/-- The value of a member is the token behind its name. -/
theorem inPairs_numbers (index : Nat) (members : List (Bytes × Tree)) :
    Document.inPairs (numbers index (Tree.inTurns members)) =
      (nameNumbers index members).map fun name => (name, some (name + 1)) := by
  induction members generalizing index with
  | nil => rfl
  | cons m members ih =>
    obtain ⟨name, value⟩ := m
    rw [Tree.inTurns, numbers, numbers, Document.inPairs, ih]
    rfl

theorem forall₂_nameNumbers {P : Nat → Tree → Prop} {index : Nat} {members : List (Bytes × Tree)}
    (h : List.Forall₂ P (numbers index (Tree.inTurns members)) (Tree.inTurns members)) :
    List.Forall₂ (fun name m => P name (.string m.1) ∧ P (name + 1) m.2)
      (nameNumbers index members) members := by
  induction members generalizing index with
  | nil => exact .nil
  | cons m members ih =>
    obtain ⟨name, value⟩ := m
    rw [Tree.inTurns, numbers, numbers] at h
    cases h with
    | cons hName h =>
      cases h with
      | cons hValue hRest => exact .cons ⟨hName, hValue⟩ (ih hRest)

namespace Occurs

variable {doc : Document} {i : Nat}

/-- The names and values of an object are those of its members. -/
theorem members {members : List (Bytes × Tree)} (h : Occurs doc i (.object members)) :
    doc.names i = .ok (nameNumbers (i + 1) members) ∧
      List.Forall₂ (fun name m => Occurs doc name (.string m.1) ∧ Occurs doc (name + 1) m.2)
        (nameNumbers (i + 1) members) members := by
  obtain ⟨token, hToken, _⟩ := h.token
  refine ⟨?_, forall₂_nameNumbers (h.children hToken).2⟩
  rw [Document.names, h.contents, ← everySecond_numbers]
  rfl

theorem eq_object {tree : Tree} (h : Occurs doc i tree) {names : List Nat}
    (hNames : doc.names i = .ok names) :
    ∃ members, tree = .object members ∧ names = nameNumbers (i + 1) members := by
  cases tree with
  | object members => exact ⟨members, rfl, Except.ok.inj (hNames.symm.trans h.members.1)⟩
  | array elements =>
    rw [Document.names, h.contents] at hNames
    cases hNames
  | string contents =>
    rw [Document.names, h.contents] at hNames
    cases hNames
  | literal text =>
    rw [Document.names, h.contents] at hNames
    cases hNames

end Occurs

end SignReview.Json
