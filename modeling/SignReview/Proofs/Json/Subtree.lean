import SignReview.Proofs.Json.Navigation
import SignReview.Proofs.Outcome
import Mathlib.Data.List.Pairwise
import Mathlib.Logic.Relation

/-!
# The tokens below a token

In a document that has been read, every token is the first of a tree.  Its children lie in its
range, one behind the other, and so does all that is below them.

* `Document.Covers`, `Document.Precedes`, `Document.Apart`: how the ranges of two tokens lie to each
  other.
* `Document.IsChild`, `Document.Within`, `Document.IsName`: children, subtrees and member names.
* `Document.Parsed.children_apart`: how children lie, `Document.Parsed.covers_of_within`: how a
  subtree does.
* `Document.Parsed.exists_occurs`: every token is the first of a tree.
-/

namespace SignReview.Json

/-! ### Ranges -/

namespace Document

/-- The range of token `inner` lies in that of token `outer`. -/
def Covers (doc : Document) (outer inner : Nat) : Prop :=
  ∃ a b, doc.token outer = .ok a ∧ doc.token inner = .ok b ∧ a.start ≤ b.start ∧ b.stop ≤ a.stop

/-- Token `left` starts and ends in front of token `right`. -/
def Precedes (doc : Document) (left right : Nat) : Prop :=
  ∃ a b, doc.token left = .ok a ∧ doc.token right = .ok b ∧ a.start < b.start ∧ a.stop < b.start

def Apart (doc : Document) (a b : Nat) : Prop := doc.Precedes a b ∨ doc.Precedes b a

def IsChild (doc : Document) (parent child : Nat) : Prop :=
  ∃ children, doc.children parent = .ok children ∧ child ∈ children

/-- The second token is the first, a child of it, a child of one of these, and so on. -/
def Within (doc : Document) : Nat → Nat → Prop := Relation.ReflTransGen doc.IsChild

def IsName (doc : Document) (index : Nat) : Prop :=
  ∃ object names, doc.names object = .ok names ∧ index ∈ names

variable {doc : Document}

theorem Covers.refl {index : Nat} {token : Token} (h : doc.token index = .ok token) :
    doc.Covers index index :=
  ⟨token, token, h, h, Nat.le_refl _, Nat.le_refl _⟩

theorem Covers.trans {a b c : Nat} (h : doc.Covers a b) (h' : doc.Covers b c) :
    doc.Covers a c := by
  obtain ⟨s, t, hs, ht, hStart, hStop⟩ := h
  obtain ⟨t', u, ht', hu, hStart', hStop'⟩ := h'
  rw [ht] at ht'
  obtain rfl := Except.ok.inj ht'
  exact ⟨s, u, hs, hu, Nat.le_trans hStart hStart', Nat.le_trans hStop' hStop⟩

theorem Precedes.ne {a b : Nat} (h : doc.Precedes a b) : a ≠ b := by
  rintro rfl
  obtain ⟨s, t, hs, ht, hStart, _⟩ := h
  obtain rfl := Except.ok.inj (hs.symm.trans ht)
  exact Nat.lt_irrefl _ hStart

theorem Apart.symm {a b : Nat} (h : doc.Apart a b) : doc.Apart b a := Or.symm h

theorem Apart.ne {a b : Nat} (h : doc.Apart a b) : a ≠ b :=
  h.elim (fun hab => hab.ne) fun hba => hba.ne.symm

theorem apart_of_pairwise {tokens : List Nat} (h : tokens.Pairwise doc.Precedes) {a b : Nat}
    (ha : a ∈ tokens) (hb : b ∈ tokens) (hNe : a ≠ b) : doc.Apart a b := by
  have hApart : tokens.Pairwise doc.Apart := h.imp Or.inl
  have : Std.Symm doc.Apart := ⟨fun _ _ => Apart.symm⟩
  exact hApart.forall ha hb hNe

theorem token_eq_ok_iff {index : Nat} {token : Token} :
    doc.token index = .ok token ↔ doc.tokens[index]? = some token := by
  rw [Document.token]
  cases doc.tokens[index]? with
  | none => simp
  | some t => simp

/-! ### Children -/

/-- The children that are found start behind `past`, in front of `stop`, and one behind the
other. -/
theorem childrenFrom_apart (hOrder : ∀ i token, doc.token i = .ok token → token.start ≤ token.stop)
    (stop left : Nat) : ∀ index past,
      (doc.childrenFrom stop left index past).Pairwise doc.Precedes ∧
        ∀ child ∈ doc.childrenFrom stop left index past, index ≤ child ∧
          ∃ token, doc.token child = .ok token ∧ past < token.start ∧ token.start < stop := by
  induction left with
  | zero =>
    intro index past
    exact ⟨List.Pairwise.nil, fun child hChild => by cases hChild⟩
  | succ left ih =>
    intro index past
    rw [childrenFrom]
    cases hToken : doc.tokens[index]? with
    | none => exact ⟨List.Pairwise.nil, fun child hChild => by cases hChild⟩
    | some token =>
      have hRead : doc.token index = .ok token := token_eq_ok_iff.mpr hToken
      by_cases hStop : stop ≤ token.start
      · simp only [if_pos hStop]
        exact ⟨List.Pairwise.nil, fun child hChild => by cases hChild⟩
      · by_cases hPast : token.start ≤ past
        · simp only [if_neg hStop, if_pos hPast]
          obtain ⟨hApart, hBounds⟩ := ih (index + 1) past
          refine ⟨hApart, fun child hChild => ?_⟩
          obtain ⟨hIndex, hChild⟩ := hBounds child hChild
          exact ⟨Nat.le_of_succ_le hIndex, hChild⟩
        · simp only [if_neg hStop, if_neg hPast]
          obtain ⟨hApart, hBounds⟩ := ih (index + 1) token.stop
          have hSelf := hOrder index token hRead
          constructor
          · refine List.Pairwise.cons (fun child hChild => ?_) hApart
            obtain ⟨_, next, hNext, hBehind, _⟩ := hBounds child hChild
            exact ⟨token, next, hRead, hNext, by omega, hBehind⟩
          · refine List.forall_mem_cons.mpr ⟨⟨Nat.le_refl _, token, hRead, by omega, by omega⟩, ?_⟩
            intro child hChild
            obtain ⟨hIndex, next, hNext, hBehind, hEnd⟩ := hBounds child hChild
            exact ⟨Nat.le_of_succ_le hIndex, next, hNext, by omega, hEnd⟩

namespace Parsed

variable {ls : List Lexeme} {root : Tree}

theorem start_le_stop (h : doc.Parsed ls root) (i : Nat) (token : Token)
    (hToken : doc.token i = .ok token) : token.start ≤ token.stop := by
  have hMem := Array.mem_of_getElem? (token_eq_ok_iff.mp hToken)
  exact (h.bounds (Array.mem_toList_iff.mpr hMem)).1

theorem before (h : doc.Parsed ls root) {i j : Nat} {a b : Token} (hi : doc.token i = .ok a)
    (hj : doc.token j = .ok b) (hij : i < j) : a.Before b := by
  have hAll := h.tokens_eq ▸ h.laid.pairwise
  rw [token_eq_ok_iff, ← Array.getElem?_toList, List.getElem?_eq_some_iff] at hi hj
  obtain ⟨hi, rfl⟩ := hi
  obtain ⟨hj, rfl⟩ := hj
  exact List.pairwise_iff_getElem.mp hAll i j hi hj hij

/-- The children of a token lie in its range, one behind the other. -/
theorem children_apart (h : doc.Parsed ls root) {parent : Nat} {children : List Nat}
    (hChildren : doc.children parent = .ok children) :
    children.Pairwise doc.Precedes ∧ ∀ child ∈ children, doc.Covers parent child := by
  obtain ⟨token, hToken, hFrom⟩ := bind_eq_ok_iff.mp hChildren
  obtain rfl := Except.ok.inj hFrom
  obtain ⟨hApart, hBounds⟩ := childrenFrom_apart h.start_le_stop
    (if token.isLeaf then token.start else token.stop) (doc.tokens.size - (parent + 1))
    (parent + 1) token.start
  refine ⟨hApart, fun child hChild => ?_⟩
  obtain ⟨hIndex, next, hNext, hBehind, hEnd⟩ := hBounds child hChild
  refine ⟨token, next, hToken, hNext, Nat.le_of_lt hBehind, ?_⟩
  cases hLeaf : token.isLeaf with
  | true =>
    rw [hLeaf, if_pos rfl] at hEnd
    omega
  | false =>
    rw [hLeaf, if_neg Bool.false_ne_true] at hEnd
    -- the child starts inside the container, so that it can not lie behind it
    rcases (h.before hToken hNext hIndex).nested_or_disjoint with hNested | hDisjoint
    · exact hNested
    · omega

theorem lt_of_isChild (h : doc.Parsed ls root) {parent child : Nat}
    (hChild : doc.IsChild parent child) : parent < child := by
  obtain ⟨children, hChildren, hMem⟩ := hChild
  obtain ⟨token, _, hFrom⟩ := bind_eq_ok_iff.mp hChildren
  obtain rfl := Except.ok.inj hFrom
  exact ((childrenFrom_apart h.start_le_stop _ _ _ _).2 child hMem).1

/-- All that is below a token lies in its range. -/
theorem covers_of_within (h : doc.Parsed ls root) {top index : Nat} {token : Token}
    (hToken : doc.token top = .ok token) (hWithin : doc.Within top index) :
    doc.Covers top index := by
  induction hWithin with
  | refl => exact Covers.refl hToken
  | tail _ hChild ih =>
    obtain ⟨children, hChildren, hMem⟩ := hChild
    exact ih.trans ((h.children_apart hChildren).2 _ hMem)

theorem precedes_of_covers (h : doc.Parsed ls root) {a b a' b' : Nat} (hab : doc.Precedes a b)
    (ha : doc.Covers a a') (hb : doc.Covers b b') : doc.Precedes a' b' := by
  obtain ⟨s, t, hs, ht, _, hStop⟩ := hab
  obtain ⟨s₁, s', hs₁, hs', _, hStop'⟩ := ha
  obtain ⟨t₁, t', ht₁, ht', hStart', _⟩ := hb
  obtain rfl : s = s₁ := Except.ok.inj (hs.symm.trans hs₁)
  obtain rfl : t = t₁ := Except.ok.inj (ht.symm.trans ht₁)
  have hSelf := h.start_le_stop a' s' hs'
  exact ⟨s', t', hs', ht', by omega, by omega⟩

/-- Tokens of which one lies behind the other hold nothing in common. -/
theorem not_apart_of_covers (h : doc.Parsed ls root) {a b index : Nat} (ha : doc.Covers a index)
    (hb : doc.Covers b index) : ¬doc.Apart a b := by
  rintro (hab | hba)
  · exact (h.precedes_of_covers hab ha hb).ne rfl
  · exact (h.precedes_of_covers hba hb ha).ne rfl

/-- Of tokens of which one lies behind the other, only one holds a given token. -/
theorem eq_of_covers (h : doc.Parsed ls root) {tokens : List Nat}
    (hApart : tokens.Pairwise doc.Precedes) {a b index : Nat} (ha : a ∈ tokens) (hb : b ∈ tokens)
    (hCoversA : doc.Covers a index) (hCoversB : doc.Covers b index) : a = b := by
  by_contra hNe
  exact h.not_apart_of_covers hCoversA hCoversB (apart_of_pairwise hApart ha hb hNe)

end Parsed

end Document

/-! ### Every token is the first of a tree -/

theorem Tree.size_eq (tree : Tree) : tree.size = 1 + elementSize tree.children := by
  have hTable := length_table (fun i => i) 0 tree
  rw [table_eq, List.length_cons, length_elementTable] at hTable
  omega

theorem Tree.exists_of_lt_elementSize {trees : List Tree} {n : Nat} (h : n < elementSize trees) :
    ∃ left tree right, trees = left ++ tree :: right ∧ elementSize left ≤ n ∧
      n < elementSize left + tree.size := by
  induction trees generalizing n with
  | nil => exact absurd h (Nat.not_lt_zero n)
  | cons tree trees ih =>
    rw [elementSize] at h
    by_cases hFirst : n < tree.size
    · exact ⟨[], tree, trees, rfl, Nat.zero_le _, by rw [elementSize]; omega⟩
    · obtain ⟨left, other, right, rfl, hLow, hHigh⟩ := ih (n := n - tree.size) (by omega)
      refine ⟨tree :: left, other, right, rfl, ?_, ?_⟩
      · rw [elementSize]
        omega
      · rw [elementSize]
        omega

/-- What children take over from their parents holds somewhere for each number below the number of
nodes. -/
theorem Tree.exists_of_lt (P : Nat → Nat → Tree → Prop)
    (hChild : ∀ {k i : Nat} {tree child : Tree} {left right : List Tree}, P k i tree →
      tree.children = left ++ child :: right →
        P (k + 1 + (elementsBefore left).length) (i + 1 + elementSize left) child)
    {k i j : Nat} {tree : Tree} (h : P k i tree) (hLow : i ≤ j) (hHigh : j < i + tree.size) :
    ∃ k' tree', P k' j tree' := by
  induction tree using Tree.childrenInd generalizing k i with
  | h tree ih =>
    rcases Nat.eq_or_lt_of_le hLow with rfl | hBelow
    · exact ⟨k, tree, h⟩
    · rw [Tree.size_eq] at hHigh
      have hInside : j - (i + 1) < Tree.elementSize tree.children := by omega
      obtain ⟨left, child, right, hChildren, hLeft, hRight⟩ :=
        Tree.exists_of_lt_elementSize hInside
      have hMem : child ∈ tree.children := by
        rw [hChildren]
        exact List.mem_append_right _ List.mem_cons_self
      exact ih child hMem (hChild h hChildren) (by omega) (by omega)

/-- Every token of a document is the first of a tree. -/
theorem Document.Parsed.exists_occurs {doc : Document} {ls : List Lexeme} {root : Tree}
    (h : doc.Parsed ls root) {i : Nat} {token : Token} (hToken : doc.token i = .ok token) :
    ∃ tree, Occurs doc i tree := by
  obtain ⟨hi, _⟩ := Array.getElem?_eq_some_iff.mp (token_eq_ok_iff.mp hToken)
  rw [h.size_tokens] at hi
  obtain ⟨k, tree, hAt⟩ := Tree.exists_of_lt (OccursAt doc ls)
    (fun hAt hChildren => hAt.child h hChildren) h.occursAt (Nat.zero_le i) (by omega)
  exact ⟨tree, ls, root, k, h, hAt⟩

/-! ### Children by the kind of the tree -/

namespace Occurs

variable {doc : Document} {i : Nat}

theorem exists_value {members : List (Bytes × Tree)} (h : Occurs doc i (.object members))
    {name : Nat} (hName : name ∈ nameNumbers (i + 1) members) :
    ∃ m ∈ members, Occurs doc name (.string m.1) ∧ Occurs doc (name + 1) m.2 :=
  Forall₂.exists_of_mem h.members.2 hName

theorem exists_element {elements : List Tree} (h : Occurs doc i (.array elements)) {child : Nat}
    (hChild : child ∈ numbers (i + 1) elements) :
    ∃ element ∈ elements, Occurs doc child element :=
  Forall₂.exists_of_mem h.elements.2 hChild

theorem isLeaf_eq {tree : Tree} (h : Occurs doc i tree) {token : Token}
    (hToken : doc.token i = .ok token) : token.isLeaf = tree.isLeaf := by
  obtain ⟨ls, root, k, _, hAt⟩ := h
  have hRead := Document.token_eq_ok_iff.mpr hAt.token_eq
  rw [← Except.ok.inj (hRead.symm.trans hToken), Tree.isLeaf_token]

theorem isChild_iff {tree : Tree} (h : Occurs doc i tree) {child : Nat} :
    doc.IsChild i child ↔ child ∈ numbers (i + 1) tree.children := by
  constructor
  · rintro ⟨children, hChildren, hMem⟩
    rw [h.children_eq] at hChildren
    obtain rfl := Except.ok.inj hChildren
    exact hMem
  · intro hMem
    exact ⟨_, h.children_eq, hMem⟩

end Occurs

theorem mem_numbers_inTurns {index child : Nat} {members : List (Bytes × Tree)} :
    child ∈ numbers index (Tree.inTurns members) ↔
      ∃ name ∈ nameNumbers index members, child = name ∨ child = name + 1 := by
  induction members generalizing index with
  | nil => simp [Tree.inTurns, numbers, nameNumbers]
  | cons m members ih =>
    obtain ⟨name, value⟩ := m
    simp only [Tree.inTurns, numbers, nameNumbers, List.mem_cons, ih, exists_eq_or_imp, Tree.size,
      or_assoc]

theorem sublist_numbers_inTurns (index : Nat) (members : List (Bytes × Tree)) :
    ((nameNumbers index members).map (· + 1)).Sublist (numbers index (Tree.inTurns members)) := by
  induction members generalizing index with
  | nil => exact List.Sublist.refl _
  | cons m members ih =>
    obtain ⟨name, value⟩ := m
    rw [Tree.inTurns, numbers, numbers, nameNumbers, List.map_cons]
    exact ((ih _).cons_cons _).cons _

end SignReview.Json
