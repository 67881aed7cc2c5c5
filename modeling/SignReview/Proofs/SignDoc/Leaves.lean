import SignReview.Proofs.Json.Compact
import SignReview.Proofs.Leaf.Visits

/-!
# The leaves of a tree

`Tree.leaves` lists the leaves of a tree by recursion on the tree, without any token.  They are the
leaves that `Tree.visits` comes by, each of which has the token of its tree.

* `Tree.raw`: the octets of a leaf, `Occurs.slice_raw`: they are what its token covers.
* `SameLeaf`: a leaf by its token and by its tree, `Occurs.leaves_visits`: the leaves of a tree.
-/

namespace SignReview

namespace Json

/-- The octets of a tree in a compact text; a string is without its quotes. -/
def Tree.raw : Tree → Bytes
  | .string contents => contents
  | tree => tree.compact

/-- The leaves of a tree, each with its path: strings, literals, and what lies too deep. -/
def Tree.leaves : Nat → Nat → Bytes → Tree → List (Bytes × Tree)
  | depth + 1, levels + 1, path, .object members =>
    members.flatMap fun m => leaves depth levels (Path.join path m.1) m.2
  | depth + 1, levels + 1, path, .array elements =>
    elements.flatMap fun element => leaves depth (levels + 1) path element
  | _, _, path, tree => [(path, tree)]

/-! ### The octets of a leaf -/

theorem Tree.exists_closing {tree : Tree} (h : tree.isLeaf = false) :
    ∃ front c, tree.lexemes = front ++ [.closing c] := by
  cases tree with
  | object members => exact ⟨.opening .object :: memberLexemes members, .object, rfl⟩
  | array elements => exact ⟨.opening .array :: elementLexemes elements, .array, rfl⟩
  | string contents => cases h
  | literal text => cases h

/-- In a document without whitespace, a token covers its tree as it is written. -/
theorem Occurs.slice_raw {doc : Document} {tree : Tree} {i : Nat} (h : Occurs doc i tree)
    (hBlank : doc.hasWhitespace = false) : doc.slice i = .ok tree.raw := by
  cases hLeaf : tree.isLeaf with
  | true =>
    cases tree with
    | string contents => exact h.slice_string
    | literal text =>
      rw [h.slice_literal]
      simp [Tree.raw, Tree.compact, Tree.lexemes, Lexeme.text]
    | object members => cases hLeaf
    | array elements => cases hLeaf
  | false =>
    obtain ⟨ls, root, k, hParsed, hAt⟩ := h
    obtain rfl := hParsed.eq_lexemes hBlank
    obtain ⟨hStart, _, _, hStop, _⟩ := (hAt.laid hParsed).brackets hLeaf
    obtain ⟨a, b, hRoot, rfl⟩ := hAt.lexemes
    obtain ⟨front, c, hFront⟩ := Tree.exists_closing hLeaf
    rw [hParsed.spells.filter_eq] at hRoot
    have hNone := root.isBlank_of_mem
    rw [hRoot] at hNone
    have hFirst : place 0 root.lexemes a.length = (a.flatMap Lexeme.text).length := by
      rw [List.forall_mem_append] at hNone
      rw [hRoot, place_append hNone.1 hNone.2, Nat.zero_add]
    have hLast : place 0 root.lexemes (a.length + tree.lexemes.length - 1) + 1 =
        (a.flatMap Lexeme.text).length + tree.compact.length := by
      have hSplit : a ++ (tree.lexemes ++ b) = (a ++ front) ++ (.closing c :: b) := by
        rw [hFront, List.append_assoc, List.append_assoc]
        rfl
      have hNumber : a.length + tree.lexemes.length - 1 = (a ++ front).length := by
        rw [hFront, List.length_append, List.length_append, List.length_singleton]
        omega
      have hText : (Lexeme.closing c).text.length = 1 := by cases c <;> rfl
      rw [hSplit, List.forall_mem_append] at hNone
      rw [hNumber, hRoot, hSplit, place_append hNone.1 hNone.2, Tree.compact, hFront]
      simp only [List.flatMap_append, List.length_append, List.flatMap_cons, List.flatMap_nil,
        List.append_nil, hText]
      omega
    rw [hParsed.slice hAt.token_eq, hStart, hStop, hFirst, hLast]
    have hPrefix : tree.compact <+: doc.bytes.toList.drop (a.flatMap Lexeme.text).length := by
      rw [hParsed.bytes_eq, hRoot, List.flatMap_append, List.drop_left, List.flatMap_append]
      exact List.prefix_append _ _
    rw [extract_of_isPrefix hPrefix]
    cases tree with
    | object members => rfl
    | array elements => rfl
    | string contents => cases hLeaf
    | literal text => cases hLeaf

/-! ### Leaves and their tokens -/

theorem Tree.leaves_leaf {tree : Tree} {depth levels : Nat}
    (h : tree.isLeaf = true ∨ depth = 0 ∨ levels = 0) (path : Bytes) :
    tree.leaves depth levels path = [(path, tree)] := by
  cases depth with
  | zero =>
    rw [leaves]
    all_goals intros; omega
  | succ depth =>
    cases levels with
    | zero =>
      rw [leaves]
      all_goals intros; omega
    | succ levels =>
      have hLeaf : tree.isLeaf = true := by simpa using h
      cases tree with
      | string contents => rfl
      | literal text => rfl
      | object members => cases hLeaf
      | array elements => cases hLeaf

/-- A leaf by its token is the leaf by its tree. -/
def SameLeaf (doc : Document) (leaf : Bytes × Nat) (leaf' : Bytes × Tree) : Prop :=
  leaf.1 = leaf'.1 ∧ Occurs doc leaf.2 leaf'.2

theorem forall₂_flatMap_zip {α β γ δ : Type} {R : α → β → Prop} {S : γ → δ → Prop} {as : List α}
    {bs : List β} {f : α × β → List γ} {g : β → List δ} (h : List.Forall₂ R as bs)
    (hfg : ∀ a b, R a b → List.Forall₂ S (f (a, b)) (g b)) :
    List.Forall₂ S ((as.zip bs).flatMap f) (bs.flatMap g) := by
  induction h with
  | nil => exact .nil
  | cons hFirst _ ih =>
    rw [List.zip_cons_cons, List.flatMap_cons, List.flatMap_cons]
    exact List.rel_append (hfg _ _ hFirst) ih

theorem Occurs.leaves_visits_leaf {doc : Document} {tree : Tree} {i depth levels : Nat}
    (h : Occurs doc i tree) (hStop : tree.isLeaf = true ∨ depth = 0 ∨ levels = 0) (path : Bytes) :
    List.Forall₂ (SameLeaf doc) (Visit.leaves (tree.visits depth levels path i))
      (tree.leaves depth levels path) := by
  rw [Tree.visits_leaf hStop, Tree.leaves_leaf hStop]
  exact .cons ⟨rfl, h⟩ .nil

/-- The leaves that `Tree.visits` comes by are those of `Tree.leaves`. -/
theorem Occurs.leaves_visits {doc : Document} {tree : Tree} {i : Nat} (h : Occurs doc i tree)
    (depth levels : Nat) (path : Bytes) :
    List.Forall₂ (SameLeaf doc) (Visit.leaves (tree.visits depth levels path i))
      (tree.leaves depth levels path) := by
  induction depth generalizing tree i levels path with
  | zero => exact h.leaves_visits_leaf (Or.inr (Or.inl rfl)) path
  | succ depth ih =>
    cases levels with
    | zero => exact h.leaves_visits_leaf (Or.inr (Or.inr rfl)) path
    | succ levels =>
      cases tree with
      | object members =>
        rw [Tree.visits, Tree.leaves, Visit.leaves, List.filterMap_flatMap]
        exact forall₂_flatMap_zip h.members.2 fun name m hMember => ih hMember.2 _ _
      | array elements =>
        rw [Tree.visits, Tree.leaves, Visit.leaves, List.filterMap_flatMap]
        exact forall₂_flatMap_zip h.elements.2 fun child element hElement => ih hElement _ _
      | string contents => exact h.leaves_visits_leaf (Or.inl rfl) path
      | literal text => exact h.leaves_visits_leaf (Or.inl rfl) path

end Json

end SignReview
