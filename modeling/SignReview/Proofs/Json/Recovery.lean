import SignReview.Proofs.Json.Navigation
import SignReview.Proofs.Outcome

/-!
# The tree of a document

`Document.tree` reads a tree off a token table.  It asks for tokens, slices and children only, and
gives the tree that the text of the document spells.

* `Document.treeAt`: the tree at a token, `Document.tree`: that of the root.
* `Occurs.treeAt_size_eq`: what the tree at a token is.
* `Document.Parsed.tree_eq`: a document that has been read from a spelling of a tree has this tree.
-/

namespace SignReview.Json

namespace Document

def treeAt (doc : Document) : Nat → Nat → Except Error Tree
  | 0, _ => .error .noData
  | depth + 1, index => do
    match (← doc.token index).kind with
    | .object =>
      return .object (← (← doc.names index).mapM fun name => do
        return (← doc.slice name, ← treeAt doc depth (name + 1)))
    | .array => return .array (← (← doc.children index).mapM (treeAt doc depth))
    | .string => return .string (← doc.slice index)
    | .primitive => return .literal (← doc.slice index)

def tree (doc : Document) : Except Error Tree := doc.treeAt doc.tokens.size 0

end Document

theorem Tree.mem_inTurns_of_mem {members : List (Bytes × Tree)} {m : Bytes × Tree}
    (h : m ∈ members) : m.2 ∈ inTurns members := by
  induction members with
  | nil => cases h
  | cons n members ih =>
    obtain ⟨name, value⟩ := n
    rcases List.mem_cons.mp h with rfl | h
    · exact List.mem_cons_of_mem _ List.mem_cons_self
    · exact List.mem_cons_of_mem _ (List.mem_cons_of_mem _ (ih h))

theorem Tree.size_lt_of_mem {tree child : Tree} (h : child ∈ tree.children) :
    child.size < tree.size := by
  have hElements : ∀ elements : List Tree, child ∈ elements →
      child.size ≤ elementSize elements := by
    intro elements hMem
    induction elements with
    | nil => cases hMem
    | cons e elements ih =>
      rw [elementSize]
      rcases List.mem_cons.mp hMem with rfl | hMem
      · omega
      · have := ih hMem
        omega
  have hChildren := hElements _ h
  have hTable := length_table (fun i => i) 0 tree
  rw [table_eq, List.length_cons, length_elementTable] at hTable
  omega

theorem Occurs.treeAt_eq {doc : Document} {tree : Tree} {i : Nat} (h : Occurs doc i tree)
    (depth : Nat) : tree.size ≤ depth → doc.treeAt depth i = .ok tree := by
  induction depth generalizing tree i with
  | zero =>
    intro hSize
    have := tree.size_pos
    omega
  | succ depth ih =>
    intro hSize
    obtain ⟨token, hToken, hKind⟩ := h.token
    have hChild : ∀ child ∈ tree.children, child.size ≤ depth := fun child hMem => by
      have := Tree.size_lt_of_mem hMem
      omega
    rw [Document.treeAt, hToken]
    obtain ⟨kind, start, stop⟩ := token
    simp only at hKind
    subst hKind
    cases tree with
    | object members =>
      have hMembers : (nameNumbers (i + 1) members).mapM (fun name => do
          return (← doc.slice name, ← doc.treeAt depth (name + 1))) = .ok members :=
        mapM_eq_ok h.members.2 fun name m hMem hOccur => by
          rw [hOccur.1.slice_string, ok_bind,
            ih hOccur.2 (hChild _ (Tree.mem_inTurns_of_mem hMem))]
          rfl
      show doc.names i >>= _ = _
      rw [h.members.1, ok_bind, hMembers]
      rfl
    | array elements =>
      have hElements : (numbers (i + 1) elements).mapM (doc.treeAt depth) = .ok elements :=
        mapM_eq_ok h.elements.2 fun index element hMem hOccur => ih hOccur (hChild _ hMem)
      show doc.children i >>= _ = _
      rw [h.children_eq, ok_bind, Tree.children, hElements]
      rfl
    | string contents =>
      show doc.slice i >>= _ = _
      rw [h.slice_string]
      rfl
    | literal text =>
      show doc.slice i >>= _ = _
      rw [h.slice_literal]
      rfl

theorem Occurs.size_le {doc : Document} {tree : Tree} {i : Nat} (h : Occurs doc i tree) :
    tree.size ≤ doc.tokens.size := by
  obtain ⟨ls, root, k, _, hAt⟩ := h
  obtain ⟨before, after, hTokens, _⟩ := hAt.tokens
  rw [← Array.length_toList, hTokens, List.length_append, List.length_append, Tree.length_table]
  omega

/-- A document has the tree at each token where it is. -/
theorem Occurs.treeAt_size_eq {doc : Document} {tree : Tree} {i : Nat} (h : Occurs doc i tree) :
    doc.treeAt doc.tokens.size i = .ok tree :=
  h.treeAt_eq _ h.size_le

theorem Document.Parsed.tree_eq {doc : Document} {ls : List Lexeme} {tree : Tree}
    (h : doc.Parsed ls tree) : doc.tree = .ok tree :=
  h.occurs.treeAt_size_eq

end SignReview.Json
