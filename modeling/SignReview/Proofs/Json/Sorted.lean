import SignReview.Json.Canonical
import SignReview.Proofs.Json.Subtree

/-!
# Sorted documents

`Document.isSorted` looks at every token and reads the names of those that are objects.  It always
comes to an answer, and the answer is about the objects of the tree: are the names of each of them,
at any depth, in ascending order?

* `Tree.Contains`: the trees inside a tree, `Document.Parsed.exists_contained`,
  `Document.Parsed.exists_number`: they are the trees that occur in the document.
* `ascending_iff`: no name is smaller than any in front of it.
* `Tree.Sorted`: all objects are in order, `Document.Parsed.isSorted_iff`: what is answered.
-/

namespace SignReview.Json

/-! ### The trees inside a tree -/

/-- The second tree is the first, a child of it, a child of one of these, and so on. -/
def Tree.Contains : Tree → Tree → Prop :=
  Relation.ReflTransGen fun parent child => child ∈ parent.children

namespace OccursAt

variable {doc : Document} {ls : List Lexeme} {root tree : Tree}

theorem exists_of_contains {k i : Nat} {inner : Tree} (h : OccursAt doc ls k i tree)
    (hParsed : doc.Parsed ls root) (hInner : tree.Contains inner) :
    ∃ k' i', OccursAt doc ls k' i' inner := by
  induction hInner with
  | refl => exact ⟨k, i, h⟩
  | tail _ hChild ih =>
    obtain ⟨k', i', hParent⟩ := ih
    obtain ⟨left, right, hChildren⟩ := List.append_of_mem hChild
    exact ⟨_, _, hParent.child hParsed hChildren⟩

end OccursAt

namespace Document.Parsed

variable {doc : Document} {ls : List Lexeme} {root : Tree}

theorem exists_number (h : doc.Parsed ls root) {tree : Tree} (hTree : root.Contains tree) :
    ∃ i, Occurs doc i tree := by
  obtain ⟨k, i, hAt⟩ := h.occursAt.exists_of_contains h hTree
  exact ⟨i, ls, root, k, h, hAt⟩

theorem exists_contained (h : doc.Parsed ls root) {i : Nat} (hi : i < doc.tokens.size) :
    ∃ tree, Occurs doc i tree ∧ root.Contains tree := by
  rw [h.size_tokens] at hi
  obtain ⟨k, tree, hAt, hTree⟩ := Tree.exists_of_lt
    (fun k i tree => OccursAt doc ls k i tree ∧ root.Contains tree)
    (by
      rintro k i tree child left right ⟨hAt, hTree⟩ hChildren
      have hMem : child ∈ tree.children := by simp [hChildren]
      exact ⟨hAt.child h hChildren, hTree.tail hMem⟩)
    ⟨h.occursAt, .refl⟩ (Nat.zero_le i) (by omega)
  exact ⟨tree, ⟨ls, root, k, h, hAt⟩, hTree⟩

end Document.Parsed

/-! ### Names in ascending order -/

/-- Entries of which none is followed by a smaller one are in order from the first to the last. -/
theorem ascending_iff {names : List Bytes} :
    Document.ascending names = true ↔ names.Pairwise fun a b => ¬b < a := by
  induction names with
  | nil => simp [Document.ascending]
  | cons a names ih =>
    cases names with
    | nil => simp [Document.ascending]
    | cons b names =>
      rw [Document.ascending, Bool.and_eq_true, ih, Bool.not_eq_true', decide_eq_false_iff_not]
      refine Iff.trans ?_ List.pairwise_cons.symm
      rw [List.forall_mem_cons]
      constructor
      · rintro ⟨hFirst, hRest⟩
        refine ⟨⟨hFirst, fun c hc => ?_⟩, hRest⟩
        have hBehind := (List.pairwise_cons.mp hRest).1 c hc
        rw [List.not_lt] at hFirst hBehind ⊢
        exact List.le_trans hFirst hBehind
      · rintro ⟨⟨hFirst, _⟩, hRest⟩
        exact ⟨hFirst, hRest⟩

def Tree.namesAscend : Tree → Bool
  | .object members => Document.ascending (members.map Prod.fst)
  | _ => true

def Tree.Sorted (root : Tree) : Prop := ∀ tree, root.Contains tree → tree.namesAscend = true

/-! ### The answer -/

section All

variable {ε α : Type} {p : α → Except ε Bool} {as : List α}

theorem allM_eq_true (h : ∀ a ∈ as, p a = .ok true) : as.allM p = .ok true := by
  induction as with
  | nil => rfl
  | cons a as ih =>
    obtain ⟨hFirst, hRest⟩ := List.forall_mem_cons.mp h
    rw [List.allM, hFirst]
    exact ih hRest

theorem allM_eq_false (h : ∀ a ∈ as, ∃ b, p a = .ok b) (hSome : ∃ a ∈ as, p a = .ok false) :
    as.allM p = .ok false := by
  induction as with
  | nil =>
    obtain ⟨a, ha, _⟩ := hSome
    cases ha
  | cons a as ih =>
    obtain ⟨⟨b, hFirst⟩, hRest⟩ := List.forall_mem_cons.mp h
    rw [List.allM, hFirst]
    cases b with
    | false => rfl
    | true =>
      refine ih hRest ?_
      obtain ⟨c, hc, hFalse⟩ := hSome
      rcases List.mem_cons.mp hc with rfl | hc
      · cases hFirst.symm.trans hFalse
      · exact ⟨c, hc, hFalse⟩

end All

theorem Occurs.slice_names {doc : Document} {i : Nat} {members : List (Bytes × Tree)}
    (h : Occurs doc i (.object members)) :
    (doc.names i >>= fun names => names.mapM doc.slice) = .ok (members.map Prod.fst) := by
  obtain ⟨hNames, hMembers⟩ := h.members
  have hPairs : List.Forall₂ (fun name contents => Occurs doc name (.string contents))
      (nameNumbers (i + 1) members) (members.map Prod.fst) := by
    rw [List.forall₂_map_right_iff]
    exact hMembers.imp fun _ _ hMember => hMember.1
  rw [hNames, ok_bind]
  exact mapM_eq_ok hPairs fun name contents _ hName => hName.slice_string

/-- What is asked at a token is whether the names of its tree are in order. -/
theorem Occurs.namesAscend_eq {doc : Document} {i : Nat} {tree : Tree} (h : Occurs doc i tree) :
    (do
      if (← doc.token i).kind = .object then
        return Document.ascending (← (← doc.names i).mapM doc.slice)
      else
        return true) = Except.ok tree.namesAscend := by
  obtain ⟨token, hToken, hKind⟩ := h.token
  rw [hToken, ok_bind, hKind]
  cases tree with
  | object members =>
    show ((doc.names i >>= fun names => names.mapM doc.slice >>= fun slices => _)) = _
    rw [← bind_assoc, h.slice_names]
    rfl
  | array elements => rfl
  | string contents => rfl
  | literal text => rfl

namespace Document.Parsed

variable {doc : Document} {ls : List Lexeme} {root : Tree}

theorem isSorted_of_sorted (h : doc.Parsed ls root) (hSorted : root.Sorted) :
    doc.isSorted = .ok true := by
  refine allM_eq_true fun i hi => ?_
  obtain ⟨tree, hTree, hContains⟩ := h.exists_contained (List.mem_range.mp hi)
  rw [hTree.namesAscend_eq, hSorted tree hContains]

/-- A document is found not to be sorted if some object in it is not, wherever it is. -/
theorem isSorted_of_contains (h : doc.Parsed ls root) {tree : Tree} (hTree : root.Contains tree)
    (hNames : tree.namesAscend = false) : doc.isSorted = .ok false := by
  refine allM_eq_false (fun i hi => ?_) ?_
  · obtain ⟨inner, hInner, _⟩ := h.exists_contained (List.mem_range.mp hi)
    exact ⟨_, hInner.namesAscend_eq⟩
  · obtain ⟨i, hOccurs⟩ := h.exists_number hTree
    obtain ⟨token, hToken, _⟩ := hOccurs.token
    obtain ⟨hi, _⟩ := Array.getElem?_eq_some_iff.mp (Document.token_eq_ok_iff.mp hToken)
    exact ⟨i, List.mem_range.mpr hi, hOccurs.namesAscend_eq.trans (congrArg _ hNames)⟩

/-- The check always comes to an answer, which is whether the tree is sorted. -/
theorem isSorted_iff (h : doc.Parsed ls root) : doc.isSorted = .ok true ↔ root.Sorted := by
  constructor
  · intro hTrue tree hTree
    cases hNames : tree.namesAscend with
    | true => rfl
    | false =>
      rw [h.isSorted_of_contains hTree hNames] at hTrue
      cases hTrue
  · exact h.isSorted_of_sorted

end Document.Parsed

end SignReview.Json
