import SignReview.Proofs.Json.Subtree
import SignReview.Proofs.Leaf.Visits
import Mathlib.Data.List.Perm.Subperm

/-!
# Leaves lie one behind the other

The leaves that a walk comes to lie in the token where it starts, each behind the one before, so
that there are not more of them than tokens.  The leaves of a tree lie so however long their paths
are.

* `Leaf.found`: the tokens of the leaves, `Json.Occurs.found_apart`: how they lie.
* `Json.Occurs.length_found_le`: how many there are.
* `Json.Occurs.visits_apart`: how the leaves of a tree lie.
-/

namespace SignReview

open Json

def Leaf.found (steps : List Leaf.Step) : List Nat :=
  steps.filterMap fun step =>
    match step with
    | .found leaf => some leaf.token
    | .fault _ _ => none

namespace Json.Document.Parsed

variable {doc : Document} {ls : List Lexeme} {root : Tree}

/-- Where tokens lie one behind the other in a token, what lies so in them lies so in it. -/
theorem apart_flatMap (h : doc.Parsed ls root) {α : Type} {top : Nat} {as : List α}
    {f : α → List Nat} (key : α → Nat)
    (hKeys : (as.map key).Pairwise doc.Precedes ∧ ∀ a ∈ as, doc.Covers top (key a))
    (hf : ∀ a ∈ as, (f a).Pairwise doc.Precedes ∧ ∀ leaf ∈ f a, doc.Covers (key a) leaf) :
    (as.flatMap f).Pairwise doc.Precedes ∧ ∀ leaf ∈ as.flatMap f, doc.Covers top leaf := by
  obtain ⟨hApart, hInside⟩ := hKeys
  rw [List.pairwise_map] at hApart
  constructor
  · refine List.pairwise_flatMap.mpr ⟨fun a ha => (hf a ha).1, ?_⟩
    apply hApart.imp_of_mem
    intro a b ha hb hab leaf hLeaf leaf' hLeaf'
    exact h.precedes_of_covers hab ((hf a ha).2 leaf hLeaf) ((hf b hb).2 leaf' hLeaf')
  · intro leaf hLeaf
    obtain ⟨a, ha, hLeaf⟩ := List.mem_flatMap.mp hLeaf
    exact (hInside a ha).trans ((hf a ha).2 leaf hLeaf)

end Json.Document.Parsed

namespace Json.Occurs

variable {doc : Document} {ls : List Lexeme} {root tree : Tree} {i : Nat}

theorem values_apart {members : List (Bytes × Tree)} (h : Occurs doc i (.object members))
    (hParsed : doc.Parsed ls root) :
    ((nameNumbers (i + 1) members).map (· + 1)).Pairwise doc.Precedes ∧
      ∀ name ∈ nameNumbers (i + 1) members, doc.Covers i (name + 1) := by
  obtain ⟨hApart, hInside⟩ := hParsed.children_apart h.children_eq
  exact ⟨hApart.sublist (sublist_numbers_inTurns _ _), fun name hName =>
    hInside _ (mem_numbers_inTurns.mpr ⟨name, hName, Or.inr rfl⟩)⟩

theorem elements_apart {elements : List Tree} (h : Occurs doc i (.array elements))
    (hParsed : doc.Parsed ls root) :
    (numbers (i + 1) elements).Pairwise doc.Precedes ∧
      ∀ child ∈ numbers (i + 1) elements, doc.Covers i child :=
  hParsed.children_apart h.children_eq

/-- What a walk finds lies in the token where it starts, one behind the other. -/
theorem found_apart (h : Occurs doc i tree) (hParsed : doc.Parsed ls root) (depth levels : Nat)
    (path : Path) :
    (Leaf.found (Leaf.walk doc depth levels path i)).Pairwise doc.Precedes ∧
      ∀ leaf ∈ Leaf.found (Leaf.walk doc depth levels path i), doc.Covers i leaf := by
  refine walk_ind (P := fun _ _ _ i _ steps => (Leaf.found steps).Pairwise doc.Precedes ∧
    ∀ leaf ∈ Leaf.found steps, doc.Covers i leaf) ?leaf ?object ?array h depth levels path
  case leaf =>
    intro _ _ path i tree hTree _
    obtain ⟨token, hToken, _⟩ := hTree.token
    exact ⟨List.pairwise_singleton _ _,
      List.forall_mem_singleton.mpr (Document.Covers.refl hToken)⟩
  case object =>
    intro depth levels path i members hTree ih
    rw [Leaf.found, List.filterMap_flatMap]
    apply hParsed.apart_flatMap (· + 1) (hTree.values_apart hParsed)
    intro name hName
    obtain ⟨m, _, _, hValue⟩ := hTree.exists_value hName
    rw [Leaf.walkMember]
    split
    · exact ⟨List.Pairwise.nil, fun leaf hLeaf => by cases hLeaf⟩
    · exact ih _ _ _ hValue
  case array =>
    intro depth levels path i elements hTree ih
    obtain ⟨hApart, hInside⟩ := hTree.elements_apart hParsed
    rw [Leaf.found, List.filterMap_flatMap]
    refine hParsed.apart_flatMap id ⟨by rwa [List.map_id], hInside⟩ fun child hChild => ?_
    obtain ⟨element, _, hOccurs⟩ := hTree.exists_element hChild
    exact ih _ _ _ hOccurs

/-- There are not more leaves than tokens. -/
theorem length_found_le (h : Occurs doc i tree) (depth levels : Nat) (path : Path) :
    (Leaf.found (Leaf.walk doc depth levels path i)).length ≤ doc.tokens.size := by
  obtain ⟨ls, root, k, hParsed, hAt⟩ := h
  obtain ⟨hApart, hInside⟩ := found_apart ⟨ls, root, k, hParsed, hAt⟩ hParsed depth levels path
  have hNodup : (Leaf.found (Leaf.walk doc depth levels path i)).Nodup :=
    hApart.imp Document.Precedes.ne
  have hTokens : Leaf.found (Leaf.walk doc depth levels path i) ⊆ List.range doc.tokens.size := by
    intro leaf hLeaf
    obtain ⟨_, token, _, hToken, _⟩ := hInside leaf hLeaf
    obtain ⟨hNumber, _⟩ := Array.getElem?_eq_some_iff.mp (Document.token_eq_ok_iff.mp hToken)
    exact List.mem_range.mpr hNumber
  have hLength := (List.Nodup.subperm hNodup hTokens).length_le
  rwa [List.length_range] at hLength

/-! ### The leaves of a tree -/

theorem visits_apart_leaf (h : Occurs doc i tree) {depth levels : Nat}
    (hStop : tree.isLeaf = true ∨ depth = 0 ∨ levels = 0) (path : Bytes) :
    ((Visit.leaves (tree.visits depth levels path i)).map Prod.snd).Pairwise doc.Precedes ∧
      ∀ leaf ∈ (Visit.leaves (tree.visits depth levels path i)).map Prod.snd,
        doc.Covers i leaf := by
  obtain ⟨token, hToken, _⟩ := h.token
  rw [Tree.visits_leaf hStop]
  exact ⟨List.pairwise_singleton _ _, List.forall_mem_singleton.mpr (Document.Covers.refl hToken)⟩

/-- The leaves of a tree lie in its token, one behind the other. -/
theorem visits_apart (h : Occurs doc i tree) (hParsed : doc.Parsed ls root) (depth levels : Nat)
    (path : Bytes) :
    ((Visit.leaves (tree.visits depth levels path i)).map Prod.snd).Pairwise doc.Precedes ∧
      ∀ leaf ∈ (Visit.leaves (tree.visits depth levels path i)).map Prod.snd,
        doc.Covers i leaf := by
  induction depth generalizing tree i levels path with
  | zero => exact h.visits_apart_leaf (Or.inr (Or.inl rfl)) path
  | succ depth ih =>
    cases levels with
    | zero => exact h.visits_apart_leaf (Or.inr (Or.inr rfl)) path
    | succ levels =>
      cases tree with
      | object members =>
        obtain ⟨hLength, hMembers⟩ := List.forall₂_iff_zip.mp h.members.2
        obtain ⟨hApart, hInside⟩ := h.values_apart hParsed
        rw [← List.map_fst_zip (Nat.le_of_eq hLength)] at hApart hInside
        rw [List.map_map] at hApart
        rw [Tree.visits, Visit.leaves, List.filterMap_flatMap, List.map_flatMap]
        refine hParsed.apart_flatMap (fun m => m.1 + 1) ⟨hApart, fun m hm => ?_⟩ fun m hm => ?_
        · exact hInside _ (List.mem_map_of_mem hm)
        · exact ih (hMembers hm).2 _ _
      | array elements =>
        obtain ⟨hLength, hElements⟩ := List.forall₂_iff_zip.mp h.elements.2
        obtain ⟨hApart, hInside⟩ := h.elements_apart hParsed
        rw [← List.map_fst_zip (Nat.le_of_eq hLength)] at hApart hInside
        rw [Tree.visits, Visit.leaves, List.filterMap_flatMap, List.map_flatMap]
        refine hParsed.apart_flatMap Prod.fst ⟨hApart, fun m hm => ?_⟩ fun m hm => ?_
        · exact hInside _ (List.mem_map_of_mem hm)
        · exact ih (hElements hm) _ _
      | string contents => exact h.visits_apart_leaf (Or.inl rfl) path
      | literal text => exact h.visits_apart_leaf (Or.inl rfl) path

end Json.Occurs

end SignReview
