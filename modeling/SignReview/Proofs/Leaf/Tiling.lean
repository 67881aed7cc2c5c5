import SignReview.Proofs.Leaf.Find

/-!
# The leaves of a subtree tile it

The leaves that are found below a token lie one behind the other in its range, and each string or
literal below it that is no member name lies in one of them.

* `Place.Down`: a step down with what it costs, `Json.Occurs.reaches_found`: where leaves are.
* `Json.Occurs.exists_found`: no string or literal is lost.
* `Leaf.Tiles`: all of this, `Leaf.tiles_of_count`: it holds of the leaves that searches find.
-/

namespace SignReview

open Json

/-! ### Where leaves are -/

/-- A token that a walk comes to, and what is left there of its depth and its levels. -/
structure Place where
  token : Nat
  depth : Nat
  levels : Nat

namespace Place

/-- A step down from a container.  To the value of a member it costs one depth and one level, to an
element one depth; where either is used up there is none. -/
inductive Down (doc : Document) : Place → Place → Prop
  | member {object depth levels name : Nat} {names : List Nat}
      (hNames : doc.names object = .ok names) (hName : name ∈ names) :
      Down doc ⟨object, depth + 1, levels + 1⟩ ⟨name + 1, depth, levels⟩
  | element {array depth levels child : Nat} {elements : List Nat}
      (hElements : doc.contents .array array = .ok elements) (hChild : child ∈ elements) :
      Down doc ⟨array, depth + 1, levels + 1⟩ ⟨child, depth, levels + 1⟩

def Reaches (doc : Document) : Place → Place → Prop := Relation.ReflTransGen (Down doc)

/-- Here is a string, a literal, or a container with the depth or the levels used up. -/
def IsEnd (doc : Document) (place : Place) : Prop :=
  ∃ token, doc.token place.token = .ok token ∧
    (token.isLeaf = true ∨ place.depth = 0 ∨ place.levels = 0)

end Place

namespace Json.Occurs

variable {doc : Document} {ls : List Lexeme} {root tree : Tree} {i : Nat}

/-- A walk comes to what it finds by steps down, and can not go on from there. -/
theorem reaches_found (h : Occurs doc i tree) (depth levels : Nat) (path : Path) :
    ∀ leaf ∈ Leaf.found (Leaf.walk doc depth levels path i),
      ∃ place, Place.Reaches doc ⟨i, depth, levels⟩ place ∧ place.token = leaf ∧
        place.IsEnd doc := by
  refine walk_ind (P := fun depth levels _ i _ steps => ∀ leaf ∈ Leaf.found steps,
    ∃ place, Place.Reaches doc ⟨i, depth, levels⟩ place ∧ place.token = leaf ∧ place.IsEnd doc)
    ?leaf ?object ?array h depth levels path
  case leaf =>
    intro depth levels path i tree hTree hStop
    obtain ⟨ls, root, k, _, hAt⟩ := hTree
    have hToken := Document.token_eq_ok_iff.mpr hAt.token_eq
    rw [← tree.isLeaf_token (place 0 ls) k] at hStop
    refine List.forall_mem_singleton.mpr ⟨⟨i, depth, levels⟩, .refl, rfl, _, hToken, hStop⟩
  case object =>
    intro depth levels path i members hTree ih leaf hLeaf
    rw [Leaf.found, List.filterMap_flatMap] at hLeaf
    obtain ⟨name, hName, hLeaf⟩ := List.mem_flatMap.mp hLeaf
    obtain ⟨m, _, _, hValue⟩ := hTree.exists_value hName
    rw [Leaf.walkMember] at hLeaf
    split at hLeaf
    · cases hLeaf
    · obtain ⟨place, hPlace, hToken, hEnd⟩ := ih _ _ _ hValue leaf hLeaf
      exact ⟨place, .head (.member hTree.members.1 hName) hPlace, hToken, hEnd⟩
  case array =>
    intro depth levels path i elements hTree ih leaf hLeaf
    rw [Leaf.found, List.filterMap_flatMap] at hLeaf
    obtain ⟨child, hChild, hLeaf⟩ := List.mem_flatMap.mp hLeaf
    obtain ⟨element, _, hElement⟩ := hTree.exists_element hChild
    obtain ⟨place, hPlace, hToken, hEnd⟩ := ih _ _ _ hElement leaf hLeaf
    exact ⟨place, .head (.element hTree.elements.1 hChild) hPlace, hToken, hEnd⟩

/-! ### No string or literal is lost -/

theorem eq_of_within {contents : Bytes} (h : Occurs doc i (.string contents)) {index : Nat}
    (hWithin : doc.Within i index) : index = i := by
  rcases hWithin.cases_head with rfl | ⟨child, hChild, _⟩
  · rfl
  · rw [h.isChild_iff] at hChild
    cases hChild

/-- If a walk can go down everywhere, each string and literal below where it starts lies in what it
finds, member names apart. -/
theorem exists_found (h : Occurs doc i tree) (hParsed : doc.Parsed ls root) {depth levels : Nat}
    {path : Path} (hFault : ∀ e p, .fault e p ∉ Leaf.walk doc depth levels path i) :
    ∀ index token, doc.Within i index → doc.token index = .ok token → token.isLeaf = true →
      ¬doc.IsName index →
        ∃ leaf ∈ Leaf.found (Leaf.walk doc depth levels path i), doc.Covers leaf index := by
  revert hFault
  refine walk_ind (P := fun _ _ _ i _ steps => (∀ e p, .fault e p ∉ steps) →
    ∀ index token, doc.Within i index → doc.token index = .ok token → token.isLeaf = true →
      ¬doc.IsName index → ∃ leaf ∈ Leaf.found steps, doc.Covers leaf index)
    ?leaf ?object ?array h depth levels path
  case leaf =>
    intro depth levels path i tree hTree _ _ index token hWithin _ _ _
    obtain ⟨top, hTop, _⟩ := hTree.token
    exact ⟨i, List.mem_singleton.mpr rfl, hParsed.covers_of_within hTop hWithin⟩
  case object =>
    intro depth levels path i members hTree ih hFault index token hWithin hToken hLeaf hName
    rcases hWithin.cases_head with rfl | ⟨child, hChild, hBelow⟩
    · rw [hTree.isLeaf_eq hToken] at hLeaf
      cases hLeaf
    · rw [hTree.isChild_iff] at hChild
      obtain ⟨name, hMem, hCase⟩ := mem_numbers_inTurns.mp hChild
      obtain ⟨m, _, hString, hValue⟩ := hTree.exists_value hMem
      rcases hCase with rfl | rfl
      · rw [hString.eq_of_within hBelow] at hName
        exact absurd ⟨i, _, hTree.members.1, hMem⟩ hName
      · have hMember : ∀ e p, .fault e p ∉ Leaf.walkMember doc depth levels path name :=
          fun e p hMember => hFault e p (List.mem_flatMap.mpr ⟨name, hMem, hMember⟩)
        have hSteps : ∃ leaf ∈ Leaf.found (Leaf.walkMember doc depth levels path name),
            doc.Covers leaf index := by
          rw [Leaf.walkMember] at hMember ⊢
          split at hMember
          · exact absurd (List.mem_singleton.mpr rfl) (hMember _ _)
          · exact ih _ _ _ hValue hMember index token hBelow hToken hLeaf hName
        obtain ⟨leaf, hFound, hCovers⟩ := hSteps
        rw [Leaf.found, List.filterMap_flatMap]
        exact ⟨leaf, List.mem_flatMap.mpr ⟨name, hMem, hFound⟩, hCovers⟩
  case array =>
    intro depth levels path i elements hTree ih hFault index token hWithin hToken hLeaf hName
    rcases hWithin.cases_head with rfl | ⟨child, hChild, hBelow⟩
    · rw [hTree.isLeaf_eq hToken] at hLeaf
      cases hLeaf
    · rw [hTree.isChild_iff] at hChild
      obtain ⟨element, _, hElement⟩ := hTree.exists_element hChild
      obtain ⟨leaf, hFound, hCovers⟩ := ih path child element hElement
        (fun e p hMem => hFault e p (List.mem_flatMap.mpr ⟨child, hChild, hMem⟩))
        index token hBelow hToken hLeaf hName
      rw [Leaf.found, List.filterMap_flatMap]
      exact ⟨leaf, List.mem_flatMap.mpr ⟨child, hChild, hFound⟩, hCovers⟩

end Json.Occurs

/-! ### Leaves tile -/

/-- The leaves lie in the token `top`, one behind the other, each where the walk can not go on, and
exactly one of them holds each string and literal that is no member name. -/
structure Leaf.Tiles (doc : Document) (top levels : Nat) (leaves : List Nat) : Prop where
  inside : ∀ leaf ∈ leaves, doc.Covers top leaf
  apart : leaves.Pairwise doc.Precedes
  ends : ∀ leaf ∈ leaves, ∃ place, Place.Reaches doc ⟨top, maxDepth, levels⟩ place ∧
    place.token = leaf ∧ place.IsEnd doc
  complete : ∀ index token, doc.Within top index → doc.token index = .ok token →
    token.isLeaf = true → ¬doc.IsName index → ∃! leaf, leaf ∈ leaves ∧ doc.Covers leaf index

theorem Json.Occurs.tiles {doc : Document} {ls : List Lexeme} {root tree : Tree} {i : Nat}
    (h : Occurs doc i tree) (hParsed : doc.Parsed ls root) {levels : Nat} {path : Path}
    (hFault : ∀ e p, .fault e p ∉ Leaf.walk doc Leaf.maxDepth levels path i) :
    Leaf.Tiles doc i levels (Leaf.found (Leaf.walk doc Leaf.maxDepth levels path i)) where
  inside := (h.found_apart hParsed _ _ _).2
  apart := (h.found_apart hParsed _ _ _).1
  ends := h.reaches_found _ _ _
  complete := by
    intro index token hWithin hToken hLeaf hName
    obtain ⟨leaf, hFound, hCovers⟩ :=
      h.exists_found hParsed hFault index token hWithin hToken hLeaf hName
    refine ⟨leaf, ⟨hFound, hCovers⟩, fun other hOther => ?_⟩
    exact hParsed.eq_of_covers (h.found_apart hParsed _ _ _).1 hOther.1 hFound hOther.2 hCovers

/-- Where the leaves below a token can be counted, the searches for their numbers find tokens that
tile it, and the others find nothing. -/
theorem Leaf.tiles_of_count {bytes : Bytes} {limits : Limits} {doc : Document}
    (hParse : Document.parse bytes limits = .ok doc) {top levels n : Nat}
    (hCount : Leaf.count doc top levels = .ok n) :
    ∃ leaves : List Nat, leaves.length = n ∧
      (∀ i, ((Query.nth i levels).find doc top).1 =
        match leaves[i]? with
        | some token => .ok token
        | none => .error .queryNoResults) ∧
      Leaf.Tiles doc top levels leaves := by
  obtain ⟨ls, root, hParsed, _, hSize⟩ := Document.exists_parsed hParse
  obtain ⟨token, hToken⟩ := exists_token hCount
  obtain ⟨tree, hTree⟩ := hParsed.exists_occurs hToken
  have hTokens : doc.tokens.size ≤ noTarget := by
    rw [hParsed.size_tokens]
    refine Nat.le_trans hSize (Nat.le_trans (Nat.min_le_right _ _) ?_)
    decide
  obtain ⟨leaves, hSteps, hLength⟩ := hTree.count_eq_ok hTokens hCount
  have hFound : found (walk doc maxDepth levels .empty top) = leaves.map Leaf.token := by
    have hAll := found_append leaves []
    rw [List.append_nil, ← hSteps] at hAll
    exact hAll.trans (List.append_nil _)
  have hFault : ∀ e p, .fault e p ∉ walk doc maxDepth levels .empty top := by
    intro e p hMem
    rw [hSteps] at hMem
    obtain ⟨_, _, hStep⟩ := List.mem_map.mp hMem
    cases hStep
  refine ⟨leaves.map Leaf.token, (List.length_map _).trans hLength, fun i => ?_,
    hFound ▸ hTree.tiles hParsed hFault⟩
  have hVisible : (visible (Query.nth i levels).mask (Query.nth i levels).seen
      leaves)[(Query.nth i levels).target - (Query.nth i levels).seen]? = leaves[i]? := by
    show (visible none 0 leaves)[i - 0]? = _
    rw [visible_none, Nat.sub_zero]
  have hFind : (Query.nth i levels).find doc top =
      (Query.nth i levels).select (leaves.map .found) :=
    (hTree.find_eq _).trans (congrArg _ hSteps)
  rw [List.getElem?_map, hFind]
  cases hLeaf : leaves[i]? with
  | none => exact Query.select_of_none (Nat.zero_le _) (hVisible.trans hLeaf)
  | some leaf =>
    obtain ⟨last, hSelect, _⟩ :=
      Query.select_of_visible [] (Nat.zero_le _) (hVisible.trans hLeaf)
    rw [List.append_nil] at hSelect
    rw [hSelect]
    rfl

def nestedObjects : Bytes := Bytes.ofString "[\x7b\"a\":\x7b\"b\":1\x7d,\"c\":\"\"\x7d,2]"

theorem Leaf.tiles_of_count_nestedObjects :
    ∃ (doc : Document) (leaves : List Nat), Document.parse nestedObjects {} = .ok doc ∧
      Leaf.count doc 0 1 = .ok 3 ∧ leaves.length = 3 ∧
      (∀ i, ((Query.nth i 1).find doc 0).1 =
        match leaves[i]? with
        | some token => .ok token
        | none => .error .queryNoResults) ∧
      Leaf.Tiles doc 0 1 leaves := by
  have hRead : ((Document.parse nestedObjects {}).toOption.bind fun doc =>
      (Leaf.count doc 0 1).toOption) = some 3 := by decide +kernel
  obtain ⟨doc, hDoc, hCount⟩ := Option.bind_eq_some_iff.mp hRead
  have hParse := toOption_eq_some_iff.mp hDoc
  have hThree := toOption_eq_some_iff.mp hCount
  obtain ⟨leaves, hLength, hFind, hTiles⟩ := tiles_of_count hParse hThree
  exact ⟨doc, leaves, hParse, hThree, hLength, hFind, hTiles⟩

end SignReview
