import SignReview.Proofs.Leaf.Tiling

/-!
# The names on the way to a leaf

A token lies below another one by steps down to members and to elements.  The names of the members
on the way are the same on each way, and the path of a leaf is made of them.

* `Route`: a way down, `Route.unique`: there is one at most.
* `Path.slash`, `Path.parts`: the parts of a path between its slashes, `Path.parts_eq_iff`: they are
  the names of which it is made, if no name has a slash.
* `Json.Occurs.exists_route`: how a walk comes to a leaf.
-/

namespace SignReview

open Json

/-- A step down to a value, and the name in front of it, which an element does not have. -/
inductive Route.Step (doc : Document) : Nat → List Bytes → Nat → Prop
  | member {object name : Nat} {names : List Nat} {key : Bytes}
      (hNames : doc.names object = .ok names) (hName : name ∈ names)
      (hKey : doc.slice name = .ok key) : Step doc object [key] (name + 1)
  | element {array child : Nat} {elements : List Nat}
      (hElements : doc.contents .array array = .ok elements) (hChild : child ∈ elements) :
      Step doc array [] child

/-- Steps down from the first token to the second, with the names on the way. -/
inductive Route (doc : Document) : Nat → List Bytes → Nat → Prop
  | here (index : Nat) : Route doc index [] index
  | down {top child token : Nat} {name names : List Bytes} (hStep : Route.Step doc top name child)
      (hRest : Route doc child names token) : Route doc top (name ++ names) token

/-! ### There is one way down -/

namespace Json

theorem Document.contents_eq_ok {doc : Document} {kind : Kind} {i : Nat} {children : List Nat}
    (h : doc.contents kind i = .ok children) :
    ∃ token, doc.token i = .ok token ∧ token.kind = kind ∧ doc.children i = .ok children := by
  obtain ⟨token, hToken, h⟩ := bind_eq_ok_iff.mp h
  by_cases hKind : token.kind = kind
  · rw [if_pos hKind] at h
    exact ⟨token, hToken, hKind, h⟩
  · rw [if_neg hKind] at h
    cases h

theorem Document.names_eq_ok {doc : Document} {i : Nat} {names : List Nat}
    (h : doc.names i = .ok names) : ∃ token, doc.token i = .ok token ∧ token.kind = .object := by
  obtain ⟨children, hContents, _⟩ := bind_eq_ok_iff.mp h
  obtain ⟨token, hToken, hKind, _⟩ := contents_eq_ok hContents
  exact ⟨token, hToken, hKind⟩

end Json

variable {doc : Document} {ls : List Lexeme} {root : Tree}

namespace Route

namespace Step

variable {top child : Nat} {name : List Bytes}

theorem isChild (h : Step doc top name child) (hParsed : doc.Parsed ls root) :
    doc.IsChild top child := by
  cases h with
  | member hNames hName hKey =>
    obtain ⟨token, hToken, _⟩ := Document.names_eq_ok hNames
    obtain ⟨tree, hTree⟩ := hParsed.exists_occurs hToken
    obtain ⟨members, rfl, rfl⟩ := hTree.eq_object hNames
    exact hTree.isChild_iff.mpr (mem_numbers_inTurns.mpr ⟨_, hName, Or.inr rfl⟩)
  | element hElements hChild =>
    obtain ⟨_, _, _, hChildren⟩ := Document.contents_eq_ok hElements
    exact ⟨_, hChildren, hChild⟩

theorem lt (h : Step doc top name child) (hParsed : doc.Parsed ls root) : top < child :=
  hParsed.lt_of_isChild (h.isChild hParsed)

theorem name_unique (h : Step doc top name child) {name' : List Bytes}
    (h' : Step doc top name' child) : name = name' := by
  have hKinds : ∀ {names elements : List Nat}, doc.names top = .ok names →
      doc.contents .array top = .ok elements → False := by
    intro names elements hNames hElements
    obtain ⟨token, hToken, hObject⟩ := Document.names_eq_ok hNames
    obtain ⟨_, hToken', hArray, _⟩ := Document.contents_eq_ok hElements
    obtain rfl := Except.ok.inj (hToken.symm.trans hToken')
    cases hObject.symm.trans hArray
  cases h with
  | member hNames _ hKey =>
    cases h' with
    | member _ _ hKey' => rw [Except.ok.inj (hKey.symm.trans hKey')]
    | element hElements _ => exact (hKinds hNames hElements).elim
  | element hElements _ =>
    cases h' with
    | member hNames _ _ => exact (hKinds hNames hElements).elim
    | element _ _ => rfl

end Step

variable {top token : Nat} {names : List Bytes}

theorem within (h : Route doc top names token) (hParsed : doc.Parsed ls root) :
    doc.Within top token := by
  induction h with
  | here index => exact .refl
  | down hStep _ ih => exact .head (hStep.isChild hParsed) ih

theorem le (h : Route doc top names token) (hParsed : doc.Parsed ls root) : top ≤ token := by
  induction h with
  | here index => exact Nat.le_refl _
  | down hStep _ ih => exact Nat.le_trans (Nat.le_of_lt (hStep.lt hParsed)) ih

theorem child_unique {left right : Nat} {name name' names names' : List Bytes}
    (hLeft : Step doc top name left) (hRight : Step doc top name' right)
    (h : Route doc left names token) (h' : Route doc right names' token)
    (hParsed : doc.Parsed ls root) : left = right := by
  obtain ⟨children, hChildren, hMem⟩ := hLeft.isChild hParsed
  obtain ⟨children', hChildren', hMem'⟩ := hRight.isChild hParsed
  obtain rfl := Except.ok.inj (hChildren.symm.trans hChildren')
  have hCovers : ∀ child ∈ children, doc.Within child token → doc.Covers child token := by
    intro child hChild hWithin
    obtain ⟨_, next, _, hNext, _⟩ := (hParsed.children_apart hChildren).2 child hChild
    exact hParsed.covers_of_within hNext hWithin
  exact hParsed.eq_of_covers (hParsed.children_apart hChildren).1 hMem hMem'
    (hCovers _ hMem (h.within hParsed)) (hCovers _ hMem' (h'.within hParsed))

/-- The names on the way from a token down to another are the same on each way. -/
theorem unique (h : Route doc top names token) (hParsed : doc.Parsed ls root) :
    ∀ {names' : List Bytes}, Route doc top names' token → names = names' := by
  induction h with
  | here index =>
    intro names' h'
    cases h' with
    | here _ => rfl
    | down hStep hRest =>
      exact absurd (hStep.lt hParsed) (Nat.not_lt.mpr (hRest.le hParsed))
  | down hStep hRest ih =>
    intro names' h'
    cases h' with
    | here _ => exact absurd (hStep.lt hParsed) (Nat.not_lt.mpr (hRest.le hParsed))
    | down hStep' hRest' =>
      obtain rfl := child_unique hStep hStep' hRest hRest' hParsed
      rw [hStep.name_unique hStep', ih hRest']

end Route

/-! ### The path of a leaf -/

namespace Path

def slash : UInt8 := 0x2f

def parts (path : Bytes) : List Bytes := path.splitOn slash

theorem bytes_of_push {path below : Path} {name : Bytes} (h : path.push name = .ok below) :
    below.bytes = join path.bytes name := by
  rw [push] at h
  split at h
  · rw [← Except.ok.inj h]
  · cases h

theorem join_of_ne_nil {path : Bytes} (h : path ≠ []) (name : Bytes) :
    join path name = path ++ slash :: name := by
  rw [join, if_neg (by simpa using h)]
  rfl

/-- Names are joined to a path with slashes between them. -/
theorem foldl_join {path : Bytes} (h : path ≠ []) (names : List Bytes) :
    names.foldl join path = [slash].intercalate (path :: names) := by
  induction names generalizing path with
  | nil => simp
  | cons name names ih =>
    rw [List.foldl_cons, join_of_ne_nil h, ih (by simp)]
    cases names with
    | nil => simp [List.intercalate]
    | cons next names => simp [List.intercalate]

theorem parts_intercalate (names : List Bytes) (h : names ≠ []) :
    parts ([slash].intercalate names) = names.flatMap parts := by
  induction names with
  | nil => exact absurd rfl h
  | cons name names ih =>
    cases names with
    | nil => simp [List.intercalate]
    | cons next names =>
      have hJoin : [slash].intercalate (name :: next :: names) =
          name ++ slash :: [slash].intercalate (next :: names) := by simp [List.intercalate]
      rw [hJoin, parts, List.splitOn_append_cons_self, List.flatMap_cons, ← ih (by simp)]
      rfl

theorem not_mem_of_mem_parts {path part : Bytes} (h : part ∈ parts path) : slash ∉ part := by
  induction path generalizing part with
  | nil =>
    obtain rfl : part = [] := by simpa [parts] using h
    exact List.not_mem_nil
  | cons c path ih =>
    rw [parts, List.splitOn_cons_eq_if_modifyHead] at h
    by_cases hSlash : (c == slash) = true
    · rw [if_pos hSlash] at h
      rcases List.mem_cons.mp h with rfl | h
      · exact List.not_mem_nil
      · exact ih h
    · rw [if_neg hSlash] at h
      obtain ⟨first, rest, hParts⟩ := List.exists_cons_of_ne_nil (List.splitOn_ne_nil slash path)
      rw [hParts, List.modifyHead_cons] at h
      rcases List.mem_cons.mp h with rfl | h
      · have hFirst : slash ∉ first := ih (by rw [parts, hParts]; exact List.mem_cons_self)
        have hc : slash ≠ c := fun hEq => hSlash (beq_iff_eq.mpr hEq.symm)
        exact List.not_mem_cons_of_ne_of_not_mem hc hFirst
      · exact ih (by rw [parts, hParts]; exact List.mem_cons_of_mem _ h)

/-- The parts of a path are the names of which it is made, if no name has a slash. -/
theorem parts_eq_iff {names : List Bytes} (h : names ≠ []) :
    parts ([slash].intercalate names) = names ↔ ∀ name ∈ names, slash ∉ name := by
  constructor
  · intro hParts name hName
    exact not_mem_of_mem_parts (hParts ▸ hName)
  · intro hNames
    exact List.splitOn_intercalate slash hNames h

end Path

/-- A walk comes to a leaf along the names that its path adds. -/
theorem Json.Occurs.exists_route {tree : Tree} {i : Nat} (h : Occurs doc i tree)
    (depth levels : Nat) (path : Path) :
    ∀ leaf, .found leaf ∈ Leaf.walk doc depth levels path i → ∃ names,
      Route doc i names leaf.token ∧ leaf.path.bytes = names.foldl Path.join path.bytes := by
  refine walk_ind (P := fun _ _ path i _ steps => ∀ leaf, .found leaf ∈ steps → ∃ names,
    Route doc i names leaf.token ∧ leaf.path.bytes = names.foldl Path.join path.bytes)
    ?leaf ?object ?array h depth levels path
  case leaf =>
    intro _ _ path i tree _ _ leaf hLeaf
    cases List.mem_singleton.mp hLeaf
    exact ⟨[], .here i, rfl⟩
  case object =>
    intro depth levels path i members hTree ih leaf hLeaf
    obtain ⟨name, hName, hLeaf⟩ := List.mem_flatMap.mp hLeaf
    obtain ⟨m, _, hString, hValue⟩ := hTree.exists_value hName
    rcases hString.walkMember_cases depth levels path with ⟨below, _, hPush, hWalk⟩ | ⟨_, hWalk⟩
    · rw [hWalk] at hLeaf
      obtain ⟨names, hRoute, hPath⟩ := ih _ _ _ hValue leaf hLeaf
      refine ⟨[m.1] ++ names, .down (.member hTree.members.1 hName hString.slice_string) hRoute, ?_⟩
      rw [hPath, Path.bytes_of_push hPush]
      rfl
    · rw [hWalk] at hLeaf
      cases List.mem_singleton.mp hLeaf
  case array =>
    intro depth levels path i elements hTree ih leaf hLeaf
    obtain ⟨child, hChild, hLeaf⟩ := List.mem_flatMap.mp hLeaf
    obtain ⟨element, _, hElement⟩ := hTree.exists_element hChild
    obtain ⟨names, hRoute, hPath⟩ := ih _ _ _ hElement leaf hLeaf
    exact ⟨[] ++ names, .down (.element hTree.elements.1 hChild) hRoute, hPath⟩

end SignReview
