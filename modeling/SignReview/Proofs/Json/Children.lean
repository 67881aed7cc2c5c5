import SignReview.Proofs.Json.Subtree

/-!
# Children and enclosing containers

The table keeps no list of children.  They are found by one scan that passes over what starts
inside the child before.  What is found are the tokens whose innermost enclosing container is the
token asked about, so that each token but the root is a child of exactly one container.  Elements
and members are counted and looked up in these lists.

* `Document.Encloses`, `Document.IsInnermost`: containers around a token.
* `Document.Parsed.within_of_covers`: what lies in the range of a token is below it.
* `Document.Parsed.isChild_iff_isInnermost`, `Document.Parsed.eq_of_isChild`: parents.
* `Document.ListsElements`, `Document.ListsMembers`: what is answered about arrays and objects.
* `Document.navigation_of_parse`: all questions about a document that has been accepted.
-/

namespace SignReview.Json

namespace Document

/-- Token `outer` is a container, and another token lies in its range. -/
structure Encloses (doc : Document) (outer inner : Nat) : Prop where
  container : ∃ token, doc.token outer = .ok token ∧ token.isLeaf = false
  covers : doc.Covers outer inner
  ne : inner ≠ outer

/-- Token `outer` is a container around token `inner`, and all others around it are around
`outer`, too. -/
structure IsInnermost (doc : Document) (outer inner : Nat) : Prop where
  encloses : doc.Encloses outer inner
  least : ∀ other, doc.Encloses other inner → other = outer ∨ doc.Encloses other outer

end Document

/-! ### All tokens are below the root -/

theorem mem_numbers (index : Nat) (left : List Tree) (tree : Tree) (right : List Tree) :
    index + Tree.elementSize left ∈ numbers index (left ++ tree :: right) := by
  induction left generalizing index with
  | nil => exact List.mem_cons_self
  | cons first left ih =>
    refine List.mem_cons_of_mem _ ?_
    rw [Tree.elementSize, ← Nat.add_assoc]
    exact ih (index + first.size)

namespace Document.Parsed

variable {doc : Document} {ls : List Lexeme} {root : Tree}

theorem within_root (h : doc.Parsed ls root) {index : Nat} (hIndex : index < doc.tokens.size) :
    doc.Within 0 index := by
  rw [h.size_tokens] at hIndex
  obtain ⟨_, _, _, hWithin⟩ := Tree.exists_of_lt
    (fun k i tree => OccursAt doc ls k i tree ∧ doc.Within 0 i)
    (by
      rintro k i tree child left right ⟨hAt, hWithin⟩ hChildren
      have hOccurs : Occurs doc i tree := ⟨ls, root, k, h, hAt⟩
      have hMem := mem_numbers (i + 1) left child right
      rw [← hChildren] at hMem
      exact ⟨hAt.child h hChildren, hWithin.tail (hOccurs.isChild_iff.mpr hMem)⟩)
    ⟨h.occursAt, .refl⟩ (Nat.zero_le index) (by omega)
  exact hWithin

theorem le_of_within (h : doc.Parsed ls root) {top index : Nat} (hWithin : doc.Within top index) :
    top ≤ index := by
  induction hWithin with
  | refl => exact Nat.le_refl _
  | tail _ hChild ih => exact Nat.le_trans ih (Nat.le_of_lt (h.lt_of_isChild hChild))

theorem le_of_covers (h : doc.Parsed ls root) {outer inner : Nat}
    (hCovers : doc.Covers outer inner) : outer ≤ inner := by
  obtain ⟨a, b, ha, hb, hStart, _⟩ := hCovers
  by_contra hLess
  have hBefore := (h.before hb ha (Nat.lt_of_not_le hLess)).start_lt
  omega

theorem lt_of_precedes (h : doc.Parsed ls root) {a b : Nat} (hab : doc.Precedes a b) : a < b := by
  refine Nat.lt_of_le_of_ne ?_ hab.ne
  obtain ⟨s, t, hs, ht, hStart, _⟩ := hab
  by_contra hLess
  have hBefore := (h.before ht hs (Nat.lt_of_not_le hLess)).start_lt
  omega

/-- The child on the way down to a token holds it. -/
theorem covers_of_isChild (h : doc.Parsed ls root) {parent child index : Nat}
    (hChild : doc.IsChild parent child) (hWithin : doc.Within child index) :
    doc.Covers child index := by
  obtain ⟨children, hChildren, hMem⟩ := hChild
  obtain ⟨_, token, _, hToken, _⟩ := (h.children_apart hChildren).2 child hMem
  exact h.covers_of_within hToken hWithin

/-- Two children of which both hold a token are the same. -/
theorem child_unique (h : doc.Parsed ls root) {parent left right index : Nat}
    (hLeft : doc.IsChild parent left) (hRight : doc.IsChild parent right)
    (hLeftCovers : doc.Covers left index) (hRightCovers : doc.Covers right index) :
    left = right := by
  obtain ⟨children, hChildren, hMem⟩ := hLeft
  obtain ⟨children', hChildren', hMem'⟩ := hRight
  obtain rfl := Except.ok.inj (hChildren.symm.trans hChildren')
  exact h.eq_of_covers (h.children_apart hChildren).1 hMem hMem' hLeftCovers hRightCovers

/-- Of two tokens below a third, what lies in the range of the other is below it. -/
theorem within_of_common (h : doc.Parsed ls root) {top outer inner : Nat}
    (hOuter : doc.Within top outer) (hInner : doc.Within top inner)
    (hCovers : doc.Covers outer inner) : doc.Within outer inner := by
  -- down from the third, as long as the ways to both tokens are the same
  induction hOuter using Relation.ReflTransGen.head_induction_on with
  | refl => exact hInner
  | @head top child hChild hBelow ih =>
    rcases hInner.cases_head with rfl | ⟨other, hOther, hOtherBelow⟩
    · have hLow := h.le_of_covers hCovers
      have hHigh := h.le_of_within hBelow
      have hStep := h.lt_of_isChild hChild
      omega
    · have hSame : child = other := h.child_unique hChild hOther
        ((h.covers_of_isChild hChild hBelow).trans hCovers)
        (h.covers_of_isChild hOther hOtherBelow)
      exact ih (hSame ▸ hOtherBelow)

theorem within_of_covers (h : doc.Parsed ls root) {outer inner : Nat}
    (hCovers : doc.Covers outer inner) : doc.Within outer inner := by
  have hTokens := hCovers
  obtain ⟨a, b, ha, hb, _⟩ := hTokens
  obtain ⟨hOuter, _⟩ := Array.getElem?_eq_some_iff.mp (token_eq_ok_iff.mp ha)
  obtain ⟨hInner, _⟩ := Array.getElem?_eq_some_iff.mp (token_eq_ok_iff.mp hb)
  exact h.within_of_common (h.within_root hOuter) (h.within_root hInner) hCovers

/-! ### Parents -/

theorem encloses_of_isChild (h : doc.Parsed ls root) {parent child : Nat}
    (hChild : doc.IsChild parent child) : doc.Encloses parent child where
  container := by
    obtain ⟨children, hChildren, hMem⟩ := hChild
    obtain ⟨token, hToken, hFrom⟩ := bind_eq_ok_iff.mp hChildren
    obtain rfl := Except.ok.inj hFrom
    obtain ⟨tree, hTree⟩ := h.exists_occurs hToken
    refine ⟨token, hToken, Bool.eq_false_iff.mpr fun hLeaf => ?_⟩
    rw [hTree.isLeaf_eq hToken] at hLeaf
    rw [(hTree.children hToken).1, Tree.children_of_isLeaf hLeaf] at hMem
    cases hMem
  covers := by
    obtain ⟨children, hChildren, hMem⟩ := hChild
    exact (h.children_apart hChildren).2 child hMem
  ne := (Nat.ne_of_lt (h.lt_of_isChild hChild)).symm

/-- A token below another one has a parent that is below it or is itself. -/
theorem exists_parent {top index : Nat} (h : doc.Within top index) (hNe : index ≠ top) :
    ∃ parent, doc.Within top parent ∧ doc.IsChild parent index := by
  rcases h.cases_tail with hSame | hParent
  · exact absurd hSame hNe
  · exact hParent

theorem le_of_isChild (h : doc.Parsed ls root) {left right child : Nat}
    (hLeft : doc.IsChild left child) (hRight : doc.IsChild right child) : right ≤ left := by
  by_contra hLess
  obtain ⟨a, c, ha, hc, _, hStopA⟩ := (h.encloses_of_isChild hLeft).covers
  obtain ⟨b, c', hb, hc', hStartB, _⟩ := (h.encloses_of_isChild hRight).covers
  obtain rfl := Except.ok.inj (hc.symm.trans hc')
  have hBefore := h.before ha hb (Nat.lt_of_not_le hLess)
  have hSelf := h.start_le_stop child c hc
  have hStart := hBefore.start_lt
  -- both hold the child, so that the second lies in the first
  have hCovers : doc.Covers left right := by
    refine ⟨a, b, ha, hb, Nat.le_of_lt hStart, ?_⟩
    rcases hBefore.nested_or_disjoint with hNested | hDisjoint
    · exact hNested
    · omega
  obtain hSame | ⟨next, hNext, hBelow⟩ := (h.within_of_covers hCovers).cases_head
  · omega
  · have hSame : next = child := h.child_unique hNext hLeft
      (h.covers_of_isChild hNext (hBelow.tail hRight)) (Covers.refl hc)
    have hLow := h.le_of_within hBelow
    have hHigh := h.lt_of_isChild hRight
    omega

/-- A token has one parent at most. -/
theorem eq_of_isChild (h : doc.Parsed ls root) {left right child : Nat}
    (hLeft : doc.IsChild left child) (hRight : doc.IsChild right child) : left = right :=
  Nat.le_antisymm (h.le_of_isChild hRight hLeft) (h.le_of_isChild hLeft hRight)

/-- The parent of a token is the innermost container around it. -/
theorem isChild_iff_isInnermost (h : doc.Parsed ls root) {parent child : Nat} :
    doc.IsChild parent child ↔ doc.IsInnermost parent child := by
  constructor
  · intro hChild
    refine ⟨h.encloses_of_isChild hChild, fun other hOther => ?_⟩
    obtain ⟨last, hAbove, hLast⟩ := exists_parent (h.within_of_covers hOther.covers) hOther.ne
    obtain rfl := h.eq_of_isChild hChild hLast
    by_cases hSame : other = parent
    · exact Or.inl hSame
    · obtain ⟨token, hToken, _⟩ := hOther.container
      exact Or.inr ⟨hOther.container, h.covers_of_within hToken hAbove, Ne.symm hSame⟩
  · intro hInnermost
    obtain ⟨hEncloses, hLeast⟩ := hInnermost
    obtain ⟨last, hBelow, hLast⟩ :=
      exists_parent (h.within_of_covers hEncloses.covers) hEncloses.ne
    rcases hLeast last (h.encloses_of_isChild hLast) with rfl | hAround
    · exact hLast
    · -- the parent is below the container and around it
      have hLow := h.le_of_within hBelow
      have hHigh := h.le_of_covers hAround.covers
      exact absurd (Nat.le_antisymm hLow hHigh) hAround.ne

end Document.Parsed

/-! ### Questions about arrays and objects -/

namespace Document

variable {doc : Document} {i : Nat}

structure ListsElements (doc : Document) (i : Nat) (elements : List Nat) : Prop where
  count : doc.arraySize i = .ok elements.length
  nth : ∀ n element, elements[n]? = some element → doc.element i n = .ok element
  past : ∀ n, elements.length ≤ n → doc.element i n = .error .noData

/-- The members of an object are counted, and found by their numbers and by their names.  The value
is the token behind the name; of members with the same name the first one counts. -/
structure ListsMembers (doc : Document) (i : Nat) (names : List Nat) : Prop where
  count : doc.objectSize i = .ok names.length
  nth : ∀ n name, names[n]? = some name →
    doc.name i n = .ok name ∧ doc.value i n = .ok (name + 1)
  past : ∀ n, names.length ≤ n →
    doc.name i n = .error .noData ∧ doc.value i n = .error .noData
  found : ∀ key value, doc.member i key = .ok value ↔
    ∃ left name right, names = left ++ name :: right ∧ doc.slice name = .ok key ∧
      (∀ other ∈ left, doc.slice other ≠ .ok key) ∧ value = name + 1
  missing : ∀ key e, doc.member i key = .error e ↔
    e = .noData ∧ ∀ name ∈ names, doc.slice name ≠ .ok key

structure RefusesElements (doc : Document) (i : Nat) (e : Error) : Prop where
  count : doc.arraySize i = .error e
  nth : ∀ n, doc.element i n = .error e

structure RefusesMembers (doc : Document) (i : Nat) (e : Error) : Prop where
  count : doc.objectSize i = .error e
  nth : ∀ n, doc.name i n = .error e ∧ doc.value i n = .error e
  member : ∀ key, doc.member i key = .error e

theorem refusesElements_of_contents {e : Error} (h : doc.contents .array i = .error e) :
    doc.RefusesElements i e where
  count := by rw [arraySize, h, error_bind]
  nth n := by rw [element, h, error_bind]

theorem refusesMembers_of_contents {e : Error} (h : doc.contents .object i = .error e) :
    doc.RefusesMembers i e := by
  have hNames : doc.names i = .error e := by rw [names, h, error_bind]
  have hName : ∀ n, doc.name i n = .error e := fun n => by rw [name, hNames, error_bind]
  refine ⟨?_, fun n => ⟨hName n, ?_⟩, fun key => ?_⟩
  · rw [objectSize, h, error_bind]
  · rw [value, hName, error_bind]
  · rw [member, hNames, error_bind]

theorem listsElements_of_contents {elements : List Nat}
    (h : doc.contents .array i = .ok elements) : doc.ListsElements i elements where
  count := by
    rw [arraySize, h]
    rfl
  nth n child hChild := by
    rw [element, h, ok_bind, hChild]
    rfl
  past n hPast := by
    rw [element, h, ok_bind, List.getElem?_eq_none hPast]
    rfl

/-- The first name that has these octets decides. -/
theorem valueOf_eq_ok_iff {key : Bytes} {names : List Nat} {value : Nat}
    (hNames : ∀ name ∈ names, ∃ octets, doc.slice name = .ok octets) :
    doc.valueOf key names = .ok value ↔
      ∃ left name right, names = left ++ name :: right ∧ doc.slice name = .ok key ∧
        (∀ other ∈ left, doc.slice other ≠ .ok key) ∧ value = name + 1 := by
  induction names with
  | nil => simp [valueOf]
  | cons first names ih =>
    obtain ⟨⟨octets, hFirst⟩, hRest⟩ := List.forall_mem_cons.mp hNames
    rw [valueOf, hFirst, ok_bind]
    by_cases hKey : octets = key
    · rw [if_pos hKey]
      constructor
      · intro hValue
        refine ⟨[], first, names, rfl, hKey ▸ hFirst, ?_, (Except.ok.inj hValue).symm⟩
        exact fun other hOther => absurd hOther List.not_mem_nil
      · rintro ⟨left, name, right, hSplit, _, hLeft, rfl⟩
        cases left with
        | nil =>
          rw [(List.cons.inj hSplit).1]
          rfl
        | cons other left =>
          obtain ⟨rfl, _⟩ := List.cons.inj hSplit
          exact absurd (hKey ▸ hFirst) (hLeft first List.mem_cons_self)
    · rw [if_neg hKey, ih hRest]
      have hOther : doc.slice first ≠ .ok key :=
        fun hSame => hKey (Except.ok.inj (hFirst.symm.trans hSame))
      constructor
      · rintro ⟨left, name, right, rfl, hName, hLeft, rfl⟩
        exact ⟨first :: left, name, right, rfl, hName,
          List.forall_mem_cons.mpr ⟨hOther, hLeft⟩, rfl⟩
      · rintro ⟨left, name, right, hSplit, hName, hLeft, rfl⟩
        cases left with
        | nil =>
          obtain ⟨rfl, _⟩ := List.cons.inj hSplit
          exact absurd hName hOther
        | cons other left =>
          obtain ⟨_, rfl⟩ := List.cons.inj hSplit
          exact ⟨left, name, right, rfl, hName, (List.forall_mem_cons.mp hLeft).2, rfl⟩

theorem valueOf_eq_error_iff {key : Bytes} {names : List Nat} {e : Error}
    (hNames : ∀ name ∈ names, ∃ octets, doc.slice name = .ok octets) :
    doc.valueOf key names = .error e ↔
      e = .noData ∧ ∀ name ∈ names, doc.slice name ≠ .ok key := by
  induction names with
  | nil => simp [valueOf, eq_comm]
  | cons first names ih =>
    obtain ⟨⟨octets, hFirst⟩, hRest⟩ := List.forall_mem_cons.mp hNames
    rw [valueOf, hFirst, ok_bind, List.forall_mem_cons, hFirst]
    by_cases hKey : octets = key
    · rw [if_pos hKey]
      exact ⟨fun h => (by cases h), fun h => absurd (congrArg _ hKey) h.2.1⟩
    · rw [if_neg hKey, ih hRest]
      have hOther : (.ok octets : Except Error Bytes) ≠ .ok key :=
        fun hSame => hKey (Except.ok.inj hSame)
      exact ⟨fun h => ⟨h.1, hOther, h.2⟩, fun h => ⟨h.1, h.2.2⟩⟩

end Document

theorem numbers_inTurns (index : Nat) (members : List (Bytes × Tree)) :
    numbers index (Tree.inTurns members) =
      (nameNumbers index members).flatMap fun name => [name, name + 1] := by
  induction members generalizing index with
  | nil => rfl
  | cons m members ih =>
    obtain ⟨name, value⟩ := m
    rw [Tree.inTurns, numbers, numbers, nameNumbers, List.flatMap_cons, ← ih]
    rfl

theorem Occurs.listsMembers {doc : Document} {i : Nat} {members : List (Bytes × Tree)}
    (h : Occurs doc i (.object members)) :
    doc.ListsMembers i (nameNumbers (i + 1) members) := by
  obtain ⟨hNames, hMembers⟩ := h.members
  have hContents : doc.contents .object i = .ok (numbers (i + 1) (Tree.inTurns members)) := by
    rw [h.contents]
    rfl
  have hSlices : ∀ name ∈ nameNumbers (i + 1) members, ∃ octets, doc.slice name = .ok octets := by
    intro name hName
    obtain ⟨m, _, hString, _⟩ := h.exists_value hName
    exact ⟨m.1, hString.slice_string⟩
  have hNth : ∀ n name, (nameNumbers (i + 1) members)[n]? = some name →
      doc.name i n = .ok name := by
    intro n name hName
    rw [Document.name, hNames, ok_bind, hName]
    rfl
  have hPast : ∀ n, (nameNumbers (i + 1) members).length ≤ n → doc.name i n = .error .noData := by
    intro n hLength
    rw [Document.name, hNames, ok_bind, List.getElem?_eq_none hLength]
    rfl
  constructor
  case count =>
    have hTwice : (numbers (i + 1) (Tree.inTurns members)).length / 2 =
        (nameNumbers (i + 1) members).length := by
      rw [numbers_inTurns, List.length_flatMap]
      simp
    rw [Document.objectSize, hContents, ok_bind, hTwice]
    rfl
  case nth =>
    intro n name hName
    refine ⟨hNth n name hName, ?_⟩
    rw [Document.value, hNth n name hName]
    rfl
  case past =>
    intro n hLength
    refine ⟨hPast n hLength, ?_⟩
    rw [Document.value, hPast n hLength]
    rfl
  case found =>
    intro key value
    rw [Document.member, hNames, ok_bind]
    exact Document.valueOf_eq_ok_iff hSlices
  case missing =>
    intro key e
    rw [Document.member, hNames, ok_bind]
    exact Document.valueOf_eq_error_iff hSlices

/-! ### All questions about a document -/

namespace Document

theorem contents_eq_noData {doc : Document} {i : Nat} (h : doc.token i = .error .noData)
    (kind : Kind) : doc.contents kind i = .error .noData := by
  rw [contents, h, error_bind]

/-- Navigation agrees with the tree.  The children of a token are, in the order of the table, the
tokens whose innermost enclosing container it is; a leaf has none, and each token but the root is a
child of exactly one.  The children of an object are by turns a name and its value, those of the
members of its tree.  All questions about elements and members are answered from the children, and
where there is no token or one of another kind, this is said. -/
theorem navigation_of_parse {text : Bytes} {limits : Limits} {doc : Document}
    (hParse : Document.parse text limits = .ok doc) :
    (∀ i, doc.tokens.size ≤ i → doc.children i = .error .noData ∧
      doc.RefusesElements i .noData ∧ doc.RefusesMembers i .noData) ∧
    (∀ i token, doc.token i = .ok token →
      ∃ children, doc.children i = .ok children ∧ children.Pairwise (· < ·) ∧
        (∀ child, child ∈ children ↔ doc.IsInnermost i child) ∧
        (token.isLeaf = true → children = []) ∧
        (token.kind = .array → doc.ListsElements i children) ∧
        (token.kind ≠ .array → doc.RefusesElements i .unexpectedType) ∧
        (token.kind = .object → ∃ names members, Occurs doc i (.object members) ∧
          children = names.flatMap (fun name => [name, name + 1]) ∧
          List.Forall₂ (fun name m => Occurs doc name (.string m.1) ∧ Occurs doc (name + 1) m.2)
            names members ∧
          doc.ListsMembers i names) ∧
        (token.kind ≠ .object → doc.RefusesMembers i .unexpectedType)) ∧
    (∀ i, ¬doc.IsChild i 0) ∧
    ∀ child, 0 < child → child < doc.tokens.size → ∃! parent, doc.IsChild parent child := by
  obtain ⟨ls, root, hParsed, _⟩ := Document.exists_parsed hParse
  refine ⟨?bad, ?token, ?root, ?parent⟩
  case bad =>
    intro i hi
    have hNone : doc.token i = .error .noData := by rw [token, Array.getElem?_eq_none hi]
    refine ⟨?_, refusesElements_of_contents (contents_eq_noData hNone _),
      refusesMembers_of_contents (contents_eq_noData hNone _)⟩
    rw [children, hNone, error_bind]
  case token =>
    intro i token hToken
    obtain ⟨tree, hTree⟩ := hParsed.exists_occurs hToken
    have hKind : token.kind = tree.kind := by
      obtain ⟨token', hToken', hKind⟩ := hTree.token
      rwa [← Except.ok.inj (hToken'.symm.trans hToken)]
    refine ⟨_, hTree.children_eq, ?_, ?_, ?_, ?_, ?_, ?_, ?_⟩
    · exact (hParsed.children_apart hTree.children_eq).1.imp hParsed.lt_of_precedes
    · intro child
      rw [← hTree.isChild_iff, hParsed.isChild_iff_isInnermost]
    · intro hLeaf
      rw [hTree.isLeaf_eq hToken] at hLeaf
      rw [Tree.children_of_isLeaf hLeaf]
      rfl
    · intro hArray
      refine listsElements_of_contents ?_
      rw [hTree.contents, if_pos (hKind.symm.trans hArray)]
    · intro hOther
      refine refusesElements_of_contents ?_
      rw [hTree.contents, if_neg (hKind ▸ hOther)]
    · intro hObject
      rw [hKind] at hObject
      cases tree with
      | object members =>
        exact ⟨_, members, hTree, numbers_inTurns _ _, hTree.members.2, hTree.listsMembers⟩
      | array elements => cases hObject
      | string contents => cases hObject
      | literal text => cases hObject
    · intro hOther
      refine refusesMembers_of_contents ?_
      rw [hTree.contents, if_neg (hKind ▸ hOther)]
  case root =>
    intro i hChild
    exact Nat.not_lt_zero i (hParsed.lt_of_isChild hChild)
  case parent =>
    intro child hPos hChild
    obtain ⟨parent, _, hParent⟩ :=
      Parsed.exists_parent (hParsed.within_root hChild) (Nat.ne_of_gt hPos)
    exact ⟨parent, hParent, fun other hOther => hParsed.eq_of_isChild hOther hParent⟩

end Document

/-- An object with a list of empty values, a name that occurs twice, and a nested object. -/
def namesTwice : Bytes :=
  Bytes.ofString
    "\x7b\"a\":[\x7b\x7d,[],\"\"],\"b\":1,\"c\":\x7b\"d\":2\x7d,\"b\":3\x7d"

theorem navigation_of_parse_namesTwice :
    ∃ doc, Document.parse namesTwice {} = .ok doc ∧
      doc.children 2 = .ok [3, 4, 5] ∧ (∀ child, child ∈ [3, 4, 5] ↔ doc.IsInnermost 2 child) ∧
      doc.ListsElements 2 [3, 4, 5] ∧ doc.RefusesMembers 2 .unexpectedType ∧
      (∃ names members, doc.children 0 = .ok (names.flatMap fun name => [name, name + 1]) ∧
        Occurs doc 0 (.object members) ∧ doc.ListsMembers 0 names) ∧
      doc.RefusesMembers 14 .noData ∧ ∃! parent, doc.IsChild parent 11 := by
  have hRead : ((Document.parse namesTwice {}).toOption.map fun doc =>
      ((doc.token 0).toOption.map Token.kind, (doc.token 2).toOption.map Token.kind,
        (doc.children 2).toOption, doc.tokens.size)) =
        some (some .object, some .array, some [3, 4, 5], 14) := by decide +kernel
  obtain ⟨doc, hParse, hRead⟩ := Option.map_eq_some_iff.mp hRead
  obtain ⟨hObject, hRead⟩ := Prod.mk.inj hRead
  obtain ⟨hArray, hRead⟩ := Prod.mk.inj hRead
  obtain ⟨hElements, hSize⟩ := Prod.mk.inj hRead
  obtain ⟨top, hTop, hTopKind⟩ := Option.map_eq_some_iff.mp hObject
  obtain ⟨list, hList, hListKind⟩ := Option.map_eq_some_iff.mp hArray
  rw [toOption_eq_some_iff] at hParse hTop hList hElements
  obtain ⟨hBad, hTokens, _, hParents⟩ := Document.navigation_of_parse hParse
  obtain ⟨children, hChildren, _, hInnermost, _, hLists, _, _, hOther⟩ := hTokens 2 list hList
  obtain rfl := Except.ok.inj (hChildren.symm.trans hElements)
  obtain ⟨children', hChildren', _, _, _, _, _, hMembers, _⟩ := hTokens 0 top hTop
  obtain ⟨names, members, hOccurs, rfl, _, hNames⟩ := hMembers hTopKind
  refine ⟨doc, hParse, hChildren, hInnermost, hLists hListKind, hOther ?_,
    ⟨names, members, hChildren', hOccurs, hNames⟩, (hBad 14 (Nat.le_of_eq hSize)).2.2,
    hParents 11 (by decide) (by omega)⟩
  rw [hListKind]
  decide

end SignReview.Json
