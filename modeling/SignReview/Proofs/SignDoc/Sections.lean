import SignReview.Proofs.SignDoc.Leaves
import SignReview.Proofs.SignDoc.Search

/-!
# The sections of a sign document

A listing goes through the headings up to the first that the document lacks.  What it goes through
are the sections: a heading with its value, which is a tree, and the token of the value.

* `Section`, `sections`: the sections of a document.
* `Section.leaves`, `Section.group?`, `Section.shown`: the leaves of a section, the type shown once,
  and the leaves that are shown.
* `Span.Lists`: the items under a heading are the leaves shown, `Span.build_of_fits`: they are if
  they can be counted, `Span.build_of_overlong`: where they can not.
* `Listing.buildSpans_of_fits`, `Listing.buildSpans_of_overlong`: the same for all sections,
  `Listing.leaf_eq`: the leaves of items.
-/

namespace SignReview

open Json

/-! ### Members by their name -/

namespace Json

/-- The first value of this name with its token, where the first name of all is token `index`. -/
def valueAt? (key : Bytes) : Nat → List (Bytes × Tree) → Option (Nat × Tree)
  | _, [] => none
  | index, (name, value) :: members =>
    if name = key then some (index + 1, value) else valueAt? key (index + 1 + value.size) members

theorem valueOf_eq {doc : Document} (key : Bytes) {index : Nat} {members : List (Bytes × Tree)}
    (h : List.Forall₂ (fun name m => Occurs doc name (.string m.1) ∧ Occurs doc (name + 1) m.2)
      (nameNumbers index members) members) :
    doc.valueOf key (nameNumbers index members) =
      match valueAt? key index members with
      | none => .error .noData
      | some (token, _) => .ok token := by
  induction members generalizing index with
  | nil => rfl
  | cons m members ih =>
    obtain ⟨name, value⟩ := m
    rw [nameNumbers] at h ⊢
    obtain ⟨⟨hName, _⟩, hRest⟩ := List.forall₂_cons.mp h
    rw [Document.valueOf, hName.slice_string, ok_bind, valueAt?]
    by_cases hKey : name = key
    · rw [if_pos hKey, if_pos hKey]
      rfl
    · rw [if_neg hKey, if_neg hKey]
      exact ih hRest

theorem valueAt?_eq_some {doc : Document} {key : Bytes} {index token : Nat} {value : Tree}
    {members : List (Bytes × Tree)}
    (h : List.Forall₂ (fun name m => Occurs doc name (.string m.1) ∧ Occurs doc (name + 1) m.2)
      (nameNumbers index members) members)
    (hValue : valueAt? key index members = some (token, value)) :
    Occurs doc token value ∧
      ∃ name ∈ nameNumbers index members, token = name + 1 ∧ doc.slice name = .ok key := by
  induction members generalizing index with
  | nil => cases hValue
  | cons m members ih =>
    obtain ⟨name, first⟩ := m
    rw [nameNumbers] at h ⊢
    obtain ⟨⟨hName, hFirst⟩, hRest⟩ := List.forall₂_cons.mp h
    rw [valueAt?] at hValue
    by_cases hKey : name = key
    · rw [if_pos hKey] at hValue
      obtain ⟨rfl, rfl⟩ := Prod.mk.inj (Option.some.inj hValue)
      exact ⟨hFirst, index, List.mem_cons_self, rfl, hKey ▸ hName.slice_string⟩
    · rw [if_neg hKey] at hValue
      obtain ⟨hOccurs, other, hMem, hToken, hSlice⟩ := ih hRest hValue
      exact ⟨hOccurs, other, List.mem_cons_of_mem _ hMem, hToken, hSlice⟩

theorem Occurs.member_eq {doc : Document} {i : Nat} {members : List (Bytes × Tree)}
    (h : Occurs doc i (.object members)) (key : Bytes) :
    doc.member i key =
      match valueAt? key (i + 1) members with
      | none => .error .noData
      | some (token, _) => .ok token := by
  rw [Document.member, h.members.1, ok_bind, valueOf_eq key h.members.2]

end Json

/-! ### Sections -/

structure Section where
  heading : Heading
  /-- The first token of the value. -/
  token : Nat
  value : Tree

/-- The sections of an object, up to the first heading that it lacks. -/
def sectionsOf (members : List (Bytes × Tree)) : List Heading → List Section
  | [] => []
  | heading :: headings =>
    match valueAt? heading.name 1 members with
    | none => []
    | some (token, value) => ⟨heading, token, value⟩ :: sectionsOf members headings

def sections (members : List (Bytes × Tree)) : List Section := sectionsOf members Heading.all

namespace Section

/-- What a count of the section comes by; the memo is left at its first empty leaf. -/
def visits (doc : Document) (part : Section) : List Visit :=
  Visit.upTo doc (part.heading = .memo)
    (part.value.visits Leaf.maxDepth part.heading.levels part.heading.name part.token)

def leaves (doc : Document) (part : Section) : List (Bytes × Nat) := Visit.leaves (part.visits doc)

def isType (leaf : Bytes × Nat) : Bool := leaf.1 == TypeGroup.path

def types (doc : Document) (part : Section) : List Bytes :=
  ((part.leaves doc).filter isType).map fun leaf => doc.text leaf.2

def group? (doc : Document) (part : Section) : Option TypeGroup :=
  if part.heading = .msgs ∧ allSame (part.types doc) = true then
    some ⟨(part.leaves doc).findIdx isType, (part.types doc).length⟩
  else none

def shown (doc : Document) (part : Section) : List (Bytes × Nat) :=
  match part.group? doc with
  | some _ => keepFirst isType (part.leaves doc)
  | none => part.leaves doc

def count (doc : Document) (part : Section) : Nat :=
  match part.group? doc with
  | some group => (part.leaves doc).length - (group.count - 1)
  | none => (part.leaves doc).length

theorem length_shown (doc : Document) (part : Section) :
    (part.shown doc).length = part.count doc := by
  rw [shown, count]
  cases hGroup : part.group? doc with
  | none => rfl
  | some group =>
    rw [group?, Option.ite_none_right_eq_some] at hGroup
    obtain rfl := Option.some.inj hGroup.2
    rw [length_keepFirst]
    simp only [types, List.length_map]

end Section

/-- The items of a span are the leaves shown of a section. -/
structure Span.Lists (doc : Document) (span : Span) (part : Section) : Prop where
  heading_eq : span.heading = part.heading
  count_eq : span.count = part.count doc
  group_eq : span.group = part.group? doc
  find_eq : ∀ n leaf, (part.shown doc)[n]? = some leaf → ∃ found,
    (span.query n).find doc span.start = (.ok leaf.2, found) ∧ found.key.bytes = leaf.1

namespace Json.Occurs

variable {doc : Document} {i : Nat} {tree : Tree}

theorem slice_eq_text (h : Occurs doc i tree) : doc.slice i = .ok (doc.text i) := by
  obtain ⟨ls, root, k, hParsed, hAt⟩ := h
  exact Document.slice_eq_text (hParsed.slice hAt.token_eq)

theorem slice_leaves (h : Occurs doc i tree) (depth levels : Nat) (path : Bytes) :
    ∀ leaf ∈ Visit.leaves (tree.visits depth levels path i),
      doc.slice leaf.2 = .ok (doc.text leaf.2) := by
  intro leaf hLeaf
  obtain ⟨leaf', _, _, hOccurs⟩ := Forall₂.exists_of_mem (h.leaves_visits depth levels path) hLeaf
  exact hOccurs.slice_eq_text

end Json.Occurs

namespace Span

variable {doc : Document}

/-- A section can not be counted where one of the paths on the way is too long. -/
theorem build_of_overlong (part : Section) (hOccurs : Occurs doc part.token part.value)
    (hLong : Visit.Overlong (part.visits doc)) :
    build doc part.heading part.token = .error .bufferOverflow := by
  have hFollows := hOccurs.follows Leaf.maxDepth part.heading.levels part.heading.path
  rw [build_eq hOccurs, readLeaves_of_overlong hFollows (hOccurs.slice_leaves _ _ _) hLong]
  rfl

theorem groupOf_read {part : Section} {leaves : List Leaf}
    (hPairs : leaves.map Leaf.pair = part.leaves doc) :
    groupOf part.heading (leaves.map (Leaf.read doc)) = part.group? doc := by
  have hTypes : typesOf (leaves.map (Leaf.read doc)) = part.types doc := by
    rw [typesOf, Section.types, ← hPairs]
    simp only [List.filter_map, List.map_map]
    rfl
  have hFirst : (leaves.map (Leaf.read doc)).findIdx readsType =
      (part.leaves doc).findIdx Section.isType := by
    rw [← hPairs, List.findIdx_map, List.findIdx_map]
    rfl
  rw [groupOf, Section.group?, hTypes, hFirst]

/-- The leaves that are visible are those that are shown. -/
theorem visible_eq {part : Section} {leaves : List Leaf}
    (hPairs : leaves.map Leaf.pair = part.leaves doc) :
    (visible ((part.group? doc).map fun group => ⟨TypeGroup.path, group.first⟩) 0 leaves).map
      Leaf.pair = part.shown doc := by
  rw [Section.shown]
  cases hGroup : part.group? doc with
  | none => rw [Option.map_none, visible_none, hPairs]
  | some group =>
    rw [Section.group?, Option.ite_none_right_eq_some] at hGroup
    obtain rfl := Option.some.inj hGroup.2
    have hFirst : (part.leaves doc).findIdx Section.isType =
        0 + leaves.findIdx fun leaf => leaf.path.bytes == TypeGroup.path := by
      rw [← hPairs, List.findIdx_map, Nat.zero_add]
      rfl
    rw [Option.map_some, hFirst, visible_findIdx, ← hPairs, keepFirst_map]
    rfl

/-- Where all paths on the way are short enough, the items under a heading are the leaves of the
section that are shown. -/
theorem build_of_fits (part : Section) (hOccurs : Occurs doc part.token part.value)
    (hFits : ¬Visit.Overlong (part.visits doc)) :
    ∃ span, build doc part.heading part.token = .ok span ∧ Span.Lists doc span part := by
  have hFollows := hOccurs.follows Leaf.maxDepth part.heading.levels part.heading.path
  obtain ⟨leaves, rest, hSteps, hPairs, hRead⟩ :=
    readLeaves_of_fits hFollows (hOccurs.slice_leaves _ _ _) hFits
  have hPairs : leaves.map Leaf.pair = part.leaves doc := hPairs
  have hLength : (part.leaves doc).length = leaves.length := by rw [← hPairs, List.length_map]
  refine ⟨⟨part.heading, part.token, part.count doc, part.group? doc⟩, ?_, rfl, rfl, rfl, ?_⟩
  · rw [build_eq hOccurs, hRead, ok_bind, groupOf_read hPairs, List.length_map, ← hLength,
      Section.count]
    cases part.group? doc <;> rfl
  · intro n leaf hLeaf
    rw [← visible_eq hPairs, List.getElem?_map, Option.map_eq_some_iff] at hLeaf
    obtain ⟨found, hVisible, rfl⟩ := hLeaf
    obtain ⟨last, hFind, hKey⟩ := @Query.select_of_visible leaves rest found
      (query ⟨part.heading, part.token, part.count doc, part.group? doc⟩ n) (Nat.zero_le n) hVisible
    refine ⟨last, ?_, by rw [hKey]; rfl⟩
    rw [← hSteps] at hFind
    exact (hOccurs.find_eq _).trans hFind

end Span

namespace Listing

variable {doc : Document} {members : List (Bytes × Tree)}

theorem buildSpans_of_overlong (hOccurs : Occurs doc 0 (.object members)) {headings : List Heading}
    (hLong : ∃ part ∈ sectionsOf members headings, Visit.Overlong (part.visits doc)) :
    buildSpans doc headings = .error .bufferOverflow := by
  induction headings with
  | nil =>
    obtain ⟨part, hMem, _⟩ := hLong
    cases hMem
  | cons heading headings ih =>
    rw [sectionsOf] at hLong
    rw [buildSpans, hOccurs.member_eq]
    cases hValue : valueAt? heading.name 1 members with
    | none =>
      rw [hValue] at hLong
      obtain ⟨part, hMem, _⟩ := hLong
      cases hMem
    | some entry =>
      obtain ⟨token, value⟩ := entry
      rw [hValue] at hLong
      obtain ⟨hAt, _⟩ := valueAt?_eq_some hOccurs.members.2 hValue
      by_cases hFirst : Visit.Overlong (Section.visits doc ⟨heading, token, value⟩)
      · simp only [Span.build_of_overlong ⟨heading, token, value⟩ hAt hFirst]
        rfl
      · obtain ⟨part, hMem, hLong⟩ := hLong
        rcases List.mem_cons.mp hMem with rfl | hMem
        · exact absurd hLong hFirst
        · obtain ⟨span, hBuild, _⟩ :=
            Span.build_of_fits ⟨heading, token, value⟩ hAt hFirst
          simp only [hBuild, ih ⟨part, hMem, hLong⟩]
          rfl

theorem buildSpans_of_fits (hOccurs : Occurs doc 0 (.object members)) {headings : List Heading}
    (hFits : ∀ part ∈ sectionsOf members headings, ¬Visit.Overlong (part.visits doc)) :
    ∃ spans, buildSpans doc headings = .ok spans ∧
      List.Forall₂ (Span.Lists doc) spans (sectionsOf members headings) := by
  induction headings with
  | nil => exact ⟨[], rfl, .nil⟩
  | cons heading headings ih =>
    rw [sectionsOf] at hFits ⊢
    rw [buildSpans, hOccurs.member_eq]
    cases hValue : valueAt? heading.name 1 members with
    | none => exact ⟨[], rfl, .nil⟩
    | some entry =>
      obtain ⟨token, value⟩ := entry
      rw [hValue] at hFits
      obtain ⟨hFirst, hRest⟩ := List.forall_mem_cons.mp hFits
      obtain ⟨hAt, _⟩ := valueAt?_eq_some hOccurs.members.2 hValue
      obtain ⟨span, hBuild, hSpan⟩ := Span.build_of_fits ⟨heading, token, value⟩ hAt hFirst
      obtain ⟨spans, hSpans, hLists⟩ := ih hRest
      refine ⟨span :: spans, ?_, .cons hSpan hLists⟩
      simp only [hBuild, hSpans]
      rfl

theorem exists_spans {listing : Listing} (h : build doc = .ok listing) :
    ∃ spans, buildSpans doc Heading.all = .ok spans ∧ listing = ⟨spans⟩ := by
  obtain ⟨token, _, h⟩ := bind_eq_ok_iff.mp h
  obtain ⟨_, h⟩ := guard_eq_ok_iff.mp h
  obtain ⟨spans, hSpans, h⟩ := bind_eq_ok_iff.mp h
  exact ⟨spans, hSpans, (Except.ok.inj h).symm⟩

theorem sizeOf_eq {spans : List Span} {parts : List Section}
    (h : List.Forall₂ (Span.Lists doc) spans parts) :
    sizeOf spans = (parts.flatMap (Section.shown doc)).length := by
  induction h with
  | nil => rfl
  | cons hFirst _ ih =>
    rw [sizeOf, List.flatMap_cons, List.length_append, Section.length_shown, hFirst.count_eq, ih]

theorem leaf_eq {spans : List Span} {parts : List Section}
    (h : List.Forall₂ (Span.Lists doc) spans parts) :
    ∀ {n : Nat} {leaf : Bytes × Nat}, (parts.flatMap (Section.shown doc))[n]? = some leaf →
      ∃ found, Listing.leaf ⟨spans⟩ doc n = .ok found ∧ found.pair = leaf := by
  induction h with
  | nil =>
    intro n leaf hLeaf
    cases hLeaf
  | @cons span part spans parts hFirst _ ih =>
    intro n leaf hLeaf
    have hCount : span.count = (part.shown doc).length :=
      hFirst.count_eq.trans (part.length_shown doc).symm
    rw [List.flatMap_cons] at hLeaf
    rw [Listing.leaf, locate, locateIn]
    by_cases hn : n < span.count
    · rw [List.getElem?_append_left (by rwa [← hCount])] at hLeaf
      obtain ⟨last, hFind, hKey⟩ := hFirst.find_eq n leaf hLeaf
      refine ⟨⟨last.key, leaf.2⟩, ?_, by rw [Leaf.pair, hKey]⟩
      rw [if_pos hn, ok_bind]
      simp only [hFind]
      rfl
    · rw [List.getElem?_append_right (by rw [← hCount]; omega), ← hCount] at hLeaf
      rw [if_neg hn]
      exact ih hLeaf

end Listing

end SignReview
