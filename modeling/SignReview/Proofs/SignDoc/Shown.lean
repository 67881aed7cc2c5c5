import SignReview.Proofs.SignDoc.Sections
import Mathlib.Data.List.TakeWhile

/-!
# The leaves of a sign document

What a canonical document shows is a list of leaves, given by recursion on its tree: the leaves
under the six headings, one heading after the other.  They are the leaves of the sections.

* `Document.checkCanonical_eq_ok`: what a canonical document has, `Occurs.exists_member`: the first
  member of a name.
* `Json.Tree.leavesUnder`, `Json.Tree.shown`: the leaves of a tree that are shown.
* `Section.shown_sameLeaf`: they are those of the sections, `Listing.build_spec`: and those of the
  items of a listing.
-/

namespace SignReview

namespace Json

def Tree.member? (key : Bytes) : Tree → Option Tree
  | .object members => (members.find? fun m => m.1 == key).map Prod.snd
  | _ => none

theorem map_valueAt? (key : Bytes) (index : Nat) (members : List (Bytes × Tree)) :
    (valueAt? key index members).map Prod.snd = (Tree.object members).member? key := by
  induction members generalizing index with
  | nil => rfl
  | cons m members ih =>
    obtain ⟨name, value⟩ := m
    rw [valueAt?, Tree.member?]
    by_cases hKey : name = key
    · rw [if_pos hKey, List.find?_cons_of_pos (by simpa using hKey)]
      rfl
    · rw [if_neg hKey, List.find?_cons_of_neg (by simpa using hKey), ih]
      rfl

theorem Occurs.exists_object {doc : Document} {tree : Tree} {i start : Nat} (h : Occurs doc i tree)
    {key : Bytes} (hMember : doc.member i key = .ok start) : ∃ members, tree = .object members := by
  obtain ⟨names, hNames, _⟩ := bind_eq_ok_iff.mp hMember
  obtain ⟨members, hTree, _⟩ := h.eq_object hNames
  exact ⟨members, hTree⟩

theorem Occurs.exists_member {doc : Document} {tree : Tree} {i start : Nat} (h : Occurs doc i tree)
    {key : Bytes} (hMember : doc.member i key = .ok start) :
    ∃ value, tree.member? key = some value ∧ Occurs doc start value := by
  obtain ⟨members, rfl⟩ := h.exists_object hMember
  rw [h.member_eq] at hMember
  cases hValue : valueAt? key (i + 1) members with
  | none =>
    rw [hValue] at hMember
    cases hMember
  | some entry =>
    obtain ⟨token, value⟩ := entry
    rw [hValue] at hMember
    obtain rfl : token = start := Except.ok.inj hMember
    refine ⟨value, ?_, (valueAt?_eq_some h.members.2 hValue).1⟩
    rw [← map_valueAt? key (i + 1), hValue]
    rfl

/-- A canonical document has no whitespace, and all members that are required. -/
theorem Document.checkCanonical_eq_ok {doc : Document} (h : doc.checkCanonical = .ok ()) :
    doc.hasWhitespace = false ∧
      ∀ key ∈ Document.required.map Prod.fst, ∃ start, doc.member 0 key = .ok start := by
  rw [checkCanonical] at h
  cases hBlank : doc.hasWhitespace with
  | true =>
    rw [hBlank] at h
    cases h
  | false =>
    rw [hBlank] at h
    refine ⟨rfl, fun key hKey => ?_⟩
    obtain ⟨⟨name, missing⟩, hEntry, rfl⟩ := List.mem_map.mp hKey
    obtain ⟨sorted, _, h⟩ := bind_eq_ok_iff.mp h
    cases sorted with
    | false => cases h
    | true =>
      have hRequired := forM_eq_ok_iff.mp h _ hEntry
      cases hMember : doc.member 0 name with
      | ok start => exact ⟨start, rfl⟩
      | error e =>
        simp only [hMember] at hRequired
        cases e <;> cases hRequired

end Json

open Json

theorem Heading.name_mem_required (heading : Heading) :
    heading.name ∈ Document.required.map Prod.fst := by
  cases heading <;> decide

/-! ### The leaves under a heading -/

/-- The leaves in front of the first that is empty. -/
def untilEmpty (leaves : List (Bytes × Tree)) : List (Bytes × Tree) :=
  leaves.takeWhile fun leaf => !leaf.2.raw.isEmpty

def isType (leaf : Bytes × Tree) : Bool := leaf.1 == TypeGroup.path

/-- The leaves of messages; if all have the same type, it is there once. -/
def oneType (leaves : List (Bytes × Tree)) : List (Bytes × Tree) :=
  if allSame ((leaves.filter isType).map fun leaf => leaf.2.raw) then keepFirst isType leaves
  else leaves

/-- The leaves that are shown under a heading, given the tree of its value. -/
def Json.Tree.leavesUnder (heading : Heading) (tree : Tree) : List (Bytes × Tree) :=
  let leaves := tree.leaves Leaf.maxDepth heading.levels heading.name
  match heading with
  | .memo => untilEmpty leaves
  | .msgs => oneType leaves
  | _ => leaves

def Json.Tree.leavesOf (root : Tree) (heading : Heading) : List (Bytes × Tree) :=
  match root.member? heading.name with
  | some value => value.leavesUnder heading
  | none => []

def Json.Tree.shown (root : Tree) : List (Bytes × Tree) := Heading.all.flatMap root.leavesOf

/-! ### The leaves of sections -/

theorem Visit.leaves_upTo (doc : Document) (visits : List Visit) :
    leaves (upTo doc true visits) =
      (leaves visits).takeWhile fun leaf => !(doc.text leaf.2).isEmpty := by
  induction visits with
  | nil => rfl
  | cons visit visits ih =>
    cases visit with
    | member path =>
      rw [upTo_member]
      exact ih
    | leaf path token =>
      have hLeaves : ∀ visits : List Visit,
          leaves (.leaf path token :: visits) = (path, token) :: leaves visits := fun _ => rfl
      rw [upTo_leaf, hLeaves, List.takeWhile_cons, Bool.true_and]
      cases (doc.text token).isEmpty with
      | true => rfl
      | false => exact (hLeaves _).trans (congrArg _ ih)

theorem Visit.upTo_false (doc : Document) (visits : List Visit) : upTo doc false visits = visits :=
  List.takeWhile_eq_self_iff.mpr fun _ _ => rfl

namespace Section

variable {doc : Document}

theorem text_eq {leaf : Bytes × Nat} {leaf' : Bytes × Tree} (hBlank : doc.hasWhitespace = false)
    (h : SameLeaf doc leaf leaf') : doc.text leaf.2 = leaf'.2.raw := by
  rw [Document.text, h.2.slice_raw hBlank]

theorem isType_eq {leaf : Bytes × Nat} {leaf' : Bytes × Tree} (h : SameLeaf doc leaf leaf') :
    isType leaf = SignReview.isType leaf' := by
  rw [isType, SignReview.isType, h.1]

theorem map_text {leaves : List (Bytes × Nat)} {leaves' : List (Bytes × Tree)}
    (hBlank : doc.hasWhitespace = false) (h : List.Forall₂ (SameLeaf doc) leaves leaves') :
    (leaves.map fun leaf => doc.text leaf.2) = leaves'.map fun leaf => leaf.2.raw := by
  induction h with
  | nil => rfl
  | cons hFirst _ ih => rw [List.map_cons, List.map_cons, ih, text_eq hBlank hFirst]

theorem forall₂_keepFirst {α β : Type} {R : α → β → Prop} {as : List α} {bs : List β}
    (h : List.Forall₂ R as bs) {p : α → Bool} {q : β → Bool} (hpq : ∀ a b, R a b → p a = q b) :
    List.Forall₂ R (keepFirst p as) (keepFirst q bs) := by
  induction h with
  | nil => exact .nil
  | @cons a b as bs hFirst hRest ih =>
    rw [keepFirst, keepFirst, hpq a b hFirst]
    split
    · exact .cons hFirst (Forall₂.filter hRest fun c d hcd => by rw [hpq c d hcd])
    · exact .cons hFirst ih

theorem shown_of_ne {part : Section} (h : part.heading ≠ .msgs) :
    part.shown doc = part.leaves doc := by
  rw [shown, group?, if_neg fun hMsgs => h hMsgs.1]

/-- Under another heading than that of the memo, a count comes by all leaves. -/
theorem leaves_sameLeaf {part : Section} (hOccurs : Occurs doc part.token part.value)
    (h : part.heading ≠ .memo) :
    List.Forall₂ (SameLeaf doc) (part.leaves doc)
      (part.value.leaves Leaf.maxDepth part.heading.levels part.heading.name) := by
  rw [leaves, visits, decide_eq_false h, Visit.upTo_false]
  exact hOccurs.leaves_visits Leaf.maxDepth part.heading.levels part.heading.name

theorem types_eq {part : Section} (hOccurs : Occurs doc part.token part.value)
    (hBlank : doc.hasWhitespace = false) (h : part.heading ≠ .memo) :
    part.types doc = ((part.value.leaves Leaf.maxDepth part.heading.levels
      part.heading.name).filter SignReview.isType).map fun leaf => leaf.2.raw :=
  map_text hBlank (Forall₂.filter (leaves_sameLeaf hOccurs h) fun _ _ hSame => isType_eq hSame)

/-- What a count of the memo comes by ends in front of its first empty leaf. -/
theorem leaves_memo {part : Section} (h : part.heading = .memo) :
    part.leaves doc = (Visit.leaves (part.value.visits Leaf.maxDepth part.heading.levels
      part.heading.name part.token)).takeWhile fun leaf => !(doc.text leaf.2).isEmpty := by
  rw [leaves, visits, decide_eq_true h, Visit.leaves_upTo]

/-- In a canonical document, the leaves shown of a section are those that its tree shows. -/
theorem shown_sameLeaf (part : Section) (hOccurs : Occurs doc part.token part.value)
    (hBlank : doc.hasWhitespace = false) :
    List.Forall₂ (SameLeaf doc) (part.shown doc) (part.value.leavesUnder part.heading) := by
  obtain ⟨heading, token, value⟩ := part
  have hPlain : heading ≠ .memo → heading ≠ .msgs → List.Forall₂ (SameLeaf doc)
      (shown doc ⟨heading, token, value⟩)
      (value.leaves Leaf.maxDepth heading.levels heading.name) := by
    intro hMemo hMsgs
    rw [shown_of_ne hMsgs]
    exact leaves_sameLeaf hOccurs hMemo
  cases heading with
  | msgs =>
    have hMsgs : (Heading.msgs : Heading) ≠ .memo := by decide
    have hLeaves := @leaves_sameLeaf doc ⟨.msgs, token, value⟩ hOccurs hMsgs
    have hTypes := @types_eq doc ⟨.msgs, token, value⟩ hOccurs hBlank hMsgs
    rw [Tree.leavesUnder, oneType, ← hTypes, shown, group?]
    by_cases hSame : allSame (types doc ⟨.msgs, token, value⟩) = true
    · rw [if_pos ⟨rfl, hSame⟩, if_pos hSame]
      exact forall₂_keepFirst hLeaves fun _ _ hLeaf => isType_eq hLeaf
    · rw [if_neg fun hMsgs => hSame hMsgs.2, if_neg hSame]
      exact hLeaves
  | memo =>
    have hMemo : (Heading.memo : Heading) ≠ .msgs := by decide
    rw [shown_of_ne hMemo, leaves_memo rfl]
    exact Forall₂.takeWhile (hOccurs.leaves_visits _ _ _) fun _ _ hSame => by
      rw [text_eq hBlank hSame]
  | chainId => exact hPlain (by decide) (by decide)
  | accountNumber => exact hPlain (by decide) (by decide)
  | sequence => exact hPlain (by decide) (by decide)
  | fee => exact hPlain (by decide) (by decide)

/-- Where no heading is missing, the leaves shown of the sections are those of the tree. -/
theorem flatMap_shown_sameLeaf {members : List (Bytes × Tree)}
    (hOccurs : Occurs doc 0 (.object members)) (hBlank : doc.hasWhitespace = false)
    {headings : List Heading}
    (hMember : ∀ heading ∈ headings, ∃ start, doc.member 0 heading.name = .ok start) :
    List.Forall₂ (SameLeaf doc) ((sectionsOf members headings).flatMap (shown doc))
      (headings.flatMap (Tree.object members).leavesOf) := by
  induction headings with
  | nil => exact .nil
  | cons heading headings ih =>
    obtain ⟨⟨start, hStart⟩, hMember⟩ := List.forall_mem_cons.mp hMember
    rw [hOccurs.member_eq] at hStart
    rw [sectionsOf, List.flatMap_cons, Tree.leavesOf, ← map_valueAt? heading.name 1]
    cases hValue : valueAt? heading.name 1 members with
    | none =>
      rw [hValue] at hStart
      cases hStart
    | some entry =>
      obtain ⟨token, value⟩ := entry
      obtain ⟨hAt, _⟩ := valueAt?_eq_some hOccurs.members.2 hValue
      exact List.rel_append (shown_sameLeaf ⟨heading, token, value⟩ hAt hBlank)
        (ih hMember)

end Section

namespace Listing

variable {doc : Document}

/-- The items of a listing show the leaves. -/
structure Lists (doc : Document) (listing : Listing) (leaves : List (Bytes × Tree)) : Prop where
  size_eq : listing.size = leaves.length
  leaf_eq : ∀ n leaf, leaves[n]? = some leaf → ∃ found,
    listing.leaf doc n = .ok found ∧ found.path.bytes = leaf.1 ∧ Occurs doc found.token leaf.2

theorem exists_member_of_canonical (h : doc.checkCanonical = .ok ()) (heading : Heading) :
    ∃ start, doc.member 0 heading.name = .ok start :=
  (Document.checkCanonical_eq_ok h).2 _ heading.name_mem_required

theorem exists_lists {root : Tree} (hOccurs : Occurs doc 0 root)
    (hCanonical : doc.checkCanonical = .ok ()) {listing : Listing} (h : build doc = .ok listing) :
    ∃ members spans, root = .object members ∧ listing = ⟨spans⟩ ∧
      List.Forall₂ (Span.Lists doc) spans (sections members) := by
  obtain ⟨start, hStart⟩ := exists_member_of_canonical hCanonical .chainId
  obtain ⟨members, rfl⟩ := hOccurs.exists_object hStart
  obtain ⟨spans, hSpans, rfl⟩ := exists_spans h
  have hFits : ∀ part ∈ sectionsOf members Heading.all, ¬Visit.Overlong (part.visits doc) := by
    intro part hPart hLong
    rw [buildSpans_of_overlong hOccurs ⟨part, hPart, hLong⟩] at hSpans
    cases hSpans
  obtain ⟨spans', hSpans', hLists⟩ := buildSpans_of_fits hOccurs hFits
  obtain rfl : spans' = spans := Except.ok.inj (hSpans'.symm.trans hSpans)
  exact ⟨members, spans', rfl, rfl, hLists⟩

/-- The items of a canonical document are the leaves of its tree. -/
theorem build_spec {root : Tree} (hOccurs : Occurs doc 0 root)
    (hCanonical : doc.checkCanonical = .ok ()) {listing : Listing}
    (h : build doc = .ok listing) : Lists doc listing root.shown := by
  obtain ⟨members, spans, rfl, rfl, hLists⟩ := exists_lists hOccurs hCanonical h
  obtain ⟨hBlank, _⟩ := Document.checkCanonical_eq_ok hCanonical
  have hMember : ∀ heading ∈ Heading.all, ∃ start, doc.member 0 heading.name = .ok start :=
    fun heading _ => exists_member_of_canonical hCanonical heading
  have hLeaves := Section.flatMap_shown_sameLeaf hOccurs hBlank hMember
  refine ⟨(sizeOf_eq hLists).trans hLeaves.length_eq, fun n leaf hLeaf => ?_⟩
  obtain ⟨pair, hPair, hPath, hToken⟩ := Forall₂.exists_getElem? hLeaves hLeaf
  obtain ⟨found, hFound, rfl⟩ := leaf_eq hLists hPair
  exact ⟨found, hFound, hPath, hToken⟩

end Listing

end SignReview
