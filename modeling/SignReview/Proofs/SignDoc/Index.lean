import SignReview.Proofs.Json.Recovery
import SignReview.Proofs.SignDoc.Sections

/-!
# The numbers of items

A listing numbers the leaves shown of its sections through.  Item numbers and pairs of a heading
and a number under it belong together one to one, in order, and so do item numbers and leaves.

* `Listing.place`: the pair of an item, `Listing.placesOf`: all pairs in order.
* `Section.shown_apart`, `sections_apart`: how the leaves of sections lie.
* `Listing.Indexes`: what a listing says of sections, `Listing.build_indexes`: it says this, or one
  of the paths is too long.
-/

namespace SignReview

open Json

theorem Json.Tree.exists_members {tree : Tree} (h : tree.kind = .object) :
    ∃ members, tree = .object members := by
  cases tree with
  | object members => exact ⟨members, rfl⟩
  | array elements => cases h
  | string contents => cases h
  | literal text => cases h

/-! ### The order of headings -/

def Heading.Before (heading heading' : Heading) : Prop :=
  Heading.all.idxOf heading < Heading.all.idxOf heading'

theorem Heading.pairwise_all : Heading.all.Pairwise Heading.Before := by
  unfold Before
  decide

theorem Heading.mem_all (heading : Heading) : heading ∈ Heading.all := by
  cases heading <;> decide

theorem Heading.Before.ne {heading heading' : Heading} (h : heading.Before heading') :
    heading ≠ heading' := by
  rintro rfl
  exact Nat.lt_irrefl _ h

theorem Heading.name_ne_nil (heading : Heading) : heading.name ≠ [] := by
  cases heading <;> decide

theorem Heading.name_injective {heading heading' : Heading} (h : heading.name = heading'.name) :
    heading = heading' := by
  cases heading <;> cases heading' <;> first | rfl | exact absurd h (by decide)

theorem sectionsOf_isPrefix (members : List (Bytes × Tree)) (headings : List Heading) :
    ((sectionsOf members headings).map Section.heading).IsPrefix headings := by
  induction headings with
  | nil => exact List.nil_prefix
  | cons heading headings ih =>
    rw [sectionsOf]
    split
    · exact List.nil_prefix
    · exact List.cons_prefix_cons.mpr ⟨rfl, ih⟩

/-! ### Counts and places -/

namespace Listing

def place (listing : Listing) (n : Nat) : Except Error (Heading × Nat) :=
  (listing.locate n).map fun (span, k) => (span.heading, k)

def placesOf (spans : List Span) : List (Heading × Nat) :=
  spans.flatMap fun span => (List.range span.count).map (Prod.mk span.heading)

theorem place_eq (spans : List Span) (n : Nat) :
    place ⟨spans⟩ n =
      match (placesOf spans)[n]? with
      | none => .error .displayIdxOutOfRange
      | some found => .ok found := by
  induction spans generalizing n with
  | nil => rfl
  | cons span spans ih =>
    rw [place, locate, locateIn, placesOf, List.flatMap_cons]
    by_cases hn : n < span.count
    · rw [if_pos hn, List.getElem?_append_left (by simpa using hn), List.getElem?_map,
        List.getElem?_range hn]
      rfl
    · rw [if_neg hn, List.getElem?_append_right (by simpa using hn), List.length_map,
        List.length_range]
      exact ih _

theorem length_placesOf (spans : List Span) : (placesOf spans).length = sizeOf spans := by
  induction spans with
  | nil => rfl
  | cons span spans ih =>
    rw [placesOf, List.flatMap_cons, List.length_append, List.length_map, List.length_range,
      sizeOf, ← ih, placesOf]

theorem count_cons (span : Span) (spans : List Span) (heading : Heading) :
    count ⟨span :: spans⟩ heading =
      if span.heading = heading then span.count else count ⟨spans⟩ heading := by
  rw [count, List.find?_cons]
  by_cases hHeading : span.heading = heading
  · rw [decide_eq_true hHeading, if_pos hHeading]
  · rw [decide_eq_false hHeading, if_neg hHeading]
    rfl

theorem count_eq_zero {spans : List Span} {heading : Heading}
    (h : ∀ span ∈ spans, span.heading ≠ heading) : count ⟨spans⟩ heading = 0 := by
  induction spans with
  | nil => rfl
  | cons span spans ih =>
    obtain ⟨hFirst, hRest⟩ := List.forall_mem_cons.mp h
    rw [count_cons, if_neg hFirst, ih hRest]

theorem count_of_mem {spans : List Span} (hNodup : (spans.map Span.heading).Nodup) {span : Span}
    (h : span ∈ spans) : count ⟨spans⟩ span.heading = span.count := by
  induction spans with
  | nil => cases h
  | cons first spans ih =>
    obtain ⟨hFirst, hRest⟩ := List.nodup_cons.mp hNodup
    rw [count_cons]
    rcases List.mem_cons.mp h with rfl | h
    · rw [if_pos rfl]
    · have hHeading : first.heading ≠ span.heading := by
        intro hEq
        exact hFirst (List.mem_map.mpr ⟨span, h, hEq.symm⟩)
      rw [if_neg hHeading, ih hRest h]

theorem mem_placesOf {spans : List Span} (hNodup : (spans.map Span.heading).Nodup)
    {heading : Heading} {k : Nat} :
    (heading, k) ∈ placesOf spans ↔ k < count ⟨spans⟩ heading := by
  have hMem : (heading, k) ∈ placesOf spans ↔
      ∃ span ∈ spans, k < span.count ∧ span.heading = heading := by
    simp [placesOf]
  rw [hMem]
  constructor
  · rintro ⟨span, hSpan, hk, rfl⟩
    rwa [count_of_mem hNodup hSpan]
  · intro hk
    by_contra hNone
    have hZero : count ⟨spans⟩ heading = 0 := by
      refine count_eq_zero fun span hSpan hHeading => hNone ⟨span, hSpan, ?_, hHeading⟩
      rwa [← count_of_mem hNodup hSpan, hHeading]
    omega

theorem pairwise_placesOf {spans : List Span}
    (h : (spans.map Span.heading).Pairwise Heading.Before) :
    (placesOf spans).Pairwise fun p q => p.1.Before q.1 ∨ p.1 = q.1 ∧ p.2 < q.2 := by
  refine List.pairwise_flatMap.mpr ⟨fun span _ => ?_, ?_⟩
  · rw [List.pairwise_map]
    exact List.pairwise_lt_range.imp fun hLt => Or.inr ⟨rfl, hLt⟩
  · rw [List.pairwise_map] at h
    refine h.imp fun hBefore p hp q hq => Or.inl ?_
    obtain ⟨_, _, rfl⟩ := List.mem_map.mp hp
    obtain ⟨_, _, rfl⟩ := List.mem_map.mp hq
    exact hBefore

theorem place_eq_ok_iff {spans : List Span} {n : Nat} {found : Heading × Nat} :
    place ⟨spans⟩ n = .ok found ↔ (placesOf spans)[n]? = some found := by
  rw [place_eq]
  cases (placesOf spans)[n]? <;> simp

theorem exists_place {spans : List Span} (hNodup : (spans.map Span.heading).Nodup) {n : Nat}
    (hn : n < sizeOf spans) :
    ∃ heading k, k < count ⟨spans⟩ heading ∧ place ⟨spans⟩ n = .ok (heading, k) := by
  rw [← length_placesOf] at hn
  obtain ⟨heading, k, hGet⟩ : ∃ heading k, (placesOf spans)[n]? = some (heading, k) :=
    ⟨_, _, List.getElem?_eq_getElem hn⟩
  have hMem := List.mem_of_getElem? hGet
  exact ⟨heading, k, (mem_placesOf hNodup).mp hMem, place_eq_ok_iff.mpr hGet⟩

theorem exists_number {spans : List Span} (hNodup : (spans.map Span.heading).Nodup)
    {heading : Heading} {k : Nat} (hk : k < count ⟨spans⟩ heading) :
    ∃ n < sizeOf spans, place ⟨spans⟩ n = .ok (heading, k) := by
  obtain ⟨n, hGet⟩ := List.mem_iff_getElem?.mp ((mem_placesOf hNodup).mpr hk)
  obtain ⟨hn, _⟩ := List.getElem?_eq_some_iff.mp hGet
  exact ⟨n, length_placesOf spans ▸ hn, place_eq_ok_iff.mpr hGet⟩

theorem place_before {spans : List Span}
    (h : (spans.map Span.heading).Pairwise Heading.Before) {m n : Nat} {p q : Heading × Nat}
    (hmn : m < n) (hp : place ⟨spans⟩ m = .ok p) (hq : place ⟨spans⟩ n = .ok q) :
    p.1.Before q.1 ∨ p.1 = q.1 ∧ p.2 < q.2 := by
  rw [place_eq_ok_iff, List.getElem?_eq_some_iff] at hp hq
  obtain ⟨hm, rfl⟩ := hp
  obtain ⟨hn, rfl⟩ := hq
  exact List.pairwise_iff_getElem.mp (pairwise_placesOf h) m n hm hn hmn

theorem lt_size_of_place {spans : List Span} {n : Nat} {found : Heading × Nat}
    (h : place ⟨spans⟩ n = .ok found) : n < sizeOf spans := by
  obtain ⟨hn, _⟩ := List.getElem?_eq_some_iff.mp (place_eq_ok_iff.mp h)
  rwa [← length_placesOf]

theorem sizeOf_eq_foldr {spans : List Span} {headings : List Heading}
    (hPrefix : (spans.map Span.heading).IsPrefix headings) (hNodup : headings.Nodup) :
    sizeOf spans = headings.foldr (fun heading n => count ⟨spans⟩ heading + n) 0 := by
  induction headings generalizing spans with
  | nil =>
    rw [List.prefix_nil, List.map_eq_nil_iff] at hPrefix
    rw [hPrefix]
    rfl
  | cons heading headings ih =>
    obtain ⟨hFirst, hRest⟩ := List.nodup_cons.mp hNodup
    cases spans with
    | nil =>
      have hNone : ([].map Span.heading).IsPrefix headings := List.nil_prefix
      rw [List.foldr_cons, ← ih hNone hRest]
      rfl
    | cons span spans =>
      rw [List.map_cons, List.cons_prefix_cons] at hPrefix
      obtain ⟨rfl, hPrefix⟩ := hPrefix
      have hCounts : headings.foldr (fun heading n => count ⟨span :: spans⟩ heading + n) 0 =
          headings.foldr (fun heading n => count ⟨spans⟩ heading + n) 0 := by
        apply List.foldr_ext
        intro heading hMem n
        have hNe : span.heading ≠ heading := by
          rintro rfl
          exact hFirst hMem
        rw [count_cons, if_neg hNe]
      rw [List.foldr_cons, hCounts, ← ih hPrefix hRest, count_cons, if_pos rfl, sizeOf]

end Listing

/-! ### The leaves of sections lie apart -/

variable {doc : Document} {ls : List Lexeme} {root : Tree}

theorem Section.shown_sublist (part : Section) :
    (part.shown doc).Sublist (Visit.leaves
      (part.value.visits Leaf.maxDepth part.heading.levels part.heading.name part.token)) := by
  have hLeaves : (part.shown doc).Sublist (part.leaves doc) := by
    rw [shown]
    split
    · exact keepFirst_sublist _ _
    · exact List.Sublist.refl _
  exact hLeaves.trans ((List.takeWhile_sublist _).filterMap _)

/-- The leaves shown of a section lie in its value, one behind the other. -/
theorem Section.shown_apart {part : Section} (hOccurs : Occurs doc part.token part.value)
    (hParsed : doc.Parsed ls root) :
    ((part.shown doc).map Prod.snd).Pairwise doc.Precedes ∧
      ∀ leaf ∈ part.shown doc, doc.Covers part.token leaf.2 := by
  obtain ⟨hApart, hInside⟩ := hOccurs.visits_apart hParsed Leaf.maxDepth part.heading.levels
    part.heading.name
  exact ⟨hApart.sublist (part.shown_sublist.map Prod.snd), fun leaf hLeaf =>
    hInside _ (List.mem_map_of_mem (part.shown_sublist.subset hLeaf))⟩

variable {members : List (Bytes × Tree)}

theorem exists_name_of_mem_sectionsOf (hOccurs : Occurs doc 0 (.object members)) {part : Section}
    {headings : List Heading} (h : part ∈ sectionsOf members headings) :
    Occurs doc part.token part.value ∧ ∃ name ∈ nameNumbers 1 members,
      part.token = name + 1 ∧ doc.slice name = .ok part.heading.name := by
  induction headings with
  | nil => cases h
  | cons heading headings ih =>
    rw [sectionsOf] at h
    split at h
    · cases h
    · rename_i token value hValue
      rcases List.mem_cons.mp h with rfl | h
      · exact valueAt?_eq_some hOccurs.members.2 hValue
      · exact ih h

/-- The value of a section is that of the first member with the name of its heading. -/
theorem member_of_mem_sectionsOf (hOccurs : Occurs doc 0 (.object members)) {part : Section}
    {headings : List Heading} (h : part ∈ sectionsOf members headings) :
    doc.member 0 part.heading.name = .ok part.token := by
  induction headings with
  | nil => cases h
  | cons heading headings ih =>
    rw [sectionsOf] at h
    split at h
    · cases h
    · rename_i token value hValue
      rcases List.mem_cons.mp h with rfl | h
      · rw [hOccurs.member_eq, hValue]
      · exact ih h

theorem exists_section (hOccurs : Occurs doc 0 (.object members)) {headings : List Heading}
    (hMember : ∀ heading ∈ headings, ∃ start, doc.member 0 heading.name = .ok start)
    {heading : Heading} (h : heading ∈ headings) :
    ∃ part ∈ sectionsOf members headings, part.heading = heading := by
  induction headings with
  | nil => cases h
  | cons first headings ih =>
    obtain ⟨⟨start, hStart⟩, hMember⟩ := List.forall_mem_cons.mp hMember
    rw [hOccurs.member_eq] at hStart
    rw [sectionsOf]
    cases hValue : valueAt? first.name 1 members with
    | none =>
      rw [hValue] at hStart
      cases hStart
    | some entry =>
      rcases List.mem_cons.mp h with rfl | h
      · exact ⟨_, List.mem_cons_self, rfl⟩
      · obtain ⟨part, hPart, hFound⟩ := ih hMember h
        exact ⟨part, List.mem_cons_of_mem _ hPart, hFound⟩

theorem sections_apart (hOccurs : Occurs doc 0 (.object members)) (hParsed : doc.Parsed ls root) :
    (sections members).Pairwise fun p q => doc.Apart p.token q.token := by
  have hHeadings : ((sections members).map Section.heading).Pairwise Heading.Before :=
    Heading.pairwise_all.sublist (sectionsOf_isPrefix members Heading.all).sublist
  obtain ⟨hValues, _⟩ := hOccurs.values_apart hParsed
  rw [List.pairwise_map] at hHeadings
  apply hHeadings.imp_of_mem
  intro p q hp hq hBefore
  obtain ⟨_, name, hName, hToken, hSlice⟩ := exists_name_of_mem_sectionsOf hOccurs hp
  obtain ⟨_, name', hName', hToken', hSlice'⟩ := exists_name_of_mem_sectionsOf hOccurs hq
  refine Document.apart_of_pairwise hValues (List.mem_map.mpr ⟨name, hName, hToken.symm⟩)
    (List.mem_map.mpr ⟨name', hName', hToken'.symm⟩) ?_
  rw [hToken, hToken']
  intro hEq
  obtain rfl := Nat.succ.inj hEq
  exact hBefore.ne (Heading.name_injective (Except.ok.inj (hSlice.symm.trans hSlice')))

/-- The leaves shown of all sections have nothing in common. -/
theorem shown_sections_apart (hOccurs : Occurs doc 0 (.object members))
    (hParsed : doc.Parsed ls root) :
    ((sections members).flatMap (Section.shown doc)).Pairwise fun a b => doc.Apart a.2 b.2 := by
  have hShown : ∀ part ∈ sections members, ((part.shown doc).map Prod.snd).Pairwise doc.Precedes ∧
      ∀ leaf ∈ part.shown doc, doc.Covers part.token leaf.2 := fun part hPart =>
    part.shown_apart (exists_name_of_mem_sectionsOf hOccurs hPart).1 hParsed
  refine List.pairwise_flatMap.mpr ⟨fun part hPart => ?_, ?_⟩
  · exact (List.pairwise_map.mp (hShown part hPart).1).imp Or.inl
  · apply (sections_apart hOccurs hParsed).imp_of_mem
    intro p q hp hq hApart a ha b hb
    have hCoversA := (hShown p hp).2 a ha
    have hCoversB := (hShown q hq).2 b hb
    exact hApart.imp (fun h => hParsed.precedes_of_covers h hCoversA hCoversB)
      fun h => hParsed.precedes_of_covers h hCoversB hCoversA

/-! ### Items and leaves -/

namespace Listing

/-- The items of the listing are the leaves shown of the sections, numbered through. -/
structure Indexes (doc : Document) (parts : List Section) (listing : Listing) : Prop where
  count_eq : ∀ part ∈ parts, listing.count part.heading = part.count doc
  count_eq_zero : ∀ heading, (∀ part ∈ parts, part.heading ≠ heading) → listing.count heading = 0
  group_eq : listing.group = parts.findSome? (Section.group? doc)
  size_eq : listing.size = Heading.all.foldr (fun heading n => listing.count heading + n) 0
  /-- Item numbers and places belong together one to one, in order. -/
  exists_place : ∀ n < listing.size,
    ∃ heading k, k < listing.count heading ∧ listing.place n = .ok (heading, k)
  exists_number : ∀ heading k, k < listing.count heading →
    ∃ n < listing.size, listing.place n = .ok (heading, k)
  place_before : ∀ m n p q, m < n → listing.place m = .ok p → listing.place n = .ok q →
    p.1.Before q.1 ∨ p.1 = q.1 ∧ p.2 < q.2
  place_of_le : ∀ n, listing.size ≤ n → listing.place n = .error .displayIdxOutOfRange
  /-- Item numbers and leaves belong together one to one. -/
  exists_leaf : ∀ n < listing.size, ∃ leaf, listing.leaf doc n = .ok leaf ∧
    (parts.flatMap (Section.shown doc))[n]? = some (leaf.path.bytes, leaf.token)
  leaf_apart : ∀ m n a b, m ≠ n → listing.leaf doc m = .ok a → listing.leaf doc n = .ok b →
    a.token ≠ b.token ∧ doc.Apart a.token b.token

theorem map_heading_eq {spans : List Span} {parts : List Section}
    (h : List.Forall₂ (Span.Lists doc) spans parts) :
    spans.map Span.heading = parts.map Section.heading := by
  induction h with
  | nil => rfl
  | cons hFirst _ ih => rw [List.map_cons, List.map_cons, hFirst.heading_eq, ih]

theorem group_eq {spans : List Span} {parts : List Section}
    (h : List.Forall₂ (Span.Lists doc) spans parts) :
    group ⟨spans⟩ = parts.findSome? (Section.group? doc) := by
  induction h with
  | nil => rfl
  | cons hFirst _ ih =>
    rw [group, List.findSome?_cons, List.findSome?_cons, hFirst.group_eq, ← ih]
    rfl

theorem getElem?_of_leaf {spans : List Span} {parts : List Section}
    (h : List.Forall₂ (Span.Lists doc) spans parts) {n : Nat} {leaf : Leaf}
    (hLeaf : Listing.leaf ⟨spans⟩ doc n = .ok leaf) :
    (parts.flatMap (Section.shown doc))[n]? = some leaf.pair := by
  obtain ⟨⟨span, k⟩, hLocate, _⟩ := bind_eq_ok_iff.mp hLeaf
  have hPlace : place ⟨spans⟩ n = .ok (span.heading, k) := by
    rw [place, hLocate]
    rfl
  have hn := lt_size_of_place hPlace
  rw [sizeOf_eq h] at hn
  obtain ⟨found, hFound, hPair⟩ := leaf_eq h (List.getElem?_eq_getElem hn)
  obtain rfl := Except.ok.inj (hFound.symm.trans hLeaf)
  rw [hPair]
  exact List.getElem?_eq_getElem hn

/-- Number `k` of the leaves shown of a section is the leaf of the item with this place. -/
theorem exists_number_of_shown {spans : List Span} {parts : List Section}
    (h : List.Forall₂ (Span.Lists doc) spans parts) {part : Section} (hPart : part ∈ parts) {k : Nat}
    {leaf : Bytes × Nat} (hLeaf : (part.shown doc)[k]? = some leaf) :
    ∃ n found, place ⟨spans⟩ n = .ok (part.heading, k) ∧
      Listing.leaf ⟨spans⟩ doc n = .ok found ∧ found.pair = leaf := by
  induction h with
  | nil => cases hPart
  | @cons span first spans parts hFirst _ ih =>
    rcases List.mem_cons.mp hPart with rfl | hPart
    · obtain ⟨hk, _⟩ := List.getElem?_eq_some_iff.mp hLeaf
      rw [part.length_shown, ← hFirst.count_eq] at hk
      have hHere : locate ⟨span :: spans⟩ k = .ok (span, k) := by rw [locate, locateIn, if_pos hk]
      obtain ⟨last, hFind, hKey⟩ := hFirst.find_eq k leaf hLeaf
      refine ⟨k, ⟨last.key, leaf.2⟩, ?_, ?_, by rw [Leaf.pair, hKey]⟩
      · rw [place, hHere, ← hFirst.heading_eq]
        rfl
      · rw [Listing.leaf, hHere, ok_bind]
        simp only [hFind]
        rfl
    · obtain ⟨n, found, hPlace, hFound, hPair⟩ := ih hPart
      have hBehind : locate ⟨span :: spans⟩ (span.count + n) = locate ⟨spans⟩ n := by
        rw [locate, locateIn, if_neg (Nat.not_lt.mpr (Nat.le_add_right _ _)), Nat.add_sub_cancel_left]
        rfl
      refine ⟨span.count + n, found, ?_, ?_, hPair⟩
      · rw [place, hBehind]
        exact hPlace
      · rw [Listing.leaf, hBehind]
        exact hFound

theorem leaf_apart {spans : List Span} {parts : List Section}
    (h : List.Forall₂ (Span.Lists doc) spans parts)
    (hApart : (parts.flatMap (Section.shown doc)).Pairwise fun a b => doc.Apart a.2 b.2)
    {m n : Nat} {a b : Leaf} (hmn : m < n) (ha : Listing.leaf ⟨spans⟩ doc m = .ok a)
    (hb : Listing.leaf ⟨spans⟩ doc n = .ok b) : doc.Apart a.token b.token := by
  obtain ⟨hm, hA⟩ := List.getElem?_eq_some_iff.mp (getElem?_of_leaf h ha)
  obtain ⟨hn, hB⟩ := List.getElem?_eq_some_iff.mp (getElem?_of_leaf h hb)
  have hPair := List.pairwise_iff_getElem.mp hApart m n hm hn hmn
  rw [hA, hB] at hPair
  exact hPair

/-- The items of spans are numbered through. -/
theorem indexes_of_lists (hOccurs : Occurs doc 0 (.object members)) (hParsed : doc.Parsed ls root)
    {spans : List Span} (h : List.Forall₂ (Span.Lists doc) spans (sections members)) :
    Indexes doc (sections members) ⟨spans⟩ := by
  have hPrefix : (spans.map Span.heading).IsPrefix Heading.all :=
    map_heading_eq h ▸ sectionsOf_isPrefix members Heading.all
  have hBefore := Heading.pairwise_all.sublist hPrefix.sublist
  have hNodup : (spans.map Span.heading).Nodup := hBefore.imp Heading.Before.ne
  have hApart := shown_sections_apart hOccurs hParsed
  refine
    { count_eq := ?count_eq
      count_eq_zero := ?count_eq_zero
      group_eq := group_eq h
      size_eq := sizeOf_eq_foldr hPrefix (Heading.pairwise_all.imp Heading.Before.ne)
      exists_place := fun n hn => exists_place hNodup hn
      exists_number := fun heading k hk => exists_number hNodup hk
      place_before := fun m n p q => place_before hBefore
      place_of_le := ?place_of_le
      exists_leaf := ?exists_leaf
      leaf_apart := ?leaf_apart }
  case count_eq =>
    intro part hPart
    obtain ⟨span, hSpan, hLists⟩ := Forall₂.exists_of_mem h.flip hPart
    rw [← hLists.heading_eq, count_of_mem hNodup hSpan, hLists.count_eq]
  case count_eq_zero =>
    intro heading hNone
    apply Listing.count_eq_zero
    intro span hSpan
    obtain ⟨part, hPart, hLists⟩ := Forall₂.exists_of_mem h hSpan
    rw [hLists.heading_eq]
    exact hNone part hPart
  case place_of_le =>
    intro n hn
    rw [size, ← length_placesOf] at hn
    rw [place_eq, List.getElem?_eq_none hn]
  case exists_leaf =>
    intro n hn
    rw [size, sizeOf_eq h] at hn
    obtain ⟨leaf, hLeaf, _⟩ := leaf_eq h (List.getElem?_eq_getElem hn)
    exact ⟨leaf, hLeaf, getElem?_of_leaf h hLeaf⟩
  case leaf_apart =>
    intro m n a b hNe ha hb
    rcases Nat.lt_or_gt_of_ne hNe with hmn | hmn
    · have hTokens := leaf_apart h hApart hmn ha hb
      exact ⟨hTokens.ne, hTokens⟩
    · have hTokens := (leaf_apart h hApart hmn hb ha).symm
      exact ⟨hTokens.ne, hTokens⟩

/-- A listing of a document with members can not be built where a path that a count comes by is
too long; otherwise it numbers the leaves shown of the sections through. -/
theorem build_indexes {bytes : Bytes} {limits : Limits}
    (hParse : Document.parse bytes limits = .ok doc) (hRoot : doc.tree = .ok (.object members)) :
    ((∃ part ∈ sections members, Visit.Overlong (part.visits doc)) ∧
        build doc = .error .bufferOverflow) ∨
      ((∀ part ∈ sections members, ¬Visit.Overlong (part.visits doc)) ∧
        ∃ listing, build doc = .ok listing ∧ Indexes doc (sections members) listing) := by
  obtain ⟨ls, root, hParsed, _⟩ := Document.exists_parsed hParse
  obtain rfl := Except.ok.inj (hParsed.tree_eq.symm.trans hRoot)
  have hOccurs := hParsed.occurs
  obtain ⟨token, hToken, hKind⟩ := hOccurs.token
  have hKind : token.kind = .object := hKind
  have hBuild : build doc = do return ⟨← buildSpans doc Heading.all⟩ := by
    rw [build, hToken, ok_bind, if_neg (not_not_intro hKind)]
  by_cases hLong : ∃ part ∈ sections members, Visit.Overlong (part.visits doc)
  · refine Or.inl ⟨hLong, ?_⟩
    rw [hBuild, buildSpans_of_overlong hOccurs hLong]
    rfl
  · have hFits : ∀ part ∈ sections members, ¬Visit.Overlong (part.visits doc) :=
      fun part hPart hOver => hLong ⟨part, hPart, hOver⟩
    obtain ⟨spans, hSpans, hLists⟩ := buildSpans_of_fits hOccurs hFits
    refine Or.inr ⟨hFits, ⟨spans⟩, ?_, indexes_of_lists hOccurs hParsed hLists⟩
    rw [hBuild, hSpans]
    rfl

/-- A document that is not in order, with whitespace and two messages of the same type. -/
def looseVotes : Bytes := Bytes.ofString
  ("\x7b\"msgs\": [\x7b\"type\": \"vote\", \"id\": 1\x7d, \x7b\"type\": \"vote\"\x7d]," ++
    " \"memo\": [\"a\", \"\", \"b\"], \"fee\": \x7b\x7d, \"sequence\": 3," ++
    " \"account_number\": \"7\", \"chain_id\": \"x\"\x7d")

theorem build_indexes_looseVotes :
    ∃ (doc : Document) (members : List (Bytes × Tree)) (listing : Listing),
      Document.parse looseVotes {} = .ok doc ∧ doc.tree = .ok (.object members) ∧
      build doc = .ok listing ∧ listing.size = 6 ∧ listing.group = some ⟨0, 2⟩ ∧
      Indexes doc (sections members) listing := by
  have hRead : ((Document.parse looseVotes {}).toOption.bind fun doc =>
      doc.tree.toOption.bind fun tree => (build doc).toOption.map fun listing =>
        (tree.kind, listing.size, listing.group)) = some (.object, 6, some ⟨0, 2⟩) := by
    decide +kernel
  obtain ⟨doc, hDoc, hRead⟩ := Option.bind_eq_some_iff.mp hRead
  obtain ⟨tree, hTree, hRead⟩ := Option.bind_eq_some_iff.mp hRead
  obtain ⟨listing, hListing, hRead⟩ := Option.map_eq_some_iff.mp hRead
  rw [toOption_eq_some_iff] at hDoc hTree hListing
  obtain ⟨hKind, hSize, hGroup⟩ : tree.kind = .object ∧ listing.size = 6 ∧
      listing.group = some ⟨0, 2⟩ := by simpa using hRead
  obtain ⟨members, rfl⟩ := Tree.exists_members hKind
  rcases build_indexes hDoc hTree with ⟨_, hFail⟩ | ⟨_, built, hBuilt, hIndexes⟩
  · cases hFail.symm.trans hListing
  · obtain rfl := Except.ok.inj (hBuilt.symm.trans hListing)
    exact ⟨doc, members, built, hDoc, hTree, hBuilt, hSize, hGroup, hIndexes⟩

end Listing

end SignReview
