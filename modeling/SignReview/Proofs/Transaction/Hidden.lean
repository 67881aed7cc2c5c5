import SignReview.Proofs.Json.Recovery
import SignReview.Proofs.Leaf.Route
import SignReview.Proofs.SignDoc.Index
import SignReview.Proofs.SignDoc.Shown
import SignReview.Proofs.Transaction.Validation

/-!
# What is hidden of a transaction

Two kinds of leaves under the headings of an accepted sign document are not shown: those of the memo
from the first empty one on, and those with the type of a message behind the first, if all have the
same octets.  Leaves are compared then, and not messages, so that a message may have no type, or
several.

* `Transaction.exists_sections`: the sections of an accepted transaction.
* `Transaction.memo_shown_iff`: which leaves of the memo are shown.
* `Json.Tree.types`: the types of a message, `Json.Tree.HasOneType`: it has exactly one.
* `Transaction.types_of_group`: what it says of messages that their type is shown once.
-/

namespace SignReview

open Json

/-! ### Items and sections -/

namespace Listing

variable {doc : Document}

theorem exists_item_iff {spans : List Span} {parts : List Section}
    (h : List.Forall₂ (Span.Lists doc) spans parts) {token : Nat} :
    (∃ n < size ⟨spans⟩, ∃ found, leaf ⟨spans⟩ doc n = .ok found ∧ found.token = token) ↔
      ∃ part ∈ parts, token ∈ (part.shown doc).map Prod.snd := by
  constructor
  · rintro ⟨n, _, found, hFound, rfl⟩
    obtain ⟨part, hPart, hMem⟩ :=
      List.mem_flatMap.mp (List.mem_of_getElem? (getElem?_of_leaf h hFound))
    exact ⟨part, hPart, List.mem_map.mpr ⟨found.pair, hMem, rfl⟩⟩
  · rintro ⟨part, hPart, hMem⟩
    obtain ⟨pair, hPair, rfl⟩ := List.mem_map.mp hMem
    obtain ⟨k, hk⟩ := List.mem_iff_getElem?.mp hPair
    obtain ⟨n, found, hPlace, hFound, rfl⟩ := exists_number_of_shown h hPart hk
    exact ⟨n, lt_size_of_place hPlace, found, hFound, rfl⟩

end Listing

/-- A token in the value of a section is shown by no other section. -/
theorem shown_iff_of_covers {doc : Document} {ls : List Lexeme} {root : Tree}
    {members : List (Bytes × Tree)} (hOccurs : Occurs doc 0 (.object members))
    (hParsed : doc.Parsed ls root) {part : Section} (hPart : part ∈ sections members) {token : Nat}
    (hCovers : doc.Covers part.token token) :
    (∃ other ∈ sections members, token ∈ (other.shown doc).map Prod.snd) ↔
      token ∈ (part.shown doc).map Prod.snd := by
  refine ⟨?_, fun hToken => ⟨part, hPart, hToken⟩⟩
  rintro ⟨other, hOther, hToken⟩
  -- another section lies apart from this one, and so does all that it shows
  by_cases hSame : other = part
  · rwa [← hSame]
  · have : Std.Symm fun p q : Section => doc.Apart p.token q.token := ⟨fun _ _ => Document.Apart.symm⟩
    have hApart := (sections_apart hOccurs hParsed).forall hOther hPart hSame
    obtain ⟨pair, hPair, rfl⟩ := List.mem_map.mp hToken
    have hOccurs' := (exists_name_of_mem_sectionsOf hOccurs hOther).1
    exact absurd hApart (hParsed.not_apart_of_covers
      ((Section.shown_apart hOccurs' hParsed).2 pair hPair) hCovers)

namespace Transaction

variable {bytes : Bytes} {limits : Limits} {context : Context} {tx : Transaction}
  {doc : Document} {listing : Listing}

/-- The listing of an accepted transaction is that of sections, one for each heading. -/
theorem exists_sections (hParse : parse .json bytes limits = .ok tx)
    (hValidate : tx.validate context = (.ok (), .json doc (some listing))) :
    ∃ ls members spans, doc.Parsed ls (.object members) ∧ doc.hasWhitespace = false ∧
      listing = ⟨spans⟩ ∧ List.Forall₂ (Span.Lists doc) spans (sections members) ∧
      (∀ heading, ∃ part ∈ sections members, part.heading = heading) ∧
      ∀ part ∈ sections members, doc.member 0 part.heading.name = .ok part.token ∧
        Occurs doc part.token part.value := by
  obtain ⟨ls, root, hParsed, hCheck⟩ := check_of_validate hParse hValidate
  obtain ⟨hCanonical, hBuild, _⟩ := SignDoc.check_eq_ok_iff.mp hCheck
  obtain ⟨members, spans, rfl, hListing, hLists⟩ :=
    Listing.exists_lists hParsed.occurs hCanonical hBuild
  obtain ⟨hBlank, _⟩ := Document.checkCanonical_eq_ok hCanonical
  refine ⟨ls, members, spans, hParsed, hBlank, hListing, hLists, fun heading => ?_,
    fun part hPart => ⟨member_of_mem_sectionsOf hParsed.occurs hPart,
      (exists_name_of_mem_sectionsOf hParsed.occurs hPart).1⟩⟩
  exact exists_section hParsed.occurs
    (fun heading _ => Listing.exists_member_of_canonical hCanonical heading) heading.mem_all

end Transaction

/-! ### The memo -/

/-- What comes in front of all entries that fail a test, by keys that are different: an entry, if it
and those in front of it pass. -/
theorem mem_map_takeWhile_iff {α β : Type} {as : List α} {p : α → Bool} {key : α → β}
    (h : (as.map key).Nodup) :
    ∀ {k : Nat} {a : α}, as[k]? = some a →
      (key a ∈ (as.takeWhile p).map key ↔ ∀ b ∈ as.take (k + 1), p b = true) := by
  induction as with
  | nil =>
    intro k a hGet
    cases hGet
  | cons first as ih =>
    obtain ⟨hFirst, hRest⟩ := List.nodup_cons.mp h
    intro k a hGet
    rw [List.takeWhile_cons, List.take_succ_cons, List.forall_mem_cons]
    cases k with
    | zero =>
      obtain rfl := Option.some.inj hGet
      cases hp : p first <;> simp
    | succ k =>
      have hNe : key a ≠ key first := by
        intro hEq
        exact hFirst (hEq ▸ List.mem_map_of_mem (List.mem_of_getElem? hGet))
      cases hp : p first with
      | false => simp
      | true =>
        rw [if_pos rfl, List.map_cons, List.mem_cons, or_iff_right hNe, ih hRest hGet,
          and_iff_right rfl]

def Heading.leavesOf (heading : Heading) (start : Nat) (value : Tree) : List (Bytes × Nat) :=
  Visit.leaves (value.visits Leaf.maxDepth heading.levels heading.name start)

theorem Section.shown_memo {doc : Document} {part : Section} (h : part.heading = .memo) :
    part.shown doc = (Heading.memo.leavesOf part.token part.value).takeWhile fun leaf =>
      !(doc.text leaf.2).isEmpty := by
  have hMsgs : part.heading ≠ .msgs := by
    rw [h]
    decide
  rw [shown_of_ne hMsgs, leaves_memo h, h, Heading.leavesOf]

theorem Json.Occurs.slice_ne_nil_iff {doc : Document} {start : Nat} {value : Tree}
    (h : Occurs doc start value) {heading : Heading} {leaf : Bytes × Nat}
    (hLeaf : leaf ∈ heading.leavesOf start value) :
    (!(doc.text leaf.2).isEmpty) = true ↔ doc.slice leaf.2 ≠ .ok [] := by
  rw [h.slice_leaves _ _ _ leaf hLeaf]
  simp

namespace Transaction

/-- A leaf of the memo is shown if neither it nor a leaf in front of it is empty. -/
theorem memo_shown_iff {bytes : Bytes} {limits : Limits} {context : Context} {tx : Transaction}
    {doc : Document} {listing : Listing} (hParse : parse .json bytes limits = .ok tx)
    (hValidate : tx.validate context = (.ok (), .json doc (some listing))) :
    ∃ start memo, doc.member 0 Heading.memo.name = .ok start ∧
      doc.treeAt doc.tokens.size start = .ok memo ∧
      ∀ k leaf, (Heading.memo.leavesOf start memo)[k]? = some leaf →
        ((∃ n < listing.size, ∃ found, listing.leaf doc n = .ok found ∧ found.token = leaf.2) ↔
          ∀ other ∈ (Heading.memo.leavesOf start memo).take (k + 1), doc.slice other.2 ≠ .ok []) := by
  obtain ⟨ls, members, spans, hParsed, _, rfl, hLists, hSections, hValues⟩ :=
    exists_sections hParse hValidate
  obtain ⟨part, hPart, hHeading⟩ := hSections .memo
  obtain ⟨hStart, hOccurs⟩ := hValues part hPart
  refine ⟨part.token, part.value, hHeading ▸ hStart, hOccurs.treeAt_size_eq, fun k leaf hLeaf => ?_⟩
  obtain ⟨hApart, hInside⟩ := hOccurs.visits_apart hParsed Leaf.maxDepth Heading.memo.levels
    Heading.memo.name
  have hTokens : ((Heading.memo.leavesOf part.token part.value).map Prod.snd).Nodup :=
    hApart.imp Document.Precedes.ne
  have hCovers := hInside leaf.2 (List.mem_map_of_mem (List.mem_of_getElem? hLeaf))
  -- the item of a token in the memo can only be one of the memo, whose leaves have tokens of their own
  rw [Listing.exists_item_iff hLists, shown_iff_of_covers hParsed.occurs hParsed hPart hCovers,
    Section.shown_memo hHeading, mem_map_takeWhile_iff hTokens hLeaf]
  exact forall₂_congr fun other hOther => hOccurs.slice_ne_nil_iff (List.mem_of_mem_take hOther)

/-- The sign document of a transaction without messages, whose memo is a list. -/
def cutMemo : Bytes := Bytes.ofString
  ("\x7b\"account_number\":\"7\",\"chain_id\":\"c\",\"fee\":\x7b\x7d,\"memo\":[\"a\",\"\",\"x\"]," ++
    "\"msgs\":[],\"sequence\":\"1\"\x7d")

/-- Its memo has three leaves, and its items show the first of them only. -/
theorem read_cutMemo :
    ∃ doc listing start memo, parse .json cutMemo {} = .ok (.json doc none) ∧
      (json doc none).validate {} = (.ok (), .json doc (some listing)) ∧
      doc.member 0 Heading.memo.name = .ok start ∧ doc.treeAt doc.tokens.size start = .ok memo ∧
      (Heading.memo.leavesOf start memo).map 
          (fun leaf => ((doc.slice leaf.2).toOption, leaf.2)) =
        [(some (Bytes.ofString "a"), 9), (some [], 10), (some (Bytes.ofString "x"), 11)] ∧
      (List.range listing.size).map (fun n => (listing.leaf doc n).toOption.map Leaf.token) =
        [some 4, some 2, some 15, some 9] := by
  have hRead : (accepted? cutMemo).map (fun (doc, listing) => decide (
      (doc.member 0 Heading.memo.name).toOption = some 8 ∧
        (doc.treeAt doc.tokens.size 8).toOption.map (fun memo =>
          (Heading.memo.leavesOf 8 memo).map fun leaf => ((doc.slice leaf.2).toOption, leaf.2)) =
            some [(some (Bytes.ofString "a"), 9), (some [], 10), (some (Bytes.ofString "x"), 11)] ∧
        (List.range listing.size).map (fun n => (listing.leaf doc n).toOption.map Leaf.token) =
          [some 4, some 2, some 15, some 9])) = some true := by
    decide +kernel
  obtain ⟨doc, listing, hParse, hValidate, hFacts⟩ := exists_of_accepted hRead
  simp only [decide_eq_true_eq, toOption_eq_some_iff, Option.map_eq_some_iff] at hFacts
  obtain ⟨hStart, ⟨memo, hMemo, hLeaves⟩, hItems⟩ := hFacts
  exact ⟨doc, listing, 8, memo, hParse, hValidate, hStart, hMemo, hLeaves, hItems⟩

theorem memo_shown_iff_cutMemo :
    ∃ doc listing start memo, parse .json cutMemo {} = .ok (.json doc none) ∧
      (json doc none).validate {} = (.ok (), .json doc (some listing)) ∧
      doc.member 0 Heading.memo.name = .ok start ∧ doc.treeAt doc.tokens.size start = .ok memo ∧
      (Heading.memo.leavesOf start memo).length = 3 ∧
      ∀ k leaf, (Heading.memo.leavesOf start memo)[k]? = some leaf →
        ((∃ n < listing.size, ∃ found, listing.leaf doc n = .ok found ∧ found.token = leaf.2) ↔
          ∀ other ∈ (Heading.memo.leavesOf start memo).take (k + 1), doc.slice other.2 ≠ .ok []) := by
  obtain ⟨doc, listing, start, memo, hParse, hValidate, hStart, hMemo, hLeaves, _⟩ := read_cutMemo
  obtain ⟨start', memo', hStart', hMemo', hShown⟩ := memo_shown_iff hParse hValidate
  obtain rfl := Except.ok.inj (hStart.symm.trans hStart')
  obtain rfl := Except.ok.inj (hMemo.symm.trans hMemo')
  have hLength := congrArg List.length hLeaves
  rw [List.length_map] at hLength
  exact ⟨doc, listing, start, memo, hParse, hValidate, hStart, hMemo, hLength, hShown⟩

/-- The last leaf of its memo is not empty, and is not shown. -/
theorem memo_hidden_cutMemo :
    ∃ doc listing start memo leaf, parse .json cutMemo {} = .ok (.json doc none) ∧
      (json doc none).validate {} = (.ok (), .json doc (some listing)) ∧
      doc.member 0 Heading.memo.name = .ok start ∧ doc.treeAt doc.tokens.size start = .ok memo ∧
      leaf ∈ Heading.memo.leavesOf start memo ∧ doc.slice leaf.2 = .ok (Bytes.ofString "x") ∧
      ¬∃ n < listing.size, ∃ found, listing.leaf doc n = .ok found ∧ found.token = leaf.2 := by
  obtain ⟨doc, listing, start, memo, hParse, hValidate, hStart, hMemo, hLeaves, hItems⟩ :=
    read_cutMemo
  have hLast : (some (Bytes.ofString "x"), 11) ∈ (Heading.memo.leavesOf start memo).map
      fun leaf => ((doc.slice leaf.2).toOption, leaf.2) := by
    rw [hLeaves]
    decide
  obtain ⟨leaf, hLeaf, hPair⟩ := List.mem_map.mp hLast
  obtain ⟨hSlice, hToken⟩ := Prod.mk.inj hPair
  refine ⟨doc, listing, start, memo, leaf, hParse, hValidate, hStart, hMemo, hLeaf,
    toOption_eq_some_iff.mp hSlice, ?_⟩
  rintro ⟨n, hn, found, hFound, hSame⟩
  have hItem : some leaf.2 ∈ (List.range listing.size).map fun n =>
      (listing.leaf doc n).toOption.map Leaf.token := by
    refine List.mem_map.mpr ⟨n, List.mem_range.mpr hn, ?_⟩
    rw [hFound, ← hSame]
    rfl
  rw [hItems, hToken] at hItem
  exact absurd hItem (by decide)

end Transaction

/-! ### The types of messages -/

/-- Where the type is shown once, the item that shows it is a leaf with the type of all. -/
theorem Section.exists_type {doc : Document} {part : Section} {group : TypeGroup}
    (h : part.group? doc = some group) :
    part.heading = .msgs ∧ group.count = (part.types doc).length ∧
      ∃ leaf, (part.shown doc)[group.first]? = some leaf ∧ leaf.1 = TypeGroup.path ∧
        ∀ type ∈ part.types doc, type = doc.text leaf.2 := by
  have hShown : part.shown doc = keepFirst isType (part.leaves doc) := by rw [shown, h]
  rw [group?, Option.ite_none_right_eq_some] at h
  obtain ⟨⟨hMsgs, hSame⟩, hGroup⟩ := h
  obtain rfl := Option.some.inj hGroup
  have hSome : (part.leaves doc).filter isType ≠ [] := by
    intro hNone
    rw [types, hNone] at hSame
    cases hSame
  obtain ⟨first, hFirst⟩ := List.exists_mem_of_ne_nil _ hSome
  obtain ⟨hMem, hType⟩ := List.mem_filter.mp hFirst
  have hFound : (part.leaves doc).findIdx isType < (part.leaves doc).length :=
    List.findIdx_lt_length_of_exists ⟨first, hMem, hType⟩
  have hHere : isType (part.leaves doc)[(part.leaves doc).findIdx isType] = true :=
    List.findIdx_getElem
  refine ⟨hMsgs, rfl, _, ?_, beq_iff_eq.mp hHere, fun type hAny => ?_⟩
  · rw [hShown, getElem?_keepFirst]
    exact List.getElem?_eq_getElem hFound
  · refine eq_of_allSame hSame hAny (List.mem_map.mpr ⟨_, List.mem_filter.mpr ⟨?_, hHere⟩, rfl⟩)
    exact List.getElem_mem hFound

/-- The path `below` is that of a value with this path, or of one below it. -/
def Path.IsAtOrBelow (path below : Bytes) : Prop :=
  below = path ∨ ∃ rest, below = path ++ slash :: rest

namespace Json.Tree

def typeName : Bytes := Bytes.ofString "type"

/-- The types of a message: the octets of its leaves that show a type. -/
def types (message : Tree) : List Bytes :=
  ((message.leaves (Leaf.maxDepth - 1) Heading.msgs.levels Heading.msgs.name).filter isType).map
    fun leaf => leaf.2.raw

/-- The message is an object with exactly one member of that name, whose value is a string or a
literal. -/
def HasOneType (message : Tree) : Prop :=
  ∃ front value back, message = .object (front ++ (typeName, value) :: back) ∧
    value.isLeaf = true ∧ ∀ m ∈ front ++ back, m.1 ≠ typeName

theorem types_array (messages : List Tree) :
    (((Tree.array messages).leaves Leaf.maxDepth Heading.msgs.levels Heading.msgs.name).filter
      isType).map (fun leaf => leaf.2.raw) = messages.flatMap types := by
  have hLeaves : (Tree.array messages).leaves Leaf.maxDepth Heading.msgs.levels Heading.msgs.name =
      messages.flatMap fun message =>
        message.leaves (Leaf.maxDepth - 1) Heading.msgs.levels Heading.msgs.name := rfl
  rw [hLeaves, List.filter_flatMap, List.map_flatMap]
  rfl

theorem isAtOrBelow_of_mem_leaves_leaf {tree : Tree} {depth levels : Nat}
    (hStop : tree.isLeaf = true ∨ depth = 0 ∨ levels = 0) (path : Bytes) :
    ∀ leaf ∈ tree.leaves depth levels path, Path.IsAtOrBelow path leaf.1 := by
  rw [leaves_leaf hStop]
  exact List.forall_mem_singleton.mpr (Or.inl rfl)

theorem isAtOrBelow_of_mem_leaves {tree : Tree} {depth levels : Nat} {path : Bytes}
    (hPath : path ≠ []) : ∀ leaf ∈ tree.leaves depth levels path, Path.IsAtOrBelow path leaf.1 := by
  induction depth generalizing tree levels path with
  | zero => exact isAtOrBelow_of_mem_leaves_leaf (Or.inr (Or.inl rfl)) path
  | succ depth ih =>
    cases levels with
    | zero => exact isAtOrBelow_of_mem_leaves_leaf (Or.inr (Or.inr rfl)) path
    | succ levels =>
      cases tree with
      | object members =>
        intro leaf hLeaf
        rw [leaves] at hLeaf
        obtain ⟨m, _, hLeaf⟩ := List.mem_flatMap.mp hLeaf
        rw [Path.join_of_ne_nil hPath] at hLeaf
        rcases ih (List.append_ne_nil_of_left_ne_nil hPath _) leaf hLeaf with hHere | ⟨rest, hBelow⟩
        · exact Or.inr ⟨m.1, hHere⟩
        · exact Or.inr ⟨m.1 ++ Path.slash :: rest, by rw [hBelow, List.append_assoc]; rfl⟩
      | array elements =>
        intro leaf hLeaf
        rw [leaves] at hLeaf
        obtain ⟨element, _, hLeaf⟩ := List.mem_flatMap.mp hLeaf
        exact ih hPath leaf hLeaf
      | string contents => exact isAtOrBelow_of_mem_leaves_leaf (Or.inl rfl) path
      | literal text => exact isAtOrBelow_of_mem_leaves_leaf (Or.inl rfl) path

theorem filter_isType_of_ne {name : Bytes} (h : name ≠ typeName) (depth levels : Nat)
    (value : Tree) :
    (value.leaves depth levels (Path.join Heading.msgs.name name)).filter isType = [] := by
  have hType : TypeGroup.path = Heading.msgs.name ++ Path.slash :: typeName := by decide
  have hJoin := Path.join_of_ne_nil Heading.msgs.name_ne_nil name
  have hJoinNe : Path.join Heading.msgs.name name ≠ [] := by
    rw [hJoin]
    exact List.append_ne_nil_of_left_ne_nil Heading.msgs.name_ne_nil _
  refine List.filter_eq_nil_iff.mpr fun leaf hLeaf hIs => ?_
  have hPath : leaf.1 = TypeGroup.path := beq_iff_eq.mp hIs
  rw [hType] at hPath
  rcases isAtOrBelow_of_mem_leaves hJoinNe leaf hLeaf with hHere | ⟨rest, hBelow⟩
  · rw [hHere, hJoin, List.append_cancel_left_eq, List.cons.injEq] at hPath
    exact h hPath.2
  · rw [hBelow, hJoin, List.append_assoc, List.append_cancel_left_eq, List.cons_append,
      List.cons.injEq] at hPath
    -- a longer path has a slash too many
    have hSlash : Path.slash ∈ typeName := by
      rw [← hPath.2]
      simp
    exact absurd hSlash (by decide)

theorem HasOneType.types_eq {message : Tree} (h : message.HasOneType) :
    ∃ value, message.member? typeName = some value ∧ message.types = [value.raw] := by
  obtain ⟨front, value, back, rfl, hLeaf, hOthers⟩ := h
  obtain ⟨hFront, hBack⟩ := List.forall_mem_append.mp hOthers
  have hNone : ∀ members : List (Bytes × Tree), (∀ m ∈ members, m.1 ≠ typeName) →
      (members.flatMap fun m => (m.2.leaves (Leaf.maxDepth - 2) (Heading.msgs.levels - 1)
        (Path.join Heading.msgs.name m.1)).filter isType) = [] := by
    intro members hMembers
    exact List.flatMap_eq_nil_iff.mpr fun m hm => filter_isType_of_ne (hMembers m hm) _ _ _
  have hLeaves : (object (front ++ (typeName, value) :: back)).leaves (Leaf.maxDepth - 1)
      Heading.msgs.levels Heading.msgs.name = (front ++ (typeName, value) :: back).flatMap fun m =>
        m.2.leaves (Leaf.maxDepth - 2) (Heading.msgs.levels - 1)
          (Path.join Heading.msgs.name m.1) := rfl
  refine ⟨value, ?_, ?_⟩
  · have hFind : front.find? (fun m => m.1 == typeName) = none :=
      List.find?_eq_none.mpr fun m hm => by simpa using hFront m hm
    rw [member?, List.find?_append, hFind, Option.none_or, List.find?_cons, beq_self_eq_true]
    rfl
  · rw [types, hLeaves, List.filter_flatMap, List.flatMap_append, hNone front hFront,
      List.flatMap_cons, hNone back hBack, leaves_leaf (Or.inl hLeaf)]
    rfl

/-- If each message has one type and these are the same, it is what all messages have, and there are
as many types as messages. -/
theorem types_of_hasOneType {messages : List Tree} {type : Bytes}
    (hOne : ∀ message ∈ messages, message.HasOneType)
    (hSame : ∀ message ∈ messages, ∀ other ∈ message.types, other = type) :
    (∀ message ∈ messages, ∃ value, message.member? typeName = some value ∧ value.raw = type) ∧
      (messages.flatMap types).length = messages.length := by
  constructor
  · intro message hMessage
    obtain ⟨value, hValue, hTypes⟩ := (hOne message hMessage).types_eq
    have hType : value.raw ∈ message.types := by
      rw [hTypes]
      exact List.mem_singleton_self _
    exact ⟨value, hValue, hSame message hMessage _ hType⟩
  · clear hSame
    induction messages with
    | nil => rfl
    | cons message messages ih =>
      obtain ⟨hFirst, hRest⟩ := List.forall_mem_cons.mp hOne
      obtain ⟨value, _, hTypes⟩ := hFirst.types_eq
      rw [List.flatMap_cons, List.length_append, ih hRest, hTypes, List.length_singleton,
        List.length_cons, Nat.add_comm]

end Json.Tree

namespace Transaction

/-- Where the type of messages is shown once, it is the type of each leaf of theirs that shows a
type, and the count is that of these leaves.  If each message has one type, it is the type of all
messages, and the count is theirs. -/
theorem types_of_group {bytes : Bytes} {limits : Limits} {context : Context} {tx : Transaction}
    {doc : Document} {listing : Listing} (hParse : parse .json bytes limits = .ok tx)
    (hValidate : tx.validate context = (.ok (), .json doc (some listing))) {start : Nat}
    {messages : List Tree} (hStart : doc.member 0 Heading.msgs.name = .ok start)
    (hTree : doc.treeAt doc.tokens.size start = .ok (.array messages)) {group : TypeGroup}
    (hGroup : listing.group = some group) :
    ∃ n leaf type, listing.place n = .ok (.msgs, group.first) ∧ listing.leaf doc n = .ok leaf ∧
      leaf.path.bytes = TypeGroup.path ∧ doc.slice leaf.token = .ok type ∧
      (∀ message ∈ messages, ∀ other ∈ message.types, other = type) ∧
      group.count = (messages.flatMap Tree.types).length ∧
      ((∀ message ∈ messages, message.HasOneType) →
        (∀ message ∈ messages, ∃ value, message.member? Tree.typeName = some value ∧
          value.raw = type) ∧ group.count = messages.length) := by
  obtain ⟨ls, members, spans, hParsed, hBlank, rfl, hLists, _, hValues⟩ :=
    exists_sections hParse hValidate
  rw [Listing.group_eq hLists] at hGroup
  obtain ⟨part, hPart, hGroup⟩ := List.exists_of_findSome?_eq_some hGroup
  obtain ⟨hMsgs, hCount, leaf, hLeaf, hPath, hTypes⟩ := Section.exists_type hGroup
  obtain ⟨hMember, hOccurs⟩ := hValues part hPart
  rw [hMsgs, hStart] at hMember
  obtain rfl := Except.ok.inj hMember
  obtain hValue := Except.ok.inj (hOccurs.treeAt_size_eq.symm.trans hTree)
  have hAll : part.types doc = messages.flatMap Tree.types := by
    rw [Section.types_eq hOccurs hBlank (by rw [hMsgs]; decide), hMsgs, hValue, Tree.types_array]
  obtain ⟨n, found, hPlace, hFound, rfl⟩ := Listing.exists_number_of_shown hLists hPart hLeaf
  have hSlice : doc.slice found.token = .ok (doc.text found.token) :=
    hOccurs.slice_leaves _ _ _ _ (part.shown_sublist.subset (List.mem_of_getElem? hLeaf))
  have hSame : ∀ message ∈ messages, ∀ other ∈ message.types, other = doc.text found.token :=
    fun message hMessage other hOther =>
      hTypes other (hAll ▸ List.mem_flatMap.mpr ⟨message, hMessage, hOther⟩)
  rw [hAll] at hCount
  refine ⟨n, found, _, hMsgs ▸ hPlace, hFound, hPath, hSlice, hSame, hCount, fun hOne => ?_⟩
  rw [hCount]
  exact Tree.types_of_hasOneType hOne hSame

/-- A sign document of three messages.  The last one has no type. -/
def untypedMessage : Bytes := Bytes.ofString
  ("\x7b\"account_number\":\"7\",\"chain_id\":\"c\",\"fee\":\x7b\x7d,\"memo\":\"\"," ++
    "\"msgs\":[\x7b\"type\":\"a\"\x7d,\x7b\"type\":\"a\"\x7d,\x7b\"x\":\"1\"\x7d]," ++
    "\"sequence\":\"1\"\x7d")

/-- Its type is shown once, as that of two messages. -/
theorem read_untypedMessage :
    ∃ doc listing start messages, parse .json untypedMessage {} = .ok (.json doc none) ∧
      (json doc none).validate {} = (.ok (), .json doc (some listing)) ∧
      doc.member 0 Heading.msgs.name = .ok start ∧
      doc.treeAt doc.tokens.size start = .ok (.array messages) ∧
      listing.group = some ⟨0, 2⟩ ∧
      messages.map (fun message => (message.kind, (message.member? Tree.typeName).map Tree.raw)) =
        [(.object, some (Bytes.ofString "a")), (.object, some (Bytes.ofString "a")),
          (.object, none)] := by
  have hRead : (accepted? untypedMessage).map (fun (doc, listing) => decide (
      (doc.member 0 Heading.msgs.name).toOption = some 10 ∧
        (doc.treeAt doc.tokens.size 10).toOption.map (fun tree => (tree.kind,
          tree.children.map fun message =>
            (message.kind, (message.member? Tree.typeName).map Tree.raw))) =
          some (.array, [(.object, some (Bytes.ofString "a")),
            (.object, some (Bytes.ofString "a")), (.object, none)]) ∧
        listing.group = some ⟨0, 2⟩)) = some true := by
    decide +kernel
  obtain ⟨doc, listing, hParse, hValidate, hFacts⟩ := exists_of_accepted hRead
  simp only [decide_eq_true_eq, toOption_eq_some_iff, Option.map_eq_some_iff] at hFacts
  obtain ⟨hStart, ⟨tree, hTree, hMessages⟩, hGroup⟩ := hFacts
  obtain ⟨hKind, hMessages⟩ := Prod.mk.inj hMessages
  cases tree with
  | array messages =>
    exact ⟨doc, listing, 10, messages, hParse, hValidate, hStart, hTree, hGroup, hMessages⟩
  | object members => cases hKind
  | string contents => cases hKind
  | literal text => cases hKind

theorem types_of_group_untypedMessage :
    ∃ doc listing start messages n leaf type,
      parse .json untypedMessage {} = .ok (.json doc none) ∧
      (json doc none).validate {} = (.ok (), .json doc (some listing)) ∧
      doc.member 0 Heading.msgs.name = .ok start ∧
      doc.treeAt doc.tokens.size start = .ok (.array messages) ∧
      listing.group = some ⟨0, 2⟩ ∧ listing.place n = .ok (.msgs, 0) ∧
      listing.leaf doc n = .ok leaf ∧ leaf.path.bytes = TypeGroup.path ∧
      doc.slice leaf.token = .ok type ∧
      (∀ message ∈ messages, ∀ other ∈ message.types, other = type) ∧
      (messages.flatMap Tree.types).length = 2 := by
  obtain ⟨doc, listing, start, messages, hParse, hValidate, hStart, hTree, hGroup, _⟩ :=
    read_untypedMessage
  obtain ⟨n, leaf, type, hPlace, hLeaf, hPath, hSlice, hTypes, hCount, _⟩ :=
    types_of_group hParse hValidate hStart hTree hGroup
  exact ⟨doc, listing, start, messages, n, leaf, type, hParse, hValidate, hStart, hTree, hGroup,
    hPlace, hLeaf, hPath, hSlice, hTypes, hCount.symm⟩

/-- The type that is shown once is not that of the last message, and not that of all. -/
theorem grouped_untypedMessage :
    ∃ doc listing start messages group message,
      parse .json untypedMessage {} = .ok (.json doc none) ∧
      (json doc none).validate {} = (.ok (), .json doc (some listing)) ∧
      doc.member 0 Heading.msgs.name = .ok start ∧
      doc.treeAt doc.tokens.size start = .ok (.array messages) ∧
      (∀ message ∈ messages, message.kind = .object) ∧
      listing.group = some group ∧ 1 < group.count ∧ group.count ≠ messages.length ∧
      message ∈ messages ∧ message.member? Tree.typeName = none := by
  obtain ⟨doc, listing, start, messages, hParse, hValidate, hStart, hTree, hGroup, hMessages⟩ :=
    read_untypedMessage
  have hLength := congrArg List.length hMessages
  rw [List.length_map] at hLength
  have hKinds : ∀ message ∈ messages, message.kind = .object := by
    intro message hMessage
    have hAll : messages.map Tree.kind = List.replicate 3 .object :=
      List.map_map.symm.trans (congrArg (List.map Prod.fst) hMessages)
    exact List.eq_of_mem_replicate (hAll ▸ List.mem_map_of_mem hMessage)
  have hLast : (Kind.object, none) ∈ messages.map fun message =>
      (message.kind, (message.member? Tree.typeName).map Tree.raw) := by
    rw [hMessages]
    decide
  obtain ⟨message, hMessage, hPair⟩ := List.mem_map.mp hLast
  obtain ⟨_, hNone⟩ := Prod.mk.inj hPair
  exact ⟨doc, listing, start, messages, ⟨0, 2⟩, message, hParse, hValidate, hStart, hTree, hKinds,
    hGroup, by decide, by rw [hLength]; decide, hMessage, Option.map_eq_none_iff.mp hNone⟩

end Transaction

end SignReview
