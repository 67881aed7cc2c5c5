import SignReview.Proofs.Leaf.Route
import SignReview.Proofs.SignDoc.Index
import SignReview.Proofs.SignDoc.Shown
import SignReview.Proofs.Transaction.Validation

/-!
# Where the value of an item stands

The path of an item is the name of its heading and the names on the way down from there to its
value, joined by slashes.  It can be told from the path what these names are, unless one of them has
a slash itself.

* `Leaf.ComesFrom`: the names on the way to a leaf, `Leaf.Named`: what its path says of them.
* `Listing.exists_named`: the items of a listing are named.
* `Transaction.leaf_named`: so are those of an accepted transaction,
  `Transaction.misnamed_slashedName`: where a name has a slash, the path is that of another value.
-/

namespace SignReview

open Json

/-! ### Entries of the tables of labels -/

namespace Label

theorem exists_of_find? {table : List (String × String)} {bytes label : Bytes}
    (h : find? table bytes = some label) :
    ∃ entry ∈ table, Bytes.ofString entry.1 = bytes ∧ Bytes.ofString entry.2 = label := by
  obtain ⟨entry, hEntry, rfl⟩ := Option.map_eq_some_iff.mp h
  have hBytes := List.find?_some hEntry
  exact ⟨entry, List.mem_of_find?_eq_some hEntry, by simpa using hBytes, rfl⟩

theorem exists_of_isAmount {bytes : Bytes} (h : isAmount bytes = true) :
    ∃ path ∈ amountPaths, Bytes.ofString path = bytes := by
  obtain ⟨path, hPath, hBytes⟩ := List.any_eq_true.mp h
  exact ⟨path, hPath, beq_iff_eq.mp hBytes⟩

end Label

/-! ### The names on the way to a leaf -/

theorem Heading.slash_not_mem_name (heading : Heading) : Path.slash ∉ heading.name := by
  cases heading <;> decide

namespace Leaf

/-- These are the names on the way down from the value of the heading to the leaf. -/
def ComesFrom (doc : Document) (heading : Heading) (names : List Bytes) (leaf : Leaf) : Prop :=
  ∃ start, doc.member 0 heading.name = .ok start ∧ Route doc start names leaf.token

/-- The leaf comes from these names only, and its path is made of them.  If no name has a slash,
they are the parts of the path, and what is looked up for the path is said of them. -/
structure Named (doc : Document) (heading : Heading) (names : List Bytes) (leaf : Leaf) :
    Prop where
  unique : ∀ names', leaf.ComesFrom doc heading names' → names' = names
  path_eq : leaf.path.bytes = [Path.slash].intercalate (heading.name :: names)
  parts_eq : Path.parts leaf.path.bytes = heading.name :: names.flatMap Path.parts
  parts_iff : Path.parts leaf.path.bytes = heading.name :: names ↔
    ∀ name ∈ names, Path.slash ∉ name
  label_spells : (∀ name ∈ names, Path.slash ∉ name) →
    ∀ label, Label.ofPath? leaf.path.bytes = some label → ∃ entry ∈ Label.paths,
      Bytes.ofString entry.2 = label ∧
        Path.parts (Bytes.ofString entry.1) = heading.name :: names
  amount_spells : (∀ name ∈ names, Path.slash ∉ name) →
    Label.isAmount leaf.path.bytes = true → ∃ path ∈ Label.amountPaths,
      Path.parts (Bytes.ofString path) = heading.name :: names

variable {doc : Document} {ls : List Lexeme} {root : Tree} {heading : Heading}

theorem ComesFrom.unique {names names' : List Bytes} {leaf : Leaf}
    (h : leaf.ComesFrom doc heading names) (h' : leaf.ComesFrom doc heading names')
    (hParsed : doc.Parsed ls root) : names = names' := by
  obtain ⟨start, hStart, hRoute⟩ := h
  obtain ⟨start', hStart', hRoute'⟩ := h'
  obtain rfl := Except.ok.inj (hStart.symm.trans hStart')
  exact hRoute.unique hParsed hRoute'

theorem exists_named (hParsed : doc.Parsed ls root) {start : Nat}
    (hStart : doc.member 0 heading.name = .ok start) {levels : Nat} {leaf : Leaf}
    (hLeaf : .found leaf ∈ walk doc maxDepth levels heading.path start) :
    ∃ names, leaf.ComesFrom doc heading names ∧ leaf.Named doc heading names := by
  obtain ⟨value, _, hValue⟩ := hParsed.occurs.exists_member hStart
  obtain ⟨names, hRoute, hJoin⟩ := hValue.exists_route maxDepth levels heading.path leaf hLeaf
  have hFrom : leaf.ComesFrom doc heading names := ⟨start, hStart, hRoute⟩
  have hPath : leaf.path.bytes = [Path.slash].intercalate (heading.name :: names) :=
    hJoin.trans (Path.foldl_join heading.name_ne_nil names)
  have hIff : Path.parts leaf.path.bytes = heading.name :: names ↔
      ∀ name ∈ names, Path.slash ∉ name := by
    rw [hPath, Path.parts_eq_iff (List.cons_ne_nil _ _), List.forall_mem_cons,
      and_iff_right heading.slash_not_mem_name]
  have hHeading : Path.parts heading.name = [heading.name] := by
    have hOne : Path.parts ([Path.slash].intercalate [heading.name]) = [heading.name] :=
      (Path.parts_eq_iff (List.cons_ne_nil _ _)).mpr
        (List.forall_mem_singleton.mpr heading.slash_not_mem_name)
    rwa [List.intercalate_singleton] at hOne
  refine ⟨names, hFrom, fun names' hFrom' => hFrom'.unique hFrom hParsed, hPath, ?_, hIff, ?_,
    ?_⟩
  · rw [hPath, Path.parts_intercalate _ (List.cons_ne_nil _ _), List.flatMap_cons, hHeading]
    rfl
  · intro hSlash label hLabel
    obtain ⟨entry, hEntry, hBytes, hText⟩ := Label.exists_of_find? hLabel
    exact ⟨entry, hEntry, hText, hBytes ▸ hIff.mpr hSlash⟩
  · intro hSlash hAmount
    obtain ⟨path, hMem, hBytes⟩ := Label.exists_of_isAmount hAmount
    exact ⟨path, hMem, hBytes ▸ hIff.mpr hSlash⟩

end Leaf

/-! ### The items of a listing -/

namespace Span

theorem build_fields {doc : Document} {heading : Heading} {start : Nat} {span : Span}
    (h : build doc heading start = .ok span) : span.heading = heading ∧ span.start = start := by
  obtain ⟨_, _, h⟩ := bind_eq_ok_iff.mp h
  rw [← Except.ok.inj h]
  exact ⟨rfl, rfl⟩

end Span

namespace Listing

variable {doc : Document}

theorem member_of_buildSpans {headings : List Heading} {spans : List Span}
    (h : buildSpans doc headings = .ok spans) :
    ∀ span ∈ spans, doc.member 0 span.heading.name = .ok span.start := by
  induction headings generalizing spans with
  | nil =>
    obtain rfl := Except.ok.inj h
    intro span hSpan
    cases hSpan
  | cons heading headings ih =>
    rw [buildSpans] at h
    split at h
    · obtain rfl := Except.ok.inj h
      intro span hSpan
      cases hSpan
    · cases h
    · rename_i start hStart
      obtain ⟨first, hFirst, h⟩ := bind_eq_ok_iff.mp h
      obtain ⟨rest, hRest, h⟩ := bind_eq_ok_iff.mp h
      obtain rfl := Except.ok.inj h
      obtain ⟨rfl, rfl⟩ := Span.build_fields hFirst
      exact List.forall_mem_cons.mpr ⟨hStart, ih hRest⟩

theorem mem_of_locateIn {spans : List Span} {n k : Nat} {span : Span}
    (h : locateIn spans n = .ok (span, k)) : span ∈ spans := by
  induction spans generalizing n with
  | nil => cases h
  | cons first spans ih =>
    rw [locateIn] at h
    split at h
    · cases h
      exact List.mem_cons_self
    · exact List.mem_cons_of_mem _ (ih h)

/-- Item `n` shows this leaf, and comes from these names below the heading. -/
structure Shows (doc : Document) (listing : Listing) (n : Nat) (leaf : Leaf) (heading : Heading)
    (names : List Bytes) : Prop where
  leaf_eq : listing.leaf doc n = .ok leaf
  exists_place : ∃ k, listing.place n = .ok (heading, k)
  comesFrom : leaf.ComesFrom doc heading names

theorem exists_named {ls : List Lexeme} {root : Tree} (hParsed : doc.Parsed ls root)
    {listing : Listing} (h : build doc = .ok listing) {n : Nat} {leaf : Leaf}
    (hLeaf : listing.leaf doc n = .ok leaf) :
    ∃ heading names, listing.Shows doc n leaf heading names ∧ leaf.Named doc heading names := by
  obtain ⟨spans, hSpans, rfl⟩ := exists_spans h
  obtain ⟨⟨span, k⟩, hLocate, hFound⟩ := bind_eq_ok_iff.mp hLeaf
  have hPlace : place ⟨spans⟩ n = .ok (span.heading, k) := by
    rw [place, hLocate]
    rfl
  have hStart := member_of_buildSpans hSpans span (mem_of_locateIn hLocate)
  obtain ⟨value, _, hValue⟩ := hParsed.occurs.exists_member hStart
  simp only [hValue.find_eq] at hFound
  split at hFound
  · rename_i token last hSelect
    obtain ⟨found, hMem, hToken, hKey⟩ := Query.exists_leaf_of_select hSelect
    obtain rfl : found = leaf := by
      rw [← Except.ok.inj hFound, hKey, ← hToken]
    obtain ⟨names, hFrom, hNamed⟩ := Leaf.exists_named hParsed hStart hMem
    exact ⟨span.heading, names, ⟨hLeaf, ⟨k, hPlace⟩, hFrom⟩, hNamed⟩
  · cases hFound

theorem Shows.parts_eq {ls : List Lexeme} {root : Tree} {listing : Listing} {n : Nat} {leaf : Leaf}
    {heading : Heading} {names : List Bytes} (h : listing.Shows doc n leaf heading names)
    (hParsed : doc.Parsed ls root) (hBuild : build doc = .ok listing)
    (hSlash : ∀ name ∈ names, Path.slash ∉ name) :
    Path.parts leaf.path.bytes = heading.name :: names := by
  obtain ⟨heading', names', hShows, hNamed⟩ := exists_named hParsed hBuild h.leaf_eq
  obtain ⟨k, hPlace⟩ := h.exists_place
  obtain ⟨k', hPlace'⟩ := hShows.exists_place
  cases hPlace.symm.trans hPlace'
  obtain rfl := hNamed.unique names h.comesFrom
  exact hNamed.parts_iff.mpr hSlash

end Listing

/-! ### Accepted transactions -/

theorem SignDoc.key_of_leafEntry {doc : Document} {context : Context} {leaf : Leaf} {found : Entry}
    (h : leafEntry doc context leaf = .ok found) :
    found.key = (Label.ofPath? leaf.path.bytes).getD leaf.path.bytes := by
  rw [leafEntry] at h
  split at h
  · obtain ⟨_, _, h⟩ := bind_eq_ok_iff.mp h
    rw [← Except.ok.inj h]
  · obtain ⟨_, _, h⟩ := bind_eq_ok_iff.mp h
    rw [← Except.ok.inj h]

namespace Transaction

/-- In a sign document that has been accepted, the path of each item is made of the name of its
heading and the names on the way down to its value, which are the parts of the path if none of them
has a slash.  Then a label or the layout of an amount is given only to the value that the table
means, and two items have the same path only if the names are the same. -/
theorem leaf_named {bytes : Bytes} {limits : Limits} {context : Context} {tx : Transaction}
    {doc : Document} {listing : Listing} (hParse : parse .json bytes limits = .ok tx)
    (hValidate : tx.validate context = (.ok (), .json doc (some listing))) :
    (∀ n < listing.size, ∃ leaf heading names, listing.Shows doc n leaf heading names ∧
      leaf.Named doc heading names ∧
      ∀ context' found, (json doc (some listing)).entry context' n = .ok found →
        found.key = (Label.ofPath? leaf.path.bytes).getD leaf.path.bytes) ∧
    ∀ m n a b heading heading' names names', listing.Shows doc m a heading names →
      listing.Shows doc n b heading' names' → (∀ name ∈ names, Path.slash ∉ name) →
      (∀ name ∈ names', Path.slash ∉ name) → a.path.bytes = b.path.bytes →
        heading = heading' ∧ names = names' := by
  obtain ⟨ls, root, hParsed, hCheck⟩ := check_of_validate hParse hValidate
  obtain ⟨_, hBuild, _⟩ := SignDoc.check_eq_ok_iff.mp hCheck
  constructor
  · intro n hn
    obtain ⟨leaf, hLeaf⟩ := SignDoc.exists_leaf hCheck hn
    obtain ⟨heading, names, hShows, hNamed⟩ := Listing.exists_named hParsed hBuild hLeaf
    refine ⟨leaf, heading, names, hShows, hNamed, fun context' found hFound => ?_⟩
    rw [entry, SignDoc.entry, hLeaf, ok_bind] at hFound
    exact SignDoc.key_of_leafEntry hFound
  · intro m n a b heading heading' names names' hA hB hSlash hSlash' hPath
    have hPartsA := hA.parts_eq hParsed hBuild hSlash
    have hPartsB := hB.parts_eq hParsed hBuild hSlash'
    rw [hPath, hPartsB] at hPartsA
    obtain ⟨hHeading, rfl⟩ := List.cons.inj hPartsA
    exact ⟨(Heading.name_injective hHeading).symm, rfl⟩

/-- A sign document of two messages.  The name in the second one has a slash. -/
def slashedName : Bytes := Bytes.ofString
  ("\x7b\"account_number\":\"7\",\"chain_id\":\"c\",\"fee\":\x7b\x7d,\"memo\":\"\"," ++
    "\"msgs\":[\x7b\"value\":\x7b\"to_address\":\"y\"\x7d\x7d," ++
    "\x7b\"value/to_address\":\"x\"\x7d],\"sequence\":\"1\"\x7d")

/-- Its last two items have the same path, but come from different names. -/
theorem shows_slashedName :
    ∃ doc listing a b, parse .json slashedName {} = .ok (.json doc none) ∧
      (json doc none).validate {} = (.ok (), .json doc (some listing)) ∧
      listing.Shows doc 3 a .msgs [Bytes.ofString "value", Bytes.ofString "to_address"] ∧
      listing.Shows doc 4 b .msgs [Bytes.ofString "value/to_address"] ∧
      a.path.bytes = Bytes.ofString "msgs/value/to_address" ∧
      b.path.bytes = Bytes.ofString "msgs/value/to_address" := by
  have hRead : (accepted? slashedName).map (fun (doc, listing) => decide (
      (listing.place 3).toOption = some (.msgs, 0) ∧ (listing.place 4).toOption = some (.msgs, 1) ∧
        (listing.leaf doc 3).toOption.map Leaf.pair =
          some (Bytes.ofString "msgs/value/to_address", 15) ∧
        (listing.leaf doc 4).toOption.map Leaf.pair =
          some (Bytes.ofString "msgs/value/to_address", 18) ∧
        (doc.member 0 Heading.msgs.name).toOption = some 10 ∧
        (doc.contents .array 10).toOption = some [11, 16] ∧
        (doc.names 11).toOption = some [12] ∧
        (doc.slice 12).toOption = some (Bytes.ofString "value") ∧
        (doc.names 13).toOption = some [14] ∧
        (doc.slice 14).toOption = some (Bytes.ofString "to_address") ∧
        (doc.names 16).toOption = some [17] ∧
        (doc.slice 17).toOption = some (Bytes.ofString "value/to_address"))) = some true := by
    decide +kernel
  obtain ⟨doc, listing, hParse, hValidate, hFacts⟩ := exists_of_accepted hRead
  simp only [decide_eq_true_eq, toOption_eq_some_iff, Option.map_eq_some_iff] at hFacts
  obtain ⟨hPlaceA, hPlaceB, ⟨a, hA, hPairA⟩, ⟨b, hB, hPairB⟩, hStart, hList, hFirst, hValue, hInner,
    hAddress, hSecond, hSlashed⟩ := hFacts
  obtain ⟨hPathA, hTokenA⟩ := Prod.mk.inj hPairA
  obtain ⟨hPathB, hTokenB⟩ := Prod.mk.inj hPairB
  have hRouteA : Route doc 10 [Bytes.ofString "value", Bytes.ofString "to_address"] a.token := by
    rw [hTokenA]
    exact .down (.element hList (by decide)) (.down (.member hFirst (by decide) hValue)
      (.down (.member hInner (by decide) hAddress) (.here 15)))
  have hRouteB : Route doc 10 [Bytes.ofString "value/to_address"] b.token := by
    rw [hTokenB]
    exact .down (.element hList (by decide)) (.down (.member hSecond (by decide) hSlashed)
      (.here 18))
  exact ⟨doc, listing, a, b, hParse, hValidate, ⟨hA, ⟨0, hPlaceA⟩, 10, hStart, hRouteA⟩,
    ⟨hB, ⟨1, hPlaceB⟩, 10, hStart, hRouteB⟩, hPathA, hPathB⟩

theorem leaf_named_slashedName :
    ∃ doc listing leaf, parse .json slashedName {} = .ok (.json doc none) ∧
      (json doc none).validate {} = (.ok (), .json doc (some listing)) ∧
      listing.Shows doc 3 leaf .msgs [Bytes.ofString "value", Bytes.ofString "to_address"] ∧
      leaf.Named doc .msgs [Bytes.ofString "value", Bytes.ofString "to_address"] := by
  obtain ⟨doc, listing, a, _, hParse, hValidate, hShows, _⟩ := shows_slashedName
  obtain ⟨hItems, _⟩ := leaf_named hParse hValidate
  obtain ⟨k, hPlace⟩ := hShows.exists_place
  obtain ⟨leaf, heading, names, hShows', hNamed, _⟩ := hItems 3 (Listing.lt_size_of_place hPlace)
  obtain ⟨k', hPlace'⟩ := hShows'.exists_place
  obtain rfl := Except.ok.inj (hShows.leaf_eq.symm.trans hShows'.leaf_eq)
  cases hPlace.symm.trans hPlace'
  obtain rfl := hNamed.unique _ hShows.comesFrom
  exact ⟨doc, listing, a, hParse, hValidate, hShows, hNamed⟩

/-- The path of its last item says that the value is in an object called `value`, which it is not;
and the value gets the label that is meant for a value in there. -/
theorem misnamed_slashedName :
    ∃ doc listing a b names, parse .json slashedName {} = .ok (.json doc none) ∧
      (json doc none).validate {} = (.ok (), .json doc (some listing)) ∧
      listing.Shows doc 3 a .msgs [Bytes.ofString "value", Bytes.ofString "to_address"] ∧
      listing.Shows doc 4 b .msgs names ∧
      (∀ names', b.ComesFrom doc .msgs names' → names' = names) ∧
      names ≠ [Bytes.ofString "value", Bytes.ofString "to_address"] ∧
      a.path.bytes = b.path.bytes ∧
      Path.parts b.path.bytes ≠ Heading.msgs.name :: names ∧
      Label.ofPath? b.path.bytes = some (Bytes.ofString "To") ∧
      ∀ entry ∈ Label.paths, Path.parts (Bytes.ofString entry.1) ≠ Heading.msgs.name :: names := by
  obtain ⟨doc, listing, a, b, hParse, hValidate, hA, hB, hPathA, hPathB⟩ := shows_slashedName
  obtain ⟨ls, root, hParsed, _⟩ := check_of_validate hParse hValidate
  refine ⟨doc, listing, a, b, _, hParse, hValidate, hA, hB,
    fun names' hFrom => hFrom.unique hB.comesFrom hParsed, by decide, hPathA.trans hPathB.symm, ?_⟩
  rw [hPathB]
  decide +kernel

end Transaction

end SignReview
