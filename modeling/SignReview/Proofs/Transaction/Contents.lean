import SignReview.Proofs.Amount.Coins
import SignReview.Proofs.SignDoc.Shown
import SignReview.Proofs.Transaction.Validation

/-!
# What is shown of a sign document

`Json.Tree.items?` goes through the tree of a sign document and lists all pages of all its items,
without a token, a counter or a number of a page.  A transaction that has been validated shows
these pages.

* `Json.Tree.entryOf?`: what is shown of a leaf, `SignDoc.leafEntry_eq_ok`: it is what the document
  shows.
* `Json.Tree.items?`: all pages, `Transaction.item_eq_items`: they are those of the transaction.
-/

namespace SignReview

open Json

/-! ### Pages -/

def Entry.pages (entry : Entry) (width : Nat) : List Item :=
  let values := entry.texts.flatMap (Page.chunks (Page.clamp width))
  values.map fun value => ⟨entry.key, value, values.length⟩

theorem Entry.item_eq_pages (entry : Entry) (width page : Nat) :
    entry.item width page =
      match (entry.pages width)[page]? with
      | none => .error .displayPageOutOfRange
      | some item => .ok item := by
  rw [item, Page.find_eq, pages, List.getElem?_map]
  cases (entry.texts.flatMap (Page.chunks (Page.clamp width)))[page]? with
  | none => rfl
  | some value => rfl

/-! ### Entries -/

namespace Json.Tree

/-- The chain whose amounts are converted: none for experts. -/
def chain? (root : Tree) (context : Context) : Option Chain :=
  if context.expert then none
  else (root.member? Heading.chainId.name).bind fun id => Chain.find? context.chains id.raw

def entryOf? (chain : Option Chain) (leaf : Bytes × Tree) : Option Entry :=
  let key := (Label.ofPath? leaf.1).getD leaf.1
  if Label.isAmount leaf.1 then
    (leaf.2.coinTexts? chain).map (Entry.mk key)
  else
    some ⟨key, [(Label.ofValue? leaf.2.raw).getD leaf.2.raw]⟩

def items? (root : Tree) (context : Context) : Option (List (List Item)) :=
  root.shown.mapM fun leaf =>
    (entryOf? (root.chain? context) leaf).map fun entry => entry.pages context.width

end Json.Tree

namespace SignDoc

theorem chain?_eq {doc : Document} {root : Tree} (hOccurs : Occurs doc 0 root)
    (hCanonical : doc.checkCanonical = .ok ()) (chains : List Chain) :
    chain? doc chains =
      (root.member? Heading.chainId.name).bind fun id => Chain.find? chains id.raw := by
  obtain ⟨hBlank, hRequired⟩ := Document.checkCanonical_eq_ok hCanonical
  obtain ⟨start, hStart⟩ := hRequired _ Heading.chainId.name_mem_required
  obtain ⟨value, hValue, hAt⟩ := hOccurs.exists_member hStart
  have hSlice : (doc.member 0 (Bytes.ofString "chain_id") >>= doc.slice) = .ok value.raw := by
    rw [← hAt.slice_raw hBlank, ← ok_bind start doc.slice, ← hStart]
    rfl
  rw [chain?, hSlice, hValue]
  rfl

/-- What a document shows of a leaf is what is shown of its tree. -/
theorem leafEntry_eq_ok {doc : Document} {root tree : Tree} (hOccurs : Occurs doc 0 root)
    (hCanonical : doc.checkCanonical = .ok ()) {context : Context} {leaf : Leaf} {entry : Entry}
    (hLeaf : Occurs doc leaf.token tree) (h : leafEntry doc context leaf = .ok entry) :
    Tree.entryOf? (root.chain? context) (leaf.path.bytes, tree) = some entry := by
  obtain ⟨hBlank, _⟩ := Document.checkCanonical_eq_ok hCanonical
  rw [leafEntry, chain?_eq hOccurs hCanonical] at h
  rw [Tree.entryOf?]
  by_cases hAmount : Label.isAmount leaf.path.bytes = true
  · rw [if_pos hAmount] at h ⊢
    obtain ⟨texts, hTexts, h⟩ := bind_eq_ok_iff.mp h
    obtain rfl := Except.ok.inj h
    rw [Tree.chain?, hLeaf.coinTexts?_eq hTexts]
    rfl
  · rw [if_neg hAmount] at h ⊢
    rw [tokenText, hLeaf.slice_raw hBlank] at h
    exact congrArg some (Except.ok.inj h)

/-- Each leaf of a document that has been checked is shown as the item of its number. -/
theorem exists_entry_of_leaf {doc : Document} {root : Tree} (hOccurs : Occurs doc 0 root)
    {context context' : Context} {listing : Listing} (h : check doc context = .ok listing)
    (hChains : context'.chains = context.chains) {n : Nat} {leaf : Bytes × Tree}
    (hLeaf : root.shown[n]? = some leaf) :
    ∃ found, entry doc listing context' n = .ok found ∧
      Tree.entryOf? (root.chain? context') leaf = some found := by
  obtain ⟨hCanonical, hBuild, _⟩ := check_eq_ok_iff.mp h
  have hLists := Listing.build_spec hOccurs hCanonical hBuild
  obtain ⟨hn, _⟩ := List.getElem?_eq_some_iff.mp hLeaf
  obtain ⟨found, hFound, _⟩ := exists_entry h hChains (hLists.size_eq ▸ hn)
  obtain ⟨place, hPlace, hPath, hToken⟩ := hLists.leaf_eq n leaf hLeaf
  refine ⟨found, hFound, ?_⟩
  rw [entry, hPlace, ok_bind] at hFound
  have hEntry := leafEntry_eq_ok hOccurs hCanonical hToken hFound
  rwa [hPath] at hEntry

end SignDoc

namespace Transaction

/-- A validated transaction shows the pages of the tree of its document, in both modes and at any
width. -/
theorem item_eq_items {bytes : Bytes} {limits : Limits} {context : Context}
    {tx valid : Transaction} (hParse : parse .json bytes limits = .ok tx)
    (hValidate : tx.validate context = (.ok (), valid)) :
    ∃ doc tree, Document.parse bytes limits = .ok doc ∧ doc.tree = .ok tree ∧
      bytes = tree.compact ∧ ∀ context' : Context, context'.chains = context.chains →
        ∃ items, tree.items? context' = some items ∧ valid.size context' = .ok items.length ∧
          ∀ n page, valid.item context' n page =
            match items[n]? with
            | none => .error .displayIdxOutOfRange
            | some pages =>
              match pages[page]? with
              | none => .error .displayPageOutOfRange
              | some item => .ok item := by
  obtain ⟨doc, hDoc, rfl⟩ := parse_json hParse
  obtain ⟨listing, hCheck, rfl⟩ := validate_json hValidate
  obtain ⟨ls, tree, hParsed, rfl, _⟩ := Document.exists_parsed hDoc
  obtain ⟨hCanonical, hBuild, _⟩ := SignDoc.check_eq_ok_iff.mp hCheck
  have hBlank := (Document.checkCanonical_eq_ok hCanonical).1
  have hLists := Listing.build_spec hParsed.occurs hCanonical hBuild
  refine ⟨doc, tree, hDoc, hParsed.tree_eq, hParsed.eq_compact hBlank, fun context' hChains => ?_⟩
  have hSome : ∀ leaf ∈ tree.shown, ∃ pages, (Tree.entryOf? (tree.chain? context') leaf).map
      (fun entry => entry.pages context'.width) = some pages := by
    intro leaf hMem
    obtain ⟨n, hLeaf⟩ := List.mem_iff_getElem?.mp hMem
    obtain ⟨found, _, hEntry⟩ :=
      SignDoc.exists_entry_of_leaf hParsed.occurs hCheck hChains hLeaf
    exact ⟨_, by rw [hEntry]; rfl⟩
  obtain ⟨items, hItems, hAll⟩ := exists_mapM_eq_some hSome
  have hSize : listing.size = items.length := hLists.size_eq.trans hAll.length_eq
  refine ⟨items, hItems, congrArg _ hSize, fun n page => ?_⟩
  rw [item, Transaction.entry]
  cases hPages : items[n]? with
  | none =>
    have hn : listing.size ≤ n := hSize ▸ List.getElem?_eq_none_iff.mp hPages
    rw [SignDoc.entry, Listing.leaf, Listing.locate, Listing.locateIn_of_le hn]
    rfl
  | some pages =>
    obtain ⟨leaf, hLeaf, hEntry⟩ := Forall₂.exists_getElem? hAll hPages
    obtain ⟨found, hFound, hTree⟩ :=
      SignDoc.exists_entry_of_leaf hParsed.occurs hCheck hChains hLeaf
    rw [hTree] at hEntry
    obtain rfl : found.pages context'.width = pages := Option.some.inj hEntry
    rw [hFound, ok_bind, Entry.item_eq_pages]

theorem item_eq_items_twoVotes :
    ∃ (tx valid : Transaction) (tree : Tree) (items : List (List Item)),
      parse .json twoVotes {} = .ok tx ∧ tx.validate {} = (.ok (), valid) ∧
      twoVotes = tree.compact ∧ tree.items? {} = some items ∧ items.length = 5 ∧
      ∀ n page, valid.item {} n page =
        match items[n]? with
        | none => .error .displayIdxOutOfRange
        | some pages =>
          match pages[page]? with
          | none => .error .displayPageOutOfRange
          | some item => .ok item := by
  have hAccepts : acceptsItems twoVotes 5 = true := by decide +kernel
  obtain ⟨tx, valid, hParse, hValidate, hSize⟩ := exists_of_acceptsItems hAccepts
  obtain ⟨_, tree, _, _, hCompact, hShown⟩ := item_eq_items hParse hValidate
  obtain ⟨items, hItems, hCount, hPages⟩ := hShown {} rfl
  rw [hCount] at hSize
  exact ⟨tx, valid, tree, items, hParse, hValidate, hCompact, hItems, Except.ok.inj hSize, hPages⟩

end Transaction

end SignReview
