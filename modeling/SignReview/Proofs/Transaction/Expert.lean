import SignReview.Proofs.Transaction.Contents
import SignReview.Proofs.Transaction.Paths

/-!
# What experts are shown

To experts, amounts are shown as they stand in the document, and to others those in the base
denomination of its chain are converted.  This is the only difference: the items of an accepted sign
document are the same in both modes, under the same keys, and an item is shown in two ways only if
one of its own coins is converted.

* `Json.Tree.Converts`: a leaf with a coin that is converted.
* `Coin.texts_eq_plain`: the coins of all other leaves, `SignDoc.leafEntry_eq_plain`: what is shown
  of them.
* `Transaction.modes_of_validate`: the items of an accepted sign document in both modes.
-/

namespace SignReview

open Json

/-! ### Coins that are converted -/

/-- The coins of a tree: of its elements, if it is an array, and else its own. -/
def Json.Tree.coins : Tree → List Coin
  | .array elements => elements.filterMap fun element => element.coin?.join
  | tree => tree.coin?.join.toList

/-- A leaf is laid out as amounts, the chain of the document is among those given, and one of the
coins of the leaf is in its base denomination. -/
def Json.Tree.Converts (root : Tree) (chains : List Chain) (leaf : Bytes × Tree) : Prop :=
  Label.isAmount leaf.1 = true ∧ ∃ id chain coin,
    root.member? Heading.chainId.name = some id ∧ Chain.find? chains id.raw = some chain ∧
      coin ∈ leaf.2.coins ∧ coin.denom = chain.baseDenom

namespace Coin

variable {doc : Document} {tree : Tree} {i : Nat} {chain : Option Chain}

theorem text_eq_plain (hOccurs : Occurs doc i tree)
    (h : ∀ c, chain = some c → ∀ coin, tree.coin? = some (some coin) → coin.denom ≠ c.baseDenom) :
    text doc chain i = text doc none i := by
  rw [text_eq, text_eq]
  cases hRead : read doc i with
  | error e => rfl
  | ok found =>
    cases found with
    | none => rfl
    | some coin =>
      have hPlain : coin.converting? chain = none := by
        refine Option.eq_none_iff_forall_ne_some.mpr fun c hConverting => ?_
        obtain ⟨hChain, hDenom⟩ := converting?_eq_some_iff.mp hConverting
        exact h c hChain coin (hOccurs.coin?_eq hRead) hDenom.symm
      simp only [ok_bind, Option.elim_some, write, hPlain]
      rfl

/-- Coins in other denominations are shown as they stand. -/
theorem texts_eq_plain (hOccurs : Occurs doc i tree)
    (h : ∀ c, chain = some c → ∀ coin ∈ tree.coins, coin.denom ≠ c.baseDenom) :
    texts doc chain i = texts doc none i := by
  rw [hOccurs.texts_eq, hOccurs.texts_eq]
  cases tree with
  | object members =>
    have hText : text doc chain i = text doc none i := by
      refine text_eq_plain hOccurs fun c hChain coin hCoin => h c hChain coin ?_
      rw [Tree.coins, hCoin]
      · exact List.mem_singleton_self coin
      · intro elements hArray
        cases hArray
    simp only [hText]
  | array elements =>
    have hTexts : (numbers (i + 1) elements).mapM (text doc chain) =
        (numbers (i + 1) elements).mapM (text doc none) := by
      refine mapM_congr fun index hIndex => ?_
      obtain ⟨element, hElement, hAt⟩ := Forall₂.exists_of_mem hOccurs.elements.2 hIndex
      refine text_eq_plain hAt fun c hChain coin hCoin => h c hChain coin ?_
      exact List.mem_filterMap.mpr ⟨element, hElement, by rw [hCoin]; rfl⟩
    simp only [hTexts]
  | string contents => rfl
  | literal text => rfl

end Coin

/-! ### Leaves -/

namespace SignDoc

variable {doc : Document} {root : Tree} {context context' : Context}

/-- The chains are nothing to experts. -/
theorem leafEntry_expert (doc : Document) (hExpert : context.expert = true)
    (hExpert' : context'.expert = true) (leaf : Leaf) :
    leafEntry doc context leaf = leafEntry doc context' leaf := by
  unfold leafEntry
  rw [hExpert, hExpert']
  rfl

/-- A leaf without a coin that is converted is shown as to experts. -/
theorem leafEntry_eq_plain (hOccurs : Occurs doc 0 root)
    (hCanonical : doc.checkCanonical = .ok ()) {leaf : Leaf} {tree : Tree}
    (hLeaf : Occurs doc leaf.token tree)
    (h : ¬root.Converts context.chains (leaf.path.bytes, tree)) :
    leafEntry doc context leaf = leafEntry doc { context with expert := true } leaf := by
  cases hExpert : context.expert with
  | true => exact leafEntry_expert doc hExpert rfl leaf
  | false =>
    unfold leafEntry
    rw [hExpert]
    by_cases hAmount : Label.isAmount leaf.path.bytes = true
    · have hTexts : Coin.texts doc (chain? doc context.chains) leaf.token =
          Coin.texts doc none leaf.token := by
        refine Coin.texts_eq_plain hLeaf fun c hChain coin hCoin hSame => h ⟨hAmount, ?_⟩
        rw [chain?_eq hOccurs hCanonical] at hChain
        obtain ⟨id, hId, hFind⟩ := Option.bind_eq_some_iff.mp hChain
        exact ⟨id, c, coin, hId, hFind, hCoin, hSame⟩
      rw [if_pos hAmount, if_pos hAmount, if_neg Bool.false_ne_true, if_pos rfl]
      dsimp only
      rw [hTexts]
    · rw [if_neg hAmount, if_neg hAmount]

theorem entry_eq_plain (hOccurs : Occurs doc 0 root) (hCanonical : doc.checkCanonical = .ok ())
    {listing : Listing} (hLists : listing.Lists doc root.shown) {n : Nat}
    (h : ∀ leaf, root.shown[n]? = some leaf → ¬root.Converts context.chains leaf) :
    entry doc listing context n = entry doc listing { context with expert := true } n := by
  cases hLeaf : root.shown[n]? with
  | none =>
    have hn : listing.size ≤ n := hLists.size_eq ▸ List.getElem?_eq_none_iff.mp hLeaf
    rw [entry, entry, Listing.leaf, Listing.locate, Listing.locateIn_of_le hn]
    rfl
  | some leaf =>
    obtain ⟨place, hPlace, hPath, hToken⟩ := hLists.leaf_eq n leaf hLeaf
    rw [entry, entry, hPlace, ok_bind, ok_bind]
    apply leafEntry_eq_plain hOccurs hCanonical hToken
    rw [hPath]
    exact h leaf hLeaf

end SignDoc

/-! ### Accepted transactions -/

namespace Transaction

variable {doc : Document} {listing : Listing} {context context' : Context}

theorem item_congr (hWidth : context.width = context'.width) {n : Nat}
    (h : SignDoc.entry doc listing context n = SignDoc.entry doc listing context' n) (page : Nat) :
    item (.json doc (some listing)) context n page =
      item (.json doc (some listing)) context' n page := by
  rw [item, item, entry, entry, h, hWidth]

theorem item_expert (doc : Document) (listing : Listing) (hExpert : context.expert = true)
    (chains : List Chain) (n page : Nat) :
    item (.json doc (some listing)) { context with chains } n page =
      item (.json doc (some listing)) context n page := by
  have hLeaf : SignDoc.leafEntry doc { context with chains } = SignDoc.leafEntry doc context :=
    funext (SignDoc.leafEntry_expert doc hExpert hExpert)
  refine item_congr ?_ ?_ page
  · rfl
  · unfold SignDoc.entry
    rw [hLeaf]

theorem key_of_item {n page : Nat} {leaf : Leaf} {found : Item}
    (hLeaf : listing.leaf doc n = .ok leaf)
    (h : item (.json doc (some listing)) context n page = .ok found) :
    found.key = (Label.ofPath? leaf.path.bytes).getD leaf.path.bytes := by
  obtain ⟨shown, hShown, h⟩ := bind_eq_ok_iff.mp h
  obtain ⟨_, _, h⟩ := bind_eq_ok_iff.mp h
  have hEntry : SignDoc.entry doc listing context n = .ok shown := hShown
  rw [SignDoc.entry, hLeaf, ok_bind] at hEntry
  rw [← Except.ok.inj h]
  exact SignDoc.key_of_leafEntry hEntry

theorem exists_item_zero (h : SignDoc.check doc context = .ok listing)
    (hMode : context'.expert = true ∨ context'.chains = context.chains) {n : Nat}
    (hn : n < listing.size) :
    ∃ found, item (.json doc (some listing)) context' n 0 = .ok found := by
  have hItem : item (.json doc (some listing)) { context' with chains := context.chains } n 0 =
      item (.json doc (some listing)) context' n 0 := by
    rcases hMode with hExpert | hChains
    · exact item_expert doc listing hExpert context.chains n 0
    · rw [← hChains]
  have hEntry : ∃ found,
      SignDoc.entry doc listing { context' with chains := context.chains } n = .ok found ∧
        found.texts ≠ [] := SignDoc.exists_entry h (by rfl) hn
  obtain ⟨found, hFound, hTexts⟩ := hEntry
  obtain ⟨value, hValue⟩ := Entry.item_of_lt (Page.total_pos hTexts (Page.clamp context'.width))
  rw [← hItem, item, entry, hFound, ok_bind]
  exact ⟨_, hValue⟩

/-- In both modes there are the same items.  Each has a key that neither the mode nor the chains
change, and it has pages for experts, and for others if the chains are those of the validation.  A
page is different for experts only if the item shows amounts, the chain of the document is known,
and a coin of this item is in its base denomination.  For experts the chains change nothing. -/
theorem modes_of_validate {bytes : Bytes} {limits : Limits} {context : Context}
    {tx valid : Transaction} (hParse : parse .json bytes limits = .ok tx)
    (hValidate : tx.validate context = (.ok (), valid)) :
    ∃ doc listing tree, tx = .json doc none ∧ valid = .json doc (some listing) ∧
      doc.tree = .ok tree ∧ listing.Lists doc tree.shown ∧
      (∀ context', valid.size context' = .ok tree.shown.length) ∧
      (∀ n leaf, tree.shown[n]? = some leaf →
        (∀ context' page found, valid.item context' n page = .ok found →
          found.key = (Label.ofPath? leaf.1).getD leaf.1) ∧
        ∀ context', context'.expert = true ∨ context'.chains = context.chains →
          ∃ found, valid.item context' n 0 = .ok found) ∧
      (∀ context' n,
        (∀ leaf, tree.shown[n]? = some leaf → ¬tree.Converts context'.chains leaf) →
          ∀ expert page,
            valid.item { context' with expert } n page = valid.item context' n page) ∧
      ∀ context', context'.expert = true → ∀ chains n page,
        valid.item { context' with chains } n page = valid.item context' n page := by
  obtain ⟨doc, hDoc, rfl⟩ := parse_json hParse
  obtain ⟨listing, hCheck, rfl⟩ := validate_json hValidate
  obtain ⟨ls, tree, hParsed, rfl, _⟩ := Document.exists_parsed hDoc
  obtain ⟨hCanonical, hBuild, _⟩ := SignDoc.check_eq_ok_iff.mp hCheck
  have hLists := Listing.build_spec hParsed.occurs hCanonical hBuild
  refine ⟨doc, listing, tree, rfl, rfl, hParsed.tree_eq, hLists,
    fun context' => congrArg Except.ok hLists.size_eq, fun n leaf hLeaf => ⟨?key, ?pages⟩, ?modes,
    fun context' hExpert => item_expert doc listing hExpert⟩
  case key =>
    intro context' page found hFound
    obtain ⟨place, hPlace, hPath, _⟩ := hLists.leaf_eq n leaf hLeaf
    rw [key_of_item hPlace hFound, hPath]
  case pages =>
    intro context' hMode
    obtain ⟨hn, _⟩ := List.getElem?_eq_some_iff.mp hLeaf
    exact exists_item_zero hCheck hMode (hLists.size_eq ▸ hn)
  case modes =>
    intro context' n hPlain expert page
    have hMode := SignDoc.entry_eq_plain hParsed.occurs hCanonical hLists hPlain
    have hOther : SignDoc.entry doc listing { context' with expert } n = _ :=
      SignDoc.entry_eq_plain hParsed.occurs hCanonical hLists hPlain
    refine item_congr ?_ (hOther.trans hMode.symm) page
    rfl

/-- A sign document with a fee that is converted and a deposit that is not. -/
def feeAndDeposit : Bytes := Bytes.ofString
  ("\x7b\"account_number\":\"7\",\"chain_id\":\"cosmoshub-4\",\"fee\":\x7b\"amount\":" ++
    "[\x7b\"amount\":\"5000\",\"denom\":\"uatom\"\x7d]\x7d,\"memo\":\"\",\"msgs\":[" ++
    "\x7b\"value\":\x7b\"amount\":\x7b\"amount\":\"5\",\"denom\":\"stake\"\x7d\x7d\x7d]," ++
    "\"sequence\":\"1\"\x7d")

theorem modes_of_validate_feeAndDeposit :
    ∃ tx valid, parse .json feeAndDeposit {} = .ok tx ∧ tx.validate {} = (.ok (), valid) ∧
      valid.size { expert := true } = .ok 5 ∧
      (∀ page, valid.item { expert := true } 4 page = valid.item {} 4 page) ∧
      (∀ page, valid.item { expert := true, chains := [] } 3 page =
        valid.item { expert := true } 3 page) ∧
      (∃ found, valid.item { expert := true } 3 0 = .ok found ∧
        found.key = Bytes.ofString "Fee") ∧
      valid.item { expert := true } 3 0 ≠ valid.item {} 3 0 := by
  have hRead : (accepted? feeAndDeposit).map (fun (doc, listing) => decide (
      doc.tree.toOption.map (fun tree => (tree.shown.length, tree.shown[3]?.map Prod.fst,
          tree.shown[4]?.map fun leaf => leaf.2.coins)) =
        some (5, some (Bytes.ofString "fee/amount"),
          some [⟨Bytes.ofString "5", Bytes.ofString "stake"⟩]) ∧
      (item (json doc (some listing)) { expert := true } 3 0).toOption ≠
        (item (json doc (some listing)) {} 3 0).toOption)) = some true := by
    decide +kernel
  obtain ⟨doc, listing, hParse, hValidate, hFacts⟩ := exists_of_accepted hRead
  rw [decide_eq_true_eq, Option.map_eq_some_iff] at hFacts
  obtain ⟨⟨_, hTree, hShown⟩, hDiffer⟩ := hFacts
  rw [toOption_eq_some_iff] at hTree
  obtain ⟨_, _, tree, hDoc, hValid, hTree', _, hSize, hKeys, hModes, hChains⟩ :=
    modes_of_validate hParse hValidate
  cases hDoc
  cases hValid
  obtain rfl := Except.ok.inj (hTree'.symm.trans hTree)
  obtain ⟨hLength, hLeaves⟩ := Prod.mk.inj hShown
  obtain ⟨hFee, hDeposit⟩ := Prod.mk.inj hLeaves
  refine ⟨_, _, hParse, hValidate, hLength ▸ hSize { expert := true }, ?deposit,
    hChains { expert := true } rfl [] 3, ?fee, ?differ⟩
  case deposit =>
    refine hModes {} 4 ?_ true
    rintro leaf hLeaf ⟨_, _, chain, coin, _, hChain, hCoin, hDenom⟩
    rw [hLeaf, Option.map_some, Option.some_inj] at hDeposit
    rw [hDeposit, List.mem_singleton] at hCoin
    obtain rfl : chain = Chain.hub := List.mem_singleton.mp (List.mem_of_find?_eq_some hChain)
    rw [hCoin] at hDenom
    exact absurd hDenom (by decide)
  case fee =>
    obtain ⟨leaf, hLeaf, hPath⟩ := Option.map_eq_some_iff.mp hFee
    obtain ⟨hKey, hPages⟩ := hKeys 3 leaf hLeaf
    obtain ⟨found, hFound⟩ := hPages { expert := true } (Or.inl rfl)
    refine ⟨found, hFound, ?_⟩
    rw [hKey _ 0 found hFound, hPath]
    decide +kernel
  case differ =>
    intro hSame
    exact hDiffer (congrArg Except.toOption hSame)

end Transaction

end SignReview
