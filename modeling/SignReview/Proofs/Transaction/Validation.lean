import SignReview.Proofs.Json.Parsing
import SignReview.Proofs.Paging
import SignReview.Transaction.Basic

/-!
# What a validation promises

A validation renders each item in both modes at one page width.  An entry does not depend on the
page width, so that afterwards each item can be shown at any width.

* `SignDoc.check_eq_ok_iff`: what is checked of a sign document.
* `SignDoc.exists_entry`: the entries of a document that has been checked.
* `Transaction.item_of_validate`: the items of an accepted transaction.
-/

namespace SignReview

open Json

namespace SignDoc

theorem check_eq_ok_iff {doc : Document} {context : Context} {listing : Listing} :
    check doc context = .ok listing ↔
      doc.checkCanonical = .ok () ∧ Listing.build doc = .ok listing ∧
        ∀ expert : Bool, ∀ n < listing.size, ∃ found,
          entry doc listing { context with expert } n = .ok found ∧
            found.renderAll context.width = .ok () := by
  constructor
  · intro h
    obtain ⟨_, hCanonical, h⟩ := bind_eq_ok_iff.mp h
    obtain ⟨built, hBuild, h⟩ := bind_eq_ok_iff.mp h
    obtain ⟨_, hModes, h⟩ := bind_eq_ok_iff.mp h
    obtain rfl := Except.ok.inj h
    refine ⟨hCanonical, hBuild, fun expert n hn => ?_⟩
    have hMode := forM_eq_ok_iff.mp hModes expert (by cases expert <;> decide)
    exact bind_eq_ok_iff.mp (forM_eq_ok_iff.mp hMode n (List.mem_range.mpr hn))
  · rintro ⟨hCanonical, hBuild, hItems⟩
    have hModes : [false, true].forM (fun expert => (List.range listing.size).forM fun n => do
        (← entry doc listing { context with expert } n).renderAll context.width) = .ok () := by
      refine forM_eq_ok_iff.mpr fun expert _ => forM_eq_ok_iff.mpr fun n hn => ?_
      exact bind_eq_ok_iff.mpr (hItems expert n (List.mem_range.mp hn))
    rw [check, hCanonical, ok_bind, hBuild, ok_bind, hModes]
    rfl

theorem entry_congr (doc : Document) (listing : Listing) (context context' : Context)
    (hExpert : context'.expert = context.expert) (hChains : context'.chains = context.chains)
    (n : Nat) : entry doc listing context' n = entry doc listing context n := by
  unfold entry leafEntry
  rw [hExpert, hChains]

/-- The entries of a document that has been checked can be shown in both modes. -/
theorem exists_entry {doc : Document} {context : Context} {listing : Listing}
    (h : check doc context = .ok listing) {context' : Context}
    (hChains : context'.chains = context.chains) {n : Nat} (hn : n < listing.size) :
    ∃ found, entry doc listing context' n = .ok found ∧ found.texts ≠ [] := by
  obtain ⟨_, _, hItems⟩ := check_eq_ok_iff.mp h
  obtain ⟨found, hFound, hRender⟩ := hItems context'.expert n hn
  refine ⟨found, ?_, Entry.texts_of_renderAll hRender⟩
  rw [← hFound]
  exact entry_congr doc listing { context with expert := context'.expert } context' rfl hChains n

theorem exists_leaf {doc : Document} {context : Context} {listing : Listing}
    (h : check doc context = .ok listing) {n : Nat} (hn : n < listing.size) :
    ∃ leaf, listing.leaf doc n = .ok leaf := by
  obtain ⟨found, hFound, _⟩ := @exists_entry doc context listing h context rfl n hn
  obtain ⟨leaf, hLeaf, _⟩ := bind_eq_ok_iff.mp hFound
  exact ⟨leaf, hLeaf⟩

end SignDoc

theorem Listing.locateIn_of_le {spans : List Span} {n : Nat} (h : sizeOf spans ≤ n) :
    locateIn spans n = .error .displayIdxOutOfRange := by
  induction spans generalizing n with
  | nil => rfl
  | cons span spans ih =>
    rw [sizeOf] at h
    rw [locateIn, if_neg (by omega)]
    exact ih (by omega)

namespace Transaction

theorem parse_json {bytes : Bytes} {limits : Limits} {tx : Transaction}
    (h : parse .json bytes limits = .ok tx) :
    ∃ doc, Document.parse bytes limits = .ok doc ∧ tx = .json doc none := by
  obtain ⟨doc, hDoc, h⟩ := bind_eq_ok_iff.mp h
  exact ⟨doc, hDoc, (Except.ok.inj h).symm⟩

theorem validate_json {doc : Document} {listing : Option Listing} {context : Context}
    {tx : Transaction} (h : validate (.json doc listing) context = (.ok (), tx)) :
    ∃ built, SignDoc.check doc context = .ok built ∧ tx = .json doc (some built) := by
  rw [validate] at h
  cases hCheck : SignDoc.check doc context with
  | error e =>
    rw [hCheck] at h
    cases h
  | ok built =>
    rw [hCheck] at h
    cases h
    exact ⟨built, rfl, rfl⟩

theorem check_of_validate {bytes : Bytes} {limits : Limits} {context : Context} {tx : Transaction}
    {doc : Document} {listing : Listing} (hParse : parse .json bytes limits = .ok tx)
    (hValidate : tx.validate context = (.ok (), .json doc (some listing))) :
    ∃ ls root, doc.Parsed ls root ∧ SignDoc.check doc context = .ok listing := by
  obtain ⟨read, hRead, rfl⟩ := parse_json hParse
  obtain ⟨built, hCheck, hValid⟩ := validate_json hValidate
  cases hValid
  obtain ⟨ls, root, hParsed, _⟩ := Document.exists_parsed hRead
  exact ⟨ls, root, hParsed, hCheck⟩

/-- After a sign document has been validated, each of its items has pages, at any width and in
both modes, and nothing goes wrong but that an item or page does not exist. -/
theorem item_of_validate {bytes : Bytes} {limits : Limits} {context : Context}
    {tx valid : Transaction} (hParse : parse .json bytes limits = .ok tx)
    (hValidate : tx.validate context = (.ok (), valid)) :
    ∃ items, ∀ context' : Context, context'.chains = context.chains →
      valid.size context' = .ok items ∧ ∀ n,
        (items ≤ n → ∀ page, valid.item context' n page = .error .displayIdxOutOfRange) ∧
        (n < items → ∃ key pages, 1 ≤ pages ∧ ∀ page,
          (page < pages → ∃ value, valid.item context' n page = .ok ⟨key, value, pages⟩) ∧
          (pages ≤ page → valid.item context' n page = .error .displayPageOutOfRange)) := by
  obtain ⟨doc, _, rfl⟩ := parse_json hParse
  obtain ⟨listing, hCheck, rfl⟩ := validate_json hValidate
  refine ⟨listing.size, fun context' hChains => ⟨rfl, fun n => ⟨?_, ?_⟩⟩⟩
  · intro hn page
    rw [item, Transaction.entry, SignDoc.entry, Listing.leaf, Listing.locate,
      Listing.locateIn_of_le hn]
    rfl
  · intro hn
    obtain ⟨found, hFound, hTexts⟩ := SignDoc.exists_entry hCheck hChains hn
    have hItem : ∀ page, item (.json doc (some listing)) context' n page =
        found.item context'.width page := fun page => by
      rw [item, Transaction.entry, hFound, ok_bind]
    refine ⟨found.key, _, Page.total_pos hTexts (Page.clamp context'.width), fun page => ⟨?_, ?_⟩⟩
    · intro hPage
      rw [hItem]
      exact Entry.item_of_lt hPage
    · intro hPage
      rw [hItem]
      exact Entry.item_of_le hPage

def acceptsItems (bytes : Bytes) (items : Nat) : Bool :=
  match parse .json bytes {} with
  | .ok tx => (tx.validate {}).1.toBool && ((tx.validate {}).2.size {}).toOption == some items
  | .error _ => false

theorem exists_of_acceptsItems {bytes : Bytes} {items : Nat} (h : acceptsItems bytes items = true) :
    ∃ tx valid, parse .json bytes {} = .ok tx ∧ tx.validate {} = (.ok (), valid) ∧
      valid.size {} = .ok items := by
  rw [acceptsItems] at h
  cases hParse : parse .json bytes {} with
  | error e =>
    rw [hParse] at h
    cases h
  | ok tx =>
    rw [hParse, Bool.and_eq_true, beq_iff_eq] at h
    obtain ⟨hValid, hSize⟩ := h
    cases hValidate : tx.validate {} with
    | mk outcome valid =>
      rw [hValidate] at hValid hSize
      cases outcome with
      | error e => cases hValid
      | ok _ =>
        refine ⟨tx, valid, rfl, hValidate, ?_⟩
        cases hItems : valid.size {} with
        | error e =>
          rw [hItems] at hSize
          cases hSize
        | ok n =>
          rw [hItems] at hSize
          rw [Option.some.inj hSize]

def accepted? (bytes : Bytes) : Option (Document × Listing) :=
  (Document.parse bytes {}).toOption.bind fun doc =>
    (SignDoc.check doc {}).toOption.map fun listing => (doc, listing)

theorem exists_of_accepted {bytes : Bytes} {α : Type} {f : Document × Listing → α} {a : α}
    (h : (accepted? bytes).map f = some a) :
    ∃ doc listing, parse .json bytes {} = .ok (.json doc none) ∧
      (json doc none).validate {} = (.ok (), .json doc (some listing)) ∧ f (doc, listing) = a := by
  obtain ⟨⟨doc, listing⟩, hAccepted, rfl⟩ := Option.map_eq_some_iff.mp h
  obtain ⟨read, hRead, hAccepted⟩ := Option.bind_eq_some_iff.mp hAccepted
  obtain ⟨built, hBuilt, hPair⟩ := Option.map_eq_some_iff.mp hAccepted
  cases hPair
  rw [toOption_eq_some_iff] at hRead hBuilt
  refine ⟨doc, listing, ?_, ?_, rfl⟩
  · rw [parse, hRead]
    rfl
  · rw [validate, hBuilt]

/-- The sign document of a transaction with a fee and two messages of the same type. -/
def twoVotes : Bytes := Bytes.ofString
  ("\x7b\"account_number\":\"7\",\"chain_id\":\"cosmoshub-4\",\"fee\":\x7b\"amount\":" ++
    "[\x7b\"amount\":\"5000\",\"denom\":\"uatom\"\x7d]\x7d,\"memo\":\"\"," ++
    "\"msgs\":[\x7b\"type\":\"vote\"\x7d,\x7b\"type\":\"vote\"\x7d],\"sequence\":\"1\"\x7d")

theorem item_of_validate_twoVotes :
    ∃ tx valid, parse .json twoVotes {} = .ok tx ∧ tx.validate {} = (.ok (), valid) ∧
      valid.size { expert := true, width := 0 } = .ok 5 ∧
      (∃ key pages, 1 ≤ pages ∧ ∀ page,
        (page < pages → ∃ value,
          valid.item { expert := true, width := 0 } 3 page = .ok ⟨key, value, pages⟩) ∧
        (pages ≤ page →
          valid.item { expert := true, width := 0 } 3 page = .error .displayPageOutOfRange)) ∧
      valid.item { expert := true, width := 0 } 5 0 = .error .displayIdxOutOfRange := by
  have hAccepts : acceptsItems twoVotes 5 = true := by decide +kernel
  obtain ⟨tx, valid, hParse, hValidate, hSize⟩ := exists_of_acceptsItems hAccepts
  obtain ⟨items, hItems⟩ := item_of_validate hParse hValidate
  obtain ⟨hDefault, _⟩ := hItems {} rfl
  rw [hDefault] at hSize
  obtain rfl := Except.ok.inj hSize
  obtain ⟨hCount, hShown⟩ := hItems { expert := true, width := 0 } rfl
  exact ⟨tx, valid, hParse, hValidate, hCount, (hShown 3).2 (by decide),
    (hShown 5).1 (Nat.le_refl 5) 0⟩

end Transaction

end SignReview
