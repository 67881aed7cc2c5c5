import SignReview.Amount.Pages
import SignReview.Proofs.Amount.Coins
import SignReview.Proofs.Json.Subtree
import SignReview.Proofs.Paging

/-!
# Pages of coins

`Coin.writePage` goes through a list of coins once, counts pages, and keeps one text.  What it shows
is an entry of the list of all pages of all coins, as if they had been laid out one behind the other
before one is taken.

* `Coin.Scan.Finds`: what is known of the coins so far, `Coin.Scan.Finds.observe`: it is kept from
  coin to coin, `Coin.Scan.Finds.foldl`: and so for any number of them.
* `Coin.writePage_eq`: the pages are those of the texts of the coins.
* `Coin.run_writePage_of_parse`: a list of coins of a document that has been accepted.
-/

namespace SignReview

namespace Coin

/-! ### Going through a list -/

namespace Scan

variable {width page : Nat} {texts : List Bytes} {scan : Scan}

/-- The pages of the texts have been counted, and the text with page `page` is kept if it is one of
them. -/
structure Finds (width page : Nat) (texts : List Bytes) (scan : Scan) : Prop where
  pages_eq : scan.pages = (texts.flatMap (Page.chunks width)).length
  of_none : scan.selected = none → scan.pages ≤ page
  of_some : ∀ text n, scan.selected = some (text, n) → ∃ bytes,
    (Page.chunks width text)[n]? = some bytes ∧
      (texts.flatMap (Page.chunks width))[page]? = some bytes

theorem Finds.empty (width page : Nat) : Finds width page [] {} where
  pages_eq := rfl
  of_none _ := Nat.zero_le page
  of_some _ _ h := by cases h

/-- Another text does not change what has been found.  It is the one looked for if the page is not
among those in front of it and behind them by less than it has pages. -/
theorem Finds.observe (h : Finds width page texts scan) (hWidth : 0 < width) (text : Bytes) :
    Finds width page (texts ++ [text]) (scan.observe width page text) := by
  have hPages : scan.pages + Page.count text.length width =
      ((texts ++ [text]).flatMap (Page.chunks width)).length := by
    rw [List.flatMap_append, List.length_append, ← h.pages_eq, List.flatMap_singleton,
      Page.length_chunks hWidth]
  rw [Scan.observe]
  cases hSelected : scan.selected with
  | some found =>
    refine ⟨hPages, fun hNone => (by cases hNone), fun other n hOther => ?_⟩
    obtain ⟨bytes, hChunk, hEntry⟩ := h.of_some other n (hSelected.trans hOther)
    obtain ⟨hLess, _⟩ := List.getElem?_eq_some_iff.mp hEntry
    exact ⟨bytes, hChunk, by rw [List.flatMap_append, List.getElem?_append_left hLess, hEntry]⟩
  | none =>
    have hBehind := h.of_none hSelected
    by_cases hLess : page < scan.pages + Page.count text.length width
    · have hInside : page - scan.pages < (Page.chunks width text).length := by
        rw [Page.length_chunks hWidth]
        omega
      rw [if_pos hLess]
      refine ⟨hPages, fun hNone => (by cases hNone), fun other n hOther => ?_⟩
      cases hOther
      refine ⟨_, List.getElem?_eq_getElem hInside, ?_⟩
      rw [List.flatMap_append, List.flatMap_singleton,
        List.getElem?_append_right (h.pages_eq ▸ hBehind), ← h.pages_eq,
        List.getElem?_eq_getElem hInside]
    · rw [if_neg hLess]
      exact ⟨hPages, fun _ => Nat.le_of_not_lt hLess, fun _ _ hNone => (by cases hNone)⟩

/-- So it goes for all texts of a list. -/
theorem Finds.foldl (h : Finds width page texts scan) (hWidth : 0 < width) (others : List Bytes) :
    Finds width page (texts ++ others) (others.foldl (Scan.observe width page) scan) := by
  induction others generalizing texts scan with
  | nil =>
    rw [List.append_nil]
    exact h
  | cons text others ih =>
    rw [List.foldl_cons, List.append_cons]
    exact ih (h.observe hWidth text)

end Scan

/-- All coins are read before the page is looked for, or none where one of them can not be read. -/
theorem scan_eq (doc : Json.Document) (chain : Option Chain) (coins : List Nat)
    (width page : Nat) :
    scan doc chain coins width page =
      coins.mapM (text doc chain) >>= fun texts =>
        .ok (texts.foldl (Scan.observe width page) {}) :=
  foldlM_eq_mapM_bind _ _ coins _

/-- What is shown in the end is the page asked for. -/
theorem Scan.Finds.run_write {width page : Nat} {texts : List Bytes} {scan : Scan}
    (h : Scan.Finds (Page.clamp width) page texts scan) (shown : Bytes) :
    (scan.write (Page.clamp width)).run shown =
      Page.turnTo (texts.flatMap (Page.chunks (Page.clamp width))) page shown := by
  rw [Scan.write]
  cases hSelected : scan.selected with
  | none =>
    rw [Page.turnTo_of_le (h.pages_eq ▸ h.of_none hSelected)]
    rfl
  | some found =>
    obtain ⟨text, n⟩ := found
    obtain ⟨bytes, hChunk, hEntry⟩ := h.of_some text n hSelected
    have hWrite := Page.run_write [text] (Page.clamp width) n shown
    rw [Page.clamp_clamp, List.flatMap_singleton, Page.turnTo, hChunk] at hWrite
    rw [Page.turnTo, hEntry, ← h.pages_eq]
    dsimp only
    rw [EStateM.run_bind, hWrite]
    rfl

theorem run_scan_write (doc : Json.Document) (chain : Option Chain) {coins : List Nat}
    {texts : List Bytes} (hTexts : coins.mapM (text doc chain) = .ok texts) (width page : Nat)
    (shown : Bytes) :
    ∃ found, scan doc chain coins (Page.clamp width) page = .ok found ∧
      (found.pages = 0 ↔ texts = []) ∧
      (found.write (Page.clamp width)).run shown =
        Page.turnTo (texts.flatMap (Page.chunks (Page.clamp width))) page shown := by
  have hFinds := (Scan.Finds.empty (Page.clamp width) page).foldl (Page.clamp_pos width) texts
  rw [List.nil_append] at hFinds
  refine ⟨_, by rw [scan_eq, hTexts, ok_bind], ?_, hFinds.run_write shown⟩
  rw [hFinds.pages_eq, ← Page.total_eq (Page.clamp_pos width)]
  constructor
  · intro hNone
    by_contra hSome
    have := Page.total_pos hSome (Page.clamp width)
    omega
  · rintro rfl
    rfl

/-- One pass shows what is found among the pages of all texts. -/
theorem writePage_eq (doc : Json.Document) (chain : Option Chain) (index width page : Nat) :
    writePage doc chain index width page =
      MonadExcept.ofExcept (texts doc chain index) >>= fun texts =>
        Page.write texts width page := by
  rw [writePage, texts]
  cases doc.token index with
  | error e => rfl
  | ok token =>
    rw [Writer.ofExcept_ok_bind, ok_bind]
    cases token.kind with
    | string => rfl
    | primitive => rfl
    | object =>
      dsimp only
      cases text doc chain index with
      | error e => rfl
      | ok single => exact Page.write_clamp [single] width page
    | array =>
      dsimp only
      cases doc.children index with
      | error e => rfl
      | ok coins =>
        rw [Writer.ofExcept_ok_bind, ok_bind]
        cases hTexts : coins.mapM (text doc chain) with
        | error e =>
          rw [scan_eq, hTexts, error_bind]
          rfl
        | ok texts =>
          funext shown
          obtain ⟨found, hFound, hEmpty, hWrite⟩ := run_scan_write doc chain hTexts width page shown
          rw [hFound, ok_bind, Writer.ofExcept_ok_bind]
          cases texts with
          | nil =>
            rw [if_pos (hEmpty.mpr rfl), Page.write_clamp]
            rfl
          | cons text texts =>
            rw [if_neg (hEmpty.not.mpr (List.cons_ne_nil _ _))]
            exact hWrite.trans (Page.run_write _ width page shown).symm

/-! ### What is shown -/

variable {doc : Json.Document} {chain : Option Chain} {index : Nat}

theorem run_writePage_of_ok {found : List Bytes} (h : texts doc chain index = .ok found)
    (width page : Nat) (shown : Bytes) :
    (writePage doc chain index width page).run shown =
      Page.turnTo (found.flatMap (Page.chunks (Page.clamp width))) page shown := by
  rw [writePage_eq, h, Writer.ofExcept_ok_bind, Page.run_write]

theorem run_writePage_of_error {e : Error} (h : texts doc chain index = .error e)
    (width page : Nat) (shown : Bytes) :
    (writePage doc chain index width page).run shown = .error e shown := by
  rw [writePage_eq, h, Writer.ofExcept_error_bind]
  rfl

/-- Where no page is shown, the one shown before stays. -/
theorem eq_of_run_writePage_eq_error {width page : Nat} {shown after : Bytes} {e : Error}
    (h : (writePage doc chain index width page).run shown = .error e after) : after = shown := by
  cases hTexts : texts doc chain index with
  | error e' =>
    rw [run_writePage_of_error hTexts] at h
    cases h
    rfl
  | ok found =>
    rw [run_writePage_of_ok hTexts] at h
    rcases Nat.lt_or_ge page (found.flatMap (Page.chunks (Page.clamp width))).length with
      hLess | hPast
    · rw [Page.turnTo_of_lt hLess] at h
      cases h
    · rw [Page.turnTo_of_le hPast] at h
      cases h
      rfl

/-- The pages of a coin are those of its text, and the pages of a list of coins those of the texts
of all its coins, or of a text that says that there are none.  One coin that can not be shown is
reported on each page of the list, and other values are refused.  The page shown is replaced only by
another page. -/
theorem run_writePage_of_parse {input : Bytes} {limits : Limits}
    (hParse : Json.Document.parse input limits = .ok doc) {token : Json.Token}
    (hToken : doc.token index = .ok token) (chain : Option Chain) (width page : Nat)
    (shown : Bytes) :
    (token.kind = .string ∨ token.kind = .primitive →
      (writePage doc chain index width page).run shown = .error .unexpectedType shown) ∧
    (token.kind = .object →
      (∀ e, text doc chain index = .error e →
        (writePage doc chain index width page).run shown = .error e shown) ∧
      (∀ single, text doc chain index = .ok single →
        (writePage doc chain index width page).run shown =
          Page.turnTo (Page.chunks (Page.clamp width) single) page shown)) ∧
    (token.kind = .array → ∃ coins elements, doc.children index = .ok coins ∧
      Json.Occurs doc index (.array elements) ∧ List.Forall₂ (Json.Occurs doc) coins elements ∧
      (∀ left coin right e, coins = left ++ coin :: right →
        (∀ other ∈ left, ∃ single, text doc chain other = .ok single) →
        text doc chain coin = .error e →
        (writePage doc chain index width page).run shown = .error e shown) ∧
      (coins = [] → (writePage doc chain index width page).run shown =
        Page.turnTo (Page.chunks (Page.clamp width) emptyText) page shown) ∧
      (∀ found, coins ≠ [] →
        List.Forall₂ (fun coin single => text doc chain coin = .ok single) coins found →
        (writePage doc chain index width page).run shown =
          Page.turnTo (found.flatMap (Page.chunks (Page.clamp width))) page shown)) ∧
    ∀ e after, (writePage doc chain index width page).run shown = .error e after →
      after = shown := by
  obtain ⟨ls, root, hParsed, _⟩ := Json.Document.exists_parsed hParse
  refine ⟨fun hKind => ?leaf, fun hKind => ?coin, fun hKind => ?list,
    fun e after => eq_of_run_writePage_eq_error⟩
  case leaf =>
    refine run_writePage_of_error ?_ width page shown
    rw [texts, hToken, ok_bind]
    rcases hKind with hKind | hKind <;> rw [hKind] <;> rfl
  case coin =>
    have hTexts : texts doc chain index = text doc chain index >>= fun single => .ok [single] := by
      rw [texts, hToken, ok_bind, hKind]
      rfl
    refine ⟨fun e hText => run_writePage_of_error ?_ width page shown, fun single hText => ?_⟩
    · rw [hTexts, hText, error_bind]
    · rw [run_writePage_of_ok (hTexts.trans (by rw [hText, ok_bind])), List.flatMap_singleton]
  case list =>
    obtain ⟨tree, hTree⟩ := hParsed.exists_occurs hToken
    obtain ⟨_, hSame, hTreeKind⟩ := hTree.token
    obtain rfl := Except.ok.inj (hToken.symm.trans hSame)
    obtain ⟨elements, rfl⟩ : ∃ elements, tree = .array elements := by
      cases tree with
      | array elements => exact ⟨elements, rfl⟩
      | _ => cases hKind.symm.trans hTreeKind
    have hCoins := hTree.children_eq
    have hTexts := texts_of_array hToken hKind hCoins chain
    refine ⟨_, elements, hCoins, hTree, hTree.elements.2, ?bad, ?empty, ?all⟩
    case bad =>
      intro left coin right e hSplit hLeft hCoin
      refine run_writePage_of_error (hTexts.trans ?_) width page shown
      rw [hSplit, mapM_eq_error hLeft hCoin, error_bind]
    case empty =>
      intro hNone
      rw [hNone, List.mapM_nil] at hTexts
      rw [run_writePage_of_ok hTexts]
      exact congrArg (fun pages => Page.turnTo pages page shown) (List.flatMap_singleton ..)
    case all =>
      intro found hSome hFound
      rw [mapM_eq_ok hFound fun _ _ _ hText => hText, ok_bind] at hTexts
      have hTaken : found ≠ [] := by
        rintro rfl
        exact hSome (List.forall₂_nil_right_iff.mp hFound)
      rw [run_writePage_of_ok hTexts, if_neg hTaken]

end Coin

/-- Two coins; on pages of three octets the first takes one and the second takes two. -/
def twoCoins : Bytes :=
  Bytes.ofString
    "[\x7b\"amount\":\"5\",\"denom\":\"a\"\x7d,\x7b\"amount\":\"1234\",\"denom\":\"b\"\x7d]"

theorem run_writePage_of_parse_twoCoins :
    ∃ doc, Json.Document.parse twoCoins {} = .ok doc ∧
      (Coin.writePage doc none 0 3 1).run (Bytes.ofString "5 a") = .ok 3 (Bytes.ofString "123") ∧
      (Coin.writePage doc none 0 3 3).run (Bytes.ofString "4 b") =
        .error .displayPageOutOfRange (Bytes.ofString "4 b") := by
  have hRead : ((Json.Document.parse twoCoins {}).toOption.map fun doc =>
      ((doc.token 0).toOption.map Json.Token.kind, (doc.children 0).toOption,
        (Coin.text doc none 1).toOption, (Coin.text doc none 6).toOption)) =
        some (some .array, some [1, 6], some (Bytes.ofString "5 a"),
          some (Bytes.ofString "1234 b")) := by decide +kernel
  obtain ⟨doc, hParse, hRead⟩ := Option.map_eq_some_iff.mp hRead
  obtain ⟨hArray, hRead⟩ := Prod.mk.inj hRead
  obtain ⟨hCoins, hRead⟩ := Prod.mk.inj hRead
  obtain ⟨hFirst, hSecond⟩ := Prod.mk.inj hRead
  obtain ⟨list, hList, hKind⟩ := Option.map_eq_some_iff.mp hArray
  rw [toOption_eq_some_iff] at hParse hList hCoins hFirst hSecond
  have hPages : ([Bytes.ofString "5 a", Bytes.ofString "1234 b"].flatMap
      (Page.chunks (Page.clamp 3))) =
        [Bytes.ofString "5 a", Bytes.ofString "123", Bytes.ofString "4 b"] := by
    decide +kernel
  have hRun : ∀ page shown, (Coin.writePage doc none 0 3 page).run shown =
      Page.turnTo [Bytes.ofString "5 a", Bytes.ofString "123", Bytes.ofString "4 b"] page shown := by
    intro page shown
    obtain ⟨_, _, hElements, _⟩ := Coin.run_writePage_of_parse hParse hList none 3 page shown
    obtain ⟨coins, _, hFound, _, _, _, _, hAll⟩ := hElements hKind
    obtain rfl := Except.ok.inj (hFound.symm.trans hCoins)
    rw [← hPages]
    exact hAll _ (List.cons_ne_nil _ _) (.cons hFirst (.cons hSecond .nil))
  exact ⟨doc, hParse, hRun 1 _, hRun 3 _⟩

end SignReview
