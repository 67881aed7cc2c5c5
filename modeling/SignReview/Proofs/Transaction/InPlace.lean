import SignReview.Proofs.Amount.Pages
import SignReview.Proofs.Screen.Pages
import SignReview.Proofs.Transaction.Paths
import SignReview.Proofs.Transaction.Screens
import SignReview.Proofs.Turning

/-!
# Items written over each other

`Transaction.item` lays out all texts of an item and takes a page of them.  Where there is room for
one page only, it is written in the place of the one shown before: of an amount by going through its
coins once, and of any other text by a turn that is reckoned in words.

* `Writer.Shows`: a writer shows an item, and leaves the page shown where there is none.
* `Transaction.Writes`: the writers of the items, `Transaction.Writes.shows`: what they show.
* `Transaction.exists_writes`: there is one for each item of a transaction that has been validated.
-/

namespace SignReview

open Json

/-- Whatever page is shown, the writer replaces it by that of the item and answers how many pages
there are.  Where there is no item it fails for the same reason and leaves the page. -/
structure Writer.Shows (writer : Writer Nat) (key : Bytes) (outcome : Except Error Item) :
    Prop where
  of_ok : ∀ item, outcome = .ok item →
    item.key = key ∧ ∀ shown, writer.run shown = .ok item.pages item.value
  of_error : ∀ e, outcome = .error e → ∀ shown, writer.run shown = .error e shown

namespace Writer.Shows

theorem throw (key : Bytes) (e : Error) : Shows (throw e) key (.error e) where
  of_ok _ h := by cases h
  of_error _ h _ := by
    cases h
    rfl

/-- What fails in front of the writer is not shown either. -/
theorem bind {α : Type} {key : Bytes} {next : α → Writer Nat} {outcome : α → Except Error Item}
    (h : ∀ a, (next a).Shows key (outcome a)) (first : Except Error α) :
    Shows (MonadExcept.ofExcept first >>= next) key (first >>= outcome) := by
  cases first with
  | error e => exact throw key e
  | ok a =>
    rw [ofExcept_ok_bind, ok_bind]
    exact h a

theorem write (entry : Entry) (width page : Nat) :
    Shows (Page.write entry.texts width page) entry.key (entry.item width page) := by
  rw [Page.write, Entry.item]
  refine bind (fun found => ⟨fun item hItem => ?_, fun e hNone => ?_⟩) _
  · obtain rfl := Except.ok.inj hItem
    exact ⟨rfl, fun shown => rfl⟩
  · cases hNone

/-- Of an entry with one text a page can be shown in words.  The width asked for is one of those
that are used, and so it is a word. -/
theorem turn {text : Bytes} (hText : text.length + Page.maxWidth < UInt64.size) (key : Bytes)
    {width : Nat} {page : UInt64} {turn : Writer UInt64}
    (hTurn : Page.turn? text (.ofNat (Page.clamp width)) page = some turn) :
    Shows (UInt64.toNat <$> turn) key (Entry.item ⟨key, [text]⟩ width page.toNat) := by
  have hWidth : (UInt64.ofNat (Page.clamp width)).toNat = Page.clamp width := by
    have hMax := Page.clamp_le width
    exact UInt64.toNat_ofNat_of_lt' (Nat.lt_of_le_of_lt hMax (by decide))
  obtain ⟨_, hSame, hWrite⟩ := Page.exists_turn? hText (.ofNat (Page.clamp width)) page
  obtain rfl := Option.some.inj (hSame.symm.trans hTurn)
  rw [hWrite, hWidth, Page.write_clamp]
  exact write ⟨key, [text]⟩ width page.toNat

end Writer.Shows

/-! ### How long the texts are -/

theorem Label.length_le_of_ofValue? {value label : Bytes} (h : ofValue? value = some label) :
    label.length ≤ 24 := by
  have hAll : ∀ entry ∈ values, (Bytes.ofString entry.2).length ≤ 24 := by decide
  obtain ⟨entry, hEntry, _, rfl⟩ := exists_of_find? h
  exact hAll entry hEntry

theorem Json.Document.length_slice_le {doc : Document} {i : Nat} {bytes : Bytes}
    (h : doc.slice i = .ok bytes) : bytes.length ≤ doc.bytes.size := by
  obtain ⟨token, _, h⟩ := bind_eq_ok_iff.mp h
  split at h
  · obtain rfl := Except.ok.inj h
    rw [Array.length_toList, Array.size_extract]
    omega
  · cases h

theorem Json.Document.size_le_of_parse {text : Bytes} {limits : Limits} {doc : Document}
    (h : Document.parse text limits = .ok doc) : doc.bytes.size ≤ Limits.maxPosition := by
  obtain ⟨_, _, _, hBytes, _⟩ := exists_parsed h
  rw [← Array.length_toList, hBytes]
  exact Nat.le_trans (length_le_of_parse h) (Nat.min_le_right _ _)

theorem SignDoc.length_tokenText_le {doc : Document} {i : Nat} {text : Bytes}
    (h : tokenText doc i = .ok text) : text.length ≤ max doc.bytes.size 24 := by
  obtain ⟨bytes, hBytes, h⟩ := bind_eq_ok_iff.mp h
  obtain rfl := Except.ok.inj h
  cases hLabel : Label.ofValue? bytes with
  | none => exact Nat.le_trans (Document.length_slice_le hBytes) (Nat.le_max_left _ _)
  | some label => exact Nat.le_trans (Label.length_le_of_ofValue? hLabel) (Nat.le_max_right _ _)

/-- A screen within its bounds is laid out as one text, for which there is room. -/
theorem Screen.Fits.exists_entry {screen : Screen} (h : screen.Fits) (width : Nat) :
    ∃ key text, screen.entry width = .ok ⟨key, [text]⟩ ∧ text.length ≤ textCapacity := by
  obtain ⟨key, text, hLaidOut, hUntitled, hTitled⟩ := screen.exists_laidOut width
  refine ⟨key, text, (entry_eq h width).trans (congrArg _ hLaidOut), ?_⟩
  have hContent := h.length_expand_le
  have hCapacity : textCapacity = 4096 := rfl
  cases hTitle : screen.title with
  | none =>
    have hIndent : screen.indent ≤ 61 := h.indent_le
    rw [(hUntitled hTitle).2, List.length_append, length_marks]
    omega
  | some title =>
    have hPlace := hTitled title hTitle
    by_cases hMoves : screen.movesTitle title (Ascii.expand screen.content).length width = true
    · have hSize : (Bytes.ofString title).length ≤ 40 := h.title_le title hTitle
      have hColon : (Bytes.ofString ": ").length = 2 := by decide
      rw [if_pos hMoves] at hPlace
      rw [hPlace.2, List.length_append, List.length_append]
      omega
    · rw [if_neg hMoves] at hPlace
      rw [hPlace.2]
      omega

namespace Transaction

/-- The writer puts page `page` of item `n` in the place of the page shown, under the key. -/
inductive Writes (context : Context) (n : Nat) (page : UInt64) :
    Transaction → Bytes → Writer Nat → Prop
  /-- The coins of an amount are gone through. -/
  | amount {doc : Document} {listing : Listing} {leaf : Leaf}
      (hLeaf : listing.leaf doc n = .ok leaf) (hAmount : Label.isAmount leaf.path.bytes = true) :
      Writes context n page (.json doc (some listing))
        ((Label.ofPath? leaf.path.bytes).getD leaf.path.bytes)
        (Coin.writePage doc (if context.expert then none else SignDoc.chain? doc context.chains)
          leaf.token context.width page.toNat)
  /-- The text of another value is turned to the page. -/
  | token {doc : Document} {listing : Listing} {leaf : Leaf} {text : Bytes} {turn : Writer UInt64}
      (hLeaf : listing.leaf doc n = .ok leaf) (hAmount : Label.isAmount leaf.path.bytes = false)
      (hToken : SignDoc.tokenText doc leaf.token = .ok text)
      (hText : text.length + Page.maxWidth < UInt64.size)
      (hTurn : Page.turn? text (.ofNat (Page.clamp context.width)) page = some turn) :
      Writes context n page (.json doc (some listing))
        ((Label.ofPath? leaf.path.bytes).getD leaf.path.bytes) (UInt64.toNat <$> turn)
  /-- So is the text that a screen has been laid out as. -/
  | screen {list : ScreenList} {screen : Screen} {key text : Bytes} {turn : Writer UInt64}
      (hScreen : list.screen context.expert n = .ok screen)
      (hRefused : ScreenList.isRefused screen = false)
      (hEntry : screen.entry (Page.clamp context.width) = .ok ⟨key, [text]⟩)
      (hText : text.length + Page.maxWidth < UInt64.size)
      (hTurn : Page.turn? text (.ofNat (Page.clamp context.width)) page = some turn) :
      Writes context n page (.textual list true) key (UInt64.toNat <$> turn)

variable {context : Context} {n : Nat} {page : UInt64} {tx : Transaction} {key : Bytes}
  {writer : Writer Nat}

/-- What is written is what `Transaction.item` answers, errors of amounts and of pages included. -/
theorem Writes.shows (h : Writes context n page tx key writer) :
    writer.Shows key (tx.item context n page.toNat) := by
  cases h with
  | @amount doc listing leaf hLeaf hAmount =>
    have hItem : item (.json doc (some listing)) context n page.toNat =
        Coin.texts doc (if context.expert then none else SignDoc.chain? doc context.chains)
            leaf.token >>= fun texts =>
          Entry.item ⟨(Label.ofPath? leaf.path.bytes).getD leaf.path.bytes, texts⟩ context.width
            page.toNat := by
      rw [item, entry, SignDoc.entry, hLeaf, ok_bind, SignDoc.leafEntry, if_pos hAmount]
      exact bind_assoc _ _ _
    rw [hItem, Coin.writePage_eq]
    exact Writer.Shows.bind (fun texts => Writer.Shows.write ⟨_, texts⟩ _ _) _
  | @token doc listing leaf text turn hLeaf hAmount hToken hText hTurn =>
    have hEntry : entry (.json doc (some listing)) context n =
        .ok ⟨(Label.ofPath? leaf.path.bytes).getD leaf.path.bytes, [text]⟩ := by
      rw [entry, SignDoc.entry, hLeaf, ok_bind, SignDoc.leafEntry, hAmount, hToken]
      rfl
    rw [item, hEntry, ok_bind]
    exact Writer.Shows.turn hText _ hTurn
  | @screen list screen key text turn hScreen hRefused hEntry hText hTurn =>
    have hShown : entry (.textual list true) context n = .ok ⟨key, [text]⟩ := by
      rw [entry, ScreenList.entry, hScreen, ok_bind, hRefused]
      exact hEntry
    rw [item, hShown, ok_bind]
    exact Writer.Shows.turn hText key hTurn

/-! ### There is a writer for each item -/

theorem exists_writes_json {bytes : Bytes} {limits : Limits} {doc : Document} {listing : Listing}
    {validated : Context} (hDoc : Document.parse bytes limits = .ok doc)
    (hCheck : SignDoc.check doc validated = .ok listing) (hn : n < listing.size)
    (context : Context) (page : UInt64) :
    ∃ key writer, Writes context n page (.json doc (some listing)) key writer := by
  obtain ⟨found, hFound, _⟩ := @SignDoc.exists_entry doc validated listing hCheck validated rfl n hn
  obtain ⟨leaf, hLeaf, hFound⟩ := bind_eq_ok_iff.mp hFound
  cases hAmount : Label.isAmount leaf.path.bytes with
  | true => exact ⟨_, _, .amount hLeaf hAmount⟩
  | false =>
    rw [SignDoc.leafEntry, hAmount] at hFound
    obtain ⟨text, hToken, _⟩ := bind_eq_ok_iff.mp hFound
    have hText : text.length + Page.maxWidth < UInt64.size := by
      have hLength := SignDoc.length_tokenText_le hToken
      have hSize := Document.size_le_of_parse hDoc
      have hWidth : Page.maxWidth = 128 := rfl
      have hWords : UInt64.size = 0x10000000000000000 := rfl
      have hMost : Limits.maxPosition = 0xffffffff := rfl
      omega
    obtain ⟨turn, hTurn, _⟩ := Page.exists_turn? hText (.ofNat (Page.clamp context.width)) page
    exact ⟨_, _, .token hLeaf hAmount hToken hText hTurn⟩

theorem exists_writes_textual {list : ScreenList} {screens : List Screen}
    (hHolds : list.Holds screens) (hAll : ∀ screen ∈ screens, ¬ScreenList.Refused screen)
    (context : Context) (hn : n < list.size context.expert) (page : UInt64) :
    ∃ key writer, Writes context n page (.textual list true) key writer := by
  rw [hHolds.size_eq] at hn
  obtain ⟨screen, hShown⟩ : ∃ screen, (ScreenList.shown screens context.expert)[n]? = some screen :=
    ⟨_, List.getElem?_eq_getElem hn⟩
  have hMem := ScreenList.shown_subset screens context.expert (List.mem_of_getElem? hShown)
  have hScreen : list.screen context.expert n = .ok screen := by
    rw [hHolds.screen_eq, hShown]
  have hFits := hHolds.fits screen hMem
  have hRefused := mt ScreenList.isRefused_iff.mp (hAll screen hMem)
  obtain ⟨key, text, hEntry, hLength⟩ := hFits.exists_entry (Page.clamp context.width)
  have hText : text.length + Page.maxWidth < UInt64.size :=
    Nat.lt_of_le_of_lt (Nat.add_le_add_right hLength _) (by decide)
  obtain ⟨turn, hTurn, _⟩ := Page.exists_turn? hText (.ofNat (Page.clamp context.width)) page
  exact ⟨_, _, .screen hScreen (Bool.eq_false_iff.mpr hRefused) hEntry hText hTurn⟩

/-- Each item of a transaction that has been validated can be written page by page over whatever is
shown, in both modes, at any width and with any chains. -/
theorem exists_writes {form : Form} {bytes : Bytes} {limits : Limits} {context : Context}
    {tx valid : Transaction} (hParse : parse form bytes limits = .ok tx)
    (hValidate : tx.validate context = (.ok (), valid)) (context' : Context) {items n : Nat}
    (hSize : valid.size context' = .ok items) (hn : n < items) (page : UInt64) :
    ∃ key writer, Writes context' n page valid key writer ∧
      writer.Shows key (valid.item context' n page.toNat) := by
  have hWriter : ∃ key writer, Writes context' n page valid key writer := by
    cases form with
    | json =>
      obtain ⟨doc, hDoc, rfl⟩ := parse_json hParse
      obtain ⟨listing, hCheck, rfl⟩ := validate_json hValidate
      obtain rfl := Except.ok.inj hSize
      exact exists_writes_json hDoc hCheck hn context' page
    | textual =>
      obtain ⟨list, hList, rfl⟩ := parse_textual hParse
      obtain ⟨_, screens, _, _, hHolds⟩ := ScreenList.exists_holds hList
      have hAll := not_refused_of_validate hHolds (congrArg Prod.fst hValidate)
      rw [validate, ScreenList.check_of_accepted hHolds hAll] at hValidate
      cases hValidate
      obtain rfl := Except.ok.inj hSize
      exact exists_writes_textual hHolds hAll context' hn page
  obtain ⟨key, writer, hWrites⟩ := hWriter
  exact ⟨key, writer, hWrites, hWrites.shows⟩

end Transaction

end SignReview
