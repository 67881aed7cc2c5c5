import SignReview.Proofs.Paging
import SignReview.Proofs.Screen.Layout

/-!
# The pages of a screen

Whatever the width, the pages of a screen are one text cut into pieces, and the key is the same on
all of them.  Nothing of title, content and indent is lost: the title is in the key or in front of
the content, and the indent is in the key, or in front of the content where there is no title.

* `Item.Pages`: the pages that there are under a key, `Entry.exists_pages_of_text`: those of an
  entry with one text.
* `Screen.TitleInKey`, `Screen.TitleInText`: the two places of a title, `Screen.movesTitle_iff`:
  when it moves.
* `Screen.Fits.item_pages`: the pages of a screen within its bounds.
-/

namespace SignReview

/-! ### Pages of one text -/

/-- The pages that can be asked for are these values under the key, and there are no others. -/
structure Item.Pages (item : Nat → Except Error Item) (key : Bytes) (values : List Bytes) :
    Prop where
  item_eq : ∀ page (hPage : page < values.length),
    item page = .ok ⟨key, values[page], values.length⟩
  out_of_range : ∀ page, values.length ≤ page → item page = .error .displayPageOutOfRange

theorem Item.Pages.ne_overflow {item : Nat → Except Error Item} {key : Bytes}
    {values : List Bytes} (h : Item.Pages item key values) (page : Nat) :
    item page ≠ .error .bufferOverflow := by
  intro hOverflow
  rcases Nat.lt_or_ge page values.length with hPage | hPage
  · rw [h.item_eq page hPage] at hOverflow
    cases hOverflow
  · rw [h.out_of_range page hPage] at hOverflow
    cases hOverflow

theorem Entry.exists_pages_of_text (key text : Bytes) (width : Nat) :
    ∃ values, Page.Cuts text (Page.clamp width) values ∧
      Item.Pages (Entry.item ⟨key, [text]⟩ width) key values := by
  have hValues : [text].flatMap (Page.chunks (Page.clamp width)) =
      Page.chunks (Page.clamp width) text := List.flatMap_singleton _ _
  refine ⟨_, Page.cuts_chunks (Page.clamp_pos width) text, fun page hPage => ?_, ?_⟩
  · rw [item, Page.find_eq, hValues, List.getElem?_eq_getElem hPage]
    rfl
  · intro page hPage
    rw [item, Page.find_eq, hValues, List.getElem?_eq_none hPage]
    rfl

namespace Screen

/-! ### Titles -/

/-- The title stands in the key, behind the marks of the indent. -/
def TitleInKey (screen : Screen) (title : String) (key text : Bytes) : Prop :=
  key = marks screen.indent ++ Bytes.ofString title ∧ text = Ascii.expand screen.content

/-- The title stands in front of the content, and the key has only marks and dashes. -/
def TitleInText (screen : Screen) (title : String) (key text : Bytes) : Prop :=
  key = marks screen.indent ++ Bytes.ofString "---" ∧
    text = Bytes.ofString title ++ Bytes.ofString ": " ++ Ascii.expand screen.content

variable {screen : Screen}

theorem TitleInKey.not_inText {title : String} {key text : Bytes}
    (h : screen.TitleInKey title key text) : ¬screen.TitleInText title key text := by
  intro hText
  have hLength := congrArg List.length (h.2.symm.trans hText.2)
  have hColon : (Bytes.ofString ": ").length = 2 := by decide
  rw [List.length_append, List.length_append, hColon] at hLength
  omega

/-- A title moves if key and indent are too long, or if they are rather long and the content takes
several pages. -/
theorem movesTitle_iff {title : String} {content width : Nat} (hWidth : width ≤ 128) :
    screen.movesTitle title content width = true ↔
      17 < screen.indent + title.utf8ByteSize ∨
        10 < screen.indent + title.utf8ByteSize ∧
          1 < max 1 (content ⌈/⌉ Page.clamp width) := by
  have hCount : Page.count content width = Page.count content (Page.clamp width) := by
    have hMax : max (Page.clamp width) 1 = max width 1 := by
      rw [Page.clamp, Page.maxWidth]
      omega
    rw [Page.count, Page.count, hMax]
  rw [movesTitle, Bool.or_eq_true, Bool.and_eq_true, decide_eq_true_eq, decide_eq_true_eq,
    decide_eq_true_eq, hCount, Page.count_eq_ceilDiv (Page.clamp_pos width),
    and_comm (a := 1 < _)]
  rfl

theorem exists_laidOut (screen : Screen) (width : Nat) :
    ∃ key text, screen.laidOut width = ⟨key, [text]⟩ ∧
      (screen.title = none →
        key = [0x20] ∧ text = marks screen.indent ++ Ascii.expand screen.content) ∧
      ∀ title, screen.title = some title →
        if screen.movesTitle title (Ascii.expand screen.content).length width then
          screen.TitleInText title key text
        else screen.TitleInKey title key text := by
  rw [laidOut]
  cases screen.title with
  | none => exact ⟨_, _, rfl, fun _ => ⟨rfl, rfl⟩, fun _ hSome => by cases hSome⟩
  | some title =>
    by_cases hMoves : screen.movesTitle title (Ascii.expand screen.content).length width = true
    · refine ⟨_, _, if_pos hMoves, (fun hNone => by cases hNone), ?_⟩
      rintro _ ⟨⟩
      rw [if_pos hMoves]
      exact ⟨rfl, rfl⟩
    · refine ⟨_, _, if_neg hMoves, (fun hNone => by cases hNone), ?_⟩
      rintro _ ⟨⟩
      rw [if_neg hMoves]
      exact ⟨rfl, rfl⟩

/-- Of a screen within its bounds nothing is lost.  Key and text are the same for all pages; the
pages are the text, cut up, and no more than it takes.  Without a title, the key is blank and the
text is the content behind the marks of the indent.  A title stands behind the marks in the key, or
it moves in front of the content; on pages of an admissible width it moves just if the key would be
too long. -/
theorem Fits.item_pages (h : screen.Fits) (width : Nat) :
    ∃ key text values, Page.Cuts text (Page.clamp width) values ∧
      Item.Pages (screen.item width) key values ∧
      (∀ page, screen.item width page ≠ .error .bufferOverflow) ∧
      (screen.title = none →
        key = [0x20] ∧ text = marks screen.indent ++ Ascii.expand screen.content) ∧
      ∀ title, screen.title = some title →
        (screen.TitleInKey title key text ∨ screen.TitleInText title key text) ∧
        (width ≤ 128 →
          (screen.TitleInText title key text ↔
            17 < screen.indent + title.utf8ByteSize ∨
              10 < screen.indent + title.utf8ByteSize ∧
                1 < max 1 ((Ascii.expand screen.content).length ⌈/⌉ Page.clamp width))) := by
  obtain ⟨key, text, hLaidOut, hUntitled, hTitled⟩ := screen.exists_laidOut width
  obtain ⟨values, hCuts, hPages⟩ := Entry.exists_pages_of_text key text width
  have hItem : screen.item width = Entry.item ⟨key, [text]⟩ width := by
    funext page
    rw [item, entry_eq h, hLaidOut]
    rfl
  rw [hItem]
  refine ⟨key, text, values, hCuts, hPages, hPages.ne_overflow, hUntitled, fun title hTitle => ?_⟩
  have hPlace := hTitled title hTitle
  by_cases hMoves : screen.movesTitle title (Ascii.expand screen.content).length width = true
  · rw [if_pos hMoves] at hPlace
    exact ⟨Or.inr hPlace, fun hWidth => iff_of_true hPlace ((movesTitle_iff hWidth).mp hMoves)⟩
  · rw [if_neg hMoves] at hPlace
    exact ⟨Or.inl hPlace, fun hWidth =>
      iff_of_false hPlace.not_inText (mt (movesTitle_iff hWidth).mpr hMoves)⟩

/-- A title that with its indent is too long for a content of two pages. -/
def recipient : Screen := { title := some "Recipient", content := "cosmos1abc", indent := 2 }

theorem item_pages_recipient :
    recipient.Fits ∧ ∃ values, values.length = 5 ∧
      values.flatten = Bytes.ofString "Recipient: cosmos1abc" ∧
      Item.Pages (recipient.item 5) (Bytes.ofString ">>---") values := by
  have hFits : recipient.Fits := by
    refine ⟨fun title hTitle => ?_, by decide, by decide⟩
    obtain rfl : "Recipient" = title := Option.some.inj hTitle
    decide
  obtain ⟨key, text, values, hCuts, hPages, _, _, hTitled⟩ := Fits.item_pages hFits 5
  have hMoved : recipient.TitleInText "Recipient" key text :=
    ((hTitled "Recipient" rfl).2 (by decide)).mpr (Or.inr ⟨by decide, by decide⟩)
  have hText : text = Bytes.ofString "Recipient: cosmos1abc" := hMoved.2.trans (by decide)
  have hKey : key = Bytes.ofString ">>---" := hMoved.1.trans (by decide)
  refine ⟨hFits, values, ?_, hCuts.flatten_eq.trans hText, hKey ▸ hPages⟩
  rw [hCuts.count_eq, hText]
  decide

end Screen

end SignReview
