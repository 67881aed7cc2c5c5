import SignReview.Proofs.Screen.Pages

/-!
# Widths beyond those of a page

A page has from 1 to 128 octets, and where another width is asked for, the nearest of these is
taken.  Whether a content takes several pages, however, is asked before that.  At a width of more
than 128 octets a content may so be taken for one page and still be shown on several, with a title
in the key that is too long for that.

* `Screen.Misjudged`: the screens for which this happens.
* `Screen.movesTitle_clamp`: the place of the title of all others.
* `Screen.item_clamp_iff`: a width is as good as the nearest that a page may have for these others,
  and only for them.
-/

namespace SignReview

theorem Item.Pages.unique {item : Nat → Except Error Item} {key key' : Bytes}
    {values values' : List Bytes} (h : Item.Pages item key values)
    (h' : Item.Pages item key' values') (hSome : 0 < values.length) :
    key = key' ∧ values = values' := by
  have hFirst : 0 < values'.length := by
    refine Nat.pos_of_ne_zero fun hNone => ?_
    have hPage := h.item_eq 0 hSome
    rw [h'.out_of_range 0 (Nat.le_of_eq hNone)] at hPage
    cases hPage
  have hSame : ∀ page (hPage : page < values.length) (hPage' : page < values'.length),
      (⟨key, values[page], values.length⟩ : Item) = ⟨key', values'[page], values'.length⟩ :=
    fun page hPage hPage' =>
      Except.ok.inj ((h.item_eq page hPage).symm.trans (h'.item_eq page hPage'))
  refine ⟨congrArg Item.key (hSame 0 hSome hFirst),
    List.ext_getElem (congrArg Item.pages (hSame 0 hSome hFirst)) fun page hPage hPage' => ?_⟩
  exact congrArg Item.value (hSame page hPage hPage')

theorem Ascii.text_write_eq_ok_iff {capacity : Nat} {text : String} {bytes : Bytes} :
    (write capacity text).text = .ok bytes ↔
      (expand text).length ≤ capacity ∧ bytes = expand text := Writer.text_append_eq_ok_iff

namespace Screen

variable {screen : Screen} {width : Nat}

/-! ### Layouts -/

theorem movesTitle_eq_true_iff {title : String} {content : Nat} :
    screen.movesTitle title content width = true ↔
      17 < screen.indent + title.utf8ByteSize ∨
        10 < screen.indent + title.utf8ByteSize ∧ max width 1 < content := by
  rw [movesTitle, Bool.or_eq_true, Bool.and_eq_true, decide_eq_true_eq, decide_eq_true_eq,
    decide_eq_true_eq, Page.one_lt_count_iff, and_comm (a := max width 1 < content)]
  rfl

/-- What is shown of a screen depends on the width only through the place of the title. -/
theorem entry_congr {width' : Nat} (h : ∀ title, screen.title = some title →
      (Ascii.expand screen.content).length ≤ textCapacity →
      screen.movesTitle title (Ascii.expand screen.content).length width =
        screen.movesTitle title (Ascii.expand screen.content).length width') :
    screen.entry width = screen.entry width' := by
  unfold entry
  cases hTitle : screen.title with
  | none => rfl
  | some title =>
    dsimp only
    cases hContent : (Ascii.write textCapacity screen.content).text with
    | error e => rfl
    | ok content =>
      obtain ⟨hRoom, rfl⟩ := Ascii.text_write_eq_ok_iff.mp hContent
      rw [ok_bind, ok_bind]
      exact congrArg (fun moves : Bool => if moves then _ else _) (h title hTitle hRoom)

/-- A screen that can be shown is laid out in the one way that there is, and its content fits. -/
theorem eq_laidOut_of_entry {found : Entry} (h : screen.entry width = .ok found) :
    found = screen.laidOut width ∧ (Ascii.expand screen.content).length ≤ textCapacity := by
  rw [entry] at h
  rw [laidOut]
  cases hTitle : screen.title with
  | none =>
    simp only [hTitle] at h
    obtain ⟨text, hText, h⟩ := bind_eq_ok_iff.mp h
    obtain ⟨_, written, hMarks, hContent⟩ := Writer.run_bind_eq_ok (Writer.text_eq_ok hText)
    obtain ⟨hRoom, rfl⟩ := Writer.run_append_eq_ok_iff.mp hContent
    obtain rfl := Writer.run_append_eq_ok hMarks
    refine ⟨?_, Nat.le_trans hRoom (Nat.sub_le _ _)⟩
    rw [← Except.ok.inj h, List.nil_append, List.flatten_singleton]
    rfl
  | some title =>
    simp only [hTitle] at h
    obtain ⟨content, hContent, h⟩ := bind_eq_ok_iff.mp h
    obtain ⟨hRoom, rfl⟩ := Ascii.text_write_eq_ok_iff.mp hContent
    refine ⟨?_, hRoom⟩
    dsimp only
    split at h
    · rename_i hMoves
      obtain ⟨key, hKey, h⟩ := bind_eq_ok_iff.mp h
      obtain ⟨text, hText, h⟩ := bind_eq_ok_iff.mp h
      obtain ⟨_, rfl⟩ := Writer.text_append_eq_ok_iff.mp hKey
      obtain ⟨_, rfl⟩ := Writer.text_append_eq_ok_iff.mp hText
      rw [if_pos hMoves, ← Except.ok.inj h]
      simp
    · rename_i hStays
      obtain ⟨key, hKey, h⟩ := bind_eq_ok_iff.mp h
      obtain ⟨_, rfl⟩ := Writer.text_append_eq_ok_iff.mp hKey
      rw [if_neg hStays, ← Except.ok.inj h]
      simp

/-! ### Contents on one page that are on several -/

/-- The title is rather long, so that it may stand in the key of a single page only.  The content
takes one page of `width` octets, but several of the widest pages that there are. -/
def Misjudged (screen : Screen) (width : Nat) : Prop :=
  ∃ title, screen.title = some title ∧ 10 < screen.indent + title.utf8ByteSize ∧
    screen.indent + title.utf8ByteSize ≤ 17 ∧ 128 < (Ascii.expand screen.content).length ∧
    (Ascii.expand screen.content).length ≤ width ∧
    (Ascii.expand screen.content).length ≤ textCapacity

/-- Of all others, the title stands where it does at the nearest width that a page may have. -/
theorem movesTitle_clamp (h : ¬screen.Misjudged width) {title : String}
    (hTitle : screen.title = some title)
    (hRoom : (Ascii.expand screen.content).length ≤ textCapacity) :
    screen.movesTitle title (Ascii.expand screen.content).length width =
      screen.movesTitle title (Ascii.expand screen.content).length (Page.clamp width) := by
  rw [Bool.eq_iff_iff, movesTitle_eq_true_iff, movesTitle_eq_true_iff]
  by_contra hDiffer
  refine h ⟨title, hTitle, ?_⟩
  unfold Page.clamp Page.maxWidth at hDiffer
  omega

theorem item_clamp_of_not_misjudged (h : ¬screen.Misjudged width) (page : Nat) :
    screen.item width page = screen.item (Page.clamp width) page := by
  have hEntry : screen.entry width = screen.entry (Page.clamp width) :=
    entry_congr fun title hTitle hRoom => movesTitle_clamp h hTitle hRoom
  rw [item, item, hEntry]
  cases screen.entry (Page.clamp width) with
  | error e => rfl
  | ok found =>
    rw [ok_bind, ok_bind, Entry.item, Entry.item, Page.find, Page.find, Page.clamp_clamp]

theorem exists_pages_of_entry {found : Entry} (h : screen.entry width = .ok found) :
    ∃ key text values, Page.Cuts text (Page.clamp width) values ∧
      Item.Pages (screen.item width) key values ∧
      ∀ title, screen.title = some title →
        if screen.movesTitle title (Ascii.expand screen.content).length width then
          screen.TitleInText title key text
        else screen.TitleInKey title key text := by
  obtain ⟨key, text, hLaidOut, _, hTitled⟩ := screen.exists_laidOut width
  obtain ⟨values, hCuts, hPages⟩ := Entry.exists_pages_of_text key text width
  have hItem : screen.item width = Entry.item ⟨key, [text]⟩ width := by
    funext page
    rw [item, h, (eq_laidOut_of_entry h).1, hLaidOut]
    rfl
  exact ⟨key, text, values, hCuts, hItem ▸ hPages, hTitled⟩

namespace Misjudged

theorem lt_width (h : screen.Misjudged width) : 128 < width := by
  obtain ⟨_, _, _, _, hMany, hOne, _⟩ := h
  omega

theorem clamp_eq (h : screen.Misjudged width) : Page.clamp width = 128 := by
  have hWidth := h.lt_width
  unfold Page.clamp Page.maxWidth
  omega

theorem not_movesTitle (h : screen.Misjudged width) {title : String}
    (hTitle : screen.title = some title) :
    ¬screen.movesTitle title (Ascii.expand screen.content).length width = true := by
  obtain ⟨other, hOther, hLong, hShort, hMany, hOne, _⟩ := h
  obtain rfl := Option.some.inj (hTitle.symm.trans hOther)
  rw [movesTitle_eq_true_iff]
  omega

theorem movesTitle_clamp (h : screen.Misjudged width) {title : String}
    (hTitle : screen.title = some title) :
    screen.movesTitle title (Ascii.expand screen.content).length (Page.clamp width) = true := by
  rw [h.clamp_eq]
  obtain ⟨other, hOther, hLong, hShort, hMany, hOne, _⟩ := h
  obtain rfl := Option.some.inj (hTitle.symm.trans hOther)
  rw [movesTitle_eq_true_iff]
  omega

theorem entry_eq_ok (h : screen.Misjudged width) :
    screen.entry width = .ok (screen.laidOut width) := by
  obtain ⟨title, hTitle, _, _, _, _, hRoom⟩ := id h
  exact entry_of_stays hTitle (Ascii.text_write_eq_ok_iff.mpr ⟨hRoom, rfl⟩)
    (h.not_movesTitle hTitle)

/-- At the nearest width that a page may have, the screen is shown in another way, or not at all. -/
theorem exists_item_ne (h : screen.Misjudged width) :
    ∃ page, screen.item width page ≠ screen.item (Page.clamp width) page := by
  by_contra hNone
  have hSame : screen.item width = screen.item (Page.clamp width) :=
    funext fun page => not_not.mp fun hDiffer => hNone ⟨page, hDiffer⟩
  obtain ⟨title, hTitle, _⟩ := id h
  obtain ⟨key, text, values, hCuts, hPages, hPlace⟩ := exists_pages_of_entry h.entry_eq_ok
  have hSome : 0 < values.length := by
    rw [hCuts.count_eq]
    omega
  -- the first page is shown at either width, so that there is a layout at either width
  have hFirst := hPages.item_eq 0 hSome
  rw [hSame, item] at hFirst
  obtain ⟨found, hFound, _⟩ := bind_eq_ok_iff.mp hFirst
  obtain ⟨key', text', values', hCuts', hPages', hPlace'⟩ := exists_pages_of_entry hFound
  have hInKey := hPlace title hTitle
  have hInText := hPlace' title hTitle
  rw [if_neg (h.not_movesTitle hTitle)] at hInKey
  rw [if_pos (h.movesTitle_clamp hTitle)] at hInText
  obtain ⟨rfl, rfl⟩ := hPages.unique (hSame ▸ hPages') hSome
  rw [← hCuts.flatten_eq] at hInKey
  rw [← hCuts'.flatten_eq] at hInText
  exact hInKey.not_inText hInText

end Misjudged

/-- On several pages, a title that is rather long stands in the key only if the content has been
taken for one page. -/
theorem key_of_pages {title : String} (hTitle : screen.title = some title)
    (hLong : 10 < screen.indent + title.utf8ByteSize) {page : Nat} {found : Item}
    (hItem : screen.item width page = .ok found) (hPages : 1 < found.pages) :
    (screen.Misjudged width → found.key = marks screen.indent ++ Bytes.ofString title) ∧
      (¬screen.Misjudged width → found.key = marks screen.indent ++ Bytes.ofString "---") := by
  obtain ⟨entry, hEntry, _⟩ := bind_eq_ok_iff.mp hItem
  obtain ⟨key, text, values, hCuts, hShown, hPlace⟩ := exists_pages_of_entry hEntry
  have hFound : found.key = key ∧ found.pages = values.length := by
    rcases Nat.lt_or_ge page values.length with hPage | hPage
    · rw [hShown.item_eq page hPage] at hItem
      cases hItem
      exact ⟨rfl, rfl⟩
    · rw [hShown.out_of_range page hPage] at hItem
      cases hItem
  have hText := hPlace title hTitle
  rw [hFound.1]
  refine ⟨fun hMisjudged => ?_, fun hMisjudged => ?_⟩
  · rw [if_neg (hMisjudged.not_movesTitle hTitle)] at hText
    exact hText.1
  · split at hText
    · exact hText.1
    · rename_i hStays
      refine absurd ?_ hMisjudged
      have hMany : Page.clamp width < text.length := by
        rw [hFound.2, hCuts.count_eq, ← Page.count_eq_ceilDiv (Page.clamp_pos width),
          Page.one_lt_count_iff] at hPages
        omega
      rw [hText.2] at hMany
      rw [movesTitle_eq_true_iff] at hStays
      have hRoom := (eq_laidOut_of_entry hEntry).2
      unfold Page.clamp Page.maxWidth at hMany
      exact ⟨title, hTitle, hLong, by omega, by omega, by omega, hRoom⟩

/-- A width is as good as the nearest that a page may have, but for the screens that are misjudged
at it, of which there are none at a width of up to 128 octets.  On several pages, the key has a
title that is rather long if the screen is misjudged, and else dashes. -/
theorem item_clamp_iff (screen : Screen) (width : Nat) :
    (width ≤ 128 → ¬screen.Misjudged width) ∧
      ((∀ page, screen.item width page = screen.item (Page.clamp width) page) ↔
        ¬screen.Misjudged width) ∧
      ∀ title, screen.title = some title → 10 < screen.indent + title.utf8ByteSize →
        ∀ page found, screen.item width page = .ok found → 1 < found.pages →
          (screen.Misjudged width → found.key = marks screen.indent ++ Bytes.ofString title) ∧
          (¬screen.Misjudged width →
            found.key = marks screen.indent ++ Bytes.ofString "---") := by
  refine ⟨fun hWidth hMisjudged => ?_, ⟨fun hSame hMisjudged => ?_,
    item_clamp_of_not_misjudged⟩, fun title hTitle hLong page found => key_of_pages hTitle hLong⟩
  · exact Nat.not_lt.mpr hWidth hMisjudged.lt_width
  · obtain ⟨page, hDiffer⟩ := hMisjudged.exists_item_ne
    exact hDiffer (hSame page)

/-- A title of eleven octets with its indent, and a content of 150 octets. -/
def recipients : Screen :=
  { title := some "Recipients", content := String.ofList (List.replicate 150 'c'), indent := 1 }

/-- At a width of 200 octets the title stays in the key of two pages, which it does not at 128. -/
theorem item_ne_item_clamp_recipients :
    recipients.item 200 0 = .ok ⟨Bytes.ofString ">Recipients", List.replicate 128 0x63, 2⟩ ∧
      recipients.item (Page.clamp 200) 0 = .ok
        ⟨Bytes.ofString ">---", Bytes.ofString "Recipients: " ++ List.replicate 116 0x63, 2⟩ ∧
      recipients.item 200 0 ≠ recipients.item (Page.clamp 200) 0 := by
  decide +kernel

theorem item_clamp_iff_recipients :
    recipients.Misjudged 200 ∧ ¬recipients.Misjudged 100 ∧
      (∃ found, recipients.item 200 1 = .ok found ∧ found.pages = 2 ∧
        found.key = Bytes.ofString ">Recipients") ∧
      ∃ found, recipients.item 100 1 = .ok found ∧ found.pages = 2 ∧
        found.key = Bytes.ofString ">---" := by
  have hPages : (recipients.item 200 1).toOption.map Item.pages = some 2 ∧
      (recipients.item 100 1).toOption.map Item.pages = some 2 := by decide +kernel
  have hLength : (Ascii.expand recipients.content).length = 150 := by decide +kernel
  have hMisjudged : recipients.Misjudged 200 :=
    ⟨"Recipients", rfl, by decide, by decide, by omega, by omega, hLength ▸ by decide⟩
  obtain ⟨_, _, hWide⟩ := item_clamp_iff recipients 200
  obtain ⟨hUpTo, _, hNarrow⟩ := item_clamp_iff recipients 100
  have hFits : ¬recipients.Misjudged 100 := hUpTo (by decide)
  refine ⟨hMisjudged, hFits, ?_, ?_⟩
  · obtain ⟨found, hFound, hTwo⟩ := Option.map_eq_some_iff.mp hPages.1
    rw [toOption_eq_some_iff] at hFound
    exact ⟨found, hFound, hTwo, (hWide _ rfl (by decide) 1 found hFound (by omega)).1 hMisjudged⟩
  · obtain ⟨found, hFound, hTwo⟩ := Option.map_eq_some_iff.mp hPages.2
    rw [toOption_eq_some_iff] at hFound
    exact ⟨found, hFound, hTwo, (hNarrow _ rfl (by decide) 1 found hFound (by omega)).2 hFits⟩

end Screen

end SignReview
