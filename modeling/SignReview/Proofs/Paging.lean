import Mathlib.Algebra.Order.Floor.Div
import SignReview.Entry
import SignReview.Proofs.Outcome

/-!
# Pages as chunks

`Page.chunks` cuts a text into pages by taking one after the other.  `Page.select?` and
`Page.total`, which find a page by its number, agree with it.

* `Page.Cuts`: how a text is cut, `Page.cuts_chunks`: into its chunks, `Page.tiles_chunks`: where
  these lie in the text.
* `Page.find_eq`: a page of several texts is an entry of the list of all their chunks.
* `Page.turnTo`: what becomes of the page shown, given all pages, `Page.run_write`: of several texts.
* `Entry.item_of_lt`, `Entry.item_of_le`: the pages of an entry, `Entry.texts_of_renderAll`,
  `Entry.renderAll_of_texts`: an entry can be rendered if it has one.
-/

namespace SignReview

namespace Page

/-- The pages of a text: `width` octets each, but for the last.  An empty text is one page. -/
def chunks (width : Nat) (text : Bytes) : List Bytes :=
  if width = 0 ∨ text.length ≤ width then [text]
  else text.take width :: chunks width (text.drop width)
termination_by text.length
decreasing_by rw [List.length_drop]; omega

variable {width : Nat}

theorem count_of_le {length : Nat} (h : length ≤ width) (hWidth : 0 < width) :
    count length width = 1 := by
  have hSmall : (length + (max width 1 - 1)) / max width 1 < 2 :=
    Nat.div_lt_of_lt_mul (by omega)
  unfold count
  omega

theorem count_of_lt {length : Nat} (h : width < length) (hWidth : 0 < width) :
    count length width = 1 + count (length - width) width := by
  have hMax : max width 1 = width := by omega
  have hDiv : (length + (width - 1)) / width = (length - width + (width - 1)) / width + 1 := by
    rw [← Nat.add_div_right _ hWidth]
    congr 1
    omega
  have hRest : 1 ≤ (length - width + (width - 1)) / width :=
    (Nat.le_div_iff_mul_le hWidth).mpr (by omega)
  unfold count
  rw [hMax, hDiv]
  omega

theorem one_lt_count_iff {length : Nat} : 1 < count length width ↔ max width 1 < length := by
  have hSecond : 2 ≤ (length + (max width 1 - 1)) / max width 1 ↔
      2 * max width 1 ≤ length + (max width 1 - 1) := Nat.le_div_iff_mul_le (by omega)
  unfold count
  omega

theorem slice_zero (text : Bytes) : slice text width 0 = text.take width := by
  rw [slice, Nat.zero_mul, List.drop_zero]

theorem slice_succ (text : Bytes) (page : Nat) :
    slice text width (page + 1) = slice (text.drop width) width page := by
  rw [slice, slice, List.drop_drop, Nat.add_mul, Nat.one_mul, Nat.add_comm]

theorem length_chunks (hWidth : 0 < width) (text : Bytes) :
    (chunks width text).length = count text.length width := by
  fun_induction chunks width text with
  | case1 text hSmall =>
    have hLength : text.length ≤ width := by omega
    rw [count_of_le hLength hWidth]
    rfl
  | case2 text hLong ih =>
    have hLength : width < text.length := by omega
    rw [List.length_cons, ih, List.length_drop, count_of_lt hLength hWidth, Nat.add_comm]

theorem getElem?_chunks (hWidth : 0 < width) (text : Bytes) (page : Nat) :
    page < count text.length width → (chunks width text)[page]? = some (slice text width page) := by
  fun_induction chunks width text generalizing page with
  | case1 text hSmall =>
    intro hPage
    have hLength : text.length ≤ width := by omega
    rw [count_of_le hLength hWidth] at hPage
    obtain rfl : page = 0 := by omega
    rw [slice_zero, List.take_of_length_le hLength]
    rfl
  | case2 text hLong ih =>
    intro hPage
    have hLength : width < text.length := by omega
    rw [count_of_lt hLength hWidth] at hPage
    cases page with
    | zero => rw [slice_zero, List.getElem?_cons_zero]
    | succ page =>
      rw [List.getElem?_cons_succ, slice_succ]
      apply ih
      rw [List.length_drop]
      omega

/-- The text is cut into these pages: nothing of it is lost, no page is wider than `width`, and
there are no more of them than the text takes, but at least one. -/
structure Cuts (text : Bytes) (width : Nat) (values : List Bytes) : Prop where
  flatten_eq : values.flatten = text
  length_le : ∀ value ∈ values, value.length ≤ width
  count_eq : values.length = max 1 (text.length ⌈/⌉ width)

theorem count_eq (length width : Nat) :
    count length width = max 1 (length ⌈/⌉ max width 1) := by
  rw [count, Nat.ceilDiv_eq_add_pred_div, Nat.add_sub_assoc (Nat.le_max_right width 1)]

theorem count_eq_ceilDiv (hWidth : 0 < width) (length : Nat) :
    count length width = max 1 (length ⌈/⌉ width) := by
  rw [count_eq, Nat.max_eq_left hWidth]

theorem flatten_chunks (width : Nat) (text : Bytes) : (chunks width text).flatten = text := by
  fun_induction chunks width text with
  | case1 text hSmall => exact List.flatten_singleton
  | case2 text hLong ih => rw [List.flatten_cons, ih, List.take_append_drop]

theorem length_le_of_mem_chunks (hWidth : 0 < width) (text : Bytes) :
    ∀ value ∈ chunks width text, value.length ≤ width := by
  fun_induction chunks width text with
  | case1 text hSmall =>
    refine List.forall_mem_singleton.mpr ?_
    omega
  | case2 text hLong ih =>
    exact List.forall_mem_cons.mpr ⟨List.length_take_le width text, ih⟩

theorem cuts_chunks (hWidth : 0 < width) (text : Bytes) : Cuts text width (chunks width text) where
  flatten_eq := flatten_chunks width text
  length_le := length_le_of_mem_chunks hWidth text
  count_eq := (length_chunks hWidth text).trans (count_eq_ceilDiv hWidth text.length)

/-- Pages that lie side by side in the text, each of them where its number says.  All but the last
are full, and none is empty if the text is not. -/
structure Tiles (text : Bytes) (width : Nat) (pages : List Bytes) : Prop
    extends Cuts text width pages where
  getElem_eq : ∀ page, (h : page < pages.length) →
    pages[page] = text.extract (page * width) (min text.length ((page + 1) * width))
  length_eq : ∀ page ∈ pages.dropLast, page.length = width
  ne_nil : text ≠ [] → ∀ page ∈ pages, page ≠ []

theorem slice_eq_extract (text : Bytes) (width page : Nat) :
    slice text width page =
      text.extract (page * width) (min text.length ((page + 1) * width)) := by
  rw [slice, List.extract_eq_take_drop, Nat.add_mul, Nat.one_mul]
  rcases Nat.le_total (page * width + width) text.length with hFull | hLast
  · rw [Nat.min_eq_right hFull, Nat.add_sub_cancel_left]
  · rw [Nat.min_eq_left hLast, ← List.length_drop, List.take_length, List.take_of_length_le]
    rw [List.length_drop]
    omega

theorem chunks_ne_nil (width : Nat) (text : Bytes) : chunks width text ≠ [] := by
  rw [chunks]
  split <;> exact List.cons_ne_nil _ _

theorem length_eq_of_mem_dropLast_chunks (width : Nat) (text : Bytes) :
    ∀ page ∈ (chunks width text).dropLast, page.length = width := by
  fun_induction chunks width text with
  | case1 text hSmall => exact fun page hPage => absurd hPage List.not_mem_nil
  | case2 text hLong ih =>
    rw [List.dropLast_cons_of_ne_nil (chunks_ne_nil _ _)]
    refine List.forall_mem_cons.mpr ⟨?_, ih⟩
    rw [List.length_take]
    omega

theorem ne_nil_of_mem_chunks (width : Nat) (text : Bytes) :
    text ≠ [] → ∀ page ∈ chunks width text, page ≠ [] := by
  fun_induction chunks width text with
  | case1 text hSmall => exact fun hText => List.forall_mem_singleton.mpr hText
  | case2 text hLong ih =>
    intro hText
    have hFull : 0 < (text.take width).length := by
      rw [List.length_take]
      omega
    have hRest : 0 < (text.drop width).length := by
      rw [List.length_drop]
      omega
    exact List.forall_mem_cons.mpr
      ⟨List.ne_nil_of_length_pos hFull, ih (List.ne_nil_of_length_pos hRest)⟩

theorem tiles_chunks (hWidth : 0 < width) (text : Bytes) :
    Tiles text width (chunks width text) where
  toCuts := cuts_chunks hWidth text
  getElem_eq page h := by
    rw [← slice_eq_extract, ← Option.some.injEq, ← List.getElem?_eq_getElem h]
    exact getElem?_chunks hWidth text page (by rwa [← length_chunks hWidth])
  length_eq := length_eq_of_mem_dropLast_chunks width text
  ne_nil := ne_nil_of_mem_chunks width text

/-- A page that there is begins in the text, or at its end. -/
theorem mul_le_of_lt_count {length page : Nat} (hWidth : 0 < width)
    (h : page < count length width) : page * width ≤ length := by
  rw [count_eq_ceilDiv hWidth] at h
  by_contra hPast
  have hFew : length ⌈/⌉ width ≤ page :=
    (ceilDiv_le_iff_le_mul hWidth).mpr (by rw [Nat.mul_comm]; omega)
  obtain rfl : page = 0 := by omega
  rw [Nat.zero_mul] at hPast
  omega

theorem total_eq (hWidth : 0 < width) (texts : List Bytes) :
    total width texts = (texts.flatMap (chunks width)).length := by
  induction texts with
  | nil => rfl
  | cons text texts ih =>
    rw [total, List.flatMap_cons, List.length_append, length_chunks hWidth, ih]

theorem select?_eq (hWidth : 0 < width) (texts : List Bytes) (page : Nat) :
    select? width texts page = (texts.flatMap (chunks width))[page]? := by
  induction texts generalizing page with
  | nil => rfl
  | cons text texts ih =>
    rw [select?, List.flatMap_cons]
    by_cases hPage : page < count text.length width
    · rw [if_pos hPage, List.getElem?_append_left (by rwa [length_chunks hWidth]),
        getElem?_chunks hWidth text page hPage]
    · rw [if_neg hPage, List.getElem?_append_right (by rw [length_chunks hWidth]; omega),
        length_chunks hWidth, ih]

theorem clamp_pos (width : Nat) : 0 < clamp width := by
  unfold clamp
  omega

theorem clamp_le (width : Nat) : clamp width ≤ maxWidth := by
  unfold clamp maxWidth
  omega

theorem clamp_clamp (width : Nat) : clamp (clamp width) = clamp width := by
  unfold clamp maxWidth
  omega

/-- A page of several texts is one of the chunks of the texts. -/
theorem find_eq (texts : List Bytes) (width page : Nat) :
    find texts width page =
      match (texts.flatMap (chunks (clamp width)))[page]? with
      | some bytes => .ok (bytes, (texts.flatMap (chunks (clamp width))).length)
      | none => .error .displayPageOutOfRange := by
  have hSelect := select?_eq (clamp_pos width) texts page
  have hTotal := total_eq (clamp_pos width) texts
  cases hPage : select? (clamp width) texts page with
  | none => rw [find, ← hSelect, hPage]
  | some bytes => rw [find, ← hSelect, ← hTotal, hPage]

/-- What becomes of the page shown where page `page` out of `pages` is asked for. -/
def turnTo (pages : List Bytes) (page : Nat) (shown : Bytes) : EStateM.Result Error Bytes Nat :=
  (pages[page]?).elim (.error .displayPageOutOfRange shown) (.ok pages.length)

theorem run_write (texts : List Bytes) (width page : Nat) (shown : Bytes) :
    (write texts width page).run shown =
      turnTo (texts.flatMap (chunks (clamp width))) page shown := by
  rw [write, find_eq, turnTo]
  cases (texts.flatMap (chunks (clamp width)))[page]? <;> rfl

theorem turnTo_of_lt {pages : List Bytes} {page : Nat} (h : page < pages.length) (shown : Bytes) :
    turnTo pages page shown = .ok pages.length pages[page] := by
  rw [turnTo, List.getElem?_eq_getElem h]
  rfl

theorem turnTo_of_le {pages : List Bytes} {page : Nat} (h : pages.length ≤ page) (shown : Bytes) :
    turnTo pages page shown = .error .displayPageOutOfRange shown := by
  rw [turnTo, List.getElem?_eq_none h]
  rfl

theorem write_clamp (texts : List Bytes) (width page : Nat) :
    write texts (clamp width) page = write texts width page := by
  rw [write, write, find, find, clamp_clamp]

theorem total_pos {texts : List Bytes} (h : texts ≠ []) (width : Nat) : 0 < total width texts := by
  cases texts with
  | nil => exact absurd rfl h
  | cons text texts =>
    have := count_pos text.length width
    rw [total]
    omega

end Page

namespace Entry

theorem item_of_lt {entry : Entry} {width page : Nat}
    (h : page < Page.total (Page.clamp width) entry.texts) :
    ∃ value, entry.item width page =
      .ok ⟨entry.key, value, Page.total (Page.clamp width) entry.texts⟩ := by
  cases hSelect : Page.select? (Page.clamp width) entry.texts page with
  | none =>
    rw [Page.select?_eq_none_iff] at hSelect
    omega
  | some value =>
    refine ⟨value, ?_⟩
    rw [item, Page.find, hSelect]
    rfl

theorem item_of_le {entry : Entry} {width page : Nat}
    (h : Page.total (Page.clamp width) entry.texts ≤ page) :
    entry.item width page = .error .displayPageOutOfRange := by
  rw [item, Page.find, (Page.select?_eq_none_iff _ _ _).mpr h]
  rfl

/-- An entry with a text has pages, and none behind them. -/
theorem exists_pages {entry : Entry} (h : entry.texts ≠ []) (width : Nat) :
    ∃ key pages, 1 ≤ pages ∧ ∀ page,
      (page < pages → ∃ value, entry.item width page = .ok ⟨key, value, pages⟩) ∧
      (pages ≤ page → entry.item width page = .error .displayPageOutOfRange) :=
  ⟨entry.key, _, Page.total_pos h (Page.clamp width), fun _ => ⟨item_of_lt, item_of_le⟩⟩

theorem texts_of_renderAll {entry : Entry} {width : Nat} (h : entry.renderAll width = .ok ()) :
    entry.texts ≠ [] := by
  intro hTexts
  have hNone : Page.total (Page.clamp width) entry.texts ≤ 0 := by
    rw [hTexts]
    exact Nat.le_refl 0
  rw [renderAll, item_of_le hNone] at h
  cases h

theorem renderAll_of_texts {entry : Entry} (h : entry.texts ≠ []) (width : Nat) :
    entry.renderAll width = .ok () := by
  obtain ⟨first, hFirst⟩ := item_of_lt (Page.total_pos h (Page.clamp width))
  rw [renderAll, hFirst, ok_bind]
  refine forM_eq_ok_iff.mpr fun page hPage => ?_
  obtain ⟨_, hPage⟩ := List.mem_range'_1.mp hPage
  have hPages := Page.total_pos h (Page.clamp width)
  obtain ⟨value, hItem⟩ := @item_of_lt entry width page (by dsimp only at hPage; omega)
  rw [hItem]
  rfl

end Entry

end SignReview
