import SignReview.Proofs.Paging
import SignReview.Proofs.Writing

/-!
# Pages reckoned in words

A page is found by a product and a sum, and both have to be words.  They are whatever the width and
the number of the page, because a number behind the last page is refused before it is multiplied.

* `Word.exists_ceilDiv?`, `Page.exists_count?`: the pages of a text can always be counted.
* `Page.slice?_eq`: a page that begins in the text is cut out.
* `Page.exists_turn?`: in words a page is shown as `Page.write` shows it.
* `Page.tiles_of_turn`: the pages that are shown tile the text.
-/

namespace SignReview

/-- The quotient is no larger than what is divided, also where it is rounded up. -/
theorem Word.exists_ceilDiv? (a : UInt64) {b : UInt64} (h : b ≠ 0) :
    ∃ c, ceilDiv? a b = some c ∧ c.toNat = a.toNat ⌈/⌉ b.toNat := by
  have hPos : 0 < b.toNat := Nat.pos_of_ne_zero fun hZero => h (UInt64.toNat_inj.mp hZero)
  have hWhole := Nat.div_add_mod a.toNat b.toNat
  rw [ceilDiv?, if_neg h, Nat.ceilDiv_eq_add_pred_div]
  by_cases hRest : a % b = 0
  · have hNone : a.toNat % b.toNat = 0 := by
      rw [← UInt64.toNat_mod, hRest]
      rfl
    refine ⟨a / b, if_pos hRest, ?_⟩
    rw [UInt64.toNat_div, eq_comm, Nat.div_eq_iff hPos, Nat.mul_comm]
    omega
  · have hSome : 0 < a.toNat % b.toNat := by
      rw [← UInt64.toNat_mod]
      exact Nat.pos_of_ne_zero fun hZero => hRest (UInt64.toNat_inj.mp hZero)
    have hLess := Nat.mod_lt a.toNat hPos
    -- what is left over makes room for the one that is added
    have hQuotient : a.toNat / b.toNat ≤ b.toNat * (a.toNat / b.toNat) :=
      Nat.le_mul_of_pos_left _ hPos
    have hSize := a.toNat_lt_size
    obtain ⟨c, hNext, hNumber⟩ := @exists_add? (a / b) 1 (by
      rw [UInt64.toNat_div, UInt64.toNat_one]
      omega)
    refine ⟨c, (if_neg hRest).trans hNext, ?_⟩
    rw [hNumber, UInt64.toNat_div, UInt64.toNat_one, eq_comm, Nat.div_eq_iff hPos, Nat.mul_comm,
      Nat.mul_add]
    omega

namespace Page

/-! ### Counting and cutting -/

theorem toNat_clampWord (width : UInt64) : (clampWord width).toNat = clamp width.toNat := by
  rw [clampWord, UInt64.toNat_max, UInt64.toNat_min]
  rfl

theorem exists_count? (length width : UInt64) :
    ∃ pages, count? length width = some pages ∧
      pages.toNat = count length.toNat width.toNat := by
  have hWide : (max width 1).toNat = max width.toNat 1 := UInt64.toNat_max width 1
  have hNonzero : max width 1 ≠ 0 := fun hZero => by
    have hNone : (max width 1).toNat = 0 := congrArg UInt64.toNat hZero
    omega
  obtain ⟨quotient, hQuotient, hNumber⟩ := Word.exists_ceilDiv? length hNonzero
  refine ⟨max quotient 1, by rw [count?, hQuotient]; rfl, ?_⟩
  rw [UInt64.toNat_max, hNumber, hWide, count_eq, Nat.max_comm]
  rfl

/-- A page that begins in the text is cut out if a whole page behind the text would end at a
word. -/
theorem slice?_eq {text : Bytes} {width page : UInt64}
    (hStart : page.toNat * width.toNat ≤ text.length)
    (hStop : text.length + width.toNat < UInt64.size) :
    slice? text width page = some (slice text width.toNat page.toNat) := by
  obtain ⟨length, hLength, hOctets⟩ := Word.exists_ofNat? (n := text.length) (by omega)
  obtain ⟨start, hMul, hFrom⟩ := @Word.exists_mul? page width (by omega)
  obtain ⟨stop, hAdd, hTo⟩ := @Word.exists_add? start width (by omega)
  have hEnd : (min length stop).toNat = min text.length ((page.toNat + 1) * width.toNat) := by
    rw [UInt64.toNat_min, hOctets, hTo, hFrom, Nat.add_mul, Nat.one_mul]
  have hOrder : start.toNat ≤ (min length stop).toNat := by
    rw [hEnd, hFrom, Nat.add_mul]
    omega
  have hInside : (min length stop).toNat ≤ text.length := by
    rw [hEnd]
    exact Nat.min_le_left _ _
  simp only [slice?, hMul, hLength, hAdd, Option.bind_eq_bind, Option.bind_some]
  rw [Bytes.cut?_of_le hOrder hInside, slice_eq_extract, hFrom, hEnd]

/-- So is any page that there is, behind which no more than the widest page is needed. -/
theorem slice?_of_lt {text : Bytes} (hText : text.length + maxWidth < UInt64.size)
    {width page : UInt64} (h : page.toNat < count text.length (clamp width.toNat)) :
    slice? text (clampWord width) page = some (slice text (clamp width.toNat) page.toNat) := by
  have hStart := mul_le_of_lt_count (clamp_pos width.toNat) h
  have hMax := clamp_le width.toNat
  rw [← toNat_clampWord] at hStart hMax ⊢
  exact slice?_eq hStart (by omega)

/-! ### Showing a page -/

theorem run_overwrite_of_le {octets : Bytes} (h : octets.length ≤ maxWidth) (shown : Bytes) :
    (overwrite octets).run shown = .ok () octets := by
  have hRoom : ([] : Bytes).length + [octets].flatten.length ≤ maxWidth := by
    rwa [List.flatten_singleton, List.length_nil, Nat.zero_add]
  have hAppend := Writer.run_append_of_le hRoom
  rw [List.flatten_singleton, List.nil_append] at hAppend
  exact hAppend

theorem eq_write {writer : Writer Nat} {text : Bytes} {width page : Nat}
    (h : ∀ shown, writer.run shown = turnTo (chunks (clamp width) text) page shown) :
    writer = write [text] width page := by
  funext shown
  have hWrite := run_write [text] width page shown
  rw [List.flatMap_singleton] at hWrite
  exact (h shown).trans hWrite.symm

/-- Nothing overflows, neither a word nor the room for a page, and what is shown is what
`Page.write` shows. -/
theorem exists_turn? {text : Bytes} (hText : text.length + maxWidth < UInt64.size)
    (width page : UInt64) :
    ∃ turn, turn? text width page = some turn ∧
      UInt64.toNat <$> turn = write [text] width.toNat page.toNat := by
  obtain ⟨length, hLength, hOctets⟩ := Word.exists_ofNat? (n := text.length) (by omega)
  obtain ⟨pages, hCount, hPages⟩ := exists_count? length (clampWord width)
  have hClamp := clamp_pos width.toNat
  rw [hOctets, toNat_clampWord] at hPages
  simp only [turn?, hLength, hCount, Option.bind_eq_bind, Option.bind_some]
  -- a page behind the last is refused before its place is reckoned
  by_cases hPast : pages ≤ page
  · refine ⟨_, if_pos hPast, eq_write fun shown => ?_⟩
    rw [UInt64.le_iff_toNat_le, hPages, ← length_chunks hClamp] at hPast
    rw [turnTo_of_le hPast]
    rfl
  · have hInside : page.toNat < count text.length (clamp width.toNat) := by
      rwa [UInt64.le_iff_toNat_le, hPages, Nat.not_le] at hPast
    have hShown : (slice text (clamp width.toNat) page.toNat).length ≤ maxWidth :=
      (List.length_take_le _ _).trans (clamp_le width.toNat)
    rw [if_neg hPast, slice?_of_lt hText hInside]
    refine ⟨_, rfl, eq_write fun shown => ?_⟩
    rw [turnTo, getElem?_chunks hClamp text page.toNat hInside, length_chunks hClamp, ← hPages,
      Option.elim_some]
    change EStateM.run (UInt64.toNat <$> (overwrite _ >>= fun _ => pure pages)) shown = _
    rw [map_bind, EStateM.run_bind, run_overwrite_of_le hShown]
    rfl

/-- The pages of a text tile it, whatever the width.  A page that there is takes the place of the
one shown, and a page that there is not leaves it there; nothing else can happen.  The length of the
text leaves room for one more page among the words, as that of every text in memory does, where
lengths stay below half the number of words. -/
theorem tiles_of_turn {text : Bytes} (hText : text.length + maxWidth < UInt64.size)
    (width : UInt64) :
    ∃ pages, Tiles text (clamp width.toNat) pages ∧
      ∀ page : UInt64, ∃ turn, turn? text width page = some turn ∧ ∀ shown,
        (∀ h : page.toNat < pages.length, ∃ count : UInt64, count.toNat = pages.length ∧
          turn.run shown = .ok count pages[page.toNat]) ∧
        (pages.length ≤ page.toNat → turn.run shown = .error .displayPageOutOfRange shown) ∧
        ∀ after, turn.run shown ≠ .error .bufferOverflow after := by
  refine ⟨_, tiles_chunks (clamp_pos width.toNat) text, fun page => ?_⟩
  obtain ⟨turn, hTurn, hWrite⟩ := exists_turn? hText width page
  refine ⟨turn, hTurn, fun shown => ?_⟩
  have hRun := run_write [text] width.toNat page.toNat shown
  rw [← hWrite, List.flatMap_singleton] at hRun
  rcases Nat.lt_or_ge page.toNat (chunks (clamp width.toNat) text).length with hInside | hPast
  · rw [turnTo_of_lt hInside] at hRun
    obtain ⟨count, hShown, hCount⟩ := Writer.run_map_eq_ok hRun
    refine ⟨fun _ => ⟨count, hCount, hShown⟩, fun hPast => ?_, fun after hFull => ?_⟩
    · exact absurd hInside (Nat.not_lt.mpr hPast)
    · cases hShown.symm.trans hFull
  · rw [turnTo_of_le hPast] at hRun
    have hRefused := Writer.run_map_eq_error hRun
    refine ⟨fun hInside => ?_, fun _ => hRefused, fun after hFull => ?_⟩
    · exact absurd hInside (Nat.not_lt.mpr hPast)
    · cases hRefused.symm.trans hFull

def twoWidePages : Bytes := List.replicate 256 0x61

theorem tiles_of_turn_twoWidePages :
    twoWidePages.length + maxWidth < UInt64.size ∧
      (∃ turn count, turn? twoWidePages 0xffffffffffffffff 1 = some turn ∧ count.toNat = 2 ∧
        turn.run (Bytes.ofString "shown") = .ok count (List.replicate 128 0x61)) ∧
      ∃ turn, turn? twoWidePages 0xffffffffffffffff 0xffffffffffffffff = some turn ∧
        turn.run (Bytes.ofString "shown") =
          .error .displayPageOutOfRange (Bytes.ofString "shown") := by
  have hText : twoWidePages.length + maxWidth < UInt64.size := by decide +kernel
  obtain ⟨pages, hTiles, hTurns⟩ := tiles_of_turn hText 0xffffffffffffffff
  have hCount : pages.length = 2 := hTiles.count_eq.trans (by decide +kernel)
  obtain ⟨second, hSecond, hRunSecond⟩ := hTurns 1
  obtain ⟨last, hLast, hRunLast⟩ := hTurns 0xffffffffffffffff
  have hInside : (1 : UInt64).toNat < pages.length := by rw [hCount]; decide
  obtain ⟨count, hNumber, hShown⟩ := (hRunSecond (Bytes.ofString "shown")).1 hInside
  have hOctets : pages[(1 : UInt64).toNat] = List.replicate 128 0x61 :=
    (hTiles.getElem_eq _ hInside).trans (by decide +kernel)
  refine ⟨hText, ⟨second, count, hSecond, hNumber.trans hCount, hOctets ▸ hShown⟩, last, hLast, ?_⟩
  exact (hRunLast _).2.1 (by rw [hCount]; decide)

end Page

end SignReview
