import SignReview.Proofs.Outcome
import SignReview.Proofs.Writing
import SignReview.Screen.Layout

/-!
# Screens fit

The form of a text in printable ASCII has at most six octets for each octet of the text.  With the
bounds on the parts of a screen, keys and texts fit into their capacities whatever the layout.

* `Ascii.length_expand_le`: how long the form of a text is.
* `Screen.Fits`: the bounds, `Screen.fits_of_ofRaw`: a screen that has been collected meets them.
* `Screen.laidOut`: the layout without capacities, `Screen.entry_eq`: it is what is shown.
-/

namespace SignReview

/-! ### The form of a text -/

namespace Ascii

theorem length_hex (n digits : Nat) : (hex n digits).length = digits := by
  induction digits with
  | zero => rfl
  | succ digits ih => exact congrArg Nat.succ ih

theorem flatten_map_singleton (digits : Bytes) :
    (digits.map fun digit => [digit]).flatten = digits := by
  rw [← List.flatMap_def, List.flatMap_singleton']

theorem length_digits (n digits : Nat) :
    ((hex n digits).map fun digit => [digit]).flatten.length = digits := by
  rw [flatten_map_singleton, length_hex]

theorem length_pieces_le (c : Char) : (pieces c).flatten.length ≤ 6 * c.utf8Size := by
  have hSize := c.utf8Size_pos
  rw [pieces]
  split
  · rw [List.flatten_singleton, List.length_singleton]
    omega
  · split
    · rw [List.flatten_singleton]
      simp only [List.length_cons, List.length_nil]
      omega
    · split
      · rw [List.flatten_cons, List.length_append, length_digits]
        simp only [List.length_cons, List.length_nil]
        omega
      · rename_i hLarge
        have hFour : c.utf8Size = 4 := by
          rw [Char.utf8Size_eq_four_iff, UInt32.lt_iff_toNat_lt]
          exact Nat.lt_of_not_le hLarge
        rw [List.flatten_cons, List.length_append, length_digits]
        simp only [List.length_cons, List.length_nil]
        omega

theorem length_flatMap_pieces_le (chars : List Char) :
    (chars.flatMap pieces).flatten.length ≤ 6 * chars.utf8Encode.size := by
  induction chars with
  | nil => exact Nat.zero_le _
  | cons c chars ih =>
    have hFirst := length_pieces_le c
    rw [List.flatMap_cons, List.flatten_append, List.length_append, List.utf8Encode_cons,
      ByteArray.size_append, List.utf8Encode_singleton, List.size_toByteArray,
      String.length_utf8EncodeChar]
    omega

theorem length_expand_le (text : String) : (expand text).length ≤ 6 * text.utf8ByteSize := by
  have hChars := length_flatMap_pieces_le text.toList
  rwa [String.utf8Encode_toList] at hChars

end Ascii

theorem Bytes.length_ofString (text : String) : (ofString text).length = text.utf8ByteSize := rfl

namespace Screen

/-! ### The bounds of a screen -/

structure Fits (screen : Screen) : Prop where
  title_le : ∀ title, screen.title = some title → title.utf8ByteSize ≤ maxTitle
  content_le : screen.content.utf8ByteSize ≤ maxContent
  indent_le : screen.indent ≤ maxIndent

theorem size_le_of_readText {most : Nat} {value : Cbor.Value} {text : String}
    (h : readText most value = .ok text) : text.utf8ByteSize ≤ most := by
  unfold readText at h
  split at h
  · split at h
    · rename_i hMost
      exact Except.ok.inj h ▸ hMost
    · cases h
  · cases h

theorem size_le_of_readTitle {fields rest : List (Nat × Cbor.Value)} {title : Option String}
    (h : readTitle fields = .ok (title, rest)) :
    ∀ text, title = some text → text.utf8ByteSize ≤ maxTitle := by
  intro text hTitle
  unfold readTitle at h
  split at h
  · obtain ⟨found, hFound, h⟩ := bind_eq_ok_iff.mp h
    cases h
    cases hTitle
    exact size_le_of_readText hFound
  · cases h
    cases hTitle

theorem size_le_of_readContent {fields rest : List (Nat × Cbor.Value)} {content : String}
    (h : readContent fields = .ok (content, rest)) : content.utf8ByteSize ≤ maxContent := by
  unfold readContent at h
  split at h
  · obtain ⟨found, hFound, h⟩ := bind_eq_ok_iff.mp h
    cases h
    exact size_le_of_readText hFound
  · cases h

theorem fits_of_setField {screen changed : Screen} {field : Nat × Cbor.Value} (hFits : screen.Fits)
    (h : screen.setField field = .ok changed) : changed.Fits := by
  unfold setField at h
  split at h
  · split at h
    · rename_i hIndent
      obtain rfl := Except.ok.inj h
      exact { hFits with indent_le := hIndent }
    · cases h
  · obtain rfl := Except.ok.inj h
    exact ⟨hFits.title_le, hFits.content_le, hFits.indent_le⟩
  · cases h
  · cases h
  · cases h

theorem fits_of_foldlM_setField {fields : List (Nat × Cbor.Value)} :
    ∀ {screen changed : Screen}, screen.Fits → fields.foldlM setField screen = .ok changed →
      changed.Fits := by
  induction fields with
  | nil =>
    intro screen changed hFits h
    exact Except.ok.inj h ▸ hFits
  | cons field fields ih =>
    intro screen changed hFits h
    rw [List.foldlM_cons] at h
    obtain ⟨next, hNext, h⟩ := bind_eq_ok_iff.mp h
    exact ih (fits_of_setField hFits hNext) h

/-- A screen that has been collected is within the bounds. -/
theorem fits_of_ofRaw {raw : Raw} {screen : Screen} (h : ofRaw raw = .ok screen) : screen.Fits := by
  rw [ofRaw] at h
  obtain ⟨_, h⟩ := guard_eq_ok_iff.mp h
  obtain ⟨_, h⟩ := guard_eq_ok_iff.mp h
  obtain ⟨_, h⟩ := guard_eq_ok_iff.mp h
  obtain ⟨_, h⟩ := guard_eq_ok_iff.mp h
  obtain ⟨⟨title, fields⟩, hTitle, h⟩ := bind_eq_ok_iff.mp h
  obtain ⟨⟨content, more⟩, hContent, h⟩ := bind_eq_ok_iff.mp h
  refine fits_of_foldlM_setField ⟨?_, ?_, ?_⟩ h
  · exact size_le_of_readTitle hTitle
  · exact size_le_of_readContent hContent
  · exact Nat.zero_le _

/-! ### The layout -/

def laidOut (screen : Screen) (width : Nat) : Entry :=
  let content := Ascii.expand screen.content
  match screen.title with
  | none => ⟨[0x20], [marks screen.indent ++ content]⟩
  | some title =>
    if screen.movesTitle title content.length width then
      ⟨marks screen.indent ++ Bytes.ofString "---",
        [Bytes.ofString title ++ Bytes.ofString ": " ++ content]⟩
    else
      ⟨marks screen.indent ++ Bytes.ofString title, [content]⟩

theorem length_marks (indent : Nat) : (marks indent).length = indent := List.length_replicate

/-- A title that stays is short, so that it fits into the key. -/
theorem entry_of_stays {screen : Screen} {width : Nat} {title : String}
    (hTitle : screen.title = some title)
    (hContent : (Ascii.write textCapacity screen.content).text =
      .ok (Ascii.expand screen.content))
    (hMoves : ¬screen.movesTitle title (Ascii.expand screen.content).length width = true) :
    screen.entry width = .ok (screen.laidOut width) := by
  have hShort : screen.indent + title.utf8ByteSize ≤ 17 := by
    rw [movesTitle, Bool.or_eq_true, not_or, decide_eq_true_eq] at hMoves
    exact Nat.le_of_not_lt hMoves.1
  have hKey : (Writer.append Path.capacity [marks screen.indent, Bytes.ofString title]).text =
      .ok [marks screen.indent, Bytes.ofString title].flatten := by
    refine Writer.text_append_of_le ?_
    have hMarks := length_marks screen.indent
    have hLength := Bytes.length_ofString title
    simp only [List.flatten_cons, List.flatten_nil, List.length_append, List.length_nil,
      Path.capacity]
    omega
  rw [entry, laidOut, hTitle]
  simp only [hContent, ok_bind, if_neg hMoves, hKey]
  simp [pure, Except.pure]

section Entry

variable {screen : Screen} (h : screen.Fits) (width : Nat)

include h

theorem Fits.length_expand_le : (Ascii.expand screen.content).length ≤ 3600 := by
  have hSize : screen.content.utf8ByteSize ≤ 600 := h.content_le
  have hExpand := Ascii.length_expand_le screen.content
  omega

theorem Fits.text_write :
    (Ascii.write textCapacity screen.content).text = .ok (Ascii.expand screen.content) :=
  Writer.text_append_of_le (Nat.le_trans h.length_expand_le (by decide))

theorem entry_of_untitled (hTitle : screen.title = none) :
    screen.entry width = .ok (screen.laidOut width) := by
  have hText : (Writer.append textCapacity [marks screen.indent] >>= fun _ =>
      Ascii.write textCapacity screen.content).text =
        .ok (marks screen.indent ++ Ascii.expand screen.content) := by
    have hMarks := length_marks screen.indent
    have hIndent : screen.indent ≤ 61 := h.indent_le
    have hContent := h.length_expand_le
    have hRoom : [marks screen.indent].flatten.length +
        (Ascii.expand screen.content).length ≤ textCapacity := by
      rw [List.flatten_singleton, hMarks, textCapacity]
      omega
    have hWrite := Writer.text_append_append_of_le hRoom
    rwa [List.flatten_singleton] at hWrite
  rw [entry, laidOut, hTitle]
  simp only [hText]
  rfl

theorem entry_of_moves {title : String} (hTitle : screen.title = some title)
    (hMoves : screen.movesTitle title (Ascii.expand screen.content).length width = true) :
    screen.entry width = .ok (screen.laidOut width) := by
  have hContent := h.length_expand_le
  have hKey : (Writer.append Path.capacity [marks screen.indent, Bytes.ofString "---"]).text =
      .ok [marks screen.indent, Bytes.ofString "---"].flatten := by
    refine Writer.text_append_of_le ?_
    have hMarks := length_marks screen.indent
    have hIndent : screen.indent ≤ 61 := h.indent_le
    have hDashes : (Bytes.ofString "---").length = 3 := by decide
    simp only [List.flatten_cons, List.flatten_nil, List.length_append, List.length_nil,
      Path.capacity]
    omega
  have hText : (Writer.append textCapacity [Bytes.ofString title, Bytes.ofString ": ",
      Ascii.expand screen.content]).text = .ok [Bytes.ofString title, Bytes.ofString ": ",
        Ascii.expand screen.content].flatten := by
    refine Writer.text_append_of_le ?_
    have hSize : (Bytes.ofString title).length ≤ 40 := h.title_le title hTitle
    have hColon : (Bytes.ofString ": ").length = 2 := by decide
    simp only [List.flatten_cons, List.flatten_nil, List.length_append, List.length_nil,
      textCapacity]
    omega
  rw [entry, laidOut, hTitle]
  simp only [h.text_write, ok_bind, if_pos hMoves, hKey, hText]
  simp [pure, Except.pure]

/-- Keys and texts of screens within the bounds never take more room than there is. -/
theorem entry_eq : screen.entry width = .ok (screen.laidOut width) := by
  cases hTitle : screen.title with
  | none => exact entry_of_untitled h width hTitle
  | some title =>
    by_cases hMoves : screen.movesTitle title (Ascii.expand screen.content).length width = true
    · exact entry_of_moves h width hTitle hMoves
    · exact entry_of_stays hTitle h.text_write hMoves

end Entry

theorem texts_laidOut (screen : Screen) (width : Nat) : (screen.laidOut width).texts ≠ [] := by
  unfold laidOut
  cases screen.title with
  | none => exact List.cons_ne_nil _ _
  | some title =>
    dsimp only
    split
    · exact List.cons_ne_nil _ _
    · exact List.cons_ne_nil _ _

end Screen

end SignReview
