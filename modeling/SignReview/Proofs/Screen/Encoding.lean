import SignReview.Proofs.Cbor.Encoding
import SignReview.Proofs.Screen.Layout

/-!
# How screens are spelled

A screen is written as a map, in which fields that have their defaults may be missing.  From any
such map the screen is collected again, if it is within its bounds.

* `Screen.Writes`: the fields that may be written for a screen, `Screen.valueOf`: the map of fields.
* `Screen.ofValue_valueOf`: the screen that the map is.
* `Screen.length_le_of_spells`: how long a screen is where it is spelled.
-/

namespace SignReview.Screen

/-- These fields say that the field `key` has the value: it is written, or it is left out because
it has its default. -/
inductive WritesField (key : Nat) (value : Cbor.Value) (isDefault : Prop) :
    List (Nat × Cbor.Value) → Prop
  | written : WritesField key value isDefault [(key, value)]
  | leftOut : isDefault → WritesField key value isDefault []

/-- These fields, in ascending order, may be written for the screen. -/
inductive Writes (screen : Screen) : List (Nat × Cbor.Value) → Prop
  | intro {indent expert : List (Nat × Cbor.Value)} :
      WritesField 3 (.unsigned screen.indent) (screen.indent = 0) indent →
      WritesField 4 (.bool screen.expert) (screen.expert = false) expert →
      Writes screen ((screen.title.toList.map fun title => (1, .text title)) ++
        (2, .text screen.content) :: (indent ++ expert))

def valueOf (fields : List (Nat × Cbor.Value)) : Cbor.Value :=
  .map (fields.map fun field => (.unsigned field.1, field.2))

/-! ### Collecting -/

theorem foldl_push (fields front : List (Nat × Cbor.Value))
    (h : (front ++ fields).length ≤ maxFields) :
    (fields.map fun field => (Cbor.Value.unsigned field.1, field.2)).foldl Raw.push
      { fields := front } = { fields := front ++ fields } := by
  induction fields generalizing front with
  | nil => rw [List.map_nil, List.foldl_nil, List.append_nil]
  | cons field fields ih =>
    have hRoom : front.length < maxFields := by
      rw [List.length_append, List.length_cons] at h
      omega
    have hPush : Raw.push { fields := front } (.unsigned field.1, field.2) =
        { fields := front ++ [field] } := if_pos hRoom
    rw [List.append_cons] at h ⊢
    rw [List.map_cons, List.foldl_cons, hPush, ih _ h]

theorem ofValue_valueOf_eq {fields : List (Nat × Cbor.Value)} (hSome : fields ≠ [])
    (hFew : fields.length ≤ maxFields) (hKeys : keysAscend fields = true) :
    ofValue (valueOf fields) = readTitle fields >>= fun title =>
      readContent title.2 >>= fun content =>
        content.2.foldlM setField { title := title.1, content := content.1 } := by
  have hRaw : Raw.ofValue (valueOf fields) = { fields } := foldl_push fields [] hFew
  have hEmpty : fields.isEmpty = false := by
    cases fields with
    | nil => exact absurd rfl hSome
    | cons field fields => rfl
  rw [ofValue, hRaw, ofRaw]
  simp only [Bool.false_eq_true, if_false, hEmpty, hKeys, Bool.or_self, Bool.not_true]

theorem foldlM_setField {screen : Screen} (hIndent : screen.indent ≤ maxIndent)
    {indent expert : List (Nat × Cbor.Value)}
    (hIndentField : WritesField 3 (.unsigned screen.indent) (screen.indent = 0) indent)
    (hExpertField : WritesField 4 (.bool screen.expert) (screen.expert = false) expert) :
    (indent ++ expert).foldlM setField { title := screen.title, content := screen.content } =
      .ok screen := by
  have hFirst : indent.foldlM setField { title := screen.title, content := screen.content } =
      .ok { title := screen.title, content := screen.content, indent := screen.indent } := by
    cases hIndentField with
    | written =>
      rw [List.foldlM_cons, setField, if_pos hIndent]
      rfl
    | leftOut hDefault =>
      rw [hDefault]
      rfl
  rw [List.foldlM_append, hFirst, ok_bind]
  cases hExpertField with
  | written => rfl
  | leftOut hDefault =>
    rw [← hDefault]
    rfl

theorem Writes.keysAscend {screen : Screen} {fields : List (Nat × Cbor.Value)}
    (h : screen.Writes fields) : Screen.keysAscend fields = true ∧ fields.length ≤ maxFields := by
  obtain ⟨hIndent, hExpert⟩ := h
  cases screen.title with
  | none => cases hIndent <;> cases hExpert <;> exact ⟨rfl, Nat.le_of_ble_eq_true rfl⟩
  | some title => cases hIndent <;> cases hExpert <;> exact ⟨rfl, Nat.le_of_ble_eq_true rfl⟩

theorem readTitle_eq {title : Option String}
    (hTitle : ∀ text, title = some text → text.utf8ByteSize ≤ maxTitle) (content : Cbor.Value)
    (rest : List (Nat × Cbor.Value)) :
    readTitle ((title.toList.map fun title => (1, .text title)) ++ (2, content) :: rest) =
      .ok (title, (2, content) :: rest) := by
  cases title with
  | none => rfl
  | some text =>
    show (readText maxTitle (.text text) >>= fun _ => _) = _
    rw [readText, if_pos (hTitle text rfl)]
    rfl

theorem readContent_eq {content : String} (hContent : content.utf8ByteSize ≤ maxContent)
    (rest : List (Nat × Cbor.Value)) :
    readContent ((2, .text content) :: rest) = .ok (content, rest) := by
  rw [readContent, readText, if_pos hContent]
  rfl

/-- A screen within its bounds is collected from all that may be written for it. -/
theorem ofValue_valueOf {screen : Screen} (hFits : screen.Fits) {fields : List (Nat × Cbor.Value)}
    (h : screen.Writes fields) : ofValue (valueOf fields) = .ok screen := by
  obtain ⟨hKeys, hFew⟩ := h.keysAscend
  obtain ⟨hIndent, hExpert⟩ := h
  rw [ofValue_valueOf_eq (List.append_ne_nil_of_right_ne_nil _ (List.cons_ne_nil _ _)) hFew hKeys,
    readTitle_eq hFits.title_le, ok_bind, readContent_eq hFits.content_le, ok_bind]
  exact foldlM_setField hFits.indent_le hIndent hExpert

/-! ### Lengths -/

theorem Writes.textSize_le {screen : Screen} (hFits : screen.Fits)
    {fields : List (Nat × Cbor.Value)} (h : screen.Writes fields) :
    ∀ field ∈ fields, field.2.parts = [] ∧ field.2.textSize ≤ maxContent := by
  obtain ⟨hIndent, hExpert⟩ := h
  intro field hField
  rcases List.mem_append.mp hField with hField | hField
  · obtain ⟨title, hTitle, rfl⟩ := List.mem_map.mp hField
    refine ⟨rfl, Nat.le_trans (hFits.title_le title (Option.mem_toList.mp hTitle)) ?_⟩
    exact Nat.le_of_ble_eq_true rfl
  · rcases List.mem_cons.mp hField with rfl | hField
    · exact ⟨rfl, hFits.content_le⟩
    · rcases List.mem_append.mp hField with hField | hField
      · cases hIndent with
        | written =>
          rw [List.mem_singleton.mp hField]
          exact ⟨rfl, Nat.zero_le _⟩
        | leftOut => cases hField
      · cases hExpert with
        | written =>
          rw [List.mem_singleton.mp hField]
          exact ⟨rfl, Nat.zero_le _⟩
        | leftOut => cases hField

theorem mem_parts_valueOf {fields : List (Nat × Cbor.Value)} {part : Cbor.Value}
    (h : part ∈ (valueOf fields).parts) :
    ∃ field ∈ fields, part = .unsigned field.1 ∨ part = field.2 := by
  obtain ⟨entry, hEntry, hPart⟩ := List.mem_flatMap.mp h
  obtain ⟨field, hField, rfl⟩ := List.mem_map.mp hEntry
  exact ⟨field, hField, by simpa using hPart⟩

theorem length_le_of_spells {screen : Screen} (hFits : screen.Fits)
    {fields : List (Nat × Cbor.Value)} (h : screen.Writes fields) {depth : Nat}
    (hDepth : depth ≤ Cbor.maxDepth) {bytes : Bytes}
    (hSpells : Cbor.Spells depth (valueOf fields) bytes) : bytes.length ≤ 16384 := by
  rw [Cbor.maxDepth] at hDepth
  have hParts : ∀ part ∈ (valueOf fields).parts, ∀ inner < depth, ∀ bytes,
      Cbor.Spells inner part bytes → bytes.length ≤ 1800 := by
    intro part hPart inner hInner bytes hBytes
    obtain ⟨field, hField, hPart⟩ := mem_parts_valueOf hPart
    have hShort : part.parts = [] ∧ part.textSize ≤ maxContent := by
      rcases hPart with rfl | rfl
      · exact ⟨rfl, Nat.zero_le _⟩
      · exact h.textSize_le hFits field hField
    have hLength := hBytes.length_le 0 (by
      intro inside hInside
      rw [hShort.1] at hInside
      cases hInside)
    rw [hShort.1, List.length_nil, Nat.zero_mul] at hLength
    have hText := hShort.2
    rw [maxContent] at hText
    omega
  have hNumber : (valueOf fields).parts.length = fields.length * 2 := by
    simp [valueOf, Cbor.Value.parts, Function.comp_def]
  have hFew := h.keysAscend.2
  have hLength := hSpells.length_le 1800 hParts
  rw [hNumber, show (valueOf fields).textSize = 0 from rfl] at hLength
  rw [maxFields] at hFew
  omega

end SignReview.Screen
