import Mathlib.Data.Nat.Digits.Defs
import SignReview.Proofs.Screen.Layout

/-!
# Texts in printable ASCII

Each character has one form, of one, two, six or ten octets, and the form of a text is that of its
characters one behind the other.  A form that is not the character itself begins with a backslash,
and the octet behind it tells how long it is.  So the first character can be read off a form, if it
is no backslash, and two texts without backslashes never have the same form.

* `Ascii.Form`: the form of a character, `Ascii.form_iff`: it is what is written.
* `Ascii.next?`: reads a form, `Ascii.Form.next?_append`: it finds the character.
* `Ascii.Spells`: the form of a text, `Ascii.Spells.unique`: of which text it is.
* `Ascii.write_spells`: what is written into a text that need not be empty.
-/

namespace SignReview.Ascii

/-! ### Hexadecimal numbers -/

def hexDigits : Bytes := Bytes.ofString "0123456789ABCDEF"

def hexValue (digits : Bytes) : Nat := Nat.ofDigits 16 (digits.map hexDigits.idxOf).reverse

/-- A number in hexadecimal digits, with zeros in front. -/
structure IsHex (n width : Nat) (digits : Bytes) : Prop where
  length_eq : digits.length = width
  mem : ∀ digit ∈ digits, digit ∈ hexDigits
  value_eq : hexValue digits = n

theorem hexDigit_spec : ∀ n < 16, hexDigit n ∈ hexDigits ∧ hexDigits.idxOf (hexDigit n) = n := by
  decide +kernel

theorem hexValue_cons (digit : UInt8) (digits : Bytes) :
    hexValue (digit :: digits) = hexValue digits + 16 ^ digits.length * hexDigits.idxOf digit := by
  rw [hexValue, List.map_cons, Nat.ofDigits_reverse_cons, List.length_map]
  rfl

theorem isHex_hex (n width : Nat) : IsHex (n % 16 ^ width) width (hex n width) := by
  induction width with
  | zero => exact ⟨rfl, fun _ hDigit => (by cases hDigit), (Nat.mod_one n).symm⟩
  | succ width ih =>
    obtain ⟨hMem, hValue⟩ := hexDigit_spec (n / 16 ^ width % 16) (Nat.mod_lt _ (by decide))
    refine ⟨length_hex n (width + 1), List.forall_mem_cons.mpr ⟨hMem, ih.mem⟩, ?_⟩
    show hexValue (hexDigit (n / 16 ^ width % 16) :: hex n width) = _
    rw [hexValue_cons, ih.value_eq, ih.length_eq, hValue, Nat.mod_pow_succ]

theorem hexDigit_idxOf : ∀ digit ∈ hexDigits, hexDigit (hexDigits.idxOf digit) = digit := by
  decide +kernel

theorem map_hexDigit {digits : Bytes} (h : ∀ digit ∈ digits, digit ∈ hexDigits) :
    (digits.map hexDigits.idxOf).map hexDigit = digits := by
  rw [List.map_map]
  exact (List.map_congr_left fun digit hDigit => hexDigit_idxOf digit (h digit hDigit)).trans
    (List.map_id digits)

theorem IsHex.unique {n width : Nat} {digits digits' : Bytes} (h : IsHex n width digits)
    (h' : IsHex n width digits') : digits = digits' := by
  have hSmall : ∀ {digits : Bytes}, (∀ digit ∈ digits, digit ∈ hexDigits) →
      ∀ value ∈ (digits.map hexDigits.idxOf).reverse, value < 16 := by
    intro digits hDigits value hValue
    obtain ⟨digit, hDigit, rfl⟩ := List.mem_map.mp (List.mem_reverse.mp hValue)
    exact List.idxOf_lt_length_of_mem (hDigits digit hDigit)
  have hLength : (digits.map hexDigits.idxOf).reverse.length =
      (digits'.map hexDigits.idxOf).reverse.length := by
    simp [h.length_eq, h'.length_eq]
  have hValues := Nat.ofDigits_inj_of_len_eq (by decide) hLength (hSmall h.mem) (hSmall h'.mem)
    (h.value_eq.trans h'.value_eq.symm)
  rw [← map_hexDigit h.mem, ← map_hexDigit h'.mem, List.reverse_injective hValues]

theorem isHex_iff {n width : Nat} {digits : Bytes} (h : n < 16 ^ width) :
    IsHex n width digits ↔ digits = hex n width := by
  have hHex := isHex_hex n width
  rw [Nat.mod_eq_of_lt h] at hHex
  exact ⟨fun hDigits => hDigits.unique hHex, fun hDigits => hDigits ▸ hHex⟩

/-! ### Forms of characters -/

/-- The code points of the control characters with an escape of their own, which are the bell,
backspace, form feed, line feed, carriage return, tab and vertical tab, and the letters of these
escapes. -/
def letters : List (Nat × UInt8) :=
  [0x07, 0x08, 0x0c, 0x0a, 0x0d, 0x09, 0x0b].zip (Bytes.ofString "abfnrtv")

/-- The form of a character: itself if it is printable, a backslash and a letter if it is one of
those above, and else a backslash, a letter and the digits of its code point. -/
inductive Form (c : Char) : Bytes → Prop
  | printable (hLeast : 0x20 ≤ c.toNat) (hMost : c.toNat ≤ 0x7e) : Form c [UInt8.ofNat c.toNat]
  | letter {letter : UInt8} (hLetter : (c.toNat, letter) ∈ letters) : Form c [0x5c, letter]
  | short {digits : Bytes} (hPrintable : ¬(0x20 ≤ c.toNat ∧ c.toNat ≤ 0x7e))
      (hLetter : ∀ letter, (c.toNat, letter) ∉ letters) (hShort : c.toNat ≤ 0xffff)
      (hDigits : IsHex c.toNat 4 digits) : Form c (0x5c :: 0x75 :: digits)
  | long {digits : Bytes} (hLong : 0xffff < c.toNat) (hDigits : IsHex c.toNat 8 digits) :
      Form c (0x5c :: 0x55 :: digits)

theorem isPrintable_iff {c : Char} :
    isPrintable c = true ↔ 0x20 ≤ c.toNat ∧ c.toNat ≤ 0x7e := by
  rw [isPrintable, Bool.and_eq_true, decide_eq_true_eq, decide_eq_true_eq]

theorem escapeLetter?_eq_some_iff {c : Char} {letter : UInt8} :
    escapeLetter? c = some letter ↔ (c.toNat, letter) ∈ letters := by
  have hLetters : letters = [(0x07, 0x61), (0x08, 0x62), (0x0c, 0x66), (0x0a, 0x6e), (0x0d, 0x72),
      (0x09, 0x74), (0x0b, 0x76)] := by decide +kernel
  rw [hLetters, escapeLetter?]
  split <;> simp_all [eq_comm]

theorem escapeLetter?_eq_none_iff {c : Char} :
    escapeLetter? c = none ↔ ∀ letter, (c.toNat, letter) ∉ letters := by
  rw [Option.eq_none_iff_forall_ne_some]
  exact forall_congr' fun letter => not_congr escapeLetter?_eq_some_iff

theorem lt_of_mem_letters : ∀ entry ∈ letters, entry.1 < 0x20 := by decide +kernel

theorem toNat_lt (c : Char) : c.toNat < 16 ^ 8 := c.val.toNat_lt

theorem pieces_of_printable {c : Char} (h : 0x20 ≤ c.toNat ∧ c.toNat ≤ 0x7e) :
    pieces c = [[UInt8.ofNat c.toNat]] := by
  rw [pieces, if_pos (isPrintable_iff.mpr h)]

theorem pieces_of_letter {c : Char} {letter : UInt8} (h : (c.toNat, letter) ∈ letters) :
    pieces c = [[0x5c, letter]] := by
  have hPrintable : ¬isPrintable c = true := fun hPrintable => by
    have hControl := lt_of_mem_letters _ h
    have hLeast := (isPrintable_iff.mp hPrintable).1
    omega
  rw [pieces, if_neg hPrintable, escapeLetter?_eq_some_iff.mpr h]

theorem pieces_of_digits {c : Char} (hPrintable : ¬(0x20 ≤ c.toNat ∧ c.toNat ≤ 0x7e))
    (hLetter : ∀ letter, (c.toNat, letter) ∉ letters) :
    (pieces c).flatten =
      if c.toNat ≤ 0xffff then 0x5c :: 0x75 :: hex c.toNat 4
      else 0x5c :: 0x55 :: hex c.toNat 8 := by
  rw [pieces, if_neg (mt isPrintable_iff.mp hPrintable), escapeLetter?_eq_none_iff.mpr hLetter]
  dsimp only
  split <;> rw [List.flatten_cons, flatten_map_singleton] <;> rfl

/-- Each character has a form, and what is written is the only one. -/
theorem form_iff {c : Char} {bytes : Bytes} : Form c bytes ↔ bytes = (pieces c).flatten := by
  have hCode := toNat_lt c
  constructor
  · intro h
    cases h with
    | printable hLeast hMost =>
      rw [pieces_of_printable ⟨hLeast, hMost⟩, List.flatten_singleton]
    | letter hLetter => rw [pieces_of_letter hLetter, List.flatten_singleton]
    | short hPrintable hLetter hShort hDigits =>
      rw [pieces_of_digits hPrintable hLetter, if_pos hShort, (isHex_iff (by omega)).mp hDigits]
    | long hLong hDigits =>
      have hLetter : ∀ letter, (c.toNat, letter) ∉ letters := fun letter hMem => by
        have hControl := lt_of_mem_letters _ hMem
        omega
      rw [pieces_of_digits (by omega) hLetter, if_neg (by omega), (isHex_iff hCode).mp hDigits]
  · rintro rfl
    by_cases hPrintable : 0x20 ≤ c.toNat ∧ c.toNat ≤ 0x7e
    · rw [pieces_of_printable hPrintable, List.flatten_singleton]
      exact .printable hPrintable.1 hPrintable.2
    · by_cases hLetter : ∃ letter, (c.toNat, letter) ∈ letters
      · obtain ⟨letter, hMem⟩ := hLetter
        rw [pieces_of_letter hMem, List.flatten_singleton]
        exact .letter hMem
      · rw [not_exists] at hLetter
        rw [pieces_of_digits hPrintable hLetter]
        split
        · rename_i hShort
          exact .short hPrintable hLetter hShort ((isHex_iff (by omega)).mpr rfl)
        · rename_i hLong
          exact .long (by omega) ((isHex_iff hCode).mpr rfl)

theorem toNat_ofNat_of_printable {c : Char} (h : c.toNat ≤ 0x7e) :
    (UInt8.ofNat c.toNat).toNat = c.toNat := by
  rw [UInt8.toNat_ofNat']
  omega

theorem Form.printable_of_mem {c : Char} {bytes : Bytes} (h : Form c bytes) :
    ∀ byte ∈ bytes, 0x20 ≤ byte ∧ byte ≤ 0x7e := by
  have hHexDigits : ∀ digit ∈ hexDigits, 0x20 ≤ digit ∧ digit ≤ 0x7e := by decide +kernel
  have hLetters : ∀ entry ∈ letters, 0x20 ≤ entry.2 ∧ entry.2 ≤ 0x7e := by decide +kernel
  cases h with
  | printable hLeast hMost =>
    refine List.forall_mem_singleton.mpr ?_
    rw [UInt8.le_iff_toNat_le, UInt8.le_iff_toNat_le, toNat_ofNat_of_printable hMost]
    exact ⟨hLeast, hMost⟩
  | letter hLetter =>
    exact List.forall_mem_cons.mpr ⟨by decide, List.forall_mem_singleton.mpr (hLetters _ hLetter)⟩
  | short _ _ _ hDigits =>
    exact List.forall_mem_cons.mpr ⟨by decide, List.forall_mem_cons.mpr ⟨by decide,
      fun digit hDigit => hHexDigits digit (hDigits.mem digit hDigit)⟩⟩
  | long _ hDigits =>
    exact List.forall_mem_cons.mpr ⟨by decide, List.forall_mem_cons.mpr ⟨by decide,
      fun digit hDigit => hHexDigits digit (hDigits.mem digit hDigit)⟩⟩

/-! ### Reading forms -/

/-- What stands behind a backslash: the code point of a character, and the octets behind it. -/
def nextEscape? : Bytes → Option (Nat × Bytes)
  | [] => none
  | kind :: rest =>
    if kind = 0x75 then some (hexValue (rest.take 4), rest.drop 4)
    else if kind = 0x55 then some (hexValue (rest.take 8), rest.drop 8)
    else (letters.find? fun entry => entry.2 == kind).map fun entry => (entry.1, rest)

/-- The code point of the first character of a form, and the octets behind it. -/
def next? : Bytes → Option (Nat × Bytes)
  | [] => none
  | first :: rest => if first = 0x5c then nextEscape? rest else some (first.toNat, rest)

/-- The first character of a form can be read, if it is no backslash. -/
theorem Form.next?_append {c : Char} {bytes : Bytes} (h : Form c bytes) (hChar : c ≠ '\\')
    (rest : Bytes) : next? (bytes ++ rest) = some (c.toNat, rest) := by
  have hLetters : ∀ entry ∈ letters, entry.2 ≠ 0x75 ∧ entry.2 ≠ 0x55 ∧
      letters.find? (fun other => other.2 == entry.2) = some entry := by decide +kernel
  cases h with
  | printable hLeast hMost =>
    have hOther : UInt8.ofNat c.toNat ≠ 0x5c := by
      intro hBackslash
      have hCode := toNat_ofNat_of_printable hMost
      rw [hBackslash] at hCode
      exact hChar (Char.toNat_inj.mp hCode.symm)
    rw [List.singleton_append, next?, if_neg hOther, toNat_ofNat_of_printable hMost]
  | letter hLetter =>
    obtain ⟨hShort, hLong, hFind⟩ := hLetters _ hLetter
    simp [next?, nextEscape?, hShort, hLong, hFind]
  | short _ _ _ hDigits =>
    simp [next?, nextEscape?, List.take_left' hDigits.length_eq, List.drop_left' hDigits.length_eq,
      hDigits.value_eq]
  | long _ hDigits =>
    simp [next?, nextEscape?, List.take_left' hDigits.length_eq, List.drop_left' hDigits.length_eq,
      hDigits.value_eq]

theorem eq_of_forms {chars others : List Char} {forms forms' : List Bytes}
    (h : List.Forall₂ Form chars forms) (h' : List.Forall₂ Form others forms')
    (hChars : '\\' ∉ chars) (hOthers : '\\' ∉ others)
    (hSame : forms.flatten = forms'.flatten) : chars = others := by
  induction h generalizing others forms' with
  | nil =>
    cases h' with
    | nil => rfl
    | @cons _ _ _ rest hForm _ =>
      rw [List.mem_cons, not_or] at hOthers
      have hRead := hForm.next?_append (Ne.symm hOthers.1) rest.flatten
      rw [← List.flatten_cons, ← hSame] at hRead
      cases hRead
  | @cons _ _ _ rest hForm _ ih =>
    rw [List.mem_cons, not_or] at hChars
    have hRead := hForm.next?_append (Ne.symm hChars.1) rest.flatten
    rw [← List.flatten_cons, hSame] at hRead
    cases h' with
    | nil => cases hRead
    | cons hForm' hForms' =>
      rw [List.mem_cons, not_or] at hOthers
      rw [List.flatten_cons, hForm'.next?_append (Ne.symm hOthers.1)] at hRead
      obtain ⟨hCode, hRest⟩ := Prod.mk.inj (Option.some.inj hRead)
      rw [Char.toNat_inj.mp hCode, ih hForms' hChars.2 hOthers.2 hRest.symm]

/-! ### Forms of texts -/

/-- The form of a text: the forms of its characters, one behind the other. -/
def Spells (text : String) (bytes : Bytes) : Prop :=
  ∃ forms, List.Forall₂ Form text.toList forms ∧ forms.flatten = bytes

theorem forall₂_form_iff {chars : List Char} {forms : List Bytes} :
    List.Forall₂ Form chars forms ↔ forms = chars.map fun c => (pieces c).flatten := by
  induction chars generalizing forms with
  | nil => exact List.forall₂_nil_left_iff
  | cons c chars ih => simp [List.forall₂_cons_left_iff, form_iff, ih]

theorem flatten_flatMap_pieces (chars : List Char) :
    (chars.flatMap pieces).flatten = (chars.map fun c => (pieces c).flatten).flatten := by
  rw [List.flatMap_def, List.flatten_flatten, List.map_map]
  rfl

theorem spells_iff {text : String} {bytes : Bytes} : Spells text bytes ↔ bytes = expand text := by
  rw [expand, flatten_flatMap_pieces]
  constructor
  · rintro ⟨forms, hForms, rfl⟩
    rw [forall₂_form_iff.mp hForms]
  · rintro rfl
    exact ⟨_, forall₂_form_iff.mpr rfl, rfl⟩

theorem printable_of_mem_expand {text : String} :
    ∀ byte ∈ expand text, 0x20 ≤ byte ∧ byte ≤ 0x7e := by
  intro byte hByte
  obtain ⟨piece, hPiece, hByte⟩ := List.mem_flatten.mp hByte
  obtain ⟨c, _, hPiece⟩ := List.mem_flatMap.mp hPiece
  exact (form_iff.mpr rfl).printable_of_mem byte (List.mem_flatten_of_mem hPiece hByte)

/-- Texts without backslashes are told apart by their forms. -/
theorem Spells.unique {text other : String} {bytes : Bytes} (h : Spells text bytes)
    (h' : Spells other bytes) (hText : '\\' ∉ text.toList) (hOther : '\\' ∉ other.toList) :
    text = other := by
  obtain ⟨forms, hForms, hBytes⟩ := h
  obtain ⟨forms', hForms', hBytes'⟩ := h'
  exact String.toList_inj.mp
    (eq_of_forms hForms hForms' hText hOther (hBytes.trans hBytes'.symm))

/-- Whatever has been written before, a text is written in its form if there is room for it, and
else as much of its form as is done until there is none.  The form is printable and at most six
times as long as the text, and of two texts without backslashes it is the form of only one. -/
theorem write_spells (capacity : Nat) (text : String) (before : Bytes)
    (hBefore : before.length ≤ capacity) :
    (∀ bytes, Spells text bytes ↔ bytes = expand text) ∧
      (before.length + (expand text).length ≤ capacity →
        (write capacity text).run before = .ok () (before ++ expand text)) ∧
      (capacity < before.length + (expand text).length → ∃ part, part <+: expand text ∧
        (write capacity text).run before = .error .bufferOverflow (before ++ part)) ∧
      (∀ byte ∈ expand text, 0x20 ≤ byte ∧ byte ≤ 0x7e) ∧
      (expand text).length ≤ 6 * text.utf8ByteSize ∧
      ('\\' ∉ text.toList → ∀ other : String, '\\' ∉ other.toList →
        Spells other (expand text) → other = text) := by
  refine ⟨fun bytes => spells_iff, fun hRoom => Writer.run_append_of_le hRoom, fun hLess => ?_,
    printable_of_mem_expand, length_expand_le text, fun hText other hOther hSame => ?_⟩
  · obtain ⟨taken, ⟨rest, hPieces⟩, hRun⟩ := Writer.run_append_of_lt hBefore hLess
    exact ⟨taken.flatten, ⟨rest.flatten, by rw [expand, ← hPieces, List.flatten_append]⟩, hRun⟩
  · exact hSame.unique (spells_iff.mpr rfl) hOther hText

def accentAndTab : String := String.ofList [Char.ofNat 0xe9, Char.ofNat 0x09]

theorem write_spells_accentAndTab :
    expand accentAndTab = Bytes.ofString "\\u00E9\\t" ∧
      (write 10 accentAndTab).run (Bytes.ofString "> ") =
        .ok () (Bytes.ofString "> \\u00E9\\t") ∧
      (∃ part, part <+: expand accentAndTab ∧ (write 9 accentAndTab).run (Bytes.ofString "> ") =
        .error .bufferOverflow (Bytes.ofString "> " ++ part)) ∧
      ∀ other : String, '\\' ∉ other.toList → Spells other (expand accentAndTab) →
        other = accentAndTab := by
  have hForm : expand accentAndTab = Bytes.ofString "\\u00E9\\t" := by decide +kernel
  have hLength : (Bytes.ofString "> ").length = 2 ∧ (expand accentAndTab).length = 8 := by
    decide +kernel
  have hText : '\\' ∉ accentAndTab.toList := by decide +kernel
  obtain ⟨_, hRoom, _, _, _, hUnique⟩ :=
    write_spells 10 accentAndTab (Bytes.ofString "> ") (by omega)
  obtain ⟨_, _, hFull, _⟩ := write_spells 9 accentAndTab (Bytes.ofString "> ") (by omega)
  refine ⟨hForm, ?_, hFull (by omega), hUnique hText⟩
  rw [hRoom (by omega), hForm]
  exact congrArg (EStateM.Result.ok ()) (by decide +kernel)

/-- A backslash in a text is not told apart from that of a form. -/
example : expand "\\t" = expand "\t" := by decide +kernel

end SignReview.Ascii
