import SignReview.Proofs.Json.Children
import SignReview.Proofs.Json.Compact
import SignReview.Proofs.Json.Sorted

/-!
# What canonical form means

The checks of canonical form look at stretches between strings, at neighbouring names and at one
required name after the other.  What they decide is said of the whole document: no octet outside
the contents of strings is whitespace, no name is smaller than one in front of it in any object, and
no required name is missing.

* `Document.IsBlankAt`: whitespace outside the contents of strings,
  `Document.Parsed.hasWhitespace_iff`: it is found wherever it is.
* `Tree.Ordered`: the names of all objects, `Document.Parsed.isSorted_iff_ordered`: how they are
  checked.
* `Tree.names`, `Occurs.requireNames_eq`: the first required name that is missing.
* `Document.canonical_of_parse`: what is said of a document that has been accepted.
-/

namespace SignReview.Json

open Lexeme

/-! ### Strings with their quotes -/

/-- Strings with quotes around them stand one behind the other in a text of `size` octets, the first
of them not in front of `offset`. -/
def Quoted (size : Nat) : Nat → List Token → Prop
  | offset, [] => offset ≤ size
  | offset, token :: tokens =>
    offset < token.start ∧ token.start ≤ token.stop ∧ Quoted size (token.stop + 1) tokens

namespace Quoted

variable {size offset : Nat} {tokens : List Token}

theorem le_size (h : Quoted size offset tokens) : offset ≤ size := by
  induction tokens generalizing offset with
  | nil => exact h
  | cons token tokens ih =>
    obtain ⟨hStart, hStop, hRest⟩ := h
    have hEnd := ih hRest
    omega

theorem lt_start (h : Quoted size offset tokens) : ∀ token ∈ tokens, offset < token.start := by
  induction tokens generalizing offset with
  | nil => exact fun token hToken => absurd hToken List.not_mem_nil
  | cons first tokens ih =>
    obtain ⟨hStart, hStop, hRest⟩ := h
    refine List.forall_mem_cons.mpr ⟨hStart, fun token hToken => ?_⟩
    have hBehind := ih hRest token hToken
    omega

theorem le_of_mem_outside (h : Quoted size offset tokens)
    (hStrings : ∀ token ∈ tokens, token.kind = .string) :
    ∀ gap ∈ Document.outside size offset tokens, gap.1 ≤ gap.2 ∧ gap.2 ≤ size := by
  induction tokens generalizing offset with
  | nil => exact List.forall_mem_singleton.mpr ⟨h, Nat.le_refl size⟩
  | cons token tokens ih =>
    obtain ⟨hStart, hStop, hRest⟩ := h
    obtain ⟨hFirst, hOthers⟩ := List.forall_mem_cons.mp hStrings
    have hEnd := hRest.le_size
    rw [Document.outside, if_pos hFirst]
    exact List.forall_mem_cons.mpr ⟨⟨by dsimp only; omega, by dsimp only; omega⟩, ih hRest hOthers⟩

/-- A place is in one of the stretches if it is in no string and at no quote. -/
theorem exists_outside_iff (h : Quoted size offset tokens)
    (hStrings : ∀ token ∈ tokens, token.kind = .string) {place : Nat} :
    (∃ gap ∈ Document.outside size offset tokens, gap.1 ≤ place ∧ place < gap.2) ↔
      offset ≤ place ∧ place < size ∧
        ∀ token ∈ tokens, place + 1 < token.start ∨ token.stop < place := by
  induction tokens generalizing offset with
  | nil => simp [Document.outside]
  | cons token tokens ih =>
    obtain ⟨hStart, hStop, hRest⟩ := h
    obtain ⟨hFirst, hOthers⟩ := List.forall_mem_cons.mp hStrings
    rw [Document.outside, if_pos hFirst, List.exists_mem_cons_iff, ih hRest hOthers,
      List.forall_mem_cons]
    dsimp only
    constructor
    · rintro (⟨hLow, hHigh⟩ | ⟨hLow, hHigh, hAll⟩)
      · have hEnd := hRest.le_size
        refine ⟨hLow, by omega, Or.inl (by omega), fun other hOther => Or.inl ?_⟩
        have hBehind := hRest.lt_start other hOther
        omega
      · exact ⟨by omega, hHigh, Or.inr (by omega), hAll⟩
    · rintro ⟨hLow, hHigh, hHere | hBehind, hAll⟩
      · exact Or.inl ⟨hLow, by omega⟩
      · exact Or.inr ⟨by omega, hHigh, hAll⟩

end Quoted

theorem quoted_stringsAt {text : Bytes} {pos : Nat → Nat} {k offset : Nat} {ls : List Lexeme}
    (h : Stands text pos k ls) (hOffset : offset ≤ pos k) :
    Quoted text.length offset (stringsAt pos k ls) := by
  induction ls generalizing k offset with
  | nil => exact Nat.le_trans hOffset h
  | cons lexeme ls ih =>
    obtain ⟨_, hNext, hRest⟩ := h
    by_cases hString : ∃ contents, lexeme = .string contents
    · obtain ⟨contents, rfl⟩ := hString
      rw [Lexeme.text, List.length_append, List.length_cons, List.length_singleton] at hNext
      refine ⟨Nat.lt_succ_of_le hOffset, Nat.le_add_right _ _, ih hRest ?_⟩
      dsimp only [Token.quoted]
      omega
    · rw [stringsAt_cons fun contents hEq => hString ⟨contents, hEq⟩]
      exact ih hRest (by omega)

/-! ### Whitespace -/

theorem any_extract_iff {bytes : Bytes} {a b : Nat} {p : UInt8 → Bool} :
    (bytes.extract a b).any p = true ↔
      ∃ place c, a ≤ place ∧ place < b ∧ bytes[place]? = some c ∧ p c = true := by
  rw [List.any_eq_true, List.extract_eq_take_drop]
  constructor
  · rintro ⟨c, hMem, hp⟩
    obtain ⟨n, hn⟩ := List.mem_iff_getElem?.mp hMem
    rw [List.getElem?_take] at hn
    split at hn
    · rename_i hLess
      rw [List.getElem?_drop] at hn
      exact ⟨a + n, c, Nat.le_add_right _ _, by omega, hn, hp⟩
    · cases hn
  · rintro ⟨place, c, hLow, hHigh, hc, hp⟩
    refine ⟨c, List.mem_iff_getElem?.mpr ⟨place - a, ?_⟩, hp⟩
    rw [List.getElem?_take, if_pos (by omega), List.getElem?_drop, Nat.add_sub_cancel' hLow]
    exact hc

namespace Document

/-- Octet `place` is a space, tab, line feed, carriage return, vertical tab or form feed, and lies
outside the contents of each string. -/
def IsBlankAt (doc : Document) (place : Nat) : Prop :=
  ∃ c, doc.bytes[place]? = some c ∧ c ∈ ([0x20, 0x09, 0x0a, 0x0d, 0x0b, 0x0c] : Bytes) ∧
    ∀ token ∈ doc.tokens.toList, token.kind = .string →
      ¬(token.start ≤ place ∧ place < token.stop)

theorem isWhitespace_iff {c : UInt8} :
    isWhitespace c = true ↔ c ∈ ([0x20, 0x09, 0x0a, 0x0d, 0x0b, 0x0c] : Bytes) := by
  have hBounds : (0x09 ≤ c ∧ c ≤ 0x0d) ↔ 9 ≤ c.toNat ∧ c.toNat ≤ 13 := by
    rw [UInt8.le_iff_toNat_le, UInt8.le_iff_toNat_le]
    exact Iff.rfl
  simp only [isWhitespace, Bool.or_eq_true, beq_iff_eq, Bool.and_eq_true, decide_eq_true_eq,
    hBounds, List.mem_cons, List.not_mem_nil, or_false, ← UInt8.toNat_inj]
  have hAll : (0x20 : UInt8).toNat = 32 ∧ (0x09 : UInt8).toNat = 9 ∧ (0x0a : UInt8).toNat = 10 ∧
      (0x0d : UInt8).toNat = 13 ∧ (0x0b : UInt8).toNat = 11 ∧ (0x0c : UInt8).toNat = 12 := by
    decide
  omega

namespace Parsed

variable {doc : Document} {ls : List Lexeme} {root : Tree}

theorem quoted (h : doc.Parsed ls root) :
    Quoted doc.bytes.size 0 (doc.tokens.toList.filter Token.isString) := by
  rw [h.tokens_eq, filter_table, ← Array.length_toList]
  exact quoted_stringsAt h.laid.stands (Nat.zero_le _)

theorem kind_of_mem_filter {token : Token}
    (hToken : token ∈ doc.tokens.toList.filter Token.isString) : token.kind = .string := by
  simpa [Token.isString] using (List.mem_filter.mp hToken).2

/-- In front of a string is a quote, and behind it another. -/
theorem quotes (h : doc.Parsed ls root) {token : Token} (hToken : token ∈ doc.tokens.toList)
    (hString : token.kind = .string) :
    doc.bytes[token.start - 1]? = some 0x22 ∧ doc.bytes[token.stop]? = some 0x22 := by
  have hFits := h.laid.fits token (h.tokens_eq ▸ hToken)
  rw [Token.Fits, hString] at hFits
  obtain ⟨_, hPos, hText⟩ := hFits
  obtain ⟨hOrder, hStop⟩ := h.bounds hToken
  have hLength : (doc.bytes.toList.extract token.start token.stop).length =
      token.stop - token.start := by
    rw [List.extract_eq_take_drop, List.length_take, List.length_drop]
    omega
  have hAt : ∀ n, n < token.stop + 1 - (token.start - 1) →
      doc.bytes[token.start - 1 + n]? =
        (0x22 :: doc.bytes.toList.extract token.start token.stop ++ [0x22])[n]? := by
    intro n hn
    rw [← hText, List.extract_eq_take_drop, List.getElem?_take, if_pos hn, List.getElem?_drop,
      Array.getElem?_toList]
  constructor
  · exact hAt 0 (by omega)
  · have hLast := hAt (token.stop - token.start + 1) (by omega)
    rw [show token.start - 1 + (token.stop - token.start + 1) = token.stop by omega,
      List.cons_append, List.getElem?_cons_succ, ← hLength,
      List.getElem?_concat_length] at hLast
    exact hLast

theorem le_of_mem_outside (h : doc.Parsed ls root) :
    ∀ gap ∈ outside doc.bytes.size 0 doc.tokens.toList,
      gap.1 ≤ gap.2 ∧ gap.2 ≤ doc.bytes.size := by
  rw [← outside_filter]
  exact h.quoted.le_of_mem_outside fun token => kind_of_mem_filter

/-- Whitespace is found if there is some outside the contents of the strings. -/
theorem hasWhitespace_iff (h : doc.Parsed ls root) :
    doc.hasWhitespace = true ↔ ∃ place, doc.IsBlankAt place := by
  have hGap : ∀ {place : Nat},
      (∃ gap ∈ outside doc.bytes.size 0 doc.tokens.toList, gap.1 ≤ place ∧ place < gap.2) ↔
        place < doc.bytes.size ∧ ∀ token ∈ doc.tokens.toList, token.kind = .string →
          place + 1 < token.start ∨ token.stop < place := by
    intro place
    rw [← outside_filter, h.quoted.exists_outside_iff fun token => kind_of_mem_filter]
    simp [Token.isString]
  rw [hasWhitespace, List.any_eq_true]
  constructor
  · rintro ⟨gap, hMem, hAny⟩
    rw [← Array.any_toList, Array.toList_extract, any_extract_iff] at hAny
    obtain ⟨place, c, hLow, hHigh, hc, hBlank⟩ := hAny
    obtain ⟨_, hStrings⟩ := hGap.mp ⟨gap, hMem, hLow, hHigh⟩
    refine ⟨place, c, Array.getElem?_toList ▸ hc, isWhitespace_iff.mp hBlank, ?_⟩
    intro token hToken hString hInside
    have hOutside := hStrings token hToken hString
    omega
  · rintro ⟨place, c, hc, hBlank, hStrings⟩
    obtain ⟨hPlace, _⟩ := Array.getElem?_eq_some_iff.mp hc
    -- whitespace is no quote
    have hQuote : c ≠ 0x22 := by
      rintro rfl
      exact absurd hBlank (by decide +kernel)
    obtain ⟨gap, hMem, hLow, hHigh⟩ := hGap.mpr ⟨hPlace, fun token hToken hString => by
      obtain ⟨hOpening, hClosing⟩ := h.quotes hToken hString
      have hNotFirst : place ≠ token.start - 1 := fun hSame => by
        rw [← hSame, hc] at hOpening
        exact hQuote (Option.some.inj hOpening)
      have hNotLast : place ≠ token.stop := fun hSame => by
        rw [← hSame, hc] at hClosing
        exact hQuote (Option.some.inj hClosing)
      have hNotInside := hStrings token hToken hString
      omega⟩
    refine ⟨gap, hMem, ?_⟩
    rw [← Array.any_toList, Array.toList_extract, any_extract_iff]
    exact ⟨place, c, hLow, hHigh, Array.getElem?_toList ▸ hc, isWhitespace_iff.mpr hBlank⟩

end Parsed

end Document

/-! ### Names in order -/

/-- In each object, at any depth, no name is smaller than one in front of it. -/
def Tree.Ordered (root : Tree) : Prop :=
  ∀ members, root.Contains (.object members) → (members.map Prod.fst).Pairwise (· ≤ ·)

theorem Tree.sorted_iff_ordered {root : Tree} : root.Sorted ↔ root.Ordered := by
  have hObject : ∀ members : List (Bytes × Tree), (Tree.object members).namesAscend = true ↔
      (members.map Prod.fst).Pairwise (· ≤ ·) := fun members => ascending_iff
  constructor
  · exact fun h members hMembers => (hObject members).mp (h _ hMembers)
  · intro h tree hTree
    cases tree with
    | object members => exact (hObject members).mpr (h members hTree)
    | array elements => rfl
    | string contents => rfl
    | literal text => rfl

namespace Document.Parsed

variable {doc : Document} {ls : List Lexeme} {root : Tree}

/-- The check of the names always comes to an answer. -/
theorem isSorted_iff_ordered (h : doc.Parsed ls root) :
    ∃ sorted, doc.isSorted = .ok sorted ∧ (sorted = true ↔ root.Ordered) := by
  by_cases hSorted : root.Sorted
  · exact ⟨true, h.isSorted_of_sorted hSorted,
      ⟨fun _ => Tree.sorted_iff_ordered.mp hSorted, fun _ => rfl⟩⟩
  · have hSome : ∃ tree, root.Contains tree ∧ tree.namesAscend = false := by
      simpa [Tree.Sorted] using hSorted
    obtain ⟨tree, hTree, hNames⟩ := hSome
    refine ⟨false, h.isSorted_of_contains hTree hNames, ⟨fun hFalse => (by cases hFalse), ?_⟩⟩
    exact fun hOrdered => absurd (Tree.sorted_iff_ordered.mpr hOrdered) hSorted

end Document.Parsed

/-! ### Required names -/

def Tree.names : Tree → List Bytes
  | .object members => members.map Prod.fst
  | _ => []

namespace Occurs

variable {doc : Document} {tree : Tree} {i : Nat}

theorem exists_member_iff (h : Occurs doc i tree) {key : Bytes} :
    (∃ value, doc.member i key = .ok value) ↔ key ∈ tree.names := by
  cases tree with
  | object members =>
    have hMembers := h.members.2
    constructor
    · rintro ⟨value, hValue⟩
      obtain ⟨left, name, right, hNames, hKey, _⟩ := (h.listsMembers.found key value).mp hValue
      have hMem : name ∈ nameNumbers (i + 1) members :=
        hNames ▸ List.mem_append_right left List.mem_cons_self
      obtain ⟨m, hm, hName, _⟩ := h.exists_value hMem
      rw [hName.slice_string] at hKey
      exact List.mem_map.mpr ⟨m, hm, Except.ok.inj hKey⟩
    · intro hKey
      obtain ⟨m, hm, rfl⟩ := List.mem_map.mp hKey
      obtain ⟨n, hn⟩ := List.mem_iff_getElem?.mp hm
      obtain ⟨name, hName, hString, _⟩ := Forall₂.exists_getElem? hMembers hn
      cases hMember : doc.member i m.1 with
      | ok value => exact ⟨value, rfl⟩
      | error e =>
        have hMissing := ((h.listsMembers.missing m.1 e).mp hMember).2
        exact absurd hString.slice_string (hMissing name (List.mem_of_getElem? hName))
  | _ =>
    have hRefuses := Document.refusesMembers_of_contents ((h.contents .object).trans rfl)
    simp [Tree.names, hRefuses.member key]

theorem eq_of_member_eq_error (h : Occurs doc i tree) {key : Bytes} {e : Error}
    (hMember : doc.member i key = .error e) : e = .noData ∨ e = .unexpectedType := by
  cases tree with
  | object members => exact Or.inl ((h.listsMembers.missing key e).mp hMember).1
  | _ =>
    have hRefuses := Document.refusesMembers_of_contents ((h.contents .object).trans rfl)
    rw [hRefuses.member key] at hMember
    exact Or.inr (Except.error.inj hMember).symm

/-- What is said is the first required name that is missing. -/
theorem requireNames_eq (h : Occurs doc 0 tree) :
    doc.requireNames =
      ((Document.required.find? fun entry => decide (entry.1 ∉ tree.names)).elim (.ok ())
        fun entry => .error entry.2) := by
  rw [Document.requireNames]
  induction Document.required with
  | nil => rfl
  | cons entry entries ih =>
    obtain ⟨key, missing⟩ := entry
    show (_ >>= fun _ => List.forM entries _) = _
    by_cases hKey : key ∈ tree.names
    · obtain ⟨value, hValue⟩ := h.exists_member_iff.mpr hKey
      rw [List.find?_cons_of_neg (by simpa using hKey), ← ih]
      simp only [hValue]
      rfl
    · rw [List.find?_cons_of_pos (by simpa using hKey)]
      cases hMember : doc.member 0 key with
      | ok value => exact absurd (h.exists_member_iff.mp ⟨value, hMember⟩) hKey
      | error e =>
        rcases h.eq_of_member_eq_error hMember with rfl | rfl
        · simp only [hMember]
          rfl
        · simp only [hMember]
          rfl

theorem requireNames_eq_ok_iff (h : Occurs doc 0 tree) :
    doc.requireNames = .ok () ↔ ∀ entry ∈ Document.required, entry.1 ∈ tree.names := by
  rw [h.requireNames_eq]
  cases hFind : Document.required.find? fun entry => decide (entry.1 ∉ tree.names) with
  | none => simpa using hFind
  | some entry =>
    have hMissing : entry.1 ∉ tree.names := by simpa using List.find?_some hFind
    have hMem := List.mem_of_find?_eq_some hFind
    exact ⟨fun hOk => (by cases hOk), fun hAll => absurd (hAll entry hMem) hMissing⟩

theorem requireNames_of_first (h : Occurs doc 0 tree) {left right : List (Bytes × Error)}
    {entry : Bytes × Error} (hSplit : Document.required = left ++ entry :: right)
    (hLeft : ∀ other ∈ left, other.1 ∈ tree.names) (hEntry : entry.1 ∉ tree.names) :
    doc.requireNames = .error entry.2 := by
  have hFind : (Document.required.find? fun entry => decide (entry.1 ∉ tree.names)) =
      some entry := by
    rw [List.find?_eq_some_iff_append]
    refine ⟨by simpa using hEntry, left, right, hSplit, fun other hOther => ?_⟩
    simpa using hLeft other hOther
  rw [h.requireNames_eq, hFind]
  rfl

end Occurs

/-! ### Canonical documents -/

namespace Document

variable {doc : Document}

theorem checkCanonical_of_blank (h : doc.hasWhitespace = true) :
    doc.checkCanonical = .error .containsWhitespace := by
  rw [checkCanonical, h]
  rfl

theorem checkCanonical_of_unsorted (hBlank : doc.hasWhitespace = false)
    (hSorted : doc.isSorted = .ok false) : doc.checkCanonical = .error .notSorted := by
  rw [checkCanonical, hBlank, hSorted]
  rfl

theorem checkCanonical_of_sorted (hBlank : doc.hasWhitespace = false)
    (hSorted : doc.isSorted = .ok true) : doc.checkCanonical = doc.requireNames := by
  rw [checkCanonical, hBlank, hSorted]
  rfl

/-- A document that has been accepted is canonical if no octet outside the contents of its strings
is whitespace, the names of each object are in order, and the root is an object with all names that
are required.  Otherwise the first of these that fails is reported; of the names it is the first
that is missing.  All stretches that are searched for whitespace are parts of the text. -/
theorem canonical_of_parse {text : Bytes} {limits : Limits}
    (hParse : Document.parse text limits = .ok doc) :
    ∃ ls root, doc.Parsed ls root ∧
      (doc.hasWhitespace = true ↔ ∃ place, doc.IsBlankAt place) ∧
      (∀ token ∈ doc.tokens.toList, token.kind = .string → 0 < token.start) ∧
      (∀ gap ∈ outside doc.bytes.size 0 doc.tokens.toList,
        gap.1 ≤ gap.2 ∧ gap.2 ≤ doc.bytes.size) ∧
      (∃ sorted, doc.isSorted = .ok sorted ∧ (sorted = true ↔ root.Ordered)) ∧
      (doc.checkCanonical = .ok () ↔ (¬∃ place, doc.IsBlankAt place) ∧ root.Ordered ∧
        ∃ members, root = .object members ∧
          ∀ entry ∈ required, entry.1 ∈ members.map Prod.fst) ∧
      ((∃ place, doc.IsBlankAt place) → doc.checkCanonical = .error .containsWhitespace) ∧
      ((¬∃ place, doc.IsBlankAt place) → ¬root.Ordered →
        doc.checkCanonical = .error .notSorted) ∧
      ((¬∃ place, doc.IsBlankAt place) → root.Ordered →
        (∀ left entry right, required = left ++ entry :: right →
          (∀ other ∈ left, other.1 ∈ root.names) → entry.1 ∉ root.names →
          doc.checkCanonical = .error entry.2) ∧
        ((∀ members, root ≠ .object members) →
          doc.checkCanonical = .error .missingChainId)) := by
  obtain ⟨ls, root, h, _⟩ := Document.exists_parsed hParse
  obtain ⟨sorted, hSorted, hOrdered⟩ := h.isSorted_iff_ordered
  have hNoBlank : (¬∃ place, doc.IsBlankAt place) → doc.hasWhitespace = false :=
    fun hNone => Bool.eq_false_iff.mpr fun hSome => hNone (h.hasWhitespace_iff.mp hSome)
  have hRequire : (¬∃ place, doc.IsBlankAt place) → root.Ordered →
      doc.checkCanonical = doc.requireNames := fun hNone hNames =>
    checkCanonical_of_sorted (hNoBlank hNone) (hSorted.trans (congrArg _ (hOrdered.mpr hNames)))
  have hBlank : (∃ place, doc.IsBlankAt place) →
      doc.checkCanonical = .error .containsWhitespace := fun hSome =>
    checkCanonical_of_blank (h.hasWhitespace_iff.mpr hSome)
  have hUnsorted : (¬∃ place, doc.IsBlankAt place) → ¬root.Ordered →
      doc.checkCanonical = .error .notSorted := fun hNone hNames =>
    checkCanonical_of_unsorted (hNoBlank hNone)
      (hSorted.trans (congrArg _ (Bool.eq_false_iff.mpr fun hTrue => hNames (hOrdered.mp hTrue))))
  refine ⟨ls, root, h, h.hasWhitespace_iff, ?strings, h.le_of_mem_outside,
    ⟨sorted, hSorted, hOrdered⟩, ?accepted, hBlank, hUnsorted, ?missing⟩
  case strings =>
    intro token hToken hString
    refine h.quoted.lt_start token (List.mem_filter.mpr ⟨hToken, ?_⟩)
    simpa [Token.isString] using hString
  case accepted =>
    constructor
    · intro hOk
      have hNone : ¬∃ place, doc.IsBlankAt place := fun hSome => by
        rw [hBlank hSome] at hOk
        cases hOk
      have hNames : root.Ordered := by
        by_contra hNot
        rw [hUnsorted hNone hNot] at hOk
        cases hOk
      rw [hRequire hNone hNames, h.occurs.requireNames_eq_ok_iff] at hOk
      refine ⟨hNone, hNames, ?_⟩
      cases root with
      | object members => exact ⟨members, rfl, hOk⟩
      | _ =>
        have hFirst := hOk (Bytes.ofString "chain_id", .missingChainId) List.mem_cons_self
        exact absurd hFirst List.not_mem_nil
    · rintro ⟨hNone, hNames, members, rfl, hAll⟩
      rw [hRequire hNone hNames, h.occurs.requireNames_eq_ok_iff]
      exact hAll
  case missing =>
    intro hNone hNames
    rw [hRequire hNone hNames]
    refine ⟨fun left entry right => h.occurs.requireNames_of_first, fun hNoObject => ?_⟩
    have hEmpty : root.names = [] := by
      cases root with
      | object members => exact absurd rfl (hNoObject members)
      | _ => rfl
    have hSplit : required =
        [] ++ (Bytes.ofString "chain_id", .missingChainId) :: required.tail := rfl
    refine h.occurs.requireNames_of_first hSplit ?_ ?_
    · exact fun other hOther => absurd hOther List.not_mem_nil
    · rw [hEmpty]
      exact List.not_mem_nil

end Document

/-- A space within a string, a name that stands twice, and one required name out of six. -/
def spacedContents : Bytes :=
  Bytes.ofString "\x7b\"chain_id\":\x7b\"a\":\" \",\"a\":2\x7d\x7d"

theorem canonical_of_parse_spacedContents :
    ∃ doc, Document.parse spacedContents {} = .ok doc ∧
      (¬∃ place, doc.IsBlankAt place) ∧
      (∃ ls root, doc.Parsed ls root ∧ root.Ordered ∧ Bytes.ofString "chain_id" ∈ root.names) ∧
      doc.checkCanonical = .error .missingSequence := by
  have hRead : ((Document.parse spacedContents {}).toOption.map fun doc =>
      (doc.hasWhitespace, doc.isSorted.toOption,
        (doc.member 0 (Bytes.ofString "chain_id")).toOption,
        (doc.member 0 (Bytes.ofString "sequence")).toOption)) =
        some (false, some true, some 2, none) := by decide +kernel
  obtain ⟨doc, hParse, hRead⟩ := Option.map_eq_some_iff.mp hRead
  obtain ⟨hNoBlank, hRead⟩ := Prod.mk.inj hRead
  obtain ⟨hSorted, hRead⟩ := Prod.mk.inj hRead
  obtain ⟨hPresent, hMissing⟩ := Prod.mk.inj hRead
  rw [toOption_eq_some_iff] at hParse hSorted hPresent
  obtain ⟨ls, root, hParsed, hBlank, _, _, ⟨sorted, hDecided, hOrdered⟩, _, _, _, hFirst⟩ :=
    Document.canonical_of_parse hParse
  have hNone : ¬∃ place, doc.IsBlankAt place := fun hSome =>
    Bool.false_ne_true (hNoBlank.symm.trans (hBlank.mpr hSome))
  have hNames : root.Ordered := hOrdered.mp (Except.ok.inj (hDecided.symm.trans hSorted))
  have hChain : Bytes.ofString "chain_id" ∈ root.names :=
    hParsed.occurs.exists_member_iff.mp ⟨2, hPresent⟩
  have hSequence : Bytes.ofString "sequence" ∉ root.names := fun hMem => by
    obtain ⟨value, hValue⟩ := hParsed.occurs.exists_member_iff.mpr hMem
    rw [hValue] at hMissing
    cases hMissing
  refine ⟨doc, hParse, hNone, ⟨ls, root, hParsed, hNames, hChain⟩, ?_⟩
  exact (hFirst hNone hNames).1 [Document.required.head (List.cons_ne_nil _ _)]
    (Bytes.ofString "sequence", .missingSequence) _ rfl
    (List.forall_mem_singleton.mpr hChain) hSequence

end SignReview.Json
