import SignReview.Proofs.Json.Budget
import SignReview.Proofs.Json.Parsing

/-!
# Texts that are cut off can be completed

A text is called incomplete only where no octet of it is out of place.  Then the tree that it begins
can be finished: the string that is cut off, then the member or element that is being read, and then
all containers that are open.

* `Lexeme.Inside.exists_contents`: any string that is cut off can be finished.
* `Reading.completion`: the lexemes that finish a reading, `Reading.exists_run_completion`: they
  always do.
* `Document.exists_spells_of_incomplete`: with some octets behind it, a text that is incomplete
  spells a tree.
-/

namespace SignReview.Json

open Lexeme

/-! ### Strings -/

/-- Behind a backslash a letter is put, and hexadecimal digits are filled up with zeros. -/
theorem Lexeme.Inside.exists_contents {inside : Inside} {text : Bytes} (h : inside.Reads text) :
    ∃ more, Grammar.Contents (text ++ more) := by
  cases inside with
  | plain => exact ⟨[], by rwa [List.append_nil]⟩
  | escape =>
    obtain ⟨done, hDone, rfl⟩ := h
    refine ⟨[0x6e], ?_⟩
    rw [List.append_assoc]
    exact hDone.append (.escape (by decide) .nil)
  | hex left =>
    obtain ⟨done, digits, hDone, hDigits, hLength, rfl⟩ := h
    refine ⟨List.replicate (left + 1) 0x30, ?_⟩
    have hAll : ∀ c ∈ digits ++ List.replicate (left + 1) 0x30, Bytes.isHexDigit c := by
      intro c hc
      rcases List.mem_append.mp hc with hc | hc
      · exact hDigits c hc
      · rw [List.eq_of_mem_replicate hc]
        decide
    have hFour : (digits ++ List.replicate (left + 1) 0x30).length = 4 := by
      rw [List.length_append, List.length_replicate]
      omega
    rw [List.append_assoc, List.cons_append, List.cons_append]
    match digits ++ List.replicate (left + 1) 0x30, hFour, hAll with
    | [a, b, c, d], _, hAll =>
      exact hDone.append (.unicode (hAll a (by simp)) (hAll b (by simp)) (hAll c (by simp))
        (hAll d (by simp)) .nil)

/-- A string that is cut off is the last of the lexemes, and its contents are read up to there. -/
def Lexeme.CutOffLast : List Lexeme → Prop
  | [] => True
  | lexeme :: ls =>
    (∀ contents, lexeme = .unclosed contents → ls = [] ∧ ∃ inside : Inside, inside.Reads contents) ∧
      CutOffLast ls

theorem Lexeme.CutOffLast.cons {lexeme : Lexeme} {ls : List Lexeme} (h : CutOffLast ls)
    (hLexeme : ∀ contents, lexeme ≠ .unclosed contents) : CutOffLast (lexeme :: ls) :=
  ⟨fun contents hContents => absurd hContents (hLexeme contents), h⟩

theorem Lexeme.CutOffLast.of_append {left right : List Lexeme} {contents : Bytes}
    (h : CutOffLast (left ++ .unclosed contents :: right)) :
    right = [] ∧ ∃ inside : Inside, inside.Reads contents := by
  induction left with
  | nil => exact h.1 contents rfl
  | cons lexeme left ih => exact ih h.2

theorem Lexeme.cutOffLast_scan {mode : Mode} {rest : Bytes} (h : mode.Reads) :
    CutOffLast (scan mode rest) := by
  have hByte : ∀ {c : UInt8} {lexeme : Lexeme}, ofByte? c = some lexeme →
      ∀ contents, lexeme ≠ .unclosed contents := by
    rintro c _ hc contents rfl
    exact legal_of_ofByte? hc
  fun_induction scan mode rest with
  | case1 => trivial
  | case2 rest ih => exact ih Grammar.Contents.nil
  | case3 c rest _ _ ih => exact ih trivial
  | case4 c rest _ _ lexeme hLexeme ih => exact (ih trivial).cons (hByte hLexeme)
  | case5 => exact CutOffLast.cons trivial (by simp)
  | case6 inside read =>
    refine ⟨fun contents hContents => ⟨rfl, inside, ?_⟩, trivial⟩
    exact Lexeme.unclosed.inj hContents ▸ h
  | case7 inside read c rest _ ih => exact (ih trivial).cons (by simp)
  | case8 inside read c rest hQuote next hNext ih =>
    apply ih
    rw [Mode.Reads, List.reverse_cons]
    exact Inside.reads_next h hNext hQuote
  | case9 => exact CutOffLast.cons trivial (by simp)
  | case10 read _ => exact CutOffLast.cons trivial (by simp)
  | case11 => exact CutOffLast.cons trivial (by simp)
  | case12 read c rest _ ih => exact ih trivial
  | case13 read c rest lexeme hLexeme _ ih =>
    exact ((ih trivial).cons (hByte (Option.filter_eq_some_iff.mp hLexeme).1)).cons (by simp)
  | case14 => exact CutOffLast.cons trivial (by simp)

/-! ### Readings -/

/-- The lexemes that finish what is being read; a value that is missing is a zero. -/
def Focus.completion : Focus → List Lexeme
  | .value => [.literal [0x30]]
  | .name _ => [.string [], .colon, .literal [0x30], .closing .object]
  | .colon _ _ => [.colon, .literal [0x30], .closing .object]
  | .done _ => []

namespace Reading

/-- The lexemes that finish a reading: first what is being read, then the containers around it. -/
def completion (r : Reading) : List Lexeme :=
  r.focus.completion ++ r.parts.map fun part => .closing part.container

theorem exists_run_focus (parts : List Part) (focus : Focus) :
    ∃ tree, focus.completion.foldlM step ⟨parts, focus⟩ = .ok ⟨parts, .done tree⟩ := by
  cases focus with
  | value => exact ⟨_, rfl⟩
  | name before => exact ⟨_, rfl⟩
  | colon before key => exact ⟨_, rfl⟩
  | done tree => exact ⟨tree, rfl⟩

theorem exists_run_parts (parts : List Part) (tree : Tree) :
    ∃ whole, (parts.map fun part => Lexeme.closing part.container).foldlM step
      ⟨parts, .done tree⟩ = .ok ⟨[], .done whole⟩ := by
  induction parts generalizing tree with
  | nil => exact ⟨tree, rfl⟩
  | cons part outer ih =>
    cases part with
    | member before name => exact ih (.object (before ++ [(name, tree)]))
    | element before => exact ih (.array (before ++ [tree]))

/-- Whatever has been read, its completion makes it a tree. -/
theorem exists_run_completion (r : Reading) :
    ∃ tree, r.completion.foldlM step r = .ok ⟨[], .done tree⟩ := by
  obtain ⟨inner, hInner⟩ := exists_run_focus r.parts r.focus
  obtain ⟨tree, hOuter⟩ := exists_run_parts r.parts inner
  refine ⟨tree, ?_⟩
  rw [completion, List.foldlM_append, hInner]
  exact hOuter

theorem legal_of_mem_completion (r : Reading) : ∀ lexeme ∈ r.completion, lexeme.Legal := by
  have hZero : Grammar.Literal [0x30] := Literal.isLiteral_iff.mp (by decide)
  have hEmpty : Grammar.Contents [] := .nil
  rw [completion, List.forall_mem_append]
  refine ⟨?_, fun lexeme hMem => ?_⟩
  · cases r.focus <;> simp [Focus.completion, Legal, hZero, hEmpty]
  · obtain ⟨part, _, rfl⟩ := List.mem_map.mp hMem
    trivial

theorem exists_spells {ls : List Lexeme} {r : Reading} (hLegal : ∀ lexeme ∈ ls, lexeme.Legal)
    (hRun : ls.foldlM step .start = .ok r) : ∃ tree, Spells (ls ++ r.completion) tree := by
  obtain ⟨tree, hCompletion⟩ := exists_run_completion r
  have hAll : (ls ++ r.completion).foldlM step .start = .ok ⟨[], .done tree⟩ := by
    rw [List.foldlM_append, hRun]
    exact hCompletion
  refine ⟨tree, List.forall_mem_append.mpr ⟨hLegal, r.legal_of_mem_completion⟩, ?_⟩
  have hLexemes : tree.lexemes = _ := lexemes_of_run hAll
  exact hLexemes.symm

theorem exists_step_string {r : Reading} (h : r.expected.isName ∨ r.expected.isValue)
    (contents : Bytes) : ∃ next, r.step (.string contents) = .ok next := by
  obtain ⟨parts, focus⟩ := r
  cases focus with
  | value => exact ⟨_, rfl⟩
  | name before => exact ⟨_, rfl⟩
  | colon before key => rcases h with h | h <;> cases h
  | done tree => cases parts <;> rcases h with h | h <;> cases h

end Reading

/-! ### Texts -/

namespace Builder

variable {budget : Nat}

theorem push_ne_incomplete {b : Builder} {token : Token} {change : Builder → Builder} :
    (b.push budget token >>= fun a => Except.ok (change a)) ≠ .error .incompleteJson := by
  rw [push]
  split
  · intro h
    cases h
  · intro h
    cases h

/-- Only a string that is cut off where one may stand is incomplete. -/
theorem unclosed_of_step_eq_incomplete {b : Builder} {lexeme : Lexeme}
    (h : b.step budget lexeme = .error .incompleteJson) :
    (∃ contents, lexeme = .unclosed contents) ∧ (b.expected.isName ∨ b.expected.isValue) := by
  cases effect b lexeme with
  | refuses hStep =>
    rw [hStep] at h
    cases h
  | endsInside contents hLexeme hString _ => exact ⟨⟨contents, hLexeme⟩, hString⟩
  | keeps a _ hStep =>
    rw [hStep] at h
    cases h
  | adds token change _ hStep =>
    rw [hStep] at h
    exact absurd h push_ne_incomplete

/-- The lexemes that the builder has passed are legal and can be read. -/
theorem exists_reading {text : Bytes} (hLength : text.length ≤ Token.openMark)
    {left right : List Lexeme} (hLexemes : lexemes text = left ++ right) {b : Builder}
    (hRun : left.foldlM (step budget) .start = .ok b) :
    (∀ lexeme ∈ left, lexeme.Legal) ∧ ∃ r : Reading, left.foldlM Reading.step .start = .ok r ∧
      b.expected = r.expected := by
  have hLegal : ∀ lexeme ∈ left, lexeme.Legal := fun lexeme hMem => by
    rcases legal_of_mem_lexemes (hLexemes ▸ List.mem_append_left right hMem) with h | hFault
    · exact h
    · rw [isFault_of_run hRun lexeme hMem] at hFault
      cases hFault
  have hShort : (left.flatMap Lexeme.text).length ≤ Token.openMark := by
    rw [← flatMap_text_lexemes text, hLexemes, List.flatMap_append, List.length_append] at hLength
    omega
  obtain ⟨r, hReading, _, rfl⟩ := (run_legal hShort hLegal).mp hRun
  exact ⟨hLegal, r, hReading, rfl⟩

end Builder

theorem Token.exists_spells_of_incomplete {budget : Nat} {text : Bytes}
    (hLength : text.length ≤ Token.openMark)
    (h : Token.table budget text = .error .incompleteJson) :
    ∃ suffix ls tree, Spells ls tree ∧ ls.flatMap Lexeme.text = text ++ suffix := by
  rcases bind_eq_error_iff.mp h with hRun | ⟨b, hRun, _⟩
  · -- The text ends in a string, which is finished first.
    obtain ⟨left, lexeme, right, b, hLexemes, hLeft, hStep⟩ := exists_of_foldlM_eq_error hRun
    obtain ⟨⟨contents, rfl⟩, hString⟩ := Builder.unclosed_of_step_eq_incomplete hStep
    have hCut : CutOffLast (left ++ .unclosed contents :: right) :=
      hLexemes ▸ @cutOffLast_scan .between text trivial
    obtain ⟨rfl, inside, hInside⟩ := hCut.of_append
    obtain ⟨more, hContents⟩ := Inside.exists_contents hInside
    obtain ⟨hLegal, r, hReading, hExpected⟩ := Builder.exists_reading hLength hLexemes hLeft
    obtain ⟨next, hNext⟩ := Reading.exists_step_string (hExpected ▸ hString) (contents ++ more)
    have hWhole : (left ++ [Lexeme.string (contents ++ more)]).foldlM Reading.step .start =
        .ok next := by
      rw [List.foldlM_append, hReading]
      exact foldlM_cons_ok hNext
    have hClosed : (Lexeme.string (contents ++ more)).Legal := hContents
    obtain ⟨tree, hSpells⟩ := Reading.exists_spells
      (List.forall_mem_append.mpr ⟨hLegal, List.forall_mem_singleton.mpr hClosed⟩) hWhole
    refine ⟨more ++ 0x22 :: next.completion.flatMap Lexeme.text, _, tree, hSpells, ?_⟩
    rw [← flatMap_text_lexemes text, hLexemes]
    simp [Lexeme.text]
  · obtain ⟨hLegal, r, hReading, _⟩ :=
      Builder.exists_reading hLength (List.append_nil _).symm hRun
    obtain ⟨tree, hSpells⟩ := Reading.exists_spells hLegal hReading
    refine ⟨r.completion.flatMap Lexeme.text, _, tree, hSpells, ?_⟩
    rw [List.flatMap_append, flatMap_text_lexemes]

/-- A text that is incomplete can be completed. -/
theorem Document.exists_spells_of_incomplete {text : Bytes} {limits : Limits}
    (h : Document.parse text limits = .error .incompleteJson) :
    ∃ suffix ls tree, Spells ls tree ∧ ls.flatMap Lexeme.text = text ++ suffix := by
  rw [Document.parse] at h
  by_cases hLong : limits.maxDocument < text.length
  · rw [if_pos hLong] at h
    cases h
  · rw [if_neg hLong] at h
    have hLength : text.length ≤ Token.openMark :=
      Nat.le_trans (Nat.le_of_not_lt hLong) (Nat.min_le_right _ _)
    rcases bind_eq_error_iff.mp h with hTable | ⟨tokens, _, hDone⟩
    · exact Token.exists_spells_of_incomplete hLength hTable
    · cases hDone

end SignReview.Json
