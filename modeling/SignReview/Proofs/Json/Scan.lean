import SignReview.Proofs.Json.Grammar

/-!
# What the automaton reads

`Lexeme.scan` cuts a text into lexemes.  Here it is compared with what a lexeme may be:

* `Lexeme.Legal`: blanks are blanks, and strings and literals are those of the grammar.
* `legal_of_mem_lexemes`: a lexeme that is read is legal, or is left over from a malformed text.
* `lexemes_flatMap_text`, `lexemes_flatMap_text_append`: legal lexemes are read back as they were
  written, if no literal runs into what follows it (`Lexeme.Separated`).
-/

namespace SignReview.Json

open Grammar

namespace Lexeme

def isBlank : Lexeme → Bool
  | .blank _ => true
  | _ => false

def isFault : Lexeme → Bool
  | .unclosed _ | .malformed _ => true
  | _ => false

def Legal : Lexeme → Prop
  | .blank c => c ∈ [0x20, 0x09, 0x0a, 0x0d]
  | .string contents => Contents contents
  | .literal text => Literal text
  | .unclosed _ | .malformed _ => False
  | _ => True

/-- No literal is followed by a lexeme that it would run into. -/
def Separated : List Lexeme → Prop
  | [] => True
  | lexeme :: rest =>
    (∀ text, lexeme = .literal text → ∀ next ∈ rest.head?, next.endsLiteral) ∧ Separated rest

/-! ### Octets by themselves -/

/-- The octets that are a lexeme by themselves: blanks, brackets, colon and comma. -/
def singles : Bytes := [0x20, 0x09, 0x0a, 0x0d, 0x7b, 0x5b, 0x7d, 0x5d, 0x3a, 0x2c]

theorem mem_singles {c : UInt8} {lexeme : Lexeme} (h : ofByte? c = some lexeme) : c ∈ singles := by
  unfold ofByte? at h
  split at h
  case h_11 => cases h
  all_goals decide

theorem ofByte?_eq_none_of_isDigit {c : UInt8} (h : Bytes.isDigit c) : ofByte? c = none := by
  have hSingles : ∀ c ∈ singles, Bytes.isDigit c = false := by decide +kernel
  refine Option.eq_none_iff_forall_ne_some.mpr fun lexeme hByte => ?_
  rw [hSingles c (mem_singles hByte)] at h
  cases h

theorem ofByte?_eq_none_of_mem_marks {c : UInt8} (h : c ∈ marks) : ofByte? c = none := by
  have hMarks : ∀ c ∈ marks, ofByte? c = none := by decide +kernel
  exact hMarks c h

theorem ofByte?_of_literal {text : Bytes} (h : Literal text) {c : UInt8} (hc : c ∈ text) :
    ofByte? c = none := by
  rcases h.mem c hc with hDigit | hMark
  · exact ofByte?_eq_none_of_isDigit hDigit
  · exact ofByte?_eq_none_of_mem_marks hMark

theorem startsLiteral_of_whole {whole : Bytes} (h : Whole whole) :
    ∃ c rest, whole = c :: rest ∧ startsLiteral c := by
  cases h with
  | zero => exact ⟨0x30, [], rfl, by decide⟩
  | @digits c rest hFirst _ _ => exact ⟨c, rest, rfl, by simp [startsLiteral, hFirst]⟩

theorem startsLiteral_of_literal {text : Bytes} (h : Literal text) :
    ∃ c rest, text = c :: rest ∧ startsLiteral c := by
  cases h with
  | word hWord =>
    simp only [List.mem_cons, List.not_mem_nil, or_false] at hWord
    rcases hWord with rfl | rfl | rfl
    · exact ⟨0x74, [0x72, 0x75, 0x65], by decide, by decide⟩
    · exact ⟨0x66, [0x61, 0x6c, 0x73, 0x65], by decide, by decide⟩
    · exact ⟨0x6e, [0x75, 0x6c, 0x6c], by decide, by decide⟩
  | number hNumber =>
    obtain ⟨hMinus, hWhole, -, -⟩ := hNumber
    simp only [List.mem_cons, List.not_mem_nil, or_false] at hMinus
    rcases hMinus with rfl | rfl
    · obtain ⟨c, rest, rfl, hc⟩ := startsLiteral_of_whole hWhole
      exact ⟨c, _, rfl, hc⟩
    · exact ⟨0x2d, _, rfl, by decide⟩

theorem not_quote_of_startsLiteral {c : UInt8} (h : startsLiteral c) : c ≠ 0x22 := by
  rintro rfl
  exact absurd h (by decide)

/-- An octet that is a lexeme by itself begins no string and no literal. -/
theorem scan_of_ofByte? {c : UInt8} {lexeme : Lexeme} (h : ofByte? c = some lexeme)
    (rest : Bytes) : scan .between (c :: rest) = lexeme :: scan .between rest := by
  have hSingles : ∀ c ∈ singles, c ≠ 0x22 ∧ startsLiteral c = false := by decide +kernel
  obtain ⟨hQuote, hStart⟩ := hSingles c (mem_singles h)
  simp [scan, hQuote, hStart, h]

theorem legal_of_ofByte? {c : UInt8} {lexeme : Lexeme} (h : ofByte? c = some lexeme) :
    lexeme.Legal := by
  unfold ofByte? at h
  split at h
  case h_11 => cases h
  all_goals
    obtain rfl := Option.some.inj h
    simp [Legal]

/-! ### Strings -/

/-- What the automaton has read of a string when it is in a certain place. -/
def Inside.Reads : Inside → Bytes → Prop
  | .plain, text => Contents text
  | .escape, text => ∃ done, Contents done ∧ text = done ++ [0x5c]
  | .hex left, text => ∃ done digits, Contents done ∧ (∀ c ∈ digits, Bytes.isHexDigit c) ∧
      digits.length + left = 3 ∧ text = done ++ 0x5c :: 0x75 :: digits

theorem isEscape_iff {c : UInt8} : isEscape c = true ↔ c ∈ escapes := by
  simp [isEscape, escapes, or_assoc]

theorem Inside.reads_hex {left : Nat} {text : Bytes} (h : (Inside.hex left).Reads text) {c : UInt8}
    (hc : Bytes.isHexDigit c) :
    (match left with | 0 => Inside.plain | left + 1 => .hex left).Reads (text ++ [c]) := by
  obtain ⟨done, digits, hDone, hDigits, hLength, rfl⟩ := h
  have hMore : ∀ d ∈ digits ++ [c], Bytes.isHexDigit d := by
    intro d hd
    rcases List.mem_append.mp hd with hd | hd
    · exact hDigits d hd
    · rw [List.mem_singleton.mp hd]
      exact hc
  cases left with
  | zero =>
    match digits, hLength with
    | [d₁, d₂, d₃], _ =>
      have hEscape : Contents [0x5c, 0x75, d₁, d₂, d₃, c] :=
        .unicode (hMore d₁ (by simp)) (hMore d₂ (by simp)) (hMore d₃ (by simp)) hc .nil
      rw [List.append_assoc]
      exact hDone.append hEscape
  | succ left =>
    refine ⟨done, digits ++ [c], hDone, hMore, ?_, by simp⟩
    rw [List.length_append, List.length_singleton]
    omega

theorem Inside.reads_next {inside next : Inside} {text : Bytes} {c : UInt8}
    (h : inside.Reads text) (hNext : inside.next? c = some next)
    (hQuote : ¬(inside = .plain ∧ c = 0x22)) : next.Reads (text ++ [c]) := by
  cases inside with
  | plain =>
    obtain rfl := Option.some.inj hNext
    by_cases hBackslash : c = 0x5c
    · rw [if_pos hBackslash]
      exact ⟨text, h, by rw [hBackslash]⟩
    · rw [if_neg hBackslash]
      exact Contents.append h (.plain (fun hc => hQuote ⟨rfl, hc⟩) hBackslash .nil)
  | escape =>
    obtain ⟨done, hDone, rfl⟩ := h
    rw [Inside.next?] at hNext
    split at hNext
    · next hEscape =>
      obtain rfl := Option.some.inj hNext
      rw [List.append_assoc]
      exact hDone.append (.escape (isEscape_iff.mp hEscape) .nil)
    · split at hNext
      · next hUnicode =>
        obtain rfl := Option.some.inj hNext
        exact ⟨done, [], hDone, by simp, rfl, by simp [hUnicode]⟩
      · cases hNext
  | hex left =>
    by_cases hHex : Bytes.isHexDigit c
    · have hReads := Inside.reads_hex h hHex
      cases left with
      | zero =>
        simp only [Inside.next?, hHex, if_true, Option.some.injEq] at hNext
        exact hNext ▸ hReads
      | succ left =>
        simp only [Inside.next?, hHex, if_true, Option.some.injEq] at hNext
        exact hNext ▸ hReads
    · cases left <;> simp [Inside.next?, hHex] at hNext

theorem scan_quoted_cons {inside next : Inside} {c : UInt8} (h : inside.next? c = some next)
    (hQuote : ¬(inside = .plain ∧ c = 0x22)) (read rest : Bytes) :
    scan (.quoted inside read) (c :: rest) = scan (.quoted next (c :: read)) rest := by
  rw [scan, if_neg hQuote, h]

theorem scan_contents {contents : Bytes} (h : Contents contents) (read rest : Bytes) :
    scan (.quoted .plain read) (contents ++ rest) =
      scan (.quoted .plain (contents.reverse ++ read)) rest := by
  induction h generalizing read with
  | nil => rfl
  | @plain c tail hQuote hBackslash _ ih =>
    have hNext : Inside.plain.next? c = some .plain := by simp [Inside.next?, hBackslash]
    rw [List.cons_append, scan_quoted_cons hNext (fun h => hQuote h.2), ih]
    simp
  | @escape c tail hEscape _ ih =>
    have hBackslash : Inside.plain.next? 0x5c = some .escape := rfl
    have hNext : Inside.escape.next? c = some .plain := by
      simp [Inside.next?, isEscape_iff.mpr hEscape]
    rw [List.cons_append, List.cons_append, scan_quoted_cons hBackslash (by decide),
      scan_quoted_cons hNext (fun h => by cases h.1), ih]
    simp
  | @unicode c₁ c₂ c₃ c₄ tail h₁ h₂ h₃ h₄ _ ih =>
    have hBackslash : Inside.plain.next? 0x5c = some .escape := rfl
    have hUnicode : Inside.escape.next? 0x75 = some (.hex 3) := rfl
    have hHex : ∀ {left : Nat} {c : UInt8}, Bytes.isHexDigit c →
        (Inside.hex (left + 1)).next? c = some (.hex left) := fun h => by simp [Inside.next?, h]
    have hLast : (Inside.hex 0).next? c₄ = some .plain := by simp [Inside.next?, h₄]
    simp only [List.cons_append]
    rw [scan_quoted_cons hBackslash (by decide), scan_quoted_cons hUnicode (by decide),
      scan_quoted_cons (hHex h₁) (by simp), scan_quoted_cons (hHex h₂) (by simp),
      scan_quoted_cons (hHex h₃) (by simp), scan_quoted_cons hLast (by simp), ih]
    simp

theorem scan_string {contents : Bytes} (h : Contents contents) (rest : Bytes) :
    scan .between ((Lexeme.string contents).text ++ rest) =
      .string contents :: scan .between rest := by
  rw [text, List.cons_append, List.cons_append, List.append_assoc, scan, if_pos rfl,
    scan_contents h, List.singleton_append, scan, if_pos ⟨rfl, rfl⟩]
  simp

/-! ### Literals -/

theorem scan_word {text : Bytes} (h : ∀ c ∈ text, ofByte? c = none) (read rest : Bytes) :
    scan (.word read) (text ++ rest) = scan (.word (text.reverse ++ read)) rest := by
  induction text generalizing read with
  | nil => rfl
  | cons c text ih =>
    have hText := ih (fun d hd => h d (List.mem_cons_of_mem c hd)) (c :: read)
    rw [List.cons_append, scan, h c List.mem_cons_self, Option.filter_none]
    simp [hText]

/-- A literal is read to its end where what follows ends it. -/
theorem scan_literal {text : Bytes} (h : Literal text) {rest : Bytes}
    (hRest : ∀ c ∈ rest.head?, ∃ next, ofByte? c = some next ∧ next.endsLiteral) :
    scan .between (text ++ rest) = .literal text :: scan .between rest := by
  have hOctets : ∀ c ∈ text, ofByte? c = none := fun c hc => ofByte?_of_literal h hc
  have hLiteral : Literal.isLiteral text = true := Literal.isLiteral_iff.mpr h
  obtain ⟨c, tail, rfl, hStart⟩ := startsLiteral_of_literal h
  have hWord : scan (.word [c]) (tail ++ rest) = scan (.word (c :: tail).reverse) rest := by
    rw [scan_word (fun d hd => hOctets d (List.mem_cons_of_mem c hd)), List.reverse_cons]
  rw [List.cons_append, scan, if_neg (not_quote_of_startsLiteral hStart), if_pos hStart, hWord]
  cases rest with
  | nil => simp only [scan, List.reverse_reverse, hLiteral, if_true]
  | cons d rest =>
    obtain ⟨next, hByte, hEnds⟩ := hRest d rfl
    rw [scan_of_ofByte? hByte, scan, hByte, Option.filter_some, if_pos hEnds]
    simp only [List.reverse_reverse, hLiteral, if_true]

/-! ### Lists of lexemes -/

theorem endsLiteral_of_isBlank {lexeme : Lexeme} (h : lexeme.isBlank) : lexeme.endsLiteral := by
  cases lexeme with
  | blank c => rfl
  | _ => cases h

theorem ofByte?_of_legal {lexeme : Lexeme} (h : lexeme.Legal)
    (hString : ∀ contents, lexeme ≠ .string contents) (hLiteral : ∀ text, lexeme ≠ .literal text) :
    ∃ c, lexeme.text = [c] ∧ ofByte? c = some lexeme := by
  cases lexeme with
  | blank c =>
    refine ⟨c, rfl, ?_⟩
    simp only [Legal, List.mem_cons, List.not_mem_nil, or_false] at h
    rcases h with rfl | rfl | rfl | rfl <;> rfl
  | opening container => cases container <;> exact ⟨_, rfl, rfl⟩
  | closing container => cases container <;> exact ⟨_, rfl, rfl⟩
  | colon => exact ⟨_, rfl, rfl⟩
  | comma => exact ⟨_, rfl, rfl⟩
  | string contents => exact absurd rfl (hString contents)
  | literal text => exact absurd rfl (hLiteral text)
  | unclosed contents => exact absurd h (by simp [Legal])
  | malformed rest => exact absurd h (by simp [Legal])

theorem ofByte?_of_endsLiteral {lexeme : Lexeme} (h : lexeme.Legal) (hEnds : lexeme.endsLiteral) :
    ∃ c, lexeme.text = [c] ∧ ofByte? c = some lexeme := by
  refine ofByte?_of_legal h ?_ ?_
  · rintro contents rfl
    cases hEnds
  · rintro text rfl
    cases hEnds

theorem Separated.append {left right : List Lexeme} (hLeft : Separated left)
    (hRight : Separated right)
    (hNext : right = [] ∨ ∃ next ∈ right.head?, next.endsLiteral) : Separated (left ++ right) := by
  induction left with
  | nil => exact hRight
  | cons lexeme left ih =>
    refine ⟨fun text hText next hMem => ?_, ih hLeft.2⟩
    cases left with
    | nil =>
      rcases hNext with rfl | ⟨other, hOther, hEnds⟩
      · cases hMem
      · obtain rfl := Option.mem_unique hOther hMem
        exact hEnds
    | cons second left => exact hLeft.1 text hText next hMem

theorem Separated.left {left right : List Lexeme} (h : Separated (left ++ right)) :
    Separated left := by
  induction left with
  | nil => trivial
  | cons lexeme left ih =>
    refine ⟨fun text hText next hNext => ?_, ih h.2⟩
    cases left with
    | nil => cases hNext
    | cons second left => exact h.1 text hText next hNext

/-- Blanks between separated lexemes keep them separated. -/
theorem separated_of_filter {ls : List Lexeme} (h : Separated (ls.filter (!·.isBlank))) :
    Separated ls := by
  induction ls with
  | nil => trivial
  | cons lexeme ls ih =>
    by_cases hBlank : lexeme.isBlank
    · rw [List.filter_cons_of_neg (by simp [hBlank])] at h
      refine ⟨?_, ih h⟩
      rintro text rfl
      cases hBlank
    · rw [List.filter_cons_of_pos (by simp [hBlank])] at h
      refine ⟨fun text hText next hMem => ?_, ih h.2⟩
      cases ls with
      | nil => cases hMem
      | cons second ls =>
        obtain rfl := Option.some.inj hMem
        by_cases hNext : second.isBlank
        · exact endsLiteral_of_isBlank hNext
        · exact h.1 text hText second (by rw [List.filter_cons_of_pos (by simp [hNext])]; rfl)

end Lexeme

open Lexeme

/-- Lexemes that are legal and separated are read back as they were written, whatever follows them,
unless the last is a literal and goes on. -/
theorem lexemes_flatMap_text_append {ls : List Lexeme} {rest : Bytes}
    (hLegal : ∀ lexeme ∈ ls, lexeme.Legal) (hSeparated : Separated ls)
    (hLast : ∀ word, ls.getLast? = some (.literal word) → rest = []) :
    lexemes (ls.flatMap text ++ rest) = ls ++ lexemes rest := by
  unfold lexemes
  induction ls with
  | nil => rfl
  | cons lexeme ls ih =>
    have hFirst := hLegal lexeme List.mem_cons_self
    have hMore : ∀ word, ls.getLast? = some (.literal word) → rest = [] := fun word hWord =>
      hLast word (by rw [List.getLast?_cons, hWord]; rfl)
    have hRest := ih (fun l hl => hLegal l (List.mem_cons_of_mem lexeme hl)) hSeparated.2 hMore
    rw [List.flatMap_cons, List.append_assoc, List.cons_append]
    by_cases hString : ∃ contents, lexeme = .string contents
    · obtain ⟨contents, rfl⟩ := hString
      rw [scan_string hFirst, hRest]
    by_cases hLiteral : ∃ text, lexeme = .literal text
    · obtain ⟨word, rfl⟩ := hLiteral
      rw [text, scan_literal hFirst, hRest]
      intro c hc
      cases ls with
      | nil =>
        rw [hLast word rfl] at hc
        cases hc
      | cons next ls =>
        have hEnds := hSeparated.1 word rfl next rfl
        obtain ⟨d, hText, hByte⟩ := ofByte?_of_endsLiteral (hLegal next (by simp)) hEnds
        rw [List.flatMap_cons, hText] at hc
        obtain rfl := Option.some.inj hc
        exact ⟨next, hByte, hEnds⟩
    · obtain ⟨c, hText, hByte⟩ := ofByte?_of_legal hFirst (fun contents h => hString ⟨contents, h⟩)
        (fun text h => hLiteral ⟨text, h⟩)
      rw [hText, List.singleton_append, scan_of_ofByte? hByte, hRest]

/-- Lexemes that are legal and separated are read back as they were written. -/
theorem lexemes_flatMap_text {ls : List Lexeme} (hLegal : ∀ lexeme ∈ ls, lexeme.Legal)
    (hSeparated : Separated ls) : lexemes (ls.flatMap text) = ls := by
  have hRead := @lexemes_flatMap_text_append ls [] hLegal hSeparated fun _ _ => rfl
  rwa [List.append_nil, show lexemes [] = [] from rfl, List.append_nil] at hRead

/-- What the automaton still has to show for what it has read. -/
def Lexeme.Mode.Reads : Mode → Prop
  | .between => True
  | .quoted inside read => inside.Reads read.reverse
  | .word _ => True

theorem legal_of_mem_scan {mode : Mode} {rest : Bytes} (h : mode.Reads) :
    ∀ lexeme ∈ scan mode rest, lexeme.Legal ∨ lexeme.isFault := by
  fun_induction scan mode rest with
  | case1 => intro lexeme hMem; cases hMem
  | case2 rest ih => exact ih Contents.nil
  | case3 c rest _ _ ih => exact ih trivial
  | case4 c rest _ _ lexeme hByte ih =>
    exact List.forall_mem_cons.mpr ⟨Or.inl (legal_of_ofByte? hByte), ih trivial⟩
  | case5 => simp [isFault]
  | case6 => simp [isFault]
  | case7 inside read c rest hQuote ih =>
    obtain ⟨rfl, rfl⟩ := hQuote
    exact List.forall_mem_cons.mpr ⟨Or.inl h, ih trivial⟩
  | case8 inside read c rest hQuote next hNext ih =>
    apply ih
    rw [Mode.Reads, List.reverse_cons]
    exact Inside.reads_next h hNext hQuote
  | case9 => simp [isFault]
  | case10 read hLiteral =>
    exact List.forall_mem_cons.mpr ⟨Or.inl (Literal.isLiteral_iff.mp hLiteral), by simp⟩
  | case11 => simp [isFault]
  | case12 read c rest _ ih => exact ih trivial
  | case13 read c rest lexeme hByte hLiteral ih =>
    have hLegal := legal_of_ofByte? (Option.filter_eq_some_iff.mp hByte).1
    exact List.forall_mem_cons.mpr ⟨Or.inl (Literal.isLiteral_iff.mp hLiteral),
      List.forall_mem_cons.mpr ⟨Or.inl hLegal, ih trivial⟩⟩
  | case14 => simp [isFault]

/-- A lexeme that is read is legal, unless it is what is left of a malformed text. -/
theorem legal_of_mem_lexemes {text : Bytes} {lexeme : Lexeme} (h : lexeme ∈ lexemes text) :
    lexeme.Legal ∨ lexeme.isFault :=
  legal_of_mem_scan (show Mode.Reads .between from trivial) lexeme h

end SignReview.Json
