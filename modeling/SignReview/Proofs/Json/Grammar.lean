import SignReview.Json.Lexeme

/-!
# The words of JSON

What may stand between two quotes, and what a literal is, as grammars: they say which texts are
admitted and not how one is read.  The readers of `Json/Literal.lean` are measured against them.

* `Grammar.Contents`: any octets but quote and backslash, and the escapes.
* `Grammar.Number`, `Grammar.Literal`: numbers, and numbers or words.
* `isLiteral_iff`: a text is taken for a literal exactly if it is one.
* `Grammar.Literal.mem`: the octets of a literal; no blank, comma or bracket is among them.
-/

namespace SignReview.Json

namespace Grammar

/-- What may follow a backslash as it is: a quote, backslash or slash, or one of b, f, n, r, t. -/
def escapes : Bytes := [0x22, 0x5c, 0x2f, 0x62, 0x66, 0x6e, 0x72, 0x74]

inductive Contents : Bytes → Prop
  | nil : Contents []
  | plain {c : UInt8} {rest : Bytes} : c ≠ 0x22 → c ≠ 0x5c → Contents rest → Contents (c :: rest)
  | escape {c : UInt8} {rest : Bytes} : c ∈ escapes → Contents rest → Contents (0x5c :: c :: rest)
  | unicode {a b c d : UInt8} {rest : Bytes} : Bytes.isHexDigit a → Bytes.isHexDigit b →
      Bytes.isHexDigit c → Bytes.isHexDigit d → Contents rest →
      Contents (0x5c :: 0x75 :: a :: b :: c :: d :: rest)

def Digits (text : Bytes) : Prop := text ≠ [] ∧ ∀ c ∈ text, Bytes.isDigit c

/-- A zero, or digits of which the first is not zero. -/
inductive Whole : Bytes → Prop
  | zero : Whole [0x30]
  | digits {c : UInt8} {rest : Bytes} : Bytes.isDigit c → c ≠ 0x30 → (∀ d ∈ rest, Bytes.isDigit d) →
      Whole (c :: rest)

inductive Fraction : Bytes → Prop
  | none : Fraction []
  | digits {ds : Bytes} : Digits ds → Fraction (0x2e :: ds)

/-- Nothing, or the letter `e` or `E`, perhaps a sign, and digits. -/
inductive Exponent : Bytes → Prop
  | none : Exponent []
  | digits {e : UInt8} {sign ds : Bytes} : e = 0x65 ∨ e = 0x45 → sign ∈ [[], [0x2b], [0x2d]] →
      Digits ds → Exponent (e :: (sign ++ ds))

/-- Perhaps a minus sign, then a whole part, a fraction and an exponent. -/
inductive Number : Bytes → Prop
  | mk {minus whole fraction exponent : Bytes} : minus ∈ [[], [0x2d]] → Whole whole →
      Fraction fraction → Exponent exponent → Number (minus ++ (whole ++ (fraction ++ exponent)))

/-- One of the words `true`, `false` and `null`, or a number. -/
inductive Literal : Bytes → Prop
  | word {text : Bytes} : text ∈ [Bytes.ofString "true", Bytes.ofString "false",
      Bytes.ofString "null"] → Literal text
  | number {text : Bytes} : Number text → Literal text

/-! ### Contents -/

theorem Contents.append {left right : Bytes} (hLeft : Contents left) (hRight : Contents right) :
    Contents (left ++ right) := by
  induction hLeft with
  | nil => exact hRight
  | plain hQuote hBackslash _ ih => exact .plain hQuote hBackslash ih
  | escape hEscape _ ih => exact .escape hEscape ih
  | unicode ha hb hc hd _ ih => exact .unicode ha hb hc hd ih

/-! ### The octets of a literal -/

def marks : Bytes :=
  [0x2b, 0x2d, 0x2e, 0x45, 0x61, 0x65, 0x66, 0x6c, 0x6e, 0x72, 0x73, 0x74, 0x75]

theorem Whole.mem {text : Bytes} (h : Whole text) : ∀ c ∈ text, Bytes.isDigit c := by
  intro c hc
  cases h with
  | zero =>
    obtain rfl := List.mem_singleton.mp hc
    decide
  | digits hFirst _ hRest =>
    rcases List.mem_cons.mp hc with rfl | hc
    · exact hFirst
    · exact hRest c hc

theorem Fraction.mem {text : Bytes} (h : Fraction text) :
    ∀ c ∈ text, Bytes.isDigit c ∨ c ∈ marks := by
  cases h with
  | none => intro c hc; cases hc
  | digits hDigits =>
    intro c hc
    rcases List.mem_cons.mp hc with rfl | hc
    · exact Or.inr (by decide)
    · exact Or.inl (hDigits.2 c hc)

theorem Exponent.mem {text : Bytes} (h : Exponent text) :
    ∀ c ∈ text, Bytes.isDigit c ∨ c ∈ marks := by
  cases h with
  | none => intro c hc; cases hc
  | @digits e sign ds he hSign hDigits =>
    intro c hc
    rcases List.mem_cons.mp hc with rfl | hc
    · rcases he with rfl | rfl <;> exact Or.inr (by decide)
    rcases List.mem_append.mp hc with hc | hc
    · have hMarks : ∀ s ∈ [[], [0x2b], [0x2d]], ∀ c ∈ s, c ∈ marks := by decide +kernel
      exact Or.inr (hMarks sign hSign c hc)
    · exact Or.inl (hDigits.2 c hc)

theorem Number.mem {text : Bytes} (h : Number text) : ∀ c ∈ text, Bytes.isDigit c ∨ c ∈ marks := by
  obtain ⟨hMinus, hWhole, hFraction, hExponent⟩ := h
  intro c hc
  rcases List.mem_append.mp hc with hc | hc
  · have hMarks : ∀ s ∈ [[], [0x2d]], ∀ c ∈ s, c ∈ marks := by decide +kernel
    exact Or.inr (hMarks _ hMinus c hc)
  rcases List.mem_append.mp hc with hc | hc
  · exact Or.inl (hWhole.mem c hc)
  rcases List.mem_append.mp hc with hc | hc
  · exact hFraction.mem c hc
  · exact hExponent.mem c hc

theorem Literal.mem {text : Bytes} (h : Literal text) :
    ∀ c ∈ text, Bytes.isDigit c ∨ c ∈ marks := by
  cases h with
  | word hWord =>
    have hMarks : ∀ s ∈ [Bytes.ofString "true", Bytes.ofString "false", Bytes.ofString "null"],
        ∀ c ∈ s, c ∈ marks := by decide +kernel
    exact fun c hc => Or.inr (hMarks text hWord c hc)
  | number hNumber => exact hNumber.mem

end Grammar

/-! ### Readers of the parts of a number -/

namespace Literal

open Grammar

theorem digits?_sound {text rest : Bytes} (h : digits? text = some rest) :
    ∃ ds, Digits ds ∧ text = ds ++ rest := by
  unfold digits? at h
  split at h
  · cases h
  · next hSome =>
    obtain rfl := Option.some.inj h
    refine ⟨text.takeWhile Bytes.isDigit, ⟨by simpa using hSome, fun c hc => ?_⟩, ?_⟩
    · exact List.all_eq_true.mp List.all_takeWhile c hc
    · exact (List.takeWhile_append_dropWhile).symm

/-- A reader of digits stops in front of the first octet that is none. -/
theorem digits?_append {ds rest : Bytes} (hDigits : Digits ds)
    (hRest : ∀ c ∈ rest.head?, Bytes.isDigit c = false) : digits? (ds ++ rest) = some rest := by
  have hTake : (ds ++ rest).takeWhile Bytes.isDigit = ds ∧
      (ds ++ rest).dropWhile Bytes.isDigit = rest := by
    rw [List.takeWhile_append_of_pos hDigits.2, List.dropWhile_append_of_pos hDigits.2]
    cases rest with
    | nil => simp
    | cons c rest => simp [hRest c rfl]
  simp [digits?, hTake, hDigits.1]

theorem whole?_sound {text rest : Bytes} (h : whole? text = some rest) :
    ∃ whole, Whole whole ∧ text = whole ++ rest := by
  unfold whole? at h
  split at h
  · obtain rfl := Option.some.inj h
    exact ⟨[0x30], .zero, rfl⟩
  · next hZero =>
    obtain ⟨ds, ⟨hNil, hDigits⟩, rfl⟩ := digits?_sound h
    cases ds with
    | nil => exact absurd rfl hNil
    | cons c ds =>
      refine ⟨c :: ds, .digits (hDigits c (by simp)) ?_ fun d hd => hDigits d (by simp [hd]), rfl⟩
      rintro rfl
      exact hZero (ds ++ rest) rfl

theorem whole?_append {whole rest : Bytes} (hWhole : Whole whole)
    (hRest : ∀ c ∈ rest.head?, Bytes.isDigit c = false) : whole? (whole ++ rest) = some rest := by
  cases hWhole with
  | zero => rfl
  | @digits c ds hFirst hZero hDigits =>
    unfold whole?
    split
    · next heq =>
      rw [List.cons_append, List.cons.injEq] at heq
      exact absurd heq.1 hZero
    · refine digits?_append ⟨by simp, fun d hd => ?_⟩ hRest
      rcases List.mem_cons.mp hd with rfl | hd
      · exact hFirst
      · exact hDigits d hd

theorem fraction?_sound {text rest : Bytes} (h : fraction? text = some rest) :
    ∃ fraction, Fraction fraction ∧ text = fraction ++ rest := by
  unfold fraction? at h
  split at h
  · obtain ⟨ds, hDigits, rfl⟩ := digits?_sound h
    exact ⟨0x2e :: ds, .digits hDigits, rfl⟩
  · exact ⟨[], .none, Option.some.inj h⟩

theorem fraction?_append {fraction exponent : Bytes} (hFraction : Fraction fraction)
    (hExponent : Exponent exponent) : fraction? (fraction ++ exponent) = some exponent := by
  have hHead : ∀ c ∈ exponent.head?, Bytes.isDigit c = false ∧ c ≠ 0x2e := by
    intro c hc
    cases hExponent with
    | none => cases hc
    | digits he _ _ =>
      obtain rfl := Option.some.inj hc
      rcases he with rfl | rfl <;> decide
  cases hFraction with
  | none =>
    unfold fraction?
    split
    · next heq => exact absurd rfl (hHead 0x2e (by rw [← List.nil_append exponent, heq]; rfl)).2
    · rfl
  | digits hDigits => exact digits?_append hDigits fun c hc => (hHead c hc).1

theorem sign_sound (text : Bytes) : ∃ s ∈ [[], [0x2b], [0x2d]], text = s ++ sign text := by
  unfold sign
  split
  · exact ⟨[0x2b], by simp, rfl⟩
  · exact ⟨[0x2d], by simp, rfl⟩
  · exact ⟨[], by simp, rfl⟩

theorem sign_append {s ds : Bytes} (hs : s ∈ [[], [0x2b], [0x2d]]) (hDigits : Digits ds) :
    sign (s ++ ds) = ds := by
  simp only [List.mem_cons, List.not_mem_nil, or_false] at hs
  rcases hs with rfl | rfl | rfl
  · unfold sign
    split
    · next heq =>
      exact absurd (hDigits.2 0x2b (by rw [← List.nil_append ds, heq]; simp)) (by decide)
    · next heq =>
      exact absurd (hDigits.2 0x2d (by rw [← List.nil_append ds, heq]; simp)) (by decide)
    · rfl
  · rfl
  · rfl

theorem exponent?_sound {text rest : Bytes} (h : exponent? text = some rest) :
    ∃ exponent, Exponent exponent ∧ text = exponent ++ rest := by
  have hMarked : ∀ e : UInt8, e = 0x65 ∨ e = 0x45 → ∀ text, digits? (sign text) = some rest →
      ∃ exponent, Exponent exponent ∧ e :: text = exponent ++ rest := by
    intro e he text h
    obtain ⟨s, hs, hText⟩ := sign_sound text
    obtain ⟨ds, hDigits, hSign⟩ := digits?_sound h
    refine ⟨e :: (s ++ ds), .digits he hs hDigits, ?_⟩
    rw [List.cons_append, List.append_assoc, ← hSign, ← hText]
  unfold exponent? at h
  split at h
  · exact hMarked 0x65 (Or.inl rfl) _ h
  · exact hMarked 0x45 (Or.inr rfl) _ h
  · exact ⟨[], .none, Option.some.inj h⟩

theorem exponent?_self {exponent : Bytes} (h : Exponent exponent) :
    exponent? exponent = some [] := by
  cases h with
  | none => rfl
  | @digits e s ds he hs hDigits =>
    have hRead : digits? (sign (s ++ ds)) = some [] := by
      rw [sign_append hs hDigits, ← List.append_nil ds]
      exact digits?_append hDigits fun c hc => by cases hc
    rcases he with rfl | rfl
    · exact hRead
    · exact hRead

theorem minus_sound (text : Bytes) : ∃ m ∈ [[], [0x2d]], text = m ++ minus text := by
  unfold minus
  split
  · exact ⟨[0x2d], by simp, rfl⟩
  · exact ⟨[], by simp, rfl⟩

theorem minus_append {m whole rest : Bytes} (hm : m ∈ [[], [0x2d]]) (hWhole : Whole whole) :
    minus (m ++ (whole ++ rest)) = whole ++ rest := by
  simp only [List.mem_cons, List.not_mem_nil, or_false] at hm
  rcases hm with rfl | rfl
  · unfold minus
    split
    · next heq =>
      cases hWhole with
      | zero => exact absurd (List.cons.inj heq).1 (by decide)
      | digits hFirst _ _ =>
        obtain rfl := (List.cons.inj heq).1
        exact absurd hFirst (by decide)
    · rfl
  · rfl

theorem isNumber_iff {text : Bytes} : isNumber text = true ↔ Number text := by
  unfold isNumber
  rw [beq_iff_eq]
  constructor
  · intro h
    obtain ⟨afterWhole, hReadWhole, h⟩ := Option.bind_eq_some_iff.mp h
    obtain ⟨afterFraction, hReadFraction, hReadExponent⟩ := Option.bind_eq_some_iff.mp h
    obtain ⟨m, hm, hText⟩ := minus_sound text
    obtain ⟨whole, hWhole, hMinus⟩ := whole?_sound hReadWhole
    obtain ⟨fraction, hFraction, rfl⟩ := fraction?_sound hReadFraction
    obtain ⟨exponent, hExponent, rfl⟩ := exponent?_sound hReadExponent
    rw [hText, hMinus, List.append_nil]
    exact .mk hm hWhole hFraction hExponent
  · rintro ⟨hm, hWhole, hFraction, hExponent⟩
    rw [minus_append hm hWhole, whole?_append hWhole, Option.bind_some,
      fraction?_append hFraction hExponent, Option.bind_some, exponent?_self hExponent]
    intro c hc
    cases hFraction with
    | none =>
      cases hExponent with
      | none => cases hc
      | digits he _ _ =>
        obtain rfl := Option.some.inj hc
        rcases he with rfl | rfl <;> decide
    | digits _ =>
      obtain rfl := Option.some.inj hc
      decide

/-- A text is taken for a literal exactly if it is one. -/
theorem isLiteral_iff {text : Bytes} : isLiteral text = true ↔ Grammar.Literal text := by
  rw [isLiteral, Bool.or_eq_true, isNumber_iff, List.contains_iff_mem]
  constructor
  · rintro (h | h)
    · exact .word h
    · exact .number h
  · rintro (h | h)
    · exact Or.inl h
    · exact Or.inr h

end Literal

end SignReview.Json
