import SignReview.Proofs.Amount.Coins
import SignReview.Proofs.Json.Grammar
import Mathlib.Algebra.Order.Field.Rat
import Mathlib.Data.List.TakeWhile
import Mathlib.Tactic.FieldSimp
import Mathlib.Tactic.Positivity
import Mathlib.Tactic.Ring

/-!
# Amounts as numbers

An amount is converted by moving digits: zeros are taken off or put in front, a point is set, and
zeros are taken off at the end.  None of this changes the number that is denoted, and what comes out
is the one numeral of this number that is in normal form.

* `Numeral.count`: the number of a run of digits, `Numeral.value`: that of digits with a point.
* `Numeral.Normal`: numerals in normal form, `Numeral.Normal.eq_of_value_eq`: no number has two.
* `Decimal.Reads`: the digits of an amount cut at the point, `Decimal.Reads.normal_trimmed`: what
  is left of them is in normal form.
* `Decimal.run_write_spec`: what is written into a text that need not be empty.
-/

namespace SignReview

open Json.Grammar (Digits Whole)

namespace Numeral

/-! ### Runs of digits -/

def count (digits : Bytes) : Nat :=
  digits.foldl (fun n digit => 10 * n + (digit.toNat - 0x30)) 0

theorem foldl_count (n : Nat) (digits : Bytes) :
    digits.foldl (fun n digit => 10 * n + (digit.toNat - 0x30)) n =
      n * 10 ^ digits.length + count digits := by
  induction digits generalizing n with
  | nil => simp [count]
  | cons digit digits ih =>
    rw [count, List.foldl_cons, List.foldl_cons, ih, ih (10 * 0 + _), List.length_cons]
    ring

theorem count_append (a b : Bytes) : count (a ++ b) = count a * 10 ^ b.length + count b := by
  rw [count, List.foldl_append, foldl_count]
  rfl

theorem count_cons (digit : UInt8) (digits : Bytes) :
    count (digit :: digits) = (digit.toNat - 0x30) * 10 ^ digits.length + count digits := by
  rw [← List.singleton_append, count_append]
  simp [count]

theorem count_concat (digits : Bytes) (digit : UInt8) :
    count (digits ++ [digit]) = 10 * count digits + (digit.toNat - 0x30) := by
  rw [count, List.foldl_concat]
  rfl

theorem count_zeros (n : Nat) : count (List.replicate n 0x30) = 0 := by
  induction n with
  | zero => rfl
  | succ n ih => simp [List.replicate_succ, count_cons, ih]

theorem count_dropWhile (digits : Bytes) : count (digits.dropWhile (· == 0x30)) = count digits := by
  induction digits with
  | nil => rfl
  | cons digit digits ih =>
    rw [List.dropWhile_cons]
    split
    · rename_i hZero
      rw [ih, count_cons, eq_of_beq hZero]
      simp
    · rfl

theorem isDigit_iff {c : UInt8} : Bytes.isDigit c ↔ 0x30 ≤ c.toNat ∧ c.toNat ≤ 0x39 := by
  rw [Bytes.isDigit, Bool.and_eq_true, decide_eq_true_eq, decide_eq_true_eq, UInt8.le_iff_toNat_le,
    UInt8.le_iff_toNat_le]
  exact Iff.rfl

theorem count_lt {digits : Bytes} (h : ∀ c ∈ digits, Bytes.isDigit c) :
    count digits < 10 ^ digits.length := by
  induction digits with
  | nil => simp [count]
  | cons digit digits ih =>
    obtain ⟨hDigit, hDigits⟩ := List.forall_mem_cons.mp h
    have hRest := ih hDigits
    have hLow : digit.toNat - 0x30 ≤ 9 := by
      have := isDigit_iff.mp hDigit
      omega
    have hFirst := Nat.mul_le_mul_right (10 ^ digits.length) hLow
    rw [count_cons, List.length_cons, pow_succ]
    omega

theorem eq_of_mul_add_eq {m a b r s : Nat} (hr : r < m) (hs : s < m)
    (h : a * m + r = b * m + s) : a = b ∧ r = s := by
  have hQuotient := congrArg (· / m) h
  have hSame : a = b := by
    simpa [Nat.mul_comm _ m, Nat.mul_add_div (Nat.zero_lt_of_lt hr), Nat.div_eq_of_lt, hr,
      hs] using hQuotient
  exact ⟨hSame, Nat.add_left_cancel (hSame ▸ h)⟩

/-- Runs of the same length that denote the same number are the same. -/
theorem eq_of_count_eq {a b : Bytes} (ha : ∀ c ∈ a, Bytes.isDigit c) (hb : ∀ c ∈ b, Bytes.isDigit c)
    (hLength : a.length = b.length) (hCount : count a = count b) : a = b := by
  induction a generalizing b with
  | nil => exact (List.length_eq_zero_iff.mp hLength.symm).symm
  | cons c a ih =>
    cases b with
    | nil => cases hLength
    | cons d b =>
      obtain ⟨hc, ha⟩ := List.forall_mem_cons.mp ha
      obtain ⟨hd, hb⟩ := List.forall_mem_cons.mp hb
      have hRest : a.length = b.length := Nat.succ.inj hLength
      rw [count_cons, count_cons, hRest] at hCount
      obtain ⟨hFirst, hOthers⟩ := eq_of_mul_add_eq (hRest ▸ count_lt ha) (count_lt hb) hCount
      have hSame : c = d := by
        have hcLow := isDigit_iff.mp hc
        have hdLow := isDigit_iff.mp hd
        exact UInt8.toNat_inj.mp (by omega)
      rw [hSame, ih ha hb hRest hOthers]

theorem le_count {c : UInt8} {digits : Bytes} (hDigit : Bytes.isDigit c) (hZero : c ≠ 0x30) :
    10 ^ digits.length ≤ count (c :: digits) := by
  have hLow := (isDigit_iff.mp hDigit).1
  have hOther : c.toNat ≠ 0x30 := fun hSame => hZero (UInt8.toNat_inj.mp hSame)
  have hFirst := Nat.mul_le_mul_right (10 ^ digits.length) (show 1 ≤ c.toNat - 0x30 by omega)
  rw [count_cons]
  omega

theorem count_lt_of_length_lt {whole digits : Bytes} (hWhole : Whole whole) (hSome : digits ≠ [])
    (hDigits : ∀ c ∈ digits, Bytes.isDigit c) (hLength : digits.length < whole.length) :
    count digits < count whole := by
  have hPos := List.length_pos_iff.mpr hSome
  cases hWhole with
  | zero =>
    rw [List.length_singleton] at hLength
    omega
  | digits hDigit hZero hRest =>
    calc count digits < 10 ^ digits.length := count_lt hDigits
      _ ≤ 10 ^ _ := Nat.pow_le_pow_right (by decide) (Nat.lt_succ_iff.mp hLength)
      _ ≤ count _ := le_count hDigit hZero

theorem ne_nil_of_whole {whole : Bytes} (h : Whole whole) : whole ≠ [] := by
  cases h <;> exact List.cons_ne_nil _ _

theorem length_le_of_whole {a b : Bytes} (ha : Whole a) (hb : Whole b) (hCount : count a = count b) :
    a.length ≤ b.length := by
  refine Nat.le_of_not_lt fun hLess => ?_
  have hGreater := count_lt_of_length_lt ha (ne_nil_of_whole hb) hb.mem hLess
  omega

/-- A whole number is denoted in one way. -/
theorem eq_of_whole {a b : Bytes} (ha : Whole a) (hb : Whole b) (hCount : count a = count b) :
    a = b :=
  eq_of_count_eq ha.mem hb.mem
    (Nat.le_antisymm (length_le_of_whole ha hb hCount) (length_le_of_whole hb ha hCount.symm))
    hCount

/-- So is a whole number with a fraction of a given length. -/
theorem eq_of_whole_append {a b f g : Bytes} (ha : Whole a) (hb : Whole b)
    (hf : ∀ c ∈ f, Bytes.isDigit c) (hg : ∀ c ∈ g, Bytes.isDigit c) (hLength : f.length = g.length)
    (hCount : count (a ++ f) = count (b ++ g)) : a = b ∧ f = g := by
  rw [count_append, count_append, hLength] at hCount
  obtain ⟨hWhole, hFraction⟩ := eq_of_mul_add_eq (hLength ▸ count_lt hf) (count_lt hg) hCount
  exact ⟨eq_of_whole ha hb hWhole, eq_of_count_eq hf hg hLength hFraction⟩

/-! ### Digits with a point -/

def whole (text : Bytes) : Bytes := text.takeWhile (· != 0x2e)

def fraction (text : Bytes) : Bytes := (text.dropWhile (· != 0x2e)).tail

def value (text : Bytes) : ℚ :=
  count (whole text) + count (fraction text) / 10 ^ (fraction text).length

/-- A numeral without zeros that say nothing: none in front, but that a number less than one has a
zero in front of the point, and none at the end behind the first `least` digits of the fraction.
There is a point where there is a fraction. -/
structure Normal (least most : Nat) (text : Bytes) : Prop where
  whole : Whole (whole text)
  fraction : ∀ c ∈ fraction text, Bytes.isDigit c
  least_le : least ≤ (Numeral.fraction text).length
  le_most : (Numeral.fraction text).length ≤ most
  last_ne : least < (Numeral.fraction text).length → (Numeral.fraction text).getLast? ≠ some 0x30
  point_mem_iff : 0x2e ∈ text ↔ Numeral.fraction text ≠ []

theorem value_eq (text : Bytes) :
    value text = count (whole text ++ fraction text) / 10 ^ (fraction text).length := by
  rw [value, count_append]
  push_cast
  field_simp

theorem parts_of_digits {digits : Bytes} (hDigits : ∀ c ∈ digits, Bytes.isDigit c)
    (fraction : Bytes) :
    whole (digits ++ 0x2e :: fraction) = digits ∧
      Numeral.fraction (digits ++ 0x2e :: fraction) = fraction ∧
      whole digits = digits ∧ Numeral.fraction digits = [] := by
  have hNoPoint : ∀ c ∈ digits, (c != 0x2e) = true := fun c hc => by
    rw [bne_iff_ne]
    rintro rfl
    exact absurd (hDigits _ hc) (by decide)
  refine ⟨?_, ?_, ?_, ?_⟩
  · rw [whole, List.takeWhile_append_of_pos hNoPoint]
    simp
  · rw [Numeral.fraction, List.dropWhile_append_of_pos hNoPoint]
    simp
  · exact List.takeWhile_eq_self_iff.mpr hNoPoint
  · rw [Numeral.fraction, List.dropWhile_eq_nil_iff.mpr hNoPoint]
    rfl

namespace Normal

variable {least most : Nat} {text other : Bytes}

theorem text_eq (h : Normal least most text) :
    text = Numeral.whole text ++
      if Numeral.fraction text = [] then [] else 0x2e :: Numeral.fraction text := by
  have hSplit := List.takeWhile_append_dropWhile (p := (· != 0x2e)) (l := text)
  cases hBehind : text.dropWhile (· != 0x2e) with
  | nil =>
    rw [hBehind, List.append_nil] at hSplit
    have hNone : Numeral.fraction text = [] := by rw [Numeral.fraction, hBehind]; rfl
    rw [if_pos hNone, List.append_nil]
    exact hSplit.symm
  | cons c rest =>
    have hPoint : c = 0x2e := by
      have hHead := List.head?_dropWhile_not (· != 0x2e) text
      rw [hBehind] at hHead
      simpa using hHead
    have hRest : Numeral.fraction text = rest := by rw [Numeral.fraction, hBehind]; rfl
    rw [hBehind, hPoint] at hSplit
    have hSome : Numeral.fraction text ≠ [] := h.point_mem_iff.mp (by
      rw [← hSplit]
      exact List.mem_append_right _ List.mem_cons_self)
    rw [if_neg hSome, hRest]
    exact hSplit.symm

/-- Of two numerals of one number, none has the longer fraction. -/
theorem length_le (h : Normal least most text) (h' : Normal least most other)
    (hCount : count (Numeral.whole text ++ Numeral.fraction text) *
        10 ^ (Numeral.fraction other).length =
      count (Numeral.whole other ++ Numeral.fraction other) *
        10 ^ (Numeral.fraction text).length) :
    (Numeral.fraction other).length ≤ (Numeral.fraction text).length := by
  refine Nat.le_of_not_lt fun hLess => ?_
  have hLast := h'.last_ne (Nat.lt_of_le_of_lt h.least_le hLess)
  have hSome : Numeral.fraction other ≠ [] := List.length_pos_iff.mp (by omega)
  obtain ⟨front, last, hFraction⟩ :=
    (List.eq_nil_or_concat' (Numeral.fraction other)).resolve_left hSome
  obtain ⟨more, hMore⟩ := Nat.exists_eq_add_of_lt hLess
  -- the number of the longer one is a multiple of ten, and its last digit is not
  have hScaled : count (Numeral.whole text ++ Numeral.fraction text) *
        10 ^ (Numeral.fraction other).length =
      10 * (count (Numeral.whole text ++ Numeral.fraction text) * 10 ^ more) *
        10 ^ (Numeral.fraction text).length := by
    rw [hMore]
    ring
  have hMultiple := Nat.eq_of_mul_eq_mul_right (Nat.pow_pos (by decide))
    (hCount.symm.trans hScaled)
  have hDigit : last.toNat ≠ 0x30 ∧ 0x30 ≤ last.toNat ∧ last.toNat ≤ 0x39 := by
    refine ⟨fun hZero => hLast ?_, isDigit_iff.mp (h'.fraction last ?_)⟩
    · have hByte : last = 0x30 := UInt8.toNat_inj.mp hZero
      rw [hFraction, List.getLast?_concat, hByte]
    · rw [hFraction]
      exact List.mem_append_right _ List.mem_cons_self
  rw [hFraction, ← List.append_assoc, count_concat] at hMultiple
  omega

/-- No number has two numerals in normal form. -/
theorem eq_of_value_eq (h : Normal least most text) (h' : Normal least most other)
    (hValue : value text = value other) : text = other := by
  have hCount : count (Numeral.whole text ++ Numeral.fraction text) *
        10 ^ (Numeral.fraction other).length =
      count (Numeral.whole other ++ Numeral.fraction other) *
        10 ^ (Numeral.fraction text).length := by
    rw [value_eq, value_eq, div_eq_div_iff (by positivity) (by positivity)] at hValue
    exact_mod_cast hValue
  have hLength := Nat.le_antisymm (h'.length_le h hCount.symm) (h.length_le h' hCount)
  rw [hLength] at hCount
  obtain ⟨hWhole, hFraction⟩ := eq_of_whole_append h.whole h'.whole h.fraction h'.fraction hLength
    (Nat.eq_of_mul_eq_mul_right (by positivity) hCount)
  rw [h.text_eq, h'.text_eq, hWhole, hFraction]

end Normal

end Numeral

/-! ### Converting an amount -/

namespace Decimal

open Numeral (count)

/-- The digits of an amount without the zeros in front, cut at the point. -/
structure Reads (d : Decimal) (amount : Bytes) (decimals : Nat) : Prop where
  whole : Whole d.whole
  fraction : ∀ c ∈ d.allDigits, Bytes.isDigit c
  length_eq : d.allDigits.length = decimals
  count_eq : count (d.whole ++ d.allDigits) = count amount

theorem ofDigits?_eq_none_iff {amount : Bytes} {decimals : Nat} :
    ofDigits? amount decimals = none ↔ ¬Digits amount := by
  rw [ofDigits?]
  by_cases hDigits : Digits amount
  · rw [if_neg (by simpa [Digits] using hDigits)]
    dsimp only
    split <;> simp [hDigits]
  · rw [if_pos]
    · simp [hDigits]
    · simpa [Digits, or_iff_not_imp_left] using hDigits

/-- Each run of digits can be cut. -/
theorem exists_reads {amount : Bytes} (h : Digits amount) (decimals : Nat) :
    ∃ d, ofDigits? amount decimals = some d ∧ d.Reads amount decimals := by
  have hDigits : ∀ c ∈ amount.dropWhile (· == 0x30), Bytes.isDigit c :=
    fun c hc => h.2 c ((List.dropWhile_suffix _).subset hc)
  have hCount := Numeral.count_dropWhile amount
  have hFirst := List.head?_dropWhile_not (· == (0x30 : UInt8)) amount
  rw [ofDigits?, if_neg (by simpa [Digits] using h)]
  dsimp only
  generalize amount.dropWhile (· == 0x30) = digits at hDigits hCount hFirst ⊢
  split
  · rename_i hLonger
    obtain ⟨places, hPlaces⟩ := Nat.exists_eq_add_of_lt hLonger
    refine ⟨_, rfl, ⟨?_, ?_, ?_, ?_⟩⟩
    · cases digits with
      | nil => cases hLonger
      | cons c digits =>
        rw [hPlaces, show decimals + places + 1 - decimals = places + 1 by omega,
          List.take_succ_cons]
        refine .digits (hDigits c List.mem_cons_self) (by simpa using hFirst) fun d hd => ?_
        exact hDigits d (List.mem_cons_of_mem c (List.mem_of_mem_take hd))
    · exact fun c hc => hDigits c (List.mem_of_mem_drop hc)
    · show (digits.drop _).length = decimals
      rw [List.length_drop]
      omega
    · show count (digits.take _ ++ digits.drop _) = count amount
      rw [List.take_append_drop, hCount]
  · rename_i hShorter
    refine ⟨_, rfl, ⟨.zero, ?_, ?_, ?_⟩⟩
    · intro c hc
      rcases List.mem_append.mp hc with hZero | hc
      · rw [List.eq_of_mem_replicate hZero]
        decide
      · exact hDigits c hc
    · show (List.replicate (decimals - digits.length) 0x30 ++ digits).length = decimals
      rw [List.length_append, List.length_replicate]
      omega
    · have hZeros := Numeral.count_zeros (decimals - digits.length + 1)
      show count (List.replicate (decimals - digits.length + 1) 0x30 ++ digits) = count amount
      rw [Numeral.count_append, hZeros, Nat.zero_mul, Nat.zero_add, hCount]

/-- Only zeros are taken off, and all of them. -/
theorem stripZeros_spec (digits : Bytes) :
    ∃ n, digits = stripZeros digits ++ List.replicate n 0x30 ∧
      (stripZeros digits).getLast? ≠ some 0x30 := by
  induction digits with
  | nil => exact ⟨0, rfl, by simp [stripZeros]⟩
  | cons digit digits ih =>
    obtain ⟨n, hDigits, hLast⟩ := ih
    rw [stripZeros]
    cases hKept : stripZeros digits with
    | nil =>
      rw [hKept, List.nil_append] at hDigits
      by_cases hZero : digit = 0x30
      · refine ⟨n + 1, ?_, by simp [hZero]⟩
        rw [hDigits, hZero, List.replicate_succ]
        simp
      · exact ⟨n, by simp [hZero, hDigits], by simp [hZero]⟩
    | cons kept others =>
      rw [hKept] at hDigits hLast
      refine ⟨n, ?_, ?_⟩
      · dsimp only
        rw [List.cons_append, ← hDigits]
      · rw [List.getLast?_cons_cons]
        exact hLast

theorem trim_spec {least : Nat} {digits : Bytes} (h : least ≤ digits.length) :
    ∃ n, digits = trim least digits ++ List.replicate n 0x30 ∧
      least ≤ (trim least digits).length ∧
      (least < (trim least digits).length → (trim least digits).getLast? ≠ some 0x30) := by
  obtain ⟨n, hDigits, hLast⟩ := stripZeros_spec (digits.drop least)
  have hLength : (digits.take least).length = least := List.length_take_of_le h
  refine ⟨n, ?_, ?_, fun hLess => ?_⟩
  · rw [trim, List.append_assoc, ← hDigits, List.take_append_drop]
  · rw [trim, List.length_append]
    omega
  · rw [trim, List.length_append] at hLess
    have hSome : stripZeros (digits.drop least) ≠ [] := List.length_pos_iff.mp (by omega)
    rw [trim, List.getLast?_append_of_ne_nil _ hSome]
    exact hLast

namespace Reads

variable {d : Decimal} {amount : Bytes} {decimals least : Nat}

theorem length_flatten_pieces (h : d.Reads amount decimals) :
    d.pieces.flatten.length = d.whole.length + 1 + decimals := by
  rw [flatten_pieces, List.length_append, List.length_cons, h.length_eq]
  omega

theorem parts_trimmed (h : d.Reads amount decimals) (least : Nat) :
    Numeral.whole (d.trimmed least) = d.whole ∧
      Numeral.fraction (d.trimmed least) = trim least d.allDigits := by
  obtain ⟨hWhole, hFraction, hAlone, hNone⟩ :=
    Numeral.parts_of_digits h.whole.mem (trim least d.allDigits)
  rw [trimmed]
  cases hDigits : trim least d.allDigits with
  | nil => exact ⟨hAlone, hNone⟩
  | cons digit digits =>
    rw [hDigits] at hWhole hFraction
    exact ⟨hWhole, hFraction⟩

theorem point_mem_trimmed_iff (h : d.Reads amount decimals) :
    0x2e ∈ d.trimmed least ↔ trim least d.allDigits ≠ [] := by
  rw [trimmed]
  cases trim least d.allDigits with
  | nil =>
    refine iff_of_false (fun hPoint => ?_) (by simp)
    exact absurd (h.whole.mem _ hPoint) (by decide)
  | cons digit digits => simp

/-- What is shown is in normal form. -/
theorem normal_trimmed (h : d.Reads amount decimals) (hLeast : least ≤ decimals) :
    Numeral.Normal least decimals (d.trimmed least) := by
  obtain ⟨hWhole, hFraction⟩ := h.parts_trimmed least
  obtain ⟨n, hDigits, hKept, hLast⟩ := trim_spec (h.length_eq ▸ hLeast : least ≤ d.allDigits.length)
  have hPrefix : trim least d.allDigits <+: d.allDigits := ⟨_, hDigits.symm⟩
  refine ⟨hWhole ▸ h.whole, ?_, hFraction ▸ hKept, ?_, hFraction ▸ hLast,
    hFraction ▸ h.point_mem_trimmed_iff⟩
  · rw [hFraction]
    exact fun c hc => h.fraction c (hPrefix.subset hc)
  · rw [hFraction, ← h.length_eq]
    exact hPrefix.length_le

/-- It denotes the amount with the point moved. -/
theorem value_trimmed (h : d.Reads amount decimals) (hLeast : least ≤ decimals) :
    Numeral.value (d.trimmed least) = count amount / 10 ^ decimals := by
  obtain ⟨hWhole, hFraction⟩ := h.parts_trimmed least
  obtain ⟨n, hDigits, _, _⟩ := trim_spec (h.length_eq ▸ hLeast : least ≤ d.allDigits.length)
  generalize trim least d.allDigits = kept at hDigits hFraction
  have hCount : count amount = count (d.whole ++ kept) * 10 ^ n := by
    rw [← h.count_eq, hDigits, ← List.append_assoc, Numeral.count_append, Numeral.count_zeros,
      List.length_replicate, Nat.add_zero]
  have hLength : decimals = kept.length + n := by
    rw [← h.length_eq, hDigits, List.length_append, List.length_replicate]
  rw [Numeral.value_eq, hWhole, hFraction, hCount, hLength, pow_add]
  push_cast
  field_simp

end Reads

/-! ### Writing an amount -/

variable {capacity : Nat} {amount text : Bytes} {decimals minDecimals : Nat}

theorem run_write_of_none (h : ¬Digits amount) :
    (write capacity amount decimals minDecimals).run text = .error .unexpectedValue text := by
  rw [write, ofDigits?_eq_none_iff.mpr h]
  rfl

theorem run_write_of_le {d : Decimal} (hDigits : ofDigits? amount decimals = some d)
    (hRoom : text.length + d.pieces.flatten.length ≤ capacity) :
    (write capacity amount decimals minDecimals).run text =
      .ok () (text ++ d.trimmed (min minDecimals decimals)) := by
  rw [run_write_eq hDigits, EStateM.run_bind, Writer.run_append_of_le hRoom, ← shorten_append]
  rfl

theorem run_write_of_lt {d : Decimal} (hDigits : ofDigits? amount decimals = some d)
    (hText : text.length ≤ capacity)
    (hRoom : capacity < text.length + d.pieces.flatten.length) :
    ∃ after, (write capacity amount decimals minDecimals).run text =
      .error .bufferOverflow after ∧ text <+: after := by
  obtain ⟨taken, _, hRun⟩ := Writer.run_append_of_lt hText hRoom
  refine ⟨text ++ taken.flatten, ?_, List.prefix_append _ _⟩
  rw [run_write_eq hDigits, EStateM.run_bind, hRun]

/-- Digits are written if there is room for all of them, also for those that are dropped. -/
theorem run_write_of_digits (h : Digits amount) (hText : text.length ≤ capacity)
    (decimals minDecimals : Nat) :
    ∃ d : Decimal, d.Reads amount decimals ∧
      (text.length + d.whole.length + 1 + decimals ≤ capacity ∧
          (write capacity amount decimals minDecimals).run text =
            .ok () (text ++ d.trimmed (min minDecimals decimals)) ∨
        capacity < text.length + d.whole.length + 1 + decimals ∧
          ∃ after, (write capacity amount decimals minDecimals).run text =
            .error .bufferOverflow after ∧ text <+: after) := by
  obtain ⟨d, hDigits, hReads⟩ := exists_reads h decimals
  have hLength : text.length + d.pieces.flatten.length =
      text.length + d.whole.length + 1 + decimals := by
    rw [hReads.length_flatten_pieces, Nat.add_assoc, Nat.add_assoc, Nat.add_assoc]
  refine ⟨d, hReads, ?_⟩
  rw [← hLength]
  rcases Nat.lt_or_ge capacity (text.length + d.pieces.flatten.length) with hLess | hRoom
  · exact Or.inr ⟨hLess, run_write_of_lt hDigits hText hLess⟩
  · exact Or.inl ⟨hRoom, run_write_of_le hDigits hRoom⟩

/-- Another amount is shown in the same way if its number is the same. -/
theorem run_write_eq_iff {d : Decimal} {other : Bytes} (hReads : d.Reads amount decimals)
    (hRoom : text.length + d.whole.length + 1 + decimals ≤ capacity) (h : Digits other) :
    (write capacity other decimals minDecimals).run text =
        .ok () (text ++ d.trimmed (min minDecimals decimals)) ↔
      count other = count amount := by
  have hLeast := Nat.min_le_right minDecimals decimals
  obtain ⟨e, hOther, hOutcome⟩ := run_write_of_digits h (show text.length ≤ capacity by omega)
    decimals minDecimals
  constructor
  · intro hRun
    rcases hOutcome with ⟨_, hShown⟩ | ⟨_, after, hFailed, _⟩
    · have hSame : e.trimmed (min minDecimals decimals) = d.trimmed (min minDecimals decimals) := by
        rw [hShown] at hRun
        injection hRun with _ hTexts
        exact List.append_cancel_left hTexts
      have hValue := hOther.value_trimmed hLeast
      rw [hSame, hReads.value_trimmed hLeast, div_left_inj' (by positivity)] at hValue
      exact_mod_cast hValue.symm
    · rw [hFailed] at hRun
      cases hRun
  · intro hCount
    obtain ⟨hWhole, _⟩ := Numeral.eq_of_whole_append hOther.whole hReads.whole hOther.fraction
      hReads.fraction (hOther.length_eq.trans hReads.length_eq.symm)
      (by rw [hOther.count_eq, hReads.count_eq, hCount])
    have hSame : e.trimmed (min minDecimals decimals) = d.trimmed (min minDecimals decimals) := by
      refine (hOther.normal_trimmed hLeast).eq_of_value_eq (hReads.normal_trimmed hLeast) ?_
      rw [hOther.value_trimmed hLeast, hReads.value_trimmed hLeast, hCount]
    rcases hOutcome with ⟨_, hShown⟩ | ⟨hLess, _⟩
    · rw [hShown, hSame]
    · rw [hWhole] at hLess
      omega

/-- Whatever has been written before, an amount is refused if it is no run of digits, and written
as the numeral in normal form of its number if there is room for all its digits.  Two amounts are
shown alike if their numbers are the same. -/
theorem run_write_spec (capacity : Nat) (amount text : Bytes) (decimals minDecimals : Nat)
    (hText : text.length ≤ capacity) :
    (∀ after, (write capacity amount decimals minDecimals).run text =
      .error .unexpectedValue after ↔ ¬Digits amount ∧ after = text) ∧
    (Digits amount → ∃ whole fraction, Whole whole ∧ (∀ c ∈ fraction, Bytes.isDigit c) ∧
      fraction.length = decimals ∧ count (whole ++ fraction) = count amount ∧
      ((∃ after, (write capacity amount decimals minDecimals).run text =
        .error .bufferOverflow after) ↔ capacity < text.length + whole.length + 1 + decimals) ∧
      (∀ after, (write capacity amount decimals minDecimals).run text =
        .error .bufferOverflow after → text <+: after) ∧
      (text.length + whole.length + 1 + decimals ≤ capacity → ∃ shown,
        (write capacity amount decimals minDecimals).run text = .ok () (text ++ shown) ∧
        Numeral.Normal (min minDecimals decimals) decimals shown ∧
        Numeral.value shown = count amount / 10 ^ decimals ∧
        ∀ other, Digits other →
          ((write capacity other decimals minDecimals).run text = .ok () (text ++ shown) ↔
            count other = count amount))) := by
  by_cases hDigits : Digits amount
  case neg =>
    rw [run_write_of_none hDigits]
    refine ⟨fun after => ⟨fun hRun => ?_, fun h => by rw [h.2]⟩, fun h => absurd h hDigits⟩
    cases hRun
    exact ⟨hDigits, rfl⟩
  case pos =>
    have hLeast := Nat.min_le_right minDecimals decimals
    obtain ⟨d, hReads, hOutcome⟩ := run_write_of_digits hDigits hText decimals minDecimals
    rcases hOutcome with ⟨hRoom, hRun⟩ | ⟨hLess, after, hRun, hKept⟩
    case inl =>
      refine ⟨fun after => by simp [hRun, hDigits], fun _ => ⟨d.whole, d.allDigits, hReads.whole,
        hReads.fraction, hReads.length_eq, hReads.count_eq, ?_, ?_, fun _ => ⟨_, hRun,
          hReads.normal_trimmed hLeast, hReads.value_trimmed hLeast,
          fun other => run_write_eq_iff hReads hRoom⟩⟩⟩
      · simp [hRun, Nat.not_lt.mpr hRoom]
      · simp [hRun]
    case inr =>
      refine ⟨fun after => by simp [hRun, hDigits], fun _ => ⟨d.whole, d.allDigits, hReads.whole,
        hReads.fraction, hReads.length_eq, hReads.count_eq, ?_, ?_, fun hRoom => ?_⟩⟩
      · simp [hRun, hLess]
      · intro after' hRun'
        rw [hRun] at hRun'
        cases hRun'
        exact hKept
      · omega

end Decimal

/-- A text that ends in a point and zeros, which are not part of the amount. -/
def pointAndZeros : Bytes := Bytes.ofString "0.00"

theorem run_write_spec_behind_zeros :
    (Decimal.write 16 (Bytes.ofString "600") 6 1).run pointAndZeros =
        .ok () (pointAndZeros ++ Bytes.ofString "0.0006") ∧
      Numeral.Normal 1 6 (Bytes.ofString "0.0006") ∧
      Numeral.value (Bytes.ofString "0.0006") = 600 / 10 ^ 6 ∧
      (Decimal.write 16 (Bytes.ofString "0600") 6 1).run pointAndZeros =
        .ok () (pointAndZeros ++ Bytes.ofString "0.0006") := by
  have hRun : (Decimal.write 16 (Bytes.ofString "600") 6 1).run pointAndZeros =
      .ok () (pointAndZeros ++ Bytes.ofString "0.0006") := by rfl
  have hDigits : Digits (Bytes.ofString "600") ∧ Digits (Bytes.ofString "0600") := by
    unfold Digits
    decide +kernel
  have hCount : Numeral.count (Bytes.ofString "600") = 600 ∧
      Numeral.count (Bytes.ofString "0600") = 600 := by decide +kernel
  obtain ⟨whole, fraction, _, _, _, _, hOverflow, _, hShown⟩ :=
    (Decimal.run_write_spec 16 (Bytes.ofString "600") pointAndZeros 6 1 (by decide +kernel)).2
      hDigits.1
  rw [hRun] at hOverflow
  obtain ⟨shown, hRun', hNormal, hValue, hOthers⟩ := hShown (by simpa using hOverflow)
  obtain rfl : shown = Bytes.ofString "0.0006" := by
    rw [hRun] at hRun'
    injection hRun' with _ hTexts
    exact (List.append_cancel_left hTexts).symm
  refine ⟨hRun, hNormal, ?_, (hOthers _ hDigits.2).mpr (hCount.2.trans hCount.1.symm)⟩
  rw [hValue, hCount.1]
  norm_num

end SignReview
