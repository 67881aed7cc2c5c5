import SignReview.Writer

/-!
# Decimal amounts

An amount is a whole number of base units, written in decimal; it is shown in units that are ten
to the power `decimals` larger.  Leading zeros go, and so do trailing zeros of the fraction beyond
its first `minDecimals` digits.

* `Decimal.ofDigits?`: reads a run of digits.
* `Decimal.trimmed`: the text that is shown.
* `Decimal.shorten`: takes zeros from the end of a text that has been written.
* `Decimal.write`: writes an amount, with room asked for all digits of the fraction.
-/

namespace SignReview

/-- A decimal number with a fraction of `padding` zeros and then the digits `fraction`. -/
structure Decimal where
  whole : Bytes
  padding : Nat
  fraction : Bytes
  deriving DecidableEq, Repr

namespace Decimal

/-- The number that `amount` counts, with `decimals` of its digits behind the point. -/
def ofDigits? (amount : Bytes) (decimals : Nat) : Option Decimal :=
  if amount.isEmpty || !amount.all Bytes.isDigit then
    none
  else
    let digits := amount.dropWhile (· == 0x30)
    if decimals < digits.length then
      some ⟨digits.take (digits.length - decimals), 0, digits.drop (digits.length - decimals)⟩
    else
      some ⟨[0x30], decimals - digits.length, digits⟩

/-- The pieces of the number with all digits of its fraction. -/
def pieces (d : Decimal) : List Bytes :=
  d.whole :: [0x2e] :: (List.replicate d.padding [0x30] ++ [d.fraction])

def allDigits (d : Decimal) : Bytes := List.replicate d.padding 0x30 ++ d.fraction

def stripZeros : Bytes → Bytes
  | [] => []
  | digit :: digits =>
    match stripZeros digits with
    | [] => if digit = 0x30 then [] else [digit]
    | kept => digit :: kept

/-- Digits without the zeros at their end, but for the first `least` digits. -/
def trim (least : Nat) (digits : Bytes) : Bytes :=
  digits.take least ++ stripZeros (digits.drop least)

/-- The number with at least `least` digits behind the point, and no point where none is left. -/
def trimmed (d : Decimal) (least : Nat) : Bytes :=
  match trim least d.allDigits with
  | [] => d.whole
  | digits => d.whole ++ 0x2e :: digits

/-- A text whose last point is at `point`, without the zeros at its end, but for the first `least`
digits behind the point, and without a point at its end. -/
def shorten (point least : Nat) (text : Bytes) : Bytes :=
  let text := trim (point + 1 + least) text
  if text.length = point + 1 then text.dropLast else text

/-- Writes an amount.  There must be room for all digits, also for those that are dropped. -/
def write (capacity : Nat) (amount : Bytes) (decimals minDecimals : Nat) : Writer Unit := do
  match ofDigits? amount decimals with
  | none => throw .unexpectedValue
  | some d => do
    let point := (← get).length + d.whole.length
    Writer.append capacity d.pieces
    modify (shorten point (min minDecimals decimals))

end Decimal

end SignReview
