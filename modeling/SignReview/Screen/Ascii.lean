import SignReview.Writer

/-!
# Printable ASCII

Texts are shown in printable ASCII alone.  A control character becomes an escape of one letter and
any other character the hexadecimal digits of its code point.

* `Ascii.pieces`: the form of one character, in the pieces that are written at once.
* `Ascii.expand`: the form of a text.
* `Ascii.write`: writes it.
-/

namespace SignReview.Ascii

def isPrintable (c : Char) : Bool := 0x20 ≤ c.toNat && c.toNat ≤ 0x7e

/-- The letter that stands for a control character after a backslash. -/
def escapeLetter? (c : Char) : Option UInt8 :=
  match c.toNat with
  | 0x07 => some 0x61
  | 0x08 => some 0x62
  | 0x0c => some 0x66
  | 0x0a => some 0x6e
  | 0x0d => some 0x72
  | 0x09 => some 0x74
  | 0x0b => some 0x76
  | _ => none

def hexDigit (n : Nat) : UInt8 :=
  if n < 10 then UInt8.ofNat (0x30 + n) else UInt8.ofNat (0x37 + n)

def hex (n : Nat) : Nat → Bytes
  | 0 => []
  | digits + 1 => hexDigit (n / 16 ^ digits % 16) :: hex n digits

/-- The form of a character.  A letter escape is one piece; of the others the opening is one piece
and each digit another. -/
def pieces (c : Char) : List Bytes :=
  if isPrintable c then
    [[UInt8.ofNat c.toNat]]
  else
    match escapeLetter? c with
    | some letter => [[0x5c, letter]]
    | none =>
      if c.toNat ≤ 0xffff then
        [0x5c, 0x75] :: (hex c.toNat 4).map fun digit => [digit]
      else
        [0x5c, 0x55] :: (hex c.toNat 8).map fun digit => [digit]

/-- The form of a text. -/
def expand (text : String) : Bytes := (text.toList.flatMap pieces).flatten

def write (capacity : Nat) (text : String) : Writer Unit :=
  Writer.append capacity (text.toList.flatMap pieces)

end SignReview.Ascii
