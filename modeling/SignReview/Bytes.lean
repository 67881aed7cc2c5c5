/-!
# Byte strings

Everything that is read or shown is a list of octets.

* `Bytes.ofString`: the UTF-8 octets of a text.
* `Bytes.isDigit`, `Bytes.isHexDigit`: the ASCII digits.
* `Bytes.cut?`: the octets between two positions.
-/

namespace SignReview

/-- A run of octets. -/
abbrev Bytes := List UInt8

namespace Bytes

def ofString (text : String) : Bytes := text.toUTF8.data.toList

def isDigit (c : UInt8) : Bool := 0x30 ≤ c && c ≤ 0x39

def isHexDigit (c : UInt8) : Bool :=
  isDigit c || (0x41 ≤ c && c ≤ 0x46) || (0x61 ≤ c && c ≤ 0x66)

/-- The octets from `start` up to `stop`, if these are positions in the text, in this order. -/
def cut? (text : Bytes) (start stop : Nat) : Option Bytes :=
  if start ≤ stop ∧ stop ≤ text.length then some (text.extract start stop) else none

theorem cut?_of_le {text : Bytes} {start stop : Nat} (hStart : start ≤ stop)
    (hStop : stop ≤ text.length) : text.cut? start stop = some (text.extract start stop) :=
  if_pos ⟨hStart, hStop⟩

end Bytes

end SignReview
