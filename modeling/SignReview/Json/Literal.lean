import SignReview.Bytes

/-!
# Literals

A literal is one of the words `true`, `false` and `null`, or a number: an optional minus sign, a
whole part without superfluous zeros, an optional fraction and an optional exponent.

Each reader takes its part off the front and leaves the rest.
-/

namespace SignReview.Json.Literal

def words : List Bytes := [Bytes.ofString "true", Bytes.ofString "false", Bytes.ofString "null"]

def digits? (text : Bytes) : Option Bytes :=
  if (text.takeWhile Bytes.isDigit).isEmpty then none else some (text.dropWhile Bytes.isDigit)

def minus : Bytes → Bytes
  | 0x2d :: rest => rest
  | text => text

/-- Takes a zero, or a run of digits that starts with another. -/
def whole? : Bytes → Option Bytes
  | 0x30 :: rest => some rest
  | text => digits? text

def fraction? : Bytes → Option Bytes
  | 0x2e :: rest => digits? rest
  | text => some text

def sign : Bytes → Bytes
  | 0x2b :: rest => rest
  | 0x2d :: rest => rest
  | text => text

def exponent? : Bytes → Option Bytes
  | 0x65 :: rest => digits? (sign rest)
  | 0x45 :: rest => digits? (sign rest)
  | text => some text

def isNumber (text : Bytes) : Bool :=
  ((whole? (minus text)).bind fun rest => (fraction? rest).bind exponent?) == some []

def isLiteral (text : Bytes) : Bool := words.contains text || isNumber text

end SignReview.Json.Literal
