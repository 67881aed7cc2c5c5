import SignReview.Cbor.Reader

/-!
# CBOR values

A value is read as far as screens need it: integers that are not negative, texts, truth values,
arrays and maps.  Tags are dropped, and a value of any other kind is only known to be there.

* `Head`: what the octets in front of the contents of a value say.
* `Value.read`: takes one value off the front.
* `foldSeries`: takes the values of a container one by one.
-/

namespace SignReview.Cbor

inductive Value
  | unsigned (n : Nat)
  | text (text : String)
  | bool (value : Bool)
  | array (elements : List Value)
  | map (entries : List (Value × Value))
  /-- A value of any other kind. -/
  | other

/-- What a value is to the list of screens. -/
inductive Role
  /-- The list itself. -/
  | root
  /-- An element of the list. -/
  | element
  /-- A key or value of an element that is a map. -/
  | field
  /-- Anything deeper, or in a place where it is passed over. -/
  | skipped
  deriving DecidableEq, Repr

def Role.ofElement : Role → Role
  | .root => .element
  | _ => .skipped

def Role.ofEntry : Role → Role
  | .element => .field
  | _ => .skipped

/-- What stands in front of the contents of a value. -/
inductive Head
  /-- The value is complete. -/
  | scalar (value : Value)
  /-- An array of so many elements, or one that ends with a break. -/
  | array (size : Option Nat)
  /-- A map of so many entries, or one that ends with a break. -/
  | map (size : Option Nat)
  /-- A tag, which is dropped. -/
  | tag

/-- The number that octets spell, the most significant first. -/
def bigEndian (bytes : Bytes) : Nat := bytes.foldl (fun n c => n * 256 + c.toNat) 0

/-- The argument of a head whose first octet ends in the bits `info`: those bits, or the number that
the next 1, 2, 4 or 8 octets spell. -/
def argument (info : Nat) : Reader Nat :=
  match info with
  | 24 => return bigEndian (← Reader.take 1)
  | 25 => return bigEndian (← Reader.take 2)
  | 26 => return bigEndian (← Reader.take 4)
  | 27 => return bigEndian (← Reader.take 8)
  | _ => if info < 24 then return info else throw .cborUnexpected

/-- The argument, or nothing if the head says that the contents end with a break. -/
def sizeArgument (info : Nat) : Reader (Option Nat) :=
  if info = 31 then return none else return some (← argument info)

/-- A chunk of a string that ends with a break.  It is of the same kind `major`, has a length of
its own and, because there is no room to join chunks, is empty. -/
def chunk (major : Nat) : Reader Unit := do
  let c ← Reader.byte
  if c.toNat / 32 ≠ major then
    throw .cborUnexpected
  let bytes ← Reader.take (← argument (c.toNat % 32))
  if !bytes.isEmpty then
    throw .cborUnexpected

def octetString (info : Nat) : Reader Value := do
  match ← sizeArgument info with
  | some n => discard (Reader.take n)
  | none => discard (Reader.untilBreak (chunk 2))
  return .other

/-- The last position in an input, the largest 64-bit word. -/
def maxPosition : Nat := 0xffffffffffffffff

/-- In an input of `size` octets, of which `rest` is left, would a text of `n` octets end behind the
last position?  Most lengths are too small for that wherever they stand. -/
def overruns (size n : Nat) (rest : Bytes) : Bool :=
  decide (maxPosition < n + size) && decide (maxPosition < n + (size - rest.length))

/-- A text, which is only known to be one if it has a length. -/
def textString (size info : Nat) : Reader Value := do
  match ← sizeArgument info with
  | some n => do
    if overruns size n (← get) then
      throw .cborUnexpected
    let bytes ← Reader.take n
    match String.fromUTF8? ⟨bytes.toArray⟩ with
    | some text => return .text text
    | none => throw .cborUnexpected
  | none => do
    discard (Reader.untilBreak (chunk 3))
    return .other

def maxSigned : Nat := 0x7fffffffffffffff

/-- A negative integer, one less than the negated argument.  One that a signed 64-bit word cannot
hold is refused, unless it is passed over. -/
def negative (role : Role) (info : Nat) : Reader Value := do
  let n ← argument info
  if maxSigned < n ∧ role ≠ .skipped then
    throw .unexpectedType
  return .other

/-- A truth value, `null`, `undefined` or a floating-point number. -/
def simple (info : Nat) : Reader Value :=
  match info with
  | 20 => return .bool false
  | 21 => return .bool true
  | 22 | 23 => return .other
  | 25 | 26 | 27 => do
    discard (argument info)
    return .other
  | _ => throw .cborUnexpected

/-- Takes the head of a value, and its contents too unless they are values. -/
def Head.read (size : Nat) (role : Role) : Reader Head := do
  let c ← Reader.byte
  let info := c.toNat % 32
  match c.toNat / 32 with
  | 0 => return .scalar (.unsigned (← argument info))
  | 1 => return .scalar (← negative role info)
  | 2 => return .scalar (← octetString info)
  | 3 => return .scalar (← textString size info)
  | 4 => return .array (← sizeArgument info)
  | 5 => return .map (← sizeArgument info)
  | 6 => do
    discard (argument info)
    return .tag
  | _ => return .scalar (← simple info)

/-- Takes values, as many as there are or up to a break. -/
def series {α : Type} (size : Option Nat) (read : Reader α) : Reader (List α) :=
  match size with
  | some n => Reader.times read n
  | none => Reader.untilBreak read

/-- Takes values, as many as there are or up to a break, each of which is used up as soon as it is
taken. -/
def foldSeries {α β : Type} (size : Option Nat) (read : Reader α) (use : β → α → β) (b : β) :
    Reader β :=
  match size with
  | some n => Reader.foldTimes read use n b
  | none => Reader.foldUntilBreak read use b

def entry (read : Reader Value) : Reader (Value × Value) := do
  let key ← read
  let value ← read
  return (key, value)

/-- The most arrays, maps and tags around a value. -/
def maxDepth : Nat := 127

/-- Takes a value in which arrays, maps and tags lie at most `depth` deep. -/
def Value.read (size : Nat) : (depth : Nat) → Role → Reader Value
  | 0, role => do
    match ← Head.read size role with
    | .scalar value => return value
    | _ => throw .cborUnexpected
  | depth + 1, role => do
    match ← Head.read size role with
    | .scalar value => return value
    | .array n => return .array (← series n (read size depth role.ofElement))
    | .map n => return .map (← series n (entry (read size depth role.ofEntry)))
    | .tag => read size depth role

end SignReview.Cbor
