import SignReview.Cbor.Value

/-!
# Screens

A screen is a map with these keys, in ascending order:

* 1: the title, a text of at most 40 octets; may be missing.
* 2: the content, a text of at most 600 octets.
* 3: the indent, a number up to 61; 0 where it is missing.
* 4: whether the screen is for experts only; not so where it is missing.

A value is first collected without judging it, so that what stands behind it is read in any case;
then the rules are applied.

* `Screen.Raw.ofValue`: collects a value, `Screen.ofRaw`: applies the rules.
-/

namespace SignReview

/-- A screen that the maker of a transaction has laid out. -/
structure Screen where
  title : Option String
  content : String
  indent : Nat := 0
  expert : Bool := false
  deriving DecidableEq, Repr

namespace Screen

def maxTitle : Nat := 40

def maxContent : Nat := 600

/-- The deepest indent.  With three more characters it still fits into a key. -/
def maxIndent : Nat := 61

def maxFields : Nat := 4

/-- What is collected of a value, without judging it. -/
structure Raw where
  /-- The first entries with an unsigned key. -/
  fields : List (Nat × Cbor.Value) := []
  /-- Are there more of them? -/
  tooMany : Bool := false
  /-- Is there a key of another kind? -/
  badKey : Bool := false
  /-- Is the value no map? -/
  notMap : Bool := false

namespace Raw

def push (raw : Raw) (entry : Cbor.Value × Cbor.Value) : Raw :=
  match entry.1 with
  | .unsigned n =>
    if raw.fields.length < maxFields then
      { raw with fields := raw.fields ++ [(n, entry.2)] }
    else
      { raw with tooMany := true }
  | _ => { raw with badKey := true }

def ofValue : Cbor.Value → Raw
  | .map entries => entries.foldl push {}
  | _ => { notMap := true }

end Raw

def keysAscend : List (Nat × Cbor.Value) → Bool
  | [] => true
  | [_] => true
  | a :: b :: rest => decide (a.1 < b.1) && keysAscend (b :: rest)

def readText (most : Nat) : Cbor.Value → Except Error String
  | .text text => if text.utf8ByteSize ≤ most then .ok text else .error .unexpectedValue
  | _ => .error .unexpectedType

/-- Takes the title off the front, if there is one. -/
def readTitle : List (Nat × Cbor.Value) → Except Error (Option String × List (Nat × Cbor.Value))
  | (1, value) :: rest => return (some (← readText maxTitle value), rest)
  | fields => return (none, fields)

def readContent : List (Nat × Cbor.Value) → Except Error (String × List (Nat × Cbor.Value))
  | (2, value) :: rest => return (← readText maxContent value, rest)
  | _ => throw .unexpectedField

/-- Applies a field behind the content. -/
def setField (screen : Screen) (field : Nat × Cbor.Value) : Except Error Screen :=
  match field with
  | (3, .unsigned n) =>
    if n ≤ maxIndent then .ok { screen with indent := n } else .error .valueOutOfRange
  | (4, .bool b) => .ok { screen with expert := b }
  | (3, _) | (4, _) => .error .unexpectedType
  | _ => .error .unexpectedField

/-- The screen that has been collected. -/
def ofRaw (raw : Raw) : Except Error Screen := do
  if raw.notMap then
    throw .unexpectedType
  if raw.badKey then
    throw .unexpectedField
  if raw.tooMany || raw.fields.isEmpty then
    throw .unexpectedNumberItems
  if !keysAscend raw.fields then
    throw .cborNotCanonical
  let (title, fields) ← readTitle raw.fields
  let (content, fields) ← readContent fields
  fields.foldlM setField { title, content }

def ofValue (value : Cbor.Value) : Except Error Screen := ofRaw (Raw.ofValue value)

end Screen

end SignReview
