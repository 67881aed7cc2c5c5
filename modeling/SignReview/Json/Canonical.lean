import SignReview.Json.Member

/-!
# Canonical form

A sign document is canonical if it has no whitespace outside its strings, the names of each object
are in ascending order of their octets, and the top level has all the names that are required.

* `Document.hasWhitespace`, `Document.isSorted`, `Document.requireNames`: the three checks.
* `Document.checkCanonical`: all of them, in this order.
-/

namespace SignReview.Json.Document

/-- A space, tab, line feed, vertical tab, form feed or carriage return. -/
def isWhitespace (c : UInt8) : Bool := c == 0x20 || (0x09 ≤ c && c ≤ 0x0d)

/-- The stretches of a text of `size` octets, from `offset` on, that lie outside the strings. -/
def outside (size : Nat) : Nat → List Token → List (Nat × Nat)
  | offset, [] => [(offset, size)]
  | offset, token :: tokens =>
    if token.kind = .string then
      (offset, token.start - 1) :: outside size (token.stop + 1) tokens
    else
      outside size offset tokens

def hasWhitespace (doc : Document) : Bool :=
  (outside doc.bytes.size 0 doc.tokens.toList).any fun gap =>
    (doc.bytes.extract gap.1 gap.2).any isWhitespace

/-- Is no entry followed by a smaller one? -/
def ascending : List Bytes → Bool
  | [] => true
  | [_] => true
  | a :: b :: rest => !decide (b < a) && ascending (b :: rest)

def isSorted (doc : Document) : Except Error Bool :=
  (List.range doc.tokens.size).allM fun index => do
    if (← doc.token index).kind = .object then
      return ascending (← (← doc.names index).mapM doc.slice)
    else
      return true

/-- The names that the top level must have, and what is said where one is missing. -/
def required : List (Bytes × Error) := [
  (Bytes.ofString "chain_id", .missingChainId),
  (Bytes.ofString "sequence", .missingSequence),
  (Bytes.ofString "fee", .missingFee),
  (Bytes.ofString "msgs", .missingMsgs),
  (Bytes.ofString "account_number", .missingAccountNumber),
  (Bytes.ofString "memo", .missingMemo)]

/-- Refuses a document for the first required name that the top level does not have.  One whose
root is no object has no names. -/
def requireNames (doc : Document) : Except Error Unit :=
  required.forM fun (key, missing) =>
    match doc.member 0 key with
    | .ok _ => .ok ()
    | .error .noData | .error .unexpectedType => .error missing
    | .error e => .error e

def checkCanonical (doc : Document) : Except Error Unit := do
  if doc.hasWhitespace then
    throw .containsWhitespace
  if !(← doc.isSorted) then
    throw .notSorted
  doc.requireNames

end SignReview.Json.Document
