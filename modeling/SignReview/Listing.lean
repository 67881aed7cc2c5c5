import SignReview.Leaf.Query
import SignReview.Heading

/-!
# The listing of a sign document

The items of a sign document are the leaves under its headings, numbered through.  The listing ends
in front of the first heading that the document lacks.  The memo ends in front of its first empty
leaf.  Where all messages have the same type, the type is shown once.

* `Listing.build`: counts the leaves under each heading.
* `Listing.locate`: the heading of an item, and the number of the item under it.
* `Listing.leaf`: the leaf that an item shows.
-/

namespace SignReview

open Json

/-- The one type that all messages have. -/
structure TypeGroup where
  /-- The number of the first leaf with the type, among the leaves of the messages. -/
  first : Nat
  /-- How many leaves have the type. -/
  count : Nat
  deriving DecidableEq, Repr

def TypeGroup.path : Bytes := Bytes.ofString "msgs/type"

/-- What a count has come by of the types of messages. -/
structure TypeScan where
  /-- The first type, and the number of its leaf. -/
  first : Option (Bytes × Nat) := none
  /-- How many leaves have the first type. -/
  count : Nat := 0
  /-- Is there another type? -/
  mixed : Bool := false

namespace TypeScan

/-- Comes by leaf `n`.  Behind a second type, no leaf matters. -/
def observe (scan : TypeScan) (path value : Bytes) (n : Nat) : TypeScan :=
  if scan.mixed || path != TypeGroup.path then
    scan
  else
    match scan.first with
    | none => { scan with first := some (value, n), count := scan.count + 1 }
    | some (first, _) =>
      if first != value then { scan with mixed := true } else { scan with count := scan.count + 1 }

def group? (scan : TypeScan) : Option TypeGroup :=
  match scan.first with
  | none => none
  | some (_, n) => if scan.mixed then none else some ⟨n, scan.count⟩

end TypeScan

/-- The items under one heading. -/
structure Span where
  heading : Heading
  /-- The token of the value under the heading. -/
  start : Nat
  /-- The number of items. -/
  count : Nat
  /-- The type shown once, of the messages only. -/
  group : Option TypeGroup
  deriving DecidableEq, Repr

def Heading.query (heading : Heading) (n : Nat) : Query :=
  { Query.nth n heading.levels with key := heading.path }

namespace Span

/-- Counts the leaves from number `n` on by searching for one after the other, at most `most` times.
The memo ends in front of its first empty leaf. -/
def countFrom (doc : Document) (heading : Heading) (start : Nat) :
    (most n : Nat) → TypeScan → Except Error (Nat × TypeScan)
  | 0, n, scan => .ok (n, scan)
  | most + 1, n, scan =>
    match (heading.query n).find doc start with
    | (.error .queryNoResults, _) => .ok (n, scan)
    | (.error e, _) => .error e
    | (.ok token, query) => do
      let value ← doc.slice token
      if heading = .memo ∧ value.isEmpty = true then
        return (n, scan)
      countFrom doc heading start most (n + 1)
        (if heading = .msgs then scan.observe query.key.bytes value n else scan)

/-- Counts the leaves of the value under a heading, whose token is `start`.  There are not more of
them than tokens, and behind them one search more that finds nothing. -/
def build (doc : Document) (heading : Heading) (start : Nat) : Except Error Span := do
  let (n, scan) ← countFrom doc heading start (doc.tokens.size + 1) 0 {}
  let group := if heading = .msgs then scan.group? else none
  let repeated := match group with
    | some group => group.count - 1
    | none => 0
  return ⟨heading, start, n - repeated, group⟩

def query (span : Span) (n : Nat) : Query :=
  { span.heading.query n with
    mask := span.group.map fun group => ⟨TypeGroup.path, group.first⟩ }

end Span

structure Listing where
  spans : List Span
  deriving DecidableEq, Repr

namespace Listing

/-- The spans of the given headings, up to the first that the document lacks. -/
def buildSpans (doc : Document) : List Heading → Except Error (List Span)
  | [] => .ok []
  | heading :: headings =>
    match doc.member 0 heading.name with
    | .error .noData => .ok []
    | .error e => .error e
    | .ok start => do
      let span ← Span.build doc heading start
      return span :: (← buildSpans doc headings)

def build (doc : Document) : Except Error Listing := do
  if (← doc.token 0).kind ≠ .object then
    throw .unexpectedType
  return ⟨← buildSpans doc Heading.all⟩

def sizeOf : List Span → Nat
  | [] => 0
  | span :: spans => span.count + sizeOf spans

def size (listing : Listing) : Nat := sizeOf listing.spans

def count (listing : Listing) (heading : Heading) : Nat :=
  match listing.spans.find? fun span => span.heading = heading with
  | some span => span.count
  | none => 0

/-- The type that is shown once. -/
def group (listing : Listing) : Option TypeGroup := listing.spans.findSome? Span.group

/-- The span of item `n`, and the number of the item in it. -/
def locateIn : List Span → Nat → Except Error (Span × Nat)
  | [], _ => .error .displayIdxOutOfRange
  | span :: spans, n => if n < span.count then .ok (span, n) else locateIn spans (n - span.count)

def locate (listing : Listing) (n : Nat) : Except Error (Span × Nat) := locateIn listing.spans n

def leaf (listing : Listing) (doc : Document) (n : Nat) : Except Error Leaf := do
  let (span, n) ← listing.locate n
  match (span.query n).find doc span.start with
  | (.ok token, query) => return ⟨query.key, token⟩
  | (.error e, _) => throw e

end Listing

end SignReview
