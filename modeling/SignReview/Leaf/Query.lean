import SignReview.Json.Member
import SignReview.Path

/-!
# Searching for a leaf by its number

A value is shown leaf by leaf.  A leaf is a string, a word or number, or a container that lies too
deep: a step down to a member of an object costs one level and one depth, a step down to an element
of an array one depth, and where either is used up the container is shown as a whole.

A query goes through the leaves in document order and counts them until it has reached its target.
It may hide all leaves of one path but the one of a given number; a hidden leaf is counted and puts
the target off by one.  A query may be used again: its counter, its target and its key carry over.

* `Query.nth`, `Query.withPrefix`, `Query.withMask`: queries that have not been used.
* `Query.visit`: comes to a leaf.
* `Query.descend`, `Query.firstOf`: steps down to the children of a container.
* `Query.find`: the search below a token.
* `Leaf.count`: the number of leaves below a token.
-/

namespace SignReview

open Json

structure Leaf where
  path : Path
  token : Nat
  deriving DecidableEq

def Leaf.maxDepth : Nat := 6

/-- Hides the leaves of a path, but for one. -/
structure Mask where
  path : Bytes
  /-- The number of the leaf that stays, counted with the hidden ones. -/
  visible : Nat
  deriving DecidableEq

structure Query where
  /-- The number of the leaf that is looked for. -/
  target : Nat
  /-- How many leaves have been passed. -/
  seen : Nat
  /-- How many levels the search may go down. -/
  levels : Nat
  /-- The path of the value at which the search is; behind it, the path it has come to. -/
  key : Path
  mask : Option Mask
  deriving DecidableEq

namespace Query

/-- The search for leaf `n` of a value without a path. -/
def nth (n levels : Nat) : Query where
  target := n
  seen := 0
  levels := levels
  key := .empty
  mask := none

/-- The search for leaf `n` of the value called `name`. -/
def withPrefix (n levels : Nat) (name : Bytes) : Except Error Query :=
  return { nth n levels with key := ← Path.empty.push name }

def withMask (query : Query) (mask : Option Mask) : Query := { query with mask }

/-- Is a leaf of this path hidden, if it is the next one? -/
def hides (query : Query) (path : Path) : Bool :=
  match query.mask with
  | none => false
  | some mask => mask.visible != query.seen && path.bytes == mask.path

def pass (query : Query) : Query := { query with seen := query.seen + 1 }

def passHidden (query : Query) : Query :=
  { query with target := query.target + 1, seen := query.seen + 1 }

/-- What a search has found, and the query behind it. -/
abbrev Outcome := Except Error Nat × Query

def visit (query : Query) (index : Nat) : Outcome :=
  if query.hides query.key then
    (.error .queryNoResults, query.passHidden)
  else if query.seen = query.target then
    (.ok index, query)
  else
    (.error .queryNoResults, query.pass)

/-- Steps down at the cost of some levels, which are given back behind the search. -/
def descend (search : Query → Outcome) (cost : Nat) (query : Query) : Outcome :=
  let (found, query) := search { query with levels := query.levels - cost }
  (found, { query with levels := query.levels + cost })

/-- Searches one place after the other.  Where there are no results, the key is cut back to its
first `base` octets. -/
def firstOf {α : Type} (base : Nat) (search : α → Query → Outcome) : List α → Query → Outcome
  | [], query => (.error .queryNoResults, query)
  | place :: places, query =>
    match search place query with
    | (.error .queryNoResults, query) =>
      firstOf base search places { query with key := query.key.truncate base }
    | outcome => outcome

def enter (doc : Document) (search : Nat → Query → Outcome) (member : Nat × Option Nat)
    (query : Query) : Outcome :=
  match member with
  | (_, none) => (.error .unexpectedBufferEnd, query)
  | (name, some value) =>
    match doc.slice name >>= query.key.push with
    | .error e => (.error e, query)
    | .ok key => descend (search value) 1 { query with key }

def findWithin (doc : Document) (depth index : Nat) (query : Query) : Outcome :=
  match doc.token index with
  | .error e => (.error e, query)
  | .ok token =>
    match depth with
    | 0 => query.visit index
    | depth + 1 =>
      if query.levels = 0 ∨ token.isLeaf = true then
        query.visit index
      else if token.kind = .object then
        firstOf query.key.bytes.length (enter doc (findWithin doc depth))
          (Document.inPairs (doc.childrenOf index token)) query
      else
        firstOf query.key.bytes.length (fun child => descend (findWithin doc depth child) 0)
          (doc.childrenOf index token) query
termination_by structural depth

def find (query : Query) (doc : Document) (index : Nat) : Outcome :=
  findWithin doc Leaf.maxDepth index query

end Query

/-- The largest 64-bit word, the number of a leaf that there never is. -/
def Leaf.noTarget : Nat := 0xffffffffffffffff

def Leaf.count (doc : Document) (index levels : Nat) : Except Error Nat :=
  match (Query.nth noTarget levels).find doc index with
  | (.ok _, query) => .ok query.seen
  | (.error .queryNoResults, query) => .ok query.seen
  | (.error e, _) => .error e

end SignReview
