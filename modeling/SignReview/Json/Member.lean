import SignReview.Json.Document

/-!
# Elements and members

What a container holds, read off the table: its children are the tokens behind it that start before
it ends and do not start inside the child before.  The children of an object are by turns a name
and its value.

* `Document.children`: the children of a token.
* `Document.arraySize`, `Document.element`: the elements of an array.
* `Document.objectSize`, `Document.name`, `Document.value`, `Document.member`: the members of an
  object.
-/

namespace SignReview.Json.Document

/-- The children among the next `left` tokens, the first of which is number `index`: those that
start behind `past` and before `stop`. -/
def childrenFrom (doc : Document) (stop : Nat) : Nat → Nat → Nat → List Nat
  | 0, _, _ => []
  | left + 1, index, past =>
    match doc.tokens[index]? with
    | none => []
    | some token =>
      if stop ≤ token.start then
        []
      else if token.start ≤ past then
        doc.childrenFrom stop left (index + 1) past
      else
        index :: doc.childrenFrom stop left (index + 1) token.stop

/-- The direct children of `token`, which is number `index`; a leaf has none. -/
def childrenOf (doc : Document) (index : Nat) (token : Token) : List Nat :=
  doc.childrenFrom (if token.isLeaf then token.start else token.stop)
    (doc.tokens.size - (index + 1)) (index + 1) token.start

def children (doc : Document) (index : Nat) : Except Error (List Nat) :=
  return doc.childrenOf index (← doc.token index)

def contents (doc : Document) (kind : Kind) (index : Nat) : Except Error (List Nat) := do
  if (← doc.token index).kind = kind then
    doc.children index
  else
    throw .unexpectedType

def arraySize (doc : Document) (index : Nat) : Except Error Nat :=
  return (← doc.contents .array index).length

def element (doc : Document) (index n : Nat) : Except Error Nat := do
  match (← doc.contents .array index)[n]? with
  | some child => return child
  | none => throw .noData

def everySecond {α : Type} : List α → List α
  | [] => []
  | [a] => [a]
  | a :: _ :: rest => a :: everySecond rest

/-- Each entry at an even place with the one behind it, if there is one. -/
def inPairs {α : Type} : List α → List (α × Option α)
  | [] => []
  | [a] => [(a, none)]
  | a :: b :: rest => (a, some b) :: inPairs rest

def names (doc : Document) (index : Nat) : Except Error (List Nat) :=
  return everySecond (← doc.contents .object index)

def objectSize (doc : Document) (index : Nat) : Except Error Nat :=
  return (← doc.contents .object index).length / 2

def name (doc : Document) (index n : Nat) : Except Error Nat := do
  match (← doc.names index)[n]? with
  | some child => return child
  | none => throw .noData

/-- The value of name `n` of an object, which is the token behind the name. -/
def value (doc : Document) (index n : Nat) : Except Error Nat :=
  return (← doc.name index n) + 1

/-- The value of the first of the given names that has these octets. -/
def valueOf (doc : Document) (key : Bytes) : List Nat → Except Error Nat
  | [] => .error .noData
  | name :: names => do
    if (← doc.slice name) = key then
      return name + 1
    else
      doc.valueOf key names

def member (doc : Document) (index : Nat) (key : Bytes) : Except Error Nat := do
  doc.valueOf key (← doc.names index)

end SignReview.Json.Document
