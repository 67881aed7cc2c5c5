import SignReview.Path

/-!
# Headings

A sign document is shown under six headings, each of which is a name of its top level.
-/

namespace SignReview

inductive Heading
  | chainId
  | accountNumber
  | sequence
  | fee
  | memo
  | msgs
  deriving DecidableEq, Repr

namespace Heading

/-- The headings, in the order in which they are shown. -/
def all : List Heading := [.chainId, .accountNumber, .sequence, .fee, .memo, .msgs]

def name : Heading → Bytes
  | .chainId => Bytes.ofString "chain_id"
  | .accountNumber => Bytes.ofString "account_number"
  | .sequence => Bytes.ofString "sequence"
  | .fee => Bytes.ofString "fee"
  | .memo => Bytes.ofString "memo"
  | .msgs => Bytes.ofString "msgs"

/-- How many levels below the name its leaves lie at most. -/
def levels : Heading → Nat
  | .fee => 1
  | _ => 2

def path (heading : Heading) : Path := ⟨heading.name, by cases heading <;> decide⟩

end Heading

end SignReview
