import SignReview.Amount.Coin
import SignReview.Entry
import SignReview.Json.Canonical
import SignReview.Label
import SignReview.Listing

/-!
# Sign documents

A sign document is a canonical JSON document, shown as the entries of its listing.

* `SignDoc.entry`: what is shown of an item.
* `SignDoc.check`: the listing, if the document is canonical and all its pages can be shown.
-/

namespace SignReview

open Json

namespace SignDoc

/-- The chain that a document is for, if it is known. -/
def chain? (doc : Document) (chains : List Chain) : Option Chain :=
  match doc.member 0 (Bytes.ofString "chain_id") >>= doc.slice with
  | .ok id => Chain.find? chains id
  | .error _ => none

/-- The text of a token, or the friendly name of that text. -/
def tokenText (doc : Document) (index : Nat) : Except Error Bytes := do
  let bytes ← doc.slice index
  return (Label.ofValue? bytes).getD bytes

def leafEntry (doc : Document) (context : Context) (leaf : Leaf) : Except Error Entry := do
  let path := leaf.path.bytes
  let key := (Label.ofPath? path).getD path
  if Label.isAmount path then
    let chain := if context.expert then none else chain? doc context.chains
    return ⟨key, ← Coin.texts doc chain leaf.token⟩
  else
    return ⟨key, [← tokenText doc leaf.token]⟩

def entry (doc : Document) (listing : Listing) (context : Context) (n : Nat) :
    Except Error Entry := do
  leafEntry doc context (← listing.leaf doc n)

/-- The listing of a document, if it is canonical and each page of its items can be shown in both
modes. -/
def check (doc : Document) (context : Context) : Except Error Listing := do
  doc.checkCanonical
  let listing ← Listing.build doc
  [false, true].forM fun expert =>
    (List.range listing.size).forM fun n => do
      (← entry doc listing { context with expert } n).renderAll context.width
  return listing

end SignDoc

end SignReview
