import SignReview.Transaction.ScreenList
import SignReview.Transaction.SignDoc

/-!
# Transactions

A transaction comes as a sign document or as a list of screens.  Nothing of it is shown until it
has been validated, and a validation that fails takes an earlier one back.

* `Transaction.parse`: reads a transaction.
* `Transaction.validate`: makes its items available, or none.
* `Transaction.size`, `Transaction.item`: the number of items, and a page of one.
-/

namespace SignReview

inductive Form
  /-- A sign document. -/
  | json
  /-- A list of screens. -/
  | textual
  deriving DecidableEq, Repr

/-- A transaction, and whether it has been validated. -/
inductive Transaction
  | json (doc : Json.Document) (listing : Option Listing)
  | textual (list : ScreenList) (validated : Bool)

namespace Transaction

def parse (form : Form) (bytes : Bytes) (limits : Limits) : Except Error Transaction :=
  match form with
  | .json => return .json (← Json.Document.parse bytes limits) none
  | .textual => return .textual (← ScreenList.parse bytes limits) false

/-- Checks all that can be shown of a transaction, in both modes. -/
def validate (tx : Transaction) (context : Context) : Except Error Unit × Transaction :=
  match tx with
  | .json doc _ =>
    match SignDoc.check doc context with
    | .ok listing => (.ok (), .json doc (some listing))
    | .error e => (.error e, .json doc none)
  | .textual list _ =>
    match list.check context with
    | .ok () => (.ok (), .textual list true)
    | .error e => (.error e, .textual list false)

def size (tx : Transaction) (context : Context) : Except Error Nat :=
  match tx with
  | .json _ (some listing) => .ok listing.size
  | .textual list true => .ok (list.size context.expert)
  | _ => .error .noData

def entry (tx : Transaction) (context : Context) (n : Nat) : Except Error Entry :=
  match tx with
  | .json doc (some listing) => SignDoc.entry doc listing context n
  | .textual list true => list.entry context n
  | _ => .error .noData

def item (tx : Transaction) (context : Context) (n page : Nat) : Except Error Item := do
  (← tx.entry context n).item context.width page

end Transaction

end SignReview
