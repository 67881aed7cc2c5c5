import SignReview.Chain

/-!
# Settings

`Limits` bounds what is accepted, `Context` says how it is shown.
-/

namespace SignReview

/-- The most tokens a document may ever have. -/
def Limits.tokenCapacity : Nat := 768

structure Limits where
  /-- The most octets. -/
  maxBytes : Nat := 16384
  /-- The most values and names of a JSON document. -/
  maxTokens : Nat := Limits.tokenCapacity

namespace Limits

/-- The last position that a token can have, the largest 32-bit word. -/
def maxPosition : Nat := 0xffffffff

def maxDocument (limits : Limits) : Nat := min limits.maxBytes maxPosition

def tokenBudget (limits : Limits) : Nat := min limits.maxTokens tokenCapacity

end Limits

structure Context where
  /-- Show expert screens, and amounts as they stand in the document. -/
  expert : Bool := false
  /-- Octets of a page. -/
  width : Nat := 40
  /-- The chains whose amounts are converted. -/
  chains : List Chain := Chain.known

end SignReview
