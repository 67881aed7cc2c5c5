import SignReview.Bytes

/-!
# Chains

How the amounts of a chain's staking denomination are shown.
-/

namespace SignReview

structure Chain where
  /-- The value of a document's `chain_id`. -/
  id : Bytes
  /-- The denomination that documents count in. -/
  baseDenom : Bytes
  /-- The denomination that is shown. -/
  displayDenom : Bytes
  /-- Decimal places between the two. -/
  decimals : Nat
  /-- Decimal places that are shown even where they are zero. -/
  minDecimals : Nat
  deriving DecidableEq

namespace Chain

def hub : Chain where
  id := Bytes.ofString "cosmoshub-4"
  baseDenom := Bytes.ofString "uatom"
  displayDenom := Bytes.ofString "ATOM"
  decimals := 6
  minDecimals := 1

/-- The chains known without being told. -/
def known : List Chain := [hub]

def find? (chains : List Chain) (id : Bytes) : Option Chain :=
  chains.find? fun chain => chain.id == id

end Chain

end SignReview
