import SignReview.Chain
import SignReview.Amount.Decimal
import SignReview.Json.Member

/-!
# Coins

A coin is an object with the members `amount` and `denom`, in this order, or an empty object.
Amounts in the base denomination of the chain are converted to what is shown for it.

* `Coin.read`: the coin at a token.
* `Coin.write`: writes a coin.
* `Coin.texts`: the texts of a coin or of a list of coins, one for each coin.
-/

namespace SignReview

open Json

structure Coin where
  amount : Bytes
  denom : Bytes
  deriving DecidableEq, Repr

namespace Coin

def maxAmount : Nat := 64

def maxDenom : Nat := 128

def capacity : Nat := 256

/-- What is shown where there is no coin. -/
def emptyText : Bytes := Bytes.ofString "Empty"

/-- Member `n` of a coin: a string of 1 to `most` octets under the name `name`. -/
def readField (doc : Document) (index n : Nat) (name : Bytes) (most : Nat) :
    Except Error Bytes := do
  if (← doc.slice (← doc.name index n)) ≠ name then
    throw .unexpectedField
  let value ← doc.value index n
  if (← doc.token value).kind ≠ .string then
    throw .unexpectedType
  let bytes ← doc.slice value
  if bytes.isEmpty || most < bytes.length then
    throw .unexpectedValue
  return bytes

/-- The coin at a token, if it is not an empty object. -/
def read (doc : Document) (index : Nat) : Except Error (Option Coin) := do
  match ← doc.objectSize index with
  | 0 => return none
  | 2 =>
    let amount ← readField doc index 0 (Bytes.ofString "amount") maxAmount
    let denom ← readField doc index 1 (Bytes.ofString "denom") maxDenom
    return some ⟨amount, denom⟩
  | _ => throw .unexpectedField

/-- The chain, if the coin is in its base denomination. -/
def converting? (coin : Coin) (chain : Option Chain) : Option Chain :=
  chain.filter fun chain => chain.baseDenom == coin.denom

def write (capacity : Nat) (chain : Option Chain) (coin : Coin) : Writer Unit := do
  match coin.converting? chain with
  | some chain =>
    Decimal.write capacity coin.amount chain.decimals chain.minDecimals
    Writer.append capacity [[0x20], chain.displayDenom]
  | none => Writer.append capacity [coin.amount, [0x20], coin.denom]

def writeAt (capacity : Nat) (doc : Document) (chain : Option Chain) (index : Nat) :
    Writer Unit := do
  match ← MonadExcept.ofExcept (read doc index) with
  | none => Writer.append capacity [emptyText]
  | some coin => coin.write capacity chain

def text (doc : Document) (chain : Option Chain) (index : Nat) : Except Error Bytes :=
  (writeAt capacity doc chain index).text

/-- The texts of a coin or of a list of coins. -/
def texts (doc : Document) (chain : Option Chain) (index : Nat) : Except Error (List Bytes) := do
  match (← doc.token index).kind with
  | .object => return [← text doc chain index]
  | .array =>
    match ← (← doc.children index).mapM (text doc chain) with
    | [] => return [emptyText]
    | texts => return texts
  | _ => throw .unexpectedType

end Coin

end SignReview
