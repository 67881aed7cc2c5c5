import SignReview.Settings
import SignReview.Json.Token

/-!
# Documents

A document is a JSON text together with its token table.

* `Document.parse`: reads a text within limits.
* `Document.token`, `Document.slice`: a token, and the octets it covers.
-/

namespace SignReview.Json

structure Document where
  bytes : Array UInt8
  tokens : Array Token

namespace Document

def parse (text : Bytes) (limits : Limits) : Except Error Document := do
  if limits.maxDocument < text.length then
    throw (.bufferTooLarge text.length limits.maxDocument)
  let tokens ← Token.table limits.tokenBudget text
  return ⟨text.toArray, tokens⟩

def token (doc : Document) (index : Nat) : Except Error Token :=
  match doc.tokens[index]? with
  | some token => .ok token
  | none => .error .noData

/-- The octets that a token covers. -/
def slice (doc : Document) (index : Nat) : Except Error Bytes := do
  let token ← doc.token index
  if token.start ≤ token.stop ∧ token.stop ≤ doc.bytes.size then
    return (doc.bytes.extract token.start token.stop).toList
  else
    throw .unexpectedBufferEnd

end Document

end SignReview.Json
