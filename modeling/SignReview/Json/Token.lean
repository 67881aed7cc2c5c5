import SignReview.Error
import SignReview.Json.Lexeme
import SignReview.Settings

/-!
# The token table

Every value and every member name of a document is a token: its kind and where it stands.  The
table lists them by the place where they start, so that a container comes before what it contains.

A `Builder` reads one lexeme after the other.  It keeps what may come next and the number of the
innermost container that is open.  The end of a container is filled in when it closes; until then a
mark stands in its place, and by this mark the container around one that closes is found again.

* `Builder.step`: one lexeme.
* `Builder.finish`: the table, if the text may end here.
* `Token.table`: the tokens of a text, of which there may be at most `budget`.
-/

namespace SignReview.Json

inductive Kind
  | object
  | array
  /-- A string or a member name. -/
  | string
  /-- A word or number. -/
  | primitive
  deriving DecidableEq, Repr

def Container.kind : Container → Kind
  | .object => .object
  | .array => .array

/-- A value or name, from octet `start` up to but without octet `stop`.  A string has its quotes
outside, a container its brackets inside. -/
structure Token where
  kind : Kind
  start : Nat
  stop : Nat
  deriving DecidableEq, Repr

namespace Token

def isLeaf (token : Token) : Bool :=
  match token.kind with
  | .string | .primitive => true
  | .object | .array => false

/-- Stands for the end of a container that is still open. -/
def openMark : Nat := Limits.maxPosition

def isOpen (token : Token) : Bool := token.stop == openMark && !token.isLeaf

/-- The number of the last container among the first `n` tokens that is still open. -/
def lastOpen (tokens : Array Token) : Nat → Option Nat
  | 0 => none
  | n + 1 => if (tokens[n]?).any isOpen then some n else lastOpen tokens n

end Token

inductive Expected
  | value
  | valueOrClose
  | name
  | nameOrClose
  | colon
  | commaOrClose
  | nothing
  deriving DecidableEq, Repr

namespace Expected

def isValue : Expected → Bool
  | .value | .valueOrClose => true
  | _ => false

def isName : Expected → Bool
  | .name | .nameOrClose => true
  | _ => false

def mayClose : Expected → Container → Bool
  | .commaOrClose, _ => true
  | .nameOrClose, .object => true
  | .valueOrClose, .array => true
  | _, _ => false

def inside : Container → Expected
  | .object => .nameOrClose
  | .array => .valueOrClose

def afterComma : Option Kind → Expected
  | some .object => .name
  | _ => .value

/-- Behind a value, at the top level or in the container `parent`. -/
def afterValue (parent : Option Nat) : Expected :=
  if parent.isSome then .commaOrClose else .nothing

end Expected

/-- The table of the part of a text that has been read. -/
structure Builder where
  offset : Nat
  tokens : Array Token
  /-- The number of the innermost container that is open. -/
  parent : Option Nat
  expected : Expected

namespace Builder

def start : Builder := ⟨0, #[], none, .value⟩

def parentKind (b : Builder) : Option Kind :=
  b.parent.bind fun index => (b.tokens[index]?).map Token.kind

def push (b : Builder) (budget : Nat) (token : Token) : Except Error Builder :=
  if b.tokens.size < budget then
    .ok { b with tokens := b.tokens.push token }
  else
    .error .tooManyTokens

/-- Sets what may come next and steps over a lexeme. -/
def advance (b : Builder) (lexeme : Lexeme) (expected : Expected) : Builder :=
  { b with offset := b.offset + lexeme.text.length, expected }

def openContainer (b : Builder) (budget : Nat) (c : Container) : Except Error Builder := do
  let pushed ← b.push budget ⟨c.kind, b.offset, Token.openMark⟩
  return { pushed with parent := some b.tokens.size }

def closeContainer (b : Builder) (index stop : Nat) : Builder :=
  let tokens := b.tokens.modify index fun token => { token with stop }
  { b with tokens, parent := Token.lastOpen tokens index }

def step (budget : Nat) (b : Builder) (lexeme : Lexeme) : Except Error Builder :=
  match lexeme with
  | .blank _ => .ok (b.advance lexeme b.expected)
  | .opening c =>
    if b.expected.isValue then do
      return (← b.openContainer budget c).advance lexeme (.inside c)
    else
      .error .unexpectedCharacters
  | .closing c =>
    match b.parent with
    | none => .error .unexpectedCharacters
    | some index =>
      if b.expected.mayClose c ∧ b.parentKind = some c.kind then
        let closed := b.closeContainer index (b.offset + 1)
        .ok (closed.advance lexeme (.afterValue closed.parent))
      else
        .error .unexpectedCharacters
  | .colon =>
    if b.expected = .colon then
      .ok (b.advance lexeme .value)
    else
      .error .unexpectedCharacters
  | .comma =>
    if b.expected = .commaOrClose then
      .ok (b.advance lexeme (.afterComma b.parentKind))
    else
      .error .unexpectedCharacters
  | .string contents =>
    let token : Token := ⟨.string, b.offset + 1, b.offset + 1 + contents.length⟩
    if b.expected.isName then do
      return (← b.push budget token).advance lexeme .colon
    else if b.expected.isValue then do
      return (← b.push budget token).advance lexeme (.afterValue b.parent)
    else
      .error .unexpectedCharacters
  | .literal text =>
    if b.expected.isValue then do
      let token : Token := ⟨.primitive, b.offset, b.offset + text.length⟩
      return (← b.push budget token).advance lexeme (.afterValue b.parent)
    else
      .error .unexpectedCharacters
  | .unclosed _ =>
    if b.expected.isName ∨ b.expected.isValue then
      .error .incompleteJson
    else
      .error .unexpectedCharacters
  | .malformed _ => .error .unexpectedCharacters

/-- The table, if the text may end here. -/
def finish (b : Builder) : Except Error (Array Token) :=
  if b.parent.isSome then
    .error .incompleteJson
  else if b.tokens.isEmpty then
    .error .zeroTokens
  else
    .ok b.tokens

end Builder

/-- The tokens of a text, of which there may be at most `budget`. -/
def Token.table (budget : Nat) (text : Bytes) : Except Error (Array Token) := do
  (← (lexemes text).foldlM (Builder.step budget) .start).finish

end SignReview.Json
