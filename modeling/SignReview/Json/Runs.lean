import SignReview.Json.Document

/-!
# Texts in runs

A text may be as long as the greatest position.  Where it repeats itself it need not be written out
to be read: it is given in runs, and the blanks of a run between two lexemes are stepped over all at
once.

* `Reader.feed`: one octet, `Reader.feedRun`: a run.
* `Document.readRuns`: the tokens of a text in runs.
-/

namespace SignReview

/-- A piece of text that is repeated. -/
structure Run where
  piece : Bytes
  times : Nat
  deriving DecidableEq, Repr

namespace Run

def text (run : Run) : Bytes := (List.replicate run.times run.piece).flatten

def length (run : Run) : Nat := run.times * run.piece.length

end Run

namespace Json

/-- The lexemes that end at or in front of the next octet, and what is read then.  There are none
where the text is malformed. -/
def Lexeme.Mode.next? : Mode → UInt8 → Option (List Lexeme × Mode)
  | .between, c =>
    if c = 0x22 then
      some ([], .quoted .plain [])
    else if startsLiteral c then
      some ([], .word [c])
    else
      (ofByte? c).map fun lexeme => ([lexeme], .between)
  | .quoted inside read, c =>
    if inside = .plain ∧ c = 0x22 then
      some ([.string read.reverse], .between)
    else
      (inside.next? c).map fun next => ([], .quoted next (c :: read))
  | .word read, c =>
    match (ofByte? c).filter endsLiteral with
    | none => some ([], .word (c :: read))
    | some lexeme =>
      if Literal.isLiteral read.reverse then
        some ([.literal read.reverse, lexeme], .between)
      else
        none

/-- The lexeme that is being read, and the table of those in front of it. -/
structure Reader where
  mode : Lexeme.Mode
  builder : Builder

namespace Reader

def start : Reader := ⟨.between, .start⟩

def feed (budget : Nat) (reader : Reader) (c : UInt8) : Except Error Reader := do
  match reader.mode.next? c with
  | some (ended, mode) => return ⟨mode, ← ended.foldlM (Builder.step budget) reader.builder⟩
  | none => throw .unexpectedCharacters

def isBlank (c : UInt8) : Bool := c == 0x20 || c == 0x09 || c == 0x0a || c == 0x0d

def isBetween (reader : Reader) : Bool :=
  match reader.mode with
  | .between => true
  | _ => false

def skip (reader : Reader) (octets : Nat) : Reader :=
  { reader with builder := { reader.builder with offset := reader.builder.offset + octets } }

/-- Reads the piece once.  If it is blank, and no lexeme has begun in front of it, the rest of the
run is skipped. -/
def feedRun (budget : Nat) (reader : Reader) (run : Run) : Except Error Reader := do
  match run.times with
  | 0 => return reader
  | times + 1 =>
    let reader ← run.piece.foldlM (feed budget) reader
    let rest : Run := ⟨run.piece, times⟩
    if reader.isBetween && run.piece.all isBlank then
      return reader.skip rest.length
    else
      rest.text.foldlM (feed budget) reader

def finish (budget : Nat) (reader : Reader) : Except Error (Array Token) := do
  (← (Lexeme.scan reader.mode []).foldlM (Builder.step budget) reader.builder).finish

end Reader

def Token.tableOfRuns (budget : Nat) (runs : List Run) : Except Error (Array Token) := do
  (← runs.foldlM (Reader.feedRun budget) .start).finish budget

/-- The tokens of the document that stands in the runs. -/
def Document.readRuns (runs : List Run) (limits : Limits) : Except Error (Array Token) := do
  let length := runs.foldl (fun length run => length + run.length) 0
  if limits.maxDocument < length then
    throw (.bufferTooLarge length limits.maxDocument)
  Token.tableOfRuns limits.tokenBudget runs

end Json

end SignReview
