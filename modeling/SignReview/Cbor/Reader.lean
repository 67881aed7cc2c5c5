import SignReview.Bytes
import SignReview.Error

/-!
# Reading off the front

A `Reader` takes a value off the front of the input and leaves the rest.

* `Reader.byte`, `Reader.take`: octets.
* `Reader.times`, `Reader.untilBreak`: runs of values, of a given number or up to a break.
* `Reader.foldTimes`, `Reader.foldUntilBreak`: the same, each value used up as soon as it is taken.
-/

namespace SignReview

/-- An action that takes a value off the front of the input. -/
abbrev Reader := StateT Bytes (Except Error)

namespace Reader

variable {α : Type}

def byte : Reader UInt8 := fun input =>
  match input with
  | [] => .error .cborUnexpectedEof
  | c :: rest => .ok (c, rest)

def take (n : Nat) : Reader Bytes := fun input =>
  if (input.take n).length = n then
    .ok (input.take n, input.drop n)
  else
    .error .cborUnexpectedEof

def times (read : Reader α) : Nat → Reader (List α)
  | 0 => return []
  | n + 1 => do
    let value ← read
    return value :: (← times read n)

/-- Takes values up to a break, which is taken too.  There are at most `most`. -/
def untilBreakFrom (read : Reader α) : (most : Nat) → Reader (List α)
  | 0 => throw .cborUnexpectedEof
  | most + 1 => fun input =>
    match input with
    | [] => .error .cborUnexpectedEof
    | c :: rest =>
      if c = 0xff then
        .ok ([], rest)
      else do
        let (value, rest) ← read input
        let (values, rest) ← untilBreakFrom read most rest
        return (value :: values, rest)

def untilBreak (read : Reader α) : Reader (List α) := fun input =>
  untilBreakFrom read (input.length + 1) input

variable {β : Type}

/-- Takes `n` values, each of which is used up as soon as it is taken. -/
def foldTimes (read : Reader α) (use : β → α → β) : Nat → β → Reader β
  | 0, b => return b
  | n + 1, b => do foldTimes read use n (use b (← read))

/-- Takes values up to a break, which is taken too; each is used up as soon as it is taken.  There
are at most `most`. -/
def foldUntilBreakFrom (read : Reader α) (use : β → α → β) : (most : Nat) → β → Reader β
  | 0, _ => throw .cborUnexpectedEof
  | most + 1, b => fun input =>
    match input with
    | [] => .error .cborUnexpectedEof
    | c :: rest =>
      if c = 0xff then
        .ok (b, rest)
      else do
        let (value, rest) ← read input
        foldUntilBreakFrom read use most (use b value) rest

def foldUntilBreak (read : Reader α) (use : β → α → β) (b : β) : Reader β := fun input =>
  foldUntilBreakFrom read use (input.length + 1) b input

end Reader

end SignReview
