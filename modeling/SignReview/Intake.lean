import SignReview.Bytes
import SignReview.Error

/-!
# The intake buffer

A transaction arrives in chunks and is collected in a buffer of fixed capacity.
`Intake.append` adds a chunk whole or not at all, so a buffer never holds part of a chunk.
-/

namespace SignReview

/-- A buffer of fixed capacity. -/
structure Intake (capacity : Nat) where
  bytes : Bytes
  length_le : bytes.length ≤ capacity

namespace Intake

variable {capacity : Nat}

def empty : Intake capacity := ⟨[], Nat.zero_le _⟩

def size (buffer : Intake capacity) : Nat := buffer.bytes.length

/-- Adds a chunk, or refuses it whole. -/
def append (buffer : Intake capacity) (chunk : Bytes) : Except Error (Intake capacity) :=
  if h : (buffer.bytes ++ chunk).length ≤ capacity then
    .ok ⟨buffer.bytes ++ chunk, h⟩
  else
    .error .transactionTooBig

end Intake

end SignReview
