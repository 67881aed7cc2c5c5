import SignReview.Bytes
import SignReview.Error

/-!
# Paths

The path of a value is the names on the way to it, joined by slashes, as in `msgs/value/amount`.
Positions in a list do not show in it.  A path has at most `Path.capacity` octets.
-/

namespace SignReview

def Path.capacity : Nat := 64

/-- Names joined by slashes. -/
structure Path where
  bytes : Bytes
  length_le : bytes.length ≤ Path.capacity
  deriving DecidableEq

namespace Path

def empty : Path := ⟨[], Nat.zero_le _⟩

/-- A name after the octets of a path; the first name has no slash before it. -/
def join (path name : Bytes) : Bytes :=
  if path.isEmpty then name else path ++ 0x2f :: name

/-- Steps down to the member called `name`. -/
def push (path : Path) (name : Bytes) : Except Error Path :=
  if h : (join path.bytes name).length ≤ capacity then
    .ok ⟨join path.bytes name, h⟩
  else
    .error .bufferOverflow

def truncate (path : Path) (length : Nat) : Path :=
  ⟨path.bytes.take length, Nat.le_trans (List.length_take_le' length path.bytes) path.length_le⟩

end Path

end SignReview
