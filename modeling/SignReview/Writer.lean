import SignReview.Bytes
import SignReview.Error

/-!
# Writing into a bounded text

A `Writer` adds to a text of limited capacity, and keeps what it has written also where it fails.

* `Writer.append`: pieces are added in order, each whole or not at all.
* `Writer.run_append_of_le`, `Writer.run_append_of_lt`: what it leaves with and without room.
* `Writer.text`: what is written into an empty text.
-/

namespace SignReview

/-- An action on a text that may fail and leaves the text behind in either case. -/
abbrev Writer := EStateM Error Bytes

namespace Writer

/-- The pieces at the front that fit into `room` octets, and whether these are all. -/
def fitting : Nat → List Bytes → List Bytes × Bool
  | _, [] => ([], true)
  | room, piece :: pieces =>
    if piece.length ≤ room then
      let (taken, all) := fitting (room - piece.length) pieces
      (piece :: taken, all)
    else
      ([], false)

/-- Adds pieces in order, each whole or not at all, up to the first that does not fit. -/
def append (capacity : Nat) (pieces : List Bytes) : Writer Unit := fun text =>
  let (taken, all) := fitting (capacity - text.length) pieces
  if all then .ok () (text ++ taken.flatten) else .error .bufferOverflow (text ++ taken.flatten)

/-- What is written into an empty text. -/
def text (writer : Writer Unit) : Except Error Bytes :=
  match writer.run [] with
  | .ok _ bytes => .ok bytes
  | .error e _ => .error e

theorem fitting_of_le {room : Nat} {pieces : List Bytes} (h : pieces.flatten.length ≤ room) :
    fitting room pieces = (pieces, true) := by
  fun_induction fitting room pieces with
  | case1 => rfl
  | case2 room piece pieces hPiece taken all hRest ih =>
    simp only [List.flatten_cons, List.length_append] at h
    simp_all [ih (by omega)]
  | case3 room piece pieces hPiece => simp at h; omega

theorem fitting_isPrefix (room : Nat) (pieces : List Bytes) :
    (fitting room pieces).1 <+: pieces := by
  fun_induction fitting room pieces with
  | case1 => simp
  | case2 room piece pieces hPiece taken all hRest ih => simp_all
  | case3 room piece pieces hPiece => simp

theorem le_of_fitting {room : Nat} {pieces : List Bytes}
    (h : (fitting room pieces).2 = true) : pieces.flatten.length ≤ room := by
  fun_induction fitting room pieces with
  | case1 => simp
  | case2 room piece pieces hPiece taken all hRest ih =>
    simp only [hRest] at ih
    have hPieces := ih h
    simp only [List.flatten_cons, List.length_append]
    omega
  | case3 room piece pieces hPiece => simp at h

/-- Where there is room for all pieces, all are added. -/
theorem run_append_of_le {capacity : Nat} {pieces : List Bytes} {text : Bytes}
    (h : text.length + pieces.flatten.length ≤ capacity) :
    (append capacity pieces).run text = .ok () (text ++ pieces.flatten) := by
  have hRoom : pieces.flatten.length ≤ capacity - text.length := by omega
  simp [append, EStateM.run, fitting_of_le hRoom]

/-- Where there is not, those in front of one that does not fit are added. -/
theorem run_append_of_lt {capacity : Nat} {pieces : List Bytes} {text : Bytes}
    (hText : text.length ≤ capacity) (h : capacity < text.length + pieces.flatten.length) :
    ∃ taken, taken <+: pieces ∧
      (append capacity pieces).run text = .error .bufferOverflow (text ++ taken.flatten) := by
  refine ⟨_, fitting_isPrefix (capacity - text.length) pieces, ?_⟩
  have hFalse : (fitting (capacity - text.length) pieces).2 = false :=
    Bool.eq_false_iff.mpr fun hTrue => by
      have := le_of_fitting hTrue
      omega
  simp [append, EStateM.run, hFalse]

end Writer

end SignReview
