import SignReview.Word
import SignReview.Writer

/-!
# Pages

A text is cut into pages of `width` octets; an empty text still has one page, which is empty.
A value may consist of several texts, each of which starts on a page of its own.

* `Page.count`, `Page.slice`: the pages of one text.
* `Page.total`, `Page.select?`: the pages of several texts, numbered through.
* `Page.find`: a page of several texts, `Page.write`: puts it in the place of the last one shown.
* `Page.count?`, `Page.slice?`, `Page.turn?`: the same for one text, reckoned in machine words.
-/

namespace SignReview.Page

def maxWidth : Nat := 128

/-- The width that is used where `width` is asked for. -/
def clamp (width : Nat) : Nat := max 1 (min width maxWidth)

def count (length width : Nat) : Nat :=
  max 1 ((length + (max width 1 - 1)) / max width 1)

def slice (text : Bytes) (width page : Nat) : Bytes := (text.drop (page * width)).take width

def total (width : Nat) : List Bytes → Nat
  | [] => 0
  | text :: texts => count text.length width + total width texts

def select? (width : Nat) : List Bytes → Nat → Option Bytes
  | [], _ => none
  | text :: texts, page =>
    if page < count text.length width then
      some (slice text width page)
    else
      select? width texts (page - count text.length width)

theorem count_pos (length width : Nat) : 0 < count length width := by
  unfold count
  omega

/-- The pages of several texts are those whose numbers are below their total. -/
theorem select?_eq_none_iff (width : Nat) (texts : List Bytes) (page : Nat) :
    select? width texts page = none ↔ total width texts ≤ page := by
  fun_induction select? width texts page with
  | case1 => simp [total]
  | case2 page text texts h => simp [total]; omega
  | case3 page text texts h ih => simp_all [total]; omega

/-- Page `page` of several texts, and the number of their pages. -/
def find (texts : List Bytes) (width page : Nat) : Except Error (Bytes × Nat) :=
  match select? (clamp width) texts page with
  | some bytes => .ok (bytes, total (clamp width) texts)
  | none => .error .displayPageOutOfRange

/-- Replaces the page shown by page `page` of the texts, and answers how many pages there are.
Where there is no such page the one shown stays. -/
def write (texts : List Bytes) (width page : Nat) : Writer Nat := do
  let (bytes, pages) ← MonadExcept.ofExcept (find texts width page)
  set bytes
  return pages

/-! ### In words -/

def clampWord (width : UInt64) : UInt64 := max 1 (min width (.ofNat maxWidth))

def count? (length width : UInt64) : Option UInt64 := do
  return max (← Word.ceilDiv? length (max width 1)) 1

def slice? (text : Bytes) (width page : UInt64) : Option Bytes := do
  let start ← Word.mul? page width
  let stop := min (← Word.ofNat? text.length) (← Word.add? start width)
  text.cut? start.toNat stop.toNat

/-- Shows octets in the place of the page shown.  There is room for a page of the largest width. -/
def overwrite (octets : Bytes) : Writer Unit := do
  set ([] : Bytes)
  Writer.append maxWidth [octets]

/-- What `Page.write` does for one text, provided that all numbers it comes to are words and all
positions lie in the text. -/
def turn? (text : Bytes) (width page : UInt64) : Option (Writer UInt64) := do
  let width := clampWord width
  let pages ← count? (← Word.ofNat? text.length) width
  if pages ≤ page then
    return throw .displayPageOutOfRange
  else
    let octets ← slice? text width page
    return do
      overwrite octets
      return pages

end SignReview.Page
