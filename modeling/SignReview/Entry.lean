import SignReview.Page

/-!
# Entries and items

An entry is all that is shown under one key: texts, each of which starts on a page of its own.
An item is one page of an entry.

* `Entry.item`: renders a page, `Entry.renderAll`: renders all of them.
-/

namespace SignReview

/-- What is shown under one key. -/
structure Entry where
  key : Bytes
  texts : List Bytes
  deriving DecidableEq, Repr

/-- One page of an entry. -/
structure Item where
  key : Bytes
  value : Bytes
  /-- The number of pages of the entry. -/
  pages : Nat
  deriving DecidableEq, Repr

namespace Entry

def item (entry : Entry) (width page : Nat) : Except Error Item := do
  let (value, pages) ← Page.find entry.texts width page
  return ⟨entry.key, value, pages⟩

/-- Renders every page of an entry; the first page says how many there are. -/
def renderAll (entry : Entry) (width : Nat) : Except Error Unit := do
  let first ← entry.item width 0
  (List.range' 1 (first.pages - 1)).forM fun page => discard (entry.item width page)

end Entry

end SignReview
