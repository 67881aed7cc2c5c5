import SignReview.Amount.Coin
import SignReview.Page

/-!
# Pages of amounts

A list of coins is gone through once.  The pages of its coins are counted, and only the text that
has the page asked for is kept.

* `Coin.Scan`: what is known of the coins so far, `Coin.Scan.observe`: goes over the next one,
  `Coin.Scan.write`: shows what has been found.
* `Coin.writePage`: puts a page of a coin, or of a list of coins, in the place of the last one shown.
-/

namespace SignReview.Coin

open Json

/-- What is known of a list of coins while it is gone through. -/
structure Scan where
  /-- The number of pages so far. -/
  pages : Nat := 0
  /-- The text that has the page asked for, and which of its pages this is. -/
  selected : Option (Bytes × Nat) := none
  deriving DecidableEq, Repr

/-- Goes over the text of the next coin. -/
def Scan.observe (width page : Nat) (scan : Scan) (text : Bytes) : Scan :=
  let pages := scan.pages + Page.count text.length width
  match scan.selected with
  | some found => ⟨pages, some found⟩
  | none => ⟨pages, if page < pages then some (text, page - scan.pages) else none⟩

/-- Shows the page that has been found, and answers how many there are. -/
def Scan.write (width : Nat) (scan : Scan) : Writer Nat := do
  match scan.selected with
  | none => throw .displayPageOutOfRange
  | some (text, page) => do
    let _ ← Page.write [text] width page
    return scan.pages

/-- Goes over a list of coins.  All of them are read, also behind the one that is shown. -/
def scan (doc : Document) (chain : Option Chain) (coins : List Nat) (width page : Nat) :
    Except Error Scan :=
  coins.foldlM (fun scan coin => return scan.observe width page (← text doc chain coin)) {}

/-- Replaces the page shown by page `page` of a coin or of a list of coins, and answers how many
pages there are. -/
def writePage (doc : Document) (chain : Option Chain) (index width page : Nat) : Writer Nat := do
  match (← MonadExcept.ofExcept (doc.token index)).kind with
  | .object =>
    Page.write [← MonadExcept.ofExcept (text doc chain index)] (Page.clamp width) page
  | .array =>
    let coins ← MonadExcept.ofExcept (doc.children index)
    let found ← MonadExcept.ofExcept (scan doc chain coins (Page.clamp width) page)
    if found.pages = 0 then
      Page.write [emptyText] (Page.clamp width) page
    else
      found.write (Page.clamp width)
  | _ => throw .unexpectedType

end SignReview.Coin
