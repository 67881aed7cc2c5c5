import SignReview.Entry
import SignReview.Path
import SignReview.Screen.Ascii
import SignReview.Screen.Basic

/-!
# Layout of screens

The key of a screen is its title behind one mark for each step of its indent.  Where that is too
long, the key is marks and dashes and the title moves in front of the content.  Without a title the
key is blank and the marks stand in front of the content.

* `Screen.entry`: the key and the text of a screen.
* `Screen.item`: a page of it.
-/

namespace SignReview.Screen

def textCapacity : Nat := 4096

/-- The longest indent and title, together, in a key. -/
def maxKeyTitle : Nat := 17

/-- The same where the content takes several pages. -/
def maxPagedKeyTitle : Nat := 10

/-- One mark for each step of an indent. -/
def marks (indent : Nat) : Bytes := List.replicate indent 0x3e

/-- Is a title too long for the key?  `content` is the number of octets of the content. -/
def movesTitle (screen : Screen) (title : String) (content width : Nat) : Bool :=
  let length := screen.indent + title.utf8ByteSize
  decide (maxKeyTitle < length) ||
    (decide (1 < Page.count content width) && decide (maxPagedKeyTitle < length))

def entry (screen : Screen) (width : Nat) : Except Error Entry := do
  match screen.title with
  | none => do
    let text ← Writer.text do
      Writer.append textCapacity [marks screen.indent]
      Ascii.write textCapacity screen.content
    return ⟨[0x20], [text]⟩
  | some title => do
    let content ← (Ascii.write textCapacity screen.content).text
    let titleBytes := Bytes.ofString title
    if screen.movesTitle title content.length width then
      let key ← (Writer.append Path.capacity
        [marks screen.indent, Bytes.ofString "---"]).text
      let text ← (Writer.append textCapacity
        [titleBytes, Bytes.ofString ": ", content]).text
      return ⟨key, [text]⟩
    else
      let key ← (Writer.append Path.capacity [marks screen.indent, titleBytes]).text
      return ⟨key, [content]⟩

def item (screen : Screen) (width page : Nat) : Except Error Item := do
  (← screen.entry width).item width page

end SignReview.Screen
