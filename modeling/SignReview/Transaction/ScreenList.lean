import SignReview.Screen.Layout
import SignReview.Screen.Walk
import SignReview.Settings

/-!
# Screen lists

A transaction may come as a list of screens.  Those for experts are left out in normal mode.  Of
the list only the octets and two counters are kept; a screen is looked up by another walk over the
octets.

* `ScreenList.parse`: reads the screens within limits.
* `ScreenList.screen`, `ScreenList.entry`: a screen by its number, and what is shown of it.
* `ScreenList.check`: refuses screens that can not be shown.
-/

namespace SignReview

/-- A list of screens, as it has been received. -/
structure ScreenList where
  bytes : Bytes
  /-- The number of screens. -/
  length : Nat
  /-- The number of screens for experts. -/
  experts : Nat

namespace ScreenList

def parse (bytes : Bytes) (limits : Limits) : Except Error ScreenList := do
  if limits.maxBytes < bytes.length then
    throw (.bufferTooLarge bytes.length limits.maxBytes)
  let walk ← Screen.walk bytes none
  return ⟨bytes, walk.length, walk.experts⟩

def size (list : ScreenList) (expert : Bool) : Nat :=
  if expert then list.length else list.length - list.experts

/-- Screen `n` of those that are shown. -/
def screen (list : ScreenList) (expert : Bool) (n : Nat) : Except Error Screen := do
  match (← Screen.walk list.bytes (some (n, expert))).found with
  | some screen => return screen
  | none => throw .displayIdxOutOfRange

/-- Does the screen name a chain that is never signed for? -/
def isRefused (screen : Screen) : Bool :=
  screen.title == some "Chain id" && (screen.content == "0" || screen.content == "1")

def entry (list : ScreenList) (context : Context) (n : Nat) : Except Error Entry := do
  let screen ← list.screen context.expert n
  if isRefused screen then
    throw .unexpectedChain
  screen.entry (Page.clamp context.width)

def checkMode (list : ScreenList) (context : Context) : Except Error Unit :=
  (List.range (list.size context.expert)).forM fun n => do
    (← list.entry context n).renderAll context.width

/-- Refuses screens that can not be shown page by page in both modes. -/
def check (list : ScreenList) (context : Context) : Except Error Unit :=
  [false, true].forM fun expert => list.checkMode { context with expert }

end ScreenList

end SignReview
