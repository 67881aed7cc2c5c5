import SignReview.Screen.Basic

/-!
# Walks over screens

Screens come as an array, of which nothing is kept but the octets.  Whatever is asked of it, the
array is read again from its first element to its last, also behind an element that is no screen:
what can not be decoded is reported first, then the number of elements, then the first element that
is no screen.

* `Screen.Walk.step`: passes one element.
* `Screen.Walk.read`: passes all elements of the array at the front of the input.
* `Screen.walk`: the same, where nothing else may follow.
-/

namespace SignReview.Screen

def maxScreens : Nat := 255

def isVisible (screen : Screen) (expert : Bool) : Bool := expert || !screen.expert

/-- What a walk has come by. -/
structure Walk where
  /-- The number of the screen that is looked for, among those shown to experts or to others. -/
  target : Option (Nat × Bool)
  /-- How many elements have been passed. -/
  length : Nat := 0
  /-- How many of them are screens for experts. -/
  experts : Nat := 0
  /-- How many of them are shown. -/
  visible : Nat := 0
  found : Option Screen := none
  /-- What is wrong with the first element that is no screen. -/
  failure : Option Error := none

namespace Walk

def look (walk : Walk) (screen : Screen) : Walk :=
  match walk.target with
  | none => walk
  | some (n, expert) =>
    if screen.isVisible expert then
      { walk with
        visible := walk.visible + 1
        found := if walk.visible = n then some screen else walk.found }
    else
      walk

def pass (walk : Walk) (screen : Screen) : Walk :=
  { walk with experts := if screen.expert then walk.experts + 1 else walk.experts }.look screen

/-- Passes an element.  Behind one that is no screen, elements are only counted. -/
def step (walk : Walk) (value : Cbor.Value) : Walk :=
  let walk := { walk with length := walk.length + 1 }
  match walk.failure with
  | some _ => walk
  | none =>
    match ofValue value with
    | .error e => { walk with failure := some e }
    | .ok screen => walk.pass screen

def finish (walk : Walk) : Except Error Walk :=
  if walk.length = 0 ∨ maxScreens < walk.length then
    .error .unexpectedNumberItems
  else
    match walk.failure with
    | some e => .error e
    | none => .ok walk

/-- Passes the elements of the array at the front of an input of `size` octets, in which arrays,
maps and tags lie at most `depth` deep.  What can not be decoded makes the reader fail; what is
wrong with the array or its elements is its outcome. -/
def read (walk : Walk) (size : Nat) : (depth : Nat) → Reader (Except Error Walk)
  | 0 => do
    match ← Cbor.Head.read size .root with
    | .scalar _ => return .error .unexpectedType
    | _ => throw .cborUnexpected
  | depth + 1 => do
    match ← Cbor.Head.read size .root with
    | .scalar _ => return .error .unexpectedType
    | .array n => do
      let walk ← Cbor.foldSeries n (Cbor.Value.read size depth .element) step walk
      return walk.finish
    | .map n => do
      discard (Cbor.series n (Cbor.entry (Cbor.Value.read size depth .skipped)))
      return .error .unexpectedType
    | .tag => read walk size depth

end Walk

def walk (bytes : Bytes) (target : Option (Nat × Bool)) : Except Error Walk := do
  let (outcome, rest) ← Walk.read { target } bytes.length Cbor.maxDepth bytes
  if !rest.isEmpty then
    throw .cborUnexpectedEof
  outcome

end SignReview.Screen
