import SignReview.Leaf.Query
import SignReview.Proofs.Json.Navigation
import SignReview.Proofs.Outcome

/-!
# Walks over trees

A search for a leaf goes down and back up.  What it comes to can be listed: the leaves in document
order, and the places where it can not go down since the path would be too long.

* `Leaf.walk`: the list, `Leaf.walkMember`: the part of it below a name.
* `Json.Occurs.walk_object`, `walk_array`, `walk_leaf`: the walk by the kind of the tree.
* `Json.Occurs.walk_ind`: induction on the walks over trees.
-/

namespace SignReview

open Json

namespace Leaf

inductive Step
  | found (leaf : Leaf)
  /-- The walk can not go down from `path`. -/
  | fault (error : Error) (path : Path)
  deriving DecidableEq

/-- The walk below the token `index`, whose path is `path`. -/
def walk (doc : Document) (depth levels : Nat) (path : Path) (index : Nat) : List Step :=
  match doc.token index with
  | .error e => [.fault e path]
  | .ok token =>
    match depth, levels, token.kind with
    | depth + 1, levels + 1, .object =>
      (Document.everySecond (doc.childrenOf index token)).flatMap fun name =>
        match doc.slice name >>= path.push with
        | .error e => [.fault e path]
        | .ok below => walk doc depth levels below (name + 1)
    | depth + 1, levels + 1, .array =>
      (doc.childrenOf index token).flatMap fun child => walk doc depth (levels + 1) path child
    | _, _, _ => [.found ⟨path, index⟩]
termination_by structural depth

def walkMember (doc : Document) (depth levels : Nat) (path : Path) (name : Nat) : List Step :=
  match doc.slice name >>= path.push with
  | .error e => [.fault e path]
  | .ok below => walk doc depth levels below (name + 1)

end Leaf

namespace Json.Occurs

variable {doc : Document} {i : Nat}

theorem walk_object {members : List (Bytes × Tree)} (h : Occurs doc i (.object members))
    (depth levels : Nat) (path : Path) :
    Leaf.walk doc (depth + 1) (levels + 1) path i =
      (nameNumbers (i + 1) members).flatMap (Leaf.walkMember doc depth levels path) := by
  obtain ⟨⟨kind, start, stop⟩, hToken, hKind⟩ := h.token
  obtain rfl : kind = .object := hKind
  have hNames : Document.everySecond (doc.childrenOf i ⟨.object, start, stop⟩) =
      nameNumbers (i + 1) members := by
    rw [← everySecond_numbers]
    exact congrArg _ (h.children hToken).1
  rw [Leaf.walk, hToken]
  show (Document.everySecond (doc.childrenOf i ⟨.object, start, stop⟩)).flatMap _ = _
  rw [hNames]
  rfl

theorem walkMember_cases {contents : Bytes} (h : Occurs doc i (.string contents))
    (depth levels : Nat) (path : Path) :
    (∃ below, doc.slice i >>= path.push = .ok below ∧ path.push contents = .ok below ∧
      Leaf.walkMember doc depth levels path i = Leaf.walk doc depth levels below (i + 1)) ∨
    (doc.slice i >>= path.push = .error .bufferOverflow ∧
      Leaf.walkMember doc depth levels path i = [.fault .bufferOverflow path]) := by
  rw [Leaf.walkMember, h.slice_string, ok_bind]
  by_cases hRoom : (Path.join path.bytes contents).length ≤ Path.capacity
  · have hPush : path.push contents = .ok ⟨_, hRoom⟩ := dif_pos hRoom
    rw [hPush]
    exact Or.inl ⟨_, rfl, rfl, rfl⟩
  · have hPush : path.push contents = .error .bufferOverflow := dif_neg hRoom
    rw [hPush]
    exact Or.inr ⟨rfl, rfl⟩

theorem walk_array {elements : List Tree} (h : Occurs doc i (.array elements))
    (depth levels : Nat) (path : Path) :
    Leaf.walk doc (depth + 1) (levels + 1) path i =
      (numbers (i + 1) elements).flatMap (Leaf.walk doc depth (levels + 1) path) := by
  obtain ⟨⟨kind, start, stop⟩, hToken, hKind⟩ := h.token
  obtain rfl : kind = .array := hKind
  have hChildren : doc.childrenOf i ⟨.array, start, stop⟩ = numbers (i + 1) elements :=
    (h.children hToken).1
  rw [Leaf.walk, hToken]
  show (doc.childrenOf i ⟨.array, start, stop⟩).flatMap _ = _
  rw [hChildren]

theorem walk_leaf {tree : Tree} (h : Occurs doc i tree) {depth levels : Nat}
    (hStop : tree.isLeaf = true ∨ depth = 0 ∨ levels = 0) (path : Path) :
    Leaf.walk doc depth levels path i = [.found ⟨path, i⟩] := by
  obtain ⟨⟨kind, start, stop⟩, hToken, hKind⟩ := h.token
  obtain rfl : kind = tree.kind := hKind
  cases depth with
  | zero => rw [Leaf.walk, hToken]
  | succ depth =>
    cases levels with
    | zero => rw [Leaf.walk, hToken]
    | succ levels =>
      have hLeaf : tree.isLeaf = true := by simpa using hStop
      cases tree with
      | string contents =>
        rw [Leaf.walk, hToken]
        rfl
      | literal text =>
        rw [Leaf.walk, hToken]
        rfl
      | object members => cases hLeaf
      | array elements => cases hLeaf

/-- Induction on the walks over trees: what holds where a walk ends, and of a walk over an object
or array if it holds of all walks one level less deep, holds of every walk. -/
theorem walk_ind {P : Nat → Nat → Path → Nat → Tree → List Leaf.Step → Prop}
    (leaf : ∀ depth levels path i tree, Occurs doc i tree →
      tree.isLeaf = true ∨ depth = 0 ∨ levels = 0 →
        P depth levels path i tree [.found ⟨path, i⟩])
    (object : ∀ depth levels path i members, Occurs doc i (.object members) →
      (∀ path j tree, Occurs doc j tree →
        P depth levels path j tree (Leaf.walk doc depth levels path j)) →
        P (depth + 1) (levels + 1) path i (.object members)
          ((nameNumbers (i + 1) members).flatMap (Leaf.walkMember doc depth levels path)))
    (array : ∀ depth levels path i elements, Occurs doc i (.array elements) →
      (∀ path j tree, Occurs doc j tree →
        P depth (levels + 1) path j tree (Leaf.walk doc depth (levels + 1) path j)) →
        P (depth + 1) (levels + 1) path i (.array elements)
          ((numbers (i + 1) elements).flatMap (Leaf.walk doc depth (levels + 1) path)))
    {tree : Tree} (h : Occurs doc i tree) (depth levels : Nat) (path : Path) :
    P depth levels path i tree (Leaf.walk doc depth levels path i) := by
  induction depth generalizing tree i levels path with
  | zero =>
    have hStop : tree.isLeaf = true ∨ 0 = 0 ∨ levels = 0 := Or.inr (Or.inl rfl)
    rw [h.walk_leaf hStop]
    exact leaf 0 levels path i tree h hStop
  | succ depth ih =>
    cases levels with
    | zero =>
      have hStop : tree.isLeaf = true ∨ depth + 1 = 0 ∨ 0 = 0 := Or.inr (Or.inr rfl)
      rw [h.walk_leaf hStop]
      exact leaf (depth + 1) 0 path i tree h hStop
    | succ levels =>
      cases tree with
      | object members =>
        rw [h.walk_object]
        exact object depth levels path i members h fun path j tree hTree => ih hTree levels path
      | array elements =>
        rw [h.walk_array]
        exact array depth levels path i elements h fun path j tree hTree =>
          ih hTree (levels + 1) path
      | string contents =>
        rw [h.walk_leaf (Or.inl rfl)]
        exact leaf _ _ path i _ h (Or.inl rfl)
      | literal text =>
        rw [h.walk_leaf (Or.inl rfl)]
        exact leaf _ _ path i _ h (Or.inl rfl)

end Json.Occurs

end SignReview
