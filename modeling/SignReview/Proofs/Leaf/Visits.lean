import SignReview.Proofs.Leaf.Walk

/-!
# What a walk comes by

`Json.Tree.visits` goes through a tree and lists its leaves, each with its token, and the paths of
all members on the way, however long they are.  `Leaf.walk`, which reads a token table, comes by the
same members and leaves in the same order, up to the first path that is too long.

* `Visit`: a member or a leaf, `Json.Tree.visits`: those of a tree, `Visit.Overlong`: where a walk
  can not go down.
* `Follows`: the steps of a walk agree with visits, `Json.Occurs.follows`: those of a walk over a
  tree do.
-/

namespace SignReview

open Json

inductive Visit
  /-- It goes down to a member, whose path is this. -/
  | member (path : Bytes)
  | leaf (path : Bytes) (token : Nat)
  deriving DecidableEq

def Visit.leaves (visits : List Visit) : List (Bytes × Nat) :=
  visits.filterMap fun visit =>
    match visit with
    | .member _ => none
    | .leaf path token => some (path, token)

namespace Visit

def Overlong (visits : List Visit) : Prop :=
  ∃ path, .member path ∈ visits ∧ Path.capacity < path.length

theorem not_overlong_nil : ¬Overlong [] := by
  rintro ⟨path, hMem, _⟩
  cases hMem

theorem overlong_leaf {path : Bytes} {token : Nat} {visits : List Visit} :
    Overlong (.leaf path token :: visits) ↔ Overlong visits := by
  simp [Overlong]

theorem overlong_member {path : Bytes} {visits : List Visit} :
    Overlong (.member path :: visits) ↔ Path.capacity < path.length ∨ Overlong visits := by
  simp [Overlong, or_and_right, exists_or]

end Visit

/-- The members and leaves of a tree whose first token is number `i`, in document order. -/
def Json.Tree.visits : Nat → Nat → Bytes → Nat → Tree → List Visit
  | depth + 1, levels + 1, path, i, .object members =>
    ((nameNumbers (i + 1) members).zip members).flatMap fun (name, key, value) =>
      .member (Path.join path key) :: visits depth levels (Path.join path key) (name + 1) value
  | depth + 1, levels + 1, path, i, .array elements =>
    ((numbers (i + 1) elements).zip elements).flatMap fun (child, element) =>
      visits depth (levels + 1) path child element
  | _, _, path, i, _ => [.leaf path i]

theorem Json.Tree.visits_leaf {tree : Tree} {depth levels : Nat}
    (h : tree.isLeaf = true ∨ depth = 0 ∨ levels = 0) (path : Bytes) (i : Nat) :
    tree.visits depth levels path i = [.leaf path i] := by
  cases depth with
  | zero =>
    rw [visits]
    all_goals intros; omega
  | succ depth =>
    cases levels with
    | zero =>
      rw [visits]
      all_goals intros; omega
    | succ levels =>
      have hLeaf : tree.isLeaf = true := by simpa using h
      cases tree with
      | string contents => rfl
      | literal text => rfl
      | object members => cases hLeaf
      | array elements => cases hLeaf

/-- The steps of a walk come by the visits, up to a path that is too long. -/
inductive Follows : List Leaf.Step → List Visit → Prop
  | nil : Follows [] []
  | found (leaf : Leaf) {steps : List Leaf.Step} {visits : List Visit}
      (hSteps : Follows steps visits) :
      Follows (.found leaf :: steps) (.leaf leaf.path.bytes leaf.token :: visits)
  | member {path : Bytes} (hRoom : path.length ≤ Path.capacity) {steps : List Leaf.Step}
      {visits : List Visit} (hSteps : Follows steps visits) :
      Follows steps (.member path :: visits)
  | fault {path : Bytes} (hLong : Path.capacity < path.length) (last : Path)
      (steps : List Leaf.Step) (visits : List Visit) :
      Follows (.fault .bufferOverflow last :: steps) (.member path :: visits)

theorem Follows.append {steps steps' : List Leaf.Step} {visits visits' : List Visit}
    (h : Follows steps visits) (h' : Follows steps' visits') :
    Follows (steps ++ steps') (visits ++ visits') := by
  induction h with
  | nil => exact h'
  | found leaf _ ih => exact .found leaf ih
  | member hRoom _ ih => exact .member hRoom ih
  | fault hLong last steps visits => exact .fault hLong last _ _

theorem Follows.flatMap {α β : Type} {R : α → β → Prop} {as : List α} {bs : List β}
    {f : α → List Leaf.Step} {g : α × β → List Visit} (h : List.Forall₂ R as bs)
    (hf : ∀ a b, R a b → Follows (f a) (g (a, b))) :
    Follows (as.flatMap f) ((as.zip bs).flatMap g) := by
  induction h with
  | nil => exact .nil
  | cons hFirst _ ih =>
    rw [List.flatMap_cons, List.zip_cons_cons, List.flatMap_cons]
    exact (hf _ _ hFirst).append ih

/-- A walk comes by the members and leaves of the tree. -/
theorem Json.Occurs.follows {doc : Document} {tree : Tree} {i : Nat} (h : Occurs doc i tree)
    (depth levels : Nat) (path : Path) :
    Follows (Leaf.walk doc depth levels path i) (tree.visits depth levels path.bytes i) := by
  refine walk_ind (P := fun depth levels path i tree steps =>
    Follows steps (tree.visits depth levels path.bytes i)) ?leaf ?object ?array h depth levels path
  case leaf =>
    intro depth levels path i tree _ hStop
    rw [Tree.visits_leaf hStop]
    exact .found ⟨path, i⟩ .nil
  case object =>
    intro depth levels path i members hTree ih
    apply Follows.flatMap hTree.members.2
    rintro name m ⟨hName, hValue⟩
    rw [Leaf.walkMember, hName.slice_string, ok_bind, Path.push]
    by_cases hRoom : (Path.join path.bytes m.1).length ≤ Path.capacity
    · rw [dif_pos hRoom]
      exact .member hRoom (ih ⟨_, hRoom⟩ _ _ hValue)
    · rw [dif_neg hRoom]
      exact .fault (Nat.lt_of_not_le hRoom) path [] _
  case array =>
    intro depth levels path i elements hTree ih
    exact Follows.flatMap hTree.elements.2 fun child element hElement => ih path _ _ hElement

end SignReview
