import SignReview.Proofs.Leaf.Walk
import Mathlib.Data.List.Basic

/-!
# Searching for leaves

A search in the steps of a walk finds a leaf by counting.  The leaves that it counts can be listed:
those of the walk, without the hidden ones.

* `Query.select`: the search in steps.
* `visible`: the leaves that are not hidden.
* `Query.select_of_visible`, `Query.select_of_none`: what a search finds, and where it finds none,
  `Query.exists_leaf_of_select`: what it finds is a leaf of the walk.
-/

namespace SignReview

/-- Searches the steps of a walk.  The key is left on the leaf found or where the walk fails, and
is unchanged where there are too few leaves. -/
def Query.select (query : Query) : List Leaf.Step → Outcome
  | [] => (.error .queryNoResults, query)
  | .fault error path :: _ => (.error error, { query with key := path })
  | .found leaf :: steps =>
    if query.hides leaf.path then query.passHidden.select steps
    else if query.seen = query.target then (.ok leaf.token, { query with key := leaf.path })
    else query.pass.select steps

def hidden (mask : Option Mask) (seen : Nat) (path : Path) : Bool :=
  match mask with
  | none => false
  | some mask => mask.visible != seen && path.bytes == mask.path

/-- The leaves that are not hidden, the first of all being number `seen`. -/
def visible (mask : Option Mask) : Nat → List Leaf → List Leaf
  | _, [] => []
  | seen, leaf :: leaves =>
    if hidden mask seen leaf.path then visible mask (seen + 1) leaves
    else leaf :: visible mask (seen + 1) leaves

/-- Without a mask, a search passes all leaves in front of its target. -/
theorem Query.select_skip {leaves : List Leaf} (rest : List Leaf.Step) :
    ∀ {query : Query}, query.mask = none → query.seen + leaves.length ≤ query.target →
      query.select (leaves.map .found ++ rest) =
        ({ query with seen := query.seen + leaves.length } : Query).select rest := by
  induction leaves with
  | nil =>
    intro query _ _
    rfl
  | cons leaf leaves ih =>
    intro query hMask hTarget
    rw [List.length_cons] at hTarget ⊢
    have hHides : ¬query.hides leaf.path = true := by
      rw [hides, hMask]
      exact Bool.false_ne_true
    have hHere : ¬query.seen = query.target := by omega
    have hSeen : query.seen + (leaves.length + 1) = query.pass.seen + leaves.length := by
      show query.seen + (leaves.length + 1) = query.seen + 1 + leaves.length
      omega
    rw [List.map_cons, List.cons_append, select, if_neg hHides, if_neg hHere, hSeen]
    apply ih
    · exact hMask
    · rw [← hSeen]
      exact hTarget

theorem Query.select_here {query : Query} (hMask : query.mask = none)
    (hHere : query.seen = query.target) (leaf : Leaf) (rest : List Leaf.Step) :
    query.select (.found leaf :: rest) = (.ok leaf.token, { query with key := leaf.path }) := by
  have hHides : ¬query.hides leaf.path = true := by
    rw [hides, hMask]
    exact Bool.false_ne_true
  rw [select, if_neg hHides, if_pos hHere]

/-- A search finds a visible leaf by its number, and leaves its key on the path of the leaf. -/
theorem Query.select_of_visible {leaves : List Leaf} (rest : List Leaf.Step) {leaf : Leaf} :
    ∀ {query : Query}, query.seen ≤ query.target →
      (visible query.mask query.seen leaves)[query.target - query.seen]? = some leaf →
      ∃ found, query.select (leaves.map .found ++ rest) = (.ok leaf.token, found) ∧
        found.key = leaf.path := by
  induction leaves with
  | nil =>
    intro query _ hLeaf
    simp [visible] at hLeaf
  | cons first leaves ih =>
    intro query hSeen hLeaf
    have hHides : query.hides first.path = hidden query.mask query.seen first.path := rfl
    rw [List.map_cons, List.cons_append, select, hHides]
    rw [visible] at hLeaf
    by_cases hHidden : hidden query.mask query.seen first.path
    · rw [if_pos hHidden] at hLeaf ⊢
      apply ih
      · exact Nat.succ_le_succ hSeen
      · show (visible query.mask (query.seen + 1) leaves)[query.target + 1 - (query.seen + 1)]? = _
        rwa [Nat.add_sub_add_right]
    · rw [if_neg hHidden] at hLeaf ⊢
      by_cases hHere : query.seen = query.target
      · rw [hHere, Nat.sub_self, List.getElem?_cons_zero] at hLeaf
        obtain rfl := Option.some.inj hLeaf
        rw [if_pos hHere]
        exact ⟨_, rfl, rfl⟩
      · have hNumber : query.target - query.seen = query.target - (query.seen + 1) + 1 := by omega
        rw [hNumber, List.getElem?_cons_succ] at hLeaf
        rw [if_neg hHere]
        apply ih
        · show query.seen + 1 ≤ query.target
          omega
        · exact hLeaf

theorem Query.select_of_none {leaves : List Leaf} :
    ∀ {query : Query}, query.seen ≤ query.target →
      (visible query.mask query.seen leaves)[query.target - query.seen]? = none →
      (query.select (leaves.map .found)).1 = .error .queryNoResults := by
  induction leaves with
  | nil =>
    intro query _ _
    rfl
  | cons first leaves ih =>
    intro query hSeen hNone
    have hHides : query.hides first.path = hidden query.mask query.seen first.path := rfl
    rw [List.map_cons, select, hHides]
    rw [visible] at hNone
    by_cases hHidden : hidden query.mask query.seen first.path
    · rw [if_pos hHidden] at hNone ⊢
      apply ih
      · exact Nat.succ_le_succ hSeen
      · show (visible query.mask (query.seen + 1) leaves)[query.target + 1 - (query.seen + 1)]? = _
        rwa [Nat.add_sub_add_right]
    · rw [if_neg hHidden] at hNone ⊢
      by_cases hHere : query.seen = query.target
      · rw [hHere, Nat.sub_self, List.getElem?_cons_zero] at hNone
        cases hNone
      · have hNumber : query.target - query.seen = query.target - (query.seen + 1) + 1 := by omega
        rw [hNumber, List.getElem?_cons_succ] at hNone
        rw [if_neg hHere]
        apply ih
        · show query.seen + 1 ≤ query.target
          omega
        · exact hNone

theorem Query.exists_leaf_of_select {steps : List Leaf.Step} {token : Nat} {last : Query} :
    ∀ {query : Query}, query.select steps = (.ok token, last) →
      ∃ leaf, .found leaf ∈ steps ∧ leaf.token = token ∧ last.key = leaf.path := by
  induction steps with
  | nil =>
    intro query h
    cases h
  | cons step steps ih =>
    intro query h
    cases step with
    | fault e path => cases h
    | found leaf =>
      have hRest : ∀ {next : Query}, next.select steps = (.ok token, last) →
          ∃ other, .found other ∈ .found leaf :: steps ∧ other.token = token ∧
            last.key = other.path := by
        intro next hNext
        obtain ⟨other, hMem, hOther⟩ := ih hNext
        exact ⟨other, List.mem_cons_of_mem _ hMem, hOther⟩
      rw [select] at h
      split at h
      · exact hRest h
      · split at h
        · cases h
          exact ⟨leaf, List.mem_cons_self, rfl, rfl⟩
        · exact hRest h

theorem visible_append {mask : Option Mask} {before after : List Leaf} {seen : Nat}
    (h : ∀ leaf ∈ before, ∀ k, hidden mask k leaf.path = false) :
    visible mask seen (before ++ after) = before ++ visible mask (seen + before.length) after := by
  induction before generalizing seen with
  | nil => rfl
  | cons leaf before ih =>
    rw [List.cons_append, visible, h leaf List.mem_cons_self, if_neg Bool.false_ne_true,
      ih fun l hl => h l (List.mem_cons_of_mem _ hl), List.length_cons, List.cons_append,
      Nat.add_assoc, Nat.add_comm 1]

theorem visible_none (seen : Nat) (leaves : List Leaf) : visible none seen leaves = leaves := by
  have hAll : visible none seen (leaves ++ []) = leaves ++ visible none (seen + leaves.length) [] :=
    visible_append fun _ _ _ => rfl
  rwa [visible, List.append_nil] at hAll

/-- Behind the leaf that stays, all leaves of its path are hidden. -/
theorem visible_of_lt {path : Bytes} {n seen : Nat} (h : n < seen) (leaves : List Leaf) :
    visible (some ⟨path, n⟩) seen leaves =
      leaves.filter fun leaf => !(leaf.path.bytes == path) := by
  induction leaves generalizing seen with
  | nil => rfl
  | cons leaf leaves ih =>
    have hNumber : (n != seen) = true := by
      rw [bne_iff_ne]
      omega
    rw [visible, hidden, hNumber, Bool.true_and, ih (by omega), List.filter_cons]
    by_cases hPath : (leaf.path.bytes == path) = true
    · rw [if_pos hPath, if_neg (by simp [hPath])]
    · rw [if_neg hPath, if_pos (by simpa using hPath)]

end SignReview
