import SignReview.Proofs.Json.Recovery
import SignReview.Proofs.Leaf.Find
import SignReview.Proofs.Leaf.Visits

/-!
# What a search selects

A query may be used again, so that a search begins anywhere in a count.  The leaves that it comes by
are numbered from the counter on, and of those that are not hidden it selects one by its distance
from the counter.

* `Query.goal`: the leaf that is selected, `Query.passed`: what is passed on the way to it.
* `Query.Selects`: what a search among visits comes to, `Follows.selects`: a search does.
* `Query.Reachable`: the queries that come about by searches, `Query.selects_of_reachable`: each of
  them selects from the leaves of a tree.
-/

namespace SignReview

open Json

/-! ### Numbered leaves -/

namespace Visit

def numbered (seen : Nat) (visits : List Visit) : List ((Bytes × Nat) × Nat) :=
  (leaves visits).zipIdx seen

def before : Nat → List Visit → List Visit
  | _, [] => []
  | n, .member path :: visits => .member path :: before n visits
  | 0, .leaf _ _ :: _ => []
  | n + 1, .leaf path token :: visits => .leaf path token :: before n visits

variable {seen : Nat} {visits : List Visit}

@[simp] theorem numbered_leaf (path : Bytes) (token : Nat) :
    numbered seen (.leaf path token :: visits) =
      ((path, token), seen) :: numbered (seen + 1) visits := rfl

theorem le_of_mem_numbered {leaf : (Bytes × Nat) × Nat} (h : leaf ∈ numbered seen visits) :
    seen ≤ leaf.2 :=
  List.le_snd_of_mem_zipIdx h

end Visit

namespace Query

def hidesLeaf (query : Query) (leaf : (Bytes × Nat) × Nat) : Bool :=
  match query.mask with
  | none => false
  | some mask => mask.visible != leaf.2 && leaf.1.1 == mask.path

/-- The leaf that is looked for, with its number: so many leaves that are not hidden stand in front
of it as are missing from the counter to the target. -/
def goal (query : Query) (visits : List Visit) : Option ((Bytes × Nat) × Nat) :=
  ((Visit.numbered query.seen visits).filter (!query.hidesLeaf ·))[query.target - query.seen]?

def hiddenBelow (query : Query) (stop : Nat) (visits : List Visit) : Nat :=
  (Visit.numbered query.seen visits).countP fun leaf => query.hidesLeaf leaf && leaf.2 < stop

def seenAfter (query : Query) (visits : List Visit) : Nat :=
  query.seen + (Visit.leaves visits).length

/-- What a search passes until it is at its goal, or at the end. -/
def passed (query : Query) (visits : List Visit) : List Visit :=
  match query.goal visits with
  | some (_, n) => Visit.before (n - query.seen) visits
  | none => visits

/-- What a search among visits comes to. -/
structure Selects (query : Query) (visits : List Visit) (outcome : Outcome) : Prop where
  /-- It fails at a path that is too long. -/
  overflow : Visit.Overlong (query.passed visits) → outcome.1 = .error .bufferOverflow
  /-- It finds its goal and stays there; hidden leaves on the way have put the target off. -/
  found : ¬Visit.Overlong (query.passed visits) → ∀ path token n,
    query.goal visits = some ((path, token), n) → ∃ key : Path, key.bytes = path ∧
      outcome = (.ok token, { query with
        key, seen := n, target := query.target + query.hiddenBelow n visits })
  /-- Without a goal, it passes all leaves and is back at its key. -/
  missing : ¬Visit.Overlong (query.passed visits) → query.goal visits = none →
    outcome = (.error .queryNoResults, { query with
      seen := query.seenAfter visits
      target := query.target + query.hiddenBelow (query.seenAfter visits) visits })

variable {query : Query} {visits : List Visit}

theorem le_of_goal {leaf : (Bytes × Nat) × Nat} (h : query.goal visits = some leaf) :
    query.seen ≤ leaf.2 :=
  Visit.le_of_mem_numbered (List.mem_of_mem_filter (List.mem_of_getElem? h))

theorem passed_member (query : Query) (path : Bytes) (visits : List Visit) :
    query.passed (.member path :: visits) = .member path :: query.passed visits := by
  have hGoal : query.goal (.member path :: visits) = query.goal visits := rfl
  rw [passed, passed, hGoal]
  cases query.goal visits with
  | none => rfl
  | some leaf => simp [Visit.before]

/-- What a search comes to behind a member it comes to in front of it, if there is room. -/
theorem Selects.member {outcome : Outcome} (h : query.Selects visits outcome) {path : Bytes}
    (hRoom : path.length ≤ Path.capacity) : query.Selects (.member path :: visits) outcome := by
  have hPassed : Visit.Overlong (query.passed (.member path :: visits)) ↔
      Visit.Overlong (query.passed visits) := by
    rw [passed_member, Visit.overlong_member, or_iff_right (Nat.not_lt.mpr hRoom)]
  constructor
  · intro hLong
    exact h.overflow (hPassed.mp hLong)
  · intro hFits
    exact h.found (hPassed.not.mp hFits)
  · intro hFits
    exact h.missing (hPassed.not.mp hFits)

theorem Selects.leaf {outcome : Outcome} {path : Bytes} {token target : Nat}
    (h : Selects { query with seen := query.seen + 1, target } visits outcome)
    (hGoal : query.goal (.leaf path token :: visits) =
      goal { query with seen := query.seen + 1, target } visits)
    (hTarget : ∀ stop, query.seen < stop →
      query.target + query.hiddenBelow stop (.leaf path token :: visits) =
        target + hiddenBelow { query with seen := query.seen + 1, target } stop visits) :
    query.Selects (.leaf path token :: visits) outcome := by
  have hBehind : ∀ leaf, query.goal (.leaf path token :: visits) = some leaf →
      query.seen + 1 ≤ leaf.2 := fun leaf hLeaf => le_of_goal (hGoal ▸ hLeaf)
  have hPassed : query.passed (.leaf path token :: visits) = .leaf path token ::
      passed { query with seen := query.seen + 1, target } visits := by
    rw [passed, passed, ← hGoal]
    cases hLeaf : query.goal (.leaf path token :: visits) with
    | none => rfl
    | some leaf =>
      have hNumber : leaf.2 - query.seen = leaf.2 - (query.seen + 1) + 1 := by
        have := hBehind leaf hLeaf
        omega
      show Visit.before (leaf.2 - query.seen) _ = _
      rw [hNumber]
      rfl
  have hEnd : query.seenAfter (.leaf path token :: visits) =
      seenAfter { query with seen := query.seen + 1, target } visits := by
    show query.seen + ((Visit.leaves visits).length + 1) =
      query.seen + 1 + (Visit.leaves visits).length
    omega
  have hLong : Visit.Overlong (query.passed (.leaf path token :: visits)) ↔
      Visit.Overlong (passed { query with seen := query.seen + 1, target } visits) := by
    rw [hPassed, Visit.overlong_leaf]
  constructor
  · intro hOver
    exact h.overflow (hLong.mp hOver)
  · intro hFits path' token' n hLeaf
    obtain ⟨key, hKey, hOutcome⟩ := h.found (hLong.not.mp hFits) path' token' n (hGoal ▸ hLeaf)
    refine ⟨key, hKey, hOutcome.trans ?_⟩
    rw [hTarget n (hBehind _ hLeaf)]
  · intro hFits hNone
    rw [h.missing (hLong.not.mp hFits) (hGoal ▸ hNone), hEnd, hTarget]
    show query.seen < query.seen + 1 + (Visit.leaves visits).length
    omega

section Leaf

variable (query visits) (path : Bytes) (token : Nat)

theorem hiddenBelow_leaf {stop : Nat} (hStop : query.seen < stop) :
    query.hiddenBelow stop (.leaf path token :: visits) =
      ((Visit.numbered (query.seen + 1) visits).countP fun leaf =>
        query.hidesLeaf leaf && leaf.2 < stop) +
        if query.hidesLeaf ((path, token), query.seen) = true then 1 else 0 := by
  rw [hiddenBelow, Visit.numbered_leaf, List.countP_cons, decide_eq_true hStop, Bool.and_true]

theorem goal_of_hidden (h : query.hidesLeaf ((path, token), query.seen) = true) :
    query.goal (.leaf path token :: visits) = query.passHidden.goal visits := by
  have hMissing : query.target + 1 - (query.seen + 1) = query.target - query.seen := by omega
  show (List.filter _ (_ :: Visit.numbered (query.seen + 1) visits))[_]? =
    (List.filter _ (Visit.numbered (query.seen + 1) visits))[query.target + 1 - (query.seen + 1)]?
  rw [List.filter_cons_of_neg (by simpa using h), hMissing]
  rfl

theorem goal_of_shown (h : query.hidesLeaf ((path, token), query.seen) = false)
    (hSeen : query.seen < query.target) :
    query.goal (.leaf path token :: visits) = query.pass.goal visits := by
  have hMissing : query.target - query.seen = query.target - (query.seen + 1) + 1 := by omega
  show (List.filter _ (_ :: Visit.numbered (query.seen + 1) visits))[_]? =
    (List.filter _ (Visit.numbered (query.seen + 1) visits))[query.target - (query.seen + 1)]?
  rw [List.filter_cons_of_pos (by simpa using h), hMissing]
  rfl

theorem goal_of_here (h : query.hidesLeaf ((path, token), query.seen) = false)
    (hHere : query.seen = query.target) :
    query.goal (.leaf path token :: visits) = some ((path, token), query.seen) := by
  show (List.filter _ (_ :: Visit.numbered (query.seen + 1) visits))[_]? = _
  rw [List.filter_cons_of_pos (by simpa using h), hHere, Nat.sub_self]
  rfl

end Leaf

theorem hiddenBelow_seen (query : Query) (visits : List Visit) :
    query.hiddenBelow query.seen visits = 0 := by
  rw [hiddenBelow, List.countP_eq_zero]
  intro leaf hLeaf
  have hNumber : ¬leaf.2 < query.seen := Nat.not_lt.mpr (Visit.le_of_mem_numbered hLeaf)
  rw [decide_eq_false hNumber, Bool.and_false]
  exact Bool.false_ne_true

/-- A search is at its goal at a leaf that is not hidden, if it has come to its target. -/
theorem selects_here (query : Query) (leaf : Leaf) (visits : List Visit)
    (hHidden : query.hidesLeaf ((leaf.path.bytes, leaf.token), query.seen) = false)
    (hHere : query.seen = query.target) :
    query.Selects (.leaf leaf.path.bytes leaf.token :: visits)
      (.ok leaf.token, { query with key := leaf.path }) := by
  have hGoal := query.goal_of_here visits leaf.path.bytes leaf.token hHidden hHere
  have hPassed : query.passed (.leaf leaf.path.bytes leaf.token :: visits) = [] := by
    rw [passed, hGoal]
    show Visit.before (query.seen - query.seen) _ = _
    rw [Nat.sub_self]
    rfl
  constructor
  · intro hLong
    exact absurd (hPassed ▸ hLong) Visit.not_overlong_nil
  · intro _ path token n hLeaf
    obtain ⟨⟨rfl, rfl⟩, rfl⟩ : (leaf.path.bytes = path ∧ leaf.token = token) ∧ query.seen = n := by
      simpa using hGoal.symm.trans hLeaf
    refine ⟨leaf.path, rfl, ?_⟩
    rw [hiddenBelow_seen]
    rfl
  · intro _ hNone
    rw [hGoal] at hNone
    cases hNone

end Query

variable {steps : List Leaf.Step} {visits : List Visit}

/-- A search along the steps of a walk selects from its visits. -/
theorem Follows.selects (h : Follows steps visits) :
    ∀ {query : Query}, query.seen ≤ query.target → query.Selects visits (query.select steps) := by
  induction h with
  | nil =>
    intro query _
    refine ⟨fun hLong => absurd hLong Visit.not_overlong_nil, ?_, fun _ _ => rfl⟩
    intro _ path token n hGoal
    cases hGoal
  | @found leaf steps visits _ ih =>
    intro query hSeen
    have hHides : query.hides leaf.path =
        query.hidesLeaf ((leaf.path.bytes, leaf.token), query.seen) := rfl
    rw [Query.select, hHides]
    cases hHidden : query.hidesLeaf ((leaf.path.bytes, leaf.token), query.seen) with
    | true =>
      refine (@ih query.passHidden (Nat.succ_le_succ hSeen)).leaf
        (query.goal_of_hidden _ _ _ hHidden) fun stop hStop => ?_
      rw [query.hiddenBelow_leaf _ _ _ hStop, if_pos hHidden, Nat.add_comm _ 1, ← Nat.add_assoc]
      rfl
    | false =>
      by_cases hHere : query.seen = query.target
      · rw [if_neg Bool.false_ne_true, if_pos hHere]
        exact query.selects_here leaf visits hHidden hHere
      · have hBefore : query.seen < query.target := by omega
        rw [if_neg Bool.false_ne_true, if_neg hHere]
        refine (@ih query.pass hBefore).leaf
          (query.goal_of_shown _ _ _ hHidden hBefore) fun stop hStop => ?_
        rw [query.hiddenBelow_leaf _ _ _ hStop, hHidden]
        rfl
  | @member path hRoom steps visits _ ih =>
    intro query hSeen
    exact (ih hSeen).member hRoom
  | @fault path hLong last steps visits =>
    intro query hSeen
    have hOver : Visit.Overlong (query.passed (.member path :: visits)) := by
      rw [Query.passed_member, Visit.overlong_member]
      exact Or.inl hLong
    exact ⟨fun _ => rfl, fun hFits => absurd hOver hFits, fun hFits => absurd hOver hFits⟩

/-! ### Queries that are used again -/

namespace Query

/-- The queries that come about by searches in documents. -/
inductive Reachable : Query → Prop
  | nth (n levels : Nat) : Reachable (.nth n levels)
  | withPrefix {n levels : Nat} {name : Bytes} {query : Query}
      (h : withPrefix n levels name = .ok query) : Reachable query
  | withMask {query : Query} (h : Reachable query) (mask : Option Mask) :
      Reachable (query.withMask mask)
  | find {query : Query} (h : Reachable query) {bytes : Bytes} {limits : Limits} {doc : Document}
      (hParse : Document.parse bytes limits = .ok doc) (index : Nat) :
      Reachable (query.find doc index).2

theorem seen_le_target_select (steps : List Leaf.Step) :
    ∀ {query : Query}, query.seen ≤ query.target →
      (query.select steps).2.seen ≤ (query.select steps).2.target := by
  induction steps with
  | nil => exact id
  | cons step steps ih =>
    intro query hSeen
    cases step with
    | fault e path => exact hSeen
    | found leaf =>
      rw [select]
      split
      · exact @ih query.passHidden (Nat.succ_le_succ hSeen)
      · split
        · exact hSeen
        · exact @ih query.pass (by show query.seen + 1 ≤ query.target; omega)

theorem find_of_error {doc : Document} {index : Nat} {e : Error} (h : doc.token index = .error e)
    (query : Query) : query.find doc index = (.error e, query) := by
  rw [find, findWithin, h]

theorem Reachable.seen_le_target {query : Query} (h : query.Reachable) :
    query.seen ≤ query.target := by
  induction h with
  | nth n levels => exact Nat.zero_le n
  | @withPrefix n levels name query h =>
    obtain ⟨key, _, h⟩ := bind_eq_ok_iff.mp h
    obtain rfl := Except.ok.inj h
    exact Nat.zero_le n
  | withMask _ mask ih => exact ih
  | @find query _ bytes limits doc hParse index ih =>
    obtain ⟨ls, root, hParsed, _⟩ := Document.exists_parsed hParse
    cases hToken : doc.token index with
    | error e =>
      rw [find_of_error hToken]
      exact ih
    | ok token =>
      obtain ⟨tree, hTree⟩ := hParsed.exists_occurs hToken
      rw [hTree.find_eq]
      exact seen_le_target_select _ ih

end Query

/-- A query selects from the leaves of the tree at a token, wherever its earlier searches have left
it. -/
theorem Query.selects_of_reachable {bytes : Bytes} {limits : Limits} {doc : Document}
    (hParse : Document.parse bytes limits = .ok doc) {query : Query} (hQuery : query.Reachable)
    {index : Nat} {token : Token} (hToken : doc.token index = .ok token) :
    query.seen ≤ query.target ∧ ∃ tree, doc.treeAt doc.tokens.size index = .ok tree ∧
      query.Selects (tree.visits Leaf.maxDepth query.levels query.key.bytes index)
        (query.find doc index) := by
  obtain ⟨ls, root, hParsed, _⟩ := Document.exists_parsed hParse
  obtain ⟨tree, hTree⟩ := hParsed.exists_occurs hToken
  have hSeen := hQuery.seen_le_target
  refine ⟨hSeen, tree, hTree.treeAt_size_eq, ?_⟩
  rw [hTree.find_eq]
  exact (hTree.follows Leaf.maxDepth query.levels query.key).selects hSeen

def typedObjects : Bytes := Bytes.ofString
  "[\x7b\"t\":\"x\",\"v\":1\x7d,\x7b\"t\":\"x\",\"v\":2\x7d]"

def oneTypeOnly : Mask := ⟨Bytes.ofString "m/t", 0⟩

theorem Query.selects_of_reachable_typedObjects :
    ∃ (doc : Document) (first second : Query) (token : Token) (tree : Tree),
      Document.parse typedObjects {} = .ok doc ∧
      withPrefix 2 2 (Bytes.ofString "m") = .ok first ∧
      second = ((first.withMask (some oneTypeOnly)).find doc 1).2 ∧ second.Reachable ∧
      second.seen = 2 ∧ second.target = 2 ∧ doc.token 6 = .ok token ∧
      doc.treeAt doc.tokens.size 6 = .ok tree ∧
      second.Selects (tree.visits Leaf.maxDepth second.levels second.key.bytes 6)
        (second.find doc 6) ∧
      (second.find doc 6).1 = .ok 10 := by
  have hRead : ((Document.parse typedObjects {}).toOption.bind fun doc =>
      (withPrefix 2 2 (Bytes.ofString "m")).toOption.bind fun first =>
        let second := ((first.withMask (some oneTypeOnly)).find doc 1).2
        (doc.token 6).toOption.map fun _ =>
          (second.seen, second.target, (second.find doc 6).1)) = some (2, 2, .ok 10) := by
    decide +kernel
  obtain ⟨doc, hDoc, hRead⟩ := Option.bind_eq_some_iff.mp hRead
  obtain ⟨first, hFirst, hRead⟩ := Option.bind_eq_some_iff.mp hRead
  obtain ⟨token, hToken, hRead⟩ := Option.map_eq_some_iff.mp hRead
  rw [toOption_eq_some_iff] at hDoc hFirst hToken
  obtain ⟨hSeen, hRead⟩ := Prod.mk.inj hRead
  obtain ⟨hTarget, hFound⟩ := Prod.mk.inj hRead
  have hReachable := ((Reachable.withPrefix hFirst).withMask (some oneTypeOnly)).find hDoc 1
  obtain ⟨_, tree, hTree, hSelects⟩ := selects_of_reachable hDoc hReachable hToken
  exact ⟨doc, first, _, token, tree, hDoc, hFirst, rfl, hReachable, hSeen, hTarget, hToken, hTree,
    hSelects, hFound⟩

end SignReview
