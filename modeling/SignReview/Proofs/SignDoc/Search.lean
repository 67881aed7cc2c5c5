import SignReview.Proofs.Leaf.Find
import SignReview.Proofs.Leaf.Visits
import SignReview.Proofs.SignDoc.Types

/-!
# Reading leaves

The leaves under a heading are counted by one search after the other.  This comes to the same as
reading the steps of one walk.

* `Visit.upTo`: the visits that are read.
* `Span.readLeaves_of_overlong`, `Span.readLeaves_of_fits`: what is read of a walk.
* `Span.countFrom_eq`: what the searches count, `Span.build_eq`: what is built from it.
-/

namespace SignReview

open Json

/-! ### Leaves that are read -/

def Json.Document.text (doc : Document) (index : Nat) : Bytes :=
  match doc.slice index with
  | .ok bytes => bytes
  | .error _ => []

theorem Json.Document.slice_eq_text {doc : Document} {index : Nat} {bytes : Bytes}
    (h : doc.slice index = .ok bytes) : doc.slice index = .ok (doc.text index) := by
  rw [text, h]

def Leaf.read (doc : Document) (leaf : Leaf) : Leaf × Bytes := (leaf, doc.text leaf.token)

def Leaf.pair (leaf : Leaf) : Bytes × Nat := (leaf.path.bytes, leaf.token)

namespace Visit

def isEmpty (doc : Document) (visit : Visit) : Bool :=
  match visit with
  | .member _ => false
  | .leaf _ token => (doc.text token).isEmpty

/-- The visits, in front of the first empty leaf if `untilEmpty`. -/
def upTo (doc : Document) (untilEmpty : Bool) (visits : List Visit) : List Visit :=
  visits.takeWhile fun visit => !(untilEmpty && visit.isEmpty doc)

theorem upTo_member (doc : Document) (untilEmpty : Bool) (path : Bytes) (visits : List Visit) :
    upTo doc untilEmpty (.member path :: visits) = .member path :: upTo doc untilEmpty visits :=
  List.takeWhile_cons_of_pos (by rw [isEmpty, Bool.and_false]; rfl)

theorem upTo_leaf (doc : Document) (untilEmpty : Bool) (path : Bytes) (token : Nat)
    (visits : List Visit) :
    upTo doc untilEmpty (.leaf path token :: visits) =
      if untilEmpty && (doc.text token).isEmpty then []
      else .leaf path token :: upTo doc untilEmpty visits := by
  rw [upTo, List.takeWhile_cons, isEmpty]
  cases untilEmpty && (doc.text token).isEmpty <;> rfl

end Visit

namespace Span

/-- The leaves of a walk with their octets, up to the first empty one if `untilEmpty`. -/
def readLeaves (doc : Document) (untilEmpty : Bool) :
    List Leaf.Step → Except Error (List (Leaf × Bytes))
  | [] => .ok []
  | .fault error _ :: _ => .error error
  | .found leaf :: steps => do
    let bytes ← doc.slice leaf.token
    if untilEmpty && bytes.isEmpty then
      return []
    else
      return (leaf, bytes) :: (← readLeaves doc untilEmpty steps)

variable {doc : Document} {steps : List Leaf.Step} {visits : List Visit} {untilEmpty : Bool}

theorem readLeaves_of_overlong (h : Follows steps visits)
    (hText : ∀ leaf ∈ Visit.leaves visits, doc.slice leaf.2 = .ok (doc.text leaf.2))
    (hLong : Visit.Overlong (Visit.upTo doc untilEmpty visits)) :
    readLeaves doc untilEmpty steps = .error .bufferOverflow := by
  induction h with
  | nil =>
    obtain ⟨path, hMem, _⟩ := hLong
    cases hMem
  | @found leaf steps visits _ ih =>
    obtain ⟨hSlice, hText⟩ := List.forall_mem_cons.mp hText
    rw [readLeaves, hSlice, ok_bind]
    by_cases hCut : (untilEmpty && (doc.text leaf.token).isEmpty) = true
    · rw [Visit.upTo_leaf, if_pos hCut] at hLong
      exact absurd hLong Visit.not_overlong_nil
    · rw [Visit.upTo_leaf, if_neg hCut, Visit.overlong_leaf] at hLong
      rw [if_neg hCut, ih hText hLong]
      rfl
  | @member path hRoom steps visits _ ih =>
    rw [Visit.upTo_member, Visit.overlong_member] at hLong
    exact ih hText (hLong.resolve_left (Nat.not_lt.mpr hRoom))
  | fault hLong last steps visits => rfl

/-- Where all paths on the way are short enough, the leaves are read that the walk comes by. -/
theorem readLeaves_of_fits (h : Follows steps visits)
    (hText : ∀ leaf ∈ Visit.leaves visits, doc.slice leaf.2 = .ok (doc.text leaf.2))
    (hFits : ¬Visit.Overlong (Visit.upTo doc untilEmpty visits)) :
    ∃ (leaves : List Leaf) (rest : List Leaf.Step), steps = leaves.map .found ++ rest ∧
      leaves.map Leaf.pair = Visit.leaves (Visit.upTo doc untilEmpty visits) ∧
      readLeaves doc untilEmpty steps = .ok (leaves.map (Leaf.read doc)) := by
  induction h with
  | nil => exact ⟨[], [], rfl, rfl, rfl⟩
  | @found leaf steps visits _ ih =>
    obtain ⟨hSlice, hText⟩ := List.forall_mem_cons.mp hText
    rw [readLeaves, hSlice, ok_bind]
    by_cases hCut : (untilEmpty && (doc.text leaf.token).isEmpty) = true
    · rw [Visit.upTo_leaf, if_pos hCut, if_pos hCut]
      exact ⟨[], .found leaf :: steps, rfl, rfl, rfl⟩
    · rw [Visit.upTo_leaf, if_neg hCut] at hFits ⊢
      obtain ⟨leaves, rest, rfl, hPairs, hRead⟩ := ih hText (Visit.overlong_leaf.not.mp hFits)
      rw [if_neg hCut, hRead]
      exact ⟨leaf :: leaves, rest, rfl, congrArg (leaf.pair :: ·) hPairs, rfl⟩
  | @member path hRoom steps visits _ ih =>
    rw [Visit.upTo_member, Visit.overlong_member, not_or] at hFits
    obtain ⟨leaves, rest, hSteps, hPairs, hRead⟩ := ih hText hFits.2
    rw [Visit.upTo_member]
    exact ⟨leaves, rest, hSteps, hPairs, hRead⟩
  | @fault path hLong last steps visits =>
    rw [Visit.upTo_member, Visit.overlong_member, not_or] at hFits
    exact absurd hLong hFits.1

end Span

/-! ### Leaves that are counted -/

namespace Span

variable {doc : Document} {tree : Tree} {start : Nat} {heading : Heading}

/-- The search for leaf `n` goes through the rest of the walk as if it stood behind `n` leaves. -/
theorem find_query (h : Occurs doc start tree) {before : List Leaf} {rest : List Leaf.Step}
    (hWalk : Leaf.walk doc Leaf.maxDepth heading.levels heading.path start =
      before.map .found ++ rest) :
    ∃ query : Query, query.mask = none ∧ query.seen = query.target ∧
      (heading.query before.length).find doc start = query.select rest := by
  refine ⟨{ heading.query before.length with seen := 0 + before.length }, rfl, Nat.zero_add _, ?_⟩
  rw [h.find_eq]
  show (heading.query before.length).select
    (Leaf.walk doc Leaf.maxDepth heading.levels heading.path start) = _
  rw [hWalk]
  exact Query.select_skip rest rfl (Nat.le_of_eq (Nat.zero_add _))

/-- The searches for one leaf after the other read the rest of the walk. -/
theorem countFrom_eq (h : Occurs doc start tree) {rest : List Leaf.Step} :
    ∀ {before : List Leaf} {most : Nat} (scan : TypeScan), (Leaf.found rest).length < most →
      Leaf.walk doc Leaf.maxDepth heading.levels heading.path start = before.map .found ++ rest →
        countFrom doc heading start most before.length scan =
          (readLeaves doc (heading = .memo) rest).map fun read => (before.length + read.length,
            if heading = .msgs then scan.observeAll before.length read else scan) := by
  induction rest with
  | nil =>
    intro before most scan hMost hWalk
    obtain ⟨more, rfl⟩ := Nat.exists_eq_succ_of_ne_zero (Nat.ne_zero_of_lt hMost)
    obtain ⟨query, _, _, hFind⟩ := find_query h hWalk
    rw [countFrom, hFind]
    show Except.ok (before.length, scan) =
      Except.ok (before.length, if heading = .msgs then scan else scan)
    rw [ite_self]
  | cons step rest ih =>
    intro before most scan hMost hWalk
    obtain ⟨more, rfl⟩ := Nat.exists_eq_succ_of_ne_zero (Nat.ne_zero_of_lt hMost)
    obtain ⟨query, hMask, hHere, hFind⟩ := find_query h hWalk
    cases step with
    | fault e path =>
      have hFault := h.onlyOverflows Leaf.maxDepth heading.levels heading.path
      rw [hWalk] at hFault
      obtain rfl := hFault e path (List.mem_append_right _ List.mem_cons_self)
      rw [countFrom, hFind]
      rfl
    | found leaf =>
      have hWalk' : Leaf.walk doc Leaf.maxDepth heading.levels heading.path start =
          (before ++ [leaf]).map .found ++ rest := by
        rw [hWalk, List.map_append, List.append_assoc]
        rfl
      have hMost' : (Leaf.found rest).length < more := Nat.lt_of_succ_lt_succ hMost
      rw [countFrom, hFind, Query.select_here hMask hHere, readLeaves]
      show (doc.slice leaf.token >>= _) = _
      cases hSlice : doc.slice leaf.token with
      | error e => rfl
      | ok value =>
        rw [ok_bind, ok_bind]
        by_cases hEmpty : heading = .memo ∧ value.isEmpty = true
        · have hCut : (decide (heading = .memo) && value.isEmpty) = true := by simpa using hEmpty
          rw [if_pos hEmpty, if_pos hCut]
          show Except.ok (before.length, scan) =
            Except.ok (before.length, if heading = .msgs then scan else scan)
          rw [ite_self]
        · have hCut : ¬(decide (heading = .memo) && value.isEmpty) = true := by simpa using hEmpty
          have hNext := ih (if heading = .msgs then scan.observe leaf.path.bytes value before.length
            else scan) hMost' hWalk'
          rw [List.length_append, List.length_singleton] at hNext
          rw [if_neg hEmpty, if_neg hCut, hNext]
          cases readLeaves doc (decide (heading = .memo)) rest with
          | error e => rfl
          | ok read =>
            have hLength : before.length + 1 + read.length = before.length + (read.length + 1) := by
              omega
            show Except.ok (before.length + 1 + read.length, _) =
              Except.ok (before.length + (read.length + 1), _)
            rw [hLength]
            split <;> rfl

def groupOf (heading : Heading) (read : List (Leaf × Bytes)) : Option TypeGroup :=
  if heading = .msgs ∧ allSame (typesOf read) = true then
    some ⟨read.findIdx readsType, (typesOf read).length⟩
  else none

/-- What is built of a tree is what is read of its walk. -/
theorem build_eq (h : Occurs doc start tree) (heading : Heading) :
    build doc heading start =
      readLeaves doc (heading = .memo)
        (Leaf.walk doc Leaf.maxDepth heading.levels heading.path start) >>= fun read =>
          .ok ⟨heading, start,
            read.length - (groupOf heading read).elim 0 fun group => group.count - 1,
            groupOf heading read⟩ := by
  have hMost := Nat.lt_succ_of_le (h.length_found_le Leaf.maxDepth heading.levels heading.path)
  have hCount : countFrom doc heading start (doc.tokens.size + 1) 0 {} =
      (readLeaves doc (heading = .memo)
        (Leaf.walk doc Leaf.maxDepth heading.levels heading.path start)).map fun read =>
          (0 + read.length, if heading = .msgs then TypeScan.observeAll {} 0 read else {}) :=
    @countFrom_eq doc tree start heading h _ [] _ {} hMost rfl
  rw [build, hCount]
  cases readLeaves doc (heading = .memo)
      (Leaf.walk doc Leaf.maxDepth heading.levels heading.path start) with
  | error e => rfl
  | ok read =>
    have hGroup : (if heading = .msgs then
        (if heading = .msgs then TypeScan.observeAll {} 0 read else {}).group? else none) =
          groupOf heading read := by
      rw [groupOf, ite_and]
      by_cases hMsgs : heading = .msgs
      · rw [if_pos hMsgs, if_pos hMsgs, if_pos hMsgs, TypeScan.group?_observeAll, Nat.zero_add]
      · rw [if_neg hMsgs, if_neg hMsgs]
    simp only [Except.map, ok_bind, hGroup, Nat.zero_add]
    cases groupOf heading read <;> rfl

end Span

end SignReview
