import SignReview.Proofs.Leaf.Order
import SignReview.Proofs.Leaf.Search

/-!
# Searches and walks

A search steps down with its key and its levels changed, and puts both back on the way up.  What it
finds is what it would find along the steps of a walk, in which nothing is put back.

* `Query.select_append`, `Query.firstOf_eq`: searches of one place after the other.
* `Query.descend_eq`: a step down.
* `Json.Occurs.find_eq`: a search over a tree is one in the steps of its walk.
* `Json.Occurs.count_eq_ok`: what a count says of a walk.
-/

namespace SignReview

open Json

namespace Path

theorem truncate_length (path : Path) : path.truncate path.bytes.length = path := by
  cases path
  simp [truncate]

theorem truncate_of_push {path below : Path} {name : Bytes} (h : path.push name = .ok below) :
    below.truncate path.bytes.length = path := by
  rw [push] at h
  split at h
  · obtain rfl := Except.ok.inj h
    cases path with
    | mk bytes hLength =>
      cases bytes with
      | nil => rfl
      | cons c bytes => simp [truncate, join]
  · cases h

end Path

/-- Where a walk can not go down, the path is too long. -/
def Leaf.OnlyOverflows (steps : List Leaf.Step) : Prop :=
  ∀ e path, .fault e path ∈ steps → e = .bufferOverflow

namespace Query

/-! ### One place after the other -/

def orNext (outcome : Outcome) (next : Query → Outcome) : Outcome :=
  match outcome with
  | (.error .queryNoResults, query) => next query
  | outcome => outcome

theorem firstOf_cons {α : Type} (base : Nat) (search : α → Query → Outcome) (place : α)
    (places : List α) (query : Query) :
    firstOf base search (place :: places) query =
      orNext (search place query) fun query =>
        firstOf base search places { query with key := query.key.truncate base } := rfl

theorem orNext_of_ne {found : Except Error Nat} (h : found ≠ .error .queryNoResults) (query : Query)
    (next : Query → Outcome) : orNext (found, query) next = (found, query) := by
  cases found with
  | ok token => rfl
  | error e => cases e <;> first | rfl | exact absurd rfl h

variable {steps : List Leaf.Step}

theorem select_append (h : Leaf.OnlyOverflows steps) (more : List Leaf.Step) (query : Query) :
    query.select (steps ++ more) = orNext (query.select steps) fun query => query.select more := by
  induction steps generalizing query with
  | nil => rfl
  | cons step steps ih =>
    cases step with
    | fault e path =>
      obtain rfl := h e path List.mem_cons_self
      rfl
    | found leaf =>
      have hRest : Leaf.OnlyOverflows steps := fun e path hMem =>
        h e path (List.mem_cons_of_mem _ hMem)
      rw [List.cons_append, select, select]
      split
      · exact ih hRest _
      · split
        · rfl
        · exact ih hRest _

/-- A search in steps comes to its end or not, whatever its levels and its key are.  It leaves the
levels as they are, and at the end the key too. -/
theorem select_cases (h : Leaf.OnlyOverflows steps) (query : Query) :
    (∃ last : Query, last.levels = query.levels ∧ last.key = query.key ∧ ∀ levels key,
      ({ query with levels, key } : Query).select steps =
        (.error .queryNoResults, { last with levels, key })) ∨
    (∃ (found : Except Error Nat) (last : Query), found ≠ .error .queryNoResults ∧
      last.levels = query.levels ∧ ∀ levels key,
        ({ query with levels, key } : Query).select steps = (found, { last with levels })) := by
  induction steps generalizing query with
  | nil => exact Or.inl ⟨query, rfl, rfl, fun levels key => rfl⟩
  | cons step steps ih =>
    cases step with
    | fault e path =>
      obtain rfl := h e path List.mem_cons_self
      refine Or.inr ⟨.error .bufferOverflow, { query with key := path }, ?_, rfl, ?_⟩
      · intro hEq
        cases hEq
      · intro levels key
        rfl
    | found leaf =>
      have hRest : Leaf.OnlyOverflows steps := fun e path hMem =>
        h e path (List.mem_cons_of_mem _ hMem)
      have hSelect : ∀ levels key,
          ({ query with levels, key } : Query).select (.found leaf :: steps) =
            if query.hides leaf.path then
              ({ query.passHidden with levels, key } : Query).select steps
            else if query.seen = query.target then
              (.ok leaf.token, { query with levels, key := leaf.path })
            else ({ query.pass with levels, key } : Query).select steps := fun levels key => rfl
      simp only [hSelect]
      by_cases hHides : query.hides leaf.path = true
      · simp only [if_pos hHides]
        exact ih hRest query.passHidden
      · by_cases hHere : query.seen = query.target
        · simp only [if_neg hHides, if_pos hHere]
          refine Or.inr ⟨.ok leaf.token, { query with key := leaf.path }, ?_, rfl, ?_⟩
          · intro hEq
            cases hEq
          · intro levels key
            rfl
        · simp only [if_neg hHides, if_neg hHere]
          exact ih hRest query.pass

theorem with_eq {query : Query} {levels : Nat} {key : Path} (hLevels : query.levels = levels)
    (hKey : query.key = key) : ({ query with levels, key } : Query) = query := by
  rw [← hLevels, ← hKey]

/-- Where each place is searched along steps, all of them are. -/
theorem firstOf_eq {α : Type} {places : List α} {search : α → Query → Outcome}
    (steps : α → List Leaf.Step) {levels : Nat} {path : Path}
    (hSearch : ∀ place ∈ places, ∀ query : Query, query.levels = levels → query.key = path →
      ∃ below : Path, below.truncate path.bytes.length = path ∧
        search place query = ({ query with key := below } : Query).select (steps place))
    (hFaults : ∀ place ∈ places, Leaf.OnlyOverflows (steps place)) {query : Query}
    (hLevels : query.levels = levels) (hKey : query.key = path) :
    firstOf path.bytes.length search places query = query.select (places.flatMap steps) := by
  induction places generalizing query with
  | nil => rfl
  | cons place places ih =>
    obtain ⟨hFirst, hRest⟩ := List.forall_mem_cons.mp hSearch
    obtain ⟨hFault, hFaults⟩ := List.forall_mem_cons.mp hFaults
    obtain ⟨below, hBelow, hPlace⟩ := hFirst query hLevels hKey
    rw [firstOf_cons, hPlace, List.flatMap_cons, select_append hFault]
    rcases select_cases hFault query with ⟨last, hLast, hBack, hSelect⟩ |
      ⟨found, last, hFound, hLast, hSelect⟩
    · have hHere : query.select (steps place) = (.error .queryNoResults, last) :=
        (hSelect query.levels query.key).trans (congrArg _ (with_eq hLast hBack))
      have hNext : ({ last with levels := query.levels, key := path } : Query) = last :=
        with_eq hLast (hBack.trans hKey)
      rw [hSelect query.levels below, hHere]
      show firstOf path.bytes.length search places { last with
        levels := query.levels, key := below.truncate path.bytes.length } = last.select _
      rw [hBelow, hNext]
      exact ih hRest hFaults (hLast.trans hLevels) (hBack.trans hKey)
    · have hHere : query.select (steps place) = (found, last) :=
        (hSelect query.levels query.key).trans (congrArg _ (with_eq hLast rfl))
      have hThere := (hSelect query.levels below).trans (congrArg _ (with_eq hLast rfl))
      rw [hThere, hHere, orNext_of_ne hFound, orNext_of_ne hFound]

/-! ### Down to a child -/

/-- A step down gives its levels back. -/
theorem descend_eq {search : Query → Outcome} {levels cost : Nat} {path : Path}
    (hFault : Leaf.OnlyOverflows steps)
    (hSearch : ∀ query : Query, query.levels = levels → query.key = path →
      search query = query.select steps) {query : Query} (hLevels : query.levels = levels + cost)
    (hKey : query.key = path) : descend search cost query = query.select steps := by
  have hDown : query.levels - cost = levels := by omega
  have hBack : query.levels - cost + cost = query.levels := by omega
  rw [descend, hSearch { query with levels := query.levels - cost } hDown hKey]
  rcases select_cases hFault query with ⟨last, _, _, hSelect⟩ | ⟨found, last, _, _, hSelect⟩
  · have hHere := hSelect query.levels query.key
    rw [hSelect (query.levels - cost) query.key, hHere]
    show (_, ({ last with levels := query.levels - cost + cost, key := query.key } : Query)) = _
    rw [hBack]
  · have hHere := hSelect query.levels query.key
    rw [hSelect (query.levels - cost) query.key, hHere]
    show (found, ({ last with levels := query.levels - cost + cost } : Query)) = _
    rw [hBack]

end Query

/-! ### Searches over trees -/

namespace Json.Occurs

variable {doc : Document} {tree : Tree} {i : Nat}

theorem onlyOverflows (h : Occurs doc i tree) (depth levels : Nat) (path : Path) :
    Leaf.OnlyOverflows (Leaf.walk doc depth levels path i) := by
  refine walk_ind (P := fun _ _ _ _ _ steps => Leaf.OnlyOverflows steps) ?leaf ?object ?array h
    depth levels path
  case leaf =>
    intro _ _ path i tree _ _ e p hMem
    cases List.mem_singleton.mp hMem
  case object =>
    intro depth levels path i members hTree ih e p hMem
    obtain ⟨name, hName, hMem⟩ := List.mem_flatMap.mp hMem
    obtain ⟨m, _, hString, hValue⟩ := hTree.exists_value hName
    rcases hString.walkMember_cases depth levels path with ⟨below, _, _, hWalk⟩ | ⟨_, hWalk⟩
    · rw [hWalk] at hMem
      exact ih _ _ _ hValue e p hMem
    · rw [hWalk] at hMem
      cases List.mem_singleton.mp hMem
      rfl
  case array =>
    intro depth levels path i elements hTree ih e p hMem
    obtain ⟨child, hChild, hMem⟩ := List.mem_flatMap.mp hMem
    obtain ⟨element, _, hElement⟩ := hTree.exists_element hChild
    exact ih _ _ _ hElement e p hMem

/-- At a string, a literal and what lies too deep, a search stops. -/
theorem findWithin_leaf (h : Occurs doc i tree) {depth : Nat} {query : Query}
    (hStop : tree.isLeaf = true ∨ depth = 0 ∨ query.levels = 0) :
    Query.findWithin doc depth i query = query.visit i := by
  obtain ⟨token, hToken, hKind⟩ := h.token
  cases depth with
  | zero => rw [Query.findWithin, hToken]
  | succ depth =>
    have hLeaf : query.levels = 0 ∨ token.isLeaf = true := by
      rw [h.isLeaf_eq hToken]
      simpa [or_comm] using hStop
    rw [Query.findWithin, hToken]
    exact if_pos hLeaf

theorem findWithin_object {members : List (Bytes × Tree)} (h : Occurs doc i (.object members))
    (depth : Nat) {query : Query} (hLevels : query.levels ≠ 0) :
    Query.findWithin doc (depth + 1) i query =
      Query.firstOf query.key.bytes.length (Query.enter doc (Query.findWithin doc depth))
        ((nameNumbers (i + 1) members).map fun name => (name, some (name + 1))) query := by
  obtain ⟨token, hToken, hKind⟩ := h.token
  have hKind : token.kind = .object := hKind
  have hLeaf : ¬(query.levels = 0 ∨ token.isLeaf = true) := by
    rw [h.isLeaf_eq hToken, Tree.isLeaf]
    simpa using hLevels
  have hPairs : Document.inPairs (doc.childrenOf i token) =
      (nameNumbers (i + 1) members).map fun name => (name, some (name + 1)) := by
    rw [← inPairs_numbers]
    exact congrArg _ (h.children hToken).1
  rw [Query.findWithin, hToken]
  show (if query.levels = 0 ∨ token.isLeaf = true then _ else _) = _
  rw [if_neg hLeaf, if_pos hKind, hPairs]

theorem findWithin_array {elements : List Tree} (h : Occurs doc i (.array elements)) (depth : Nat)
    {query : Query} (hLevels : query.levels ≠ 0) :
    Query.findWithin doc (depth + 1) i query =
      Query.firstOf query.key.bytes.length
        (fun child => Query.descend (Query.findWithin doc depth child) 0)
        (numbers (i + 1) elements) query := by
  obtain ⟨token, hToken, hKind⟩ := h.token
  have hKind : token.kind = .array := hKind
  have hLeaf : ¬(query.levels = 0 ∨ token.isLeaf = true) := by
    rw [h.isLeaf_eq hToken, Tree.isLeaf]
    simpa using hLevels
  have hChildren : doc.childrenOf i token = numbers (i + 1) elements := (h.children hToken).1
  have hNot : ¬token.kind = .object := by
    rw [hKind]
    decide
  rw [Query.findWithin, hToken]
  show (if query.levels = 0 ∨ token.isLeaf = true then _ else _) = _
  rw [if_neg hLeaf, if_neg hNot, hChildren]

/-- A search over a tree finds what it finds in the steps of the walk. -/
theorem findWithin_eq (h : Occurs doc i tree) (depth : Nat) (query : Query) :
    Query.findWithin doc depth i query =
      query.select (Leaf.walk doc depth query.levels query.key i) := by
  refine walk_ind (P := fun depth levels path i tree steps => ∀ query : Query,
    query.levels = levels → query.key = path →
      Query.findWithin doc depth i query = query.select steps)
    ?leaf ?object ?array h depth query.levels query.key query rfl rfl
  case leaf =>
    intro depth levels path i tree hTree hStop query hLevels hKey
    subst hLevels hKey
    rw [hTree.findWithin_leaf hStop]
    rfl
  case object =>
    intro depth levels path i members hTree ih query hLevels hKey
    subst hKey
    have hFaults := hTree.onlyOverflows (depth + 1) (levels + 1) query.key
    have hWalk := hTree.walk_object depth levels query.key
    rw [hTree.findWithin_object depth (by omega)]
    refine (Query.firstOf_eq (fun member : Nat × Option Nat =>
      Leaf.walkMember doc depth levels query.key member.1)
      ?inner ?faults hLevels rfl).trans (congrArg _ (List.flatMap_map ..))
    case inner =>
      intro place hPlace query' hLevels' hKey'
      obtain ⟨name, hName, rfl⟩ := List.mem_map.mp hPlace
      obtain ⟨m, _, hString, hValue⟩ := hTree.exists_value hName
      rcases hString.walkMember_cases depth levels query.key with
        ⟨below, hEnter, hPush, hSteps⟩ | ⟨hEnter, hSteps⟩
      · refine ⟨below, Path.truncate_of_push hPush, ?_⟩
        rw [Query.enter, hKey', hEnter, hSteps]
        exact Query.descend_eq (hValue.onlyOverflows _ _ _) (ih below _ _ hValue) hLevels' rfl
      · refine ⟨query.key, Path.truncate_length _, ?_⟩
        rw [Query.enter, hKey', hEnter, hSteps, ← hKey']
        rfl
    case faults =>
      intro place hPlace e p hMem
      obtain ⟨name, hName, rfl⟩ := List.mem_map.mp hPlace
      exact hFaults e p (hWalk ▸ List.mem_flatMap.mpr ⟨name, hName, hMem⟩)
  case array =>
    intro depth levels path i elements hTree ih query hLevels hKey
    subst hKey
    rw [hTree.findWithin_array depth (by omega)]
    refine Query.firstOf_eq (Leaf.walk doc depth (levels + 1) query.key) ?inner ?faults hLevels rfl
    case inner =>
      intro child hChild query' hLevels' hKey'
      obtain ⟨element, _, hElement⟩ := hTree.exists_element hChild
      refine ⟨query.key, Path.truncate_length _, ?_⟩
      rw [Query.with_eq rfl hKey']
      exact Query.descend_eq (hElement.onlyOverflows _ _ _) (ih _ _ _ hElement) hLevels' hKey'
    case faults =>
      intro child hChild
      obtain ⟨element, _, hElement⟩ := hTree.exists_element hChild
      exact hElement.onlyOverflows _ _ _

theorem find_eq (h : Occurs doc i tree) (query : Query) :
    query.find doc i = query.select (Leaf.walk doc Leaf.maxDepth query.levels query.key i) :=
  h.findWithin_eq Leaf.maxDepth query

end Json.Occurs

/-! ### Counts -/

theorem Leaf.exists_leaves (steps : List Leaf.Step) :
    ∃ (leaves : List Leaf) (rest : List Leaf.Step), steps = leaves.map .found ++ rest ∧
      (rest = [] ∨ ∃ e path more, rest = .fault e path :: more) := by
  induction steps with
  | nil => exact ⟨[], [], rfl, Or.inl rfl⟩
  | cons step steps ih =>
    cases step with
    | fault e path => exact ⟨[], _, rfl, Or.inr ⟨e, path, steps, rfl⟩⟩
    | found leaf =>
      obtain ⟨leaves, rest, rfl, hRest⟩ := ih
      exact ⟨leaf :: leaves, rest, rfl, hRest⟩

theorem Leaf.found_append (leaves : List Leaf) (rest : List Leaf.Step) :
    found (leaves.map .found ++ rest) = leaves.map Leaf.token ++ found rest := by
  rw [found, List.filterMap_append, List.filterMap_map]
  exact congrArg (· ++ found rest) (congrFun List.filterMap_eq_map leaves)

theorem Leaf.exists_token {doc : Document} {index levels n : Nat}
    (hCount : count doc index levels = .ok n) : ∃ token, doc.token index = .ok token := by
  cases hAt : doc.tokens[index]? with
  | some token => exact ⟨token, Document.token_eq_ok_iff.mpr hAt⟩
  | none =>
    have hToken : doc.token index = .error .noData := by rw [Document.token, hAt]
    rw [count, Query.find, Query.findWithin, hToken] at hCount
    cases hCount

/-- Where leaves can be counted, the walk comes to its end and to as many of them. -/
theorem Json.Occurs.count_eq_ok {doc : Document} {tree : Tree} {i : Nat} (h : Occurs doc i tree)
    (hTokens : doc.tokens.size ≤ Leaf.noTarget) {levels n : Nat}
    (hCount : Leaf.count doc i levels = .ok n) :
    ∃ leaves : List Leaf, Leaf.walk doc Leaf.maxDepth levels .empty i = leaves.map .found ∧
      leaves.length = n := by
  obtain ⟨leaves, rest, hWalk, hRest⟩ :=
    Leaf.exists_leaves (Leaf.walk doc Leaf.maxDepth levels .empty i)
  have hLength : 0 + leaves.length ≤ Leaf.noTarget := by
    have hFound := h.length_found_le Leaf.maxDepth levels .empty
    rw [hWalk, Leaf.found_append, List.length_append, List.length_map] at hFound
    omega
  have hFind : (Query.nth Leaf.noTarget levels).find doc i =
      ({ Query.nth Leaf.noTarget levels with seen := 0 + leaves.length } : Query).select rest := by
    rw [h.find_eq]
    show (Query.nth Leaf.noTarget levels).select (Leaf.walk doc Leaf.maxDepth levels .empty i) = _
    rw [hWalk]
    exact Query.select_skip rest rfl hLength
  rw [Leaf.count, hFind] at hCount
  rcases hRest with rfl | ⟨e, path, more, rfl⟩
  · rw [List.append_nil] at hWalk
    exact ⟨leaves, hWalk, (Nat.zero_add _).symm.trans (Except.ok.inj hCount)⟩
  · have hMem : .fault e path ∈ Leaf.walk doc Leaf.maxDepth levels .empty i := by
      rw [hWalk]
      exact List.mem_append_right _ List.mem_cons_self
    obtain rfl := h.onlyOverflows _ _ _ e path hMem
    cases hCount

end SignReview
