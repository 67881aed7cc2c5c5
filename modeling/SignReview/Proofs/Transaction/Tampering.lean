import SignReview.Proofs.Json.Blanks
import SignReview.Proofs.Json.Canonical
import SignReview.Proofs.Json.Rearranging
import SignReview.Proofs.Transaction.Validation
import SignReview.Proofs.SignDoc.Shown
import Mathlib.Data.List.Nodup

/-!
# Documents that are tampered with

A canonical document has one form.  Put a blank into it, put the members of an object into another
order, or leave out a member that is required: it can still be read, but it is refused, and each
time the reason that is given is what has been done.

* `Occurs.requireNames_of_missing`: what is said where one required name is missing.
* `Document.Parsed.sorted_of_canonical`: a canonical document is sorted,
  `Tree.Reorders.exists_unsorted`: no other order of names is.
* `Document.Parsed.exists_of_blank`, `Document.Parsed.exists_of_reorders`,
  `Document.Parsed.exists_of_leftOut`: the three changes.
* `Document.refused_of_tampered`: what becomes of a canonical document.
-/

namespace SignReview.Json

/-! ### Reasons -/

namespace Document

variable {doc : Document}

theorem isSorted_of_canonical (h : doc.checkCanonical = .ok ()) : doc.isSorted = .ok true := by
  obtain ⟨hBlank, _⟩ := checkCanonical_eq_ok h
  rw [checkCanonical, hBlank] at h
  obtain ⟨sorted, hSorted, h⟩ := bind_eq_ok_iff.mp h
  cases sorted with
  | true => exact hSorted
  | false => cases h

theorem eq_of_mem_required {a b : Bytes × Error} (ha : a ∈ required) (hb : b ∈ required)
    (hKey : a.1 = b.1) : a = b := by
  have hAll : ∀ a ∈ required, ∀ b ∈ required, a.1 = b.1 → a = b := by decide +kernel
  exact hAll a ha b hb hKey

end Document

namespace Occurs

variable {doc : Document} {members : List (Bytes × Tree)}

theorem requireNames_of_missing (h : Occurs doc 0 (.object members)) {entry : Bytes × Error}
    (hEntry : entry ∈ Document.required) (hMissing : entry.1 ∉ members.map Prod.fst)
    (hOthers : ∀ other ∈ Document.required, other ≠ entry → other.1 ∈ members.map Prod.fst) :
    doc.requireNames = .error entry.2 := by
  rw [h.requireNames_eq]
  cases hFind : Document.required.find? fun entry =>
      decide (entry.1 ∉ (Tree.object members).names) with
  | none =>
    have hNames := List.find?_eq_none.mp hFind entry hEntry
    exact absurd (decide_eq_true hMissing) hNames
  | some first =>
    have hFirst : first.1 ∉ (Tree.object members).names := by simpa using List.find?_some hFind
    by_cases hSame : first = entry
    · rw [hSame]
      rfl
    · exact absurd (hOthers first (List.mem_of_find?_eq_some hFind) hSame) hFirst

end Occurs

/-! ### What is still in order -/

namespace Tree

theorem Sorted.of_mem {tree child : Tree} (h : tree.Sorted) (hChild : child ∈ tree.children) :
    child.Sorted :=
  fun inner hInner => h inner (hInner.head hChild)

theorem sorted_string (contents : Bytes) : (Tree.string contents).Sorted := by
  intro inner hInner
  rcases hInner.cases_head with rfl | ⟨child, hChild, _⟩
  · rfl
  · cases hChild

theorem Sorted.sublist {members members' : List (Bytes × Tree)}
    (h : (Tree.object members).Sorted) (hSublist : members'.Sublist members) :
    (Tree.object members').Sorted := by
  intro inner hInner
  rcases hInner.cases_head with rfl | ⟨child, hChild, hInner⟩
  · have hNames := ascending_iff.mp (h _ .refl)
    exact ascending_iff.mpr (hNames.sublist (hSublist.map Prod.fst))
  · rcases mem_inTurns hChild with ⟨name, rfl⟩ | ⟨m, hm, rfl⟩
    · exact sorted_string name inner hInner
    · exact h.of_mem (mem_inTurns_of_mem (hSublist.subset hm)) inner hInner

/-- Members with different names are in ascending order in one way only. -/
theorem eq_of_ascending {members members' : List (Bytes × Tree)} (hPerm : members'.Perm members)
    (hNames : (members.map Prod.fst).Nodup)
    (h : Document.ascending (members.map Prod.fst) = true)
    (h' : Document.ascending (members'.map Prod.fst) = true) : members' = members := by
  rw [ascending_iff, List.pairwise_map] at h h'
  refine @List.Perm.eq_of_pairwise _ (fun a b : Bytes × Tree => ¬b.1 < a.1) _ _ ?_ h' h hPerm
  intro a b ha hb hab hba
  rw [List.not_lt] at hab hba
  exact List.inj_on_of_nodup_map hNames (hPerm.subset ha) hb (List.le_antisymm hab hba)

/-- In a tree that was sorted, another order of members is not. -/
theorem Reorders.exists_unsorted {tree tree' : Tree} (h : Reorders tree tree')
    (hSorted : tree.Sorted) : ∃ inner, tree'.Contains inner ∧ inner.namesAscend = false := by
  induction h with
  | here hPerm hNe hNames =>
    refine ⟨_, .refl, Bool.eq_false_iff.mpr fun hAscend => hNe ?_⟩
    exact eq_of_ascending hPerm hNames (hSorted _ .refl) hAscend
  | @member left right name value value' _ ih =>
    have hMem : (name, value) ∈ left ++ (name, value) :: right := by simp
    have hMem' : (name, value') ∈ left ++ (name, value') :: right := by simp
    obtain ⟨inner, hInner, hNames⟩ := ih (hSorted.of_mem (mem_inTurns_of_mem hMem))
    exact ⟨inner, hInner.head (mem_inTurns_of_mem hMem'), hNames⟩
  | @element left right element element' _ ih =>
    have hMem : element ∈ (Tree.array (left ++ element :: right)).children := by simp [children]
    have hMem' : element' ∈ (Tree.array (left ++ element' :: right)).children := by
      simp [children]
    obtain ⟨inner, hInner, hNames⟩ := ih (hSorted.of_mem hMem)
    exact ⟨inner, hInner.head hMem', hNames⟩

end Tree

namespace Document.Parsed

variable {doc : Document} {ls : List Lexeme} {root : Tree}

theorem sorted_of_canonical (h : doc.Parsed ls root) (hCanonical : doc.checkCanonical = .ok ()) :
    root.Sorted :=
  h.isSorted_iff.mp (isSorted_of_canonical hCanonical)

end Document.Parsed

/-! ### What becomes of a canonical document -/

namespace Document.Parsed

variable {doc : Document} {root : Tree} {limits : Limits}

/-- With a blank more, the tree is the same, but there is whitespace. -/
theorem exists_of_blank (h : doc.Parsed root.lexemes root) (hSize : root.size ≤ limits.tokenBudget)
    {front back : Bytes} {c : UInt8} (hText : doc.bytes.toList = front ++ back)
    (hBlank : c ∈ ([0x20, 0x09, 0x0a, 0x0d] : Bytes))
    (hOutside : ∀ token ∈ doc.tokens.toList, token.IsOutside front.length)
    (hFits : (front ++ c :: back).length ≤ limits.maxDocument) :
    ∃ changed, Document.parse (front ++ c :: back) limits = .ok changed ∧
      changed.tokens.toList.map Token.kind = doc.tokens.toList.map Token.kind ∧
      (∀ i token, doc.token i = .ok token → token.isLeaf →
        ∃ octets, doc.slice i = .ok octets ∧ changed.slice i = .ok octets) ∧
      changed.checkCanonical = .error .containsWhitespace := by
  obtain ⟨left, right, hLexemes, rfl, rfl⟩ := h.exists_split hText hOutside
  have hSpells : Spells (left ++ .blank c :: right) root :=
    Spells.blank (hLexemes ▸ h.spells) hBlank
  have hInserted : (left ++ .blank c :: right).flatMap Lexeme.text =
      left.flatMap Lexeme.text ++ c :: right.flatMap Lexeme.text := by
    rw [List.flatMap_append]
    rfl
  rw [← hInserted] at hFits ⊢
  obtain ⟨changed, hChanged, hParsed⟩ := hSpells.exists_parsed hFits hSize
  refine ⟨changed, hChanged, ?_, fun i token => h.slice_eq hParsed, ?_⟩
  · rw [hParsed.tokens_eq, h.tokens_eq]
    exact root.map_kind_table _ _ 0 0
  · apply checkCanonical_of_blank
    rw [hParsed.hasWhitespace_eq, List.any_eq_true]
    exact ⟨.blank c, by simp, rfl⟩

/-- With the members of an object in another order, the tree is not sorted any more. -/
theorem exists_of_reorders (h : doc.Parsed root.lexemes root)
    (hLength : root.compact.length ≤ limits.maxDocument) (hSize : root.size ≤ limits.tokenBudget)
    (hSorted : root.Sorted) {other : Tree} (hOther : root.Reorders other) :
    ∃ changed, Document.parse other.compact limits = .ok changed ∧
      changed.checkCanonical = .error .notSorted := by
  obtain ⟨changed, hChanged, hParsed⟩ :=
    h.spells.tree_legal.parse_of_subperm hLength hSize hOther.perm.subperm
  obtain ⟨inner, hInner, hNames⟩ := hOther.exists_unsorted hSorted
  exact ⟨changed, hChanged, checkCanonical_of_unsorted hParsed.hasWhitespace_of_compact
    (hParsed.isSorted_of_contains hInner hNames)⟩

/-- Without the members of a name that is required, only this name is missing. -/
theorem exists_of_leftOut {members : List (Bytes × Tree)}
    (h : doc.Parsed (Tree.object members).lexemes (.object members))
    (hLength : (Tree.object members).compact.length ≤ limits.maxDocument)
    (hSize : (Tree.object members).size ≤ limits.tokenBudget)
    (hSorted : (Tree.object members).Sorted)
    (hRequired : ∀ name ∈ required.map Prod.fst, name ∈ members.map Prod.fst) {key : Bytes}
    {missing : Error} (hEntry : (key, missing) ∈ required) :
    ∃ changed,
      Document.parse (Tree.object (members.filter fun m => m.1 ≠ key)).compact limits =
        .ok changed ∧
      changed.checkCanonical = .error missing := by
  have hSublist : (members.filter fun m => m.1 ≠ key).Sublist members := List.filter_sublist
  obtain ⟨changed, hChanged, hParsed⟩ := h.spells.tree_legal.parse_of_subperm hLength hSize
    (Tree.sublist_lexemes hSublist).subperm
  refine ⟨changed, hChanged, ?_⟩
  rw [checkCanonical_of_sorted hParsed.hasWhitespace_of_compact
    (hParsed.isSorted_of_sorted (hSorted.sublist hSublist))]
  refine hParsed.occurs.requireNames_of_missing hEntry ?_ ?_
  · intro hKey
    obtain ⟨m, hm, hName⟩ := List.mem_map.mp hKey
    exact absurd hName (by simpa using (List.mem_filter.mp hm).2)
  · -- the other names that are required have been left in
    intro other hOther hNe
    have hDiffers : other.1 ≠ key := fun hSame => hNe (eq_of_mem_required hOther hEntry hSame)
    obtain ⟨m, hm, hName⟩ := List.mem_map.mp (hRequired _ (List.mem_map_of_mem hOther))
    refine List.mem_map.mpr ⟨m, List.mem_filter.mpr ⟨hm, ?_⟩, hName⟩
    rw [decide_eq_true_eq, hName]
    exact hDiffers

end Document.Parsed

/-- A canonical document has one form.  With a blank more, outside its strings and literals, it has
the same tokens but whitespace; with the members of any object in another order, it is not sorted;
and without the members of a name that is required, this name is missing.  In all three cases it can
be read, and is refused for this reason. -/
theorem Document.refused_of_tampered {text : Bytes} {limits : Limits} {doc : Document}
    (hParse : Document.parse text limits = .ok doc) (hCanonical : doc.checkCanonical = .ok ()) :
    (∀ front back c, text = front ++ back → c ∈ ([0x20, 0x09, 0x0a, 0x0d] : Bytes) →
      (∀ token ∈ doc.tokens.toList, token.IsOutside front.length) →
      (front ++ c :: back).length ≤ limits.maxDocument →
      ∃ changed, Document.parse (front ++ c :: back) limits = .ok changed ∧
        changed.tokens.toList.map Token.kind = doc.tokens.toList.map Token.kind ∧
        (∀ i token, doc.token i = .ok token → token.isLeaf →
          ∃ octets, doc.slice i = .ok octets ∧ changed.slice i = .ok octets) ∧
        changed.checkCanonical = .error .containsWhitespace) ∧
    ∃ members, doc.tree = .ok (.object members) ∧ text = (Tree.object members).compact ∧
      (∀ other, (Tree.object members).Reorders other →
        ∃ changed, Document.parse other.compact limits = .ok changed ∧
          changed.checkCanonical = .error .notSorted) ∧
      ∀ key missing, (key, missing) ∈ Document.required →
        ∃ changed,
          Document.parse (Tree.object (members.filter fun m => m.1 ≠ key)).compact limits =
            .ok changed ∧
          changed.checkCanonical = .error missing := by
  have hLength := length_le_of_parse hParse
  obtain ⟨ls, root, hParsed, hText, hSize⟩ := (Document.parse_eq_ok_iff hLength).mp hParse
  obtain ⟨hBlank, hRequired⟩ := checkCanonical_eq_ok hCanonical
  have hSorted := hParsed.sorted_of_canonical hCanonical
  -- without blanks, the document is the compact text of its tree
  obtain rfl := hParsed.eq_lexemes hBlank
  have hCompact : text = root.compact := hText.symm.trans (hParsed.eq_compact hBlank)
  refine ⟨?blank, ?members⟩
  case blank =>
    intro front back c hSplit hc hOutside hFits
    exact hParsed.exists_of_blank hSize (hText.trans hSplit) hc hOutside hFits
  case members =>
    obtain ⟨members, rfl⟩ : ∃ members, root = .object members := by
      obtain ⟨start, hStart⟩ := hRequired _ Heading.memo.name_mem_required
      exact hParsed.occurs.exists_object hStart
    have hNames : ∀ name ∈ required.map Prod.fst, name ∈ members.map Prod.fst :=
      fun name hName => hParsed.occurs.exists_member_iff.mp (hRequired name hName)
    rw [hCompact] at hLength
    exact ⟨members, hParsed.tree_eq, hCompact,
      fun other hOther => hParsed.exists_of_reorders hLength hSize hSorted hOther,
      fun key missing hEntry => hParsed.exists_of_leftOut hLength hSize hSorted hNames hEntry⟩

/-- The sign document of a transaction without messages. -/
def withoutMessages : Bytes := Bytes.ofString
  ("\x7b\"account_number\":\"7\",\"chain_id\":\"c\",\"fee\":\x7b\x7d,\"memo\":\"\"," ++
    "\"msgs\":[],\"sequence\":\"1\"\x7d")

def namesWithoutMessages : List Bytes :=
  [Bytes.ofString "account_number", Bytes.ofString "chain_id", Bytes.ofString "fee",
    Bytes.ofString "memo", Bytes.ofString "msgs", Bytes.ofString "sequence"]

theorem refused_of_tampered_withoutMessages :
    ∃ doc members, Document.parse withoutMessages {} = .ok doc ∧
      doc.tree = .ok (.object members) ∧
      (∃ changed, Document.parse (0x7b :: 0x0a :: withoutMessages.tail) {} =
        .ok changed ∧ changed.checkCanonical = .error .containsWhitespace) ∧
      (∃ changed, Document.parse (Tree.object members.reverse).compact {} = .ok changed ∧
        changed.checkCanonical = .error .notSorted) ∧
      ∃ changed,
        Document.parse
          (Tree.object (members.filter fun m => m.1 ≠ Bytes.ofString "memo")).compact {} =
          .ok changed ∧
        changed.checkCanonical = .error .missingMemo := by
  have hRead : ((Document.parse withoutMessages {}).toOption.map fun doc =>
      (doc.checkCanonical.toOption, decide (∀ token ∈ doc.tokens.toList, token.IsOutside 1),
        (doc.names 0 >>= fun names => names.mapM doc.slice).toOption)) =
        some (some (), true, some namesWithoutMessages) := by decide +kernel
  obtain ⟨doc, hParse, hRead⟩ := Option.map_eq_some_iff.mp hRead
  obtain ⟨hCanonical, hRead⟩ := Prod.mk.inj hRead
  obtain ⟨hOutside, hSlices⟩ := Prod.mk.inj hRead
  rw [toOption_eq_some_iff] at hParse hCanonical hSlices
  obtain ⟨hBlank, members, hTree, _, hReorder, hMissing⟩ :=
    Document.refused_of_tampered hParse hCanonical
  have hNames : members.map Prod.fst = namesWithoutMessages := by
    obtain ⟨_, root, hParsed, _⟩ := Document.exists_parsed hParse
    obtain rfl := Except.ok.inj (hParsed.tree_eq.symm.trans hTree)
    exact Except.ok.inj (hParsed.occurs.slice_names.symm.trans hSlices)
  have hOther : (Tree.object members).Reorders (.object members.reverse) := by
    refine .here (List.reverse_perm members) (fun hSame => ?_) (hNames ▸ by decide +kernel)
    have hReverse := congrArg (List.map Prod.fst) hSame
    rw [List.map_reverse, hNames] at hReverse
    exact absurd hReverse (by decide +kernel)
  obtain ⟨changed, hChanged, _, _, hVerdict⟩ := hBlank [0x7b] withoutMessages.tail 0x0a
    (by decide +kernel) (by decide) (of_decide_eq_true hOutside) (by decide +kernel)
  exact ⟨doc, members, hParse, hTree, ⟨changed, hChanged, hVerdict⟩, hReorder _ hOther,
    hMissing _ _ (by decide +kernel)⟩

end SignReview.Json
