import SignReview.Proofs.Json.Table

/-!
# Building the table of a reading

One step of `Builder` is one step of the reading that it belongs to, apart from the budget, and so
is a run.

* `Reading.step_builder`: one lexeme, `Reading.run_builder`: any number of them.
* `Reading.finish_cases`: where a text may end, `Reading.finish_builder`: the table that is left at
  the end is that of a tree.
-/

namespace SignReview.Json

open Json.Tree

namespace Reading

/-! ### One step -/

theorem expected_value (parts : List Part) :
    (Reading.mk parts .value).expected = .value ∨
      (Reading.mk parts .value).expected = .valueOrClose := by
  unfold expected
  split <;> simp_all

theorem expected_name (parts : List Part) (before : List (Bytes × Tree)) :
    (Reading.mk parts (.name before)).expected = .name ∨
      (Reading.mk parts (.name before)).expected = .nameOrClose := by
  cases before with
  | nil => exact Or.inr rfl
  | cons m before => exact Or.inl rfl

variable {pos : Nat → Nat} {budget offset : Nat}

theorem push_builder {r s : Reading} {token : Token}
    (hTable : s.table pos = r.table pos ++ [token]) :
    (r.builder pos offset).push budget token =
      if s.size ≤ budget then .ok { r.builder pos offset with tokens := (s.table pos).toArray }
      else .error .tooManyTokens := by
  have hSize : s.size = r.size + 1 := by
    rw [← length_table pos s, ← length_table pos r, hTable, List.length_append]
    rfl
  have hTokens : (r.builder pos offset).tokens.size = r.size := by
    rw [builder, List.size_toArray, length_table]
  rw [Builder.push, hTokens, hSize, hTable]
  simp only [builder, List.push_toArray, Nat.lt_iff_add_one_le]

theorem push_leaf {r s : Reading} {token : Token} {lexeme : Lexeme}
    (hTable : s.table pos = r.table pos ++ [token]) (hParent : s.parent = r.parent) :
    (do return ((← (r.builder pos offset).push budget token).advance lexeme s.expected)) =
      within pos budget (offset + lexeme.text.length) s := by
  rw [push_builder hTable, within]
  by_cases hSize : s.size ≤ budget
  · rw [if_pos hSize, if_pos hSize, builder, builder, hParent]
    rfl
  · rw [if_neg hSize, if_neg hSize]
    rfl

theorem push_container {r s : Reading} {c : Container}
    (hTable : s.table pos = r.table pos ++ [⟨c.kind, offset, Token.openMark⟩])
    (hParent : s.parent = some r.size) :
    (do return ((← (r.builder pos offset).openContainer budget c).advance (.opening c)
      s.expected)) =
      within pos budget (offset + (Lexeme.opening c).text.length) s := by
  have hTokens : (r.builder pos offset).tokens.size = r.size := by
    rw [builder, List.size_toArray, length_table]
  have hOffset : (r.builder pos offset).offset = offset := rfl
  rw [Builder.openContainer, hTokens, ← hParent, hOffset, push_builder hTable, within]
  by_cases hSize : s.size ≤ budget
  · rw [if_pos hSize, if_pos hSize, builder]
    rfl
  · rw [if_neg hSize, if_neg hSize]
    rfl

theorem step_string {r : Reading} {contents : Bytes} (hPos : pos r.lexemes.length = offset) :
    Builder.step budget (r.builder pos offset) (.string contents) =
      r.step (.string contents) >>=
        within pos budget (offset + (Lexeme.string contents).text.length) := by
  obtain ⟨parts, focus⟩ := r
  cases focus with
  | value =>
    have hTable : (Reading.mk parts (.done (.string contents))).table pos =
        (Reading.mk parts .value).table pos ++ [.quoted offset contents] := by
      simp [table, Focus.table, Tree.table, ← hPos, lexemes, Focus.lexemes]
    refine Eq.trans ?_ (push_leaf hTable rfl)
    rcases expected_value parts with h | h <;>
      simp only [Builder.step, builder, h, Expected.isName, Expected.isValue] <;> rfl
  | name before =>
    have hNumber : (Reading.mk parts (.name before)).lexemes.length =
        (partLexemes parts).length + 1 + (membersBefore before).length := by
      simp [lexemes, Focus.lexemes]; omega
    have hTable : (Reading.mk parts (.colon before contents)).table pos =
        (Reading.mk parts (.name before)).table pos ++ [.quoted offset contents] := by
      simp only [table, Focus.table, Part.table, Part.inner, List.append_assoc, List.cons_append,
        ← hPos, hNumber]
      rfl
    refine Eq.trans ?_ (push_leaf hTable rfl)
    rcases expected_name parts before with h | h <;>
      simp only [Builder.step, builder, h, Expected.isName, Expected.isValue] <;> rfl
  | colon before key => rfl
  | done tree => cases parts <;> rfl

theorem step_literal {r : Reading} {text : Bytes} (hPos : pos r.lexemes.length = offset) :
    Builder.step budget (r.builder pos offset) (.literal text) =
      r.step (.literal text) >>=
        within pos budget (offset + (Lexeme.literal text).text.length) := by
  obtain ⟨parts, focus⟩ := r
  cases focus with
  | value =>
    have hTable : (Reading.mk parts (.done (.literal text))).table pos =
        (Reading.mk parts .value).table pos ++ [.word offset text] := by
      simp [table, Focus.table, Tree.table, ← hPos, lexemes, Focus.lexemes]
    refine Eq.trans ?_ (push_leaf hTable rfl)
    rcases expected_value parts with h | h <;>
      simp only [Builder.step, builder, h, Expected.isValue] <;> rfl
  | name before => cases before <;> rfl
  | colon before key => rfl
  | done tree => cases parts <;> rfl

theorem step_opening {r : Reading} {c : Container} (hPos : pos r.lexemes.length = offset) :
    Builder.step budget (r.builder pos offset) (.opening c) =
      r.step (.opening c) >>= within pos budget (offset + (Lexeme.opening c).text.length) := by
  obtain ⟨parts, focus⟩ := r
  cases focus with
  | value =>
    cases c with
    | object =>
      have hTable : (Reading.mk parts (.name [])).table pos =
          (Reading.mk parts .value).table pos ++ [⟨.object, offset, Token.openMark⟩] := by
        simp [table, Focus.table, memberTable, ← hPos, lexemes, Focus.lexemes]
      refine Eq.trans ?_ (push_container hTable rfl)
      rcases expected_value parts with h | h <;>
        simp only [Builder.step, builder, h, Expected.isValue] <;> rfl
    | array =>
      have hTable : (Reading.mk (.element [] :: parts) .value).table pos =
          (Reading.mk parts .value).table pos ++ [⟨.array, offset, Token.openMark⟩] := by
        simp only [table, Focus.table, partTable, Part.table, Part.inner, elementTable, ← hPos,
          lexemes, Focus.lexemes, List.append_nil]
        rfl
      refine Eq.trans ?_ (push_container hTable rfl)
      rcases expected_value parts with h | h <;>
        simp only [Builder.step, builder, h, Expected.isValue] <;> rfl
  | name before => cases c <;> cases before <;> rfl
  | colon before key => cases c <;> rfl
  | done tree => cases c <;> cases parts <;> rfl

theorem within_of_table_eq {r s : Reading} {lexeme : Lexeme} (hTable : s.table pos = r.table pos)
    (hParent : s.parent = r.parent) (hSize : r.size ≤ budget) :
    within pos budget (offset + lexeme.text.length) s =
      .ok ((r.builder pos offset).advance lexeme s.expected) := by
  have hSame : s.size = r.size := by rw [← length_table pos s, hTable, length_table]
  rw [within, if_pos (hSame ▸ hSize), builder, builder, hTable, hParent]
  rfl

theorem step_colon {r : Reading} (hSize : r.size ≤ budget) :
    Builder.step budget (r.builder pos offset) .colon =
      r.step .colon >>= within pos budget (offset + Lexeme.colon.text.length) := by
  obtain ⟨parts, focus⟩ := r
  cases focus with
  | value =>
    rcases expected_value parts with h | h <;>
      simp only [Builder.step, builder, h] <;> rfl
  | name before => cases before <;> rfl
  | colon before key =>
    have hTable : (Reading.mk (.member before key :: parts) .value).table pos =
        (Reading.mk parts (.colon before key)).table pos := by
      simp only [table, partTable, Focus.table, List.append_nil]
    exact (within_of_table_eq hTable rfl hSize).symm
  | done tree => cases parts <;> rfl

theorem parentKind_builder {r : Reading} {outer : List Part} {token : Token} {inner : List Token}
    (hTable : r.table pos = partTable pos outer ++ token :: inner)
    (hParent : r.parent = some (partSize outer)) :
    (r.builder pos offset).parentKind = some token.kind := by
  have hEntry : (r.table pos)[partSize outer]? = some token := by
    rw [hTable, ← length_partTable pos outer, List.getElem?_append_right (Nat.le_refl _),
      Nat.sub_self, List.getElem?_cons_zero]
  rw [Builder.parentKind, builder, hParent, Option.bind_some, List.getElem?_toArray, hEntry,
    Option.map_some]

theorem table_done (part : Part) (outer : List Part) (tree : Tree) :
    (Reading.mk (part :: outer) (.done tree)).table pos = partTable pos outer ++
      ⟨part.container.kind, pos (partLexemes outer).length, Token.openMark⟩ ::
        (part.inner pos (partLexemes outer).length ++
          tree.table pos (partLexemes (part :: outer)).length) := by
  simp only [table, partTable, Part.table, Focus.table, List.append_assoc, List.cons_append]

theorem memberTable_of_inner (before : List (Bytes × Tree)) (name : Bytes) (value : Tree)
    (outer : List Part) :
    (Part.member before name).inner pos (partLexemes outer).length ++
        value.table pos (partLexemes (.member before name :: outer)).length =
      memberTable pos ((partLexemes outer).length + 1) (before ++ [(name, value)]) := by
  have hNumber : (partLexemes (.member before name :: outer)).length =
      (partLexemes outer).length + 1 + (membersBefore before).length + 2 := by
    simp [partLexemes, Part.lexemes]; omega
  rw [memberTable_concat, hNumber, Part.inner, List.append_assoc]
  rfl

theorem elementTable_of_inner (before : List Tree) (element : Tree) (outer : List Part) :
    (Part.element before).inner pos (partLexemes outer).length ++
        element.table pos (partLexemes (.element before :: outer)).length =
      elementTable pos ((partLexemes outer).length + 1) (before ++ [element]) := by
  have hNumber : (partLexemes (.element before :: outer)).length =
      (partLexemes outer).length + 1 + (elementsBefore before).length := by
    simp [partLexemes, Part.lexemes]; omega
  rw [elementTable_concat, hNumber, Part.inner]

theorem step_comma {r : Reading} (hSize : r.size ≤ budget) :
    Builder.step budget (r.builder pos offset) .comma =
      r.step .comma >>= within pos budget (offset + Lexeme.comma.text.length) := by
  obtain ⟨parts, focus⟩ := r
  cases focus with
  | value =>
    rcases expected_value parts with h | h <;>
      simp only [Builder.step, builder, h] <;> rfl
  | name before => cases before <;> rfl
  | colon before key => rfl
  | done tree =>
    cases parts with
    | nil => rfl
    | cons part outer =>
      have hKind : (builder pos offset ⟨part :: outer, .done tree⟩).parentKind =
          some part.container.kind := parentKind_builder (table_done part outer tree) rfl
      cases part with
      | member before name =>
        have hTable : (Reading.mk outer (.name (before ++ [(name, tree)]))).table pos =
            (Reading.mk (.member before name :: outer) (.done tree)).table pos := by
          rw [table_done, memberTable_of_inner]
          rfl
        refine Eq.trans ?_ (within_of_table_eq hTable rfl hSize).symm
        rw [Builder.step, hKind]
        cases before <;> rfl
      | element before =>
        have hTable : (Reading.mk (.element (before ++ [tree]) :: outer) .value).table pos =
            (Reading.mk (.element before :: outer) (.done tree)).table pos := by
          rw [table_done, elementTable_of_inner]
          simp only [table, partTable, Focus.table, List.append_nil]
          rfl
        refine Eq.trans ?_ (within_of_table_eq hTable rfl hSize).symm
        rw [Builder.step, hKind]
        cases before <;> rfl

/-- Closing a container replaces the mark of its token. -/
theorem step_closing_of_table {r : Reading} {outer : List Part} {c : Container} {start : Nat}
    {inner : List Token} {tree : Tree} (hMay : r.expected.mayClose c)
    (hParent : r.parent = some (partSize outer))
    (hTable : r.table pos = partTable pos outer ++ ⟨c.kind, start, Token.openMark⟩ :: inner)
    (hTree : tree.table pos (partLexemes outer).length = ⟨c.kind, start, offset + 1⟩ :: inner)
    (hMarks : ∀ i < (partLexemes outer).length, pos i + 1 < Token.openMark)
    (hSize : r.size ≤ budget) :
    Builder.step budget (r.builder pos offset) (.closing c) =
      within pos budget (offset + (Lexeme.closing c).text.length) ⟨outer, .done tree⟩ := by
  have hDone : (Reading.mk outer (.done tree)).table pos =
      partTable pos outer ++ ⟨c.kind, start, offset + 1⟩ :: inner := by
    rw [table, ← hTree]
    rfl
  have hSame : (Reading.mk outer (.done tree)).size = r.size := by
    rw [← length_table pos, ← length_table pos r, hDone, hTable]
    simp only [List.length_append, List.length_cons]
  have hModify : (r.table pos).modify (partSize outer)
      (fun token => { token with stop := offset + 1 }) =
        (Reading.mk outer (.done tree)).table pos := by
    rw [hTable, hDone, ← length_partTable pos outer]
    exact List.modifyTailIdx_add _ 0 _ _
  have hOuter := lastOpen_partTable (⟨c.kind, start, offset + 1⟩ :: inner) hMarks
  rw [← hDone] at hOuter
  have hClose : (r.builder pos offset).closeContainer (partSize outer) (offset + 1) =
      ⟨offset, ((Reading.mk outer (.done tree)).table pos).toArray, innermost outer,
        r.expected⟩ := by
    simp only [Builder.closeContainer, builder, List.modify_toArray, hModify, hOuter]
  have hKind : (r.builder pos offset).parentKind = some c.kind := parentKind_builder hTable hParent
  have hOpen : (r.builder pos offset).parent = some (partSize outer) := hParent
  have hOffset : (r.builder pos offset).offset = offset := rfl
  rw [Builder.step, hOpen, within, if_pos (hSame ▸ hSize)]
  simp only
  rw [if_pos ⟨hMay, hKind⟩, hOffset, hClose]
  rfl

theorem step_closing {r : Reading} {c : Container} (hPos : pos r.lexemes.length = offset)
    (hMarks : ∀ i < r.lexemes.length, pos i + 1 < Token.openMark) (hSize : r.size ≤ budget) :
    Builder.step budget (r.builder pos offset) (.closing c) =
      r.step (.closing c) >>= within pos budget (offset + (Lexeme.closing c).text.length) := by
  obtain ⟨parts, focus⟩ := r
  have hOuter : ∀ outer, (partLexemes outer).length ≤ (Reading.mk parts focus).lexemes.length →
      ∀ i < (partLexemes outer).length, pos i + 1 < Token.openMark :=
    fun outer h i hi => hMarks i (Nat.lt_of_lt_of_le hi h)
  cases focus with
  | value =>
    cases parts with
    | nil => cases c <;> rfl
    | cons part outer =>
      cases part with
      | member before name => cases c <;> rfl
      | element before =>
        cases before with
        | cons e before => cases c <;> rfl
        | nil =>
          cases c with
          | object => rfl
          | array =>
            have hTable : (Reading.mk (.element [] :: outer) .value).table pos =
                partTable pos outer ++
                  [⟨.array, pos (partLexemes outer).length, Token.openMark⟩] := by
              simp only [table, partTable, Focus.table, List.append_nil]
              rfl
            have hTree : (Tree.array []).table pos (partLexemes outer).length =
                [⟨.array, pos (partLexemes outer).length, offset + 1⟩] := by
              rw [← hPos]
              simp [Tree.table, elementTable, lexemes, partLexemes, Part.lexemes, Focus.lexemes,
                elementLexemes]
            exact step_closing_of_table rfl rfl hTable hTree
              (hOuter outer (by simp [lexemes, partLexemes])) hSize
  | name before =>
    cases c with
    | array => cases before <;> rfl
    | object =>
      cases before with
      | cons m before => rfl
      | nil =>
        have hTree : (Tree.object []).table pos (partLexemes parts).length =
            [⟨.object, pos (partLexemes parts).length, offset + 1⟩] := by
          rw [← hPos]
          simp [Tree.table, memberTable, lexemes, Focus.lexemes, memberLexemes]
        exact step_closing_of_table rfl rfl rfl hTree (hOuter parts (by simp [lexemes])) hSize
  | colon before key => cases c <;> rfl
  | done tree =>
    cases parts with
    | nil => cases c <;> rfl
    | cons part outer =>
      have hKind : (builder pos offset ⟨part :: outer, .done tree⟩).parentKind =
          some part.container.kind := parentKind_builder (table_done part outer tree) rfl
      have hBelow := hOuter outer (by simp [lexemes, partLexemes])
      cases part with
      | member before name =>
        cases c with
        | array =>
          rw [Builder.step, hKind]
          rfl
        | object =>
          have hNumber : (Reading.mk (.member before name :: outer) (.done tree)).lexemes.length =
              (partLexemes outer).length + 1 +
                (memberLexemes (before ++ [(name, tree)])).length := by
            rw [memberLexemes_concat]
            simp [lexemes, partLexemes, Part.lexemes, Focus.lexemes]; omega
          refine step_closing_of_table rfl rfl (table_done _ outer tree) ?_ hBelow hSize
          rw [memberTable_of_inner, Tree.table, ← hPos, hNumber]
          rfl
      | element before =>
        cases c with
        | object =>
          rw [Builder.step, hKind]
          rfl
        | array =>
          have hNumber : (Reading.mk (.element before :: outer) (.done tree)).lexemes.length =
              (partLexemes outer).length + 1 + (elementLexemes (before ++ [tree])).length := by
            rw [elementLexemes_concat]
            simp [lexemes, partLexemes, Part.lexemes, Focus.lexemes]; omega
          refine step_closing_of_table rfl rfl (table_done _ outer tree) ?_ hBelow hSize
          rw [elementTable_of_inner, Tree.table, ← hPos, hNumber]
          rfl

theorem step_unclosed {r : Reading} {contents : Bytes} :
    Builder.step budget (r.builder pos offset) (.unclosed contents) =
      r.step (.unclosed contents) >>=
        within pos budget (offset + (Lexeme.unclosed contents).text.length) := by
  obtain ⟨parts, focus⟩ := r
  cases focus with
  | value =>
    rcases expected_value parts with h | h <;>
      simp only [Builder.step, builder, h] <;> rfl
  | name before => cases before <;> rfl
  | colon before key => rfl
  | done tree => cases parts <;> rfl

/-- One step of the builder is one step of the reading, if the budget allows it. -/
theorem step_builder {r : Reading} {lexeme : Lexeme} (hBlank : lexeme.isBlank = false)
    (hPos : pos r.lexemes.length = offset)
    (hMarks : ∀ i < r.lexemes.length, pos i + 1 < Token.openMark) (hSize : r.size ≤ budget) :
    Builder.step budget (r.builder pos offset) lexeme =
      r.step lexeme >>= within pos budget (offset + lexeme.text.length) := by
  cases lexeme with
  | blank c => cases hBlank
  | opening c => exact step_opening hPos
  | closing c => exact step_closing hPos hMarks hSize
  | colon => exact step_colon hSize
  | comma => exact step_comma hSize
  | string contents => exact step_string hPos
  | literal text => exact step_literal hPos
  | unclosed contents => exact step_unclosed
  | malformed rest => rfl

/-! ### A run -/

/-- A run of the builder is a run of the reading that stays within the budget. -/
theorem run_builder {ls : List Lexeme} {r : Reading} {b : Builder}
    (hText : ∀ lexeme ∈ ls, lexeme.text ≠ [])
    (hPos : ∀ j, pos (r.lexemes.length + j) = place offset ls j)
    (hBelow : ∀ i < r.lexemes.length, pos i < offset)
    (hEnd : offset + (ls.flatMap Lexeme.text).length ≤ Token.openMark) (hSize : r.size ≤ budget) :
    ls.foldlM (Builder.step budget) (r.builder pos offset) = .ok b ↔
      ∃ s, ls.foldlM step r = .ok s ∧ s.size ≤ budget ∧
        b = s.builder pos (offset + (ls.flatMap Lexeme.text).length) := by
  induction ls generalizing r offset with
  | nil =>
    constructor
    · intro h
      obtain rfl := Except.ok.inj h
      exact ⟨r, rfl, hSize, rfl⟩
    · rintro ⟨s, hRun, _, rfl⟩
      obtain rfl := Except.ok.inj hRun
      rfl
  | cons lexeme ls ih =>
    have hRest : ∀ l ∈ ls, l.text ≠ [] := fun l hl => hText l (List.mem_cons_of_mem _ hl)
    have hPositive := List.length_pos_iff.mpr (hText lexeme List.mem_cons_self)
    rw [List.flatMap_cons, List.length_append, ← Nat.add_assoc] at hEnd ⊢
    cases hBlank : lexeme.isBlank with
    | true =>
      have hStep : Builder.step budget (r.builder pos offset) lexeme =
          .ok (r.builder pos (offset + lexeme.text.length)) := by
        cases lexeme with
        | blank c => rfl
        | _ => cases hBlank
      have hNext : ∀ j, pos (r.lexemes.length + j) = place (offset + lexeme.text.length) ls j :=
        fun j => by rw [hPos, place_blank hBlank]
      rw [foldlM_cons_ok hStep, foldlM_cons_ok (step_of_isBlank r hBlank)]
      exact ih hRest hNext (fun i hi => Nat.lt_add_right _ (hBelow i hi)) hEnd hSize
    | false =>
      have hFirst : pos r.lexemes.length = offset := by
        rw [← Nat.add_zero r.lexemes.length, hPos, place_zero hBlank]
      have hMarks : ∀ i < r.lexemes.length, pos i + 1 < Token.openMark := fun i hi => by
        have := hBelow i hi
        omega
      have hBuilder : Builder.step budget (r.builder pos offset) lexeme = _ :=
        step_builder hBlank hFirst hMarks hSize
      cases hStep : r.step lexeme with
      | error e =>
        rw [hStep] at hBuilder
        rw [List.foldlM_cons, List.foldlM_cons, hBuilder, hStep]
        constructor
        · intro h; cases h
        · rintro ⟨s, hRun, _⟩; cases hRun
      | ok next =>
        have hLength : next.lexemes.length = r.lexemes.length + 1 := by
          rw [lexemes_of_step hStep hBlank, List.length_append, List.length_singleton]
        have hBind : (Except.ok next >>= within pos budget (offset + lexeme.text.length)) =
            within pos budget (offset + lexeme.text.length) next := rfl
        rw [hStep, hBind, within] at hBuilder
        rw [foldlM_cons_ok hStep]
        by_cases hNext : next.size ≤ budget
        · rw [if_pos hNext] at hBuilder
          rw [foldlM_cons_ok hBuilder]
          apply ih hRest _ _ hEnd hNext
          · intro j
            rw [hLength, Nat.add_assoc, Nat.add_comm 1, hPos, place_succ hBlank]
          · intro i hi
            rcases Nat.lt_succ_iff_lt_or_eq.mp (hLength ▸ hi) with hi | rfl
            · exact Nat.lt_add_right _ (hBelow i hi)
            · omega
        · rw [if_neg hNext] at hBuilder
          rw [List.foldlM_cons, hBuilder]
          constructor
          · intro h; cases h
          · rintro ⟨s, hRun, hLast, _⟩
            exact absurd (Nat.le_trans (size_le_of_run hRun) hLast) hNext

theorem finish_done (tree : Tree) :
    (builder pos offset ⟨[], .done tree⟩).finish = .ok (tree.table pos 0).toArray := by
  have hSome : (tree.table pos 0).toArray.isEmpty = false := by
    have := tree.size_pos
    simp only [Array.isEmpty, List.size_toArray, Tree.length_table, decide_eq_false_iff_not]
    omega
  have hTokens : (builder pos offset ⟨[], .done tree⟩).tokens = (tree.table pos 0).toArray := rfl
  have hParent : (builder pos offset ⟨[], .done tree⟩).parent = none := rfl
  rw [Builder.finish, hParent, hTokens, hSome]
  rfl

/-- A text holds no value where nothing has been read.  It may end where a tree has been read, and
is incomplete elsewhere. -/
theorem finish_cases (r : Reading) :
    (r = start ∧ (r.builder pos offset).finish = .error .zeroTokens) ∨
      (∃ tree, r = ⟨[], .done tree⟩ ∧
        (r.builder pos offset).finish = .ok (tree.table pos 0).toArray) ∨
      (r ≠ start ∧ (r.builder pos offset).finish = .error .incompleteJson) := by
  obtain ⟨parts, focus⟩ := r
  cases focus with
  | value =>
    cases parts with
    | nil => exact Or.inl ⟨rfl, rfl⟩
    | cons part outer => exact Or.inr (Or.inr ⟨by simp [start], rfl⟩)
  | name before => exact Or.inr (Or.inr ⟨by simp [start], rfl⟩)
  | colon before key => exact Or.inr (Or.inr ⟨by simp [start], rfl⟩)
  | done tree =>
    cases parts with
    | nil => exact Or.inr (Or.inl ⟨tree, rfl, finish_done tree⟩)
    | cons part outer => exact Or.inr (Or.inr ⟨by simp [start], rfl⟩)

/-- The text may end where a tree has been read, and then the table is that of the tree. -/
theorem finish_builder {r : Reading} {tokens : Array Token} :
    (r.builder pos offset).finish = .ok tokens ↔
      ∃ tree, r = ⟨[], .done tree⟩ ∧ tokens = (tree.table pos 0).toArray := by
  constructor
  · intro h
    rcases r.finish_cases with ⟨_, hFinish⟩ | ⟨tree, hTree, hFinish⟩ | ⟨_, hFinish⟩
    · rw [hFinish] at h
      cases h
    · rw [hFinish] at h
      exact ⟨tree, hTree, (Except.ok.inj h).symm⟩
    · rw [hFinish] at h
      cases h
  · rintro ⟨tree, rfl, rfl⟩
    exact finish_done tree

end Reading

end SignReview.Json
