import SignReview.Proofs.Json.Compact
import Mathlib.Data.List.Flatten
import Mathlib.Data.List.Perm.Subperm

/-!
# Trees from the lexemes of another tree

Where a tree is changed by putting members elsewhere or leaving some out, its lexemes are among
those of the tree that it was before.  Such a tree is legal too, and not longer.

* `Tree.size_eq_countP`: the size of a tree is seen in its lexemes.
* `Tree.Legal.parse_of_subperm`: its compact text is read within the same limits.
* `Tree.Reorders`: the members of one object are put into another order, `Tree.Reorders.perm`: the
  lexemes of the tree are so too.
* `Tree.sublist_lexemes`: members are left out, and so are their lexemes.
-/

namespace SignReview.Json

namespace Tree

/-! ### A comma behind each member -/

theorem memberLexemes_comma {members : List (Bytes × Tree)} (h : members ≠ []) :
    memberLexemes members ++ [.comma] = membersBefore members := by
  obtain ⟨before, ⟨name, value⟩, rfl⟩ := (List.eq_nil_or_concat' members).resolve_left h
  rw [memberLexemes_concat, membersBefore_concat]
  simp

theorem elementLexemes_comma {elements : List Tree} (h : elements ≠ []) :
    elementLexemes elements ++ [.comma] = elementsBefore elements := by
  obtain ⟨before, element, rfl⟩ := (List.eq_nil_or_concat' elements).resolve_left h
  rw [elementLexemes_concat, elementsBefore_concat, List.append_assoc]

theorem perm_memberLexemes {members members' : List (Bytes × Tree)} (h : members ≠ [])
    (h' : members' ≠ []) (hPerm : (membersBefore members).Perm (membersBefore members')) :
    (memberLexemes members).Perm (memberLexemes members') := by
  rw [← memberLexemes_comma h, ← memberLexemes_comma h'] at hPerm
  exact (List.perm_append_right_iff _).mp hPerm

theorem perm_elementLexemes {elements elements' : List Tree} (h : elements ≠ [])
    (h' : elements' ≠ []) (hPerm : (elementsBefore elements).Perm (elementsBefore elements')) :
    (elementLexemes elements).Perm (elementLexemes elements') := by
  rw [← elementLexemes_comma h, ← elementLexemes_comma h'] at hPerm
  exact (List.perm_append_right_iff _).mp hPerm

/-! ### The size of a tree -/

end Tree

/-- Does a value or name begin with the lexeme? -/
def Lexeme.isNode : Lexeme → Bool
  | .opening _ | .string _ | .literal _ => true
  | _ => false

namespace Tree

open Lexeme (isNode)

theorem memberSize_eq_countP {members : List (Bytes × Tree)}
    (h : ∀ m ∈ members, m.2.size = m.2.lexemes.countP isNode) :
    memberSize members = (membersBefore members).countP isNode := by
  induction members with
  | nil => rfl
  | cons m members ih =>
    obtain ⟨name, value⟩ := m
    obtain ⟨hFirst, hRest⟩ := List.forall_mem_cons.mp h
    have hValue : value.size = value.lexemes.countP isNode := hFirst
    have hBefore : membersBefore ((name, value) :: members) =
        .string name :: .colon :: (value.lexemes ++ [.comma]) ++ membersBefore members := rfl
    have hName : isNode (.string name) = true := rfl
    have hColon : isNode .colon = false := rfl
    have hComma : [Lexeme.comma].countP isNode = 0 := rfl
    rw [hBefore, memberSize, ih hRest, List.countP_append, List.countP_cons_of_pos hName,
      List.countP_cons_of_neg (by simp [hColon]), List.countP_append, hComma, ← hValue]
    omega

theorem elementSize_eq_countP {elements : List Tree}
    (h : ∀ e ∈ elements, e.size = e.lexemes.countP isNode) :
    elementSize elements = (elementsBefore elements).countP isNode := by
  induction elements with
  | nil => rfl
  | cons e elements ih =>
    obtain ⟨hFirst, hRest⟩ := List.forall_mem_cons.mp h
    have hBefore : elementsBefore (e :: elements) =
        (e.lexemes ++ [.comma]) ++ elementsBefore elements := rfl
    have hComma : [Lexeme.comma].countP isNode = 0 := rfl
    rw [hBefore, elementSize, ih hRest, List.countP_append, List.countP_append, hComma, ← hFirst]
    omega

theorem size_eq_countP (tree : Tree) : tree.size = tree.lexemes.countP isNode := by
  induction tree using Tree.ind with
  | object members ih =>
    have hInner : memberSize members = (memberLexemes members).countP isNode := by
      by_cases hNil : members = []
      · rw [hNil]
        rfl
      · rw [memberSize_eq_countP ih, ← memberLexemes_comma hNil, List.countP_append]
        rfl
    rw [size, lexemes, List.countP_cons_of_pos rfl, List.countP_append, hInner]
    exact Nat.add_comm _ _
  | array elements ih =>
    have hInner : elementSize elements = (elementLexemes elements).countP isNode := by
      by_cases hNil : elements = []
      · rw [hNil]
        rfl
      · rw [elementSize_eq_countP ih, ← elementLexemes_comma hNil, List.countP_append]
        rfl
    rw [size, lexemes, List.countP_cons_of_pos rfl, List.countP_append, hInner]
    exact Nat.add_comm _ _
  | string contents => rfl
  | literal text => rfl

/-! ### Fewer lexemes -/

theorem length_flatMap_le {ls ls' : List Lexeme} (h : ls'.Subperm ls) :
    (ls'.flatMap Lexeme.text).length ≤ (ls.flatMap Lexeme.text).length := by
  obtain ⟨middle, hPerm, hSublist⟩ := h
  rw [(hPerm.symm.flatMap_right Lexeme.text).length_eq]
  exact (hSublist.flatMap Lexeme.text).length_le

/-- A tree whose lexemes are among those of another can be written and read within the same
limits. -/
theorem Legal.parse_of_subperm {tree tree' : Tree} (h : tree.Legal) {limits : Limits}
    (hLength : tree.compact.length ≤ limits.maxDocument) (hSize : tree.size ≤ limits.tokenBudget)
    (hSubperm : tree'.lexemes.Subperm tree.lexemes) :
    ∃ doc, Document.parse tree'.compact limits = .ok doc ∧ doc.Parsed tree'.lexemes tree' := by
  have hLegal : tree'.Legal := fun lexeme hMem => h lexeme (hSubperm.subset hMem)
  have hFewer : tree'.size ≤ tree.size := by
    rw [size_eq_countP, size_eq_countP]
    exact hSubperm.countP_le isNode
  exact hLegal.spells.exists_parsed (Nat.le_trans (length_flatMap_le hSubperm) hLength)
    (Nat.le_trans hFewer hSize)

/-! ### Members in another order -/

/-- The members of one object in the tree, which have different names, are put into another
order. -/
inductive Reorders : Tree → Tree → Prop
  | here {members members' : List (Bytes × Tree)} : members'.Perm members → members' ≠ members →
      (members.map Prod.fst).Nodup → Reorders (.object members) (.object members')
  | member {left right : List (Bytes × Tree)} {name : Bytes} {value value' : Tree} :
      Reorders value value' →
      Reorders (.object (left ++ (name, value) :: right))
        (.object (left ++ (name, value') :: right))
  | element {left right : List Tree} {element element' : Tree} : Reorders element element' →
      Reorders (.array (left ++ element :: right)) (.array (left ++ element' :: right))

theorem Reorders.perm {tree tree' : Tree} (h : Reorders tree tree') :
    tree'.lexemes.Perm tree.lexemes := by
  induction h with
  | @here members members' hPerm hNe _ =>
    have hSome' : members' ≠ [] := by
      rintro rfl
      exact hNe (List.nil_perm.mp hPerm).symm
    have hSome : members ≠ [] := by
      rintro rfl
      exact hNe (List.perm_nil.mp hPerm)
    exact ((perm_memberLexemes hSome' hSome (hPerm.flatMap_right _)).append_right _).cons _
  | @member left right name value value' _ ih =>
    have hBefore : (membersBefore (left ++ (name, value') :: right)).Perm
        (membersBefore (left ++ (name, value) :: right)) := by
      simp only [membersBefore, List.flatMap_append, List.flatMap_cons]
      exact (((((ih.append_right _).cons _).cons _).append_right _).append_left _)
    exact ((perm_memberLexemes (by simp) (by simp) hBefore).append_right _).cons _
  | @element left right element element' _ ih =>
    have hBefore : (elementsBefore (left ++ element' :: right)).Perm
        (elementsBefore (left ++ element :: right)) := by
      simp only [elementsBefore, List.flatMap_append, List.flatMap_cons]
      exact (((ih.append_right _).append_right _).append_left _)
    exact ((perm_elementLexemes (by simp) (by simp) hBefore).append_right _).cons _

/-! ### Fewer members -/

theorem sublist_memberLexemes {members members' : List (Bytes × Tree)}
    (h : members'.Sublist members) :
    (memberLexemes members').Sublist (memberLexemes members) := by
  by_cases hNil' : members' = []
  · rw [hNil']
    exact List.nil_sublist _
  · have hNil : members ≠ [] := by
      rintro rfl
      exact hNil' (List.sublist_nil.mp h)
    rw [← List.append_sublist_append_right [.comma], memberLexemes_comma hNil',
      memberLexemes_comma hNil]
    exact h.flatMap _

theorem sublist_lexemes {members members' : List (Bytes × Tree)} (h : members'.Sublist members) :
    (lexemes (.object members')).Sublist (lexemes (.object members)) :=
  ((sublist_memberLexemes h).append_right _).cons_cons _

end Tree

end SignReview.Json
