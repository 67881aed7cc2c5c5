import SignReview.Proofs.Json.Scan
import SignReview.Proofs.Json.Tree

/-!
# Spellings of a tree

A tree may be written in many ways, which differ in the blanks between its lexemes.

* `Spells ls tree`: the lexemes `ls` are those of the tree, with any blanks before, between and
  behind them.
* `place`: where the lexemes of a spelling start, `Stands`: what stands there in the text.
* `Spells.lexemes_eq`: the text of a spelling is cut into the lexemes of the spelling.
-/

namespace SignReview.Json

open Lexeme

/-- The lexemes `ls` are those of the tree, blanks apart. -/
structure Spells (ls : List Lexeme) (tree : Tree) : Prop where
  legal : ∀ lexeme ∈ ls, lexeme.Legal
  filter_eq : ls.filter (!·.isBlank) = tree.lexemes

/-- The strings, names and literals of the tree are those of the grammar. -/
def Tree.Legal (tree : Tree) : Prop := ∀ lexeme ∈ tree.lexemes, lexeme.Legal

/-- The octet at which lexeme `k` starts, blanks not counted, if the first one starts at `offset`;
for a number that is too large, the end. -/
def place : Nat → List Lexeme → Nat → Nat
  | offset, [], _ => offset
  | offset, lexeme :: ls, k =>
    if lexeme.isBlank then
      place (offset + lexeme.text.length) ls k
    else
      match k with
      | 0 => offset
      | k + 1 => place (offset + lexeme.text.length) ls k

/-- The lexemes `ls`, the first of which is number `k`, stand in the text at their places. -/
def Stands (text : Bytes) (pos : Nat → Nat) : Nat → List Lexeme → Prop
  | k, [] => pos k ≤ text.length
  | k, lexeme :: ls =>
    lexeme.text <+: text.drop (pos k) ∧ pos k + lexeme.text.length ≤ pos (k + 1) ∧
      Stands text pos (k + 1) ls

/-! ### Places -/

theorem place_blank {lexeme : Lexeme} (h : lexeme.isBlank) (offset : Nat) (ls : List Lexeme)
    (k : Nat) : place offset (lexeme :: ls) k = place (offset + lexeme.text.length) ls k := by
  simp [place, h]

theorem place_zero {lexeme : Lexeme} (h : lexeme.isBlank = false) (offset : Nat)
    (ls : List Lexeme) : place offset (lexeme :: ls) 0 = offset := by
  simp [place, h]

theorem place_succ {lexeme : Lexeme} (h : lexeme.isBlank = false) (offset : Nat)
    (ls : List Lexeme) (k : Nat) :
    place offset (lexeme :: ls) (k + 1) = place (offset + lexeme.text.length) ls k := by
  simp [place, h]

theorem le_place (offset : Nat) (ls : List Lexeme) (k : Nat) : offset ≤ place offset ls k := by
  induction ls generalizing offset k with
  | nil => exact Nat.le_refl offset
  | cons lexeme ls ih =>
    have hRest : ∀ k, offset ≤ place (offset + lexeme.text.length) ls k :=
      fun k => Nat.le_trans (Nat.le_add_right _ _) (ih _ k)
    cases hBlank : lexeme.isBlank with
    | true =>
      rw [place_blank hBlank]
      exact hRest k
    | false =>
      cases k with
      | zero => exact Nat.le_of_eq (place_zero hBlank offset ls).symm
      | succ k => rw [place_succ hBlank]; exact hRest k

/-- Without blanks, a lexeme starts behind the text of those in front of it. -/
theorem place_append {left right : List Lexeme} (h : ∀ lexeme ∈ left, lexeme.isBlank = false)
    (hRight : ∀ lexeme ∈ right, lexeme.isBlank = false) (offset : Nat) :
    place offset (left ++ right) left.length = offset + (left.flatMap Lexeme.text).length := by
  induction left generalizing offset with
  | nil =>
    cases right with
    | nil => rfl
    | cons lexeme right => exact place_zero (hRight _ List.mem_cons_self) offset right
  | cons lexeme left ih =>
    rw [List.cons_append, List.length_cons, place_succ (h _ List.mem_cons_self),
      ih fun l hl => h l (List.mem_cons_of_mem _ hl), List.flatMap_cons, List.length_append,
      Nat.add_assoc]

theorem stands_place {text : Bytes} {pos : Nat → Nat} {before : Bytes} {k : Nat}
    {ls : List Lexeme} (hText : text = before ++ ls.flatMap Lexeme.text)
    (hPos : ∀ j, pos (k + j) = place before.length ls j) :
    Stands text pos k (ls.filter (!·.isBlank)) := by
  induction ls generalizing before k with
  | nil =>
    have hLast : pos k = before.length := hPos 0
    rw [List.filter_nil, Stands, hLast, hText]
    simp
  | cons lexeme ls ih =>
    have hBehind : text = (before ++ lexeme.text) ++ ls.flatMap Lexeme.text := by
      rw [hText, List.flatMap_cons, List.append_assoc]
    by_cases hBlank : lexeme.isBlank
    · rw [List.filter_cons_of_neg (by simp [hBlank])]
      refine ih hBehind fun j => ?_
      rw [hPos, place_blank hBlank, List.length_append]
    · rw [Bool.not_eq_true] at hBlank
      have hFirst : pos k = before.length := by
        have := hPos 0
        rwa [place_zero hBlank] at this
      have hRest : ∀ j, pos (k + 1 + j) = place (before ++ lexeme.text).length ls j := by
        intro j
        rw [show k + 1 + j = k + (j + 1) by omega, hPos, place_succ hBlank, List.length_append]
      rw [List.filter_cons_of_pos (by simp [hBlank])]
      refine ⟨?_, ?_, ih hBehind hRest⟩
      · rw [hFirst, hText, List.drop_left, List.flatMap_cons]
        exact List.prefix_append _ _
      · have hNext : pos (k + 1) = _ := hRest 0
        rw [hFirst, hNext, ← List.length_append]
        exact le_place _ _ _

/-! ### Reading a spelling -/

theorem Lexeme.Separated.cons {lexeme : Lexeme} {ls : List Lexeme} (h : Separated ls)
    (hLiteral : ∀ text, lexeme ≠ .literal text) : Separated (lexeme :: ls) :=
  ⟨fun text hText => absurd hText (hLiteral text), h⟩

namespace Tree

theorem separated_memberLexemes {members : List (Bytes × Tree)}
    (h : ∀ m ∈ members, Separated m.2.lexemes) : Separated (memberLexemes members) := by
  induction members with
  | nil => trivial
  | cons m members ih =>
    obtain ⟨name, value⟩ := m
    have hValue : Separated value.lexemes := h (name, value) List.mem_cons_self
    have hRest := ih fun n hn => h n (List.mem_cons_of_mem _ hn)
    cases members with
    | nil => exact (hValue.cons (by simp)).cons (by simp)
    | cons n members =>
      have hComma : Separated (.comma :: memberLexemes (n :: members)) := hRest.cons (by simp)
      exact ((hValue.append hComma (Or.inr ⟨.comma, rfl, rfl⟩)).cons (by simp)).cons (by simp)

theorem separated_elementLexemes {elements : List Tree}
    (h : ∀ e ∈ elements, Separated e.lexemes) : Separated (elementLexemes elements) := by
  induction elements with
  | nil => trivial
  | cons e elements ih =>
    have hFirst : Separated e.lexemes := h e List.mem_cons_self
    have hRest := ih fun d hd => h d (List.mem_cons_of_mem _ hd)
    cases elements with
    | nil => exact hFirst
    | cons d elements =>
      have hComma : Separated (.comma :: elementLexemes (d :: elements)) := hRest.cons (by simp)
      exact hFirst.append hComma (Or.inr ⟨.comma, rfl, rfl⟩)

/-- In a tree, only a comma or a closing bracket follows a literal. -/
theorem separated_lexemes (tree : Tree) : Separated tree.lexemes := by
  have hClosing : ∀ c, Separated [.closing c] := fun c => Separated.cons trivial (by simp)
  induction tree using Tree.ind with
  | object members ih =>
    exact ((separated_memberLexemes ih).append (hClosing .object)
      (Or.inr ⟨_, rfl, rfl⟩)).cons (by simp)
  | array elements ih =>
    exact ((separated_elementLexemes ih).append (hClosing .array)
      (Or.inr ⟨_, rfl, rfl⟩)).cons (by simp)
  | string contents => exact Separated.cons trivial (by simp)
  | literal text => exact ⟨fun _ _ _ hNext => (by cases hNext), trivial⟩

theorem isBlank_of_mem_members {members : List (Bytes × Tree)}
    (h : ∀ m ∈ members, ∀ lexeme ∈ m.2.lexemes, lexeme.isBlank = false) :
    ∀ lexeme ∈ memberLexemes members, lexeme.isBlank = false := by
  induction members with
  | nil => intro lexeme hMem; cases hMem
  | cons m members ih =>
    obtain ⟨name, value⟩ := m
    have hValue : ∀ lexeme ∈ value.lexemes, lexeme.isBlank = false :=
      h (name, value) List.mem_cons_self
    have hRest := ih fun n hn => h n (List.mem_cons_of_mem _ hn)
    cases members with
    | nil => simpa [memberLexemes, isBlank] using hValue
    | cons n members =>
      simp only [memberLexemes, List.forall_mem_cons, List.forall_mem_append]
      exact ⟨rfl, rfl, hValue, rfl, hRest⟩

theorem isBlank_of_mem_elements {elements : List Tree}
    (h : ∀ e ∈ elements, ∀ lexeme ∈ e.lexemes, lexeme.isBlank = false) :
    ∀ lexeme ∈ elementLexemes elements, lexeme.isBlank = false := by
  induction elements with
  | nil => intro lexeme hMem; cases hMem
  | cons e elements ih =>
    have hFirst := h e List.mem_cons_self
    have hRest := ih fun d hd => h d (List.mem_cons_of_mem _ hd)
    cases elements with
    | nil => exact hFirst
    | cons d elements =>
      simp only [elementLexemes, List.forall_mem_cons, List.forall_mem_append]
      exact ⟨hFirst, rfl, hRest⟩

theorem isBlank_of_mem (tree : Tree) : ∀ lexeme ∈ tree.lexemes, lexeme.isBlank = false := by
  induction tree using Tree.ind with
  | object members ih =>
    simp only [lexemes, List.forall_mem_cons, List.forall_mem_append]
    exact ⟨rfl, isBlank_of_mem_members ih, rfl, by simp⟩
  | array elements ih =>
    simp only [lexemes, List.forall_mem_cons, List.forall_mem_append]
    exact ⟨rfl, isBlank_of_mem_elements ih, rfl, by simp⟩
  | string contents => simp [lexemes, isBlank]
  | literal text => simp [lexemes, isBlank]

end Tree

theorem Tree.Legal.spells {tree : Tree} (h : tree.Legal) : Spells tree.lexemes tree where
  legal := h
  filter_eq := List.filter_eq_self.mpr fun lexeme hMem => by simp [tree.isBlank_of_mem lexeme hMem]

namespace Spells

variable {ls : List Lexeme} {tree : Tree}

theorem separated (h : Spells ls tree) : Separated ls :=
  separated_of_filter (h.filter_eq ▸ tree.separated_lexemes)

/-- The text of a spelling is cut into the lexemes of the spelling. -/
theorem lexemes_eq (h : Spells ls tree) : Json.lexemes (ls.flatMap Lexeme.text) = ls :=
  lexemes_flatMap_text h.legal h.separated

theorem tree_legal (h : Spells ls tree) : tree.Legal := fun lexeme hMem =>
  h.legal lexeme (List.mem_filter.mp (h.filter_eq ▸ hMem)).1

theorem stands (h : Spells ls tree) :
    Stands (ls.flatMap Lexeme.text) (place 0 ls) 0 tree.lexemes := by
  rw [← h.filter_eq]
  exact stands_place (List.nil_append _).symm fun j => by rw [Nat.zero_add]; rfl

end Spells

end SignReview.Json
