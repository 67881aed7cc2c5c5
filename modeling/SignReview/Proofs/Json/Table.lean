import SignReview.Proofs.Json.Reading

/-!
# The token table of a reading

`Builder` keeps tokens where `Reading` keeps trees.  `Reading.builder` is the builder that belongs
to a reading: the tokens of what is complete, and of each open container a token that bears the
mark.  The marks are what the builder needs to find the container around one that closes: a
container that is complete ends before the octet that is read, so that its end is not taken for the
mark.

* `Reading.size_le_of_run`: a run takes no token away.
* `Reading.lastOpen_partTable`: the innermost open container is found by its mark.
-/

namespace SignReview.Json

open Json.Tree

/-! ### The builder of a reading -/

namespace Part

def container : Part → Container
  | .member _ _ => .object
  | .element _ => .array

def size : Part → Nat
  | .member before _ => 1 + memberSize before + 1
  | .element before => 1 + elementSize before

def inner (pos : Nat → Nat) (k : Nat) : Part → List Token
  | .member before name =>
    memberTable pos (k + 1) before ++ [.quoted (pos (k + 1 + (membersBefore before).length)) name]
  | .element before => elementTable pos (k + 1) before

def table (pos : Nat → Nat) (k : Nat) (part : Part) : List Token :=
  ⟨part.container.kind, pos k, Token.openMark⟩ :: part.inner pos k

end Part

namespace Focus

def size : Focus → Nat
  | .value => 0
  | .name before => 1 + memberSize before
  | .colon before _ => 1 + memberSize before + 1
  | .done tree => tree.size

def table (pos : Nat → Nat) (k : Nat) : Focus → List Token
  | .value => []
  | .name before => ⟨.object, pos k, Token.openMark⟩ :: memberTable pos (k + 1) before
  | .colon before key => (Part.member before key).table pos k
  | .done tree => tree.table pos k

end Focus

namespace Reading

def partSize : List Part → Nat
  | [] => 0
  | part :: outer => partSize outer + part.size

def partTable (pos : Nat → Nat) : List Part → List Token
  | [] => []
  | part :: outer => partTable pos outer ++ part.table pos (partLexemes outer).length

/-- The number of the token of the innermost of several open containers. -/
def innermost : List Part → Option Nat
  | [] => none
  | _ :: outer => some (partSize outer)

def size (r : Reading) : Nat := partSize r.parts + r.focus.size

def table (pos : Nat → Nat) (r : Reading) : List Token :=
  partTable pos r.parts ++ r.focus.table pos (partLexemes r.parts).length

/-- The innermost open container, which may be an object whose next name is still to come. -/
def parent (r : Reading) : Option Nat :=
  match r.focus with
  | .name _ | .colon _ _ => some (partSize r.parts)
  | .value | .done _ => innermost r.parts

def expected (r : Reading) : Expected :=
  match r.focus, r.parts with
  | .name [], _ => .nameOrClose
  | .name (_ :: _), _ => .name
  | .colon _ _, _ => .colon
  | .value, .element [] :: _ => .valueOrClose
  | .value, _ => .value
  | .done _, parts => .afterValue (innermost parts)

/-- The builder that has read the same. -/
def builder (pos : Nat → Nat) (offset : Nat) (r : Reading) : Builder :=
  ⟨offset, (r.table pos).toArray, r.parent, r.expected⟩

def within (pos : Nat → Nat) (budget offset : Nat) (r : Reading) : Except Error Builder :=
  if r.size ≤ budget then .ok (r.builder pos offset) else .error .tooManyTokens

theorem start_builder (pos : Nat → Nat) : start.builder pos 0 = .start := rfl

end Reading

/-! ### Numbers of tokens -/

theorem Part.length_table (pos : Nat → Nat) (k : Nat) (part : Part) :
    (part.table pos k).length = part.size := by
  cases part with
  | member before name => simp [Part.table, Part.inner, Part.size]; omega
  | element before => simp [Part.table, Part.inner, Part.size]; omega

theorem Focus.length_table (pos : Nat → Nat) (k : Nat) (focus : Focus) :
    (focus.table pos k).length = focus.size := by
  cases focus with
  | value => rfl
  | name before => simp [Focus.table, Focus.size]; omega
  | colon before key => exact (Part.member before key).length_table pos k
  | done tree => simp [Focus.table, Focus.size]

namespace Reading

theorem length_partTable (pos : Nat → Nat) (parts : List Part) :
    (partTable pos parts).length = partSize parts := by
  induction parts with
  | nil => rfl
  | cons part outer ih => rw [partTable, List.length_append, ih, part.length_table, partSize]

theorem length_table (pos : Nat → Nat) (r : Reading) : (r.table pos).length = r.size := by
  rw [table, List.length_append, length_partTable, r.focus.length_table, size]

theorem size_le_of_step {r s : Reading} {lexeme : Lexeme} (h : r.step lexeme = .ok s) :
    r.size ≤ s.size := by
  cases step_eq_ok h
  all_goals simp [size, partSize, Part.size, Focus.size, Tree.size, Tree.memberSize,
    Tree.elementSize]
  all_goals omega

theorem size_le_of_run {ls : List Lexeme} {r s : Reading} (h : ls.foldlM step r = .ok s) :
    r.size ≤ s.size := by
  induction ls generalizing r with
  | nil =>
    obtain rfl := Except.ok.inj h
    exact Nat.le_refl _
  | cons lexeme ls ih =>
    cases hStep : r.step lexeme with
    | error e => rw [List.foldlM_cons, hStep] at h; cases h
    | ok next =>
      rw [foldlM_cons_ok hStep] at h
      exact Nat.le_trans (size_le_of_step hStep) (ih h)

end Reading

/-! ### Complete containers bear no mark -/

theorem Tree.stop_of_mem_elementTable {pos : Nat → Nat} {elements : List Tree}
    (h : ∀ e ∈ elements, ∀ k, ∀ token ∈ e.table pos k,
      token.isLeaf ∨ ∃ i < k + e.lexemes.length, token.stop = pos i + 1) (k : Nat) :
    ∀ token ∈ elementTable pos k elements,
      token.isLeaf ∨ ∃ i < k + (elementsBefore elements).length, token.stop = pos i + 1 := by
  induction elements generalizing k with
  | nil => intro token hToken; cases hToken
  | cons e elements ih =>
    have hLength : (elementsBefore (e :: elements)).length =
        e.lexemes.length + 1 + (elementsBefore elements).length := by
      simp [elementsBefore]; omega
    intro token hToken
    rw [elementTable, List.mem_append] at hToken
    rcases hToken with hToken | hToken
    · rcases h _ List.mem_cons_self _ token hToken with hLeaf | ⟨i, hi, hStop⟩
      · exact Or.inl hLeaf
      · exact Or.inr ⟨i, by omega, hStop⟩
    · rcases ih (fun d hd => h d (List.mem_cons_of_mem _ hd)) _ token hToken with
        hLeaf | ⟨i, hi, hStop⟩
      · exact Or.inl hLeaf
      · exact Or.inr ⟨i, by omega, hStop⟩

/-- The containers of a tree end behind their closing brackets. -/
theorem Tree.stop_of_mem_table (pos : Nat → Nat) (k : Nat) (tree : Tree) :
    ∀ token ∈ tree.table pos k,
      token.isLeaf ∨ ∃ i < k + tree.lexemes.length, token.stop = pos i + 1 := by
  induction tree using Tree.childrenInd generalizing k with
  | h tree ih =>
    have hLength := length_elementsBefore_children tree
    intro token hToken
    rw [table_eq, List.mem_cons] at hToken
    rcases hToken with rfl | hToken
    · cases tree with
      | object members => exact Or.inr ⟨_, by simp [lexemes]; omega, rfl⟩
      | array elements => exact Or.inr ⟨_, by simp [lexemes]; omega, rfl⟩
      | string contents => exact Or.inl rfl
      | literal text => exact Or.inl rfl
    · rcases stop_of_mem_elementTable (fun e he k => ih e he k) (k + 1) token hToken with
        hLeaf | ⟨i, hi, hStop⟩
      · exact Or.inl hLeaf
      · exact Or.inr ⟨i, by omega, hStop⟩

/-! ### Finding the container around one that closes -/

theorem Token.lastOpen_append (left : List Token) {token : Token} {inner rest : List Token}
    (hToken : token.isOpen) (hInner : ∀ t ∈ inner, t.isOpen = false) {n : Nat}
    (hn : n ≤ inner.length) :
    lastOpen (left ++ token :: (inner ++ rest)).toArray (left.length + n + 1) =
      some left.length := by
  induction n with
  | zero =>
    rw [lastOpen, if_pos]
    rw [List.getElem?_toArray, List.getElem?_append_right (Nat.le_refl _)]
    simpa using hToken
  | succ n ih =>
    have hClosed : inner[n].isOpen = false := hInner _ (List.getElem_mem _)
    have hEntry : (left ++ token :: (inner ++ rest)).toArray[left.length + (n + 1)]? =
        some inner[n] := by
      rw [List.getElem?_toArray, List.getElem?_append_right (by omega), Nat.add_sub_cancel_left,
        List.getElem?_cons_succ, List.getElem?_append_left hn, List.getElem?_eq_getElem hn]
    rw [lastOpen, if_neg]
    · exact ih (Nat.le_of_lt hn)
    · rw [hEntry, Option.any_some, hClosed]
      exact Bool.false_ne_true

theorem Part.isOpen_of_mem_inner {pos : Nat → Nat} {k : Nat} {part : Part}
    (h : ∀ i < k + part.lexemes.length, pos i + 1 < Token.openMark) :
    ∀ token ∈ part.inner pos k, token.isOpen = false := by
  have hClosed : ∀ token : Token, (token.isLeaf ∨ ∃ i < k + part.lexemes.length,
      token.stop = pos i + 1) → token.isOpen = false := by
    rintro token (hLeaf | ⟨i, hi, hStop⟩)
    · simp [Token.isOpen, hLeaf]
    · have hEnd := h i hi
      rw [← hStop] at hEnd
      simp [Token.isOpen, Nat.ne_of_lt hEnd]
  intro token hToken
  apply hClosed
  cases part with
  | member before name =>
    rw [inner, memberTable_eq, List.mem_append, List.mem_singleton] at hToken
    rcases hToken with hToken | rfl
    · rcases stop_of_mem_elementTable (fun e _ k => e.stop_of_mem_table pos k) _ token hToken with
        hLeaf | ⟨i, hi, hStop⟩
      · exact Or.inl hLeaf
      · refine Or.inr ⟨i, ?_, hStop⟩
        rw [← length_membersBefore] at hi
        simp only [Part.lexemes, List.length_cons, List.length_append]
        omega
    · exact Or.inl rfl
  | element before =>
    rcases stop_of_mem_elementTable (fun e _ k => e.stop_of_mem_table pos k) _ token hToken with
      hLeaf | ⟨i, hi, hStop⟩
    · exact Or.inl hLeaf
    · refine Or.inr ⟨i, ?_, hStop⟩
      simp only [Part.lexemes, List.length_cons]
      omega

namespace Reading

/-- The last mark in front of what open containers hold is that of the innermost of them. -/
theorem lastOpen_partTable {pos : Nat → Nat} {parts : List Part} (rest : List Token)
    (h : ∀ i < (partLexemes parts).length, pos i + 1 < Token.openMark) :
    Token.lastOpen (partTable pos parts ++ rest).toArray (partSize parts) = innermost parts := by
  cases parts with
  | nil => rfl
  | cons part outer =>
    have hInner : ∀ token ∈ part.inner pos (partLexemes outer).length, token.isOpen = false :=
      Part.isOpen_of_mem_inner fun i hi => h i (by simpa [partLexemes] using hi)
    have hSize : partSize (part :: outer) = (partTable pos outer).length +
        (part.inner pos (partLexemes outer).length).length + 1 := by
      rw [partSize, length_partTable, ← part.length_table pos (partLexemes outer).length,
        Part.table, List.length_cons]
      omega
    rw [hSize, innermost, ← length_partTable pos outer, partTable, Part.table, List.append_assoc,
      List.cons_append]
    exact Token.lastOpen_append _ (by cases part <;> rfl) hInner (Nat.le_refl _)

end Reading

end SignReview.Json
