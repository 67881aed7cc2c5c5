import SignReview.Json.Token
import SignReview.Proofs.Json.Grammar

/-!
# Trees

The value that a JSON text denotes.  Strings, names and literals are kept as they are written, so
that a tree has one compact text; members keep their order, and a name may occur twice.

* `Tree.lexemes`: the lexemes of the tree without blanks, `Tree.compact`: their text.
* `Tree.size`: the number of values and names.
* `Tree.table`: the token table, given where each lexeme starts.
* `Tree.ind`: induction, with the hypothesis for all elements or members at once.
-/

namespace SignReview.Json

inductive Tree
  | object (members : List (Bytes × Tree))
  | array (elements : List Tree)
  | string (contents : Bytes)
  | literal (text : Bytes)

def Token.quoted (start : Nat) (contents : Bytes) : Token :=
  ⟨.string, start + 1, start + 1 + contents.length⟩

def Token.word (start : Nat) (text : Bytes) : Token := ⟨.primitive, start, start + text.length⟩

namespace Tree

theorem ind {P : Tree → Prop}
    (object : ∀ members : List (Bytes × Tree), (∀ m ∈ members, P m.2) → P (.object members))
    (array : ∀ elements : List Tree, (∀ e ∈ elements, P e) → P (.array elements))
    (string : ∀ contents, P (.string contents)) (literal : ∀ text, P (.literal text))
    (tree : Tree) : P tree := by
  refine @Tree.rec P (fun members => ∀ m ∈ members, P m.2) (fun elements => ∀ e ∈ elements, P e)
    (fun m => P m.2) object array string literal ?_ ?_ ?_ ?_ (fun _ _ h => h) tree
  · intro m hm; cases hm
  · intro m members hm hMembers n hn
    rcases List.mem_cons.mp hn with rfl | hn
    · exact hm
    · exact hMembers n hn
  · intro e he; cases he
  · intro e elements he hElements d hd
    rcases List.mem_cons.mp hd with rfl | hd
    · exact he
    · exact hElements d hd

/-! ### The lexemes of a tree -/

mutual

def lexemes : Tree → List Lexeme
  | .object members => .opening .object :: (memberLexemes members ++ [.closing .object])
  | .array elements => .opening .array :: (elementLexemes elements ++ [.closing .array])
  | .string contents => [.string contents]
  | .literal text => [.literal text]
termination_by structural tree => tree

def memberLexemes : List (Bytes × Tree) → List Lexeme
  | [] => []
  | [(name, value)] => .string name :: .colon :: value.lexemes
  | (name, value) :: members =>
    .string name :: .colon :: (value.lexemes ++ .comma :: memberLexemes members)
termination_by structural members => members

def elementLexemes : List Tree → List Lexeme
  | [] => []
  | [element] => element.lexemes
  | element :: elements => element.lexemes ++ .comma :: elementLexemes elements
termination_by structural elements => elements

end

/-- The text of a tree without blanks. -/
def compact (tree : Tree) : Bytes := tree.lexemes.flatMap Lexeme.text

/-- Members, each with a comma behind it. -/
def membersBefore (members : List (Bytes × Tree)) : List Lexeme :=
  members.flatMap fun m => .string m.1 :: .colon :: (m.2.lexemes ++ [.comma])

def elementsBefore (elements : List Tree) : List Lexeme :=
  elements.flatMap fun e => e.lexemes ++ [.comma]

@[simp] theorem membersBefore_nil : membersBefore [] = [] := rfl

@[simp] theorem membersBefore_concat (members : List (Bytes × Tree)) (m : Bytes × Tree) :
    membersBefore (members ++ [m]) =
      membersBefore members ++ .string m.1 :: .colon :: (m.2.lexemes ++ [.comma]) := by
  simp [membersBefore]

@[simp] theorem elementsBefore_nil : elementsBefore [] = [] := rfl

@[simp] theorem elementsBefore_concat (elements : List Tree) (e : Tree) :
    elementsBefore (elements ++ [e]) = elementsBefore elements ++ (e.lexemes ++ [.comma]) := by
  simp [elementsBefore]

theorem memberLexemes_cons {members : List (Bytes × Tree)} (h : members ≠ []) (name : Bytes)
    (value : Tree) : memberLexemes ((name, value) :: members) =
      .string name :: .colon :: (value.lexemes ++ .comma :: memberLexemes members) := by
  cases members with
  | nil => exact absurd rfl h
  | cons m members => rfl

theorem elementLexemes_cons {elements : List Tree} (h : elements ≠ []) (e : Tree) :
    elementLexemes (e :: elements) = e.lexemes ++ .comma :: elementLexemes elements := by
  cases elements with
  | nil => exact absurd rfl h
  | cons d elements => rfl

theorem memberLexemes_concat (members : List (Bytes × Tree)) (name : Bytes) (value : Tree) :
    memberLexemes (members ++ [(name, value)]) =
      membersBefore members ++ .string name :: .colon :: value.lexemes := by
  induction members with
  | nil => rfl
  | cons m members ih =>
    obtain ⟨first, inner⟩ := m
    rw [List.cons_append, memberLexemes_cons (by simp), ih]
    simp [membersBefore]

theorem elementLexemes_concat (elements : List Tree) (e : Tree) :
    elementLexemes (elements ++ [e]) = elementsBefore elements ++ e.lexemes := by
  induction elements with
  | nil => rfl
  | cons d elements ih =>
    rw [List.cons_append, elementLexemes_cons (by simp), ih]
    simp [elementsBefore]

/-! ### The number of nodes -/

mutual

def size : Tree → Nat
  | .object members => 1 + memberSize members
  | .array elements => 1 + elementSize elements
  | .string _ => 1
  | .literal _ => 1
termination_by structural tree => tree

def memberSize : List (Bytes × Tree) → Nat
  | [] => 0
  | (_, value) :: members => 1 + value.size + memberSize members
termination_by structural members => members

def elementSize : List Tree → Nat
  | [] => 0
  | element :: elements => element.size + elementSize elements
termination_by structural elements => elements

end

@[simp] theorem memberSize_concat (members : List (Bytes × Tree)) (name : Bytes) (value : Tree) :
    memberSize (members ++ [(name, value)]) = memberSize members + 1 + value.size := by
  induction members with
  | nil => simp [memberSize]
  | cons m members ih => simp only [List.cons_append, memberSize, ih]; omega

@[simp] theorem elementSize_concat (elements : List Tree) (e : Tree) :
    elementSize (elements ++ [e]) = elementSize elements + e.size := by
  induction elements with
  | nil => simp [elementSize]
  | cons d elements ih => simp only [List.cons_append, elementSize, ih]; omega

theorem size_pos (tree : Tree) : 0 < tree.size := by
  cases tree with
  | object members => exact Nat.lt_add_right _ Nat.zero_lt_one
  | array elements => exact Nat.lt_add_right _ Nat.zero_lt_one
  | string contents => exact Nat.zero_lt_one
  | literal text => exact Nat.zero_lt_one

/-! ### The token table of a tree -/

mutual

/-- The tokens of a tree in document order, its first lexeme being number `k` and lexeme number `i`
starting at octet `pos i`. -/
def table (pos : Nat → Nat) : Nat → Tree → List Token
  | k, .object members =>
    ⟨.object, pos k, pos (k + 1 + (memberLexemes members).length) + 1⟩ ::
      memberTable pos (k + 1) members
  | k, .array elements =>
    ⟨.array, pos k, pos (k + 1 + (elementLexemes elements).length) + 1⟩ ::
      elementTable pos (k + 1) elements
  | k, .string contents => [.quoted (pos k) contents]
  | k, .literal text => [.word (pos k) text]
termination_by structural _ tree => tree

def memberTable (pos : Nat → Nat) : Nat → List (Bytes × Tree) → List Token
  | _, [] => []
  | k, (name, value) :: members =>
    .quoted (pos k) name :: (table pos (k + 2) value ++
      memberTable pos (k + 2 + value.lexemes.length + 1) members)
termination_by structural _ members => members

def elementTable (pos : Nat → Nat) : Nat → List Tree → List Token
  | _, [] => []
  | k, element :: elements =>
    table pos k element ++ elementTable pos (k + element.lexemes.length + 1) elements
termination_by structural _ elements => elements

end

theorem memberTable_concat (pos : Nat → Nat) (k : Nat) (members : List (Bytes × Tree))
    (name : Bytes) (value : Tree) :
    memberTable pos k (members ++ [(name, value)]) = memberTable pos k members ++
      .quoted (pos (k + (membersBefore members).length)) name ::
        table pos (k + (membersBefore members).length + 2) value := by
  induction members generalizing k with
  | nil => simp [memberTable]
  | cons m members ih =>
    obtain ⟨first, inner⟩ := m
    have hNumber : k + 2 + inner.lexemes.length + 1 + (membersBefore members).length =
        k + (membersBefore ((first, inner) :: members)).length := by
      simp only [membersBefore, List.flatMap_cons, List.length_append, List.length_cons,
        List.length_nil]
      omega
    simp only [List.cons_append, memberTable, ih, hNumber, List.append_assoc]

theorem elementTable_concat (pos : Nat → Nat) (k : Nat) (elements : List Tree) (e : Tree) :
    elementTable pos k (elements ++ [e]) =
      elementTable pos k elements ++ table pos (k + (elementsBefore elements).length) e := by
  induction elements generalizing k with
  | nil => simp [elementTable]
  | cons d elements ih =>
    have hNumber : k + d.lexemes.length + 1 + (elementsBefore elements).length =
        k + (elementsBefore (d :: elements)).length := by
      simp only [elementsBefore, List.flatMap_cons, List.length_append, List.length_cons,
        List.length_nil]
      omega
    simp only [List.cons_append, elementTable, ih, hNumber, List.append_assoc]

theorem length_memberTable_of {pos : Nat → Nat} {members : List (Bytes × Tree)}
    (h : ∀ m ∈ members, ∀ k, (table pos k m.2).length = m.2.size) (k : Nat) :
    (memberTable pos k members).length = memberSize members := by
  induction members generalizing k with
  | nil => rfl
  | cons m members ih =>
    have hRest := ih (fun n hn => h n (by simp [hn]))
    simp only [memberTable, memberSize, List.length_cons, List.length_append, hRest,
      h m (by simp)]
    omega

theorem length_elementTable_of {pos : Nat → Nat} {elements : List Tree}
    (h : ∀ e ∈ elements, ∀ k, (table pos k e).length = e.size) (k : Nat) :
    (elementTable pos k elements).length = elementSize elements := by
  induction elements generalizing k with
  | nil => rfl
  | cons e elements ih =>
    have hRest := ih (fun d hd => h d (by simp [hd]))
    simp only [elementTable, elementSize, List.length_append, hRest, h e (by simp)]

/-- There is one token for each value and each name. -/
@[simp] theorem length_table (pos : Nat → Nat) (k : Nat) (tree : Tree) :
    (table pos k tree).length = tree.size := by
  induction tree using Tree.ind generalizing k with
  | object members ih => simp [table, size, length_memberTable_of ih, Nat.add_comm]
  | array elements ih => simp [table, size, length_elementTable_of ih, Nat.add_comm]
  | string contents => simp [table, size]
  | literal text => simp [table, size]

@[simp] theorem length_memberTable (pos : Nat → Nat) (k : Nat) (members : List (Bytes × Tree)) :
    (memberTable pos k members).length = memberSize members :=
  length_memberTable_of (fun m _ k => length_table pos k m.2) k

@[simp] theorem length_elementTable (pos : Nat → Nat) (k : Nat) (elements : List Tree) :
    (elementTable pos k elements).length = elementSize elements :=
  length_elementTable_of (fun e _ k => length_table pos k e) k

/-! ### Children -/

/-- Names and values by turns, the names as strings. -/
def inTurns : List (Bytes × Tree) → List Tree
  | [] => []
  | (name, value) :: members => .string name :: value :: inTurns members

/-- What a container holds, names among it. -/
def children : Tree → List Tree
  | .object members => inTurns members
  | .array elements => elements
  | .string _ | .literal _ => []

def token (pos : Nat → Nat) (k : Nat) : Tree → Token
  | .object members => ⟨.object, pos k, pos (k + 1 + (memberLexemes members).length) + 1⟩
  | .array elements => ⟨.array, pos k, pos (k + 1 + (elementLexemes elements).length) + 1⟩
  | .string contents => .quoted (pos k) contents
  | .literal text => .word (pos k) text

theorem mem_inTurns {members : List (Bytes × Tree)} {tree : Tree} (h : tree ∈ inTurns members) :
    (∃ name, tree = .string name) ∨ ∃ m ∈ members, tree = m.2 := by
  induction members with
  | nil => cases h
  | cons m members ih =>
    obtain ⟨name, value⟩ := m
    rw [inTurns, List.mem_cons, List.mem_cons] at h
    rcases h with rfl | rfl | h
    · exact Or.inl ⟨name, rfl⟩
    · exact Or.inr ⟨_, List.mem_cons_self, rfl⟩
    · rcases ih h with hName | ⟨m, hm, rfl⟩
      · exact Or.inl hName
      · exact Or.inr ⟨m, List.mem_cons_of_mem _ hm, rfl⟩

/-- Induction that does not tell members and elements apart. -/
theorem childrenInd {P : Tree → Prop} (h : ∀ tree, (∀ child ∈ tree.children, P child) → P tree)
    (tree : Tree) : P tree := by
  induction tree using Tree.ind with
  | object members ih =>
    refine h _ fun child hChild => ?_
    rcases mem_inTurns hChild with ⟨name, rfl⟩ | ⟨m, hm, rfl⟩
    · exact h _ fun _ hMem => by cases hMem
    · exact ih m hm
  | array elements ih => exact h _ ih
  | string contents => exact h _ fun _ hMem => by cases hMem
  | literal text => exact h _ fun _ hMem => by cases hMem

/-- A member is a name and a value with one lexeme between them, as there is one between
elements. -/
theorem memberTable_eq (pos : Nat → Nat) (k : Nat) (members : List (Bytes × Tree)) :
    memberTable pos k members = elementTable pos k (inTurns members) := by
  induction members generalizing k with
  | nil => rfl
  | cons m members ih =>
    obtain ⟨name, value⟩ := m
    rw [memberTable, ih]
    rfl

theorem table_eq (pos : Nat → Nat) (k : Nat) (tree : Tree) :
    tree.table pos k = tree.token pos k :: elementTable pos (k + 1) tree.children := by
  cases tree with
  | object members => rw [table, memberTable_eq]; rfl
  | array elements => rfl
  | string contents => rfl
  | literal text => rfl

theorem length_membersBefore (members : List (Bytes × Tree)) :
    (membersBefore members).length = (elementsBefore (inTurns members)).length := by
  induction members with
  | nil => rfl
  | cons m members ih =>
    obtain ⟨name, value⟩ := m
    have hFirst : (membersBefore ((name, value) :: members)).length =
        value.lexemes.length + 3 + (membersBefore members).length := by
      simp [membersBefore]; omega
    have hTurn : (elementsBefore (inTurns ((name, value) :: members))).length =
        value.lexemes.length + 3 + (elementsBefore (inTurns members)).length := by
      simp [elementsBefore, inTurns, lexemes]; omega
    rw [hFirst, hTurn, ih]

theorem length_membersBefore_le (members : List (Bytes × Tree)) :
    (membersBefore members).length ≤ (memberLexemes members).length + 1 := by
  induction members with
  | nil => simp
  | cons m members ih =>
    obtain ⟨name, value⟩ := m
    cases members with
    | nil => simp [membersBefore, memberLexemes]
    | cons n members =>
      rw [memberLexemes_cons (by simp)]
      simp only [membersBefore, List.flatMap_cons, List.length_append, List.length_cons,
        List.length_nil] at ih ⊢
      omega

theorem length_elementsBefore_le (elements : List Tree) :
    (elementsBefore elements).length ≤ (elementLexemes elements).length + 1 := by
  induction elements with
  | nil => simp
  | cons e elements ih =>
    cases elements with
    | nil => simp [elementsBefore, elementLexemes]
    | cons d elements =>
      rw [elementLexemes_cons (by simp)]
      simp only [elementsBefore, List.flatMap_cons, List.length_append, List.length_cons,
        List.length_nil] at ih ⊢
      omega

/-- Brackets take as much room as a separator behind each child, and one more for the first. -/
theorem length_elementsBefore_children (tree : Tree) :
    (elementsBefore tree.children).length + 1 ≤ tree.lexemes.length := by
  cases tree with
  | object members =>
    have hLength := length_membersBefore_le members
    simp only [children, ← length_membersBefore, lexemes, List.length_cons, List.length_append,
      List.length_nil]
    omega
  | array elements =>
    have hLength := length_elementsBefore_le elements
    simp only [children, lexemes, List.length_cons, List.length_append, List.length_nil]
    omega
  | string contents => exact Nat.le_refl 1
  | literal text => exact Nat.le_refl 1

end Tree

end SignReview.Json
