import SignReview.Proofs.Json.Spelling

/-!
# Reading a tree

A second reader of lexemes, which keeps trees where `Builder` keeps tokens.  What has been read at
some point is a list of containers that are not closed yet, with all that is complete in them, and
one more thing that is being read (`Focus`).  Every such state is the reading of some lexemes,
`Reading.lexemes`, and a step adds the lexeme that it reads:

* `Reading.lexemes_of_step`, `Reading.lexemes_of_run`: what is read is what has been given.
* `Reading.run_lexemes`: the lexemes of a tree are read as the tree.
* `Tree.lexemes_injective`: so two trees do not have the same lexemes.
-/

namespace SignReview.Json

theorem foldlM_cons_ok {α β ε : Type} {f : β → α → Except ε β} {b c : β} {a : α} {l : List α}
    (h : f b a = .ok c) : (a :: l).foldlM f b = l.foldlM f c := by
  rw [List.foldlM_cons, h]
  rfl

/-- A container that is not closed, with what is complete in it; a value is being read. -/
inductive Part
  | member (before : List (Bytes × Tree)) (name : Bytes)
  | element (before : List Tree)

inductive Focus
  /-- A value. -/
  | value
  /-- The name of a member behind others, or the end of an object without members. -/
  | name (before : List (Bytes × Tree))
  /-- The colon behind a name. -/
  | colon (before : List (Bytes × Tree)) (name : Bytes)
  /-- What follows a value. -/
  | done (tree : Tree)

/-- What has been read of a text: the innermost open container is the first. -/
structure Reading where
  parts : List Part
  focus : Focus

namespace Reading

def start : Reading := ⟨[], .value⟩

def step (r : Reading) (lexeme : Lexeme) : Except Error Reading :=
  match lexeme, r.focus, r.parts with
  | .blank _, _, _ => .ok r
  | .opening .object, .value, parts => .ok ⟨parts, .name []⟩
  | .opening .array, .value, parts => .ok ⟨.element [] :: parts, .value⟩
  | .closing .object, .name [], parts => .ok ⟨parts, .done (.object [])⟩
  | .closing .object, .done value, .member before name :: parts =>
    .ok ⟨parts, .done (.object (before ++ [(name, value)]))⟩
  | .closing .array, .value, .element [] :: parts => .ok ⟨parts, .done (.array [])⟩
  | .closing .array, .done value, .element before :: parts =>
    .ok ⟨parts, .done (.array (before ++ [value]))⟩
  | .colon, .colon before name, parts => .ok ⟨.member before name :: parts, .value⟩
  | .comma, .done value, .member before name :: parts =>
    .ok ⟨parts, .name (before ++ [(name, value)])⟩
  | .comma, .done value, .element before :: parts =>
    .ok ⟨.element (before ++ [value]) :: parts, .value⟩
  | .string contents, .name before, parts => .ok ⟨parts, .colon before contents⟩
  | .string contents, .value, parts => .ok ⟨parts, .done (.string contents)⟩
  | .literal text, .value, parts => .ok ⟨parts, .done (.literal text)⟩
  | .unclosed _, .value, _ => .error .incompleteJson
  | .unclosed _, .name _, _ => .error .incompleteJson
  | _, _, _ => .error .unexpectedCharacters

/-- The steps that succeed. -/
inductive Step : Reading → Lexeme → Reading → Prop
  | blank (r : Reading) (c : UInt8) : Step r (.blank c) r
  | openObject (parts : List Part) : Step ⟨parts, .value⟩ (.opening .object) ⟨parts, .name []⟩
  | openArray (parts : List Part) :
      Step ⟨parts, .value⟩ (.opening .array) ⟨.element [] :: parts, .value⟩
  | emptyObject (parts : List Part) :
      Step ⟨parts, .name []⟩ (.closing .object) ⟨parts, .done (.object [])⟩
  | closeObject (parts : List Part) (before : List (Bytes × Tree)) (name : Bytes) (value : Tree) :
      Step ⟨.member before name :: parts, .done value⟩ (.closing .object)
        ⟨parts, .done (.object (before ++ [(name, value)]))⟩
  | emptyArray (parts : List Part) :
      Step ⟨.element [] :: parts, .value⟩ (.closing .array) ⟨parts, .done (.array [])⟩
  | closeArray (parts : List Part) (before : List Tree) (value : Tree) :
      Step ⟨.element before :: parts, .done value⟩ (.closing .array)
        ⟨parts, .done (.array (before ++ [value]))⟩
  | colon (parts : List Part) (before : List (Bytes × Tree)) (name : Bytes) :
      Step ⟨parts, .colon before name⟩ .colon ⟨.member before name :: parts, .value⟩
  | nextMember (parts : List Part) (before : List (Bytes × Tree)) (name : Bytes) (value : Tree) :
      Step ⟨.member before name :: parts, .done value⟩ .comma
        ⟨parts, .name (before ++ [(name, value)])⟩
  | nextElement (parts : List Part) (before : List Tree) (value : Tree) :
      Step ⟨.element before :: parts, .done value⟩ .comma
        ⟨.element (before ++ [value]) :: parts, .value⟩
  | name (parts : List Part) (before : List (Bytes × Tree)) (contents : Bytes) :
      Step ⟨parts, .name before⟩ (.string contents) ⟨parts, .colon before contents⟩
  | string (parts : List Part) (contents : Bytes) :
      Step ⟨parts, .value⟩ (.string contents) ⟨parts, .done (.string contents)⟩
  | literal (parts : List Part) (text : Bytes) :
      Step ⟨parts, .value⟩ (.literal text) ⟨parts, .done (.literal text)⟩

theorem Step.of_closing {parts : List Part} {focus : Focus} {c : Container} {s : Reading}
    (h : step ⟨parts, focus⟩ (.closing c) = .ok s) : Step ⟨parts, focus⟩ (.closing c) s := by
  match c, focus, parts, h with
  | .object, .name [], parts, h =>
    cases h
    exact .emptyObject parts
  | .object, .done value, .member before key :: parts, h =>
    cases h
    exact .closeObject parts before key value
  | .array, .value, .element [] :: parts, h =>
    cases h
    exact .emptyArray parts
  | .array, .done value, .element before :: parts, h =>
    cases h
    exact .closeArray parts before value

theorem step_eq_ok {r s : Reading} {lexeme : Lexeme} (h : r.step lexeme = .ok s) :
    Step r lexeme s := by
  obtain ⟨parts, focus⟩ := r
  match lexeme, focus, parts, h with
  | .blank c, focus, parts, h =>
    cases h
    exact .blank _ c
  | .opening .object, .value, parts, h =>
    cases h
    exact .openObject parts
  | .opening .array, .value, parts, h =>
    cases h
    exact .openArray parts
  | .closing c, focus, parts, h => exact .of_closing h
  | .colon, .colon before key, parts, h =>
    cases h
    exact .colon parts before key
  | .comma, .done value, .member before key :: parts, h =>
    cases h
    exact .nextMember parts before key value
  | .comma, .done value, .element before :: parts, h =>
    cases h
    exact .nextElement parts before value
  | .string contents, .name before, parts, h =>
    cases h
    exact .name parts before contents
  | .string contents, .value, parts, h =>
    cases h
    exact .string parts contents
  | .literal text, .value, parts, h =>
    cases h
    exact .literal parts text

end Reading

/-! ### What has been read -/

def Part.lexemes : Part → List Lexeme
  | .member before name =>
    .opening .object :: (Tree.membersBefore before ++ [.string name, .colon])
  | .element before => .opening .array :: Tree.elementsBefore before

def Focus.lexemes : Focus → List Lexeme
  | .value => []
  | .name before => .opening .object :: Tree.membersBefore before
  | .colon before key => .opening .object :: (Tree.membersBefore before ++ [.string key])
  | .done tree => tree.lexemes

namespace Reading

def partLexemes : List Part → List Lexeme
  | [] => []
  | part :: outer => partLexemes outer ++ part.lexemes

/-- The lexemes that have been read, blanks apart. -/
def lexemes (r : Reading) : List Lexeme := partLexemes r.parts ++ r.focus.lexemes

theorem lexemes_of_step {r s : Reading} {lexeme : Lexeme} (h : r.step lexeme = .ok s)
    (hBlank : lexeme.isBlank = false) : s.lexemes = r.lexemes ++ [lexeme] := by
  cases step_eq_ok h
  case blank => cases hBlank
  all_goals simp [lexemes, partLexemes, Part.lexemes, Focus.lexemes, Tree.lexemes,
    Tree.memberLexemes_concat, Tree.elementLexemes_concat, Tree.memberLexemes,
    Tree.elementLexemes]

theorem step_of_isBlank (r : Reading) {lexeme : Lexeme} (h : lexeme.isBlank) :
    r.step lexeme = .ok r := by
  cases lexeme with
  | blank c => rfl
  | _ => cases h

/-- What has been read by a run is what was read before, and the lexemes of the run. -/
theorem lexemes_of_run {ls : List Lexeme} {r s : Reading} (h : ls.foldlM step r = .ok s) :
    s.lexemes = r.lexemes ++ ls.filter (!·.isBlank) := by
  induction ls generalizing r with
  | nil =>
    obtain rfl := Except.ok.inj h
    simp
  | cons lexeme ls ih =>
    cases hStep : r.step lexeme with
    | error e => rw [List.foldlM_cons, hStep] at h; cases h
    | ok next =>
      rw [foldlM_cons_ok hStep] at h
      cases hBlank : lexeme.isBlank with
      | true =>
        rw [step_of_isBlank r hBlank] at hStep
        obtain rfl := Except.ok.inj hStep
        rw [ih h, List.filter_cons_of_neg (by simp [hBlank])]
      | false =>
        rw [ih h, lexemes_of_step hStep hBlank, List.filter_cons_of_pos (by simp [hBlank])]
        simp

/-! ### Reading the lexemes of a tree -/

theorem run_members {members : List (Bytes × Tree)}
    (h : ∀ m ∈ members, ∀ parts, m.2.lexemes.foldlM step ⟨parts, .value⟩ = .ok ⟨parts, .done m.2⟩)
    (hMembers : members ≠ []) (before : List (Bytes × Tree)) (parts : List Part) :
    (Tree.memberLexemes members ++ [Lexeme.closing .object]).foldlM step ⟨parts, .name before⟩ =
      .ok ⟨parts, .done (.object (before ++ members))⟩ := by
  induction members generalizing before with
  | nil => exact absurd rfl hMembers
  | cons m members ih =>
    obtain ⟨name, value⟩ := m
    have hValue : value.lexemes.foldlM step ⟨.member before name :: parts, .value⟩ =
        .ok ⟨.member before name :: parts, .done value⟩ := h (name, value) List.mem_cons_self _
    cases members with
    | nil =>
      rw [Tree.memberLexemes, List.cons_append, List.cons_append, foldlM_cons_ok rfl,
        foldlM_cons_ok rfl, List.foldlM_append, hValue]
      rfl
    | cons n members =>
      have hRest := ih (fun k hk => h k (List.mem_cons_of_mem _ hk)) (by simp)
        (before ++ [(name, value)])
      rw [Tree.memberLexemes_cons (by simp), List.cons_append, List.cons_append,
        List.append_assoc, foldlM_cons_ok rfl, foldlM_cons_ok rfl, List.foldlM_append, hValue]
      rw [List.append_assoc] at hRest
      exact hRest

theorem run_elements {elements : List Tree}
    (h : ∀ e ∈ elements, ∀ parts, e.lexemes.foldlM step ⟨parts, .value⟩ = .ok ⟨parts, .done e⟩)
    (hElements : elements ≠ []) (before : List Tree) (parts : List Part) :
    (Tree.elementLexemes elements ++ [Lexeme.closing .array]).foldlM step
        ⟨.element before :: parts, .value⟩ =
      .ok ⟨parts, .done (.array (before ++ elements))⟩ := by
  induction elements generalizing before with
  | nil => exact absurd rfl hElements
  | cons e elements ih =>
    have hFirst := h e List.mem_cons_self (.element before :: parts)
    cases elements with
    | nil =>
      rw [Tree.elementLexemes, List.foldlM_append, hFirst]
      rfl
    | cons d elements =>
      have hRest := ih (fun k hk => h k (List.mem_cons_of_mem _ hk)) (by simp) (before ++ [e])
      rw [Tree.elementLexemes_cons (by simp), List.append_assoc, List.foldlM_append, hFirst]
      rw [List.append_assoc] at hRest
      exact hRest

/-- The lexemes of a tree are read as the tree. -/
theorem run_lexemes (tree : Tree) (parts : List Part) :
    tree.lexemes.foldlM step ⟨parts, .value⟩ = .ok ⟨parts, .done tree⟩ := by
  induction tree using Tree.ind generalizing parts with
  | object members ih =>
    rw [Tree.lexemes, foldlM_cons_ok rfl]
    cases members with
    | nil => rfl
    | cons m members => exact run_members ih (by simp) [] parts
  | array elements ih =>
    rw [Tree.lexemes, foldlM_cons_ok rfl]
    cases elements with
    | nil => rfl
    | cons e elements => exact run_elements ih (by simp) [] parts
  | string contents => rfl
  | literal text => rfl

/-- Blanks make no difference. -/
theorem run_filter (ls : List Lexeme) (r : Reading) :
    (ls.filter (!·.isBlank)).foldlM step r = ls.foldlM step r := by
  induction ls generalizing r with
  | nil => rfl
  | cons lexeme ls ih =>
    cases hBlank : lexeme.isBlank with
    | true =>
      rw [List.filter_cons_of_neg (by simp [hBlank]), foldlM_cons_ok (step_of_isBlank r hBlank)]
      exact ih r
    | false =>
      rw [List.filter_cons_of_pos (by simp [hBlank]), List.foldlM_cons, List.foldlM_cons]
      simp only [ih]

end Reading

/-- A tree is known by its lexemes. -/
theorem Tree.lexemes_injective {tree other : Tree} (h : tree.lexemes = other.lexemes) :
    tree = other := by
  have hTree := Reading.run_lexemes tree []
  rw [h, Reading.run_lexemes other []] at hTree
  cases hTree
  rfl

end SignReview.Json
