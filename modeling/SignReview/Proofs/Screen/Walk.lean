import SignReview.Proofs.Cbor.Series
import SignReview.Screen.Walk

/-!
# Walks over decoded screens

A walk reads an array and judges its elements as they come.  It comes to the same as decoding the
whole array first and judging then, whatever is wrong with an element.

* `Screen.Walk.read_eq`: reading and judging are apart, `Screen.walk_eq`: the same of the whole
  input.
* `Screen.fault?`: what is wrong with an element, `Screen.Walk.foldl_step_failure`: the failure of a
  walk is that of the first such element.
* `Screen.Walk.foldl_advance_experts`, `Screen.Walk.foldl_advance_found`: what a walk over screens
  has counted and found.
-/

namespace SignReview.Screen

/-! ### Reading and judging -/

namespace Walk

def judge (walk : Walk) : Cbor.Value → Except Error Walk
  | .array elements => (elements.foldl step walk).finish
  | _ => .error .unexpectedType

theorem judge_of_isPlain (walk : Walk) {value : Cbor.Value} (h : value.IsPlain) :
    walk.judge value = .error .unexpectedType := by
  cases value with
  | array elements => cases h
  | map entries => rfl
  | unsigned n => rfl
  | text text => rfl
  | bool value => rfl
  | other => rfl

/-- A value that is complete with its head is no list of screens. -/
theorem judge_scalar (walk : Walk) {size : Nat} {input rest : Bytes} {value : Cbor.Value}
    (h : Cbor.Head.read size .root input = .ok (.scalar value, rest)) :
    walk.judge value = .error .unexpectedType :=
  walk.judge_of_isPlain (Cbor.Head.read_yields size .root input _ _ h)

/-- The elements are judged as if the whole value had been decoded before. -/
theorem read_eq (walk : Walk) (size depth : Nat) (input : Bytes) :
    walk.read size depth input =
      (Cbor.Value.read size depth .root input).map (Prod.map walk.judge id) := by
  induction depth generalizing input with
  | zero =>
    rw [read, Cbor.Value.read]
    show (Cbor.Head.read size .root input >>= _) = (Cbor.Head.read size .root input >>= _).map _
    cases hHead : Cbor.Head.read size .root input with
    | error e => rfl
    | ok taken =>
      obtain ⟨head, rest⟩ := taken
      cases head with
      | scalar value =>
        exact congrArg (fun outcome => Except.ok (outcome, rest)) (walk.judge_scalar hHead).symm
      | array n => rfl
      | map n => rfl
      | tag => rfl
  | succ depth ih =>
    rw [read, Cbor.Value.read]
    show (Cbor.Head.read size .root input >>= _) = (Cbor.Head.read size .root input >>= _).map _
    cases hHead : Cbor.Head.read size .root input with
    | error e => rfl
    | ok taken =>
      obtain ⟨head, rest⟩ := taken
      rw [ok_bind, ok_bind]
      cases head with
      | scalar value =>
        exact congrArg (fun outcome => Except.ok (outcome, rest)) (walk.judge_scalar hHead).symm
      | array n =>
        show (Cbor.foldSeries n (Cbor.Value.read size depth .element) step walk rest >>= _) =
          (Cbor.series n (Cbor.Value.read size depth .element) rest >>= _).map _
        rw [Cbor.foldSeries_eq]
        cases Cbor.series n (Cbor.Value.read size depth .element) rest <;> rfl
      | map n =>
        show (Cbor.series n (Cbor.entry (Cbor.Value.read size depth .skipped)) rest >>= _ >>= _) =
          (Cbor.series n (Cbor.entry (Cbor.Value.read size depth .skipped)) rest >>= _).map _
        cases Cbor.series n (Cbor.entry (Cbor.Value.read size depth .skipped)) rest <;> rfl
      | tag => exact ih rest

end Walk

/-- A walk decodes the whole input, refuses what follows the value, and judges the value last. -/
theorem walk_eq (bytes : Bytes) (target : Option (Nat × Bool)) :
    walk bytes target =
      Cbor.Value.read bytes.length Cbor.maxDepth .root bytes >>= fun taken =>
        if taken.2 = [] then Walk.judge { target } taken.1 else .error .cborUnexpectedEof := by
  rw [walk, Walk.read_eq]
  cases Cbor.Value.read bytes.length Cbor.maxDepth .root bytes with
  | error e => rfl
  | ok taken =>
    obtain ⟨value, rest⟩ := taken
    cases rest with
    | nil => rfl
    | cons c rest => rfl

/-! ### Elements -/

/-- What is wrong with an element, if it is no screen. -/
def fault? (value : Cbor.Value) : Option Error :=
  match ofValue value with
  | .error e => some e
  | .ok _ => none

namespace Walk

section Look

variable (walk : Walk) (screen : Screen)

theorem look_eq : ∃ visible found, walk.look screen = { walk with visible, found } := by
  unfold look
  split
  · exact ⟨walk.visible, walk.found, rfl⟩
  · split
    · exact ⟨_, _, rfl⟩
    · exact ⟨walk.visible, walk.found, rfl⟩

@[simp] theorem look_length : (walk.look screen).length = walk.length := by
  obtain ⟨_, _, hLook⟩ := look_eq walk screen
  rw [hLook]

@[simp] theorem look_failure : (walk.look screen).failure = walk.failure := by
  obtain ⟨_, _, hLook⟩ := look_eq walk screen
  rw [hLook]

@[simp] theorem look_target : (walk.look screen).target = walk.target := by
  obtain ⟨_, _, hLook⟩ := look_eq walk screen
  rw [hLook]

@[simp] theorem look_experts : (walk.look screen).experts = walk.experts := by
  obtain ⟨_, _, hLook⟩ := look_eq walk screen
  rw [hLook]

end Look

theorem step_length (walk : Walk) (value : Cbor.Value) :
    (walk.step value).length = walk.length + 1 := by
  unfold step
  cases walk.failure with
  | some e => rfl
  | none =>
    cases ofValue value with
    | error e => rfl
    | ok screen => simp [pass]

theorem step_of_failure {walk : Walk} {e : Error} (h : walk.failure = some e)
    (value : Cbor.Value) : (walk.step value).failure = some e := by
  simp only [step, h]

theorem step_failure {walk : Walk} (h : walk.failure = none) (value : Cbor.Value) :
    (walk.step value).failure = fault? value := by
  unfold step fault?
  simp only [h]
  cases ofValue value with
  | error e => rfl
  | ok screen => simp [pass]

theorem foldl_step_length (walk : Walk) (elements : List Cbor.Value) :
    (elements.foldl step walk).length = walk.length + elements.length := by
  induction elements generalizing walk with
  | nil => rfl
  | cons value elements ih =>
    rw [List.foldl_cons, ih, step_length, List.length_cons]
    omega

theorem foldl_step_of_failure {walk : Walk} {e : Error} (h : walk.failure = some e)
    (elements : List Cbor.Value) : (elements.foldl step walk).failure = some e := by
  induction elements generalizing walk with
  | nil => exact h
  | cons value elements ih => exact ih (step_of_failure h value)

/-- The failure of a walk is that of the first element that is no screen. -/
theorem foldl_step_failure {walk : Walk} (h : walk.failure = none) (elements : List Cbor.Value) :
    (elements.foldl step walk).failure = elements.findSome? fault? := by
  induction elements generalizing walk with
  | nil => exact h
  | cons value elements ih =>
    rw [List.foldl_cons, List.findSome?_cons]
    cases hFault : fault? value with
    | some e => exact foldl_step_of_failure ((step_failure h value).trans hFault) elements
    | none => exact ih ((step_failure h value).trans hFault)

/-! ### Screens -/

def advance (walk : Walk) (screen : Screen) : Walk :=
  { walk with length := walk.length + 1 }.pass screen

theorem step_of_ofValue {walk : Walk} (h : walk.failure = none) {value : Cbor.Value}
    {screen : Screen} (hScreen : ofValue value = .ok screen) :
    walk.step value = walk.advance screen := by
  simp only [step, h, hScreen, advance]

theorem foldl_step {elements : List Cbor.Value} {screens : List Screen}
    (h : List.Forall₂ (fun value screen => ofValue value = .ok screen) elements screens) :
    ∀ {walk : Walk}, walk.failure = none →
      elements.foldl step walk = screens.foldl advance walk := by
  induction h with
  | nil =>
    intro walk _
    rfl
  | cons hFirst _ ih =>
    intro walk hNone
    rw [List.foldl_cons, List.foldl_cons, step_of_ofValue hNone hFirst]
    apply ih
    simp [advance, pass, hNone]

theorem foldl_advance_experts (walk : Walk) (screens : List Screen) :
    (screens.foldl advance walk).experts =
      walk.experts + (screens.filter Screen.expert).length := by
  induction screens generalizing walk with
  | nil => rfl
  | cons screen screens ih =>
    have hFirst : (walk.advance screen).experts =
        if screen.expert then walk.experts + 1 else walk.experts := by
      simp [advance, pass]
    rw [List.foldl_cons, ih, hFirst, List.filter_cons]
    split
    · rw [List.length_cons]
      omega
    · rfl

/-- A walk finds the screen of its number among those that are shown. -/
theorem foldl_advance_found {n : Nat} {expert : Bool} (screens : List Screen) :
    ∀ {walk : Walk}, walk.target = some (n, expert) → (walk.visible ≤ n → walk.found = none) →
      (screens.foldl advance walk).found =
        if n < walk.visible then walk.found
        else (screens.filter (·.isVisible expert))[n - walk.visible]? := by
  induction screens with
  | nil =>
    intro walk _ hFound
    by_cases hn : n < walk.visible
    · rw [if_pos hn]
      rfl
    · rw [if_neg hn]
      exact hFound (Nat.le_of_not_lt hn)
  | cons screen screens ih =>
    intro walk hTarget hFound
    have hTarget' : (walk.advance screen).target = some (n, expert) := by
      simp [advance, pass, hTarget]
    rw [List.foldl_cons, List.filter_cons]
    by_cases hVisible : screen.isVisible expert = true
    · have hCount : (walk.advance screen).visible = walk.visible + 1 := by
        simp [advance, pass, look, hTarget, hVisible]
      have hNext : (walk.advance screen).found =
          if walk.visible = n then some screen else walk.found := by
        simp [advance, pass, look, hTarget, hVisible]
      have hFound' : (walk.advance screen).visible ≤ n → (walk.advance screen).found = none := by
        intro hn
        rw [hCount] at hn
        rw [hNext, if_neg (by omega)]
        exact hFound (by omega)
      rw [if_pos hVisible, ih hTarget' hFound', hCount, hNext]
      rcases Nat.lt_trichotomy n walk.visible with hn | hn | hn
      · rw [if_pos (by omega), if_neg (by omega), if_pos hn]
      · rw [if_pos (by omega), if_pos hn.symm, if_neg (by omega), hn, Nat.sub_self]
        rfl
      · have hNumber : n - walk.visible = n - (walk.visible + 1) + 1 := by omega
        rw [if_neg (by omega), if_neg (by omega), hNumber, List.getElem?_cons_succ]
    · have hCount : (walk.advance screen).visible = walk.visible := by
        simp [advance, pass, look, hTarget, hVisible]
      have hNext : (walk.advance screen).found = walk.found := by
        simp [advance, pass, look, hTarget, hVisible]
      have hFound' : (walk.advance screen).visible ≤ n → (walk.advance screen).found = none := by
        rwa [hCount, hNext]
      rw [if_neg hVisible, ih hTarget' hFound', hCount, hNext]

end Walk

end SignReview.Screen
