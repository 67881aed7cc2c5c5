import SignReview.Proofs.Screen.Walk
import SignReview.Transaction.ScreenList

/-!
# Why a list of screens is refused

Of all that may be wrong with a list of screens, one thing is reported: first what can not be
decoded, wherever in the list it is, then what follows the list, then that it is no list, then the
number of its elements, and last the first element that is no screen.

* `ScreenList.decode`: the elements without judging them, `ScreenList.refusal?`: the reason.
* `ScreenList.walk_of_refusal`, `ScreenList.walk_of_accepted`: the outcome of any walk.
* `ScreenList.parse_eq_refusal`: the outcome of reading, and of each walk afterwards.
-/

namespace SignReview

theorem Screen.exists_screens {elements : List Cbor.Value}
    (h : elements.findSome? fault? = none) :
    ∃ screens, List.Forall₂ (fun value screen => ofValue value = .ok screen) elements screens := by
  induction elements with
  | nil => exact ⟨[], .nil⟩
  | cons value elements ih =>
    rw [List.findSome?_cons] at h
    cases hValue : ofValue value with
    | error e =>
      rw [fault?, hValue] at h
      cases h
    | ok screen =>
      rw [fault?, hValue] at h
      obtain ⟨screens, hScreens⟩ := ih h
      exact ⟨screen :: screens, .cons hValue hScreens⟩

namespace ScreenList

/-- The elements of the list that octets spell, where nothing follows it. -/
def decode (bytes : Bytes) : Except Error (List Cbor.Value) := do
  let (value, rest) ← Cbor.Value.read bytes.length Cbor.maxDepth .root bytes
  if rest ≠ [] then
    throw .cborUnexpectedEof
  match value with
  | .array elements => return elements
  | _ => throw .unexpectedType

/-- The first reason why octets are refused as a list of screens. -/
def refusal? (bytes : Bytes) : Option Error :=
  match decode bytes with
  | .error e => some e
  | .ok elements =>
    if elements.length = 0 ∨ 255 < elements.length then some .unexpectedNumberItems
    else elements.findSome? Screen.fault?

variable {bytes : Bytes}

/-- A walk decodes all elements before it judges any of them. -/
theorem walk_eq_decode (bytes : Bytes) (target : Option (Nat × Bool)) :
    Screen.walk bytes target =
      decode bytes >>= fun elements =>
        (elements.foldl Screen.Walk.step { target }).finish := by
  rw [Screen.walk_eq, decode]
  cases Cbor.Value.read bytes.length Cbor.maxDepth .root bytes with
  | error e => rfl
  | ok taken =>
    obtain ⟨value, rest⟩ := taken
    cases rest with
    | cons c rest => rfl
    | nil => cases value <;> rfl

theorem finish_foldl (elements : List Cbor.Value) (target : Option (Nat × Bool)) :
    (elements.foldl Screen.Walk.step { target }).finish =
      if elements.length = 0 ∨ 255 < elements.length then .error .unexpectedNumberItems
      else
        match elements.findSome? Screen.fault? with
        | some e => .error e
        | none => .ok (elements.foldl Screen.Walk.step { target }) := by
  rw [Screen.Walk.finish, Screen.Walk.foldl_step_length, Screen.Walk.foldl_step_failure rfl,
    Nat.zero_add]
  rfl

/-- A list that is refused is refused by every walk, for the same reason. -/
theorem walk_of_refusal {e : Error} (h : refusal? bytes = some e) (target : Option (Nat × Bool)) :
    Screen.walk bytes target = .error e := by
  rw [walk_eq_decode]
  rw [refusal?] at h
  cases hDecode : decode bytes with
  | error cause =>
    rw [hDecode] at h
    exact congrArg _ (Option.some.inj h)
  | ok elements =>
    simp only [hDecode] at h
    rw [ok_bind, finish_foldl]
    by_cases hNumber : elements.length = 0 ∨ 255 < elements.length
    · rw [if_pos hNumber] at h ⊢
      exact congrArg _ (Option.some.inj h)
    · rw [if_neg hNumber] at h ⊢
      rw [h]

/-- A list that is not refused is passed by every walk. -/
theorem walk_of_accepted (h : refusal? bytes = none) :
    ∃ elements, decode bytes = .ok elements ∧ elements.findSome? Screen.fault? = none ∧
      ∀ target, Screen.walk bytes target = .ok (elements.foldl Screen.Walk.step { target }) := by
  rw [refusal?] at h
  cases hDecode : decode bytes with
  | error cause =>
    rw [hDecode] at h
    cases h
  | ok elements =>
    simp only [hDecode] at h
    by_cases hNumber : elements.length = 0 ∨ 255 < elements.length
    · rw [if_pos hNumber] at h
      cases h
    · rw [if_neg hNumber] at h
      refine ⟨elements, rfl, h, fun target => ?_⟩
      rw [walk_eq_decode, hDecode, ok_bind, finish_foldl, if_neg hNumber, h]

/-- A list within the limit is refused for the first reason there is, and otherwise read; after
that, a walk for any screen in any mode goes through. -/
theorem parse_eq_refusal {limits : Limits} (hSize : bytes.length ≤ limits.maxBytes) :
    (∀ e, refusal? bytes = some e → parse bytes limits = .error e) ∧
      (refusal? bytes = none → ∃ (elements : List Cbor.Value) (list : ScreenList),
        decode bytes = .ok elements ∧ parse bytes limits = .ok list ∧ list.bytes = bytes ∧
        list.length = elements.length) ∧
      ∀ list, parse bytes limits = .ok list →
        ∀ n expert, ∃ walk, Screen.walk list.bytes (some (n, expert)) = .ok walk := by
  have hParse : parse bytes limits = Screen.walk bytes none >>= fun walk =>
      .ok ⟨bytes, walk.length, walk.experts⟩ := by
    rw [parse, if_neg (Nat.not_lt.mpr hSize)]
    rfl
  refine ⟨?refused, ?accepted, ?walks⟩
  case refused =>
    intro e hRefusal
    rw [hParse, walk_of_refusal hRefusal]
    rfl
  case accepted =>
    intro hNone
    obtain ⟨elements, hDecode, _, hWalk⟩ := walk_of_accepted hNone
    refine ⟨elements, _, hDecode, by rw [hParse, hWalk none]; rfl, rfl, ?_⟩
    rw [Screen.Walk.foldl_step_length, Nat.zero_add]
  case walks =>
    intro list hList n expert
    cases hRefusal : refusal? bytes with
    | some e =>
      rw [hParse, walk_of_refusal hRefusal] at hList
      cases hList
    | none =>
      obtain ⟨elements, _, _, hWalk⟩ := walk_of_accepted hRefusal
      rw [hParse, hWalk none] at hList
      obtain rfl := Except.ok.inj hList
      exact ⟨_, hWalk _⟩

/-- A number, which is no screen, and behind it a text that is cut off. -/
def cutOff : Bytes := [0x82, 0x00, 0x61]

def oneScreen : Bytes := [0x81, 0xa1, 0x02, 0x61, 0x41]

theorem parse_eq_refusal_cutOff :
    parse cutOff {} = .error .cborUnexpectedEof ∧
      ∃ list, parse oneScreen {} = .ok list ∧ list.bytes = oneScreen ∧
        ∀ n expert, ∃ walk, Screen.walk list.bytes (some (n, expert)) = .ok walk := by
  have hCutOff : refusal? cutOff = some .cborUnexpectedEof := by decide +kernel
  have hOneScreen : refusal? oneScreen = none := by decide +kernel
  obtain ⟨hRefused, _, _⟩ := @parse_eq_refusal cutOff {} (by decide)
  obtain ⟨_, hAccepted, hWalks⟩ := @parse_eq_refusal oneScreen {} (by decide)
  obtain ⟨_, list, _, hParse, hBytes, _⟩ := hAccepted hOneScreen
  exact ⟨hRefused _ hCutOff, list, hParse, hBytes, hWalks list hParse⟩

end ScreenList

end SignReview
