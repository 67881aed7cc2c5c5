import SignReview.Proofs.Paging
import SignReview.Proofs.Screen.Layout
import SignReview.Proofs.Transaction.Refusal
import SignReview.Transaction.Basic

/-!
# What a validation of screens promises

A list that has been read holds screens within their bounds, so that each can be laid out at any
width.  A validation refuses two chains and nothing else; afterwards every screen can be shown.

* `ScreenList.Holds`: the screens of a list, `ScreenList.exists_holds`: what has been read.
* `ScreenList.entry_eq`: what is shown of an item.
* `ScreenList.check_of_accepted`, `ScreenList.check_of_refused`: the outcome of a check.
* `Transaction.validate_textual`: the outcome of a validation, and the items after it.
-/

namespace SignReview

namespace ScreenList

def shown (screens : List Screen) (expert : Bool) : List Screen :=
  if expert then screens else screens.filter fun screen => !screen.expert

/-- The screen names a chain that is never signed for. -/
def Refused (screen : Screen) : Prop :=
  screen.title = some "Chain id" ∧ (screen.content = "0" ∨ screen.content = "1")

theorem isRefused_iff {screen : Screen} : isRefused screen = true ↔ Refused screen := by
  rw [isRefused, Bool.and_eq_true, Bool.or_eq_true, beq_iff_eq, beq_iff_eq, beq_iff_eq, Refused]

theorem filter_isVisible (screens : List Screen) (expert : Bool) :
    screens.filter (·.isVisible expert) = shown screens expert := by
  cases expert with
  | true => exact List.filter_true screens
  | false => rfl

theorem shown_subset (screens : List Screen) (expert : Bool) : shown screens expert ⊆ screens := by
  intro screen hScreen
  rw [← filter_isVisible] at hScreen
  exact List.mem_of_mem_filter hScreen

/-- These are the screens that the list holds. -/
structure Holds (list : ScreenList) (screens : List Screen) : Prop where
  fits : ∀ screen ∈ screens, screen.Fits
  size_eq : ∀ expert, list.size expert = (shown screens expert).length
  screen_eq : ∀ expert n, list.screen expert n =
    match (shown screens expert)[n]? with
    | some screen => .ok screen
    | none => .error .displayIdxOutOfRange

/-- A list that has been read holds the screens that its octets spell. -/
theorem exists_holds {bytes : Bytes} {limits : Limits} {list : ScreenList}
    (h : parse bytes limits = .ok list) :
    ∃ elements screens, decode bytes = .ok elements ∧
      List.Forall₂ (fun value screen => Screen.ofValue value = .ok screen) elements screens ∧
      list.Holds screens := by
  rw [parse] at h
  obtain ⟨_, h⟩ := guard_eq_ok_iff.mp h
  obtain ⟨walk, hWalk, h⟩ := bind_eq_ok_iff.mp h
  obtain rfl := Except.ok.inj h
  cases hRefusal : refusal? bytes with
  | some e => cases (walk_of_refusal hRefusal none).symm.trans hWalk
  | none =>
    obtain ⟨elements, hDecode, hFaults, hWalks⟩ := walk_of_accepted hRefusal
    obtain ⟨screens, hScreens⟩ := Screen.exists_screens hFaults
    obtain rfl := Except.ok.inj ((hWalks none).symm.trans hWalk)
    have hLength : (elements.foldl Screen.Walk.step { target := none }).length =
        screens.length := by
      rw [Screen.Walk.foldl_step_length, Nat.zero_add, hScreens.length_eq]
    have hExperts : (elements.foldl Screen.Walk.step { target := none }).experts =
        (screens.filter Screen.expert).length := by
      rw [Screen.Walk.foldl_step hScreens rfl, Screen.Walk.foldl_advance_experts, Nat.zero_add]
    refine ⟨elements, screens, hDecode, hScreens, ?fits, ?size, ?screen⟩
    case fits =>
      intro screen hScreen
      obtain ⟨value, _, hValue⟩ := Forall₂.exists_of_mem hScreens.flip hScreen
      exact Screen.fits_of_ofRaw hValue
    case size =>
      intro expert
      have hSplit := List.length_eq_length_filter_add (l := screens) Screen.expert
      rw [size, hLength, hExperts]
      cases expert with
      | true => rfl
      | false =>
        show screens.length - (screens.filter Screen.expert).length =
          (screens.filter fun screen => !screen.expert).length
        omega
    case screen =>
      intro expert n
      rw [screen, hWalks, Screen.Walk.foldl_step hScreens rfl, ok_bind,
        Screen.Walk.foldl_advance_found screens rfl fun _ => rfl, if_neg (Nat.not_lt_zero n),
        Nat.sub_zero, filter_isVisible]
      cases (shown screens expert)[n]? <;> rfl

variable {list : ScreenList} {screens : List Screen} {context : Context}

theorem entry_of_refused (h : list.Holds screens) {n : Nat} {screen : Screen}
    (hScreen : (shown screens context.expert)[n]? = some screen) (hRefused : Refused screen) :
    list.entry context n = .error .unexpectedChain := by
  rw [entry, h.screen_eq, hScreen]
  simp only [ok_bind, if_pos (isRefused_iff.mpr hRefused)]
  rfl

theorem entry_of_accepted (h : list.Holds screens) {n : Nat} {screen : Screen}
    (hScreen : (shown screens context.expert)[n]? = some screen) (hRefused : ¬Refused screen) :
    list.entry context n = .ok (screen.laidOut (Page.clamp context.width)) := by
  have hMem : screen ∈ screens := shown_subset screens _ (List.mem_of_getElem? hScreen)
  rw [entry, h.screen_eq, hScreen]
  simp only [ok_bind, if_neg (isRefused_iff.not.mpr hRefused)]
  exact Screen.entry_eq (h.fits screen hMem) _

theorem entry_of_le (h : list.Holds screens) {n : Nat}
    (hn : (shown screens context.expert).length ≤ n) :
    list.entry context n = .error .displayIdxOutOfRange := by
  rw [entry, h.screen_eq, List.getElem?_eq_none hn]
  rfl

theorem render_of_accepted (h : list.Holds screens) {n : Nat} {screen : Screen}
    (hScreen : (shown screens context.expert)[n]? = some screen) (hRefused : ¬Refused screen) :
    (list.entry context n >>= fun entry => entry.renderAll context.width) = .ok () := by
  rw [entry_of_accepted h hScreen hRefused, ok_bind]
  exact Entry.renderAll_of_texts (screen.texts_laidOut _) _

theorem checkMode_of_accepted (h : list.Holds screens)
    (hAll : ∀ screen ∈ shown screens context.expert, ¬Refused screen) :
    list.checkMode context = .ok () := by
  apply forM_eq_ok_iff.mpr
  intro n hn
  rw [List.mem_range, h.size_eq] at hn
  exact render_of_accepted h (List.getElem?_eq_getElem hn) (hAll _ (List.getElem_mem hn))

theorem checkMode_of_refused (h : list.Holds screens)
    (hSome : ∃ screen ∈ shown screens context.expert, Refused screen) :
    list.checkMode context = .error .unexpectedChain := by
  apply forM_eq_error
  · intro n hn
    rw [List.mem_range, h.size_eq] at hn
    have hScreen := List.getElem?_eq_getElem hn
    by_cases hRefused : Refused (shown screens context.expert)[n]
    · rw [entry_of_refused h hScreen hRefused]
      exact Or.inr rfl
    · exact Or.inl (render_of_accepted h hScreen hRefused)
  · obtain ⟨screen, hMem, hRefused⟩ := hSome
    obtain ⟨n, hScreen⟩ := List.mem_iff_getElem?.mp hMem
    obtain ⟨hn, _⟩ := List.getElem?_eq_some_iff.mp hScreen
    refine ⟨n, List.mem_range.mpr (h.size_eq _ ▸ hn), ?_⟩
    rw [entry_of_refused h hScreen hRefused]
    rfl

theorem check_of_accepted (h : list.Holds screens) (hAll : ∀ screen ∈ screens, ¬Refused screen) :
    list.check context = .ok () := by
  apply forM_eq_ok_iff.mpr
  intro expert _
  apply checkMode_of_accepted h
  intro screen hScreen
  exact hAll screen (shown_subset screens expert hScreen)

/-- The mode for experts comes by all screens, so that none is refused too late. -/
theorem check_of_refused (h : list.Holds screens) (hSome : ∃ screen ∈ screens, Refused screen) :
    list.check context = .error .unexpectedChain := by
  apply forM_eq_error
  · intro expert _
    by_cases hShown : ∃ screen ∈ shown screens expert, Refused screen
    · exact Or.inr (checkMode_of_refused h hShown)
    · apply Or.inl
      apply checkMode_of_accepted h
      intro screen hScreen hRefused
      exact hShown ⟨screen, hScreen, hRefused⟩
  · exact ⟨true, by decide, checkMode_of_refused h hSome⟩

end ScreenList

namespace Transaction

open ScreenList

theorem parse_textual {bytes : Bytes} {limits : Limits} {tx : Transaction}
    (h : parse .textual bytes limits = .ok tx) :
    ∃ list, ScreenList.parse bytes limits = .ok list ∧ tx = .textual list false := by
  obtain ⟨list, hList, h⟩ := bind_eq_ok_iff.mp h
  exact ⟨list, hList, (Except.ok.inj h).symm⟩

/-- A validation that succeeds has come by all screens. -/
theorem not_refused_of_validate {list : ScreenList} {screens : List Screen}
    (hHolds : list.Holds screens) {validated : Bool} {context : Context}
    (h : (validate (.textual list validated) context).1 = .ok ()) :
    ∀ screen ∈ screens, ¬Refused screen := by
  intro screen hScreen hRefused
  rw [validate, check_of_refused hHolds ⟨screen, hScreen, hRefused⟩] at h
  cases h

/-- Each item of a list without refused screens has pages, at any width and in both modes. -/
theorem item_of_holds {list : ScreenList} {screens : List Screen} (h : list.Holds screens)
    (hAll : ∀ screen ∈ screens, ¬Refused screen) (context : Context) (n : Nat) :
    ((shown screens context.expert).length ≤ n → ∀ page,
      item (.textual list true) context n page = .error .displayIdxOutOfRange) ∧
    (n < (shown screens context.expert).length → ∃ key pages, 1 ≤ pages ∧ ∀ page,
      (page < pages → ∃ value, item (.textual list true) context n page = .ok ⟨key, value, pages⟩) ∧
      (pages ≤ page →
        item (.textual list true) context n page = .error .displayPageOutOfRange)) := by
  constructor
  · intro hn page
    rw [item, Transaction.entry, entry_of_le h hn]
    rfl
  · intro hn
    obtain ⟨screen, hScreen⟩ : ∃ screen, (shown screens context.expert)[n]? = some screen :=
      ⟨_, List.getElem?_eq_getElem hn⟩
    have hRefused := hAll _ (shown_subset screens _ (List.mem_of_getElem? hScreen))
    have hItem : ∀ page, item (.textual list true) context n page =
        (screen.laidOut (Page.clamp context.width)).item context.width page := by
      intro page
      rw [item, Transaction.entry, entry_of_accepted h hScreen hRefused, ok_bind]
    simp only [hItem]
    exact Entry.exists_pages (screen.texts_laidOut _) context.width

/-- A list of screens is validated unless it shows one of two chains, and for no other reason is
it refused.  After that each of its items has pages, at any width and in both modes, and nothing
goes wrong but that an item or page does not exist. -/
theorem validate_textual {bytes : Bytes} {limits : Limits} {tx : Transaction}
    (hParse : parse .textual bytes limits = .ok tx) :
    ∃ elements screens, decode bytes = .ok elements ∧
      List.Forall₂ (fun value screen => Screen.ofValue value = .ok screen) elements screens ∧
      ∀ context : Context,
        ((∃ screen ∈ screens, Refused screen) →
          (tx.validate context).1 = .error .unexpectedChain) ∧
        ((∀ screen ∈ screens, ¬Refused screen) → ∃ valid,
          tx.validate context = (.ok (), valid) ∧ ∀ context' : Context,
            valid.size context' = .ok (shown screens context'.expert).length ∧ ∀ n,
              ((shown screens context'.expert).length ≤ n → ∀ page,
                valid.item context' n page = .error .displayIdxOutOfRange) ∧
              (n < (shown screens context'.expert).length → ∃ key pages, 1 ≤ pages ∧ ∀ page,
                (page < pages → ∃ value, valid.item context' n page = .ok ⟨key, value, pages⟩) ∧
                (pages ≤ page →
                  valid.item context' n page = .error .displayPageOutOfRange))) := by
  obtain ⟨list, hList, rfl⟩ := parse_textual hParse
  obtain ⟨elements, screens, hDecode, hScreens, hHolds⟩ := exists_holds hList
  refine ⟨elements, screens, hDecode, hScreens, fun context => ⟨fun hSome => ?_, fun hAll => ?_⟩⟩
  · rw [validate, check_of_refused hHolds hSome]
  · refine ⟨.textual list true, ?_, fun context' => ⟨?_, item_of_holds hHolds hAll context'⟩⟩
    · rw [validate, check_of_accepted hHolds hAll]
    · exact congrArg _ (hHolds.size_eq context'.expert)

def twoScreens : Bytes :=
  [0x82, 0xa2, 0x01, 0x62, 0x54, 0x6f, 0x02, 0x61, 0x41, 0xa3, 0x01, 0x68] ++
    Bytes.ofString "Chain id" ++ [0x02, 0x62, 0x32, 0x31, 0x04, 0xf5]

theorem validate_textual_twoScreens :
    ∃ tx valid, parse .textual twoScreens {} = .ok tx ∧ tx.validate {} = (.ok (), valid) ∧
      valid.size {} = .ok 1 ∧ (∀ page, valid.item {} 1 page = .error .displayIdxOutOfRange) ∧
      ∃ key pages, 1 ≤ pages ∧ ∀ page,
        (page < pages → ∃ value, valid.item {} 0 page = .ok ⟨key, value, pages⟩) ∧
        (pages ≤ page → valid.item {} 0 page = .error .displayPageOutOfRange) := by
  have hAccepts : ((parse .textual twoScreens {}).toOption.map fun tx =>
      ((tx.validate {}).1.toBool, ((tx.validate {}).2.size {}).toOption)) =
        some (true, some 1) := by decide +kernel
  obtain ⟨tx, hParse, hValidate⟩ := Option.map_eq_some_iff.mp hAccepts
  rw [toOption_eq_some_iff] at hParse
  obtain ⟨hOk, hOne⟩ := Prod.mk.inj hValidate
  obtain ⟨_, screens, _, _, hOutcome⟩ := validate_textual hParse
  obtain ⟨hRefused, hAccepted⟩ := hOutcome {}
  have hAll : ∀ screen ∈ screens, ¬Refused screen := by
    intro screen hScreen hRefuse
    rw [hRefused ⟨screen, hScreen, hRefuse⟩] at hOk
    cases hOk
  obtain ⟨valid, hValid, hShown⟩ := hAccepted hAll
  obtain ⟨hSize, hItems⟩ := hShown {}
  rw [hValid, toOption_eq_some_iff, hSize] at hOne
  have hLength := Except.ok.inj hOne
  exact ⟨tx, valid, hParse, hValid, hSize.trans hOne, (hItems 1).1 (by omega),
    (hItems 0).2 (by omega)⟩

end Transaction

end SignReview
