import SignReview.Proofs.Transaction.Screens
import Mathlib.Data.List.Basic

/-!
# The two modes of a list of screens

Normal mode leaves out the screens for experts and nothing else.  Its items are those of the mode
for experts at the places of the other screens, in the same order and with the same pages.

* `ScreenList.ordinaryPlaces`: the places of the screens that are not for experts,
  `ScreenList.shown_false_eq`: the screens there are those of normal mode.
* `ScreenList.Holds.entry_eq_of_place`: an item of normal mode is one of the mode for experts.
* `ScreenList.modes_of_parse`: the screens, the numbers and the items of both modes.
-/

namespace SignReview.ScreenList

def ordinaryPlaces (screens : List Screen) : List Nat :=
  screens.findIdxs fun screen => !screen.expert

theorem mem_ordinaryPlaces {screens : List Screen} {place : Nat} :
    place ∈ ordinaryPlaces screens ↔
      ∃ screen, screens[place]? = some screen ∧ screen.expert = false := by
  rw [ordinaryPlaces, List.mem_findIdxs_iff_exists_getElem_pos]
  constructor
  · rintro ⟨hPlace, hOrdinary⟩
    exact ⟨_, List.getElem?_eq_getElem hPlace, by simpa using hOrdinary⟩
  · rintro ⟨screen, hScreen, hOrdinary⟩
    obtain ⟨hPlace, rfl⟩ := List.getElem?_eq_some_iff.mp hScreen
    exact ⟨hPlace, by simpa using hOrdinary⟩

theorem length_ordinaryPlaces (screens : List Screen) :
    (ordinaryPlaces screens).length = (shown screens false).length := by
  rw [ordinaryPlaces, List.length_findIdxs, List.countP_eq_length_filter]
  rfl

theorem shown_false_eq {screens : List Screen} {n place : Nat}
    (h : (ordinaryPlaces screens)[n]? = some place) :
    (shown screens false)[n]? = screens[place]? := by
  obtain ⟨hPlaces, hPlace⟩ := List.getElem?_eq_some_iff.mp h
  have hShown : n < (shown screens false).length := length_ordinaryPlaces screens ▸ hPlaces
  have hMem : place ∈ ordinaryPlaces screens := List.mem_of_getElem? h
  obtain ⟨screen, hScreen, _⟩ := mem_ordinaryPlaces.mp hMem
  obtain ⟨hLength, rfl⟩ := List.getElem?_eq_some_iff.mp hScreen
  have hSame : (shown screens false)[n] = screens[place] := by
    subst hPlace
    exact List.getElem_filter_eq_getElem_getElem_findIdxs hShown
  rw [List.getElem?_eq_getElem hShown, List.getElem?_eq_getElem hLength, hSame]

/-- What is shown of an item depends on the screen and the width alone. -/
theorem Holds.entry_congr {list : ScreenList} {screens : List Screen} (h : list.Holds screens)
    (context context' : Context) (hWidth : context.width = context'.width) {n n' : Nat}
    (hScreen : (shown screens context.expert)[n]? = (shown screens context'.expert)[n']?) :
    list.entry context n = list.entry context' n' := by
  have hSame : list.screen context.expert n = list.screen context'.expert n' := by
    rw [h.screen_eq, h.screen_eq, hScreen]
  unfold entry
  rw [hSame, hWidth]

/-- An item of normal mode is that of the mode for experts at the place of its screen. -/
theorem Holds.entry_eq_of_place {list : ScreenList} {screens : List Screen}
    (h : list.Holds screens) (context : Context) {n place : Nat}
    (hPlace : (ordinaryPlaces screens)[n]? = some place) :
    list.entry { context with expert := false } n =
      list.entry { context with expert := true } place := by
  apply h.entry_congr
  · rfl
  · exact shown_false_eq hPlace

/-- A list that has been read shows all its screens to experts, and to others those that are not
for experts, in the same order.  Either mode has as many items as screens, and an item of normal
mode is rendered as the mode for experts renders the item at the place of its screen. -/
theorem modes_of_parse {bytes : Bytes} {limits : Limits} {list : ScreenList}
    (h : parse bytes limits = .ok list) :
    ∃ elements screens, decode bytes = .ok elements ∧
      List.Forall₂ (fun value screen => Screen.ofValue value = .ok screen) elements screens ∧
      (∀ expert, list.size expert = (shown screens expert).length ∧
        (∀ n screen, (shown screens expert)[n]? = some screen →
          list.screen expert n = .ok screen) ∧
        ∀ n, (shown screens expert).length ≤ n →
          list.screen expert n = .error .displayIdxOutOfRange) ∧
      (ordinaryPlaces screens).Pairwise (· < ·) ∧
      (ordinaryPlaces screens).length = list.size false ∧
      (∀ place, place ∈ ordinaryPlaces screens ↔
        ∃ screen, screens[place]? = some screen ∧ screen.expert = false) ∧
      ∀ n place, (ordinaryPlaces screens)[n]? = some place →
        (shown screens false)[n]? = screens[place]? ∧ ∀ context : Context,
          list.entry { context with expert := false } n =
            list.entry { context with expert := true } place ∧
          ∀ validated page,
            Transaction.item (.textual list validated) { context with expert := false } n page =
              Transaction.item (.textual list validated) { context with expert := true } place
                page := by
  obtain ⟨elements, screens, hDecode, hScreens, hHolds⟩ := exists_holds h
  refine ⟨elements, screens, hDecode, hScreens, ?modes, List.pairwise_findIdxs, ?length,
    fun place => mem_ordinaryPlaces, fun n place hPlace => ⟨shown_false_eq hPlace, ?items⟩⟩
  case modes =>
    intro expert
    refine ⟨hHolds.size_eq expert, fun n screen hScreen => ?_, fun n hn => ?_⟩
    · rw [hHolds.screen_eq, hScreen]
    · rw [hHolds.screen_eq, List.getElem?_eq_none hn]
  case length => rw [length_ordinaryPlaces, hHolds.size_eq]
  case items =>
    intro context
    have hEntry := hHolds.entry_eq_of_place context hPlace
    refine ⟨hEntry, fun validated page => ?_⟩
    cases validated with
    | false => rfl
    | true => rw [Transaction.item, Transaction.item, Transaction.entry, Transaction.entry, hEntry]

def expertFirst : Bytes :=
  [0x82, 0xa2, 0x02, 0x61, 0x41, 0x04, 0xf5, 0xa1, 0x02, 0x61, 0x42]

theorem modes_of_parse_expertFirst :
    ∃ list, parse expertFirst {} = .ok list ∧ list.size false = 1 ∧ ∀ page,
      Transaction.item (.textual list true) {} 0 page =
        Transaction.item (.textual list true) { expert := true } 1 page := by
  have hParse : ((parse expertFirst {}).toOption.map fun list =>
      (list.size false, list.size true, (list.screen true 0).toOption.map Screen.expert)) =
        some (1, 2, some true) := by decide +kernel
  obtain ⟨list, hList, hFound⟩ := Option.map_eq_some_iff.mp hParse
  rw [toOption_eq_some_iff] at hList
  obtain ⟨hOne, hFound⟩ := Prod.mk.inj hFound
  obtain ⟨hTwo, hFirst⟩ := Prod.mk.inj hFound
  obtain ⟨_, screens, _, _, hModes, _, hLength, hPlaces, hItems⟩ := modes_of_parse hList
  obtain ⟨hSize, hScreens, _⟩ := hModes true
  obtain ⟨place, hPlace⟩ : ∃ place, (ordinaryPlaces screens)[0]? = some place :=
    ⟨_, List.getElem?_eq_getElem (by omega)⟩
  obtain ⟨screen, hScreen, hOrdinary⟩ := (hPlaces place).mp (List.mem_of_getElem? hPlace)
  obtain ⟨hShort, _⟩ := List.getElem?_eq_some_iff.mp hScreen
  have hBound : place < 2 := hTwo ▸ hSize ▸ hShort
  have hOther : place ≠ 0 := by
    rintro rfl
    rw [hScreens 0 screen hScreen] at hFirst
    cases hOrdinary.symm.trans (Option.some.inj hFirst)
  obtain rfl : place = 1 := by omega
  exact ⟨list, hList, hOne, ((hItems 0 1 hPlace).2 {}).2 true⟩

end SignReview.ScreenList
