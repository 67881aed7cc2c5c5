import SignReview.Proofs.Screen.Encoding
import SignReview.Proofs.Transaction.Screens

/-!
# Screens that are written are read

Whoever makes a list of screens may spell it in many ways.  However it is spelled, the screens that
are looked up in it are those that have been written.

* `ScreenList.Spells`: octets that spell screens, `ScreenList.length_le_of_spells`: how many there are.
* `ScreenList.decode_of_spells`, `ScreenList.refusal?_of_decode`: their elements, and no reason to
  refuse them.
* `ScreenList.parse_of_spells`: the list that is read, and its screens.
-/

namespace SignReview.ScreenList

open Cbor (SpellsAround)

/-- Octets that spell an array of these screens, in which arrays, maps and tags lie at most 127
deep. -/
inductive Spells (screens : List Screen) (bytes : Bytes) : Prop
  | intro {written : List (List (Nat × Cbor.Value))} : List.Forall₂ Screen.Writes screens written →
      Cbor.Spells 127 (.array (written.map Screen.valueOf)) bytes → Spells screens bytes

variable {screens : List Screen} {bytes : Bytes}

theorem forall₂_ofValue {written : List (List (Nat × Cbor.Value))}
    (h : List.Forall₂ Screen.Writes screens written) (hFits : ∀ screen ∈ screens, screen.Fits) :
    List.Forall₂ (fun value screen => Screen.ofValue value = .ok screen)
      (written.map Screen.valueOf) screens := by
  induction h with
  | nil => exact .nil
  | cons hFirst _ ih =>
    obtain ⟨hHere, hFits⟩ := List.forall_mem_cons.mp hFits
    exact .cons (Screen.ofValue_valueOf hHere hFirst) (ih hFits)

theorem length_le_of_spells {written : List (List (Nat × Cbor.Value))}
    (hFits : ∀ screen ∈ screens, screen.Fits) (hNumber : screens.length ≤ 255)
    (hWritten : List.Forall₂ Screen.Writes screens written)
    (hSpells : Cbor.Spells 127 (.array (written.map Screen.valueOf)) bytes) :
    bytes.length ≤ Cbor.maxPosition := by
  have hLength := hSpells.length_le 16384 (by
    intro part hPart inner hInner bytes hBytes
    obtain ⟨fields, hFields, rfl⟩ := List.mem_map.mp hPart
    obtain ⟨screen, hScreen, hWrites⟩ := Forall₂.exists_of_mem hWritten.flip hFields
    exact Screen.length_le_of_spells (hFits screen hScreen) hWrites (Nat.le_of_lt hInner) hBytes)
  have hParts : (Cbor.Value.array (written.map Screen.valueOf)).parts.length = screens.length := by
    rw [Cbor.Value.parts, List.length_map, hWritten.length_eq]
  rw [hParts, show (Cbor.Value.array (written.map Screen.valueOf)).textSize = 0 from rfl] at hLength
  rw [Cbor.maxPosition]
  omega

theorem decode_of_spells {elements : List Cbor.Value} (hSize : bytes.length ≤ Cbor.maxPosition)
    (h : Cbor.Spells 127 (.array elements) bytes) : decode bytes = .ok elements := by
  have hRead := h.takes hSize .root [] (Nat.le_of_eq (by rw [List.append_nil]))
  rw [List.append_nil] at hRead
  rw [decode, Cbor.maxDepth, hRead]
  rfl

theorem refusal?_of_decode {elements : List Cbor.Value} (hDecode : decode bytes = .ok elements)
    (hNumber : 1 ≤ screens.length ∧ screens.length ≤ 255)
    (h : List.Forall₂ (fun value screen => Screen.ofValue value = .ok screen) elements screens) :
    refusal? bytes = none := by
  have hLength := h.length_eq
  rw [refusal?, hDecode]
  show (if elements.length = 0 ∨ 255 < elements.length then _ else _) = _
  rw [if_neg (by omega), List.findSome?_eq_none_iff]
  intro value hValue
  obtain ⟨screen, _, hScreen⟩ := Forall₂.exists_of_mem h hValue
  rw [Screen.fault?, hScreen]

/-- From 1 to 255 screens within their bounds are read from all octets within the limit that spell
them: the list has as many screens, and to experts each is the one that has been written. -/
theorem parse_of_spells {limits : Limits} (hNumber : 1 ≤ screens.length ∧ screens.length ≤ 255)
    (hFits : ∀ screen ∈ screens, screen.Fits) (hSpells : Spells screens bytes)
    (hSize : bytes.length ≤ limits.maxBytes) :
    ∃ list, parse bytes limits = .ok list ∧ list.length = screens.length ∧
      ∀ n screen, screens[n]? = some screen → list.screen true n = .ok screen := by
  obtain ⟨hWritten, hSpells⟩ := hSpells
  have hScreens := forall₂_ofValue hWritten hFits
  have hDecode := decode_of_spells (length_le_of_spells hFits hNumber.2 hWritten hSpells) hSpells
  obtain ⟨_, _, _, hWalk⟩ := walk_of_accepted (refusal?_of_decode hDecode hNumber hScreens)
  have hParse : ∃ list, parse bytes limits = .ok list := by
    rw [parse, if_neg (Nat.not_lt.mpr hSize)]
    exact ⟨_, congrArg (· >>= _) (hWalk none)⟩
  obtain ⟨list, hParse⟩ := hParse
  obtain ⟨elements, read, hElements, hRead, hHolds⟩ := exists_holds hParse
  obtain rfl := Except.ok.inj (hElements.symm.trans hDecode)
  have hUnique : Relator.RightUnique fun value screen => Screen.ofValue value = .ok screen :=
    fun _ _ _ hOne hOther => Except.ok.inj (hOne.symm.trans hOther)
  obtain rfl : read = screens := List.right_unique_forall₂' hUnique hRead hScreens
  refine ⟨list, hParse, hHolds.size_eq true, fun n screen hScreen => ?_⟩
  rw [hHolds.screen_eq, shown, if_pos rfl, hScreen]

/-- One screen behind a tag, in an array and a map that end with breaks; the content has a wide
head, and the indent is written although it is the default. -/
def wideForm : Bytes :=
  [0xc6, 0x9f, 0xbf, 0x01, 0x62, 0x54, 0x6f, 0x02, 0x78, 0x01, 0x41, 0x03, 0x00, 0xff, 0xff]

def wideScreen : Screen := { title := some "To", content := "A" }

theorem spells_wideForm : Spells [wideScreen] wideForm := by
  let fields : List (Nat × Cbor.Value) := [(1, .text "To"), (2, .text "A"), (3, .unsigned 0)]
  have hWrites : wideScreen.Writes fields := .intro .written (.leftOut rfl)
  have hNumber : ∀ n < 24, Cbor.Spells 124 (.unsigned n) [UInt8.ofNat (0 * 32 + n)] :=
    fun n hn => .scalar (.unsigned (.short hn))
  have hTitle : Cbor.Spells 124 (.text "To")
      ([UInt8.ofNat (3 * 32 + "To".utf8ByteSize)] ++ Bytes.ofString "To") :=
    .scalar (.text (.short (by decide +kernel)))
  have hContent : Cbor.Spells 124 (.text "A")
      (UInt8.ofNat (3 * 32 + 24) :: Cbor.octets 1 "A".utf8ByteSize ++ Bytes.ofString "A") :=
    .scalar (.text (.long (by decide) (by decide +kernel)))
  have hScreen : Cbor.Spells 125 (Screen.valueOf fields) _ :=
    @SpellsAround.map _ _ [(_, _), (_, _), (_, _)] _
      (.cons ⟨hNumber 1 (by decide), hTitle⟩ (.cons ⟨hNumber 2 (by decide), hContent⟩
        (.cons ⟨hNumber 3 (by decide), hNumber 0 (by decide)⟩ .nil))) .ended
  have hArray : Cbor.Spells 126 (.array [Screen.valueOf fields]) _ :=
    .array (.cons hScreen .nil) .ended
  have hAll : Cbor.Spells 127 (.array [Screen.valueOf fields]) _ :=
    .tag (.short (Nat.le_of_ble_eq_true rfl : 6 < 24)) hArray
  have hSame : ∀ bytes, Cbor.Spells 127 (.array [Screen.valueOf fields]) bytes →
      bytes = wideForm → Spells [wideScreen] wideForm :=
    fun bytes hSpells hBytes => .intro (.cons hWrites .nil) (hBytes ▸ hSpells)
  exact hSame _ hAll (by decide +kernel)

theorem parse_of_spells_wideForm :
    ∃ list, parse wideForm {} = .ok list ∧ list.length = 1 ∧
      list.screen true 0 = .ok wideScreen := by
  have hFits : ∀ screen ∈ [wideScreen], screen.Fits := by
    intro screen hScreen
    obtain rfl := List.mem_singleton.mp hScreen
    refine ⟨fun title hTitle => ?_, by decide +kernel, by decide⟩
    obtain rfl := Option.some.inj hTitle
    decide +kernel
  obtain ⟨list, hParse, hLength, hScreens⟩ :=
    @parse_of_spells [wideScreen] wideForm {} (by decide) hFits spells_wideForm (by decide)
  exact ⟨list, hParse, hLength, hScreens 0 wideScreen rfl⟩

end SignReview.ScreenList
