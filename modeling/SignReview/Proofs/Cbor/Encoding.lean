import SignReview.Proofs.Cbor.Series

/-!
# How values are spelled

A value may be spelled in many ways: the argument of a head may take more octets than it needs, a
container may say its size or end with a break, and tags may stand in front of any value.  Whatever
the spelling, the value is read from it, and what follows it is left.

* `Cbor.SpellsHead`: a head and its argument, `Cbor.SpellsContainer`: the two forms of a container.
* `Cbor.Spells`: a value in which containers and tags lie within a certain depth.
* `Reader.Takes`: what a reader takes off the front, `Cbor.Spells.takes`: a value that is spelled is
  taken.
* `Cbor.Spells.length_le`: how long a spelling is.
-/

namespace SignReview

/-! ### Spellings -/

namespace Cbor

/-- The last `width` octets of a number, the most significant first. -/
def octets : (width : Nat) → Nat → Bytes
  | 0, _ => []
  | width + 1, n => octets width (n / 256) ++ [UInt8.ofNat (n % 256)]

/-- The least number that `width` octets are too few for. -/
def bound : (width : Nat) → Nat
  | 0 => 1
  | width + 1 => bound width * 256

/-- The last bits of a first octet that announce an argument, and how many octets it takes. -/
def widths : List (Nat × Nat) := [(24, 1), (25, 2), (26, 4), (27, 8)]

/-- Octets that spell the head of a value of the kind `major` with the argument `n`. -/
inductive SpellsHead (major n : Nat) : Bytes → Prop
  | short : n < 24 → SpellsHead major n [UInt8.ofNat (major * 32 + n)]
  | long {info width : Nat} : (info, width) ∈ widths → n < bound width →
      SpellsHead major n (UInt8.ofNat (major * 32 + info) :: octets width n)

inductive SpellsScalar : Value → Bytes → Prop
  | unsigned {n : Nat} {head : Bytes} : SpellsHead 0 n head → SpellsScalar (.unsigned n) head
  | text {text : String} {head : Bytes} : SpellsHead 3 text.utf8ByteSize head →
      SpellsScalar (.text text) (head ++ Bytes.ofString text)
  | no : SpellsScalar (.bool false) [0xf4]
  | yes : SpellsScalar (.bool true) [0xf5]

/-- Octets that spell a container of the kind `major` around `size` parts, given the octets of the
parts: it says its size, or it ends with a break. -/
inductive SpellsContainer (major size : Nat) (contents : Bytes) : Bytes → Prop
  | sized {head : Bytes} : SpellsHead major size head →
      SpellsContainer major size contents (head ++ contents)
  | ended : SpellsContainer major size contents
      (UInt8.ofNat (major * 32 + 31) :: (contents ++ [0xff]))

/-- Octets that spell a value, given how the values one level deeper are spelled. -/
inductive SpellsAround (Inner : Value → Bytes → Prop) : Value → Bytes → Prop
  | scalar {value : Value} {bytes : Bytes} : SpellsScalar value bytes →
      SpellsAround Inner value bytes
  | array {elements : List Value} {parts : List Bytes} {bytes : Bytes} :
      List.Forall₂ Inner elements parts →
      SpellsContainer 4 elements.length parts.flatten bytes →
      SpellsAround Inner (.array elements) bytes
  | map {entries : List (Value × Value)} {parts : List (Bytes × Bytes)} {bytes : Bytes} :
      List.Forall₂ (fun entry part => Inner entry.1 part.1 ∧ Inner entry.2 part.2) entries parts →
      SpellsContainer 5 entries.length (parts.flatMap fun part => part.1 ++ part.2) bytes →
      SpellsAround Inner (.map entries) bytes
  | tag {n : Nat} {head inner : Bytes} {value : Value} : SpellsHead 6 n head → Inner value inner →
      SpellsAround Inner value (head ++ inner)

/-- Octets that spell a value in which containers and tags lie at most `depth` deep. -/
def Spells : (depth : Nat) → Value → Bytes → Prop
  | 0 => SpellsScalar
  | depth + 1 => SpellsAround (Spells depth)

end Cbor

/-! ### Readers -/

/-- In an input of at most `size` octets, the reader takes these octets off the front for `a`,
whatever follows. -/
def Reader.Takes {α : Type} (size : Nat) (read : Reader α) (bytes : Bytes) (a : α) : Prop :=
  ∀ rest, (bytes ++ rest).length ≤ size → read (bytes ++ rest) = .ok (a, rest)

namespace Reader.Takes

variable {α β : Type} {size : Nat}

theorem pure (a : α) : Takes size (pure a) [] a := fun _ _ => rfl

theorem bind {first : Reader β} {next : β → Reader α} {front back : Bytes} {b : β} {a : α}
    (hFirst : Takes size first front b) (hNext : Takes size (next b) back a) :
    Takes size (first >>= next) (front ++ back) a := by
  intro rest hSize
  rw [List.append_assoc] at hSize ⊢
  show (first (front ++ (back ++ rest)) >>= fun taken => next taken.1 taken.2) = _
  rw [hFirst _ hSize, ok_bind]
  rw [List.length_append] at hSize
  exact hNext rest (by omega)

theorem map {read : Reader β} {bytes : Bytes} {b : β} (h : Takes size read bytes b) (f : β → α) :
    Takes size (read >>= fun b => Pure.pure (f b)) bytes (f b) := by
  have hBoth : Takes size (read >>= fun b => Pure.pure (f b)) (bytes ++ []) (f b) :=
    h.bind (pure (f b))
  rwa [List.append_nil] at hBoth

theorem discard {read : Reader β} {bytes : Bytes} {b : β} (h : Takes size read bytes b) :
    Takes size (discard read) bytes () := by
  intro rest hSize
  show (read (bytes ++ rest) >>= fun taken => .ok ((), taken.2)) = _
  rw [h rest hSize, ok_bind]

theorem cons {read next : Reader α} {c : UInt8} {tail : Bytes} {a : α}
    (hRead : ∀ input, read (c :: input) = next input) (hNext : Takes size next tail a) :
    Takes size read (c :: tail) a := by
  intro rest hSize
  rw [List.cons_append, List.length_cons] at hSize
  exact (hRead _).trans (hNext rest (by omega))

theorem take {bytes : Bytes} {n : Nat} (h : bytes.length = n) :
    Takes size (Reader.take n) bytes bytes := by
  intro rest _
  have hTake : (bytes ++ rest).take n = bytes := h ▸ List.take_left
  have hDrop : (bytes ++ rest).drop n = rest := h ▸ List.drop_left
  rw [Reader.take, hTake, hDrop, if_pos h]

theorem times {read : Reader α} {as : List α} {parts : List Bytes}
    (h : List.Forall₂ (fun a part => Takes size read part a) as parts) :
    Takes size (Reader.times read as.length) parts.flatten as := by
  induction h with
  | nil => exact pure []
  | cons hFirst _ ih => exact hFirst.bind (ih.map _)

end Reader.Takes

namespace Cbor

open Reader (Takes)

def Begins (bytes : Bytes) : Prop := ∃ c tail, bytes = c :: tail ∧ c ≠ 0xff

theorem Begins.append {front : Bytes} (h : Begins front) (back : Bytes) :
    Begins (front ++ back) := by
  obtain ⟨c, tail, rfl, hBreak⟩ := h
  exact ⟨c, tail ++ back, rfl, hBreak⟩

theorem Begins.length_pos {bytes : Bytes} (h : Begins bytes) : 0 < bytes.length := by
  obtain ⟨c, tail, rfl, _⟩ := h
  exact Nat.succ_pos _

section UntilBreak

variable {α : Type} {size : Nat} {read : Reader α} {as : List α} {parts : List Bytes}

theorem length_le_of_begins {P : α → Bytes → Prop}
    (h : List.Forall₂ (fun a part => Begins part ∧ P a part) as parts) :
    as.length ≤ parts.flatten.length := by
  induction h with
  | nil => exact Nat.zero_le _
  | cons hFirst _ ih =>
    have hPos := hFirst.1.length_pos
    rw [List.length_cons, List.flatten_cons, List.length_append]
    omega

/-- Values are taken one by one until the break comes, if the reader has turns enough. -/
theorem untilBreakFrom_eq
    (h : List.Forall₂ (fun a part => Begins part ∧ Takes size read part a) as parts) :
    ∀ {most : Nat}, as.length < most → ∀ rest, (parts.flatten ++ 0xff :: rest).length ≤ size →
      Reader.untilBreakFrom read most (parts.flatten ++ 0xff :: rest) = .ok (as, rest) := by
  induction h with
  | nil =>
    intro most hMost rest _
    obtain ⟨most, rfl⟩ := Nat.exists_eq_add_one.mpr hMost
    rw [List.flatten_nil, List.nil_append, Reader.untilBreakFrom_cons, if_pos rfl]
  | @cons a part as parts hFirst _ ih =>
    intro most hMost rest hSize
    rw [List.length_cons] at hMost
    obtain ⟨most, rfl⟩ := Nat.exists_eq_add_one.mpr (Nat.zero_lt_of_lt hMost)
    rw [List.flatten_cons, List.append_assoc] at hSize ⊢
    obtain ⟨⟨c, tail, rfl, hBreak⟩, hTakes⟩ := hFirst
    have hRest := ih (Nat.lt_of_succ_lt_succ hMost) rest (by
      rw [List.length_append] at hSize
      omega)
    have hRead := hTakes _ hSize
    rw [List.cons_append] at hRead ⊢
    rw [Reader.untilBreakFrom_cons, if_neg hBreak, hRead, ok_bind, hRest, ok_bind]

theorem takes_untilBreak
    (h : List.Forall₂ (fun a part => Begins part ∧ Takes size read part a) as parts) :
    Takes size (Reader.untilBreak read) (parts.flatten ++ [0xff]) as := by
  intro rest hSize
  rw [List.append_assoc] at hSize ⊢
  refine untilBreakFrom_eq h ?_ rest hSize
  -- no part is empty, so there are fewer values than octets
  have hLength := length_le_of_begins h
  simp only [List.singleton_append, List.length_append, List.length_cons]
  omega

end UntilBreak

/-! ### Heads -/

theorem length_octets (width n : Nat) : (octets width n).length = width := by
  induction width generalizing n with
  | zero => rfl
  | succ width ih => rw [octets, List.length_append, ih, List.length_singleton]

theorem bigEndian_append (bytes : Bytes) (c : UInt8) :
    bigEndian (bytes ++ [c]) = bigEndian bytes * 256 + c.toNat := by
  rw [bigEndian, List.foldl_append]
  rfl

theorem bigEndian_octets {width n : Nat} (h : n < bound width) :
    bigEndian (octets width n) = n := by
  induction width generalizing n with
  | zero =>
    rw [bound] at h
    obtain rfl : n = 0 := by omega
    rfl
  | succ width ih =>
    rw [bound] at h
    have hQuotient : n / 256 < bound width := Nat.div_lt_of_lt_mul (Nat.mul_comm _ _ ▸ h)
    have hOctet : (UInt8.ofNat (n % 256)).toNat = n % 256 := by
      rw [UInt8.toNat_ofNat']
      omega
    rw [octets, bigEndian_append, ih hQuotient, hOctet]
    omega

theorem mem_widths_iff {info width : Nat} : (info, width) ∈ widths ↔
    info = 24 ∧ width = 1 ∨ info = 25 ∧ width = 2 ∨ info = 26 ∧ width = 4 ∨
      info = 27 ∧ width = 8 := by
  simp only [widths, List.mem_cons, Prod.mk.injEq, List.not_mem_nil, or_false]

theorem length_le_of_spellsHead {major n : Nat} {head : Bytes} (h : SpellsHead major n head) :
    head.length ≤ 9 := by
  cases h with
  | short hn => exact Nat.le_of_ble_eq_true rfl
  | long hWidth hn =>
    rw [mem_widths_iff] at hWidth
    rw [List.length_cons, length_octets]
    omega

theorem takes_argument_short {size n : Nat} (hn : n < 24) : Takes size (argument n) [] n := by
  have hSmall : argument n = Pure.pure n := by
    unfold argument
    split
    · omega
    · omega
    · omega
    · omega
    · rw [if_pos hn]
  rw [hSmall]
  exact Takes.pure n

theorem takes_argument_long {size info width n : Nat} (hWidth : (info, width) ∈ widths)
    (hn : n < bound width) : Takes size (argument info) (octets width n) n := by
  have hTake : Takes size (Reader.take width >>= fun bytes => Pure.pure (bigEndian bytes))
      (octets width n) (bigEndian (octets width n)) :=
    (Takes.take (length_octets width n)).map bigEndian
  rw [bigEndian_octets hn] at hTake
  rcases mem_widths_iff.mp hWidth with ⟨rfl, rfl⟩ | ⟨rfl, rfl⟩ | ⟨rfl, rfl⟩ | ⟨rfl, rfl⟩
  · exact hTake
  · exact hTake
  · exact hTake
  · exact hTake

/-- The first octet of a head says the kind of the value in three bits, and in five what the
argument is. -/
theorem toNat_first {major info : Nat} (hMajor : major < 8) (hInfo : info < 32) :
    (UInt8.ofNat (major * 32 + info)).toNat / 32 = major ∧
      (UInt8.ofNat (major * 32 + info)).toNat % 32 = info := by
  rw [UInt8.toNat_ofNat']
  omega

theorem ne_break {c : UInt8} (h : c.toNat / 32 < 7) : c ≠ 0xff := by
  rintro rfl
  exact absurd h (by decide)

/-- A head is an octet that names the kind of the value, and its argument. -/
theorem SpellsHead.exists_argument {major n : Nat} {head : Bytes} (h : SpellsHead major n head)
    (hMajor : major < 8) (size : Nat) :
    ∃ c tail, head = c :: tail ∧ c.toNat / 32 = major ∧ c.toNat % 32 < 31 ∧
      Takes size (argument (c.toNat % 32)) tail n := by
  cases h with
  | short hn =>
    obtain ⟨hKind, hInfo⟩ := toNat_first hMajor (Nat.lt_trans hn (by decide : 24 < 32))
    refine ⟨_, [], rfl, hKind, by omega, ?_⟩
    rw [hInfo]
    exact takes_argument_short hn
  | @long info width hWidth hn =>
    have hSmall : info < 31 := by
      rw [mem_widths_iff] at hWidth
      omega
    obtain ⟨hKind, hInfo⟩ := toNat_first hMajor (Nat.lt_succ_of_lt hSmall)
    refine ⟨_, octets width n, rfl, hKind, by omega, ?_⟩
    rw [hInfo]
    exact takes_argument_long hWidth hn

theorem takes_sizeArgument {size info n : Nat} {tail : Bytes} (hInfo : info < 31)
    (h : Takes size (argument info) tail n) : Takes size (sizeArgument info) tail (some n) := by
  rw [sizeArgument, if_neg (by omega)]
  exact h.map some

theorem SpellsHead.begins {major n : Nat} {head : Bytes} (h : SpellsHead major n head)
    (hMajor : major < 7) : Begins head := by
  obtain ⟨c, tail, hHead, rfl, _⟩ := h.exists_argument (Nat.lt_succ_of_lt hMajor) 0
  exact ⟨c, tail, hHead, ne_break hMajor⟩

/-! ### Values that hold no other -/

section Scalar

variable {size : Nat}

theorem takes_unsigned (role : Role) {n : Nat} {head : Bytes} (h : SpellsHead 0 n head) :
    Takes size (Head.read size role) head (.scalar (.unsigned n)) := by
  obtain ⟨c, tail, rfl, hKind, _, hArgument⟩ := h.exists_argument (by omega) size
  refine Takes.cons (fun input => ?_) (hArgument.map fun n => Head.scalar (.unsigned n))
  simp only [Head.read, Reader.byte, Bind.bind, StateT.bind, Except.bind, hKind]

theorem fromUTF8?_ofString (text : String) :
    String.fromUTF8? ⟨(Bytes.ofString text).toArray⟩ = some text := by
  have hBytes : (⟨(Bytes.ofString text).toArray⟩ : ByteArray) = text.toByteArray := by
    rw [Bytes.ofString, Array.toArray_toList]
    rfl
  rw [hBytes, String.fromUTF8?, dif_pos text.isValidUTF8]
  rfl

/-- A text that lies within the input does not end behind the last position. -/
theorem takes_textString (hSize : size ≤ maxPosition) {info : Nat} {text : String} {tail : Bytes}
    (hInfo : info < 31) (hArgument : Takes size (argument info) tail text.utf8ByteSize) :
    Takes size (textString size info) (tail ++ Bytes.ofString text) (.text text) := by
  apply (takes_sizeArgument hInfo hArgument).bind
  intro rest hLength
  have hText : (Bytes.ofString text).length = text.utf8ByteSize := rfl
  have hTake := Takes.take hText rest hLength
  rw [List.length_append] at hLength
  have hRoom : overruns size text.utf8ByteSize (Bytes.ofString text ++ rest) = false := by
    rw [overruns, List.length_append, Bool.and_eq_false_iff, decide_eq_false_iff_not,
      decide_eq_false_iff_not]
    omega
  show (if overruns size text.utf8ByteSize (Bytes.ofString text ++ rest) then _ else _ :
    Reader Value) _ = _
  rw [hRoom, if_neg Bool.false_ne_true]
  show (Reader.take text.utf8ByteSize (Bytes.ofString text ++ rest) >>= _) = _
  rw [hTake, ok_bind]
  simp only [fromUTF8?_ofString]
  rfl

theorem takes_text (hSize : size ≤ maxPosition) (role : Role) {text : String} {head : Bytes}
    (h : SpellsHead 3 text.utf8ByteSize head) :
    Takes size (Head.read size role) (head ++ Bytes.ofString text) (.scalar (.text text)) := by
  obtain ⟨c, tail, rfl, hKind, hInfo, hArgument⟩ := h.exists_argument (by omega) size
  refine Takes.cons (fun input => ?_) ((takes_textString hSize hInfo hArgument).map Head.scalar)
  simp only [Head.read, Reader.byte, Bind.bind, StateT.bind, Except.bind, hKind]

theorem SpellsScalar.takes (hSize : size ≤ maxPosition) (role : Role) {value : Value}
    {bytes : Bytes} (h : SpellsScalar value bytes) :
    Takes size (Head.read size role) bytes (.scalar value) := by
  cases h with
  | unsigned hHead => exact takes_unsigned role hHead
  | text hHead => exact takes_text hSize role hHead
  | no => exact fun _ _ => rfl
  | yes => exact fun _ _ => rfl

theorem SpellsScalar.begins {value : Value} {bytes : Bytes} (h : SpellsScalar value bytes) :
    Begins bytes := by
  cases h with
  | unsigned hHead => exact hHead.begins (by omega)
  | text hHead => exact (hHead.begins (by omega)).append _
  | no => exact ⟨0xf4, [], rfl, by decide⟩
  | yes => exact ⟨0xf5, [], rfl, by decide⟩

end Scalar

/-! ### Values that hold others -/

section Container

variable {size : Nat}

theorem SpellsContainer.begins {major n : Nat} {contents bytes : Bytes}
    (h : SpellsContainer major n contents bytes) (hMajor : major < 7) : Begins bytes := by
  cases h with
  | sized hHead => exact (hHead.begins hMajor).append _
  | ended =>
    obtain ⟨hKind, _⟩ := toNat_first (Nat.lt_succ_of_lt hMajor) (by decide : 31 < 32)
    exact ⟨_, _, rfl, ne_break (hKind.symm ▸ hMajor)⟩

theorem SpellsContainer.length_le {major n : Nat} {contents bytes : Bytes}
    (h : SpellsContainer major n contents bytes) : bytes.length ≤ contents.length + 9 := by
  cases h with
  | sized hHead =>
    have hLength := length_le_of_spellsHead hHead
    rw [List.length_append]
    omega
  | ended =>
    rw [List.length_cons, List.length_append, List.length_singleton]
    omega

theorem Head.read_array (role : Role) {c : UInt8} (h : c.toNat / 32 = 4) (input : Bytes) :
    Head.read size role (c :: input) =
      (sizeArgument (c.toNat % 32) >>= fun n => (return .array n : Reader Head)) input := by
  simp only [Head.read, Reader.byte, Bind.bind, StateT.bind, Except.bind, h]

theorem Head.read_map (role : Role) {c : UInt8} (h : c.toNat / 32 = 5) (input : Bytes) :
    Head.read size role (c :: input) =
      (sizeArgument (c.toNat % 32) >>= fun n => (return .map n : Reader Head)) input := by
  simp only [Head.read, Reader.byte, Bind.bind, StateT.bind, Except.bind, h]

/-- In either form of a container, its head says how its parts are read. -/
theorem SpellsContainer.exists_head {major n : Nat} {contents bytes : Bytes}
    (h : SpellsContainer major n contents bytes) (hMajor : major < 7) {readHead : Reader Head}
    (ofSize : Option Nat → Head)
    (hHead : ∀ (c : UInt8) input, c.toNat / 32 = major → readHead (c :: input) =
      (sizeArgument (c.toNat % 32) >>= fun n => (return ofSize n : Reader Head)) input)
    {α : Type} {read : Reader α} {as : List α} {parts : List Bytes} (hLength : as.length = n)
    (hContents : contents = parts.flatten)
    (hParts : List.Forall₂ (fun a part => Begins part ∧ Takes size read part a) as parts) :
    ∃ size? front back, bytes = front ++ back ∧ Takes size readHead front (ofSize size?) ∧
      Takes size (series size? read) back as := by
  subst hContents hLength
  cases h with
  | @sized head hSpells =>
    obtain ⟨c, tail, rfl, hKind, hInfo, hArgument⟩ := hSpells.exists_argument (by omega) size
    refine ⟨some as.length, c :: tail, parts.flatten, rfl, ?_, ?_⟩
    · exact Takes.cons (fun input => hHead c input hKind)
        ((takes_sizeArgument hInfo hArgument).map ofSize)
    · exact Takes.times (hParts.imp fun _ _ hPart => hPart.2)
  | ended =>
    obtain ⟨hKind, hInfo⟩ := toNat_first (Nat.lt_succ_of_lt hMajor) (by decide : 31 < 32)
    refine ⟨none, [UInt8.ofNat (major * 32 + 31)], parts.flatten ++ [0xff], rfl, ?_, ?_⟩
    · refine Takes.cons (fun input => hHead _ input hKind) ?_
      rw [hInfo]
      exact (Takes.pure none).map ofSize
    · exact takes_untilBreak hParts

end Container

/-! ### Values -/

theorem Spells.begins {depth : Nat} {value : Value} {bytes : Bytes}
    (h : Spells depth value bytes) : Begins bytes := by
  cases depth with
  | zero => exact SpellsScalar.begins h
  | succ depth =>
    cases h with
    | scalar hScalar => exact hScalar.begins
    | array _ hArray => exact hArray.begins (by omega)
    | map _ hMap => exact hMap.begins (by omega)
    | tag hHead _ => exact (hHead.begins (by omega)).append _

theorem takes_tag {size : Nat} (role : Role) {n : Nat} {head : Bytes} (h : SpellsHead 6 n head) :
    Takes size (Head.read size role) head .tag := by
  obtain ⟨c, tail, rfl, hKind, _, hArgument⟩ := h.exists_argument (by omega) size
  refine Takes.cons (fun input => ?_) (hArgument.discard.map fun _ => Head.tag)
  simp only [Head.read, Reader.byte, Bind.bind, StateT.bind, Except.bind, hKind]

theorem takes_entry {size : Nat} {read : Reader Value} {entry : Value × Value}
    {part : Bytes × Bytes} (hKey : Takes size read part.1 entry.1)
    (hValue : Takes size read part.2 entry.2) :
    Takes size (Cbor.entry read) (part.1 ++ part.2) entry :=
  hKey.bind (hValue.map (Prod.mk entry.1))

/-- What spells a value is read as this value, whatever follows it. -/
theorem Spells.takes {size : Nat} (hSize : size ≤ maxPosition) {depth : Nat} (role : Role)
    {value : Value} {bytes : Bytes} (h : Spells depth value bytes) :
    Takes size (Value.read size depth role) bytes value := by
  induction depth generalizing role value bytes with
  | zero =>
    have hHead := SpellsScalar.takes hSize role h
    rw [← List.append_nil bytes]
    exact hHead.bind (Takes.pure value)
  | succ depth ih =>
    cases h with
    | scalar hScalar =>
      rw [← List.append_nil bytes]
      exact (hScalar.takes hSize role).bind (Takes.pure value)
    | array hElements hArray =>
      -- the elements lie one level deeper, and are read in any role
      have hParts := hElements.imp fun _ _ hPart => And.intro hPart.begins (ih role.ofElement hPart)
      obtain ⟨_, _, _, rfl, hHead, hBack⟩ := hArray.exists_head (by omega) Head.array
        (fun _ input hKind => Head.read_array role hKind input) rfl rfl hParts
      exact hHead.bind (hBack.map Value.array)
    | @map entries parts bytes hEntries hMap =>
      have hParts : List.Forall₂ (fun entry part => Begins part ∧
          Takes size (Cbor.entry (Value.read size depth role.ofEntry)) part entry) entries
          (parts.map fun part => part.1 ++ part.2) := by
        rw [List.forall₂_map_right_iff]
        refine hEntries.imp fun entry part hPart => ⟨hPart.1.begins.append _, ?_⟩
        exact takes_entry (ih role.ofEntry hPart.1) (ih role.ofEntry hPart.2)
      obtain ⟨_, _, _, rfl, hHead, hBack⟩ := hMap.exists_head (by omega) Head.map
        (fun _ input hKind => Head.read_map role hKind input) rfl List.flatMap_def hParts
      exact hHead.bind (hBack.map Value.map)
    | tag hHead hInner => exact (takes_tag role hHead).bind (ih role hInner)

/-! ### Lengths -/

def Value.parts : Value → List Value
  | .array elements => elements
  | .map entries => entries.flatMap fun entry => [entry.1, entry.2]
  | _ => []

def Value.textSize : Value → Nat
  | .text content => content.utf8ByteSize
  | _ => 0

theorem SpellsScalar.length_le {value : Value} {bytes : Bytes} (h : SpellsScalar value bytes) :
    bytes.length ≤ value.textSize + 9 := by
  cases h with
  | unsigned hHead => exact Nat.le_add_left_of_le (length_le_of_spellsHead hHead)
  | @text text head hHead =>
    have hLength := length_le_of_spellsHead hHead
    have hText : (Bytes.ofString text).length = text.utf8ByteSize := rfl
    rw [List.length_append, Value.textSize]
    omega
  | no => exact Nat.le_of_ble_eq_true rfl
  | yes => exact Nat.le_of_ble_eq_true rfl

theorem length_flatten_le {α : Type} {P : α → Bytes → Prop} {as : List α} {parts : List Bytes}
    (h : List.Forall₂ P as parts) {most : Nat}
    (hMost : ∀ a ∈ as, ∀ part, P a part → part.length ≤ most) :
    parts.flatten.length ≤ as.length * most := by
  induction h with
  | nil => exact Nat.zero_le _
  | cons hFirst _ ih =>
    obtain ⟨hHere, hMost⟩ := List.forall_mem_cons.mp hMost
    have hPart := hHere _ hFirst
    have hRest := ih hMost
    rw [List.flatten_cons, List.length_append, List.length_cons, Nat.succ_mul]
    omega

/-- Heads and tags take nine octets each at most, so a spelling is not much longer than the texts
in it. -/
theorem Spells.length_le {depth : Nat} {value : Value} {bytes : Bytes}
    (h : Spells depth value bytes) (most : Nat)
    (hMost : ∀ part ∈ value.parts, ∀ inner < depth, ∀ bytes, Spells inner part bytes →
      bytes.length ≤ most) :
    bytes.length ≤ value.textSize + value.parts.length * most + 9 * (depth + 1) := by
  induction depth generalizing bytes with
  | zero =>
    have hLength := SpellsScalar.length_le h
    omega
  | succ depth ih =>
    cases h with
    | scalar hScalar =>
      have hLength := hScalar.length_le
      omega
    | @array elements parts bytes hElements hArray =>
      have hParts := length_flatten_le hElements fun part hPart =>
        hMost part hPart depth (Nat.lt_succ_self depth)
      have hLength := hArray.length_le
      rw [Value.parts]
      omega
    | @map entries parts bytes hEntries hMap =>
      have hFlat : List.Forall₂ (Spells depth) (entries.flatMap fun entry => [entry.1, entry.2])
          (parts.flatMap fun part => [part.1, part.2]) :=
        List.rel_flatMap hEntries fun _ _ hPart => .cons hPart.1 (.cons hPart.2 .nil)
      have hParts := length_flatten_le hFlat fun part hPart =>
        hMost part hPart depth (Nat.lt_succ_self depth)
      have hSame : (parts.flatMap fun part => [part.1, part.2]).flatten =
          parts.flatMap fun part => part.1 ++ part.2 := by
        simp [List.flatMap_def, List.flatten_flatten, Function.comp_def]
      have hLength := hMap.length_le
      rw [hSame] at hParts
      rw [Value.parts]
      omega
    | tag hHead hInner =>
      have hLength := length_le_of_spellsHead hHead
      have hRest := ih hInner fun part hPart inner hDepth =>
        hMost part hPart inner (Nat.lt_succ_of_lt hDepth)
      rw [List.length_append]
      omega

end Cbor

end SignReview
