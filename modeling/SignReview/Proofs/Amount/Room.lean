import SignReview.Proofs.Amount.Numerals
import SignReview.Proofs.Amount.Pages
import SignReview.Proofs.Json.Subtree

/-!
# Room for coins

A coin is written into a text of 256 octets.  An amount that is converted takes room for all digits
of its fraction before the zeros at its end go, which may be far more than are shown.  There is room
for that too, whatever the coin, unless a chain has very many decimals or a very long denomination.

* `Chain.LeavesRoom`: the chains for which there is room.
* `Decimal.length_pieces_le`, `Decimal.length_trimmed_le`: the lengths of an amount.
* `Coin.text_write_eq`: a coin is written if it has a text, `Coin.exists_text_iff`: which trees are
  shown as coins.
* `Coin.run_writePage_of_room`: how a page of coins is not shown.
-/

namespace SignReview

open Json

/-- There is room for an amount of 64 digits with all digits of its fraction, for a zero and a
point, and for a blank and the denomination that is shown. -/
def Chain.LeavesRoom (chain : Chain) : Prop :=
  3 + max 63 chain.decimals + chain.displayDenom.length ≤ 256

/-! ### Lengths of amounts -/

namespace Decimal

/-- The length of an amount before zeros go.  The digits behind the point are as many as asked for,
and there is one in front of it at least. -/
theorem length_pieces_le {amount : Bytes} {decimals : Nat} {d : Decimal}
    (h : ofDigits? amount decimals = some d) :
    d.pieces.flatten.length ≤ 2 + max (amount.length - 1) decimals := by
  have hDigits : (amount.dropWhile (· == 0x30)).length ≤ amount.length :=
    (List.dropWhile_suffix _).length_le
  rw [ofDigits?] at h
  dsimp only at h
  split at h
  · cases h
  · split at h
    · rw [← Option.some.inj h]
      simp [pieces]
      omega
    · rw [← Option.some.inj h]
      simp [pieces]
      omega

theorem length_trim_le (least : Nat) (digits : Bytes) :
    (trim least digits).length ≤ digits.length := by
  obtain ⟨n, hRest, _⟩ := stripZeros_spec (digits.drop least)
  have hLength := congrArg List.length hRest
  simp only [List.length_append, List.length_replicate, List.length_drop] at hLength
  rw [trim, List.length_append, List.length_take]
  omega

theorem length_trimmed_le (d : Decimal) (least : Nat) :
    (d.trimmed least).length ≤ d.pieces.flatten.length := by
  have hTrim := length_trim_le least d.allDigits
  rw [flatten_pieces, trimmed]
  split
  · simp
  · rename_i hSome
    rw [List.length_append, List.length_cons, List.length_append, List.length_cons]
    omega

end Decimal

/-! ### Coins that are shown -/

namespace Coin

variable {chain : Option Chain}

theorem shown?_eq_none_iff {coin : Coin} :
    coin.shown? chain = none ↔
      ∃ c, chain = some c ∧ c.baseDenom = coin.denom ∧ ¬Grammar.Digits coin.amount := by
  simp only [← and_assoc, ← converting?_eq_some_iff]
  rw [shown?]
  cases hChain : coin.converting? chain with
  | none => simp
  | some c =>
    rw [Option.map_eq_none_iff, Decimal.ofDigits?_eq_none_iff]
    simp

/-- There is room for a coin that has a text. -/
theorem text_write_eq {coin : Coin} (hSized : coin.Sized)
    (hRoom : ∀ c, chain = some c → c.LeavesRoom) :
    (coin.write capacity chain).text = (coin.shown? chain).elim (.error .unexpectedValue) .ok := by
  obtain ⟨⟨_, hAmount⟩, ⟨_, hDenom⟩⟩ := hSized
  rw [maxAmount] at hAmount
  rw [maxDenom] at hDenom
  rw [write, shown?]
  cases hChain : coin.converting? chain with
  | none =>
    dsimp only
    rw [Writer.text_append_of_le (by simp [capacity]; omega)]
    simp
  | some c =>
    obtain ⟨hSome, _⟩ := converting?_eq_some_iff.mp hChain
    have hLeft := hRoom c hSome
    rw [Chain.LeavesRoom] at hLeft
    dsimp only
    cases hDigits : Decimal.ofDigits? coin.amount c.decimals with
    | none =>
      rw [Writer.text, EStateM.run_bind,
        Decimal.run_write_of_none (Decimal.ofDigits?_eq_none_iff.mp hDigits)]
      rfl
    | some d =>
      have hPieces := Decimal.length_pieces_le hDigits
      have hTrimmed := d.length_trimmed_le (min c.minDecimals c.decimals)
      have hWhole : ([] : Bytes).length + d.pieces.flatten.length ≤ capacity := by
        rw [List.length_nil, capacity]
        omega
      have hShown : (d.trimmed (min c.minDecimals c.decimals)).length +
          [[0x20], c.displayDenom].flatten.length ≤ capacity := by
        simp only [List.flatten_cons, List.flatten_nil, List.length_append, List.length_cons,
          List.length_nil, capacity]
        omega
      rw [Writer.text, EStateM.run_bind, Decimal.run_write_of_le hDigits hWhole, List.nil_append]
      dsimp only
      rw [Writer.run_append_of_le hShown]
      simp

end Coin

/-! ### Failures -/

def Error.OfCoin (e : Error) : Prop :=
  e = .unexpectedType ∨ e = .unexpectedField ∨ e = .unexpectedValue

namespace Coin

variable {chain : Option Chain} {doc : Document} {tree : Tree} {i : Nat} {e : Error}

theorem ofMember_eq_error {m : Bytes × Tree} {name : Bytes} {most : Nat}
    (h : ofMember m name most = .error e) : e.OfCoin := by
  rw [ofMember] at h
  split at h
  · split at h
    · split at h
      · cases h
      · cases h
        exact Or.inr (Or.inr rfl)
    · cases h
      exact Or.inl rfl
  · cases h
    exact Or.inr (Or.inl rfl)

theorem ofTree_eq_error (h : ofTree tree = .error e) : e.OfCoin := by
  match tree, h with
  | .object [], h => cases h
  | .object [first, second], h =>
    rcases bind_eq_error_iff.mp h with hAmount | ⟨amount, _, h⟩
    · exact ofMember_eq_error hAmount
    · rcases bind_eq_error_iff.mp h with hDenom | ⟨denom, _, h⟩
      · exact ofMember_eq_error hDenom
      · cases h
  | .object [_], h =>
    cases h
    exact Or.inr (Or.inl rfl)
  | .object (_ :: _ :: _ :: _), h =>
    cases h
    exact Or.inr (Or.inl rfl)
  | .array _, h | .string _, h | .literal _, h =>
    cases h
    exact Or.inl rfl

/-- Where there is room, a coin of a document is shown if it has a text. -/
theorem text_of_room (hOccurs : Occurs doc i tree) (hRoom : ∀ c, chain = some c → c.LeavesRoom) :
    text doc chain i = ofTree tree >>= fun coin =>
      coin.elim (.ok emptyText) fun coin =>
        (coin.shown? chain).elim (.error .unexpectedValue) .ok := by
  rw [text_eq, hOccurs.read_eq]
  cases hTree : ofTree tree with
  | error e => rfl
  | ok found =>
    cases found with
    | none => rfl
    | some coin =>
      obtain ⟨_, hSized⟩ := ofTree_eq_ok_iff.mp hTree
      exact text_write_eq (hSized coin rfl) hRoom

/-- A tree is shown as a coin if it is an empty object, or an amount and a denomination of lengths
that are accepted, where an amount that has to be converted is a number. -/
theorem exists_text_iff (hOccurs : Occurs doc i tree) (hRoom : ∀ c, chain = some c → c.LeavesRoom) :
    (∃ bytes, text doc chain i = .ok bytes) ↔
      tree = .object [] ∨ ∃ coin : Coin, tree = coin.toTree ∧ coin.Sized ∧
        ∀ c, chain = some c → c.baseDenom = coin.denom → Grammar.Digits coin.amount := by
  rw [text_of_room hOccurs hRoom]
  constructor
  · rintro ⟨bytes, hText⟩
    obtain ⟨found, hTree, hShown⟩ := bind_eq_ok_iff.mp hText
    obtain ⟨rfl, hSized⟩ := ofTree_eq_ok_iff.mp hTree
    cases found with
    | none => exact Or.inl rfl
    | some coin =>
      refine Or.inr ⟨coin, rfl, hSized coin rfl, fun c hChain hDenom => ?_⟩
      by_contra hDigits
      rw [Option.elim_some, shown?_eq_none_iff.mpr ⟨c, hChain, hDenom, hDigits⟩] at hShown
      cases hShown
  · rintro (rfl | ⟨coin, rfl, hSized, hDigits⟩)
    · exact ⟨emptyText, rfl⟩
    · have hTree : ofTree coin.toTree = .ok (some coin) := by
        refine ofTree_eq_ok_iff.mpr ⟨rfl, fun found hFound => ?_⟩
        rwa [← Option.some.inj hFound]
      rw [hTree, ok_bind, Option.elim_some]
      cases hShown : coin.shown? chain with
      | some bytes => exact ⟨bytes, rfl⟩
      | none =>
        obtain ⟨c, hChain, hDenom, hNoDigits⟩ := shown?_eq_none_iff.mp hShown
        exact absurd (hDigits c hChain hDenom) hNoDigits

theorem text_eq_error (hOccurs : Occurs doc i tree) (hRoom : ∀ c, chain = some c → c.LeavesRoom)
    (h : text doc chain i = .error e) : e.OfCoin := by
  rw [text_of_room hOccurs hRoom] at h
  rcases bind_eq_error_iff.mp h with hTree | ⟨found, _, h⟩
  · exact ofTree_eq_error hTree
  · cases found with
    | none => cases h
    | some coin =>
      rw [Option.elim_some] at h
      cases hShown : coin.shown? chain with
      | some bytes =>
        rw [hShown] at h
        cases h
      | none =>
        rw [hShown] at h
        cases h
        exact Or.inr (Or.inr rfl)

/-- Whatever is not shown as coins is no coin, or has an element that is none. -/
theorem texts_eq_error (hOccurs : Occurs doc i tree) (hRoom : ∀ c, chain = some c → c.LeavesRoom)
    (h : texts doc chain i = .error e) : e.OfCoin := by
  rw [hOccurs.texts_eq] at h
  cases tree with
  | object members =>
    rcases bind_eq_error_iff.mp h with hText | ⟨_, _, h⟩
    · exact text_eq_error hOccurs hRoom hText
    · cases h
  | array elements =>
    rcases bind_eq_error_iff.mp h with hTexts | ⟨_, _, h⟩
    · obtain ⟨index, hIndex, hText⟩ := exists_of_mapM_eq_error hTexts
      obtain ⟨element, _, hElement⟩ := Forall₂.exists_of_mem hOccurs.elements.2 hIndex
      exact text_eq_error hElement hRoom hText
    · cases h
  | string contents =>
    cases h
    exact Or.inl rfl
  | literal text =>
    cases h
    exact Or.inl rfl

/-- Where the chain leaves room, a page of coins is not shown only because there is no such token,
the value is no coin and no list of coins, or there is no such page; it is never for want of room.
An empty object is shown as such, and another object if it has an amount and a denomination, in this
order, and the amount is a number if it has to be converted. -/
theorem run_writePage_of_room {input : Bytes} {limits : Limits}
    (hParse : Document.parse input limits = .ok doc) (hRoom : ∀ c, chain = some c → c.LeavesRoom)
    (index width page : Nat) (shown : Bytes) :
    (doc.tokens.size ≤ index →
      (writePage doc chain index width page).run shown = .error .noData shown) ∧
    (index < doc.tokens.size →
      (∀ e after, (writePage doc chain index width page).run shown = .error e after →
        e.OfCoin ∨ e = .displayPageOutOfRange) ∧
      ∃ tree, Occurs doc index tree ∧
        (tree = .object [] → text doc chain index = .ok emptyText) ∧
        ((∃ bytes, text doc chain index = .ok bytes) ↔
          tree = .object [] ∨ ∃ coin : Coin, tree = coin.toTree ∧ coin.Sized ∧
            ∀ c, chain = some c → c.baseDenom = coin.denom → Grammar.Digits coin.amount)) := by
  obtain ⟨ls, root, hParsed, _⟩ := Document.exists_parsed hParse
  constructor
  · intro hIndex
    have hTexts : texts doc chain index = .error .noData := by
      rw [texts, Document.token, Array.getElem?_eq_none hIndex]
      rfl
    exact run_writePage_of_error hTexts width page shown
  · intro hIndex
    have hToken : doc.token index = .ok doc.tokens[index] := by
      rw [Document.token, Array.getElem?_eq_getElem hIndex]
    obtain ⟨tree, hOccurs⟩ := hParsed.exists_occurs hToken
    refine ⟨fun e after hRun => ?_, tree, hOccurs, fun hEmpty => ?_, exists_text_iff hOccurs hRoom⟩
    · cases hTexts : texts doc chain index with
      | error e' =>
        rw [run_writePage_of_error hTexts] at hRun
        cases hRun
        exact Or.inl (texts_eq_error hOccurs hRoom hTexts)
      | ok found =>
        rw [run_writePage_of_ok hTexts] at hRun
        rcases Nat.lt_or_ge page (found.flatMap (Page.chunks (Page.clamp width))).length with
          hLess | hPast
        · rw [Page.turnTo_of_lt hLess] at hRun
          cases hRun
        · rw [Page.turnTo_of_le hPast] at hRun
          cases hRun
          exact Or.inr rfl
    · rw [text_of_room hOccurs hRoom, hEmpty]
      rfl

/-- An amount that can be converted, and one that can not. -/
def wrongAmount : Bytes :=
  Bytes.ofString ("[\x7b\"amount\":\"5\",\"denom\":\"uatom\"\x7d," ++
    "\x7b\"amount\":\"x\",\"denom\":\"uatom\"\x7d]")

theorem run_writePage_of_room_wrongAmount :
    ∃ doc, Document.parse wrongAmount {} = .ok doc ∧ Chain.hub.LeavesRoom ∧
      (writePage doc (some Chain.hub) 11 3 0).run [] = .error .noData [] ∧
      (∃ e, (writePage doc (some Chain.hub) 0 3 0).run [] = .error e [] ∧
        (e.OfCoin ∨ e = .displayPageOutOfRange)) ∧
      ∃ coin : Coin, Occurs doc 1 coin.toTree ∧ coin.Sized ∧
        (Chain.hub.baseDenom = coin.denom → Grammar.Digits coin.amount) := by
  have hRead : (Document.parse wrongAmount {}).toOption.map (fun doc =>
      (doc.tokens.size, (text doc (some Chain.hub) 1).toOption,
        decide ((texts doc (some Chain.hub) 0) = .error .unexpectedValue))) =
        some (11, some (Bytes.ofString "0.000005 ATOM"), true) := by decide +kernel
  obtain ⟨doc, hParse, hRead⟩ := Option.map_eq_some_iff.mp hRead
  obtain ⟨hSize, hRead⟩ := Prod.mk.inj hRead
  obtain ⟨hText, hTexts⟩ := Prod.mk.inj hRead
  rw [toOption_eq_some_iff] at hParse hText
  rw [decide_eq_true_eq] at hTexts
  have hRoom : ∀ c, some Chain.hub = some c → c.LeavesRoom := by
    intro c hChain
    rw [← Option.some.inj hChain, Chain.LeavesRoom]
    decide
  have hPages := run_writePage_of_error hTexts 3 0 []
  obtain ⟨hNone, _⟩ := run_writePage_of_room hParse hRoom 11 3 0 []
  obtain ⟨_, hList⟩ := run_writePage_of_room hParse hRoom 0 3 0 []
  obtain ⟨_, hCoin⟩ := run_writePage_of_room hParse hRoom 1 3 0 []
  obtain ⟨_, tree, hOccurs, hEmpty, hShown⟩ := hCoin (by omega)
  refine ⟨doc, hParse, hRoom _ rfl, hNone (by omega),
    ⟨_, hPages, (hList (by omega)).1 _ _ hPages⟩, ?_⟩
  rcases hShown.mp ⟨_, hText⟩ with hTree | ⟨coin, rfl, hSized, hDigits⟩
  · rw [hEmpty hTree] at hText
    exact absurd (Except.ok.inj hText) (by decide +kernel)
  · exact ⟨coin, hOccurs, hSized, hDigits Chain.hub rfl⟩

/-- With so many decimals there is no room left, not even for an amount of one digit. -/
example : (Coin.write capacity (some { Chain.hub with decimals := 255 })
    ⟨Bytes.ofString "5", Chain.hub.baseDenom⟩).text = .error .bufferOverflow := by
  decide +kernel

end Coin

end SignReview
