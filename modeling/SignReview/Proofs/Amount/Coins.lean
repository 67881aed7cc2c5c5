import SignReview.Amount.Coin
import SignReview.Proofs.Json.Recovery
import SignReview.Proofs.Writing

/-!
# Coins of a tree

`Coin.texts` reads coins off a token table and writes them into a bounded text.  What it has
written is the text of the coins of the tree.

* `Coin.shown?`: the text of a coin, `Coin.run_write_eq_ok`: it is what is written.
* `Coin.ofTree`: reads a coin, `Json.Occurs.read_eq`: this is what is read off the table,
  `Coin.ofTree_eq_ok_iff`: the trees that are coins.
* `Json.Occurs.texts_eq`: the coins whose texts are shown.
* `Json.Tree.coinTexts?`: the texts of a coin or of a list of coins,
  `Json.Occurs.coinTexts?_eq`: they are what is shown.
-/

namespace SignReview

/-! ### Writing a coin -/

namespace Decimal

theorem flatten_pieces (d : Decimal) : d.pieces.flatten = d.whole ++ 0x2e :: d.allDigits := by
  simp [pieces, allDigits]

theorem trim_append (front digits : Bytes) (least : Nat) :
    trim (front.length + least) (front ++ digits) = front ++ trim least digits := by
  rw [trim, trim, List.take_length_add_append, List.drop_length_add_append, List.append_assoc]

/-- A number is shortened in the same way whatever it has been written behind. -/
theorem shorten_append (d : Decimal) (text : Bytes) (least : Nat) :
    shorten (text.length + d.whole.length) least (text ++ d.pieces.flatten) =
      text ++ d.trimmed least := by
  have hFront : (text ++ d.whole ++ [0x2e]).length = text.length + d.whole.length + 1 := by
    simp [Nat.add_assoc]
  have hText : text ++ d.pieces.flatten = text ++ d.whole ++ [0x2e] ++ d.allDigits := by
    simp [flatten_pieces]
  simp only [shorten]
  rw [hText, ← hFront, trim_append, trimmed]
  cases hDigits : trim least d.allDigits with
  | nil =>
    rw [List.append_nil, if_pos rfl, List.dropLast_concat]
  | cons digit digits =>
    rw [if_neg (by simp)]
    simp

variable {capacity : Nat} {amount text after : Bytes} {decimals minDecimals : Nat}

/-- The digits are written, and then what has been written is shortened. -/
theorem run_write_eq {d : Decimal} (hDigits : ofDigits? amount decimals = some d) :
    (write capacity amount decimals minDecimals).run text =
      (Writer.append capacity d.pieces >>= fun _ =>
        modify (shorten (text.length + d.whole.length) (min minDecimals decimals))).run text := by
  rw [write, hDigits]
  rfl

/-- Where an amount has been written, it is a number. -/
theorem run_write_eq_ok
    (h : (write capacity amount decimals minDecimals).run text = .ok () after) :
    ∃ d, ofDigits? amount decimals = some d ∧
      after = text ++ d.trimmed (min minDecimals decimals) := by
  cases hDigits : ofDigits? amount decimals with
  | none =>
    rw [write, hDigits] at h
    cases h
  | some d =>
    rw [run_write_eq hDigits] at h
    obtain ⟨_, written, hWritten, h⟩ := Writer.run_bind_eq_ok h
    obtain rfl := Writer.run_append_eq_ok hWritten
    cases h
    exact ⟨d, rfl, d.shorten_append text _⟩

end Decimal

theorem Coin.converting?_eq_some_iff {chain : Option Chain} {coin : Coin} {c : Chain} :
    coin.converting? chain = some c ↔ chain = some c ∧ c.baseDenom = coin.denom := by
  rw [converting?, Option.filter_eq_some_iff, beq_iff_eq]

/-- The text of a coin: amounts in the base denomination of the chain are converted. -/
def Coin.shown? (chain : Option Chain) (coin : Coin) : Option Bytes :=
  match coin.converting? chain with
  | some chain =>
    (Decimal.ofDigits? coin.amount chain.decimals).map fun d =>
      d.trimmed (min chain.minDecimals chain.decimals) ++ 0x20 :: chain.displayDenom
  | none => some (coin.amount ++ 0x20 :: coin.denom)

theorem Coin.run_write_eq_ok {capacity : Nat} {chain : Option Chain} {coin : Coin} {bytes : Bytes}
    (h : (coin.write capacity chain).run [] = .ok () bytes) : coin.shown? chain = some bytes := by
  rw [write] at h
  rw [shown?]
  cases hChain : coin.converting? chain with
  | none =>
    rw [hChain] at h
    rw [Writer.run_append_eq_ok h]
    simp
  | some chain =>
    rw [hChain] at h
    obtain ⟨_, between, hAmount, h⟩ := Writer.run_bind_eq_ok h
    obtain ⟨d, hDigits, rfl⟩ := Decimal.run_write_eq_ok hAmount
    rw [Writer.run_append_eq_ok h]
    simp [hDigits]

/-! ### Reading coins -/

open Json

/-- A field of a coin: a member of the given name, with a string of 1 to `most` octets. -/
def Coin.ofMember (m : Bytes × Tree) (name : Bytes) (most : Nat) : Except Error Bytes :=
  if m.1 = name then
    match m.2 with
    | .string bytes =>
      if 1 ≤ bytes.length ∧ bytes.length ≤ most then .ok bytes else .error .unexpectedValue
    | _ => .error .unexpectedType
  else
    .error .unexpectedField

/-- The coin of a tree, if it is not an empty object. -/
def Coin.ofTree : Tree → Except Error (Option Coin)
  | .object [] => .ok none
  | .object [first, second] => do
    let amount ← ofMember first (Bytes.ofString "amount") maxAmount
    let denom ← ofMember second (Bytes.ofString "denom") maxDenom
    return some ⟨amount, denom⟩
  | .object _ => .error .unexpectedField
  | _ => .error .unexpectedType

def Json.Tree.coin? : Tree → Option (Option Coin)
  | .object [] => some none
  | .object [(first, .string amount), (second, .string denom)] =>
    if first = Bytes.ofString "amount" ∧ second = Bytes.ofString "denom" then
      some (some ⟨amount, denom⟩)
    else
      none
  | _ => none

def Json.Tree.coinText? (chain : Option Chain) (tree : Tree) : Option Bytes :=
  match tree.coin? with
  | some none => some Coin.emptyText
  | some (some coin) => coin.shown? chain
  | none => none

/-- The texts of the coins of a tree: of its elements, if it is an array, and else of itself. -/
def Json.Tree.coinTexts? (chain : Option Chain) : Tree → Option (List Bytes)
  | .array [] => some [Coin.emptyText]
  | .array coins => coins.mapM (Tree.coinText? chain)
  | coin => (coin.coinText? chain).map fun text => [text]

namespace Coin

/-- An amount and a denomination of lengths that are accepted. -/
structure Sized (coin : Coin) : Prop where
  amount : 1 ≤ coin.amount.length ∧ coin.amount.length ≤ maxAmount
  denom : 1 ≤ coin.denom.length ∧ coin.denom.length ≤ maxDenom

def toTree (coin : Coin) : Tree :=
  .object [(Bytes.ofString "amount", .string coin.amount),
    (Bytes.ofString "denom", .string coin.denom)]

theorem ofMember_eq_ok_iff {m : Bytes × Tree} {name bytes : Bytes} {most : Nat} :
    ofMember m name most = .ok bytes ↔
      m = (name, .string bytes) ∧ 1 ≤ bytes.length ∧ bytes.length ≤ most := by
  obtain ⟨key, value⟩ := m
  constructor
  · intro h
    rw [ofMember] at h
    split at h
    · rename_i hName
      cases value with
      | string contents =>
        dsimp only at h
        split at h
        · rename_i hSize
          obtain rfl := Except.ok.inj h
          exact ⟨Prod.ext hName rfl, hSize⟩
        · cases h
      | object members => cases h
      | array elements => cases h
      | literal text => cases h
    · cases h
  · rintro ⟨hSame, hSize⟩
    cases hSame
    exact (if_pos rfl).trans (if_pos hSize)

theorem ofTree_eq_ok_iff {tree : Tree} {coin : Option Coin} :
    ofTree tree = .ok coin ↔
      tree = coin.elim (.object []) toTree ∧ ∀ found ∈ coin, found.Sized := by
  constructor
  · intro h
    match tree, h with
    | .object [], h =>
      obtain rfl := Except.ok.inj h
      exact ⟨rfl, fun _ hNone => by cases hNone⟩
    | .object [first, second], h =>
      obtain ⟨amount, hAmount, h⟩ := bind_eq_ok_iff.mp h
      obtain ⟨denom, hDenom, h⟩ := bind_eq_ok_iff.mp h
      obtain rfl := Except.ok.inj h
      obtain ⟨rfl, hAmountSize⟩ := ofMember_eq_ok_iff.mp hAmount
      obtain ⟨rfl, hDenomSize⟩ := ofMember_eq_ok_iff.mp hDenom
      refine ⟨rfl, fun found hFound => ?_⟩
      obtain rfl := Option.some.inj hFound
      exact ⟨hAmountSize, hDenomSize⟩
    | .object [_], h => cases h
    | .object (_ :: _ :: _ :: _), h => cases h
    | .array _, h => cases h
    | .string _, h => cases h
    | .literal _, h => cases h
  · rintro ⟨rfl, hSized⟩
    cases coin with
    | none => rfl
    | some coin =>
      obtain ⟨hAmount, hDenom⟩ := hSized coin rfl
      exact bind_eq_ok_iff.mpr ⟨_, ofMember_eq_ok_iff.mpr ⟨rfl, hAmount⟩,
        bind_eq_ok_iff.mpr ⟨_, ofMember_eq_ok_iff.mpr ⟨rfl, hDenom⟩, rfl⟩⟩

theorem text_eq (doc : Document) (chain : Option Chain) (index : Nat) :
    text doc chain index = read doc index >>= fun coin =>
      coin.elim (.ok emptyText) fun coin => (coin.write capacity chain).text := by
  rw [text, writeAt]
  cases read doc index with
  | error e => rfl
  | ok coin => cases coin <;> rfl

/-- The texts of an array are those of its elements, if they all have one. -/
theorem texts_of_array {doc : Document} {index : Nat} {token : Token} {coins : List Nat}
    (hToken : doc.token index = .ok token)
    (hArray : token.kind = .array) (hCoins : doc.children index = .ok coins)
    (chain : Option Chain) :
    texts doc chain index = coins.mapM (text doc chain) >>= fun found =>
      .ok (if found = [] then [emptyText] else found) := by
  rw [texts, hToken, ok_bind, hArray]
  dsimp only
  rw [hCoins, ok_bind]
  cases coins.mapM (text doc chain) with
  | error e => rfl
  | ok found => cases found <;> rfl

end Coin

theorem Json.Tree.length_inTurns (members : List (Bytes × Tree)) :
    (inTurns members).length = 2 * members.length := by
  induction members with
  | nil => rfl
  | cons m members ih =>
    obtain ⟨name, value⟩ := m
    rw [inTurns, List.length_cons, List.length_cons, ih, List.length_cons]
    omega

namespace Json.Occurs

variable {doc : Document} {tree : Tree} {i : Nat}

theorem objectSize_eq (h : Occurs doc i tree) :
    doc.objectSize i =
      match tree with
      | .object members => .ok members.length
      | _ => .error .unexpectedType := by
  rw [Document.objectSize, h.contents]
  cases tree with
  | object members =>
    obtain ⟨token, hToken, _⟩ := h.token
    have hLength := (h.children hToken).2.length_eq
    rw [Tree.children, Tree.length_inTurns] at hLength
    have hHalf : (numbers (i + 1) (Tree.object members).children).length / 2 = members.length := by
      rw [Tree.children]
      omega
    exact congrArg Except.ok hHalf
  | array elements => rfl
  | string contents => rfl
  | literal text => rfl

/-- A field of a coin is read off the member of the tree. -/
theorem readField_eq {members : List (Bytes × Tree)} (h : Occurs doc i (.object members))
    {n : Nat} {m : Bytes × Tree} (hMember : members[n]? = some m) (key : Bytes) (most : Nat) :
    Coin.readField doc i n key most = Coin.ofMember m key most := by
  obtain ⟨hNames, hMembers⟩ := h.members
  obtain ⟨index, hIndex, hKey, hValue⟩ := Forall₂.exists_getElem? hMembers hMember
  have hName : doc.name i n = .ok index := by
    rw [Document.name, hNames, ok_bind, hIndex]
    rfl
  have hNext : doc.value i n = .ok (index + 1) := by
    rw [Document.value, hName]
    rfl
  obtain ⟨token, hToken, hKind⟩ := hValue.token
  obtain ⟨name, value⟩ := m
  rw [Coin.readField, hName, ok_bind, hKey.slice_string, ok_bind, hNext, Coin.ofMember]
  by_cases hSame : name = key
  · rw [if_neg (not_not.mpr hSame), if_pos hSame, ok_bind, hToken, ok_bind, hKind]
    cases value with
    | string bytes =>
      have hSize : (bytes.isEmpty || decide (most < bytes.length)) = true ↔
          ¬(1 ≤ bytes.length ∧ bytes.length ≤ most) := by
        rw [Bool.or_eq_true, List.isEmpty_iff_length_eq_zero, decide_eq_true_eq]
        omega
      refine (if_neg (not_not.mpr rfl)).trans ?_
      rw [hValue.slice_string, ok_bind]
      by_cases hFits : 1 ≤ bytes.length ∧ bytes.length ≤ most
      · exact (if_neg (hSize.not.mpr (not_not.mpr hFits))).trans (if_pos hFits).symm
      · exact (if_pos (hSize.mpr hFits)).trans (if_neg hFits).symm
    | object members => rfl
    | array elements => rfl
    | literal text => rfl
  · rw [if_pos hSame, if_neg hSame]
    rfl

theorem read_eq (h : Occurs doc i tree) : Coin.read doc i = Coin.ofTree tree := by
  rw [Coin.read, h.objectSize_eq]
  match tree, h with
  | .object [], _ => rfl
  | .object [first, second], h =>
    rw [Coin.ofTree, ← h.readField_eq (n := 0) rfl, ← h.readField_eq (n := 1) rfl]
    rfl
  | .object [_], _ => rfl
  | .object (_ :: _ :: _ :: _), _ => rfl
  | .array _, _ => rfl
  | .string _, _ => rfl
  | .literal _, _ => rfl

theorem coin?_eq (h : Occurs doc i tree) {coin : Option Coin} (hRead : Coin.read doc i = .ok coin) :
    tree.coin? = some coin := by
  rw [h.read_eq, Coin.ofTree_eq_ok_iff] at hRead
  rw [hRead.1]
  cases coin <;> rfl

theorem coinText?_eq (h : Occurs doc i tree) {chain : Option Chain} {text : Bytes}
    (hText : Coin.text doc chain i = .ok text) : tree.coinText? chain = some text := by
  rw [Coin.text_eq] at hText
  obtain ⟨coin, hRead, hText⟩ := bind_eq_ok_iff.mp hText
  rw [Tree.coinText?, h.coin?_eq hRead]
  cases coin with
  | none => exact congrArg some (Except.ok.inj hText)
  | some coin => exact Coin.run_write_eq_ok (Writer.text_eq_ok hText)

/-- The coins of an object are its own, and those of an array are those of its elements. -/
theorem texts_eq (h : Occurs doc i tree) (chain : Option Chain) :
    Coin.texts doc chain i =
      match tree with
      | .object _ => Coin.text doc chain i >>= fun text => .ok [text]
      | .array elements =>
        (numbers (i + 1) elements).mapM (Coin.text doc chain) >>= fun found =>
          .ok (if found = [] then [Coin.emptyText] else found)
      | _ => .error .unexpectedType := by
  obtain ⟨token, hToken, hKind⟩ := h.token
  cases tree with
  | array elements => exact Coin.texts_of_array hToken hKind h.children_eq chain
  | object members =>
    rw [Coin.texts, hToken, ok_bind, hKind]
    rfl
  | string contents =>
    rw [Coin.texts, hToken, ok_bind, hKind]
    rfl
  | literal text =>
    rw [Coin.texts, hToken, ok_bind, hKind]
    rfl

/-- The texts of coins that have been shown are those of the tree. -/
theorem coinTexts?_eq (h : Occurs doc i tree) {chain : Option Chain} {texts : List Bytes}
    (hTexts : Coin.texts doc chain i = .ok texts) : tree.coinTexts? chain = some texts := by
  rw [h.texts_eq] at hTexts
  cases tree with
  | object members =>
    obtain ⟨text, hText, hTexts⟩ := bind_eq_ok_iff.mp hTexts
    obtain rfl := Except.ok.inj hTexts
    exact congrArg (Option.map fun text => [text]) (h.coinText?_eq hText)
  | array elements =>
    obtain ⟨found, hFound, hTexts⟩ := bind_eq_ok_iff.mp hTexts
    obtain rfl := Except.ok.inj hTexts
    have hMap : elements.mapM (Tree.coinText? chain) = some found :=
      mapM_eq_some h.elements.2 (fun _ _ _ hElement hText => hElement.coinText?_eq hText) hFound
    cases elements with
    | nil =>
      obtain rfl := Except.ok.inj hFound
      rfl
    | cons element elements =>
      have hSome : found ≠ [] := by
        rintro rfl
        simp [List.mapM_cons, Option.bind_eq_some_iff] at hMap
      rw [if_neg hSome, ← hMap, Tree.coinTexts?]
      intro hNil
      cases hNil
  | string contents => cases hTexts
  | literal text => cases hTexts

end Json.Occurs

end SignReview
