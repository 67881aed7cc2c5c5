import SignReview.Proofs.Amount.Coins

/-!
# How the conversion of amounts fails

A coin that can be shown as it stands in the document may still fail to be converted: its amount is
no number, or the text does not fit.  In no other way does it fail, whatever the chain.

* `Coin.text_of_plain`, `Coin.texts_of_plain`: the errors of coins that can be shown as they stand.
-/

namespace SignReview

/-- An amount is no number, or there is no room for it. -/
def Error.OfConversion (e : Error) : Prop := e = .unexpectedValue ∨ e = .bufferOverflow

theorem Decimal.write_fails (capacity : Nat) (amount : Bytes) (decimals minDecimals : Nat) :
    Writer.Fails Error.OfConversion (write capacity amount decimals minDecimals) := by
  rw [write]
  split
  · exact .throw (Or.inl rfl)
  · refine .bind (fun _ _ _ hRun => by cases hRun) fun before => ?_
    exact .bind (.append _ _ (Or.inr rfl)) fun _ _ _ _ hRun => by cases hRun

namespace Coin

theorem write_fails (capacity : Nat) (chain : Option Chain) (coin : Coin) :
    Writer.Fails Error.OfConversion (coin.write capacity chain) := by
  rw [write]
  split
  · exact .bind (Decimal.write_fails _ _ _ _) fun _ => .append _ _ (Or.inr rfl)
  · exact .append _ _ (Or.inr rfl)

variable {doc : Json.Document} {index : Nat}

/-- A coin that can be shown as it stands only fails to be converted. -/
theorem text_of_plain {plain : Bytes} (h : text doc none index = .ok plain) (chain : Option Chain)
    {e : Error} (hText : text doc chain index = .error e) : e.OfConversion := by
  rw [text_eq] at h hText
  obtain ⟨coin, hRead, _⟩ := bind_eq_ok_iff.mp h
  rw [hRead, ok_bind] at hText
  cases coin with
  | none => cases hText
  | some coin => exact (write_fails capacity chain coin).text_eq_error hText

theorem texts_of_plain {plain : List Bytes} (h : texts doc none index = .ok plain)
    (chain : Option Chain) {e : Error} (hTexts : texts doc chain index = .error e) :
    e.OfConversion := by
  obtain ⟨token, hToken, h⟩ := bind_eq_ok_iff.mp h
  rw [texts, hToken, ok_bind] at hTexts
  cases hKind : token.kind with
  | object =>
    simp only [hKind] at h hTexts
    obtain ⟨single, hPlain, _⟩ := bind_eq_ok_iff.mp h
    cases hText : text doc chain index with
    | ok found =>
      rw [hText] at hTexts
      cases hTexts
    | error e' =>
      rw [hText] at hTexts
      cases hTexts
      exact text_of_plain hPlain chain hText
  | array =>
    simp only [hKind] at h hTexts
    obtain ⟨children, hChildren, h⟩ := bind_eq_ok_iff.mp h
    obtain ⟨found, hFound, _⟩ := bind_eq_ok_iff.mp h
    rw [hChildren, ok_bind] at hTexts
    cases hMap : children.mapM (text doc chain) with
    | ok shown =>
      rw [hMap, ok_bind] at hTexts
      cases shown <;> cases hTexts
    | error e' =>
      rw [hMap] at hTexts
      cases hTexts
      obtain ⟨child, hChild, hText⟩ := exists_of_mapM_eq_error hMap
      obtain ⟨single, hPlain⟩ := exists_of_mapM_eq_ok hFound child hChild
      exact text_of_plain hPlain chain hText
  | string =>
    simp only [hKind] at h
    cases h
  | primitive =>
    simp only [hKind] at h
    cases h

end Coin

end SignReview
