import SignReview.Writer

/-!
# What writers do

A writer that succeeds has written all its pieces one behind the other, and one that fails tells
why.

* `Writer.run_append_eq_ok_iff`, `Writer.text_append_eq_ok_iff`: when pieces are added, and what is
  there then.
* `Writer.run_bind_eq_ok`, `Writer.text_eq_ok`: what two writers, and a writer on an empty text,
  have done where they succeed.
* `Writer.run_map_eq_ok`, `Writer.run_map_eq_error`: a writer whose answer is changed.
* `Writer.Fails`: the errors of a writer, `Writer.Fails.bind`: those of two.
-/

namespace SignReview

namespace Writer

/-! ### Success -/

section Success

variable {capacity : Nat} {text after : Bytes} {pieces more : List Bytes}

theorem run_append_eq_ok_iff :
    (append capacity pieces).run text = .ok () after ↔
      pieces.flatten.length ≤ capacity - text.length ∧ after = text ++ pieces.flatten := by
  by_cases hRoom : pieces.flatten.length ≤ capacity - text.length
  · rw [and_iff_right hRoom]
    simp [append, EStateM.run, fitting_of_le hRoom, eq_comm]
  · have hFalse : (fitting (capacity - text.length) pieces).2 = false :=
      Bool.eq_false_iff.mpr fun hTrue => hRoom (le_of_fitting hTrue)
    refine iff_of_false ?_ fun h => hRoom h.1
    simp [append, EStateM.run, hFalse]

theorem run_append_eq_ok (h : (append capacity pieces).run text = .ok () after) :
    after = text ++ pieces.flatten := (run_append_eq_ok_iff.mp h).2

theorem run_bind_eq_ok {α β : Type} {first : Writer α} {next : α → Writer β} {b : β}
    (h : (first >>= next).run text = .ok b after) :
    ∃ a between, first.run text = .ok a between ∧ (next a).run between = .ok b after := by
  rw [EStateM.run_bind] at h
  cases hFirst : first.run text with
  | ok a between =>
    rw [hFirst] at h
    exact ⟨a, between, rfl, h⟩
  | error e between =>
    rw [hFirst] at h
    cases h

theorem run_map_eq_ok {α β : Type} {f : α → β} {writer : Writer α} {b : β}
    (h : (f <$> writer).run text = .ok b after) :
    ∃ a, writer.run text = .ok a after ∧ f a = b := by
  rw [map_eq_pure_bind] at h
  obtain ⟨a, between, hRun, hPure⟩ := run_bind_eq_ok h
  cases hPure
  exact ⟨a, hRun, rfl⟩

theorem text_eq_ok {writer : Writer Unit} {bytes : Bytes} (h : writer.text = .ok bytes) :
    writer.run [] = .ok () bytes := by
  rw [Writer.text] at h
  cases hRun : writer.run [] with
  | ok _ written =>
    rw [hRun] at h
    rw [Except.ok.inj h]
  | error e written =>
    rw [hRun] at h
    cases h

theorem text_append_of_le (h : pieces.flatten.length ≤ capacity) :
    (append capacity pieces).text = .ok pieces.flatten := by
  have hRoom : ([] : Bytes).length + pieces.flatten.length ≤ capacity := by
    rwa [List.length_nil, Nat.zero_add]
  rw [text, run_append_of_le hRoom]
  rfl

theorem text_append_append_of_le
    (h : pieces.flatten.length + more.flatten.length ≤ capacity) :
    (append capacity pieces >>= fun _ => append capacity more).text =
      .ok (pieces.flatten ++ more.flatten) := by
  have hFirst : ([] : Bytes).length + pieces.flatten.length ≤ capacity := by
    rw [List.length_nil]
    omega
  rw [text, EStateM.run_bind, run_append_of_le hFirst]
  simp only [List.nil_append, run_append_of_le h]

theorem text_append_eq_ok_iff {bytes : Bytes} :
    (append capacity pieces).text = .ok bytes ↔
      pieces.flatten.length ≤ capacity ∧ bytes = pieces.flatten := by
  constructor
  · intro h
    exact run_append_eq_ok_iff.mp (text_eq_ok h)
  · rintro ⟨hRoom, rfl⟩
    exact text_append_of_le hRoom

end Success

/-! ### Failure -/

section Outcomes

variable {α β : Type}

theorem ofExcept_ok_bind (a : α) (next : α → Writer β) :
    (MonadExcept.ofExcept (.ok a : Except Error α) >>= next) = next a := rfl

theorem ofExcept_error_bind (e : Error) (next : α → Writer β) :
    (MonadExcept.ofExcept (.error e : Except Error α) >>= next) = throw e := rfl

theorem run_map_eq_error {f : α → β} {writer : Writer α} {e : Error} {text after : Bytes}
    (h : (f <$> writer).run text = .error e after) : writer.run text = .error e after := by
  rw [map_eq_pure_bind, EStateM.run_bind] at h
  cases hRun : writer.run text with
  | ok a between =>
    rw [hRun] at h
    cases h
  | error e' between =>
    rw [hRun] at h
    cases h
    rfl

end Outcomes

/-- Whenever the writer fails, the error has the property. -/
def Fails {α : Type} (P : Error → Prop) (writer : Writer α) : Prop :=
  ∀ text e after, writer.run text = .error e after → P e

namespace Fails

variable {α β : Type} {P : Error → Prop}

theorem throw {e : Error} (h : P e) : Fails P (throw e : Writer α) := by
  intro text e' after hRun
  cases hRun
  exact h

theorem bind {first : Writer β} {next : β → Writer α} (hFirst : Fails P first)
    (hNext : ∀ b, Fails P (next b)) : Fails P (first >>= next) := by
  intro text e after hRun
  rw [EStateM.run_bind] at hRun
  cases hBetween : first.run text with
  | ok b between =>
    rw [hBetween] at hRun
    exact hNext b between e after hRun
  | error e' between =>
    rw [hBetween] at hRun
    cases hRun
    exact hFirst text _ _ hBetween

theorem append (capacity : Nat) (pieces : List Bytes) (h : P .bufferOverflow) :
    Fails P (append capacity pieces) := by
  intro text e after hRun
  simp only [Writer.append, EStateM.run] at hRun
  split at hRun
  · cases hRun
  · cases hRun
    exact h

theorem text_eq_error {writer : Writer Unit} (h : Fails P writer) {e : Error}
    (hText : writer.text = .error e) : P e := by
  rw [Writer.text] at hText
  cases hRun : writer.run [] with
  | ok _ bytes =>
    rw [hRun] at hText
    cases hText
  | error e' after =>
    rw [hRun] at hText
    cases hText
    exact h [] _ _ hRun

end Fails

end Writer

end SignReview
