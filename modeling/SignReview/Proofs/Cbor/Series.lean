import SignReview.Cbor.Value
import SignReview.Proofs.Outcome

/-!
# Values taken one by one

Values that are used up one by one as they are taken come to the same as values that are all taken
first.

* `Reader.foldTimes_eq`, `Reader.foldUntilBreakFrom_eq`: runs of values.
* `Cbor.foldSeries_eq`: the values of a container.
* `Reader.Yields`: what a reader takes, `Cbor.Head.read_yields`: a value that is complete with its
  head is no container.
-/

namespace SignReview

namespace Reader

variable {α β : Type} (read : Reader α) (use : β → α → β)

theorem times_succ (n : Nat) (input : Bytes) :
    times read (n + 1) input = (read input >>= fun taken =>
      times read n taken.2 >>= fun more => .ok (taken.1 :: more.1, more.2)) := rfl

theorem foldTimes_succ (n : Nat) (b : β) (input : Bytes) :
    foldTimes read use (n + 1) b input =
      (read input >>= fun taken => foldTimes read use n (use b taken.1) taken.2) := rfl

theorem untilBreakFrom_cons (most : Nat) (c : UInt8) (rest : Bytes) :
    untilBreakFrom read (most + 1) (c :: rest) =
      if c = 0xff then .ok ([], rest)
      else read (c :: rest) >>= fun taken =>
        untilBreakFrom read most taken.2 >>= fun more => .ok (taken.1 :: more.1, more.2) := rfl

theorem foldUntilBreakFrom_cons (most : Nat) (b : β) (c : UInt8) (rest : Bytes) :
    foldUntilBreakFrom read use (most + 1) b (c :: rest) =
      if c = 0xff then .ok (b, rest)
      else read (c :: rest) >>= fun taken =>
        foldUntilBreakFrom read use most (use b taken.1) taken.2 := rfl

theorem foldTimes_eq (n : Nat) (b : β) (input : Bytes) :
    foldTimes read use n b input =
      (times read n input).map (Prod.map (List.foldl use b) id) := by
  induction n generalizing b input with
  | zero => rfl
  | succ n ih =>
    rw [foldTimes_succ, times_succ]
    cases read input with
    | error e => rfl
    | ok taken =>
      rw [ok_bind, ok_bind, ih]
      cases times read n taken.2 <;> rfl

theorem foldUntilBreakFrom_eq (most : Nat) (b : β) (input : Bytes) :
    foldUntilBreakFrom read use most b input =
      (untilBreakFrom read most input).map (Prod.map (List.foldl use b) id) := by
  induction most generalizing b input with
  | zero => rfl
  | succ most ih =>
    cases input with
    | nil => rfl
    | cons c rest =>
      rw [foldUntilBreakFrom_cons, untilBreakFrom_cons]
      by_cases hBreak : c = 0xff
      · rw [if_pos hBreak, if_pos hBreak]
        rfl
      · rw [if_neg hBreak, if_neg hBreak]
        cases read (c :: rest) with
        | error e => rfl
        | ok taken =>
          rw [ok_bind, ok_bind, ih]
          cases untilBreakFrom read most taken.2 <;> rfl

end Reader

namespace Cbor

theorem foldSeries_eq {α β : Type} (size : Option Nat) (read : Reader α) (use : β → α → β) (b : β)
    (input : Bytes) :
    foldSeries size read use b input =
      (series size read input).map (Prod.map (List.foldl use b) id) := by
  cases size with
  | none => exact Reader.foldUntilBreakFrom_eq read use _ b input
  | some n => exact Reader.foldTimes_eq read use n b input

end Cbor

/-! ### Heads -/

/-- Whatever the reader takes off the front has the property. -/
def Reader.Yields {α : Type} (P : α → Prop) (read : Reader α) : Prop :=
  ∀ input a rest, read input = .ok (a, rest) → P a

namespace Reader.Yields

variable {α β : Type} {P : α → Prop} {Q : β → Prop}

theorem pure {a : α} (h : P a) : Yields P (pure a) := by
  intro input taken rest hRead
  cases hRead
  exact h

theorem throw (e : Error) : Yields P (throw e) := by
  intro input a rest hRead
  cases hRead

theorem bind {first : Reader β} {next : β → Reader α} (hFirst : Yields Q first)
    (hNext : ∀ b, Q b → Yields P (next b)) : Yields P (first >>= next) := by
  intro input a rest hRead
  obtain ⟨taken, hTaken, hRest⟩ := bind_eq_ok_iff.mp hRead
  exact hNext taken.1 (hFirst input _ _ hTaken) taken.2 a rest hRest

theorem after (first : Reader β) {next : β → Reader α} (hNext : ∀ b, Yields P (next b)) :
    Yields P (first >>= next) := by
  intro input a rest hRead
  obtain ⟨taken, _, hRest⟩ := bind_eq_ok_iff.mp hRead
  exact hNext taken.1 taken.2 a rest hRest

end Reader.Yields

namespace Cbor

open Reader (Yields)

def Value.IsPlain : Value → Prop
  | .array _ => False
  | .map _ => False
  | _ => True

theorem negative_yields (role : Role) (info : Nat) : Yields Value.IsPlain (negative role info) := by
  apply Yields.after
  intro n
  split
  · exact Yields.after _ fun _ => Yields.pure trivial
  · exact Yields.pure trivial

theorem octetString_yields (info : Nat) : Yields Value.IsPlain (octetString info) := by
  apply Yields.after
  intro size
  cases size with
  | none => exact Yields.after _ fun _ => Yields.pure trivial
  | some n => exact Yields.after _ fun _ => Yields.pure trivial

theorem textString_yields (size info : Nat) : Yields Value.IsPlain (textString size info) := by
  apply Yields.after
  intro length
  cases length with
  | none => exact Yields.after _ fun _ => Yields.pure trivial
  | some n =>
    apply Yields.after
    intro rest
    split
    · apply Yields.after
      intro _
      apply Yields.after
      intro bytes
      split
      · exact Yields.pure trivial
      · exact Yields.throw _
    · apply Yields.after
      intro bytes
      split
      · exact Yields.pure trivial
      · exact Yields.throw _

theorem simple_yields (info : Nat) : Yields Value.IsPlain (simple info) := by
  unfold simple
  split
  · exact Yields.pure trivial
  · exact Yields.pure trivial
  · exact Yields.pure trivial
  · exact Yields.pure trivial
  · exact Yields.after _ fun _ => Yields.pure trivial
  · exact Yields.after _ fun _ => Yields.pure trivial
  · exact Yields.after _ fun _ => Yields.pure trivial
  · exact Yields.throw _

/-- The head is that of a container or a tag, or its value is no container. -/
def Head.IsPlain : Head → Prop
  | .scalar value => value.IsPlain
  | _ => True

/-- A value that is complete with its head is no container. -/
theorem Head.read_yields (size : Nat) (role : Role) :
    Yields Head.IsPlain (Head.read size role) := by
  apply Yields.after
  intro c
  dsimp only
  split
  · exact Yields.after _ fun n => Yields.pure trivial
  · exact Yields.bind (negative_yields role _) fun value hPlain => Yields.pure hPlain
  · exact Yields.bind (octetString_yields _) fun value hPlain => Yields.pure hPlain
  · exact Yields.bind (textString_yields size _) fun value hPlain => Yields.pure hPlain
  · exact Yields.after _ fun _ => Yields.pure trivial
  · exact Yields.after _ fun _ => Yields.pure trivial
  · exact Yields.after _ fun _ => Yields.pure trivial
  · exact Yields.bind (simple_yields _) fun value hPlain => Yields.pure hPlain

end Cbor

end SignReview
