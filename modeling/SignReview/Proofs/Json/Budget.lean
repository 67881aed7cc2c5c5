import SignReview.Json.Document
import SignReview.Proofs.Outcome

/-!
# The budget of tokens

The budget is looked at where a token would be added, and nowhere else.  So two runs of the builder
over one text, with different budgets, do the same until the smaller budget is used up, and only
then does the run with the smaller budget end.

* `Cut`: what a budget leaves of an outcome, `Cut.bind`: of one step after the other.
* `Builder.Effect`: what a lexeme does to the tokens, `Builder.step_cut`: with two budgets,
  `Builder.run_cut`: what any number of lexemes does.
* `Document.parse_cut`: what is parsed, `Document.parse_of_budget_le`: how the budget decides.
-/

namespace SignReview.Json

/-- The second outcome is what is left of the first where `size` may be at most `budget`: the same
outcome, or the error that says so.  Where there is an outcome that is not too large, it is left. -/
inductive Cut {α : Type} (size : α → Nat) (budget : Nat) : Except Error α → Except Error α → Prop
  | within {a : α} (h : size a ≤ budget) : Cut size budget (.ok a) (.ok a)
  | failed (e : Error) : Cut size budget (.error e) (.error e)
  | exceeded {x : Except Error α} (h : ∀ a, x = .ok a → budget < size a) :
      Cut size budget x (.error .tooManyTokens)

/-- A second step, which makes nothing smaller, is cut off where the first or the second would. -/
theorem Cut.bind {α β : Type} {size : α → Nat} {size' : β → Nat} {budget : Nat}
    {x y : Except Error α} {f g : α → Except Error β} (h : Cut size budget x y)
    (hNext : ∀ a, size a ≤ budget → Cut size' budget (f a) (g a))
    (hMore : ∀ a b, f a = .ok b → size a ≤ size' b) : Cut size' budget (x >>= f) (y >>= g) := by
  cases h with
  | within ha => exact hNext _ ha
  | failed e => exact .failed e
  | exceeded hLarge =>
    refine .exceeded fun b hb => ?_
    obtain ⟨a, ha, hb⟩ := bind_eq_ok_iff.mp hb
    exact Nat.lt_of_lt_of_le (hLarge a ha) (hMore a b hb)

namespace Builder

def size (b : Builder) : Nat := b.tokens.size

variable {budget more : Nat}

/-- What a lexeme does to the tokens, whatever the budget is: it is refused, it is a string that is
cut off where one may stand, it leaves their number as it is, or it adds one token, which the budget
has to allow. -/
inductive Effect (b : Builder) (lexeme : Lexeme) : Prop
  | refuses (h : ∀ budget, b.step budget lexeme = .error .unexpectedCharacters)
  | endsInside (contents : Bytes) (hLexeme : lexeme = .unclosed contents)
      (hString : b.expected.isName ∨ b.expected.isValue)
      (h : ∀ budget, b.step budget lexeme = .error .incompleteJson)
  | keeps (c : Builder) (hSize : c.size = b.size) (h : ∀ budget, b.step budget lexeme = .ok c)
  | adds (token : Token) (change : Builder → Builder) (hSize : ∀ a, (change a).size = a.size)
      (h : ∀ budget, b.step budget lexeme = b.push budget token >>= fun a => .ok (change a))

theorem effect_opening (b : Builder) (container : Container) : Effect b (.opening container) := by
  by_cases hValue : b.expected.isValue
  · refine .adds ⟨container.kind, b.offset, Token.openMark⟩
      (fun a => { a with parent := some b.tokens.size }.advance (.opening container)
        (.inside container)) (fun _ => rfl) fun budget => ?_
    rw [step, if_pos hValue, openContainer]
    cases b.push budget ⟨container.kind, b.offset, Token.openMark⟩ <;> rfl
  · exact .refuses fun _ => if_neg hValue

theorem effect_closing (b : Builder) (container : Container) : Effect b (.closing container) := by
  cases hParent : b.parent with
  | none => exact .refuses fun budget => by rw [step, hParent]
  | some index =>
    by_cases hClose : b.expected.mayClose container ∧ b.parentKind = some container.kind
    · refine .keeps _ ?_ fun _ => by rw [step, hParent]; exact if_pos hClose
      exact Array.size_modify
    · exact .refuses fun _ => by rw [step, hParent]; exact if_neg hClose

theorem effect_string (b : Builder) (contents : Bytes) : Effect b (.string contents) := by
  by_cases hName : b.expected.isName
  · exact .adds _ (fun a => a.advance (.string contents) .colon) (fun _ => rfl) fun _ =>
      if_pos hName
  · by_cases hValue : b.expected.isValue
    · exact .adds _ (fun a => a.advance (.string contents) (.afterValue b.parent)) (fun _ => rfl)
        fun _ => (if_neg hName).trans (if_pos hValue)
    · exact .refuses fun _ => (if_neg hName).trans (if_neg hValue)

theorem effect (b : Builder) (lexeme : Lexeme) : Effect b lexeme := by
  cases lexeme with
  | blank octet => exact .keeps (b.advance (.blank octet) b.expected) rfl fun _ => rfl
  | opening container => exact effect_opening b container
  | closing container => exact effect_closing b container
  | colon =>
    by_cases hColon : b.expected = .colon
    · exact .keeps (b.advance .colon .value) rfl fun _ => if_pos hColon
    · exact .refuses fun _ => if_neg hColon
  | comma =>
    by_cases hComma : b.expected = .commaOrClose
    · exact .keeps (b.advance .comma (.afterComma b.parentKind)) rfl fun _ => if_pos hComma
    · exact .refuses fun _ => if_neg hComma
  | string contents => exact effect_string b contents
  | literal text =>
    by_cases hValue : b.expected.isValue
    · exact .adds _ (fun a => a.advance (.literal text) (.afterValue b.parent)) (fun _ => rfl)
        fun _ => if_pos hValue
    · exact .refuses fun _ => if_neg hValue
  | unclosed contents =>
    by_cases hString : b.expected.isName ∨ b.expected.isValue
    · exact .endsInside contents rfl hString fun _ => if_pos hString
    · exact .refuses fun _ => if_neg hString
  | malformed rest => exact .refuses fun _ => rfl

/-! ### Runs with two budgets -/

theorem size_of_push {b c : Builder} {token : Token} (h : b.push budget token = .ok c) :
    c.size = b.size + 1 := by
  rw [push] at h
  split at h
  · obtain rfl := Except.ok.inj h
    exact Array.size_push _
  · cases h

theorem push_cut (hMore : budget ≤ more) (b : Builder) (token : Token) :
    Cut size budget (b.push more token) (b.push budget token) := by
  by_cases hRoom : b.tokens.size < budget
  · have hBoth : b.push more token = b.push budget token := by
      rw [push, push, if_pos hRoom, if_pos (Nat.lt_of_lt_of_le hRoom hMore)]
    rw [hBoth, push, if_pos hRoom]
    refine .within ?_
    rw [size, Array.size_push]
    exact hRoom
  · rw [push.eq_1 b budget, if_neg hRoom]
    refine .exceeded fun c hc => ?_
    rw [size_of_push hc]
    exact Nat.lt_succ_of_le (Nat.le_of_not_lt hRoom)

theorem size_le_of_step {b c : Builder} {lexeme : Lexeme} (h : b.step budget lexeme = .ok c) :
    b.size ≤ c.size := by
  cases effect b lexeme with
  | refuses hStep =>
    rw [hStep] at h
    cases h
  | endsInside contents _ _ hStep =>
    rw [hStep] at h
    cases h
  | keeps a hSize hStep =>
    rw [hStep] at h
    obtain rfl := Except.ok.inj h
    exact Nat.le_of_eq hSize.symm
  | adds token change hSize hStep =>
    rw [hStep] at h
    obtain ⟨a, ha, h⟩ := bind_eq_ok_iff.mp h
    obtain rfl := Except.ok.inj h
    rw [hSize, size_of_push ha]
    exact Nat.le_succ _

/-- Whatever a lexeme is refused for, it is refused for with either budget, unless the smaller one
is used up. -/
theorem step_cut (hMore : budget ≤ more) {b : Builder} (hSize : b.size ≤ budget)
    (lexeme : Lexeme) : Cut size budget (b.step more lexeme) (b.step budget lexeme) := by
  cases effect b lexeme with
  | refuses hStep =>
    rw [hStep, hStep]
    exact .failed _
  | endsInside contents _ _ hStep =>
    rw [hStep, hStep]
    exact .failed _
  | keeps a hSame hStep =>
    rw [hStep, hStep]
    exact .within (hSame ▸ hSize)
  | adds token change hSame hStep =>
    rw [hStep, hStep]
    refine (push_cut hMore b token).bind (fun a ha => .within (hSame a ▸ ha)) fun a c hc => ?_
    obtain rfl := Except.ok.inj hc
    exact Nat.le_of_eq (hSame a).symm

theorem size_le_of_run {ls : List Lexeme} {b c : Builder}
    (h : ls.foldlM (step budget) b = .ok c) : b.size ≤ c.size := by
  induction ls generalizing b with
  | nil =>
    obtain rfl := Except.ok.inj h
    exact Nat.le_refl _
  | cons lexeme ls ih =>
    rw [List.foldlM_cons] at h
    obtain ⟨next, hStep, h⟩ := bind_eq_ok_iff.mp h
    exact Nat.le_trans (size_le_of_step hStep) (ih h)

theorem run_cut (hMore : budget ≤ more) (ls : List Lexeme) {b : Builder} (hSize : b.size ≤ budget) :
    Cut size budget (ls.foldlM (step more) b) (ls.foldlM (step budget) b) := by
  induction ls generalizing b with
  | nil => exact .within hSize
  | cons lexeme ls ih =>
    rw [List.foldlM_cons, List.foldlM_cons]
    exact (step_cut hMore hSize lexeme).bind (fun _ hNext => ih hNext) fun _ _ => size_le_of_run

theorem finish_cut {b : Builder} (hSize : b.size ≤ budget) :
    Cut Array.size budget b.finish b.finish := by
  rw [finish]
  split
  · exact .failed _
  · split
    · exact .failed _
    · exact .within hSize

theorem size_of_finish {b : Builder} {tokens : Array Token} (h : b.finish = .ok tokens) :
    tokens.size = b.size := by
  rw [finish] at h
  split at h
  · cases h
  · split at h
    · cases h
    · obtain rfl := Except.ok.inj h
      rfl

end Builder

theorem Token.table_cut {budget more : Nat} (hMore : budget ≤ more) (text : Bytes) :
    Cut Array.size budget (Token.table more text) (Token.table budget text) :=
  (Builder.run_cut hMore (lexemes text) (b := .start) (Nat.zero_le budget)).bind
    (fun _ hSize => Builder.finish_cut hSize)
    fun _ _ hTokens => Nat.le_of_eq (Builder.size_of_finish hTokens).symm

namespace Document

/-- Of what is parsed within wider limits, the documents with more tokens than the budget are cut
off. -/
theorem parse_cut {limits limits' : Limits} (hLength : limits.maxDocument = limits'.maxDocument)
    (hBudget : limits.tokenBudget ≤ limits'.tokenBudget) (text : Bytes) :
    Cut (fun doc : Document => doc.tokens.size) limits.tokenBudget (parse text limits')
      (parse text limits) := by
  rw [parse, parse, hLength]
  by_cases hLong : limits'.maxDocument < text.length
  · rw [if_pos hLong, if_pos hLong]
    exact .failed _
  · rw [if_neg hLong, if_neg hLong]
    refine (Token.table_cut hBudget text).bind (fun _ hTokens => .within hTokens) ?_
    rintro tokens doc hDoc
    obtain rfl := Except.ok.inj hDoc
    exact Nat.le_refl _

/-- The budget of tokens is a cut-off and nothing else.  What is accepted with a budget is accepted
with any larger one, as the same document.  With a smaller one it is still accepted if it does not
have too many tokens, and otherwise it is refused because of that.  What is refused with a budget is
refused with any smaller one, for the same reason or because the smaller budget is used up
before. -/
theorem parse_of_budget_le {text : Bytes} {limits limits' : Limits}
    (hBytes : limits.maxBytes = limits'.maxBytes)
    (hBudget : limits.tokenBudget ≤ limits'.tokenBudget) :
    (∀ doc, parse text limits = .ok doc → parse text limits' = .ok doc) ∧
      (∀ doc, parse text limits' = .ok doc →
        (parse text limits = .ok doc ↔ doc.tokens.size ≤ limits.tokenBudget) ∧
        (limits.tokenBudget < doc.tokens.size → parse text limits = .error .tooManyTokens)) ∧
      ∀ e, parse text limits' = .error e →
        parse text limits = .error e ∨ parse text limits = .error .tooManyTokens := by
  have hLength : limits.maxDocument = limits'.maxDocument :=
    congrArg (min · Limits.maxPosition) hBytes
  have hCut := parse_cut hLength hBudget text
  generalize parse text limits' = more at hCut
  generalize parse text limits = less at hCut
  cases hCut with
  | within hSize =>
    refine ⟨fun doc hDoc => hDoc, fun doc hDoc => ⟨⟨fun _ => ?_, fun _ => hDoc⟩, ?_⟩, ?_⟩
    · exact Except.ok.inj hDoc ▸ hSize
    · intro hLarge
      obtain rfl := Except.ok.inj hDoc
      exact absurd hSize (Nat.not_le.mpr hLarge)
    · intro e hError
      cases hError
  | failed e =>
    refine ⟨fun doc hDoc => ?_, fun doc hDoc => ?_, fun e' hError => Or.inl hError⟩
    · cases hDoc
    · cases hDoc
  | exceeded hLarge =>
    refine ⟨fun doc hDoc => ?_, fun doc hDoc => ⟨⟨fun hLess => ?_, fun hSize => ?_⟩, ?_⟩, ?_⟩
    · cases hDoc
    · cases hLess
    · exact absurd hSize (Nat.not_le.mpr (hLarge doc hDoc))
    · exact fun _ => rfl
    · exact fun _ _ => Or.inr rfl

/-- A list of one number has two tokens, one too many for a budget of one. -/
theorem parse_of_budget_le_oneToken :
    (∃ doc, parse [0x5b, 0x31, 0x5d] {} = .ok doc ∧ doc.tokens.size = 2) ∧
      parse [0x5b, 0x31, 0x5d] { maxTokens := 1 } = .error .tooManyTokens ∧
      ∀ doc, parse [0x5b, 0x31, 0x5d] { maxTokens := 2 } = .ok doc →
        parse [0x5b, 0x31, 0x5d] {} = .ok doc := by
  have hDoc : parse [0x5b, 0x31, 0x5d] {} =
      .ok ⟨#[0x5b, 0x31, 0x5d], #[⟨.array, 0, 3⟩, ⟨.primitive, 1, 2⟩]⟩ := by rfl
  obtain ⟨_, hOne, _⟩ := @parse_of_budget_le [0x5b, 0x31, 0x5d] { maxTokens := 1 } {} rfl
    (by decide)
  obtain ⟨hTwo, _⟩ := @parse_of_budget_le [0x5b, 0x31, 0x5d] { maxTokens := 2 } {} rfl (by decide)
  exact ⟨⟨_, hDoc, rfl⟩, (hOne _ hDoc).2 (by decide), hTwo⟩

end Document

end SignReview.Json
