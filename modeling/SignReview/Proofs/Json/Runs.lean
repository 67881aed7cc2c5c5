import SignReview.Json.Runs
import SignReview.Proofs.Outcome

/-!
# Runs are read as the text they stand for

* `Lexeme.scan_cons`: the automaton by single octets, `Reader.foldlM_feed`: octet by octet the same
  tokens come out as from the lexemes of a text.
* `Reader.feedRun_eq`: what is skipped of a run would have been read as blanks.
* `Document.readRuns_eq`: the tokens of a text in runs are those of the text.
-/

namespace SignReview

namespace Run

theorem length_text (run : Run) : run.text.length = run.length := by
  rw [text, length, List.length_flatten, List.map_replicate, List.sum_replicate_nat]

theorem text_succ (piece : Bytes) (times : Nat) :
    Run.text ⟨piece, times + 1⟩ = piece ++ Run.text ⟨piece, times⟩ := by
  rw [text, text, List.replicate_succ, List.flatten_cons]

theorem mem_text {run : Run} {c : UInt8} (h : c ∈ run.text) : c ∈ run.piece := by
  obtain ⟨piece, hPiece, hc⟩ := List.mem_flatten.mp h
  rwa [(List.mem_replicate.mp hPiece).2] at hc

theorem foldl_length (runs : List Run) (n : Nat) :
    runs.foldl (fun length run => length + run.length) n =
      n + (runs.flatMap Run.text).length := by
  induction runs generalizing n with
  | nil => rfl
  | cons run runs ih =>
    rw [List.foldl_cons, ih, List.flatMap_cons, List.length_append, length_text, Nat.add_assoc]

end Run

namespace Json

/-- The automaton takes one octet: either lexemes end with it, or the text is malformed. -/
theorem Lexeme.scan_cons (mode : Mode) (c : UInt8) (rest : Bytes) :
    (∃ ended next, mode.next? c = some (ended, next) ∧
      scan mode (c :: rest) = ended ++ scan next rest) ∨
    mode.next? c = none ∧ ∃ left, scan mode (c :: rest) = [.malformed left] := by
  cases mode with
  | between =>
    rw [Mode.next?, scan]
    by_cases hQuote : c = 0x22
    · rw [if_pos hQuote, if_pos hQuote]
      exact Or.inl ⟨_, _, rfl, rfl⟩
    · rw [if_neg hQuote, if_neg hQuote]
      by_cases hLiteral : startsLiteral c = true
      · rw [if_pos hLiteral, if_pos hLiteral]
        exact Or.inl ⟨_, _, rfl, rfl⟩
      · rw [if_neg hLiteral, if_neg hLiteral]
        cases ofByte? c with
        | none => exact Or.inr ⟨rfl, _, rfl⟩
        | some lexeme => exact Or.inl ⟨_, _, rfl, rfl⟩
  | quoted inside read =>
    rw [Mode.next?, scan]
    by_cases hQuote : inside = .plain ∧ c = 0x22
    · rw [if_pos hQuote, if_pos hQuote]
      exact Or.inl ⟨_, _, rfl, rfl⟩
    · rw [if_neg hQuote, if_neg hQuote]
      cases inside.next? c with
      | none => exact Or.inr ⟨rfl, _, rfl⟩
      | some after => exact Or.inl ⟨_, _, rfl, rfl⟩
  | word read =>
    rw [Mode.next?, scan]
    cases (ofByte? c).filter endsLiteral with
    | none => exact Or.inl ⟨_, _, rfl, rfl⟩
    | some lexeme =>
      dsimp only
      by_cases hWord : Literal.isLiteral read.reverse = true
      · rw [if_pos hWord, if_pos hWord]
        exact Or.inl ⟨_, _, rfl, rfl⟩
      · rw [if_neg hWord, if_neg hWord]
        exact Or.inr ⟨rfl, _, rfl⟩

namespace Reader

variable {budget : Nat} {b : Builder}

theorem feed_of_isBlank {c : UInt8} (h : isBlank c) :
    feed budget ⟨.between, b⟩ c = .ok (skip ⟨.between, b⟩ 1) := by
  simp only [isBlank, Bool.or_eq_true, beq_iff_eq] at h
  rcases h with ((rfl | rfl) | rfl) | rfl <;> rfl

theorem foldlM_feed_of_isBlank {blanks : Bytes} (h : ∀ c ∈ blanks, isBlank c) (b : Builder) :
    blanks.foldlM (feed budget) ⟨.between, b⟩ = .ok (skip ⟨.between, b⟩ blanks.length) := by
  induction blanks generalizing b with
  | nil => rfl
  | cons c blanks ih =>
    rw [List.forall_mem_cons] at h
    rw [List.foldlM_cons, feed_of_isBlank h.1, ok_bind]
    refine (ih h.2 _).trans ?_
    simp only [skip, List.length_cons, Nat.add_assoc, Nat.add_comm 1]

theorem feedRun_eq (reader : Reader) (run : Run) :
    reader.feedRun budget run = run.text.foldlM (feed budget) reader := by
  obtain ⟨piece, times⟩ := run
  cases times with
  | zero => rfl
  | succ times =>
    rw [feedRun, Run.text_succ, List.foldlM_append]
    dsimp only
    cases hFirst : piece.foldlM (feed budget) reader with
    | error e => rfl
    | ok next =>
      rw [ok_bind, ok_bind]
      by_cases hSkip : (next.isBetween && piece.all isBlank) = true
      · rw [if_pos hSkip]
        obtain ⟨hMode, hBlank⟩ := Bool.and_eq_true_iff.mp hSkip
        have hRest : ∀ c ∈ Run.text ⟨piece, times⟩, isBlank c := fun c hc =>
          List.all_eq_true.mp hBlank c (Run.mem_text hc)
        obtain ⟨mode, b⟩ := next
        -- only between lexemes blanks do no more than move the offset
        cases mode with
        | between =>
          rw [foldlM_feed_of_isBlank hRest, Run.length_text]
          rfl
        | quoted inside read => cases hMode
        | word read => cases hMode
      · rw [if_neg hSkip]

theorem foldlM_feedRun (runs : List Run) (reader : Reader) :
    runs.foldlM (feedRun budget) reader = (runs.flatMap Run.text).foldlM (feed budget) reader := by
  induction runs generalizing reader with
  | nil => rfl
  | cons run runs ih =>
    rw [List.foldlM_cons, List.flatMap_cons, List.foldlM_append, feedRun_eq]
    exact bind_congr fun next => ih next

/-- The lexeme that is being read at the end of the text is finished with it. -/
theorem foldlM_feed (text : Bytes) (reader : Reader) :
    text.foldlM (feed budget) reader >>= finish budget =
      (Lexeme.scan reader.mode text).foldlM (Builder.step budget) reader.builder >>=
        Builder.finish := by
  induction text generalizing reader with
  | nil => rfl
  | cons c text ih =>
    rw [List.foldlM_cons, feed]
    obtain ⟨ended, next, hNext, hScan⟩ | ⟨hNext, left, hScan⟩ :=
      Lexeme.scan_cons reader.mode c text
    · rw [hNext, hScan, List.foldlM_append]
      dsimp only
      cases ended.foldlM (Builder.step budget) reader.builder with
      | error e => rfl
      | ok b =>
        rw [ok_bind, ok_bind]
        exact ih ⟨next, b⟩
    · rw [hNext, hScan]
      rfl

end Reader

theorem Token.tableOfRuns_eq (budget : Nat) (runs : List Run) :
    Token.tableOfRuns budget runs = Token.table budget (runs.flatMap Run.text) := by
  rw [Token.tableOfRuns, Reader.foldlM_feedRun]
  exact Reader.foldlM_feed _ .start

theorem Document.readRuns_eq (runs : List Run) (limits : Limits) :
    Document.readRuns runs limits =
      (Document.parse (runs.flatMap Run.text) limits).map Document.tokens := by
  rw [readRuns, parse, Run.foldl_length, Nat.zero_add, Token.tableOfRuns_eq]
  dsimp only
  by_cases hLong : limits.maxDocument < (runs.flatMap Run.text).length
  · rw [if_pos hLong, if_pos hLong]
    rfl
  · rw [if_neg hLong, if_neg hLong]
    cases Token.table limits.tokenBudget (runs.flatMap Run.text) <;> rfl

end Json

end SignReview
