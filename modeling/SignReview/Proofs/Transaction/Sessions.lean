import SignReview.Proofs.Amount.Failures
import SignReview.Proofs.Transaction.Screens
import SignReview.Proofs.Transaction.Validation

/-!
# Validating again and again

A transaction may be validated any number of times, in any contexts.  Each validation starts from
what has been received and forgets all earlier ones, so that only the last counts: nothing is shown
before it or where it has failed.  Its verdict depends on the chains only, and on nothing for a list
of screens.

* `Transaction.after`: a transaction behind some validations, `Transaction.after_concat`: only the
  last of them counts.
* `Transaction.Locked`: nothing is shown, `Transaction.answers_of_validate`,
  `Transaction.answers_of_refused`: what is shown behind a validation.
* `SignDoc.check_congr`, `ScreenList.Holds.check_congr`: what a verdict depends on.
* `Transaction.session_of_parse`: the answers and verdicts of a whole session.
-/

namespace SignReview

open Json

/-! ### Verdicts -/

theorem Entry.renderAll_congr (entry : Entry) (width width' : Nat) :
    entry.renderAll width = entry.renderAll width' := by
  by_cases hTexts : entry.texts = []
  · have hNone : ∀ width, entry.renderAll width = .error .displayPageOutOfRange := by
      intro width
      have hTotal : Page.total (Page.clamp width) entry.texts ≤ 0 := by
        rw [hTexts]
        exact Nat.le_refl 0
      rw [renderAll, item_of_le hTotal]
      rfl
    rw [hNone, hNone]
  · rw [renderAll_of_texts hTexts, renderAll_of_texts hTexts]

/-- The verdict on a sign document depends on the chains only. -/
theorem SignDoc.check_congr (doc : Document) {context context' : Context}
    (hChains : context'.chains = context.chains) : check doc context' = check doc context := by
  have hRender : ∀ listing expert n,
      (entry doc listing { context' with expert } n >>= fun found =>
        found.renderAll context'.width) =
      (entry doc listing { context with expert } n >>= fun found =>
        found.renderAll context.width) := by
    intro listing expert n
    rw [entry_congr doc listing { context with expert } { context' with expert } rfl hChains]
    congr 1
    funext found
    exact found.renderAll_congr _ _
  unfold check
  simp only [hRender]

/-- The verdict on a list of screens depends on nothing. -/
theorem ScreenList.Holds.check_congr {list : ScreenList} {screens : List Screen}
    (h : list.Holds screens) (context context' : Context) :
    list.check context' = list.check context := by
  by_cases hRefused : ∃ screen ∈ screens, Refused screen
  · rw [check_of_refused h hRefused, check_of_refused h hRefused]
  · have hAll : ∀ screen ∈ screens, ¬Refused screen :=
      fun screen hMem hRefuse => hRefused ⟨screen, hMem, hRefuse⟩
    rw [check_of_accepted h hAll, check_of_accepted h hAll]

namespace Transaction

/-! ### Histories -/

def after (tx : Transaction) (history : List Context) : Transaction :=
  history.foldl (fun tx context => (tx.validate context).2) tx

def Locked (tx : Transaction) (history : List Context) : Prop :=
  history = [] ∨ ∃ earlier last e, history = earlier ++ [last] ∧
    ((tx.after earlier).validate last).1 = .error e

/-- A validation forgets the one before. -/
theorem validate_validate (tx : Transaction) (context context' : Context) :
    (tx.validate context).2.validate context' = tx.validate context' := by
  cases tx with
  | json doc listing =>
    rw [validate]
    cases SignDoc.check doc context <;> rfl
  | textual list validated =>
    rw [validate]
    cases list.check context <;> rfl

theorem validate_after (tx : Transaction) (history : List Context) (context : Context) :
    (tx.after history).validate context = tx.validate context := by
  induction history generalizing tx with
  | nil => rfl
  | cons first history ih => exact (ih _).trans (tx.validate_validate first context)

theorem after_concat (tx : Transaction) (history : List Context) (last : Context) :
    tx.after (history ++ [last]) = (tx.validate last).2 := by
  rw [after, List.foldl_append]
  exact congrArg Prod.snd (tx.validate_after history last)

theorem eq_of_parse {form : Form} {bytes : Bytes} {limits limits' : Limits}
    {tx tx' : Transaction} (h : parse form bytes limits = .ok tx)
    (h' : parse form bytes limits' = .ok tx') : tx' = tx := by
  cases form with
  | json =>
    obtain ⟨doc, hDoc, rfl⟩ := parse_json h
    obtain ⟨doc', hDoc', rfl⟩ := parse_json h'
    rw [Document.eq_of_parse hDoc hDoc']
  | textual =>
    obtain ⟨list, hList, rfl⟩ := parse_textual h
    obtain ⟨list', hList', rfl⟩ := parse_textual h'
    rw [ScreenList.parse] at hList hList'
    obtain ⟨_, hWalk⟩ := guard_eq_ok_iff.mp hList
    obtain ⟨_, hWalk'⟩ := guard_eq_ok_iff.mp hList'
    obtain rfl := Except.ok.inj (hWalk.symm.trans hWalk')
    rfl

/-- The verdict on a transaction that has been read depends on the chains only, and on nothing for a
list of screens. -/
theorem verdict_congr {form : Form} {bytes : Bytes} {limits : Limits} {tx : Transaction}
    (h : parse form bytes limits = .ok tx) {context context' : Context}
    (hChains : form = .json → context'.chains = context.chains) :
    (tx.validate context').1 = (tx.validate context).1 := by
  cases form with
  | json =>
    obtain ⟨doc, _, rfl⟩ := parse_json h
    rw [validate, validate, SignDoc.check_congr doc (hChains rfl)]
  | textual =>
    obtain ⟨list, hList, rfl⟩ := parse_textual h
    obtain ⟨_, _, _, _, hHolds⟩ := ScreenList.exists_holds hList
    rw [validate, validate, hHolds.check_congr context context']

/-! ### Answers -/

theorem item_ne_noData_of_entry (entry : Entry) (width page : Nat) :
    entry.item width page ≠ .error .noData := by
  intro hItem
  by_cases hPage : page < Page.total (Page.clamp width) entry.texts
  · obtain ⟨value, hValue⟩ := Entry.item_of_lt hPage
    cases hValue.symm.trans hItem
  · cases (Entry.item_of_le (Nat.le_of_not_lt hPage)).symm.trans hItem

/-- What there is in a sign document that has been checked is there for all chains; for other chains
an amount may fail to be converted. -/
theorem entry_ne_noData {doc : Document} {context context' : Context} {listing : Listing}
    (h : SignDoc.check doc context = .ok listing) (n : Nat) :
    SignDoc.entry doc listing context' n ≠ .error .noData := by
  intro hEntry
  rw [SignDoc.entry] at hEntry
  by_cases hn : listing.size ≤ n
  · rw [Listing.leaf, Listing.locate, Listing.locateIn_of_le hn] at hEntry
    cases hEntry
  · -- to experts, the item is shown without a conversion
    have hChains : ({ context with expert := true } : Context).chains = context.chains := rfl
    obtain ⟨found, hFound, _⟩ := SignDoc.exists_entry h hChains (Nat.lt_of_not_le hn)
    obtain ⟨leaf, hLeaf, hFound⟩ := bind_eq_ok_iff.mp hFound
    rw [SignDoc.leafEntry] at hFound
    rw [hLeaf, ok_bind, SignDoc.leafEntry] at hEntry
    by_cases hAmount : Label.isAmount leaf.path.bytes = true
    · rw [if_pos hAmount] at hFound hEntry
      obtain ⟨plain, hPlain, _⟩ := bind_eq_ok_iff.mp hFound
      rcases bind_eq_error_iff.mp hEntry with hTexts | ⟨_, _, hTexts⟩
      · rcases Coin.texts_of_plain hPlain _ hTexts with hError | hError <;> cases hError
      · cases hTexts
    · rw [if_neg hAmount] at hFound hEntry
      cases hFound.symm.trans hEntry

/-- Behind a validation that succeeds there is something to show, whoever asks. -/
theorem answers_of_validate {form : Form} {bytes : Bytes} {limits : Limits} {tx : Transaction}
    (h : parse form bytes limits = .ok tx) {last : Context}
    (hVerdict : (tx.validate last).1 = .ok ()) (context : Context) :
    (tx.validate last).2.size context ≠ .error .noData ∧
      ∀ n page, (tx.validate last).2.item context n page ≠ .error .noData := by
  cases form with
  | json =>
    obtain ⟨doc, _, rfl⟩ := parse_json h
    rw [validate] at hVerdict ⊢
    cases hCheck : SignDoc.check doc last with
    | error e =>
      rw [hCheck] at hVerdict
      cases hVerdict
    | ok listing =>
      refine ⟨fun hSize => (by cases hSize), fun n page hItem => ?_⟩
      rcases bind_eq_error_iff.mp hItem with hEntry | ⟨found, _, hPage⟩
      · exact entry_ne_noData hCheck n hEntry
      · exact item_ne_noData_of_entry _ _ _ hPage
  | textual =>
    obtain ⟨list, hList, rfl⟩ := parse_textual h
    obtain ⟨_, screens, _, _, hHolds⟩ := ScreenList.exists_holds hList
    have hAll := not_refused_of_validate hHolds hVerdict
    rw [validate, ScreenList.check_of_accepted hHolds hAll]
    refine ⟨fun hSize => (by cases hSize), fun n page hItem => ?_⟩
    obtain ⟨hOutside, hInside⟩ := item_of_holds hHolds hAll context n
    by_cases hn : n < (ScreenList.shown screens context.expert).length
    · obtain ⟨key, pages, _, hPages⟩ := hInside hn
      by_cases hPage : page < pages
      · obtain ⟨value, hValue⟩ := (hPages page).1 hPage
        cases hValue.symm.trans hItem
      · cases ((hPages page).2 (Nat.le_of_not_lt hPage)).symm.trans hItem
    · cases (hOutside (Nat.le_of_not_lt hn) page).symm.trans hItem

/-- Behind a validation that fails nothing is shown. -/
theorem answers_of_refused {tx : Transaction} {last : Context} {e : Error}
    (hVerdict : (tx.validate last).1 = .error e) (context : Context) :
    (tx.validate last).2.size context = .error .noData ∧
      ∀ n page, (tx.validate last).2.item context n page = .error .noData := by
  cases tx with
  | json doc listing =>
    rw [validate] at hVerdict ⊢
    cases hCheck : SignDoc.check doc last with
    | ok built =>
      rw [hCheck] at hVerdict
      cases hVerdict
    | error e' => exact ⟨rfl, fun _ _ => rfl⟩
  | textual list validated =>
    rw [validate] at hVerdict ⊢
    cases hCheck : list.check last with
    | ok _ =>
      rw [hCheck] at hVerdict
      cases hVerdict
    | error e' => exact ⟨rfl, fun _ _ => rfl⟩

/-- Behind some validations, either nothing is shown or whatever is asked for is looked up. -/
theorem answers_after {form : Form} {bytes : Bytes} {limits : Limits} {tx : Transaction}
    (h : parse form bytes limits = .ok tx) (history : List Context) :
    (tx.Locked history ∧ ∀ context, (tx.after history).size context = .error .noData ∧
      ∀ n page, (tx.after history).item context n page = .error .noData) ∨
    (¬tx.Locked history ∧ ∀ context, (tx.after history).size context ≠ .error .noData ∧
      ∀ n page, (tx.after history).item context n page ≠ .error .noData) := by
  rcases List.eq_nil_or_concat' history with rfl | ⟨earlier, last, rfl⟩
  · refine Or.inl ⟨Or.inl rfl, fun context => ?_⟩
    cases form with
    | json =>
      obtain ⟨doc, _, rfl⟩ := parse_json h
      exact ⟨rfl, fun _ _ => rfl⟩
    | textual =>
      obtain ⟨list, _, rfl⟩ := parse_textual h
      exact ⟨rfl, fun _ _ => rfl⟩
  · rw [tx.after_concat]
    cases hVerdict : (tx.validate last).1 with
    | error e =>
      refine Or.inl ⟨Or.inr ⟨earlier, last, e, rfl, ?_⟩, answers_of_refused hVerdict⟩
      rw [validate_after, hVerdict]
    | ok _ =>
      refine Or.inr ⟨?_, answers_of_validate h hVerdict⟩
      rintro (hNil | ⟨earlier', last', e, hSame, hRefused⟩)
      · simp at hNil
      · obtain ⟨_, rfl⟩ := List.append_singleton_inj.mp hSame
        rw [validate_after, hVerdict] at hRefused
        cases hRefused

/-- In a session of validations, nothing is shown exactly where the last has failed or there was
none, and else what the last validation alone makes available.  Its verdict is that on the octets
received, in the light of the chains for a sign document and of nothing for a list of screens. -/
theorem session_of_parse {form : Form} {bytes : Bytes} {limits : Limits} {tx : Transaction}
    (h : parse form bytes limits = .ok tx) :
    (∀ history context,
      ((tx.after history).size context = .error .noData ↔ tx.Locked history) ∧
      ∀ n page, (tx.after history).item context n page = .error .noData ↔ tx.Locked history) ∧
    (∀ history last, tx.after (history ++ [last]) = (tx.validate last).2) ∧
    ∀ limits' tx', parse form bytes limits' = .ok tx' → ∀ history history' context context',
      (form = .json → context'.chains = context.chains) →
        ((tx'.after history').validate context').1 = ((tx.after history).validate context).1 := by
  refine ⟨fun history context => ?answers, tx.after_concat, ?verdicts⟩
  case answers =>
    rcases answers_after h history with ⟨hLocked, hAnswers⟩ | ⟨hOpen, hAnswers⟩
    · exact ⟨iff_of_true (hAnswers context).1 hLocked,
        fun n page => iff_of_true ((hAnswers context).2 n page) hLocked⟩
    · exact ⟨iff_of_false (hAnswers context).1 hOpen,
        fun n page => iff_of_false ((hAnswers context).2 n page) hOpen⟩
  case verdicts =>
    intro limits' tx' h' history history' context context' hChains
    obtain rfl := eq_of_parse h h'
    rw [validate_after, validate_after]
    exact verdict_congr h hChains

/-- A sign document with half a coin as its fee, which can not be converted, and two messages of the
same type.  Where its chain is not known the fee is shown as it stands. -/
def halfCoin : Bytes := Bytes.ofString
  ("\x7b\"account_number\":\"7\",\"chain_id\":\"cosmoshub-4\",\"fee\":\x7b\"amount\":" ++
    "[\x7b\"amount\":\"0.5\",\"denom\":\"uatom\"\x7d]\x7d,\"memo\":\"\"," ++
    "\"msgs\":[\x7b\"type\":\"vote\"\x7d,\x7b\"type\":\"vote\"\x7d],\"sequence\":\"1\"\x7d")

theorem session_of_parse_halfCoin :
    ∃ tx, parse .json halfCoin {} = .ok tx ∧ tx.size {} = .error .noData ∧
      (tx.after [{}, { chains := [] }]).size {} = .ok 5 ∧
      (∀ n page, (tx.after [{}, { chains := [] }]).item {} n page ≠ .error .noData) ∧
      (∀ n page, (tx.after [{ chains := [] }, {}]).item {} n page = .error .noData) ∧
      ((tx.after [{}]).validate { expert := true, width := 0, chains := [] }).1 = .ok () := by
  have hRead : ((Document.parse halfCoin {}).toOption.map fun doc =>
      ((SignDoc.check doc { chains := [] }).toOption.map Listing.size,
        (SignDoc.check doc {}).toOption.isNone)) = some (some 5, true) := by decide +kernel
  obtain ⟨doc, hDoc, hRead⟩ := Option.map_eq_some_iff.mp hRead
  obtain ⟨hAccepted, hRefused⟩ := Prod.mk.inj hRead
  obtain ⟨listing, hCheck, hSize⟩ := Option.map_eq_some_iff.mp hAccepted
  rw [toOption_eq_some_iff] at hDoc hCheck
  obtain ⟨tx, hTx⟩ : ∃ tx, tx = Transaction.json doc none := ⟨_, rfl⟩
  have hParse : parse .json halfCoin {} = .ok tx := by
    rw [parse, hDoc, hTx]
    rfl
  have hValid : tx.validate { chains := [] } = (.ok (), .json doc (some listing)) := by
    rw [hTx, validate, hCheck]
  have hInvalid : (tx.validate {}).2 = .json doc none := by
    rw [hTx, validate]
    cases hOther : SignDoc.check doc {} with
    | error e => rfl
    | ok other =>
      rw [hOther] at hRefused
      cases hRefused
  obtain ⟨hAnswers, hLast, hVerdicts⟩ := session_of_parse hParse
  have hShown : tx.after [{}, { chains := [] }] = .json doc (some listing) := by
    have hBoth := hLast [{}] { chains := [] }
    rwa [hValid] at hBoth
  have hHidden : tx.after [{ chains := [] }, {}] = .json doc none := by
    have hBoth := hLast [{ chains := [] }] {}
    rwa [hInvalid] at hBoth
  have hOpen : (tx.after [{}, { chains := [] }]).size {} = .ok 5 := by
    rw [hShown, ← hSize]
    rfl
  have hUnlocked : ¬tx.Locked [{}, { chains := [] }] := by
    rw [← (hAnswers _ {}).1, hOpen]
    exact fun hNone => by cases hNone
  have hLocked : tx.Locked [{ chains := [] }, {}] := by
    rw [← (hAnswers _ {}).1, hHidden]
    rfl
  refine ⟨tx, hParse, (hAnswers [] {}).1.mpr (Or.inl rfl), hOpen, fun n page => ?_,
    fun n page => ((hAnswers _ {}).2 n page).mpr hLocked, ?_⟩
  · rw [Ne, (hAnswers _ {}).2 n page]
    exact hUnlocked
  · have hVerdict := hVerdicts {} tx hParse [] [{}] { chains := [] }
      { expert := true, width := 0, chains := [] } fun _ => rfl
    exact hVerdict.trans (congrArg Prod.fst hValid)

end Transaction

end SignReview
