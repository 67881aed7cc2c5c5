import SignReview.Proofs.Screen.Rules

/-!
# The screens that are described

A value is a screen if it is a map of fields that describe one, each part under its key; the screen
that is read from it has these parts and no others.

* `Screen.Describes`: fields describe a screen, `Screen.Describes.writes`,
  `Screen.Describes.of_writes`: they are the fields that may be written for it.
* `Screen.exists_writes`: a screen may be written as the value that it is read from.
* `Screen.ofValue_rules`: what is a screen, which one, and why another value is none.
-/

namespace SignReview.Screen

variable {value : Cbor.Value}

/-- The fields describe the screen: they are one to four, with ascending keys from 1 to 4, and the
parts of the screen, which are within their bounds, stand under their keys.  Only title, indent and
the mark for experts may be missing, and then there is none, it is 0, or the screen is for all. -/
structure Describes (fields : List (Nat × Cbor.Value)) (screen : Screen) : Prop where
  length : 1 ≤ fields.length ∧ fields.length ≤ 4
  ascending : (fields.map Prod.fst).Pairwise (· < ·)
  known : ∀ field ∈ fields, field.1 ∈ [1, 2, 3, 4]
  title : fields.lookup 1 = screen.title.map .text
  content : fields.lookup 2 = some (.text screen.content)
  indent : fields.lookup 3 = some (.unsigned screen.indent) ∨
    fields.lookup 3 = none ∧ screen.indent = 0
  expert : fields.lookup 4 = some (.bool screen.expert) ∨
    fields.lookup 4 = none ∧ screen.expert = false
  fits : screen.Fits

namespace WritesField

variable {key : Nat} {isDefault : Prop} {fields : List (Nat × Cbor.Value)}

theorem key_of_mem (h : WritesField key value isDefault fields) :
    ∀ field ∈ fields, field.1 = key := by
  cases h with
  | written => simp
  | leftOut => simp

theorem lookup (h : WritesField key value isDefault fields) :
    fields.lookup key = some value ∨ fields.lookup key = none ∧ isDefault := by
  cases h with
  | written => exact Or.inl (by simp)
  | leftOut hDefault => exact Or.inr ⟨rfl, hDefault⟩

theorem lookup_of_ne (h : WritesField key value isDefault fields) {other : Nat}
    (hOther : other ≠ key) : fields.lookup other = none := by
  refine List.lookup_eq_none_iff.mpr fun field hField => ?_
  rw [h.key_of_mem field hField]
  exact bne_iff_ne.mpr hOther

theorem of_lookup {found : Option Cbor.Value}
    (h : found = some value ∨ found = none ∧ isDefault) :
    WritesField key value isDefault (found.toList.map fun value => (key, value)) := by
  rcases h with rfl | ⟨rfl, hDefault⟩
  · exact .written
  · exact .leftOut hDefault

end WritesField

theorem AscendFrom.exists_rest {n : Nat} {fields : List (Nat × Cbor.Value)}
    (h : AscendFrom n fields) :
    ∃ rest, fields = ((fields.lookup n).toList.map fun value => (n, value)) ++ rest ∧
      AscendFrom (n + 1) rest ∧ ∀ key, n < key → rest.lookup key = fields.lookup key := by
  rcases h.cases with ⟨value, rest, rfl, hRest⟩ | hRest
  · refine ⟨rest, by simp, hRest, fun key hKey => ?_⟩
    rw [List.lookup_cons, beq_false_of_ne (Nat.ne_of_gt hKey)]
  · refine ⟨fields, ?_, hRest, fun key _ => rfl⟩
    rw [hRest.lookup_eq_none (Nat.lt_succ_self n)]
    rfl

namespace Describes

variable {screen : Screen} {fields : List (Nat × Cbor.Value)}

theorem writes (h : Describes fields screen) : screen.Writes fields := by
  have hKnown : ∀ field ∈ fields, 1 ≤ field.1 ∧ field.1 < 5 := fun field hField => by
    have := h.known field hField
    simp only [List.mem_cons, List.not_mem_nil, or_false] at this
    omega
  have hFields : AscendFrom 1 fields :=
    ascendFrom_of_pairwise h.ascending fun field hField => (hKnown field hField).1
  obtain ⟨behindTitle, hTitle, (hBehindTitle : AscendFrom 2 _), hLater⟩ := hFields.exists_rest
  obtain ⟨behindContent, hContent, (hBehindContent : AscendFrom 3 _), hLaterStill⟩ :=
    hBehindTitle.exists_rest
  obtain ⟨behindIndent, hIndent, (hBehindIndent : AscendFrom 4 _), hLast⟩ :=
    hBehindContent.exists_rest
  obtain ⟨rest, hExpert, (hRest : AscendFrom 5 _), _⟩ := hBehindIndent.exists_rest
  have hNone : rest = [] := by
    refine List.eq_nil_iff_forall_not_mem.mpr fun field hField => ?_
    have hLarge := hRest.le_of_mem field hField
    have hSmall := (hKnown field (by rw [hTitle, hContent, hIndent, hExpert]; simp [hField])).2
    omega
  have hText : ∀ title : Option String,
      ((title.map Cbor.Value.text).toList.map fun value => (1, value)) =
        title.toList.map fun title => (1, .text title) := by
    intro title
    cases title <;> rfl
  rw [hLater 2 (by decide), h.content, Option.toList_some, List.map_singleton,
    List.singleton_append] at hContent
  rw [hLaterStill 3 (by decide), hLater 3 (by decide)] at hIndent
  rw [hLast 4 (by decide), hLaterStill 4 (by decide), hLater 4 (by decide), hNone,
    List.append_nil] at hExpert
  rw [hTitle, h.title, hText, hContent, hIndent, hExpert]
  exact .intro (.of_lookup h.indent) (.of_lookup h.expert)

theorem of_writes (hFits : screen.Fits) (h : screen.Writes fields) : Describes fields screen := by
  obtain ⟨hKeys, hFew⟩ := h.keysAscend
  obtain ⟨hIndent, hExpert⟩ := h
  have hTitle : ∀ key, key ≠ 1 →
      (screen.title.toList.map fun title => (1, Cbor.Value.text title)).lookup key = none := by
    intro key hKey
    cases screen.title with
    | none => rfl
    | some title => rw [Option.toList_some, List.map_singleton, List.lookup_cons,
        beq_false_of_ne hKey, List.lookup_nil]
  refine ⟨⟨?length, hFew⟩, keysAscend_iff.mp hKeys, ?known, ?title, ?content, ?indent, ?expert,
    hFits⟩
  case length =>
    rw [List.length_append, List.length_cons]
    omega
  case known =>
    simp only [List.forall_mem_append, List.forall_mem_cons]
    refine ⟨?_, by decide, fun field hField => ?_, fun field hField => ?_⟩
    · simp
    · rw [hIndent.key_of_mem field hField]
      decide
    · rw [hExpert.key_of_mem field hField]
      decide
  case title =>
    rw [List.lookup_append, List.lookup_cons, List.lookup_append,
      hIndent.lookup_of_ne (by decide), hExpert.lookup_of_ne (by decide)]
    cases screen.title <;> rfl
  case content =>
    rw [List.lookup_append, hTitle 2 (by decide), Option.none_or, List.lookup_cons_self]
  case indent =>
    rw [List.lookup_append, hTitle 3 (by decide), Option.none_or, List.lookup_cons,
      List.lookup_append, hExpert.lookup_of_ne (by decide), Option.or_none]
    exact hIndent.lookup
  case expert =>
    rw [List.lookup_append, hTitle 4 (by decide), Option.none_or, List.lookup_cons,
      List.lookup_append, hIndent.lookup_of_ne (by decide), Option.none_or]
    exact hExpert.lookup

end Describes

section Settings

variable {screen next : Screen} {fields : List (Nat × Cbor.Value)}

theorem eq_of_setIndent (h : screen.setField (3, value) = .ok next) :
    ∃ n, value = .unsigned n ∧ next = { screen with indent := n } := by
  cases value with
  | unsigned n =>
    rw [setField] at h
    split at h
    · exact ⟨n, rfl, (Except.ok.inj h).symm⟩
    · cases h
  | _ => cases h

theorem eq_of_setExpert (h : screen.setField (4, value) = .ok next) :
    ∃ b, value = .bool b ∧ next = { screen with expert := b } := by
  cases value with
  | bool b => exact ⟨b, rfl, (Except.ok.inj h).symm⟩
  | _ => cases h

theorem eq_of_run_unknown (hFields : AscendFrom 5 fields)
    (h : fields.foldlM setField screen = .ok next) : fields = [] ∧ next = screen := by
  cases fields with
  | nil => exact ⟨rfl, (Except.ok.inj h).symm⟩
  | cons field fields =>
    rw [List.foldlM_cons, setField_of_lt screen hFields.1] at h
    cases h

theorem writes_of_run_expert (hFields : AscendFrom 4 fields) (hDefault : screen.expert = false)
    (h : fields.foldlM setField screen = .ok next) :
    WritesField 4 (.bool next.expert) (next.expert = false) fields ∧
      next = { screen with expert := next.expert } := by
  rcases hFields.cases with ⟨value, rest, rfl, hRest⟩ | hRest
  · rw [List.foldlM_cons] at h
    obtain ⟨set, hSet, hRun⟩ := bind_eq_ok_iff.mp h
    obtain ⟨b, rfl, rfl⟩ := eq_of_setExpert hSet
    obtain ⟨rfl, rfl⟩ := eq_of_run_unknown hRest hRun
    exact ⟨.written, rfl⟩
  · obtain ⟨rfl, rfl⟩ := eq_of_run_unknown hRest h
    exact ⟨.leftOut hDefault, rfl⟩

theorem exists_writes_of_run (hFields : AscendFrom 3 fields) {title : Option String}
    {content : String} (h : fields.foldlM setField { title, content } = .ok screen) :
    screen.Writes ((title.toList.map fun title => (1, .text title)) ++
      (2, .text content) :: fields) := by
  rcases hFields.cases with ⟨value, rest, rfl, hRest⟩ | hRest
  · rw [List.foldlM_cons] at h
    obtain ⟨set, hSet, hRun⟩ := bind_eq_ok_iff.mp h
    obtain ⟨n, rfl, rfl⟩ := eq_of_setIndent hSet
    obtain ⟨hExpert, hScreen⟩ := writes_of_run_expert hRest rfl hRun
    rw [hScreen] at hExpert ⊢
    exact .intro .written hExpert
  · obtain ⟨hExpert, hScreen⟩ := writes_of_run_expert hRest rfl h
    rw [hScreen] at hExpert ⊢
    exact .intro (.leftOut rfl) hExpert

end Settings

theorem eq_append_of_readTitle {fields rest : List (Nat × Cbor.Value)} {title : Option String}
    (h : readTitle fields = .ok (title, rest)) :
    fields = (title.toList.map fun title => (1, .text title)) ++ rest := by
  rcases title_cases fields with ⟨value, more, rfl⟩ | ⟨_, _, hRead⟩
  · obtain ⟨text, hText, hMore⟩ := bind_eq_ok_iff.mp h
    cases hMore
    rw [eq_of_readText hText]
    rfl
  · rw [hRead] at h
    cases h
    rfl

/-- A screen may be written as the value that it is read from. -/
theorem exists_writes {screen : Screen} (h : ofValue value = .ok screen) :
    ∃ fields, value = valueOf fields ∧ screen.Writes fields := by
  have hRules : ∀ rule ∈ Rule.order, rule.isBroken value = false := by
    have hFaults := faults_ofValue value
    rw [h] at hFaults
    exact Rule.fault?_eq_none_iff.mp hFaults.eq_none
  obtain ⟨fields, rfl⟩ := exists_eq_valueOf (hRules .isMap (by decide))
    (hRules .numericKeys (by decide))
  have hFew := hRules .fewEntries (by decide)
  have hAscend := hRules .ascendingKeys (by decide)
  rw [Rule.fewEntries_valueOf, Bool.or_eq_false_iff, List.isEmpty_eq_false_iff,
    decide_eq_false_iff_not, Nat.not_lt] at hFew
  rw [Rule.ascendingKeys_valueOf, Bool.not_eq_false'] at hAscend
  rw [ofValue_valueOf_eq hFew.1 hFew.2 hAscend] at h
  obtain ⟨⟨title, behind⟩, hTitle, h⟩ := bind_eq_ok_iff.mp h
  obtain ⟨⟨content, rest⟩, hContent, hRun⟩ := bind_eq_ok_iff.mp h
  have hPlace : behind = (2, .text content) :: rest := eq_cons_of_readContent hContent
  obtain ⟨hRest, _⟩ := behind_content (keysAscend_iff.mp hAscend)
    ((snd_of_readTitle hTitle).symm.trans hPlace)
  refine ⟨fields, rfl, ?_⟩
  rw [eq_append_of_readTitle hTitle, hPlace]
  exact exists_writes_of_run hRest hRun

/-- What is a screen, and which one, and why any other value is none.  A value is a screen if it is
a map of fields that describe one, and then it is the one that they describe.  Otherwise it is
refused for the first rule that it breaks. -/
theorem ofValue_rules (value : Cbor.Value) :
    (∀ screen, ofValue value = .ok screen ↔
      ∃ fields, value = valueOf fields ∧ Describes fields screen) ∧
    ∀ e, ofValue value = .error e ↔
      (Rule.order.find? (·.isBroken value)).map Rule.error = some e := by
  refine ⟨fun screen => ⟨fun h => ?_, ?_⟩, faults_ofValue value⟩
  · obtain ⟨fields, hValue, hWrites⟩ := exists_writes h
    exact ⟨fields, hValue, .of_writes (fits_of_ofRaw h) hWrites⟩
  · rintro ⟨fields, rfl, hFields⟩
    exact ofValue_valueOf hFields.fits hFields.writes

end SignReview.Screen
