import SignReview.Proofs.Screen.Encoding

/-!
# The rules of screens

A value that is no screen is refused for the first rule that it breaks, whatever else is wrong with
it.  The rules are stated of the entries of a value and of what stands under their keys, where
`Screen.ofRaw` takes one field after the other.

* `Screen.Raw.ofValue_map`: what is collected of a map.
* `Screen.Rule`, `Screen.Rule.order`: the rules, `Screen.Rule.isBroken`: the values that break them.
* `Screen.Faults`: an outcome is an error, or there is none, `Screen.Faults.bind`: one step after
  the other.
* `Screen.AscendFrom`: fields with ascending keys, of which those still to come are known.
* `Screen.faults_ofValue`: the error of a value is that of the first rule that it breaks.
-/

namespace SignReview.Screen

/-! ### Entries and fields -/

def entriesOf : Cbor.Value → List (Cbor.Value × Cbor.Value)
  | .map entries => entries
  | _ => []

def field? (entry : Cbor.Value × Cbor.Value) : Option (Nat × Cbor.Value) :=
  match entry.1 with
  | .unsigned n => some (n, entry.2)
  | _ => none

def fieldsOf (value : Cbor.Value) : List (Nat × Cbor.Value) := (entriesOf value).filterMap field?

theorem fieldsOf_valueOf (fields : List (Nat × Cbor.Value)) : fieldsOf (valueOf fields) = fields := by
  simp [fieldsOf, valueOf, entriesOf, field?, Function.comp_def]

def Raw.ofEntries (entries : List (Cbor.Value × Cbor.Value)) : Raw where
  fields := (entries.filterMap field?).take maxFields
  tooMany := decide (maxFields < (entries.filterMap field?).length)
  badKey := entries.any fun entry => (field? entry).isNone

theorem Raw.push_of_field?_eq_none {entry : Cbor.Value × Cbor.Value} (h : field? entry = none)
    (raw : Raw) : raw.push entry = { raw with badKey := true } := by
  obtain ⟨key, value⟩ := entry
  cases key with
  | unsigned n => cases h
  | _ => rfl

theorem Raw.push_of_field?_eq_some {entry : Cbor.Value × Cbor.Value} {field : Nat × Cbor.Value}
    (h : field? entry = some field) (raw : Raw) :
    raw.push entry =
      if raw.fields.length < maxFields then { raw with fields := raw.fields ++ [field] }
      else { raw with tooMany := true } := by
  obtain ⟨key, value⟩ := entry
  cases key with
  | unsigned n =>
    obtain rfl := Option.some.inj h
    rfl
  | _ => cases h

/-- One more entry is a field more, one too many, or no field. -/
theorem Raw.push_ofEntries (entries : List (Cbor.Value × Cbor.Value))
    (entry : Cbor.Value × Cbor.Value) :
    (Raw.ofEntries entries).push entry = Raw.ofEntries (entries ++ [entry]) := by
  cases hField : field? entry with
  | none =>
    have hSame : (entries ++ [entry]).filterMap field? = entries.filterMap field? := by
      simp [hField]
    rw [push_of_field?_eq_none hField, ofEntries, ofEntries, hSame]
    simp [hField]
  | some field =>
    have hMore : (entries ++ [entry]).filterMap field? = entries.filterMap field? ++ [field] := by
      simp [hField]
    rw [push_of_field?_eq_some hField, ofEntries, ofEntries, hMore]
    by_cases hRoom : (entries.filterMap field?).length < maxFields
    · have hTake : (entries.filterMap field?).take maxFields = entries.filterMap field? :=
        List.take_of_length_le (Nat.le_of_lt hRoom)
      have hLength : (entries.filterMap field? ++ [field]).length ≤ maxFields := by
        rw [List.length_append, List.length_singleton]
        exact hRoom
      rw [hTake, if_pos hRoom, List.take_of_length_le hLength,
        decide_eq_false (Nat.not_lt.mpr hLength),
        decide_eq_false (Nat.not_lt.mpr (Nat.le_of_lt hRoom))]
      simp [hField]
    · have hFull : maxFields ≤ (entries.filterMap field?).length := Nat.le_of_not_lt hRoom
      have hMany : maxFields < (entries.filterMap field? ++ [field]).length := by
        rw [List.length_append, List.length_singleton]
        exact Nat.lt_succ_of_le hFull
      rw [List.length_take_of_le hFull, if_neg (Nat.lt_irrefl _),
        List.take_append_of_le_length hFull, decide_eq_true hMany]
      simp [hField]

theorem Raw.ofValue_map (entries : List (Cbor.Value × Cbor.Value)) :
    Raw.ofValue (.map entries) = Raw.ofEntries entries := by
  have hRun : ∀ front, entries.foldl Raw.push (Raw.ofEntries front) =
      Raw.ofEntries (front ++ entries) := by
    induction entries with
    | nil => intro front; rw [List.foldl_nil, List.append_nil]
    | cons entry entries ih =>
      intro front
      rw [List.foldl_cons, push_ofEntries, ih, List.append_assoc, List.singleton_append]
  exact hRun []

/-! ### The rules -/

inductive Rule
  /-- A screen is a map. -/
  | isMap
  /-- Its keys are numbers. -/
  | numericKeys
  /-- It has one to four entries. -/
  | fewEntries
  /-- Its keys ascend. -/
  | ascendingKeys
  /-- A title in front is a text. -/
  | titleKind
  /-- The title is short. -/
  | titleLength
  /-- The content is the first field, or the one behind the title. -/
  | contentPlace
  /-- The content is a text. -/
  | contentKind
  /-- The content is not too long. -/
  | contentLength
  /-- The indent is a number. -/
  | indentKind
  /-- The indent is not too deep. -/
  | indentBound
  /-- Whether the screen is for experts is a truth value. -/
  | expertKind
  /-- There is no other field. -/
  | knownKeys
  deriving DecidableEq, Repr

def text? : Cbor.Value → Option String
  | .text text => some text
  | _ => none

def number? : Cbor.Value → Option Nat
  | .unsigned n => some n
  | _ => none

def truth? : Cbor.Value → Option Bool
  | .bool b => some b
  | _ => none

def titleOf? : List (Nat × Cbor.Value) → Option Cbor.Value
  | (1, value) :: _ => some value
  | _ => none

def behindTitle : List (Nat × Cbor.Value) → List (Nat × Cbor.Value)
  | (1, _) :: fields => fields
  | fields => fields

def hasUnknown (fields : List (Nat × Cbor.Value)) : Bool :=
  fields.any fun field => decide (4 < field.1)

namespace Rule

/-- Does the value break the rule?  A rule on the kind or size of something that is not there is
not broken. -/
def isBroken (value : Cbor.Value) : Rule → Bool
  | .isMap =>
    match value with
    | .map _ => false
    | _ => true
  | .numericKeys => (entriesOf value).any fun entry => (field? entry).isNone
  | .fewEntries => (entriesOf value).isEmpty || decide (4 < (entriesOf value).length)
  | .ascendingKeys => !decide (((fieldsOf value).map Prod.fst).Pairwise (· < ·))
  | .titleKind => (titleOf? (fieldsOf value)).any fun title => (text? title).isNone
  | .titleLength =>
    ((titleOf? (fieldsOf value)).bind text?).any fun title => decide (40 < title.utf8ByteSize)
  | .contentPlace => (behindTitle (fieldsOf value)).head?.map Prod.fst != some 2
  | .contentKind => ((fieldsOf value).lookup 2).any fun content => (text? content).isNone
  | .contentLength =>
    (((fieldsOf value).lookup 2).bind text?).any fun content => decide (600 < content.utf8ByteSize)
  | .indentKind => ((fieldsOf value).lookup 3).any fun indent => (number? indent).isNone
  | .indentBound => (((fieldsOf value).lookup 3).bind number?).any fun indent => decide (61 < indent)
  | .expertKind => ((fieldsOf value).lookup 4).any fun expert => (truth? expert).isNone
  | .knownKeys => hasUnknown (fieldsOf value)

def error : Rule → Error
  | .isMap => .unexpectedType
  | .numericKeys => .unexpectedField
  | .fewEntries => .unexpectedNumberItems
  | .ascendingKeys => .cborNotCanonical
  | .titleKind => .unexpectedType
  | .titleLength => .unexpectedValue
  | .contentPlace => .unexpectedField
  | .contentKind => .unexpectedType
  | .contentLength => .unexpectedValue
  | .indentKind => .unexpectedType
  | .indentBound => .valueOutOfRange
  | .expertKind => .unexpectedType
  | .knownKeys => .unexpectedField

def order : List Rule :=
  [.isMap, .numericKeys, .fewEntries, .ascendingKeys, .titleKind, .titleLength, .contentPlace,
    .contentKind, .contentLength, .indentKind, .indentBound, .expertKind, .knownKeys]

def fault? (value : Cbor.Value) (rules : List Rule) : Option Error :=
  (rules.find? (·.isBroken value)).map error

variable {value : Cbor.Value}

theorem fault?_cons (value : Cbor.Value) (rule : Rule) (rules : List Rule) :
    fault? value (rule :: rules) =
      if rule.isBroken value then some rule.error else fault? value rules := by
  rw [fault?, List.find?_cons]
  cases rule.isBroken value <;> rfl

theorem fault?_append (value : Cbor.Value) (rules more : List Rule) :
    fault? value (rules ++ more) = (fault? value rules).or (fault? value more) := by
  rw [fault?, List.find?_append, Option.map_or]
  rfl

theorem fault?_eq_none_iff {rules : List Rule} :
    fault? value rules = none ↔ ∀ rule ∈ rules, rule.isBroken value = false := by
  rw [fault?, Option.map_eq_none_iff, List.find?_eq_none]
  simp only [Bool.not_eq_true]

end Rule

/-! ### Outcomes and faults -/

/-- The outcome is this error, or there is none. -/
def Faults {α : Type} (x : Except Error α) (fault : Option Error) : Prop :=
  ∀ e, x = .error e ↔ fault = some e

namespace Faults

variable {α β : Type}

theorem ok (a : α) : Faults (.ok a) none := by
  intro e
  simp

theorem error (e : Error) : Faults (.error e : Except Error α) (some e) := by
  intro e'
  simp

theorem eq_none {a : α} {fault : Option Error} (h : Faults (.ok a) fault) : fault = none :=
  Option.eq_none_iff_forall_ne_some.mpr fun e hFault => by cases (h e).mpr hFault

theorem bind {x : Except Error α} {f : α → Except Error β} {first second : Option Error}
    (hx : Faults x first) (hf : ∀ a, x = .ok a → Faults (f a) second) :
    Faults (x >>= f) (first.or second) := by
  cases x with
  | error e =>
    rw [(hx e).mp rfl]
    exact error e
  | ok a =>
    rw [hx.eq_none, Option.none_or]
    exact hf a rfl

theorem guard {p q : Prop} [Decidable p] [Decidable q] {e : Error} {f : Unit → Except Error α}
    {fault : Option Error} (hp : p ↔ q) (h : ¬q → Faults (f ()) fault) :
    Faults (if p then throw e >>= f else f ()) (if q then some e else fault) := by
  by_cases hq : q
  · rw [if_pos (hp.mpr hq), if_pos hq]
    exact error e
  · rw [if_neg (mt hp.mp hq), if_neg hq]
    exact h hq

end Faults

/-! ### Ascending keys -/

def AscendFrom : Nat → List (Nat × Cbor.Value) → Prop
  | _, [] => True
  | n, field :: fields => n ≤ field.1 ∧ AscendFrom (field.1 + 1) fields

namespace AscendFrom

variable {n : Nat} {fields : List (Nat × Cbor.Value)}

theorem le_of_mem (h : AscendFrom n fields) : ∀ field ∈ fields, n ≤ field.1 := by
  induction fields generalizing n with
  | nil => intro field hField; cases hField
  | cons first fields ih =>
    refine List.forall_mem_cons.mpr ⟨h.1, fun field hField => ?_⟩
    have hNext := ih h.2 field hField
    have hFirst := h.1
    omega

theorem lookup_eq_none (h : AscendFrom n fields) {key : Nat} (hKey : key < n) :
    fields.lookup key = none := by
  refine List.lookup_eq_none_iff.mpr fun field hField => ?_
  have := h.le_of_mem field hField
  simp only [bne_iff_ne, ne_eq]
  omega

theorem cases (h : AscendFrom n fields) :
    (∃ value rest, fields = (n, value) :: rest ∧ AscendFrom (n + 1) rest) ∨
      AscendFrom (n + 1) fields := by
  cases fields with
  | nil => exact Or.inr trivial
  | cons field fields =>
    obtain ⟨key, value⟩ := field
    rcases Nat.eq_or_lt_of_le h.1 with rfl | hLess
    · exact Or.inl ⟨value, fields, rfl, h.2⟩
    · exact Or.inr ⟨hLess, h.2⟩

end AscendFrom

theorem ascendFrom_of_pairwise {n : Nat} {fields : List (Nat × Cbor.Value)}
    (h : (fields.map Prod.fst).Pairwise (· < ·)) (hn : ∀ field ∈ fields, n ≤ field.1) :
    AscendFrom n fields := by
  induction fields generalizing n with
  | nil => trivial
  | cons field fields ih =>
    rw [List.map_cons, List.pairwise_cons] at h
    refine ⟨hn field List.mem_cons_self, ih h.2 fun next hNext => ?_⟩
    exact h.1 next.1 (List.mem_map_of_mem hNext)

theorem keysAscend_iff {fields : List (Nat × Cbor.Value)} :
    keysAscend fields = true ↔ (fields.map Prod.fst).Pairwise (· < ·) := by
  rw [← List.isChain_iff_pairwise]
  fun_induction keysAscend fields with
  | case1 => simp
  | case2 field => simp
  | case3 first second rest ih => simp [ih]

/-! ### The fields one by one -/

theorem faults_readText (most : Nat) (value : Cbor.Value) :
    Faults (readText most value)
      (if (text? value).isNone then some .unexpectedType
      else if (text? value).any fun text => decide (most < text.utf8ByteSize) then
        some .unexpectedValue
      else none) := by
  cases value with
  | text text =>
    by_cases hLong : most < text.utf8ByteSize
    · simpa [readText, text?, hLong, Nat.not_le.mpr hLong] using Faults.error .unexpectedValue
    · simpa [readText, text?, hLong, Nat.not_lt.mp hLong] using Faults.ok text
  | _ => exact Faults.error .unexpectedType

theorem title_cases (fields : List (Nat × Cbor.Value)) :
    (∃ value rest, fields = (1, value) :: rest) ∨
      titleOf? fields = none ∧ behindTitle fields = fields ∧
        readTitle fields = .ok (none, fields) := by
  match fields with
  | [] => exact Or.inr ⟨rfl, rfl, rfl⟩
  | (0, value) :: rest => exact Or.inr ⟨rfl, rfl, rfl⟩
  | (1, value) :: rest => exact Or.inl ⟨value, rest, rfl⟩
  | (n + 2, value) :: rest => exact Or.inr ⟨rfl, rfl, rfl⟩

theorem content_cases (fields : List (Nat × Cbor.Value)) :
    (∃ value rest, fields = (2, value) :: rest) ∨
      fields.head?.map Prod.fst ≠ some 2 ∧ readContent fields = .error .unexpectedField := by
  match fields with
  | [] => exact Or.inr ⟨by simp, rfl⟩
  | (0, value) :: rest => exact Or.inr ⟨by simp, rfl⟩
  | (1, value) :: rest => exact Or.inr ⟨by simp, rfl⟩
  | (2, value) :: rest => exact Or.inl ⟨value, rest, rfl⟩
  | (n + 3, value) :: rest => exact Or.inr ⟨by simp, rfl⟩

theorem lookup_behindTitle (fields : List (Nat × Cbor.Value)) {key : Nat} (hKey : key ≠ 1) :
    (behindTitle fields).lookup key = fields.lookup key := by
  rcases title_cases fields with ⟨value, rest, rfl⟩ | ⟨_, hSame, _⟩
  · rw [behindTitle, List.lookup_cons, beq_false_of_ne hKey]
  · rw [hSame]

variable {value : Cbor.Value}

theorem faults_readTitle (value : Cbor.Value) :
    Faults (readTitle (fieldsOf value)) (Rule.fault? value [.titleKind, .titleLength]) := by
  rw [Rule.fault?_cons, Rule.fault?_cons]
  rcases title_cases (fieldsOf value) with ⟨title, rest, hFields⟩ | ⟨hNone, _, hRead⟩
  · rw [Rule.isBroken, Rule.isBroken, hFields]
    have hRead := (faults_readText maxTitle title).bind
      fun text _ => Faults.ok (some text, rest)
    rwa [Option.or_none] at hRead
  · rw [Rule.isBroken, Rule.isBroken, hNone, hRead]
    exact Faults.ok _

theorem faults_readContent (value : Cbor.Value) :
    Faults (readContent (behindTitle (fieldsOf value)))
      (Rule.fault? value [.contentPlace, .contentKind, .contentLength]) := by
  rw [Rule.fault?_cons, Rule.fault?_cons, Rule.fault?_cons]
  rcases content_cases (behindTitle (fieldsOf value)) with ⟨content, rest, hFields⟩ | ⟨hPlace, hRead⟩
  · have hLookup : (fieldsOf value).lookup 2 = some content := by
      rw [← lookup_behindTitle _ (by decide), hFields]
      rfl
    rw [Rule.isBroken, Rule.isBroken, Rule.isBroken, hFields, hLookup]
    have hRead := (faults_readText maxContent content).bind fun text _ => Faults.ok (text, rest)
    rwa [Option.or_none] at hRead
  · rw [hRead, Rule.isBroken, if_pos (bne_iff_ne.mpr hPlace)]
    exact Faults.error _

theorem faults_setIndent (screen : Screen) (value : Cbor.Value) :
    Faults (screen.setField (3, value))
      (if (number? value).isNone then some .unexpectedType
      else if (number? value).any fun indent => decide (61 < indent) then some .valueOutOfRange
      else none) := by
  cases value with
  | unsigned n =>
    by_cases hDeep : 61 < n
    · simpa [setField, number?, maxIndent, hDeep, Nat.not_le.mpr hDeep] using
        Faults.error .valueOutOfRange
    · simpa [setField, number?, maxIndent, hDeep, Nat.not_lt.mp hDeep] using Faults.ok _
  | _ => exact Faults.error .unexpectedType

theorem faults_setExpert (screen : Screen) (value : Cbor.Value) :
    Faults (screen.setField (4, value))
      (if (truth? value).isNone then some .unexpectedType else none) := by
  cases value with
  | bool b => exact Faults.ok _
  | _ => exact Faults.error .unexpectedType

theorem setField_of_lt (screen : Screen) {field : Nat × Cbor.Value} (h : 4 < field.1) :
    screen.setField field = .error .unexpectedField := by
  match field, h with
  | (n + 5, value), _ => rfl

section Settings

variable {fields : List (Nat × Cbor.Value)}

theorem faults_unknown (screen : Screen) (hFields : AscendFrom 5 fields)
    (hUnknown : hasUnknown (fieldsOf value) = hasUnknown fields) :
    Faults (fields.foldlM setField screen) (Rule.fault? value [.knownKeys]) := by
  rw [Rule.fault?_cons, Rule.isBroken, hUnknown]
  cases fields with
  | nil => exact Faults.ok _
  | cons field fields =>
    have hKey : 4 < field.1 := hFields.1
    rw [List.foldlM_cons, setField_of_lt screen hKey, hasUnknown, List.any_cons,
      decide_eq_true hKey]
    exact Faults.error _

theorem faults_expert (screen : Screen) (hFields : AscendFrom 4 fields)
    (hExpert : (fieldsOf value).lookup 4 = fields.lookup 4)
    (hUnknown : hasUnknown (fieldsOf value) = hasUnknown fields) :
    Faults (fields.foldlM setField screen) (Rule.fault? value [.expertKind, .knownKeys]) := by
  rw [show [Rule.expertKind, .knownKeys] = [.expertKind] ++ [.knownKeys] from rfl,
    Rule.fault?_append, Rule.fault?_cons, Rule.isBroken, hExpert]
  -- Key 4 is the first that is left, or only greater ones are.
  rcases hFields.cases with ⟨expert, rest, rfl, hRest⟩ | hRest
  · rw [List.foldlM_cons]
    exact (faults_setExpert screen expert).bind fun next _ => faults_unknown next hRest hUnknown
  · rw [hRest.lookup_eq_none (by decide)]
    exact faults_unknown screen hRest hUnknown

/-- The fields behind the content are refused for the first rule on them that is broken. -/
theorem faults_settings (screen : Screen) (hFields : AscendFrom 3 fields)
    (hLookup : ∀ key, 2 < key → (fieldsOf value).lookup key = fields.lookup key)
    (hUnknown : hasUnknown (fieldsOf value) = hasUnknown fields) :
    Faults (fields.foldlM setField screen)
      (Rule.fault? value [.indentKind, .indentBound, .expertKind, .knownKeys]) := by
  rw [show [Rule.indentKind, .indentBound, .expertKind, .knownKeys] =
      [.indentKind, .indentBound] ++ [.expertKind, .knownKeys] from rfl,
    Rule.fault?_append, Rule.fault?_cons, Rule.fault?_cons, Rule.isBroken, Rule.isBroken,
    hLookup 3 (by decide)]
  have hExpert := hLookup 4 (by decide)
  rcases hFields.cases with ⟨indent, rest, rfl, hRest⟩ | hRest
  · rw [List.foldlM_cons]
    exact (faults_setIndent screen indent).bind fun next _ =>
      faults_expert next hRest hExpert hUnknown
  · rw [hRest.lookup_eq_none (by decide)]
    exact faults_expert screen hRest hExpert hUnknown

end Settings

/-! ### All rules -/

theorem snd_of_readTitle {fields rest : List (Nat × Cbor.Value)} {title : Option String}
    (h : readTitle fields = .ok (title, rest)) : rest = behindTitle fields := by
  rcases title_cases fields with ⟨value, more, rfl⟩ | ⟨_, hSame, hRead⟩
  · obtain ⟨text, _, hText⟩ := bind_eq_ok_iff.mp h
    cases hText
    rfl
  · rw [hRead] at h
    cases h
    exact hSame.symm

theorem eq_of_readText {most : Nat} {text : String} (h : readText most value = .ok text) :
    value = .text text := by
  cases value with
  | text found =>
    rw [readText] at h
    split at h
    · exact congrArg _ (Except.ok.inj h)
    · cases h
  | _ => cases h

theorem eq_cons_of_readContent {fields rest : List (Nat × Cbor.Value)} {content : String}
    (h : readContent fields = .ok (content, rest)) : fields = (2, .text content) :: rest := by
  rcases content_cases fields with ⟨value, more, rfl⟩ | ⟨_, hRead⟩
  · obtain ⟨text, hText, hMore⟩ := bind_eq_ok_iff.mp h
    cases hMore
    rw [eq_of_readText hText]
  · rw [hRead] at h
    cases h

/-- Where the keys ascend, all fields with greater keys are behind the content. -/
theorem behind_content {fields rest : List (Nat × Cbor.Value)} {content : Cbor.Value}
    (hAscend : (fields.map Prod.fst).Pairwise (· < ·))
    (h : behindTitle fields = (2, content) :: rest) :
    AscendFrom 3 rest ∧ (∀ key, 2 < key → fields.lookup key = rest.lookup key) ∧
      hasUnknown fields = hasUnknown rest := by
  have hFields : AscendFrom 0 fields := ascendFrom_of_pairwise hAscend fun _ _ => Nat.zero_le _
  have hContent : ∀ {key : Nat}, 2 < key → ((2, content) :: rest).lookup key = rest.lookup key :=
    fun hKey => by rw [List.lookup_cons, beq_false_of_ne (Nat.ne_of_gt hKey)]
  rcases title_cases fields with ⟨title, more, rfl⟩ | ⟨_, hSame, _⟩
  · obtain rfl : more = (2, content) :: rest := h
    refine ⟨hFields.2.2, fun key hKey => ?_, rfl⟩
    rw [List.lookup_cons, beq_false_of_ne (by omega)]
    exact hContent hKey
  · obtain rfl : fields = (2, content) :: rest := hSame.symm.trans h
    exact ⟨hFields.2, fun key hKey => hContent hKey, rfl⟩

/-- The fields with ascending keys. -/
theorem faults_fields (hAscend : ((fieldsOf value).map Prod.fst).Pairwise (· < ·)) :
    Faults (readTitle (fieldsOf value) >>= fun title => readContent title.2 >>= fun content =>
        content.2.foldlM setField { title := title.1, content := content.1 })
      (Rule.fault? value [.titleKind, .titleLength, .contentPlace, .contentKind, .contentLength,
        .indentKind, .indentBound, .expertKind, .knownKeys]) := by
  rw [show [Rule.titleKind, .titleLength, .contentPlace, .contentKind, .contentLength, .indentKind,
      .indentBound, .expertKind, .knownKeys] = [.titleKind, .titleLength] ++
        ([.contentPlace, .contentKind, .contentLength] ++
          [.indentKind, .indentBound, .expertKind, .knownKeys]) from rfl,
    Rule.fault?_append, Rule.fault?_append]
  refine (faults_readTitle value).bind ?_
  rintro ⟨title, fields⟩ hTitle
  obtain rfl := snd_of_readTitle hTitle
  refine (faults_readContent value).bind ?_
  rintro ⟨content, rest⟩ hContent
  obtain ⟨hRest, hLookup, hUnknown⟩ := behind_content hAscend (eq_cons_of_readContent hContent)
  exact faults_settings _ hRest hLookup hUnknown

theorem notMap_ofValue (value : Cbor.Value) :
    (Raw.ofValue value).notMap = true ↔ Rule.isMap.isBroken value = true := by
  cases value with
  | map entries =>
    rw [Raw.ofValue_map]
    rfl
  | _ => exact Iff.rfl

theorem badKey_ofValue (value : Cbor.Value) :
    (Raw.ofValue value).badKey = true ↔ Rule.numericKeys.isBroken value = true := by
  cases value with
  | map entries =>
    rw [Raw.ofValue_map]
    rfl
  | _ => exact Iff.rfl

theorem exists_eq_valueOf (hMap : Rule.isMap.isBroken value = false)
    (hKeys : Rule.numericKeys.isBroken value = false) : ∃ fields, value = valueOf fields := by
  cases value with
  | map entries =>
    refine ⟨entries.filterMap field?, ?_⟩
    rw [Rule.isBroken, entriesOf] at hKeys
    rw [valueOf, Cbor.Value.map.injEq]
    induction entries with
    | nil => rfl
    | cons entry entries ih =>
      rw [List.any_cons, Bool.or_eq_false_iff] at hKeys
      obtain ⟨key, value⟩ := entry
      cases key with
      | unsigned n =>
        have hField : field? (.unsigned n, value) = some (n, value) := rfl
        rw [List.filterMap_cons_some hField, List.map_cons, ← ih hMap hKeys.2]
      | _ => cases hKeys.1
  | _ => cases hMap

section ValueOf

variable (fields : List (Nat × Cbor.Value))

theorem Raw.ofValue_valueOf : Raw.ofValue (valueOf fields) =
    { fields := fields.take maxFields, tooMany := decide (maxFields < fields.length) } := by
  have hFields : (fields.map fun field => (Cbor.Value.unsigned field.1, field.2)).filterMap field? =
      fields := fieldsOf_valueOf fields
  have hKeys : ((fields.map fun field => (Cbor.Value.unsigned field.1, field.2)).any fun entry =>
      (field? entry).isNone) = false := by
    simp [field?]
  rw [valueOf, Raw.ofValue_map, ofEntries, hFields, hKeys]

theorem Rule.fewEntries_valueOf : Rule.fewEntries.isBroken (valueOf fields) =
    (fields.isEmpty || decide (4 < fields.length)) := by
  rw [isBroken, valueOf, entriesOf, List.isEmpty_map, List.length_map]

theorem Rule.ascendingKeys_valueOf : Rule.ascendingKeys.isBroken (valueOf fields) =
    !keysAscend fields := by
  rw [isBroken, fieldsOf_valueOf, Bool.eq_iff_iff, Bool.not_eq_true', Bool.not_eq_true',
    ← Bool.not_eq_true (keysAscend fields), keysAscend_iff, decide_eq_false_iff_not]

end ValueOf

/-- A value is refused for the first rule that it breaks. -/
theorem faults_ofValue (value : Cbor.Value) :
    Faults (ofValue value) (Rule.fault? value Rule.order) := by
  rw [ofValue, ofRaw, Rule.order, Rule.fault?_cons]
  refine Faults.guard (notMap_ofValue value) fun hMap => ?_
  rw [Rule.fault?_cons]
  refine Faults.guard (badKey_ofValue value) fun hKeys => ?_
  rw [Bool.not_eq_true] at hMap hKeys
  -- Behind these two rules, the value is a map of fields.
  obtain ⟨fields, rfl⟩ := exists_eq_valueOf hMap hKeys
  have hEmpty : (fields.take maxFields).isEmpty = fields.isEmpty := by
    cases fields <;> rfl
  rw [Raw.ofValue_valueOf, Rule.fault?_cons, Rule.fewEntries_valueOf, hEmpty, Bool.or_comm]
  refine Faults.guard Iff.rfl fun hFew => ?_
  rw [Bool.or_eq_true, not_or, decide_eq_true_eq, Nat.not_lt] at hFew
  have hTake : fields.take maxFields = fields := List.take_of_length_le hFew.2
  rw [Rule.fault?_cons, Rule.ascendingKeys_valueOf, hTake]
  refine Faults.guard Iff.rfl fun hAscend => ?_
  rw [Bool.not_eq_true', Bool.not_eq_false, keysAscend_iff] at hAscend
  have hFields := @faults_fields (valueOf fields)
  rw [fieldsOf_valueOf] at hFields
  exact hFields hAscend

end SignReview.Screen
