import Mathlib.Data.List.Forall2

/-!
# Outcomes

A step that may fail, and lists of such steps.

* `bind_eq_ok_iff`, `guard_eq_ok_iff`: two steps succeed if both do, `bind_eq_error_iff`: they fail
  where the first fails, or the second behind it, `toOption_eq_some_iff`: a step succeeds if it has
  an outcome.
* `mapM_eq_ok`, `mapM_eq_error`, `mapM_eq_some`, `exists_mapM_eq_some`, `forM_eq_ok_iff`,
  `forM_eq_error`: steps for each entry of a list, `exists_of_mapM_eq_ok`,
  `exists_of_mapM_eq_error`: the outcomes of the single steps, `foldlM_eq_mapM_bind`: their
  outcomes added up, `exists_of_foldlM_eq_error`: the step at which a run fails.
* `Forall₂.exists_getElem?`, `Forall₂.exists_of_mem`: the entries of two lists that belong together.
-/

namespace SignReview

variable {ε α β : Type}

@[simp] theorem ok_bind (a : α) (f : α → Except ε β) : (Except.ok a >>= f) = f a := rfl

@[simp] theorem error_bind (e : ε) (f : α → Except ε β) : (Except.error e >>= f) = .error e := rfl

theorem bind_eq_ok_iff {x : Except ε α} {f : α → Except ε β} {b : β} :
    x >>= f = .ok b ↔ ∃ a, x = .ok a ∧ f a = .ok b := by
  cases x with
  | error e => simp
  | ok a => simp

theorem bind_eq_error_iff {x : Except ε α} {f : α → Except ε β} {e : ε} :
    x >>= f = .error e ↔ x = .error e ∨ ∃ a, x = .ok a ∧ f a = .error e := by
  cases x with
  | error e' => simp
  | ok a => simp

theorem toOption_eq_some_iff {x : Except ε α} {a : α} : x.toOption = some a ↔ x = .ok a := by
  cases x with
  | error e => simp [Except.toOption]
  | ok b => simp [Except.toOption]

theorem guard_eq_ok_iff {p : Prop} [Decidable p] {e : ε} {f : Unit → Except ε β} {b : β} :
    (if p then throw e >>= f else f ()) = .ok b ↔ ¬p ∧ f () = .ok b := by
  by_cases hp : p
  · rw [if_pos hp]
    constructor
    · intro h
      cases h
    · intro h
      exact absurd hp h.1
  · rw [if_neg hp]
    exact ⟨fun h => ⟨hp, h⟩, fun h => h.2⟩

theorem mapM_congr {f g : α → Except ε β} {as : List α} (h : ∀ a ∈ as, f a = g a) :
    as.mapM f = as.mapM g := by
  induction as with
  | nil => rfl
  | cons a as ih =>
    obtain ⟨hFirst, hRest⟩ := List.forall_mem_cons.mp h
    rw [List.mapM_cons, List.mapM_cons, hFirst, ih hRest]

theorem mapM_eq_ok {R : α → β → Prop} {f : α → Except ε β} {as : List α} {bs : List β}
    (h : List.Forall₂ R as bs) (hf : ∀ a, ∀ b ∈ bs, R a b → f a = .ok b) :
    as.mapM f = .ok bs := by
  induction h with
  | nil => rfl
  | cons hFirst _ ih =>
    rw [List.mapM_cons, hf _ _ List.mem_cons_self hFirst, ok_bind,
      ih fun a b hMem hb => hf a b (List.mem_cons_of_mem _ hMem) hb]
    rfl

/-- The first step that fails decides. -/
theorem mapM_eq_error {f : α → Except ε β} {left right : List α} {a : α} {e : ε}
    (hLeft : ∀ b ∈ left, ∃ c, f b = .ok c) (ha : f a = .error e) :
    (left ++ a :: right).mapM f = .error e := by
  induction left with
  | nil =>
    rw [List.nil_append, List.mapM_cons, ha]
    rfl
  | cons b left ih =>
    obtain ⟨⟨c, hc⟩, hLeft⟩ := List.forall_mem_cons.mp hLeft
    rw [List.cons_append, List.mapM_cons, hc, ok_bind, ih hLeft]
    rfl

/-- A run that fails, fails at one step, up to which it succeeds. -/
theorem exists_of_foldlM_eq_error {f : β → α → Except ε β} {as : List α} {b : β} {e : ε}
    (h : as.foldlM f b = .error e) :
    ∃ left a right c, as = left ++ a :: right ∧ left.foldlM f b = .ok c ∧ f c a = .error e := by
  induction as generalizing b with
  | nil => cases h
  | cons a as ih =>
    rw [List.foldlM_cons] at h
    rcases bind_eq_error_iff.mp h with hFirst | ⟨next, hNext, hRest⟩
    · exact ⟨[], a, as, b, rfl, rfl, hFirst⟩
    · obtain ⟨left, d, right, c, rfl, hLeft, hFail⟩ := ih hRest
      refine ⟨a :: left, d, right, c, rfl, ?_, hFail⟩
      rw [List.foldlM_cons, hNext]
      exact hLeft

/-- Steps that only add their outcomes to something may be done before anything is added. -/
theorem foldlM_eq_mapM_bind {γ : Type} (f : α → Except ε β) (g : γ → β → γ) (as : List α) (c : γ) :
    as.foldlM (fun c a => f a >>= fun b => pure (g c b)) c =
      as.mapM f >>= fun bs => .ok (bs.foldl g c) := by
  induction as generalizing c with
  | nil => rfl
  | cons a as ih =>
    rw [List.foldlM_cons, List.mapM_cons]
    cases f a with
    | error e => rfl
    | ok b =>
      rw [ok_bind, ok_bind]
      show as.foldlM _ (g c b) = _
      rw [ih]
      cases as.mapM f <;> rfl

theorem mapM_eq_some {γ : Type} {R : α → β → Prop} {f : α → Except ε γ} {g : β → Option γ}
    {as : List α} {bs : List β} (h : List.Forall₂ R as bs)
    (hfg : ∀ a b c, R a b → f a = .ok c → g b = some c) :
    ∀ {cs : List γ}, as.mapM f = .ok cs → bs.mapM g = some cs := by
  induction h with
  | nil =>
    intro cs hMap
    obtain rfl := Except.ok.inj hMap
    rfl
  | cons hFirst _ ih =>
    intro cs hMap
    rw [List.mapM_cons] at hMap
    obtain ⟨c, hc, hMap⟩ := bind_eq_ok_iff.mp hMap
    obtain ⟨rest, hRest, hMap⟩ := bind_eq_ok_iff.mp hMap
    obtain rfl := Except.ok.inj hMap
    rw [List.mapM_cons, hfg _ _ _ hFirst hc, ih hRest]
    rfl

theorem exists_mapM_eq_some {f : α → Option β} {as : List α} (h : ∀ a ∈ as, ∃ b, f a = some b) :
    ∃ bs, as.mapM f = some bs ∧ List.Forall₂ (fun a b => f a = some b) as bs := by
  induction as with
  | nil => exact ⟨[], rfl, .nil⟩
  | cons a as ih =>
    obtain ⟨b, hFirst⟩ := h a List.mem_cons_self
    obtain ⟨bs, hMap, hRest⟩ := ih fun c hc => h c (List.mem_cons_of_mem _ hc)
    refine ⟨b :: bs, ?_, .cons hFirst hRest⟩
    rw [List.mapM_cons, hFirst, hMap]
    rfl

theorem exists_of_mapM_eq_ok {f : α → Except ε β} {as : List α} {bs : List β}
    (h : as.mapM f = .ok bs) : ∀ a ∈ as, ∃ b, f a = .ok b := by
  induction as generalizing bs with
  | nil =>
    intro a ha
    cases ha
  | cons first as ih =>
    rw [List.mapM_cons] at h
    obtain ⟨b, hFirst, h⟩ := bind_eq_ok_iff.mp h
    obtain ⟨rest, hRest, _⟩ := bind_eq_ok_iff.mp h
    exact List.forall_mem_cons.mpr ⟨⟨b, hFirst⟩, ih hRest⟩

theorem exists_of_mapM_eq_error {f : α → Except ε β} {as : List α} {e : ε}
    (h : as.mapM f = .error e) : ∃ a ∈ as, f a = .error e := by
  induction as with
  | nil => cases h
  | cons first as ih =>
    rw [List.mapM_cons] at h
    cases hFirst : f first with
    | error e' =>
      rw [hFirst] at h
      cases h
      exact ⟨first, List.mem_cons_self, hFirst⟩
    | ok b =>
      rw [hFirst, ok_bind] at h
      cases hRest : as.mapM f with
      | error e' =>
        rw [hRest] at h
        cases h
        obtain ⟨a, ha, hError⟩ := ih hRest
        exact ⟨a, List.mem_cons_of_mem _ ha, hError⟩
      | ok bs =>
        rw [hRest] at h
        cases h

theorem forM_eq_ok_iff {f : α → Except ε Unit} {as : List α} :
    as.forM f = .ok () ↔ ∀ a ∈ as, f a = .ok () := by
  induction as with
  | nil => simp [List.forM, pure, Except.pure]
  | cons a as ih =>
    show (f a >>= fun _ => as.forM f) = _ ↔ _
    rw [bind_eq_ok_iff, List.forall_mem_cons, ← ih]
    constructor
    · rintro ⟨_, hFirst, hRest⟩
      exact ⟨hFirst, hRest⟩
    · rintro ⟨hFirst, hRest⟩
      exact ⟨(), hFirst, hRest⟩

/-- Where no step fails but in one way, all steps together fail in this way. -/
theorem forM_eq_error {e : ε} {f : α → Except ε Unit} {as : List α}
    (hAll : ∀ a ∈ as, f a = .ok () ∨ f a = .error e) (hSome : ∃ a ∈ as, f a = .error e) :
    as.forM f = .error e := by
  induction as with
  | nil =>
    obtain ⟨a, ha, _⟩ := hSome
    cases ha
  | cons a as ih =>
    obtain ⟨hFirst, hRest⟩ := List.forall_mem_cons.mp hAll
    show (f a >>= fun _ => as.forM f) = _
    rcases hFirst with hOk | hError
    · rw [hOk, ok_bind]
      refine ih hRest ?_
      obtain ⟨b, hb, hFail⟩ := hSome
      rcases List.mem_cons.mp hb with rfl | hb
      · cases hOk.symm.trans hFail
      · exact ⟨b, hb, hFail⟩
    · rw [hError]
      rfl

namespace Forall₂

variable {R : α → β → Prop} {as : List α} {bs : List β}

theorem exists_getElem? (h : List.Forall₂ R as bs) :
    ∀ {n : Nat} {b : β}, bs[n]? = some b → ∃ a, as[n]? = some a ∧ R a b := by
  induction h with
  | nil =>
    intro n b hb
    cases hb
  | cons hFirst _ ih =>
    intro n b hb
    cases n with
    | zero =>
      rw [List.getElem?_cons_zero] at hb
      exact ⟨_, rfl, Option.some.inj hb ▸ hFirst⟩
    | succ n =>
      rw [List.getElem?_cons_succ] at hb ⊢
      exact ih hb

theorem exists_of_mem (h : List.Forall₂ R as bs) {a : α} (ha : a ∈ as) : ∃ b ∈ bs, R a b := by
  induction h with
  | nil => cases ha
  | cons hFirst _ ih =>
    rcases List.mem_cons.mp ha with rfl | ha
    · exact ⟨_, List.mem_cons_self, hFirst⟩
    · obtain ⟨b, hb, hRest⟩ := ih ha
      exact ⟨b, List.mem_cons_of_mem _ hb, hRest⟩

theorem filter (h : List.Forall₂ R as bs) {p : α → Bool} {q : β → Bool}
    (hpq : ∀ a b, R a b → p a = q b) : List.Forall₂ R (as.filter p) (bs.filter q) := by
  induction h with
  | nil => exact .nil
  | cons hFirst _ ih =>
    rw [List.filter_cons, List.filter_cons, hpq _ _ hFirst]
    split
    · exact .cons hFirst ih
    · exact ih

theorem takeWhile (h : List.Forall₂ R as bs) {p : α → Bool} {q : β → Bool}
    (hpq : ∀ a b, R a b → p a = q b) : List.Forall₂ R (as.takeWhile p) (bs.takeWhile q) := by
  induction h with
  | nil => exact .nil
  | @cons a b as bs hFirst _ ih =>
    rw [List.takeWhile_cons, List.takeWhile_cons, hpq _ _ hFirst]
    cases q b with
    | true => exact .cons hFirst ih
    | false => exact .nil

end Forall₂

end SignReview
