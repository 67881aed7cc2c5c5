import SignReview.Listing
import SignReview.Proofs.Leaf.Search

/-!
# One type for all messages

Where all messages have the same type, it is shown once: the other leaves with a type are hidden.

* `keepFirst`: the leaves that stay visible, `visible_findIdx`: a mask leaves them visible.
* `allSame`, `TypeScan.group?_observeAll`: a scan of the leaves finds the type that all have.
-/

namespace SignReview

/-! ### Leaves that stay visible -/

/-- All entries of a list but those that come behind the first for which `p` holds and for which
it holds too. -/
def keepFirst {α : Type} (p : α → Bool) : List α → List α
  | [] => []
  | a :: as => if p a then a :: as.filter (fun b => !p b) else a :: keepFirst p as

theorem length_keepFirst {α : Type} (p : α → Bool) (as : List α) :
    (keepFirst p as).length = as.length - ((as.filter p).length - 1) := by
  induction as with
  | nil => rfl
  | cons a as ih =>
    have hSplit := List.length_eq_length_filter_add (l := as) p
    by_cases ha : p a = true
    · rw [keepFirst, if_pos ha, List.filter_cons_of_pos ha]
      simp only [List.length_cons]
      omega
    · rw [keepFirst, if_neg ha, List.filter_cons_of_neg ha]
      simp only [List.length_cons, ih]
      omega

theorem keepFirst_map {α β : Type} (p : β → Bool) (f : α → β) (as : List α) :
    keepFirst p (as.map f) = (keepFirst (p ∘ f) as).map f := by
  induction as with
  | nil => rfl
  | cons a as ih =>
    rw [List.map_cons, keepFirst, keepFirst, ih, List.filter_map, Function.comp_apply]
    split <;> rfl

theorem keepFirst_sublist {α : Type} (p : α → Bool) (as : List α) :
    (keepFirst p as).Sublist as := by
  induction as with
  | nil => exact .slnil
  | cons a as ih =>
    rw [keepFirst]
    split
    · exact List.filter_sublist.cons_cons a
    · exact ih.cons_cons a

theorem getElem?_keepFirst {α : Type} (p : α → Bool) (as : List α) :
    (keepFirst p as)[as.findIdx p]? = as[as.findIdx p]? := by
  induction as with
  | nil => rfl
  | cons a as ih =>
    rw [keepFirst, List.findIdx_cons]
    cases p a with
    | true => rfl
    | false => exact ih

/-- With a mask on the first leaf of a path, those leaves are visible that `keepFirst` leaves. -/
theorem visible_findIdx (path : Bytes) (leaves : List Leaf) (seen : Nat) :
    visible (some ⟨path, seen + leaves.findIdx fun leaf => leaf.path.bytes == path⟩) seen leaves =
      keepFirst (fun leaf => leaf.path.bytes == path) leaves := by
  induction leaves generalizing seen with
  | nil => rfl
  | cons leaf leaves ih =>
    rw [visible, keepFirst, hidden, List.findIdx_cons]
    cases hPath : leaf.path.bytes == path with
    | true =>
      have hHere : (seen + 0 != seen) = false := bne_self_eq_false seen
      rw [cond_true, hHere, Bool.false_and, if_neg Bool.false_ne_true, if_pos rfl]
      exact congrArg _ (visible_of_lt (Nat.lt_succ_self seen) leaves)
    | false =>
      rw [cond_false, Bool.and_false, if_neg Bool.false_ne_true, if_neg Bool.false_ne_true,
        ← ih (seen + 1), Nat.add_right_comm, Nat.add_assoc]

/-! ### The common type -/

/-- Is there an entry, and are all the same? -/
def allSame : List Bytes → Bool
  | [] => false
  | bytes :: more => more.all (· == bytes)

theorem eq_of_allSame {all : List Bytes} (h : allSame all = true) {a b : Bytes} (ha : a ∈ all)
    (hb : b ∈ all) : a = b := by
  cases all with
  | nil => cases ha
  | cons first more =>
    rw [allSame, List.all_eq_true] at h
    have hFirst : ∀ c ∈ first :: more, c = first :=
      List.forall_mem_cons.mpr ⟨rfl, fun c hc => beq_iff_eq.mp (h c hc)⟩
    rw [hFirst a ha, hFirst b hb]

def readsType (entry : Leaf × Bytes) : Bool := entry.1.path.bytes == TypeGroup.path

def typesOf (read : List (Leaf × Bytes)) : List Bytes := (read.filter readsType).map Prod.snd

theorem typesOf_cons (entry : Leaf × Bytes) (read : List (Leaf × Bytes)) :
    typesOf (entry :: read) =
      if readsType entry then entry.2 :: typesOf read else typesOf read := by
  rw [typesOf, List.filter_cons]
  split <;> rfl

namespace TypeScan

def observeAll : TypeScan → Nat → List (Leaf × Bytes) → TypeScan
  | scan, _, [] => scan
  | scan, n, entry :: read =>
    observeAll (scan.observe entry.1.path.bytes entry.2 n) (n + 1) read

variable {scan : TypeScan}

theorem observe_of_mixed (h : scan.mixed = true) (path value : Bytes) (n : Nat) :
    scan.observe path value n = scan := by
  rw [observe, h, Bool.true_or, if_pos rfl]

theorem observe_of_ne {path : Bytes} (h : (path == TypeGroup.path) = false) (value : Bytes)
    (n : Nat) : scan.observe path value n = scan := by
  rw [observe, bne, h, Bool.not_false, Bool.or_true, if_pos rfl]

section Observe

variable {path : Bytes} (h : (path == TypeGroup.path) = true) (hMixed : scan.mixed = false)

include h hMixed

theorem observe_first (hFirst : scan.first = none) (value : Bytes) (n : Nat) :
    scan.observe path value n =
      { scan with first := some (value, n), count := scan.count + 1 } := by
  simp [observe, bne, h, hMixed, hFirst]

theorem observe_same {value : Bytes} {k : Nat} (hFirst : scan.first = some (value, k)) (n : Nat) :
    scan.observe path value n = { scan with count := scan.count + 1 } := by
  simp [observe, bne, h, hMixed, hFirst]

theorem observe_other {first value : Bytes} {k : Nat} (hFirst : scan.first = some (first, k))
    (hOther : first ≠ value) (n : Nat) :
    scan.observe path value n = { scan with mixed := true } := by
  simp [observe, bne, h, hMixed, hFirst, hOther]

end Observe

theorem observeAll_of_mixed (h : scan.mixed = true) (n : Nat) (read : List (Leaf × Bytes)) :
    scan.observeAll n read = scan := by
  induction read generalizing n with
  | nil => rfl
  | cons entry read ih => rw [observeAll, observe_of_mixed h, ih]

theorem group?_observeAll_of_first {type : Bytes} {k : Nat} (read : List (Leaf × Bytes)) :
    ∀ {scan : TypeScan} (n : Nat), scan.first = some (type, k) → scan.mixed = false →
      (scan.observeAll n read).group? =
        if (typesOf read).all (· == type) then some ⟨k, scan.count + (typesOf read).length⟩
        else none := by
  induction read with
  | nil =>
    intro scan n hFirst hMixed
    simp [observeAll, group?, hFirst, hMixed, typesOf]
  | cons entry read ih =>
    intro scan n hFirst hMixed
    rw [observeAll]
    cases hType : readsType entry with
    | false =>
      rw [observe_of_ne hType, ih _ hFirst hMixed, typesOf_cons, hType, if_neg Bool.false_ne_true]
    | true =>
      rw [typesOf_cons, hType, if_pos rfl, List.all_cons, List.length_cons]
      by_cases hSame : type = entry.2
      · subst hSame
        have hNext := @ih { scan with count := scan.count + 1 } (n + 1) hFirst hMixed
        rw [observe_same hType hMixed hFirst, hNext, beq_self_eq_true, Bool.true_and, Nat.add_assoc,
          Nat.add_comm 1]
      · have hOther : (entry.2 == type) = false := beq_eq_false_iff_ne.mpr (Ne.symm hSame)
        rw [observe_other hType hMixed hFirst hSame, observeAll_of_mixed rfl, hOther,
          Bool.false_and, if_neg Bool.false_ne_true]
        simp [group?, hFirst]

/-- A scan finds a common type if all types are the same. -/
theorem group?_observeAll (read : List (Leaf × Bytes)) :
    ∀ n, (observeAll {} n read).group? =
      if allSame (typesOf read) then some ⟨n + read.findIdx readsType, (typesOf read).length⟩
      else none := by
  induction read with
  | nil =>
    intro n
    rfl
  | cons entry read ih =>
    intro n
    rw [observeAll, List.findIdx_cons]
    cases hType : readsType entry with
    | false =>
      rw [observe_of_ne hType, ih, typesOf_cons, hType, if_neg Bool.false_ne_true, cond_false,
        Nat.add_assoc, Nat.add_comm 1]
    | true =>
      rw [observe_first hType rfl rfl, typesOf_cons, hType, if_pos rfl, allSame, List.length_cons,
        Nat.add_comm (typesOf read).length 1]
      exact @group?_observeAll_of_first entry.2 n read ⟨some (entry.2, n), 1, false⟩ (n + 1) rfl rfl

end TypeScan

end SignReview
