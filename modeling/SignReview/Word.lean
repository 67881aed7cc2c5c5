/-!
# Machine words

Lengths and positions are reckoned in words of 64 bits.  A number that is no word is no answer, so
that whoever has an answer knows that nothing has overflowed.

* `Word.ofNat?`: the word for a number, `Word.add?`, `Word.mul?`, `Word.ceilDiv?`: arithmetic.
* `Word.exists_ofNat?`, `Word.exists_add?`, `Word.exists_mul?`: where there is an answer.
-/

namespace SignReview.Word

def ofNat? (n : Nat) : Option UInt64 := if n < UInt64.size then some (.ofNat n) else none

def add? (a b : UInt64) : Option UInt64 := ofNat? (a.toNat + b.toNat)

def mul? (a b : UInt64) : Option UInt64 := ofNat? (a.toNat * b.toNat)

/-- The quotient of two words, rounded up.  There is none by zero. -/
def ceilDiv? (a b : UInt64) : Option UInt64 :=
  if b = 0 then none
  else if a % b = 0 then some (a / b)
  else add? (a / b) 1

theorem exists_ofNat? {n : Nat} (h : n < UInt64.size) : ∃ a, ofNat? n = some a ∧ a.toNat = n :=
  ⟨.ofNat n, if_pos h, UInt64.toNat_ofNat_of_lt' h⟩

theorem exists_add? {a b : UInt64} (h : a.toNat + b.toNat < UInt64.size) :
    ∃ c, add? a b = some c ∧ c.toNat = a.toNat + b.toNat := exists_ofNat? h

theorem exists_mul? {a b : UInt64} (h : a.toNat * b.toNat < UInt64.size) :
    ∃ c, mul? a b = some c ∧ c.toNat = a.toNat * b.toNat := exists_ofNat? h

/-- Nothing wraps around. -/
example : add? 0xffffffffffffffff 1 = none := by decide

end SignReview.Word
