/-! # Single bits of a word

`putBit` changes one bit and no other.
-/
namespace DemandPaging

def putBit {n : Nat} (w : BitVec n) (i : Nat) (on : Bool) : BitVec n :=
  if on then w ||| BitVec.twoPow n i else w &&& ~~~(BitVec.twoPow n i)

theorem getLsbD_putBit {n : Nat} (w : BitVec n) (i j : Nat) (on : Bool) :
    (putBit w i on).getLsbD j = if i = j ∧ j < n then on else w.getLsbD j := by
  by_cases hj : j < n
  · by_cases h : i = j
    · cases on <;> simp [putBit, hj, h]
    · cases on <;> simp [putBit, hj, h, Ne.symm h]
  · simp [hj, BitVec.getLsbD_of_ge, Nat.le_of_not_lt hj]

end DemandPaging
