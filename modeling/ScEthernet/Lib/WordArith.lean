import Mathlib.Tactic.Common
import Mathlib.Algebra.Group.Nat.Defs
import Mathlib.Algebra.Group.Int.Defs

/-! Signed words against the integers: a result is exact where it fits. -/
namespace ScEthernet.Lib.WordArith

def Fits (w : Nat) (n : Int) : Prop := -2 ^ w ≤ n ∧ n < 2 ^ w

section
variable {w : Nat} {n : Int}

theorem valueFits (x : BitVec (w + 1)) : Fits w x.toInt := by
  have low := BitVec.le_toInt x
  have high := BitVec.toInt_lt (x := x)
  exact ⟨low, high⟩

theorem ofIntExact : (BitVec.ofInt (w + 1) n).toInt = n ↔ Fits w n := by
  constructor
  · intro same
    rw [← same]
    exact valueFits _
  · rintro ⟨low, high⟩
    exact BitVec.toInt_ofInt_eq_self (Nat.succ_pos w) low high

theorem addExact (x y : BitVec (w + 1)) : (x + y).toInt = x.toInt + y.toInt ↔ Fits w (x.toInt + y.toInt) := by
  have sum : x + y = BitVec.ofInt (w + 1) (x.toInt + y.toInt) := by
    rw [BitVec.ofInt_add, BitVec.ofInt_toInt, BitVec.ofInt_toInt]
  rw [← ofIntExact, ← sum]

theorem mulExact (x y : BitVec (w + 1)) : (x * y).toInt = x.toInt * y.toInt ↔ Fits w (x.toInt * y.toInt) := by
  have product : x * y = BitVec.ofInt (w + 1) (x.toInt * y.toInt) := by
    rw [BitVec.ofInt_mul, BitVec.ofInt_toInt, BitVec.ofInt_toInt]
  rw [← ofIntExact, ← product]

theorem subExact (x y : BitVec (w + 1)) : (x - y).toInt = x.toInt - y.toInt ↔ Fits w (x.toInt - y.toInt) := by
  have difference : x - y = BitVec.ofInt (w + 1) (x.toInt - y.toInt) := by
    apply BitVec.eq_of_toInt_eq
    rw [BitVec.toInt_sub, BitVec.toInt_ofInt]
  rw [← ofIntExact, ← difference]

end

end ScEthernet.Lib.WordArith
