import ScEthernet.Lib.BitOrder
import Mathlib.Data.List.Induction

/-! Reflected cyclic redundancy checks of any width over bits. `shiftIn` is a register that
takes the data in at its top while the polynomial is added for each set bit that drops out,
as CRC instructions do; `feed` is the textbook register, which compares the data with the
bit that drops out. A register of the second kind is one of the first with as many zero bits
behind the data as it has cells. -/
namespace ScEthernet.Lib.ShiftCrc
open BitOrder

section
variable {w : Nat} (poly : BitVec w)

def shift (crc : BitVec w) : BitVec w :=
  if crc.getLsbD 0 then (crc >>> 1) ^^^ poly else crc >>> 1

def top (bit : Bool) : BitVec w := if bit then BitVec.twoPow w (w - 1) else 0#w

def shiftIn (crc : BitVec w) (bit : Bool) : BitVec w := shift poly crc ^^^ top bit
def shiftAll (crc : BitVec w) (bits : List Bool) : BitVec w := bits.foldl (shiftIn poly) crc

def feed (crc : BitVec w) (bit : Bool) : BitVec w :=
  if crc.getLsbD 0 ^^ bit then (crc >>> 1) ^^^ poly else crc >>> 1
def feedAll (crc : BitVec w) (bits : List Bool) : BitVec w := bits.foldl (feed poly) crc

def shifts : Nat → BitVec w → BitVec w
  | 0, crc => crc
  | n + 1, crc => shifts n (shift poly crc)

/- The remainder of software CRCs: initial value and final value complemented. -/
def checksum (bits : List Bool) : BitVec w := ~~~ feedAll poly (BitVec.allOnes w) bits

variable {poly}

theorem shiftParts (crc : BitVec w) : shift poly crc = (crc >>> 1) ^^^ (if crc.getLsbD 0 then poly else 0#w) := by
  unfold shift
  split
  · rfl
  · rw [BitVec.xor_zero]

theorem droppedXor (a b : Bool) : (if (a ^^ b) = true then poly else 0#w) =
    (if a = true then poly else 0#w) ^^^ (if b = true then poly else 0#w) := by
  cases a <;> cases b <;> simp

theorem shiftXor (a b : BitVec w) : shift poly (a ^^^ b) = shift poly a ^^^ shift poly b := by
  rw [shiftParts, shiftParts, shiftParts, BitVec.getLsbD_xor, droppedXor, BitVec.ushiftRight_xor_distrib]
  ac_rfl

theorem shiftZero : shift poly 0#w = 0#w := by simp [shift]

theorem shiftsXor (n : Nat) (a b : BitVec w) :
    shifts poly n (a ^^^ b) = shifts poly n a ^^^ shifts poly n b := by
  induction n generalizing a b with
  | zero => rfl
  | succ n ih => rw [shifts, shiftXor, ih]; rfl

theorem shiftsZero (n : Nat) : shifts poly n 0#w = 0#w := by
  induction n with
  | zero => rfl
  | succ n ih => rw [shifts, shiftZero, ih]

theorem shiftsShift (n : Nat) (a : BitVec w) : shifts poly n (shift poly a) = shift poly (shifts poly n a) := by
  induction n generalizing a with
  | zero => rfl
  | succ n ih => rw [shifts, ih]; rfl

theorem shiftsSucc (n : Nat) (a : BitVec w) : shifts poly (n + 1) a = shift poly (shifts poly n a) :=
  shiftsShift n a

theorem shiftsTop (positive : 0 < w) (bit : Bool) :
    shifts poly w (top bit) = if bit then poly else 0#w := by
  cases bit with
  | false => simpa [top] using shiftsZero w
  | true =>
    have down : ∀ k, k < w → shifts poly k (BitVec.twoPow w (w - 1)) = BitVec.twoPow w (w - 1 - k) := by
      intro k small
      induction k with
      | zero => simp [shifts]
      | succ k ih =>
        rw [shiftsSucc, ih (by omega), shift, BitVec.getLsbD_twoPow]
        rw [if_neg (by simp; omega)]
        apply BitVec.eq_of_getLsbD_eq
        intro i _
        simp only [BitVec.getLsbD_ushiftRight, BitVec.getLsbD_twoPow]
        congr 1 <;> simp <;> omega
    obtain ⟨n, rfl⟩ := Nat.exists_eq_succ_of_ne_zero (Nat.ne_of_gt positive)
    have last := down n (by omega)
    rw [show n.succ - 1 - n = 0 by omega] at last
    simp only [top, if_true]
    rw [shiftsSucc, last, shift, BitVec.getLsbD_twoPow]
    simp only [BitVec.twoPow_zero]
    rw [if_pos (by simp)]
    have gone : (1#(n + 1)) >>> 1 = 0#(n + 1) := by
      apply BitVec.eq_of_getLsbD_eq
      intro i _
      rw [← BitVec.twoPow_zero, BitVec.getLsbD_ushiftRight, BitVec.getLsbD_twoPow]
      simp; omega
    rw [gone, BitVec.zero_xor]

theorem feedEqShift (crc : BitVec w) (bit : Bool) :
    feed poly crc bit = shift poly crc ^^^ if bit then poly else 0#w := by
  rw [shiftParts, BitVec.xor_assoc, ← droppedXor, feed]
  split
  · rfl
  · rw [BitVec.xor_zero]

theorem feedAllShifts (positive : 0 < w) (crc : BitVec w) (bits : List Bool) :
    feedAll poly (shifts poly w crc) bits = shifts poly w (shiftAll poly crc bits) := by
  induction bits generalizing crc with
  | nil => rfl
  | cons bit bits ih =>
    have one : feed poly (shifts poly w crc) bit = shifts poly w (shiftIn poly crc bit) := by
      rw [feedEqShift, shiftIn, shiftsXor, shiftsTop positive, shiftsShift]
    simp only [feedAll, shiftAll, List.foldl_cons] at ih ⊢
    rw [one]
    exact ih _

theorem shiftAllAppend (crc : BitVec w) (xs ys : List Bool) :
    shiftAll poly crc (xs ++ ys) = shiftAll poly (shiftAll poly crc xs) ys := List.foldl_append

theorem shiftAllXor (poly a b : BitVec w) (bits : List Bool) :
    shiftAll poly (a ^^^ b) bits = shiftAll poly a bits ^^^ shifts poly bits.length b := by
  induction bits generalizing a b with
  | nil => simp [shiftAll, shifts]
  | cons bit bits ih =>
    have move : shiftIn poly (a ^^^ b) bit = shiftIn poly a bit ^^^ shift poly b := by
      rw [shiftIn, shiftIn, shiftXor]; ac_rfl
    simp only [shiftAll, List.foldl_cons] at ih ⊢
    rw [move, ih, List.length_cons, shifts]

theorem shiftAllLow (poly : BitVec w) (bits : List Bool) : ∀ j, j + bits.length < w → (shiftAll poly 0#w bits).getLsbD j = false := by
  induction bits using List.reverseRecOn with
  | nil => intro j _; simp [shiftAll]
  | append_singleton bits bit ih =>
    intro j room
    rw [List.length_append, List.length_singleton] at room
    have low := ih 0 (by omega)
    have above := ih (1 + j) (by omega)
    have entry : (top (w := w) bit).getLsbD j = false := by
      unfold top
      cases bit
      · simp
      · simp [BitVec.getLsbD_twoPow]; omega
    rw [shiftAllAppend]
    generalize shiftAll poly 0#w bits = crc at low above
    simp only [shiftAll, List.foldl_cons, List.foldl_nil, shiftIn, shift, low, Bool.false_eq_true, if_false,
      BitVec.getLsbD_xor, BitVec.getLsbD_ushiftRight, above, entry, Bool.xor_false]

theorem shiftAllClear (x : BitVec w) : shiftAll poly 0#w (lsbFirst x) = x := by
  have part : ∀ k, k ≤ w → ∀ j, (shiftAll poly 0#w ((List.range k).map x.getLsbD)).getLsbD j =
      (decide (j < w) && decide (w ≤ j + k) && x.getLsbD (j + k - w)) := by
    intro k
    induction k with
    | zero =>
      intro _ j
      have outside : (decide (j < w) && decide (w ≤ j)) = false := by
        rw [Bool.and_eq_false_iff, decide_eq_false_iff_not, decide_eq_false_iff_not]
        omega
      rw [Nat.add_zero, outside, Bool.false_and]
      exact BitVec.getLsbD_zero
    | succ k ih =>
      intro fits j
      have before := ih (by omega)
      rw [List.range_succ, List.map_append, shiftAllAppend]
      generalize shiftAll poly 0#w ((List.range k).map x.getLsbD) = crc at before
      have low : crc.getLsbD 0 = false := by
        rw [before 0]; simp; omega
      simp only [List.map_cons, List.map_nil, shiftAll, List.foldl_cons, List.foldl_nil, shiftIn, shift,
        low, Bool.false_eq_true, if_false, BitVec.getLsbD_xor, BitVec.getLsbD_ushiftRight, before]
      have entry : (top (w := w) (x.getLsbD k)).getLsbD j = (decide (j + 1 = w) && x.getLsbD k) := by
        unfold top
        cases x.getLsbD k
        · simp
        · simp only [if_true, BitVec.getLsbD_twoPow, Bool.and_true]
          rw [← Bool.decide_and]
          congr 1
          simp; omega
      rw [entry]
      rcases Nat.lt_trichotomy (j + 1) w with inner | last | outer
      · have apart : j + 1 ≠ w := by omega
        simp only [show 1 + j < w by omega, show j < w by omega, apart, decide_true, decide_false,
          Bool.false_and, Bool.xor_false, Bool.true_and]
        rw [show 1 + j + k = j + (k + 1) by omega]
      · have edge : ¬ 1 + j < w := by omega
        rw [show j + (k + 1) - w = k by omega]
        simp only [edge, last, show j < w by omega, show w ≤ j + (k + 1) by omega, decide_true,
          decide_false, Bool.false_and, Bool.false_xor, Bool.true_and]
      · have apart : j + 1 ≠ w := by omega
        simp only [show ¬ 1 + j < w by omega, show ¬ j < w by omega, apart, decide_false,
          Bool.false_and, Bool.xor_false]
  apply BitVec.eq_of_getLsbD_eq
  intro i bound
  have whole := part w (Nat.le_refl w) i
  rw [Nat.add_sub_cancel] at whole
  simpa [bound, lsbFirst] using whole

theorem shiftAllWord (crc x : BitVec w) : shiftAll poly crc (lsbFirst x) = x ^^^ shifts poly w crc := by
  have parts := shiftAllXor poly 0#w crc (lsbFirst x)
  rwa [BitVec.zero_xor, shiftAllClear, lsbFirstLength] at parts

/- Flushing with set bits complements, flushing with clear bits does not. -/
theorem flushOnes (crc : BitVec w) :
    shiftAll poly crc (lsbFirst (BitVec.allOnes w)) = ~~~ shifts poly w crc := by
  rw [shiftAllWord, BitVec.allOnes_xor]

theorem flushZeros (crc : BitVec w) : shiftAll poly crc (lsbFirst 0#w) = shifts poly w crc := by
  rw [shiftAllWord, BitVec.zero_xor]

/- With the seed that a register's length of shifts makes all ones. -/
theorem checksumSeed (positive : 0 < w) {seed : BitVec w} (h : shifts poly w seed = BitVec.allOnes w)
    (bits : List Bool) : checksum poly bits = ~~~ shifts poly w (shiftAll poly seed bits) := by
  rw [checksum, ← h, feedAllShifts positive]

theorem seedWord {seed : BitVec w} (h : shifts poly w seed = BitVec.allOnes w) (x : BitVec w) :
    shiftAll poly seed (lsbFirst x) = shiftAll poly 0#w (lsbFirst (~~~ x)) := by
  rw [shiftAllWord, h, shiftAllClear, BitVec.xor_allOnes]

end

end ScEthernet.Lib.ShiftCrc
