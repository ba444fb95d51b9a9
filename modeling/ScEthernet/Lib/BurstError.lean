import Mathlib.Data.List.Basic
import ScEthernet.Lib.ShiftCrc

/-! Errors in what a reflected CRC covers. The register is linear in its data, so only the errors decide whether it
changes, and a polynomial with a constant term never loses an error that is no longer than the register. -/
namespace ScEthernet.Lib.BurstError
open BitOrder ShiftCrc

/- Errors, all of them within `w` consecutive bits. -/
structure Burst (w : Nat) (errors : List Bool) : Prop where
  nonzero : true ∈ errors
  confined : ∃ first, ∀ j, errors[j]? = some true → first ≤ j ∧ j < first + w

theorem burstIff {w : Nat} {errors : List Bool} : Burst w errors ↔ true ∈ errors ∧ true ∉ errors.drop (errors.idxOf true + w) := by
  constructor
  · rintro ⟨nonzero, first, confined⟩
    refine ⟨nonzero, fun late => ?_⟩
    obtain ⟨j, here⟩ := List.mem_iff_getElem?.mp late
    rw [List.getElem?_drop] at here
    have low := (confined _ (List.getElem?_idxOf nonzero)).1
    have high := (confined _ here).2
    omega
  · rintro ⟨nonzero, clear⟩
    refine ⟨nonzero, errors.idxOf true, fun j here => ⟨?_, ?_⟩⟩
    · by_contra before
      obtain ⟨within, same⟩ := List.getElem?_eq_some_iff.mp here
      have other := List.not_of_lt_findIdx (Nat.lt_of_not_le before)
      rw [same] at other
      cases other
    · by_contra behind
      refine clear (List.mem_iff_getElem?.mpr ⟨j - (errors.idxOf true + w), ?_⟩)
      rw [List.getElem?_drop, Nat.add_sub_cancel' (by omega)]
      exact here

instance (w errors) : Decidable (Burst w errors) := decidable_of_iff _ burstIff.symm

/- The data with the set bits of the errors flipped. -/
def flipped {n : Nat} (data errors : List (BitVec n)) : List (BitVec n) := List.zipWith (· ^^^ ·) data errors

section
variable {n w : Nat} {poly : BitVec w} {data errors : List Bool}

@[simp] theorem flippedLength {data errors : List (BitVec n)} (same : errors.length = data.length) :
    (flipped data errors).length = data.length := by
  rw [flipped, List.length_zipWith, same, Nat.min_self]

theorem lsbFirstXor (x y : BitVec n) : lsbFirst (x ^^^ y) = List.zipWith Bool.xor (lsbFirst x) (lsbFirst y) := by
  refine List.ext_getElem (by simp) fun i a b => ?_
  rw [lsbFirstAt, List.getElem_zipWith, lsbFirstAt, lsbFirstAt, BitVec.getLsbD_xor]

theorem bitsFlipped {data errors : List (BitVec n)} (same : errors.length = data.length) :
    bits (flipped data errors) = List.zipWith Bool.xor (bits data) (bits errors) := by
  induction data generalizing errors with
  | nil =>
    rw [List.length_eq_zero_iff.mp same]
    rfl
  | cons x data ih =>
    cases errors with
    | nil => cases same
    | cons y errors =>
      have rest := ih (Nat.succ.inj same)
      rw [flipped, List.zipWith_cons_cons, bitsCons, bitsCons, bitsCons, lsbFirstXor, ← flipped, rest,
        List.zipWith_append (by rw [lsbFirstLength, lsbFirstLength])]

/-! Linearity. -/

theorem topXor (a b : Bool) : top (w := w) (a ^^ b) = top a ^^^ top b := by
  cases a <;> cases b <;> simp [top]

theorem shiftAllFlipped (same : errors.length = data.length) (crc register : BitVec w) :
    shiftAll poly (crc ^^^ register) (List.zipWith Bool.xor data errors) =
      shiftAll poly crc data ^^^ shiftAll poly register errors := by
  induction data generalizing errors crc register with
  | nil =>
    rw [List.length_eq_zero_iff.mp same]
    rfl
  | cons bit data ih =>
    cases errors with
    | nil => cases same
    | cons error errors =>
      have step : shiftIn poly (crc ^^^ register) (bit ^^ error) = shiftIn poly crc bit ^^^ shiftIn poly register error := by
        rw [shiftIn, shiftIn, shiftIn, shiftXor, topXor]
        ac_rfl
      have rest := ih (Nat.succ.inj same) (shiftIn poly crc bit) (shiftIn poly register error)
      rw [← step] at rest
      exact rest

/-! The constant term. -/

theorem shiftTopBit (positive : 0 < w) (constant : poly.getLsbD (w - 1) = true) (crc : BitVec w) :
    (shift poly crc).getLsbD (w - 1) = crc.getLsbD 0 := by
  have above : (crc >>> 1).getLsbD (w - 1) = false := by
    rw [BitVec.getLsbD_ushiftRight]
    exact BitVec.getLsbD_of_ge crc _ (by omega)
  unfold shift
  split
  · rename_i dropped
    rw [BitVec.getLsbD_xor, above, constant, dropped]
    rfl
  · rename_i kept
    rw [above, (Bool.not_eq_true _).mp kept]

theorem shiftEqZero (positive : 0 < w) (constant : poly.getLsbD (w - 1) = true) {crc : BitVec w}
    (zero : shift poly crc = 0#w) : crc = 0#w := by
  have low : crc.getLsbD 0 = false := by
    rw [← shiftTopBit positive constant, zero, BitVec.getLsbD_zero]
  rw [shift, low, if_neg Bool.false_ne_true] at zero
  apply BitVec.eq_of_getLsbD_eq
  intro i _
  rw [BitVec.getLsbD_zero]
  cases i with
  | zero => exact low
  | succ i =>
    have bit := congrArg (fun x => x.getLsbD i) zero
    rwa [BitVec.getLsbD_ushiftRight, BitVec.getLsbD_zero, Nat.add_comm] at bit

theorem shiftsEqZero (positive : 0 < w) (constant : poly.getLsbD (w - 1) = true) {k : Nat} {crc : BitVec w}
    (zero : shifts poly k crc = 0#w) : crc = 0#w := by
  induction k with
  | zero => exact zero
  | succ k ih =>
    rw [shiftsSucc] at zero
    exact ih (shiftEqZero positive constant zero)

theorem shiftAllZeros (k : Nat) (crc : BitVec w) : shiftAll poly crc (List.replicate k false) = shifts poly k crc := by
  induction k generalizing crc with
  | zero => rfl
  | succ k ih =>
    have clear : shiftIn poly crc false = shift poly crc := by simp [shiftIn, top]
    rw [List.replicate_succ, shiftAll, List.foldl_cons, clear]
    exact ih _

/-! Bursts. -/

theorem wordOf {bits : List Bool} (length : bits.length = w) : ∃ x : BitVec w, lsbFirst x = bits := by
  subst length
  refine ⟨BitVec.ofBoolListLE bits, List.ext_getElem (by simp) fun i a b => ?_⟩
  rw [lsbFirstAt, BitVec.getLsbD_ofBoolListLE, List.getD_eq_getElem?_getD, List.getElem?_eq_getElem b, Option.getD_some]

/- With a register's length of clear bits behind, the errors are one word between clear bits. -/
theorem burstWord (burst : Burst w errors) : ∃ (before behind : Nat) (x : BitVec w), x ≠ 0#w ∧
    errors ++ List.replicate w false = List.replicate before false ++ (lsbFirst x ++ List.replicate behind false) := by
  obtain ⟨⟨j, inside, set⟩, first, confined⟩ := And.intro (List.getElem_of_mem burst.nonzero) burst.confined
  obtain ⟨low, high⟩ := confined j (by rw [List.getElem?_eq_getElem inside, set])
  have long : (errors ++ List.replicate w false).length = errors.length + w := by simp
  have clear : ∀ i (bound : i < (errors ++ List.replicate w false).length), i < first ∨ first + w ≤ i →
      (errors ++ List.replicate w false)[i] = false := by
    intro i bound outside
    rw [List.getElem_append]
    split
    · rename_i old
      by_contra wrong
      have := confined i (by rw [List.getElem?_eq_getElem old, (Bool.not_eq_false _).mp wrong])
      omega
    · rw [List.getElem_replicate]
  generalize padded : errors ++ List.replicate w false = bits at long clear
  have width : ((bits.drop first).take w).length = w := by
    rw [List.length_take, List.length_drop]
    omega
  obtain ⟨x, word⟩ := wordOf width
  refine ⟨first, errors.length - first, x, fun zero => ?_, ?_⟩
  · have bit : (lsbFirst x)[j - first]? = some true := by
      rw [word, List.getElem?_take, if_pos (by omega), List.getElem?_drop, ← padded, Nat.add_sub_cancel' low,
        List.getElem?_append_left inside, List.getElem?_eq_getElem inside, set]
    obtain ⟨bound, value⟩ := List.getElem?_eq_some_iff.mp bit
    rw [lsbFirstAt, zero, BitVec.getLsbD_zero] at value
    cases value
  · have start : bits.take first = List.replicate first false := by
      refine List.eq_replicate_iff.mpr ⟨by rw [List.length_take]; omega, fun b member => ?_⟩
      obtain ⟨i, bound, rfl⟩ := List.getElem_of_mem member
      rw [List.length_take] at bound
      rw [List.getElem_take]
      exact clear i (by omega) (.inl (by omega))
    have rest : (bits.drop first).drop w = List.replicate (errors.length - first) false := by
      refine List.eq_replicate_iff.mpr ⟨by rw [List.length_drop, List.length_drop]; omega, fun b member => ?_⟩
      obtain ⟨i, bound, rfl⟩ := List.getElem_of_mem member
      rw [List.length_drop, List.length_drop] at bound
      rw [List.getElem_drop, List.getElem_drop]
      exact clear _ (by omega) (.inr (by omega))
    rw [word, ← rest, List.take_append_drop, ← start, List.take_append_drop]

theorem burstSeen (positive : 0 < w) (constant : poly.getLsbD (w - 1) = true) (burst : Burst w errors) :
    shiftAll poly 0#w errors ≠ 0#w := by
  intro zero
  obtain ⟨before, behind, x, nonzero, padded⟩ := burstWord burst
  have whole : shiftAll poly 0#w (errors ++ List.replicate w false) =
      shiftAll poly (shiftAll poly 0#w errors) (List.replicate w false) := shiftAllAppend 0#w errors _
  rw [zero, padded, shiftAllAppend, shiftAllAppend, shiftAllZeros before, shiftAllZeros behind, shiftAllZeros w, shiftsZero,
    shiftsZero, shiftAllClear] at whole
  exact nonzero (shiftsEqZero positive constant whole)

theorem burstDetected (positive : 0 < w) (constant : poly.getLsbD (w - 1) = true) {data errors : List (BitVec n)}
    (same : errors.length = data.length) (burst : Burst w (bits errors)) (crc : BitVec w) :
    shiftAll poly crc (bits (flipped data errors)) ≠ shiftAll poly crc (bits data) := by
  intro equal
  have lengths : (bits errors).length = (bits data).length := by rw [bitsLength, bitsLength, same]
  have parts : shiftAll poly (crc ^^^ 0#w) (List.zipWith Bool.xor (bits data) (bits errors)) =
      shiftAll poly crc (bits data) ^^^ shiftAll poly 0#w (bits errors) := shiftAllFlipped lengths crc 0#w
  rw [BitVec.xor_zero, ← bitsFlipped same, equal] at parts
  have cancelled := congrArg (shiftAll poly crc (bits data) ^^^ ·) parts
  simp only [BitVec.xor_self, ← BitVec.xor_assoc, BitVec.zero_xor] at cancelled
  exact burstSeen positive constant burst cancelled.symm

end

end ScEthernet.Lib.BurstError
