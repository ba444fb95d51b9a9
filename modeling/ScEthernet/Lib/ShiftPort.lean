import ScEthernet.Lib.BitOrder
import Mathlib.Data.List.Induction

/-! A buffered port: four bits at a time go in at the top of a register, and every eighth time the register is a word. -/
namespace ScEthernet.Lib.ShiftPort
open BitOrder

structure Port where
  register : BitVec 32
  count : Nat
  words : List (BitVec 32)

def Port.shift (p : Port) (n : BitVec 4) : Port :=
  let register := n ++ p.register.extractLsb' 4 28
  if p.count = 28 then ⟨register, 0, p.words ++ [register]⟩ else ⟨register, p.count + 4, p.words⟩

/- The port after the nibbles. What the register held before them is in its lower bits. -/
def deliver (register : BitVec 32) (ns : List (BitVec 4)) : Port := ns.foldl Port.shift ⟨register, 0, []⟩

/- The nibbles in pairs, the lower one first. -/
def wholeBytes : List (BitVec 4) → List (BitVec 8)
  | lo :: hi :: rest => (hi ++ lo) :: wholeBytes rest
  | _ => []

def nibbles (frame : List (BitVec 8)) : List (BitVec 4) := frame.flatMap (fun x => [x.extractLsb' 0 4, x.extractLsb' 4 4])

def nibblesOf : List Bool → List (BitVec 4)
  | a :: b :: c :: d :: rest => BitVec.ofBoolListLE [a, b, c, d] :: nibblesOf rest
  | _ => []

def Port.pins (p : Port) : List Bool := bits p.words ++ (lsbFirst (p.register >>> (32 - p.count))).take p.count

section
variable {p : Port} {n : BitVec 4} {register : BitVec 32} {ns : List (BitVec 4)}

theorem lsbFirstInjective {w : Nat} {x y : BitVec w} (same : lsbFirst x = lsbFirst y) : x = y := by
  refine BitVec.eq_of_getLsbD_eq fun i small => ?_
  have bound : i < (lsbFirst x).length := by simpa using small
  rw [← lsbFirstAt x bound, ← lsbFirstAt y (by simpa using small)]
  simp only [same]

theorem bitsInjective {w : Nat} {xs ys : List (BitVec w)} (length : xs.length = ys.length) (same : bits xs = bits ys) :
    xs = ys := by
  induction xs generalizing ys with
  | nil => exact (List.length_eq_zero_iff.mp length.symm).symm
  | cons x xs ih =>
    cases ys with
    | nil => cases length
    | cons y ys =>
      rw [bitsCons, bitsCons] at same
      obtain ⟨first, rest⟩ := List.append_inj same (by rw [lsbFirstLength, lsbFirstLength])
      rw [lsbFirstInjective first, ih (Nat.succ.inj length) rest]

theorem shiftRegister (h : p.count ≤ 28) :
    (lsbFirst ((n ++ p.register.extractLsb' 4 28) >>> (28 - p.count))).take (p.count + 4) =
      (lsbFirst (p.register >>> (32 - p.count))).take p.count ++ lsbFirst n := by
  refine List.ext_getElem (by simp; omega) fun i a b => ?_
  rw [List.length_take, lsbFirstLength] at a
  rw [List.getElem_take, lsbFirstAt, BitVec.getLsbD_ushiftRight, BitVec.getLsbD_append]
  by_cases old : i < p.count
  · rw [List.getElem_append_left (by simp; omega), List.getElem_take, lsbFirstAt, BitVec.getLsbD_ushiftRight,
      BitVec.getLsbD_extractLsb']
    have low : 28 - p.count + i < 28 := by omega
    have place : 4 + (28 - p.count + i) = 32 - p.count + i := by omega
    simp [low, place]
  · rw [List.getElem_append_right (by simp; omega), lsbFirstAt]
    have high : ¬ 28 - p.count + i < 28 := by omega
    have place : 28 - p.count + i - 28 = i - ((lsbFirst (p.register >>> (32 - p.count))).take p.count).length := by
      rw [List.length_take, lsbFirstLength]; omega
    simp [high]
    congr 1
    simpa using place

theorem shiftPins (h : p.count ≤ 28) : (p.shift n).pins = p.pins ++ lsbFirst n := by
  have next := shiftRegister (n := n) h
  unfold Port.shift
  dsimp only
  split
  · rename_i last
    rw [last] at next
    simp only [Port.pins, last, bitsAppend, bitsCons, bitsNil, List.append_nil, List.take_zero, List.append_assoc, ← next]
    congr 1
  · rename_i more
    simp only [Port.pins, List.append_assoc, ← next]
    rw [show 32 - (p.count + 4) = 28 - p.count by omega]

theorem delivered (register : BitVec 32) (ns : List (BitVec 4)) : (deliver register ns).pins = bits ns ∧
    (deliver register ns).count = 4 * (ns.length % 8) ∧ (deliver register ns).words.length = ns.length / 8 := by
  induction ns using List.reverseRecOn with
  | nil => simp [deliver, Port.pins]
  | append_singleton ns n ih =>
    obtain ⟨pins, count, words⟩ := ih
    rw [deliver, List.foldl_append, List.foldl_cons, List.foldl_nil, ← deliver]
    generalize deliver register ns = p at *
    refine ⟨?_, ?_⟩
    · rw [shiftPins (by omega), pins, bitsAppend, bitsCons, bitsNil, List.append_nil]
    · rw [List.length_append, List.length_singleton]
      unfold Port.shift
      dsimp only
      split
      · simp only [List.length_append, List.length_singleton]; omega
      · dsimp only; omega

theorem wholeBytesLength : ∀ ns : List (BitVec 4), (wholeBytes ns).length = ns.length / 2
  | [] => rfl
  | [_] => by simp [wholeBytes]
  | _ :: _ :: rest => by
    rw [wholeBytes, List.length_cons, wholeBytesLength rest, List.length_cons, List.length_cons]
    omega

theorem nibblesLength (frame : List (BitVec 8)) : (nibbles frame).length = 2 * frame.length := by
  induction frame with
  | nil => rfl
  | cons x frame ih =>
    have parts : nibbles (x :: frame) = x.extractLsb' 0 4 :: x.extractLsb' 4 4 :: nibbles frame := rfl
    rw [parts, List.length_cons, List.length_cons, List.length_cons, ih]
    omega

theorem pairedNibbles (x : BitVec 8) : x.extractLsb' 4 4 ++ x.extractLsb' 0 4 = x := by
  refine BitVec.eq_of_getLsbD_eq fun i small => ?_
  rw [BitVec.getLsbD_append, BitVec.getLsbD_extractLsb', BitVec.getLsbD_extractLsb']
  by_cases low : i < 4
  · simp [low]
  · simp [low, show i - 4 < 4 by omega, show 4 + (i - 4) = i by omega]

theorem wholeBytesNibbles (frame : List (BitVec 8)) : wholeBytes (nibbles frame) = frame := by
  induction frame with
  | nil => rfl
  | cons x frame ih =>
    have parts : nibbles (x :: frame) = x.extractLsb' 0 4 :: x.extractLsb' 4 4 :: nibbles frame := rfl
    rw [parts, wholeBytes, ih, pairedNibbles]

theorem bitsNibblesOf : ∀ xs : List Bool, bits (nibblesOf xs) = xs.take (4 * (xs.length / 4))
  | [] | [_] | [_, _] | [_, _, _] => by simp [nibblesOf]
  | a :: b :: c :: d :: rest => by
    have length : (a :: b :: c :: d :: rest).length / 4 = rest.length / 4 + 1 := by
      simp only [List.length_cons]
      omega
    have first : ∀ a b c d : Bool, lsbFirst (BitVec.ofBoolListLE [a, b, c, d]) = [a, b, c, d] := by decide
    rw [nibblesOf, bitsCons, bitsNibblesOf rest, length, first, Nat.mul_succ]
    rfl

theorem nibblesOfAppend : ∀ {xs : List Bool} (ys : List Bool), xs.length % 4 = 0 → nibblesOf (xs ++ ys) = nibblesOf xs ++ nibblesOf ys
  | [], _, _ => rfl
  | [_], _, whole | [_, _], _, whole | [_, _, _], _, whole => by cases whole
  | a :: b :: c :: d :: rest, ys, whole => by
    have less : rest.length % 4 = 0 := by
      simp only [List.length_cons] at whole
      omega
    rw [List.cons_append, List.cons_append, List.cons_append, List.cons_append, nibblesOf, nibblesOf, nibblesOfAppend ys less,
      List.cons_append]

theorem pairBits (lo hi : BitVec 4) : lsbFirst (hi ++ lo) = lsbFirst lo ++ lsbFirst hi := by
  refine List.ext_getElem (by simp) fun i a b => ?_
  rw [lsbFirstAt, BitVec.getLsbD_append, List.getElem_append]
  simp only [lsbFirstLength, lsbFirstAt]
  split <;> simp_all

theorem wholeBytesBits : ∀ ns : List (BitVec 4), bits (wholeBytes ns) = (bits ns).take (8 * (ns.length / 2))
  | [] => rfl
  | [_] => by simp [wholeBytes]
  | lo :: hi :: rest => by
    have length : (lo :: hi :: rest).length / 2 = rest.length / 2 + 1 := by
      rw [List.length_cons, List.length_cons]; omega
    rw [wholeBytes, bitsCons, wholeBytesBits rest, pairBits, length, bitsCons, bitsCons, ← List.append_assoc]
    rw [show 8 * (rest.length / 2 + 1) = (lsbFirst lo ++ lsbFirst hi).length + 8 * (rest.length / 2) by simp; omega,
      List.take_length_add_append]

theorem bitsNibbles (frame : List (BitVec 8)) : bits (nibbles frame) = bits frame := by
  have whole := wholeBytesBits (nibbles frame)
  rw [wholeBytesNibbles, nibblesLength] at whole
  rw [whole]
  exact (List.take_of_length_le (by rw [bitsLength, nibblesLength]; omega)).symm

theorem nibblesOfBits (frame : List (BitVec 8)) : nibblesOf (bits frame) = nibbles frame := by
  have same : bits (nibblesOf (bits frame)) = bits (nibbles frame) := by
    rw [bitsNibblesOf, bitsNibbles]
    exact List.take_of_length_le (by rw [bitsLength]; omega)
  have length := congrArg List.length same
  rw [bitsLength, bitsLength] at length
  exact bitsInjective (by omega) same

end

end ScEthernet.Lib.ShiftPort
