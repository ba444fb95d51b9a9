import ScEthernet.Lib.ShiftCrc
import Mathlib.Algebra.GroupWithZero.Nat

/-! Ethernet frames as both drivers see them: the CRC instructions with the polynomial of
IEEE 802.3, and the bits of a frame on the wire. -/
namespace ScEthernet.Wire
open Lib.BitOrder Lib.ShiftCrc

/- For the literals of Fin 4 and Fin 32: bytes behind the last word, and bits in the port. -/
instance fourNeZero : NeZero (4 : Nat) := ⟨by decide⟩
instance wordNeZero : NeZero (32 : Nat) := ⟨by decide⟩

def poly : BitVec 32 := 0xEDB88320#32
def seed : BitVec 32 := 0x9226F562#32

def crc32 (crc data : BitVec 32) : BitVec 32 := shiftAll poly crc (lsbFirst data)
def crc8shr (crc data : BitVec 32) : BitVec 32 × BitVec 32 :=
  (shiftAll poly crc ((lsbFirst data).take 8), data >>> 8)

def preamble : List Bool := lsbFirst 0x55555555#32 ++ lsbFirst 0xD5555555#32

/- The IEEE 802.3 CRC-32 of the bytes. -/
def frameCheck (frame : List (BitVec 8)) : BitVec 32 := checksum poly (bits frame)
def wireFrame (frame : List (BitVec 8)) : List Bool := bits frame ++ lsbFirst (frameCheck frame)

example : frameCheck [0x31, 0x32, 0x33, 0x34, 0x35, 0x36, 0x37, 0x38, 0x39] = 0xCBF43926#32 := by
  decide +kernel

theorem seedShifts : shifts poly 32 seed = BitVec.allOnes 32 := by decide +kernel

theorem crc8shrStep (crc data : BitVec 32) {n : Nat} (small : n + 1 ≤ 4) :
    shiftAll poly (crc8shr crc data).1 ((lsbFirst (crc8shr crc data).2).take (8 * n)) =
      shiftAll poly crc ((lsbFirst data).take (8 * (n + 1))) := by
  rw [crc8shr, ← shiftAllAppend, ← lsbFirstSplit data (by omega), Nat.mul_succ, Nat.add_comm]

theorem runtResidue (k : Fin 4) {data : List Bool} (length : data.length = 8 * k.val) :
    shiftAll poly seed data ≠ BitVec.allOnes 32 := by
  have low : ∀ k : Fin 4, ∃ j : Fin 8, (shifts poly (8 * k.val) seed).getLsbD j = false := by decide +kernel
  obtain ⟨j, clear⟩ := low k
  intro residue
  have parts := shiftAllXor poly 0#32 seed data
  rw [BitVec.zero_xor, length, residue] at parts
  have bit := congrArg (fun x => x.getLsbD j.val) parts
  have none := shiftAllLow poly data j.val (by omega)
  rw [BitVec.getLsbD_xor, none, clear, BitVec.getLsbD_allOnes, decide_eq_true (by omega)] at bit
  cases bit

end ScEthernet.Wire
