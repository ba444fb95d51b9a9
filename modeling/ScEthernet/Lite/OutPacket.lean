import ScEthernet.Lib.WordMemory
import ScEthernet.Wire

/-! Transmission of a packet by the light driver: mii_out_packet and mii_out_packet_ write the
tail word, the address of the code for the tail and a negative index behind the packet,
and the OUT coroutine of miiLLD counts that index up to zero and jumps. Registers keep
their names. Addresses count words. -/
namespace ScEthernet.Lite.OutPacket
open Lib.WordMemory Lib.BitOrder Lib.ShiftCrc Wire

structure TailValues where
  address : Fin 4 → Int
  distinct : Function.Injective address

def oddBytes (length : Nat) : Fin 4 := ⟨length % 4, Nat.mod_lt _ (by decide)⟩
def lowBytes (odd : Fin 4) : BitVec 32 := (1#32 <<< (odd.val <<< 3)) - 1#32
def masked (odd : Fin 4) (x : Int) : Int := (BitVec.ofInt 32 x &&& lowBytes odd).toInt

def miiOutPacket (tails : TailValues) (mem : Int → Int) (b : Int) (length : Nat) : (Int → Int) × Int :=
  let odd := oddBytes length
  let roundedLength : Nat := length / 4
  let mem := store mem (b + roundedLength + 1) (tails.address odd)
  let mem := store mem (b + roundedLength) (masked odd (mem (b + roundedLength)))
  let mem := store mem (b + roundedLength + 2) (-roundedLength + 1)
  (mem, b + roundedLength - 1)

def miiOutPacket_ (tails : TailValues) (mem : Int → Int) (a : Int) (length : Nat) : (Int → Int) × Int :=
  let odd := oddBytes length
  let roundedLength : Nat := length / 4
  let mem := store mem (a + roundedLength + 1) (tails.address odd)
  let x := mem (a + roundedLength)
  let mem := store mem (a + roundedLength) (masked odd x)
  let mem := store mem (a + roundedLength + 2) (-roundedLength + 1)
  (mem, a + roundedLength - 1)

def load (mem : Int → Int) (a : Int) : BitVec 32 := BitVec.ofInt 32 (mem a)

structure Registers where
  r8 : Int
  r9 : BitVec 32
  out : List Bool

/- One pass from the label outPacket to the branch, which is taken while r8 is not 0. -/
def outPacket (mem : Int → Int) (r7 : Int) : Nat → Registers → Option Registers
  | 0, _ => none
  | fuel + 1, s =>
    let r5 := load mem (r7 + s.r8)
    let s : Registers := ⟨s.r8 + 1, crc32 s.r9 r5, s.out ++ lsbFirst r5⟩
    if s.r8 ≠ 0 then outPacket mem r7 fuel s else some s

def tail0 (r9 : BitVec 32) : List Bool :=
  let r9 := crc32 r9 0#32
  lsbFirst (~~~ r9)

def tail1 (r7 r9 : BitVec 32) : List Bool :=
  let (r9, r8) := crc8shr r9 r7
  let r9 := ~~~ crc32 r9 r8
  let r5 := r9 <<< 8
  let r7 := r7 ||| r5
  lsbFirst r7 ++ (lsbFirst (r9 >>> 24)).take 8

def tail2 (r7 r9 : BitVec 32) : List Bool :=
  let (r9, r8) := crc8shr r9 r7
  let (r9, r8) := crc8shr r9 r8
  let r9 := ~~~ crc32 r9 r8
  let r5 := r9 <<< 16
  let r7 := r7 ||| r5
  lsbFirst r7 ++ (lsbFirst (r9 >>> 16)).take 16

def tail3 (r7 r9 : BitVec 32) : List Bool :=
  let (r9, r8) := crc8shr r9 r7
  let (r9, r8) := crc8shr r9 r8
  let (r9, r8) := crc8shr r9 r8
  let out := (lsbFirst r7).take 24
  let r9 := ~~~ crc32 r9 r8
  out ++ lsbFirst r9

def transmitTail (tails : TailValues) (r5 : Int) (r7 r9 : BitVec 32) : Option (List Bool) :=
  if r5 = tails.address 0 then some (tail0 r9)
  else if r5 = tails.address 1 then some (tail1 r7 r9)
  else if r5 = tails.address 2 then some (tail2 r7 r9)
  else if r5 = tails.address 3 then some (tail3 r7 r9)
  else none

/- From the label outIdle, once the pointer has come in. -/
def outIdle (tails : TailValues) (fuel : Nat) (mem : Int → Int) (r7 : Int) : Option (List Bool) := do
  let r8 := mem (r7 + 3)
  let r5 := load mem (r7 + r8)
  let s ← outPacket mem r7 fuel ⟨r8 + 1, crc32 seed r5, preamble ++ lsbFirst r5⟩
  let r8 := load mem (r7 + s.r8)
  let r9 := crc32 s.r9 r8
  let tail ← transmitTail tails (mem (r7 + 2)) (load mem (r7 + 1)) r9
  some (s.out ++ lsbFirst r8 ++ tail)

def packetWords (mem : Int → Int) (b : Int) (length : Nat) : List (BitVec 32) :=
  (List.range ((length + 3) / 4)).map (fun i : Nat => load mem (b + i))

section tails
variable {odd : Fin 4} {x : BitVec 32}

theorem lowBytesBit (odd : Fin 4) (i : Nat) : (lowBytes odd).getLsbD i = decide (i < 8 * odd.val) := by
  by_cases small : i < 32
  · have all : ∀ odd : Fin 4, ∀ i : Fin 32, (lowBytes odd).getLsbD i = decide (i.val < 8 * odd.val) := by
      decide
    exact all odd ⟨i, small⟩
  · rw [BitVec.getLsbD_of_ge _ _ (by omega)]
    simp; omega

theorem maskedBits (odd : Fin 4) (x : BitVec 32) :
    (lsbFirst (x &&& lowBytes odd)).take (8 * odd.val) = (lsbFirst x).take (8 * odd.val) := by
  apply List.ext_getElem
  · simp
  · intro i a b
    have low : i < 8 * odd.val := by
      rw [List.length_take] at a; omega
    rw [List.getElem_take, lsbFirstAt, List.getElem_take, lsbFirstAt, BitVec.getLsbD_and, lowBytesBit]
    simp [low]

theorem maskedShift (odd : Fin 4) (x : BitVec 32) : (x &&& lowBytes odd) >>> (8 * odd.val) = 0#32 := by
  apply BitVec.eq_of_getLsbD_eq
  intro i _
  rw [BitVec.getLsbD_ushiftRight, BitVec.getLsbD_and, lowBytesBit]
  simp

theorem maskedHigh (odd : Fin 4) (x : BitVec 32) (i : Nat) (high : 8 * odd.val ≤ i) :
    (x &&& lowBytes odd).getLsbD i = false := by
  rw [BitVec.getLsbD_and, lowBytesBit]
  simp; omega

def tailStream (odd : Fin 4) (x r9 : BitVec 32) : List Bool :=
  let last := (lsbFirst x).take (8 * odd.val)
  last ++ lsbFirst (~~~ shifts poly 32 (shiftAll poly r9 last))

theorem tail0Stream (r9 : BitVec 32) : tail0 r9 = tailStream 0 x r9 := by
  simp only [tail0, tailStream, crc32, flushZeros]
  rfl

theorem tail1Stream (x r9 : BitVec 32) : tail1 (x &&& lowBytes 1) r9 = tailStream 1 x r9 := by
  have gone : (x &&& lowBytes 1) >>> 8 = 0#32 := maskedShift 1 x
  have low : (lsbFirst (x &&& lowBytes 1)).take 8 = (lsbFirst x).take 8 := maskedBits 1 x
  simp only [tail1, crc8shr, gone, low, crc32, flushZeros]
  rw [lsbFirstOr (k := 8) (by decide) (maskedHigh 1 x), low, List.append_assoc, lsbFirstHalves _ (by decide)]
  rfl

theorem twoBytes (x r9 : BitVec 32) :
    shiftAll poly (shiftAll poly r9 ((lsbFirst x).take 8)) ((lsbFirst (x >>> 8)).take 8) =
      shiftAll poly r9 ((lsbFirst x).take 16) := by
  rw [← shiftAllAppend, ← lsbFirstSplit x (by decide)]

theorem threeBytes (x r9 : BitVec 32) :
    shiftAll poly (shiftAll poly r9 ((lsbFirst x).take 16)) ((lsbFirst (x >>> 8 >>> 8)).take 8) =
      shiftAll poly r9 ((lsbFirst x).take 24) := by
  rw [← BitVec.shiftRight_add, ← shiftAllAppend, ← lsbFirstSplit x (by decide)]

theorem tail2Stream (x r9 : BitVec 32) : tail2 (x &&& lowBytes 2) r9 = tailStream 2 x r9 := by
  have gone : (x &&& lowBytes 2) >>> 8 >>> 8 = 0#32 := by
    rw [← BitVec.shiftRight_add]
    exact maskedShift 2 x
  have low : (lsbFirst (x &&& lowBytes 2)).take 16 = (lsbFirst x).take 16 := maskedBits 2 x
  simp only [tail2, crc8shr, twoBytes, gone, low, crc32, flushZeros]
  rw [lsbFirstOr (k := 16) (by decide) (maskedHigh 2 x), low, List.append_assoc, lsbFirstHalves _ (by decide)]
  rfl

theorem tail3Stream (x r9 : BitVec 32) : tail3 (x &&& lowBytes 3) r9 = tailStream 3 x r9 := by
  have gone : (x &&& lowBytes 3) >>> 8 >>> 8 >>> 8 = 0#32 := by
    rw [← BitVec.shiftRight_add, ← BitVec.shiftRight_add]
    exact maskedShift 3 x
  have low : (lsbFirst (x &&& lowBytes 3)).take 24 = (lsbFirst x).take 24 := maskedBits 3 x
  simp only [tail3, crc8shr, twoBytes, threeBytes, gone, low, crc32, flushZeros]
  rfl

theorem transmitTailStream (tails : TailValues) (odd : Fin 4) (x r9 : BitVec 32) :
    transmitTail tails (tails.address odd) (x &&& lowBytes odd) r9 = some (tailStream odd x r9) := by
  have apart : ∀ i, tails.address odd = tails.address i ↔ odd = i :=
    fun i => tails.distinct.eq_iff
  simp only [transmitTail, apart]
  match odd with
  | 0 => rw [tail0Stream (x := x)]; rfl
  | 1 => rw [tail1Stream]; rfl
  | 2 => rw [tail2Stream]; rfl
  | 3 => rw [tail3Stream]; rfl

end tails

section words
variable {mem : Int → Int} {b : Int} {length : Nat}

theorem packetWordsAt {i : Nat} (inside : i < (length + 3) / 4) :
    (packetWords mem b length)[i]? = some (load mem (b + i)) := by
  simp [packetWords, inside]

theorem packetWordsTake (mem : Int → Int) (b : Int) (length : Nat) :
    (packetWords mem b length).take (length / 4) =
      (List.range (length / 4)).map (fun i : Nat => load mem (b + i)) := by
  rw [packetWords, ← List.map_take, List.take_range]
  congr 2
  omega

theorem sameWords {mem' : Int → Int} (same : ∀ i : Nat, i < length / 4 → mem' (b + i) = mem (b + i)) :
    (List.range (length / 4)).map (fun i : Nat => load mem' (b + i)) =
      (packetWords mem b length).take (length / 4) := by
  rw [packetWordsTake]
  refine List.map_congr_left fun i inside => ?_
  rw [load, same i (List.mem_range.mp inside), load]

theorem outPacketWords (mem : Int → Int) (r7 : Int) (n fuel : Nat) (positive : 0 < n) (enough : n ≤ fuel)
    (r9 : BitVec 32) (out : List Bool) :
    let sent := bits ((List.range n).map (fun i : Nat => load mem (r7 - n + i)))
    outPacket mem r7 fuel ⟨-n, r9, out⟩ = some ⟨0, shiftAll poly r9 sent, out ++ sent⟩ := by
  induction n generalizing fuel r9 out with
  | zero => omega
  | succ n ih =>
    obtain ⟨fuel, rfl⟩ := Nat.exists_eq_succ_of_ne_zero (n := fuel) (by omega)
    intro sent
    have parts : sent = lsbFirst (load mem (r7 + -((n + 1 : Nat) : Int))) ++
        bits ((List.range n).map (fun i : Nat => load mem (r7 - n + i))) := by
      have shifted : ∀ i : Nat, r7 - ((n + 1 : Nat) : Int) + ((i + 1 : Nat) : Int) = r7 - n + i := by
        intro i; push_cast; omega
      have whole : sent = bits ((List.range (n + 1)).map
        (fun i : Nat => load mem (r7 - ((n + 1 : Nat) : Int) + i))) := rfl
      rw [whole, List.range_succ_eq_map, List.map_cons, List.map_map, bitsCons]
      congr 3
      · simp; omega
      · funext i
        exact congrArg (load mem) (shifted i)
    have next : -((n + 1 : Nat) : Int) + 1 = -(n : Int) := by push_cast; omega
    simp only [outPacket, next]
    split
    · rename_i again
      rw [ih fuel (by omega) (by omega), parts, shiftAllAppend, List.append_assoc]
      rfl
    · have last : n = 0 := by omega
      subst last
      rw [parts]
      simp [crc32]

theorem outIdlePrepared (tails : TailValues) (mem : Int → Int) {mem' : Int → Int} {fuel : Nat}
    (long : 14 ≤ length) (enough : length / 4 ≤ fuel)
    (same : ∀ i : Nat, i < length / 4 → mem' (b + i) = mem (b + i))
    (tail : mem' (b + (length / 4 : Nat)) = masked (oddBytes length) (mem (b + (length / 4 : Nat))))
    (address : mem' (b + (length / 4 : Nat) + 1) = tails.address (oddBytes length))
    (index : mem' (b + (length / 4 : Nat) + 2) = -(length / 4 : Nat) + 1) :
    let words := bits ((packetWords mem b length).take (length / 4))
    outIdle tails fuel mem' (b + (length / 4 : Nat) - 1) = some (preamble ++ words ++
      tailStream (oddBytes length) (load mem (b + (length / 4 : Nat))) (shiftAll poly seed words)) := by
  intro words
  obtain ⟨n, full⟩ : ∃ n, length / 4 = n + 2 := ⟨length / 4 - 2, by omega⟩
  rw [full] at tail address index enough
  have index' : mem' (b + ((n + 2 : Nat) : Int) - 1 + 3) = -((n + 2 : Nat) : Int) + 1 := by
    rw [show b + ((n + 2 : Nat) : Int) - 1 + 3 = b + ((n + 2 : Nat) : Int) + 2 by omega]; exact index
  have address' : mem' (b + ((n + 2 : Nat) : Int) - 1 + 2) = tails.address (oddBytes length) := by
    rw [show b + ((n + 2 : Nat) : Int) - 1 + 2 = b + ((n + 2 : Nat) : Int) + 1 by omega]; exact address
  have last : load mem' (b + ((n + 2 : Nat) : Int) - 1 + 1) =
      load mem (b + ((n + 2 : Nat) : Int)) &&& lowBytes (oddBytes length) := by
    rw [show b + ((n + 2 : Nat) : Int) - 1 + 1 = b + ((n + 2 : Nat) : Int) by omega, load, tail, masked,
      BitVec.ofInt_toInt, load]
  have start : b + ((n + 2 : Nat) : Int) - 1 + (-((n + 2 : Nat) : Int) + 1) = b := by omega
  have left : -((n + 2 : Nat) : Int) + 1 + 1 = -(n : Int) := by push_cast; omega
  have sent := outPacketWords mem' (b + ((n + 2 : Nat) : Int) - 1) n fuel (by omega) (by omega)
  have whole : words = lsbFirst (load mem' b) ++
      bits ((List.range n).map (fun i : Nat => load mem' (b + ((n + 2 : Nat) : Int) - 1 - n + i))) ++
      lsbFirst (load mem' (b + ((n + 2 : Nat) : Int) - 1)) := by
    have parts : words = bits ((List.range (n + 1 + 1)).map (fun i : Nat => load mem' (b + i))) := by
      rw [← full, sameWords same]
    have middle : ∀ i : Nat, b + ((i + 1 : Nat) : Int) = b + ((n + 2 : Nat) : Int) - 1 - n + i := by
      intro i; push_cast; omega
    have final : b + ((n + 1 : Nat) : Int) = b + ((n + 2 : Nat) : Int) - 1 := by push_cast; omega
    rw [parts, List.range_succ, List.range_succ_eq_map, List.map_append, bitsAppend, List.map_cons,
      List.map_map, bitsCons, List.map_cons, List.map_nil, bitsCons, bitsNil, List.append_nil, final]
    congr 3
    · simp
    · exact List.map_congr_left fun i _ => congrArg (load mem') (middle i)
  rw [full, outIdle, index', start, left]
  simp only [sent, Option.bind_eq_bind, Option.bind_some, address', last, transmitTailStream, Int.add_zero]
  rw [whole, shiftAllAppend, shiftAllAppend]
  simp only [List.append_assoc, crc32]

theorem preparedFrame {frame : List (BitVec 8)}
    (held : (bytes (packetWords mem b frame.length)).take frame.length = frame) :
    let words := bits ((packetWords mem b frame.length).take (frame.length / 4))
    words ++ tailStream (oddBytes frame.length) (load mem (b + (frame.length / 4 : Nat)))
      (shiftAll poly seed words) = wireFrame frame := by
  intro words
  have whole := bitsOfBytes (packetWords mem b frame.length) frame.length
  have last : (((packetWords mem b frame.length)[frame.length / 4]?.map lsbFirst).getD []).take
      (8 * (frame.length % 4)) =
        (lsbFirst (load mem (b + (frame.length / 4 : Nat)))).take (8 * (frame.length % 4)) := by
    by_cases none : frame.length % 4 = 0
    · simp [none]
    · rw [packetWordsAt (by omega)]
      rfl
  rw [held, last] at whole
  have odd : (oddBytes frame.length).val = frame.length % 4 := rfl
  rw [wireFrame, frameCheck, checksumSeed (by decide) seedShifts, whole, tailStream, odd, shiftAllAppend,
    List.append_assoc]

end words

section prepare
variable (tails : TailValues) (mem : Int → Int) (b : Int)

theorem preparePacket (length : Nat) :
    let mem' := (miiOutPacket tails mem b length).1
    (∀ a, a < b + (length / 4 : Nat) → mem' a = mem a) ∧
    mem' (b + (length / 4 : Nat)) = masked (oddBytes length) (mem (b + (length / 4 : Nat))) ∧
    mem' (b + (length / 4 : Nat) + 1) = tails.address (oddBytes length) ∧
    mem' (b + (length / 4 : Nat) + 2) = -(length / 4 : Nat) + 1 := by
  intro mem'
  have stored : mem' = (miiOutPacket tails mem b length).1 := rfl
  refine ⟨fun a below => ?_, ?_, ?_, ?_⟩ <;>
    simp only [stored, miiOutPacket, store] <;> split_ifs <;> first | rfl | omega

theorem outFrame (fuel : Nat) {frame : List (BitVec 8)} (long : 14 ≤ frame.length)
    (enough : frame.length / 4 ≤ fuel)
    (held : (bytes (packetWords mem b frame.length)).take frame.length = frame) :
    let sent := miiOutPacket tails mem b frame.length
    outIdle tails fuel sent.1 sent.2 = some (preamble ++ wireFrame frame) := by
  intro sent
  obtain ⟨below, tail, address, index⟩ := preparePacket tails mem b frame.length
  have run := outIdlePrepared tails mem long enough (fun i inside => below _ (by omega)) tail address index
  have pointer : sent.2 = b + (frame.length / 4 : Nat) - 1 := rfl
  rw [pointer]
  refine run.trans ?_
  rw [List.append_assoc, preparedFrame held]

end prepare

end ScEthernet.Lite.OutPacket
