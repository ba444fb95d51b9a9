import ScEthernet.Lite.OutPacket
import ScEthernet.Lib.WordArith
import Mathlib.Logic.Function.Iterate

/-! The loop of the OUT coroutine over a packet of a client of the light component: mac_tx_lite,
the_server behind `case appOut :> outBytes`, mii_out_packet and then one instruction after another
from outIdle to the jump, with the addresses from which words to be sent are read. -/
namespace ScEthernet.Lite.OutLoop
open Lib.WordMemory Lib.WordArith Lib.BitOrder Lib.ShiftCrc Wire OutPacket

/- The words that follow nBytes on the channel. -/
def macTxLite (buffer : Nat → BitVec 32) (nBytes : Nat) : List (BitVec 32) :=
  (List.range ((nBytes + 3) / 4)).map buffer

/- appOut :> txbuf[i] for every word -/
def receive : (Int → Int) → Int → List (BitVec 32) → Int → Int
  | mem, _, [] => mem
  | mem, a, x :: words => receive (store mem a x.toInt) (a + 1) words

def transmit (tails : TailValues) (mem : Int → Int) (txbuf : Int) (buffer : Nat → BitVec 32) (outBytes : Nat) :
    (Int → Int) × Int :=
  miiOutPacket tails (receive mem txbuf (macTxLite buffer outBytes)) txbuf outBytes

inductive Pc where
  | outIdle
  | outPacket
  | left
  | tail (r5 : Int)
  deriving DecidableEq

structure Out where
  pc : Pc
  r7 : Int
  r8 : BitVec 32
  sent : List (BitVec 32)
  reads : List Int

def start (r7 : Int) : Out := ⟨.outIdle, r7, 0#32, [], []⟩

/- ldw r5, r7[r8] and out res[r2], r5 -/
def outWord (mem : Int → Int) (s : Out) : Out :=
  let a := s.r7 + s.r8.toInt
  { s with sent := s.sent ++ [load mem a], reads := s.reads ++ [a] }

/- add r8, r8, 1 -/
def advance (s : Out) : Out := { s with r8 := s.r8 + 1#32 }

def step (mem : Int → Int) (s : Out) : Out :=
  match s.pc with
  | .outIdle => { advance (outWord mem { s with r8 := load mem (s.r7 + 3) }) with pc := .outPacket }
  | .outPacket =>
    let s := advance (outWord mem s)
    { s with pc := if s.r8 ≠ 0#32 then .outPacket else .left }
  | .left => { outWord mem s with pc := .tail (mem (s.r7 + 2)) }
  | .tail _ => s

/- The coroutine comes to its tail routine, has sent the whole words of the packet and has
read nothing else to send it. -/
def Sends (tails : TailValues) (mem : Int → Int) (r7 b : Int) (buffer : Nat → BitVec 32) (count : Nat) : Prop :=
  ∃ k, ∃ s, (step mem)^[k] (start r7) = s ∧ s.pc = .tail (tails.address (oddBytes count)) ∧
    s.sent = (List.range (count / 4)).map buffer ∧ ∀ a ∈ s.reads, b ≤ a ∧ a < b + ((count + 3) / 4 : Nat)

section memory
variable {mem : Int → Int}

theorem receiveBelow (words : List (BitVec 32)) {a x : Int} (below : x < a) : receive mem a words x = mem x := by
  induction words generalizing mem a with
  | nil => rfl
  | cons y words ih =>
    rw [receive, ih (by omega), storeOther (by omega)]

theorem receiveAt (words : List (BitVec 32)) (a : Int) {i : Nat} (inside : i < words.length) :
    load (receive mem a words) (a + i) = words[i] := by
  induction words generalizing mem a i with
  | nil => cases inside
  | cons y words ih =>
    cases i with
    | zero =>
      rw [receive, load, receiveBelow words (by omega), List.getElem_cons_zero]
      simp
    | succ i =>
      have next : a + ((i + 1 : Nat) : Int) = a + 1 + i := by push_cast; omega
      rw [receive, next, ih (a + 1) (by simpa using inside), List.getElem_cons_succ]

theorem transmitWord (tails : TailValues) (mem : Int → Int) (txbuf : Int) (buffer : Nat → BitVec 32) {count i : Nat}
    (inside : i < count / 4) : load (transmit tails mem txbuf buffer count).1 (txbuf + i) = buffer i := by
  have bound : i < (macTxLite buffer count).length := by
    rw [macTxLite, List.length_map, List.length_range]
    omega
  obtain ⟨below, -⟩ := preparePacket tails (receive mem txbuf (macTxLite buffer count)) txbuf count
  have same := below (txbuf + i) (by omega)
  rw [load, transmit, same, ← load, receiveAt _ txbuf bound]
  simp [macTxLite]

end memory

section steps
variable {mem : Int → Int} {s : Out}

theorem indexNext (n : Int) : BitVec.ofInt 32 n + 1#32 = BitVec.ofInt 32 (n + 1) := by
  rw [BitVec.ofInt_add]
  rfl

theorem loopEnds (n : Nat) (small : n < 2 ^ 31) (positive : 0 < n) (here : s.pc = .outPacket)
    (index : s.r8 = BitVec.ofInt 32 (-n)) :
    let places := (List.range n).map (fun i : Nat => s.r7 - n + i)
    (step mem)^[n] s = ⟨.left, s.r7, 0#32, s.sent ++ places.map (load mem), s.reads ++ places⟩ := by
  induction n generalizing s with
  | zero => omega
  | succ n ih =>
    intro places
    have value : s.r8.toInt = -((n + 1 : Nat) : Int) := by
      rw [index]
      exact ofIntExact.mpr ⟨by omega, by omega⟩
    have next : s.r8 + 1#32 = BitVec.ofInt 32 (-(n : Int)) := by
      rw [index, indexNext]
      congr 1
      omega
    have first : step mem s = ⟨if BitVec.ofInt 32 (-(n : Int)) ≠ 0#32 then .outPacket else .left, s.r7,
        BitVec.ofInt 32 (-(n : Int)), s.sent ++ [load mem (s.r7 - (n + 1 : Nat))], s.reads ++ [s.r7 - (n + 1 : Nat)]⟩ := by
      simp only [step, here, advance, outWord, next, value, Int.sub_eq_add_neg]
    have parts : places = (s.r7 - (n + 1 : Nat)) :: (List.range n).map (fun i : Nat => s.r7 - n + i) := by
      have shifted : ∀ i : Nat, s.r7 - ((n + 1 : Nat) : Int) + ((i + 1 : Nat) : Int) = s.r7 - n + i := by
        intro i
        push_cast
        omega
      have whole : places = (List.range (n + 1)).map (fun i : Nat => s.r7 - ((n + 1 : Nat) : Int) + i) := rfl
      rw [whole, List.range_succ_eq_map, List.map_cons, List.map_map]
      congr 1
      · simp
      · exact List.map_congr_left fun i _ => shifted i
    rw [Function.iterate_succ_apply, first, parts]
    rcases Nat.eq_zero_or_pos n with last | more
    · subst last
      simp
    · have again : BitVec.ofInt 32 (-(n : Int)) ≠ 0#32 := by
        intro zero
        have := congrArg BitVec.toInt zero
        rw [ofIntExact.mpr ⟨by omega, by omega⟩] at this
        simp at this
        omega
      rw [if_pos again, ih (by omega) more rfl rfl]
      simp

def Astray (s : Out) : Prop :=
  s.pc = .outPacket ∧ (s.r8 = 0#32 ∨ s.r8 = 1#32 ∨ s.r8 = 2#32) ∨ s.r7 + 2 ∈ s.reads

theorem stepPointer (mem : Int → Int) (s : Out) : (step mem s).r7 = s.r7 := by
  unfold step
  split <;> rfl

theorem stepReads (mem : Int → Int) (s : Out) : s.reads <+: (step mem s).reads := by
  unfold step
  split
  · exact List.prefix_append _ _
  · exact List.prefix_append _ _
  · exact List.prefix_append _ _
  · exact List.prefix_refl _

theorem stepAstray (h : Astray s) : Astray (step mem s) := by
  rcases h with ⟨here, index⟩ | read
  · rcases index with zero | one | two
    · refine .inl ⟨?_, .inr (.inl ?_)⟩ <;> simp [step, here, advance, outWord, zero]
    · refine .inl ⟨?_, .inr (.inr ?_)⟩ <;> simp [step, here, advance, outWord, one]
    · right
      have value : (2#32).toInt = 2 := by decide
      simp [step, here, advance, outWord, two, value]
  · right
    rw [stepPointer]
    exact (stepReads mem s).subset read

theorem runAstray (h : Astray s) (k : Nat) : Astray ((step mem)^[k] s) ∧ ((step mem)^[k] s).r7 = s.r7 := by
  induction k with
  | zero => exact ⟨h, rfl⟩
  | succ k ih =>
    rw [Function.iterate_succ_apply']
    exact ⟨stepAstray ih.1, by rw [stepPointer, ih.2]⟩

end steps

section packet
variable {tails : TailValues} {mem : Int → Int} {txbuf : Int} {buffer : Nat → BitVec 32} {count : Nat}

theorem firstStep (tails : TailValues) (mem : Int → Int) (txbuf : Int) (buffer : Nat → BitVec 32) (small : count < 2 ^ 31) :
    let packet := transmit tails mem txbuf buffer count
    step packet.1 (start packet.2) = ⟨.outPacket, txbuf + (count / 4 : Nat) - 1, BitVec.ofInt 32 (2 - (count / 4 : Nat)),
      [load packet.1 txbuf], [txbuf]⟩ := by
  intro packet
  obtain ⟨-, -, -, index⟩ := preparePacket tails (receive mem txbuf (macTxLite buffer count)) txbuf count
  have pointer : packet.2 = txbuf + (count / 4 : Nat) - 1 := rfl
  have place : packet.2 + 3 = txbuf + (count / 4 : Nat) + 2 := by omega
  have r8 : load packet.1 (packet.2 + 3) = BitVec.ofInt 32 (-(count / 4 : Nat) + 1) := by
    rw [place]
    exact congrArg _ index
  have value : (BitVec.ofInt 32 (-(count / 4 : Nat) + 1)).toInt = -(count / 4 : Nat) + 1 := ofIntExact.mpr ⟨by omega, by omega⟩
  have first : packet.2 + (-((count / 4 : Nat) : Int) + 1) = txbuf := by omega
  have next : BitVec.ofInt 32 (-((count / 4 : Nat) : Int) + 1) + 1#32 = BitVec.ofInt 32 (2 - (count / 4 : Nat)) := by
    rw [indexNext]
    congr 1
    omega
  simp only [step, start, advance, outWord, r8, value, first, next, List.nil_append]
  rw [pointer]

theorem longSends (long : 12 ≤ count) (small : count < 2 ^ 31) :
    let packet := transmit tails mem txbuf buffer count
    Sends tails packet.1 packet.2 txbuf buffer count := by
  intro packet
  obtain ⟨n, words⟩ : ∃ n, count / 4 = n + 2 := ⟨count / 4 - 2, by omega⟩
  have positive : 0 < n := by omega
  obtain ⟨-, -, address, -⟩ := preparePacket tails (receive mem txbuf (macTxLite buffer count)) txbuf count
  have first := firstStep tails mem txbuf buffer small
  rw [words] at first address
  have index : (2 : Int) - ((n + 2 : Nat) : Int) = -(n : Int) := by omega
  have loop := @loopEnds packet.1
    ⟨.outPacket, txbuf + (n + 2 : Nat) - 1, BitVec.ofInt 32 (2 - (n + 2 : Nat)), [load packet.1 txbuf], [txbuf]⟩
    n (by omega) positive rfl (congrArg (BitVec.ofInt 32) index)
  have places : txbuf :: (List.range n).map (fun i : Nat => txbuf + (n + 2 : Nat) - 1 - n + i) ++ [txbuf + (n + 2 : Nat) - 1] =
      (List.range (n + 2)).map (fun i : Nat => txbuf + i) := by
    have middle : ∀ i : Nat, txbuf + ((n + 2 : Nat) : Int) - 1 - n + i = txbuf + ((i + 1 : Nat) : Int) := by
      intro i
      omega
    have last : txbuf + ((n + 2 : Nat) : Int) - 1 = txbuf + ((n + 1 : Nat) : Int) := by omega
    rw [List.range_succ, List.range_succ_eq_map, List.map_append, List.map_cons, List.map_map, List.map_singleton, ← last]
    congr 2
    · simp
    · exact List.map_congr_left fun i _ => middle i
  have left : step packet.1 ⟨.left, txbuf + (n + 2 : Nat) - 1, 0#32,
      [load packet.1 txbuf] ++ ((List.range n).map (fun i : Nat => txbuf + (n + 2 : Nat) - 1 - n + i)).map (load packet.1),
      [txbuf] ++ (List.range n).map (fun i : Nat => txbuf + (n + 2 : Nat) - 1 - n + i)⟩ =
      ⟨.tail (tails.address (oddBytes count)), txbuf + (n + 2 : Nat) - 1, 0#32,
        ((List.range (n + 2)).map (fun i : Nat => txbuf + i)).map (load packet.1),
        (List.range (n + 2)).map (fun i : Nat => txbuf + i)⟩ := by
    have jump : packet.1 (txbuf + (n + 2 : Nat) - 1 + 2) = tails.address (oddBytes count) := by
      rw [← address]
      exact congrArg packet.1 (by omega)
    simp only [step, outWord, jump, BitVec.toInt_zero, Int.add_zero]
    rw [← places]
    simp
  refine ⟨n + 2, _, rfl, ?_⟩
  rw [Function.iterate_succ_apply, first, Function.iterate_succ_apply', loop, left]
  refine ⟨rfl, ?_, fun a read => ?_⟩
  · rw [words, List.map_map]
    exact List.map_congr_left fun i inside => transmitWord tails mem txbuf buffer (by
      have := List.mem_range.mp inside
      omega)
  · obtain ⟨i, inside, rfl⟩ := List.mem_map.mp read
    have := List.mem_range.mp inside
    omega

theorem shortAstray (short : count < 12) :
    let packet := transmit tails mem txbuf buffer count
    ¬ Sends tails packet.1 packet.2 txbuf buffer count := by
  rintro packet ⟨k, s, rfl, jumped, -, reads⟩
  have first := @firstStep count tails mem txbuf buffer (by omega)
  have astray : Astray (step packet.1 (start packet.2)) := by
    rw [first]
    refine .inl ⟨rfl, ?_⟩
    obtain none | one | two : count / 4 = 0 ∨ count / 4 = 1 ∨ count / 4 = 2 := by omega
    · rw [none]
      exact .inr (.inr rfl)
    · rw [one]
      exact .inr (.inl rfl)
    · rw [two]
      exact .inl rfl
  cases k with
  | zero => cases jumped
  | succ k =>
    rw [Function.iterate_succ_apply] at jumped reads
    obtain ⟨still | past, pointer⟩ := @runAstray packet.1 _ astray k
    · rw [still.1] at jumped
      cases jumped
    · have bound := (reads _ past).2
      have place : (step packet.1 (start packet.2)).r7 = txbuf + (count / 4 : Nat) - 1 := by rw [first]
      rw [pointer, place] at bound
      omega

/-- A packet needs three words for the index to reach 0 from below. -/
theorem sendsIff (tails : TailValues) (mem : Int → Int) (txbuf : Int) (buffer : Nat → BitVec 32) {count : Nat}
    (small : count ≤ 1518) :
    Sends tails (transmit tails mem txbuf buffer count).1 (transmit tails mem txbuf buffer count).2 txbuf buffer count ↔
      12 ≤ count := by
  constructor
  · intro sends
    by_contra short
    exact shortAstray (by omega) sends
  · intro long
    exact longSends long (by omega)

def fourTails : TailValues := ⟨fun i => (i.val : Int), fun _ _ same => Fin.ext (Int.ofNat.inj same)⟩
def zeros : Nat → BitVec 32 := fun _ => 0#32

theorem sendsSixty : 60 ≤ 1518 ∧
    Sends fourTails (transmit fourTails (fun _ => 0) 0 zeros 60).1 (transmit fourTails (fun _ => 0) 0 zeros 60).2 0 zeros 60 :=
  ⟨by decide, (sendsIff fourTails (fun _ => 0) 0 zeros (by decide)).mpr (by decide)⟩

theorem eightAstray :
    ¬ Sends fourTails (transmit fourTails (fun _ => 0) 0 zeros 8).1 (transmit fourTails (fun _ => 0) 0 zeros 8).2 0 zeros 8 :=
  shortAstray (by decide)

end packet

section stream
variable {tails : TailValues} {mem : Int → Int} {txbuf : Int} {buffer : Nat → BitVec 32} {count : Nat}

theorem transmitStream (long : 14 ≤ count) {fuel : Nat} (enough : count / 4 ≤ fuel) :
    let packet := transmit tails mem txbuf buffer count
    let words := bits ((List.range (count / 4)).map buffer)
    outIdle tails fuel packet.1 packet.2 = some (preamble ++ words ++ tailStream (oddBytes count)
      (load (receive mem txbuf (macTxLite buffer count)) (txbuf + (count / 4 : Nat))) (shiftAll poly seed words)) := by
  intro packet words
  obtain ⟨below, tail, address, index⟩ := preparePacket tails (receive mem txbuf (macTxLite buffer count)) txbuf count
  have run := outIdlePrepared tails _ long enough (fun i inside => below _ (by omega)) tail address index
  have same : (packetWords (receive mem txbuf (macTxLite buffer count)) txbuf count).take (count / 4) =
      (List.range (count / 4)).map buffer := by
    rw [packetWordsTake]
    refine List.map_congr_left fun i inside => ?_
    have bound := List.mem_range.mp inside
    rw [receiveAt _ txbuf (by rw [macTxLite, List.length_map, List.length_range]; omega)]
    simp [macTxLite]
  rw [same] at run
  exact run

end stream

end ScEthernet.Lite.OutLoop
