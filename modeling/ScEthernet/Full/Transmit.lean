import ScEthernet.Full.PoolQueue
import ScEthernet.Wire

/-! mii_transmit_packet: the bits it puts on p_mii_txd. The times it waits for and returns
are left out but for the one it stores in the packet. -/
namespace ScEthernet.Full.Transmit
open Lib.WordMemory Lib.UnrolledRing Lib.BitOrder Lib.ShiftCrc Wire Malloc PoolQueue

def wordAt (p : Pool) (dptr : Int) : BitVec 32 := BitVec.ofInt 32 (p.mem dptr)

structure Registers where
  dptr : Int
  crc : BitVec 32
  out : List Bool

def sendWord (p : Pool) (t : Registers) : Registers :=
  let word := wordAt p t.dptr
  ⟨nextDataPtr p t.dptr, crc32 t.crc word, t.out ++ lsbFirst word⟩

/- The do-while loop, `i` words having been sent. -/
def sendWords (p : Pool) (wordCount : Nat) : Nat → Nat → Registers → Option Registers
  | 0, _, _ => none
  | fuel + 1, i, t =>
    let t := sendWord p t
    if i + 1 < wordCount then sendWords p wordCount fuel (i + 1) t else some t

/- The cases of the switch, each falling through to the one below. -/
def sendTail : Nat → BitVec 32 → BitVec 32 → List Bool × BitVec 32
  | 0, crc, _ => ([], crc)
  | k + 1, crc, word =>
    let (crc', word') := crc8shr crc word
    let (out, crc) := sendTail k crc' word'
    ((lsbFirst word).take 8 ++ out, crc)

/- `atEnd` is TX_TIMESTAMP_END_OF_PACKET. Returns the pool and the bits sent. -/
def miiTransmitPacket (atEnd : Bool) (p : Pool) (buf time : Int) : Option (Pool × List Bool) := do
  let length := (miiPacketGetLength p buf).toNat
  let wordCount := length / 4
  let tailByteCount := length % 4
  let dptr := miiPacketGetDataPtr buf
  let p := if atEnd then p else miiPacketSetTimestamp p buf time
  let word := wordAt p dptr
  let t ← sendWords p wordCount (wordCount + 1) 1
    ⟨dptr + 1, crc32 0#32 (~~~ word), preamble ++ lsbFirst word⟩
  let p := if atEnd then miiPacketSetTimestamp p buf time else p
  let (tail, crc) := sendTail tailByteCount t.crc (wordAt p t.dptr)
  let crc := crc32 crc (BitVec.allOnes 32)
  some (p, t.out ++ tail ++ lsbFirst crc)

section
variable {p : Pool} {q : List Pkt} {r : Ring} {vr vw v w : Nat} {k : Pkt}

theorem sendTailBits (n : Nat) (crc word : BitVec 32) (small : n ≤ 4) :
    sendTail n crc word =
      ((lsbFirst word).take (8 * n), shiftAll poly crc ((lsbFirst word).take (8 * n))) := by
  induction n generalizing crc word with
  | zero => simp [sendTail, shiftAll]
  | succ n ih =>
    have parts : (lsbFirst word).take (8 * (n + 1)) =
        (lsbFirst word).take 8 ++ (lsbFirst (word >>> 8)).take (8 * n) := by
      rw [← lsbFirstSplit word (by omega), Nat.mul_succ, Nat.add_comm]
    simp only [sendTail, crc8shr, ih _ _ (by omega : n ≤ 4), parts, shiftAllAppend]

theorem slotWord (slot : Slot r p.info p.mem v w k) {i : Nat} (h : i < k.data.length) :
    wordAt p (r.place (v + 12 + i)) = BitVec.ofInt 32 k.data[i] := by
  rw [wordAt, slot.data i h]

theorem sendWordsSlot (h : Rep p q r vr vw) (slot : Slot r p.info p.mem v w k) (wordCount : Nat)
    (held : wordCount ≤ k.data.length) (fuel i : Nat) (more : i < wordCount) (enough : wordCount ≤ i + fuel)
    (crc : BitVec 32) (out : List Bool) :
    sendWords p wordCount fuel i ⟨r.place (v + 12 + i), crc, out⟩ =
      let sent := bits (((k.data.take wordCount).drop i).map (BitVec.ofInt 32))
      some ⟨r.place (v + 12 + wordCount), shiftAll poly crc sent, out ++ sent⟩ := by
  induction fuel generalizing i crc out with
  | zero => omega
  | succ fuel ih =>
    have here : (k.data.take wordCount).drop i = k.data[i] :: (k.data.take wordCount).drop (i + 1) := by
      rw [List.drop_eq_getElem_cons (by simp; omega), List.getElem_take]
    have moved : sendWord p ⟨r.place (v + 12 + i), crc, out⟩ =
        ⟨r.place (v + 12 + (i + 1)), crc32 crc (BitVec.ofInt 32 k.data[i]),
          out ++ lsbFirst (BitVec.ofInt 32 k.data[i])⟩ := by
      simp only [sendWord, slotWord slot (i := i) (by omega), nextDataPtrRep h]
      rw [Nat.add_assoc (v + 12)]
    simp only [sendWords, moved]
    split
    · rename_i again
      rw [ih _ again (by omega)]
      simp only [here, List.map_cons, bitsCons, shiftAllAppend, crc32, List.append_assoc]
    · have full : i + 1 = wordCount := by omega
      simp [here, full, crc32]

theorem crcSent (word : BitVec 32) (rest : List Bool) :
    crc32 (shiftAll poly (crc32 0#32 (~~~ word)) rest) (BitVec.allOnes 32) =
      checksum poly (lsbFirst word ++ rest) := by
  rw [checksumSeed (by decide) seedShifts, shiftAllAppend, seedWord seedShifts, crc32, flushOnes, crc32]

theorem timestampWord (h : Rep p q r vr vw) (slot : Slot r p.info p.mem v w k) (lo : vr ≤ v)
    (hi : w ≤ vw) {i : Nat} (inside : i < k.data.length) (time : Int) :
    wordAt (miiPacketSetTimestamp p k.buf time) (r.place (v + 12 + i)) =
      wordAt p (r.place (v + 12 + i)) := by
  have size := slot.size
  have span := h.span
  have addr : k.buf + (Field.timestamp.offset : Int) = r.place (v + 3) := by
    rw [slot.buf, repSlotPlace slot (i := 3) (by omega)]
    simp only [Field.offset]; omega
  have ne : r.place (v + 12 + i) ≠ r.place (v + 3) :=
    r.placeNe (a := vr) ⟨by omega, by omega⟩ ⟨by omega, by omega⟩ (by omega)
  rw [wordAt, wordAt, miiPacketSetTimestamp, setField, addr]
  exact congrArg (BitVec.ofInt 32) (storeOther ne)

theorem transmitSlot (h : Rep p q r vr vw) (slot : Slot r p.info p.mem v w k)
    (final : BitVec 32) (frame : List (BitVec 8)) (long : 14 ≤ frame.length)
    (held : (bytes (k.data.map (BitVec.ofInt 32))).take frame.length = frame)
    (same : ∀ b : frame.length / 4 < k.data.length, final = BitVec.ofInt 32 k.data[frame.length / 4]) :
    ∃ t, sendWords p (frame.length / 4) (frame.length / 4 + 1) 1 ⟨miiPacketGetDataPtr k.buf + 1,
        crc32 0#32 (~~~ wordAt p (miiPacketGetDataPtr k.buf)),
        preamble ++ lsbFirst (wordAt p (miiPacketGetDataPtr k.buf))⟩ = some t ∧
      t.dptr = r.place (v + 12 + frame.length / 4) ∧
      t.out ++ (sendTail (frame.length % 4) t.crc final).1 ++
        lsbFirst (crc32 (sendTail (frame.length % 4) t.crc final).2 (BitVec.allOnes 32)) =
        preamble ++ wireFrame frame := by
  have capacity : frame.length ≤ 4 * k.data.length := by
    have total := congrArg List.length held
    rw [List.length_take, bytesLength, List.length_map] at total
    omega
  have first : miiPacketGetDataPtr k.buf = r.place (v + 12) := by
    rw [miiPacketGetDataPtr, slot.buf, repSlotPlace slot (i := 12) (by omega), bufDataOffset]
    push_cast; omega
  have second : miiPacketGetDataPtr k.buf + 1 = r.place (v + 12 + 1) := by
    rw [first, repSlotPlace slot (i := 12) (by omega), Nat.add_assoc,
      repSlotPlace slot (i := 12 + 1) (by omega)]
    push_cast; omega
  have word : wordAt p (miiPacketGetDataPtr k.buf) = BitVec.ofInt 32 k.data[0] := by
    rw [first]; exact slotWord slot (i := 0) (by omega)
  have words := sendWordsSlot h slot (frame.length / 4) (by omega)
    (frame.length / 4 + 1) 1 (by omega) (by omega)
  rw [word, second, words]
  have start : bits ((k.data.map (BitVec.ofInt 32)).take (frame.length / 4)) =
      lsbFirst (BitVec.ofInt 32 k.data[0]) ++
        bits (((k.data.take (frame.length / 4)).drop 1).map (BitVec.ofInt 32)) := by
    have parts : k.data.take (frame.length / 4) = k.data[0] :: (k.data.take (frame.length / 4)).drop 1 := by
      have cut := List.drop_eq_getElem_cons (l := k.data.take (frame.length / 4)) (i := 0) (by simp; omega)
      rw [List.getElem_take] at cut
      simpa using cut
    rw [← List.map_take, parts, List.map_cons, bitsCons]
    rfl
  have last : (((k.data.map (BitVec.ofInt 32))[frame.length / 4]?.map lsbFirst).getD []).take
      (8 * (frame.length % 4)) = (lsbFirst final).take (8 * (frame.length % 4)) := by
    by_cases b : frame.length / 4 < k.data.length
    · rw [same b, List.getElem?_map, List.getElem?_eq_getElem b]
      rfl
    · have none : frame.length % 4 = 0 := by omega
      simp [none]
  have whole := bitsOfBytes (k.data.map (BitVec.ofInt 32)) frame.length
  rw [held, start, last] at whole
  refine ⟨_, rfl, rfl, ?_⟩
  rw [sendTailBits _ _ _ (by omega), ← shiftAllAppend, crcSent, wireFrame, frameCheck, whole]
  simp only [List.append_assoc]

theorem transmitQueued (h : Rep p q r vr vw) (member : k ∈ q) (atEnd : Bool) (time : Int)
    (frame : List (BitVec 8)) (long : 14 ≤ frame.length) (length : k.header .length = frame.length)
    (held : (bytes (k.data.map (BitVec.ofInt 32))).take frame.length = frame) :
    (miiTransmitPacket atEnd p k.buf time).map Prod.snd = some (preamble ++ wireFrame frame) := by
  have stored : (miiPacketGetLength p k.buf).toNat = frame.length := by
    rw [miiPacketGetLength, (repIntact h member).1, length]; rfl
  obtain ⟨pre, post, rfl⟩ := List.append_of_mem member
  obtain ⟨v, w, left, slot, right⟩ := chainSlot h.chain
  have lo := chainLe left
  have hi := chainLe right
  cases atEnd with
  | true =>
    obtain ⟨t, sent, dptr, out⟩ := transmitSlot h slot
      (wordAt (miiPacketSetTimestamp p k.buf time) (r.place (v + 12 + frame.length / 4))) frame long held
      (fun b => by rw [timestampWord h slot lo hi b, slotWord slot b])
    simp only [miiTransmitPacket, stored, if_true, sent, Option.bind_eq_bind, Option.bind_some, dptr,
      Option.map_some, out]
  | false =>
    obtain ⟨rep, -⟩ := setFieldRep h member .timestamp time
    rw [onBufSlot h.chain h.span] at rep
    obtain ⟨v', w', -, slot', -⟩ := chainSlot rep.chain
    obtain ⟨t, sent, dptr, out⟩ := transmitSlot rep slot'
      (wordAt (setField .timestamp p k.buf time) (r.place (v' + 12 + frame.length / 4))) frame long held
      (fun b => slotWord slot' b)
    have same : (setHeader .timestamp time k).buf = k.buf := rfl
    have set : miiPacketSetTimestamp p k.buf time = setField .timestamp p k.buf time := rfl
    rw [same] at sent
    simp only [miiTransmitPacket, stored, Bool.false_eq_true, if_false, Option.bind_eq_bind, set, sent,
      Option.bind_some, dptr, Option.map_some, out]

end

end ScEthernet.Full.Transmit
