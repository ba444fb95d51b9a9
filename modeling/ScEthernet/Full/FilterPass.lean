import ScEthernet.Receivers
import ScEthernet.Full.FreeOrder
import Mathlib.Algebra.Group.Nat.Defs

/-! ethernet_filter with one master port and the CRC check on: what a pass stores into the header of a buffer
and which statistics it counts. The tail bytes of a packet lie where the receiver will put the next link, so a
pass is done before the next commit; the timing commands of the source require the loop to take less than the
shortest frame. Until `stage` is 1 no other task touches the packet. -/
namespace ScEthernet.Full.FilterPass
open Lib.WordMemory Lib.UnrolledRing Lib.BitOrder Lib.ShiftCrc Lib.Runs Wire Malloc PoolQueue FreeOrder RxPins RxFilter
open Receivers (Checked checkedIff)

structure Counts where
  address : BitVec 32
  filter : BitVec 32
  length : BitVec 32
  crc : BitVec 32
  deriving DecidableEq

structure Config where
  macAddress : Fin 6 → BitVec 8
  /- ETHERNET_FILTER_ENABLE_USER_DATA -/
  userData : Bool
  /- The application's filter: the result and what it puts into user_data. -/
  macCustomFilter : (Nat → BitVec 32) → BitVec 32 × BitVec 32

def Config.mac0 (g : Config) : BitVec 32 :=
  (g.macAddress 0).setWidth 32 + (g.macAddress 1).setWidth 32 <<< 8 + (g.macAddress 2).setWidth 32 <<< 16 +
    (g.macAddress 3).setWidth 32 <<< 24
def Config.mac1 (g : Config) : BitVec 32 := (g.macAddress 4).setWidth 32 + (g.macAddress 5).setWidth 32 <<< 8

def getData (p : Pool) (buf n : Int) : BitVec 32 := BitVec.ofInt 32 (miiPacketGetData p buf n)

def isBroadcast (p : Pool) (buf : Int) : Prop := getData p buf 0 &&& 1#32 ≠ 0#32
instance (p buf) : Decidable (isBroadcast p buf) := by unfold isBroadcast; infer_instance

def compareMac (g : Config) (p : Pool) (buf : Int) : Prop :=
  getData p buf 0 = g.mac0 ∧ (getData p buf 1).setWidth 16 = g.mac1.setWidth 16
instance (g p buf) : Decidable (compareMac g p buf) := by unfold compareMac; infer_instance

/- The filter gets the plain pointer `buf->data`. -/
def coerced (p : Pool) (buf : Int) : Nat → BitVec 32 := fun i => BitVec.ofInt 32 (p.mem (miiPacketGetDataPtr buf + i))

def macCustomFilterCoerce (g : Config) (p : Pool) (buf : Int) : BitVec 32 × BitVec 32 := g.macCustomFilter (coerced p buf)

def ethernetFilterPass (g : Config) (ifnum : Int) (p : Pool) (buf : Int) (c : Counts) : Pool × Counts :=
  if buf = 0 then (p, c) else
  let verdict := ethernetFilter p buf
  let p := setField .srcPort p buf ifnum
  match verdict with
  | .filteredByLength => (miiPacketSetStage (setField .filterResult p buf 0) buf 1, { c with length := c.length + 1 })
  | .filteredByBadCrc => (miiPacketSetStage (setField .filterResult p buf 0) buf 1, { c with crc := c.crc + 1 })
  | .filter =>
    let (filterResult, userData) :=
      if isBroadcast p buf ∨ compareMac g p buf then macCustomFilterCoerce g p buf else (0#32, 0#32)
    let c :=
      if isBroadcast p buf ∨ compareMac g p buf then
        if filterResult = 0 then { c with filter := c.filter + 1 } else c
      else { c with address := c.address + 1 }
    let p := miiPacketSetTimestampId p buf 0
    let p := if g.userData then setField .userData p buf userData.toInt else p
    let p := setField .filterResult p buf filterResult.toInt
    (miiPacketSetStage p buf 1, c)

/-! What a pass is to do. -/

/- The bytes in the buffer, with the FCS. -/
def contents (p : Pool) (buf : Int) : List (BitVec 8) :=
  let size := (miiPacketGetLength p buf).toNat + 4
  (bytes ((readWords p ((size + 3) / 4) (miiPacketGetDataPtr buf)).map (BitVec.ofInt 32))).take size

def Addressed (g : Config) (frame : List (BitVec 8)) : Prop :=
  (frame.headD 0).getLsbD 0 = true ∨ frame.take 6 = List.ofFn g.macAddress
instance (g frame) : Decidable (Addressed g frame) := by unfold Addressed; infer_instance

def Wanted (g : Config) (frame : List (BitVec 8)) : Prop :=
  60 ≤ frame.length - 4 ∧ Checked frame ∧ Addressed g frame
instance (g frame) : Decidable (Wanted g frame) := by unfold Wanted; infer_instance

def counted (g : Config) (frame : List (BitVec 8)) (result : Int) (c : Counts) : Counts :=
  if result ≠ 0 then c
  else if frame.length - 4 < 60 then { c with length := c.length + 1 }
  else if ¬ Checked frame then { c with crc := c.crc + 1 }
  else if ¬ Addressed g frame then { c with address := c.address + 1 }
  else { c with filter := c.filter + 1 }

structure Decided (g : Config) (p : Pool) (buf : Int) (frame : List (BitVec 8)) (c : Counts) (p' : Pool) (c' : Counts) : Prop where
  stage : miiPacketGetStage p' buf = 1
  result : getField .filterResult p' buf = if Wanted g frame then (g.macCustomFilter (coerced p buf)).1.toInt else 0
  counts : c' = counted g frame (getField .filterResult p' buf) c

/-! One pass on a committed packet. -/

section pass
variable {p : Pool} {r : Ring} {v n : Nat} {buf : Int}

theorem getDataPlace (start : p.start = r.base) (stop : p.stop = r.limit) (header : buf = r.place v + 2)
    (inside : 12 + n < r.size) :
    miiPacketGetData p buf n = p.mem (r.place (v + 12 + n)) := by
  have gap := r.placeGap (v := v) (w := v + 12 + n) (by omega) (by omega)
  have lower := r.placeLower (v + 12 + n)
  have upper := r.placeUpper (v + 12 + n)
  rw [miiPacketGetData, header, start, stop, bufDataOffset]
  congr 1
  unfold Ring.limit at *
  push_cast at gap
  split <;> omega

end pass

/-! The last packet of the queue, and the word behind its data, until the next commit. -/

def touches (buf : Int) : RxPins.Event → Bool
  | .set other _ _ => decide (other = buf)
  | .free other => decide (other = buf)
  | .commit => true
  | _ => false

section last
variable {forwards : Bool} {s t : RxPins.State} {e : RxPins.Event} {p : Pool} {r : Ring} {vr vw : Nat} {pre : List Pkt} {k : Pkt}

theorem lastSlot (h : Rep p (pre ++ [k]) r vr vw) :
    ∃ v, Chain r p.info p.mem vr pre v ∧ Slot r p.info p.mem v vw k := by
  obtain ⟨v, w, left, slot, right⟩ := chainSlot h.chain
  cases right
  exact ⟨v, left, slot⟩

theorem lastData (h : Rep p (pre ++ [k]) r vr vw) : ∃ v, vr ≤ v ∧ v + 12 + k.data.length ≤ vw ∧ k.buf = r.place v + 2 ∧
    (∀ n : Nat, n ≤ k.data.length → miiPacketGetData p k.buf n = p.mem (r.place (v + 12 + n))) ∧
    (∀ k' ∈ pre ++ [k], ∃ y, vr ≤ y ∧ y ≤ v ∧ linkOf k' = r.place y) ∧
    ∀ k' ∈ pre, ∀ f : Field, ∃ y, vr ≤ y ∧ y < v ∧ k'.buf + f.offset = r.place y := by
  obtain ⟨v, left, slot⟩ := lastSlot h
  have size := slot.size
  have lo := chainLe left
  have span := h.span
  refine ⟨v, lo, size, slot.buf, fun n small => getDataPlace h.start h.stop slot.buf (by omega), ?_, ?_⟩
  · intro k' member
    rcases List.mem_append.mp member with early | last
    · obtain ⟨y, a, b, place⟩ := (chainOtherSlot left (by omega)).2 k' early
      exact ⟨y, a, by omega, place⟩
    · rw [List.mem_singleton.mp last]
      exact ⟨v, lo, Nat.le_refl _, by rw [linkOf, slot.buf]; simp [mallocHdrSize]⟩
  · intro k' member f
    obtain ⟨before, after, rfl⟩ := List.append_of_mem member
    obtain ⟨y, w, first, mine, rest⟩ := chainSlot left
    have bound := offsetBound f
    have room := mine.size
    have low := chainLe first
    have high := chainLe rest
    refine ⟨y + (2 + f.offset), by omega, by omega, ?_⟩
    rw [repSlotPlace mine (by omega), mine.buf]
    push_cast; omega

theorem onBufLast {b : Int} (f : Pkt → Pkt) (ne : b ≠ k.buf) : onBuf b f (pre ++ [k]) = onBuf b f pre ++ [k] := by
  rw [onBufAppend]
  simp only [onBuf, List.map_cons, List.map_nil, if_neg (Ne.symm ne)]

theorem freeLast {b : Int} (live : k.freed = false) (ne : b ≠ k.buf) :
    free b (pre ++ [k]) = reclaim (onBuf b markFreed pre) ++ [k] := by
  rw [free, onBufLast _ ne]
  exact reclaimAppend (fun k1 member => by rw [List.mem_singleton.mp member]; exact live)

theorem freeOther {k' : Pkt} {p' : Pool} {a : Int} (rep : Rep p (pre ++ [k]) r vr vw) (settled : Settled (pre ++ [k]))
    (member : k' ∈ pre ++ [k]) (alive : k'.freed = false) (returns : miiFree p k'.buf = some p')
    (away : ∀ k1 ∈ pre ++ [k], a ≠ linkOf k1) : p'.mem a = p.mem a := by
  obtain ⟨q, post, split⟩ := List.append_of_mem member
  rw [split] at rep settled away
  obtain ⟨p1, vr1, exact_, -, -, -, -, mem⟩ := miiFreeExact rep settled alive
  obtain rfl : p' = p1 := Option.some.inj (returns.symm.trans exact_)
  rw [mem]
  split
  · rw [clearReads, if_neg]
    intro again
    obtain ⟨k1, inside, same⟩ := List.mem_map.mp again
    refine away k1 ?_ same.symm
    rcases List.mem_cons.mp inside with rfl | later
    · simp
    · simp [List.takeWhile_subset _ later]
  · exact storeOther (away k' (by simp))

/- Until the next commit nobody stores to the word behind the data. -/
theorem lastKept (h : Ringed s r vr vw) (last : s.queue = pre ++ [k]) (live : k.freed = false)
    (other : touches k.buf e = false) (taken : RxPins.step forwards s e = some t) :
    (∃ pre', t.queue = pre' ++ [k]) ∧
      miiPacketGetData t.pool k.buf k.data.length = miiPacketGetData s.pool k.buf k.data.length := by
  have rep := h.rep
  rw [last] at rep
  obtain ⟨v, lo, size, buf, data, links, bufs⟩ := lastData rep
  have span := rep.span
  obtain ⟨vr', vw', le, -, next⟩ := stepAdvances h taken
  have word : ∀ {p : Pool}, p.start = r.base → p.stop = r.limit → p.mem (r.place (v + 12 + k.data.length)) =
      s.pool.mem (r.place (v + 12 + k.data.length)) →
      miiPacketGetData p k.buf k.data.length = miiPacketGetData s.pool k.buf k.data.length := by
    intro p start stop same
    rw [getDataPlace start stop buf (by omega), same, data _ (Nat.le_refl _)]
  have apart : ∀ y, vr ≤ y → y < vr + r.size → y ≠ v + 12 + k.data.length →
      r.place (v + 12 + k.data.length) ≠ r.place y := fun y a b ne =>
    r.placeNe (a := vr) ⟨by omega, by omega⟩ ⟨a, b⟩ (Ne.symm ne)
  cases stepCases taken with
  | @set k' f x member =>
    have ne : k'.buf ≠ k.buf := by simpa [touches] using other
    rw [last] at member ⊢
    have early : k' ∈ pre := by
      rcases List.mem_append.mp member with early | itself
      · exact early
      · rw [List.mem_singleton.mp itself] at ne
        exact absurd rfl ne
    obtain ⟨y, a, b, place⟩ := bufs k' early f
    refine ⟨⟨onBuf k'.buf (setHeader f x) pre, onBufLast _ ne⟩, word next.rep.start next.rep.stop ?_⟩
    simp only [setField]
    rw [place]
    exact storeOther (apart y (by omega) (by omega) (by omega))
  | @free k' p' member alive returns =>
    have ne : k'.buf ≠ k.buf := by simpa [touches] using other
    have settled := h.settled
    rw [last] at member settled
    refine ⟨⟨reclaim (onBuf k'.buf markFreed pre), ?_⟩, word next.rep.start next.rep.stop ?_⟩
    · rw [last]
      exact freeLast live ne
    · refine freeOther rep settled member alive returns fun k1 inside => ?_
      obtain ⟨y, a, b, place⟩ := links k1 inside
      rw [place]
      exact apart y a (by omega) (by omega)
  | refused | commit => cases other
  | _ =>
    have mem := stepWrites h taken (by simp) (by simp)
    refine ⟨?_, word next.rep.start next.rep.stop ?_⟩
    · rcases stepQueue h taken with ⟨queue, -⟩ | ⟨_, same, -⟩ | ⟨_, _, _, same, -⟩ | ⟨_, same, -⟩
      · exact ⟨pre, queue.trans last⟩
      all_goals cases same
    · refine (congrFun mem _).trans (storeAllOther fun st member => ?_)
      obtain ⟨x, -, above, below, place⟩ := storesPlaced h st member
      have past := above (by simp)
      rw [place]
      exact apart x (by omega) below (by omega)

end last
/-! A pass on the last packet. -/

/- The words of the packet and the bytes behind them are the frame, and the header is as mii_rx_pins leaves it. -/
structure Framed (k : Pkt) (tail : BitVec 32) (n : Nat) (frame : List (BitVec 8)) : Prop where
  six : 6 ≤ k.data.length
  small : n < 4
  length : k.header .length = 4 * k.data.length + n - 4
  crc : k.header .crc = ((k.data.map (BitVec.ofInt 32)).foldl crc32 seed).toInt
  frame : frame = bytes (k.data.map (BitVec.ofInt 32)) ++ (bytesOf tail).take n

section framed
variable {p : Pool} {r : Ring} {vr vw n : Nat} {pre : List Pkt} {k : Pkt} {tail : BitVec 32} {frame : List (BitVec 8)}

theorem framedLength (framed : Framed k tail n frame) : frame.length = 4 * k.data.length + n := by
  have small := framed.small
  rw [framed.frame, List.length_append, bytesLength, List.length_map, List.length_take]
  simp only [bytesOf, List.length_cons, List.length_nil]
  omega

theorem framedBits (framed : Framed k tail n frame) :
    bits frame = bits (k.data.map (BitVec.ofInt 32)) ++ (lsbFirst tail).take (8 * n) := by
  rw [framed.frame, bitsAppend, bitsBytes, bitsTake, bitsBytesOf]

theorem framedField (h : Rep p (pre ++ [k]) r vr vw) (f : Field) : getField f p k.buf = k.header f :=
  (repIntact h (List.mem_append_right pre (List.mem_singleton.mpr rfl))).1 f

theorem crcGoodIff (h : Rep p (pre ++ [k]) r vr vw) (framed : Framed k tail n frame)
    (behind : getData p k.buf k.data.length = tail) : CrcGood p k.buf ↔ Checked frame := by
  have six := framed.six
  have small := framed.small
  have length := framed.length
  have total := framedLength framed
  have index : miiPacketGetLength p k.buf / 4 * 4 / 4 + 1 = k.data.length := by
    rw [miiPacketGetLength, framedField h, length]; omega
  have count : (miiPacketGetLength p k.buf % 4).toNat = n := by
    rw [miiPacketGetLength, framedField h, length]; omega
  have value : filterCRC p k.buf = shiftAll poly seed (bits frame) := by
    rw [getData] at behind
    simp only [filterCRC]
    rw [index, count, behind, framedField h, framed.crc, BitVec.ofInt_toInt, endCRCBits n small, foldCRC, framedBits framed,
      shiftAllAppend]
  rw [← checkedIff (by omega), ← value, CrcGood, ← BitVec.not_allOnes, BitVec.not_inj]

theorem framedWords (h : Rep p (pre ++ [k]) r vr vw) (behind : getData p k.buf k.data.length = tail) :
    (readWords p (k.data.length + 1) (miiPacketGetDataPtr k.buf)).map (BitVec.ofInt 32) = k.data.map (BitVec.ofInt 32) ++ [tail] := by
  obtain ⟨v, left, slot⟩ := lastSlot h
  have size := slot.size
  have lo := chainLe left
  have span := h.span
  have ptr : miiPacketGetDataPtr k.buf = r.place (v + 12) := by
    rw [repSlotPlace slot (i := 12) (by omega), miiPacketGetDataPtr, slot.buf, bufDataOffset]
    push_cast; omega
  rw [getData, getDataPlace h.start h.stop slot.buf (by omega)] at behind
  rw [ptr, readWordsRep h, List.map_map]
  refine List.ext_getElem (by simp) fun i a b => ?_
  rw [List.getElem_map, List.getElem_range, List.getElem_append]
  split
  · rename_i inside
    rw [List.getElem_map]
    exact congrArg (BitVec.ofInt 32) (slot.data i (by simpa using inside))
  · rename_i last
    have same : i = k.data.length := by
      rw [List.length_map] at last
      rw [List.length_append, List.length_map, List.length_singleton] at b
      omega
    subst same
    simpa using behind

theorem contentsFramed (h : Rep p (pre ++ [k]) r vr vw) (framed : Framed k tail n frame)
    (behind : getData p k.buf k.data.length = tail) : contents p k.buf = frame := by
  have six := framed.six
  have small := framed.small
  have length := framed.length
  have size : (miiPacketGetLength p k.buf).toNat + 4 = 4 * k.data.length + n := by
    rw [miiPacketGetLength, framedField h, length]; omega
  have whole : (bytes (k.data.map (BitVec.ofInt 32))).length = 4 * k.data.length := by rw [bytesLength, List.length_map]
  have parts : bytes (k.data.map (BitVec.ofInt 32) ++ [tail]) = bytes (k.data.map (BitVec.ofInt 32)) ++ bytesOf tail := by
    simp [bytes]
  simp only [contents]
  rw [size, Receivers.readWordsTake p (n := k.data.length + 1) (by omega), List.map_take, framedWords h behind, bytesTake,
    List.take_take, Nat.min_eq_left (by omega), parts, ← whole, List.take_length_add_append, framed.frame]

theorem dataWord (h : Rep p (pre ++ [k]) r vr vw) {i : Nat} (inside : i < k.data.length) :
    getData p k.buf i = BitVec.ofInt 32 k.data[i] := by
  obtain ⟨v, left, slot⟩ := lastSlot h
  have size := slot.size
  have lo := chainLe left
  have span := h.span
  rw [getData, getDataPlace h.start h.stop slot.buf (by omega), slot.data i inside]

theorem firstWords (h : Rep p (pre ++ [k]) r vr vw) (framed : Framed k tail n frame) :
    ∃ rest, frame = bytesOf (getData p k.buf 0) ++ bytesOf (getData p k.buf 1) ++ rest := by
  have six := framed.six
  have first : getData p k.buf 0 = BitVec.ofInt 32 k.data[0] := dataWord (i := 0) h (by omega)
  have second : getData p k.buf 1 = BitVec.ofInt 32 k.data[1] := dataWord (i := 1) h (by omega)
  rw [framed.frame]
  cases data : k.data with
  | nil => rw [data] at six; simp at six
  | cons x xs =>
    cases xs with
    | nil => rw [data] at six; simp at six
    | cons y ys =>
      simp only [data, List.getElem_cons_zero, List.getElem_cons_succ] at first second
      rw [first, second]
      exact ⟨bytes (ys.map (BitVec.ofInt 32)) ++ (bytesOf tail).take n, by simp [bytes]⟩

theorem broadcastIff (w0 w1 : BitVec 32) (rest : List (BitVec 8)) :
    w0 &&& 1#32 ≠ 0#32 ↔ ((bytesOf w0 ++ bytesOf w1 ++ rest).headD 0).getLsbD 0 = true := by
  have head : ((bytesOf w0 ++ bytesOf w1 ++ rest).headD 0) = w0.extractLsb' 0 8 := rfl
  rw [head, BitVec.getLsbD_extractLsb']
  have one : w0 &&& 1#32 = 0#32 ↔ w0.getLsbD 0 = false := by
    constructor
    · intro none
      have bit := congrArg (fun x => x.getLsbD 0) none
      simpa using bit
    · intro low
      refine BitVec.eq_of_getLsbD_eq fun i bound => ?_
      rw [BitVec.getLsbD_and, BitVec.getLsbD_one]
      by_cases zero : i = 0
      · subst zero
        rw [low]; simp
      · simp [zero]
  rw [ne_eq, one]
  simp

theorem appendValue {m n : Nat} (x : BitVec m) (y : BitVec n) : (x ++ y).toNat = x.toNat * 2 ^ n + y.toNat := by
  rw [BitVec.toNat_append, ← Nat.shiftLeft_add_eq_or_of_lt y.isLt, Nat.shiftLeft_eq]

theorem firstWordIff (w : BitVec 32) (a b c d : BitVec 8) :
    w = a.setWidth 32 + b.setWidth 32 <<< 8 + c.setWidth 32 <<< 16 + d.setWidth 32 <<< 24 ↔
      w.extractLsb' 0 8 = a ∧ w.extractLsb' 8 8 = b ∧ w.extractLsb' 16 8 = c ∧ w.extractLsb' 24 8 = d := by
  have packed : a.setWidth 32 + b.setWidth 32 <<< 8 + c.setWidth 32 <<< 16 + d.setWidth 32 <<< 24 = d ++ c ++ b ++ a := by
    have ba := a.isLt
    have bb := b.isLt
    have bc := c.isLt
    have bd := d.isLt
    refine BitVec.eq_of_toNat_eq ?_
    simp only [BitVec.toNat_add, BitVec.toNat_shiftLeft, BitVec.toNat_setWidth, Nat.shiftLeft_eq, appendValue]
    omega
  rw [packed]
  constructor
  · rintro rfl
    have parts := bytesOfPacked a b c d
    simpa only [bytesOf, List.cons.injEq, and_true] using parts
  · rintro ⟨rfl, rfl, rfl, rfl⟩
    exact (packedBytes w).symm

theorem secondWordIff (w : BitVec 32) (a b : BitVec 8) :
    w.setWidth 16 = (a.setWidth 32 + b.setWidth 32 <<< 8).setWidth 16 ↔ w.extractLsb' 0 8 = a ∧ w.extractLsb' 8 8 = b := by
  have ba := a.isLt
  have bb := b.isLt
  simp only [← BitVec.toNat_inj, BitVec.extractLsb'_toNat, BitVec.toNat_setWidth, BitVec.toNat_add, BitVec.toNat_shiftLeft,
    Nat.shiftLeft_eq, Nat.shiftRight_eq_div_pow]
  omega

theorem macIff (g : Config) (w0 w1 : BitVec 32) (rest : List (BitVec 8)) :
    (w0 = g.mac0 ∧ w1.setWidth 16 = g.mac1.setWidth 16) ↔
      (bytesOf w0 ++ bytesOf w1 ++ rest).take 6 = List.ofFn g.macAddress := by
  have six : (bytesOf w0 ++ bytesOf w1 ++ rest).take 6 = [w0.extractLsb' 0 8, w0.extractLsb' 8 8, w0.extractLsb' 16 8,
      w0.extractLsb' 24 8, w1.extractLsb' 0 8, w1.extractLsb' 8 8] := rfl
  have mac : List.ofFn g.macAddress = [g.macAddress 0, g.macAddress 1, g.macAddress 2, g.macAddress 3, g.macAddress 4,
      g.macAddress 5] := by simp [List.ofFn_succ]
  rw [six, mac, Config.mac0, Config.mac1, firstWordIff, secondWordIff]
  simp only [List.cons.injEq, and_true, and_assoc]

theorem coercedHeader (f : Field) (p : Pool) (buf x : Int) : coerced (setField f p buf x) buf = coerced p buf := by
  funext i
  have bound := offsetBound f
  simp only [coerced, setField, miiPacketGetDataPtr, bufDataOffset]
  rw [storeOther (by omega)]

theorem listensIff (g : Config) (ifnum : Int) (h : Rep p (pre ++ [k]) r vr vw) (framed : Framed k tail n frame) :
    (isBroadcast (setField .srcPort p k.buf ifnum) k.buf ∨ compareMac g (setField .srcPort p k.buf ifnum) k.buf) ↔
      Addressed g frame := by
  have framed' : Framed (setHeader .srcPort ifnum k) tail n frame := ⟨framed.six, framed.small, framed.length, framed.crc, framed.frame⟩
  obtain ⟨rest, words⟩ := firstWords (setFieldLast h .srcPort ifnum) framed'
  rw [Addressed, words, ← macIff, ← broadcastIff]
  rfl

theorem passDecides (g : Config) (ifnum : Int) (h : Rep p (pre ++ [k]) r vr vw) (framed : Framed k tail n frame)
    (behind : getData p k.buf k.data.length = tail) (c : Counts) :
    Decided g p k.buf frame c (ethernetFilterPass g ifnum p k.buf c).1 (ethernetFilterPass g ifnum p k.buf c).2 := by
  have six := framed.six
  have total := framedLength framed
  have length : miiPacketGetLength p k.buf < 60 ↔ frame.length - 4 < 60 := by
    rw [miiPacketGetLength, framedField h, framed.length]; omega
  have good := crcGoodIff h framed behind
  have listens := listensIff g ifnum h framed
  obtain ⟨v, -, -, place, -⟩ := lastData h
  have positive := placePositive h v
  have some : k.buf ≠ 0 := by omega
  have array := coercedHeader .srcPort p k.buf ifnum
  by_cases short : frame.length - 4 < 60
  · have verdict : ethernetFilter p k.buf = .filteredByLength := if_pos (length.mpr short)
    have unwanted : ¬ Wanted g frame := fun wanted => by have := wanted.1; omega
    simp only [ethernetFilterPass, if_neg some, verdict]
    refine ⟨by simp [miiPacketGetStage, miiPacketSetStage], ?_, ?_⟩
    · rw [if_neg unwanted]
      simp [miiPacketSetStage]
    · simp [miiPacketSetStage, counted, if_pos short]
  · by_cases checked : Checked frame
    · have verdict : ethernetFilter p k.buf = .filter := by
        rw [ethernetFilter, if_neg (length.not.mpr short), if_neg (by rw [good]; exact not_not.mpr checked)]
      have enough : 60 ≤ frame.length - 4 := by omega
      have result : ∀ (p : Pool) (x : BitVec 32) (user : BitVec 32), getField .filterResult (miiPacketSetStage (setField .filterResult
          (if g.userData then setField .userData p k.buf user.toInt else p) k.buf x.toInt) k.buf 1) k.buf = x.toInt := by
        intro p x user
        simp [miiPacketSetStage]
      have stage : ∀ (p : Pool) (x : BitVec 32) (user : BitVec 32), miiPacketGetStage (miiPacketSetStage (setField .filterResult
          (if g.userData then setField .userData p k.buf user.toInt else p) k.buf x.toInt) k.buf 1) k.buf = 1 := by
        intro p x user
        simp [miiPacketSetStage, miiPacketGetStage]
      simp only [ethernetFilterPass, if_neg some, verdict]
      by_cases addressed : Addressed g frame
      · have wanted : Wanted g frame := ⟨enough, checked, addressed⟩
        simp only [if_pos (listens.mpr addressed), macCustomFilterCoerce, array]
        refine ⟨stage _ _ _, ?_, ?_⟩
        · rw [result, if_pos wanted]
        · rw [result, counted]
          by_cases zero : (g.macCustomFilter (coerced p k.buf)).1 = 0
          · rw [if_pos zero, zero]
            simp [short, checked, addressed]
          · have nonzero : (g.macCustomFilter (coerced p k.buf)).1.toInt ≠ 0 := by
              rw [ne_eq, ← BitVec.toInt_zero (w := 32), BitVec.toInt_inj]; exact zero
            rw [if_neg zero, if_pos nonzero]
      · have unwanted : ¬ Wanted g frame := fun wanted => addressed wanted.2.2
        simp only [if_neg (listens.not.mpr addressed)]
        refine ⟨stage _ _ _, ?_, ?_⟩
        · rw [result, if_neg unwanted]; rfl
        · rw [result]
          simp [counted, short, checked, addressed]
    · have verdict : ethernetFilter p k.buf = .filteredByBadCrc := by
        rw [ethernetFilter, if_neg (length.not.mpr short), if_pos (good.not.mpr checked)]
      have unwanted : ¬ Wanted g frame := fun wanted => checked wanted.2.1
      simp only [ethernetFilterPass, if_neg some, verdict]
      refine ⟨by simp [miiPacketGetStage, miiPacketSetStage], ?_, ?_⟩
      · rw [if_neg unwanted]
        simp [miiPacketSetStage]
      · simp [miiPacketSetStage, counted, short, checked]

end framed
/-! The receiver with its pools, and the filter behind it. -/

structure State (ι : Type) where
  rx : ι → RxComplete.State
  /- The buffer in the channel to the filter. -/
  pending : Option (ι × Int)
  counts : Counts
  /- History: what was in that buffer at its commit, the words of the frame as the port delivered them and
  whether one found no space, the passes, and those with a result. -/
  frame : List (BitVec 8)
  received : List (BitVec 32)
  lost : Bool
  filtered : Nat
  passed : Nat

inductive Event (ι : Type) where
  | rx (i : ι) (e : RxPins.Event)
  | filter

def commits : RxPins.Event → Bool
  | .commit => true
  | _ => false

section system
variable {ι : Type} [DecidableEq ι]

def initial (mem : ι → Int → Int) (mempool memsize : ι → Nat) : State ι :=
  ⟨fun i => RxComplete.initial (mem i) (mempool i) (memsize i), none, ⟨0, 0, 0, 0⟩, [], [], false, 0, 0⟩

def blocked (pending : Option (ι × Int)) (i : ι) (e : RxPins.Event) : Bool :=
  match pending with
  | none => false
  | some (j, buf) => touches buf e && (decide (i = j) || commits e)

/- The header of `buf` in the queue, read again. -/
def refresh (p : Pool) (buf : Int) (q : List Pkt) : List Pkt :=
  onBuf buf (fun k => { k with header := fun f => getField f p buf }) q

def handed (s t : RxComplete.State) : Option Int := t.rx.sent[s.rx.sent.length]?

def deliver (g : Config) (forwards : Bool) (s : State ι) : Event ι → Option (State ι)
  | .rx i e => (RxComplete.step forwards (s.rx i) e).map fun t =>
    let rx := Function.update s.rx i t
    match handed (s.rx i) t with
    | some buf => { s with rx := rx, pending := some (i, buf), frame := contents t.rx.pool buf
                           received := (s.rx i).received, lost := (s.rx i).missed }
    | none => { s with rx := rx }
  | .filter => s.pending.map fun (i, buf) =>
      let u := (s.rx i).rx
      let (p, c) := ethernetFilterPass g 0 u.pool buf s.counts
      let rx := Function.update s.rx i { s.rx i with rx := { u with pool := p, queue := refresh p buf u.queue } }
      { s with rx := rx, pending := none, counts := c, filtered := s.filtered + 1
               passed := s.passed + if getField .filterResult p buf = 0 then 0 else 1 }

/- The pass on a buffer is over before a receiver commits again: the time that the xta commands of mii_filter.xc leave
for the loop. Until then nobody else stores to that buffer. -/
def InTime (s : State ι) : Event ι → Prop
  | .rx i e => blocked s.pending i e = false
  | .filter => True

instance (s : State ι) : (e : Event ι) → Decidable (InTime s e)
  | .rx i e => inferInstanceAs (Decidable (blocked s.pending i e = false))
  | .filter => inferInstanceAs (Decidable True)

def step (g : Config) (forwards : Bool) (s : State ι) (e : Event ι) : Option (State ι) :=
  if InTime s e then deliver g forwards s e else none

theorem stepIs {g : Config} {forwards : Bool} {s t : State ι} {e : Event ι} :
    step g forwards s e = some t ↔ InTime s e ∧ deliver g forwards s e = some t := by
  unfold step
  split
  · exact ⟨fun taken => ⟨‹_›, taken⟩, And.right⟩
  · rename_i late
    exact ⟨fun none => (by cases none), fun both => absurd both.1 late⟩

theorem stepRx {g : Config} {forwards : Bool} {s : State ι} {i : ι} {e : RxPins.Event} (free : blocked s.pending i e = false) :
    step g forwards s (.rx i e) = deliver g forwards s (.rx i e) :=
  if_pos free

theorem stepFilter {g : Config} {forwards : Bool} {s : State ι} : step g forwards s .filter = deliver g forwards s .filter :=
  if_pos trivial

def Accounted (s : State ι) : Prop :=
  BitVec.ofNat 32 s.filtered =
    s.counts.length + s.counts.crc + s.counts.address + s.counts.filter + BitVec.ofNat 32 s.passed

end system

/-! Invariant. -/

def Tallied (s : RxComplete.State) : Prop :=
  match s.rx.phase with
  | .first f | .loop f _ _ | .port f _ => f.crc = (f.words.map (BitVec.ofInt 32)).foldl crc32 seed
  | .headers f _ _ | .commit f => f.crc = (f.words.map (BitVec.ofInt 32)).foldl crc32 seed ∧ s.leftover < 4
  | _ => True

structure PoolInv (s : RxComplete.State) : Prop where
  ringed : ∃ r vr vw, Ringed s.rx r vr vw
  kept : RxComplete.PhaseKept s
  tallied : Tallied s

/- The last packet of the queue is the frame that was committed. -/
def Held (u : RxPins.State) (buf : Int) (frame : List (BitVec 8)) (received : List (BitVec 32)) (lost : Bool) : Prop :=
  ∃ pre k n, u.queue = pre ++ [k] ∧ k.buf = buf ∧ k.freed = false ∧
    Framed k (getData u.pool k.buf k.data.length) n frame ∧
    k.data.length ≤ received.length ∧ (lost = false → k.data.map (BitVec.ofInt 32) = received)

section inv
variable {forwards : Bool} {s t : RxComplete.State} {e : RxPins.Event} {buf : Int} {frame : List (BitVec 8)}
  {received : List (BitVec 32)} {lost : Bool}

theorem talliedWord {words : List Int} {crc w : BitVec 32} (tallied : crc = (words.map (BitVec.ofInt 32)).foldl crc32 seed) :
    crc32 crc w = ((words ++ [w.toInt]).map (BitVec.ofInt 32)).foldl crc32 seed := by
  simp [tallied]

theorem talliedStep {r : Ring} {vr vw : Nat} (h : Ringed s.rx r vr vw) (tallied : Tallied s)
    (taken : RxComplete.step forwards s e = some t) : Tallied t := by
  obtain ⟨u, moved, rfl⟩ := Option.map_eq_some_iff.mp taken
  unfold Tallied at tallied ⊢
  cases stepCases moved with
  | set f x =>
    have phase := (RxComplete.othersKeep h (.inl ⟨_, f, x, rfl⟩) moved).1
    simp only [RxComplete.observe]
    exact tallied
  | free =>
    have phase := (RxComplete.othersKeep h (.inr ⟨_, rfl⟩) moved).1
    simp only [RxComplete.observe]
    exact tallied
  | early phase | sixth phase | word phase =>
    simp only [phase] at tallied
    exact talliedWord tallied
  | lost _ phase =>
    simp only [RxComplete.observe, phase] at tallied ⊢
    exact tallied
  | port taillen _ phase =>
    simp only [phase] at tallied
    have small := taillen.isLt
    exact ⟨tallied, by simp only [RxComplete.observe, Nat.shiftRight_eq_div_pow]; omega⟩
  | header phase | tail phase | eof phase =>
    simp only [phase] at tallied
    exact tallied
  | reserve =>
    simp only [RxComplete.observe]
    split_ifs <;> trivial
  | sof => exact rfl
  | full | refused | commit | drop => trivial

theorem poolStep (inv : PoolInv s) (taken : RxComplete.step forwards s e = some t) : PoolInv t := by
  obtain ⟨⟨r, vr, vw, h⟩, kept, tallied⟩ := inv
  obtain ⟨ringed, kept⟩ := RxComplete.invariantKept ⟨⟨r, vr, vw, h⟩, kept⟩ taken
  exact ⟨ringed, kept, talliedStep h tallied taken⟩

theorem heldStep (inv : PoolInv s) (held : Held s.rx buf frame received lost) (other : touches buf e = false)
    (taken : RxComplete.step forwards s e = some t) : Held t.rx buf frame received lost := by
  obtain ⟨⟨r, vr, vw, h⟩, -, -⟩ := inv
  obtain ⟨u, moved, rfl⟩ := Option.map_eq_some_iff.mp taken
  obtain ⟨pre, k, n, last, rfl, live, framed, whole⟩ := held
  obtain ⟨⟨pre', next⟩, same⟩ := lastKept h last live other moved
  rw [RxComplete.observeRx]
  exact ⟨pre', k, n, next, rfl, live, by rw [getData, same]; exact framed, whole⟩

theorem handedHeld (inv : PoolInv s) (taken : RxComplete.step forwards s e = some t) (gives : handed s t = some buf) :
    e = .commit ∧ Held t.rx buf (contents t.rx.pool buf) s.received s.missed := by
  obtain ⟨⟨r, vr, vw, h⟩, kept, tallied⟩ := inv
  have hands : RxComplete.HandsOver s t := by
    intro same
    rw [handed, same] at gives
    simp at gives
  obtain ⟨f, given⟩ := RxComplete.handedFrame h kept taken hands
  obtain ⟨u, moved, rfl⟩ := Option.map_eq_some_iff.mp taken
  obtain ⟨vr', vw', -, -, next⟩ := stepAdvances h moved
  rw [RxComplete.HandsOver, RxComplete.observeRx] at hands
  obtain ⟨rfl, g, phase, -, rfl⟩ := stepSends moved hands
  obtain rfl : f = g := Phase.commit.inj (given.phase.symm.trans phase)
  obtain rfl : f.buf = buf := by simpa [handed, RxComplete.observe] using gives
  have length := given.length
  have crc := given.crc
  simp only [Tallied, phase] at tallied
  simp only [RxComplete.observe] at length crc ⊢
  rw [tallied.1] at crc
  generalize (miiCommit forwards s.rx.pool f.buf f.dptr).1 = p at length crc next ⊢
  have framed : Framed (committed p f.buf f.words) (getData p f.buf f.words.length) s.leftover
      (bytes (f.words.map (BitVec.ofInt 32)) ++ (bytesOf (getData p f.buf f.words.length)).take s.leftover) :=
    ⟨given.fill.six, tallied.2, length, crc, rfl⟩
  have same : contents p f.buf = _ := contentsFramed next.rep framed rfl
  refine ⟨trivial, _, _, s.leftover, rfl, rfl, rfl, ?_, ?_, fun found => ?_⟩
  · rw [same]
    exact framed
  · cases lost : s.missed with
    | false => exact Nat.le_of_eq (by rw [committed, (given.kept.all lost).1, List.length_map])
    | true => exact Nat.le_of_lt (given.kept.short lost)
  · rw [committed, (given.kept.all found).1, List.map_map]
    exact (List.map_congr_left fun w _ => BitVec.ofInt_toInt).trans (List.map_id _)

/-! The stores of a pass are header stores of another task. -/

def setAll (p : Pool) (buf : Int) (ws : List (Field × Int)) : Pool := ws.foldl (fun p w => setField w.1 p buf w.2) p

theorem passStores (g : Config) (ifnum : Int) (p : Pool) (buf : Int) (c : Counts) :
    ∃ ws, (ethernetFilterPass g ifnum p buf c).1 = setAll p buf ws := by
  unfold ethernetFilterPass
  split
  · exact ⟨[], rfl⟩
  · dsimp only
    cases ethernetFilter p buf with
    | filteredByLength => exact ⟨[(.srcPort, ifnum), (.filterResult, 0), (.stage, 1)], rfl⟩
    | filteredByBadCrc => exact ⟨[(.srcPort, ifnum), (.filterResult, 0), (.stage, 1)], rfl⟩
    | filter =>
      dsimp only
      generalize (if isBroadcast (setField .srcPort p buf ifnum) buf ∨ compareMac g (setField .srcPort p buf ifnum) buf then
        macCustomFilterCoerce g (setField .srcPort p buf ifnum) buf else (0#32, 0#32)) = outcome
      obtain ⟨filterResult, userData⟩ := outcome
      cases g.userData with
      | false => exact ⟨[(.srcPort, ifnum), (.timestampId, 0), (.filterResult, filterResult.toInt), (.stage, 1)], rfl⟩
      | true =>
        exact ⟨[(.srcPort, ifnum), (.timestampId, 0), (.userData, userData.toInt), (.filterResult, filterResult.toInt),
          (.stage, 1)], rfl⟩

theorem refreshSet (p : Pool) (buf : Int) (f : Field) (x : Int) (q : List Pkt) :
    refresh p buf (onBuf buf (setHeader f x) q) = refresh p buf q := by
  rw [refresh, refresh, onBuf, onBuf, onBuf, List.map_map]
  refine List.map_congr_left fun k _ => ?_
  simp only [Function.comp]
  by_cases same : k.buf = buf
  · rw [if_pos same, if_pos same, setHeader, if_pos same]
  · rw [if_neg same, if_neg same]

theorem refreshSame {p : Pool} {q : List Pkt} {r : Ring} {vr vw : Nat} (h : Rep p q r vr vw) (buf : Int) :
    refresh p buf q = q := by
  rw [refresh, onBuf]
  conv_rhs => rw [← List.map_id q]
  refine List.map_congr_left fun k member => ?_
  split
  · rename_i same
    have header : (fun f => getField f p buf) = k.header := by
      funext f
      rw [← same]
      exact (repIntact h member).1 f
    rw [header]
    rfl
  · rfl

theorem setsKeep (ws : List (Field × Int)) (inv : PoolInv s) {k : Pkt} (member : k ∈ s.rx.queue) (live : k.freed = false) :
    PoolInv { s with rx := { s.rx with pool := setAll s.rx.pool k.buf ws
                                       queue := refresh (setAll s.rx.pool k.buf ws) k.buf s.rx.queue } } := by
  induction ws generalizing s k with
  | nil =>
    obtain ⟨r, vr, vw, h⟩ := inv.ringed
    have same : refresh (setAll s.rx.pool k.buf []) k.buf s.rx.queue = s.rx.queue := refreshSame h.rep k.buf
    rw [same]
    exact inv
  | cons w ws ih =>
    have enabled : ∃ k' ∈ s.rx.queue, k'.buf = k.buf ∧ k'.freed = false := ⟨k, member, rfl, live⟩
    have taken : RxComplete.step true s (.set k.buf w.1 w.2) = some { s with
        rx := { s.rx with pool := setField w.1 s.rx.pool k.buf w.2, queue := onBuf k.buf (setHeader w.1 w.2) s.rx.queue } } := by
      simp only [RxComplete.step, RxPins.step, if_pos enabled]
      rfl
    have there : setHeader w.1 w.2 k ∈ onBuf k.buf (setHeader w.1 w.2) s.rx.queue :=
      List.mem_map.mpr ⟨k, member, if_pos rfl⟩
    have rest := ih (poolStep inv taken) there live
    have buf : (setHeader w.1 w.2 k).buf = k.buf := rfl
    rw [buf] at rest
    dsimp only at rest
    rw [refreshSet] at rest
    exact rest

end inv

section run
variable {ι : Type} {g : Config} {forwards : Bool} {s t : State ι} {e : Event ι}

structure SystemInv (s : State ι) : Prop where
  pools : ∀ i, PoolInv (s.rx i)
  held : ∀ i buf, s.pending = some (i, buf) → Held (s.rx i).rx buf s.frame s.received s.lost
  accounted : Accounted s

theorem heldPass (inv : SystemInv s) {i : ι} {buf : Int} (waits : s.pending = some (i, buf)) :
    contents (s.rx i).rx.pool buf = s.frame ∧ (∃ k ∈ (s.rx i).rx.queue, k.buf = buf ∧ k.freed = false) ∧
    Decided g (s.rx i).rx.pool buf s.frame s.counts (ethernetFilterPass g 0 (s.rx i).rx.pool buf s.counts).1
      (ethernetFilterPass g 0 (s.rx i).rx.pool buf s.counts).2 := by
  obtain ⟨pre, k, n, last, rfl, live, framed, -⟩ := inv.held i buf waits
  obtain ⟨r, vr, vw, h⟩ := (inv.pools i).ringed
  have rep := h.rep
  rw [last] at rep
  exact ⟨contentsFramed rep framed rfl, ⟨k, by rw [last]; simp, rfl, live⟩, passDecides g 0 rep framed rfl s.counts⟩

theorem countedOnce (frame : List (BitVec 8)) (result : Int) (c : Counts) :
    (counted g frame result c).length + (counted g frame result c).crc + (counted g frame result c).address +
      (counted g frame result c).filter = c.length + c.crc + c.address + c.filter + if result = 0 then 1#32 else 0#32 := by
  unfold counted
  by_cases zero : result = 0
  · rw [if_neg (not_not.mpr zero)]
    by_cases short : frame.length - 4 < 60
    · rw [if_pos short, if_pos zero]; dsimp only; ac_rfl
    · by_cases checked : Checked frame
      · by_cases addressed : Addressed g frame
        · rw [if_neg short, if_neg (not_not.mpr checked), if_neg (not_not.mpr addressed), if_pos zero]; dsimp only; ac_rfl
        · rw [if_neg short, if_neg (not_not.mpr checked), if_pos addressed, if_pos zero]; dsimp only; ac_rfl
      · rw [if_neg short, if_pos checked, if_pos zero]; dsimp only; ac_rfl
  · rw [if_pos zero, if_neg zero, BitVec.add_zero]

theorem systemStep [DecidableEq ι] (inv : SystemInv s) (taken : step g forwards s e = some t) : SystemInv t := by
  obtain ⟨inTime, taken⟩ := stepIs.mp taken
  cases e with
  | rx i e =>
    simp only [deliver] at taken
    obtain ⟨u, moved, rfl⟩ := Option.map_eq_some_iff.mp taken
    have pools : ∀ j, PoolInv (Function.update s.rx i u j) := by
      intro j
      by_cases same : j = i
      · subst same; rw [Function.update_self]; exact poolStep (inv.pools j) moved
      · rw [Function.update_of_ne same]; exact inv.pools j
    cases gives : handed (s.rx i) u with
    | some buf =>
      refine ⟨pools, fun j other waits => ?_, inv.accounted⟩
      obtain ⟨rfl, rfl⟩ : i = j ∧ buf = other := by simpa using waits
      dsimp only
      rw [Function.update_self]
      exact (handedHeld (inv.pools i) moved gives).2
    | none =>
      refine ⟨pools, fun j other waits => ?_, inv.accounted⟩
      dsimp only at waits ⊢
      have held := inv.held j other waits
      by_cases same : j = i
      · subst same
        rw [Function.update_self]
        have quiet : touches other e = false := by
          rw [InTime, waits] at inTime
          simpa [blocked] using inTime
        exact heldStep (inv.pools j) held quiet moved
      · rw [Function.update_of_ne same]; exact held
  | filter =>
    simp only [deliver] at taken
    obtain ⟨⟨i, buf⟩, waits, rfl⟩ := Option.map_eq_some_iff.mp taken
    obtain ⟨-, ⟨k, member, rfl, live⟩, decided⟩ := heldPass (g := g) inv waits
    obtain ⟨ws, stores⟩ := passStores g 0 (s.rx i).rx.pool k.buf s.counts
    refine ⟨fun j => ?_, fun j other waits => by simp at waits, ?_⟩
    · by_cases same : j = i
      · subst same
        dsimp only
        rw [Function.update_self, stores]
        exact setsKeep ws (inv.pools j) member live
      · dsimp only
        rw [Function.update_of_ne same]; exact inv.pools j
    · have before := inv.accounted
      unfold Accounted at before ⊢
      dsimp only
      rw [decided.counts, countedOnce, BitVec.ofNat_add, before, BitVec.ofNat_add]
      split
      · rw [BitVec.add_zero]; ac_rfl
      · rw [BitVec.add_zero]; ac_rfl

theorem systemStart (mem : ι → Int → Int) (mempool memsize : ι → Nat) (enough : ∀ i, 28 ≤ memsize i) :
    SystemInv (initial mem mempool memsize) := by
  refine ⟨fun i => ⟨ringedInitial _ _ _ (enough i), trivial, trivial⟩, fun i buf waits => ?_, ?_⟩
  · simp [initial] at waits
  · simp [Accounted, initial]

end run

theorem filteredExactly {ι : Type} [DecidableEq ι] (g : Config) (forwards : Bool) (mem : ι → Int → Int)
    (mempool memsize : ι → Nat) (enough : ∀ i, 28 ≤ memsize i) (es : List (Event ι))
    (inTime : Along (deliver g forwards) InTime (initial mem mempool memsize) es) :
    Always (deliver g forwards) (fun s => Accounted s ∧ ∀ i buf, s.pending = some (i, buf) →
        contents (s.rx i).rx.pool buf = s.frame ∧
        ∃ t, deliver g forwards s .filter = some t ∧ t.pending = none ∧
          Decided g (s.rx i).rx.pool buf s.frame s.counts (t.rx i).rx.pool t.counts)
      (initial mem mempool memsize) es := by
  refine alwaysGuarded (I := SystemInv) (fun _ _ _ inv now taken => systemStep inv (stepIs.mpr ⟨now, taken⟩))
    (fun s inv => ⟨inv.accounted, fun i buf waits => ?_⟩) (systemStart mem mempool memsize enough) inTime
  obtain ⟨same, -, decided⟩ := heldPass (g := g) inv waits
  refine ⟨same, _, by rw [deliver, waits]; rfl, rfl, ?_⟩
  dsimp only
  rw [Function.update_self]
  exact decided

/- A multicast frame of zeros with its FCS, and a filter that answers with the first word. -/
def multicastFrame : List (BitVec 8) := 1 :: List.replicate 59 0 ++ [0x87, 0x07, 0xc1, 0xce]
def multicast : List (Event Unit) :=
  ((frameEvents 7 ⟨pack multicastFrame, 0, 0⟩) ++ [RxPins.Event.commit]).map (.rx ())
def firstWord : Config := ⟨fun _ => 0, false, fun data => (data 0, 0)⟩
def multicastStart : State Unit := initial (fun _ _ => 0) (fun _ => 0) (fun _ => 128)

theorem multicastChecked : Checked multicastFrame := by
  have first : shiftAll poly seed (bits (multicastFrame.take 24)) = 2504875828#32 := by decide +kernel
  have second : shiftAll poly 2504875828#32 (bits ((multicastFrame.drop 24).take 20)) = 3109507081#32 := by decide +kernel
  have third : shiftAll poly 3109507081#32 (bits ((multicastFrame.drop 24).drop 20)) = BitVec.allOnes 32 := by decide +kernel
  rw [← checkedIff (by decide), ← List.take_append_drop 24 multicastFrame, bitsAppend, shiftAllAppend, first,
    ← List.take_append_drop 20 (multicastFrame.drop 24), bitsAppend, shiftAllAppend, second, third]

theorem filteredExactlyMulticast : ∃ s t buf, run (deliver firstWord false) multicastStart multicast = some s ∧
    deliver firstWord false s .filter = some t ∧ getField .filterResult (t.rx ()).rx.pool buf = 1 ∧ t.counts = ⟨0, 0, 0, 0⟩ := by
  have ends : (run (deliver firstWord false) multicastStart multicast).any (fun s => match s.pending with
      | some (_, buf) => decide (s.frame = multicastFrame ∧ coerced (s.rx ()).rx.pool buf 0 = 1 ∧ s.counts = ⟨0, 0, 0, 0⟩)
      | none => false) = true := by decide +kernel
  cases reached : run (deliver firstWord false) multicastStart multicast with
  | none => rw [reached] at ends; cases ends
  | some s =>
    rw [reached, Option.any_some] at ends
    split at ends
    case h_2 => cases ends
    rename_i i buf waits
    obtain ⟨frame, first, zero⟩ := of_decide_eq_true ends
    have wanted : Wanted firstWord s.frame := by
      rw [frame]
      exact ⟨by decide, multicastChecked, .inl (by decide)⟩
    have always := filteredExactly firstWord false (fun _ _ => 0) (fun _ => 0) (fun _ => 128) (fun _ : Unit => by decide) multicast
      (by decide +kernel)
    obtain ⟨-, t, taken, -, decided⟩ := (alwaysReached always reached).2 () buf waits
    have result : getField .filterResult (t.rx ()).rx.pool buf = 1 := by
      rw [decided.result, if_pos wanted]
      exact congrArg BitVec.toInt first
    refine ⟨s, t, buf, rfl, taken, result, ?_⟩
    rw [decided.counts, result, counted, if_pos (by decide), zero]

end ScEthernet.Full.FilterPass
