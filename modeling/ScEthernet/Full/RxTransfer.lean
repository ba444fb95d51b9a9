import ScEthernet.Full.RxPins
import ScEthernet.Lib.ChannelTokens
import Mathlib.Algebra.Group.Nat.Defs
import Mathlib.Algebra.Group.Int.Defs

/-! The reply of ethernet_rx_server to a client: what mac_rx_send_frame1 and send_status_packet
put on the channel, and ethernet_unified_get_data with the functions of the client around it. -/
namespace ScEthernet.Full.RxTransfer
open Lib.BitOrder Lib.ChannelTokens Lib.UnrolledRing Lib.Runs Malloc PoolQueue

inductive Cmd where
  | frameReq
  | typePayloadReq
  | frameReqOffset2
  deriving DecidableEq

/- STATUS_PACKET_LEN and ETHERNET_RX_PHY_TIMER_OFFSET -/
def statusPacketLen : BitVec 32 := -1#32
def ethernetRxPhyTimerOffset : BitVec 32 := -48#32

/-! The server. -/

def field (f : Field) (p : Pool) (buf : Int) : BitVec 32 := BitVec.ofInt 32 (getField f p buf)

/- The loop over the data, with the iterations left. -/
def sendData (p : Pool) (order : BitVec 32 → BitVec 32) : Nat → Int → List Token
  | 0, _ => []
  | n + 1, dptr =>
    let dptr := if dptr = miiGetWrapPtr p then p.mem dptr else dptr
    outInt (order (BitVec.ofInt 32 (p.mem dptr))) ++ sendData p order n (dptr + 1)

def macRxSendFrame1 (p : Pool) (buf : Int) (cmd : Cmd) : List Token :=
  let dptr := miiPacketGetDataPtr buf
  let length := miiPacketGetLength p buf
  let timestamp := outInt (field .timestamp p buf + ethernetRxPhyTimerOffset)
  if cmd = .frameReqOffset2 then
    outInt (field .srcPort p buf) ++ outInt (BitVec.ofInt 32 length) ++ outInt (field .userData p buf) ++
      outChar 0 ++ outChar 0 ++ sendData p byterev ((length + 3) / 4).toNat dptr ++ outChar 0 ++ outChar 0 ++ timestamp
  else
    let i : Int := if cmd = .frameReq then 0 else 3
    outInt (field .srcPort p buf) ++ outInt (BitVec.ofInt 32 (length - 4 * i)) ++ outInt (field .userData p buf) ++
      sendData p id ((length + 3) / 4 - i).toNat dptr ++ timestamp

def sendStatusPacket (srcPort status : BitVec 32) : List Token :=
  outInt srcPort ++ outInt statusPacketLen ++ outInt 0#32 ++ outInt status

/-! The client. -/

structure Client where
  buf : Nat → BitVec 8
  rxTime : BitVec 32
  srcPort : BitVec 32
  userData : BitVec 32

/- The body of the loop over `k`, for the byte `j` of the packet. All comparisons are unsigned. -/
def getByte (rxByteCnt n rxData : BitVec 32) (j k : Nat) (buf : Nat → BitVec 8) : Nat → BitVec 8 :=
  if j < rxByteCnt.toNat ∧ j < n.toNat then fun i => if i = j then (rxData >>> (k * 8)).setWidth 8 else buf i else buf

def getWord (rxByteCnt n rxData : BitVec 32) (j : Nat) (buf : Nat → BitVec 8) : Nat → BitVec 8 :=
  (List.range 4).foldl (fun buf k => getByte rxByteCnt n rxData (j + k) k buf) buf

def getData (cmd : Cmd) (rxByteCnt n : BitVec 32) : Nat → Nat → (Nat → BitVec 8) → Reader (Nat → BitVec 8)
  | 0, _, buf => pure buf
  | count + 1, j, buf => do
    let rxData ← inInt
    let rxData := if cmd = .frameReqOffset2 then byterev rxData else rxData
    getData cmd rxByteCnt n count (j + 4) (getWord rxByteCnt n rxData j buf)

/- From the reply on. Returns the client's variables and the result. -/
def ethernetUnifiedGetData (c : Client) (cmd : Cmd) (n : BitVec 32) : Reader (Client × BitVec 32) := do
  let srcPort ← inInt
  let rxByteCnt ← inInt
  let userData ← inInt
  if rxByteCnt = statusPacketLen then
    let status ← inInt
    pure (⟨fun i => if i = 0 then status.setWidth 8 else c.buf i, c.rxTime, srcPort, userData⟩, rxByteCnt)
  else
    let rxByteCnt := if cmd = .frameReqOffset2 then rxByteCnt + 4 else rxByteCnt
    let transferCnt := (rxByteCnt + 3) >>> 2
    let buf ← getData cmd rxByteCnt n transferCnt.toNat 0 c.buf
    let rxTime ← inInt
    pure (⟨buf, rxTime, srcPort, userData⟩, rxByteCnt)

structure Received where
  len : BitVec 32
  srcPort : BitVec 32
  rxTime : Option (BitVec 32)
  buf : Nat → BitVec 8

def macRxFull (c : Client) : Reader Received :=
  (fun (c, len) => ⟨len, c.srcPort, none, c.buf⟩) <$> ethernetUnifiedGetData c .frameReq (-1)

def safeMacRxFull (c : Client) (n : BitVec 32) : Reader Received :=
  (fun (c, len) => ⟨len, c.srcPort, none, c.buf⟩) <$> ethernetUnifiedGetData c .frameReq n

def macRxTimed (c : Client) : Reader Received :=
  (fun (c, len) => ⟨len, c.srcPort, some c.rxTime, c.buf⟩) <$> ethernetUnifiedGetData c .frameReq (-1)

def safeMacRxTimed (c : Client) (n : BitVec 32) : Reader Received :=
  (fun (c, len) => ⟨len, c.srcPort, some c.rxTime, c.buf⟩) <$> ethernetUnifiedGetData c .frameReq n

inductive Call where
  | full
  | safeFull (n : BitVec 32)
  | timed
  | safeTimed (n : BitVec 32)

def Call.run (c : Client) : Call → Reader Received
  | .full => macRxFull c
  | .safeFull n => safeMacRxFull c n
  | .timed => macRxTimed c
  | .safeTimed n => safeMacRxTimed c n

def Call.limit : Call → BitVec 32
  | .safeFull n => n
  | .safeTimed n => n
  | _ => -1

def Call.within (call : Call) (j : Nat) : Prop := call.limit = -1 ∨ j < call.limit.toNat

def Call.wantsTime : Call → Bool
  | .timed => true
  | .safeTimed _ => true
  | _ => false

section client
variable {rxByteCnt n : BitVec 32}

theorem byteOf (x : BitVec 32) {k : Nat} (small : k < 4) :
    (bytesOf x)[k]? = some ((x >>> (k * 8)).setWidth 8) := by
  match k, small with
  | 0, _ | 1, _ | 2, _ | 3, _ =>
    refine congrArg some ?_
    ext i
    simp [BitVec.getElem_extractLsb', BitVec.getElem_setWidth, Nat.add_comm]

theorem getByteAt (x : BitVec 32) (j k : Nat) (buf : Nat → BitVec 8) (i : Nat) :
    getByte rxByteCnt n x j k buf i =
      if i = j ∧ i < rxByteCnt.toNat ∧ i < n.toNat then (x >>> (k * 8)).setWidth 8 else buf i := by
  unfold getByte
  by_cases at_ : i = j
  · subst at_
    by_cases inside : i < rxByteCnt.toNat ∧ i < n.toNat
    · rw [if_pos inside]
      exact (if_pos rfl).trans (if_pos ⟨rfl, inside⟩).symm
    · rw [if_neg inside]
      exact (if_neg fun all => inside all.2).symm
  · split <;> simp [at_]

theorem getWordAt (x : BitVec 32) (j : Nat) (buf : Nat → BitVec 8) (i : Nat) :
    getWord rxByteCnt n x j buf i =
      if j ≤ i ∧ i < rxByteCnt.toNat ∧ i < n.toNat then ((bytesOf x)[i - j]?).getD (buf i) else buf i := by
  have unrolled : List.range 4 = [0, 1, 2, 3] := by decide
  simp only [getWord, unrolled, List.foldl_cons, List.foldl_nil, getByteAt]
  by_cases inside : j ≤ i ∧ i < j + 4
  · obtain ⟨k, rfl⟩ := Nat.exists_eq_add_of_le inside.1
    have small : k < 4 := by omega
    rw [Nat.add_sub_cancel_left, byteOf x small, Option.getD_some]
    match k, small with
    | 0, _ | 1, _ | 2, _ | 3, _ => simp
  · have past : (if j ≤ i ∧ i < rxByteCnt.toNat ∧ i < n.toNat then ((bytesOf x)[i - j]?).getD (buf i) else buf i) = buf i := by
      split
      · rw [List.getElem?_eq_none (by simp only [bytesOf, List.length_cons, List.length_nil]; omega), Option.getD_none]
      · rfl
    rw [past]
    simp only [if_neg (show ¬ (i = j + 0 ∧ i < rxByteCnt.toNat ∧ i < n.toNat) by omega),
      if_neg (show ¬ (i = j + 1 ∧ i < rxByteCnt.toNat ∧ i < n.toNat) by omega),
      if_neg (show ¬ (i = j + 2 ∧ i < rxByteCnt.toNat ∧ i < n.toNat) by omega),
      if_neg (show ¬ (i = j + 3 ∧ i < rxByteCnt.toNat ∧ i < n.toNat) by omega)]

def placed (rxByteCnt n : BitVec 32) (bytes : List (BitVec 8)) (j : Nat) (buf : Nat → BitVec 8) : Nat → BitVec 8 :=
  fun i => if j ≤ i ∧ i < rxByteCnt.toNat ∧ i < n.toNat then (bytes[i - j]?).getD (buf i) else buf i

def wordOrder (cmd : Cmd) (x : BitVec 32) : BitVec 32 := if cmd = .frameReqOffset2 then byterev x else x

theorem wordOrderTwice (cmd : Cmd) (x : BitVec 32) :
    (if cmd = .frameReqOffset2 then byterev (wordOrder cmd x) else wordOrder cmd x) = x := by
  unfold wordOrder
  split
  · exact byterevTwice x
  · rfl

theorem getDataReads (cmd : Cmd) (rxByteCnt n : BitVec 32) (words : List (BitVec 32)) (j : Nat) (buf : Nat → BitVec 8) :
    Reads (getData cmd rxByteCnt n words.length j buf) (words.flatMap (fun x => outInt (wordOrder cmd x)))
      (placed rxByteCnt n (bytes words) j buf) := by
  induction words generalizing j buf with
  | nil =>
    have none : placed rxByteCnt n (bytes []) j buf = buf := by
      funext i
      simp [placed, bytes]
    rw [none]
    exact readsPure buf
  | cons x words ih =>
    have next := ih (j + 4) (getWord rxByteCnt n x j buf)
    have same : placed rxByteCnt n (bytes words) (j + 4) (getWord rxByteCnt n x j buf) =
        placed rxByteCnt n (bytes (x :: words)) j buf := by
      funext i
      have parts : bytes (x :: words) = bytesOf x ++ bytes words := rfl
      have length : (bytesOf x).length = 4 := rfl
      simp only [placed, getWordAt, parts]
      by_cases inside : j ≤ i ∧ i < rxByteCnt.toNat ∧ i < n.toNat
      · simp only [if_pos inside]
        by_cases early : i < j + 4
        · rw [if_neg (by omega), List.getElem?_append_left (by omega)]
        · rw [if_pos (by omega), List.getElem?_append_right (by omega),
            List.getElem?_eq_none (l := bytesOf x) (by omega), Option.getD_none, length, Nat.sub_sub]
      · simp only [if_neg inside]
        rw [if_neg (by omega)]
    rw [same] at next
    refine readsBind (readsInt (wordOrder cmd x)) ?_
    rw [wordOrderTwice]
    exact next

end client

section server
variable {p : Pool} {q : List Pkt} {r : Ring} {vr vw v w : Nat} {k : Pkt}

/- The words of a queued packet, from any of them on. A data pointer on the wrap pointer stands
for the first word of the ring. -/
theorem sendDataSlot (h : Rep p q r vr vw) (slot : Slot r p.info p.mem v w k) (order : BitVec 32 → BitVec 32)
    {n i : Nat} (held : i + n ≤ k.data.length) {dptr : Int}
    (here : (if dptr = miiGetWrapPtr p then p.mem dptr else dptr) = r.place (v + 12 + i)) :
    sendData p order n dptr = (((k.data.drop i).take n).map (fun x => order (BitVec.ofInt 32 x))).flatMap outInt := by
  induction n generalizing i dptr with
  | zero => simp [sendData]
  | succ n ih =>
    have parts : (k.data.drop i).take (n + 1) = k.data[i] :: (k.data.drop (i + 1)).take n := by
      rw [List.drop_eq_getElem_cons (by omega), List.take_succ_cons]
    have next := nextDataPtrRep h (v + 12 + i)
    rw [sendData, here, parts, List.map_cons, List.flatMap_cons, slot.data i (by omega)]
    rw [ih (i := i + 1) (by omega) (by rw [← Nat.add_assoc, ← next]; rfl)]

theorem dataStart (h : Rep p q r vr vw) (slot : Slot r p.info p.mem v w k) :
    (if miiPacketGetDataPtr k.buf = miiGetWrapPtr p then p.mem (miiPacketGetDataPtr k.buf)
      else miiPacketGetDataPtr k.buf) = r.place (v + 12 + 0) := by
  have place : miiPacketGetDataPtr k.buf = r.place (v + 12) := by
    rw [miiPacketGetDataPtr, slot.buf, repSlotPlace slot (i := 12) (by omega), bufDataOffset]
    push_cast; omega
  have inside := r.placeUpper (v + 12)
  rw [place, miiGetWrapPtr, h.stop, if_neg (by omega), Nat.add_zero]

theorem sendDataQueued (h : Rep p q r vr vw) (member : k ∈ q) (order : BitVec 32 → BitVec 32) {n : Nat}
    (held : n ≤ k.data.length) : sendData p order n (miiPacketGetDataPtr k.buf) =
      ((k.data.take n).map (fun x => order (BitVec.ofInt 32 x))).flatMap outInt := by
  obtain ⟨pre, post, rfl⟩ := List.append_of_mem member
  obtain ⟨v, w, left, slot, right⟩ := chainSlot h.chain
  rw [sendDataSlot h slot order (i := 0) (by omega) (dataStart h slot), List.drop_zero]

theorem dataBound (h : Rep p q r vr vw) (member : k ∈ q) : 12 + (k.data.length : Int) < p.stop - p.start := by
  obtain ⟨pre, post, rfl⟩ := List.append_of_mem member
  obtain ⟨v, w, left, slot, right⟩ := chainSlot h.chain
  have lo := chainLe left
  have hi := chainLe right
  have size := slot.size
  have span := h.span
  rw [h.start, h.stop, Ring.limit]
  omega

def delivered (c : Client) (k : Pkt) (frame : List (BitVec 8)) (n : BitVec 32) : Client :=
  ⟨fun j => if j < n.toNat then (frame[j]?).getD (c.buf j) else c.buf j,
    BitVec.ofInt 32 (k.header .timestamp) + ethernetRxPhyTimerOffset,
    BitVec.ofInt 32 (k.header .srcPort), BitVec.ofInt 32 (k.header .userData)⟩

theorem frameBound (h : Rep p q r vr vw) (member : k ∈ q) (size : 4 * (p.stop - p.start) < 2 ^ 31)
    {frame : List (BitVec 8)} (held : (bytes (k.data.map (BitVec.ofInt 32))).take frame.length = frame) :
    frame.length ≤ 4 * k.data.length ∧ frame.length + 48 < 2 ^ 31 := by
  have bound := dataBound h member
  have total := congrArg List.length held
  rw [List.length_take, bytesLength, List.length_map] at total
  omega

theorem notStatus {n : Nat} (small : n + 48 < 2 ^ 31) : BitVec.ofNat 32 n ≠ statusPacketLen := by
  intro same
  have := congrArg BitVec.toNat same
  simp [statusPacketLen] at this
  omega

theorem frameReads (h : Rep p q r vr vw) (member : k ∈ q) (size : 4 * (p.stop - p.start) < 2 ^ 31)
    {frame : List (BitVec 8)} (length : k.header .length = frame.length)
    (held : (bytes (k.data.map (BitVec.ofInt 32))).take frame.length = frame) (c : Client) (n : BitVec 32) :
    Reads (ethernetUnifiedGetData c .frameReq n) (macRxSendFrame1 p k.buf .frameReq)
      (delivered c k frame n, BitVec.ofNat 32 frame.length) := by
  obtain ⟨capacity, bound⟩ := frameBound h member size held
  have header := (repIntact h member).1
  have words : sendData p id (((frame.length : Int) + 3) / 4 - 0).toNat (miiPacketGetDataPtr k.buf) =
      ((k.data.take ((frame.length + 3) / 4)).map (BitVec.ofInt 32)).flatMap outInt := by
    rw [show (((frame.length : Int) + 3) / 4 - 0).toNat = (frame.length + 3) / 4 by omega]
    exact sendDataQueued h member id (by omega)
  have sent : macRxSendFrame1 p k.buf .frameReq = outInt (BitVec.ofInt 32 (k.header .srcPort)) ++
      (outInt (BitVec.ofNat 32 frame.length) ++ (outInt (BitVec.ofInt 32 (k.header .userData)) ++
      (((k.data.take ((frame.length + 3) / 4)).map (BitVec.ofInt 32)).flatMap outInt ++
      (outInt (BitVec.ofInt 32 (k.header .timestamp) + ethernetRxPhyTimerOffset) ++ [])))) := by
    have stored : miiPacketGetLength p k.buf = frame.length := (header .length).trans length
    simp only [macRxSendFrame1, field, header, stored, reduceCtorEq, if_false, if_true, words]
    simp
  have transfers : ((BitVec.ofNat 32 frame.length + 3) >>> 2).toNat = (frame.length + 3) / 4 := by
    have three : (3 : BitVec 32).toNat = 3 := rfl
    simp only [BitVec.toNat_ushiftRight, BitVec.toNat_add, BitVec.toNat_ofNat, Nat.shiftRight_eq_div_pow, three]
    omega
  rw [sent]
  refine readsBind (readsInt _) (readsBind (readsInt _) (readsBind (readsInt _) ?_))
  simp only [if_neg (notStatus bound), reduceCtorEq, if_false, transfers]
  have taken : (k.data.take ((frame.length + 3) / 4)).length = (frame.length + 3) / 4 := by
    rw [List.length_take]
    omega
  have bytesRead := getDataReads .frameReq (BitVec.ofNat 32 frame.length) n
    ((k.data.take ((frame.length + 3) / 4)).map (BitVec.ofInt 32)) 0 c.buf
  rw [List.length_map, taken] at bytesRead
  refine readsBind bytesRead (readsBind (readsInt _) ?_)
  have same : placed (BitVec.ofNat 32 frame.length) n
      (bytes ((k.data.take ((frame.length + 3) / 4)).map (BitVec.ofInt 32))) 0 c.buf = (delivered c k frame n).buf := by
    funext i
    have whole : (BitVec.ofNat 32 frame.length).toNat = frame.length := by
      rw [BitVec.toNat_ofNat]
      exact Nat.mod_eq_of_lt (by omega)
    simp only [placed, delivered, whole, Nat.zero_le, true_and, Nat.sub_zero, List.map_take, bytesTake]
    by_cases inside : i < frame.length
    · have byte : frame[i]? = (bytes (k.data.map (BitVec.ofInt 32)))[i]? := by
        rw [← held, List.getElem?_take, if_pos inside]
      have early : ((bytes (k.data.map (BitVec.ofInt 32))).take (4 * ((frame.length + 3) / 4)))[i]? =
          (bytes (k.data.map (BitVec.ofInt 32)))[i]? := by
        rw [List.getElem?_take, if_pos (by omega)]
      simp only [byte, early, inside, true_and]
    · rw [List.getElem?_eq_none (l := frame) (by omega), Option.getD_none, if_neg (by omega), ite_self]
  rw [same]
  exact readsPure _

theorem statusReads (c : Client) (n srcPort status : BitVec 32) :
    Reads (ethernetUnifiedGetData c .frameReq n) (sendStatusPacket srcPort status)
      (⟨fun i => if i = 0 then status.setWidth 8 else c.buf i, c.rxTime, srcPort, 0#32⟩, statusPacketLen) := by
  have sent : sendStatusPacket srcPort status = outInt srcPort ++ (outInt statusPacketLen ++ (outInt 0#32 ++
      (outInt status ++ []))) := by simp [sendStatusPacket]
  rw [sent]
  refine readsBind (readsInt _) (readsBind (readsInt _) (readsBind (readsInt _) ?_))
  rw [if_pos rfl]
  exact readsBind (readsInt _) (readsPure _)

theorem callReads (call : Call) {c : Client} {sent : List Token} {got : Client} {len : BitVec 32}
    (reads : Reads (ethernetUnifiedGetData c .frameReq call.limit) sent (got, len)) :
    Reads (call.run c) sent ⟨len, got.srcPort, if call.wantsTime then some got.rxTime else none, got.buf⟩ := by
  cases call <;> exact readsMap _ reads

end server

/-- A reply is read to its last token by each of the client's calls, wherever the packet lies in
its ring, and a status packet is none of them taken for a frame. -/
theorem replyRead {p : Pool} {q : List Pkt} {r : Ring} {vr vw : Nat} {k : Pkt} (h : Rep p q r vr vw) (member : k ∈ q)
    (size : 4 * (p.stop - p.start) < 2 ^ 31) {frame : List (BitVec 8)} (length : miiPacketGetLength p k.buf = frame.length)
    (held : (bytes (k.data.map (BitVec.ofInt 32))).take frame.length = frame) (c : Client) (call : Call) :
    (∃ got, Reads (call.run c) (macRxSendFrame1 p k.buf .frameReq) got ∧
      got.len = BitVec.ofNat 32 frame.length ∧ got.len ≠ statusPacketLen ∧ got.srcPort = field .srcPort p k.buf ∧
      got.rxTime = (if call.wantsTime then some (field .timestamp p k.buf + ethernetRxPhyTimerOffset) else none) ∧
      (∀ j (inside : j < frame.length), call.within j → got.buf j = frame[j]) ∧
      ∀ j, frame.length ≤ j ∨ ¬ call.within j → got.buf j = c.buf j) ∧
    ∀ srcPort status, ∃ got, Reads (call.run c) (sendStatusPacket srcPort status) got ∧
      got.len = statusPacketLen ∧ got.srcPort = srcPort ∧ got.buf 0 = status.setWidth 8 := by
  have header := (repIntact h member).1
  have stored : k.header .length = frame.length := (header .length).symm.trans length
  have bound := (frameBound h member size held).2
  constructor
  · refine ⟨_, callReads call (frameReads h member size stored held c call.limit), rfl, notStatus bound, ?_, ?_, ?_, ?_⟩
    · rw [field, header]
      rfl
    · rw [field, header]
      rfl
    · intro j inside within
      have below : j < call.limit.toNat := by
        rcases within with none | below
        · rw [none]
          exact Nat.lt_trans inside (by simpa using (by omega : frame.length < 4294967295))
        · exact below
      simp only [delivered, if_pos below, List.getElem?_eq_getElem inside, Option.getD_some]
    · intro j outside
      simp only [delivered]
      split
      · rename_i below
        rw [List.getElem?_eq_none (outside.resolve_right fun none => none (.inr below)), Option.getD_none]
      · rfl
  · intro srcPort status
    exact ⟨_, callReads call (statusReads c call.limit srcPort status), rfl, rfl, rfl⟩

/- A frame of 62 bytes received behind a long one that is gone, round the end of the ring. -/
def wrapped : List RxPins.Event :=
  [.reserve, .sof 0] ++ List.replicate 88 (.word 0) ++
  [.eof, .port 0 0, .header, .header, .header, .tail, .commit, .free 7, .reserve, .sof 9] ++
  (List.range 16).map (fun i => .word (BitVec.ofNat 32 i)) ++
  [.eof, .port 16 0, .header, .header, .header, .tail, .commit]

def wrappedFrame : List (BitVec 8) := (bytes ((List.range 16).map (fun i : Nat => BitVec.ofNat 32 i))).take 62

theorem wrappedHeld : ∃ s k r vr vw,
    run (RxPins.step true) (RxPins.initial (fun _ => 0) 0 128) wrapped = some s ∧ Rep s.pool s.queue r vr vw ∧ s.queue = [k] ∧
    s.pool.wrptr < k.buf ∧ miiPacketGetLength s.pool k.buf = 62 ∧ 4 * (s.pool.stop - s.pool.start) < 2 ^ 31 ∧
    k.data.map (BitVec.ofInt 32) = (List.range 16).map (fun i : Nat => BitVec.ofNat 32 i) := by
  have ends : (run (RxPins.step true) (RxPins.initial (fun _ => 0) 0 128) wrapped).any
      (fun s => decide (s.queue.length = 1) && s.queue.all (fun k =>
        decide (s.pool.wrptr < k.buf ∧ miiPacketGetLength s.pool k.buf = 62 ∧ 4 * (s.pool.stop - s.pool.start) < 2 ^ 31 ∧
          k.data.map (BitVec.ofInt 32) = (List.range 16).map (fun i : Nat => BitVec.ofNat 32 i)))) = true := by decide +kernel
  cases reached : run (RxPins.step true) (RxPins.initial (fun _ => 0) 0 128) wrapped with
  | none => rw [reached] at ends; cases ends
  | some s =>
    obtain ⟨r, vr, vw, ringed⟩ := runInvariant (I := fun s => ∃ r vr vw, RxPins.Ringed s r vr vw)
      (fun _ _ _ ⟨r, vr, vw, inv⟩ taken => ⟨r, RxPins.stepKeeps inv taken⟩)
      (RxPins.ringedInitial _ 0 128 (by decide)) reached
    rw [reached, Option.any_some, Bool.and_eq_true] at ends
    obtain ⟨k, queue⟩ := List.length_eq_one_iff.mp (of_decide_eq_true ends.1)
    have held := List.all_eq_true.mp ends.2 k (by rw [queue]; exact List.mem_singleton_self k)
    exact ⟨s, k, r, vr, vw, rfl, ringed.rep, queue, of_decide_eq_true held⟩

theorem replyReadWrapped : ∃ s k,
    run (RxPins.step true) (RxPins.initial (fun _ => 0) 0 128) wrapped = some s ∧ s.queue = [k] ∧ s.pool.wrptr < k.buf ∧
    ∃ got, Reads (safeMacRxTimed ⟨fun _ => 0, 0, 0, 0⟩ 20) (macRxSendFrame1 s.pool k.buf .frameReq) got ∧
      got.len = 62 ∧ got.buf 16 = 4 ∧ got.buf 20 = 0 := by
  obtain ⟨s, k, r, vr, vw, reached, rep, queue, wraps, length, small, data⟩ := wrappedHeld
  have size : wrappedFrame.length = 62 := by decide
  have sixteenth : ∀ inside : 16 < wrappedFrame.length, wrappedFrame[16] = 4 := by decide
  obtain ⟨⟨got, reads, len, -, -, -, inside, outside⟩, -⟩ := replyRead rep
    (by rw [queue]; exact List.mem_singleton_self k) small (by rw [length, size]; rfl)
    (by rw [size, data]; rfl) ⟨fun _ => 0, 0, 0, 0⟩ (.safeTimed 20)
  have byte := inside 16 (by rw [size]; decide) (.inr (by decide))
  exact ⟨s, k, reached, queue, wraps, got, reads, by rw [len, size]; rfl, byte.trans (sixteenth _),
    outside 20 (.inr (by simp [Call.within, Call.limit]))⟩

end ScEthernet.Full.RxTransfer
