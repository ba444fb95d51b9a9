import ScEthernet.Full.RxTransfer

/-! The other requests of a client: a frame at an offset of two bytes, and the type and payload without the
addresses. mac_rx_send_frame0 is the sender for a packet that lies in one piece. -/
namespace ScEthernet.Full.RxRequests
open Lib.BitOrder Lib.ChannelTokens Lib.UnrolledRing Lib.Runs Malloc PoolQueue RxTransfer

def macRxOffset2 (c : Client) : Reader (Received × BitVec 32) :=
  (fun (c, len) => (⟨len, c.srcPort, none, c.buf⟩, c.userData)) <$> ethernetUnifiedGetData c .frameReqOffset2 (-1)

def OffsetRead (p : Pool) (buf : Int) (frame : List (BitVec 8)) (c : Client) : Prop :=
  ∃ got userData, Reads (macRxOffset2 c) (macRxSendFrame1 p buf .frameReqOffset2) (got, userData) ∧
    (∀ j (inside : j < frame.length), got.buf (j + 2) = frame[j]) ∧
    (∀ j, frame.length + 2 ≤ j → got.buf j = c.buf j) ∧ got.len = BitVec.ofNat 32 frame.length

def offsetStream (k : Pkt) (length : Nat) : List (BitVec 8) :=
  [0, 0] ++ bytes ((k.data.take ((length + 3) / 4)).map (BitVec.ofInt 32)) ++ [0, 0]

section offset
variable {p : Pool} {q : List Pkt} {r : Ring} {vr vw : Nat} {k : Pkt} {frame : List (BitVec 8)}

theorem byterevTokens (words : List (BitVec 32)) : words.flatMap (fun x => outInt (byterev x)) = bytes words := by
  rw [bytes]
  exact congrArg (words.flatMap ·) (funext outIntByterev)

theorem offsetStreamLength (held : (frame.length + 3) / 4 ≤ k.data.length) :
    (offsetStream k frame.length).length = 4 * ((frame.length + 3) / 4 + 1) := by
  simp only [offsetStream, List.length_append, bytesLength, List.length_map, List.length_take, List.length_cons, List.length_nil]
  omega

theorem offsetSent (h : Rep p q r vr vw) (member : k ∈ q) (length : k.header .length = frame.length)
    (held : (frame.length + 3) / 4 ≤ k.data.length) : macRxSendFrame1 p k.buf .frameReqOffset2 =
      outInt (BitVec.ofInt 32 (k.header .srcPort)) ++ (outInt (BitVec.ofNat 32 frame.length) ++
        (outInt (BitVec.ofInt 32 (k.header .userData)) ++ (offsetStream k frame.length ++
        (outInt (BitVec.ofInt 32 (k.header .timestamp) + ethernetRxPhyTimerOffset) ++ [])))) := by
  have header := (repIntact h member).1
  have stored : miiPacketGetLength p k.buf = frame.length := (header .length).trans length
  have words : sendData p byterev (((frame.length : Int) + 3) / 4).toNat (miiPacketGetDataPtr k.buf) =
      bytes ((k.data.take ((frame.length + 3) / 4)).map (BitVec.ofInt 32)) := by
    rw [show (((frame.length : Int) + 3) / 4).toNat = (frame.length + 3) / 4 by omega,
      sendDataQueued h member byterev held, ← byterevTokens, List.flatMap_map, List.flatMap_map]
  simp only [macRxSendFrame1, field, header, stored, if_true, words, offsetStream, outChar, List.append_assoc,
    List.append_nil, List.cons_append, List.nil_append, BitVec.ofInt_natCast]

theorem offsetReads (h : Rep p q r vr vw) (member : k ∈ q) (size : 4 * (p.stop - p.start) < 2 ^ 31)
    (length : k.header .length = frame.length) (held : (bytes (k.data.map (BitVec.ofInt 32))).take frame.length = frame)
    (c : Client) : ∃ got, Reads (macRxOffset2 c) (macRxSendFrame1 p k.buf .frameReqOffset2)
        (got, BitVec.ofInt 32 (k.header .userData)) ∧ got.len = BitVec.ofNat 32 (frame.length + 4) ∧
      ∀ j, got.buf j = if j < frame.length + 4 then ((offsetStream k frame.length)[j]?).getD (c.buf j) else c.buf j := by
  obtain ⟨capacity, bound⟩ := frameBound h member size held
  have enough : (frame.length + 3) / 4 ≤ k.data.length := by omega
  have total := offsetStreamLength enough
  obtain ⟨packed, count⟩ := bytesPack _ total
  have stream := getDataReads .frameReqOffset2 (BitVec.ofNat 32 (frame.length + 4)) (-1) (pack (offsetStream k frame.length)) 0 c.buf
  have tokens : (pack (offsetStream k frame.length)).flatMap (fun x => outInt (wordOrder .frameReqOffset2 x)) =
      offsetStream k frame.length := (byterevTokens _).trans packed
  rw [tokens, packed, count] at stream
  have four : BitVec.ofNat 32 frame.length + 4 = BitVec.ofNat 32 (frame.length + 4) := by rw [BitVec.ofNat_add]; rfl
  have transfers : ((BitVec.ofNat 32 (frame.length + 4) + 3) >>> 2).toNat = (frame.length + 3) / 4 + 1 := by
    have three : (3 : BitVec 32).toNat = 3 := rfl
    simp only [BitVec.toNat_ushiftRight, BitVec.toNat_add, BitVec.toNat_ofNat, Nat.shiftRight_eq_div_pow, three]
    omega
  have reads : Reads (ethernetUnifiedGetData c .frameReqOffset2 (-1)) (macRxSendFrame1 p k.buf .frameReqOffset2)
      (⟨placed (BitVec.ofNat 32 (frame.length + 4)) (-1) (offsetStream k frame.length) 0 c.buf,
        BitVec.ofInt 32 (k.header .timestamp) + ethernetRxPhyTimerOffset, BitVec.ofInt 32 (k.header .srcPort),
        BitVec.ofInt 32 (k.header .userData)⟩, BitVec.ofNat 32 (frame.length + 4)) := by
    rw [offsetSent h member length enough]
    refine readsBind (readsInt _) (readsBind (readsInt _) (readsBind (readsInt _) ?_))
    simp only [if_neg (notStatus bound), if_true, four, transfers]
    exact readsBind stream (readsBind (readsInt _) (readsPure _))
  refine ⟨_, readsMap _ reads, rfl, fun j => ?_⟩
  have whole : (BitVec.ofNat 32 (frame.length + 4)).toNat = frame.length + 4 := by
    rw [BitVec.toNat_ofNat]
    exact Nat.mod_eq_of_lt (by omega)
  have unlimited : (-1 : BitVec 32).toNat = 4294967295 := by decide
  simp only [placed, whole, unlimited, Nat.zero_le, true_and, Nat.sub_zero]
  by_cases inside : j < frame.length + 4
  · rw [if_pos ⟨inside, by omega⟩, if_pos inside]
  · rw [if_neg (fun both => inside both.1), if_neg inside]

theorem offsetReadFalse (h : Rep p q r vr vw) (member : k ∈ q) (size : 4 * (p.stop - p.start) < 2 ^ 31)
    (length : miiPacketGetLength p k.buf = frame.length)
    (held : (bytes (k.data.map (BitVec.ofInt 32))).take frame.length = frame) (c : Client) : ¬ OffsetRead p k.buf frame c := by
  obtain ⟨-, bound⟩ := frameBound h member size held
  obtain ⟨got, reads, len, -⟩ := offsetReads h member size (((repIntact h member).1 .length).symm.trans length) held c
  rintro ⟨other, userData, again, -, -, wrong⟩
  have same := (reads []).symm.trans (again [])
  simp only [Option.some.injEq, Prod.mk.injEq, and_true] at same
  rw [← same.1, len] at wrong
  have values := congrArg BitVec.toNat wrong
  rw [BitVec.toNat_ofNat, BitVec.toNat_ofNat, Nat.mod_eq_of_lt (by omega), Nat.mod_eq_of_lt (by omega)] at values
  omega

/- The bytes go where they are wanted. The length that comes back is four more than the packet has, and two bytes
more than there is room for are written. -/
theorem offset2Lengthens (h : Rep p q r vr vw) (member : k ∈ q) (size : 4 * (p.stop - p.start) < 2 ^ 31)
    (length : miiPacketGetLength p k.buf = frame.length)
    (held : (bytes (k.data.map (BitVec.ofInt 32))).take frame.length = frame) (c : Client) :
    (∃ got userData, Reads (macRxOffset2 c) (macRxSendFrame1 p k.buf .frameReqOffset2) (got, userData) ∧
      (∀ j (inside : j < frame.length), got.buf (j + 2) = frame[j]) ∧ (∀ j, frame.length + 4 ≤ j → got.buf j = c.buf j) ∧
      (∀ j, j < 2 → got.buf (frame.length + 2 + j) = ((offsetStream k frame.length)[frame.length + 2 + j]?).getD 0) ∧
      got.len = BitVec.ofNat 32 (frame.length + 4)) ∧ ¬ OffsetRead p k.buf frame c := by
  have header := (repIntact h member).1
  obtain ⟨capacity, bound⟩ := frameBound h member size held
  have total : (offsetStream k frame.length).length = 4 * ((frame.length + 3) / 4 + 1) := offsetStreamLength (by omega)
  obtain ⟨got, reads, len, stored⟩ := offsetReads h member size ((header .length).symm.trans length) held c
  refine ⟨⟨got, _, reads, fun j inside => ?_, fun j past => ?_, fun j small => ?_, len⟩,
    offsetReadFalse h member size length held c⟩
  · have byte : (offsetStream k frame.length)[j + 2]? = some frame[j] := by
      have words : (bytes ((k.data.take ((frame.length + 3) / 4)).map (BitVec.ofInt 32)))[j]? = some frame[j] := by
        rw [List.map_take, bytesTake, List.getElem?_take, if_pos (by omega), ← List.getElem?_eq_getElem inside, ← held,
          List.getElem?_take, if_pos inside]
      obtain ⟨there, -⟩ := List.getElem?_eq_some_iff.mp words
      rw [offsetStream, List.append_assoc, List.getElem?_append_right (by simp), List.length_cons, List.length_cons,
        List.length_nil, Nat.add_sub_cancel, List.getElem?_append_left there, words]
    rw [stored, if_pos (by omega), byte, Option.getD_some]
  · rw [stored, if_neg (by omega)]
  · rw [stored, if_pos (by omega), List.getElem?_eq_getElem (by omega), Option.getD_some, Option.getD_some]

end offset

theorem wrappedFrameHeld : ∃ s k r vr vw,
    run (RxPins.step true) (RxPins.initial (fun _ => 0) 0 128) wrapped = some s ∧ Rep s.pool s.queue r vr vw ∧ k ∈ s.queue ∧
    4 * (s.pool.stop - s.pool.start) < 2 ^ 31 ∧ miiPacketGetLength s.pool k.buf = wrappedFrame.length ∧
    k.data.map (BitVec.ofInt 32) = (List.range 16).map (fun i : Nat => BitVec.ofNat 32 i) := by
  obtain ⟨s, k, r, vr, vw, reached, rep, queue, -, length, small, data⟩ := wrappedHeld
  exact ⟨s, k, r, vr, vw, reached, rep, by rw [queue]; exact List.mem_singleton_self k, small, length, data⟩

/- The bytes 62 and 63 of the packet, which belong to its FCS, are at 64 and 65. -/
theorem offset2LengthensWrapped : ∃ s buf got userData,
    run (RxPins.step true) (RxPins.initial (fun _ => 0) 0 128) wrapped = some s ∧
    Reads (macRxOffset2 ⟨fun _ => 0xff, 0, 0, 0⟩) (macRxSendFrame1 s.pool buf .frameReqOffset2) (got, userData) ∧
    got.len = 66 ∧ got.buf 65 = 0 := by
  obtain ⟨s, k, r, vr, vw, reached, rep, member, small, length, data⟩ := wrappedFrameHeld
  obtain ⟨⟨got, userData, reads, -, -, past, len⟩, -⟩ := offset2Lengthens rep member small length (by rw [data]; rfl)
    ⟨fun _ => 0xff, 0, 0, 0⟩
  refine ⟨s, k.buf, got, userData, reached, reads, len, (past 1 (by decide)).trans ?_⟩
  rw [offsetStream, List.map_take, data]
  decide

theorem offsetReadFails : ∃ s buf, run (RxPins.step true) (RxPins.initial (fun _ => 0) 0 128) wrapped = some s ∧
    ¬ OffsetRead s.pool buf wrappedFrame ⟨fun _ => 0xff, 0, 0, 0⟩ := by
  obtain ⟨s, k, r, vr, vw, reached, rep, member, small, length, data⟩ := wrappedFrameHeld
  exact ⟨s, k.buf, reached, offsetReadFalse rep member small length (by rw [data]; rfl) _⟩

/-! The sender of a packet in one piece. -/

structure MiiPacket where
  length : Int
  timestamp : BitVec 32
  srcPort : BitVec 32
  data : Nat → BitVec 32

def sendWords (data : Nat → BitVec 32) : Nat → Nat → List Token
  | 0, _ => []
  | n + 1, i => outInt (data i) ++ sendWords data n (i + 1)

def macRxSendFrame0 (p : MiiPacket) (cmd : Cmd) : List Token :=
  let i : Nat := if cmd = .frameReq then 0 else 3
  outInt p.srcPort ++ outInt (BitVec.ofInt 32 (p.length - 4 * i)) ++
    sendWords p.data ((p.length + 3) / 4 - i).toNat i ++ outInt (p.timestamp + ethernetRxPhyTimerOffset)

def flat (p : Pool) (k : Pkt) : MiiPacket :=
  ⟨miiPacketGetLength p k.buf, field .timestamp p k.buf, field .srcPort p k.buf, fun i => BitVec.ofInt 32 (k.data.getD i 0)⟩

def withoutUserData (sent : List Token) : List Token := sent.take 8 ++ sent.drop 12

section senders
variable {p : Pool} {q : List Pkt} {r : Ring} {vr vw : Nat} {k : Pkt}

theorem sendWordsRange (data : Nat → BitVec 32) (n i : Nat) :
    sendWords data n i = ((List.range n).map (fun j => data (i + j))).flatMap outInt := by
  induction n generalizing i with
  | zero => rfl
  | succ n ih =>
    rw [sendWords, ih, List.range_succ_eq_map, List.map_cons, List.flatMap_cons, List.map_map]
    congr 2
    refine List.map_congr_left fun j _ => ?_
    simp only [Function.comp]
    congr 1
    omega

theorem outIntInjective {xs ys : List (BitVec 32)} (same : xs.flatMap outInt = ys.flatMap outInt) : xs = ys := by
  induction xs generalizing ys with
  | nil =>
    cases ys with
    | nil => rfl
    | cons y ys => simp [outInt, bytesOf] at same
  | cons x xs ih =>
    cases ys with
    | nil => simp [outInt, bytesOf] at same
    | cons y ys =>
      rw [List.flatMap_cons, List.flatMap_cons] at same
      have parts := List.append_inj same (by rw [outIntLength, outIntLength])
      have first : x = y := by
        have one := readsInt x []
        rw [parts.1, readsInt y []] at one
        simpa using one.symm
      rw [first, ih parts.2]

theorem takenWords {data : List Int} {n : Nat} (enough : n ≤ data.length) :
    (data.take n).map (BitVec.ofInt 32) = (List.range n).map (fun j => BitVec.ofInt 32 (data.getD j 0)) := by
  refine List.ext_getElem (by simp [enough]) fun j a b => ?_
  rw [List.length_map, List.length_range] at b
  rw [List.getElem_map, List.getElem_take, List.getElem_map, List.getElem_range, List.getD_eq_getElem?_getD,
    List.getElem?_eq_getElem (by omega), Option.getD_some]

theorem withoutThird (a b c : BitVec 32) (rest : List Token) :
    withoutUserData (outInt a ++ outInt b ++ outInt c ++ rest) = outInt a ++ outInt b ++ rest := by
  have head : (outInt a ++ outInt b).length = 8 := by rw [List.length_append, outIntLength, outIntLength]
  have front : (outInt a ++ outInt b ++ outInt c).length = 12 := by rw [List.length_append, head, outIntLength]
  rw [withoutUserData, ← front, List.drop_left, List.append_assoc (outInt a ++ outInt b), ← head, List.take_left]

theorem sameWordsIff (h : Rep p q r vr vw) (member : k ∈ q) (held : miiPacketGetLength p k.buf ≤ 4 * (k.data.length : Int))
    {cmd : Cmd} (plain : cmd ≠ .frameReqOffset2) {i : Nat} (start : (if cmd = .frameReq then 0 else 3) = i) :
    withoutUserData (macRxSendFrame1 p k.buf cmd) = macRxSendFrame0 (flat p k) cmd ↔
      ∀ j, j < ((miiPacketGetLength p k.buf + 3) / 4 - i).toNat →
        BitVec.ofInt 32 (k.data.getD j 0) = BitVec.ofInt 32 (k.data.getD (i + j) 0) := by
  have start' : (if cmd = .frameReq then (0 : Int) else 3) = i := by rw [← start]; split <;> rfl
  have all := @takenWords k.data ((miiPacketGetLength p k.buf + 3) / 4 - i).toNat (by omega)
  simp only [macRxSendFrame1, macRxSendFrame0, if_neg plain, start, start', flat]
  rw [sendDataQueued h member id (by omega), List.append_assoc _ _ (outInt _), withoutThird, ← List.append_assoc _ _ (outInt _),
    List.append_left_inj, List.append_right_inj, sendWordsRange]
  simp only [id]
  rw [all]
  constructor
  · intro same j inside
    exact List.map_inj_left.mp (outIntInjective same) j (List.mem_range.mpr inside)
  · intro same
    congr 1
    exact List.map_congr_left fun j inside => same j (List.mem_range.mp inside)

theorem sendersAgreeIff (h : Rep p q r vr vw) (member : k ∈ q)
    (held : miiPacketGetLength p k.buf ≤ 4 * (k.data.length : Int)) {cmd : Cmd} (plain : cmd ≠ .frameReqOffset2) :
    withoutUserData (macRxSendFrame1 p k.buf cmd) = macRxSendFrame0 (flat p k) cmd ↔
      cmd = .frameReq ∨ ∀ i : Nat, (i : Int) + 3 < (miiPacketGetLength p k.buf + 3) / 4 →
        BitVec.ofInt 32 (k.data.getD i 0) = BitVec.ofInt 32 (k.data.getD (i + 3) 0) := by
  cases cmd with
  | frameReq =>
    rw [sameWordsIff h member held plain (i := 0) rfl]
    simp
  | typePayloadReq =>
    rw [sameWordsIff h member held plain (i := 3) rfl]
    constructor
    · intro same
      refine .inr fun i inside => ?_
      rw [Nat.add_comm]
      exact same i (by omega)
    · rintro (other | same) j inside
      · cases other
      · rw [Nat.add_comm]
        exact same j (by omega)
  | frameReqOffset2 => exact absurd rfl plain

end senders

/- The payload of the packet of the words 0 to 15 begins with the word 0, not 3. -/
theorem payloadNotStripped : ∃ s k, run (RxPins.step true) (RxPins.initial (fun _ => 0) 0 128) wrapped = some s ∧ k ∈ s.queue ∧
    withoutUserData (macRxSendFrame1 s.pool k.buf .typePayloadReq) ≠ macRxSendFrame0 (flat s.pool k) .typePayloadReq := by
  obtain ⟨s, k, r, vr, vw, reached, rep, member, small, length, data⟩ := wrappedFrameHeld
  have count := congrArg List.length data
  rw [List.length_map, List.length_map, List.length_range] at count
  refine ⟨s, k, reached, member, fun same => ?_⟩
  have words := (sameWordsIff rep member (by rw [length, count]; decide) (by decide) (i := 3) rfl).mp same 0
    (by rw [length]; decide)
  have value : ∀ j, j < 16 → BitVec.ofInt 32 (k.data.getD j 0) = BitVec.ofNat 32 j := by
    intro j inside
    have at_ := congrArg (fun xs => xs[j]?) data
    simp only [List.getElem?_map, List.getElem?_range inside, List.getElem?_eq_getElem (count.symm ▸ inside : j < k.data.length),
      Option.map_some, Option.some.injEq] at at_
    rw [List.getD_eq_getElem?_getD, List.getElem?_eq_getElem (count.symm ▸ inside), Option.getD_some, at_]
  rw [value 0 (by decide), value 3 (by decide)] at words
  revert words
  decide

theorem sendersAgreeFrame : ∃ s k, run (RxPins.step true) (RxPins.initial (fun _ => 0) 0 128) wrapped = some s ∧ k ∈ s.queue ∧
    withoutUserData (macRxSendFrame1 s.pool k.buf .frameReq) = macRxSendFrame0 (flat s.pool k) .frameReq := by
  obtain ⟨s, k, r, vr, vw, reached, rep, member, small, length, data⟩ := wrappedFrameHeld
  have count := congrArg List.length data
  rw [List.length_map, List.length_map, List.length_range] at count
  exact ⟨s, k, reached, member, (sendersAgreeIff rep member (by rw [length, count]; decide) (by decide)).mpr (.inl rfl)⟩

end ScEthernet.Full.RxRequests
