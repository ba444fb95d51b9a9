import ScEthernet.Full.TxPool
import ScEthernet.Lib.ChannelTokens
import Mathlib.Data.List.Basic
import Mathlib.Data.List.Forall2
import Mathlib.Data.List.Induction
import Mathlib.Algebra.Group.Nat.Defs

/-! A frame on its way to ethernet_tx_server: what mac_tx_full, mac_tx_timed and mac_tx_offset2 put
on the channel, and the server from the command on, with the buffers of all ports. -/
namespace ScEthernet.Full.TxTransfer
open Lib.WordMemory Lib.BitOrder Lib.ChannelTokens Lib.UnrolledRing Malloc PoolQueue

/-! The client. -/

inductive Cmd where
  | req
  | reqTimed
  | reqOffset2
  | reqHp
  | reqTimedHp
  | reqOffset2Hp
  deriving DecidableEq

/- ETHERNET_TX_REQ and the commands behind it. -/
def Cmd.code : Cmd → BitVec 32
  | .req => 0x80000000#32
  | .reqTimed => 0x80000001#32
  | .reqOffset2 => 0x80000004#32
  | .reqHp => 0x80000007#32
  | .reqTimedHp => 0x80000008#32
  | .reqOffset2Hp => 0x80000009#32

def ethernetChooseHpCmd (etype : BitVec 16) (cmd : Cmd) : Cmd :=
  if etype = 0x0081#16 then
    match cmd with
    | .req => .reqHp
    | .reqTimed => .reqTimedHp
    | .reqOffset2 => .reqOffset2Hp
    | _ => cmd
  else cmd

def iterations (count k : BitVec 32) : Nat := ((count + k).sshiftRight 2).toInt.toNat

/- Until a timestamp comes back. `hpQueue` is ETHERNET_TX_HP_QUEUE. -/
def ethernetSendFrameUnify (hpQueue : Bool) (buf : Nat → BitVec 32) (count : BitVec 32) (cmd : Cmd) (ifnum : BitVec 32) :
    List Token :=
  let cmd := if hpQueue then ethernetChooseHpCmd ((buf 3).setWidth 16) cmd else cmd
  outInt cmd.code ++ outInt count ++ outInt ifnum ++ (List.range (iterations count 3)).flatMap (fun i => outInt (buf i))

def macTxFull (hpQueue : Bool) (buf : Nat → BitVec 32) (count ifnum : BitVec 32) : List Token :=
  ethernetSendFrameUnify hpQueue buf count .req ifnum

def macTxTimed (hpQueue : Bool) (buf : Nat → BitVec 32) (count ifnum : BitVec 32) : List Token :=
  ethernetSendFrameUnify hpQueue buf count .reqTimed ifnum

def macTxOffset2 (hpQueue : Bool) (buf : Nat → BitVec 32) (count ifnum : BitVec 32) : List Token :=
  let cmd := if hpQueue then ethernetChooseHpCmd ((buf 3 >>> 16).setWidth 16) .reqOffset2 else .reqOffset2
  outInt cmd.code ++ outInt count ++ outInt ifnum ++
    (List.range (iterations count 7)).flatMap (fun i => outInt (byterev (buf i)))

/-! The server. -/

structure Port where
  pool : Pool
  buf : Int
  dptr : Int

structure Pools where
  hp : Pool
  lp : Pool

/- MII_MALLOC_FULL_PACKET_SIZE_HP -/
def miiMallocFullPacketSizeHp : Int := miiPacketHeaderSize + 8 + 1518

def reserve (hp : Bool) (x : Pools) : Port :=
  let (p, buf) := if hp then miiReserveAtLeast x.hp miiMallocFullPacketSizeHp
    else miiReserveAtLeast x.lp miiMallocFullPacketSizeLp
  ⟨p, buf, miiPacketGetDataPtr buf⟩

/- mii_packet_set_data_word_imm and the increment behind it; wrap_ptr[p] is that of the pool. -/
def setDataWord (datum : BitVec 32) (x : Port) : Port :=
  let p := { x.pool with mem := store x.pool.mem x.dptr datum.toInt }
  { x with pool := p, dptr := nextDataPtr p x.dptr }

def getWords (order : BitVec 32 → BitVec 32) : Nat → List Port → Reader (List Port)
  | 0, ports => pure ports
  | n + 1, ports => do
    let datum ← inInt
    getWords order n (ports.map (setDataWord (order datum)))

structure Transfer where
  hp : Bool
  length : BitVec 32
  dstPort : BitVec 32
  ports : List Port

def getPacketFromClient (cmd : Cmd) (hp : Bool) (ports : List Port) : Reader Transfer := do
  let length ← inInt
  let dstPort ← inInt
  if cmd = .reqOffset2 then
    let _ ← inChar
    let _ ← inChar
    let ports ← getWords byterev (iterations length 3) ports
    let _ ← inChar
    let _ ← inChar
    pure ⟨hp, length, dstPort, ports⟩
  else
    let ports ← getWords id (iterations length 3) ports
    pure ⟨hp, length, dstPort, ports⟩

def decode (hpQueue : Bool) (code : BitVec 32) : Option Cmd :=
  let known : List Cmd := [.req, .reqTimed, .reqOffset2] ++ if hpQueue then [.reqHp, .reqTimedHp, .reqOffset2Hp] else []
  known.find? (fun cmd => cmd.code = code)

def withoutHp : Cmd → Cmd × Bool
  | .reqHp => (.req, true)
  | .reqOffset2Hp => (.reqOffset2, true)
  | .reqTimedHp => (.reqTimed, true)
  | cmd => (cmd, false)

/- From the command to the end of the data. Where a port has no buffer nothing more is read. -/
def ethernetTxServer (hpQueue : Bool) (pools : List Pools) : Reader (Option Transfer) := do
  let code ← inInt
  match decode hpQueue code with
  | none => pure none
  | some cmd =>
    let (cmd, hp) := withoutHp cmd
    let ports := pools.map (reserve hp)
    if ports.all (fun x => x.buf ≠ 0) then some <$> getPacketFromClient cmd hp ports
    else pure none

/-! What it is for. -/

inductive Call where
  | full
  | timed
  | offset2

def Call.tokens (hpQueue : Bool) (buf : Nat → BitVec 32) (count ifnum : BitVec 32) : Call → List Token
  | .full => macTxFull hpQueue buf count ifnum
  | .timed => macTxTimed hpQueue buf count ifnum
  | .offset2 => macTxOffset2 hpQueue buf count ifnum

def Call.offset : Call → Nat
  | .offset2 => 2
  | _ => 0

def Call.frame (call : Call) (buf : Nat → BitVec 32) (count : Nat) : List (BitVec 8) :=
  ((bytes ((List.range ((call.offset + count + 3) / 4)).map buf)).drop call.offset).take count

/- A pool as ethernet_tx_server may find it: a ring with its wrap word, the pointers in it and room for a header
behind the write pointer. -/
structure Formed (p : Pool) (r : Ring) (v : Nat) : Prop where
  start : p.start = r.base
  stop : p.stop = r.limit
  base : 0 < r.base
  rdptr : r.base ≤ p.rdptr ∧ p.rdptr < r.limit
  wrptr : p.wrptr = r.place v
  wrRoom : r.place v + 22 ≤ r.limit
  wrapWord : p.mem p.stop = p.start

structure Holds (frame : List (BitVec 8)) (x y : Port) : Prop where
  buf : y.buf = x.buf
  words : (bytes ((readWords y.pool ((frame.length + 3) / 4) (miiPacketGetDataPtr x.buf)).map (BitVec.ofInt 32))).take
    frame.length = frame
  dptr : y.dptr = x.pool.start +
    (x.dptr - x.pool.start + (frame.length + 3) / 4) % (x.pool.stop - x.pool.start)

def priority (frame : List (BitVec 8)) : Bool := frame[12]? = some 0x81#8 && frame[13]? = some 0#8

section ring
variable {p : Pool} {r : Ring} {v : Nat}

structure Wrapped (p : Pool) (r : Ring) : Prop where
  start : p.start = r.base
  stop : p.stop = r.limit
  wrapWord : p.mem p.stop = p.start

theorem repFormed {q : List Pkt} {vr : Nat} (h : Rep p q r vr v) : Formed p r v :=
  ⟨h.start, h.stop, h.base, by rw [h.rdptr]; exact ⟨r.placeLower vr, r.placeUpper vr⟩, h.wrptr, h.wrRoom, h.wrapWord⟩

theorem nextDataPtrWrapped (h : Wrapped p r) (v : Nat) : nextDataPtr p (r.place v) = r.place (v + 1) := by
  rw [r.placeSucc, nextDataPtr, miiGetWrapPtr, h.stop]
  split
  · rename_i last
    rw [last, ← h.stop, h.wrapWord, h.start]
  · rfl

theorem wrappedStore (h : Wrapped p r) (v : Nat) (x : Int) : Wrapped { p with mem := store p.mem (r.place v) x } r := by
  refine ⟨h.start, h.stop, (storeOther ?_).trans h.wrapWord⟩
  have := r.placeUpper v
  rw [h.stop]
  omega

theorem readWordsWrapped (h : Wrapped p r) (n v : Nat) :
    readWords p n (r.place v) = (List.range n).map (fun i => p.mem (r.place (v + i))) := by
  induction n generalizing v with
  | zero => rfl
  | succ n ih =>
    rw [readWords, nextDataPtrWrapped h, ih, List.range_succ_eq_map]
    simp [Nat.add_assoc, Nat.add_comm 1]

/- A buffer was reserved: its words up to the longest frame are within a lap of the ring. -/
structure Reserved (x : Port) (r : Ring) (v : Nat) : Prop where
  wrapped : Wrapped x.pool r
  data : miiPacketGetDataPtr x.buf = r.place (v + 12)
  dptr : x.dptr = r.place (v + 12)
  large : 392 ≤ r.size

theorem spaceRing (h : Formed p r v) : spaceLeft p ≤ 4 * (r.size : Int) := by
  have low := r.placeLower v
  have upper := r.placeUpper v
  obtain ⟨above, below⟩ := h.rdptr
  have wrptr := h.wrptr
  have size : r.limit = r.base + r.size := rfl
  unfold spaceLeft
  rw [h.start, h.stop]
  dsimp only
  split <;> omega

theorem reserveReserved {minSize : Int} (h : Formed p r v) (wanted : 1566 ≤ minSize)
    (some : (miiReserveAtLeast p minSize).2 ≠ 0) :
    Reserved ⟨(miiReserveAtLeast p minSize).1, (miiReserveAtLeast p minSize).2,
      miiPacketGetDataPtr (miiReserveAtLeast p minSize).2⟩ r v ∧
    (miiReserveAtLeast p minSize).1.start = p.start ∧ (miiReserveAtLeast p minSize).1.stop = p.stop := by
  have space := spaceRing h
  have room := h.wrRoom
  have ends := r.placeToEnd v
  have large : ¬ spaceLeft p < spaceWanted p minSize := by
    intro small
    simp [miiReserveAtLeast, small] at some
  have enough : minSize ≤ spaceWanted p minSize := by
    unfold spaceWanted
    split
    · simp only [minUsage, miiPacketHeaderSize, mallocHdrSize]; omega
    · exact Int.le_refl _
  have first : r.place (v + 1) = p.wrptr + 1 := by
    rw [h.wrptr]
    exact r.placeAdd (by omega)
  have data : r.place (v + 12) = p.wrptr + 12 := by
    rw [h.wrptr]
    exact r.placeAdd (by omega)
  have wrapped := wrappedStore ⟨h.start, h.stop, h.wrapWord⟩ (v + 1) p.info
  rw [first] at wrapped
  rw [miiReserveAtLeast, if_neg large]
  refine ⟨⟨wrapped, ?_, ?_, by omega⟩, rfl, rfl⟩ <;>
    simp only [miiPacketGetDataPtr, mallocHdrSize, bufDataOffset] <;> omega

end ring

section server
variable {x : Port} {r : Ring} {v : Nat}

theorem storedWords (words : List (BitVec 32)) (wrapped : Wrapped x.pool r) (dptr : x.dptr = r.place v)
    (fits : words.length ≤ r.size) :
    let y := words.foldl (fun x w => setDataWord w x) x
    Wrapped y.pool r ∧ y.buf = x.buf ∧ y.dptr = r.place (v + words.length) ∧
      ∀ i (h : i < words.length), y.pool.mem (r.place (v + i)) = words[i].toInt := by
  induction words using List.reverseRecOn with
  | nil => exact ⟨wrapped, rfl, dptr, fun i h => by cases h⟩
  | append_singleton words w ih =>
    rw [List.length_append, List.length_singleton] at fits
    obtain ⟨wrapped, buf, dptr, stored⟩ := ih (by omega)
    rw [List.foldl_append, List.foldl_cons, List.foldl_nil]
    generalize words.foldl (fun x w => setDataWord w x) x = z at *
    simp only [setDataWord, dptr]
    have next := wrappedStore wrapped (v + words.length) w.toInt
    refine ⟨next, buf, by rw [nextDataPtrWrapped next, List.length_append, List.length_singleton, Nat.add_assoc], fun i h => ?_⟩
    rw [List.length_append, List.length_singleton] at h
    by_cases old : i < words.length
    · rw [List.getElem_append_left old, storeOther]
      · exact stored i old
      · exact r.placeNe (a := v) ⟨by omega, by omega⟩ ⟨by omega, by omega⟩ (by omega)
    · have last : i = words.length := by omega
      subst last
      rw [List.getElem_concat_length rfl, storeSame]

theorem getWordsReads (order sent : BitVec 32 → BitVec 32) (same : ∀ w, order (sent w) = w) (words : List (BitVec 32))
    (ports : List Port) : Reads (getWords order words.length ports) (words.flatMap (fun w => outInt (sent w)))
      (ports.map (fun x => words.foldl (fun x w => setDataWord w x) x)) := by
  induction words generalizing ports with
  | nil => simpa [getWords] using readsPure ports
  | cons w words ih =>
    rw [List.length_cons, getWords, List.flatMap_cons]
    have rest := ih (ports.map (setDataWord w))
    rw [List.map_map] at rest
    refine readsBind (readsInt _) ?_
    rw [same]
    exact rest

theorem iterationsOf {count k : Nat} (small : count + k < 2 ^ 31) :
    iterations (BitVec.ofNat 32 count) (BitVec.ofNat 32 k) = (count + k) / 4 := by
  have value : (BitVec.ofNat 32 (count + k)).toInt = (count + k : Nat) := by
    rw [BitVec.toInt_eq_toNat_of_lt (by rw [BitVec.toNat_ofNat]; omega), BitVec.toNat_ofNat, Nat.mod_eq_of_lt (by omega)]
  rw [iterations, BitVec.toInt_sshiftRight, ← BitVec.ofNat_add, value, Int.shiftRight_eq_div_pow]
  omega

theorem storedHolds (reserved : Reserved x r v) {words : List (BitVec 32)} {frame : List (BitVec 8)}
    (count : words.length = (frame.length + 3) / 4) (short : frame.length ≤ 1518)
    (framed : (bytes words).take frame.length = frame) :
    Holds frame x (words.foldl (fun x w => setDataWord w x) x) := by
  have large := reserved.large
  obtain ⟨wrapped, buf, dptr, stored⟩ := storedWords words reserved.wrapped reserved.dptr (by omega)
  refine ⟨buf, ?_, ?_⟩
  · have same : (readWords (words.foldl (fun x w => setDataWord w x) x).pool ((frame.length + 3) / 4)
        (miiPacketGetDataPtr x.buf)).map (BitVec.ofInt 32) = words := by
      rw [reserved.data, readWordsWrapped wrapped, ← count, List.map_map]
      refine List.ext_getElem (by simp) fun i a b => ?_
      rw [List.getElem_map, List.getElem_range]
      simp only [Function.comp_apply]
      rw [stored i b, BitVec.ofInt_toInt]
    rw [same]
    exact framed
  · have start := reserved.wrapped.start
    have stop : x.pool.stop - x.pool.start = r.size := by
      rw [reserved.wrapped.stop, start]
      unfold Ring.limit
      omega
    rw [dptr, reserved.dptr, stop, start, count]
    generalize v + 12 = u
    have offset : r.place u - r.base + ((frame.length : Int) + 3) / 4 = ((u % r.size + (frame.length + 3) / 4 : Nat) : Int) := by
      unfold Ring.place
      omega
    rw [offset, ← Int.natCast_emod, Nat.mod_add_mod]
    rfl

end server

section client
variable {buf : Nat → BitVec 32} {count : Nat}

theorem frameLength (call : Call) : (call.frame buf count).length = count := by
  rw [Call.frame, List.length_take, List.length_drop, bytesLength, List.length_map, List.length_range]
  omega

theorem frameOf (call : Call) {n : Nat} (enough : call.offset + count ≤ 4 * n) :
    call.frame buf count = ((bytes ((List.range n).map buf)).drop call.offset).take count := by
  have words : (List.range ((call.offset + count + 3) / 4)).map buf =
      ((List.range n).map buf).take ((call.offset + count + 3) / 4) := by
    rw [← List.map_take, List.take_range, Nat.min_eq_left (by omega)]
  rw [Call.frame, words, bytesTake, List.drop_take, List.take_take, Nat.min_eq_left (by omega)]

theorem frameType (buf : Nat → BitVec 32) (call : Call) (long : 14 ≤ count) {j : Nat} (small : j < 2) :
    (call.frame buf count)[12 + j]? = (bytesOf (buf 3))[call.offset + j]? := by
  have offset : call.offset ≤ 2 := by cases call <;> simp [Call.offset]
  rw [Call.frame, List.getElem?_take_of_lt (by omega), List.getElem?_drop,
    show call.offset + (12 + j) = 4 * 3 + (call.offset + j) by omega, bytesAt _ _ (by omega), List.getElem?_map,
    List.getElem?_range (by omega)]
  rfl

theorem halfword (x : BitVec 32) : x.setWidth 16 = 0x0081#16 ↔ x.extractLsb' 0 8 = 0x81#8 ∧ x.extractLsb' 8 8 = 0#8 := by
  simp only [← BitVec.toNat_inj, BitVec.toNat_setWidth, BitVec.extractLsb'_toNat, BitVec.toNat_ofNat, Nat.shiftRight_eq_div_pow]
  omega

theorem byteShifted (x : BitVec 32) (shift start : Nat) :
    (x >>> shift).extractLsb' start 8 = x.extractLsb' (shift + start) 8 := by
  apply BitVec.eq_of_getLsbD_eq
  intro i inside
  rw [BitVec.getLsbD_extractLsb', BitVec.getLsbD_extractLsb', BitVec.getLsbD_ushiftRight, Nat.add_assoc]

/- What the client takes for the ethertype, 0x0081 as the bytes lie, says whether the frame has priority. -/
theorem typePriority (buf : Nat → BitVec 32) (call : Call) (long : 14 ≤ count) :
    (match call with
      | .offset2 => (buf 3 >>> 16).setWidth 16
      | _ => (buf 3).setWidth 16) = 0x0081#16 ↔ priority (call.frame buf count) = true := by
  have first := frameType buf call long (show 0 < 2 by decide)
  have second := frameType buf call long (show 1 < 2 by decide)
  have upper : (buf 3 >>> 16).extractLsb' 0 8 = (buf 3).extractLsb' 16 8 ∧
      (buf 3 >>> 16).extractLsb' 8 8 = (buf 3).extractLsb' 24 8 :=
    ⟨byteShifted (buf 3) 16 0, byteShifted (buf 3) 16 8⟩
  unfold priority
  rw [first, second]
  cases call with
  | offset2 =>
    simp only [halfword, upper]
    simp [Call.offset, bytesOf]
  | full | timed =>
    simp only [halfword]
    simp [Call.offset, bytesOf]

end client

section transfer
variable {buf : Nat → BitVec 32} {count : Nat} {ifnum : BitVec 32} {hpQueue hp : Bool} {ports : List Port}

def Call.base : Call → Cmd
  | .full => .req
  | .timed => .reqTimed
  | .offset2 => .reqOffset2

def Call.cmd (call : Call) (hp : Bool) : Cmd := if hp then ethernetChooseHpCmd 0x0081#16 call.base else call.base

def Call.data (buf : Nat → BitVec 32) (count : Nat) : Call → List Token
  | .offset2 => bytes ((List.range ((count + 7) / 4)).map buf)
  | _ => ((List.range ((count + 3) / 4)).map buf).flatMap outInt

theorem cmdDecoded (call : Call) (on : hp = true → hpQueue = true) :
    decode hpQueue (call.cmd hp).code = some (call.cmd hp) ∧ withoutHp (call.cmd hp) = (call.base, hp) := by
  cases hp <;> cases hpQueue <;> cases call <;> first | exact ⟨rfl, rfl⟩ | cases on rfl

theorem chosen (call : Call) (etype : BitVec 16) :
    (if hpQueue then ethernetChooseHpCmd etype call.base else call.base) = call.cmd (hpQueue && etype = 0x0081#16) := by
  cases hpQueue with
  | false => rfl
  | true =>
    by_cases high : etype = 0x0081#16
    · simp [Call.cmd, high]
    · simp [Call.cmd, high, ethernetChooseHpCmd]

theorem tokensEq (call : Call) (long : 14 ≤ count) (short : count ≤ 1518) :
    call.tokens hpQueue buf (BitVec.ofNat 32 count) ifnum =
      outInt (call.cmd (hpQueue && priority (call.frame buf count))).code ++
        (outInt (BitVec.ofNat 32 count) ++ (outInt ifnum ++ call.data buf count)) := by
  have type := typePriority buf call long
  have three : iterations (BitVec.ofNat 32 count) 3 = (count + 3) / 4 := iterationsOf (k := 3) (by omega)
  have seven : iterations (BitVec.ofNat 32 count) 7 = (count + 7) / 4 := iterationsOf (k := 7) (by omega)
  have pick : ∀ etype : BitVec 16, (etype = 0x0081#16 ↔ priority (call.frame buf count) = true) →
      (if hpQueue then ethernetChooseHpCmd etype call.base else call.base) =
        call.cmd (hpQueue && priority (call.frame buf count)) := by
    intro etype same
    have decided : decide (etype = 0x0081#16) = priority (call.frame buf count) := by
      rw [Bool.eq_iff_iff, decide_eq_true_iff]
      exact same
    rw [chosen, decided]
  cases call with
  | full =>
    have cmd := pick _ type
    simp only [Call.tokens, macTxFull, ethernetSendFrameUnify, Call.data, three, List.flatMap_map, List.append_assoc]
    exact congrArg (fun c : Cmd => outInt c.code ++ _) cmd
  | timed =>
    have cmd := pick _ type
    simp only [Call.tokens, macTxTimed, ethernetSendFrameUnify, Call.data, three, List.flatMap_map, List.append_assoc]
    exact congrArg (fun c : Cmd => outInt c.code ++ _) cmd
  | offset2 =>
    have cmd := pick _ type
    simp only [Call.tokens, macTxOffset2, Call.data, seven, bytes, List.flatMap_map, List.append_assoc, outIntByterev]
    exact congrArg (fun c : Cmd => outInt c.code ++ _) cmd

theorem packetReads (buf : Nat → BitVec 32) (ifnum : BitVec 32) (call : Call) (short : count ≤ 1518) (hp : Bool)
    (ports : List Port) :
    ∃ words : List (BitVec 32), words.length = (count + 3) / 4 ∧ (bytes words).take count = call.frame buf count ∧
      Reads (getPacketFromClient call.base hp ports) (outInt (BitVec.ofNat 32 count) ++ (outInt ifnum ++ call.data buf count))
        ⟨hp, BitVec.ofNat 32 count, ifnum, ports.map (fun x => words.foldl (fun x w => setDataWord w x) x)⟩ := by
  have three : iterations (BitVec.ofNat 32 count) 3 = (count + 3) / 4 := iterationsOf (k := 3) (by omega)
  have plain : call ≠ .offset2 → ∃ words : List (BitVec 32), words.length = (count + 3) / 4 ∧
      (bytes words).take count = call.frame buf count ∧
      Reads (getPacketFromClient call.base hp ports) (outInt (BitVec.ofNat 32 count) ++ (outInt ifnum ++ call.data buf count))
        ⟨hp, BitVec.ofNat 32 count, ifnum, ports.map (fun x => words.foldl (fun x w => setDataWord w x) x)⟩ := by
    intro other
    have offset : call.offset = 0 := by cases call <;> first | rfl | exact absurd rfl other
    have base : call.base ≠ .reqOffset2 := by cases call <;> first | decide | exact absurd rfl other
    have data : call.data buf count = ((List.range ((count + 3) / 4)).map buf).flatMap outInt := by
      cases call <;> first | rfl | exact absurd rfl other
    have length : ((List.range ((count + 3) / 4)).map buf).length = (count + 3) / 4 := by simp
    refine ⟨(List.range ((count + 3) / 4)).map buf, length, ?_, ?_⟩
    · rw [frameOf call (n := (count + 3) / 4) (by omega), offset, List.drop_zero]
    · refine readsBind (readsInt _) (readsBind (readsInt _) ?_)
      rw [if_neg base, three, data]
      have words := getWordsReads id id (fun _ => rfl) ((List.range ((count + 3) / 4)).map buf) ports
      rw [length] at words
      rw [← List.append_nil (List.flatMap outInt _)]
      exact readsBind words (readsPure _)
  cases call with
  | full => exact plain (by simp)
  | timed => exact plain (by simp)
  | offset2 =>
    let sent := bytes ((List.range ((count + 3) / 4 + 1)).map buf)
    have total : sent.length = 4 * ((count + 3) / 4) + 4 := by
      simp only [sent, bytesLength, List.length_map, List.length_range]
      omega
    have data : Call.data buf count .offset2 = sent := by
      simp only [Call.data, sent]
      rw [show (count + 7) / 4 = (count + 3) / 4 + 1 by omega]
    have inside : ((sent.drop 2).take (4 * ((count + 3) / 4))).length = 4 * ((count + 3) / 4) := by
      rw [List.length_take, List.length_drop]; omega
    obtain ⟨packed, length⟩ := bytesPack ((count + 3) / 4) inside
    obtain ⟨a, b, before⟩ := List.length_eq_two.mp (show (sent.take 2).length = 2 by rw [List.length_take]; omega)
    obtain ⟨c, d, behind⟩ := List.length_eq_two.mp
      (show ((sent.drop 2).drop (4 * ((count + 3) / 4))).length = 2 by rw [List.length_drop, List.length_drop]; omega)
    have parts : sent = outChar a ++ (outChar b ++
        ((sent.drop 2).take (4 * ((count + 3) / 4)) ++ (outChar c ++ (outChar d ++ [])))) := by
      have split := List.take_append_drop 2 sent
      have rest := List.take_append_drop (4 * ((count + 3) / 4)) (sent.drop 2)
      rw [behind] at rest
      rw [before, ← rest] at split
      exact split.symm
    generalize inner : (sent.drop 2).take (4 * ((count + 3) / 4)) = middle at *
    have framed : middle.take count = Call.offset2.frame buf count := by
      rw [← inner, List.take_take, Nat.min_eq_left (by omega)]
      exact (frameOf .offset2 (n := (count + 3) / 4 + 1) (by simp only [Call.offset]; omega)).symm
    refine ⟨pack middle, length, by rw [packed, framed], ?_⟩
    have words := getWordsReads byterev byterev byterevTwice (pack middle) ports
    simp only [outIntByterev] at words
    rw [length, ← bytes, packed] at words
    rw [data, parts, Call.base]
    refine readsBind (readsInt _) (readsBind (readsInt _) ?_)
    rw [if_pos rfl, three]
    exact readsBind (readsChar a) (readsBind (readsChar b) (readsBind words (readsBind (readsChar c)
      (readsBind (readsChar d) (readsPure _)))))

theorem serverReads {pools : List Pools} {sent : List Token} {t : Transfer} (call : Call) (on : hp = true → hpQueue = true)
    (room : ∀ x ∈ pools.map (reserve hp), x.buf ≠ 0)
    (reads : Reads (getPacketFromClient call.base hp (pools.map (reserve hp))) sent t) :
    Reads (ethernetTxServer hpQueue pools) (outInt (call.cmd hp).code ++ sent) (some t) := by
  obtain ⟨decoded, without⟩ := cmdDecoded call on
  refine readsBind (readsInt _) ?_
  have all : (pools.map (reserve hp)).all (fun x => x.buf ≠ 0) = true := by simpa using room
  simp only [decoded, without]
  rw [if_pos all]
  exact readsMap some reads

/-- Whatever comes after the tokens of a call is left for the next one. A buffer is at hand where every port has room. -/
theorem transferred (hpQueue : Bool) (pools : List Pools)
    (formed : ∀ x ∈ pools, (hpQueue = true → ∃ r v, Formed x.hp r v) ∧ ∃ r v, Formed x.lp r v)
    (call : Call) (buf : Nat → BitVec 32) (count : Nat) (long : 14 ≤ count) (short : count ≤ 1518) (ifnum : BitVec 32) :
    let frame := call.frame buf count
    let hp := hpQueue && priority frame
    let ports := pools.map (reserve hp)
    frame.length = count ∧ ((∀ x ∈ ports, x.buf ≠ 0) →
      ∃ filled, Reads (ethernetTxServer hpQueue pools) (call.tokens hpQueue buf (BitVec.ofNat 32 count) ifnum)
          (some ⟨hp, BitVec.ofNat 32 count, ifnum, filled⟩) ∧
        List.Forall₂ (Holds frame) ports filled) := by
  intro frame hp ports
  have length : frame.length = count := frameLength call
  refine ⟨length, fun room => ?_⟩
  have on : hp = true → hpQueue = true := fun high => (Bool.and_eq_true_iff.mp high).1
  obtain ⟨words, many, framed, reads⟩ := packetReads buf ifnum call short hp ports
  have holds : ∀ x ∈ ports, Holds frame x (words.foldl (fun x w => setDataWord w x) x) := by
    intro x mem
    obtain ⟨y, member, rfl⟩ := List.mem_map.mp mem
    have some := room _ mem
    obtain ⟨high, low⟩ := formed y member
    rw [← length] at many
    have framed : (bytes words).take frame.length = frame := by rw [length, framed]
    have fits : frame.length ≤ 1518 := length ▸ short
    cases chosen : hp with
    | true =>
      obtain ⟨r, v, h⟩ := high (on chosen)
      rw [chosen] at some
      exact storedHolds (reserveReserved h (by decide) some).1 many fits framed
    | false =>
      obtain ⟨r, v, h⟩ := low
      rw [chosen] at some
      exact storedHolds (reserveReserved h (by decide) some).1 many fits framed
  refine ⟨_, ?_, List.forall₂_map_right_iff.mpr (List.forall₂_same.mpr holds)⟩
  rw [tokensEq call long short]
  exact serverReads call on room reads

theorem transferredTagged :
    let port : Pools := ⟨miiInitMempool (fun _ => 0) 10 (600 * 4), miiInitMempool (fun _ => 0) 610 (600 * 4)⟩
    let buf : Nat → BitVec 32 := fun i => if i = 3 then 0x00810000#32 else BitVec.ofNat 32 i
    ∃ filled, Reads (ethernetTxServer true [port, port]) (Call.offset2.tokens true buf 61#32 1#32)
        (some ⟨true, 61#32, 1#32, filled⟩) ∧
      List.Forall₂ (Holds (Call.offset2.frame buf 61)) ([port, port].map (reserve true)) filled := by
  intro port buf
  have formed : (true = true → ∃ r v, Formed port.hp r v) ∧ ∃ r v, Formed port.lp r v :=
    ⟨fun _ => ⟨_, _, repFormed (initRep _ 10 600 (by decide))⟩, _, _, repFormed (initRep _ 610 600 (by decide))⟩
  have transfer := (transferred true [port, port] (by simpa using formed) .offset2 buf 61 (by decide) (by decide) 1#32).2
  have tagged : priority (Call.offset2.frame buf 61) = true := by decide
  rw [tagged] at transfer
  exact transfer (by decide)

end transfer

end ScEthernet.Full.TxTransfer
