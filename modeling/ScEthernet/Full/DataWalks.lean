import ScEthernet.Full.RxFilter
import ScEthernet.Full.RxTransfer
import ScEthernet.Full.TxTransfer
import ScEthernet.Full.Transmit

/-! The addresses of a packet's data words in the tasks that store them, mii_rx_pins and ethernet_tx_server, and in those
that read them, mac_rx_send_frame1, mii_transmit_packet and mii_packet_get_data. The loops test for the end of the pool
before the access, behind the increment or not at all. -/
namespace ScEthernet.Full.DataWalks
open Lib.WordMemory Lib.UnrolledRing Lib.BitOrder Lib.ShiftCrc Lib.ChannelTokens Lib.Runs Wire Malloc PoolQueue RxPins
open RxFilter (miiPacketGetData own)
open RxTransfer (sendData)
open TxTransfer (Port setDataWord getWords Wrapped nextDataPtrWrapped wrappedStore)
open Transmit (wordAt sendWord sendWords sendTail miiTransmitPacket Registers)

def dataAddress (p : Pool) (buf n : Int) : Int :=
  let q := buf + (n + bufDataOffset)
  if q ≥ p.stop then q - (p.stop - p.start) else q

/- The addresses that the loop of mac_rx_send_frame1 reads. -/
def sendDataReads (p : Pool) : Nat → Int → List Int
  | 0, _ => []
  | n + 1, dptr =>
    let dptr := if dptr = miiGetWrapPtr p then p.mem dptr else dptr
    dptr :: sendDataReads p n (dptr + 1)

/- The addresses that the loop of mii_transmit_packet reads, and the one behind them. -/
def sendWordsReads (p : Pool) (wordCount : Nat) : Nat → Nat → Int → List Int × Int
  | 0, _, dptr => ([], dptr)
  | fuel + 1, i, dptr =>
    let next := nextDataPtr p dptr
    if i + 1 < wordCount then
      let rest := sendWordsReads p wordCount fuel (i + 1) next
      (dptr :: rest.1, rest.2)
    else ([dptr], next)

def transmitReads (p : Pool) (wordCount : Nat) (buf : Int) : List Int × Int :=
  let dptr := miiPacketGetDataPtr buf
  let rest := sendWordsReads p wordCount (wordCount + 1) 1 (dptr + 1)
  (dptr :: rest.1, rest.2)

/- What mii_transmit_packet makes of the words it has read. -/
def onWire (tailByteCount : Nat) (words : List (BitVec 32)) (tail : BitVec 32) : List Bool :=
  match words with
  | [] => []
  | first :: words =>
    let (out, crc) := sendTail tailByteCount (shiftAll poly (crc32 0#32 (~~~ first)) (bits words)) tail
    preamble ++ bits (first :: words) ++ out ++ lsbFirst (crc32 crc (BitVec.allOnes 32))

/- The data word that a store of mii_rx_pins is. -/
def dataIndex (s : RxPins.State) : Event → Option Nat
  | .word _ =>
    match s.phase with
    | .first f => some f.words.length
    | .loop f _ _ => some f.words.length
    | _ => none
  | .eof =>
    match s.phase with
    | .loop _ _ _ => some 5
    | _ => none
  | .tail =>
    match s.phase with
    | .headers f _ _ => some f.words.length
    | _ => none
  | _ => none

/- The pool `q` has the bounds of `p` and the wrap pointer behind them. -/
structure SameRing (p q : Pool) : Prop where
  start : q.start = p.start
  stop : q.stop = p.stop
  wrapWord : q.mem q.stop = q.start

/- mii_rx_pins on its way through a frame in `buf`. Between its steps the pool may change in any way that leaves the wrap
pointer. -/
inductive Receiving (forwards : Bool) (p : Pool) (buf : Int) : RxPins.State → Prop
  | reserved {s : RxPins.State} (phase : s.phase = .reserved buf) (same : SameRing p s.pool) : Receiving forwards p buf s
  | own {s t : RxPins.State} {e : Event} (before : Receiving forwards p buf s) (mine : own e = true) (frame : e ≠ .reserve)
    (taken : RxPins.step forwards s e = some t) : Receiving forwards p buf t
  | other {s t : RxPins.State} (before : Receiving forwards p buf s) (phase : t.phase = s.phase) (same : SameRing p t.pool) :
    Receiving forwards p buf t

/- The packet in `buf` of a pool with room for `size` words: all who store or read word `i` do so at one address. -/
structure OneAddress (forwards : Bool) (p : Pool) (buf : Int) (size : Nat) : Prop where
  inside : ∀ i : Nat, i < size → p.start ≤ dataAddress p buf i ∧ dataAddress p buf i ≤ p.stop - 1
  index : ∀ i : Nat, miiPacketGetData p buf i = p.mem (dataAddress p buf i)
  receives : ∀ s e i st, Receiving forwards p buf s → dataIndex s e = some i → i < size → st ∈ stores forwards s e →
    st.1 = dataAddress p buf i
  gets : ∀ (order sent : BitVec 32 → BitVec 32) (words : List (BitVec 32)) (ports : List Port), (∀ w, order (sent w) = w) →
    words.length ≤ size → ∃ ports', Reads (getWords order words.length ports) (words.flatMap (fun w => outInt (sent w))) ports' ∧
      ∀ (j : Nat) (x : Port), ports[j]? = some x → x.pool = p → x.dptr = miiPacketGetDataPtr buf →
        ∃ y, ports'[j]? = some y ∧
          y.pool.mem = storeAll p.mem (words.zipIdx.map (fun x => (dataAddress p buf x.2, x.1.toInt)))
  sends : ∀ n, n ≤ size → sendDataReads p n (miiPacketGetDataPtr buf) = (List.range n).map (fun i : Nat => dataAddress p buf i) ∧
    ∀ order, sendData p order n (miiPacketGetDataPtr buf) =
      (sendDataReads p n (miiPacketGetDataPtr buf)).flatMap (fun a => outInt (order (BitVec.ofInt 32 (p.mem a))))
  transmits : ∀ atEnd time,
    let length := (miiPacketGetLength p buf).toNat
    let n := max (length / 4) 2
    let q := if atEnd then p else miiPacketSetTimestamp p buf time
    n < size → transmitReads q (length / 4) buf = ((List.range n).map (fun i : Nat => dataAddress p buf i), dataAddress p buf n) ∧
      miiTransmitPacket atEnd p buf time = some (miiPacketSetTimestamp p buf time,
        onWire (length % 4) ((transmitReads q (length / 4) buf).1.map (wordAt q))
          (wordAt (miiPacketSetTimestamp p buf time) (transmitReads q (length / 4) buf).2))

section walks
variable {p : Pool} {r : Ring} {v : Nat}

/-! The loops on their own. -/

theorem sendDataEq (p : Pool) (order : BitVec 32 → BitVec 32) (n : Nat) (dptr : Int) : sendData p order n dptr =
    (sendDataReads p n dptr).flatMap (fun a => outInt (order (BitVec.ofInt 32 (p.mem a)))) := by
  induction n generalizing dptr with
  | zero => rfl
  | succ n ih => rw [sendData, sendDataReads, List.flatMap_cons, ih]

theorem sendWordsEq (p : Pool) (wordCount fuel i : Nat) (enough : wordCount ≤ i + fuel) (positive : 0 < fuel) (t : Registers) :
    sendWords p wordCount fuel i t = some ⟨(sendWordsReads p wordCount fuel i t.dptr).2,
      shiftAll poly t.crc (bits ((sendWordsReads p wordCount fuel i t.dptr).1.map (wordAt p))),
      t.out ++ bits ((sendWordsReads p wordCount fuel i t.dptr).1.map (wordAt p))⟩ := by
  induction fuel generalizing i t with
  | zero => omega
  | succ fuel ih =>
    rw [sendWords, sendWordsReads]
    dsimp only
    split
    · rw [ih _ (by omega) (by omega)]
      simp only [sendWord, List.map_cons, bitsCons, shiftAllAppend, crc32, List.append_assoc]
    · simp only [sendWord, List.map_cons, List.map_nil, bitsCons, bitsNil, List.append_nil, crc32]

theorem transmitEq (atEnd : Bool) (p : Pool) (buf time : Int) :
    let length := (miiPacketGetLength p buf).toNat
    let q := if atEnd then p else miiPacketSetTimestamp p buf time
    miiTransmitPacket atEnd p buf time = some (miiPacketSetTimestamp p buf time,
      onWire (length % 4) ((transmitReads q (length / 4) buf).1.map (wordAt q))
        (wordAt (miiPacketSetTimestamp p buf time) (transmitReads q (length / 4) buf).2)) := by
  dsimp only
  have words := fun q => sendWordsEq q ((miiPacketGetLength p buf).toNat / 4) ((miiPacketGetLength p buf).toNat / 4 + 1) 1
    (by omega) (by omega)
  have stored : (if atEnd then miiPacketSetTimestamp (if atEnd then p else miiPacketSetTimestamp p buf time) buf time
      else if atEnd then p else miiPacketSetTimestamp p buf time) = miiPacketSetTimestamp p buf time := by
    cases atEnd <;> rfl
  rw [miiTransmitPacket]
  simp only [words, Option.bind_eq_bind, Option.bind_some, stored, transmitReads, onWire, List.map_cons, bitsCons,
    List.append_assoc]

/-! In the unrolled ring. -/

theorem placesCons (r : Ring) (v n : Nat) : (List.range (n + 1)).map (fun i => r.place (v + i)) =
    r.place v :: (List.range n).map (fun i => r.place (v + 1 + i)) := by
  rw [List.range_succ_eq_map, List.map_cons, List.map_map]
  simp [Function.comp_def, Nat.add_assoc, Nat.add_comm 1]

theorem dataAddressPlace (start : p.start = r.base) (stop : p.stop = r.limit) (room : r.place v + 22 ≤ r.limit) {i : Nat}
    (small : i < r.size) : dataAddress p (r.place v + 2) i = r.place (v + 12 + i) := by
  have data : r.place (v + 12) = r.place v + 12 := r.placeAdd (by have := r.placeToEnd v; omega)
  have gap := r.placeGap (v := v + 12) (w := v + 12 + i) (by omega) (by omega)
  have lower := r.placeLower (v + 12 + i)
  have upper := r.placeUpper (v + 12 + i)
  rw [dataAddress, start, stop, bufDataOffset]
  unfold Ring.limit at *
  push_cast at gap
  split <;> omega

theorem sendDataWalk (h : Wrapped p r) (n v : Nat) {dptr : Int} (here : dptr = r.place v ∨ dptr = r.limit ∧ r.place v = r.base) :
    sendDataReads p n dptr = (List.range n).map (fun i => r.place (v + i)) := by
  induction n generalizing v dptr with
  | zero => rfl
  | succ n ih =>
    have moved : (if dptr = miiGetWrapPtr p then p.mem dptr else dptr) = r.place v := by
      rw [miiGetWrapPtr, h.stop]
      rcases here with inner | ⟨atEnd, first⟩
      · have upper := r.placeUpper v
        rw [if_neg (by omega), inner]
      · rw [if_pos atEnd, atEnd, ← h.stop, h.wrapWord, h.start, first]
    have next := r.placeSucc v
    have behind : r.place v + 1 = r.place (v + 1) ∨ r.place v + 1 = r.limit ∧ r.place (v + 1) = r.base := by
      split at next
      · rename_i last
        exact .inr ⟨last, next⟩
      · exact .inl next.symm
    rw [sendDataReads, moved, ih (v + 1) behind, placesCons]

theorem sendWordsWalk (h : Wrapped p r) (wordCount fuel i v : Nat) (enough : wordCount ≤ i + fuel) (positive : 0 < fuel) :
    sendWordsReads p wordCount fuel i (r.place v) =
      ((List.range (max (wordCount - i) 1)).map (fun j => r.place (v + j)), r.place (v + max (wordCount - i) 1)) := by
  induction fuel generalizing i v with
  | zero => omega
  | succ fuel ih =>
    rw [sendWordsReads, nextDataPtrWrapped h]
    dsimp only
    split
    · rename_i more
      have count : max (wordCount - i) 1 = max (wordCount - (i + 1)) 1 + 1 := by omega
      rw [ih _ _ (by omega) (by omega), count, placesCons, Nat.add_assoc v 1, Nat.add_comm 1]
    · rename_i last
      have count : max (wordCount - i) 1 = 1 := by omega
      rw [count]
      rfl

theorem setDataWordsWalk (words : List (BitVec 32)) {x : Port} (h : Wrapped x.pool r) (dptr : x.dptr = r.place v) :
    (words.foldl (fun x w => setDataWord w x) x).pool.mem =
      storeAll x.pool.mem (words.zipIdx.map (fun x => (r.place (v + x.2), x.1.toInt))) := by
  induction words generalizing x v with
  | nil => rfl
  | cons w words ih =>
    have next := wrappedStore h v w.toInt
    have rest := ih (x := setDataWord w x) (v := v + 1) (by simpa only [setDataWord, dptr] using next)
      (by simp only [setDataWord, dptr, nextDataPtrWrapped next])
    rw [List.foldl_cons, rest, List.zipIdx_cons, List.map_cons, storeAllCons, List.zipIdx_succ, List.map_map]
    simp [setDataWord, dptr, Function.comp_def, Nat.add_assoc, Nat.add_comm 1]

/-! mii_rx_pins. -/

def Walked (r : Ring) (v : Nat) (s : RxPins.State) : Prop :=
  match s.phase with
  | .idle => True
  | .reserved buf => buf = r.place v + 2 ∧ Wrapped s.pool r
  | .first f => f.buf = r.place v + 2 ∧ f.dptr = r.place (v + 12) ∧ f.words.length ≤ 5 ∧ Wrapped s.pool r
  | .loop f _ _ => f.buf = r.place v + 2 ∧ f.dptr = r.place (v + 12 + f.words.length) ∧ Wrapped s.pool r
  | .port f _ => f.dptr = r.place (v + 12 + f.words.length)
  | .headers f _ _ => f.dptr = r.place (v + 12 + f.words.length)
  | .commit _ => True

section receiver
variable {forwards : Bool} {s t : RxPins.State} {e : Event}

theorem placeShort (room : r.place v + 22 ≤ r.limit) {k : Nat} (small : k < 22) : r.place (v + k) = r.place v + k :=
  r.placeAdd (by have := r.placeToEnd v; omega)

theorem stepWalked (room : r.place v + 22 ≤ r.limit) (h : Walked r v s) (mine : own e = true) (frame : e ≠ .reserve)
    (taken : RxPins.step forwards s e = some t) : Walked r v t := by
  unfold Walked at h
  cases stepCases taken with
  | reserve => exact absurd rfl frame
  | sof time phase =>
    simp only [phase] at h
    obtain ⟨buf, wrapped⟩ := h
    have data := placeShort room (k := 12) (by decide)
    refine ⟨buf, ?_, Nat.zero_le _, wrapped⟩
    rw [miiPacketGetDataPtr, buf, data, bufDataOffset]
    push_cast; omega
  | @early f word phase small =>
    simp only [phase] at h
    obtain ⟨buf, dptr, short, wrapped⟩ := h
    have first := placeShort room (k := 12) (by decide)
    have here := placeShort room (k := 12 + f.words.length) (by omega)
    have addr : f.dptr + f.words.length = r.place (v + (12 + f.words.length)) := by
      rw [dptr, first, here]
      push_cast; omega
    refine ⟨buf, dptr, by rw [List.length_append, List.length_singleton]; omega, ?_⟩
    simp only [stored, stores, phase, if_pos small, storeAllCons, storeAllNil, addr]
    exact wrappedStore wrapped _ _
  | @sixth f word phase five =>
    simp only [phase] at h
    obtain ⟨buf, dptr, short, wrapped⟩ := h
    have first := placeShort room (k := 12) (by decide)
    have seventh := placeShort room (k := 18) (by decide)
    have count : f.words.length = 5 := by omega
    refine ⟨buf, ?_, ?_⟩
    · simp only [List.length_append, List.length_singleton, count]
      rw [dptr, first, seventh]
      push_cast; omega
    · simp only [stored, stores, phase, if_neg five, storeAllNil]
      exact wrapped
  | @word f sixth ii word phase free =>
    simp only [phase] at h
    obtain ⟨buf, dptr, wrapped⟩ := h
    simp only [stored, stores, phase, if_pos free, storeAllCons, storeAllNil]
    have next := wrappedStore wrapped (v + 12 + f.words.length) word.toInt
    rw [← dptr] at next
    refine ⟨buf, ?_, next⟩
    dsimp only
    rw [dptr] at next ⊢
    rw [nextDataPtrWrapped next, List.length_append, List.length_singleton, Nat.add_assoc]
  | lost _ phase =>
    simp only [phase] at h
    unfold Walked
    simp only [phase]
    exact h
  | eof phase =>
    simp only [phase] at h
    exact h.2.1
  | port _ _ phase | header phase =>
    simp only [phase] at h
    exact h
  | tail | full | refused | commit | drop => trivial
  | set | free => cases mine

theorem receivingWalked (start : p.start = r.base) (stop : p.stop = r.limit) (room : r.place v + 22 ≤ r.limit)
    (h : Receiving forwards p (r.place v + 2) s) : Walked r v s := by
  have ring : ∀ {q}, SameRing p q → Wrapped q r := fun same => ⟨same.start.trans start, same.stop.trans stop, same.wrapWord⟩
  induction h with
  | reserved phase same =>
    unfold Walked
    simp only [phase]
    exact ⟨trivial, ring same⟩
  | own before mine frame taken ih => exact stepWalked room ih mine frame taken
  | @other s t before phase same ih =>
    unfold Walked at ih ⊢
    rw [phase]
    cases now : s.phase <;> simp only [now] at ih ⊢
    case reserved => exact ⟨ih.1, ring same⟩
    case first => exact ⟨ih.1, ih.2.1, ih.2.2.1, ring same⟩
    case loop => exact ⟨ih.1, ih.2.1, ring same⟩
    case port => exact ih
    case headers => exact ih

theorem runReceiving {vr vw : Nat} {buf : Int} {es : List Event} (h : Ringed s r vr vw) (before : Receiving forwards p buf s)
    (start : p.start = r.base) (stop : p.stop = r.limit) (frame : .reserve ∉ es)
    (passed : run (RxPins.step forwards) s es = some t) : Receiving forwards p buf t := by
  induction es generalizing s vr vw with
  | nil =>
    cases passed
    exact before
  | cons e es ih =>
    rw [run] at passed
    obtain ⟨u, taken, rest⟩ := Option.bind_eq_some_iff.mp passed
    obtain ⟨vr', vw', -, -, next⟩ := stepAdvances h taken
    refine ih next ?_ (fun member => frame (List.mem_cons_of_mem _ member)) rest
    cases mine : own e with
    | true => exact .own before mine (fun same => frame (same ▸ List.mem_cons_self)) taken
    | false =>
      obtain ⟨phase, -⟩ := RxComplete.othersKeep h (RxFilter.otherCalls mine) taken
      exact .other before phase ⟨next.rep.start.trans start.symm, next.rep.stop.trans stop.symm, next.rep.wrapWord⟩

theorem storesWalked (room : r.place v + 22 ≤ r.limit) (h : Walked r v s) {i : Nat} (index : dataIndex s e = some i)
    {st : Int × Int} (member : st ∈ stores forwards s e) : st.1 = r.place (v + 12 + i) := by
  unfold Walked at h
  cases e with
  | word word =>
    cases phase : s.phase <;> simp only [dataIndex, stores, phase] at h index member
    case first f =>
      obtain rfl := Option.some.inj index
      split at member
      · rename_i small
        rw [List.mem_singleton.mp member, h.2.1, placeShort room (k := 12) (by decide), Nat.add_assoc,
          placeShort room (k := 12 + f.words.length) (by omega)]
        push_cast; omega
      · cases member
    case loop f sixth ii =>
      obtain rfl := Option.some.inj index
      split at member
      · rw [List.mem_singleton.mp member, h.2.1]
      · cases member
    all_goals cases index
  | eof =>
    cases phase : s.phase <;> simp only [dataIndex, stores, phase] at h index member
    case loop f sixth ii =>
      obtain rfl := Option.some.inj index
      rw [List.mem_singleton.mp member, miiPacketGetDataPtr, h.1, bufDataOffset, Nat.add_assoc,
        placeShort room (k := 12 + 5) (by decide)]
      push_cast; omega
    all_goals cases index
  | tail =>
    cases phase : s.phase <;> simp only [dataIndex, stores, phase] at h index member
    case headers f tail pending =>
      obtain rfl := Option.some.inj index
      cases pending with
      | cons field pending => cases member
      | nil =>
        dsimp only at member
        split at member
        · rw [List.mem_singleton.mp member, h]
        · cases member
    all_goals cases index
  | _ => cases index

end receiver

theorem transmitReadsWalk (h : Wrapped p r) (room : r.place v + 22 ≤ r.limit) (wordCount : Nat) :
    transmitReads p wordCount (r.place v + 2) =
      ((List.range (max wordCount 2)).map (fun i => r.place (v + 12 + i)), r.place (v + 12 + max wordCount 2)) := by
  have first : miiPacketGetDataPtr (r.place v + 2) = r.place (v + 12) := by
    rw [miiPacketGetDataPtr, placeShort room (k := 12) (by decide), bufDataOffset]
    push_cast; omega
  have second : r.place (v + 12) + 1 = r.place (v + 12 + 1) := by
    rw [placeShort room (k := 12) (by decide), placeShort room (k := 12 + 1) (by decide)]
    push_cast; omega
  have count : max wordCount 2 = max (wordCount - 1) 1 + 1 := by omega
  rw [transmitReads, first]
  rw [second, sendWordsWalk h _ _ _ _ (by omega) (by omega), count, placesCons, Nat.add_assoc (v + 12) 1, Nat.add_comm 1]

end walks

/- For every pool whose wrap pointer is in place, and a packet at every place where one may start. -/
theorem oneAddress (forwards : Bool) (p : Pool) (w : Int) (wrapWord : p.mem p.stop = p.start) (lower : p.start ≤ w)
    (upper : minUsage ≤ 4 * (p.stop - w)) :
    OneAddress forwards p (w + mallocHdrSize / 4) (p.stop - p.start).toNat := by
  simp only [minUsage, miiPacketHeaderSize, mallocHdrSize] at upper
  let r : Ring := ⟨p.start, (p.stop - p.start).toNat, by omega⟩
  have limit : r.limit = p.stop := by
    unfold Ring.limit
    dsimp only [r]
    omega
  have place : r.place (w - p.start).toNat = w := by
    unfold Ring.place
    dsimp only [r]
    rw [Nat.mod_eq_of_lt (by omega)]
    omega
  have room : r.place (w - p.start).toNat + 22 ≤ r.limit := by omega
  have wrapped : Wrapped p r := ⟨rfl, limit.symm, wrapWord⟩
  have buf : w + mallocHdrSize / 4 = r.place (w - p.start).toNat + 2 := by rw [place]; rfl
  have data : miiPacketGetDataPtr (r.place (w - p.start).toNat + 2) = r.place ((w - p.start).toNat + 12) := by
    rw [miiPacketGetDataPtr, placeShort room (k := 12) (by decide), bufDataOffset]
    push_cast; omega
  have address : ∀ {i : Nat}, i < (p.stop - p.start).toNat → dataAddress p (r.place (w - p.start).toNat + 2) i =
      r.place ((w - p.start).toNat + 12 + i) := dataAddressPlace rfl limit.symm room
  rw [buf]
  generalize (w - p.start).toNat = v at *
  refine ⟨fun i small => ?_, fun _ => rfl, fun s e i st receiving index small member => ?_, ?_, fun n fits => ⟨?_, fun order => ?_⟩, ?_⟩
  · have below := r.placeLower (v + 12 + i)
    have above := r.placeUpper (v + 12 + i)
    rw [address small]
    exact ⟨below, by omega⟩
  · rw [address small]
    exact storesWalked room (receivingWalked rfl limit.symm room receiving) index member
  · intro order sent words ports same fits
    refine ⟨_, TxTransfer.getWordsReads order sent same words ports, fun j x found pool dptr => ?_⟩
    refine ⟨_, by rw [List.getElem?_map, found]; rfl, ?_⟩
    rw [setDataWordsWalk words (v := v + 12) (pool ▸ wrapped) (dptr.trans data), pool]
    congr 1
    refine List.map_congr_left fun y member => ?_
    have inside := List.snd_lt_of_mem_zipIdx member
    rw [address (by omega)]
  · rw [data, sendDataWalk wrapped n (v + 12) (.inl rfl)]
    refine List.map_congr_left fun i member => ?_
    have inside := List.mem_range.mp member
    rw [address (by omega)]
  · exact sendDataEq p order n _
  · intro atEnd time length n q small
    refine ⟨?_, transmitEq atEnd p _ time⟩
    have header : p.stop ≠ r.place v + 2 + Field.timestamp.offset := by
      simp only [Field.offset]
      omega
    have kept : Wrapped q r := by
      cases atEnd with
      | true => exact wrapped
      | false => exact ⟨rfl, limit.symm, (storeOther header).trans wrapWord⟩
    rw [transmitReadsWalk kept room, address small]
    congr 1
    refine List.map_congr_left fun i member => ?_
    have inside := List.mem_range.mp member
    rw [address (by omega)]

/- The driver has every packet it receives at such a place and the wrap pointer behind the ring, in every run. -/
theorem runsReceive (forwards : Bool) (mem : Int → Int) (mempool memsize : Nat) (enough : 28 ≤ memsize) (before es : List Event)
    (s t : RxPins.State) (buf : Int) (reached : run (RxPins.step forwards) (RxPins.initial mem mempool memsize) before = some s)
    (phase : s.phase = .reserved buf) (frame : .reserve ∉ es) (passed : run (RxPins.step forwards) s es = some t) :
    s.pool.mem s.pool.stop = s.pool.start ∧ s.pool.start ≤ buf - mallocHdrSize / 4 ∧
    minUsage ≤ 4 * (s.pool.stop - (buf - mallocHdrSize / 4)) ∧ Receiving forwards s.pool buf t := by
  have keeps : ∀ s e t, (∃ r vr vw, Ringed s r vr vw) → RxPins.step forwards s e = some t → ∃ r vr vw, Ringed t r vr vw :=
    fun _ _ _ ⟨r, _, _, h⟩ taken => ⟨r, RxPins.stepKeeps h taken⟩
  obtain ⟨r, vr, vw, h⟩ := runInvariant keeps (ringedInitial mem mempool memsize enough) reached
  have inv := h.phase
  simp only [PhaseInv, phase] at inv
  have lower := r.placeLower vw
  have room := h.rep.wrRoom
  have place : buf - mallocHdrSize / 4 = r.place vw := by
    rw [inv.buf, h.rep.wrptr, mallocHdrSize]
    omega
  rw [place]
  refine ⟨h.rep.wrapWord, h.rep.start ▸ lower, ?_, ?_⟩
  · rw [h.rep.stop]
    simp only [minUsage, miiPacketHeaderSize, mallocHdrSize]
    omega
  · exact runReceiving h (.reserved phase ⟨rfl, rfl, h.rep.wrapWord⟩) h.rep.start h.rep.stop frame passed

/- Ten words before the end of a pool of 128, which has five words of its own before the ring. -/
theorem oneAddressWrapped :
    OneAddress true (miiInitMempool (fun _ => 0) 0 512) (105 + mallocHdrSize / 4) 122 ∧
    dataAddress (miiInitMempool (fun _ => 0) 0 512) (105 + mallocHdrSize / 4) 9 = 126 ∧
    dataAddress (miiInitMempool (fun _ => 0) 0 512) (105 + mallocHdrSize / 4) 10 = 5 :=
  ⟨oneAddress true (miiInitMempool (fun _ => 0) 0 512) 105 (by decide) (by decide) (by decide), by decide, by decide⟩

end ScEthernet.Full.DataWalks
