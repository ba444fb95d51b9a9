import ScEthernet.Full.RxComplete

/-! The CRC check of ethernet_filter on a buffer that mii_rx_pins has handed over, and the receiver through
one frame from the reservation on, with the calls of the other tasks between its steps. -/
namespace ScEthernet.Full.RxFilter
open Lib.WordMemory Lib.UnrolledRing Lib.BitOrder Lib.ShiftCrc Lib.Runs Wire Malloc PoolQueue RxPins RxComplete

/- The wrap of mii_packet_get_data subtracts the ring. -/
def miiPacketGetData (p : Pool) (buf n : Int) : Int :=
  let q := buf + (n + bufDataOffset)
  p.mem (if q ≥ p.stop then q - (p.stop - p.start) else q)

/- The switch on endbytes. -/
def endCRC : Nat → BitVec 32 → BitVec 32 → BitVec 32
  | 1, crc, tail => (crc8shr crc tail).1
  | 2, crc, tail =>
    let (crc, tail) := crc8shr crc tail
    (crc8shr crc tail).1
  | 3, crc, tail =>
    let (crc, tail) := crc8shr crc tail
    let (crc, tail) := crc8shr crc tail
    (crc8shr crc tail).1
  | _, crc, _ => crc

def filterCRC (p : Pool) (buf : Int) : BitVec 32 :=
  let length := miiPacketGetLength p buf
  let crc := BitVec.ofInt 32 (getField .crc p buf)
  let tail := BitVec.ofInt 32 (miiPacketGetData p buf (length / 4 * 4 / 4 + 1))
  endCRC (length % 4).toNat crc tail

def CrcGood (p : Pool) (buf : Int) : Prop := ~~~filterCRC p buf = 0#32
instance (p buf) : Decidable (CrcGood p buf) := by unfold CrcGood; infer_instance

inductive Verdict where
  | filteredByLength
  | filteredByBadCrc
  | filter
  deriving DecidableEq

def ethernetFilter (p : Pool) (buf : Int) : Verdict :=
  if miiPacketGetLength p buf < 60 then .filteredByLength
  else if ¬ CrcGood p buf then .filteredByBadCrc
  else .filter

/-! A frame at the pins. -/

structure Pins where
  words : List (BitVec 32)
  taillen : Fin 32
  tail : BitVec 32

def closing (x : Pins) : List Event := [.eof, .port x.taillen x.tail, .header, .header, .header, .tail]

def frameEvents (time : Int) (x : Pins) : List Event := .reserve :: .sof time :: (x.words.map .word ++ closing x)

def own : Event → Bool
  | .set _ _ _ => false
  | .free _ => false
  | _ => true

def Room (p : Pool) (x : Pins) : Prop := 4 * (12 + (x.words.length : Int) + 22) ≤ spaceLeft p

def wholeBits (x : Pins) : List Bool :=
  bits x.words ++ (lsbFirst (x.tail >>> (32 - x.taillen.val))).take (8 * (x.taillen.val >>> 3))

def tailWord (x : Pins) : BitVec 32 := x.tail >>> (32 - x.taillen.val)

/-! The receiver in the frame. -/

def Expects (x : Pins) (time : Int) (s : RxComplete.State) (todo : List Event) : Prop :=
  match s.rx.phase with
  | .idle => todo = frameEvents time x
  | .reserved _ => todo = .sof time :: (x.words.map .word ++ closing x)
  | .first _ => ∃ ws, todo = ws.map .word ++ closing x ∧ s.received ++ ws = x.words
  | .loop _ _ _ => s.missed = false ∧ ∃ ws, todo = ws.map .word ++ closing x ∧ s.received ++ ws = x.words
  | .port _ _ => s.missed = false ∧ todo = (closing x).tail ∧ s.received = x.words
  | .headers _ tail pending => s.missed = false ∧ todo = pending.map (fun _ => .header) ++ [.tail] ∧
      s.received = x.words ∧ s.leftover = x.taillen.val >>> 3 ∧ tail = (tailWord x).toInt
  | .commit f => s.missed = false ∧ todo = [] ∧
      s.received = x.words ∧ s.leftover = x.taillen.val >>> 3 ∧ s.rx.pool.mem f.dptr = (tailWord x).toInt

structure InFrame (x : Pins) (time : Int) (r : Ring) (vr vw : Nat) (s : RxComplete.State) (todo : List Event) : Prop where
  ringed : Ringed s.rx r vr vw
  kept : PhaseKept s
  room : vw + 12 + x.words.length + 22 ≤ vr + r.size
  expects : Expects x time s todo

section frame
variable {forwards : Bool} {x : Pins} {time : Int} {r : Ring} {vr vw : Nat} {s t : RxComplete.State} {e : Event} {todo : List Event}

theorem inFrameNext (h : InFrame x time r vr vw s (e :: todo)) (enabled : (RxPins.step forwards s.rx e).isSome = true)
    (next : ∀ u, RxPins.step forwards s.rx e = some u → u.sent = s.rx.sent ∧ Expects x time (observe s u e) todo) :
    ∃ t vr', RxComplete.step forwards s e = some t ∧ InFrame x time r vr' vw t todo := by
  obtain ⟨u, taken⟩ := Option.isSome_iff_exists.mp enabled
  obtain ⟨sent, expects⟩ := next u taken
  obtain ⟨vr', vw', le, same, ringed⟩ := stepAdvances h.ringed taken
  rw [same sent] at ringed
  have moved : RxComplete.step forwards s e = some (observe s u e) := by rw [RxComplete.step, taken]; rfl
  have room := h.room
  exact ⟨_, vr', moved, (observeRx s u e).symm ▸ ringed, stepKept h.ringed h.kept moved, by omega, expects⟩

theorem reserveRoom {p : Pool} {q : List Pkt} (h : Rep p q r vr vw) (room : vw + 22 ≤ vr + r.size) :
    (miiReserve p 0).2.1 ≠ 0 := by
  have space := spaceLeftRep h
  have positive := placePositive h vw
  have wrptr := h.wrptr
  unfold miiReserve
  split
  · rename_i short
    obtain ⟨ahead, -, below⟩ := short
    simp only [minUsage, miiPacketHeaderSize, mallocHdrSize] at below
    unfold spaceLeft at space
    dsimp only at space
    split at space <;> omega
  · simp only [mallocHdrSize]; omega

theorem firstTaken (h : InFrame x time r vr vw s (e :: todo)) (long : 6 ≤ x.words.length) {f : Frame}
    (phase : s.rx.phase = .first f) : ∃ t vr', RxComplete.step forwards s e = some t ∧ InFrame x time r vr' vw t todo := by
  have inv := h.ringed.phase
  have kept := h.kept
  have expects := h.expects
  simp only [PhaseInv, phase] at inv
  simp only [PhaseKept, phase] at kept
  simp only [Expects, phase] at expects
  obtain ⟨ws, left, all⟩ := expects
  obtain ⟨kept, found⟩ := kept
  have count : f.words.length = s.received.length := by rw [(kept.all found).1, List.length_map]
  have missed : (s.missed || full s.rx) = false := by simp [found, full, phase]
  cases ws with
  | nil =>
    rw [List.append_nil] at all
    have := inv.2.2.1
    rw [← all] at long
    omega
  | cons w ws =>
    obtain ⟨rfl, rfl⟩ := List.cons.inj left
    have next : (s.received ++ [w]) ++ ws = x.words := by rw [← all, List.append_assoc]; rfl
    refine inFrameNext h (by simp [RxPins.step, phase]) fun u moved => ?_
    simp only [RxPins.step, phase] at moved
    cases moved
    refine ⟨rfl, ?_⟩
    by_cases small : f.words.length < 5
    · simp only [Expects, observe, if_pos small]
      exact ⟨ws, rfl, next⟩
    · simp only [Expects, observe, if_neg small]
      exact ⟨missed, ws, rfl, next⟩

theorem loopTaken (h : InFrame x time r vr vw s (e :: todo)) {f : Frame} {sixth ii : Int}
    (phase : s.rx.phase = .loop f sixth ii) : ∃ t vr', RxComplete.step forwards s e = some t ∧ InFrame x time r vr' vw t todo := by
  have inv := h.ringed.phase
  have kept := h.kept
  have room := h.room
  have expects := h.expects
  simp only [PhaseInv, phase] at inv
  simp only [PhaseKept, phase] at kept
  simp only [Expects, phase] at expects
  obtain ⟨found, ws, left, all⟩ := expects
  have count : f.words.length = s.received.length := by rw [(kept.1.all found).1, List.length_map]
  cases ws with
  | nil =>
    rw [List.append_nil] at all
    obtain ⟨rfl, rfl⟩ := List.cons.inj left
    refine inFrameNext h (by simp [RxPins.step, phase]) fun u moved => ?_
    simp only [RxPins.step, phase] at moved
    cases moved
    exact ⟨rfl, found, rfl, all⟩
  | cons w ws =>
    obtain ⟨rfl, rfl⟩ := List.cons.inj left
    have length := congrArg List.length all
    rw [List.length_append, List.length_cons] at length
    have free := (dptrFree h.ringed.rep inv.1).mpr (by omega)
    refine inFrameNext h (by simp [RxPins.step, phase, if_pos free]) fun u moved => ?_
    simp only [RxPins.step, phase, if_pos free] at moved
    cases moved
    refine ⟨rfl, by simp [observe, found, full, phase, free], ws, rfl, ?_⟩
    rw [← all]
    simp [observe]

theorem headersTaken (h : InFrame x time r vr vw s (e :: todo)) {f : Frame} {tail : Int} {pending : List (Field × Int)}
    (phase : s.rx.phase = .headers f tail pending) : ∃ t vr', RxComplete.step forwards s e = some t ∧ InFrame x time r vr' vw t todo := by
  have inv := h.ringed.phase
  have kept := h.kept
  have room := h.room
  have expects := h.expects
  simp only [PhaseInv, phase] at inv
  simp only [PhaseKept, phase] at kept
  simp only [Expects, phase] at expects
  obtain ⟨found, left, all, leftover, value⟩ := expects
  have count : f.words.length = s.received.length := by rw [(kept.1.all found).1, List.length_map]
  cases pending with
  | cons field pending =>
    obtain ⟨rfl, rfl⟩ := List.cons.inj left
    refine inFrameNext h (by simp [RxPins.step, phase]) fun u moved => ?_
    simp only [RxPins.step, phase] at moved
    cases moved
    exact ⟨rfl, found, rfl, all, leftover, value⟩
  | nil =>
    obtain ⟨rfl, rfl⟩ := List.cons.inj left
    have free := (dptrFree h.ringed.rep inv).mpr (by rw [count, all]; omega)
    refine inFrameNext h (by simp [RxPins.step, phase, if_pos free]) fun u moved => ?_
    simp only [RxPins.step, phase, if_pos free] at moved
    cases moved
    refine ⟨rfl, found, rfl, all, leftover, ?_⟩
    simp only [observe, RxPins.stored, stores, phase, if_pos free, storeAllCons, storeAllNil, storeSame, value]

theorem ownTaken (forwards : Bool) (h : InFrame x time r vr vw s (e :: todo)) (long : 6 ≤ x.words.length) :
    ∃ t vr', RxComplete.step forwards s e = some t ∧ InFrame x time r vr' vw t todo := by
  have room := h.room
  have expects := h.expects
  unfold Expects at expects
  cases phase : s.rx.phase <;> simp only [phase] at expects
  case idle =>
    obtain ⟨rfl, rfl⟩ := List.cons.inj expects
    have positive := reserveRoom h.ringed.rep (by omega)
    refine inFrameNext h (by simp [RxPins.step, phase]) fun u moved => ?_
    simp only [RxPins.step, phase] at moved
    cases moved
    refine ⟨rfl, ?_⟩
    simp only [Expects, observe, if_neg positive]
  case reserved buf =>
    obtain ⟨rfl, rfl⟩ := List.cons.inj expects
    refine inFrameNext h (by simp [RxPins.step, phase]) fun u moved => ?_
    simp only [RxPins.step, phase] at moved
    cases moved
    exact ⟨rfl, x.words, rfl, rfl⟩
  case first f => exact firstTaken h long phase
  case loop f sixth ii => exact loopTaken h phase
  case port f ii =>
    obtain ⟨found, left, all⟩ := expects
    obtain ⟨rfl, rfl⟩ := List.cons.inj left
    refine inFrameNext h (by simp [RxPins.step, phase]) fun u moved => ?_
    simp only [RxPins.step, phase] at moved
    cases moved
    exact ⟨rfl, found, rfl, all, rfl, rfl⟩
  case headers f tail pending => exact headersTaken h phase
  case commit f => cases expects.2.1

theorem otherCalls (other : own e = false) : (∃ buf f x, e = .set buf f x) ∨ ∃ buf, e = .free buf := by
  cases e with
  | set buf f x => exact .inl ⟨buf, f, x, rfl⟩
  | free buf => exact .inr ⟨buf, rfl⟩
  | _ => cases other

theorem observeOther (s : RxComplete.State) (u : RxPins.State) (other : own e = false) : observe s u e = { s with rx := u } := by
  rcases otherCalls other with ⟨_, _, _, rfl⟩ | ⟨_, rfl⟩ <;> rfl

theorem otherTaken (h : InFrame x time r vr vw s todo) (other : own e = false) (taken : RxComplete.step forwards s e = some t) :
    ∃ vr', InFrame x time r vr' vw t todo := by
  obtain ⟨u, moved, rfl⟩ := Option.map_eq_some_iff.mp taken
  have which := otherCalls other
  have sent : u.sent = s.rx.sent := by
    by_contra sends
    obtain ⟨rfl, -⟩ := stepSends moved sends
    cases other
  obtain ⟨vr', vw', le, same, next⟩ := stepAdvances h.ringed moved
  rw [same sent] at next
  have room := h.room
  have inv := h.ringed.phase
  have kept := h.kept
  obtain ⟨phase, words⟩ := othersKeep h.ringed which moved
  refine ⟨vr', (observeRx s u e).symm ▸ next, stepKept h.ringed h.kept taken, by omega, ?_⟩
  have expects := h.expects
  rw [observeOther s u other]
  unfold Expects at expects ⊢
  unfold PhaseInv at inv
  simp only [phase]
  cases now : s.rx.phase <;> simp only [now] at expects inv ⊢ <;> try exact expects
  case commit f =>
    obtain ⟨found, left, all, leftover, value⟩ := expects
    refine ⟨found, left, all, leftover, ?_⟩
    rw [← value, inv.1.dptr]
    exact words _ (by omega) inv.2

theorem frameOwn (time : Int) (x : Pins) : (frameEvents time x).filter own = frameEvents time x := by
  refine List.filter_eq_self.mpr fun e member => ?_
  simp only [frameEvents, closing, List.mem_cons, List.mem_append, List.mem_map, List.not_mem_nil, or_false] at member
  rcases member with rfl | rfl | ⟨w, -, rfl⟩ | rfl | rfl | rfl | rfl | rfl | rfl <;> rfl

theorem ownRun (forwards : Bool) (h : InFrame x time r vr vw s todo) (long : 6 ≤ x.words.length) :
    ∃ t, run (RxComplete.step forwards) s todo = some t := by
  induction todo generalizing s vr with
  | nil => exact ⟨s, rfl⟩
  | cons e todo ih =>
    obtain ⟨t, vr', taken, next⟩ := ownTaken forwards h long
    obtain ⟨u, reached⟩ := ih next
    exact ⟨u, by rw [run, taken]; exact reached⟩

theorem interleavedRun {es : List Event} (h : InFrame x time r vr vw s todo) (long : 6 ≤ x.words.length)
    (owned : es.filter own = todo) (reached : run (RxComplete.step forwards) s es = some t) :
    ∃ vr', InFrame x time r vr' vw t [] := by
  induction es generalizing s vr todo with
  | nil => cases owned; cases reached; exact ⟨vr, h⟩
  | cons e es ih =>
    rw [run] at reached
    obtain ⟨u, taken, rest⟩ := Option.bind_eq_some_iff.mp reached
    cases mine : own e with
    | false =>
      rw [List.filter_cons_of_neg (by simp [mine])] at owned
      obtain ⟨vr', next⟩ := otherTaken h mine taken
      exact ih next owned rest
    | true =>
      rw [List.filter_cons_of_pos mine] at owned
      rw [← owned] at h
      obtain ⟨v, vr', moved, next⟩ := ownTaken forwards h long
      rw [taken] at moved
      cases moved
      exact ih next rfl rest

theorem inFrameEnd (h : InFrame x time r vr vw s []) : ∃ f, s.rx.phase = .commit f ∧ s.missed = false ∧
    s.received = x.words ∧ s.leftover = x.taillen.val >>> 3 ∧ s.rx.pool.mem f.dptr = (tailWord x).toInt := by
  have expects := h.expects
  unfold Expects at expects
  cases phase : s.rx.phase <;> simp only [phase] at expects
  case commit f => exact ⟨f, rfl, expects.1, expects.2.2⟩
  case first f => obtain ⟨ws, left, -⟩ := expects; cases ws <;> cases left
  case loop f sixth ii => obtain ⟨-, ws, left, -⟩ := expects; cases ws <;> cases left
  case headers f tail pending => obtain ⟨-, left, -⟩ := expects; cases pending <;> cases left
  case port f ii => cases expects.2.1
  all_goals cases expects

theorem commitReturns {p : Pool} {q : List Pkt} {D : Nat} (h : Rep p q r vr vw) (le : vw ≤ D) (room : D + 22 ≤ vr + r.size)
    (buf : Int) :
    (miiCommit forwards p buf (r.place D)).2 ≠ 0 := by
  rw [miiCommitEq h]
  split
  · rename_i near
    split
    · rename_i start
      have vrLe := repLe h
      have gap := r.placeGap (v := vr) (w := D) (by omega) (by omega)
      have lower := r.placeLower D
      rw [h.rdptr, h.start] at start
      unfold Ring.limit at near
      omega
    · simp [commitAt]
  · simp [commitAt]

/- The commit does not touch the word behind the data, which mii_packet_get_data finds by the length. -/
theorem tailFound (forwards : Bool) {f : Frame} (h : Ringed s.rx r vr vw) (fill : Filling s.rx.pool r vr vw f none)
    (spare : vw + 12 + f.words.length < vr + r.size) :
    miiPacketGetData (miiCommit forwards s.rx.pool f.buf f.dptr).1 f.buf f.words.length = s.rx.pool.mem f.dptr := by
  have place := repWrptr h.rep (k := 12) (by omega)
  have data : f.buf + (f.words.length + bufDataOffset) = r.place (vw + 12) + f.words.length := by
    rw [place, fill.reserved.buf, bufDataOffset]; push_cast; omega
  have gap := r.placeGap (v := vw + 12) (w := vw + 12 + f.words.length) (by omega) (by have := repLe h.rep; omega)
  have lower := r.placeLower (vw + 12 + f.words.length)
  have upper := r.placeUpper (vw + 12 + f.words.length)
  have size : s.rx.pool.stop - s.rx.pool.start = r.size := by
    rw [h.rep.stop, h.rep.start]; unfold Ring.limit; omega
  have same : ∀ {p : Pool} {k : Int}, p.start = s.rx.pool.start → p.stop = s.rx.pool.stop →
      k = f.words.length → miiPacketGetData p f.buf k = p.mem f.dptr := by
    intro p k start stop count
    rw [miiPacketGetData, count, data, start, stop, size, fill.dptr, h.rep.stop]
    congr 1
    unfold Ring.limit at *
    push_cast at gap
    split <;> omega
  rcases commitCases forwards h.rep fill spare with fails | ⟨D, -, -, -, commit⟩
  · rw [fails]; exact same rfl rfl rfl
  · obtain ⟨stores, mem⟩ := commitStoresAt forwards commit
    have start : (miiCommit forwards s.rx.pool f.buf f.dptr).1.start = s.rx.pool.start ∧
        (miiCommit forwards s.rx.pool f.buf f.dptr).1.stop = s.rx.pool.stop := by
      rw [commit]; cases forwards <;> exact ⟨rfl, rfl⟩
    rw [same start.1 start.2 rfl, mem, storeAllOther]
    intro st member
    rw [fill.dptr]
    have header : ∃ k, k < 12 ∧ st.1 = r.place (vw + k) := by
      have stage := repWrptr h.rep (k := 7) (by omega)
      have forwarding := repWrptr h.rep (k := 10) (by omega)
      have first := repWrptr h.rep (k := 0) (by omega)
      have buf := fill.reserved.buf
      rw [stores] at member
      have addr : st.1 = f.buf + 5 ∨ st.1 = f.buf + 8 ∨ st.1 = f.buf - 2 := by
        cases forwards <;> simp [Field.offset, mallocHdrSize] at member <;> grind
      rcases addr with a | a | a
      · exact ⟨7, by omega, by rw [stage]; push_cast; omega⟩
      · exact ⟨10, by omega, by rw [forwarding]; push_cast; omega⟩
      · exact ⟨0, by omega, by rw [first]; push_cast; omega⟩
    obtain ⟨k, small, at_⟩ := header
    rw [at_]
    have le := repLe h.rep
    exact r.placeNe (a := vr) ⟨by omega, spare⟩ ⟨by omega, by omega⟩ (by omega)

theorem foldCRC (words : List (BitVec 32)) (crc : BitVec 32) : words.foldl crc32 crc = shiftAll poly crc (bits words) := by
  induction words generalizing crc with
  | nil => rfl
  | cons w words ih => rw [List.foldl_cons, ih, bitsCons, shiftAllAppend]; rfl

theorem endCRCBits (n : Nat) (small : n < 4) (crc tail : BitVec 32) :
    endCRC n crc tail = shiftAll poly crc ((lsbFirst tail).take (8 * n)) := by
  have last : ∀ crc tail, (crc8shr crc tail).1 = shiftAll poly crc ((lsbFirst tail).take (8 * 1)) := fun _ _ => rfl
  match n with
  | 0 => simp [endCRC, shiftAll]
  | 1 => exact last crc tail
  | 2 => simp only [endCRC]; rw [last, crc8shrStep crc tail (n := 1) (by omega)]
  | 3 => simp only [endCRC]; rw [last, crc8shrStep _ _ (n := 1) (by omega), crc8shrStep _ _ (n := 2) (by omega)]

theorem committedCRC (forwards : Bool) {f : Frame} (h : Ringed s.rx r vr vw) (fill : Filling s.rx.pool r vr vw f none)
    (spare : vw + 12 + f.words.length < vr + r.size) (count : f.words.length = x.words.length)
    (value : s.rx.pool.mem f.dptr = (tailWord x).toInt)
    (complete : Complete (miiCommit forwards s.rx.pool f.buf f.dptr).1 f.buf x.words (x.taillen.val >>> 3)) :
    filterCRC (miiCommit forwards s.rx.pool f.buf f.dptr).1 f.buf = shiftAll poly seed (wholeBits x) := by
  have small : x.taillen.val >>> 3 < 4 := by rw [Nat.shiftRight_eq_div_pow]; omega
  have tail := tailFound forwards h fill spare
  rw [value, count] at tail
  generalize (miiCommit forwards s.rx.pool f.buf f.dptr).1 = p at tail complete
  have index : miiPacketGetLength p f.buf / 4 * 4 / 4 + 1 = x.words.length := by rw [complete.length]; omega
  have bytes : (miiPacketGetLength p f.buf % 4).toNat = x.taillen.val >>> 3 := by rw [complete.length]; omega
  simp only [filterCRC]
  rw [index, bytes, tail, complete.crc, endCRCBits _ small, BitVec.ofInt_toInt, BitVec.ofInt_toInt, foldCRC, wholeBits,
    shiftAllAppend]
  rfl

theorem handedOver (forwards : Bool) (h : InFrame x time r vr vw s []) (long : 6 ≤ x.words.length) : ∃ t buf,
    RxComplete.step forwards s .commit = some t ∧ t.rx.sent = s.rx.sent ++ [buf] ∧
    Complete t.rx.pool buf x.words (x.taillen.val >>> 3) ∧ filterCRC t.rx.pool buf = shiftAll poly seed (wholeBits x) := by
  obtain ⟨f, phase, found, all, leftover, value⟩ := inFrameEnd h
  have inv := h.ringed.phase
  have kept := h.kept
  have room := h.room
  simp only [PhaseInv, phase] at inv
  simp only [PhaseKept, phase] at kept
  have count : f.words.length = x.words.length := by rw [(kept.1.all found).1, List.length_map, all]
  have returns : (miiCommit forwards s.rx.pool f.buf f.dptr).2 ≠ 0 := by
    rw [inv.1.dptr]
    exact commitReturns h.ringed.rep (by omega) (by omega) f.buf
  obtain ⟨u, moved, pool, sent⟩ : ∃ u, RxPins.step forwards s.rx .commit = some u ∧
      u.pool = (miiCommit forwards s.rx.pool f.buf f.dptr).1 ∧ u.sent = s.rx.sent ++ [f.buf] := by
    simp only [RxPins.step, phase, if_neg returns]
    exact ⟨_, rfl, rfl, rfl⟩
  have taken : RxComplete.step forwards s .commit = some { s with rx := u } := by rw [RxComplete.step, moved]; rfl
  have hands : HandsOver s { s with rx := u } := by
    intro same
    rw [sent] at same
    simp at same
  obtain ⟨buf, given, whole⟩ := RxComplete.handedOver h.ringed h.kept taken hands
  have same : f.buf = buf := by
    rw [sent] at given
    simpa using given
  subst same
  have complete := whole.mpr found
  rw [all, leftover] at complete
  refine ⟨_, f.buf, taken, sent, complete, ?_⟩
  dsimp only at complete ⊢
  rw [pool] at complete ⊢
  exact committedCRC forwards h.ringed inv.1 inv.2 count value complete

theorem inFrameStart {mem : Int → Int} {mempool memsize : Nat} {es : List Event} (enough : 28 ≤ memsize)
    (reached : run (RxComplete.step forwards) (RxComplete.initial mem mempool memsize) es = some s)
    (idle : s.rx.phase = .idle) (room : Room s.rx.pool x) (time : Int) :
    ∃ r vr vw, InFrame x time r vr vw s (frameEvents time x) := by
  obtain ⟨⟨r, vr, vw, ringed⟩, kept⟩ :=
    runInvariant (fun _ _ _ => invariantKept) (invariantInitial mem mempool memsize enough) reached
  refine ⟨r, vr, vw, ringed, kept, ?_, ?_⟩
  · have space := spaceLeftRep ringed.rep
    unfold Room at room
    omega
  · simp only [Expects, idle]

end frame

end ScEthernet.Full.RxFilter
