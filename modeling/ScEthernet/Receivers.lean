import ScEthernet.Full.RxFilter
import ScEthernet.Lib.ShiftPort
import ScEthernet.Lite.StoreInv

/-! Both receivers on one stream of nibbles. miiLLD leaves the rest at the top of the word and CRCBad takes the
upper bytes of it: of a rest that is no whole number of bytes these are not the first ones. -/
namespace ScEthernet.Receivers
open Lib.WordMemory Lib.UnrolledRing Lib.BitOrder Lib.ShiftCrc Lib.ShiftPort Lib.Runs Wire
open Full.Malloc Full.PoolQueue Full.RxPins Full.RxFilter
open Lite.Buffer (load crcBad)
open Lite.StoreInv (Good received crcBadRest)

/-! The IN coroutine of miiLLD. -/

structure Coroutine where
  mem : Int → Int
  r4 : Int
  r10 : BitVec 32

def miiRxdPreamble (s : Coroutine) (time : Int) : Coroutine := { s with mem := store s.mem s.r4 time, r10 := seed }

def miiRxd (s : Coroutine) (word : BitVec 32) : Coroutine :=
  ⟨store s.mem (s.r4 + 4) word.toInt, s.r4 + 4, crc32 s.r10 word⟩

def miiRxLastBits (s : Coroutine) (taillen : Nat) (tail : BitVec 32) : Coroutine :=
  let mem := store s.mem (s.r4 + 8) taillen
  let mem := store mem (s.r4 + 4) tail.toInt
  { s with mem := store mem (s.r4 + 12) s.r10.toInt }

def miiLLD (mem : Int → Int) (base time : Int) (x : Pins) : Coroutine :=
  miiRxLastBits (x.words.foldl miiRxd (miiRxdPreamble ⟨mem, base, 0#32⟩ time)) x.taillen.val x.tail

/-! What the two are compared on. -/

def pins (p : Port) : Pins := ⟨p.words, Fin.ofNat 32 p.count, p.register⟩

/- The last four bytes are the FCS of those before. -/
def Checked (frame : List (BitVec 8)) : Prop :=
  frame.drop (frame.length - 4) = bytesOf (frameCheck (frame.take (frame.length - 4)))
instance (frame) : Decidable (Checked frame) := by unfold Checked; infer_instance

def fullPayload (p : Pool) (buf : Int) : List (BitVec 8) :=
  let length := (miiPacketGetLength p buf).toNat
  (bytes ((readWords p ((length + 3) / 4) (miiPacketGetDataPtr buf)).map (BitVec.ofInt 32))).take length

def litePayload (mem : Int → Int) (base : Int) (length : Nat) : List (BitVec 8) :=
  (bytes ((List.range ((length + 3) / 4)).map (fun i : Nat => load mem (base + 4 + 4 * (i : Int))))).take length

/- The full driver with the buffer `buf` against the light one with the packet from `base` to `last`. -/
structure Agree (p : Pool) (buf : Int) (mem : Int → Int) (base last : Int) (frame : List (BitVec 8)) : Prop where
  accepts : CrcGood p buf ↔ crcBad mem base last ≠ 0
  checked : crcBad mem base last ≠ 0 ↔ Checked frame
  length : crcBad mem base last ≠ 0 → crcBad mem base last = miiPacketGetLength p buf + 4
  payload : crcBad mem base last ≠ 0 → fullPayload p buf = frame.take (frame.length - 4) ∧
    litePayload mem base (miiPacketGetLength p buf).toNat = fullPayload p buf

/- The nibbles that CRCBad looks at: with an odd number it passes over the first one behind the words. -/
def evened (ns : List (BitVec 4)) : List (BitVec 4) :=
  if ns.length % 2 = 0 then ns else ns.eraseIdx (8 * (ns.length / 8))

def Steady (ns : List (BitVec 4)) : Prop :=
  wholeBytes (evened ns) = wholeBytes ns ∨ ¬ Checked (wholeBytes ns) ∧ ¬ Checked (wholeBytes (evened ns))
instance (ns) : Decidable (Steady ns) := by unfold Steady; infer_instance

/-! The stream. -/

section stream
variable {register : BitVec 32} {ns : List (BitVec 4)}

theorem evenedLength (ns : List (BitVec 4)) : (evened ns).length = ns.length / 2 * 2 := by
  unfold evened
  split
  · omega
  · rw [List.length_eraseIdx, if_pos (by omega)]; omega

theorem pinsTaillen (register : BitVec 32) (ns : List (BitVec 4)) :
    (pins (deliver register ns)).taillen.val = 4 * (ns.length % 8) ∧ (pins (deliver register ns)).words.length = ns.length / 8 ∧
    bits ns = bits (pins (deliver register ns)).words ++
      ((lsbFirst (pins (deliver register ns)).tail).drop (32 - 4 * (ns.length % 8))).take (4 * (ns.length % 8)) := by
  obtain ⟨all, count, words⟩ := delivered register ns
  have taillen : (pins (deliver register ns)).taillen.val = 4 * (ns.length % 8) := by
    rw [pins, count]
    exact Nat.mod_eq_of_lt (by omega)
  refine ⟨taillen, words, ?_⟩
  rw [← all, Port.pins, count, lsbFirstShift _ (by omega)]
  rfl

theorem frameBits (register : BitVec 32) (ns : List (BitVec 4)) :
    bits (wholeBytes ns) = wholeBits (pins (deliver register ns)) := by
  obtain ⟨taillen, words, all⟩ := pinsTaillen register ns
  have length : (bits (pins (deliver register ns)).words).length = 32 * (ns.length / 8) := by rw [bitsLength, words]
  rw [wholeBytesBits, all, wholeBits, taillen, lsbFirstShift _ (by rw [Nat.shiftRight_eq_div_pow]; omega), Nat.shiftRight_eq_div_pow,
    show 8 * (ns.length / 2) = (bits (pins (deliver register ns)).words).length + 8 * (4 * (ns.length % 8) / 2 ^ 3) by omega,
    List.take_length_add_append, List.take_take, Nat.min_eq_left (by omega)]

theorem bitsDrop {w : Nat} (xs : List (BitVec w)) (k : Nat) (fits : k ≤ xs.length) :
    bits (xs.drop k) = (bits xs).drop (w * k) := by
  have parts := bitsAppend (xs.take k) (xs.drop k)
  rw [List.take_append_drop] at parts
  have length : (bits (xs.take k)).length = w * k := by rw [bitsLength, List.length_take, Nat.min_eq_left fits]
  rw [parts, ← length, List.drop_left]

theorem evenedBits (register : BitVec 32) (ns : List (BitVec 4)) (odd : Fin 4) (rest : odd.val = ns.length % 8 / 2) :
    bits (wholeBytes (evened ns)) = received (pins (deliver register ns)).words odd (pins (deliver register ns)).tail := by
  obtain ⟨taillen, words, all⟩ := pinsTaillen register ns
  have length : (bits (pins (deliver register ns)).words).length = 32 * (ns.length / 8) := by rw [bitsLength, words]
  have whole : (bits (evened ns)).take (8 * ((evened ns).length / 2)) = bits (evened ns) :=
    List.take_of_length_le (by rw [bitsLength, evenedLength]; omega)
  rw [wholeBytesBits, whole, received, lsbFirstShift _ (by omega)]
  unfold evened
  split
  · rename_i even
    rw [all, show 4 * (ns.length % 8) = 8 * odd.val by omega]
  · rename_i uneven
    have first : bits (ns.take (8 * (ns.length / 8))) = bits (pins (deliver register ns)).words := by
      rw [bitsTake, all, show 4 * (8 * (ns.length / 8)) = (bits (pins (deliver register ns)).words).length by omega, List.take_left]
    rw [List.eraseIdx_eq_take_drop_succ, bitsAppend, first, bitsDrop _ _ (by omega), all,
      show 4 * (8 * (ns.length / 8) + 1) = (bits (pins (deliver register ns)).words).length + 4 by omega, ← List.drop_drop,
      List.drop_left, List.drop_take, List.drop_drop]
    rw [show 4 * (ns.length % 8) - 4 = 8 * odd.val by omega, show 32 - 4 * (ns.length % 8) + 4 = 32 - 8 * odd.val by omega]

theorem xorOnes (x y : BitVec 32) : x ^^^ y = BitVec.allOnes 32 ↔ x = ~~~y := by
  constructor
  · intro ones
    rw [← BitVec.xor_allOnes, ← ones, BitVec.xor_comm y, BitVec.xor_assoc, BitVec.xor_self, BitVec.xor_zero]
  · rintro rfl
    rw [← BitVec.xor_allOnes, BitVec.xor_comm, ← BitVec.xor_assoc, BitVec.xor_self, BitVec.zero_xor]

theorem checkedIff {frame : List (BitVec 8)} (long : 4 ≤ frame.length) :
    shiftAll poly seed (bits frame) = BitVec.allOnes 32 ↔ Checked frame := by
  have parts : frame = frame.take (frame.length - 4) ++ frame.drop (frame.length - 4) := (List.take_append_drop _ _).symm
  have four : (frame.drop (frame.length - 4)).length = 4 * 1 := by rw [List.length_drop]; omega
  obtain ⟨packed, one⟩ := bytesPack 1 four
  obtain ⟨x, word⟩ := List.length_eq_one_iff.mp one
  rw [word] at packed
  have last : frame.drop (frame.length - 4) = bytesOf x := by
    rw [← packed, bytes, List.flatMap_cons, List.flatMap_nil, List.append_nil]
  have fcs := checksumSeed (by decide) seedShifts (bits (frame.take (frame.length - 4)))
  have injective : bytesOf x = bytesOf (frameCheck (frame.take (frame.length - 4))) ↔
      x = frameCheck (frame.take (frame.length - 4)) := by
    refine ⟨fun same => lsbFirstInjective ?_, fun same => by rw [same]⟩
    rw [← bitsBytesOf, ← bitsBytesOf, same]
  rw [Checked, last, injective, frameCheck, fcs]
  rw [congrArg bits parts, bitsAppend, last, bitsBytesOf, shiftAllAppend, shiftAllWord]
  exact xorOnes x _

end stream

section drivers
variable {mem : Int → Int} {base time : Int} {x : Pins} {register : BitVec 32} {ns : List (BitVec 4)}

theorem rxdWords (s : Coroutine) (words : List (BitVec 32)) : (words.foldl miiRxd s).r4 = s.r4 + 4 * (words.length : Int) ∧
    (words.foldl miiRxd s).r10 = words.foldl crc32 s.r10 ∧
    ∀ i (h : i < words.length), load (words.foldl miiRxd s).mem (s.r4 + 4 + 4 * (i : Int)) = words[i] := by
  induction words using List.reverseRecOn with
  | nil => exact ⟨by simp, rfl, fun i h => by cases h⟩
  | append_singleton words w ih =>
    obtain ⟨r4, r10, stored⟩ := ih
    rw [List.foldl_append, List.foldl_append, List.foldl_cons, List.foldl_nil, List.foldl_cons, List.foldl_nil, ← r10]
    generalize words.foldl miiRxd s = t at *
    refine ⟨?_, rfl, fun i h => ?_⟩
    · rw [miiRxd, List.length_append, List.length_singleton]
      push_cast; omega
    · rw [List.length_append, List.length_singleton] at h
      by_cases old : i < words.length
      · rw [List.getElem_append_left old, ← stored i old]
        simp only [load, miiRxd]
        rw [storeOther (by omega)]
      · have last : i = words.length := by omega
        subst last
        simp only [load, miiRxd]
        rw [List.getElem_concat_length rfl, show s.r4 + 4 + 4 * (words.length : Int) = t.r4 + 4 by omega, storeSame,
          BitVec.ofInt_toInt]

theorem liteReceives (mem : Int → Int) (base time : Int) (x : Pins) (odd : Fin 4) (rest : odd.val = x.taillen.val >>> 3) :
    let s := miiLLD mem base time x
    crcBad s.mem base s.r4 = (if Good x.words odd x.tail then 4 * (x.words.length : Int) + odd.val else 0) ∧
      ∀ i (h : i < x.words.length), load s.mem (base + 4 + 4 * (i : Int)) = x.words[i] := by
  intro s
  obtain ⟨r4, r10, stored⟩ := rxdWords (miiRxdPreamble ⟨mem, base, 0#32⟩ time) x.words
  have into : s = miiRxLastBits (x.words.foldl miiRxd (miiRxdPreamble ⟨mem, base, 0#32⟩ time)) x.taillen.val x.tail := rfl
  generalize x.words.foldl miiRxd (miiRxdPreamble ⟨mem, base, 0#32⟩ time) = t at *
  rw [miiRxdPreamble] at r4 r10 stored
  dsimp only at r4 r10 stored
  have end_ : s.r4 = t.r4 := by rw [into]; rfl
  have taillen := x.taillen.isLt
  have shifted : ∀ n : Fin 32, (BitVec.ofInt 32 (n.val : Int) >>> 3).toNat = n.val >>> 3 := by decide
  constructor
  · have length : (load s.mem (s.r4 + 8) >>> 3).toNat = odd.val := by
      rw [end_, into, load, miiRxLastBits]
      dsimp only
      rw [storeOther (by omega), storeOther (by omega), storeSame, shifted, rest]
    have tail : load s.mem (s.r4 + 4) = x.tail := by
      rw [end_, into, load, miiRxLastBits]
      dsimp only
      rw [storeOther (by omega), storeSame, BitVec.ofInt_toInt]
    have crc : load s.mem (s.r4 + 12) = shiftAll poly seed (bits x.words) := by
      rw [end_, into, load, miiRxLastBits]
      dsimp only
      rw [storeSame, BitVec.ofInt_toInt, r10, foldCRC]
    rw [crcBadRest length tail crc, end_, r4]
    congr 1; omega
  · intro i h
    rw [into, load, miiRxLastBits]
    dsimp only
    rw [storeOther (by omega), storeOther (by omega), storeOther (by omega)]
    exact stored i h

theorem payloadWords {words : List (BitVec 32)} {frame : List (BitVec 8)} {n : Nat}
    (framed : frame.take (4 * words.length) = bytes words)
    (short : n ≤ 4 * words.length) : (bytes (words.take ((n + 3) / 4))).take n = frame.take n := by
  rw [bytesTake, List.take_take, Nat.min_eq_left (by omega), ← framed, List.take_take, Nat.min_eq_left short]

theorem framedWords {frame : List (BitVec 8)} {words : List (BitVec 32)} {more : List Bool}
    (all : bits frame = bits words ++ more) (long : 4 * words.length ≤ frame.length) :
    frame.take (4 * words.length) = bytes words := by
  refine bitsInjective (by rw [List.length_take, bytesLength]; omega) ?_
  rw [bitsTake, bitsBytes, all, List.take_append_of_le_length (by rw [bitsLength]; omega)]
  exact List.take_of_length_le (by rw [bitsLength]; omega)

theorem checkedSame {a b : List (BitVec 8)} (payload : a.take (a.length - 4) = b.take (b.length - 4))
    (first : Checked a) (second : Checked b) : a = b := by
  rw [← List.take_append_drop (a.length - 4) a, ← List.take_append_drop (b.length - 4) b, first, second, payload]

theorem readWordsTake (p : Pool) {m n : Nat} (le : m ≤ n) (ptr : Int) : readWords p m ptr = (readWords p n ptr).take m := by
  induction n generalizing m ptr with
  | zero => rw [Nat.le_zero.mp le]; rfl
  | succ n ih =>
    cases m with
    | zero => rfl
    | succ m => rw [readWords, readWords, List.take_succ_cons, ← ih (by omega)]

theorem evenedSame (ns : List (BitVec 4)) (register : BitVec 32) (odd : Fin 4) (rest : odd.val = ns.length % 8 / 2) :
    (wholeBytes (evened ns)).length = (wholeBytes ns).length ∧
    (wholeBytes (evened ns)).take (4 * (ns.length / 8)) = bytes (pins (deliver register ns)).words ∧
    (wholeBytes ns).take (4 * (ns.length / 8)) = bytes (pins (deliver register ns)).words := by
  obtain ⟨-, words, -⟩ := pinsTaillen register ns
  have length : (wholeBytes (evened ns)).length = (wholeBytes ns).length := by
    rw [wholeBytesLength, wholeBytesLength, evenedLength]; omega
  have whole := wholeBytesLength ns
  rw [← words]
  exact ⟨length, framedWords (evenedBits register ns odd rest) (by omega), framedWords (frameBits register ns) (by omega)⟩

theorem agreeIff {p : Pool} {buf : Int} (long : 48 ≤ ns.length)
    (complete : Full.RxComplete.Complete p buf (pins (deliver register ns)).words ((pins (deliver register ns)).taillen.val >>> 3))
    (crc : filterCRC p buf = shiftAll poly seed (wholeBits (pins (deliver register ns)))) :
    Agree p buf (miiLLD mem base time (pins (deliver register ns))).mem base (miiLLD mem base time (pins (deliver register ns))).r4
      (wholeBytes ns) ↔ Steady ns := by
  obtain ⟨taillen, words, -⟩ := pinsTaillen register ns
  let odd : Fin 4 := ⟨ns.length % 8 / 2, by omega⟩
  have rest : odd.val = ns.length % 8 / 2 := rfl
  have bytesLeft : (pins (deliver register ns)).taillen.val >>> 3 = odd.val := by
    rw [taillen, Nat.shiftRight_eq_div_pow]; omega
  obtain ⟨sameLength, evenedWords, wholeWords⟩ := evenedSame ns register odd rest
  have total := wholeBytesLength ns
  obtain ⟨result, stored⟩ := liteReceives mem base time (pins (deliver register ns)) odd bytesLeft.symm
  have accepts : CrcGood p buf ↔ Checked (wholeBytes ns) := by
    rw [← checkedIff (by omega), frameBits register ns, ← crc, CrcGood, ← BitVec.not_allOnes, BitVec.not_inj]
  have good : Good (pins (deliver register ns)).words odd (pins (deliver register ns)).tail ↔ Checked (wholeBytes (evened ns)) := by
    rw [← checkedIff (by omega), evenedBits register ns odd rest]; rfl
  have value : crcBad (miiLLD mem base time (pins (deliver register ns))).mem base
      (miiLLD mem base time (pins (deliver register ns))).r4 ≠ 0 ↔ Checked (wholeBytes (evened ns)) := by
    rw [result, ← good]
    split
    · rename_i yes; exact ⟨fun _ => yes, fun _ => by omega⟩
    · rename_i no; exact ⟨fun ne => absurd rfl ne, fun yes => absurd yes no⟩
  have length : miiPacketGetLength p buf + 4 = 4 * ((pins (deliver register ns)).words.length : Int) + odd.val := by
    rw [complete.length, bytesLeft]; omega
  have count : (miiPacketGetLength p buf).toNat = (wholeBytes ns).length - 4 := by omega
  have short : (wholeBytes ns).length - 4 ≤ 4 * (pins (deliver register ns)).words.length := by omega
  rw [← words] at evenedWords wholeWords
  have full : fullPayload p buf = (wholeBytes ns).take ((wholeBytes ns).length - 4) := by
    rw [← payloadWords wholeWords short, fullPayload, count]
    rw [readWordsTake p (n := (pins (deliver register ns)).words.length) (by omega), complete.data, List.map_take, List.map_map]
    congr 3
    exact (List.map_congr_left fun w _ => BitVec.ofInt_toInt).trans (List.map_id _)
  have lite : litePayload (miiLLD mem base time (pins (deliver register ns))).mem base (miiPacketGetLength p buf).toNat =
      fullPayload p buf := by
    rw [full, ← payloadWords wholeWords short, litePayload, count]
    congr 2
    refine List.ext_getElem (by simp; omega) fun i a b => ?_
    rw [List.length_map, List.length_range] at a
    rw [List.getElem_map, List.getElem_range, List.getElem_take]
    exact stored i (by omega)
  constructor
  · intro agree
    have both := accepts.symm.trans (agree.accepts.trans value)
    by_cases first : Checked (wholeBytes ns)
    · refine .inl (checkedSame ?_ (both.mp first) first)
      rw [sameLength, ← payloadWords evenedWords short, payloadWords wholeWords short]
    · exact .inr ⟨first, fun second => first (both.mpr second)⟩
  · intro steady
    have both : Checked (wholeBytes (evened ns)) ↔ Checked (wholeBytes ns) := by
      rcases steady with same | ⟨first, second⟩
      · rw [same]
      · exact ⟨fun h => absurd h second, fun h => absurd h first⟩
    refine ⟨accepts.trans (value.trans both).symm, value.trans both, fun some => ?_, fun _ => ⟨full, lite⟩⟩
    have yes := good.mpr (value.mp some)
    rw [result, if_pos yes]
    omega

end drivers

/- Whatever the two receivers did before, and with the calls of the other tasks during the frame, they agree on it
exactly where passing over a nibble does not matter. -/
theorem receiversAgreeIff (forwards : Bool) (mem : Int → Int) (mempool memsize : Nat) (enough : 28 ≤ memsize)
    (before : List Event) (s : Full.RxComplete.State)
    (reached : run (Full.RxComplete.step forwards) (Full.RxComplete.initial mem mempool memsize) before = some s)
    (idle : s.rx.phase = .idle) (register : BitVec 32) (ns : List (BitVec 4)) (long : 48 ≤ ns.length)
    (room : Room s.rx.pool (pins (deliver register ns))) (time : Int) (lite : Int → Int) (base stamp : Int) :
    let x := pins (deliver register ns)
    let l := miiLLD lite base stamp x
    (∃ t, run (Full.RxComplete.step forwards) s (frameEvents time x) = some t) ∧
    ∀ es t, es.filter own = frameEvents time x → run (Full.RxComplete.step forwards) s es = some t →
      ∃ u buf, Full.RxComplete.step forwards t .commit = some u ∧ u.rx.sent = t.rx.sent ++ [buf] ∧
        (Agree u.rx.pool buf l.mem base l.r4 (wholeBytes ns) ↔ Steady ns) := by
  intro x l
  obtain ⟨-, words, -⟩ := pinsTaillen register ns
  have six : 6 ≤ x.words.length := by rw [words]; omega
  obtain ⟨r, vr, vw, start⟩ := inFrameStart enough reached idle room time
  refine ⟨ownRun forwards start six, fun es t owned passed => ?_⟩
  obtain ⟨vr', last⟩ := interleavedRun start six owned passed
  obtain ⟨u, buf, commit, sent, complete, crc⟩ := handedOver forwards last six
  exact ⟨u, buf, commit, sent, agreeIff long complete crc⟩

/- 21 zero bytes and their FCS. -/
def checkedZeros : List (BitVec 4) := List.replicate 42 0#4 ++ [0xb, 0x8, 0x5, 0xc, 0x4, 0x0, 0x1, 0x4]

theorem receiversAgreeZeros : ∃ t u buf,
    run (Full.RxComplete.step true) (Full.RxComplete.initial (fun _ => 0) 0 128)
      (frameEvents 7 (pins (deliver 0#32 checkedZeros))) = some t ∧
    Full.RxComplete.step true t .commit = some u ∧ u.rx.sent = t.rx.sent ++ [buf] ∧
    Agree u.rx.pool buf (miiLLD (fun _ => 0) 4 9 (pins (deliver 0#32 checkedZeros))).mem 4
      (miiLLD (fun _ => 0) 4 9 (pins (deliver 0#32 checkedZeros))).r4 (wholeBytes checkedZeros) := by
  have room : Room (Full.RxComplete.initial (fun _ => 0) 0 128).rx.pool (pins (deliver 0#32 checkedZeros)) := by
    unfold Room
    decide +kernel
  obtain ⟨⟨t, passed⟩, agree⟩ := receiversAgreeIff true (fun _ => 0) 0 128 (by decide) [] _ rfl rfl 0#32 checkedZeros (by decide)
    room 7 (fun _ => 0) 4 9
  obtain ⟨u, buf, commit, sent, iff⟩ := agree _ t (frameOwn _ _) passed
  exact ⟨t, u, buf, passed, commit, sent, iff.mpr (.inl (by decide +kernel))⟩

/- With a nibble more at the end of the same frame the light driver takes 0x04 for its last byte. -/
theorem receiversDiffer : ∃ t u buf,
    run (Full.RxComplete.step true) (Full.RxComplete.initial (fun _ => 0) 0 128)
      (frameEvents 7 (pins (deliver 0#32 (checkedZeros ++ [0x0])))) = some t ∧
    Full.RxComplete.step true t .commit = some u ∧ u.rx.sent = t.rx.sent ++ [buf] ∧
    CrcGood u.rx.pool buf ∧ Checked (wholeBytes (checkedZeros ++ [0x0])) ∧
    crcBad (miiLLD (fun _ => 0) 4 9 (pins (deliver 0#32 (checkedZeros ++ [0x0])))).mem 4
      (miiLLD (fun _ => 0) 4 9 (pins (deliver 0#32 (checkedZeros ++ [0x0])))).r4 = 0 := by
  let x := pins (deliver 0#32 (checkedZeros ++ [0x0]))
  have room : Room (Full.RxComplete.initial (fun _ => 0) 0 128).rx.pool x := by
    unfold Room
    decide +kernel
  have six : 6 ≤ x.words.length := by decide +kernel
  have nothing : run (Full.RxComplete.step true) (Full.RxComplete.initial (fun _ => 0) 0 128) [] = some _ := rfl
  obtain ⟨r, vr, vw, start⟩ := inFrameStart (by decide) nothing rfl room 7
  obtain ⟨t, passed⟩ := ownRun true start six
  obtain ⟨vr', last⟩ := interleavedRun start six (frameOwn _ _) passed
  obtain ⟨u, buf, commit, sent, -, crc⟩ := handedOver true last six
  have good : ~~~shiftAll poly seed (wholeBits x) = 0#32 := by decide +kernel
  exact ⟨t, u, buf, passed, commit, sent, by rw [CrcGood, crc]; exact good, by decide +kernel, by decide +kernel⟩

end ScEthernet.Receivers
