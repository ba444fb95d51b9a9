import ScEthernet.Receivers
import ScEthernet.Full.RxCheck
import ScEthernet.Lib.BurstError

/-! What the FCS catches in both receivers. Each of them finds one register in every frame that passes, so that a frame
with errors passes only when they do not change the register. -/
namespace ScEthernet.ErrorDetection
open Lib.WordMemory Lib.BitOrder Lib.ShiftCrc Lib.ShiftPort Lib.BurstError Lib.Runs Wire
open Full.Malloc Full.PoolQueue Full.RxPins Full.RxFilter Full.RxCheck Receivers
open Lite.Buffer (crcBad)
open Lite.StoreInv (Good)

/- The frame goes to ethernet_filter as `buf`: after any events of the driver, when it is between two frames, and with
calls of the other tasks between the receiver's own steps. -/
inductive FullReceives (frame : List (BitVec 8)) : Pool → Int → Prop
  | intro {forwards : Bool} {mem : Int → Int} {mempool memsize : Nat} {before es : List Event} {s t u : Full.RxComplete.State}
      {register : BitVec 32} {time buf : Int} (enough : 28 ≤ memsize)
      (reached : run (Full.RxComplete.step forwards) (Full.RxComplete.initial mem mempool memsize) before = some s)
      (idle : s.rx.phase = .idle)
      (owned : es.filter own = frameEvents time (pins (deliver register (nibbles frame))))
      (passed : run (Full.RxComplete.step forwards) s es = some t)
      (commit : Full.RxComplete.step forwards t .commit = some u) (sent : u.rx.sent = t.rx.sent ++ [buf]) :
      FullReceives frame u.rx.pool buf

/- CRCBad on what miiLLD stores of the frame in a buffer at `base`. -/
def liteCRCBad (mem : Int → Int) (base time : Int) (register : BitVec 32) (frame : List (BitVec 8)) : Int :=
  let s := miiLLD mem base time (pins (deliver register (nibbles frame)))
  crcBad s.mem base s.r4

section
variable {frame errors : List (BitVec 8)} {p : Pool} {buf : Int}

theorem framePins (register : BitVec 32) (frame : List (BitVec 8)) :
    (pins (deliver register (nibbles frame))).taillen.val >>> 3 = frame.length % 4 ∧
    (pins (deliver register (nibbles frame))).words.length = frame.length / 4 ∧
    wholeBits (pins (deliver register (nibbles frame))) = bits frame := by
  obtain ⟨taillen, words, -⟩ := pinsTaillen register (nibbles frame)
  have all := frameBits register (nibbles frame)
  rw [wholeBytesNibbles] at all
  rw [nibblesLength] at taillen words
  exact ⟨by rw [taillen, Nat.shiftRight_eq_div_pow]; omega, by rw [words]; omega, all.symm⟩

theorem fullResidue (received : FullReceives frame p buf) (whole : miiPacketGetLength p buf + 4 = frame.length) :
    CrcGood p buf ↔ shiftAll poly seed (bits frame) = BitVec.allOnes 32 := by
  obtain @⟨forwards, mem, mempool, memsize, before, es, s, t, u, register, time, buf, enough, reached, idle, owned, passed,
    commit, sent⟩ := received
  obtain ⟨taillen, words, all⟩ := framePins register frame
  have start : Follows (pins (deliver register (nibbles frame))) time s
      (frameEvents time (pins (deliver register (nibbles frame)))) := by
    unfold Follows
    simp only [idle]
    exact fun _ _ => trivial
  have inv := runInvariant (fun _ _ _ => Full.RxComplete.invariantKept) (Full.RxComplete.invariantInitial mem mempool memsize enough)
    reached
  obtain ⟨last, followed⟩ := runFollowed inv start owned passed
  have crc := checkedWhole last followed commit sent (by omega)
  rw [CrcGood, crc, all, ← BitVec.not_allOnes, BitVec.not_inj]

theorem liteResidue (mem : Int → Int) (base time : Int) (register : BitVec 32) (long : 4 ≤ frame.length) :
    liteCRCBad mem base time register frame ≠ 0 ↔ shiftAll poly seed (bits frame) = BitVec.allOnes 32 := by
  obtain ⟨taillen, words, -⟩ := framePins register frame
  let odd : Fin 4 := ⟨frame.length % 4, by omega⟩
  obtain ⟨result, -⟩ := liteReceives mem base time (pins (deliver register (nibbles frame))) odd taillen.symm
  have rest : odd.val = (nibbles frame).length % 8 / 2 := by rw [nibblesLength]; dsimp only [odd]; omega
  have even : evened (nibbles frame) = nibbles frame := by
    rw [evened, if_pos (by rw [nibblesLength]; omega)]
  have all := evenedBits register (nibbles frame) odd rest
  rw [even, wholeBytesNibbles] at all
  rw [liteCRCBad, result, all, ← Good]
  split
  · rename_i good
    exact ⟨fun _ => good, fun _ => by omega⟩
  · rename_i bad
    exact ⟨fun wrong => absurd rfl wrong, fun good => absurd good bad⟩

/- With room for it every frame is received, and with its whole length. -/
theorem fullReceives {forwards : Bool} {mem : Int → Int} {mempool memsize : Nat} {before : List Event} {s : Full.RxComplete.State}
    (enough : 28 ≤ memsize)
    (reached : run (Full.RxComplete.step forwards) (Full.RxComplete.initial mem mempool memsize) before = some s)
    (idle : s.rx.phase = .idle) (register : BitVec 32) (long : 24 ≤ frame.length)
    (room : Room s.rx.pool (pins (deliver register (nibbles frame)))) :
    ∃ p buf, FullReceives frame p buf ∧ miiPacketGetLength p buf + 4 = frame.length := by
  obtain ⟨taillen, words, -⟩ := framePins register frame
  have six : 6 ≤ (pins (deliver register (nibbles frame))).words.length := by omega
  obtain ⟨r, vr, vw, start⟩ := inFrameStart enough reached idle room 0
  obtain ⟨t, passed⟩ := ownRun forwards start six
  obtain ⟨vr', last⟩ := interleavedRun start six (frameOwn _ _) passed
  obtain ⟨u, buf, commit, sent, complete, -⟩ := handedOver forwards last six
  refine ⟨u.rx.pool, buf, .intro enough reached idle (frameOwn _ _) passed commit sent, ?_⟩
  rw [complete.length, taillen, words]
  omega

theorem residueChanged (same : errors.length = frame.length) (burst : Burst 32 (bits errors))
    (good : shiftAll poly seed (bits frame) = BitVec.allOnes 32) :
    shiftAll poly seed (bits (flipped frame errors)) ≠ BitVec.allOnes 32 := by
  rw [← good]
  exact burstDetected (by decide) (by decide) same burst seed

end

/- Both checks reject every frame that differs from one they let pass in a burst of up to 32 bits. -/
theorem burstsDetected (frame errors : List (BitVec 8)) (long : 60 ≤ frame.length) (same : errors.length = frame.length)
    (burst : Burst 32 (bits errors)) :
    (∀ p buf p' buf', FullReceives frame p buf → miiPacketGetLength p buf + 4 = frame.length → CrcGood p buf →
      FullReceives (flipped frame errors) p' buf' → miiPacketGetLength p' buf' = miiPacketGetLength p buf →
      ¬ CrcGood p' buf' ∧ ethernetFilter p' buf' ≠ .filter) ∧
    ∀ mem base time register mem' base' time' register', liteCRCBad mem base time register frame ≠ 0 →
      liteCRCBad mem' base' time' register' (flipped frame errors) = 0 := by
  have length := flippedLength same
  constructor
  · intro p buf p' buf' received whole good received' sameLength
    have bad : ¬ CrcGood p' buf' := by
      rw [fullResidue received' (by rw [sameLength, whole, length])]
      exact residueChanged same burst ((fullResidue received whole).mp good)
    refine ⟨bad, ?_⟩
    rw [ethernetFilter, if_pos bad]
    split <;> decide
  · intro mem base time register mem' base' time' register' good
    by_contra passes
    have residue := (liteResidue mem base time register (by omega)).mp good
    exact residueChanged same burst residue ((liteResidue mem' base' time' register' (by omega)).mp passes)

/- 60 bytes and their FCS, and an error in the first bit. -/
def zeroFrame : List (BitVec 8) := List.replicate 60 0#8 ++ bytesOf (frameCheck (List.replicate 60 0#8))
def firstBit : List (BitVec 8) := 1#8 :: List.replicate 63 0#8

theorem zeroFrameResidue : shiftAll poly seed (bits zeroFrame) = BitVec.allOnes 32 := by
  have four : (bytesOf (frameCheck (List.replicate 60 0#8))).length = 4 := rfl
  have count : zeroFrame.length - 4 = (List.replicate 60 0#8).length := by
    rw [zeroFrame, List.length_append, four, Nat.add_sub_cancel]
  rw [checkedIff (by rw [zeroFrame, List.length_append, four]; omega), Checked, count, zeroFrame, List.drop_left, List.take_left]

theorem burstsDetectedFirstBit : ∃ p buf p' buf', FullReceives zeroFrame p buf ∧ CrcGood p buf ∧
    FullReceives (flipped zeroFrame firstBit) p' buf' ∧ ¬ CrcGood p' buf' ∧ ethernetFilter p' buf' ≠ .filter ∧
    liteCRCBad (fun _ => 0) 4 9 0#32 zeroFrame ≠ 0 ∧ liteCRCBad (fun _ => 0) 4 9 0#32 (flipped zeroFrame firstBit) = 0 := by
  have length : zeroFrame.length = 64 := by
    rw [zeroFrame, List.length_append, List.length_replicate]
    rfl
  have same : firstBit.length = zeroFrame.length := by
    rw [length, firstBit, List.length_cons, List.length_replicate]
  have burst : Burst 32 (bits firstBit) := by
    have single : bits firstBit = true :: List.replicate 511 false := by decide +kernel
    rw [single]
    refine ⟨List.mem_cons_self, 0, fun j set => ?_⟩
    cases j with
    | zero => omega
    | succ j =>
      rw [List.getElem?_cons_succ, List.getElem?_replicate] at set
      split at set <;> simp at set
  have room : ∀ {frame : List (BitVec 8)}, frame.length = 64 →
      Room (Full.RxComplete.initial (fun _ => 0) 0 128).rx.pool (pins (deliver 0#32 (nibbles frame))) := by
    intro frame long
    have space : spaceLeft (Full.RxComplete.initial (fun _ => 0) 0 128).rx.pool = 488 := by decide +kernel
    rw [Room, (framePins 0#32 frame).2.1, long, space]
    decide
  have length' := flippedLength same
  have nothing : run (Full.RxComplete.step true) (Full.RxComplete.initial (fun _ => 0) 0 128) [] = some _ := rfl
  obtain ⟨p, buf, received, whole⟩ := fullReceives (by decide) nothing rfl 0#32 (by omega) (room length)
  obtain ⟨p', buf', received', whole'⟩ := fullReceives (by decide) nothing rfl 0#32 (by omega) (room (length'.trans length))
  have good : CrcGood p buf := (fullResidue received whole).mpr zeroFrameResidue
  have passes := (liteResidue (fun _ => 0) 4 9 0#32 (by omega)).mpr zeroFrameResidue
  obtain ⟨full, lite⟩ := burstsDetected zeroFrame firstBit (by omega) same burst
  obtain ⟨bad, filtered⟩ := full p buf p' buf' received whole good received' (by omega)
  exact ⟨p, buf, p', buf', received, good, received', bad, filtered, passes, lite _ _ _ _ _ _ _ _ passes⟩

end ScEthernet.ErrorDetection
