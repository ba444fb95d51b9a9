import ScEthernet.Full.Transmit
import ScEthernet.Full.RxPins
import ScEthernet.Lite.OutPacket

/-! Both transmitters send the frame of IEEE 802.3. -/
namespace ScEthernet.Transmitters
open Lib.BitOrder Lib.UnrolledRing Lib.Runs Wire Full.Malloc Full.PoolQueue Full.Transmit Lite.OutPacket

/-- The preamble and then the frame, from a packet in a pool and from one in word memory. -/
theorem transmittersAgree {p : Pool} {q : List Pkt} {r : Ring} {vr vw : Nat} {k : Pkt}
    (h : Rep p q r vr vw) (member : k ∈ q) (atEnd : Bool) (time : Int)
    (tails : TailValues) (mem : Int → Int) (b : Int) (fuel : Nat)
    {frame : List (BitVec 8)} (long : 14 ≤ frame.length) (length : k.header .length = frame.length)
    (pooled : (bytes (k.data.map (BitVec.ofInt 32))).take frame.length = frame)
    (held : (bytes (packetWords mem b frame.length)).take frame.length = frame)
    (enough : frame.length / 4 ≤ fuel) :
    let full := (miiTransmitPacket atEnd p k.buf time).map Prod.snd
    let prepared := miiOutPacket tails mem b frame.length
    let prepared_ := miiOutPacket_ tails mem b frame.length
    full = some (preamble ++ wireFrame frame) ∧
    outIdle tails fuel prepared.1 prepared.2 = full ∧ outIdle tails fuel prepared_.1 prepared_.2 = full := by
  intro full prepared prepared_
  have queued : full = some (preamble ++ wireFrame frame) :=
    transmitQueued h member atEnd time frame long length pooled
  have out := outFrame tails mem b fuel long enough held
  exact ⟨queued, out.trans queued.symm, out.trans queued.symm⟩

/- A frame received behind a long one that is gone: its words go round the end of the ring. -/
def wrappedFrame : List Full.RxPins.Event :=
  [.reserve, .sof 0] ++ List.replicate 88 (.word 0) ++
  [.eof, .port 0 0, .header, .header, .header, .tail, .commit, .free 7, .reserve, .sof 9] ++
  (List.range 12).map (fun i => .word (BitVec.ofNat 32 i)) ++
  [.eof, .port 16 0, .header, .header, .header, .tail, .commit]

def countingFrame : List (BitVec 8) :=
  (bytes ((List.range 12).map (fun i : Nat => BitVec.ofNat 32 i))).take 46

def labels : TailValues := ⟨fun i => 16 * i.val, fun i j same => by dsimp only at same; omega⟩

theorem transmittersAgreeWrapped : ∃ s k,
    run (Full.RxPins.step true) (Full.RxPins.initial (fun _ => 0) 0 128) wrappedFrame = some s ∧
    s.queue = [k] ∧ s.pool.wrptr < k.buf ∧
    (miiTransmitPacket true s.pool k.buf 3).map Prod.snd = some (preamble ++ wireFrame countingFrame) ∧
    outIdle labels 11 (miiOutPacket labels id 0 46).1 (miiOutPacket labels id 0 46).2 =
      (miiTransmitPacket true s.pool k.buf 3).map Prod.snd := by
  have ends : (run (Full.RxPins.step true) (Full.RxPins.initial (fun _ => 0) 0 128) wrappedFrame).any
      (fun s => decide (s.queue.length = 1) && s.queue.all (fun k =>
        decide (s.pool.wrptr < k.buf ∧ k.header .length = 46 ∧
          (bytes (k.data.map (BitVec.ofInt 32))).take 46 = countingFrame))) = true := by decide +kernel
  cases reached : run (Full.RxPins.step true) (Full.RxPins.initial (fun _ => 0) 0 128) wrappedFrame with
  | none => rw [reached] at ends; cases ends
  | some s =>
    obtain ⟨r, vr, vw, ringed⟩ := runInvariant (I := fun s => ∃ r vr vw, Full.RxPins.Ringed s r vr vw)
      (fun _ _ _ ⟨r, vr, vw, inv⟩ taken => ⟨r, Full.RxPins.stepKeeps inv taken⟩)
      (Full.RxPins.ringedInitial _ 0 128 (by decide)) reached
    rw [reached, Option.any_some, Bool.and_eq_true] at ends
    obtain ⟨k, queue⟩ := List.length_eq_one_iff.mp (of_decide_eq_true ends.1)
    have held := List.all_eq_true.mp ends.2 k (by rw [queue]; exact List.mem_singleton_self k)
    obtain ⟨wraps, length, data⟩ := of_decide_eq_true held
    have size : countingFrame.length = 46 := by decide
    obtain ⟨full, lite, -⟩ := transmittersAgree (k := k) ringed.rep (by rw [queue]; exact List.mem_singleton_self k)
      true 3 labels id 0 11 (show 14 ≤ countingFrame.length by decide) (by rw [length, size]; rfl)
      (by rw [size]; exact data) (by decide +kernel) (by decide)
    exact ⟨s, k, rfl, queue, wraps, full, lite⟩

end ScEthernet.Transmitters
