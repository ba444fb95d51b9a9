import ScEthernet.Full.WiredSystem
import ScEthernet.Full.RxDelivery
import ScEthernet.ErrorDetection

/-! One frame of the near device at the far one: what mii_rx_pins hears of it, what it leaves in a buffer while the other
tasks go on, and what ethernet_filter lets pass. -/
namespace ScEthernet.Full.WiredFrames
open Lib.WordMemory Lib.UnrolledRing Lib.BitOrder Lib.ShiftCrc Lib.ShiftPort Lib.BurstError Lib.Runs Wire Malloc PoolQueue
open RxPins RxFilter RxCheck FilterPass WiredSystem
open Receivers (pins Checked checkedIff)

def sealed (frame : List (BitVec 8)) : List (BitVec 8) := frame ++ bytesOf (frameCheck frame)

section wire
variable {frame errors : List (BitVec 8)} {gone : Nat}

theorem sealedBits (frame : List (BitVec 8)) : bits (sealed frame) = wireFrame frame := by
  rw [sealed, bitsAppend, bitsBytesOf, wireFrame]

theorem sealedLength (frame : List (BitVec 8)) : (sealed frame).length = frame.length + 4 := by
  rw [sealed, List.length_append]
  rfl

theorem sealedPayload (frame : List (BitVec 8)) : (sealed frame).take ((sealed frame).length - 4) = frame := by
  rw [sealedLength, Nat.add_sub_cancel, sealed, List.take_left]

theorem sealedChecked (frame : List (BitVec 8)) : Checked (sealed frame) := by
  rw [Checked, sealedPayload, sealedLength, Nat.add_sub_cancel, sealed, List.drop_left]

theorem behindPreamble (few : gone < 16) (ns : List (BitVec 4)) : behindStart ((nibblesOf preamble ++ ns).drop gone) = ns := by
  have length : (nibblesOf preamble).length = 16 := by decide
  have first : ∀ n : Fin 16, (nibblesOf preamble).drop n.val = List.replicate (15 - n.val) 0x5#4 ++ [0xD#4] := by decide
  have skipped : ∀ n, (List.replicate n 0x5#4 ++ 0xD#4 :: ns).dropWhile (· != 0xD#4) = 0xD#4 :: ns := by
    intro n
    induction n with
    | zero => rfl
    | succ n ih => exact ih
  rw [List.drop_append_of_le_length (by omega), first ⟨gone, few⟩, List.append_assoc, behindStart]
  exact congrArg List.tail (skipped _)

theorem heardNibbles (few : gone < 16) (same : errors.length = (sealed frame).length) :
    behindStart (atPins gone errors (preamble ++ wireFrame frame)) = nibbles (flipped (sealed frame) errors) := by
  have length : preamble.length = 64 := by decide
  rw [atPins, ← length, List.take_left, List.drop_left, ← sealedBits, ← bitsFlipped same, nibblesOfAppend _ (by rw [length]),
    nibblesOfBits]
  exact behindPreamble few _

theorem flippedClean (same : errors.length = frame.length) (clean : true ∉ bits errors) : flipped frame errors = frame := by
  refine bitsInjective (flippedLength same) ?_
  rw [bitsFlipped same]
  have lengths : (bits errors).length = (bits frame).length := by rw [bitsLength, bitsLength, same]
  refine List.ext_getElem (by rw [List.length_zipWith, lengths, Nat.min_self]) fun i a b => ?_
  have within : i < (bits errors).length := by omega
  have clear : (bits errors)[i] = false := by
    by_contra set
    exact clean ((Bool.not_eq_false _).mp set ▸ List.getElem_mem within)
  rw [List.getElem_zipWith, clear, Bool.xor_false]

/- No burst gets through the check. -/
theorem flippedUnchecked (same : errors.length = (sealed frame).length) (burst : Burst 32 (bits errors)) :
    ¬ Checked (flipped (sealed frame) errors) := by
  have long := sealedLength frame
  rw [← checkedIff (by rw [flippedLength same]; omega)]
  exact ErrorDetection.residueChanged same burst ((checkedIff (by omega)).mpr (sealedChecked frame))

end wire

/-! What is committed. -/

section committed
variable {forwards : Bool} {x : Pins} {time : Int} {s t : RxComplete.State} {e : RxPins.Event} {buf : Int}

theorem committedBytes (inv : PoolInv s) (follows : Follows x time s []) (taken : RxComplete.step forwards s e = some t)
    (gives : handed s t = some buf) :
    (s.missed = false → bits (contents t.rx.pool buf) = wholeBits x) ∧
    (s.missed = true → (contents t.rx.pool buf).length < 4 * x.words.length + (x.taillen.val >>> 3)) := by
  obtain ⟨rfl, pre, k, n, last, rfl, -, framed, -, whole⟩ := handedHeld inv taken gives
  obtain ⟨r, vr, vw, ringed⟩ := (poolStep inv taken).ringed
  obtain ⟨⟨r', vr', vw', before⟩, kept, -⟩ := inv
  have hands : RxComplete.HandsOver s t := by
    intro same
    rw [handed, same] at gives
    simp at gives
  obtain ⟨f, given⟩ := RxComplete.handedFrame before kept taken hands
  obtain same : f.buf = k.buf := by simpa [handed, given.sent] using gives
  simp only [Follows, given.phase] at follows
  obtain ⟨-, all, leftover, value⟩ := follows
  have length := given.length
  have header := (repIntact ringed.rep (k := k) (by rw [last]; simp)).1 .length
  have small := framed.small
  have few : s.leftover < 4 := by
    have bound := x.taillen.isLt
    rw [leftover, Nat.shiftRight_eq_div_pow]
    omega
  rw [miiPacketGetLength, same, header, framed.length] at length
  obtain ⟨count, rest⟩ : k.data.length = f.words.length ∧ n = s.leftover := by omega
  have tail : getData t.rx.pool k.buf k.data.length = tailWord x := by
    have found := tailFound forwards before given.fill given.spare
    rw [← given.pool, same, value] at found
    rw [getData, count, found, BitVec.ofInt_toInt]
  constructor
  · intro found
    rw [framedBits framed, whole found, all, tail, rest, leftover]
    rfl
  · intro lost
    have short := given.kept.short lost
    rw [all] at short
    rw [framedLength framed, count, rest, leftover]
    omega

end committed

/-! The steps of the far device that are not those of mii_rx_pins. -/

section far
variable {ι : Type} [DecidableEq ι] {c : RxSystem.Config ι} {x : Pins} {time : Int} {todo : List RxPins.Event} {i j : ι}

theorem setsFollow {s : RxComplete.State} (ws : List (Field × Int)) (inv : PoolInv s) {k : Pkt} (member : k ∈ s.rx.queue)
    (live : k.freed = false) (follows : Follows x time s todo) :
    Follows x time { s with rx := { s.rx with pool := setAll s.rx.pool k.buf ws
                                              queue := refresh (setAll s.rx.pool k.buf ws) k.buf s.rx.queue } } todo := by
  induction ws generalizing s k with
  | nil => exact follows
  | cons w ws ih =>
    have enabled : ∃ k' ∈ s.rx.queue, k'.buf = k.buf ∧ k'.freed = false := ⟨k, member, rfl, live⟩
    have taken : RxComplete.step true s (.set k.buf w.1 w.2) = some { s with
        rx := { s.rx with pool := setField w.1 s.rx.pool k.buf w.2, queue := onBuf k.buf (setHeader w.1 w.2) s.rx.queue } } := by
      simp only [RxComplete.step, RxPins.step, if_pos enabled]
      rfl
    obtain ⟨r, vr, vw, ringed⟩ := inv.ringed
    exact ih (k := setHeader w.1 w.2 k) (poolStep inv taken) (List.mem_map.mpr ⟨k, member, if_pos rfl⟩) live
      (otherFollowed ringed follows rfl taken)

structure Apart (s t : RxSystem.State ι) : Prop where
  arrivals : t.arrivals = s.arrivals
  phase : ∀ i, (t.front.rx i).rx.phase = (s.front.rx i).rx.phase
  follows : ∀ i x time todo, Follows x time (s.front.rx i) todo → Follows x time (t.front.rx i) todo

omit [DecidableEq ι] in
theorem apartSame {s t : RxSystem.State ι} (front : t.front = s.front) (arrivals : t.arrivals = s.arrivals) : Apart s t :=
  ⟨arrivals, fun _ => by rw [front], fun _ _ _ _ follows => by rwa [front]⟩

theorem apartFilter {s : RxSystem.State ι} {t : FilterPass.State ι} (inv : SystemInv s.front)
    (taken : FilterPass.step c.filter false s.front .filter = some t) : Apart s { s with front := t } := by
  rw [FilterPass.stepFilter, FilterPass.deliver] at taken
  obtain ⟨⟨j, buf⟩, waits, rfl⟩ := Option.map_eq_some_iff.mp taken
  refine ⟨rfl, fun i => ?_, fun i x time todo follows => ?_⟩
  · dsimp only
    by_cases same : i = j
    · subst same
      rw [Function.update_self]
    · rw [Function.update_of_ne same]
  · dsimp only
    by_cases same : i = j
    · subst same
      obtain ⟨-, ⟨k, member, rfl, live⟩, -⟩ := heldPass (g := c.filter) inv waits
      obtain ⟨ws, stores⟩ := passStores c.filter 0 (s.front.rx i).rx.pool k.buf s.front.counts
      rw [Function.update_self, stores]
      exact setsFollow ws (inv.pools i) member live follows
    · rw [Function.update_of_ne same]
      exact follows

theorem apartCall {s t : RxSystem.State ι} {count buf : Int} (inv : SystemInv s.front)
    (taken : RxSystem.onPool c s (fun buf => if count = 0 then .free buf else .set buf .tcount (count - 1)) buf = some t) :
    Apart s t := by
  obtain ⟨u, made, rfl⟩ := Option.map_eq_some_iff.mp taken
  dsimp only at made
  generalize call : (if count = 0 then RxPins.Event.free buf else .set buf .tcount (count - 1)) = e at made
  have other : own e = false := by
    rw [← call]
    split <;> rfl
  obtain ⟨v, moved, rx, -⟩ := RxFront.rxTaken made
  obtain ⟨r, vr, vw, ringed⟩ := (inv.pools (c.poolOf buf)).ringed
  refine ⟨rfl, fun i => ?_, fun i x time todo follows => ?_⟩
  · dsimp only
    rw [rx]
    by_cases same : i = c.poolOf buf
    · subst same
      obtain ⟨w, first, rfl⟩ := Option.map_eq_some_iff.mp moved
      rw [Function.update_self, RxComplete.observeRx]
      exact (RxComplete.othersKeep ringed (otherCalls other) first).1
    · rw [Function.update_of_ne same]
  · dsimp only
    rw [rx]
    by_cases same : i = c.poolOf buf
    · subst same
      rw [Function.update_self]
      exact otherFollowed ringed follows other moved
    · rw [Function.update_of_ne same]
      exact follows

theorem apartServer {s t : RxSystem.State ι} (inv : SystemInv s.front) (taken : RxSystem.serverStep c s = some t) :
    Apart s t := by
  cases now : s.server with
  | select => simp [RxSystem.serverStep, now] at taken
  | found i buf =>
    simp only [RxSystem.serverStep, now] at taken
    obtain ⟨next, -, last⟩ := Option.bind_eq_some_iff.mp taken
    cases last
    exact apartSame rfl rfl
  | moved i buf =>
    simp only [RxSystem.serverStep, now] at taken
    obtain ⟨u, made, last⟩ := Option.bind_eq_some_iff.mp taken
    cases last
    have apart := apartCall inv made
    exact ⟨apart.arrivals, apart.phase, apart.follows⟩
  | sending link cmd buf dptr todo sent =>
    cases todo with
    | nil =>
      simp only [RxSystem.serverStep, now] at taken
      obtain ⟨l, -, rest⟩ := Option.bind_eq_some_iff.mp taken
      obtain ⟨u, made, last⟩ := Option.bind_eq_some_iff.mp rest
      cases last
      have apart := apartCall inv made
      exact ⟨apart.arrivals, apart.phase, apart.follows⟩
    | cons item todo =>
      simp only [RxSystem.serverStep, now] at taken
      cases taken
      exact apartSame rfl rfl

theorem apartStep {s t : RxSystem.State ι} {e : RxSystem.Event ι} (inv : SystemInv s.front) (away : ∀ i e', e ≠ .front (.rx i e'))
    (taken : RxSystem.step c s e = some t) : Apart s t := by
  cases e with
  | front e =>
    cases e with
    | rx i e => exact absurd rfl (away i e)
    | filter =>
      obtain ⟨u, made, rfl⟩ := Option.map_eq_some_iff.mp taken
      exact apartFilter inv made
  | look i =>
    simp only [RxSystem.step] at taken
    split at taken <;> cases taken
    exact apartSame rfl rfl
  | server => exact apartServer inv taken
  | request link cmd =>
    simp only [RxSystem.step] at taken
    split at taken
    · split at taken <;> cases taken <;> exact apartSame rfl rfl
    · cases taken
  | command link k =>
    simp only [RxSystem.step] at taken
    split at taken <;> cases taken
    exact apartSame rfl rfl
  | linkStatus x =>
    cases taken
    exact apartSame rfl rfl
  | statusChange =>
    simp only [RxSystem.step] at taken
    split at taken <;> cases taken
    exact apartSame rfl rfl

theorem ownFar {s t : RxSystem.State ι} {e : RxPins.Event} (inv : SystemInv s.front)
    (taken : RxSystem.step c s (.front (.rx j e)) = some t) : own e = true ∧
    ∃ u, RxComplete.step false (s.front.rx j) e = some u ∧ t.front.rx = Function.update s.front.rx j u ∧
      (t.arrivals = s.arrivals ∨ ∃ buf a, e = .commit ∧ handed (s.front.rx j) u = some buf ∧ t.arrivals = s.arrivals ++ [a] ∧
        a.bytes = contents u.rx.pool buf ∧ a.lost = (s.front.rx j).missed) := by
  simp only [RxSystem.step] at taken
  split at taken
  · rename_i mine
    obtain ⟨v, made, rfl⟩ := Option.map_eq_some_iff.mp taken
    obtain ⟨u, moved, rx, free⟩ := RxFront.rxTaken made
    have there : v.rx j = u := by rw [rx, Function.update_self]
    refine ⟨mine, u, moved, ?_, ?_⟩
    · unfold RxSystem.arrive
      split <;> exact rx
    · rw [FilterPass.stepRx free] at made
      simp only [FilterPass.deliver, moved, Option.map_some, Option.some.injEq] at made
      unfold RxSystem.arrive
      rw [there]
      cases gives : handed (s.front.rx j) u with
      | none => exact .inl rfl
      | some buf =>
        obtain ⟨rfl, -⟩ := handedHeld (inv.pools j) moved gives
        simp only [gives] at made
        rw [← made]
        exact .inr ⟨buf, _, rfl, rfl, rfl, rfl, rfl⟩
  · cases taken

end far

/-! What a client has got. -/

theorem sentOffered (n link : Nat) (es : List RxServer.Event) :
    ∀ buf ∈ (RxServer.clientRun n link es).sent ++ (RxServer.clientRun n link es).waiting,
      ∃ header, .process buf header ∈ es ∧ BitVec.ofInt 32 (header .filterResult) ≠ 0#32 := by
  induction es using List.reverseRecOn with
  | nil => simp [RxServer.clientRun, RxLink.Client.initial]
  | append_singleton es e ih =>
    have next : RxServer.clientRun n link (es ++ [e]) = (RxServer.project link e).elim (RxServer.clientRun n link es)
        (RxServer.clientStep n (RxServer.clientRun n link es)) := by
      rw [RxServer.clientRun, RxServer.clientRun, List.filterMap_append, List.foldl_append]
      cases event : RxServer.project link e <;> simp [event]
    rw [next]
    generalize RxServer.clientRun n link es = a at ih
    have before : ∀ buf ∈ a.sent ++ a.waiting, ∃ header, .process buf header ∈ es ++ [e] ∧
        BitVec.ofInt 32 (header .filterResult) ≠ 0#32 := by
      intro buf member
      obtain ⟨header, there, result⟩ := ih buf member
      exact ⟨header, List.mem_append_left _ there, result⟩
    cases e with
    | process buf header =>
      simp only [RxServer.project, Option.elim, RxServer.clientStep, RxLink.Client.offer]
      split
      · exact before
      · rename_i matched
        split
        · intro b member
          rw [← List.append_assoc] at member
          rcases List.mem_append.mp member with old | new
          · exact before b old
          · obtain rfl := List.mem_singleton.mp new
            exact ⟨header, by simp, fun zero => matched (by rw [zero, BitVec.and_zero])⟩
        · exact before
    | request j =>
      simp only [RxServer.project]
      split
      · simp only [Option.elim, RxServer.clientStep, RxLink.Client.request]
        split
        · exact before
        · intro b member
          refine before b ?_
          cases waiting : a.waiting with
          | nil => simpa [waiting] using member
          | cons w ws => simpa [waiting] using member
      · exact before
    | command j k =>
      simp only [RxServer.project]
      split
      · cases k <;> exact before
      · exact before
    | statusChange =>
      simp only [RxServer.project, Option.elim, RxServer.clientStep, RxLink.Client.statusChange]
      split <;> exact before
    | forward buf timestamp => exact before

end ScEthernet.Full.WiredFrames
