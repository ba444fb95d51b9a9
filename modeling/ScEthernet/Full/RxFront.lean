import ScEthernet.Full.RxSystem
import ScEthernet.Full.TxPackets

/-! What the tasks in front of ethernet_rx_server and its own calls do to the queues of the pools: a commit puts a
packet behind the others, a pass of the filter fills in the header of the last one, and a free marks or removes. -/
namespace ScEthernet.Full.RxFront
open Lib.UnrolledRing Lib.BitOrder Lib.Runs Malloc PoolQueue RxSystem
open FilterPass (SystemInv PoolInv Framed Held Wanted handed touches contents getData ethernetFilterPass setAll refresh)
open RxPins (Ringed)

section packets
variable {p : Pool} {q : List Pkt} {r : Ring} {vr vw : Nat} {k k' : Pkt}

theorem bufInside (h : Rep p q r vr vw) (member : k ∈ q) : p.start ≤ k.buf ∧ k.buf < p.stop := by
  obtain ⟨pre, post, rfl⟩ := List.append_of_mem member
  obtain ⟨v, w, left, slot, right⟩ := chainSlot h.chain
  have buf := slot.buf
  have room := slot.room
  have lower := r.placeLower v
  rw [h.start, h.stop]
  omega

theorem bufsApart (h : Rep p q r vr vw) (member : k ∈ q) (member' : k' ∈ q) (same : k.buf = k'.buf) : k = k' := by
  have apart := TxPackets.chainBufs h.chain h.span
  exact List.inj_on_of_nodup_map apart member member' same

theorem memOnBuf {buf : Int} {f : Pkt → Pkt} (member : k ∈ q) (ne : k.buf ≠ buf) : k ∈ onBuf buf f q :=
  List.mem_map.mpr ⟨k, member, if_neg ne⟩

theorem onBufMem {buf : Int} {f : Pkt → Pkt} (member : k ∈ onBuf buf f q) :
    k ∈ q ∧ k.buf ≠ buf ∨ ∃ k' ∈ q, k'.buf = buf ∧ k = f k' := by
  obtain ⟨k', old, rfl⟩ := List.mem_map.mp member
  split
  · rename_i same
    exact .inr ⟨k', old, same, rfl⟩
  · rename_i ne
    exact .inl ⟨old, ne⟩

theorem reclaimSplit (q : List Pkt) : ∃ gone, q = gone ++ reclaim q ∧ ∀ k ∈ gone, k.freed = true := by
  induction q with
  | nil => exact ⟨[], rfl, by simp⟩
  | cons k q ih =>
    obtain ⟨gone, split, freed⟩ := ih
    unfold reclaim
    split
    · rename_i first
      refine ⟨k :: gone, congrArg (k :: ·) split, fun k' member => ?_⟩
      rcases List.mem_cons.mp member with rfl | later
      · exact first
      · exact freed k' later
    · exact ⟨[], rfl, by simp⟩

end packets

/-! The steps. -/

section steps
variable {ι : Type} [DecidableEq ι] {g : FilterPass.Config} {s t : FilterPass.State ι} {i : ι}

theorem extentKept {u v : RxPins.State} {r : Ring} {vr vw : Nat} {e : RxPins.Event} (h : Ringed u r vr vw)
    (taken : RxPins.step false u e = some v) : v.pool.start = u.pool.start ∧ v.pool.stop = u.pool.stop := by
  obtain ⟨vr', vw', next⟩ := RxPins.stepKeeps h taken
  exact ⟨next.rep.start.trans h.rep.start.symm, next.rep.stop.trans h.rep.stop.symm⟩

theorem rxTaken {e : RxPins.Event} (taken : FilterPass.step g false s (.rx i e) = some t) :
    ∃ u, RxComplete.step false (s.rx i) e = some u ∧ t.rx = Function.update s.rx i u ∧
      FilterPass.blocked s.pending i e = false := by
  obtain ⟨free, taken⟩ := FilterPass.stepIs.mp taken
  obtain ⟨u, moved, rfl⟩ := Option.map_eq_some_iff.mp taken
  refine ⟨u, moved, ?_, free⟩
  split <;> rfl

theorem rxHere {e : RxPins.Event} (taken : FilterPass.step g false s (.rx i e) = some t) :
    RxPins.step false (s.rx i).rx e = some (t.rx i).rx ∧ ∀ j, j ≠ i → t.rx j = s.rx j := by
  obtain ⟨u, moved, rx, -⟩ := rxTaken taken
  obtain ⟨v, first, rfl⟩ := Option.map_eq_some_iff.mp moved
  rw [rx, Function.update_self, RxComplete.observeRx]
  exact ⟨first, fun j ne => Function.update_of_ne ne _ _⟩

theorem passPointers (g : FilterPass.Config) (p : Pool) (buf : Int) (c : FilterPass.Counts) :
    let p' := (ethernetFilterPass g 0 p buf c).1
    p'.start = p.start ∧ p'.stop = p.stop ∧ p'.wrptr = p.wrptr := by
  have kept : ∀ (ws : List (Field × Int)) (p : Pool),
      (setAll p buf ws).start = p.start ∧ (setAll p buf ws).stop = p.stop ∧ (setAll p buf ws).wrptr = p.wrptr := by
    intro ws
    induction ws with
    | nil => exact fun p => ⟨rfl, rfl, rfl⟩
    | cons w ws ih => exact fun p => ih (setField w.1 p buf w.2)
  obtain ⟨ws, stores⟩ := FilterPass.passStores g 0 p buf c
  rw [stores]
  exact kept ws p

theorem extentStep (inv : SystemInv s) {e : FilterPass.Event ι} (taken : FilterPass.step g false s e = some t) (j : ι) :
    (t.rx j).rx.pool.start = (s.rx j).rx.pool.start ∧ (t.rx j).rx.pool.stop = (s.rx j).rx.pool.stop := by
  cases e with
  | rx i e =>
    obtain ⟨moved, others⟩ := rxHere taken
    by_cases same : j = i
    · subst same
      obtain ⟨r, vr, vw, ringed⟩ := (inv.pools j).ringed
      exact extentKept ringed moved
    · rw [others j same]
      exact ⟨rfl, rfl⟩
  | filter =>
    rw [FilterPass.stepFilter, FilterPass.deliver] at taken
    obtain ⟨⟨i, buf⟩, waits, rfl⟩ := Option.map_eq_some_iff.mp taken
    dsimp only
    by_cases same : j = i
    · subst same
      rw [Function.update_self]
      exact ⟨(passPointers g (s.rx j).rx.pool buf s.counts).1, (passPointers g (s.rx j).rx.pool buf s.counts).2.1⟩
    · rw [Function.update_of_ne same]
      exact ⟨rfl, rfl⟩

structure Silent (s t : FilterPass.State ι) (i : ι) : Prop where
  handed : handed (s.rx i) (t.rx i) = none
  pending : t.pending = s.pending
  frame : t.frame = s.frame
  queue : (t.rx i).rx.queue = (s.rx i).rx.queue
  wrptr : (t.rx i).rx.pool.wrptr = (s.rx i).rx.pool.wrptr

/- A frame that goes to the filter: its packet is the last one, with the time of its start. -/
structure Commits (s t : FilterPass.State ι) (i : ι) (k : Pkt) : Prop where
  handed : handed (s.rx i) (t.rx i) = some k.buf
  before : s.pending = none
  after : t.pending = some (i, k.buf)
  queue : (t.rx i).rx.queue = (s.rx i).rx.queue ++ [k]
  buf : k.buf = (s.rx i).rx.pool.wrptr + 2
  live : k.freed = false
  stage : k.header .stage = 0
  time : k.header .timestamp = committedTime (s.rx i).rx
  framed : ∃ tail n, Framed k tail n t.frame
  whole : t.lost = false → k.data.map (BitVec.ofInt 32) = t.received

theorem committedHeader {u v : RxComplete.State} (inv : PoolInv u) (taken : RxComplete.step false u .commit = some v) {buf : Int}
    (gives : handed u v = some buf) :
    getField .stage v.rx.pool buf = 0 ∧ getField .timestamp v.rx.pool buf = committedTime u.rx := by
  obtain ⟨⟨r, vr, vw, h⟩, kept, -⟩ := inv
  have hands : RxComplete.HandsOver u v := by
    intro same
    rw [handed, same] at gives
    simp at gives
  obtain ⟨f, given⟩ := RxComplete.handedFrame h kept taken hands
  have phase := given.phase
  have sent := given.sent
  obtain rfl : f.buf = buf := by simpa [handed, sent] using gives
  have ends := h.phase
  simp only [RxPins.PhaseInv, phase] at ends
  simp only [RxComplete.PhaseKept, phase] at kept
  have time := (kept.2.done (.timestamp, f.time) (by simp [RxComplete.fieldsOf])).resolve_left List.not_mem_nil
  rw [given.pool, committedTime, phase]
  rcases RxPins.commitCases false h.rep ends.1 ends.2 with fails | ⟨D, -, -, -, commit⟩
  · exfalso
    obtain ⟨w, moved, rfl⟩ := Option.map_eq_some_iff.mp taken
    cases RxPins.stepCases moved with
    | refused => exact hands rfl
    | @commit g phase' returns =>
      obtain rfl : f = g := RxPins.Phase.commit.inj (phase.symm.trans phase')
      exact returns (by rw [fails])
  · rw [commit]
    dsimp only
    rw [commitAtHeader, commitAtHeader, if_pos (.inl rfl), if_neg (by simp)]
    exact ⟨rfl, time⟩

theorem ownStep (inv : SystemInv s) {e : RxPins.Event} (own : RxFilter.own e = true)
    (taken : FilterPass.step g false s (.rx i e) = some t) :
    (∀ j, j ≠ i → t.rx j = s.rx j) ∧ (Silent s t i ∨ ∃ k, Commits s t i k) := by
  have kept := FilterPass.systemStep inv taken
  obtain ⟨moved, others⟩ := rxHere taken
  obtain ⟨r, vr, vw, ringed⟩ := (inv.pools i).ringed
  refine ⟨others, ?_⟩
  obtain ⟨u, whole, rx, free⟩ := rxTaken taken
  have there : t.rx i = u := by rw [rx, Function.update_self]
  rw [FilterPass.stepRx free] at taken
  simp only [FilterPass.deliver, whole, Option.map_some, Option.some.injEq] at taken
  rcases RxPins.stepQueue ringed moved with ⟨queue, sent, wrptr⟩ | ⟨k, rfl, live, buf, queue, sent⟩ | ⟨buf, f, x, rfl, -⟩ |
      ⟨buf, rfl, -⟩
  · have none : handed (s.rx i) (t.rx i) = none := by simp [handed, sent]
    have same := none
    rw [there] at same
    simp only [same] at taken
    exact .inl ⟨none, by rw [← taken], by rw [← taken], queue, wrptr⟩
  · have gives : handed (s.rx i) (t.rx i) = some k.buf := by simp [handed, sent]
    have before : s.pending = none := by
      cases now : s.pending with
      | none => rfl
      | some old => simp [now, FilterPass.blocked, touches, FilterPass.commits] at free
    have after : t.pending = some (i, k.buf) := by
      rw [there] at gives
      simp only [gives] at taken
      rw [← taken]
    obtain ⟨pre, k', n, last, -, -, framed, -, whole'⟩ := kept.held i k.buf after
    obtain ⟨rfl, same⟩ := List.append_inj' (last.symm.trans queue) rfl
    obtain rfl : k' = k := by simpa using same
    obtain ⟨r', vr', vw', ringed'⟩ := (kept.pools i).ringed
    have header := (repIntact ringed'.rep (k := k') (by rw [queue]; simp)).1
    have fields := committedHeader (inv.pools i) (there ▸ whole) gives
    exact .inr ⟨k', gives, before, after, queue, buf, live, (header .stage).symm.trans fields.1,
      (header .timestamp).symm.trans fields.2, ⟨_, n, framed⟩, whole'⟩
  · cases own
  · cases own

theorem passHeader (g : FilterPass.Config) (p : Pool) {buf : Int} (some : buf ≠ 0) (c : FilterPass.Counts) :
    let p' := (ethernetFilterPass g 0 p buf c).1
    getField .stage p' buf = 1 ∧ getField .srcPort p' buf = 0 ∧ getField .length p' buf = getField .length p buf ∧
    getField .timestamp p' buf = getField .timestamp p buf ∧
    (getField .filterResult p' buf ≠ 0 → getField .timestampId p' buf = 0) := by
  unfold ethernetFilterPass
  rw [if_neg some]
  dsimp only [miiPacketSetStage, miiPacketSetTimestampId]
  cases RxFilter.ethernetFilter p buf with
  | filteredByLength => simp [getSetField]
  | filteredByBadCrc => simp [getSetField]
  | filter =>
    dsimp only
    generalize (if FilterPass.isBroadcast (setField .srcPort p buf 0) buf ∨ FilterPass.compareMac g (setField .srcPort p buf 0) buf then
      FilterPass.macCustomFilterCoerce g (setField .srcPort p buf 0) buf else (0#32, 0#32)) = outcome
    cases g.userData <;> simp [getSetField]

structure Filters (g : FilterPass.Config) (s t : FilterPass.State ι) (i : ι) (k k' : Pkt) : Prop where
  waits : s.pending = some (i, k.buf)
  after : t.pending = none
  member : k ∈ (s.rx i).rx.queue
  queue : (t.rx i).rx.queue = onBuf k.buf (fun _ => k') (s.rx i).rx.queue
  wrptr : (t.rx i).rx.pool.wrptr = (s.rx i).rx.pool.wrptr
  buf : k'.buf = k.buf
  data : k'.data = k.data
  live : k'.freed = k.freed
  stage : k'.header .stage = 1
  srcPort : k'.header .srcPort = 0
  length : k'.header .length = k.header .length
  time : k'.header .timestamp = k.header .timestamp
  outcome : Outcome g s.frame (BitVec.ofInt 32 (k'.header .filterResult))
  stamp : BitVec.ofInt 32 (k'.header .filterResult) ≠ 0#32 → k'.header .timestampId = 0

theorem framedViews {p : Pool} {q : List Pkt} {r : Ring} {vr vw n : Nat} {k : Pkt} {tail : BitVec 32} {frame : List (BitVec 8)}
    (h : Rep p q r vr vw) (member : k ∈ q) (framed : Framed k tail n frame) (long : 10 ≤ k.data.length) :
    Views (FilterPass.coerced p k.buf) frame := by
  obtain ⟨pre, post, rfl⟩ := List.append_of_mem member
  obtain ⟨v, w, left, slot, right⟩ := chainSlot h.chain
  have word : ∀ i (inside : i < 10), FilterPass.coerced p k.buf i = BitVec.ofInt 32 k.data[i] := by
    intro i inside
    have place : miiPacketGetDataPtr k.buf + i = r.place (v + 12 + i) := by
      rw [miiPacketGetDataPtr, bufDataOffset, slot.buf, Nat.add_assoc v, DataWalks.placeShort slot.room (by omega)]
      push_cast
      omega
    rw [FilterPass.coerced, place, slot.data i (by omega)]
  have words : (List.range 10).map (FilterPass.coerced p k.buf) = (k.data.map (BitVec.ofInt 32)).take 10 := by
    refine List.ext_getElem (by simp; omega) fun i low high => ?_
    rw [List.length_map, List.length_range] at low
    simp [word i low]
  rw [Views, words, bytesTake, framed.frame, List.take_append_of_le_length (by rw [bytesLength, List.length_map]; omega)]

theorem filterStep (inv : SystemInv s) (taken : FilterPass.step g false s .filter = some t) :
    ∃ i k k', Filters g s t i k k' ∧ ∀ j, j ≠ i → t.rx j = s.rx j := by
  rw [FilterPass.stepFilter, FilterPass.deliver] at taken
  obtain ⟨⟨i, buf⟩, waits, rfl⟩ := Option.map_eq_some_iff.mp taken
  obtain ⟨-, -, decided⟩ := FilterPass.heldPass (g := g) inv waits
  obtain ⟨pre, k, n, last, rfl, live, framed, -⟩ := inv.held i buf waits
  have member : k ∈ (s.rx i).rx.queue := by rw [last]; simp
  obtain ⟨r, vr, vw, ringed⟩ := (inv.pools i).ringed
  have header := (repIntact ringed.rep member).1
  have positive : k.buf ≠ 0 := by
    have inside := bufInside ringed.rep member
    have base := ringed.rep.base
    have start := ringed.rep.start
    omega
  have wrptr := (passPointers g (s.rx i).rx.pool k.buf s.counts).2.2
  obtain ⟨stage, srcPort, length, time, stamp⟩ := passHeader g (s.rx i).rx.pool positive s.counts
  have outcome : Outcome g s.frame
      (BitVec.ofInt 32 (getField .filterResult (ethernetFilterPass g 0 (s.rx i).rx.pool k.buf s.counts).1 k.buf)) := by
    rw [decided.result, Outcome]
    split
    · rename_i wanted
      have total := FilterPass.framedLength framed
      have long := wanted.1
      have small := framed.small
      exact ⟨_, framedViews ringed.rep member framed (by omega), BitVec.ofInt_toInt ..⟩
    · rfl
  dsimp only
  generalize (ethernetFilterPass g 0 (s.rx i).rx.pool k.buf s.counts).1 = p at *
  refine ⟨i, k, { k with header := fun f => getField f p k.buf },
    ⟨waits, rfl, member, ?_, ?_, rfl, rfl, rfl, stage, srcPort, length.trans (header _), time.trans (header _), outcome,
      fun some => stamp fun zero => some (congrArg (BitVec.ofInt 32) zero)⟩,
    fun j ne => Function.update_of_ne ne _ _⟩
  · dsimp only
    rw [Function.update_self]
    refine List.map_congr_left fun k' member' => ?_
    split
    · rename_i same
      rw [bufsApart ringed.rep member' member same]
    · rfl
  · dsimp only
    rw [Function.update_self]
    exact wrptr

/-! The calls of the server. -/

theorem callStep (inv : SystemInv s) {e : RxPins.Event} {k : Pkt} (member : k ∈ (s.rx i).rx.queue) (live : k.freed = false)
    (call : (∃ f x, e = .set k.buf f x) ∨ e = .free k.buf) (free : s.pending ≠ some (i, k.buf)) :
    ∃ t, FilterPass.step g false s (.rx i e) = some t ∧ t.pending = s.pending ∧ t.frame = s.frame := by
  obtain ⟨r, vr, vw, ringed⟩ := (inv.pools i).ringed
  have enabled : ∃ k' ∈ (s.rx i).rx.queue, k'.buf = k.buf ∧ k'.freed = false := ⟨k, member, rfl, live⟩
  have open_ : FilterPass.blocked s.pending i e = false := by
    cases now : s.pending with
    | none => rfl
    | some old =>
      obtain ⟨j, buf⟩ := old
      rw [now] at free
      rcases call with ⟨f, x, rfl⟩ | rfl
      all_goals
        simp only [FilterPass.blocked, touches, FilterPass.commits, Bool.or_false, Bool.and_eq_false_iff, decide_eq_false_iff_not]
        by_contra both
        simp only [not_or, not_not] at both
        exact free (by rw [both.1, both.2])
  have returns : ∃ v, RxPins.step false (s.rx i).rx e = some v ∧ v.sent = (s.rx i).rx.sent := by
    rcases call with ⟨f, x, rfl⟩ | rfl
    · exact ⟨{ (s.rx i).rx with pool := setField f (s.rx i).rx.pool k.buf x, queue := onBuf k.buf (setHeader f x) (s.rx i).rx.queue },
        by simp only [RxPins.step, if_pos enabled], rfl⟩
    · obtain ⟨p', vr', freed, -⟩ := miiFreeRep ringed.rep ringed.settled member live
      exact ⟨{ (s.rx i).rx with pool := p', queue := PoolQueue.free k.buf (s.rx i).rx.queue },
        by simp only [RxPins.step, if_pos enabled, freed]; rfl, rfl⟩
  obtain ⟨v, moved, sent⟩ := returns
  have quiet : handed (s.rx i) (RxComplete.observe (s.rx i) v e) = none := by
    simp [handed, RxComplete.observeRx, sent]
  refine ⟨{ s with rx := Function.update s.rx i (RxComplete.observe (s.rx i) v e) }, ?_, rfl, rfl⟩
  rw [FilterPass.stepRx open_]
  simp only [FilterPass.deliver, RxComplete.step, moved, Option.map_some, quiet]

theorem setQueue {buf : Int} {f : Field} {x : Int} (taken : FilterPass.step g false s (.rx i (.set buf f x)) = some t) :
    (t.rx i).rx.queue = onBuf buf (setHeader f x) (s.rx i).rx.queue ∧ (t.rx i).rx.pool.wrptr = (s.rx i).rx.pool.wrptr := by
  have moved := (rxHere taken).1
  generalize (t.rx i).rx = v at moved
  cases RxPins.stepCases moved with
  | set => exact ⟨rfl, rfl⟩

theorem freeQueue {buf : Int} (inv : SystemInv s) (taken : FilterPass.step g false s (.rx i (.free buf)) = some t) :
    (t.rx i).rx.queue = PoolQueue.free buf (s.rx i).rx.queue ∧ (t.rx i).rx.pool.wrptr = (s.rx i).rx.pool.wrptr := by
  obtain ⟨r, vr, vw, ringed⟩ := (inv.pools i).ringed
  have moved := (rxHere taken).1
  generalize (t.rx i).rx = v at moved
  have wrptr : v.pool.wrptr = (s.rx i).rx.pool.wrptr := by
    rcases RxPins.stepQueue ringed moved with ⟨-, -, same⟩ | ⟨_, eq, -⟩ | ⟨_, _, _, eq, -⟩ | ⟨_, -, -, -, same⟩
    · exact same
    · cases eq
    · cases eq
    · exact same
  cases RxPins.stepCases moved with
  | free => exact ⟨rfl, wrptr⟩

end steps

end ScEthernet.Full.RxFront
