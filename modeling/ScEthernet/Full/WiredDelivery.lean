import ScEthernet.Full.WiredSteps
import Mathlib.Data.List.Sort

/-! From client to client over whole runs of the two devices: what a client of the far device gets are frames of the clients
of the near one, whole or cut short, in the order of the calls and each at most once. -/
namespace ScEthernet.Full.WiredDelivery
open Lib.BitOrder Lib.ShiftPort Lib.BurstError Lib.Runs Wire
open WiredSystem WiredFrames WiredSteps
open RxFilter (Pins closing wholeBits)
open RxCheck (Follows ownFollowed)
open FilterPass (SystemInv Wanted)
open Receivers (pins)
open TxServer (Request Transmission)
open TxOrder (Going frameOf line order due ofLink sentCalls wireOf)
open RxSystem (Arrival Reply payload)

def Carried {ι : Type} (c : Config ι) (s : State ι) (m : Nat) (frame : List (BitVec 8)) : Prop :=
  ∃ k r errors, (sentOn c s)[m]? = some k ∧ s.near.calls[k]? = some r ∧ errors.length = (sealed (frameOf r)).length ∧
    (true ∉ bits errors ∨ Burst 32 (bits errors)) ∧ frame = flipped (sealed (frameOf r)) errors

def Arrived {ι : Type} (c : Config ι) (s : State ι) (m : Nat) (a : Arrival ι) : Prop :=
  ∃ frame, Carried c s m frame ∧ (a.lost = false → a.bytes = frame) ∧ (a.lost = true → a.bytes.length < frame.length)

section
variable {ι : Type} [DecidableEq ι]

structure Inside (c : Config ι) (s : State ι) (before after : List (ι × RxPins.Event)) (i : ι) (x : Pins) (time : Int)
    (frame : List (BitVec 8)) : Prop where
  todo : s.todo = before ++ (i, .commit) :: after
  first : ∀ y ∈ before, y.2 ≠ .commit
  last : ∀ y ∈ after, y.2 ≠ .commit
  follows : Follows x time (s.far.front.rx i) (stepsOf i before)
  carried : Carried c s s.heard frame
  bits : wholeBits x = bits frame
  length : 4 * x.words.length + (x.taillen.val >>> 3) = frame.length
  fresh : ∀ m ∈ s.origins, m < s.heard
  past : s.heard < s.passed

def Course (c : Config ι) (s : State ι) : Prop :=
  (∀ y ∈ s.todo, y.2 ≠ .commit) ∨ ∃ before after i x time frame, Inside c s before after i x time frame

structure Wired (c : Config ι) (start stop : ι → Int) (s : State ι) : Prop where
  going : ∃ life, Going c.near s.near life
  calls : ∀ r ∈ s.near.calls, 20 ≤ r.length ∧ r.data.length = TxPool.wordCount r.length
  wire : s.wire = (s.near.transmissions.filter fun x => decide (x.port = c.port)).map fun x =>
    (s.near.calls[x.call]?).map fun r => preamble ++ wireFrame (frameOf r)
  far : RxDelivery.Inv c.far start stop s.far
  passed : s.passed ≤ s.wire.length
  ordered : s.origins.Pairwise (· < ·)
  past : ∀ m ∈ s.origins, m < s.passed
  arrived : List.Forall₂ (Arrived c s) s.origins s.far.arrivals
  course : Course c s
  ready : ∀ i, Fits (phase s i) (stepsOf i s.todo)

end

section near
variable {ι : Type} [DecidableEq ι] {c : Config ι} {start stop : ι → Int} {s t : State ι} {m : Nat} {frame : List (BitVec 8)}

omit [DecidableEq ι] in
theorem carriedKept (sent : ∃ more, sentOn c t = sentOn c s ++ more)
    (calls : ∀ (n : Nat) r, s.near.calls[n]? = some r → t.near.calls[n]? = some r) (carried : Carried c s m frame) :
    Carried c t m frame := by
  obtain ⟨k, r, errors, here, known, rest⟩ := carried
  obtain ⟨more, sent⟩ := sent
  refine ⟨k, r, errors, ?_, calls k r known, rest⟩
  rw [sent]
  exact List.getElem?_append_left (List.getElem?_eq_some_iff.mp here).1 ▸ here

omit [DecidableEq ι] in
theorem arrivedKept (sent : ∃ more, sentOn c t = sentOn c s ++ more)
    (calls : ∀ (n : Nat) r, s.near.calls[n]? = some r → t.near.calls[n]? = some r) {a : Arrival ι} (arrived : Arrived c s m a) :
    Arrived c t m a := by
  obtain ⟨frame, carried, both⟩ := arrived
  exact ⟨frame, carriedKept sent calls carried, both⟩

theorem courseKept (course : Course c s) (todo : t.todo = s.todo) (heard : t.heard = s.heard) (origins : t.origins = s.origins)
    (passed : s.passed ≤ t.passed) (sent : ∃ more, sentOn c t = sentOn c s ++ more)
    (calls : ∀ (n : Nat) r, s.near.calls[n]? = some r → t.near.calls[n]? = some r)
    (follows : ∀ i x time todo, Follows x time (s.far.front.rx i) todo → Follows x time (t.far.front.rx i) todo) :
    Course c t := by
  rcases course with quiet | ⟨before, after, i, x, time, frame, inside⟩
  · exact .inl (by rwa [todo])
  · refine .inr ⟨before, after, i, x, time, frame, todo.trans inside.todo, inside.first, inside.last, follows _ _ _ _ inside.follows, ?_,
      inside.bits, inside.length, ?_, ?_⟩
    · rw [heard]
      exact carriedKept sent calls inside.carried
    · rw [heard, origins]
      exact inside.fresh
    · rw [heard]
      exact Nat.lt_of_lt_of_le inside.past passed

theorem callsStep {g : TxServer.Config} {u v : TxServer.State} {life : Nat → Nat → TxCourse.Life} (sim : TxSim.Sim g u life)
    {e : TxServer.Event} (taken : TxServer.step g u e = some v) :
    v.calls = u.calls ∨ ∃ r, e = .call r ∧ r.Fits g ∧ v.calls = u.calls ++ [r] := by
  cases e with
  | call r =>
    obtain ⟨-, fits, rfl⟩ := TxServer.callMoves taken
    exact .inr ⟨r, rfl, fits, rfl⟩
  | accept i =>
    obtain ⟨n, r, -, -, -, -, -, rfl⟩ := TxServer.acceptMoves taken
    exact .inl rfl
  | command i =>
    obtain ⟨-, rfl⟩ := TxServer.commandMoves taken
    exact .inl rfl
  | timer =>
    obtain ⟨-, rfl⟩ := TxServer.timerMoves taken
    exact .inl rfl
  | default =>
    obtain ⟨-, -, rfl⟩ := TxServer.defaultMoves taken
    exact .inl rfl
  | server => exact .inl (TxOrder.serverOnward sim taken).1.calls
  | pins p held time => exact .inl (TxOrder.pinsOnward (TxServer.pinsMoves taken).2).calls

theorem nearKeeps (wired : Wired c start stop s) {e : TxServer.Event} (mild : Mild c s (.near e)) {u : TxServer.State}
    (taken : TxServer.step c.near s.near e = some u) :
    Wired c start stop { s with near := u, wire := s.wire ++ wireOf c.atEnd s.near c.port e } := by
  obtain ⟨life, going⟩ := wired.going
  obtain ⟨orderly, twenty⟩ := mild
  have long : TxOrder.Long e := by
    cases e with
    | call r => exact Nat.le_trans (by decide) twenty
    | _ => trivial
  have calls : ∀ (n : Nat) r, s.near.calls[n]? = some r → u.calls[n]? = some r := fun n r => TxOrder.stepCalls going.sim taken
  obtain ⟨sent, same, bits⟩ := TxOrder.stepWire going.sim going.long taken c.atEnd c.port
  have more : ∃ more, sentOn c { s with near := u, wire := s.wire ++ wireOf c.atEnd s.near c.port e } = sentOn c s ++ more := by
    refine ⟨(sent.filter fun x => decide (x.port = c.port)).map Transmission.call, ?_⟩
    simp only [sentOn, same, List.filter_append, List.map_append]
  refine ⟨TxOrder.goingKeeps going orderly long taken, fun r member => ?_, ?_, wired.far, ?_, wired.ordered, wired.past, ?_,
    courseKept wired.course rfl rfl rfl (Nat.le_refl _) more calls (fun _ _ _ _ => id), wired.ready⟩
  · rcases callsStep going.sim taken with still | ⟨r', rfl, fits, grown⟩
    · exact wired.calls r (by rwa [← still])
    · dsimp only at member
      rw [grown] at member
      rcases List.mem_append.mp member with old | new
      · exact wired.calls r old
      · cases List.mem_singleton.mp new
        exact ⟨twenty, fits.words⟩
  · dsimp only
    rw [same, List.filter_append, List.map_append, ← bits, wired.wire]
    congr 1
    refine List.map_congr_left fun x member => ?_
    obtain ⟨r, known, -⟩ := (TxSim.simSound going.sim).transmissions x (List.mem_of_mem_filter member)
    rw [known, calls _ r known]
  · dsimp only
    rw [List.length_append]
    exact Nat.le_add_right_of_le wired.passed
  · exact wired.arrived.imp fun _ _ => arrivedKept more calls

end near

section far
variable {ι : Type} [DecidableEq ι] {c : Config ι} {start stop : ι → Int} {s t : State ι}

theorem invFront {g : RxSystem.Config ι} {u : RxSystem.State ι} (inv : RxDelivery.Inv g start stop u) : SystemInv u.front := by
  obtain ⟨old, pre, rest, m, parts⟩ := inv
  exact parts.front

theorem awayKeeps (wired : Wired c start stop s) {u : RxSystem.State ι} (far : RxDelivery.Inv c.far start stop u)
    (apart : Apart s.far u) :
    Wired c start stop { s with far := u } where
  going := wired.going
  calls := wired.calls
  wire := wired.wire
  far := far
  passed := wired.passed
  ordered := wired.ordered
  past := wired.past
  arrived := by
    dsimp only
    rw [apart.arrivals]
    exact wired.arrived
  course := courseKept wired.course rfl rfl rfl (Nat.le_refl _) ⟨[], (List.append_nil _).symm⟩ (fun _ _ => id) apart.follows
  ready i := by
    have fits := wired.ready i
    unfold phase at fits ⊢
    dsimp only
    rw [apart.phase]
    exact fits

theorem loseKeeps (wired : Wired c start stop s) (more : s.passed < s.wire.length) :
    Wired c start stop { s with passed := s.passed + 1 } where
  going := wired.going
  calls := wired.calls
  wire := wired.wire
  far := wired.far
  passed := more
  ordered := wired.ordered
  past m member := Nat.lt_succ_of_lt (wired.past m member)
  arrived := wired.arrived
  course := courseKept wired.course rfl rfl rfl (Nat.le_succ _) ⟨[], (List.append_nil _).symm⟩ (fun _ _ => id) (fun _ _ _ _ => id)
  ready := wired.ready

theorem frameLength {r : Request} (words : r.data.length = TxPool.wordCount r.length) : (frameOf r).length = r.length := by
  rw [frameOf, List.length_take, bytesLength, List.length_map, words, TxPool.wordCount]
  omega

theorem wireFrameOf (wired : Wired c start stop s) {m : Nat} {signal : List Bool} (here : s.wire[m]? = some (some signal)) :
    ∃ k r, (sentOn c s)[m]? = some k ∧ s.near.calls[k]? = some r ∧ signal = preamble ++ wireFrame (frameOf r) := by
  rw [wired.wire, List.getElem?_map] at here
  obtain ⟨x, place, here⟩ := Option.map_eq_some_iff.mp here
  obtain ⟨r, known, rfl⟩ := Option.map_eq_some_iff.mp here
  exact ⟨x.call, r, by rw [sentOn, List.getElem?_map, place]; rfl, known, rfl⟩

theorem hearReady (ready : ∀ i, Fits (phase s i) (stepsOf i s.todo)) (waits : s.todo = []) {x : Pins} (six : 6 ≤ x.words.length)
    (time : Int)
    (own i : ι) : Fits (phase s i) (stepsOf i (frameSteps (c.pools.filter fun i => reserved (phase s i)) own time x ++
      (if own ∈ c.pools.filter (fun i => reserved (phase s i)) then [(own, .commit)] else []) ++ reserves c)) := by
  have before := ready i
  rw [waits] at before
  have commits := stepsOfOnly own (c.pools.filter fun i => reserved (phase s i)) i [.commit]
  rw [List.map_singleton] at commits
  rw [stepsOfAppend, stepsOfAppend, commits, stepsOfFrame _ _ _ (c.nodup.filter _)]
  by_cases member : i ∈ c.pools
  · have next : stepsOf i (reserves c) = [.reserve] := stepsOfEach c.nodup member _
    rw [next]
    rcases fitsNil before with idle | ⟨buf, waiting⟩
    · have without : i ∉ c.pools.filter fun i => reserved (phase s i) := by simp [idle, reserved]
      rw [if_neg without, if_neg fun both => without both.2, idle]
      exact .inr (.inl rfl)
    · have buffer : i ∈ c.pools.filter fun i => reserved (phase s i) := by simp [waiting, reserved, member]
      rw [if_pos buffer, waiting]
      by_cases mine : i = own
      · rw [if_pos mine, if_pos ⟨mine, buffer⟩]
        exact .inr ⟨time, x.words, .inr ⟨six, x, by simp [ending]⟩⟩
      · rw [if_neg mine, if_neg fun both => mine both.1]
        exact .inr ⟨time, x.words.take 4, .inl ⟨by simp, by simp⟩⟩
  · have without : i ∉ c.pools.filter fun i => reserved (phase s i) := fun inside => member (List.mem_of_mem_filter inside)
    have none : stepsOf i (reserves c) = [] := stepsOfNone member _
    rw [if_neg without, if_neg fun both => without both.2, none]
    exact before

theorem hearKeeps (wired : Wired c start stop s) {gone : Nat} {errors : List (BitVec 8)} {register : BitVec 32} {time : Int}
    {signal : List Bool} (waits : s.todo = []) (here : s.wire[s.passed]? = some (some signal)) (few : gone < 16)
    (fits : 64 + 8 * errors.length = signal.length) (mild : true ∉ bits errors ∨ Burst 32 (bits errors)) :
    Wired c start stop (hear c s gone errors register time signal) := by
  obtain ⟨k, r, sent, known, rfl⟩ := wireFrameOf wired here
  have same : errors.length = (sealed (frameOf r)).length := by
    rw [← sealedBits, List.length_append, bitsLength, show preamble.length = 64 by decide] at fits
    omega
  have heard := heardNibbles few same
  obtain ⟨tail, words, whole⟩ := ErrorDetection.framePins register (flipped (sealed (frameOf r)) errors)
  have present : s.passed < s.wire.length := (List.getElem?_eq_some_iff.mp here).1
  have six : 6 ≤ (pins (deliver register (nibbles (flipped (sealed (frameOf r)) errors)))).words.length := by
    obtain ⟨twenty, full⟩ := wired.calls r (List.mem_of_getElem? known)
    rw [words, flippedLength same, sealedLength, frameLength full]
    omega
  simp only [hear, heard]
  generalize pins (deliver register (nibbles (flipped (sealed (frameOf r)) errors))) = x at tail words whole six
  generalize c.poolFor ((x.words.getD 3 0).setWidth 16) = own
  have ready := hearReady (c := c) wired.ready waits six time own
  have nodup := c.nodup.filter fun i => reserved (phase s i)
  have waiting : ∀ i ∈ c.pools.filter fun i => reserved (phase s i), reserved (phase s i) = true :=
    fun i member => (List.mem_filter.mp member).2
  generalize (c.pools.filter fun i => reserved (phase s i)) = buffers at ready nodup waiting ⊢
  refine ⟨wired.going, wired.calls, wired.wire, wired.far, present, wired.ordered,
    fun m member => Nat.lt_succ_of_lt (wired.past m member), wired.arrived, ?_, ready⟩
  have reservesQuiet : ∀ y ∈ reserves c, y.2 ≠ .commit := by
    intro y member
    obtain ⟨i, -, rfl⟩ := List.mem_map.mp member
    simp
  by_cases buffer : own ∈ buffers
  · refine .inr ⟨frameSteps buffers own time x, reserves c, own, x, time, _, ?_, frameQuiet own time x buffers, reservesQuiet, ?_,
      ⟨k, r, errors, sent, known, same, mild, rfl⟩, whole, by rw [words, tail]; omega, wired.past, Nat.lt_succ_self _⟩
    · dsimp only
      rw [if_pos buffer, List.append_assoc]
      rfl
    · have waiting := waiting own buffer
      have mine := stepsOfFrame own time x nodup own
      rw [if_pos buffer, if_pos rfl] at mine
      rw [mine]
      unfold phase at waiting
      unfold Follows
      dsimp only
      cases now : (s.far.front.rx own).rx.phase with
      | reserved buf => rfl
      | _ => rw [now] at waiting; cases waiting
  · refine .inl fun y member => ?_
    dsimp only at member
    rw [if_neg buffer, List.append_nil] at member
    rcases List.mem_append.mp member with early | late
    · exact frameQuiet own time x buffers y early
    · exact reservesQuiet y late

end far

section pins
variable {ι : Type} [DecidableEq ι] {c : Config ι} {start stop : ι → Int} {s t : State ι} {j : ι} {e : RxPins.Event}
  {rest : List (ι × RxPins.Event)}

theorem courseCommit (course : Course c s) (todo : s.todo = (j, .commit) :: rest) : (∀ y ∈ rest, y.2 ≠ .commit) ∧
    ∃ x time frame, Inside c s [] rest j x time frame := by
  rcases course with quiet | ⟨before, after, i, x, time, frame, inside⟩
  · exact absurd rfl (quiet (j, .commit) (by rw [todo]; exact List.mem_cons_self))
  · have same := todo.symm.trans inside.todo
    cases before with
    | nil =>
      obtain ⟨here, rfl⟩ := List.cons.inj same
      cases here
      exact ⟨inside.last, x, time, frame, inside⟩
    | cons y before =>
      obtain ⟨rfl, -⟩ := List.cons.inj same
      exact absurd rfl (inside.first _ List.mem_cons_self)

theorem courseNext (course : Course c s) (todo : s.todo = (j, e) :: rest) (other : e ≠ .commit) (mine : RxFilter.own e = true)
    {u : RxComplete.State} (moved : RxComplete.step false (s.far.front.rx j) e = some u) {far : RxSystem.State ι}
    (rx : far.front.rx = Function.update s.far.front.rx j u) : Course c { s with far := far, todo := rest } := by
  rcases course with quiet | ⟨before, after, i, x, time, frame, inside⟩
  · exact .inl fun y member => quiet y (by rw [todo]; exact List.mem_cons_of_mem _ member)
  · have same := todo.symm.trans inside.todo
    cases before with
    | nil =>
      obtain ⟨here, -⟩ := List.cons.inj same
      cases here
      exact absurd rfl other
    | cons y before =>
      obtain ⟨rfl, behind⟩ := List.cons.inj same
      have follows := inside.follows
      refine .inr ⟨before, after, i, x, time, frame, behind, fun y member => inside.first y (List.mem_cons_of_mem _ member), inside.last,
        ?_, inside.carried, inside.bits, inside.length, inside.fresh, inside.past⟩
      dsimp only
      rw [rx]
      by_cases here : i = j
      · subst here
        rw [stepsOfOwn] at follows
        rw [Function.update_self]
        exact ownFollowed follows mine moved
      · rw [stepsOfOther (Ne.symm here)] at follows
        rw [Function.update_of_ne here]
        exact follows

theorem commitArrives {after : List (ι × RxPins.Event)} {x : Pins} {time : Int} {frame : List (BitVec 8)}
    (front : SystemInv s.far.front) (inside : Inside c s [] after j x time frame) {u : RxComplete.State}
    (moved : RxComplete.step false (s.far.front.rx j) .commit = some u) {buf : Int}
    (gives : FilterPass.handed (s.far.front.rx j) u = some buf) {a : Arrival ι}
    (bytes : a.bytes = FilterPass.contents u.rx.pool buf)
    (lost : a.lost = (s.far.front.rx j).missed) : Arrived c s s.heard a := by
  obtain ⟨whole, short⟩ := committedBytes (front.pools j) inside.follows moved gives
  refine ⟨frame, inside.carried, fun found => ?_, fun missed => ?_⟩
  · have same := whole (lost ▸ found)
    rw [inside.bits, ← bytes] at same
    have lengths := congrArg List.length same
    rw [bitsLength, bitsLength] at lengths
    exact bitsInjective (by omega) same
  · rw [bytes, ← inside.length]
    exact short (lost ▸ missed)

theorem skipReady (ready : ∀ i, Fits (phase s i) (stepsOf i s.todo)) (todo : s.todo = (j, .commit) :: rest)
    (idle : idle (phase s j) = true) (i : ι) : Fits (phase s i) (stepsOf i rest) := by
  have fits := ready i
  rw [todo] at fits
  by_cases here : j = i
  · subst here
    rw [stepsOfOwn] at fits
    cases now : phase s j with
    | idle =>
      rw [now] at fits
      rcases fits with same | same | same
      · cases same
      · cases same
      · exact .inr (.inl (List.cons.inj same).2)
    | _ => rw [now] at idle; cases idle
  · rwa [stepsOfOther here] at fits

theorem nextReady (ready : ∀ i, Fits (phase s i) (stepsOf i s.todo)) (todo : s.todo = (j, e) :: rest)
    (mine : RxFilter.own e = true)
    {u : RxComplete.State} (moved : RxComplete.step false (s.far.front.rx j) e = some u) {far : RxSystem.State ι}
    (rx : far.front.rx = Function.update s.far.front.rx j u) (i : ι) : Fits (far.front.rx i).rx.phase (stepsOf i rest) := by
  have fits := ready i
  rw [todo] at fits
  rw [rx]
  by_cases here : j = i
  · subst here
    obtain ⟨v, taken, rfl⟩ := Option.map_eq_some_iff.mp moved
    rw [stepsOfOwn] at fits
    rw [Function.update_self, RxComplete.observeRx]
    exact fitsNext fits mine taken
  · rw [stepsOfOther here] at fits
    rw [Function.update_of_ne (Ne.symm here)]
    exact fits

theorem pinsKeeps (apart : ∀ i a, start i ≤ a → a < stop i → c.far.poolOf a = i) (small : ∀ i, 4 * (stop i - start i) < 2 ^ 31)
    (wired : Wired c start stop s) (taken : pinsStep c s = some t) : Wired c start stop t := by
  unfold pinsStep at taken
  cases todo : s.todo with
  | nil => simp [todo] at taken
  | cons y rest =>
    obtain ⟨j, e⟩ := y
    simp only [todo] at taken
    split at taken
    · rename_i skips
      cases taken
      have commit : e = .commit := by
        cases e with
        | commit => rfl
        | _ => cases skips
      subst commit
      refine ⟨wired.going, wired.calls, wired.wire, wired.far, wired.passed, wired.ordered, wired.past, wired.arrived,
        .inl (courseCommit wired.course todo).1, skipReady (s := s) wired.ready todo (by simpa [commits] using skips)⟩
    · obtain ⟨far, made, rfl⟩ := Option.map_eq_some_iff.mp taken
      have front := invFront wired.far
      have kept := RxDelivery.stepKeeps apart small wired.far made
      obtain ⟨mine, u, moved, rx, arrivals⟩ := ownFar front made
      have ready := nextReady wired.ready todo mine moved rx
      rcases arrivals with same | ⟨buf, a, rfl, gives, grown, bytes, lost⟩
      · have still : (if s.far.arrivals.length < far.arrivals.length then s.origins ++ [s.heard] else s.origins) = s.origins := by
          rw [same]
          exact if_neg (Nat.lt_irrefl _)
        simp only [still]
        refine ⟨wired.going, wired.calls, wired.wire, kept, wired.passed, wired.ordered, wired.past, ?_, ?_, ready⟩
        · dsimp only
          rw [same]
          exact wired.arrived
        · by_cases commit : e = .commit
          · subst commit
            exact .inl (courseCommit wired.course todo).1
          · exact courseNext wired.course todo commit mine moved rx
      · obtain ⟨quiet, x, time, frame, inside⟩ := courseCommit wired.course todo
        have more : (if s.far.arrivals.length < far.arrivals.length then s.origins ++ [s.heard] else s.origins) =
            s.origins ++ [s.heard] := by
          rw [grown, List.length_append]
          exact if_pos (Nat.lt_succ_self _)
        simp only [more]
        refine ⟨wired.going, wired.calls, wired.wire, kept, wired.passed, ?_, fun m member => ?_, ?_, .inl quiet, ready⟩
        · rw [List.pairwise_append]
          refine ⟨wired.ordered, List.pairwise_singleton .., fun m member n new => ?_⟩
          rw [List.mem_singleton.mp new]
          exact inside.fresh m member
        · rcases List.mem_append.mp member with old | new
          · exact wired.past m old
          · rw [List.mem_singleton.mp new]
            exact inside.past
        · dsimp only
          rw [grown]
          exact List.rel_append wired.arrived (.cons (commitArrives front inside moved gives bytes lost) .nil)

end pins

/-! Whole runs. -/

section run
variable {ι : Type} [DecidableEq ι] {c : Config ι} {start stop : ι → Int} {s t : State ι}

/-! What the steps are. -/

theorem farMoves {e : RxSystem.Event ι} (taken : step c s (.far e) = some t) :
    (∀ i f, e ≠ .front (.rx i f)) ∧ ∃ u, RxSystem.step c.far s.far e = some u ∧ t = { s with far := u } := by
  have moved : ∀ {e : RxSystem.Event ι}, ((RxSystem.step c.far s.far e).map fun u => { s with far := u }) = some t →
      ∃ u, RxSystem.step c.far s.far e = some u ∧ t = { s with far := u } := by
    intro e taken
    obtain ⟨u, first, same⟩ := Option.map_eq_some_iff.mp taken
    exact ⟨u, first, same.symm⟩
  cases e with
  | front e =>
    cases e with
    | rx i e => cases taken
    | filter => exact ⟨by simp, moved taken⟩
  | look i => exact ⟨by simp, moved taken⟩
  | server => exact ⟨by simp, moved taken⟩
  | request link cmd => exact ⟨by simp, moved taken⟩
  | command link k => exact ⟨by simp, moved taken⟩
  | linkStatus x => exact ⟨by simp, moved (e := .linkStatus x) taken⟩
  | statusChange => exact ⟨by simp, moved taken⟩

theorem hearMoves {gone : Nat} {errors : List (BitVec 8)} {register : BitVec 32} {time : Int}
    (taken : step c s (.hear gone errors register time) = some t) :
    s.todo = [] ∧ ∃ signal, s.wire[s.passed]? = some (some signal) ∧ gone < 16 ∧ 64 + 8 * errors.length = signal.length ∧
      t = hear c s gone errors register time signal := by
  simp only [step] at taken
  split at taken
  · rename_i signal waits here
    split at taken
    · rename_i fits
      cases taken
      exact ⟨waits, signal, here, fits.1, fits.2, rfl⟩
    · cases taken
  · cases taken

theorem loseMoves (taken : step c s .lose = some t) : s.passed < s.wire.length ∧ t = { s with passed := s.passed + 1 } := by
  simp only [step] at taken
  split at taken
  · rename_i more
    cases taken
    exact ⟨more, rfl⟩
  · cases taken

theorem stepKeeps (apart : ∀ i a, start i ≤ a → a < stop i → c.far.poolOf a = i) (small : ∀ i, 4 * (stop i - start i) < 2 ^ 31)
    {e : Event ι} (wired : Wired c start stop s) (mild : Mild c s e) (taken : step c s e = some t) : Wired c start stop t := by
  cases e with
  | near e =>
    obtain ⟨u, moved, rfl⟩ := Option.map_eq_some_iff.mp taken
    exact nearKeeps wired mild moved
  | far e =>
    obtain ⟨away, u, moved, rfl⟩ := farMoves taken
    exact awayKeeps wired (RxDelivery.stepKeeps apart small wired.far moved) (apartStep (invFront wired.far) away moved)
  | pins => exact pinsKeeps apart small wired taken
  | hear gone errors register time =>
    obtain ⟨waits, signal, here, few, length, rfl⟩ := hearMoves taken
    exact hearKeeps wired waits here few length mild
  | lose =>
    obtain ⟨more, rfl⟩ := loseMoves taken
    exact loseKeeps wired more

/- Only the filter holds mii_rx_pins up. -/
theorem pinsGo (wired : Wired c start stop s) (free : s.far.front.pending = none) {j : ι} {e : RxPins.Event}
    {rest : List (ι × RxPins.Event)} (todo : s.todo = (j, e) :: rest) : ∃ t, pinsStep c s = some t ∧ t.todo = rest := by
  have fits := wired.ready j
  rw [todo, stepsOfOwn] at fits
  obtain ⟨r, vr, vw, ringed⟩ := ((invFront wired.far).pools j).ringed
  obtain ⟨mine, next⟩ := fitsTaken false ringed fits
  simp only [pinsStep, todo]
  split
  · exact ⟨_, rfl, rfl⟩
  · rename_i goes
    rcases next with taken | ⟨rfl, idle⟩
    · obtain ⟨u, taken⟩ := Option.isSome_iff_exists.mp taken
      have made : FilterPass.step c.far.filter false s.far.front (.rx j e) ≠ none := by
        have open_ : FilterPass.blocked s.far.front.pending j e = false := by rw [free]; rfl
        rw [FilterPass.stepRx open_]
        simp [FilterPass.deliver, RxComplete.step, taken]
      obtain ⟨v, made⟩ := Option.ne_none_iff_exists'.mp made
      have whole : RxSystem.step c.far s.far (.front (.rx j e)) = some (RxSystem.arrive s.far j v) := by
        simp only [RxSystem.step, mine, if_true, made, Option.map_some]
      rw [whole]
      exact ⟨_, rfl, rfl⟩
    · exact absurd (by simp [commits, phase, idle, WiredSystem.idle]) goes

theorem listensAgain (apart : ∀ i a, start i ≤ a → a < stop i → c.far.poolOf a = i) (small : ∀ i, 4 * (stop i - start i) < 2 ^ 31)
    (wired : Wired c start stop s) :
    ∃ es t, (∀ e ∈ es, e = .pins ∨ e = .far (.front .filter)) ∧ run (step c) s es = some t ∧ t.todo = [] := by
  generalize len : s.todo.length = n
  induction n generalizing s with
  | zero => exact ⟨[], s, by simp, rfl, List.length_eq_zero_iff.mp len⟩
  | succ n ih =>
    obtain ⟨⟨j, e⟩, rest, todo⟩ := List.exists_cons_of_length_eq_add_one len
    obtain ⟨fs, u, only, filtered, free, same, kept⟩ : ∃ fs u, (∀ e ∈ fs, e = .pins ∨ e = .far (.front .filter)) ∧
        run (step c) s fs = some u ∧ u.far.front.pending = none ∧ u.todo = s.todo ∧ Wired c start stop u := by
      cases pending : s.far.front.pending with
      | none => exact ⟨[], s, by simp, rfl, pending, rfl, wired⟩
      | some held =>
        obtain ⟨v, made⟩ : ∃ v, FilterPass.step c.far.filter false s.far.front .filter = some v := by
          rw [FilterPass.stepFilter, FilterPass.deliver, pending]
          exact ⟨_, rfl⟩
        have taken : step c s (.far (.front .filter)) = some { s with far := { s.far with front := v } } := by
          simp only [step, RxSystem.step, made, Option.map_some]
        have clear : v.pending = none := by
          obtain ⟨i, k, k', filters, -⟩ := RxFront.filterStep (invFront wired.far) made
          exact filters.after
        have kept := stepKeeps (e := .far (.front .filter)) apart small wired trivial taken
        exact ⟨[.far (.front .filter)], { s with far := { s.far with front := v } }, by simp, by rw [run, taken]; rfl, clear, rfl, kept⟩
    obtain ⟨t, taken, left⟩ := pinsGo kept free (same.trans todo)
    have next : step c u .pins = some t := taken
    rw [todo, List.length_cons] at len
    obtain ⟨es, last, all, reached, done⟩ := ih (stepKeeps (e := .pins) apart small kept trivial next) (by rw [left]; omega)
    refine ⟨fs ++ .pins :: es, last, fun e member => ?_, ?_, done⟩
    · rcases List.mem_append.mp member with first | later
      · exact only e first
      · rcases List.mem_cons.mp later with rfl | later
        · exact .inl rfl
        · exact all e later
    · rw [runAppend, filtered, Option.bind_some, run, next]
      exact reached

/- What passes the check is the frame as it was sent. -/
theorem arrivedPayload {m : Nat} {a : Arrival ι} (wired : Wired c start stop s) (arrived : Arrived c s m a)
    (wanted : Wanted c.far.filter a.bytes) :
    ∃ k r, (sentOn c s)[m]? = some k ∧ s.near.calls[k]? = some r ∧ (payload a).length ≤ r.length ∧
      ((payload a).length = r.length → payload a = frameOf r) := by
  obtain ⟨frame, ⟨k, r, errors, sent, known, same, mild, rfl⟩, whole, short⟩ := arrived
  obtain ⟨-, words⟩ := wired.calls r (List.mem_of_getElem? known)
  have size := frameLength words
  have total := sealedLength (frameOf r)
  refine ⟨k, r, sent, known, ?_⟩
  cases lost : a.lost with
  | false =>
    have all := whole lost
    rcases mild with clean | burst
    · rw [flippedClean same clean] at all
      have equal : payload a = frameOf r := by rw [payload, all, sealedPayload]
      exact ⟨by rw [equal, size], fun _ => equal⟩
    · rw [all] at wanted
      exact absurd wanted.2.1 (flippedUnchecked same burst)
  | true =>
    have less := short lost
    rw [flippedLength same, total, size] at less
    have long := wanted.1
    have length : (payload a).length = a.bytes.length - 4 := by
      rw [payload, List.length_take]
      omega
    exact ⟨by omega, fun equal => by omega⟩

theorem wiredGets (wired : Wired c start stop s) (delivers : RxSystem.Delivers c.far s.far) {link n : Nat}
    {sent : List Lib.ChannelTokens.Token}
    (present : link < s.far.links.length) (reply : .frame n .frameReq sent ∈ s.far.replies link) : Gets c s n sent := by
  have number : (n : Int) ∈ (RxSystem.client c.far s.far link).sent := by
    rw [← delivers.replies link present]
    exact List.mem_filterMap.mpr ⟨_, reply, rfl⟩
  obtain ⟨header, offered, result⟩ := sentOffered c.far.rxBuf link s.far.log n (List.mem_append_left _ number)
  obtain ⟨a, here, outcome⟩ := delivers.offered n header offered
  rw [Int.toNat_natCast] at here
  have wanted : Wanted c.far.filter a.bytes := by
    by_contra unwanted
    exact result (by simpa [RxSystem.Outcome, unwanted] using outcome)
  obtain ⟨a', here', conveys⟩ := delivers.conveyed link n sent reply
  rw [here, Option.some.injEq] at here'
  subst here'
  obtain ⟨inside, rfl⟩ := List.getElem?_eq_some_iff.mp here
  obtain ⟨lengths, each⟩ := List.forall₂_iff_get.mp wired.arrived
  have within : n < s.origins.length := by omega
  have origin : s.origins[n]? = some s.origins[n] := List.getElem?_eq_getElem within
  obtain ⟨k, r, place, known, most, equal⟩ := arrivedPayload wired (each n within inside) wanted
  refine ⟨_, k, r, here, ?_, known, conveys, most, equal⟩
  rw [callOf, origin]
  exact place

theorem risingSublist {xs : List Nat} {n : Nat} (rising : xs.Pairwise (· < ·)) (below : ∀ x ∈ xs, x < n) :
    xs.Sublist (List.range n) :=
  List.sublist_of_subperm_of_pairwise (List.subperm_of_subset rising.nodup fun x member => List.mem_range.mpr (below x member)) rising
    List.pairwise_lt_range

theorem rangePlaces {α : Type} (xs : List α) : (List.range xs.length).filterMap (fun i => xs[i]?) = xs := by
  induction xs using List.reverseRecOn with
  | nil => rfl
  | append_singleton xs x ih =>
    rw [List.length_append, List.length_singleton, List.range_succ, List.filterMap_append]
    congr 1
    · refine (List.filterMap_congr fun i member => ?_).trans ih
      exact List.getElem?_append_left (List.mem_range.mp member)
    · simp

theorem wiredOrder (wired : Wired c start stop s) (delivers : RxSystem.Delivers c.far s.far) {link : Nat}
    (present : link < s.far.links.length)
    (j : ι) (i : Nat) (hp : Bool) : (callsOf c s link j i hp).Sublist (due s.near c.port i hp) := by
  obtain ⟨life, going⟩ := wired.going
  have count : (sentOn c s).length = s.wire.length := by rw [sentOn, wired.wire, List.length_map, List.length_map]
  have numbers : (numbersOf s link j).Sublist (List.range s.origins.length) := by
    have once := delivers.once link j
    rw [List.map_append, List.filter_append] at once
    rw [numbersOf, delivers.replies link present, wired.arrived.length_eq]
    exact ((List.sublist_append_left _ _).trans once).trans ((delivers.order j).sublist.trans List.filter_sublist)
  have places : (s.origins.filterMap fun m => (sentOn c s)[m]?).Sublist (sentOn c s) := by
    have rising := risingSublist wired.ordered fun m member => Nat.lt_of_lt_of_le (wired.past m member) (count ▸ wired.passed)
    exact (rising.filterMap _).trans (by rw [rangePlaces])
  have all : ((numbersOf s link j).filterMap (callOf c s)).Sublist (sentOn c s) := by
    refine (numbers.filterMap _).trans (List.Sublist.trans ?_ places)
    conv_rhs => rw [← rangePlaces s.origins, List.filterMap_filterMap]
    exact List.Sublist.refl _
  have queue : ((sentOn c s).filter fun n => (s.near.calls[n]?).any fun r => r.link == i && r.hp == hp) =
      ofLink s.near i (sentCalls s.near c.port hp) := by
    rw [ofLink, sentCalls, sentOn, List.filter_map, List.filter_map, List.filter_filter, List.filter_filter]
    refine congrArg (List.map _) (List.filter_congr fun x member => ?_)
    simp only [Function.comp]
    cases s.near.calls[x.call]? with
    | none => simp
    | some r => simp [Bool.and_comm, Bool.and_left_comm]
  have front : (ofLink s.near i (sentCalls s.near c.port hp)).Sublist (ofLink s.near i (order s.near c.port hp)) := by
    rw [order, ofLink, ofLink, List.filter_append]
    exact List.sublist_append_left _ _
  have goes := (TxOrder.inOrder going.sim going.front going.rising).first c.port c.inside hp i
  exact (all.filter _).trans (queue ▸ front.trans goes.sublist)

theorem initialWired (c : Config ι) (mem : Nat → Bool → Int → Int) (mempool : Nat → Bool → Nat) (memsize : Bool → Nat)
    (mem' : ι → Int → Int) (mempool' memsize' : ι → Nat) (enough : ∀ i, 28 ≤ memsize' i) (links : Nat) :
    Wired c (fun i => mempool' i + 5) (fun i => mempool' i + memsize' i - 1)
      (initial c mem mempool memsize mem' mempool' memsize' links) where
  going := ⟨_, TxOrder.goingInitial c.near mem mempool memsize⟩
  calls _ member := by cases member
  wire := rfl
  far := RxDelivery.initialInv c.far mem' mempool' memsize' enough links
  passed := Nat.le_refl 0
  ordered := List.Pairwise.nil
  past _ member := by cases member
  arrived := .nil
  course := by
    refine .inl fun y member => ?_
    obtain ⟨i, -, rfl⟩ := List.mem_map.mp member
    simp
  ready i := by
    by_cases member : i ∈ c.pools
    · exact .inr (.inl (stepsOfEach c.nodup member _))
    · exact .inl (stepsOfNone member _)

end run

/-! What a run asks of the near device and of each event alone. -/

section moderate
variable {ι : Type}

def Moderate : Event ι → Prop
  | .near (.call r) => 20 ≤ r.length
  | .hear _ errors _ _ => true ∉ bits errors ∨ Burst 32 (bits errors)
  | _ => True

instance : ∀ e : Event ι, Decidable (Moderate e)
  | .near (.call r) => inferInstanceAs (Decidable (20 ≤ r.length))
  | .hear _ errors _ _ => inferInstanceAs (Decidable (true ∉ bits errors ∨ Burst 32 (bits errors)))
  | .near (.accept _) | .near (.command _) | .near .timer | .near .default | .near .server | .near (.pins _ _ _)
  | .far _ | .pins | .lose => inferInstanceAs (Decidable True)

def nearEvent : Event ι → Option TxServer.Event
  | .near e => some e
  | _ => none

variable [DecidableEq ι] {c : Config ι} {s t : State ι} {e : Event ι}

theorem nearStays (elsewhere : nearEvent e = none) (taken : step c s e = some t) : t.near = s.near := by
  cases e with
  | near e => cases elsewhere
  | far e =>
    obtain ⟨-, u, -, rfl⟩ := farMoves taken
    rfl
  | pins =>
    simp only [step, pinsStep] at taken
    split at taken
    · cases taken
    · split at taken
      · cases taken
        rfl
      · obtain ⟨u, -, rfl⟩ := Option.map_eq_some_iff.mp taken
        rfl
  | hear gone errors register time =>
    obtain ⟨-, signal, -, -, -, rfl⟩ := hearMoves taken
    rfl
  | lose =>
    obtain ⟨-, rfl⟩ := loseMoves taken
    rfl

/- The near device does not depend on what becomes of its frames. -/
theorem alongMild {es : List (Event ι)} (orderly : Along (TxServer.step c.near) (TxSim.Orderly c.near) s.near (es.filterMap nearEvent))
    (moderate : ∀ e ∈ es, Moderate e) : Along (step c) (Mild c) s es := by
  induction es generalizing s with
  | nil => trivial
  | cons e es ih =>
    intro t taken
    have rest : ∀ e ∈ es, Moderate e := fun e member => moderate e (List.mem_cons_of_mem _ member)
    have here := moderate e List.mem_cons_self
    cases near : nearEvent e with
    | none =>
      rw [List.filterMap_cons_none near, ← nearStays near taken] at orderly
      refine ⟨?_, ih orderly rest⟩
      cases e with
      | near f => cases near
      | hear gone errors register time => exact here
      | _ => trivial
    | some f =>
      rw [List.filterMap_cons_some near] at orderly
      cases e <;> cases near
      obtain ⟨u, first, rfl⟩ := Option.map_eq_some_iff.mp taken
      obtain ⟨now, later⟩ := orderly u first
      refine ⟨⟨now, ?_⟩, ih later rest⟩
      cases f with
      | call r => exact here
      | _ => trivial

end moderate

/-- In every run of two devices on a wire that may lose frames and flip a burst of bits in others, a client of the far device
reads frames of calls to mac_tx at the near one, byte for byte or cut short, those of a client in the order of its calls
and none of them twice. -/
theorem connectedThroughout {ι : Type} [DecidableEq ι] (c : Config ι) (mem : Nat → Bool → Int → Int) (mempool : Nat → Bool → Nat)
    (memsize : Bool → Nat) (mem' : ι → Int → Int) (mempool' memsize' : ι → Nat) (links : Nat) (enough : ∀ i, 28 ≤ memsize' i)
    (small : ∀ i, 4 * memsize' i < 2 ^ 31)
    (apart : ∀ i (a : Int), mempool' i ≤ a → a < mempool' i + memsize' i → c.far.poolOf a = i) (es : List (Event ι))
    (mild : Along (step c) (Mild c) (initial c mem mempool memsize mem' mempool' memsize' links) es) :
    Always (step c) (Connected c) (initial c mem mempool memsize mem' mempool' memsize' links) es := by
  have inside : ∀ i (a : Int), (mempool' i : Int) + 5 ≤ a → a < mempool' i + memsize' i - 1 → c.far.poolOf a = i :=
    fun i a low high => apart i a (by omega) (by omega)
  have size : ∀ i, 4 * ((mempool' i : Int) + memsize' i - 1 - (mempool' i + 5)) < 2 ^ 31 := by
    intro i
    have := small i
    omega
  refine alwaysGuarded (I := Wired c (fun i => mempool' i + 5) (fun i => mempool' i + memsize' i - 1))
    (fun _ _ _ wired now taken => stepKeeps inside size wired now taken) (fun s wired => ?_)
    (initialWired c mem mempool memsize mem' mempool' memsize' enough links) mild
  have delivers := RxDelivery.invDelivers inside size wired.far
  exact ⟨fun link n sent present reply => wiredGets wired delivers present reply,
    fun link j i hp present => wiredOrder wired delivers present j i hp, listensAgain inside size wired⟩

def onWire : Config Unit :=
  ⟨TxRuns.twoPorts, 0, Nat.succ_pos 1, true, RxDelivery.onePool, [()], List.nodup_singleton (), fun _ => ()⟩
def onWireStart : State Unit :=
  initial onWire (fun _ _ _ => 0) (fun _ _ => 0) (fun _ => 600) (fun _ _ => 0) (fun _ => 0) (fun _ => 128) 2
/- The first of two frames is lost. -/
def secondGot : List (Event Unit) := List.flatten
  [[.pins, .far (.command 1 (.customFilterSet 3#32))], TxOrder.twoFrames.map .near,
    [.lose, .hear 3 (List.replicate 64 0) 0x12345678#32 7], List.replicate 25 .pins, [.far (.front .filter), .far (.look ()), .far .server, .far .server],
    [.far (.request 0 .frameReq), .far (.request 1 .frameReq)], List.replicate 20 (.far .server)]

theorem connectedThroughoutSecond : ∃ s, run (step onWire) onWireStart secondGot = some s ∧
    s.origins = [1] ∧ callsOf onWire s 1 () 0 false = [1] ∧ Connected onWire s := by
  have ends : (run (step onWire) onWireStart secondGot).any
      (fun s => decide (s.origins = [1] ∧ callsOf onWire s 1 () 0 false = [1])) = true := by decide +kernel
  have mild : Along (step onWire) (Mild onWire) onWireStart secondGot := alongMild (by decide +kernel) (by decide +kernel)
  cases reached : run (step onWire) onWireStart secondGot with
  | none => rw [reached] at ends; cases ends
  | some s =>
    rw [reached, Option.any_some, decide_eq_true_iff] at ends
    obtain ⟨heard, calls⟩ := ends
    have always := connectedThroughout onWire (fun _ _ _ => 0) (fun _ _ => 0) (fun _ => 600) (fun _ _ => 0) (fun _ => 0)
      (fun _ => 128) 2 (fun _ => by decide) (fun _ => by decide) (fun _ _ _ _ => rfl) secondGot mild
    exact ⟨s, rfl, heard, calls, alwaysReached always reached⟩

end ScEthernet.Full.WiredDelivery
