import ScEthernet.Full.TxSim

/-! Each step of mii_tx_pins keeps the simulation. -/
namespace ScEthernet.Full.TxPinsSteps
open Lib.CircularFifo Lib.Runs Malloc PoolQueue TxTransfer TxServer TxPackets TxPort TxSim
open TxCourse (Phase Life Course Single Inv)

section pins
variable {c : Config} {s t : State} {life life' : Nat → Nat → Life} {p n : Nat} {hp : Bool} {buf time : Int} {k : Pkt} {r : Request}

def atPins (s : State) (p : Nat) (x : Pins) (pools : Nat → Bool → TxPool.State) (tsQueue : Nat → Fifo (Bool × Int))
    (transmissions : List Transmission) (freed : List (Nat × Nat)) : State :=
  { s with pins := set s.pins p x, pools := pools, tsQueue := tsQueue, transmissions := transmissions, freed := freed }

theorem loadingKept (loading : Loading c s) (server : t.server = s.server) (clients : t.clients = s.clients)
    (calls : t.calls = s.calls) (phases : ∀ q h, (t.pools q h).phase = (s.pools q h).phase) : Loading c t := by
  unfold Loading at loading ⊢
  rw [server, clients, calls]
  simp only [phases]
  exact loading

theorem atPinsTokens (x : Pins) (pools : Nat → Bool → TxPool.State) (tsQueue : Nat → Fifo (Bool × Int))
    (transmissions : List Transmission) (freed : List (Nat × Nat)) :
    tokensOf (atPins s p x pools tsQueue transmissions freed) p =
      (releaseOf s.server p).toList ++ (foundOf s.server p).toList ++ (tsQueue p).contents macMaxEntries ++ (staged x).toList := by
  simp only [tokensOf, atPins, setSame]

section
variable {x : Pins} {pools : Nat → Bool → TxPool.State} {tsQueue : Nat → Fifo (Bool × Int)} {transmissions : List Transmission}
  {freed : List (Nat × Nat)}

theorem atPinsKeeps (sim : Sim c s life)
    (courses : (∀ m r, s.calls[m]? = some r →
      courseOf (atPins s p x pools tsQueue transmissions freed) m (life' m) = courseOf s m (life m) ∨
      TxCourse.Step c r m (courseOf s m (life m)) (courseOf (atPins s p x pools tsQueue transmissions freed) m (life' m))) ∧
      ∀ m, s.calls[m]? = none → courseOf (atPins s p x pools tsQueue transmissions freed) m (life' m) = courseOf s m (life m))
    (phases : ∀ q h, (pools q h).phase = (s.pools q h).phase) (invs : ∀ q h, TxPool.Inv (pools q h))
    (fifos : ∀ q, (tsQueue q).Valid macMaxEntries)
    (away : ∀ q, q ≠ p → pools q = s.pools q ∧ tsQueue q = s.tsQueue q ∧ ∀ n, life' n q = life n q)
    (port : Port s.calls (fun h => (pools p h).queue) (s.owner p) x
      ((releaseOf s.server p).toList ++ (foundOf s.server p).toList ++ (tsQueue p).contents macMaxEntries ++ (staged x).toList)
      (releaseOf s.server p) (fun n => life' n p)) :
    Sim c (atPins s p x pools tsQueue transmissions freed) life' := by
  refine simKeeps sim rfl (fun i n inside => inside) courses.1 courses.2 (fun a => .inl) sim.pending
    (loadingKept sim.loading rfl rfl rfl phases) invs fifos (portsSplit (p := p) ?_ sim.ports rfl fun q other => ?_)
  · unfold PortIn
    rw [atPinsTokens]
    simp only [atPins, setSame]
    exact port
  · obtain ⟨samePools, sameQueue, sameLife⟩ := away q other
    exact { pools := fun h => congrArg TxPool.State.queue (congrFun samePools h), owner := rfl, pins := setOther other x
            tsQueue := sameQueue, found := rfl, release := rfl, life := sameLife }

end

theorem portAt (sim : Sim c s life) {x : Pins} (pins : s.pins p = x) :
    Port s.calls (fun h => (s.pools p h).queue) (s.owner p) x
      ((releaseOf s.server p).toList ++ (foundOf s.server p).toList ++ (s.tsQueue p).contents macMaxEntries ++ (staged x).toList)
      (releaseOf s.server p) (fun n => life n p) := by
  rw [← pins]
  exact sim.ports p

theorem moveKeeps (sim : Sim c s life) {x : Pins} (kept : staged x = staged (s.pins p))
    (past : transmitted x = transmitted (s.pins p))
    (heads : ∀ hp buf, holds x = some (hp, buf) → ∃ k, (s.pools p hp).queue.head? = some k ∧ k.buf = buf)
    (apart : ∀ y, holds x = some y → y ∉ tokensOf s p)
    (ids : ∀ hp, ∀ k ∈ (s.pools p hp).queue, timed x = some (hp, k.buf) → k.header .timestampId ≠ 0) :
    Sim c { s with pins := set s.pins p x } life := by
  have tokens : (releaseOf s.server p).toList ++ (foundOf s.server p).toList ++ (s.tsQueue p).contents macMaxEntries ++
      (staged x).toList = tokensOf s p := by rw [kept]; rfl
  have moved : Sim c (atPins s p x s.pools s.tsQueue s.transmissions s.freed) life := by
    refine atPinsKeeps sim ⟨fun _ _ _ => .inl rfl, fun _ _ => rfl⟩ (fun _ _ => rfl) sim.pools sim.fifos
      (fun q other => ⟨rfl, rfl, fun _ => rfl⟩) ?_
    rw [tokens]
    exact portPins (sim.ports p) past heads apart ids
  exact moved

theorem idleKeeps (sim : Sim c s life) {x : Pins} (old : holds (s.pins p) = none ∧ staged (s.pins p) = none)
    (new : holds x = none ∧ staged x = none) : Sim c { s with pins := set s.pins p x } life := by
  have none : ∀ y, holds y = none → transmitted y = none ∧ timed y = none := by
    intro y none
    cases y <;> first | exact ⟨rfl, rfl⟩ | cases none
  refine moveKeeps sim (new.2.trans old.2.symm) ((none _ new.1).1.trans (none _ old.1).1.symm) ?_ ?_ ?_
  · intro hp buf held
    rw [new.1] at held
    cases held
  · intro y held
    rw [new.1] at held
    cases held
  · intro hp k _ held
    rw [(none _ new.1).2] at held
    cases held

theorem lookedKeeps (sim : Sim c s life) (pins : s.pins p = .looked hp buf) {held : Bool}
    (orderly : Orderly c s (.pins p held time)) (taken : pinsStep c s p held time = some t) : Sim c t life := by
  have old : holds (s.pins p) = none ∧ staged (s.pins p) = none := by rw [pins]; exact ⟨rfl, rfl⟩
  simp only [Orderly, pins] at orderly
  simp only [pinsStep, pins] at taken
  split at taken
  · rename_i chosen
    have next := orderly chosen
    obtain ⟨some, stage, -⟩ := chosen
    cases taken
    rw [nextBuf (sim.pools p hp)] at next
    cases head : (s.pools p hp).queue.head? with
    | none =>
      rw [head] at next
      exact absurd next.symm some
    | some k =>
      rw [head] at next
      obtain rfl : k.buf = buf := next
      have ok := sim.ports p
      have member := List.mem_of_mem_head? head
      have fresh : (hp, k.buf) ∉ tokensOf s p := by
        intro token
        rw [miiPacketGetStage, getterOf sim head, ok.stages hp k member, if_pos token] at stage
        cases stage
      refine moveKeeps sim (x := .chosen hp k.buf) old.2.symm (by rw [pins]; rfl) ?_ ?_ (fun _ _ _ none => by cases none)
      · intro h b held
        cases held
        exact ⟨k, head, rfl⟩
      · intro y held
        cases held
        exact fresh
  · cases taken
    refine idleKeeps sim old ?_
    split <;> exact ⟨rfl, rfl⟩

theorem invsPhase (sim : Sim c s life) {u : TxPool.State} (inv : TxPool.Inv u) (phase : u.phase = (s.pools p hp).phase) :
    (∀ q h, (setPool s.pools p hp u q h).phase = (s.pools q h).phase) ∧ ∀ q h, TxPool.Inv (setPool s.pools p hp u q h) := by
  refine ⟨fun q h => ?_, invsPool sim inv⟩
  by_cases here : q = p ∧ h = hp
  · obtain ⟨rfl, rfl⟩ := here
    rw [setPoolSame]
    exact phase
  · rw [setPoolOther here]

theorem storedQueues {f : Field} {y : Int} {u : TxPool.State}
    (step : TxPool.step c.forwards (s.pools p hp) (.set buf f y) = some u) :
    (fun h => (setPool s.pools p hp u p h).queue) = stored (fun h => (s.pools p h).queue) hp buf f y := by
  rw [queuesAt, (setQueue step).1]
  rfl

theorem heldPacket (sim : Sim c s life) (held : holds (s.pins p) = some (hp, buf)) :
    ∃ k r, (s.pools p hp).queue.head? = some k ∧ k.buf = buf ∧ Packet s.calls hp (s.owner p hp buf) k r := by
  obtain ⟨k, head, rfl⟩ := (sim.ports p).heads hp buf (.inr held)
  obtain ⟨r, packet⟩ := (sim.ports p).queues.packets hp k (List.mem_of_mem_head? head)
  exact ⟨k, r, head, rfl, packet⟩

theorem sentOther {s t : State} {x : Transmission} {m : Nat} (sent : t.transmissions = s.transmissions ++ [x])
    (other : m ≠ x.call) :
    sentOf t m = sentOf s m := by
  simp [sentOf, sent, List.filter_append, Ne.symm other]

theorem sentSame {s t : State} {x : Transmission} (sent : t.transmissions = s.transmissions ++ [x]) :
    sentOf t x.call = sentOf s x.call ++ [x] := by
  simp [sentOf, sent, List.filter_append]

theorem heldStatus (sim : Sim c s life) (held : holds (s.pins p) = some (hp, k.buf))
    (head : (s.pools p hp).queue.head? = some k) :
    life (s.owner p hp k.buf) p =
      if transmitted (s.pins p) = some (hp, k.buf) then .sent (k.header .timestamp) else .queued := by
  have ok := sim.ports p
  have fresh := ok.apart (hp, k.buf) held
  have unanswered : releaseOf s.server p ≠ some (hp, k.buf) := fun same => fresh (ok.served _ same)
  rw [ok.lives hp k (List.mem_of_mem_head? head), status, if_neg unanswered]
  simp only [fresh, false_or]

theorem chosenQueued (sim : Sim c s life) (pins : s.pins p = .chosen hp k.buf) (head : (s.pools p hp).queue.head? = some k) :
    life (s.owner p hp k.buf) p = .queued := by
  rw [heldStatus sim (by rw [pins]; rfl) head, pins]
  rfl

theorem transmitStep {t : State} (phase : phaseIn t n = phaseIn s n) (next : nextOf t.server n = nextOf s.server n)
    (sent : t.transmissions = s.transmissions ++ [⟨p, n, r.data, time⟩]) (freed : t.freed = s.freed)
    (replies : t.replies = s.replies) (queued : life n p = .queued) :
    TxCourse.Step c r n (courseOf s n (life n)) (courseOf t n (set (life n) p (.sent time))) := by
  have freedIs : freedOf t n = freedOf s n := by unfold freedOf; rw [freed]
  have repliesIs : repliesOf t n = repliesOf s n := by unfold repliesOf; rw [replies]
  rw [courseIs phase next (sentSame sent) freedIs repliesIs]
  exact .transmit (k := courseOf s n (life n)) time queued

theorem transmitKeeps (sim : Sim c s life) (pins : s.pins p = .chosen hp k.buf) (head : (s.pools p hp).queue.head? = some k)
    (known : s.calls[s.owner p hp k.buf]? = some r) {u : TxPool.State}
    (step : TxPool.step c.forwards (s.pools p hp) (.set k.buf .timestamp time) = some u) :
    Sim c (atPins s p (.transmitted hp k.buf) (setPool s.pools p hp u) s.tsQueue
      (s.transmissions ++ [⟨p, s.owner p hp k.buf, r.data, time⟩]) s.freed) (place life (s.owner p hp k.buf) p (.sent time)) := by
  obtain ⟨phases, invs⟩ := invsPhase sim (invKeeps (e := .set k.buf .timestamp time) (sim.pools p hp) trivial step) (setQueue step).2
  refine atPinsKeeps sim (onePlace known ?_ fun m other => ?_) phases invs sim.fifos
    (fun q other => ⟨setPoolThere other u, rfl, placeThere other⟩) ?_
  · exact transmitStep rfl rfl rfl rfl rfl (chosenQueued sim pins head)
  · exact courseIs rfl rfl (sentOther rfl other) rfl rfl
  · rw [storedQueues step, placeHere]
    exact portTransmit (portAt sim pins) time

theorem chosenKeeps (sim : Sim c s life) (pins : s.pins p = .chosen hp buf) {held : Bool}
    (taken : pinsStep c s p held time = some t) : ∃ life', Sim c t life' := by
  have holding : holds (s.pins p) = some (hp, buf) := by rw [pins]; rfl
  obtain ⟨k, r, head, rfl, packet⟩ := heldPacket sim holding
  have length : (miiPacketGetLength (s.pools p hp).pool k.buf).toNat = r.length := by
    rw [miiPacketGetLength, getterOf sim head, packet.length, Int.toNat_natCast]
  have data := dataOf (sim.pools p hp) (List.mem_of_mem_head? head)
  rw [packet.data, packet.words] at data
  simp only [pinsStep, pins, length, data] at taken
  obtain ⟨m, stamped, last⟩ := Option.bind_eq_some_iff.mp taken
  cases last
  obtain ⟨u, step, rfl⟩ := onPoolStep stamped
  exact ⟨_, transmitKeeps sim pins head packet.known step⟩

theorem storeKeeps (sim : Sim c s life) {f : Field} {y : Int} {u : TxPool.State} {x : Pins}
    (step : TxPool.step c.forwards (s.pools p hp) (.set buf f y) = some u)
    (port : Port s.calls (stored (fun h => (s.pools p h).queue) hp buf f y) (s.owner p) x
      ((releaseOf s.server p).toList ++ (foundOf s.server p).toList ++ (s.tsQueue p).contents macMaxEntries ++ (staged x).toList)
      (releaseOf s.server p) (fun n => life n p)) :
    Sim c (atPins s p x (setPool s.pools p hp u) s.tsQueue s.transmissions s.freed) life := by
  obtain ⟨phases, invs⟩ := invsPhase sim (invKeeps (e := .set buf f y) (sim.pools p hp) trivial step) (setQueue step).2
  refine atPinsKeeps sim ⟨fun _ _ _ => .inl rfl, fun _ _ => rfl⟩ phases invs sim.fifos
    (fun q other => ⟨setPoolThere other u, rfl, fun _ => rfl⟩) ?_
  rw [storedQueues step]
  exact port

theorem transmittedKeeps (sim : Sim c s life) (pins : s.pins p = .transmitted hp buf) {held : Bool}
    (taken : pinsStep c s p held time = some t) : Sim c t life := by
  have ok := portAt sim pins
  simp only [pinsStep, pins] at taken
  split at taken
  · obtain ⟨m, cleared, last⟩ := Option.bind_eq_some_iff.mp taken
    cases last
    obtain ⟨u, step, rfl⟩ := onPoolStep cleared
    refine storeKeeps (x := .cleared hp buf) sim step ?_
    exact portPins (portForwarding ok) rfl (fun h b held => storedHead (ok.heads h b (.inr held))) ok.apart
      (fun _ _ _ none => by cases none)
  · cases taken
    exact moveKeeps sim (by rw [pins]; rfl) (by rw [pins]; rfl) (fun h b held => ok.heads h b (.inr held))
      (fun y held => (sim.ports p).apart y (by rw [pins]; exact held)) (fun _ _ _ none => by cases none)

theorem timedKeeps (sim : Sim c s life) (pins : s.pins p = .timed hp buf) {held : Bool}
    (taken : pinsStep c s p held time = some t) : Sim c t life := by
  have ok := portAt sim pins
  have none : staged (.timed hp buf) = none := rfl
  rw [none, Option.toList_none, List.append_nil] at ok
  simp only [pinsStep, pins] at taken
  obtain ⟨m, moved, last⟩ := Option.bind_eq_some_iff.mp taken
  cases last
  obtain ⟨u, step, rfl⟩ := onPoolStep moved
  exact storeKeeps (x := .staged hp buf) sim step (portStage ok)

/- Two buffers at stage 2 at most, and one of them is still with mii_tx_pins. -/
theorem stagedRoom (sim : Sim c s life) (pins : s.pins p = .staged hp buf) :
    next macMaxEntries (s.tsQueue p).wr ≠ (s.tsQueue p).rd := by
  intro full
  have used := (fullIff (sim.fifos p)).mp full
  have few := portTokens (sim.ports p)
  rw [tokensOf, pins, List.length_append, List.length_append, contentsLength, used] at few
  simp [staged, macMaxEntries] at few

theorem stagedKeeps (sim : Sim c s life) (pins : s.pins p = .staged hp buf) {held : Bool}
    (taken : pinsStep c s p held time = some t) : Sim c t life := by
  have ok := sim.ports p
  have valid := sim.fifos p
  have room := stagedRoom sim pins
  have contents := pushContents valid room (hp, buf)
  simp only [pinsStep, pins] at taken
  cases taken
  change Sim c (atPins s p .top s.pools _ s.transmissions s.freed) life
  refine atPinsKeeps sim ⟨fun _ _ _ => .inl rfl, fun _ _ => rfl⟩
    (fun _ _ => rfl) sim.pools (fun q => ?_) (fun q other => ⟨rfl, setOther other _, fun _ => rfl⟩) ?_
  · by_cases here : q = p
    · subst here
      rw [setSame]
      exact pushValid valid _
    · rw [setOther here]
      exact sim.fifos q
  · rw [setSame, contents]
    have tokens : (releaseOf s.server p).toList ++ (foundOf s.server p).toList ++
        ((s.tsQueue p).contents macMaxEntries ++ [(hp, buf)]) ++ (staged .top).toList =
        (releaseOf s.server p).toList ++ (foundOf s.server p).toList ++ (s.tsQueue p).contents macMaxEntries ++
        (staged (.staged hp buf)).toList := by
      simp [staged]
    rw [tokens]
    exact portPins (portAt sim pins) rfl (fun _ _ none => by cases none) (fun _ none => by cases none) (fun _ _ _ none => by cases none)

theorem clearedSent (sim : Sim c s life) (pins : s.pins p = .cleared hp k.buf) (head : (s.pools p hp).queue.head? = some k) :
    life (s.owner p hp k.buf) p = .sent (k.header .timestamp) := by
  rw [heldStatus sim (by rw [pins]; rfl) head, pins]
  exact if_pos rfl

theorem leaveStep {t : State} (phase : phaseIn t n = phaseIn s n) (next : nextOf t.server n = nextOf s.server n)
    (sent : t.transmissions = s.transmissions) (freed : t.freed = s.freed ++ [(p, n)]) (replies : t.replies = s.replies)
    (past : life n p = .sent time) (untimed : r.timed = false) :
    TxCourse.Step c r n (courseOf s n (life n)) (courseOf t n (set (life n) p .gone)) := by
  have sentIs : sentOf t n = sentOf s n := by unfold sentOf; rw [sent]
  have repliesIs : repliesOf t n = repliesOf s n := by unfold repliesOf; rw [replies]
  rw [courseIs phase next sentIs (freedSame freed) repliesIs]
  exact .leave (k := courseOf s n (life n)) past untimed

theorem leaveKeeps (sim : Sim c s life) (pins : s.pins p = .cleared hp k.buf) (head : (s.pools p hp).queue.head? = some k)
    (known : s.calls[s.owner p hp k.buf]? = some r) (untimed : r.timed = false) {u : TxPool.State}
    (step : TxPool.step c.forwards (s.pools p hp) (.free k.buf) = some u) :
    Sim c (atPins s p .top (setPool s.pools p hp u) s.tsQueue s.transmissions (s.freed ++ [(p, s.owner p hp k.buf)]))
      (place life (s.owner p hp k.buf) p .gone) := by
  obtain ⟨rest, queue, left, inv⟩ := headFree sim head step
  obtain ⟨phases, invs⟩ := invsPhase sim inv (freeQueue step).2
  refine atPinsKeeps sim (onePlace known ?_ fun m other => ?_) phases invs sim.fifos
    (fun q other => ⟨setPoolThere other u, rfl, placeThere other⟩) ?_
  · exact leaveStep rfl rfl rfl rfl rfl (clearedSent sim pins head) untimed
  · exact courseIs rfl rfl rfl (freedOther rfl other) rfl
  · rw [queuesAt, left, placeHere]
    have ok := portAt sim pins
    have fresh := ok.apart (hp, k.buf) rfl
    refine portFree ok queue (fun x => ⟨fun token => ⟨token, ?_⟩, And.left⟩) ok.once (fun _ none => by cases none)
      (fun x away => ?_) (fun _ none => by cases none) (fun _ _ => Iff.rfl) (fun same => fresh (ok.served _ same))
    · rintro rfl
      exact fresh token
    · refine ⟨fun none => (by cases none), fun same => ?_⟩
      cases same
      exact absurd rfl away

theorem clearedKeeps (sim : Sim c s life) (pins : s.pins p = .cleared hp buf) {held : Bool}
    (taken : pinsStep c s p held time = some t) : ∃ life', Sim c t life' := by
  have holding : holds (s.pins p) = some (hp, buf) := by rw [pins]; rfl
  obtain ⟨k, r, head, rfl, packet⟩ := heldPacket sim holding
  have count : miiPacketGetTcount (s.pools p hp).pool k.buf = 0 := by
    rw [miiPacketGetTcount, getterOf sim head, packet.tcount]
  have id : miiPacketGetTimestampId (s.pools p hp).pool k.buf = if r.timed then (r.link : Int) + 1 else 0 := by
    rw [miiPacketGetTimestampId, getterOf sim head, packet.timestampId]
  have ok := sim.ports p
  simp only [pinsStep, pins, count, ne_eq, not_true_eq_false, if_false] at taken
  cases timed : r.timed with
  | true =>
    have some : miiPacketGetTimestampId (s.pools p hp).pool k.buf ≠ 0 := by
      rw [id, timed, if_pos rfl]
      omega
    rw [if_pos some] at taken
    cases taken
    refine ⟨life, moveKeeps sim (by rw [pins]; rfl) (by rw [pins]; rfl)
      (fun h b held => ok.heads h b (.inr (by rw [pins]; exact held))) (fun y held => ok.apart y (by rw [pins]; exact held)) ?_⟩
    intro h k' member last
    obtain ⟨rfl, same⟩ := Prod.mk.inj (Option.some.inj last)
    have one : k' = k := List.inj_on_of_nodup_map (ok.queues.bufs hp) member (List.mem_of_mem_head? head) same.symm
    rw [one, packet.timestampId, timed, if_pos rfl]
    omega
  | false =>
    have none : ¬ ¬ miiPacketGetTimestampId (s.pools p hp).pool k.buf = 0 := by
      rw [id, timed]
      simp
    rw [if_neg none] at taken
    obtain ⟨m, freed, last⟩ := Option.bind_eq_some_iff.mp taken
    cases last
    obtain ⟨u, step, rfl⟩ := onPoolStep freed
    exact ⟨_, leaveKeeps sim pins head packet.known timed step⟩

theorem pinsKeeps (sim : Sim c s life) {held : Bool} (orderly : Orderly c s (.pins p held time))
    (taken : pinsStep c s p held time = some t) : ∃ life', Sim c t life' := by
  cases pins : s.pins p with
  | top =>
    simp only [pinsStep, pins] at taken
    cases taken
    exact ⟨life, idleKeeps sim (by rw [pins]; exact ⟨rfl, rfl⟩) ⟨rfl, rfl⟩⟩
  | low =>
    simp only [pinsStep, pins] at taken
    cases taken
    exact ⟨life, idleKeeps sim (by rw [pins]; exact ⟨rfl, rfl⟩) ⟨rfl, rfl⟩⟩
  | looked hp buf => exact ⟨life, lookedKeeps sim pins orderly taken⟩
  | chosen hp buf => exact chosenKeeps sim pins taken
  | transmitted hp buf => exact ⟨life, transmittedKeeps sim pins taken⟩
  | cleared hp buf => exact clearedKeeps sim pins taken
  | timed hp buf => exact ⟨life, timedKeeps sim pins taken⟩
  | staged hp buf => exact ⟨life, stagedKeeps sim pins taken⟩

end pins

end ScEthernet.Full.TxPinsSteps
