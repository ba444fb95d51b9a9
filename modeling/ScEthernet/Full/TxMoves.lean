import ScEthernet.Full.TxSim

/-! What ethernet_tx_server and mii_tx_pins can do in a step. -/
namespace ScEthernet.Full.TxMoves
open Lib.CircularFifo Malloc TxServer TxTransfer TxSim

def Each (c : Config) (s : State) (hp : Bool) (e : TxPool.Event) (pools : Nat → Bool → TxPool.State) : Prop :=
  ∀ p h, (p < c.ports ∧ h = hp → TxPool.step c.forwards (s.pools p h) e = some (pools p h)) ∧
    (¬ (p < c.ports ∧ h = hp) → pools p h = s.pools p h)

def Found (c : Config) (s : State) (hp : Bool) : Prop := ∀ q < c.ports, reservedBuf (s.pools q hp) ≠ 0

inductive ServerMove (c : Config) (s : State) : State → Prop
  | loop {i} (server : s.server = .loop i) (link : i < c.links) :
    ServerMove c s { s with server := if (s.pendingCmd i).isSome then .reserving i 0 else .loop (i + 1) }
  | listen {i} (server : s.server = .loop i) (last : ¬ i < c.links) : ServerMove c s { s with server := .select }
  | reserve {i p cmd u} (server : s.server = .reserving i p) (pending : s.pendingCmd i = some cmd) (port : p < c.ports)
      (taken : TxPool.step c.forwards (s.pools p (withoutHp cmd).2) .reserve = some u) :
    ServerMove c s { s with pools := setPool s.pools p (withoutHp cmd).2 u, server := .reserving i (p + 1) }
  | begin {i p cmd n r pools} (server : s.server = .reserving i p) (pending : s.pendingCmd i = some cmd) (last : ¬ p < c.ports)
      (found : Found c s (withoutHp cmd).2) (client : s.clients i = .transferring n) (known : s.calls[n]? = some r)
      (each : Each c s (withoutHp cmd).2 (.length r.length) pools) :
    ServerMove c s { s with pools := pools, server := .transfer i n 0 }
  | abandon {i p cmd pools} (server : s.server = .reserving i p) (pending : s.pendingCmd i = some cmd) (last : ¬ p < c.ports)
      (refused : ¬ Found c s (withoutHp cmd).2) (each : Each c s (withoutHp cmd).2 .abandon pools) :
    ServerMove c s { s with pools := pools, server := .loop (i + 1) }
  | word {i n m j r datum pools} (server : s.server = .transfer i n j) (client : s.clients i = .transferring m)
      (known : s.calls[m]? = some r) (more : r.data[j]? = some datum) (each : Each c s r.hp (.word datum) pools) :
    ServerMove c s { s with pools := pools, server := .transfer i n (j + 1) }
  | transferred {i n m j r} (server : s.server = .transfer i n j) (client : s.clients i = .transferring m)
      (known : s.calls[m]? = some r) (whole : r.data[j]? = none) :
    ServerMove c s { s with clients := set s.clients i (if r.timed then .waiting n else .idle), server := .committing i n 0 }
  | commit {i n p r u} (server : s.server = .committing i n p) (known : s.calls[n]? = some r) (port : p < c.ports)
      (goes : r.goesTo p = true)
      (taken : TxPool.step c.forwards (s.pools p r.hp) (.commit (if r.timed then (i : Int) + 1 else 0)) = some u) :
    ServerMove c s { s with pools := setPool s.pools p r.hp u, server := .committing i n (p + 1)
                            owner := setPool s.owner p r.hp
                              (fun buf => if buf = reservedBuf (s.pools p r.hp) then n else s.owner p r.hp buf) }
  | pass {i n p r u} (server : s.server = .committing i n p) (known : s.calls[n]? = some r) (port : p < c.ports)
      (stays : ¬ r.goesTo p = true) (taken : TxPool.step c.forwards (s.pools p r.hp) .abandon = some u) :
    ServerMove c s { s with pools := setPool s.pools p r.hp u, server := .committing i n (p + 1) }
  | served {i n p} (server : s.server = .committing i n p) (last : ¬ p < c.ports) :
    ServerMove c s { s with enabled := set s.enabled i false, pendingCmd := set s.pendingCmd i none, server := .loop (i + 1) }
  | silent {p} (server : s.server = .replying p) (port : p < c.ports) (empty : (s.tsQueue p).rd = (s.tsQueue p).wr) :
    ServerMove c s { s with server := .replying (p + 1) }
  | pop {p} (server : s.server = .replying p) (port : p < c.ports) (some : (s.tsQueue p).rd ≠ (s.tsQueue p).wr) :
    ServerMove c s { s with tsQueue := set s.tsQueue p ((s.tsQueue p).pop macMaxEntries)
                            server := .found p ((s.tsQueue p).cells (s.tsQueue p).rd).1 ((s.tsQueue p).cells (s.tsQueue p).rd).2 }
  | back {p} (server : s.server = .replying p) (last : ¬ p < c.ports) : ServerMove c s { s with server := .loop 0 }
  | reply {p hp buf n replies} (server : s.server = .found p hp buf)
      (waiting : s.clients (miiPacketGetTimestampId (s.pools p hp).pool buf - 1).toNat = .waiting n) :
    ServerMove c s { s with clients := set s.clients (miiPacketGetTimestampId (s.pools p hp).pool buf - 1).toNat .idle
                            server := .release p hp buf, replies := replies }
  | stray {p hp buf replies} (server : s.server = .found p hp buf) :
    ServerMove c s { s with server := .release p hp buf, replies := replies }
  | free {p hp buf u} (server : s.server = .release p hp buf) (count : miiPacketGetTcount (s.pools p hp).pool buf = 0)
      (taken : TxPool.step c.forwards (s.pools p hp) (.free buf) = some u) :
    ServerMove c s { s with pools := setPool s.pools p hp u, server := .replying (p + 1)
                            freed := s.freed ++ [(p, s.owner p hp buf)] }
  | count {p hp buf u x} (server : s.server = .release p hp buf) (count : miiPacketGetTcount (s.pools p hp).pool buf ≠ 0)
      (taken : TxPool.step c.forwards (s.pools p hp) (.set buf .tcount x) = some u) :
    ServerMove c s { s with pools := setPool s.pools p hp u, server := .replying (p + 1) }

inductive PinsMove (c : Config) (s : State) (p : Nat) (held : Bool) : State → Prop
  | look (pins : s.pins p = .top) :
    PinsMove c s p held { s with pins := set s.pins p (.looked c.hpQueue (miiGetNextBuf (s.pools p c.hpQueue).pool)) }
  | lookLow (pins : s.pins p = .low) :
    PinsMove c s p held { s with pins := set s.pins p (.looked false (miiGetNextBuf (s.pools p false).pool)) }
  | choose {hp buf} (pins : s.pins p = .looked hp buf)
      (free : buf ≠ 0 ∧ miiPacketGetStage (s.pools p hp).pool buf = 1 ∧ (hp && held) = false) :
    PinsMove c s p held { s with pins := set s.pins p (.chosen hp buf) }
  | leave {hp buf} (pins : s.pins p = .looked hp buf)
      (none : ¬ (buf ≠ 0 ∧ miiPacketGetStage (s.pools p hp).pool buf = 1 ∧ (hp && held) = false)) :
    PinsMove c s p held { s with pins := set s.pins p (if hp then .low else .top) }
  | transmit {hp buf time u x} (pins : s.pins p = .chosen hp buf)
      (taken : TxPool.step c.forwards (s.pools p hp) (.set buf .timestamp time) = some u) :
    PinsMove c s p held { s with pools := setPool s.pools p hp u, pins := set s.pins p (.transmitted hp buf)
                                 transmissions := s.transmissions ++ [x] }
  | clear {hp buf u} (pins : s.pins p = .transmitted hp buf)
      (taken : TxPool.step c.forwards (s.pools p hp) (.set buf .forwarding 0) = some u) :
    PinsMove c s p held { s with pools := setPool s.pools p hp u, pins := set s.pins p (.cleared hp buf) }
  | clean {hp buf} (pins : s.pins p = .transmitted hp buf) :
    PinsMove c s p held { s with pins := set s.pins p (.cleared hp buf) }
  | count {hp buf u x} (pins : s.pins p = .cleared hp buf) (count : miiPacketGetTcount (s.pools p hp).pool buf ≠ 0)
      (taken : TxPool.step c.forwards (s.pools p hp) (.set buf .tcount x) = some u) :
    PinsMove c s p held { s with pools := setPool s.pools p hp u, pins := set s.pins p .top }
  | time {hp buf} (pins : s.pins p = .cleared hp buf) :
    PinsMove c s p held { s with pins := set s.pins p (.timed hp buf) }
  | free {hp buf u} (pins : s.pins p = .cleared hp buf)
      (taken : TxPool.step c.forwards (s.pools p hp) (.free buf) = some u) :
    PinsMove c s p held { s with pools := setPool s.pools p hp u, pins := set s.pins p .top
                                 freed := s.freed ++ [(p, s.owner p hp buf)] }
  | stage {hp buf u} (pins : s.pins p = .timed hp buf)
      (taken : TxPool.step c.forwards (s.pools p hp) (.set buf .stage 2) = some u) :
    PinsMove c s p held { s with pools := setPool s.pools p hp u, pins := set s.pins p (.staged hp buf) }
  | push {hp buf} (pins : s.pins p = .staged hp buf) :
    PinsMove c s p held { s with pins := set s.pins p .top
                                 tsQueue := set s.tsQueue p ((s.tsQueue p).push macMaxEntries (hp, buf)) }

section
variable {c : Config} {s t : State} {p : Nat} {hp : Bool}

theorem eachOf {e : TxPool.Event} (taken : eachPort c hp e c.ports s = some t) :
    ∃ pools, t = { s with pools := pools } ∧ Each c s hp e pools := eachPortSteps taken

theorem transactionOf {i m : Nat} {r : Request} (known : transaction s i = some (m, r)) :
    s.clients i = .transferring m ∧ s.calls[m]? = some r := by
  unfold transaction at known
  split at known
  · rename_i k client
    obtain ⟨r', call, same⟩ := Option.map_eq_some_iff.mp known
    cases same
    exact ⟨client, call⟩
  · cases known

theorem serverMoves (taken : serverStep c s = some t) : ServerMove c s t := by
  cases server : s.server with
  | loop i =>
    simp only [serverStep, server] at taken
    split at taken <;> cases taken
    · exact .loop server ‹_›
    · exact .listen server ‹_›
  | reserving i p =>
    simp only [serverStep, server] at taken
    obtain ⟨cmd, pending, taken⟩ := Option.bind_eq_some_iff.mp taken
    split at taken
    · obtain ⟨m, reserved, last⟩ := Option.bind_eq_some_iff.mp taken
      cases last
      obtain ⟨u, step, rfl⟩ := onPoolStep reserved
      exact .reserve server pending ‹_› step
    · split at taken
      · obtain ⟨⟨n, r⟩, call, taken⟩ := Option.bind_eq_some_iff.mp taken
        obtain ⟨m, lengths, last⟩ := Option.bind_eq_some_iff.mp taken
        cases last
        obtain ⟨pools, rfl, each⟩ := eachOf lengths
        obtain ⟨client, known⟩ := transactionOf call
        exact .begin server pending ‹_› ‹_› client known each
      · obtain ⟨m, abandoned, last⟩ := Option.bind_eq_some_iff.mp taken
        cases last
        obtain ⟨pools, rfl, each⟩ := eachOf abandoned
        exact .abandon server pending ‹_› ‹_› each
  | transfer i n j =>
    simp only [serverStep, server] at taken
    obtain ⟨⟨m, r⟩, call, taken⟩ := Option.bind_eq_some_iff.mp taken
    obtain ⟨client, known⟩ := transactionOf call
    split at taken
    · obtain ⟨m, stored, last⟩ := Option.bind_eq_some_iff.mp taken
      cases last
      obtain ⟨pools, rfl, each⟩ := eachOf stored
      exact .word server client known ‹_› each
    · cases taken
      exact .transferred server client known ‹_›
  | committing i n p =>
    simp only [serverStep, server] at taken
    obtain ⟨r, known, taken⟩ := Option.bind_eq_some_iff.mp taken
    split at taken
    · split at taken
      · obtain ⟨m, committed, last⟩ := Option.bind_eq_some_iff.mp taken
        cases last
        obtain ⟨u, step, rfl⟩ := onPoolStep committed
        exact .commit server known ‹_› ‹_› step
      · obtain ⟨m, abandoned, last⟩ := Option.bind_eq_some_iff.mp taken
        cases last
        obtain ⟨u, step, rfl⟩ := onPoolStep abandoned
        exact .pass server known ‹_› ‹_› step
    · cases taken
      exact .served server ‹_›
  | select => simp [serverStep, server] at taken
  | replying p =>
    simp only [serverStep, server] at taken
    split at taken
    · split at taken <;> cases taken
      · exact .silent server ‹_› ‹_›
      · exact .pop server ‹_› ‹_›
    · cases taken
      exact .back server ‹_›
  | found p hp buf =>
    simp only [serverStep, server] at taken
    split at taken <;> cases taken
    · exact .reply server ‹_›
    · exact .stray server
  | release p hp buf =>
    simp only [serverStep, server] at taken
    obtain ⟨m, freed, last⟩ := Option.bind_eq_some_iff.mp taken
    cases last
    obtain ⟨u, step, rfl⟩ := onPoolStep freed
    by_cases count : miiPacketGetTcount (s.pools p hp).pool buf = 0
    · rw [if_pos count] at step
      simp only [count, if_true]
      exact .free server count step
    · rw [if_neg count] at step
      simp only [count, if_false]
      exact .count server count step

theorem pinsMove {held : Bool} {time : Int} (taken : pinsStep c s p held time = some t) : PinsMove c s p held t := by
  cases pins : s.pins p with
  | top =>
    simp only [pinsStep, pins] at taken
    cases taken
    exact .look pins
  | low =>
    simp only [pinsStep, pins] at taken
    cases taken
    exact .lookLow pins
  | looked hp buf =>
    simp only [pinsStep, pins] at taken
    split at taken <;> cases taken
    · exact .choose pins ‹_›
    · exact .leave pins ‹_›
  | chosen hp buf =>
    simp only [pinsStep, pins] at taken
    obtain ⟨m, stamped, last⟩ := Option.bind_eq_some_iff.mp taken
    cases last
    obtain ⟨u, step, rfl⟩ := onPoolStep stamped
    exact .transmit pins step
  | transmitted hp buf =>
    simp only [pinsStep, pins] at taken
    split at taken
    · obtain ⟨m, cleared, last⟩ := Option.bind_eq_some_iff.mp taken
      cases last
      obtain ⟨u, step, rfl⟩ := onPoolStep cleared
      exact .clear pins step
    · cases taken
      exact .clean pins
  | cleared hp buf =>
    simp only [pinsStep, pins] at taken
    split at taken
    · obtain ⟨m, counted, last⟩ := Option.bind_eq_some_iff.mp taken
      cases last
      obtain ⟨u, step, rfl⟩ := onPoolStep counted
      exact .count pins ‹_› step
    · split at taken
      · cases taken
        exact .time pins
      · obtain ⟨m, freed, last⟩ := Option.bind_eq_some_iff.mp taken
        cases last
        obtain ⟨u, step, rfl⟩ := onPoolStep freed
        exact .free pins step
  | timed hp buf =>
    simp only [pinsStep, pins] at taken
    obtain ⟨m, moved, last⟩ := Option.bind_eq_some_iff.mp taken
    cases last
    obtain ⟨u, step, rfl⟩ := onPoolStep moved
    exact .stage pins step
  | staged hp buf =>
    simp only [pinsStep, pins] at taken
    cases taken
    exact .push pins

end

end ScEthernet.Full.TxMoves
