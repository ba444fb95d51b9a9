import ScEthernet.Full.TxRuns
import ScEthernet.Full.TxMoves
import ScEthernet.Lib.Fairness

/-! Neither ethernet_tx_server nor mii_tx_pins gets stuck: what the server has reserved fits what it does next, and a buffer
that it or mii_tx_pins stores to or frees is in its pool. -/
namespace ScEthernet.Full.TxReady
open Lib.CircularFifo Lib.Runs Lib.Fairness Malloc PoolQueue TxTransfer TxServer TxPackets TxPort TxSim TxServerSteps
open TxPinsSteps TxMoves
open TxRuns (knownMore)

def Unused (s : State) (p : Nat) (hp : Bool) : Prop := (s.pools p hp).phase = .idle

def Stands (c : Config) (s : State) : Server → Prop
  | .loop i => i ≤ c.links ∧ ∀ q h, Unused s q h
  | .reserving i p => i < c.links ∧ p ≤ c.ports ∧ ∃ n r, s.clients i = .transferring n ∧ s.calls[n]? = some r ∧
      s.pendingCmd i = some r.cmd ∧ ∀ q h, Unused s q h ∨ h = r.hp ∧ q < p ∧ ∃ buf, (s.pools q h).phase = .reserved buf
  | .transfer i n _ => i < c.links ∧ ∃ r, s.calls[n]? = some r ∧ ∀ q h, Unused s q h ∨ h = r.hp ∧ q < c.ports
  | .committing i n p => i < c.links ∧ p ≤ c.ports ∧ (∀ m, s.clients i ≠ .transferring m) ∧
      ∃ r, s.calls[n]? = some r ∧ ∀ q h, Unused s q h ∨ h = r.hp ∧ p ≤ q ∧ q < c.ports
  | .select => ∀ q h, Unused s q h
  | .replying p => p ≤ c.ports ∧ ∀ q h, Unused s q h
  | .found p _ _ | .release p _ _ => p < c.ports ∧ ∀ q h, Unused s q h

structure Ready (c : Config) (s : State) : Prop where
  fits : ∀ (n : Nat) r, s.calls[n]? = some r → r.Fits c
  taken : ∀ i n, s.clients i = .transferring n → i < c.links ∧ ∃ r, s.calls[n]? = some r ∧ s.pendingCmd i = some r.cmd
  stands : Stands c s s.server

section
variable {c : Config} {s t : State} {life : Nat → Nat → TxCourse.Life} {i p q n : Nat} {hp h : Bool} {u : TxPool.State}

/-! The calls of the pools. -/

theorem reservePhase {s : TxPool.State} {forwards : Bool} (taken : TxPool.step forwards s .reserve = some u) :
    u.phase = .idle ∨ ∃ buf, u.phase = .reserved buf := by
  cases phase : s.phase <;> simp only [TxPool.step, phase] at taken <;> cases taken
  dsimp only
  split
  · exact .inl rfl
  · exact .inr ⟨_, rfl⟩

theorem commitPhase {s : TxPool.State} {forwards : Bool} {id : Int} (taken : TxPool.step forwards s (.commit id) = some u) :
    u.phase = .idle := by
  cases phase : s.phase <;> simp only [TxPool.step, phase] at taken <;> try cases taken
  split at taken <;> cases taken
  rfl

theorem phaseOther (away : ¬ (q = p ∧ h = hp)) : (setPool s.pools p hp u q h).phase = (s.pools q h).phase :=
  congrArg TxPool.State.phase (setPoolOther away u)

theorem phaseKept (phase : u.phase = (s.pools p hp).phase) (q : Nat) (h : Bool) :
    (setPool s.pools p hp u q h).phase = (s.pools q h).phase := by
  by_cases here : q = p ∧ h = hp
  · obtain ⟨rfl, rfl⟩ := here
    rw [setPoolSame]
    exact phase
  · exact phaseOther here

/-! The server. -/

theorem reserveReady (ready : Ready c s) (server : s.server = .reserving i p) {cmd : Cmd} (pending : s.pendingCmd i = some cmd)
    (port : p < c.ports) (taken : TxPool.step c.forwards (s.pools p (withoutHp cmd).2) .reserve = some u) :
    Ready c { s with pools := setPool s.pools p (withoutHp cmd).2 u, server := .reserving i (p + 1) } := by
  have stands := ready.stands
  rw [server] at stands
  obtain ⟨link, -, n, r, client, known, asked, phases⟩ := stands
  obtain rfl : r.cmd = cmd := Option.some.inj (asked.symm.trans pending)
  refine ⟨ready.fits, ready.taken, link, port, n, r, client, known, asked, fun q h => ?_⟩
  by_cases here : q = p ∧ h = r.hp
  · obtain ⟨rfl, rfl⟩ := here
    have same : (setPool s.pools q (withoutHp r.cmd).2 u q r.hp).phase = u.phase := congrArg TxPool.State.phase (setPoolSame ..)
    rcases reservePhase taken with idle | ⟨buf, reserved⟩
    · exact .inl (same.trans idle)
    · exact .inr ⟨rfl, Nat.lt_succ_self q, buf, same.trans reserved⟩
  · have same : (setPool s.pools p (withoutHp r.cmd).2 u q h).phase = (s.pools q h).phase := phaseOther here
    simp only [Unused, same]
    rcases phases q h with unused | ⟨queue, below, reserved⟩
    · exact .inl unused
    · exact .inr ⟨queue, Nat.lt_succ_of_lt below, reserved⟩

theorem committingReady (ready : Ready c s) (server : s.server = .committing i n p) {r : Request} (known : s.calls[n]? = some r)
    (port : p < c.ports) (phase : u.phase = .idle) (owner : Nat → Bool → Int → Nat) :
    Ready c { s with pools := setPool s.pools p r.hp u, server := .committing i n (p + 1), owner := owner } := by
  have stands := ready.stands
  rw [server] at stands
  obtain ⟨link, -, client, r', known', phases⟩ := stands
  obtain rfl : r' = r := Option.some.inj (known'.symm.trans known)
  refine ⟨ready.fits, ready.taken, link, port, client, r', known, fun q h => ?_⟩
  by_cases here : q = p ∧ h = r'.hp
  · obtain ⟨rfl, rfl⟩ := here
    exact .inl ((congrArg TxPool.State.phase (setPoolSame ..)).trans phase)
  · simp only [Unused, phaseOther here]
    rcases phases q h with unused | ⟨rfl, above, below⟩
    · exact .inl unused
    · exact .inr ⟨rfl, Nat.lt_of_le_of_ne above fun same => here ⟨same.symm, rfl⟩, below⟩

theorem servedReady (ready : Ready c s) (server : s.server = .committing i n p) (last : ¬ p < c.ports) :
    Ready c { s with enabled := set s.enabled i false, pendingCmd := set s.pendingCmd i none, server := .loop (i + 1) } := by
  have stands := ready.stands
  rw [server] at stands
  obtain ⟨link, -, client, r, -, phases⟩ := stands
  refine ⟨ready.fits, fun k m transferring => ?_, link, fun q h => ?_⟩
  · have other : k ≠ i := by
      rintro rfl
      exact client m transferring
    simp only [setOther other]
    exact ready.taken k m transferring
  · rcases phases q h with unused | ⟨-, above, below⟩
    · exact unused
    · omega

theorem transferredReady (sim : Sim c s life) (ready : Ready c s) {j : Nat} (server : s.server = .transfer i n j) (waits : Bool) :
    Ready c { s with clients := set s.clients i (if waits then .waiting n else .idle), server := .committing i n 0 } := by
  have stands := ready.stands
  have loading := sim.loading
  simp only [Loading, server] at loading
  rw [server] at stands
  obtain ⟨link, r, known, phases⟩ := stands
  refine ⟨ready.fits, fun k m transferring => ?_, link, Nat.zero_le _, fun m transferring => ?_, r, known, fun q h => ?_⟩
  · by_cases same : k = i
    · simp only [same, setSame] at transferring
      split at transferring <;> cases transferring
    · simp only [setOther same] at transferring
      exact ready.taken k m transferring
  · simp only [setSame] at transferring
    split at transferring <;> cases transferring
  · exact (phases q h).imp_right fun inside => ⟨inside.1, Nat.zero_le q, inside.2⟩

theorem begunReady (ready : Ready c s) (server : s.server = .reserving i p) {cmd : Cmd} (pending : s.pendingCmd i = some cmd)
    (last : ¬ p < c.ports) {r : Request} (client : s.clients i = .transferring n) (known : s.calls[n]? = some r)
    {pools : Nat → Bool → TxPool.State} (each : Each c s (withoutHp cmd).2 (.length r.length) pools) :
    Ready c { s with pools := pools, server := .transfer i n 0 } := by
  have stands := ready.stands
  rw [server] at stands
  obtain ⟨link, port, n', r', client', known', asked, phases⟩ := stands
  obtain rfl : n' = n := by
    rw [client] at client'
    cases client'
    rfl
  obtain rfl : r' = r := Option.some.inj (known'.symm.trans known)
  obtain rfl : r'.cmd = cmd := Option.some.inj (asked.symm.trans pending)
  refine ⟨ready.fits, ready.taken, link, r', known, fun q h => ?_⟩
  by_cases here : q < c.ports ∧ h = (withoutHp r'.cmd).2
  · exact .inr ⟨here.2, here.1⟩
  · simp only [Unused, (each q h).2 here]
    rcases phases q h with unused | ⟨queue, below, -⟩
    · exact .inl unused
    · exact absurd ⟨by omega, queue⟩ here

theorem abandonedReady (ready : Ready c s) (server : s.server = .reserving i p) {cmd : Cmd} (pending : s.pendingCmd i = some cmd)
    (last : ¬ p < c.ports) {pools : Nat → Bool → TxPool.State} (each : Each c s (withoutHp cmd).2 .abandon pools) :
    Ready c { s with pools := pools, server := .loop (i + 1) } := by
  have stands := ready.stands
  rw [server] at stands
  obtain ⟨link, port, n, r, -, -, asked, phases⟩ := stands
  obtain rfl : r.cmd = cmd := Option.some.inj (asked.symm.trans pending)
  refine ⟨ready.fits, ready.taken, link, fun q h => ?_⟩
  by_cases here : q < c.ports ∧ h = (withoutHp r.cmd).2
  · have step := Option.some.inj ((each q h).1 here)
    exact (congrArg TxPool.State.phase step).symm
  · simp only [Unused, (each q h).2 here]
    rcases phases q h with unused | ⟨queue, below, -⟩
    · exact unused
    · exact absurd ⟨by omega, queue⟩ here

theorem wordReady (sim : Sim c s life) (ready : Ready c s) {j m : Nat} (server : s.server = .transfer i n j) {r : Request}
    (client : s.clients i = .transferring m) (known : s.calls[m]? = some r) {datum : Int} {pools : Nat → Bool → TxPool.State}
    (each : Each c s r.hp (.word datum) pools) : Ready c { s with pools := pools, server := .transfer i n (j + 1) } := by
  have loading := sim.loading
  simp only [Loading, server] at loading
  have stands := ready.stands
  rw [server] at stands
  obtain ⟨link, r', known', phases⟩ := stands
  obtain rfl : n = m := by
    have both := loading.1
    rw [client] at both
    cases both
    rfl
  obtain rfl : r' = r := Option.some.inj (known'.symm.trans known)
  refine ⟨ready.fits, ready.taken, link, r', known, fun q h => ?_⟩
  by_cases here : q < c.ports ∧ h = r'.hp
  · exact .inr ⟨here.2, here.1⟩
  · simp only [Unused, (each q h).2 here]
    exact phases q h

theorem serverReady (sim : Sim c s life) (ready : Ready c s) (taken : serverStep c s = some t) : Ready c t := by
  have stands := ready.stands
  cases serverMoves taken with
  | loop server link =>
    rw [server] at stands
    refine ⟨ready.fits, ready.taken, ?_⟩
    dsimp only
    split
    · rename_i some
      obtain ⟨cmd, pending⟩ := Option.isSome_iff_exists.mp some
      obtain ⟨n, r, client, known, rfl⟩ := pendingClient sim server rfl pending
      exact ⟨link, Nat.zero_le _, n, r, client, known, pending, fun q h => .inl (stands.2 q h)⟩
    · exact ⟨link, stands.2⟩
  | listen server =>
    rw [server] at stands
    exact ⟨ready.fits, ready.taken, stands.2⟩
  | reserve server pending port step => exact reserveReady ready server pending port step
  | begin server pending last _ client known each => exact begunReady ready server pending last client known each
  | abandon server pending last _ each => exact abandonedReady ready server pending last each
  | word server client known _ each => exact wordReady sim ready server client known each
  | transferred server => exact transferredReady sim ready server _
  | commit server known port goes step => exact committingReady ready server known port (commitPhase step) _
  | pass server known port stays step =>
    exact committingReady ready server known port (congrArg TxPool.State.phase (Option.some.inj step)).symm _
  | served server last => exact servedReady ready server last
  | silent server port =>
    rw [server] at stands
    exact ⟨ready.fits, ready.taken, port, stands.2⟩
  | pop server port =>
    rw [server] at stands
    exact ⟨ready.fits, ready.taken, port, stands.2⟩
  | back server =>
    rw [server] at stands
    exact ⟨ready.fits, ready.taken, Nat.zero_le _, stands.2⟩
  | @reply p hp buf n replies server waiting =>
    rw [server] at stands
    refine ⟨ready.fits, fun k m transferring => ?_, stands⟩
    by_cases same : k = (miiPacketGetTimestampId (s.pools p hp).pool buf - 1).toNat
    · simp only [same, setSame] at transferring
      cases transferring
    · simp only [setOther same] at transferring
      exact ready.taken k m transferring
  | stray server =>
    rw [server] at stands
    exact ⟨ready.fits, ready.taken, stands⟩
  | free server _ step =>
    rw [server] at stands
    refine ⟨ready.fits, ready.taken, stands.1, fun q h => ?_⟩
    exact (phaseKept (freeQueue step).2 q h).trans (stands.2 q h)
  | count server _ step =>
    rw [server] at stands
    refine ⟨ready.fits, ready.taken, stands.1, fun q h => ?_⟩
    exact (phaseKept (setQueue step).2 q h).trans (stands.2 q h)

/-! The others. -/

structure Aside (s t : State) : Prop where
  clients : t.clients = s.clients
  calls : t.calls = s.calls
  pendingCmd : t.pendingCmd = s.pendingCmd
  server : t.server = s.server
  phases : ∀ q h, (t.pools q h).phase = (s.pools q h).phase

theorem pinsAside {held : Bool} {time : Int} (taken : pinsStep c s p held time = some t) : Aside s t := by
  cases pinsMove taken with
  | transmit _ step | clear _ step | count _ _ step | stage _ step => exact ⟨rfl, rfl, rfl, rfl, phaseKept (setQueue step).2⟩
  | free _ step => exact ⟨rfl, rfl, rfl, rfl, phaseKept (freeQueue step).2⟩
  | look | lookLow | choose | leave | clean | time | push => exact ⟨rfl, rfl, rfl, rfl, fun _ _ => rfl⟩

theorem asideReady (ready : Ready c s) (aside : Aside s t) : Ready c t := by
  obtain ⟨clients, calls, pendingCmd, server, phases⟩ := aside
  have stands := ready.stands
  refine ⟨by rw [calls]; exact ready.fits, by rw [clients, calls, pendingCmd]; exact ready.taken, ?_⟩
  rw [server]
  cases at_ : s.server <;> rw [at_] at stands <;> simp only [Stands, Unused, clients, calls, pendingCmd, phases] <;> exact stands

theorem callReady (ready : Ready c s) {r : Request} (idle : s.clients r.link = .idle) (fits : r.Fits c) :
    Ready c (TxRuns.called s r) := by
  have away : ∀ {k m}, s.clients k = .transferring m → k ≠ r.link := by
    rintro k m transferring rfl
    rw [idle] at transferring
    cases transferring
  refine ⟨fun n r' known => ?_, fun k m transferring => ?_, ?_⟩
  · rcases TxRuns.knownBefore known with old | ⟨-, rfl⟩
    · exact ready.fits n r' old
    · exact fits
  · by_cases same : k = r.link
    · simp only [TxRuns.called, same, setSame] at transferring
      cases transferring
    · simp only [TxRuns.called, setOther same] at transferring
      obtain ⟨link, r', known, pending⟩ := ready.taken k m transferring
      exact ⟨link, r', knownMore known, pending⟩
  · have stands := ready.stands
    change Stands c _ s.server
    cases server : s.server <;> rw [server] at stands
    case reserving i p =>
      obtain ⟨link, port, n, r', client, known, rest⟩ := stands
      exact ⟨link, port, n, r', (setOther (away client) _).trans client, knownMore known, rest⟩
    case transfer i n j =>
      obtain ⟨link, r', known, rest⟩ := stands
      exact ⟨link, r', knownMore known, rest⟩
    case committing i n p =>
      obtain ⟨link, port, client, r', known, rest⟩ := stands
      refine ⟨link, port, fun m transferring => ?_, r', knownMore known, rest⟩
      by_cases same : i = r.link
      · simp only [TxRuns.called, same, setSame] at transferring
        cases transferring
      · simp only [TxRuns.called, setOther same] at transferring
        exact client m transferring
    all_goals exact stands

theorem acceptReady (ready : Ready c s) {r : Request} (server : s.server = .select) (link : i < c.links)
    (known : s.calls[n]? = some r) :
    Ready c { s with clients := set s.clients i (.transferring n), pendingCmd := set s.pendingCmd i (some r.cmd)
                     server := .replying 0 } := by
  have stands := ready.stands
  rw [server] at stands
  refine ⟨ready.fits, fun k m transferring => ?_, Nat.zero_le _, stands⟩
  by_cases same : k = i
  · simp only [same, setSame, Client.transferring.injEq] at transferring ⊢
    subst transferring
    exact ⟨link, r, known, rfl⟩
  · simp only [setOther same] at transferring ⊢
    exact ready.taken k m transferring

theorem stepReady (sim : Sim c s life) (ready : Ready c s) {e : Event} (taken : step c s e = some t) : Ready c t := by
  have select : ∀ enabled, s.server = .select → Ready c { s with enabled := enabled, server := .replying 0 } := by
    intro enabled server
    have stands := ready.stands
    rw [server] at stands
    exact ⟨ready.fits, ready.taken, Nat.zero_le _, stands⟩
  cases e with
  | call r =>
    obtain ⟨idle, fits, rfl⟩ := callMoves taken
    exact callReady ready idle fits
  | accept i =>
    obtain ⟨n, r, server, -, link, -, known, rfl⟩ := acceptMoves taken
    exact acceptReady ready server link known
  | command i =>
    obtain ⟨server, rfl⟩ := commandMoves taken
    exact select _ server
  | timer =>
    obtain ⟨server, rfl⟩ := timerMoves taken
    exact select _ server
  | default =>
    obtain ⟨server, -, rfl⟩ := defaultMoves taken
    exact select _ server
  | server => exact serverReady sim ready taken
  | pins p held time => exact asideReady ready (pinsAside (pinsMoves taken).2)

theorem readyInitial (c : Config) (mem : Nat → Bool → Int → Int) (mempool : Nat → Bool → Nat) (memsize : Bool → Nat) :
    Ready c (initial mem mempool memsize) where
  fits _ _ known := by cases known
  taken _ _ client := by cases client
  stands := ⟨Nat.zero_le _, fun _ _ => rfl⟩

end

/-! What is enabled. -/

section
variable {c : Config} {s : State} {life : Nat → Nat → TxCourse.Life} {i p n : Nat} {hp : Bool} {buf : Int}

theorem onPoolMoves {e : TxPool.Event} (moves : ∃ u, TxPool.step c.forwards (s.pools p hp) e = some u) :
    ∃ t, onPool c s p hp e = some t := by
  obtain ⟨u, step⟩ := moves
  exact ⟨_, congrArg (Option.map _) step⟩

theorem eachPortMoves {e : TxPool.Event} (moves : ∀ q < n, ∃ u, TxPool.step c.forwards (s.pools q hp) e = some u) :
    ∃ t, eachPort c hp e n s = some t := by
  induction n with
  | zero => exact ⟨s, rfl⟩
  | succ n ih =>
    obtain ⟨m, first⟩ := ih fun q below => moves q (Nat.lt_succ_of_lt below)
    obtain ⟨pools, rfl, each⟩ := eachPortSteps first
    have same : pools n hp = s.pools n hp := (each n hp).2 fun inside => Nat.lt_irrefl n inside.1
    have last := moves n (Nat.lt_succ_self n)
    rw [← same] at last
    obtain ⟨t, step⟩ := onPoolMoves (s := { s with pools := pools }) last
    exact ⟨t, by rw [eachPort, first, Option.bind_some, step]⟩

def Kept (s : State) (p : Nat) (hp : Bool) (buf : Int) : Prop := ∃ k ∈ (s.pools p hp).queue, k.buf = buf ∧ k.freed = false

theorem headKept (sim : Sim c s life) {k : Pkt} (head : (s.pools p hp).queue.head? = some k) : Kept s p hp k.buf := by
  have member := List.mem_of_mem_head? head
  obtain ⟨r, packet⟩ := (sim.ports p).queues.packets hp k member
  exact ⟨k, member, rfl, packet.live⟩

theorem setMoves (kept : Kept s p hp buf) (f : Field) (x : Int) :
    ∃ u, TxPool.step c.forwards (s.pools p hp) (.set buf f x) = some u := ⟨_, if_pos kept⟩

theorem freeMoves (inv : TxPool.Inv (s.pools p hp)) (kept : Kept s p hp buf) :
    ∃ u, TxPool.step c.forwards (s.pools p hp) (.free buf) = some u := by
  obtain ⟨k, member, rfl, live⟩ := kept
  rcases inv with tiny | ⟨r, vr, vw, ringed⟩
  · rw [tiny.queue] at member
    cases member
  · obtain ⟨p', vr', returns, -⟩ := miiFreeRep ringed.rep ringed.settled member live
    have inside : ∃ k' ∈ (s.pools p hp).queue, k'.buf = k.buf ∧ k'.freed = false := ⟨k, member, rfl, live⟩
    simp only [TxPool.step, if_pos inside, returns]
    exact ⟨_, rfl⟩

theorem heldKept (sim : Sim c s life) (held : holds (s.pins p) = some (hp, buf)) : Kept s p hp buf := by
  obtain ⟨k, r, head, rfl, -⟩ := heldPacket sim held
  exact headKept sim head

theorem pinsEnabled (sim : Sim c s life) (p : Nat) (held : Bool) (time : Int) : ∃ t, pinsStep c s p held time = some t := by
  cases pins : s.pins p with
  | top | low | staged _ _ =>
    simp only [pinsStep, pins]
    exact ⟨_, rfl⟩
  | looked hp buf =>
    simp only [pinsStep, pins]
    split <;> exact ⟨_, rfl⟩
  | chosen hp buf =>
    obtain ⟨m, stamped⟩ := onPoolMoves (setMoves (c := c) (heldKept sim (by rw [pins]; rfl)) .timestamp time)
    simp only [pinsStep, pins, stamped]
    exact ⟨_, rfl⟩
  | transmitted hp buf =>
    obtain ⟨m, cleared⟩ := onPoolMoves (setMoves (c := c) (heldKept sim (by rw [pins]; rfl)) .forwarding 0)
    simp only [pinsStep, pins, cleared]
    split <;> exact ⟨_, rfl⟩
  | cleared hp buf =>
    have kept : Kept s p hp buf := heldKept sim (by rw [pins]; rfl)
    obtain ⟨m, counted⟩ := onPoolMoves (setMoves (c := c) kept .tcount (miiPacketGetTcount (s.pools p hp).pool buf - 1))
    obtain ⟨m', freed⟩ := onPoolMoves (freeMoves (c := c) (sim.pools p hp) kept)
    simp only [pinsStep, pins, counted, freed]
    split
    · exact ⟨_, rfl⟩
    · split <;> exact ⟨_, rfl⟩
  | timed hp buf =>
    obtain ⟨m, moved⟩ := onPoolMoves (setMoves (c := c) (heldKept sim (by rw [pins]; rfl)) .stage 2)
    simp only [pinsStep, pins, moved]
    exact ⟨_, rfl⟩

theorem lengthMoves {s : TxPool.State} {forwards : Bool} {length : Nat} (phase : s.phase = .idle ∨ ∃ buf, s.phase = .reserved buf)
    (found : reservedBuf s ≠ 0) (short : (length : Int) ≤ ethernetMaxTxLpPacketSize) :
    ∃ u, TxPool.step forwards s (.length length) = some u := by
  rcases phase with idle | ⟨buf, reserved⟩
  · rw [reservedBuf, idle] at found
    exact absurd rfl found
  · simp only [TxPool.step, reserved, if_pos short]
    exact ⟨_, rfl⟩

theorem reservingMoves (ready : Ready c s) (server : s.server = .reserving i p) : ∃ t, serverStep c s = some t := by
  have stands := ready.stands
  rw [server] at stands
  obtain ⟨link, -, n, r, client, known, pending, phases⟩ := stands
  simp only [serverStep, server, pending, Option.bind_eq_bind, Option.bind_some]
  split
  · have idle : Unused s p r.hp := by
      rcases phases p r.hp with unused | ⟨-, below, -⟩
      · exact unused
      · exact absurd below (Nat.lt_irrefl p)
    obtain ⟨t, reserved⟩ : ∃ t, onPool c s p (withoutHp r.cmd).2 .reserve = some t :=
      onPoolMoves ⟨_, by rw [TxPool.step, show (s.pools p (withoutHp r.cmd).2).phase = .idle from idle]⟩
    rw [reserved]
    exact ⟨_, rfl⟩
  · split
    · rename_i found
      obtain ⟨t, lengths⟩ : ∃ t, eachPort c (withoutHp r.cmd).2 (.length r.length) c.ports s = some t :=
        eachPortMoves fun q below => lengthMoves ((phases q _).imp_right fun inside => inside.2.2) (found q below)
          (ready.fits n r known).short
      simp only [transactionIs client known, Option.bind_some, lengths]
      exact ⟨_, rfl⟩
    · obtain ⟨t, abandoned⟩ : ∃ t, eachPort c (withoutHp r.cmd).2 .abandon c.ports s = some t := eachPortMoves fun q _ => ⟨_, rfl⟩
      rw [abandoned]
      exact ⟨_, rfl⟩

theorem transferMoves (sim : Sim c s life) (ready : Ready c s) {j : Nat} (server : s.server = .transfer i n j) :
    ∃ t, serverStep c s = some t := by
  have loading := sim.loading
  simp only [Loading, server] at loading
  obtain ⟨client, r, known, words⟩ := loading
  simp only [serverStep, server, transactionIs client known, Option.bind_eq_bind, Option.bind_some]
  split
  · rename_i datum more
    have below := (List.getElem?_eq_some_iff.mp more).1
    obtain ⟨t, stored⟩ : ∃ t, eachPort c r.hp (.word datum) c.ports s = some t := eachPortMoves fun q port => by
      obtain ⟨buf, dptr, phase⟩ := words q port
      have room : (r.data.take j).length < TxPool.wordCount r.length := by
        rw [← (ready.fits n r known).words, List.length_take]
        omega
      simp only [TxPool.step, phase, if_pos room]
      exact ⟨_, rfl⟩
    rw [stored]
    exact ⟨_, rfl⟩
  · exact ⟨_, rfl⟩

theorem committingMoves (sim : Sim c s life) (ready : Ready c s) (server : s.server = .committing i n p) :
    ∃ t, serverStep c s = some t := by
  have loading := sim.loading
  simp only [Loading, server] at loading
  obtain ⟨r, known, -, words⟩ := loading
  simp only [serverStep, server, known, Option.bind_eq_bind, Option.bind_some]
  split
  · rename_i port
    split
    · obtain ⟨buf, dptr, phase⟩ := words p (Nat.le_refl p) port
      obtain ⟨t, committed⟩ : ∃ t, onPool c s p r.hp (.commit (if r.timed then (i : Int) + 1 else 0)) = some t :=
        onPoolMoves (by simp only [TxPool.step, phase, if_pos (ready.fits n r known).words]; exact ⟨_, rfl⟩)
      rw [committed]
      exact ⟨_, rfl⟩
    · obtain ⟨t, abandoned⟩ : ∃ t, onPool c s p r.hp .abandon = some t := onPoolMoves ⟨_, rfl⟩
      rw [abandoned]
      exact ⟨_, rfl⟩
  · exact ⟨_, rfl⟩

theorem serverEnabled (sim : Sim c s life) (ready : Ready c s) (busy : s.server ≠ .select) : ∃ t, serverStep c s = some t := by
  cases server : s.server with
  | loop i =>
    simp only [serverStep, server]
    split <;> exact ⟨_, rfl⟩
  | reserving i p => exact reservingMoves ready server
  | transfer i n j => exact transferMoves sim ready server
  | committing i n p => exact committingMoves sim ready server
  | select => exact absurd server busy
  | replying p =>
    simp only [serverStep, server]
    split
    · split <;> exact ⟨_, rfl⟩
    · exact ⟨_, rfl⟩
  | found p hp buf =>
    simp only [serverStep, server]
    split <;> exact ⟨_, rfl⟩
  | release p hp buf =>
    obtain ⟨k, r, stamped, -⟩ := releasedOf sim server
    have kept : Kept s p hp buf := by
      rw [← stamped.at_]
      exact headKept sim stamped.head
    obtain ⟨t, freed⟩ : ∃ t, onPool c s p hp (if miiPacketGetTcount (s.pools p hp).pool buf = 0 then .free buf
        else .set buf .tcount (miiPacketGetTcount (s.pools p hp).pool buf - 1)) = some t := onPoolMoves (by
        split
        · exact freeMoves (sim.pools p hp) kept
        · exact setMoves kept _ _)
    simp only [serverStep, server, freed, Option.bind_eq_bind, Option.bind_some]
    exact ⟨_, rfl⟩

end

end ScEthernet.Full.TxReady
