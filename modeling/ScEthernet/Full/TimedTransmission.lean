import ScEthernet.Full.TxDrain

/-! Timed transmission over whole runs. -/
namespace ScEthernet.Full.TimedTransmission
open Lib.CircularFifo Lib.Runs Lib.Fairness Malloc TxServer TxTransfer TxSim TxRuns TxReady TxProgress TxDrain

/- The client has its timestamp, that of its own frame, and the frame has been sent and freed at each port. -/
structure Completed (c : Config) (s : State) (n : Nat) (r : Request) : Prop where
  answered : r.timed = true → (s.clients r.link).call ≠ some n ∧ ∃ a, repliesOf s n = [a] ∧ a.link = r.link ∧
    ∃ x ∈ sentOf s n, x.data = r.data ∧ a.time = x.time + ethernetTxPhyTimerOffset
  frames : ∀ p < c.ports, r.goesTo p = true → (sentOf s n).countP (fun x => decide (x.port = p)) = 1 ∧ (freedOf s n).count p = 1

section
variable {c : Config} {s : State} {n : Nat} {r : Request}

theorem goesSomewhere (fits : r.Fits c) (some : 0 < c.ports) : ∃ p < c.ports, r.goesTo p = true := by
  rcases fits.port with broadcast | ⟨above, below⟩
  · exact ⟨0, some, decide_eq_true (.inr broadcast)⟩
  · exact ⟨r.dstPort.toNat, by omega, decide_eq_true (.inl (by omega))⟩

theorem freedCompleted {life : Nat → Nat → TxCourse.Life} (sim : Sim c s life) (known : s.calls[n]? = some r) (fits : r.Fits c)
    (some : 0 < c.ports) (freed : ∀ p < c.ports, r.goesTo p = true → (p, n) ∈ s.freed) : Completed c s n r := by
  have sound := simSound sim
  have out : ∀ p < c.ports, r.goesTo p = true → (sentOf s n).countP (fun x => decide (x.port = p)) = 1 ∧
      (freedOf s n).count p = 1 ∧ (r.timed = true → (s.clients r.link).call ≠ Option.some n) := by
    intro p port goes
    have one := List.count_pos_iff.mpr (freedGone sim (freed p port goes)).1
    rcases sound.once n r p known with ⟨-, -, none⟩ | ⟨-, -, none⟩ | gone
    · omega
    · omega
    · exact gone
  refine ⟨fun timed => ?_, fun p port goes => ⟨(out p port goes).1, (out p port goes).2.1⟩⟩
  obtain ⟨p, port, goes⟩ := goesSomewhere fits some
  have left := (out p port goes).2.2 timed
  have one := sound.answered n r known timed
  rw [if_neg left] at one
  obtain ⟨a, answer⟩ := List.length_eq_one_iff.mp one
  have member : a ∈ repliesOf s n := by
    rw [answer]
    exact List.mem_singleton.mpr rfl
  obtain ⟨inside, call⟩ := List.mem_filter.mp member
  obtain ⟨n', r', call', known', -, link, sent⟩ := sound.replies a inside
  rw [of_decide_eq_true call] at call'
  cases call'
  rw [known] at known'
  cases known'
  exact ⟨left, a, answer, link, sent⟩

theorem operates {mem : Nat → Bool → Int → Int} {mempool : Nat → Bool → Nat} {memsize : Bool → Nat} {state : Nat → State}
    {event : Nat → Event} (execution : Execution (step c) state event) (start : state 0 = initial mem mempool memsize)
    (orderly : ∀ m, Orderly c (state m) (event m)) (fair : Fairly c state event) : Operation c state event := by
  have both : ∀ m, (∃ life, Sim c (state m) life) ∧ Ready c (state m) := by
    intro m
    induction m with
    | zero =>
      rw [start]
      exact ⟨⟨_, simInitial c mem mempool memsize⟩, readyInitial c mem mempool memsize⟩
    | succ m ih =>
      obtain ⟨⟨life, sim⟩, ready⟩ := ih
      exact ⟨stepKeeps sim _ (orderly m) (execution.next m), stepReady sim ready (execution.next m)⟩
  exact ⟨execution, orderly, fun m => (both m).1, fun m => (both m).2, fair⟩

end

/-- Every orderly run answers each mac_tx_timed with one timestamp, that of its own frame, and transmits and
frees each frame once for each port that it goes to. If the tasks take their turns, all this is done in the end. -/
theorem timedTransmission (c : Config) (mem : Nat → Bool → Int → Int) (mempool : Nat → Bool → Nat) (memsize : Bool → Nat) :
    (∀ es, Along (step c) (Orderly c) (initial mem mempool memsize) es → Always (step c) (Sound c) (initial mem mempool memsize) es) ∧
    ∀ state event, Execution (step c) state event → state 0 = initial mem mempool memsize →
      (∀ m, Orderly c (state m) (event m)) → Fairly c state event → 0 < c.ports →
      ∀ (a n : Nat) r, (state a).calls[n]? = some r → ∃ b, ∀ m, b ≤ m → Completed c (state m) n r := by
  refine ⟨fun es orderly => ?_, fun state event execution start orderly fair ports a n r known => ?_⟩
  · refine alwaysGuarded (I := fun s => ∃ life, Sim c s life) ?_ ?_ ⟨_, simInitial c mem mempool memsize⟩ orderly
    · rintro s e t ⟨life, sim⟩ now taken
      exact stepKeeps sim e now taken
    · rintro s ⟨life, sim⟩
      exact simSound sim
  · have op := operates execution start orderly fair
    obtain ⟨b, later, freed⟩ := allFreed op known
    refine ⟨b, fun m after => ?_⟩
    obtain ⟨life, sim⟩ := op.sim m
    have known' := knownLater op known (Nat.le_trans later after)
    exact freedCompleted sim known' ((op.ready m).fits n r known') ports fun p port goes => freedLater op (freed p port goes) after

def request (dstPort : Int) : Request := ⟨0, .reqTimed, 60, dstPort, List.replicate 15 0⟩

/- The frame is taken, transmitted and answered. -/
def onePort : Config := ⟨1, 1, false, false⟩
def onePortRun : List Event :=
  [.server, .server, .call (request 0), .accept 0] ++ List.replicate 24 .server ++ List.replicate 7 (.pins 0 false 100) ++
  [.timer] ++ List.replicate 4 .server

def onePortServed : List Event := onePortRun ++ [.server, .server]

def silentServer (n : Nat) : Server :=
  match n % 7 with
  | 1 => .replying 1
  | 2 => .loop 0
  | 3 => .loop 1
  | 4 => .select
  | _ => .replying 0
def silentPins (n : Nat) : Pins := if n % 7 = 6 then .looked false 0 else .top
def silent (s : State) (n : Nat) : State :=
  { s with enabled := fun _ => true, server := silentServer n, pins := set s.pins 0 (silentPins n) }
def silentEvent (n : Nat) : Event :=
  match n % 7 with
  | 4 => .default
  | 5 | 6 => .pins 0 false 0
  | _ => .server

theorem setTwice (f : Nat → Pins) (x y : Pins) : set (set f 0 x) 0 y = set f 0 y := by
  funext i
  by_cases same : i = 0
  · rw [same, setSame, setSame]
  · rw [setOther same, setOther same, setOther same]

theorem silentNext {s : State} (empty : (s.tsQueue 0).rd = (s.tsQueue 0).wr) (none : s.pendingCmd 0 = none)
    (quiet : (s.clients 0).commands = false) (nothing : miiGetNextBuf (s.pools 0 false).pool = 0) :
    Execution (step onePort) (silent s) silentEvent where
  next n := by
    have later : (n + 1) % 7 = if n % 7 = 6 then 0 else n % 7 + 1 := by split <;> omega
    have cases : n % 7 = 0 ∨ n % 7 = 1 ∨ n % 7 = 2 ∨ n % 7 = 3 ∨ n % 7 = 4 ∨ n % 7 = 5 ∨ n % 7 = 6 := by omega
    rcases cases with at_ | at_ | at_ | at_ | at_ | at_ | at_ <;> rw [at_] at later
    · simp [silent, silentServer, silentPins, silentEvent, at_, later, step, serverStep, onePort, empty]
    · simp [silent, silentServer, silentPins, silentEvent, at_, later, step, serverStep, onePort]
    · simp [silent, silentServer, silentPins, silentEvent, at_, later, step, serverStep, onePort, none]
    · simp [silent, silentServer, silentPins, silentEvent, at_, later, step, serverStep, onePort]
    · simp [silent, silentServer, silentPins, silentEvent, at_, later, step, onePort, quiet]
    · simp [silent, silentServer, silentPins, silentEvent, at_, later, step, pinsStep, onePort, setSame, setTwice, nothing]
    · simp [silent, silentServer, silentPins, silentEvent, at_, later, step, pinsStep, onePort, setSame, setTwice]

theorem silentOrderly (s : State) (n : Nat) : Orderly onePort (silent s n) (silentEvent n) := by
  have cases : n % 7 = 0 ∨ n % 7 = 1 ∨ n % 7 = 2 ∨ n % 7 = 3 ∨ n % 7 = 4 ∨ n % 7 = 5 ∨ n % 7 = 6 := by omega
  rcases cases with at_ | at_ | at_ | at_ | at_ | at_ | at_ <;>
    simp [Orderly, silent, silentServer, silentPins, silentEvent, at_, setSame]

theorem silentFairly {state : Nat → State} {event : Nat → Event} {s : State} {b : Nat}
    (same : ∀ n, state (b + n) = silent s n ∧ event (b + n) = silentEvent n) : Fairly onePort state event where
  serves _ l := ⟨b + (7 * l + 4), by omega, by simp [(same _).2, silentEvent, Serves]⟩
  decides _ l := ⟨b + (7 * l + 4), by omega, by simp [(same _).2, silentEvent, TxTurns.Decides]⟩
  drives p port _ l := by
    obtain rfl : p = 0 := by simpa [onePort] using port
    exact ⟨b + (7 * l + 5), by omega, by simp [(same _).2, silentEvent, Drives]⟩
  credit p port often := by
    obtain rfl : p = 0 := by simpa [onePort] using port
    obtain ⟨m, later, buf, looked⟩ := often b
    obtain ⟨n, rfl⟩ := Nat.exists_eq_add_of_le later
    rw [(same n).1] at looked
    simp only [silent, setSame, silentPins] at looked
    split at looked <;> cases looked
  low config := by cases config
  room i link often := by
    obtain ⟨m, later, asking⟩ := often b
    obtain ⟨n, rfl⟩ := Nat.exists_eq_add_of_le later
    rw [(same n).1] at asking
    simp only [silent, silentServer] at asking
    split at asking <;> cases asking

theorem onePortTimestamp : (Always (step onePort) (Sound onePort) zeros onePortRun ∧
    (run (step onePort) zeros onePortRun).any (fun t => decide (t.replies.map Reply.time = [148] ∧ t.freed = [(0, 0)])) = true) ∧
    ∃ state event, Execution (step onePort) state event ∧ state 0 = zeros ∧ ∃ a r, (state a).calls[0]? = some r ∧ r.timed = true ∧
      ∃ b, ∀ m, b ≤ m → Completed onePort (state m) 0 r := by
  obtain ⟨runs, executions⟩ := timedTransmission onePort (fun _ _ _ => 0) (fun _ _ => 0) (fun _ => 600)
  refine ⟨⟨runs onePortRun (by decide +kernel), by decide +kernel⟩, ?_⟩
  have ends : (run (step onePort) zeros onePortServed).any (fun u => decide
      (u.server = .select ∧ (u.tsQueue 0).rd = (u.tsQueue 0).wr ∧ (u.pendingCmd 0).isNone ∧ u.clients 0 = .idle ∧ u.pins 0 = .top ∧
        miiGetNextBuf (u.pools 0 false).pool = 0 ∧ (u.calls[0]?).any Request.timed = true)) = true := by
    decide +kernel
  obtain ⟨u, reached, holds⟩ := (Option.any_eq_true ..).mp ends
  obtain ⟨server, empty, none, client, pins, nothing, called⟩ := of_decide_eq_true holds
  have before : run (step onePort) zeros (onePortServed ++ [Event.default]) = some (silent u 0) := by
    have same : set u.pins 0 .top = u.pins := by
      funext p
      by_cases here : p = 0
      · rw [here, setSame, pins]
      · exact setOther here _
    have last : step onePort u .default = some (silent u 0) := by
      simp [step, server, silent, silentServer, silentPins, same, onePort, client, Client.commands]
    rw [runAppend, reached, Option.bind_some, run, last]
    rfl
  obtain ⟨state, event, start, execution, same, along⟩ := executionPrepend before
    (silentNext empty (Option.isNone_iff_eq_none.mp none) (by rw [client]; rfl) nothing)
  have orderly : ∀ m, Orderly onePort (state m) (event m) := by
    intro m
    by_cases early : m < (onePortServed ++ [Event.default]).length
    · exact along (Orderly onePort) (by decide +kernel) m early
    · obtain ⟨n, rfl⟩ := Nat.exists_eq_add_of_le (Nat.not_lt.mp early)
      rw [(same n).1, (same n).2]
      exact silentOrderly u n
  obtain ⟨r, known, timed⟩ := (Option.any_eq_true ..).mp called
  have calls : (state ((onePortServed ++ [Event.default]).length + 0)).calls[0]? = some r := by
    rw [(same 0).1]
    exact known
  exact ⟨state, event, execution, start, _, r, calls, timed,
    executions state event execution start orderly (silentFairly same) (by decide) _ 0 r calls⟩

/- A timed frame to both of two ports: each of them has a timestamp for the client. -/
def broadcastRun : List Event :=
  [.server, .server, .call (request ethBroadcast), .accept 0] ++ List.replicate 27 .server ++
  List.replicate 7 (.pins 0 false 100) ++ List.replicate 7 (.pins 1 false 200) ++ [.timer] ++ List.replicate 6 .server

theorem broadcastTwoTimestamps : ¬ ∀ (c : Config) (mem : Nat → Bool → Int → Int) (mempool : Nat → Bool → Nat)
    (memsize : Bool → Nat) (es : List Event), Always (step c) (Sound c) (initial mem mempool memsize) es := by
  intro always
  have ends : (run (step twoPorts) zeros broadcastRun).any (fun t => t.replies.any (fun a => decide (a.call = none))) = true := by
    decide +kernel
  cases reached : run (step twoPorts) zeros broadcastRun with
  | none =>
    rw [reached] at ends
    cases ends
  | some t =>
    rw [reached] at ends
    obtain ⟨a, member, unasked⟩ := List.any_eq_true.mp ends
    obtain ⟨n, r, call, -⟩ := (alwaysReached (always twoPorts _ _ _ broadcastRun) reached).replies a member
    rw [of_decide_eq_true unasked] at call
    cases call

end ScEthernet.Full.TimedTransmission
