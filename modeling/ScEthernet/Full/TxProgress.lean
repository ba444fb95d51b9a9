import ScEthernet.Full.TxOrder
import ScEthernet.Full.TxReady

/-! Where ethernet_tx_server and mii_tx_pins come to when each of them takes its turns. -/
namespace ScEthernet.Full.TxProgress
open Lib.CircularFifo Lib.Runs Lib.Fairness Malloc PoolQueue TxTransfer TxServer TxPackets TxPort TxSim TxServerSteps TxPinsSteps
open TxMoves TxReady TxOrder
open TxCourse (Life)

def Serves : Event → Prop
  | .call _ | .pins _ _ _ => False
  | _ => True

def Drives (p : Nat) : Event → Prop
  | .pins q _ _ => q = p
  | _ => False

/- The tasks take their turns. `credit`: the shaper lets frames through; `low`: the line is left to lp_queue;
`room`: a client that asks for buffers is not refused for ever. -/
structure Fairly (c : Config) (state : Nat → State) (event : Nat → Event) : Prop where
  serves : TakesTurns (step c) Serves state event
  decides : TakesTurns (step c) TxTurns.Decides state event
  drives : ∀ p < c.ports, TakesTurns (step c) (Drives p) state event
  credit : ∀ p < c.ports, (Often fun m => ∃ buf, (state m).pins p = .looked true buf) →
    Often fun m => ∃ buf time, (state m).pins p = .looked true buf ∧ event m = .pins p false time
  low : c.hpQueue = true → ∀ p < c.ports, (Often fun m => (state m).pins p = .top) → Often fun m => (state m).pins p = .low
  room : ∀ i < c.links, (Often fun m => (state m).server = .reserving i c.ports) →
    Often fun m => (state m).server = .reserving i c.ports ∧
      ∃ cmd, (state m).pendingCmd i = some cmd ∧ Found c (state m) (withoutHp cmd).2

/-! Steps. -/

section steps
variable {c : Config} {s t : State} {life : Nat → Nat → Life} {e : Event} {p i n : Nat} {hp : Bool} {r : Request}

inductive ClientMove (s t : State) (i : Nat) : Prop
  | same (same : t.clients i = s.clients i)
  | call (idle : s.clients i = .idle) (calling : t.clients i = .calling s.calls.length)
  | accept {m : Nat} (calling : s.clients i = .calling m) (transferring : t.clients i = .transferring m)
  | transfer {m : Nat} (transferring : s.clients i = .transferring m) (server : t.server = .committing i m 0)
      (left : t.clients i = .waiting m ∨ t.clients i = .idle)
  | answer {m : Nat} (waiting : s.clients i = .waiting m) (idle : t.clients i = .idle)

theorem clientMoves (sim : Sim c s life) (taken : step c s e = some t) (i : Nat) : ClientMove s t i := by
  cases e with
  | call r =>
    obtain ⟨idle, -, rfl⟩ := callMoves taken
    by_cases here : i = r.link
    · subst here
      exact .call idle (setSame ..)
    · exact .same (setOther here _)
  | accept k =>
    obtain ⟨n, r, -, calling, -, -, -, rfl⟩ := acceptMoves taken
    by_cases here : i = k
    · subst here
      exact .accept calling (setSame ..)
    · exact .same (setOther here _)
  | command k =>
    obtain ⟨-, rfl⟩ := commandMoves taken
    exact .same rfl
  | timer =>
    obtain ⟨-, rfl⟩ := timerMoves taken
    exact .same rfl
  | default =>
    obtain ⟨-, -, rfl⟩ := defaultMoves taken
    exact .same rfl
  | server =>
    cases serverMoves taken with
    | @transferred k n m j r server client known whole =>
      have loading := sim.loading
      simp only [Loading, server] at loading
      by_cases here : i = k
      · subst here
        refine .transfer loading.1 rfl ?_
        simp only [setSame]
        split
        · exact .inl rfl
        · exact .inr rfl
      · exact .same (setOther here _)
    | @reply p hp buf n replies server waiting =>
      by_cases here : i = (miiPacketGetTimestampId (s.pools p hp).pool buf - 1).toNat
      · subst here
        exact .answer waiting (setSame ..)
      · exact .same (setOther here _)
    | _ => exact .same rfl
  | pins p held time => exact .same (congrFun (pinsAside (pinsMoves taken).2).clients i)

theorem transferringKept (sim : Sim c s life) (transferring : s.clients i = .transferring n) (taken : step c s e = some t) :
    t.clients i = .transferring n ∨ t.server = .committing i n 0 := by
  cases clientMoves sim taken i with
  | same same => exact .inl (same.trans transferring)
  | call idle => rw [transferring] at idle; cases idle
  | accept calling => rw [transferring] at calling; cases calling
  | transfer before server =>
    rw [transferring] at before
    cases before
    exact .inr server
  | answer waiting => rw [transferring] at waiting; cases waiting

theorem phaseBefore {x : Client} : phaseOf x n = .before ↔ x = .calling n ∨ x = .transferring n := by
  unfold phaseOf
  split
  · exact ⟨fun _ => ‹_›, fun _ => rfl⟩
  · rename_i away
    refine ⟨fun before => ?_, fun on => absurd on away⟩
    split at before <;> cases before

theorem begunKept (sim : Sim c s life) (known : s.calls[n]? = some r) (begun : phaseIn s n ≠ .before)
    (taken : step c s e = some t) : phaseIn t n ≠ .before := by
  rw [phaseKnown known, ne_eq, phaseBefore] at begun
  rw [phaseKnown (stepCalls sim taken known), ne_eq, phaseBefore]
  have below := (List.getElem?_eq_some_iff.mp known).1
  rintro (on | on)
  · cases clientMoves sim taken r.link with
    | same same => exact begun (.inl (same.symm.trans on))
    | call idle calling =>
      rw [calling] at on
      cases on
      exact Nat.lt_irrefl _ below
    | accept calling transferring => rw [transferring] at on; cases on
    | transfer transferring server left => rcases left with left | left <;> rw [left] at on <;> cases on
    | answer waiting idle => rw [idle] at on; cases on
  · cases clientMoves sim taken r.link with
    | same same => exact begun (.inr (same.symm.trans on))
    | call idle calling => rw [calling] at on; cases on
    | accept calling transferring =>
      rw [transferring] at on
      cases on
      exact begun (.inl calling)
    | transfer transferring server left => rcases left with left | left <;> rw [left] at on <;> cases on
    | answer waiting idle => rw [idle] at on; cases on

theorem effectFreed (effect : Effect c s t) {xs ys : List Nat} (front : line s p hp = xs ++ n :: ys) :
    (p, n) ∈ t.freed ∨ ∃ xs' ys', xs' <:+ xs ∧ line t p hp = xs' ++ n :: ys' := by
  cases effect with
  | none lines => exact .inr ⟨xs, ys, List.suffix_refl xs, (lines p hp).trans front⟩
  | transmit front' lines => exact .inr ⟨xs, ys, List.suffix_refl xs, (lines p hp).trans front⟩
  | @commit i m q r' server known port goes here there =>
    by_cases same : p = q ∧ hp = r'.hp
    · obtain ⟨rfl, rfl⟩ := same
      exact .inr ⟨xs, ys ++ [m], List.suffix_refl xs, by rw [here, front, List.append_assoc, List.cons_append]⟩
    · exact .inr ⟨xs, ys, List.suffix_refl xs, (there p hp same).trans front⟩
  | @free q h m rest first here there sent freed =>
    by_cases same : p = q ∧ hp = h
    · obtain ⟨rfl, rfl⟩ := same
      rw [first] at front
      cases xs with
      | nil =>
        cases front
        refine .inl ?_
        rw [freed]
        exact List.mem_append_right _ (List.mem_singleton.mpr rfl)
      | cons x xs =>
        cases front
        exact .inr ⟨xs, ys, List.suffix_cons _ xs, here⟩
    · exact .inr ⟨xs, ys, List.suffix_refl xs, (there p hp same).trans front⟩

end steps

/-! The rounds of the server. -/

inductive Goes (c : Config) (s : State) : Server → Server → Prop
  | listen {i} (last : ¬ i < c.links) : Goes c s (.loop i) .select
  | skip {i} (link : i < c.links) (none : s.pendingCmd i = none) : Goes c s (.loop i) (.loop (i + 1))
  | ask {i} (link : i < c.links) : Goes c s (.loop i) (.reserving i 0)
  | reserve {i p} (port : p < c.ports) : Goes c s (.reserving i p) (.reserving i (p + 1))
  | begin {i p n} (last : ¬ p < c.ports) (client : s.clients i = .transferring n) : Goes c s (.reserving i p) (.transfer i n 0)
  | refuse {i p cmd} (last : ¬ p < c.ports) (pending : s.pendingCmd i = some cmd) (refused : ¬ Found c s (withoutHp cmd).2) :
    Goes c s (.reserving i p) (.loop (i + 1))
  | word {i n m j r} (client : s.clients i = .transferring m) (known : s.calls[m]? = some r) (more : j < r.data.length) :
    Goes c s (.transfer i n j) (.transfer i n (j + 1))
  | whole {i n j} : Goes c s (.transfer i n j) (.committing i n 0)
  | port {i n p} (port : p < c.ports) : Goes c s (.committing i n p) (.committing i n (p + 1))
  | done {i n p} (last : ¬ p < c.ports) : Goes c s (.committing i n p) (.loop (i + 1))
  | silent {p} (port : p < c.ports) : Goes c s (.replying p) (.replying (p + 1))
  | pop {p hp buf} (port : p < c.ports) : Goes c s (.replying p) (.found p hp buf)
  | back {p} (last : ¬ p < c.ports) : Goes c s (.replying p) (.loop 0)
  | answer {p hp buf} : Goes c s (.found p hp buf) (.release p hp buf)
  | release {p hp buf} : Goes c s (.release p hp buf) (.replying (p + 1))

theorem serverGoes {c : Config} {s t : State} (taken : serverStep c s = some t) : Goes c s s.server t.server := by
  cases serverMoves taken with
  | @loop i server link =>
    rw [server]
    dsimp only
    cases pending : s.pendingCmd i with
    | none => exact .skip link pending
    | some cmd => exact .ask link
  | listen server last => rw [server]; exact .listen last
  | reserve server _ port => rw [server]; exact .reserve port
  | begin server _ last _ client => rw [server]; exact .begin last client
  | abandon server pending last refused => rw [server]; exact .refuse last pending refused
  | word server client known more => rw [server]; exact .word client known (List.getElem?_eq_some_iff.mp more).1
  | transferred server => rw [server]; exact .whole
  | commit server _ port | pass server _ port => rw [server]; exact .port port
  | served server last => rw [server]; exact .done last
  | silent server port => rw [server]; exact .silent port
  | pop server port => rw [server]; exact .pop port
  | back server last => rw [server]; exact .back last
  | reply server | stray server => rw [server]; exact .answer
  | free server | count server => rw [server]; exact .release

structure Operation (c : Config) (state : Nat → State) (event : Nat → Event) : Prop where
  execution : Execution (step c) state event
  orderly : ∀ m, Orderly c (state m) (event m)
  sim : ∀ m, ∃ life, Sim c (state m) life
  ready : ∀ m, Ready c (state m)
  fair : Fairly c state event

def working (s : State) : Server × (Nat → Option Cmd) × (Nat → Bool → TxPool.Phase) :=
  (s.server, s.pendingCmd, fun q h => (s.pools q h).phase)

section rounds
variable {c : Config} {s t : State} {e : Event}

theorem workingAlone (taken : step c s e = some t) (other : ¬ Serves e) : working t = working s := by
  cases e with
  | call r =>
    obtain ⟨-, -, rfl⟩ := callMoves taken
    rfl
  | pins p held time =>
    obtain ⟨-, -, pendingCmd, server, phases⟩ := pinsAside (pinsMoves taken).2
    have phases : (fun q h => (t.pools q h).phase) = fun q h => (s.pools q h).phase := funext fun q => funext (phases q)
    rw [working, working, server, pendingCmd, phases]
  | _ => exact absurd trivial other

theorem servesMoves (taken : step c s e = some t) (serves : Serves e) :
    s.server = .select ∧ t.server = .replying 0 ∨ s.server ≠ .select ∧ serverStep c s = some t := by
  cases e with
  | call r => exact serves.elim
  | pins p held time => exact serves.elim
  | accept k =>
    obtain ⟨n, r, server, -, -, -, -, rfl⟩ := acceptMoves taken
    exact .inl ⟨server, rfl⟩
  | command k =>
    obtain ⟨server, rfl⟩ := commandMoves taken
    exact .inl ⟨server, rfl⟩
  | timer =>
    obtain ⟨server, rfl⟩ := timerMoves taken
    exact .inl ⟨server, rfl⟩
  | default =>
    obtain ⟨server, -, rfl⟩ := defaultMoves taken
    exact .inl ⟨server, rfl⟩
  | server =>
    refine .inr ⟨fun select => ?_, taken⟩
    have none : serverStep c s = some t := taken
    simp [serverStep, select] at none

variable {state : Nat → State} {event : Nat → Event} {a i n p j : Nat}

theorem servesOften (op : Operation c state event) : Often fun m => Serves (event m) := by
  refine op.fair.serves fun m => ⟨m, Nat.le_refl m, ?_⟩
  by_cases select : (state m).server = .select
  · exact ⟨.timer, trivial, by simp [Enabled, step, select]⟩
  · obtain ⟨life, sim⟩ := op.sim m
    obtain ⟨t, moves⟩ := serverEnabled sim (op.ready m) select
    exact ⟨.server, trivial, Option.isSome_iff_exists.mpr ⟨t, moves⟩⟩

theorem serverTurn (op : Operation c state event) {x : Server} (server : (state a).server = x) (busy : x ≠ .select) :
    ∃ m y, a ≤ m ∧ working (state m) = working (state a) ∧ Goes c (state m) x y ∧ (state (m + 1)).server = y ∧
      serverStep c (state m) = some (state (m + 1)) := by
  obtain ⟨m, later, serves, same⟩ := nextTurn op.execution (servesOften op) (fun _ _ _ => workingAlone) a
  have here : (state m).server = x := (congrArg Prod.fst same).trans server
  rcases servesMoves (op.execution.next m) serves with ⟨select, -⟩ | ⟨-, moves⟩
  · exact absurd (here.symm.trans select) busy
  · have goes := serverGoes moves
    rw [here] at goes
    exact ⟨m, _, later, same, goes, rfl, moves⟩

theorem selectTurn (op : Operation c state event) (select : (state a).server = .select) :
    Comes state a fun s => s.server = .replying 0 := by
  obtain ⟨m, later, serves, same⟩ := nextTurn op.execution (servesOften op) (fun _ _ _ => workingAlone) a
  have here : (state m).server = .select := (congrArg Prod.fst same).trans select
  rcases servesMoves (op.execution.next m) serves with ⟨-, replying⟩ | ⟨busy, -⟩
  · exact ⟨m + 1, Nat.le_succ_of_le later, replying⟩
  · exact absurd here busy

theorem knownLater (op : Operation c state event) {r : Request} (known : (state a).calls[n]? = some r) {m : Nat} (later : a ≤ m) :
    (state m).calls[n]? = some r := by
  induction later with
  | refl => exact known
  | @step m _ ih =>
    obtain ⟨life, sim⟩ := op.sim m
    exact stepCalls sim (op.execution.next m) ih

theorem committingLeaves (op : Operation c state event) (server : (state a).server = .committing i n p) :
    Comes state a fun s => s.server = .loop (i + 1) := by
  induction left : c.ports - p generalizing a p with
  | zero =>
    obtain ⟨m, y, later, -, goes, next, -⟩ := serverTurn op server (by simp)
    cases goes with
    | port port => omega
    | done => exact ⟨m + 1, Nat.le_succ_of_le later, next⟩
  | succ d ih =>
    obtain ⟨m, y, later, -, goes, next, -⟩ := serverTurn op server (by simp)
    cases goes with
    | port => exact comesLater (Nat.le_succ_of_le later) (ih next (by omega))
    | done => exact ⟨m + 1, Nat.le_succ_of_le later, next⟩

theorem wordTurn (op : Operation c state event) {r : Request} (known : (state a).calls[n]? = some r)
    (server : (state a).server = .transfer i n j) : ∃ m, a < m ∧ ((state m).server = .committing i n 0 ∨
      (state m).server = .transfer i n (j + 1) ∧ j < r.data.length) := by
  obtain ⟨m, y, later, same, goes, next, -⟩ := serverTurn op server (by simp)
  refine ⟨m + 1, Nat.lt_succ_of_le later, ?_⟩
  cases goes with
  | whole => exact .inl next
  | word client known' more =>
    obtain ⟨life, sim⟩ := op.sim m
    have here : (state m).server = .transfer i n j := (congrArg Prod.fst same).trans server
    have loading := sim.loading
    simp only [Loading, here] at loading
    rw [loading.1] at client
    cases client
    rw [knownLater op known later] at known'
    cases known'
    exact .inr ⟨next, more⟩

theorem transferLeaves (op : Operation c state event) (server : (state a).server = .transfer i n j) :
    Comes state a fun s => s.server = .committing i n 0 := by
  obtain ⟨life, sim⟩ := op.sim a
  have loading := sim.loading
  simp only [Loading, server] at loading
  obtain ⟨-, r, known, -⟩ := loading
  clear sim
  induction left : r.data.length - j generalizing a j with
  | zero =>
    obtain ⟨m, later, committing | ⟨-, more⟩⟩ := wordTurn op known server
    · exact ⟨m, Nat.le_of_lt later, committing⟩
    · omega
  | succ d ih =>
    obtain ⟨m, later, committing | ⟨next, more⟩⟩ := wordTurn op known server
    · exact ⟨m, Nat.le_of_lt later, committing⟩
    · exact comesLater (Nat.le_of_lt later) (ih next (knownLater op known (Nat.le_of_lt later)) (by omega))

theorem reservingAsks (op : Operation c state event) (server : (state a).server = .reserving i p) :
    Comes state a fun s => s.server = .reserving i c.ports := by
  induction left : c.ports - p generalizing a p with
  | zero =>
    have stands := (op.ready a).stands
    rw [server] at stands
    obtain rfl : p = c.ports := by
      have := stands.2.1
      omega
    exact ⟨a, Nat.le_refl a, server⟩
  | succ d ih =>
    obtain ⟨m, y, later, -, goes, next, -⟩ := serverTurn op server (by simp)
    cases goes with
    | reserve => exact comesLater (Nat.le_succ_of_le later) (ih next (by omega))
    | begin last | refuse last => omega

theorem reservingLeaves (op : Operation c state event) (server : (state a).server = .reserving i p) :
    Comes state a fun s => s.server = .loop (i + 1) := by
  refine comesOn (reservingAsks op server) fun b _ asks => ?_
  obtain ⟨m, y, later, -, goes, next, -⟩ := serverTurn op asks (by simp)
  refine comesLater (Nat.le_succ_of_le later) ?_
  cases goes with
  | reserve port => exact absurd port (Nat.lt_irrefl _)
  | begin => exact comesOn (transferLeaves op next) fun l _ committing => committingLeaves op committing
  | refuse => exact ⟨m + 1, Nat.le_refl _, next⟩

theorem loopLeaves (op : Operation c state event) (server : (state a).server = .loop i) (link : i < c.links) :
    Comes state a fun s => s.server = .loop (i + 1) := by
  obtain ⟨m, y, later, -, goes, next, -⟩ := serverTurn op server (by simp)
  refine comesLater (Nat.le_succ_of_le later) ?_
  cases goes with
  | listen last => exact absurd link last
  | skip => exact ⟨m + 1, Nat.le_refl _, next⟩
  | ask => exact reservingLeaves op next

theorem loopSelects (op : Operation c state event) (server : (state a).server = .loop i) :
    Comes state a fun s => s.server = .select := by
  induction left : c.links - i generalizing a i with
  | zero =>
    obtain ⟨m, y, later, -, goes, next, -⟩ := serverTurn op server (by simp)
    cases goes with
    | listen => exact ⟨m + 1, Nat.le_succ_of_le later, next⟩
    | skip link | ask link => omega
  | succ d ih => exact comesOn (loopLeaves op server (by omega)) fun m _ next => ih next (by omega)

theorem foundReleases (op : Operation c state event) {hp : Bool} {buf : Int} (server : (state a).server = .found p hp buf) :
    Comes state a fun s => s.server = .release p hp buf := by
  obtain ⟨m, y, later, -, goes, next, -⟩ := serverTurn op server (by simp)
  cases goes
  exact ⟨m + 1, Nat.le_succ_of_le later, next⟩

theorem releaseLeaves (op : Operation c state event) {hp : Bool} {buf : Int} (server : (state a).server = .release p hp buf) :
    Comes state a fun s => s.server = .replying (p + 1) := by
  obtain ⟨m, y, later, -, goes, next, -⟩ := serverTurn op server (by simp)
  cases goes
  exact ⟨m + 1, Nat.le_succ_of_le later, next⟩

theorem replyingLeaves (op : Operation c state event) (server : (state a).server = .replying p) (port : p < c.ports) :
    Comes state a fun s => s.server = .replying (p + 1) := by
  obtain ⟨m, y, later, -, goes, next, -⟩ := serverTurn op server (by simp)
  refine comesLater (Nat.le_succ_of_le later) ?_
  cases goes with
  | silent => exact ⟨m + 1, Nat.le_refl _, next⟩
  | pop => exact comesOn (foundReleases op next) fun l _ release => releaseLeaves op release
  | back last => exact absurd port last

theorem replyingLoops (op : Operation c state event) (server : (state a).server = .replying p) :
    Comes state a fun s => s.server = .loop 0 := by
  induction left : c.ports - p generalizing a p with
  | zero =>
    obtain ⟨m, y, later, -, goes, next, -⟩ := serverTurn op server (by simp)
    cases goes with
    | silent port | pop port => omega
    | back => exact ⟨m + 1, Nat.le_succ_of_le later, next⟩
  | succ d ih => exact comesOn (replyingLeaves op server (by omega)) fun m _ next => ih next (by omega)

theorem comesToSelect (op : Operation c state event) (a : Nat) : Comes state a fun s => s.server = .select := by
  have loops : ∀ {b p}, (state b).server = .replying p → Comes state b fun s => s.server = .select :=
    fun replying => comesOn (replyingLoops op replying) fun m _ next => loopSelects op next
  cases server : (state a).server with
  | loop i => exact loopSelects op server
  | reserving i p => exact comesOn (reservingLeaves op server) fun m _ next => loopSelects op next
  | transfer i n j =>
    refine comesOn (transferLeaves op server) fun m _ next => ?_
    exact comesOn (committingLeaves op next) fun l _ next => loopSelects op next
  | committing i n p => exact comesOn (committingLeaves op server) fun m _ next => loopSelects op next
  | select => exact ⟨a, Nat.le_refl a, server⟩
  | replying p => exact loops server
  | found p hp buf =>
    refine comesOn (foundReleases op server) fun m _ next => ?_
    exact comesOn (releaseLeaves op next) fun l _ next => loops next
  | release p hp buf => exact comesOn (releaseLeaves op server) fun m _ next => loops next

theorem comesToReplying (op : Operation c state event) (port : p ≤ c.ports) (a : Nat) :
    Comes state a fun s => s.server = .replying p := by
  induction p with
  | zero => exact comesOn (comesToSelect op a) fun m _ select => selectTurn op select
  | succ p ih => exact comesOn (ih (Nat.le_of_succ_le port)) fun m _ next => replyingLeaves op next port

theorem comesToLoop (op : Operation c state event) (link : i ≤ c.links) (a : Nat) :
    Comes state a fun s => s.server = .loop i := by
  induction i with
  | zero => exact comesOn (comesToReplying op (Nat.zero_le _) a) fun m _ replying => replyingLoops op replying
  | succ i ih => exact comesOn (ih (Nat.le_of_succ_le link)) fun m _ next => loopLeaves op next link

/-! A call up to its frame in the pools. -/

theorem decidesOften (op : Operation c state event) : Often fun m => TxTurns.Decides (event m) := by
  refine op.fair.decides fun l => ?_
  obtain ⟨m, later, select⟩ := comesToSelect op l
  obtain ⟨life, sim⟩ := op.sim m
  refine ⟨m, later, ?_⟩
  by_cases quiet : ∀ i < c.links, (state m).enabled i = true → ((state m).clients i).commands = false
  · exact ⟨.default, .inl rfl, by simp [Enabled, step, select, if_pos quiet]⟩
  · push Not at quiet
    obtain ⟨i, link, on, commands⟩ := quiet
    cases client : (state m).clients i with
    | calling n =>
      obtain ⟨r, known, -⟩ := sim.links i n (by rw [client]; rfl)
      exact ⟨.accept i, .inr ⟨i, rfl⟩, by simp [Enabled, step, select, client, link, on, known]⟩
    | _ => rw [client] at commands; exact absurd rfl commands

theorem comesToTransfer (op : Operation c state event) (link : i < c.links) (calling : (state a).clients i = .calling n) :
    Comes state a fun s => s.clients i = .transferring n := by
  obtain ⟨k, accept, before, -⟩ := TxTurns.takenInTurn c state event op.execution (decidesOften op) i n a link calling
  have still : (state (a + k)).clients i = .calling n :=
    TxTurns.waitedFor op.execution calling k before (a + k) (Nat.le_add_right a k) (Nat.le_refl _)
  have taken := op.execution.next (a + k)
  rw [accept] at taken
  obtain ⟨m, r, -, client, -, -, -, next⟩ := acceptMoves taken
  rw [still] at client
  cases client
  exact ⟨a + k + 1, by omega, by rw [next]; exact setSame ..⟩

theorem foundSame (same : working t = working s) {hp : Bool} (found : Found c s hp) : Found c t hp := by
  intro q below
  have phase : (t.pools q hp).phase = (s.pools q hp).phase := congrFun (congrFun (congrArg (fun w => w.2.2) same) q) hp
  rw [reservedBuf, phase]
  exact found q below

/- A client whose command has been taken is asked for again and again, and gets its buffers at last. -/
theorem comesToCommit (op : Operation c state event) (transferring : (state a).clients i = .transferring n) :
    Comes state a fun s => s.server = .committing i n 0 := by
  by_contra never
  have never : ∀ m, a ≤ m → (state m).server ≠ .committing i n 0 := fun m later here => never ⟨m, later, here⟩
  have still : ∀ m, a ≤ m → (state m).clients i = .transferring n := by
    intro m later
    induction later with
    | refl => exact transferring
    | @step m later ih =>
      obtain ⟨life, sim⟩ := op.sim m
      exact (transferringKept sim ih (op.execution.next m)).resolve_right (never (m + 1) (Nat.le_succ_of_le later))
  obtain ⟨link, -⟩ := (op.ready a).taken i n transferring
  have asks : Often fun m => (state m).server = .reserving i c.ports := by
    intro l
    obtain ⟨m, later, loop⟩ := comesToLoop op (Nat.le_of_lt link) (max a l)
    obtain ⟨m', y, later', same, goes, next, -⟩ := serverTurn op loop (by simp)
    have asked : Comes state (m' + 1) fun s => s.server = .reserving i c.ports := by
      cases goes with
      | listen last => exact absurd link last
      | skip _ none =>
        obtain ⟨-, r, -, pending⟩ := (op.ready m').taken i n (still m' (by omega))
        rw [none] at pending
        cases pending
      | ask => exact reservingAsks op next
    exact comesLater (by omega) asked
  obtain ⟨m, later, asking, cmd, pending, found⟩ := op.fair.room i link asks a
  obtain ⟨m', y, later', same, goes, next, -⟩ := serverTurn op asking (by simp)
  cases goes with
  | reserve port => exact absurd port (Nat.lt_irrefl _)
  | begin last client =>
    rw [still m' (by omega)] at client
    cases client
    obtain ⟨l, after, commits⟩ := transferLeaves op next
    exact never l (by omega) commits
  | refuse last pending' refused =>
    have pendings : (state m').pendingCmd i = (state m).pendingCmd i := congrFun (congrArg (fun w => w.2.1) same) i
    rw [pendings, pending] at pending'
    cases pending'
    exact refused (foundSame same found)

theorem begunLater (op : Operation c state event) {r : Request} (known : (state a).calls[n]? = some r)
    (begun : phaseIn (state a) n ≠ .before) {m : Nat} (later : a ≤ m) : phaseIn (state m) n ≠ .before := by
  induction later with
  | refl => exact begun
  | @step m later ih =>
    obtain ⟨life, sim⟩ := op.sim m
    exact begunKept sim (knownLater op known later) ih (op.execution.next m)

theorem comesToBegin (op : Operation c state event) {r : Request} (known : (state a).calls[n]? = some r) :
    Comes state a fun s => phaseIn s n ≠ .before := by
  by_cases begun : phaseIn (state a) n = .before
  · have transferring : Comes state a fun s => s.clients r.link = .transferring n := by
      rw [phaseKnown known, phaseBefore] at begun
      rcases begun with calling | transferring
      · exact comesToTransfer op ((op.ready a).fits n r known).link calling
      · exact ⟨a, Nat.le_refl a, transferring⟩
    refine comesOn (comesOn transferring fun m _ here => comesToCommit op here) fun m _ server => ⟨m, Nat.le_refl m, fun before => ?_⟩
    obtain ⟨life, sim⟩ := op.sim m
    have loading := sim.loading
    simp only [Loading, server] at loading
    obtain ⟨r', known', -⟩ := loading
    have none := (sim.courses n r' known').2.before before
    have some : nextOf (state m).server n = some 0 := by
      rw [server]
      exact if_pos rfl
    exact absurd (some.symm.trans none) (by simp)
  · exact ⟨a, Nat.le_refl a, begun⟩

/- At the next select the frame is in a queue of each port that it goes to, or it has gone from there. -/
theorem comesToQueues (op : Operation c state event) {r : Request} (known : (state a).calls[n]? = some r) :
    Comes state a fun s => ∀ p < c.ports, r.goesTo p = true → n ∈ line s p r.hp ∨ (p, n) ∈ s.freed := by
  refine comesOn (comesToBegin op known) fun b later begun => ?_
  refine comesOn (comesToSelect op b) fun m later' select => ⟨m, Nat.le_refl m, fun p port goes => ?_⟩
  obtain ⟨life, sim⟩ := op.sim m
  have known' := knownLater op known (Nat.le_trans later later')
  have place := (sim.courses n r known').2.ports p
  have present : life n p ≠ .absent := by
    intro absent
    rcases place.absent.mp absent with elsewhere | before | ⟨q, -, next⟩
    · exact elsewhere ⟨port, goes⟩
    · exact begunLater op (knownLater op known later) begun later' before
    · simp only [courseOf, select, nextOf] at next
      cases next
  by_cases gone : life n p = .gone
  · have one : (freedOf (state m) n).count p = 1 := place.freed.trans (if_pos gone)
    obtain ⟨x, member, same⟩ := List.mem_map.mp (List.count_pos_iff.mp (show 0 < (freedOf (state m) n).count p by omega))
    obtain ⟨inside, call⟩ := List.mem_filter.mp member
    refine .inr ?_
    rw [← same, ← of_decide_eq_true call]
    exact inside
  · obtain ⟨k, member, owned⟩ := queueOf sim known' present gone
    exact .inl (List.mem_map.mpr ⟨k, member, owned⟩)

end rounds

end ScEthernet.Full.TxProgress
