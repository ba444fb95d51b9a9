import Mathlib.Algebra.Order.BigOperators.Group.Finset
import ScEthernet.Full.TxMoves
import ScEthernet.Lib.Fairness

/-! The turns of the clients. A client whose command is in its channel is passed over at most twice by each of the others,
since ethernet_tx_server listens again to a client that it has served only after a select in which nobody it listened to
had a command. -/
namespace ScEthernet.Full.TxTurns
open Lib.Runs Lib.Fairness Malloc TxServer TxTransfer TxMoves

def transfers : Client → Bool
  | .transferring _ => true
  | _ => false

def commits : Server → Nat → Bool
  | .committing j _ _, i => decide (j = i)
  | _, _ => false

/- The next command of client `i` is taken if there is one: it is enabled, and not because its frame is still on the way. -/
def listens (s : State) (i : Nat) : Bool := s.enabled i && !transfers (s.clients i) && !commits s.server i

def Calling (w n : Nat) (s : State) : Prop := s.clients w = .calling n

def takes (j : Nat) : Event → Nat
  | .accept i => if i = j then 1 else 0
  | _ => 0

def renews : Event → Nat
  | .default => 1
  | _ => 0

def turns (s : State) (j : Nat) : Nat := (listens s j).toNat
def renewals (s : State) (w : Nat) : Nat := (!listens s w).toNat

section
variable {c : Config} {s t : State} {e : Event} {w j n p : Nat} {hp : Bool}

theorem listensKept {i : Nat} (enabled : t.enabled = s.enabled) (clients : transfers (t.clients i) = transfers (s.clients i))
    (server : commits t.server i = commits s.server i) : listens t i = listens s i := by
  rw [listens, listens, enabled, clients, server]

structure Served (s t : State) : Prop where
  listens : ∀ i, listens t i = listens s i
  calling : ∀ i n, s.clients i = .calling n → t.clients i = .calling n

theorem servedSame (enabled : t.enabled = s.enabled) (clients : t.clients = s.clients)
    (server : ∀ i, commits t.server i = commits s.server i) : Served s t where
  listens i := listensKept enabled (by rw [clients]) (server i)
  calling i n calling := by rwa [clients]

theorem serverServed (taken : serverStep c s = some t) : Served s t := by
  cases serverMoves taken with
  | loop server link =>
    refine servedSame rfl rfl fun i => ?_
    rw [server]
    dsimp only
    split <;> rfl
  | listen server | reserve server | begin server | abandon server | word server | commit server | pass server | silent server
  | pop server | back server | stray server | free server | count server =>
    exact servedSame rfl rfl fun i => by rw [server]; rfl
  | @transferred k n j m r server client =>
    refine ⟨fun i => ?_, fun i m calling => ?_⟩
    · by_cases same : i = k
      · subst same
        simp [listens, client, transfers, commits]
      · simp only [listens, server, commits, setOther same, decide_eq_false (Ne.symm same)]
    · have other : i ≠ k := by
        rintro rfl
        rw [client] at calling
        cases calling
      exact (setOther other _).trans calling
  | @served k n p server =>
    refine ⟨fun i => ?_, fun i m calling => calling⟩
    by_cases same : i = k
    · subst same
      simp [listens, server, commits, setSame]
    · simp only [listens, server, commits, setOther same, decide_eq_false (Ne.symm same)]
  | @reply p hp buf m replies server waiting =>
    refine ⟨fun i => listensKept rfl ?_ (by rw [server]; rfl), fun i n calling => ?_⟩
    · by_cases same : i = (miiPacketGetTimestampId (s.pools p hp).pool buf - 1).toNat
      · rw [same, waiting]
        simp only [setSame]
        rfl
      · simp only [setOther same]
    · have other : i ≠ (miiPacketGetTimestampId (s.pools p hp).pool buf - 1).toNat := by
        rintro rfl
        rw [waiting] at calling
        cases calling
      exact (setOther other _).trans calling

structure Apart (p : Nat) (s t : State) : Prop where
  enabled : t.enabled = s.enabled
  clients : t.clients = s.clients
  server : t.server = s.server
  calls : t.calls = s.calls
  sent : (∃ hp buf, s.pins p = .chosen hp buf) ∨ t.transmissions = s.transmissions

theorem pinsApart {held : Bool} {time : Int} (taken : pinsStep c s p held time = some t) : Apart p s t := by
  cases pinsMove taken with
  | transmit pins => exact ⟨rfl, rfl, rfl, rfl, .inl ⟨_, _, pins⟩⟩
  | _ => exact ⟨rfl, rfl, rfl, rfl, .inr rfl⟩

theorem stepListens (taken : step c s e = some t) (notAccept : ∀ i, e ≠ .accept i) (notDefault : e ≠ .default) (i : Nat) :
    listens t i = listens s i := by
  cases e with
  | call r =>
    obtain ⟨idle, -, rfl⟩ := callMoves taken
    refine listensKept rfl ?_ rfl
    by_cases same : i = r.link
    · rw [same, idle]
      simp only [setSame]
      rfl
    · simp only [setOther same]
  | accept i => exact absurd rfl (notAccept i)
  | command i =>
    obtain ⟨server, rfl⟩ := commandMoves taken
    exact listensKept rfl rfl (by rw [server]; rfl)
  | timer =>
    obtain ⟨server, rfl⟩ := timerMoves taken
    exact listensKept rfl rfl (by rw [server]; rfl)
  | default => exact absurd rfl notDefault
  | server => exact (serverServed taken).listens i
  | pins p held time =>
    obtain ⟨enabled, clients, server, -, -⟩ := pinsApart (pinsMoves taken).2
    exact listensKept enabled (by rw [clients]) (by rw [server])

theorem acceptListens {k : Nat} (taken : step c s (.accept k) = some t) :
    listens s k = true ∧ listens t k = false ∧ (∃ n, t.clients k = .transferring n) ∧ ∀ i, i ≠ k → listens t i = listens s i := by
  obtain ⟨n, r, server, client, -, on, -, rfl⟩ := acceptMoves taken
  refine ⟨?_, ?_, ⟨n, setSame ..⟩, fun i other => ?_⟩
  · simp [listens, on, client, server, transfers, commits]
  · simp [listens, setSame, transfers]
  · exact listensKept rfl (by simp only [setOther other]) (by rw [server]; rfl)

theorem defaultListens (taken : step c s .default = some t) (below : w < c.links) (calling : s.clients w = .calling n) :
    listens s w = false ∧ listens t w = true := by
  obtain ⟨server, quiet, rfl⟩ := defaultMoves taken
  have off : s.enabled w = false := by
    by_contra on
    have := quiet w below (Bool.eq_true_of_not_eq_false on)
    rw [calling] at this
    cases this
  refine ⟨?_, ?_⟩
  · simp [listens, off]
  · simp [listens, calling, transfers, commits]

/- Every command the server takes from client `j`, and every default, is paid for. -/
theorem turnPaid (below : w < c.links) (calling : Calling w n s) (calling' : Calling w n t) (taken : step c s e = some t)
    (j : Nat) :
    turns t j + renewals t w + takes j e ≤ turns s j + renewals s w := by
  have few : ∀ b : Bool, b.toNat ≤ 1 := by decide
  by_cases accepts : ∃ k, e = .accept k
  · obtain ⟨k, rfl⟩ := accepts
    obtain ⟨before, after, ⟨m, transferring⟩, others⟩ := acceptListens taken
    have away : w ≠ k := by
      rintro rfl
      rw [Calling, transferring] at calling'
      cases calling'
    rw [renewals, renewals, others w away, turns, turns, takes]
    by_cases same : k = j
    · subst same
      simp only [before, after, if_true, Bool.toNat_true, Bool.toNat_false]
      omega
    · rw [others j (Ne.symm same), if_neg same]
      exact Nat.le_refl _
  · simp only [not_exists] at accepts
    by_cases default : e = .default
    · subst default
      obtain ⟨before, after⟩ := defaultListens taken below calling
      have := few (listens t j)
      simp only [turns, renewals, before, after, takes, Bool.not_true, Bool.not_false, Bool.toNat_true, Bool.toNat_false]
      omega
    · have same := stepListens taken accepts default
      have free : takes j e = 0 := by
        cases e with
        | accept k => exact absurd rfl (accepts k)
        | _ => rfl
      rw [turns, turns, renewals, renewals, same, same, free]
      exact Nat.le_refl _

theorem renewalPaid (below : w < c.links) (calling : Calling w n s) (calling' : Calling w n t) (taken : step c s e = some t) :
    renewals t w + renews e ≤ renewals s w := by
  by_cases accepts : ∃ k, e = .accept k
  · obtain ⟨k, rfl⟩ := accepts
    obtain ⟨-, -, ⟨m, transferring⟩, others⟩ := acceptListens taken
    have away : w ≠ k := by
      rintro rfl
      rw [Calling, transferring] at calling'
      cases calling'
    rw [renewals, renewals, others w away]
    exact Nat.le_refl _
  · simp only [not_exists] at accepts
    by_cases default : e = .default
    · subst default
      obtain ⟨before, after⟩ := defaultListens taken below calling
      simp [renewals, before, after, renews]
    · have same := stepListens taken accepts default
      have free : renews e = 0 := by
        cases e with
        | default => exact absurd rfl default
        | _ => rfl
      rw [renewals, renewals, same, free]
      exact Nat.le_refl _

theorem callingKept (calling : Calling w n s) (taken : step c s e = some t) (untaken : e ≠ .accept w) : Calling w n t := by
  cases e with
  | call r =>
    obtain ⟨idle, -, rfl⟩ := callMoves taken
    have other : w ≠ r.link := by
      rintro rfl
      rw [Calling, idle] at calling
      cases calling
    exact (setOther other _).trans calling
  | accept i =>
    have other : w ≠ i := fun same => untaken (by rw [same])
    obtain ⟨m, r, -, -, -, -, -, rfl⟩ := acceptMoves taken
    exact (setOther other _).trans calling
  | command i =>
    obtain ⟨-, rfl⟩ := commandMoves taken
    exact calling
  | timer =>
    obtain ⟨-, rfl⟩ := timerMoves taken
    exact calling
  | default =>
    obtain ⟨-, -, rfl⟩ := defaultMoves taken
    exact calling
  | server => exact (serverServed taken).calling w n calling
  | pins p held time =>
    rw [Calling, (pinsApart (pinsMoves taken).2).clients]
    exact calling

end

section executions
variable {c : Config} {state : Nat → State} {event : Nat → Event} {w n : Nat}

def count (cost : Event → Nat) (event : Nat → Event) (a k : Nat) : Nat := ∑ i ∈ Finset.range k, cost (event (a + i))

theorem waitedFor (execution : Execution (step c) state event) {a : Nat} (calling : Calling w n (state a)) (k : Nat)
    (untaken : ∀ m, a ≤ m → m < a + k → event m ≠ .accept w) : ∀ m, a ≤ m → m ≤ a + k → Calling w n (state m) := by
  intro m later
  induction later with
  | refl => exact fun _ => calling
  | @step m later ih =>
    intro sooner
    exact callingKept (ih (by omega)) (execution.next m) (untaken m later (by omega))

theorem passedOver (execution : Execution (step c) state event) (below : w < c.links) {a : Nat}
    (calling : Calling w n (state a)) (k : Nat)
    (untaken : ∀ m, a ≤ m → m < a + k → event m ≠ .accept w) :
    (∀ j, count (takes j) event a k ≤ 2) ∧ count renews event a k ≤ 1 := by
  have lasts := waitedFor execution calling k untaken
  have few : ∀ b : Bool, b.toNat ≤ 1 := by decide
  have one : renewals (state a) w ≤ 1 := few _
  refine ⟨fun j => ?_, ?_⟩
  · have paid := paidFor (fun s => turns s j + renewals s w) (takes j) execution
      (fun s e t here taken there => turnPaid below here there taken j) k lasts
    have another : turns (state a) j ≤ 1 := few _
    unfold count
    omega
  · have paid := paidFor (fun s => renewals s w) renews execution
      (fun s e t here taken there => renewalPaid below here there taken) k lasts
    unfold count
    omega

/- Each turn that is left weighs one, and a default as many as it can give. -/
def worth (c : Config) (w : Nat) (s : State) : Nat := renewals s w * (c.links + 1) + ∑ j ∈ Finset.range c.links, turns s j

def Decides (e : Event) : Prop := e = .default ∨ ∃ i, e = .accept i

theorem turnsLe (s : State) (c : Config) : ∑ j ∈ Finset.range c.links, turns s j ≤ c.links := by
  have each : ∀ j ∈ Finset.range c.links, turns s j ≤ 1 := by
    intro j _
    unfold turns
    cases listens s j <;> decide
  have bound := Finset.sum_le_card_nsmul _ _ 1 each
  simpa using bound

theorem acceptBelow {s t : State} {i : Nat} (taken : step c s (.accept i) = some t) : i < c.links := by
  obtain ⟨-, -, -, -, below, -⟩ := acceptMoves taken
  exact below

theorem worthDrops {s t : State} {e : Event} (below : w < c.links) (calling : Calling w n s) (calling' : Calling w n t)
    (taken : step c s e = some t) (decides : Decides e) : worth c w t < worth c w s := by
  rcases decides with rfl | ⟨k, rfl⟩
  · obtain ⟨before, after⟩ := defaultListens taken below calling
    have bound := turnsLe t c
    simp only [worth, renewals, before, after, Bool.not_true, Bool.not_false, Bool.toNat_true, Bool.toNat_false]
    omega
  · obtain ⟨before, after, ⟨m, transferring⟩, others⟩ := acceptListens taken
    have away : w ≠ k := by
      rintro rfl
      rw [Calling, transferring] at calling'
      cases calling'
    have fewer : ∑ j ∈ Finset.range c.links, turns t j < ∑ j ∈ Finset.range c.links, turns s j := by
      refine Finset.sum_lt_sum (fun j _ => ?_) ⟨k, Finset.mem_range.mpr (acceptBelow taken), ?_⟩
      · by_cases same : j = k
        · subst same
          simp [turns, before, after]
        · rw [turns, turns, others j same]
      · simp [turns, before, after]
    rw [worth, worth, renewals, renewals, others w away]
    omega

theorem worthKept {s t : State} {e : Event} (below : w < c.links) (calling : Calling w n s) (calling' : Calling w n t)
    (taken : step c s e = some t) : worth c w t ≤ worth c w s := by
  by_cases decides : Decides e
  · exact Nat.le_of_lt (worthDrops below calling calling' taken decides)
  · have same := stepListens taken (fun i accept => decides (.inr ⟨i, accept⟩)) (fun default => decides (.inl default))
    simp only [worth, renewals, turns, same]
    exact Nat.le_refl _

theorem acceptedAtLast (execution : Execution (step c) state event) (below : w < c.links)
    (decides : ∀ n, ∃ m, n ≤ m ∧ Decides (event m)) {a : Nat} (calling : Calling w n (state a)) :
    ∃ k, event (a + k) = .accept w := by
  induction left : worth c w (state a) using Nat.strong_induction_on generalizing a with
  | _ left' ih =>
    subst left
    obtain ⟨m, later, now⟩ := decides a
    obtain ⟨d, rfl⟩ := Nat.exists_eq_add_of_le later
    by_contra never
    simp only [not_exists] at never
    have lasts := waitedFor execution calling (d + 1) fun m after _ => by
      obtain ⟨k, rfl⟩ := Nat.exists_eq_add_of_le after
      exact never k
    have kept := paidFor (worth c w) (fun _ => 0) execution
      (fun s e t here taken there => worthKept below here there taken) d fun m after before => lasts m after (by omega)
    have drop := worthDrops below (lasts (a + d) (by omega) (by omega)) (lasts (a + d + 1) (by omega) (by omega))
      (execution.next (a + d)) now
    obtain ⟨k, accepted⟩ := ih _ (by omega) (lasts (a + d + 1) (by omega) (by omega)) rfl
    exact never (d + 1 + k) (by rwa [← Nat.add_assoc, ← Nat.add_assoc])

/-- In every execution in which the server goes on taking commands or finding none, each command is taken, and before it
at most two of every other client and after at most one select without a command. -/
theorem takenInTurn (c : Config) (state : Nat → State) (event : Nat → Event) (execution : Execution (step c) state event)
    (decides : ∀ n, ∃ m, n ≤ m ∧ Decides (event m)) (w n a : Nat) (below : w < c.links)
    (calling : (state a).clients w = .calling n) :
    ∃ k, event (a + k) = .accept w ∧ (∀ m, a ≤ m → m < a + k → event m ≠ .accept w) ∧
      (∀ j, count (takes j) event a k ≤ 2) ∧ count renews event a k ≤ 1 := by
  classical
  have some := acceptedAtLast execution below decides calling
  have before : ∀ m, a ≤ m → m < a + Nat.find some → event m ≠ .accept w := by
    intro m later sooner
    obtain ⟨d, rfl⟩ := Nat.exists_eq_add_of_le later
    exact Nat.find_min some (by omega)
  exact ⟨Nat.find some, Nat.find_spec some, before, passedOver execution below calling _ before⟩

end executions

/- One client and one port, and the server goes round with nothing to do. -/
def alone : Config := ⟨1, 1, false, false⟩
def round (n : Nat) : Server :=
  match n % 5 with
  | 0 => .replying 0
  | 1 => .replying 1
  | 2 => .loop 0
  | 3 => .loop 1
  | _ => .select
def rounds (s : State) (n : Nat) : State := { s with enabled := fun _ => true, server := round n }
def roundEvent (n : Nat) : Event := if n % 5 = 4 then .default else .server

theorem roundsNext {s : State} (silent : (s.tsQueue 0).rd = (s.tsQueue 0).wr) (none : s.pendingCmd 0 = none)
    (quiet : (s.clients 0).commands = false) : Execution (step alone) (rounds s) roundEvent where
  next n := by
    have later : (n + 1) % 5 = if n % 5 = 4 then 0 else n % 5 + 1 := by split <;> omega
    have cases : n % 5 = 0 ∨ n % 5 = 1 ∨ n % 5 = 2 ∨ n % 5 = 3 ∨ n % 5 = 4 := by omega
    rcases cases with at_ | at_ | at_ | at_ | at_ <;> rw [at_] at later
    · simp [rounds, round, roundEvent, at_, later, step, serverStep, alone, silent]
    · simp [rounds, round, roundEvent, at_, later, step, serverStep, alone]
    · simp [rounds, round, roundEvent, at_, later, step, serverStep, alone, none]
    · simp [rounds, round, roundEvent, at_, later, step, serverStep, alone]
    · simp [rounds, round, roundEvent, at_, later, step, alone, quiet]

/- A client has called, and its frame is taken and stored. -/
def called : List Event := [.server, .server, .call ⟨0, .req, 60, 0, List.replicate 15 0⟩]
def taken : List Event := .accept 0 :: List.replicate 24 .server

theorem takenInTurnAlone : ∃ state event, Execution (step alone) state event ∧
    run (step alone) (initial (fun _ _ _ => 0) (fun _ _ => 0) (fun _ => 600)) called = some (state 0) ∧
    (state 0).clients 0 = .calling 0 ∧ ∃ k, event (0 + k) = .accept 0 ∧ count renews event 0 k ≤ 1 := by
  have ends : (run (step alone) (initial (fun _ _ _ => 0) (fun _ _ => 0) (fun _ => 600)) called).any (fun s =>
      decide (s.clients 0 = .calling 0) && (run (step alone) s taken).any (fun u => decide
      (u.server = .select ∧ (u.tsQueue 0).rd = (u.tsQueue 0).wr ∧ (u.pendingCmd 0).isNone ∧ u.clients 0 = .idle))) = true := by
    decide +kernel
  obtain ⟨s, first, both⟩ := (Option.any_eq_true ..).mp ends
  obtain ⟨calling, rest⟩ := Bool.and_eq_true_iff.mp both
  obtain ⟨u, reached, holds⟩ := (Option.any_eq_true ..).mp rest
  obtain ⟨server, silent, none, client⟩ := of_decide_eq_true holds
  have before : run (step alone) s (taken ++ [.default]) = some (rounds u 0) := by
    have last : step alone u .default = some (rounds u 0) := by
      simp [step, server, rounds, round, alone, client, Client.commands]
    rw [runAppend, reached, Option.bind_some, run, last]
    rfl
  obtain ⟨state, event, start, execution, same, -⟩ := executionPrepend before
    (roundsNext silent (Option.isNone_iff_eq_none.mp none) (by rw [client]; rfl))
  have decides : ∀ n, ∃ m, n ≤ m ∧ Decides (event m) := by
    intro n
    refine ⟨26 + (5 * n + 4), by omega, .inl ?_⟩
    refine (same (5 * n + 4)).2.trans ?_
    simp [roundEvent]
  rw [← start] at calling first
  obtain ⟨k, accepted, -, -, few⟩ := takenInTurn alone state event execution decides 0 0 0 (by decide) (of_decide_eq_true calling)
  exact ⟨state, event, execution, first, of_decide_eq_true calling, k, accepted, few⟩

end ScEthernet.Full.TxTurns
