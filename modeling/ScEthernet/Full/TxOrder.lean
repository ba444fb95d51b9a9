import ScEthernet.Full.TxRuns
import ScEthernet.Full.Transmit
import ScEthernet.Full.TxTurns

/-! The order of the frames. In each queue of a port the frames of one client go out in the order of its calls, none of
them is left out or comes twice, and what is on the wire are these frames. -/
namespace ScEthernet.Full.TxOrder
open Lib.CircularFifo Lib.Runs Malloc PoolQueue TxTransfer TxServer TxPackets TxPort TxSim TxServerSteps TxPinsSteps
open TxMoves
open TxRuns (stepKeeps simInitial)
open TxCourse (Life)
open Lib.BitOrder Wire

/- The calls whose frames are in a pool, the oldest first. -/
def line (s : State) (p : Nat) (hp : Bool) : List Nat := (s.pools p hp).queue.map fun k => s.owner p hp k.buf

inductive Effect (c : Config) (s : State) : State → Prop
  | none {t} (lines : ∀ p hp, line t p hp = line s p hp) (sent : t.transmissions = s.transmissions) : Effect c s t
  | commit {t i n p r} (server : s.server = .committing i n p) (known : s.calls[n]? = some r) (port : p < c.ports)
      (goes : r.goesTo p = true) (here : line t p r.hp = line s p r.hp ++ [n])
      (there : ∀ q h, ¬ (q = p ∧ h = r.hp) → line t q h = line s q h) (sent : t.transmissions = s.transmissions)
      (calls : t.calls = s.calls) : Effect c s t
  | transmit {t p hp n rest data time} (front : line s p hp = n :: rest) (lines : ∀ p hp, line t p hp = line s p hp)
      (sent : t.transmissions = s.transmissions ++ [⟨p, n, data, time⟩]) (calls : t.calls = s.calls) : Effect c s t
  | free {t p hp n rest} (front : line s p hp = n :: rest) (here : line t p hp = rest)
      (there : ∀ q h, ¬ (q = p ∧ h = hp) → line t q h = line s q h) (sent : t.transmissions = s.transmissions)
      (freed : t.freed = s.freed ++ [(p, n)]) (calls : t.calls = s.calls) : Effect c s t

def transmittedAt (s : State) (p n : Nat) : Bool := s.transmissions.any fun x => decide (x.port = p ∧ x.call = n)

def sentCalls (s : State) (p : Nat) (hp : Bool) : List Nat :=
  (s.transmissions.filter fun x => decide (x.port = p) && (s.calls[x.call]?).any fun r => r.hp == hp).map Transmission.call
def waitingCalls (s : State) (p : Nat) (hp : Bool) : List Nat := (line s p hp).filter fun n => !transmittedAt s p n
def order (s : State) (p : Nat) (hp : Bool) : List Nat := sentCalls s p hp ++ waitingCalls s p hp

section effect
variable {c : Config} {s t : State} {life : Nat → Nat → Life} {p n : Nat} {hp : Bool} {buf : Int}

theorem lineSame (pools : ∀ p hp, (t.pools p hp).queue = (s.pools p hp).queue) (owner : t.owner = s.owner) (p : Nat) (hp : Bool) :
    line t p hp = line s p hp := by
  rw [line, line, pools, owner]

theorem lineSet {f : Field} {x : Int} {u : TxPool.State} (step : TxPool.step c.forwards (s.pools p hp) (.set buf f x) = some u)
    (pools : t.pools = setPool s.pools p hp u) (owner : t.owner = s.owner) (q : Nat) (h : Bool) : line t q h = line s q h := by
  rw [line, line, pools, owner]
  by_cases here : q = p ∧ h = hp
  · obtain ⟨rfl, rfl⟩ := here
    rw [setPoolSame, (setQueue step).1, onBuf, List.map_map]
    refine List.map_congr_left fun k _ => ?_
    rw [Function.comp_apply]
    split <;> rfl
  · rw [setPoolOther here]

theorem lineFree (sim : Sim c s life) {k : Pkt} (head : (s.pools p hp).queue.head? = some k) {u : TxPool.State}
    (step : TxPool.step c.forwards (s.pools p hp) (.free k.buf) = some u) (pools : t.pools = setPool s.pools p hp u)
    (owner : t.owner = s.owner) (sent : t.transmissions = s.transmissions)
    (freed : t.freed = s.freed ++ [(p, s.owner p hp k.buf)]) (calls : t.calls = s.calls) : Effect c s t := by
  obtain ⟨rest, queue, left, -⟩ := headFree sim head step
  have front : line s p hp = s.owner p hp k.buf :: rest.map fun k => s.owner p hp k.buf := by
    rw [line, queue]
    rfl
  refine .free front ?_ (fun q h there => ?_) sent freed calls
  · rw [line, pools, owner, setPoolSame, left]
  · rw [line, line, pools, owner, setPoolOther there]

theorem effectEach (sim : Sim c s life) {e : TxPool.Event} (quiet : Quiet e) (each : Each c s hp e t.pools)
    (owner : t.owner = s.owner) (sent : t.transmissions = s.transmissions) : Effect c s t := by
  refine .none (lineSame (fun q h => (quietEach (c := c) sim.pools quiet (fun q h => ?_) q h).1) owner) sent
  by_cases here : q < c.ports ∧ h = hp
  · exact .inl ((each q h).1 here)
  · exact .inr ((each q h).2 here)

theorem effectOn (sim : Sim c s life) {e : TxPool.Event} (quiet : Quiet e) {u : TxPool.State}
    (step : TxPool.step c.forwards (s.pools p hp) e = some u) (pools : t.pools = setPool s.pools p hp u)
    (owner : t.owner = s.owner) (sent : t.transmissions = s.transmissions) : Effect c s t := by
  refine .none (lineSame (fun q h => ?_) owner) sent
  rw [pools]
  refine (quietEach (c := c) sim.pools quiet (fun q h => ?_) q h).1
  by_cases here : q = p ∧ h = hp
  · obtain ⟨rfl, rfl⟩ := here
    exact .inl (step.trans (congrArg some (setPoolSame _ _ _ u).symm))
  · exact .inr (setPoolOther here u)

theorem effectCommit {i : Nat} {r : Request} (server : s.server = .committing i n p)
    (known : s.calls[n]? = some r) (port : p < c.ports) (goes : r.goesTo p = true) {buf' dptr : Int} {id : Int}
    (phase : (s.pools p r.hp).phase = .storing buf' dptr r.length r.data) {u : TxPool.State} (inv : TxPool.Inv u)
    (step : TxPool.step c.forwards (s.pools p r.hp) (.commit id) = some u) (pools : t.pools = setPool s.pools p r.hp u)
    (owner : t.owner = setPool s.owner p r.hp
      (fun buf => if buf = reservedBuf (s.pools p r.hp) then n else s.owner p r.hp buf))
    (sent : t.transmissions = s.transmissions) (calls : t.calls = s.calls) : Effect c s t := by
  obtain ⟨buf, dptr', length, frame, phase', -, queue, -⟩ := commitQueue inv step
  rw [phase] at phase'
  cases phase'
  have bufs := queueBufs inv
  rw [queue, List.map_append, List.nodup_append] at bufs
  have reserved : reservedBuf (s.pools p r.hp) = buf' := by rw [reservedBuf, phase]
  refine .commit server known port goes ?_ (fun q h there => ?_) sent calls
  · rw [line, pools, owner, setPoolSame, setPoolSame, queue, List.map_append, reserved]
    congr 1
    · refine List.map_congr_left fun k' old => if_neg ?_
      exact bufs.2.2 _ (List.mem_map_of_mem old) _ (List.mem_singleton.mpr rfl)
    · simp
  · rw [line, line, pools, owner, setPoolOther there, setPoolOther there]

theorem serverEffect (sim : Sim c s life) (orderly : Orderly c s .server) (taken : serverStep c s = some t) : Effect c s t := by
  cases serverMoves taken with
  | loop | listen | transferred | served | silent | pop | back | reply | stray => exact .none (fun _ _ => rfl) rfl
  | reserve _ _ _ step => exact effectOn sim (e := .reserve) trivial step rfl rfl rfl
  | @begin _ _ _ _ r _ _ _ _ _ _ _ each => exact effectEach sim (e := .length r.length) trivial each rfl rfl
  | abandon _ _ _ _ each => exact effectEach sim (e := .abandon) trivial each rfl rfl
  | @word _ _ _ _ _ datum _ _ _ _ _ each => exact effectEach sim (e := .word datum) trivial each rfl rfl
  | @commit i n p r u server known port goes step =>
    have loading := sim.loading
    simp only [Loading, server] at loading
    obtain ⟨r', known', -, words⟩ := loading
    obtain rfl : r' = r := Option.some.inj (known'.symm.trans known)
    simp only [Orderly, server, known] at orderly
    have spare : TxPool.Spare (s.pools p r'.hp) (.commit (if r'.timed then (i : Int) + 1 else 0)) := orderly goes
    obtain ⟨buf, dptr, phase⟩ := words p (Nat.le_refl p) port
    exact effectCommit server known port goes phase (invKeeps (sim.pools p r'.hp) spare step) step rfl rfl rfl rfl
  | pass _ _ _ _ step => exact effectOn sim (e := .abandon) trivial step rfl rfl rfl
  | @free p hp buf u server _ step =>
    obtain ⟨k, r, stamped, -⟩ := releasedOf sim server
    obtain rfl := stamped.at_
    exact lineFree sim stamped.head step rfl rfl rfl rfl rfl
  | count server count =>
    obtain ⟨k, r, -, none⟩ := releasedOf sim server
    exact absurd none count

theorem pinsEffect (sim : Sim c s life) {held : Bool} {time : Int} (taken : pinsStep c s p held time = some t) :
    Effect c s t := by
  cases pins : s.pins p with
  | top =>
    simp only [pinsStep, pins] at taken
    cases taken
    exact .none (fun _ _ => rfl) rfl
  | low =>
    simp only [pinsStep, pins] at taken
    cases taken
    exact .none (fun _ _ => rfl) rfl
  | looked hp buf =>
    simp only [pinsStep, pins] at taken
    split at taken <;> cases taken <;> exact .none (fun _ _ => rfl) rfl
  | chosen hp buf =>
    obtain ⟨k, r, head, rfl, packet⟩ := heldPacket sim (show holds (s.pins p) = some (hp, buf) by rw [pins]; rfl)
    obtain ⟨rest, queue⟩ := List.head?_eq_some_iff.mp head
    simp only [pinsStep, pins] at taken
    obtain ⟨m, stamped, last⟩ := Option.bind_eq_some_iff.mp taken
    cases last
    obtain ⟨u, step, rfl⟩ := onPoolStep stamped
    have front : line s p hp = s.owner p hp k.buf :: rest.map fun k => s.owner p hp k.buf := by
      rw [line, queue]
      rfl
    exact .transmit front (lineSet step rfl rfl) rfl rfl
  | transmitted hp buf =>
    simp only [pinsStep, pins] at taken
    split at taken
    · obtain ⟨m, cleared, last⟩ := Option.bind_eq_some_iff.mp taken
      cases last
      obtain ⟨u, step, rfl⟩ := onPoolStep cleared
      exact .none (lineSet step rfl rfl) rfl
    · cases taken
      exact .none (fun _ _ => rfl) rfl
  | cleared hp buf =>
    obtain ⟨k, r, head, rfl, packet⟩ := heldPacket sim (show holds (s.pins p) = some (hp, buf) by rw [pins]; rfl)
    have count : miiPacketGetTcount (s.pools p hp).pool k.buf = 0 := by
      rw [miiPacketGetTcount, getterOf sim head, packet.tcount]
    simp only [pinsStep, pins, count, ne_eq, not_true_eq_false, if_false] at taken
    split at taken
    · cases taken
      exact .none (fun _ _ => rfl) rfl
    · obtain ⟨m, freed, last⟩ := Option.bind_eq_some_iff.mp taken
      cases last
      obtain ⟨u, step, rfl⟩ := onPoolStep freed
      exact lineFree sim head step rfl rfl rfl rfl rfl
  | timed hp buf =>
    simp only [pinsStep, pins] at taken
    obtain ⟨m, moved, last⟩ := Option.bind_eq_some_iff.mp taken
    cases last
    obtain ⟨u, step, rfl⟩ := onPoolStep moved
    exact .none (lineSet step rfl rfl) rfl
  | staged hp buf =>
    simp only [pinsStep, pins] at taken
    cases taken
    exact .none (fun _ _ => rfl) rfl

theorem stepEffect (sim : Sim c s life) {e : Event} (orderly : Orderly c s e) (taken : step c s e = some t) : Effect c s t := by
  cases e with
  | call r =>
    obtain ⟨-, -, rfl⟩ := callMoves taken
    exact .none (fun _ _ => rfl) rfl
  | accept i =>
    obtain ⟨n, r, -, -, -, -, -, rfl⟩ := acceptMoves taken
    exact .none (fun _ _ => rfl) rfl
  | command i =>
    obtain ⟨-, rfl⟩ := commandMoves taken
    exact .none (fun _ _ => rfl) rfl
  | timer =>
    obtain ⟨-, rfl⟩ := timerMoves taken
    exact .none (fun _ _ => rfl) rfl
  | default =>
    obtain ⟨-, -, rfl⟩ := defaultMoves taken
    exact .none (fun _ _ => rfl) rfl
  | server => exact serverEffect sim orderly taken
  | pins p held time => exact pinsEffect sim (pinsMoves taken).2

end effect

section order
variable {c : Config} {s t : State} {life : Nat → Nat → Life} {p q n : Nat} {hp h : Bool} {r : Request}

theorem memLine (sim : Sim c s life) (member : n ∈ line s p hp) :
    ∃ r, s.calls[n]? = some r ∧ r.hp = hp ∧ life n p ≠ .absent ∧ life n p ≠ .gone := by
  obtain ⟨k, inside, rfl⟩ := List.mem_map.mp member
  obtain ⟨r, packet⟩ := (sim.ports p).queues.packets hp k inside
  have lives := (sim.ports p).lives hp k inside
  refine ⟨r, packet.known, packet.hp, ?_, ?_⟩
  · rw [lives]
    exact statusPresent hp k
  · rw [lives]
    unfold status
    split
    · simp
    · split <;> simp

theorem lineNodup (sim : Sim c s life) (p : Nat) (hp : Bool) : (line s p hp).Nodup := by
  have ok := (sim.ports p).queues
  refine List.Nodup.map_on (fun k member k' member' same => ?_) (List.Nodup.of_map _ (ok.bufs hp))
  exact List.inj_on_of_nodup_map (ok.bufs hp) member member' (ok.owners hp k member k' member' same)

theorem transmittedPast (sim : Sim c s life) (known : s.calls[n]? = some r) : transmittedAt s p n = (life n p).past := by
  have sent : (sentOf s n).countP (fun x => decide (x.port = p)) = if (life n p).past then 1 else 0 :=
    ((sim.courses n r known).2.ports p).sent
  have some : transmittedAt s p n = true ↔ 0 < (sentOf s n).countP (fun x => decide (x.port = p)) := by
    rw [List.countP_pos_iff, transmittedAt, List.any_eq_true]
    constructor
    · rintro ⟨x, member, same⟩
      obtain ⟨port, call⟩ := of_decide_eq_true same
      exact ⟨x, List.mem_filter.mpr ⟨member, decide_eq_true call⟩, decide_eq_true port⟩
    · rintro ⟨x, member, port⟩
      obtain ⟨inside, call⟩ := List.mem_filter.mp member
      exact ⟨x, inside, decide_eq_true ⟨of_decide_eq_true port, of_decide_eq_true call⟩⟩
  rw [Bool.eq_iff_iff, some, sent]
  split <;> simp_all

theorem transmittedKnown (sim : Sim c s life) (sent : transmittedAt s p n = true) : ∃ r, s.calls[n]? = some r := by
  obtain ⟨x, member, same⟩ := List.any_eq_true.mp sent
  obtain ⟨r, known, -⟩ := (simSound sim).transmissions x member
  rw [← (of_decide_eq_true same).2]
  exact ⟨r, known⟩

theorem memSentCalls : n ∈ sentCalls s p hp ↔ transmittedAt s p n = true ∧ (s.calls[n]?).any (fun r => r.hp == hp) = true := by
  unfold sentCalls transmittedAt
  simp only [List.mem_map, List.mem_filter, List.any_eq_true, Bool.and_eq_true, decide_eq_true_eq]
  constructor
  · rintro ⟨x, ⟨member, port, queue⟩, rfl⟩
    exact ⟨⟨x, member, port, rfl⟩, queue⟩
  · rintro ⟨⟨x, member, port, rfl⟩, queue⟩
    exact ⟨x, ⟨member, port, queue⟩, rfl⟩

theorem memOrder (sim : Sim c s life) (known : s.calls[n]? = some r) : n ∈ order s p hp ↔ r.hp = hp ∧ life n p ≠ .absent := by
  have past := transmittedPast (p := p) sim known
  rw [order, List.mem_append, memSentCalls, waitingCalls, List.mem_filter, known]
  constructor
  · rintro (⟨sent, queue⟩ | ⟨inside, -⟩)
    · rw [past] at sent
      refine ⟨by simpa using queue, fun absent => ?_⟩
      rw [absent] at sent
      cases sent
    · obtain ⟨r', known', queue, present, -⟩ := memLine sim inside
      rw [known] at known'
      cases known'
      exact ⟨queue, present⟩
  · rintro ⟨rfl, present⟩
    cases sent : transmittedAt s p n with
    | true => exact .inl ⟨rfl, by simp⟩
    | false =>
      rw [sent] at past
      have kept : life n p ≠ .gone := by
        intro gone
        rw [gone] at past
        cases past
      obtain ⟨hp, k, member, owned⟩ := (sim.ports p).placed n present kept
      obtain ⟨r', packet⟩ := (sim.ports p).queues.packets hp k member
      have same := packet.known
      rw [owned, known] at same
      cases same
      rw [packet.hp]
      exact .inr ⟨List.mem_map.mpr ⟨k, member, owned⟩, rfl⟩

theorem memOrderKnown (sim : Sim c s life) (member : n ∈ order s p hp) : ∃ r, s.calls[n]? = some r := by
  rcases List.mem_append.mp member with sent | waiting
  · exact transmittedKnown sim (memSentCalls.mp sent).1
  · obtain ⟨r, known, -⟩ := memLine sim (List.mem_filter.mp waiting).1
    exact ⟨r, known⟩

theorem orderCommit (sim : Sim c s life) (known : s.calls[n]? = some r) (fresh : life n p = .absent) (calls : t.calls = s.calls)
    (here : line t p r.hp = line s p r.hp ++ [n]) (sent : t.transmissions = s.transmissions) :
    order t p r.hp = order s p r.hp ++ [n] := by
  have untaken : transmittedAt s p n = false := by
    rw [transmittedPast sim known, fresh]
    rfl
  have same : transmittedAt t p = transmittedAt s p := by
    unfold transmittedAt
    rw [sent]
  have first : sentCalls t p r.hp = sentCalls s p r.hp := by rw [sentCalls, sentCalls, sent, calls]
  rw [order, order, first, waitingCalls, here, List.filter_append, same, List.append_assoc]
  simp [waitingCalls, untaken]

/- mii_tx_pins moves the call at the front on, within the order. -/
theorem orderTransmit (sim : Sim c s life) {rest : List Nat} {data : List Int} {time : Int} (known : s.calls[n]? = some r)
    (front : line s p r.hp = n :: rest) (queued : transmittedAt s p n = false) (calls : t.calls = s.calls)
    (lines : ∀ p hp, line t p hp = line s p hp) (sent : t.transmissions = s.transmissions ++ [⟨p, n, data, time⟩]) (q : Nat)
    (h : Bool) :
    order t q h = order s q h := by
  have now : ∀ m, transmittedAt t q m = (transmittedAt s q m || decide (q = p ∧ m = n)) := by
    intro m
    simp only [transmittedAt, sent, List.any_append, List.any_cons, List.any_nil, Bool.or_false]
    congr 1
    exact decide_eq_decide.mpr ⟨fun both => ⟨both.1.symm, both.2.symm⟩, fun both => ⟨both.1.symm, both.2.symm⟩⟩
  by_cases here : q = p ∧ h = r.hp
  · obtain ⟨rfl, rfl⟩ := here
    have nodup := lineNodup sim q r.hp
    rw [front, List.nodup_cons] at nodup
    have first : sentCalls t q r.hp = sentCalls s q r.hp ++ [n] := by
      rw [sentCalls, sentCalls, sent, calls, List.filter_append, List.map_append]
      simp [known]
    have rest' : waitingCalls s q r.hp = n :: waitingCalls t q r.hp := by
      rw [waitingCalls, waitingCalls, lines, front, List.filter_cons_of_pos (by simp [queued]),
        List.filter_cons_of_neg (by simp [now])]
      congr 1
      refine List.filter_congr fun m member => ?_
      have other : m ≠ n := by
        rintro rfl
        exact nodup.1 member
      simp [now, other]
    rw [order, order, first, rest', List.append_assoc]
    rfl
  · have first : sentCalls t q h = sentCalls s q h := by
      have skipped : (decide (p = q) && (s.calls[n]?).any fun r => r.hp == h) = false := by
        rw [known]
        simp only [Option.any_some, Bool.and_eq_false_iff, decide_eq_false_iff_not, beq_eq_false_iff_ne]
        by_contra both
        simp only [not_or, not_not] at both
        exact here ⟨both.1.symm, both.2.symm⟩
      rw [sentCalls, sentCalls, sent, calls, List.filter_append]
      simp [skipped]
    have last : waitingCalls t q h = waitingCalls s q h := by
      rw [waitingCalls, waitingCalls, lines]
      refine List.filter_congr fun m member => ?_
      have other : ¬ (q = p ∧ m = n) := by
        rintro ⟨rfl, rfl⟩
        obtain ⟨r', known', queue, -⟩ := memLine sim member
        rw [known] at known'
        cases known'
        exact here ⟨rfl, queue.symm⟩
      rw [now, decide_eq_false other, Bool.or_false]
    rw [order, order, first, last]

theorem orderFree {rest : List Nat} (front : line s p hp = n :: rest) (here : line t p hp = rest)
    (there : ∀ q h, ¬ (q = p ∧ h = hp) → line t q h = line s q h) (calls : t.calls = s.calls)
    (sent : t.transmissions = s.transmissions) (past : transmittedAt s p n = true) (q : Nat) (h : Bool) :
    order t q h = order s q h := by
  have same : transmittedAt t q = transmittedAt s q := by
    unfold transmittedAt
    rw [sent]
  have first : sentCalls t q h = sentCalls s q h := by rw [sentCalls, sentCalls, sent, calls]
  have last : waitingCalls t q h = waitingCalls s q h := by
    rw [waitingCalls, waitingCalls, same]
    by_cases at_ : q = p ∧ h = hp
    · obtain ⟨rfl, rfl⟩ := at_
      rw [here, front, List.filter_cons_of_neg (by simp [past])]
    · rw [there q h at_]
  rw [order, order, first, last]

end order

structure Front (s : State) : Prop where
  latest : ∀ i n, (s.clients i).call = some n → ∀ m r, s.calls[m]? = some r → r.link = i → m ≤ n
  busy : ∀ i n p, s.server = .committing i n p → ∀ m r, s.calls[m]? = some r → r.link = i → n < m → s.clients i = .calling m

structure Onward (s t : State) : Prop where
  calls : t.calls = s.calls
  clients : ∀ i n, (t.clients i).call = some n → (s.clients i).call = some n
  calling : ∀ i n, s.clients i = .calling n → t.clients i = .calling n
  server : ∀ i n p, t.server = .committing i n p → (∃ q, s.server = .committing i n q) ∨ s.clients i = .transferring n

section front
variable {c : Config} {s t : State} {life : Nat → Nat → Life} {p n : Nat} {hp : Bool}

theorem onwardSame (calls : t.calls = s.calls) (clients : t.clients = s.clients)
    (server : ∀ i n p, t.server = .committing i n p → ∃ q, s.server = .committing i n q) : Onward s t where
  calls := calls
  clients i n inside := by rwa [← clients]
  calling i n inside := by rwa [clients]
  server i n p same := .inl (server i n p same)

theorem transferredOnward {i j : Nat} {r : Request} (client : s.clients i = .transferring n) :
    Onward s { s with clients := set s.clients i (if r.timed then .waiting n else .idle), server := .committing i n j } where
  calls := rfl
  clients k m inside := by
    by_cases same : k = i
    · subst same
      simp only [setSame] at inside
      rw [client]
      split at inside <;> cases inside
      rfl
    · simpa only [setOther same] using inside
  calling k m calling := by
    have other : k ≠ i := by
      rintro rfl
      rw [client] at calling
      cases calling
    exact (setOther other _).trans calling
  server k m q same := by
    cases same
    exact .inr client

theorem repliedOnward {i : Nat} {buf : Int} {replies : List Reply} (client : s.clients i = .waiting n) :
    Onward s { s with clients := set s.clients i .idle, server := .release p hp buf, replies := replies } where
  calls := rfl
  clients k m inside := by
    by_cases same : k = i
    · rw [same] at inside
      simp only [setSame] at inside
      cases inside
    · simpa only [setOther same] using inside
  calling k m calling := by
    have other : k ≠ i := by
      rintro rfl
      rw [client] at calling
      cases calling
    exact (setOther other _).trans calling
  server k m q same := by cases same

theorem serverOnward (sim : Sim c s life) (taken : serverStep c s = some t) :
    Onward s t ∧ t.transmissions = s.transmissions := by
  cases serverMoves taken with
  | loop server =>
    refine ⟨onwardSame rfl rfl fun i n p same => ?_, rfl⟩
    dsimp only at same
    split at same <;> cases same
  | listen | reserve | begin | abandon | word | served | silent | pop | back | stray | free | count =>
    exact ⟨onwardSame rfl rfl (fun i n p same => by cases same), rfl⟩
  | transferred server =>
    have loading := sim.loading
    simp only [Loading, server] at loading
    exact ⟨transferredOnward loading.1, rfl⟩
  | commit server | pass server =>
    refine ⟨onwardSame rfl rfl fun i n q same => ?_, rfl⟩
    cases same
    exact ⟨_, server⟩
  | reply server waiting => exact ⟨repliedOnward waiting, rfl⟩

theorem pinsOnward {held : Bool} {time : Int} (taken : pinsStep c s p held time = some t) : Onward s t := by
  obtain ⟨-, clients, server, calls, -⟩ := TxTurns.pinsApart taken
  exact onwardSame calls clients fun i n q same => ⟨q, by rwa [← server]⟩

theorem frontOnward (front : Front s) (onward : Onward s t) : Front t where
  latest i n inside m r known := by
    rw [onward.calls] at known
    exact front.latest i n (onward.clients i n inside) m r known
  busy i n p server m r known link after := by
    rw [onward.calls] at known
    rcases onward.server i n p server with ⟨q, before⟩ | transferring
    · exact onward.calling i m (front.busy i n q before m r known link after)
    · have last := front.latest i n (by rw [transferring]; rfl) m r known link
      omega

theorem frontCalled (front : Front s) {r : Request} (idle : s.clients r.link = .idle) :
    Front (TxRuns.called s r) where
  latest i n inside m r' known link := by
    have below := (List.getElem?_eq_some_iff.mp known).1
    rw [TxRuns.called, List.length_append, List.length_singleton] at below
    by_cases same : i = r.link
    · simp only [TxRuns.called, same, setSame, Client.call, Option.some.injEq] at inside
      omega
    · simp only [TxRuns.called, setOther same] at inside
      rcases TxRuns.knownBefore known with old | ⟨rfl, rfl⟩
      · exact front.latest i n inside m r' old link
      · exact absurd link.symm same
  busy i n p server m r' known link after := by
    rcases TxRuns.knownBefore known with old | ⟨rfl, rfl⟩
    · have calling := front.busy i n p server m r' old link after
      refine (setOther ?_ _).trans calling
      rintro rfl
      rw [idle] at calling
      cases calling
    · rw [← link]
      exact setSame ..

theorem stepOnward (sim : Sim c s life) {e : Event} (taken : step c s e = some t) :
    (∃ r, s.clients r.link = .idle ∧ t = TxRuns.called s r) ∨ Onward s t ∨
      s.server = .select ∧ (∃ p, t.server = .replying p) ∧ t.calls = s.calls ∧
        ∀ i n, (t.clients i).call = some n → (s.clients i).call = some n := by
  cases e with
  | call r =>
    obtain ⟨idle, -, rfl⟩ := callMoves taken
    exact .inl ⟨r, idle, rfl⟩
  | accept i =>
    obtain ⟨n, r, server, client, -, -, -, rfl⟩ := acceptMoves taken
    refine .inr (.inr ⟨server, ⟨0, rfl⟩, rfl, fun k m inside => ?_⟩)
    by_cases same : k = i
    · simp only [same, setSame] at inside
      rw [same, client]
      exact inside
    · simpa only [setOther same] using inside
  | command i =>
    obtain ⟨server, rfl⟩ := commandMoves taken
    exact .inr (.inr ⟨server, ⟨0, rfl⟩, rfl, fun _ _ inside => inside⟩)
  | timer =>
    obtain ⟨server, rfl⟩ := timerMoves taken
    exact .inr (.inr ⟨server, ⟨0, rfl⟩, rfl, fun _ _ inside => inside⟩)
  | default =>
    obtain ⟨server, -, rfl⟩ := defaultMoves taken
    exact .inr (.inr ⟨server, ⟨0, rfl⟩, rfl, fun _ _ inside => inside⟩)
  | server => exact .inr (.inl (serverOnward sim taken).1)
  | pins p held time => exact .inr (.inl (pinsOnward (pinsMoves taken).2))

theorem frontKeeps (sim : Sim c s life) (front : Front s) {e : Event} (taken : step c s e = some t) : Front t := by
  rcases stepOnward sim taken with ⟨r, idle, rfl⟩ | onward | ⟨-, ⟨p, server⟩, calls, clients⟩
  · exact frontCalled front idle
  · exact frontOnward front onward
  · refine ⟨fun i n inside m r known link => ?_, fun i n q same => ?_⟩
    · rw [calls] at known
      exact front.latest i n (clients i n inside) m r known link
    · rw [server] at same
      cases same

end front

def due (s : State) (p i : Nat) (hp : Bool) : List Nat :=
  (List.range s.calls.length).filter fun n => (s.calls[n]?).any fun r => r.link == i && r.hp == hp && r.goesTo p
def ofLink (s : State) (i : Nat) (ns : List Nat) : List Nat := ns.filter fun n => (s.calls[n]?).any fun r => r.link == i

def Settled (s : State) (i : Nat) : Prop :=
  ∀ n, s.clients i ≠ .calling n ∧ s.clients i ≠ .transferring n ∧ ∀ p, s.server ≠ .committing i n p

structure InOrder (c : Config) (s : State) : Prop where
  first : ∀ p < c.ports, ∀ hp i, ofLink s i (order s p hp) <+: due s p i hp
  all : ∀ p < c.ports, ∀ hp i, Settled s i → ofLink s i (order s p hp) = due s p i hp

def frameOf (r : Request) : List (BitVec 8) := (bytes (r.data.map (BitVec.ofInt 32))).take r.length

def wireOf (atEnd : Bool) (s : State) (p : Nat) : Event → List (Option (List Bool))
  | .pins q _ time =>
    match s.pins q with
    | .chosen hp buf => if q = p then [(Transmit.miiTransmitPacket atEnd (s.pools q hp).pool buf time).map Prod.snd] else []
    | _ => []
  | _ => []

def wires (atEnd : Bool) (c : Config) (p : Nat) : State → List Event → List (Option (List Bool))
  | _, [] => []
  | s, e :: es =>
    match step c s e with
    | some t => wireOf atEnd s p e ++ wires atEnd c p t es
    | none => []

def Long : Event → Prop
  | .call r => 14 ≤ r.length
  | _ => True

instance : ∀ e, Decidable (Long e)
  | .call r => inferInstanceAs (Decidable (14 ≤ r.length))
  | .accept _ | .command _ | .timer | .default | .server | .pins _ _ _ => inferInstanceAs (Decidable True)

def Rising (s : State) : Prop := ∀ p hp, (order s p hp).Pairwise fun m n =>
  ∀ r r', s.calls[m]? = some r → s.calls[n]? = some r' → r.link = r'.link → m < n

section lists

theorem risingFront {xs ys : List Nat} (rising : xs.Pairwise (· < ·)) (rising' : ys.Pairwise (· < ·)) (inside : ∀ x ∈ xs, x ∈ ys)
    (closed : ∀ x ∈ xs, ∀ y ∈ ys, y < x → y ∈ xs) : xs <+: ys := by
  induction ys generalizing xs with
  | nil =>
    cases xs with
    | nil => exact List.prefix_refl []
    | cons x xs => cases inside x List.mem_cons_self
  | cons y ys ih =>
    cases xs with
    | nil => exact List.nil_prefix
    | cons x xs =>
      rw [List.pairwise_cons] at rising rising'
      have same : x = y := by
        rcases List.mem_cons.mp (inside x List.mem_cons_self) with same | later
        · exact same
        · have less := rising'.1 x later
          rcases List.mem_cons.mp (closed x List.mem_cons_self y List.mem_cons_self less) with same | after
          · exact same.symm
          · exact absurd (rising.1 y after) (by omega)
      subst same
      refine List.cons_prefix_cons.mpr ⟨rfl, ih rising.2 rising'.2 (fun z member => ?_) fun z member w member' less => ?_⟩
      · rcases List.mem_cons.mp (inside z (List.mem_cons_of_mem x member)) with same | later
        · have := rising.1 z member
          omega
        · exact later
      · rcases List.mem_cons.mp (closed z (List.mem_cons_of_mem x member) w (List.mem_cons_of_mem x member') less) with same | after
        · have := rising'.1 w member'
          omega
        · exact after

theorem wholeFront {xs ys : List Nat} (front : xs <+: ys) (rising : ys.Pairwise (· < ·)) (inside : ∀ y ∈ ys, y ∈ xs) :
    xs = ys := by
  obtain ⟨rest, rfl⟩ := front
  cases rest with
  | nil => exact (List.append_nil xs).symm
  | cons y rest =>
    have again := inside y (List.mem_append_right xs List.mem_cons_self)
    have := (List.pairwise_append.mp rising).2.2 y again y List.mem_cons_self
    omega

end lists

section runs
variable {c : Config} {s t : State} {life : Nat → Nat → Life} {p i n m : Nat} {hp : Bool} {r : Request}

theorem memDue : n ∈ due s p i hp ↔ ∃ r, s.calls[n]? = some r ∧ r.link = i ∧ r.hp = hp ∧ r.goesTo p = true := by
  unfold due
  rw [List.mem_filter, List.mem_range]
  constructor
  · rintro ⟨below, fits⟩
    rw [List.getElem?_eq_getElem below, Option.any_some, Bool.and_eq_true, Bool.and_eq_true, beq_iff_eq, beq_iff_eq] at fits
    exact ⟨_, List.getElem?_eq_getElem below, fits.1.1, fits.1.2, fits.2⟩
  · rintro ⟨r, known, rfl, rfl, goes⟩
    exact ⟨(List.getElem?_eq_some_iff.mp known).1, by simp [known, goes]⟩

theorem memOfLink {ns : List Nat} : n ∈ ofLink s i ns ↔ n ∈ ns ∧ ∃ r, s.calls[n]? = some r ∧ r.link = i := by
  unfold ofLink
  rw [List.mem_filter]
  refine and_congr_right fun _ => ?_
  cases s.calls[n]? <;> simp

theorem placedUnless (sim : Sim c s life) (known : s.calls[n]? = some r) (port : p < c.ports) (goes : r.goesTo p = true)
    (client : (s.clients r.link).call = some n → ∃ k, s.clients r.link = .waiting k)
    (server : ∀ q, s.server ≠ .committing r.link n q) : n ∈ order s p r.hp := by
  rw [memOrder sim known]
  refine ⟨rfl, fun absent => ?_⟩
  rcases ((sim.courses n r known).2.ports p).absent.mp absent with elsewhere | before | ⟨q, -, next⟩
  · exact elsewhere ⟨port, goes⟩
  · have phase : phaseOf (s.clients r.link) n = .before := (phaseKnown known).symm.trans before
    unfold phaseOf at phase
    split at phase
    · rename_i on
      obtain ⟨k, waiting⟩ := client (by rcases on with h | h <;> rw [h] <;> rfl)
      rw [waiting] at on
      simp at on
    · split at phase <;> cases phase
  · have loading := sim.loading
    simp only [courseOf] at next
    cases at_ : s.server with
    | committing i m q' =>
      rw [at_] at next
      simp only [Loading, at_] at loading
      obtain ⟨r', known', link, -⟩ := loading
      simp only [nextOf] at next
      split at next
      · rename_i same
        subst same
        rw [known] at known'
        cases known'
        exact server q' (by rw [at_, link])
      · cases next
    | _ => rw [at_] at next; cases next

theorem orderGoes (sim : Sim c s life) (member : n ∈ order s p hp) (known : s.calls[n]? = some r) :
    r.hp = hp ∧ r.goesTo p = true ∧ phaseIn s n ≠ .before := by
  obtain ⟨queue, present⟩ := (memOrder sim known).mp member
  have course := (sim.courses n r known).2
  have goes : r.goesTo p = true := by
    by_contra stays
    exact present ((course.ports p).absent.mpr (.inl fun both => stays both.2))
  exact ⟨queue, goes, fun before => present ((course.ports p).absent.mpr (.inr (.inl before)))⟩

theorem inOrder (sim : Sim c s life) (front : Front s) (rising : Rising s) : InOrder c s := by
  have sorted : ∀ p hp i, (ofLink s i (order s p hp)).Pairwise (· < ·) := by
    intro p hp i
    refine List.Pairwise.imp_of_mem (fun {m n} here there less => ?_) (List.Pairwise.filter _ (rising p hp))
    obtain ⟨-, r, known, link⟩ := memOfLink.mp here
    obtain ⟨-, r', known', link'⟩ := memOfLink.mp there
    exact less r r' known known' (link.trans link'.symm)
  have dues : ∀ p i hp, (due s p i hp).Pairwise (· < ·) := fun p i hp => List.Pairwise.filter _ List.pairwise_lt_range
  have inside : ∀ p hp i, ∀ n ∈ ofLink s i (order s p hp), n ∈ due s p i hp := by
    intro p hp i n member
    obtain ⟨placed, r, known, link⟩ := memOfLink.mp member
    obtain ⟨queue, goes, -⟩ := orderGoes sim placed known
    exact memDue.mpr ⟨r, known, link, queue, goes⟩
  have first : ∀ p < c.ports, ∀ hp i, ofLink s i (order s p hp) <+: due s p i hp := by
    intro p port hp i
    refine risingFront (sorted p hp i) (dues p i hp) (inside p hp i) fun m later n wanted less => ?_
    obtain ⟨r, known, rfl, rfl, goes⟩ := memDue.mp wanted
    obtain ⟨placed, r', known', link'⟩ := memOfLink.mp later
    obtain ⟨-, -, begun⟩ := orderGoes sim placed known'
    refine memOfLink.mpr ⟨placedUnless sim known port goes (fun current => ?_) fun q server => begun ?_, r, known, rfl⟩
    · have := front.latest _ n current m r' known' link'
      omega
    · rw [phaseKnown known', link', front.busy _ n q server m r' known' link' less]
      simp [phaseOf]
  refine ⟨first, fun p port hp i settled => wholeFront (first p port hp i) (dues p i hp) fun n wanted => ?_⟩
  obtain ⟨r, known, rfl, rfl, goes⟩ := memDue.mp wanted
  obtain ⟨notCalling, notTransferring, idle⟩ := settled n
  refine memOfLink.mpr ⟨placedUnless sim known port goes (fun current => ?_) idle, r, known, rfl⟩
  cases client : s.clients r.link with
  | waiting k => exact ⟨k, rfl⟩
  | _ => rw [client] at current; cases current <;> contradiction

theorem risingSame (rising : Rising s) (sim : Sim c s life) (calls : ∀ (n : Nat) r, s.calls[n]? = some r → t.calls[n]? = some r)
    (same : ∀ p hp, order t p hp = order s p hp) : Rising t := by
  intro p hp
  rw [same]
  refine List.Pairwise.imp_of_mem (fun {m n} here there less r r' known known' link => ?_) (rising p hp)
  obtain ⟨r₀, old⟩ := memOrderKnown sim here
  obtain ⟨r₁, old'⟩ := memOrderKnown sim there
  have := calls m r₀ old
  rw [known] at this
  cases this
  have := calls n r₁ old'
  rw [known'] at this
  cases this
  exact less _ _ old old' link

theorem stepCalls (sim : Sim c s life) {e : Event} (taken : step c s e = some t) {r : Request} (known : s.calls[n]? = some r) :
    t.calls[n]? = some r := by
  rcases stepOnward sim taken with ⟨r', -, rfl⟩ | onward | ⟨-, -, calls, -⟩
  · exact TxRuns.knownMore known
  · rwa [onward.calls]
  · rwa [calls]

theorem orderKept (sim : Sim c s life) (calls : ∀ (n : Nat) r, s.calls[n]? = some r → t.calls[n]? = some r)
    (sent : t.transmissions = s.transmissions) (lines : line t p hp = line s p hp) : order t p hp = order s p hp := by
  have first : sentCalls t p hp = sentCalls s p hp := by
    rw [sentCalls, sentCalls, sent]
    refine congrArg (List.map Transmission.call) (List.filter_congr fun x member => ?_)
    obtain ⟨r, known, -⟩ := (simSound sim).transmissions x member
    rw [known, calls _ r known]
  have same : transmittedAt t p = transmittedAt s p := by
    unfold transmittedAt
    rw [sent]
  rw [order, order, first, waitingCalls, waitingCalls, lines, same]

theorem transmitFresh {life' : Nat → Nat → Life} (sim' : Sim c t life') (known : t.calls[n]? = some r) {data : List Int}
    {time : Int} (sent : t.transmissions = s.transmissions ++ [⟨p, n, data, time⟩]) : transmittedAt s p n = false := by
  by_contra again
  obtain ⟨x, member, same⟩ := List.any_eq_true.mp (Bool.eq_true_of_not_eq_false again)
  obtain ⟨port, call⟩ := of_decide_eq_true same
  have once : (sentOf t n).countP (fun x => decide (x.port = p)) = if (life' n p).past then 1 else 0 :=
    ((sim'.courses n r known).2.ports p).sent
  have before : 0 < (sentOf s n).countP (fun x => decide (x.port = p)) :=
    List.countP_pos_iff.mpr ⟨x, List.mem_filter.mpr ⟨member, decide_eq_true call⟩, decide_eq_true port⟩
  have more : sentOf t n = sentOf s n ++ [⟨p, n, data, time⟩] := sentSame (x := ⟨p, n, data, time⟩) sent
  rw [more, List.countP_append, List.countP_singleton, decide_eq_true rfl] at once
  simp only [if_true] at once
  split at once <;> omega

theorem freedPast {life' : Nat → Nat → Life} (sim' : Sim c t life') (known : t.calls[n]? = some r)
    (freed : t.freed = s.freed ++ [(p, n)]) : transmittedAt t p n = true := by
  have gone : (freedOf t n).count p = if life' n p = .gone then 1 else 0 := ((sim'.courses n r known).2.ports p).freed
  rw [freedSame freed, List.count_append, List.count_singleton_self] at gone
  split at gone
  · rename_i left
    rw [transmittedPast sim' known, left]
    rfl
  · omega

theorem risingKeeps {life' : Nat → Nat → Life} (sim : Sim c s life) (sim' : Sim c t life') (front : Front s) (rising : Rising s)
    {e : Event} (orderly : Orderly c s e) (taken : step c s e = some t) : Rising t := by
  have calls : ∀ (n : Nat) r, s.calls[n]? = some r → t.calls[n]? = some r := fun n r => stepCalls sim taken
  cases stepEffect sim orderly taken with
  | none lines sent => exact risingSame rising sim calls fun p hp => orderKept sim calls sent (lines p hp)
  | @commit i n p r server known port goes here there sent same =>
    have link : r.link = i := by
      have loading := sim.loading
      simp only [Loading, server] at loading
      obtain ⟨r', known', link, -⟩ := loading
      rw [known] at known'
      cases known'
      exact link
    have fresh : life n p = .absent := by
      have next : nextOf s.server n = some p := by rw [server]; exact if_pos rfl
      exact ((sim.courses n r known).2.ports p).absent.mpr (.inr (.inr ⟨p, Nat.le_refl p, next⟩))
    have more : order t p r.hp = order s p r.hp ++ [n] := orderCommit sim known fresh same here sent
    have others : ∀ m ∈ order s p r.hp, ∀ r', s.calls[m]? = some r' → r'.link = r.link → m < n := by
      intro m member r' known' links
      obtain ⟨-, -, begun⟩ := orderGoes sim member known'
      have apart : m ≠ n := by
        rintro rfl
        exact ((memOrder sim known).mp member).2 fresh
      by_contra later
      have calling := front.busy i n p server m r' known' (links.trans link) (by omega)
      refine begun ?_
      rw [phaseKnown known', links, link, calling]
      simp [phaseOf]
    intro q h
    by_cases at_ : q = p ∧ h = r.hp
    · obtain ⟨rfl, rfl⟩ := at_
      rw [more, List.pairwise_append]
      refine ⟨?_, List.pairwise_singleton .., fun m member n' last r' r'' known' known'' links => ?_⟩
      · refine List.Pairwise.imp (fun {m n} less r' r'' known' known'' => ?_) (rising q r.hp)
        rw [same] at known' known''
        exact less r' r'' known' known''
      · cases List.mem_singleton.mp last
        rw [same] at known' known''
        rw [known] at known''
        cases known''
        exact others m member r' known' links
    · rw [orderKept sim calls sent (there q h at_)]
      refine List.Pairwise.imp (fun {m n} less r' r'' known' known'' => ?_) (rising q h)
      rw [same] at known' known''
      exact less r' r'' known' known''
  | @transmit p hp n rest data time front' lines sent same =>
    obtain ⟨r, known, rfl, -⟩ := memLine sim (show n ∈ line s p hp by rw [front']; exact List.mem_cons_self)
    have fresh := transmitFresh sim' (calls n r known) sent
    exact risingSame rising sim calls (orderTransmit sim known front' fresh same lines sent)
  | @free p hp n rest front' here there sent freed same =>
    obtain ⟨r, known, -⟩ := memLine sim (show n ∈ line s p hp by rw [front']; exact List.mem_cons_self)
    have past : transmittedAt s p n = true := by
      have later := freedPast sim' (calls n r known) freed
      rwa [transmittedAt, sent] at later
    exact risingSame rising sim calls (orderFree front' here there same sent past)

theorem frameHeld {k : Pkt} (data : k.data = r.data) (words : r.data.length = TxPool.wordCount r.length) :
    (frameOf r).length = r.length ∧ (bytes (k.data.map (BitVec.ofInt 32))).take (frameOf r).length = frameOf r := by
  have length : (frameOf r).length = r.length := by
    rw [frameOf, List.length_take, bytesLength, List.length_map, words, TxPool.wordCount]
    omega
  exact ⟨length, by rw [length, data]; rfl⟩

theorem chosenWire (sim : Sim c s life) (long : ∀ r ∈ s.calls, 14 ≤ r.length) {buf : Int} (pins : s.pins p = .chosen hp buf)
    (atEnd : Bool) (time : Int) : ∃ r, s.calls[s.owner p hp buf]? = some r ∧
      (Transmit.miiTransmitPacket atEnd (s.pools p hp).pool buf time).map Prod.snd = some (preamble ++ wireFrame (frameOf r)) := by
  obtain ⟨k, r, head, rfl, packet⟩ := heldPacket sim (show holds (s.pins p) = some (hp, buf) by rw [pins]; rfl)
  have member := List.mem_of_mem_head? head
  obtain ⟨length, held⟩ := frameHeld packet.data packet.words
  refine ⟨r, packet.known, ?_⟩
  rcases sim.pools p hp with tiny | ⟨ring, vr, vw, ringed⟩
  · rw [tiny.queue] at member
    cases member
  · refine Transmit.transmitQueued ringed.rep member atEnd time (frameOf r) ?_ ?_ held
    · rw [length]
      exact long r (List.mem_of_getElem? packet.known)
    · rw [length]
      exact packet.length

theorem stepWire (sim : Sim c s life) (long : ∀ r ∈ s.calls, 14 ≤ r.length) {e : Event} (taken : step c s e = some t)
    (atEnd : Bool) (q : Nat) : ∃ sent, t.transmissions = s.transmissions ++ sent ∧
      wireOf atEnd s q e = (sent.filter fun x => decide (x.port = q)).map fun x =>
        (t.calls[x.call]?).map fun r => preamble ++ wireFrame (frameOf r) := by
  have silent : t.transmissions = s.transmissions → wireOf atEnd s q e = [] → ∃ sent, t.transmissions = s.transmissions ++ sent ∧
      wireOf atEnd s q e = (sent.filter fun x => decide (x.port = q)).map fun x =>
        (t.calls[x.call]?).map fun r => preamble ++ wireFrame (frameOf r) :=
    fun same none => ⟨[], by rw [same, List.append_nil], none⟩
  cases e with
  | call r =>
    obtain ⟨-, -, rfl⟩ := callMoves taken
    exact silent rfl rfl
  | accept i =>
    obtain ⟨n, r, -, -, -, -, -, rfl⟩ := acceptMoves taken
    exact silent rfl rfl
  | command i =>
    obtain ⟨-, rfl⟩ := commandMoves taken
    exact silent rfl rfl
  | timer =>
    obtain ⟨-, rfl⟩ := timerMoves taken
    exact silent rfl rfl
  | default =>
    obtain ⟨-, -, rfl⟩ := defaultMoves taken
    exact silent rfl rfl
  | server => exact silent (serverOnward sim taken).2 rfl
  | pins p held time =>
    simp only [step] at taken
    split at taken
    · by_cases chosen : ∃ hp buf, s.pins p = .chosen hp buf
      · obtain ⟨hp, buf, pins⟩ := chosen
        obtain ⟨r, known, bits⟩ := chosenWire sim long pins atEnd time
        simp only [pinsStep, pins] at taken
        obtain ⟨m, stamped, last⟩ := Option.bind_eq_some_iff.mp taken
        cases last
        obtain ⟨u, -, rfl⟩ := onPoolStep stamped
        refine ⟨_, rfl, ?_⟩
        simp only [wireOf, pins, bits]
        by_cases here : p = q
        · subst here
          simp [known]
        · simp [here]
      · simp only [not_exists] at chosen
        have quiet := (TxTurns.pinsApart taken).sent.resolve_left fun some => some.elim fun hp there => there.elim (chosen hp)
        refine silent quiet ?_
        cases pins : s.pins p with
        | chosen hp buf => exact absurd pins (chosen hp buf)
        | _ => simp [wireOf, pins]
    · cases taken

structure Going (c : Config) (s : State) (life : Nat → Nat → Life) : Prop where
  sim : Sim c s life
  front : Front s
  rising : Rising s
  long : ∀ r ∈ s.calls, 14 ≤ r.length

theorem goingKeeps (going : Going c s life) {e : Event} (orderly : Orderly c s e) (long : Long e) (taken : step c s e = some t) :
    ∃ life', Going c t life' := by
  obtain ⟨life', sim'⟩ := stepKeeps going.sim e orderly taken
  refine ⟨life', sim', frontKeeps going.sim going.front taken,
    risingKeeps going.sim sim' going.front going.rising orderly taken, fun r member => ?_⟩
  cases e with
  | call r' =>
    obtain ⟨-, -, rfl⟩ := callMoves taken
    rcases List.mem_append.mp member with old | new
    · exact going.long r old
    · cases List.mem_singleton.mp new
      exact long
  | accept i =>
    obtain ⟨n, r', -, -, -, -, -, rfl⟩ := acceptMoves taken
    exact going.long r member
  | command i =>
    obtain ⟨-, rfl⟩ := commandMoves taken
    exact going.long r member
  | timer =>
    obtain ⟨-, rfl⟩ := timerMoves taken
    exact going.long r member
  | default =>
    obtain ⟨-, -, rfl⟩ := defaultMoves taken
    exact going.long r member
  | server => exact going.long r (by rwa [← (serverOnward going.sim taken).1.calls])
  | pins p held time => exact going.long r (by rwa [← (pinsOnward (pinsMoves taken).2).calls])

theorem goingInitial (c : Config) (mem : Nat → Bool → Int → Int) (mempool : Nat → Bool → Nat) (memsize : Bool → Nat) :
    Going c (initial mem mempool memsize) (fun _ _ => .absent) where
  sim := simInitial c mem mempool memsize
  front := ⟨fun _ _ inside => (by cases inside), fun _ _ _ same => (by cases same)⟩
  rising _ _ := List.Pairwise.nil
  long _ member := by cases member

theorem runWires (going : Going c s life) {es : List Event}
    (orderly : Along (step c) (fun s e => Orderly c s e ∧ Long e) s es) (reached : run (step c) s es = some t) (atEnd : Bool)
    (q : Nat) :
    (∀ (n : Nat) r, s.calls[n]? = some r → t.calls[n]? = some r) ∧
    ∃ sent, t.transmissions = s.transmissions ++ sent ∧ wires atEnd c q s es =
      (sent.filter fun x => decide (x.port = q)).map fun x => (t.calls[x.call]?).map fun r => preamble ++ wireFrame (frameOf r) := by
  induction es generalizing s life with
  | nil =>
    cases Option.some.inj reached
    exact ⟨fun _ _ known => known, [], (List.append_nil _).symm, rfl⟩
  | cons e es ih =>
    obtain ⟨m, first, rest⟩ := Option.bind_eq_some_iff.mp reached
    obtain ⟨⟨now, long⟩, later⟩ := orderly m first
    obtain ⟨life', going'⟩ := goingKeeps going now long first
    obtain ⟨sent, same, bits⟩ := stepWire going.sim going.long first atEnd q
    obtain ⟨calls, more, same', bits'⟩ := ih going' later rest
    refine ⟨fun n r known => calls n r (stepCalls going.sim first known), sent ++ more, by rw [same', same, List.append_assoc], ?_⟩
    simp only [wires, first, bits', bits, List.filter_append, List.map_append]
    congr 1
    refine List.map_congr_left fun x member => ?_
    have inside : x ∈ m.transmissions := by
      rw [same]
      exact List.mem_append_right _ (List.mem_of_mem_filter member)
    obtain ⟨r, known, -⟩ := (simSound going'.sim).transmissions x inside
    rw [known, calls _ r known]

end runs

/-- Every orderly run puts on each port's wire the frames of the requests that mii_tx_pins has taken, and in each queue of
the port those of one client are the first of its requests, in the order of the calls. -/
theorem framesInOrder (c : Config) (mem : Nat → Bool → Int → Int) (mempool : Nat → Bool → Nat) (memsize : Bool → Nat)
    (es : List Event) (orderly : Along (step c) (fun s e => Orderly c s e ∧ Long e) (initial mem mempool memsize) es) :
    Always (step c) (InOrder c) (initial mem mempool memsize) es ∧
      ∀ t, run (step c) (initial mem mempool memsize) es = some t → ∀ atEnd p, wires atEnd c p (initial mem mempool memsize) es =
        (t.transmissions.filter fun x => decide (x.port = p)).map fun x =>
          (t.calls[x.call]?).map fun r => preamble ++ wireFrame (frameOf r) := by
  have start := goingInitial c mem mempool memsize
  refine ⟨alwaysGuarded (I := fun s => ∃ life, Going c s life) ?_ ?_ ⟨_, start⟩ orderly, fun t reached atEnd p => ?_⟩
  · rintro s e t ⟨life, going⟩ ⟨now, long⟩ taken
    exact goingKeeps going now long taken
  · rintro s ⟨life, going⟩
    exact inOrder going.sim going.front going.rising
  · obtain ⟨-, sent, same, bits⟩ := runWires start orderly reached atEnd p
    rw [bits, same]
    rfl

/- Two frames of one client, broadcast to two ports. -/
def wide : Request := ⟨0, .req, 60, ethBroadcast, List.replicate 15 1⟩
def sendWide : List Event :=
  [.call wide, .accept 0] ++ List.replicate 27 .server ++ List.replicate 8 (.pins 0 false 100) ++ List.replicate 8 (.pins 1 false 200)
def twoFrames : List Event := [.server, .server] ++ sendWide ++ [.default] ++ List.replicate 5 .server ++ sendWide

theorem framesInOrderTwoFrames :
    Always (step TxRuns.twoPorts) (InOrder TxRuns.twoPorts) TxRuns.zeros twoFrames ∧
      (run (step TxRuns.twoPorts) TxRuns.zeros twoFrames).any (fun t => decide
        (t.transmissions.map (fun x => (x.port, x.call)) = [(0, 0), (1, 0), (0, 1), (1, 1)])) = true :=
  ⟨(framesInOrder TxRuns.twoPorts _ _ _ twoFrames (by decide +kernel)).1, by decide +kernel⟩

end ScEthernet.Full.TxOrder
