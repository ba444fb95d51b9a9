import ScEthernet.Full.TxProgress

/-! A frame that is in a queue is transmitted and freed, and the client of a timed one has its timestamp before. -/
namespace ScEthernet.Full.TxDrain
open Lib.CircularFifo Lib.Runs Lib.Fairness Malloc PoolQueue TxTransfer TxServer TxPackets TxPort TxSim TxServerSteps TxPinsSteps
open TxMoves TxReady TxOrder TxProgress
open TxCourse (Life)

/-! The head of a queue. -/

section head
variable {c : Config} {s t : State} {life life' : Nat → Nat → Life} {e : Event} {p n : Nat} {hp : Bool} {buf : Int}

theorem poolHead {forwards : Bool} {s t : TxPool.State} {e : TxPool.Event} {k : Pkt}
    (head : s.queue.head? = some k) (live : k.freed = false) (taken : TxPool.step forwards s e = some t)
    (kept : e ≠ .free k.buf) :
    ∃ k', t.queue.head? = some k' ∧ k'.buf = k.buf := by
  obtain ⟨rest, queue⟩ := List.head?_eq_some_iff.mp head
  cases e with
  | reserve => exact ⟨k, by rw [quietQueue (e := .reserve) trivial taken, head], rfl⟩
  | length n => exact ⟨k, by rw [quietQueue (e := .length n) trivial taken, head], rfl⟩
  | word datum => exact ⟨k, by rw [quietQueue (e := .word datum) trivial taken, head], rfl⟩
  | abandon => exact ⟨k, by rw [quietQueue (e := .abandon) trivial taken, head], rfl⟩
  | commit id =>
    cases phase : s.phase <;> simp only [TxPool.step, phase] at taken <;> try cases taken
    split at taken <;> cases taken
    dsimp only
    split
    · exact ⟨k, head, rfl⟩
    · exact ⟨k, by rw [queue]; rfl, rfl⟩
  | set b f x =>
    rw [(setQueue taken).1, queue, onBuf, List.map_cons]
    exact ⟨_, rfl, storedBuf k _⟩
  | free b =>
    have other : k.buf ≠ b := fun same => kept (by rw [same])
    rw [(freeQueue taken).1, queue, PoolQueue.free, onBuf, List.map_cons, if_neg other, reclaim, live]
    exact ⟨k, rfl, rfl⟩

theorem poolMoves (taken : step c s e = some t) (p : Nat) (hp : Bool) : t.pools p hp = s.pools p hp ∨
    ∃ e', TxPool.step c.forwards (s.pools p hp) e' = some (t.pools p hp) ∧
      ∀ buf, e' = .free buf → (p, s.owner p hp buf) ∈ t.freed := by
  have one : ∀ {q h e' u}, TxPool.step c.forwards (s.pools q h) e' = some u →
      (∀ buf, e' = .free buf → (q, s.owner q h buf) ∈ t.freed) → setPool s.pools q h u p hp = s.pools p hp ∨
      ∃ e', TxPool.step c.forwards (s.pools p hp) e' = some (setPool s.pools q h u p hp) ∧
        ∀ buf, e' = .free buf → (p, s.owner p hp buf) ∈ t.freed := by
    intro q h e' u step freed
    by_cases here : p = q ∧ hp = h
    · obtain ⟨rfl, rfl⟩ := here
      rw [setPoolSame]
      exact .inr ⟨e', step, freed⟩
    · exact .inl (setPoolOther here u)
  have each : ∀ {h e' pools}, Each c s h e' pools → (∀ buf, e' ≠ .free buf) → pools p hp = s.pools p hp ∨
      ∃ e', TxPool.step c.forwards (s.pools p hp) e' = some (pools p hp) ∧
        ∀ buf, e' = .free buf → (p, s.owner p hp buf) ∈ t.freed := by
    intro h e' pools each kept
    by_cases here : p < c.ports ∧ hp = h
    · exact .inr ⟨e', (each p hp).1 here, fun buf free => absurd free (kept buf)⟩
    · exact .inl ((each p hp).2 here)
  cases e with
  | call r =>
    obtain ⟨-, -, rfl⟩ := callMoves taken
    exact .inl rfl
  | accept k =>
    obtain ⟨n, r, -, -, -, -, -, rfl⟩ := acceptMoves taken
    exact .inl rfl
  | command k =>
    obtain ⟨-, rfl⟩ := commandMoves taken
    exact .inl rfl
  | timer =>
    obtain ⟨-, rfl⟩ := timerMoves taken
    exact .inl rfl
  | default =>
    obtain ⟨-, -, rfl⟩ := defaultMoves taken
    exact .inl rfl
  | server =>
    cases serverMoves taken with
    | reserve _ _ _ step | commit _ _ _ _ step | pass _ _ _ _ step | count _ _ step => exact one step fun _ free => by cases free
    | begin _ _ _ _ _ _ pools | abandon _ _ _ _ pools | word _ _ _ _ pools => exact each pools fun _ free => by cases free
    | free _ _ step =>
      refine one step fun buf free => ?_
      cases free
      exact List.mem_append_right _ (List.mem_singleton.mpr rfl)
    | _ => exact .inl rfl
  | pins q held time =>
    cases pinsMove (pinsMoves taken).2 with
    | transmit _ step | clear _ step | count _ _ step | stage _ step => exact one step fun _ free => by cases free
    | free _ step =>
      refine one step fun buf free => ?_
      cases free
      exact List.mem_append_right _ (List.mem_singleton.mpr rfl)
    | _ => exact .inl rfl

structure Heads (s : State) (p : Nat) (hp : Bool) (buf : Int) (n : Nat) : Prop where
  head : ∃ k, (s.pools p hp).queue.head? = some k ∧ k.buf = buf
  owner : s.owner p hp buf = n

theorem headsLine : (∃ buf, Heads s p hp buf n) ↔ ∃ rest, line s p hp = n :: rest := by
  constructor
  · rintro ⟨buf, ⟨k, head, rfl⟩, rfl⟩
    obtain ⟨rest, queue⟩ := List.head?_eq_some_iff.mp head
    exact ⟨_, by rw [line, queue, List.map_cons]⟩
  · rintro ⟨rest, front⟩
    obtain ⟨k, queue, same, owned, -⟩ := List.map_eq_cons_iff.mp front
    exact ⟨k.buf, ⟨k, by rw [same]; rfl, rfl⟩, owned⟩

theorem headsKept (sim : Sim c s life) (orderly : Orderly c s e) (heads : Heads s p hp buf n) (taken : step c s e = some t) :
    (p, n) ∈ t.freed ∨ Heads t p hp buf n := by
  obtain ⟨k, head, at_⟩ := heads.head
  obtain ⟨rest, front⟩ := headsLine.mp ⟨buf, heads⟩
  have first : line s p hp = [] ++ n :: rest := front
  rcases effectFreed (stepEffect sim orderly taken) first with freed | ⟨xs, ys, suffix, later⟩
  · exact .inl freed
  · obtain rfl := List.suffix_nil.mp suffix
    obtain ⟨buf', ⟨k', head', at'⟩, owner⟩ := headsLine.mpr ⟨ys, later⟩
    have live : k.freed = false := by
      obtain ⟨r, packet⟩ := (sim.ports p).queues.packets hp k (List.mem_of_mem_head? head)
      exact packet.live
    rcases poolMoves taken p hp with same | ⟨e', step, freed⟩
    · rw [same, head] at head'
      cases head'
      exact .inr ⟨⟨k, by rw [same, head], at_⟩, by rw [← at_, at', owner]⟩
    · by_cases free : e' = .free k.buf
      · have out := freed k.buf free
        rw [at_, heads.owner] at out
        exact .inl out
      · obtain ⟨k'', head'', at''⟩ := poolHead head live step free
        rw [head'] at head''
        cases head''
        exact .inr ⟨⟨k', head', at''.trans at_⟩, by rw [← at_, ← at'', at', owner]⟩

end head

/-! A frame up to mii_free. -/

inductive Drive (c : Config) : Pins → Pins → Prop
  | look {buf} : Drive c .top (.looked c.hpQueue buf)
  | lookLow {buf} : Drive c .low (.looked false buf)
  | choose {hp buf} : Drive c (.looked hp buf) (.chosen hp buf)
  | leave {hp buf} : Drive c (.looked hp buf) (if hp then .low else .top)
  | transmit {hp buf} : Drive c (.chosen hp buf) (.transmitted hp buf)
  | clear {hp buf} : Drive c (.transmitted hp buf) (.cleared hp buf)
  | untimed {hp buf} : Drive c (.cleared hp buf) .top
  | time {hp buf} : Drive c (.cleared hp buf) (.timed hp buf)
  | stage {hp buf} : Drive c (.timed hp buf) (.staged hp buf)
  | push {hp buf} : Drive c (.staged hp buf) .top

def driveRank : Pins → Nat
  | .top => 0
  | .staged _ _ => 1
  | .timed _ _ => 2
  | .cleared _ _ => 3
  | .transmitted _ _ => 4
  | .chosen _ _ => 5
  | .looked false _ => 6
  | .low => 7
  | .looked true _ => 8

section frames
variable {c : Config} {s t : State} {e : Event} {state : Nat → State} {event : Nat → Event} {a p n : Nat} {hp : Bool} {buf : Int}

theorem pinsAlone (taken : step c s e = some t) (other : ¬ Drives p e) : t.pins p = s.pins p := by
  cases e with
  | call r =>
    obtain ⟨-, -, rfl⟩ := callMoves taken
    rfl
  | accept i =>
    obtain ⟨n, r, -, -, -, -, -, rfl⟩ := acceptMoves taken
    rfl
  | command i =>
    obtain ⟨-, rfl⟩ := commandMoves taken
    rfl
  | timer =>
    obtain ⟨-, rfl⟩ := timerMoves taken
    rfl
  | default =>
    obtain ⟨-, -, rfl⟩ := defaultMoves taken
    rfl
  | server => cases serverMoves taken <;> rfl
  | pins q held time =>
    have away : p ≠ q := fun same => other same.symm
    cases pinsMove (pinsMoves taken).2 <;> exact setOther away _

theorem drivesOften (op : Operation c state event) (port : p < c.ports) : Often fun m => Drives p (event m) := by
  refine op.fair.drives p port fun m => ⟨m, Nat.le_refl m, .pins p false 0, rfl, ?_⟩
  obtain ⟨life, sim⟩ := op.sim m
  obtain ⟨t, moves⟩ := pinsEnabled (c := c) sim p false 0
  exact Option.isSome_iff_exists.mpr ⟨t, (if_pos port).trans moves⟩

theorem pinsTurn (op : Operation c state event) (port : p < c.ports) (a : Nat) :
    ∃ m held, a ≤ m ∧ (state m).pins p = (state a).pins p ∧ PinsMove c (state m) p held (state (m + 1)) := by
  obtain ⟨m, later, drives, same⟩ :=
    nextTurn (f := fun s => s.pins p) op.execution (drivesOften op port) (fun _ _ _ => pinsAlone) a
  have next := op.execution.next m
  cases at_ : event m with
  | pins q held time =>
    rw [at_] at drives next
    obtain rfl : q = p := drives
    exact ⟨m, held, later, same, pinsMove (pinsMoves next).2⟩
  | _ => rw [at_] at drives; exact drives.elim

theorem pinsDrive {held : Bool} (move : PinsMove c s p held t) : Drive c (s.pins p) (t.pins p) := by
  have here : ∀ {x : Pins}, set s.pins p x p = x := setSame ..
  cases move with
  | look pins => rw [pins]; simp only [here]; exact .look
  | lookLow pins => rw [pins]; simp only [here]; exact .lookLow
  | choose pins => rw [pins]; simp only [here]; exact .choose
  | leave pins => rw [pins]; simp only [here]; exact .leave
  | transmit pins => rw [pins]; simp only [here]; exact .transmit
  | clear pins | clean pins => rw [pins]; simp only [here]; exact .clear
  | count pins | free pins => rw [pins]; simp only [here]; exact .untimed
  | time pins => rw [pins]; simp only [here]; exact .time
  | stage pins => rw [pins]; simp only [here]; exact .stage
  | push pins => rw [pins]; simp only [here]; exact .push

theorem driveDrops {x y : Pins} (drive : Drive c x y) (away : x ≠ .top) : driveRank y < driveRank x := by
  cases drive with
  | look => exact absurd rfl away
  | @choose hp => cases hp <;> simp [driveRank]
  | @leave hp => cases hp <;> simp [driveRank]
  | _ => simp [driveRank]

theorem comesToTop (op : Operation c state event) (port : p < c.ports) (a : Nat) : Comes state a fun s => s.pins p = .top := by
  induction rank : driveRank ((state a).pins p) using Nat.strong_induction_on generalizing a with
  | _ rank' ih =>
    subst rank
    by_cases top : (state a).pins p = .top
    · exact ⟨a, Nat.le_refl a, top⟩
    · obtain ⟨m, held, later, same, move⟩ := pinsTurn op port a
      have drive := pinsDrive move
      rw [same] at drive
      exact comesLater (Nat.le_succ_of_le later) (ih _ (driveDrops drive top) (m + 1) rfl)

/- Each queue is looked at again and again, and not only while the shaper holds it. -/
theorem looksOften (op : Operation c state event) (port : p < c.ports) (queue : hp = true → c.hpQueue = true) :
    Often fun m => ∃ buf held, (state m).pins p = .looked hp buf ∧ (hp && held) = false ∧
      PinsMove c (state m) p held (state (m + 1)) := by
  have tops : Often fun m => (state m).pins p = .top := comesToTop op port
  have first : Often fun m => ∃ buf, (state m).pins p = .looked c.hpQueue buf := by
    intro l
    obtain ⟨b, later, top⟩ := tops l
    obtain ⟨m, held, later', same, move⟩ := pinsTurn op port b
    have drive := pinsDrive move
    rw [same, top] at drive
    generalize looked : (state (m + 1)).pins p = y at drive
    cases drive with
    | look => exact ⟨m + 1, by omega, _, looked⟩
  have lowLooked : hp = false → Often fun m => ∃ buf, (state m).pins p = .looked false buf := by
    intro low
    cases config : c.hpQueue with
    | false => rwa [config] at first
    | true =>
      intro l
      obtain ⟨b, later, low⟩ := op.fair.low config p port tops l
      obtain ⟨m, held, later', same, move⟩ := pinsTurn op port b
      have drive := pinsDrive move
      rw [same, low] at drive
      generalize looked : (state (m + 1)).pins p = y at drive
      cases drive with
      | lookLow => exact ⟨m + 1, by omega, _, looked⟩
  intro l
  cases hp with
  | true =>
    rw [queue rfl] at first
    obtain ⟨m, later, buf, time, looked, now⟩ := op.fair.credit p port first l
    have next := op.execution.next m
    rw [now] at next
    exact ⟨m, later, buf, false, looked, rfl, pinsMove (pinsMoves next).2⟩
  | false =>
    obtain ⟨b, later, buf, looked⟩ := lowLooked rfl l
    obtain ⟨m, held, later', same, move⟩ := pinsTurn op port b
    exact ⟨m, by omega, buf, held, same.trans looked, rfl, move⟩

theorem headsLater (op : Operation c state event) (never : ∀ m, a ≤ m → (p, n) ∉ (state m).freed)
    (heads : Heads (state a) p hp buf n) {m : Nat} (later : a ≤ m) : Heads (state m) p hp buf n := by
  induction later with
  | refl => exact heads
  | @step m later ih =>
    obtain ⟨life, sim⟩ := op.sim m
    exact (headsKept sim (op.orderly m) ih (op.execution.next m)).resolve_left (never (m + 1) (Nat.le_succ_of_le later))

theorem pinsSteps (taken : step c s e = some t) (p : Nat) : t.pins p = s.pins p ∨ ∃ held, PinsMove c s p held t := by
  by_cases drives : Drives p e
  · cases e with
    | pins q held time =>
      obtain rfl : q = p := drives
      exact .inr ⟨held, pinsMove (pinsMoves taken).2⟩
    | _ => exact drives.elim
  · exact .inl (pinsAlone taken drives)

theorem headBuf {life : Nat → Nat → Life} (sim : Sim c s life) (heads : Heads s p hp buf n) :
    buf ≠ 0 ∧ miiGetNextBuf (s.pools p hp).pool = buf := by
  obtain ⟨⟨k, head, rfl⟩, -⟩ := heads
  refine ⟨?_, by rw [nextBuf (sim.pools p hp), head]; rfl⟩
  have member := List.mem_of_mem_head? head
  rcases sim.pools p hp with tiny | ⟨r, vr, vw, ringed⟩
  · rw [tiny.queue] at member
    cases member
  · obtain ⟨x, -, -, at_⟩ := chainBuf ringed.rep.chain member
    have := placePositive ringed.rep x
    omega

def Taken (s : State) (p : Nat) (hp : Bool) : Prop := ∃ buf, holds (s.pins p) = some (hp, buf) ∨ (hp, buf) ∈ tokensOf s p

def Fresh (s : State) (p : Nat) (hp : Bool) (buf : Int) : Prop := ∀ b, s.pins p = .looked hp b → b = buf

theorem freshKept {life : Nat → Nat → Life} (sim : Sim c s life) (heads : Heads s p hp buf n) (fresh : Fresh s p hp buf)
    (taken : step c s e = some t) : Fresh t p hp buf := by
  intro b looked
  rcases pinsSteps taken p with same | ⟨held, move⟩
  · exact fresh b (same.symm.trans looked)
  · have at_ : ∀ {x : Pins}, set s.pins p x p = x := setSame ..
    have next := (headBuf sim heads).2
    cases move <;> simp only [at_] at looked
    case look =>
      cases looked
      exact next
    case lookLow =>
      cases looked
      exact next
    case leave => split at looked <;> cases looked
    all_goals cases looked

theorem lookTakes {life : Nat → Nat → Life} {held : Bool} (sim : Sim c s life) (heads : Heads s p hp buf n)
    (fresh : Fresh s p hp buf) (looked : ∃ b, s.pins p = .looked hp b) (free : (hp && held) = false)
    (move : PinsMove c s p held t) : Taken s p hp ∨ Taken t p hp := by
  obtain ⟨b, looked⟩ := looked
  obtain rfl := fresh b looked
  have at_ : ∀ {x : Pins}, set s.pins p x p = x := setSame ..
  cases move with
  | choose pins =>
    rw [looked] at pins
    cases pins
    refine .inr ⟨b, .inl ?_⟩
    simp only [at_]
    rfl
  | leave pins none =>
    rw [looked] at pins
    cases pins
    by_cases token : (hp, b) ∈ tokensOf s p
    · exact .inl ⟨b, .inr token⟩
    · obtain ⟨⟨k, head, rfl⟩, -⟩ := id heads
      have stage : miiPacketGetStage (s.pools p hp).pool k.buf = 1 := by
        rw [miiPacketGetStage, getterOf sim head, (sim.ports p).stages hp k (List.mem_of_mem_head? head), if_neg token]
      exact absurd ⟨(headBuf sim heads).1, stage, free⟩ none
  | look pins | lookLow pins | transmit pins | clear pins | clean pins | count pins | time pins | free pins | stage pins
  | push pins =>
    rw [looked] at pins
    cases pins

/- The second look at the latest takes it. -/
theorem comesToTaken (op : Operation c state event) (port : p < c.ports) (queue : hp = true → c.hpQueue = true)
    (never : ∀ m, a ≤ m → (p, n) ∉ (state m).freed) (heads : Heads (state a) p hp buf n) :
    Comes state a fun s => Taken s p hp := by
  by_contra untaken
  have untaken : ∀ m, a ≤ m → ¬ Taken (state m) p hp := fun m later taken => untaken ⟨m, later, taken⟩
  have still : ∀ {m}, a ≤ m → Heads (state m) p hp buf n := headsLater op never heads
  obtain ⟨m, later, b, held, looked, free, move⟩ := looksOften op port queue a
  have first : Fresh (state (m + 1)) p hp buf := by
    intro b' looked'
    have drive := pinsDrive move
    rw [looked, looked'] at drive
    generalize left : Pins.looked hp b' = y at drive
    cases drive with
    | choose => cases left
    | leave => split at left <;> cases left
  have fresh : ∀ l, m + 1 ≤ l → Fresh (state l) p hp buf := by
    intro l after
    induction after with
    | refl => exact first
    | @step l after ih =>
      obtain ⟨life, sim⟩ := op.sim l
      exact freshKept sim (still (Nat.le_trans later (Nat.le_of_succ_le after))) ih (op.execution.next l)
  obtain ⟨l, after, b', held', looked', free', move'⟩ := looksOften op port queue (m + 1)
  obtain ⟨life, sim⟩ := op.sim l
  rcases lookTakes sim (still (by omega)) (fresh l after) ⟨b', looked'⟩ free' move' with taken | taken
  · exact untaken l (by omega) taken
  · exact untaken (l + 1) (by omega) taken

/- The frame that mii_tx_pins has goes to stage 2, or it has been freed. -/
theorem comesToToken (op : Operation c state event) (port : p < c.ports) (never : ∀ m, a ≤ m → (p, n) ∉ (state m).freed)
    (heads : Heads (state a) p hp buf n) (held : ∃ b, holds ((state a).pins p) = some (hp, b)) :
    Comes state a fun s => ∃ b, (hp, b) ∈ tokensOf s p := by
  induction rank : driveRank ((state a).pins p) using Nat.strong_induction_on generalizing a with
  | _ rank' ih =>
    subst rank
    obtain ⟨b, holding⟩ := held
    obtain ⟨m, held, later, same, move⟩ := pinsTurn op port a
    obtain ⟨life, sim⟩ := op.sim m
    have here : holds ((state m).pins p) = some (hp, b) := by rw [same, holding]
    obtain ⟨k, r, head, rfl, packet⟩ := heldPacket sim here
    have owner : (state m).owner p hp k.buf = n := by
      obtain ⟨⟨k', head', rfl⟩, owner⟩ := headsLater op never heads later
      rw [head] at head'
      cases head'
      exact owner
    have drops : driveRank ((state (m + 1)).pins p) < driveRank ((state a).pins p) := by
      have drive := pinsDrive move
      rw [same] at drive
      exact driveDrops drive fun top => by rw [top] at holding; cases holding
    have onward : holds ((state (m + 1)).pins p) = some (hp, k.buf) → Comes state a fun s => ∃ b, (hp, b) ∈ tokensOf s p := by
      intro next
      refine comesLater (Nat.le_succ_of_le later) (ih _ drops (fun l after => never l (by omega)) ?_ ⟨k.buf, next⟩ rfl)
      exact headsLater op never heads (Nat.le_succ_of_le later)
    generalize after : state (m + 1) = t at move
    have at_ : ∀ {x : Pins}, set (state m).pins p x p = x := setSame ..
    cases move with
    | transmit pins | clear pins | clean pins | time pins =>
      rw [pins] at here
      cases here
      refine onward ?_
      rw [after]
      simp only [at_]
      rfl
    | count pins count =>
      rw [pins] at here
      cases here
      rw [miiPacketGetTcount, getterOf sim head, packet.tcount] at count
      exact absurd rfl count
    | free pins =>
      rw [pins] at here
      cases here
      refine absurd ?_ (never (m + 1) (Nat.le_succ_of_le later))
      rw [after, ← owner]
      exact List.mem_append_right _ (List.mem_singleton.mpr rfl)
    | stage pins =>
      rw [pins] at here
      cases here
      refine ⟨m + 1, Nat.le_succ_of_le later, k.buf, ?_⟩
      rw [after]
      simp only [tokensOf, at_, staged]
      simp
    | look pins | lookLow pins | choose pins | leave pins | push pins =>
      rw [pins] at here
      cases here

/-! ts_queue. -/

def contents (s : State) (p : Nat) : List (Bool × Int) := (s.tsQueue p).contents macMaxEntries

theorem queueMoves {life : Nat → Nat → Life} (sim : Sim c s life) (taken : step c s e = some t) (p : Nat) :
    (∃ ys, contents t p = contents s p ++ ys) ∨ ∃ x, contents s p = x :: contents t p ∧ t.server = .found p x.1 x.2 := by
  have same : t.tsQueue = s.tsQueue → ∃ ys, contents t p = contents s p ++ ys :=
    fun same => ⟨[], by rw [contents, contents, same, List.append_nil]⟩
  cases e with
  | call r =>
    obtain ⟨-, -, rfl⟩ := callMoves taken
    exact .inl (same rfl)
  | accept i =>
    obtain ⟨n, r, -, -, -, -, -, rfl⟩ := acceptMoves taken
    exact .inl (same rfl)
  | command i =>
    obtain ⟨-, rfl⟩ := commandMoves taken
    exact .inl (same rfl)
  | timer =>
    obtain ⟨-, rfl⟩ := timerMoves taken
    exact .inl (same rfl)
  | default =>
    obtain ⟨-, -, rfl⟩ := defaultMoves taken
    exact .inl (same rfl)
  | server =>
    cases serverMoves taken with
    | @pop q server port some =>
      by_cases here : p = q
      · subst here
        refine .inr ⟨_, ?_, rfl⟩
        simp only [contents, setSame]
        exact popContents (sim.fifos p) some
      · exact .inl ⟨[], by simp only [contents, setOther here, List.append_nil]⟩
    | _ => exact .inl (same rfl)
  | pins q held time =>
    cases pinsMove (pinsMoves taken).2 with
    | @push hp buf pins =>
      by_cases here : p = q
      · subst here
        refine .inl ⟨[(hp, buf)], ?_⟩
        simp only [contents, setSame]
        exact pushContents (sim.fifos p) (stagedRoom sim pins) (hp, buf)
      · exact .inl ⟨[], by simp only [contents, setOther here, List.append_nil]⟩
    | _ => exact .inl (same rfl)

def Waits (s : State) (p : Nat) (x : Bool × Int) (xs : List (Bool × Int)) : Prop := ∃ ys, contents s p = xs ++ x :: ys

def Passed (s : State) (p : Nat) (x : Bool × Int) : List (Bool × Int) → Prop
  | [] => s.server = .found p x.1 x.2
  | _ :: xs => Waits s p x xs

theorem waitsKept {life : Nat → Nat → Life} {x : Bool × Int} {xs : List (Bool × Int)} (sim : Sim c s life)
    (waits : Waits s p x xs) (taken : step c s e = some t) : Waits t p x xs ∨ Passed t p x xs := by
  obtain ⟨ys, queue⟩ := waits
  rcases queueMoves sim taken p with ⟨zs, more⟩ | ⟨y, head, found⟩
  · exact .inl ⟨ys ++ zs, by rw [more, queue, List.append_assoc, List.cons_append]⟩
  · rw [queue] at head
    cases xs with
    | nil =>
      cases head
      exact .inr found
    | cons z zs =>
      rw [List.cons_append, List.cons.injEq] at head
      exact .inr ⟨ys, head.2.symm⟩

theorem comesToPassed (op : Operation c state event) (port : p < c.ports) {x : Bool × Int} {xs : List (Bool × Int)}
    (waits : Waits (state a) p x xs) : Comes state a fun s => Passed s p x xs := by
  by_contra never
  have never : ∀ m, a ≤ m → ¬ Passed (state m) p x xs := fun m later passed => never ⟨m, later, passed⟩
  have still : ∀ m, a ≤ m → Waits (state m) p x xs := by
    intro m later
    induction later with
    | refl => exact waits
    | @step m later ih =>
      obtain ⟨life, sim⟩ := op.sim m
      exact (waitsKept sim ih (op.execution.next m)).resolve_right (never (m + 1) (Nat.le_succ_of_le later))
  obtain ⟨b, later, replying⟩ := comesToReplying op (Nat.le_of_lt port) a
  obtain ⟨m, y, later', same, -, -, moves⟩ := serverTurn op replying (by simp)
  have here : (state m).server = .replying p := (congrArg Prod.fst same).trans replying
  obtain ⟨life, sim⟩ := op.sim m
  obtain ⟨ys, queue⟩ := still m (Nat.le_trans later later')
  have some : ((state m).tsQueue p).rd ≠ ((state m).tsQueue p).wr := by
    intro empty
    have none : contents (state m) p = [] := (emptyIff (sim.fifos p)).mp empty
    rw [queue] at none
    simp at none
  simp only [serverStep, here, if_pos port, if_neg some, Option.some.injEq] at moves
  have head := popContents (sim.fifos p) some
  have next : contents (state (m + 1)) p = (((state m).tsQueue p).pop macMaxEntries).contents macMaxEntries := by
    rw [← moves]
    simp only [contents, setSame]
  rw [← next] at head
  have first : contents (state m) p = _ :: contents (state (m + 1)) p := head
  refine never (m + 1) (by omega) ?_
  rw [queue] at first
  cases xs with
  | nil =>
    rw [List.nil_append, List.cons.injEq] at first
    rw [Passed, ← moves, first.1]
  | cons z zs =>
    rw [List.cons_append, List.cons.injEq] at first
    exact ⟨ys, first.2.symm⟩

theorem comesToFound (op : Operation c state event) (port : p < c.ports) {x : Bool × Int} {xs : List (Bool × Int)}
    (waits : Waits (state a) p x xs) : Comes state a fun s => s.server = .found p x.1 x.2 := by
  induction xs generalizing a with
  | nil => exact comesToPassed op port waits
  | cons y xs ih => exact comesOn (comesToPassed op port waits) fun m _ passed => ih passed

theorem releaseFrees (op : Operation c state event) (never : ∀ m, a ≤ m → (p, n) ∉ (state m).freed)
    (heads : Heads (state a) p hp buf n) {b : Int} : (state a).server ≠ .release p hp b := by
  intro server
  obtain ⟨m, y, later, same, -, -, moves⟩ := serverTurn op server (by simp)
  have here : (state m).server = .release p hp b := (congrArg Prod.fst same).trans server
  obtain ⟨life, sim⟩ := op.sim m
  obtain ⟨k, r, stamped, count⟩ := releasedOf sim here
  obtain ⟨⟨k', head', rfl⟩, owner⟩ := headsLater op never heads later
  have head := stamped.head
  rw [head'] at head
  cases head
  obtain rfl := stamped.at_
  simp only [serverStep, here] at moves
  obtain ⟨u, -, last⟩ := Option.bind_eq_some_iff.mp moves
  refine never (m + 1) (Nat.le_succ_of_le later) ?_
  rw [← Option.some.inj last, ← owner]
  simp only [count, if_true]
  exact List.mem_append_right _ (List.mem_singleton.mpr rfl)

theorem stagedIs {x : Pins} (staged : TxPort.staged x = some (hp, buf)) : x = .staged hp buf := by
  cases x <;> cases staged
  rfl

theorem comesToQueue (op : Operation c state event) (port : p < c.ports) (pins : (state a).pins p = .staged hp buf) :
    Comes state a fun s => (hp, buf) ∈ contents s p := by
  obtain ⟨m, held, later, same, move⟩ := pinsTurn op port a
  obtain ⟨life, sim⟩ := op.sim m
  generalize after : state (m + 1) = t at move
  have here := same.trans pins
  refine ⟨m + 1, Nat.le_succ_of_le later, ?_⟩
  rw [after]
  cases move with
  | push pins =>
    rw [here] at pins
    cases pins
    simp only [contents, setSame]
    rw [pushContents (sim.fifos p) (stagedRoom sim here)]
    exact List.mem_append_right _ (List.mem_singleton.mpr rfl)
  | look pins | lookLow pins | choose pins | leave pins | transmit pins | clear pins | clean pins | count pins | time pins
  | free pins | stage pins =>
    rw [here] at pins
    cases pins

theorem comesToFreed (op : Operation c state event) (port : p < c.ports) (queue : hp = true → c.hpQueue = true)
    (heads : Heads (state a) p hp buf n) : Comes state a fun s => (p, n) ∈ s.freed := by
  by_contra never
  have never : ∀ m, a ≤ m → (p, n) ∉ (state m).freed := fun m later freed => never ⟨m, later, freed⟩
  have still : ∀ {m}, a ≤ m → Heads (state m) p hp buf n := headsLater op never heads
  have unreleased : ∀ {m b}, a ≤ m → (state m).server ≠ .release p hp b :=
    fun {m b} later => releaseFrees op (fun l after => never l (Nat.le_trans later after)) (still later)
  have unfound : ∀ {m b}, a ≤ m → (state m).server ≠ .found p hp b := by
    intro m b later found
    obtain ⟨l, after, release⟩ := foundReleases op found
    exact unreleased (Nat.le_trans later after) release
  have unqueued : ∀ {m b}, a ≤ m → (hp, b) ∉ contents (state m) p := by
    intro m b later member
    obtain ⟨xs, ys, split⟩ := List.append_of_mem member
    obtain ⟨l, after, found⟩ := comesToFound op port (x := (hp, b)) ⟨ys, split⟩
    exact unfound (Nat.le_trans later after) found
  have untoken : ∀ {m b}, a ≤ m → (hp, b) ∉ tokensOf (state m) p := by
    intro m b later token
    rcases tokenReturning token with transmitted | staged | queued | found | release
    · obtain ⟨life, sim⟩ := op.sim m
      exact (sim.ports p).apart _ (transmittedHolds transmitted) token
    · obtain ⟨l, after, queued⟩ := comesToQueue op port (stagedIs staged)
      exact unqueued (Nat.le_trans later after) queued
    · exact unqueued later queued
    · exact unfound later found
    · exact unreleased later release
  obtain ⟨m, later, b, held | token⟩ := comesToTaken op port queue never heads
  · obtain ⟨l, after, b', token⟩ := comesToToken op port (fun l after => never l (Nat.le_trans later after)) (still later) ⟨b, held⟩
    exact untoken (Nat.le_trans later after) token
  · exact untoken later token

/-! All frames. -/

theorem freedKept (taken : step c s e = some t) {x : Nat × Nat} (freed : x ∈ s.freed) : x ∈ t.freed := by
  cases e with
  | call r =>
    obtain ⟨-, -, rfl⟩ := callMoves taken
    exact freed
  | accept i =>
    obtain ⟨n, r, -, -, -, -, -, rfl⟩ := acceptMoves taken
    exact freed
  | command i =>
    obtain ⟨-, rfl⟩ := commandMoves taken
    exact freed
  | timer =>
    obtain ⟨-, rfl⟩ := timerMoves taken
    exact freed
  | default =>
    obtain ⟨-, -, rfl⟩ := defaultMoves taken
    exact freed
  | server =>
    cases serverMoves taken with
    | free => exact List.mem_append_left _ freed
    | _ => exact freed
  | pins q held time =>
    cases pinsMove (pinsMoves taken).2 with
    | free => exact List.mem_append_left _ freed
    | _ => exact freed

theorem freedLater (op : Operation c state event) {x : Nat × Nat} (freed : x ∈ (state a).freed) {m : Nat} (later : a ≤ m) :
    x ∈ (state m).freed := by
  induction later with
  | refl => exact freed
  | @step m _ ih => exact freedKept (op.execution.next m) ih

theorem freedGone {life : Nat → Nat → Life} (sim : Sim c s life) (freed : (p, n) ∈ s.freed) :
    p ∈ freedOf s n ∧ life n p = .gone := by
  have member : p ∈ freedOf s n := List.mem_map.mpr ⟨(p, n), List.mem_filter.mpr ⟨freed, decide_eq_true rfl⟩, rfl⟩
  obtain ⟨r, known⟩ := simKnown sim (n := n) fun empty => by
    rw [show freedOf s n = [] from congrArg TxCourse.Course.freed empty] at member
    cases member
  refine ⟨member, ?_⟩
  by_contra kept
  have none : (freedOf s n).count p = 0 := ((sim.courses n r known).2.ports p).freed.trans (if_neg kept)
  exact absurd (List.count_pos_iff.mpr member) (by omega)

theorem lineFreed (op : Operation c state event) (port : p < c.ports) (queue : hp = true → c.hpQueue = true) {xs ys : List Nat}
    (place : line (state a) p hp = xs ++ n :: ys) : Comes state a fun s => (p, n) ∈ s.freed := by
  induction long : xs.length using Nat.strong_induction_on generalizing a xs ys with
  | _ long' ih =>
    subst long
    cases xs with
    | nil =>
      obtain ⟨buf, heads⟩ := headsLine.mpr ⟨ys, place⟩
      exact comesToFreed op port queue heads
    | cons x xs =>
      obtain ⟨buf, heads⟩ := headsLine.mpr ⟨xs ++ n :: ys, place⟩
      obtain ⟨b, later, freed⟩ := comesToFreed op port queue heads
      by_contra never
      have never : ∀ m, a ≤ m → (p, n) ∉ (state m).freed := fun m later freed => never ⟨m, later, freed⟩
      have still : ∀ m, a ≤ m → ∃ xs' ys', xs' <:+ x :: xs ∧ line (state m) p hp = xs' ++ n :: ys' := by
        intro m later
        induction later with
        | refl => exact ⟨x :: xs, ys, List.suffix_refl _, place⟩
        | @step m later ih =>
          obtain ⟨xs', ys', suffix, here⟩ := ih
          obtain ⟨life, sim⟩ := op.sim m
          have effect := stepEffect sim (op.orderly m) (op.execution.next m)
          obtain ⟨xs'', ys'', suffix', next⟩ := (effectFreed effect here).resolve_left (never (m + 1) (Nat.le_succ_of_le later))
          exact ⟨xs'', ys'', suffix'.trans suffix, next⟩
      obtain ⟨xs', ys', suffix, here⟩ := still b later
      have shorter : xs'.length < (x :: xs).length := by
        rcases List.suffix_cons_iff.mp suffix with rfl | inside
        · -- the head has gone
          obtain ⟨life, sim⟩ := op.sim b
          have member : x ∈ line (state b) p hp := by
            rw [here]
            exact List.mem_append_left _ List.mem_cons_self
          obtain ⟨r, -, -, -, kept⟩ := memLine sim member
          exact absurd (freedGone sim freed).2 kept
        · exact Nat.lt_succ_of_le inside.length_le
      obtain ⟨l, after, out⟩ := ih _ shorter here rfl
      exact never l (Nat.le_trans later after) out

theorem callFreed (op : Operation c state event) {r : Request} (known : (state a).calls[n]? = some r) (port : p < c.ports)
    (goes : r.goesTo p = true) : Comes state a fun s => (p, n) ∈ s.freed := by
  refine comesOn (comesToQueues op known) fun m later queues => ?_
  rcases queues p port goes with inside | freed
  · obtain ⟨xs, ys, place⟩ := List.append_of_mem inside
    exact lineFreed op port ((op.ready a).fits n r known).queue place
  · exact ⟨m, Nat.le_refl m, freed⟩

theorem allFreed (op : Operation c state event) {r : Request} (known : (state a).calls[n]? = some r) :
    Comes state a fun s => ∀ p < c.ports, r.goesTo p = true → (p, n) ∈ s.freed := by
  have below : ∀ k, k ≤ c.ports → Comes state a fun s => ∀ p < k, r.goesTo p = true → (p, n) ∈ s.freed := by
    intro k
    induction k with
    | zero => exact fun _ => ⟨a, Nat.le_refl a, fun p none => absurd none (Nat.not_lt_zero p)⟩
    | succ k ih =>
      intro port
      obtain ⟨m, later, all⟩ := ih (Nat.le_of_succ_le port)
      by_cases goes : r.goesTo k = true
      · obtain ⟨m', later', freed⟩ := callFreed op (knownLater op known later) port goes
        refine ⟨m', Nat.le_trans later later', fun p inside goes' => ?_⟩
        rcases Nat.lt_succ_iff_lt_or_eq.mp inside with less | rfl
        · exact freedLater op (all p less goes') later'
        · exact freed
      · refine ⟨m, later, fun p inside goes' => ?_⟩
        rcases Nat.lt_succ_iff_lt_or_eq.mp inside with less | rfl
        · exact all p less goes'
        · exact absurd goes' goes
  exact below c.ports (Nat.le_refl _)

end frames

end ScEthernet.Full.TxDrain
