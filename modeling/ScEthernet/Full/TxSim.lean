import ScEthernet.Full.TxPort

/-! Every step of the program is for each call a step of its course, or none. -/
namespace ScEthernet.Full.TxSim
open Lib.CircularFifo Lib.Runs Malloc PoolQueue TxTransfer TxServer TxPackets TxPort
open TxCourse (Phase Life Course Single Inv)

/-! What a state says of a call. -/

def phaseOf (x : Client) (n : Nat) : Phase :=
  if x = .calling n ∨ x = .transferring n then .before else if x = .waiting n then .waiting else .ended

def phaseIn (s : State) (n : Nat) : Phase :=
  match s.calls[n]? with
  | some r => phaseOf (s.clients r.link) n
  | none => .before

def nextOf : Server → Nat → Option Nat
  | .committing _ m p, n => if m = n then some p else none
  | _, _ => none

def sentOf (s : State) (n : Nat) : List Transmission := s.transmissions.filter (fun x => decide (x.call = n))
def freedOf (s : State) (n : Nat) : List Nat := (s.freed.filter (fun x => decide (x.2 = n))).map Prod.fst
def repliesOf (s : State) (n : Nat) : List Reply := s.replies.filter (fun a => decide (a.call = some n))

def courseOf (s : State) (n : Nat) (life : Nat → Life) : Course :=
  ⟨phaseIn s n, nextOf s.server n, life, sentOf s n, freedOf s n, repliesOf s n⟩

/-! What it says of a port. -/

def foundOf : Server → Nat → Option (Bool × Int)
  | .found q hp buf, p => if q = p then some (hp, buf) else none
  | _, _ => none

def releaseOf : Server → Nat → Option (Bool × Int)
  | .release q hp buf, p => if q = p then some (hp, buf) else none
  | _, _ => none

def tokensOf (s : State) (p : Nat) : List (Bool × Int) :=
  (releaseOf s.server p).toList ++ (foundOf s.server p).toList ++ (s.tsQueue p).contents macMaxEntries ++ (staged (s.pins p)).toList

def PortIn (s : State) (life : Nat → Nat → Life) (p : Nat) : Prop :=
  Port s.calls (fun hp => (s.pools p hp).queue) (s.owner p) (s.pins p) (tokensOf s p) (releaseOf s.server p) (fun n => life n p)

def Loading (c : Config) (s : State) : Prop :=
  match s.server with
  | .transfer i n j => s.clients i = .transferring n ∧ ∃ r, s.calls[n]? = some r ∧
      ∀ q < c.ports, ∃ buf dptr, (s.pools q r.hp).phase = .storing buf dptr r.length (r.data.take j)
  | .committing i n p => ∃ r, s.calls[n]? = some r ∧ r.link = i ∧
      ∀ q, p ≤ q → q < c.ports → ∃ buf dptr, (s.pools q r.hp).phase = .storing buf dptr r.length r.data
  | _ => True

/- `life` is where the frame of a call is at a port. -/
structure Sim (c : Config) (s : State) (life : Nat → Nat → Life) : Prop where
  links : ∀ i n, (s.clients i).call = some n → ∃ r, s.calls[n]? = some r ∧ r.link = i
  courses : ∀ n r, s.calls[n]? = some r → Single c r ∧ Inv c r n (courseOf s n (life n))
  unknown : ∀ n, s.calls[n]? = none → courseOf s n (life n) = TxCourse.initial
  stray : ∀ a ∈ s.replies, a.call ≠ none
  pending : ∀ i cmd, s.pendingCmd i = some cmd →
    (∃ n r, s.clients i = .transferring n ∧ s.calls[n]? = some r ∧ r.cmd = cmd) ∨ ∃ n p, s.server = .committing i n p
  loading : Loading c s
  pools : ∀ p hp, TxPool.Inv (s.pools p hp)
  fifos : ∀ p, (s.tsQueue p).Valid macMaxEntries
  ports : ∀ p, PortIn s life p

/-! The runs. -/

/- A timed frame goes to one port, a commit does not fill its ring, and mii_tx_pins takes what
mii_get_next_buf still returns. -/
def Orderly (c : Config) (s : State) : Event → Prop
  | .call r => Single c r
  | .server =>
    match s.server with
    | .committing _ n p =>
      match s.calls[n]? with
      | some r => r.goesTo p = true → TxPool.Spare (s.pools p r.hp) (.commit 0)
      | none => True
    | _ => True
  | .pins p held _ =>
    match s.pins p with
    | .looked hp buf => buf ≠ 0 ∧ miiPacketGetStage (s.pools p hp).pool buf = 1 ∧ (hp && held) = false →
        miiGetNextBuf (s.pools p hp).pool = buf
    | _ => True
  | _ => True

instance (s e) : Decidable (TxPool.Spare s e) := by unfold TxPool.Spare; split <;> (try split) <;> infer_instance
instance (c r) : Decidable (Single c r) := by unfold Single; infer_instance
instance (c s e) : Decidable (Orderly c s e) := by unfold Orderly; split <;> (try split) <;> (try split) <;> infer_instance

/- A buffer at stage 2 or on its way there: with mii_tx_pins, in ts_queue, or with the server. -/
def Returning (s : State) (p : Nat) (hp : Bool) (buf : Int) : Prop :=
  transmitted (s.pins p) = some (hp, buf) ∨ staged (s.pins p) = some (hp, buf) ∨
    (hp, buf) ∈ (s.tsQueue p).contents macMaxEntries ∨ s.server = .found p hp buf ∨ s.server = .release p hp buf

/- `once`: at each port the frame is still expected, or in a queue, or it has been sent and freed. `returns`: one that has
been sent and not freed is on its way to the server, if it is timed. -/
structure Sound (c : Config) (s : State) : Prop where
  answered : ∀ n r, s.calls[n]? = some r → r.timed = true →
    (repliesOf s n).length = if (s.clients r.link).call = some n then 0 else 1
  replies : ∀ a ∈ s.replies, ∃ n r, a.call = some n ∧ s.calls[n]? = some r ∧ r.timed = true ∧ a.link = r.link ∧
    ∃ x ∈ sentOf s n, x.data = r.data ∧ a.time = x.time + ethernetTxPhyTimerOffset
  transmissions : ∀ x ∈ s.transmissions, ∃ r, s.calls[x.call]? = some r ∧
    x.port < c.ports ∧ r.goesTo x.port = true ∧ x.data = r.data
  once : ∀ n r p, s.calls[n]? = some r →
    let sent := (sentOf s n).countP (fun x => decide (x.port = p))
    let freed := (freedOf s n).count p
    (¬ (p < c.ports ∧ r.goesTo p = true) ∨ phaseIn s n = .before ∨ ∃ q ≤ p, nextOf s.server n = some q) ∧ sent = 0 ∧ freed = 0 ∨
    (∃ k ∈ (s.pools p r.hp).queue, s.owner p r.hp k.buf = n) ∧ sent ≤ 1 ∧ freed = 0 ∨
    sent = 1 ∧ freed = 1 ∧ (r.timed = true → (s.clients r.link).call ≠ some n)
  returns : ∀ n r p, s.calls[n]? = some r → r.timed = true → (∃ x ∈ sentOf s n, x.port = p) → p ∉ freedOf s n →
    ∃ k ∈ (s.pools p r.hp).queue, s.owner p r.hp k.buf = n ∧ Returning s p r.hp k.buf

section states
variable {c : Config} {s t : State} {life life' : Nat → Nat → Life} {p q n : Nat} {hp : Bool} {r : Request}

theorem phaseEnded {x : Client} (h : phaseOf x n = .ended) : x.call ≠ some n := by
  cases x <;> simp [phaseOf, Client.call] at h ⊢ <;> exact h

theorem phaseCall {x : Client} (h : x.call ≠ some n) : phaseOf x n = .ended := by
  cases x <;> simp [phaseOf, Client.call] at h ⊢ <;> exact h

theorem phaseWaiting {x : Client} (h : phaseOf x n = .waiting) : x = .waiting n := by
  unfold phaseOf at h
  split at h
  · cases h
  · split at h
    · assumption
    · cases h

theorem phaseKnown (known : s.calls[n]? = some r) : phaseIn s n = phaseOf (s.clients r.link) n := by
  rw [phaseIn, known]

theorem memSent {x : Transmission} (member : x ∈ s.transmissions) : x ∈ sentOf s x.call :=
  List.mem_filter.mpr ⟨member, decide_eq_true rfl⟩

theorem memReplies {a : Reply} (member : a ∈ s.replies) (call : a.call = some n) : a ∈ repliesOf s n :=
  List.mem_filter.mpr ⟨member, decide_eq_true call⟩

theorem simKnown (sim : Sim c s life) (begun : courseOf s n (life n) ≠ TxCourse.initial) : ∃ r, s.calls[n]? = some r := by
  cases known : s.calls[n]? with
  | none => exact absurd (sim.unknown n known) begun
  | some r => exact ⟨r, rfl⟩

theorem queueOf (sim : Sim c s life) (known : s.calls[n]? = some r) (present : life n p ≠ .absent) (kept : life n p ≠ .gone) :
    ∃ k ∈ (s.pools p r.hp).queue, s.owner p r.hp k.buf = n := by
  obtain ⟨hp, k, member, owned⟩ := (sim.ports p).placed n present kept
  obtain ⟨r', packet⟩ := (sim.ports p).queues.packets hp k member
  have same := packet.known
  rw [owned, known] at same
  cases same
  rw [packet.hp]
  exact ⟨k, member, owned⟩

theorem foundIs {buf : Int} (found : foundOf s.server p = some (hp, buf)) : s.server = .found p hp buf := by
  unfold foundOf at found
  split at found
  · split at found <;> cases found
    rename_i same server
    rw [server, same]
  · cases found

theorem releaseIs {buf : Int} (release : releaseOf s.server p = some (hp, buf)) : s.server = .release p hp buf := by
  unfold releaseOf at release
  split at release
  · split at release <;> cases release
    rename_i same server
    rw [server, same]
  · cases release

theorem tokenReturning {buf : Int} (token : (hp, buf) ∈ tokensOf s p) : Returning s p hp buf := by
  simp only [tokensOf, List.mem_append, Option.mem_toList] at token
  rcases token with ((release | found) | queued) | staged
  · exact .inr (.inr (.inr (.inr (releaseIs release))))
  · exact .inr (.inr (.inr (.inl (foundIs found))))
  · exact .inr (.inr (.inl queued))
  · exact .inr (.inl staged)

theorem simSound (sim : Sim c s life) : Sound c s where
  answered n r known timed := by
    have answers := (sim.courses n r known).2.answers
    simp only [courseOf, timed, true_and, phaseKnown known] at answers
    rw [answers]
    by_cases inside : (s.clients r.link).call = some n
    · rw [if_pos inside, if_neg fun ended => phaseEnded ended inside]
    · rw [if_neg inside, if_pos (phaseCall inside)]
  replies a member := by
    obtain ⟨n, call⟩ := Option.ne_none_iff_exists'.mp (sim.stray a member)
    have inside := memReplies member call
    obtain ⟨r, known⟩ := simKnown sim (n := n) fun empty => by
      rw [show repliesOf s n = [] from congrArg Course.replies empty] at inside
      cases inside
    obtain ⟨timed, link, q, time, sent, at_⟩ := (sim.courses n r known).2.replies a inside
    exact ⟨n, r, call, known, timed, link, _, sent, rfl, at_⟩
  transmissions x member := by
    have inside := memSent member
    obtain ⟨r, known⟩ := simKnown sim (n := x.call) fun empty => by
      rw [show sentOf s x.call = [] from congrArg Course.sent empty] at inside
      cases inside
    obtain ⟨port, goes, data⟩ := (sim.courses x.call r known).2.frames x inside
    exact ⟨r, known, port, goes, data⟩
  once n r p known := by
    have course := (sim.courses n r known).2
    have port := course.ports p
    have sent : (sentOf s n).countP (fun x => decide (x.port = p)) = if (life n p).past then 1 else 0 := port.sent
    have freed : (freedOf s n).count p = if life n p = .gone then 1 else 0 := port.freed
    have inQueue := queueOf sim known (p := p)
    intro sentCount freedCount
    cases place : life n p with
    | absent =>
      refine .inl ⟨port.absent.mp place, ?_, ?_⟩
      · exact sent.trans (by rw [place]; rfl)
      · exact freed.trans (by rw [place]; rfl)
    | gone =>
      refine .inr (.inr ⟨sent.trans (by rw [place]; rfl), freed.trans (by rw [place]; rfl), fun timed => ?_⟩)
      have ended := port.ended timed (.inr place)
      exact phaseEnded ((phaseKnown known).symm.trans ended)
    | _ =>
      rw [place] at sent freed inQueue
      refine .inr (.inl ⟨inQueue (by simp) (by simp), ?_, freed.trans (if_neg (by simp))⟩)
      exact le_of_eq_of_le sent (by split <;> omega)
  returns n r p known timed sent kept := by
    have port := (sim.courses n r known).2.ports p
    have past : (life n p).past = true := by
      by_contra waits
      have none : (sentOf s n).countP (fun x => decide (x.port = p)) = 0 := port.sent.trans (if_neg waits)
      obtain ⟨x, member, at_⟩ := sent
      exact List.countP_eq_zero.mp none x member (decide_eq_true at_)
    have here : life n p ≠ .gone := by
      intro gone
      have one : (freedOf s n).count p = 1 := port.freed.trans (if_pos gone)
      exact kept (List.count_pos_iff.mp (by omega))
    obtain ⟨k, member, owned⟩ := queueOf sim known (fun absent => by rw [absent] at past; cases past) here
    have lives := (sim.ports p).lives r.hp k member
    refine ⟨k, member, owned, ?_⟩
    rw [owned, status] at lives
    split at lives
    · exact .inr (.inr (.inr (.inr (releaseIs ‹_›))))
    · split at lives
      · rename_i stamped
        exact stamped.elim tokenReturning .inl
      · rw [lives] at past
        cases past

/-! Steps. -/

structure Elsewhere (s t : State) (life life' : Nat → Nat → Life) (q : Nat) : Prop where
  pools : ∀ hp, (t.pools q hp).queue = (s.pools q hp).queue
  owner : t.owner q = s.owner q
  pins : t.pins q = s.pins q
  tsQueue : t.tsQueue q = s.tsQueue q
  found : foundOf t.server q = foundOf s.server q
  release : releaseOf t.server q = releaseOf s.server q
  life : ∀ n, life' n q = life n q

theorem portKept (ok : PortIn s life q) (calls : t.calls = s.calls) (same : Elsewhere s t life life' q) : PortIn t life' q := by
  have queue : (fun hp => (t.pools q hp).queue) = fun hp => (s.pools q hp).queue := funext same.pools
  have lives : (fun n => life' n q) = fun n => life n q := funext same.life
  unfold PortIn tokensOf
  rw [calls, queue, lives, same.owner, same.pins, same.tsQueue, same.found, same.release]
  exact ok

theorem courseIs {phase : Phase} {next : Option Nat} {sent : List Transmission} {freed : List Nat} {replies : List Reply}
    (h : phaseIn t n = phase) (h' : nextOf t.server n = next) (h₁ : sentOf t n = sent) (h₂ : freedOf t n = freed)
    (h₃ : repliesOf t n = replies) {l : Nat → Life} : courseOf t n l = ⟨phase, next, l, sent, freed, replies⟩ := by
  rw [courseOf, h, h', h₁, h₂, h₃]

theorem simKeeps (sim : Sim c s life) (calls : t.calls = s.calls)
    (links : ∀ i n, (t.clients i).call = some n → (s.clients i).call = some n)
    (courses : ∀ n r, s.calls[n]? = some r → courseOf t n (life' n) = courseOf s n (life n) ∨
      TxCourse.Step c r n (courseOf s n (life n)) (courseOf t n (life' n)))
    (unknown : ∀ n, s.calls[n]? = none → courseOf t n (life' n) = courseOf s n (life n))
    (stray : ∀ a ∈ t.replies, a ∈ s.replies ∨ a.call ≠ none)
    (pending : ∀ i cmd, t.pendingCmd i = some cmd →
      (∃ n r, t.clients i = .transferring n ∧ s.calls[n]? = some r ∧ r.cmd = cmd) ∨ ∃ n p, t.server = .committing i n p)
    (loading : Loading c t) (pools : ∀ p hp, TxPool.Inv (t.pools p hp)) (fifos : ∀ p, (t.tsQueue p).Valid macMaxEntries)
    (ports : ∀ p, PortIn t life' p) : Sim c t life' where
  links i n inside := by
    rw [calls]
    exact sim.links i n (links i n inside)
  courses n r known := by
    rw [calls] at known
    obtain ⟨single, inv⟩ := sim.courses n r known
    refine ⟨single, ?_⟩
    rcases courses n r known with same | step
    · rw [same]
      exact inv
    · exact TxCourse.stepKeeps inv single step
  unknown n none := by
    rw [calls] at none
    exact (unknown n none).trans (sim.unknown n none)
  stray a member := (stray a member).elim (sim.stray a) id
  pending i cmd some := by
    rw [calls]
    exact pending i cmd some
  loading := loading
  pools := pools
  fifos := fifos
  ports := ports

theorem oneCourse (known : s.calls[n]? = some r)
    (step : TxCourse.Step c r n (courseOf s n (life n)) (courseOf t n (life' n)))
    (others : ∀ m, m ≠ n → courseOf t m (life' m) = courseOf s m (life m)) :
    (∀ m r, s.calls[m]? = some r → courseOf t m (life' m) = courseOf s m (life m) ∨
      TxCourse.Step c r m (courseOf s m (life m)) (courseOf t m (life' m))) ∧
    ∀ m, s.calls[m]? = none → courseOf t m (life' m) = courseOf s m (life m) := by
  refine ⟨fun m r' known' => ?_, fun m unknown => others m ?_⟩
  · by_cases same : m = n
    · subst same
      rw [known] at known'
      cases known'
      exact .inr step
    · exact .inl (others m same)
  · rintro rfl
    rw [known] at unknown
    cases unknown

theorem portsSplit (here : PortIn t life' p) (ports : ∀ q, PortIn s life q) (calls : t.calls = s.calls)
    (there : ∀ q, q ≠ p → Elsewhere s t life life' q) (q : Nat) : PortIn t life' q := by
  by_cases same : q = p
  · rw [same]
    exact here
  · exact portKept (ports q) calls (there q same)

theorem simServer (sim : Sim c s life) {server : Server} {enabled : Nat → Bool} {pendingCmd : Nat → Option Cmd}
    {pools : Nat → Bool → TxPool.State}
    (quiet : ∀ p hp, (pools p hp).queue = (s.pools p hp).queue ∧ TxPool.Inv (pools p hp))
    (next : nextOf server = nextOf s.server) (found : foundOf server = foundOf s.server)
    (release : releaseOf server = releaseOf s.server)
    (pending : ∀ i cmd, pendingCmd i = some cmd →
      (∃ n r, s.clients i = .transferring n ∧ s.calls[n]? = some r ∧ r.cmd = cmd) ∨ ∃ n p, server = .committing i n p)
    (loading : Loading c { s with server := server, enabled := enabled, pendingCmd := pendingCmd, pools := pools }) :
    Sim c { s with server := server, enabled := enabled, pendingCmd := pendingCmd, pools := pools } life := by
  have same : ∀ n, courseOf { s with server := server, enabled := enabled, pendingCmd := pendingCmd, pools := pools } n (life n) =
      courseOf s n (life n) := fun n => courseIs rfl (congrFun next n) rfl rfl rfl
  refine simKeeps sim rfl (fun i n inside => inside) (fun n r _ => .inl (same n)) (fun n _ => same n) (fun a => .inl) pending
    loading (fun p hp => (quiet p hp).2) sim.fifos fun p => portKept (sim.ports p) rfl ?_
  exact { pools := fun hp => (quiet p hp).1, owner := rfl, pins := rfl, tsQueue := rfl, found := congrFun found p
          release := congrFun release p, life := fun _ => rfl }

end states

/-! The calls of the pools. -/

section calls
variable {c : Config} {s t : State} {p n : Nat} {hp : Bool} {e : TxPool.Event}

theorem onPoolStep (taken : onPool c s p hp e = some t) :
    ∃ u, TxPool.step c.forwards (s.pools p hp) e = some u ∧ t = { s with pools := setPool s.pools p hp u } := by
  obtain ⟨u, step, rfl⟩ := Option.map_eq_some_iff.mp taken
  exact ⟨u, step, rfl⟩

theorem eachPortSteps (taken : eachPort c hp e n s = some t) : ∃ pools, t = { s with pools := pools } ∧
    ∀ p h, (p < n ∧ h = hp → TxPool.step c.forwards (s.pools p h) e = some (pools p h)) ∧
      (¬ (p < n ∧ h = hp) → pools p h = s.pools p h) := by
  induction n generalizing t with
  | zero =>
    cases taken
    exact ⟨s.pools, rfl, fun p h => ⟨fun below => absurd below.1 (Nat.not_lt_zero p), fun _ => rfl⟩⟩
  | succ n ih =>
    obtain ⟨m, first, last⟩ := Option.bind_eq_some_iff.mp taken
    obtain ⟨pools, rfl, below⟩ := ih first
    obtain ⟨u, step, rfl⟩ := onPoolStep last
    refine ⟨setPool pools n hp u, rfl, fun p h => ?_⟩
    by_cases here : p = n ∧ h = hp
    · obtain ⟨rfl, rfl⟩ := here
      rw [setPoolSame]
      refine ⟨fun _ => ?_, fun away => absurd ⟨Nat.lt_succ_self p, rfl⟩ away⟩
      rw [← (below p h).2 fun inside => Nat.lt_irrefl p inside.1]
      exact step
    · rw [setPoolOther here]
      refine ⟨fun inside => (below p h).1 ⟨?_, inside.2⟩, fun away => (below p h).2 fun inside => away ⟨?_, inside.2⟩⟩
      · exact Nat.lt_of_le_of_ne (Nat.le_of_lt_succ inside.1) fun same => here ⟨same, inside.2⟩
      · exact Nat.lt_succ_of_lt inside.1

theorem quietEach (invs : ∀ p hp, TxPool.Inv (s.pools p hp)) (quiet : Quiet e) {pools : Nat → Bool → TxPool.State}
    (each : ∀ p h, TxPool.step c.forwards (s.pools p h) e = some (pools p h) ∨ pools p h = s.pools p h) (p : Nat) (h : Bool) :
    (pools p h).queue = (s.pools p h).queue ∧ TxPool.Inv (pools p h) := by
  rcases each p h with step | same
  · exact ⟨quietQueue quiet step, invKeeps (invs p h) (quietSpare quiet) step⟩
  · rw [same]
    exact ⟨rfl, invs p h⟩

theorem transactionIs {i : Nat} {r : Request} (client : s.clients i = .transferring n) (known : s.calls[n]? = some r) :
    transaction s i = some (n, r) := by
  simp [transaction, client, known]

end calls

section places
variable {c : Config} {s t : State} {life : Nat → Nat → Life} {n m p q : Nat} {hp : Bool} {x : Life}

def place (life : Nat → Nat → Life) (n p : Nat) (x : Life) : Nat → Nat → Life := set life n (set (life n) p x)

theorem placeCall (life : Nat → Nat → Life) (n p : Nat) (x : Life) : place life n p x n = set (life n) p x := setSame ..
theorem placeCalls (other : m ≠ n) : place life n p x m = life m := setOther other _

theorem placeHere (life : Nat → Nat → Life) (n p : Nat) (x : Life) :
    (fun m => place life n p x m p) = set (fun m => life m p) n x := by
  funext m
  by_cases same : m = n
  · subst same
    rw [placeCall, setSame, setSame]
  · rw [placeCalls same, setOther same]

theorem placeThere (other : q ≠ p) (m : Nat) : place life n p x m q = life m q := by
  by_cases same : m = n
  · subst same
    rw [placeCall, setOther other]
  · rw [placeCalls same]

theorem setPoolAt {α : Type} (f : Nat → Bool → α) (p : Nat) (hp : Bool) (y : α) :
    setPool f p hp y p = Function.update (f p) hp y := by
  funext h
  by_cases here : h = hp
  · subst here
    rw [setPoolSame, Function.update_self]
  · rw [setPoolOther fun both => here both.2, Function.update_of_ne here]

theorem setPoolThere {α : Type} {f : Nat → Bool → α} (other : q ≠ p) (y : α) : setPool f p hp y q = f q :=
  funext fun _ => setPoolOther (fun both => other both.1) y

theorem queuesAt (pools : Nat → Bool → TxPool.State) (p : Nat) (hp : Bool) (u : TxPool.State) :
    (fun h => (setPool pools p hp u p h).queue) = Function.update (fun h => (pools p h).queue) hp u.queue := by
  rw [setPoolAt]
  exact Function.comp_update TxPool.State.queue (pools p) hp u

theorem invsPool (sim : Sim c s life) {u : TxPool.State} (inv : TxPool.Inv u) (q : Nat) (h : Bool) :
    TxPool.Inv (setPool s.pools p hp u q h) := by
  unfold setPool
  split
  · exact inv
  · exact sim.pools q h

theorem getterOf (sim : Sim c s life) {k : Pkt} (head : (s.pools p hp).queue.head? = some k) (f : Field) :
    getField f (s.pools p hp).pool k.buf = k.header f := headerOf (sim.pools p hp) (List.mem_of_mem_head? head) f

theorem headFree (sim : Sim c s life) {k : Pkt} (head : (s.pools p hp).queue.head? = some k) {u : TxPool.State}
    (step : TxPool.step c.forwards (s.pools p hp) (.free k.buf) = some u) :
    ∃ rest, (s.pools p hp).queue = k :: rest ∧ u.queue = rest ∧ TxPool.Inv u := by
  obtain ⟨rest, queue⟩ := List.head?_eq_some_iff.mp head
  have ok := sim.ports p
  have live : ∀ k' ∈ k :: rest, k'.freed = false := by
    intro k' member
    rw [← queue] at member
    obtain ⟨r, packet⟩ := ok.queues.packets hp k' member
    exact packet.live
  have bufs := ok.queues.bufs hp
  simp only [queue] at bufs
  refine ⟨rest, queue, ?_, invKeeps (e := .free k.buf) (sim.pools p hp) trivial step⟩
  rw [(freeQueue step).1, queue]
  exact freeHead live bufs

theorem freedOther {s t : State} {m : Nat} (freed : t.freed = s.freed ++ [(p, n)]) (other : m ≠ n) :
    freedOf t m = freedOf s m := by
  simp [freedOf, freed, List.filter_append, Ne.symm other]

theorem freedSame {s t : State} (freed : t.freed = s.freed ++ [(p, n)]) : freedOf t n = freedOf s n ++ [p] := by
  simp [freedOf, freed, List.filter_append]

theorem onePlace {r : Request} (known : s.calls[n]? = some r)
    (step : TxCourse.Step c r n (courseOf s n (life n)) (courseOf t n (set (life n) p x)))
    (others : ∀ m, m ≠ n → courseOf t m (life m) = courseOf s m (life m)) :
    (∀ m r, s.calls[m]? = some r → courseOf t m (place life n p x m) = courseOf s m (life m) ∨
      TxCourse.Step c r m (courseOf s m (life m)) (courseOf t m (place life n p x m))) ∧
    ∀ m, s.calls[m]? = none → courseOf t m (place life n p x m) = courseOf s m (life m) := by
  refine oneCourse known ?_ fun m other => ?_
  · rw [placeCall]
    exact step
  · rw [placeCalls other]
    exact others m other

end places

end ScEthernet.Full.TxSim
