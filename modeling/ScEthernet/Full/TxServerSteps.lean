import ScEthernet.Full.TxSim

/-! Each step of ethernet_tx_server keeps the simulation. -/
namespace ScEthernet.Full.TxServerSteps
open Lib.CircularFifo Lib.Runs Malloc PoolQueue TxTransfer TxServer TxPackets TxPort TxSim
open TxCourse (Phase Life Course Single Inv)

section server
variable {c : Config} {s t : State} {life : Nat → Nat → Life} {i p n j : Nat} {hp : Bool} {buf : Int} {k : Pkt}

def Plain : Server → Prop
  | .loop _ | .reserving _ _ | .select | .replying _ => True
  | _ => False

theorem plainViews {x : Server} (plain : Plain x) :
    nextOf x = (fun _ => none) ∧ foundOf x = (fun _ => none) ∧ releaseOf x = (fun _ => none) := by
  cases x <;> first | exact plain.elim | exact ⟨rfl, rfl, rfl⟩

theorem plainLoading (plain : Plain s.server) : Loading c s := by
  unfold Loading
  split
  · rename_i server
    rw [server] at plain
    exact plain.elim
  · rename_i server
    rw [server] at plain
    exact plain.elim
  · trivial

theorem idleOf {x : Server} (server : s.server = x) (none : nextOf x = fun _ => Option.none) (i n p : Nat) :
    s.server ≠ .committing i n p := by
  intro same
  rw [← server, same] at none
  have := congrFun none n
  simp [nextOf] at this

theorem pendingClient (sim : Sim c s life) {x : Server} (server : s.server = x) (none : nextOf x = fun _ => Option.none)
    {cmd : Cmd}
    (pending : s.pendingCmd i = some cmd) : ∃ n r, s.clients i = .transferring n ∧ s.calls[n]? = some r ∧ r.cmd = cmd := by
  rcases sim.pending i cmd pending with waiting | ⟨n, p, same⟩
  · exact waiting
  · exact absurd same (idleOf server none i n p)

theorem simPlain (sim : Sim c s life) (old : Plain s.server) (server : Server) (new : Plain server) {enabled : Nat → Bool}
    {pools : Nat → Bool → TxPool.State} (quiet : ∀ p hp, (pools p hp).queue = (s.pools p hp).queue ∧ TxPool.Inv (pools p hp)) :
    Sim c { s with server := server, enabled := enabled, pools := pools } life := by
  obtain ⟨next, found, release⟩ := plainViews old
  obtain ⟨next', found', release'⟩ := plainViews new
  exact simServer sim quiet (next'.trans next.symm) (found'.trans found.symm) (release'.trans release.symm)
    (fun i cmd pending => .inl (pendingClient sim rfl next pending)) (plainLoading new)

theorem sameQuiet (sim : Sim c s life) (p : Nat) (hp : Bool) :
    (s.pools p hp).queue = (s.pools p hp).queue ∧ TxPool.Inv (s.pools p hp) := ⟨rfl, sim.pools p hp⟩

theorem loopKeeps (sim : Sim c s life) (server : s.server = .loop i) (taken : serverStep c s = some t) : Sim c t life := by
  have old : Plain s.server := by rw [server]; trivial
  simp only [serverStep, server] at taken
  split at taken <;> cases taken
  · refine simPlain sim old _ ?_ (sameQuiet sim)
    split <;> trivial
  · exact simPlain sim old .select trivial (sameQuiet sim)

theorem reservingKeeps (sim : Sim c s life) (server : s.server = .reserving i p) (taken : serverStep c s = some t) :
    Sim c t life := by
  have old : Plain s.server := by rw [server]; trivial
  simp only [serverStep, server] at taken
  obtain ⟨cmd, pending, taken⟩ := Option.bind_eq_some_iff.mp taken
  split at taken
  · obtain ⟨m, reserved, last⟩ := Option.bind_eq_some_iff.mp taken
    cases last
    obtain ⟨u, step, rfl⟩ := onPoolStep reserved
    refine simPlain sim old (.reserving i (p + 1)) trivial (quietEach (c := c) sim.pools (e := .reserve) trivial fun q h => ?_)
    by_cases here : q = p ∧ h = (withoutHp cmd).2
    · obtain ⟨rfl, rfl⟩ := here
      exact .inl (step.trans (congrArg some (setPoolSame _ _ _ u).symm))
    · exact .inr (setPoolOther here u)
  · split at taken
    · obtain ⟨n, r, transferring, known, rfl⟩ := pendingClient sim server rfl pending
      simp only [transactionIs transferring known, Option.bind_eq_bind, Option.bind_some] at taken
      obtain ⟨m, lengths, last⟩ := Option.bind_eq_some_iff.mp taken
      cases last
      obtain ⟨pools, rfl, each⟩ := eachPortSteps lengths
      obtain ⟨next, found, release⟩ := plainViews old
      refine simServer sim (quietEach (c := c) sim.pools (e := .length r.length) trivial fun q h => ?_) next.symm found.symm release.symm
        (fun i cmd pending => .inl (pendingClient sim rfl next pending)) ⟨transferring, r, known, fun q below => ?_⟩
      · by_cases here : q < c.ports ∧ h = r.hp
        · exact .inl ((each q h).1 here)
        · exact .inr ((each q h).2 here)
      · exact lengthPhase ((each q r.hp).1 ⟨below, rfl⟩)
    · obtain ⟨m, abandoned, last⟩ := Option.bind_eq_some_iff.mp taken
      cases last
      obtain ⟨pools, rfl, each⟩ := eachPortSteps abandoned
      refine simPlain sim old (.loop (i + 1)) trivial (quietEach (c := c) sim.pools (e := .abandon) trivial fun q h => ?_)
      by_cases here : q < c.ports ∧ h = (withoutHp cmd).2
      · exact .inl ((each q h).1 here)
      · exact .inr ((each q h).2 here)

def transferred (s : State) (i n : Nat) (r : Request) : State :=
  { s with clients := set s.clients i (if r.timed then .waiting n else .idle), server := .committing i n 0 }

theorem transferredCourse {r : Request} (idle : ∀ i n p, s.server ≠ .committing i n p) (client : s.clients i = .transferring n)
    {m : Nat} (other : m ≠ n) (l : Nat → Life) : courseOf (transferred s i n r) m l = courseOf s m l := by
  refine courseIs ?_ ?_ rfl rfl rfl
  · cases known : s.calls[m]? with
    | none => simp only [phaseIn, transferred, known]
    | some r' =>
      simp only [phaseIn, transferred, known]
      by_cases same : r'.link = i
      · have away : n ≠ m := Ne.symm other
        rw [same, setSame, client]
        split <;> simp [phaseOf, away]
      · rw [setOther same]
  · have before : nextOf s.server m = none := by
      cases server : s.server with
      | committing i n p => exact absurd server (idle i n p)
      | _ => rfl
    rw [before]
    exact if_neg (Ne.symm other)

theorem transferStep {r : Request} (client : s.clients i = .transferring n) (known : s.calls[n]? = some r)
    (link : r.link = i) :
    TxCourse.Step c r n (courseOf s n (life n)) (courseOf (transferred s i n r) n (life n)) := by
  have before : phaseIn s n = .before := by rw [phaseKnown known, link, client]; simp [phaseOf]
  have moved : courseOf (transferred s i n r) n (life n) =
      { courseOf s n (life n) with phase := if r.timed then .waiting else .ended, next := some 0 } := by
    refine courseIs ?_ ?_ rfl rfl rfl
    · rw [phaseKnown (s := transferred s i n r) known, transferred]
      simp only [link, setSame]
      split <;> simp [phaseOf]
    · exact if_pos rfl
  rw [moved]
  exact .transfer before

theorem transferKeeps (sim : Sim c s life) (server : s.server = .transfer i n j) (taken : serverStep c s = some t) :
    Sim c t life := by
  have loading := sim.loading
  simp only [Loading, server] at loading
  obtain ⟨transferring, r, known, words⟩ := loading
  simp only [serverStep, server] at taken
  simp only [transactionIs transferring known, Option.bind_eq_bind, Option.bind_some] at taken
  cases datum : r.data[j]? with
  | some datum' =>
    simp only [datum] at taken
    obtain ⟨m, stored, last⟩ := Option.bind_eq_some_iff.mp taken
    cases last
    obtain ⟨pools, rfl, each⟩ := eachPortSteps stored
    refine simServer sim (quietEach (c := c) sim.pools (e := .word datum') trivial fun q h => ?_) (by rw [server]; rfl)
      (by rw [server]; rfl) (by rw [server]; rfl) (fun i cmd pending => .inl (pendingClient sim server rfl pending))
      ⟨transferring, r, known, fun q below => ?_⟩
    · by_cases here : q < c.ports ∧ h = r.hp
      · exact .inl ((each q h).1 here)
      · exact .inr ((each q h).2 here)
    · obtain ⟨buf, dptr, phase⟩ := words q below
      obtain ⟨dptr', phase'⟩ := wordPhase phase ((each q r.hp).1 ⟨below, rfl⟩)
      refine ⟨buf, dptr', phase'.trans ?_⟩
      rw [List.take_add_one, datum]
      rfl
  | none =>
    simp only [datum] at taken
    cases taken
    obtain ⟨r', known', link⟩ := sim.links i n (by rw [transferring]; rfl)
    rw [known] at known'
    cases known'
    obtain ⟨courses, unknown⟩ := oneCourse known (transferStep transferring known link)
      fun m other => transferredCourse (idleOf server rfl) transferring other (life m)
    refine simKeeps sim rfl ?_ courses unknown (fun a => .inl) ?_ ?_ sim.pools sim.fifos fun p => ?_
    · intro k m inside
      by_cases same : k = i
      · subst same
        rw [transferring]
        simp only [setSame] at inside
        split at inside <;> cases inside
        rfl
      · simpa only [setOther same] using inside
    · intro k cmd pending
      by_cases same : k = i
      · exact .inr ⟨n, 0, by rw [same]⟩
      · obtain ⟨m, r', client, rest⟩ := pendingClient sim server rfl pending
        exact .inl ⟨m, r', (setOther same _).trans client, rest⟩
    · refine ⟨r, known, link, fun q _ below => ?_⟩
      have phase := words q below
      rwa [List.take_of_length_le (List.getElem?_eq_none_iff.mp datum)] at phase
    · exact portKept (sim.ports p) rfl ⟨fun _ => rfl, rfl, rfl, rfl, by rw [server]; rfl, by rw [server]; rfl, fun _ => rfl⟩

theorem commitPort (sim : Sim c s life) {r : Request} (known : s.calls[n]? = some r) (link : r.link = i) {dptr : Int}
    (phase : (s.pools p r.hp).phase = .storing buf dptr r.length r.data) (absent : life n p = .absent) {u : TxPool.State}
    (inv : TxPool.Inv u)
    (step : TxPool.step c.forwards (s.pools p r.hp) (.commit (if r.timed then (i : Int) + 1 else 0)) = some u) :
    Port s.calls (Function.update (fun h => (s.pools p h).queue) r.hp u.queue) (owned (s.owner p) r.hp buf n) (s.pins p)
      (tokensOf s p) (releaseOf s.server p) (set (fun m => life m p) n .queued) := by
  obtain ⟨buf', dptr', length, frame, phase', full, queue, -⟩ := commitQueue inv step
  rw [phase] at phase'
  cases phase'
  have bufs := queueBufs inv
  rw [queue, List.map_append, List.nodup_append] at bufs
  rw [queue]
  refine portEnter (sim.ports p) (r := r) ?_ (fun k' old same => ?_) absent rfl
  · exact { known := known, hp := rfl, live := rfl, data := rfl, words := full, length := rfl, tcount := rfl
            timestampId := by rw [link]; rfl }
  · exact bufs.2.2 _ (List.mem_map_of_mem old) _ (List.mem_singleton.mpr rfl) same

def entered (s : State) (i n p : Nat) (r : Request) (u : TxPool.State) : State :=
  { s with pools := setPool s.pools p r.hp u, server := .committing i n (p + 1)
           owner := setPool s.owner p r.hp (fun buf => if buf = reservedBuf (s.pools p r.hp) then n else s.owner p r.hp buf) }

theorem pendingOn (sim : Sim c s life) (server : s.server = .committing i n p) (q k : Nat) (cmd : Cmd)
    (some : s.pendingCmd k = some cmd) :
    (∃ n r, s.clients k = .transferring n ∧ s.calls[n]? = Option.some r ∧ r.cmd = cmd) ∨
      ∃ m q', Server.committing i n q = .committing k m q' := by
  refine (sim.pending k cmd some).imp_right ?_
  rintro ⟨m, q', same⟩
  rw [server] at same
  cases same
  exact ⟨n, q, rfl⟩

theorem enterKeeps (sim : Sim c s life) (server : s.server = .committing i n p) {r : Request} (known : s.calls[n]? = some r)
    (link : r.link = i) (port : p < c.ports) (goes : r.goesTo p = true)
    (words : ∀ q, p ≤ q → q < c.ports → ∃ buf dptr, (s.pools q r.hp).phase = .storing buf dptr r.length r.data)
    {u : TxPool.State} (inv : TxPool.Inv u)
    (step : TxPool.step c.forwards (s.pools p r.hp) (.commit (if r.timed then (i : Int) + 1 else 0)) = some u) :
    Sim c (entered s i n p r u) (place life n p .queued) := by
  have next : nextOf s.server n = some p := by rw [server]; exact if_pos rfl
  have absent : life n p = .absent := ((sim.courses n r known).2.ports p).absent.mpr (.inr (.inr ⟨p, Nat.le_refl p, next⟩))
  obtain ⟨buf, dptr, phase⟩ := words p (Nat.le_refl p) port
  have reserved : reservedBuf (s.pools p r.hp) = buf := by rw [reservedBuf, phase]
  have moved : TxCourse.Step c r n (courseOf s n (life n)) (courseOf (entered s i n p r u) n (set (life n) p .queued)) := by
    have nextIs : nextOf (entered s i n p r u).server n = some (p + 1) := if_pos rfl
    rw [courseIs (t := entered s i n p r u) rfl nextIs rfl rfl rfl]
    exact .enter (k := courseOf s n (life n)) next port goes
  obtain ⟨courses, unknown⟩ := onePlace known moved fun m other => by
    refine courseIs rfl ?_ rfl rfl rfl
    rw [server]
    exact (if_neg (Ne.symm other)).trans (if_neg (Ne.symm other)).symm
  refine simKeeps sim rfl (fun i n inside => inside) courses unknown (fun a => .inl) (pendingOn sim server (p + 1)) ?_
    (invsPool sim inv) sim.fifos (portsSplit (p := p) ?_ sim.ports rfl fun q other => ?_)
  · refine ⟨r, known, link, fun q above below => ?_⟩
    have away : ¬ (q = p ∧ r.hp = r.hp) := fun both => absurd both.1 (by omega)
    obtain ⟨buf, dptr, phase⟩ := words q (Nat.le_of_succ_le above) below
    exact ⟨buf, dptr, (congrArg TxPool.State.phase (setPoolOther away u)).trans phase⟩
  · have tokens : tokensOf (entered s i n p r u) p = tokensOf s p := by
      unfold tokensOf
      rw [server]
      rfl
    have port := commitPort sim known link phase absent inv step
    unfold PortIn
    rw [tokens, placeHere]
    simp only [entered]
    rw [queuesAt, setPoolAt, reserved]
    rw [server] at port
    exact port
  · exact { pools := fun h => congrArg TxPool.State.queue (congrFun (setPoolThere other u) h), owner := setPoolThere other _
            pins := rfl, tsQueue := rfl, found := by rw [server]; rfl, release := by rw [server]; rfl, life := placeThere other }

theorem walkKeeps (sim : Sim c s life) (server : s.server = .committing i n p) {r : Request} (known : s.calls[n]? = some r)
    {next : Server} {enabled : Nat → Bool} {pendingCmd : Nat → Option Cmd} {pools : Nat → Bool → TxPool.State}
    (quiet : ∀ p hp, (pools p hp).queue = (s.pools p hp).queue ∧ TxPool.Inv (pools p hp))
    (step : TxCourse.Step c r n (courseOf s n (life n)) { courseOf s n (life n) with next := nextOf next n })
    (others : ∀ m, m ≠ n → nextOf next m = none) (found : ∀ q, foundOf next q = none) (release : ∀ q, releaseOf next q = none)
    (pending : ∀ k cmd, pendingCmd k = some cmd →
      (∃ n r, s.clients k = .transferring n ∧ s.calls[n]? = some r ∧ r.cmd = cmd) ∨ ∃ n p, next = .committing k n p)
    (loading : Loading c { s with server := next, enabled := enabled, pendingCmd := pendingCmd, pools := pools }) :
    Sim c { s with server := next, enabled := enabled, pendingCmd := pendingCmd, pools := pools } life := by
  have old : ∀ m, m ≠ n → nextOf s.server m = none := by
    intro m other
    rw [server]
    exact if_neg (Ne.symm other)
  have others : ∀ m, m ≠ n →
      courseOf { s with server := next, enabled := enabled, pendingCmd := pendingCmd, pools := pools } m (life m) =
        courseOf s m (life m) := fun m other => courseIs rfl ((others m other).trans (old m other).symm) rfl rfl rfl
  obtain ⟨courses, unknown⟩ := oneCourse known step others
  refine simKeeps sim rfl (fun i n inside => inside) courses unknown (fun a => .inl) pending loading (fun q h => (quiet q h).2)
    sim.fifos fun q => portKept (sim.ports q) rfl ?_
  exact { pools := fun h => (quiet q h).1, owner := rfl, pins := rfl, tsQueue := rfl, life := fun _ => rfl
          found := by rw [server]; exact found q
          release := by rw [server]; exact release q }

theorem committingKeeps (sim : Sim c s life) (server : s.server = .committing i n p) (orderly : Orderly c s .server)
    (taken : serverStep c s = some t) : ∃ life', Sim c t life' := by
  have loading := sim.loading
  simp only [Loading, server] at loading
  obtain ⟨r, known, link, words⟩ := loading
  have next : nextOf s.server n = some p := by rw [server]; exact if_pos rfl
  simp only [Orderly, server, known] at orderly
  simp only [serverStep, server, known, Option.bind_eq_bind, Option.bind_some] at taken
  split at taken
  · rename_i port
    split at taken
    · rename_i goes
      obtain ⟨m, committed, last⟩ := Option.bind_eq_some_iff.mp taken
      cases last
      obtain ⟨u, step, rfl⟩ := onPoolStep committed
      have spare : TxPool.Spare (s.pools p r.hp) (.commit (if r.timed then (i : Int) + 1 else 0)) := orderly goes
      exact ⟨_, enterKeeps sim server known link port goes words (invKeeps (sim.pools p r.hp) spare step) step⟩
    · rename_i stays
      obtain ⟨m, abandoned, last⟩ := Option.bind_eq_some_iff.mp taken
      cases last
      obtain ⟨u, step, rfl⟩ := onPoolStep abandoned
      have here : nextOf (.committing i n (p + 1)) n = some (p + 1) := if_pos rfl
      refine ⟨life, walkKeeps sim server known (quietEach (c := c) sim.pools (e := .abandon) trivial fun q h => ?_) ?_
        (fun m other => if_neg (Ne.symm other)) (fun _ => rfl) (fun _ => rfl) (pendingOn sim server (p + 1)) ?_⟩
      · by_cases at_ : q = p ∧ h = r.hp
        · obtain ⟨rfl, rfl⟩ := at_
          exact .inl (step.trans (congrArg some (setPoolSame _ _ _ u).symm))
        · exact .inr (setPoolOther at_ u)
      · rw [here]
        exact .pass next (Bool.eq_false_iff.mpr stays)
      · refine ⟨r, known, link, fun q above below => ?_⟩
        have away : ¬ (q = p ∧ r.hp = r.hp) := fun both => absurd both.1 (by omega)
        obtain ⟨buf, dptr, phase⟩ := words q (Nat.le_of_succ_le above) below
        exact ⟨buf, dptr, (congrArg TxPool.State.phase (setPoolOther away u)).trans phase⟩
  · rename_i last
    cases taken
    refine ⟨life, walkKeeps sim server known (sameQuiet sim) (.done next last) (fun _ _ => rfl) (fun _ => rfl) (fun _ => rfl)
      (fun k cmd pending => ?_) trivial⟩
    by_cases same : k = i
    · rw [same, setSame] at pending
      cases pending
    · rw [setOther same] at pending
      refine .inl ((sim.pending k cmd pending).resolve_right ?_)
      rintro ⟨m, q, other⟩
      rw [server] at other
      cases other
      exact same rfl

theorem popKeeps (sim : Sim c s life) (server : s.server = .replying p) (some : (s.tsQueue p).rd ≠ (s.tsQueue p).wr)
    (cell : (s.tsQueue p).cells (s.tsQueue p).rd = (hp, buf)) :
    Sim c { s with tsQueue := set s.tsQueue p ((s.tsQueue p).pop macMaxEntries), server := .found p hp buf } life := by
  have same : ∀ n,
      courseOf { s with tsQueue := set s.tsQueue p ((s.tsQueue p).pop macMaxEntries), server := .found p hp buf } n (life n) =
      courseOf s n (life n) := fun n => courseIs rfl (by rw [server]; rfl) rfl rfl rfl
  refine simKeeps sim rfl (fun i n inside => inside) (fun n r _ => .inl (same n)) (fun n _ => same n) (fun a => .inl)
    (fun i cmd pending => .inl (pendingClient sim server rfl pending)) trivial sim.pools (fun q => ?_)
    (portsSplit (p := p) ?_ sim.ports rfl fun q other => ?_)
  · by_cases here : q = p
    · subst here
      exact (congrArg (Fifo.Valid macMaxEntries) (setSame _ _ _)).mpr (popValid (sim.fifos q))
    · exact (congrArg (Fifo.Valid macMaxEntries) (setOther here _)).mpr (sim.fifos q)
  · have ok := sim.ports p
    have contents := popContents (sim.fifos p) some
    rw [cell] at contents
    unfold PortIn tokensOf at ok ⊢
    simp only [server, releaseOf, foundOf, if_pos, contents, Option.toList_none, Option.toList_some, List.nil_append, List.cons_append,
      setSame] at ok ⊢
    exact ok
  · exact { pools := fun _ => rfl, owner := rfl, pins := rfl, tsQueue := setOther other _, release := by rw [server]; rfl
            found := by rw [server]; exact if_neg (Ne.symm other), life := fun _ => rfl }

theorem replyingKeeps (sim : Sim c s life) (server : s.server = .replying p) (taken : serverStep c s = some t) :
    Sim c t life := by
  have old : Plain s.server := by rw [server]; trivial
  simp only [serverStep, server] at taken
  split at taken
  · split at taken
    · cases taken
      exact simPlain sim old (.replying (p + 1)) trivial (sameQuiet sim)
    · rename_i some
      cases taken
      exact popKeeps sim server some rfl
  · cases taken
    exact simPlain sim old (.loop 0) trivial (sameQuiet sim)

structure Stamped (s : State) (p : Nat) (hp : Bool) (buf : Int) (k : Pkt) (r : Request) : Prop where
  head : (s.pools p hp).queue.head? = some k
  at_ : k.buf = buf
  packet : Packet s.calls hp (s.owner p hp buf) k r
  timed : r.timed = true

theorem stampedOf (sim : Sim c s life) (token : (hp, buf) ∈ tokensOf s p) : ∃ k r, Stamped s p hp buf k r := by
  have ok := sim.ports p
  obtain ⟨k, head, rfl⟩ := ok.heads hp buf (.inl token)
  have member := List.mem_of_mem_head? head
  obtain ⟨r, packet⟩ := ok.queues.packets hp k member
  refine ⟨k, r, head, rfl, packet, ?_⟩
  have id := ok.ids hp k member (.inl token)
  rw [packet.timestampId] at id
  by_contra untimed
  exact id (if_neg untimed)

def replied (s : State) (p : Nat) (hp : Bool) (buf : Int) (n : Nat) (r : Request) (time : Int) : State :=
  { s with clients := set s.clients r.link .idle, server := .release p hp buf
           replies := s.replies ++ [⟨r.link, time + ethernetTxPhyTimerOffset, some n⟩] }

theorem waitingClient (sim : Sim c s life) {r : Request} (known : s.calls[n]? = some r) (timed : r.timed = true) {time : Int}
    (sent : life n p = .sent time) : s.clients r.link = .waiting n := by
  have waits := ((sim.courses n r known).2.ports p).waits timed (.inr ⟨time, sent⟩)
  exact phaseWaiting ((phaseKnown known).symm.trans waits)

theorem repliedCourse {r : Request} {time : Int} (client : s.clients r.link = .waiting n) (server : s.server = .found p hp buf)
    {m : Nat} (other : m ≠ n) (l : Nat → Life) : courseOf (replied s p hp buf n r time) m l = courseOf s m l := by
  have away : n ≠ m := Ne.symm other
  refine courseIs ?_ (by rw [server]; rfl) rfl rfl ?_
  · cases known : s.calls[m]? with
    | none => simp only [phaseIn, replied, known]
    | some r' =>
      simp only [phaseIn, replied, known]
      by_cases same : r'.link = r.link
      · rw [same, setSame, client]
        simp [phaseOf, away]
      · rw [setOther same]
  · simp [repliesOf, replied, List.filter_append, away]

theorem foundSent (sim : Sim c s life) (server : s.server = .found p hp k.buf) (head : (s.pools p hp).queue.head? = some k) :
    (hp, k.buf) ∈ tokensOf s p ∧ life (s.owner p hp k.buf) p = .sent (k.header .timestamp) := by
  have token : (hp, k.buf) ∈ tokensOf s p := by simp [tokensOf, server, foundOf]
  refine ⟨token, ?_⟩
  rw [(sim.ports p).lives hp k (List.mem_of_mem_head? head), status, server, if_neg (by simp [releaseOf]), if_pos (.inl token)]

theorem replyStep {r : Request} {time : Int} (server : s.server = .found p hp buf) (known : s.calls[n]? = some r)
    (timed : r.timed = true) (sent : life n p = .sent time) :
    TxCourse.Step c r n (courseOf s n (life n)) (courseOf (replied s p hp buf n r time) n (set (life n) p (.answered time))) := by
  have phase : phaseIn (replied s p hp buf n r time) n = .ended := by
    refine (phaseKnown (s := replied s p hp buf n r time) known).trans (phaseCall ?_)
    simp [replied, setSame, Client.call]
  have replies : repliesOf (replied s p hp buf n r time) n =
      repliesOf s n ++ [⟨r.link, time + ethernetTxPhyTimerOffset, some n⟩] := by
    simp [repliesOf, replied, List.filter_append]
  have settled : nextOf s.server n = none := by rw [server]; rfl
  rw [courseIs (t := replied s p hp buf n r time) phase settled.symm rfl rfl replies]
  exact .answer (k := courseOf s n (life n)) sent timed settled

theorem replyKeeps (sim : Sim c s life) (server : s.server = .found p hp k.buf) {r : Request}
    (stamped : Stamped s p hp k.buf k r) :
    Sim c (replied s p hp k.buf (s.owner p hp k.buf) r (k.header .timestamp))
      (place life (s.owner p hp k.buf) p (.answered (k.header .timestamp))) := by
  obtain ⟨head, -, packet, timed⟩ := stamped
  obtain ⟨token, sent⟩ := foundSent sim server head
  have client := waitingClient sim packet.known timed sent
  have port := sim.ports p
  unfold PortIn at port
  rw [show releaseOf s.server p = none by rw [server]; rfl] at port
  have answered := portAnswer port (List.mem_of_mem_head? head) token
  have known := packet.known
  generalize s.owner p hp k.buf = n at sent client known answered ⊢
  generalize k.header .timestamp = time at sent answered ⊢
  obtain ⟨courses, unknown⟩ := onePlace (c := c) known (replyStep server known timed sent)
    fun m other => repliedCourse client server other (life m)
  refine simKeeps sim rfl (fun i m inside => ?_) courses unknown (fun a new => ?_) (fun i cmd pending => ?_) trivial sim.pools
    sim.fifos (portsSplit (p := p) ?_ sim.ports rfl fun q other => ?_)
  · by_cases same : i = r.link
    · simp [replied, same, setSame, Client.call] at inside
    · simpa only [replied, setOther same] using inside
  · rcases List.mem_append.mp new with old | last
    · exact .inl old
    · rw [List.mem_singleton.mp last]
      exact .inr (by simp)
  · obtain ⟨m, r', transferring, rest⟩ := pendingClient sim server rfl pending
    refine .inl ⟨m, r', (setOther ?_ _).trans transferring, rest⟩
    rintro rfl
    rw [client] at transferring
    cases transferring
  · have tokens : tokensOf (replied s p hp k.buf n r time) p = tokensOf s p := by
      unfold tokensOf
      rw [server]
      simp [replied, releaseOf, foundOf]
    have release : releaseOf (.release p hp k.buf) p = some (hp, k.buf) := if_pos rfl
    unfold PortIn
    rw [tokens, placeHere]
    simp only [replied, release]
    exact answered
  · exact { pools := fun _ => rfl, owner := rfl, pins := rfl, tsQueue := rfl, life := placeThere other
            found := by rw [server]; exact (if_neg (Ne.symm other)).symm
            release := by rw [server]; exact if_neg (Ne.symm other) }

theorem foundKeeps (sim : Sim c s life) (server : s.server = .found p hp buf) (taken : serverStep c s = some t) :
    ∃ life', Sim c t life' := by
  have oldest : (hp, buf) ∈ tokensOf s p := by simp [tokensOf, server, foundOf]
  obtain ⟨k, r, stamped⟩ := stampedOf sim oldest
  obtain rfl := stamped.at_
  obtain ⟨token, sent⟩ := foundSent sim server stamped.head
  have id : miiPacketGetTimestampId (s.pools p hp).pool k.buf - 1 = r.link := by
    rw [miiPacketGetTimestampId, getterOf sim stamped.head, stamped.packet.timestampId, if_pos stamped.timed]
    omega
  have time : miiPacketGetTimestamp (s.pools p hp).pool k.buf = k.header .timestamp := getterOf sim stamped.head .timestamp
  have client := waitingClient sim stamped.packet.known stamped.timed sent
  simp only [serverStep, server, id, time, Int.toNat_natCast, client] at taken
  cases taken
  exact ⟨_, replyKeeps sim server stamped⟩

def released (s : State) (p : Nat) (hp : Bool) (buf : Int) (u : TxPool.State) : State :=
  { s with pools := setPool s.pools p hp u, server := .replying (p + 1), freed := s.freed ++ [(p, s.owner p hp buf)] }

theorem releasedKeeps (sim : Sim c s life) (server : s.server = .release p hp buf) {r : Request}
    (stamped : Stamped s p hp buf k r) {u : TxPool.State} (step : TxPool.step c.forwards (s.pools p hp) (.free buf) = some u) :
    Sim c (released s p hp buf u) (place life (s.owner p hp buf) p .gone) := by
  obtain ⟨head, rfl, packet, timed⟩ := stamped
  obtain ⟨rest, queue, left, inv⟩ := headFree sim head step
  have ok := sim.ports p
  have member := List.mem_of_mem_head? head
  have release : releaseOf s.server p = some (hp, k.buf) := by rw [server]; exact if_pos rfl
  have answered : life (s.owner p hp k.buf) p = .answered (k.header .timestamp) := by
    rw [ok.lives hp k member, status, release, if_pos rfl]
  have tokens : tokensOf s p = (hp, k.buf) :: tokensOf (released s p hp k.buf u) p := by
    unfold tokensOf
    rw [release, server]
    rfl
  have settled : ∀ m, nextOf (released s p hp k.buf u).server m = nextOf s.server m := by
    intro m
    rw [server]
    rfl
  have moved : TxCourse.Step c r (s.owner p hp k.buf) (courseOf s (s.owner p hp k.buf) (life (s.owner p hp k.buf)))
      (courseOf (released s p hp k.buf u) (s.owner p hp k.buf) (set (life (s.owner p hp k.buf)) p .gone)) := by
    rw [courseIs (t := released s p hp k.buf u) rfl (settled _) rfl (freedSame rfl) rfl]
    exact .release answered
  obtain ⟨courses, unknown⟩ := onePlace packet.known moved
    fun m other => courseIs rfl (settled m) rfl (freedOther rfl other) rfl
  refine simKeeps sim rfl (fun i m inside => inside) courses unknown (fun a => .inl)
    (fun i cmd pending => .inl (pendingClient sim server rfl pending)) trivial (invsPool sim inv) sim.fifos
    (portsSplit (p := p) ?_ sim.ports rfl fun q other => ?_)
  · have once := ok.once
    rw [tokens] at once
    have apart : ∀ x, x ∈ tokensOf (released s p hp k.buf u) p ↔ x ∈ tokensOf s p ∧ x ≠ (hp, k.buf) := by
      intro x
      rw [tokens, List.mem_cons]
      refine ⟨fun later => ⟨.inr later, ?_⟩, fun both => both.1.resolve_left both.2⟩
      rintro rfl
      exact (List.nodup_cons.mp once).1 later
    unfold PortIn
    rw [placeHere]
    simp only [released]
    rw [queuesAt, left]
    refine portFree ok queue apart (List.nodup_cons.mp once).2 (fun x held => ⟨held, ?_⟩) (fun _ _ => Iff.rfl) (fun _ held => held)
      (fun x away => ?_) (by simp [releaseOf])
    · rintro rfl
      exact ok.apart _ held (by rw [tokens]; exact List.mem_cons_self)
    · rw [release]
      simp [releaseOf, Ne.symm away]
  · exact { pools := fun h => congrArg TxPool.State.queue (congrFun (setPoolThere other u) h), owner := rfl, pins := rfl
            tsQueue := rfl, found := by rw [server]; rfl, release := by rw [server]; exact (if_neg (Ne.symm other)).symm
            life := placeThere other }

/- No other transmitter is behind the buffer that is to be freed. -/
theorem releasedOf (sim : Sim c s life) (server : s.server = .release p hp buf) :
    ∃ k r, Stamped s p hp buf k r ∧ miiPacketGetTcount (s.pools p hp).pool buf = 0 := by
  have oldest : (hp, buf) ∈ tokensOf s p := by simp [tokensOf, server, releaseOf]
  obtain ⟨k, r, stamped⟩ := stampedOf sim oldest
  refine ⟨k, r, stamped, ?_⟩
  rw [← stamped.at_, miiPacketGetTcount, getterOf sim stamped.head, stamped.packet.tcount]

theorem releaseKeeps (sim : Sim c s life) (server : s.server = .release p hp buf) (taken : serverStep c s = some t) :
    ∃ life', Sim c t life' := by
  obtain ⟨k, r, stamped, count⟩ := releasedOf sim server
  simp only [serverStep, server, count, if_pos, Option.bind_eq_bind] at taken
  obtain ⟨m, freed, last⟩ := Option.bind_eq_some_iff.mp taken
  cases last
  obtain ⟨u, step, rfl⟩ := onPoolStep freed
  exact ⟨_, releasedKeeps sim server stamped step⟩

theorem serverKeeps (sim : Sim c s life) (orderly : Orderly c s .server) (taken : serverStep c s = some t) :
    ∃ life', Sim c t life' := by
  cases server : s.server with
  | loop i => exact ⟨life, loopKeeps sim server taken⟩
  | reserving i p => exact ⟨life, reservingKeeps sim server taken⟩
  | transfer i n j => exact ⟨life, transferKeeps sim server taken⟩
  | committing i n p => exact committingKeeps sim server orderly taken
  | select => simp [serverStep, server] at taken
  | replying p => exact ⟨life, replyingKeeps sim server taken⟩
  | found p hp buf => exact foundKeeps sim server taken
  | release p hp buf => exact releaseKeeps sim server taken

end server

end ScEthernet.Full.TxServerSteps
