import ScEthernet.Full.RxFront

/-! Where the frames are on the receiving side: for each pool those that are gone, those that the server has taken and
those that it has not, and what the links, the headers and the records say of them. The steps of mii_rx_pins and of
ethernet_filter keep it. -/
namespace ScEthernet.Full.RxParts
open Lib.UnrolledRing Lib.BitOrder Lib.ChannelTokens Lib.CircularFifo Lib.Runs Malloc PoolQueue RxLink RxSystem RxFront
open RxServer (clientRun clientStep project)
open RxForward (Item outputs reply)
open FilterPass (SystemInv Wanted)
open RxReadPointer (PhaseInv startOf)

section
variable {ι : Type} [DecidableEq ι]

def Config.server (c : Config ι) : RxServer.Config := ⟨c.rxBuf, c.positive, false⟩

def queue (s : State ι) (i : ι) : List Pkt := (s.front.rx i).rx.queue
def number (s : State ι) (k : Pkt) : Nat := s.number k.buf

def readerPhase (server : Server ι) (i : ι) : RxReadPointer.Phase :=
  match server with
  | .found j buf => if j = i then .found buf else .idle
  | .moved j buf => if j = i then .moved buf else .idle
  | _ => .idle
def reader (s : State ι) (i : ι) : RxReadPointer.State := ⟨(s.front.rx i).rx, s.rdptr i, readerPhase s.server i, []⟩

/- A pool: the frames that are gone, the packets that the server has taken, freed ones among them, and the others. -/
structure Line (s : State ι) (i : ι) (old : List Nat) (pre rest : List Pkt) : Prop where
  queue : queue s i = pre ++ rest
  arrived : arrivedIn s i = old ++ (pre ++ rest).map (number s)
  processed : processedIn s i = old ++ pre.map (number s)
  live : ∀ k ∈ rest, k.freed = false
  phase : PhaseInv (reader s i) rest

structure Carries (k : Pkt) (a : Arrival ι) : Prop where
  long : 4 ≤ a.bytes.length
  length : k.header .length = (a.bytes.length : Int) - 4
  fits : a.bytes.length - 4 ≤ 4 * k.data.length
  data : (bytes (k.data.map (BitVec.ofInt 32))).take (a.bytes.length - 4) = payload a
  time : k.header .timestamp = a.time

structure Passed (c : Config ι) (k : Pkt) (a : Arrival ι) : Prop where
  stage : k.header .stage = 1
  srcPort : k.header .srcPort = 0
  outcome : Outcome c.filter a.bytes (BitVec.ofInt 32 (k.header .filterResult))
  stamp : BitVec.ofInt 32 (k.header .filterResult) ≠ 0#32 → k.header .timestampId = 0

structure Stocked (c : Config ι) (s : State ι) (i : ι) (k : Pkt) (a : Arrival ι) : Prop where
  here : s.arrivals[number s k]? = some a
  pool : a.pool = i
  carries : Carries k a
  ahead : s.front.pending = some (i, k.buf) → k.header .stage = 0 ∧ s.front.frame = a.bytes
  behind : s.front.pending ≠ some (i, k.buf) → Passed c k a

structure Counts (pre : ι → List Pkt) (m : RxServer.State) : Prop where
  counted : ∀ i, ∀ k ∈ pre i, k.freed = false →
    m.processed k.buf = m.freed k.buf + 1 ∧ m.headers k.buf .tcount = k.header .tcount
  owned : ∀ buf, m.processed buf = m.freed buf + 1 → ∃ i, ∃ k ∈ pre i, k.buf = buf ∧ k.freed = false

structure Numbered (number : Int → Nat) (b a : RxLink.Client) : Prop where
  mask : a.mask = b.mask
  limit : a.limit = b.limit
  wants : a.wants = b.wants
  waiting : a.waiting = b.waiting.map fun buf => (number buf : Int)

def Item.index : Item → Option Nat
  | .word _ i => some i
  | _ => none

structure Spoken (p : Pool) (k : Pkt) (cmd : RxTransfer.Cmd) (dptr : Int) (todo : List Item) (sent : List Token) : Prop where
  parts : ∃ done, outputs cmd (k.header .length) = done ++ todo ∧ sent = done.flatMap (Item.tokens ⟨k.header, k.data⟩)
  cursor : ∀ i, (todo.filterMap Item.index).head? = some i →
    (if dptr = p.stop then p.start else dptr) = DataWalks.dataAddress p k.buf i

def ServerInv (c : Config ι) (s : State ι) : Prop :=
  match s.server with
  | .select => True
  | .found i buf | .moved i buf => s.front.pending ≠ some (i, buf)
  | .sending link cmd buf dptr todo sent =>
    ∃ l, s.links[link]? = some l ∧ (request c.rxBuf l).reply = .packet buf ∧
      ∃ k ∈ queue s (c.poolOf buf), k.buf = buf ∧ Spoken (pool s (c.poolOf buf)) k cmd dptr todo sent

structure Recorded (c : Config ι) (s : State ι) : Prop where
  whole : ∀ a ∈ s.arrivals, a.lost = false → a.bytes.take (4 * a.received.length) = bytes a.received
  known : ∀ n ∈ s.log.filterMap processedNumber, n < s.arrivals.length
  offered : ∀ n header, .process n header ∈ s.log →
    ∃ a, s.arrivals[n.toNat]? = some a ∧ Outcome c.filter a.bytes (BitVec.ofInt 32 (header .filterResult))
  replies : ∀ link, link < s.links.length → (s.replies link).filterMap Reply.number = (client c s link).sent
  conveyed : ∀ link n sent, .frame n .frameReq sent ∈ s.replies link → ∃ a, s.arrivals[n]? = some a ∧ Conveys a sent
  statuses : ∀ link x sent, .status x sent ∈ s.replies link → sent = RxTransfer.sendStatusPacket 0 x

structure Parts (c : Config ι) (start stop : ι → Int) (s : State ι) (old : ι → List Nat) (pre rest : ι → List Pkt)
    (m : RxServer.State) : Prop where
  front : SystemInv s.front
  extent : ∀ i, (pool s i).start = start i ∧ (pool s i).stop = stop i
  line : ∀ i, Line s i (old i) (pre i) (rest i)
  stocked : ∀ i, ∀ k ∈ pre i ++ rest i, ∃ a, Stocked c s i k a
  taken : ∀ i, ∀ k ∈ pre i, s.front.pending ≠ some (i, k.buf)
  balanced : RxServer.Inv (Config.server c) m
  links : m.links = s.links
  counts : Counts pre m
  clients : ∀ link l, s.links[link]? = some l → ∃ b, Refines c.rxBuf l b ∧ Numbered s.number b (client c s link)
  server : ServerInv c s
  recorded : Recorded c s

end

section queues
variable {ι : Type} [DecidableEq ι] {c : Config ι} {start stop : ι → Int} {s t : State ι} {old : ι → List Nat}
  {pre rest : ι → List Pkt} {m : RxServer.State} {i j : ι} {k k' : Pkt}

theorem memQueue (parts : Parts c start stop s old pre rest m) : k ∈ queue s i ↔ k ∈ pre i ++ rest i := by
  rw [(parts.line i).queue]

theorem poolRep (parts : Parts c start stop s old pre rest m) (i : ι) :
    ∃ r vr vw, Rep (pool s i) (pre i ++ rest i) r vr vw ∧ Settled (pre i ++ rest i) := by
  obtain ⟨r, vr, vw, ringed⟩ := (parts.front.pools i).ringed
  have rep := ringed.rep
  have settled := ringed.settled
  have queue := (parts.line i).queue
  unfold RxParts.queue at queue
  rw [queue] at rep settled
  exact ⟨r, vr, vw, rep, settled⟩

theorem headerHere (parts : Parts c start stop s old pre rest m) (member : k ∈ pre i ++ rest i) (f : Field) :
    getField f (pool s i) k.buf = k.header f := by
  obtain ⟨r, vr, vw, rep, -⟩ := poolRep parts i
  exact (repIntact rep member).1 f

theorem poolHere (apart : ∀ i a, start i ≤ a → a < stop i → c.poolOf a = i) (parts : Parts c start stop s old pre rest m)
    (member : k ∈ pre i ++ rest i) : c.poolOf k.buf = i := by
  obtain ⟨r, vr, vw, rep, -⟩ := poolRep parts i
  obtain ⟨low, high⟩ := bufInside rep member
  obtain ⟨first, last⟩ := parts.extent i
  exact apart i k.buf (first ▸ low) (last ▸ high)

theorem sameBuf (apart : ∀ i a, start i ≤ a → a < stop i → c.poolOf a = i) (parts : Parts c start stop s old pre rest m)
    (member : k ∈ pre i ++ rest i) (member' : k' ∈ pre j ++ rest j) (same : k.buf = k'.buf) : i = j ∧ k = k' := by
  obtain rfl : i = j := by rw [← poolHere apart parts member, ← poolHere apart parts member', same]
  obtain ⟨r, vr, vw, rep, -⟩ := poolRep parts i
  exact ⟨rfl, bufsApart rep member member' same⟩

theorem arrivedNodup (s : State ι) (i : ι) : (arrivedIn s i).Nodup := List.nodup_range.filter _

theorem sameNumber (parts : Parts c start stop s old pre rest m) (member : k ∈ pre i ++ rest i) (member' : k' ∈ pre j ++ rest j)
    (same : number s k = number s k') : i = j ∧ k = k' := by
  obtain ⟨a, stocked⟩ := parts.stocked i k member
  obtain ⟨a', stocked'⟩ := parts.stocked j k' member'
  obtain rfl : a = a' := Option.some.inj (stocked.here.symm.trans (same ▸ stocked'.here))
  obtain rfl : i = j := stocked.pool.symm.trans stocked'.pool
  have once := arrivedNodup s i
  rw [(parts.line i).arrived] at once
  exact ⟨rfl, List.inj_on_of_nodup_map (List.nodup_append.mp once).2.1 member member' same⟩

theorem notBoth (parts : Parts c start stop s old pre rest m) (first : k ∈ pre i) (other : k' ∈ rest i) :
    number s k ≠ number s k' := by
  have once := arrivedNodup s i
  rw [(parts.line i).arrived, List.map_append] at once
  exact (List.nodup_append.mp (List.nodup_append.mp once).2.1).2.2 _ (List.mem_map_of_mem first) _ (List.mem_map_of_mem other)

theorem heldLive (parts : Parts c start stop s old pre rest m) {link : Nat} {l : Link} (here : s.links[link]? = some l)
    {buf : Int} (holds : buf ∈ l.fifo.contents c.rxBuf) : ∃ i, ∃ k ∈ pre i, k.buf = buf ∧ k.freed = false := by
  refine parts.counts.owned buf ?_
  have some : 0 < RxServer.holders (Config.server c) m buf :=
    List.countP_pos_iff.mpr ⟨l, by rw [parts.links]; exact List.mem_of_getElem? here, decide_eq_true holds⟩
  rcases parts.balanced.balanced buf with ⟨-, none, -⟩ | ⟨live, -⟩
  · omega
  · exact live

theorem liveHeld (parts : Parts c start stop s old pre rest m) (member : k ∈ pre i) (live : k.freed = false) :
    ∃ (link : Nat) (l : Link), s.links[link]? = some l ∧ k.buf ∈ l.fifo.contents c.rxBuf := by
  obtain ⟨counted, -⟩ := parts.counts.counted i k member live
  rcases parts.balanced.balanced k.buf with ⟨gone, -⟩ | ⟨-, some, -⟩
  · omega
  · have holds : 0 < RxServer.holders (Config.server c) m k.buf := by
      simpa [RxServer.pending, Config.server] using some
    obtain ⟨l, member, inside⟩ := List.countP_pos_iff.mp holds
    rw [parts.links] at member
    obtain ⟨link, here⟩ := List.getElem?_of_mem member
    exact ⟨link, l, here, of_decide_eq_true inside⟩

end queues

/-! The steps in front of the server. -/

section front
variable {ι : Type} [DecidableEq ι] {c : Config ι} {start stop : ι → Int} {s t : State ι} {old : ι → List Nat}
  {pre rest rest' : ι → List Pkt} {m : RxServer.State} {i j : ι} {k k' : Pkt} {new : List (Arrival ι)}

omit [DecidableEq ι] in
theorem arrivalKept (arrivals : t.arrivals = s.arrivals ++ new) {n : Nat} {a : Arrival ι} (here : s.arrivals[n]? = some a) :
    t.arrivals[n]? = some a := by
  rw [arrivals, List.getElem?_append_left (List.getElem?_eq_some_iff.mp here).1]
  exact here

theorem processedKept (arrivals : t.arrivals = s.arrivals ++ new) (log : t.log = s.log)
    (known : ∀ n ∈ s.log.filterMap processedNumber, n < s.arrivals.length) (i : ι) : processedIn t i = processedIn s i := by
  rw [processedIn, processedIn, log]
  refine List.filter_congr fun n member => ?_
  rw [ofPool, ofPool, arrivals, List.getElem?_append_left (known n member)]

omit [DecidableEq ι] in
theorem recordedKept (h : Recorded c s) (arrivals : t.arrivals = s.arrivals ++ new)
    (whole : ∀ a ∈ new, a.lost = false → a.bytes.take (4 * a.received.length) = bytes a.received) (links : t.links = s.links)
    (log : t.log = s.log) (replies : t.replies = s.replies) : Recorded c t := by
  refine ⟨fun a member => ?_, fun n member => ?_, fun n header member => ?_, fun link below => ?_, fun link n sent member => ?_,
    fun link x sent member => ?_⟩
  · rw [arrivals] at member
    rcases List.mem_append.mp member with before | now
    · exact h.whole a before
    · exact whole a now
  · rw [log] at member
    rw [arrivals, List.length_append]
    exact Nat.lt_add_right _ (h.known n member)
  · rw [log] at member
    obtain ⟨a, here, outcome⟩ := h.offered n header member
    exact ⟨a, arrivalKept arrivals here, outcome⟩
  · rw [links] at below
    rw [replies, h.replies link below, client, client, log]
  · rw [replies] at member
    obtain ⟨a, here, conveys⟩ := h.conveyed link n sent member
    exact ⟨a, arrivalKept arrivals here, conveys⟩
  · rw [replies] at member
    exact h.statuses link x sent member

/- The links are as they were, and so are the packets that the server has taken. -/
theorem frontKept (parts : Parts c start stop s old pre rest m) (front : SystemInv t.front)
    (extent : ∀ i, (pool t i).start = (pool s i).start ∧ (pool t i).stop = (pool s i).stop)
    (arrivals : t.arrivals = s.arrivals ++ new)
    (whole : ∀ a ∈ new, a.lost = false → a.bytes.take (4 * a.received.length) = bytes a.received)
    (numbers : ∀ i, ∀ k ∈ pre i ++ rest i, number t k = number s k)
    (line : ∀ i, Line t i (old i) (pre i) (rest' i)) (stocked : ∀ i, ∀ k ∈ pre i ++ rest' i, ∃ a, Stocked c t i k a)
    (taken : ∀ i, ∀ k ∈ pre i, t.front.pending ≠ some (i, k.buf)) (links : t.links = s.links) (log : t.log = s.log)
    (replies : t.replies = s.replies) (at_ : ServerInv c t) : Parts c start stop t old pre rest' m where
  front := front
  extent i := ⟨(extent i).1.trans (parts.extent i).1, (extent i).2.trans (parts.extent i).2⟩
  line := line
  stocked := stocked
  taken := taken
  balanced := parts.balanced
  links := parts.links.trans links.symm
  counts := parts.counts
  clients link l here := by
    rw [links] at here
    obtain ⟨b, refines, numbered⟩ := parts.clients link l here
    refine ⟨b, refines, ?_⟩
    rw [client, log]
    refine ⟨numbered.mask, numbered.limit, numbered.wants, numbered.waiting.trans (List.map_congr_left fun buf member => ?_)⟩
    rw [← refines.waiting] at member
    obtain ⟨i, k, inside, rfl, -⟩ := heldLive parts here member
    exact congrArg Int.ofNat (numbers i k (List.mem_append_left _ inside)).symm
  server := at_
  recorded := recordedKept parts.recorded arrivals whole links log replies

theorem nextHeld (parts : Parts c start stop s old pre rest m) {link : Nat} {l : Link} (here : s.links[link]? = some l)
    {buf : Int} (next : (request c.rxBuf l).reply = .packet buf) : ∃ i, ∃ k ∈ pre i, k.buf = buf ∧ k.freed = false := by
  obtain ⟨b, refines, -⟩ := parts.clients link l here
  have contents := (requestContents refines.valid).2
  rw [next] at contents
  exact heldLive parts here (by rw [contents]; simp)

theorem serverKept (apart : ∀ i a, start i ≤ a → a < stop i → c.poolOf a = i) (parts : Parts c start stop s old pre rest m)
    (extent : ∀ i, (pool t i).start = (pool s i).start ∧ (pool t i).stop = (pool s i).stop)
    (queues : ∀ i, ∀ k ∈ pre i, k ∈ queue t i) (server : t.server = s.server) (links : t.links = s.links)
    (pending : ∀ i buf, s.server = .found i buf ∨ s.server = .moved i buf → t.front.pending ≠ some (i, buf)) : ServerInv c t := by
  have before := parts.server
  unfold ServerInv at before ⊢
  rw [server]
  cases now : s.server with
  | select => trivial
  | found i buf => exact pending i buf (.inl now)
  | moved i buf => exact pending i buf (.inr now)
  | sending link cmd buf dptr todo sent =>
    simp only [now] at before
    obtain ⟨l, here, next, k, member, rfl, spoken⟩ := before
    obtain ⟨i, k', inside, same, -⟩ := nextHeld parts here next
    rw [memQueue parts] at member
    obtain ⟨eq, rfl⟩ := sameBuf apart parts (List.mem_append_left _ inside) member same
    refine ⟨l, by rw [links]; exact here, next, k', queues _ _ (eq ▸ inside), rfl, spoken.parts, fun i first => ?_⟩
    rw [(extent _).1, (extent _).2, spoken.cursor i first, DataWalks.dataAddress, DataWalks.dataAddress, (extent _).1, (extent _).2]

/- A pool in front of the server: headers of packets are filled in, and new ones come behind. -/
theorem lineGrows {after more : List Pkt} (line : Line s i (old i) (pre i) (rest i))
    (arrived : arrivedIn t i = arrivedIn s i ++ more.map (number t)) (processed : processedIn t i = processedIn s i)
    (numbers : ∀ k ∈ pre i ++ rest i, number t k = number s k) (queue : queue t i = pre i ++ (after ++ more))
    (bufs : after.map Pkt.buf = (rest i).map Pkt.buf) (live : ∀ k ∈ after ++ more, k.freed = false)
    (phase : PhaseInv (reader t i) (after ++ more)) : Line t i (old i) (pre i) (after ++ more) := by
  have both : ∀ q : List Pkt, q.map (number t) = (q.map Pkt.buf).map t.number := fun q => (List.map_map ..).symm
  have first : (pre i).map (number t) = (pre i).map (number s) :=
    List.map_congr_left fun k member => numbers k (List.mem_append_left _ member)
  have last : after.map (number t) = (rest i).map (number s) := by
    rw [both, bufs, ← both]
    exact List.map_congr_left fun k member => numbers k (List.mem_append_right _ member)
  refine ⟨queue, ?_, ?_, live, phase⟩
  · rw [arrived, line.arrived]
    simp only [List.map_append, first, last, List.append_assoc]
  · rw [processed, line.processed, first]

theorem lineKept {after : List Pkt} (line : Line s i (old i) (pre i) (rest i)) (arrivals : t.arrivals = s.arrivals)
    (number : t.number = s.number) (log : t.log = s.log) (server : t.server = s.server) (rdptr : t.rdptr = s.rdptr)
    (wrptr : (pool t i).wrptr = (pool s i).wrptr) (queue : queue t i = pre i ++ after)
    (bufs : after.map Pkt.buf = (rest i).map Pkt.buf) (live : ∀ k ∈ after, k.freed = false) : Line t i (old i) (pre i) after := by
  have pools : ofPool t i = ofPool s i := by
    funext n
    rw [ofPool, ofPool, arrivals]
  have arrived : arrivedIn t i = arrivedIn s i ++ ([] : List Pkt).map (RxParts.number t) := by
    rw [arrivedIn, arrivedIn, arrivals, pools, List.map_nil, List.append_nil]
  have grown := lineGrows (t := t) line arrived (by rw [processedIn, processedIn, log, pools])
    (fun k _ => by rw [RxParts.number, RxParts.number, number])
    (by rw [List.append_nil]; exact queue) bufs (by rw [List.append_nil]; exact live)
    (by
      rw [List.append_nil]
      exact RxReadPointer.phaseSame line.phase (congrArg (readerPhase · i) server) (congrFun rdptr i) wrptr bufs)
  rwa [List.append_nil] at grown

/- The packets in front of the server behind a pass. -/
def refreshed (rest : ι → List Pkt) (i : ι) (k k' : Pkt) : ι → List Pkt :=
  fun j => if j = i then onBuf k.buf (fun _ => k') (rest j) else rest j

section filters
variable {u : FilterPass.State ι}

theorem filtersAway (apart : ∀ i a, start i ≤ a → a < stop i → c.poolOf a = i) (parts : Parts c start stop s old pre rest m)
    (filters : Filters c.filter s.front u i k k') (j : ι) : ∀ k1 ∈ pre j, k1.buf ≠ k.buf := by
  intro k1 inside same
  obtain ⟨eq, -⟩ := sameBuf apart parts (List.mem_append_left _ inside) ((memQueue parts).mp filters.member) same
  exact parts.taken j k1 inside (by rw [same, eq]; exact filters.waits)

theorem filtersQueue (apart : ∀ i a, start i ≤ a → a < stop i → c.poolOf a = i) (parts : Parts c start stop s old pre rest m)
    (filters : Filters c.filter s.front u i k k') (others : ∀ j, j ≠ i → u.rx j = s.front.rx j) (j : ι) :
    queue { s with front := u } j = pre j ++ refreshed rest i k k' j := by
  have pres : ∀ j, onBuf k.buf (fun _ => k') (pre j) = pre j := fun j =>
    (List.map_congr_left fun k1 inside => if_neg (filtersAway apart parts filters j k1 inside)).trans (List.map_id _)
  have before := (parts.line j).queue
  unfold RxParts.queue at before ⊢
  unfold refreshed
  by_cases same : j = i
  · subst same
    rw [if_pos rfl, filters.queue, before, onBufAppend, pres]
  · rw [if_neg same, others j same, before]

theorem filtersLine (apart : ∀ i a, start i ≤ a → a < stop i → c.poolOf a = i) (parts : Parts c start stop s old pre rest m)
    (filters : Filters c.filter s.front u i k k') (others : ∀ j, j ≠ i → u.rx j = s.front.rx j) (j : ι) :
    Line { s with front := u } j (old j) (pre j) (refreshed rest i k k' j) := by
  refine lineKept (t := { s with front := u }) (parts.line j) rfl rfl rfl rfl rfl ?_ (filtersQueue apart parts filters others j) ?_ ?_
  · by_cases same : j = i
    · subst same
      exact filters.wrptr
    · rw [pool, others j same]
      rfl
  · unfold refreshed
    split
    · rename_i same
      subst same
      refine (List.map_map ..).trans (List.map_congr_left fun k1 _ => ?_)
      simp only [Function.comp]
      split
      · rename_i here
        exact filters.buf.trans here.symm
      · rfl
    · rfl
  · unfold refreshed
    split
    · rename_i same
      subst same
      intro k1 inside
      rcases onBufMem inside with ⟨before, -⟩ | ⟨k2, before, here, rfl⟩
      · exact (parts.line j).live k1 before
      · obtain ⟨-, rfl⟩ := sameBuf apart parts (List.mem_append_right _ before) ((memQueue parts).mp filters.member) here
        exact filters.live.trans ((parts.line j).live k2 before)
    · exact (parts.line j).live

theorem filtersStocked (apart : ∀ i a, start i ≤ a → a < stop i → c.poolOf a = i) (parts : Parts c start stop s old pre rest m)
    (filters : Filters c.filter s.front u i k k') {j : ι} {k1 : Pkt} (inside : k1 ∈ pre j ++ refreshed rest i k k' j) :
    ∃ a, Stocked c { s with front := u } j k1 a := by
  have member := (memQueue parts).mp filters.member
  -- another packet was behind the filter already
  have older : k1 ∈ pre j ++ rest j → ¬ (j = i ∧ k1.buf = k.buf) → ∃ a, Stocked c { s with front := u } j k1 a := by
    intro before other
    obtain ⟨a, stocked⟩ := parts.stocked j k1 before
    have pending : s.front.pending ≠ some (j, k1.buf) := by
      rw [filters.waits]
      intro same
      simp only [Option.some.injEq, Prod.mk.injEq] at same
      exact other ⟨same.1.symm, same.2.symm⟩
    exact ⟨a, stocked.here, stocked.pool, stocked.carries, fun waits => by simp [filters.after] at waits,
      fun _ => stocked.behind pending⟩
  unfold refreshed at inside
  rcases List.mem_append.mp inside with first | last
  · exact older (List.mem_append_left _ first) fun ⟨_, same⟩ => filtersAway apart parts filters j k1 first same
  · split at last
    · rename_i same
      subst same
      rcases onBufMem last with ⟨before, ne⟩ | ⟨k2, before, here, rfl⟩
      · exact older (List.mem_append_right _ before) fun ⟨_, same⟩ => ne same
      · obtain ⟨-, rfl⟩ := sameBuf apart parts (List.mem_append_right _ before) member here
        obtain ⟨a, stocked⟩ := parts.stocked j k2 member
        have carries := stocked.carries
        have bytes := (stocked.ahead filters.waits).2
        refine ⟨a, by rw [RxParts.number, filters.buf]; exact stocked.here, stocked.pool, ⟨carries.long, ?_, ?_, ?_, ?_⟩,
          fun waits => by simp [filters.after] at waits, fun _ => ⟨filters.stage, filters.srcPort, ?_, filters.stamp⟩⟩
        · rw [filters.length, carries.length]
        · rw [filters.data]; exact carries.fits
        · rw [filters.data]; exact carries.data
        · rw [filters.time, carries.time]
        · rw [← bytes]
          exact filters.outcome
    · rename_i other
      exact older (List.mem_append_right _ last) fun ⟨same, _⟩ => other same

end filters

theorem filterKeeps (apart : ∀ i a, start i ≤ a → a < stop i → c.poolOf a = i) (parts : Parts c start stop s old pre rest m)
    (taken : step c s (.front .filter) = some t) : ∃ rest', Parts c start stop t old pre rest' m := by
  obtain ⟨u, moved, rfl⟩ := Option.map_eq_some_iff.mp taken
  have extent := extentStep parts.front moved
  obtain ⟨i, k, k', filters, others⟩ := filterStep parts.front moved
  refine ⟨refreshed rest i k k', frontKept parts (FilterPass.systemStep parts.front moved) extent
    (List.append_nil s.arrivals).symm (by simp) (fun _ _ _ => rfl) (filtersLine apart parts filters others)
    (fun j k1 inside => filtersStocked apart parts filters inside) (fun j k1 inside => ?_) rfl rfl rfl ?_⟩
  · simp [filters.after]
  · refine serverKept apart parts extent (fun j k1 inside => ?_) rfl rfl fun j buf _ => by simp [filters.after]
    rw [filtersQueue apart parts filters others j]
    exact List.mem_append_left _ inside

omit [DecidableEq ι] in
theorem framedCarries {tail : BitVec 32} {n : Nat} {a : Arrival ι} (framed : FilterPass.Framed k tail n a.bytes)
    (time : k.header .timestamp = a.time) : Carries k a := by
  have total := FilterPass.framedLength framed
  have six := framed.six
  have small := framed.small
  have length := framed.length
  refine ⟨by omega, by rw [length, total]; push_cast; omega, by omega, ?_, time⟩
  have fits : a.bytes.length - 4 ≤ (bytes (k.data.map (BitVec.ofInt 32))).length := by
    rw [bytesLength, List.length_map]
    omega
  unfold payload
  generalize a.bytes.length - 4 = l at fits
  rw [framed.frame, List.take_append_of_le_length fits]

theorem silentKeeps (apart : ∀ i a, start i ≤ a → a < stop i → c.poolOf a = i) (parts : Parts c start stop s old pre rest m)
    {u : FilterPass.State ι} (front : SystemInv u)
    (extent : ∀ i, (u.rx i).rx.pool.start = (pool s i).start ∧ (u.rx i).rx.pool.stop = (pool s i).stop)
    (others : ∀ j, j ≠ i → u.rx j = s.front.rx j) (silent : Silent s.front u i) :
    Parts c start stop { s with front := u } old pre rest m := by
  have queues : ∀ j, queue { s with front := u } j = pre j ++ rest j := by
    intro j
    have before := (parts.line j).queue
    unfold RxParts.queue at before ⊢
    by_cases same : j = i
    · subst same
      rw [silent.queue, before]
    · rw [others j same, before]
  refine frontKept parts front extent (List.append_nil s.arrivals).symm (by simp) (fun _ _ _ => rfl) (fun j => ?_)
    (fun j k inside => ?_) (fun j k inside => ?_) rfl rfl rfl ?_
  · refine lineKept (t := { s with front := u }) (parts.line j) rfl rfl rfl rfl rfl ?_ (queues j) rfl (parts.line j).live
    by_cases same : j = i
    · subst same
      exact silent.wrptr
    · rw [pool, others j same]
      rfl
  · obtain ⟨a, stocked⟩ := parts.stocked j k inside
    refine ⟨a, stocked.here, stocked.pool, stocked.carries, fun waits => ?_, fun passed => ?_⟩
    · rw [silent.pending] at waits
      rw [silent.frame]
      exact stocked.ahead waits
    · rw [silent.pending] at passed
      exact stocked.behind passed
  · rw [silent.pending]
    exact parts.taken j k inside
  · refine serverKept apart parts extent (fun j k1 inside => ?_) rfl rfl fun j buf at_ => ?_
    · rw [queues j]
      exact List.mem_append_left _ inside
    · have before := parts.server
      unfold ServerInv at before
      rw [silent.pending]
      rcases at_ with now | now <;> simpa only [now] using before

end front

/-! A commit: a packet at the end of a pool, and the frame in it at the end of the arrivals. -/

structure Arrives {ι : Type} [DecidableEq ι] (s t : State ι) (i : ι) (k : Pkt) (a : Arrival ι) : Prop where
  commits : Commits s.front t.front i k
  others : ∀ j, j ≠ i → t.front.rx j = s.front.rx j
  arrival : a = ⟨i, t.front.frame, committedTime (s.front.rx i).rx, t.front.received, t.front.lost⟩
  arrivals : t.arrivals = s.arrivals ++ [a]
  number : t.number = Function.update s.number k.buf s.arrivals.length
  links : t.links = s.links
  log : t.log = s.log
  replies : t.replies = s.replies
  server : t.server = s.server
  rdptr : t.rdptr = s.rdptr

section arrives
variable {ι : Type} [DecidableEq ι] {c : Config ι} {start stop : ι → Int} {s t : State ι} {old : ι → List Nat}
  {pre rest : ι → List Pkt} {m : RxServer.State} {i : ι} {k : Pkt} {a : Arrival ι}

theorem arrivesQueue (parts : Parts c start stop s old pre rest m) (h : Arrives s t i k a) (j : ι) :
    queue t j = pre j ++ (rest j ++ if j = i then [k] else []) := by
  have before := (parts.line j).queue
  unfold RxParts.queue at before ⊢
  by_cases same : j = i
  · subst same
    rw [if_pos rfl, h.commits.queue, before, List.append_assoc]
  · rw [if_neg same, h.others j same, before, List.append_nil]

/- No other packet has its buffer: in its own pool the packets lie apart, and the pools do. -/
theorem arrivesFresh (apart : ∀ i a, start i ≤ a → a < stop i → c.poolOf a = i) (parts : Parts c start stop s old pre rest m)
    (front : SystemInv t.front) (extent : ∀ i, (pool t i).start = (pool s i).start ∧ (pool t i).stop = (pool s i).stop)
    (h : Arrives s t i k a) {j : ι} {k1 : Pkt} (member : k1 ∈ pre j ++ rest j) : k1.buf ≠ k.buf := by
  intro same
  have last : k ∈ queue t i := by rw [arrivesQueue parts h i, if_pos rfl]; simp
  obtain ⟨r, vr, vw, ringed⟩ := (front.pools i).ringed
  obtain ⟨low, high⟩ := bufInside ringed.rep last
  have first := (extent i).1.trans (parts.extent i).1
  have behind := (extent i).2.trans (parts.extent i).2
  obtain rfl : j = i := by
    rw [← poolHere apart parts member, same]
    exact apart i k.buf (first ▸ low) (behind ▸ high)
  have once := TxPackets.chainBufs ringed.rep.chain ringed.rep.span
  have split := arrivesQueue parts h j
  unfold RxParts.queue at split
  rw [split, if_pos rfl, ← List.append_assoc, List.map_append] at once
  exact (List.nodup_append.mp once).2.2 _ (List.mem_map_of_mem member) _ (by simp) same

theorem arrivesNumber (h : Arrives s t i k a) {k1 : Pkt} (other : k1.buf ≠ k.buf) : number t k1 = number s k1 := by
  rw [number, number, h.number]
  exact Function.update_of_ne other _ _

theorem arrivesNewest (h : Arrives s t i k a) : number t k = s.arrivals.length := by
  rw [number, h.number]
  exact Function.update_self ..

theorem arrivesIn (h : Arrives s t i k a) (j : ι) :
    arrivedIn t j = arrivedIn s j ++ (if j = i then [k] else []).map (number t) := by
  have old : (List.range s.arrivals.length).filter (ofPool t j) = arrivedIn s j := by
    refine List.filter_congr fun n below => ?_
    rw [ofPool, ofPool, h.arrivals, List.getElem?_append_left (List.mem_range.mp below)]
  have last : ofPool t j s.arrivals.length = decide (i = j) := by
    rw [ofPool, h.arrivals, h.arrival]
    simp
  rw [arrivedIn, h.arrivals, List.length_append, List.length_singleton, List.range_succ, List.filter_append, old]
  congr 1
  by_cases same : j = i
  · subst same
    simp [last, arrivesNewest h]
  · simp [last, same, Ne.symm same]

theorem arrivesWhole (h : Arrives s t i k a) (found : a.lost = false) :
    a.bytes.take (4 * a.received.length) = bytes a.received := by
  obtain ⟨tail, n, framed⟩ := h.commits.framed
  have frame := framed.frame
  rw [h.arrival] at found ⊢
  have words : k.data.map (BitVec.ofInt 32) = t.front.received := h.commits.whole found
  dsimp only
  rw [frame, words, List.take_append_of_le_length (by rw [bytesLength]), List.take_of_length_le (by rw [bytesLength])]

theorem arrivesLine (parts : Parts c start stop s old pre rest m) (h : Arrives s t i k a)
    (fresh : ∀ j, ∀ k1 ∈ pre j ++ rest j, k1.buf ≠ k.buf) (j : ι) :
    Line t j (old j) (pre j) (rest j ++ if j = i then [k] else []) := by
  refine lineGrows (parts.line j) (arrivesIn h j) (processedKept h.arrivals h.log parts.recorded.known j)
    (fun k1 member => arrivesNumber h (fresh j k1 member)) (arrivesQueue parts h j) rfl ?_ ?_
  · intro k1 member
    rcases List.mem_append.mp member with before | last
    · exact (parts.line j).live k1 before
    · split at last
      · rw [List.mem_singleton.mp last]
        exact h.commits.live
      · cases last
  · by_cases same : j = i
    · subst same
      rw [if_pos rfl]
      exact RxReadPointer.phaseAppend (parts.line j).phase (congrArg (readerPhase · j) h.server) (congrFun h.rdptr j) h.commits.buf
    · rw [if_neg same, List.append_nil]
      refine RxReadPointer.phaseSame (parts.line j).phase (congrArg (readerPhase · j) h.server) (congrFun h.rdptr j) ?_ rfl
      simp only [reader, h.others j same]

theorem arrivesStocked (parts : Parts c start stop s old pre rest m) (h : Arrives s t i k a)
    (fresh : ∀ j, ∀ k1 ∈ pre j ++ rest j, k1.buf ≠ k.buf) {j : ι} {k1 : Pkt}
    (inside : k1 ∈ pre j ++ (rest j ++ if j = i then [k] else [])) : ∃ a, Stocked c t j k1 a := by
  have older : k1 ∈ pre j ++ rest j → ∃ a, Stocked c t j k1 a := by
    intro member
    obtain ⟨a1, stocked⟩ := parts.stocked j k1 member
    refine ⟨a1, ?_, stocked.pool, stocked.carries, fun waits => ?_, fun _ => stocked.behind (by rw [h.commits.before]; simp)⟩
    · rw [arrivesNumber h (fresh j k1 member)]
      exact arrivalKept h.arrivals stocked.here
    · rw [h.commits.after] at waits
      simp only [Option.some.injEq, Prod.mk.injEq] at waits
      exact absurd waits.2.symm (fresh j k1 member)
  rw [← List.append_assoc] at inside
  rcases List.mem_append.mp inside with before | last
  · exact older before
  · split at last
    case isFalse => cases last
    rename_i same
    obtain rfl := List.mem_singleton.mp last
    subst same
    obtain ⟨tail, n, framed⟩ := h.commits.framed
    have bytes : a.bytes = t.front.frame := by rw [h.arrival]
    have time : k1.header .timestamp = a.time := by rw [h.commits.time, h.arrival]
    refine ⟨a, ?_, by rw [h.arrival], framedCarries (bytes ▸ framed) time, fun _ => ⟨h.commits.stage, bytes.symm⟩,
      fun away => absurd h.commits.after away⟩
    rw [arrivesNewest h, h.arrivals]
    simp

theorem arrivesServer (apart : ∀ i a, start i ≤ a → a < stop i → c.poolOf a = i) (parts : Parts c start stop s old pre rest m)
    (extent : ∀ i, (pool t i).start = (pool s i).start ∧ (pool t i).stop = (pool s i).stop) (h : Arrives s t i k a)
    (fresh : ∀ j, ∀ k1 ∈ pre j ++ rest j, k1.buf ≠ k.buf) : ServerInv c t := by
  refine serverKept apart parts extent (fun j k1 inside => ?_) h.server h.links fun j buf at_ => ?_
  · rw [arrivesQueue parts h j]
    exact List.mem_append_left _ inside
  · -- the server is at a packet that the filter is done with
    have phase := (parts.line j).phase
    have first : ∃ k1 ks, rest j = k1 :: ks ∧ k1.buf = buf := by
      unfold PhaseInv reader readerPhase at phase
      rcases at_ with now | now
      · simp only [now, if_true] at phase
        exact phase.2
      · simp only [now, if_true] at phase
        obtain ⟨k1, ks, first, same, -⟩ := phase
        exact ⟨k1, ks, first, same⟩
    obtain ⟨k1, ks, first, rfl⟩ := first
    rw [h.commits.after]
    intro same
    simp only [Option.some.injEq, Prod.mk.injEq] at same
    exact fresh j k1 (by rw [first]; simp) same.2.symm

theorem arrivesKeeps (apart : ∀ i a, start i ≤ a → a < stop i → c.poolOf a = i) (parts : Parts c start stop s old pre rest m)
    (front : SystemInv t.front) (extent : ∀ i, (pool t i).start = (pool s i).start ∧ (pool t i).stop = (pool s i).stop)
    (h : Arrives s t i k a) : Parts c start stop t old pre (fun j => rest j ++ if j = i then [k] else []) m := by
  have fresh : ∀ j, ∀ k1 ∈ pre j ++ rest j, k1.buf ≠ k.buf := fun j k1 member => arrivesFresh apart parts front extent h member
  refine frontKept parts front extent h.arrivals ?_ (fun j k1 member => arrivesNumber h (fresh j k1 member))
    (arrivesLine parts h fresh) (fun j k1 inside => arrivesStocked parts h fresh inside) (fun j k1 inside => ?_) h.links h.log h.replies
    (arrivesServer apart parts extent h fresh)
  · intro a' member found
    obtain rfl := List.mem_singleton.mp member
    exact arrivesWhole h found
  · rw [h.commits.after]
    intro same
    simp only [Option.some.injEq, Prod.mk.injEq] at same
    exact fresh j k1 (List.mem_append_left _ inside) same.2.symm

theorem ownKeeps (apart : ∀ i a, start i ≤ a → a < stop i → c.poolOf a = i) (parts : Parts c start stop s old pre rest m)
    {e : RxPins.Event} (taken : step c s (.front (.rx i e)) = some t) : ∃ rest', Parts c start stop t old pre rest' m := by
  simp only [step] at taken
  split at taken
  case isFalse => cases taken
  rename_i own
  obtain ⟨u, moved, rfl⟩ := Option.map_eq_some_iff.mp taken
  have front := FilterPass.systemStep parts.front moved
  have extent := extentStep parts.front moved
  obtain ⟨others, silent | ⟨k, commits⟩⟩ := ownStep parts.front own moved
  · have quiet : arrive s i u = { s with front := u } := by rw [arrive, silent.handed]
    rw [quiet]
    exact ⟨rest, silentKeeps apart parts front extent others silent⟩
  · have grown : arrive s i u = { s with
        front := u, number := Function.update s.number k.buf s.arrivals.length
        arrivals := s.arrivals ++ [⟨i, u.frame, committedTime (s.front.rx i).rx, u.received, u.lost⟩] } := by
      rw [arrive, commits.handed]
    rw [grown]
    exact ⟨_, arrivesKeeps apart parts front extent ⟨commits, others, rfl, rfl, rfl, rfl, rfl, rfl, rfl, rfl⟩⟩

end arrives

end ScEthernet.Full.RxParts
