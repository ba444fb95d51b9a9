import ScEthernet.Full.RxServing

/-! The receiving side over whole runs: each client is sent the frames that it wants in the order in which they came, whole
and nothing else, and a buffer is given back with the last client. -/
namespace ScEthernet.Full.RxDelivery
open Lib.UnrolledRing Lib.BitOrder Lib.ChannelTokens Lib.CircularFifo Lib.Runs Malloc PoolQueue RxLink RxSystem RxFront RxParts
open RxServing
open RxForward (Item outputs)
open FilterPass (SystemInv Wanted)
open RxReadPointer (PhaseInv startOf)
open RxTransfer (Cmd)

/-! The calls of the server on the pools. -/

def counted (count : Int) (k : Pkt) : Pkt := if count = 0 then markFreed k else setHeader .tcount (count - 1) k

structure Called (P P' : List Pkt) (k : Pkt) (count : Int) : Prop where
  gone : ∃ gone, P.map Pkt.buf = gone ++ P'.map Pkt.buf
  origin : ∀ k' ∈ P', k' ∈ P ∧ k'.buf ≠ k.buf ∨ k' = counted count k
  others : ∀ k' ∈ P, k'.buf ≠ k.buf → k'.freed = false → k' ∈ P'
  here : count ≠ 0 → counted count k ∈ P'

section calls
variable {P P' R : List Pkt} {k : Pkt} {count : Int}

theorem onBufOrigin {f : Pkt → Pkt} (apart : ∀ k' ∈ P, k'.buf = k.buf → k' = k) {k' : Pkt} (member : k' ∈ onBuf k.buf f P) :
    k' ∈ P ∧ k'.buf ≠ k.buf ∨ k' = f k := by
  rcases onBufMem member with kept | ⟨k'', inside, same, rfl⟩
  · exact .inl kept
  · exact .inr (by rw [apart k'' inside same])

theorem calledFree (apart : ∀ k' ∈ P, k'.buf = k.buf → k' = k) :
    Called P (reclaim (onBuf k.buf markFreed P)) k 0 := by
  obtain ⟨gone, split, freed⟩ := reclaimSplit (onBuf k.buf markFreed P)
  refine ⟨⟨gone.map Pkt.buf, ?_⟩, fun k' member => ?_, fun k' member ne live => ?_, fun some => absurd rfl some⟩
  · rw [← List.map_append, ← split]
    exact (onBufBufs _ (f := markFreed) (fun _ => rfl) P).symm
  · have inside : k' ∈ onBuf k.buf markFreed P := by
      rw [split]
      exact List.mem_append_right _ member
    exact onBufOrigin apart inside
  · have inside := memOnBuf (f := markFreed) member ne
    rw [split] at inside
    rcases List.mem_append.mp inside with before | left
    · rw [freed k' before] at live
      cases live
    · exact left

theorem calledSet (apart : ∀ k' ∈ P, k'.buf = k.buf → k' = k) (member : k ∈ P) (some : count ≠ 0) :
    Called P (onBuf k.buf (setHeader .tcount (count - 1)) P) k count := by
  have value : counted count k = setHeader .tcount (count - 1) k := if_neg some
  refine ⟨⟨[], (onBufBufs _ (f := setHeader .tcount (count - 1)) (fun _ => rfl) P).symm⟩, fun k' inside => ?_,
    fun k' inside ne _ => memOnBuf inside ne, fun _ => ?_⟩
  · rw [value]
    exact onBufOrigin apart inside
  · rw [value]
    exact List.mem_map.mpr ⟨k, member, if_pos rfl⟩

end calls

structure Call {ι : Type} (s t : FilterPass.State ι) (i : ι) (k : Pkt) (count : Int) (P P' R : List Pkt) : Prop where
  inv : SystemInv t
  pending : t.pending = s.pending
  frame : t.frame = s.frame
  elsewhere : ∀ j, j ≠ i → t.rx j = s.rx j
  queue : (t.rx i).rx.queue = P' ++ R
  wrptr : (t.rx i).rx.pool.wrptr = (s.rx i).rx.pool.wrptr
  extent : ∀ j, (t.rx j).rx.pool.start = (s.rx j).rx.pool.start ∧ (t.rx j).rx.pool.stop = (s.rx j).rx.pool.stop
  called : Called P P' k count

theorem callMade {ι : Type} [DecidableEq ι] (g : FilterPass.Config) {s : FilterPass.State ι} {i : ι} {k : Pkt} {P R : List Pkt}
    (inv : SystemInv s) (split : (s.rx i).rx.queue = P ++ R) (member : k ∈ P) (live : k.freed = false)
    (alive : ∀ k' ∈ R, k'.freed = false) (free : s.pending ≠ some (i, k.buf)) (count : Int) : ∃ t P',
      FilterPass.step g false s (.rx i (if count = 0 then .free k.buf else .set k.buf .tcount (count - 1))) = some t ∧
      Call s t i k count P P' R := by
  obtain ⟨r, vr, vw, ringed⟩ := (inv.pools i).ringed
  have inside : k ∈ (s.rx i).rx.queue := by rw [split]; exact List.mem_append_left _ member
  have apart : ∀ k' ∈ P ++ R, k'.buf = k.buf → k' = k := fun k' there same =>
    bufsApart ringed.rep (by rw [split]; exact there) inside same
  have first : ∀ k' ∈ P, k'.buf = k.buf → k' = k := fun k' there => apart k' (List.mem_append_left _ there)
  have rest : ∀ f, onBuf k.buf f R = R := by
    intro f
    refine (List.map_congr_left fun k' there => if_neg fun same => ?_).trans (List.map_id _)
    have once := TxPackets.chainBufs ringed.rep.chain ringed.rep.span
    rw [split, List.map_append] at once
    exact (List.nodup_append.mp once).2.2 _ (List.mem_map_of_mem member) _ (List.mem_map_of_mem there) same.symm
  by_cases none : count = 0
  · subst none
    obtain ⟨t, taken, pending, frame⟩ := callStep (g := g) inv inside live (.inr rfl) free
    obtain ⟨queue, wrptr⟩ := freeQueue inv taken
    refine ⟨t, _, taken, FilterPass.systemStep inv taken, pending, frame, (rxHere taken).2, ?_, wrptr, extentStep inv taken,
      calledFree first⟩
    rw [queue, split, PoolQueue.free, onBufAppend, rest, reclaimAppend alive]
  · rw [if_neg none]
    obtain ⟨t, taken, pending, frame⟩ := callStep (g := g) inv inside live (.inl ⟨.tcount, count - 1, rfl⟩) free
    obtain ⟨queue, wrptr⟩ := setQueue taken
    refine ⟨t, _, taken, FilterPass.systemStep inv taken, pending, frame, (rxHere taken).2, ?_, wrptr, extentStep inv taken,
      calledSet first member none⟩
    rw [queue, split, onBufAppend, rest]

section called
variable {ι : Type} [DecidableEq ι] {c : Config ι} {start stop : ι → Int} {s t : State ι} {old : ι → List Nat}
  {pre rest P R : ι → List Pkt} {P' : List Pkt} {m m' : RxServer.State} {i j : ι} {k : Pkt} {count : Int}

omit [DecidableEq ι] in
theorem countedBuf : (counted count k).buf = k.buf := by
  unfold counted
  split <;> rfl

omit [DecidableEq ι] in
theorem stockedCounted {a : Arrival ι} (stocked : Stocked c s i k a) (free : s.front.pending ≠ some (i, k.buf)) :
    Stocked c s i (counted count k) a := by
  have header : ∀ f, f ≠ .tcount → (counted count k).header f = k.header f := by
    intro f other
    unfold counted
    split
    · rfl
    · exact if_neg other
  have data : (counted count k).data = k.data := by
    unfold counted
    split <;> rfl
  have carries := stocked.carries
  have passed := stocked.behind free
  refine ⟨?_, stocked.pool, ⟨carries.long, ?_, ?_, ?_, ?_⟩, fun waits => ?_, fun _ => ⟨?_, ?_, ?_, ?_⟩⟩
  · rw [number, countedBuf]
    exact stocked.here
  · rw [header _ (by simp), carries.length]
  · rw [data]; exact carries.fits
  · rw [data]; exact carries.data
  · rw [header _ (by simp), carries.time]
  · rw [countedBuf] at waits
    exact absurd waits free
  · rw [header _ (by simp), passed.stage]
  · rw [header _ (by simp), passed.srcPort]
  · rw [header _ (by simp)]
    exact passed.outcome
  · rw [header _ (by simp), header _ (by simp)]
    exact passed.stamp

theorem countsCalled (called : Called (P i) P' k count) (live : k.freed = false)
    (alone : ∀ j, ∀ k' ∈ P j, k'.buf = k.buf → j = i)
    (before : ∀ j, ∀ k' ∈ P j, k'.buf ≠ k.buf → k'.freed = false →
      m.processed k'.buf = m.freed k'.buf + 1 ∧ m.headers k'.buf .tcount = k'.header .tcount)
    (owned : ∀ buf, buf ≠ k.buf → m.processed buf = m.freed buf + 1 → ∃ j, ∃ k' ∈ P j, k'.buf = buf ∧ k'.freed = false)
    (others : ∀ b, b ≠ k.buf → m'.processed b = m.processed b ∧ m'.freed b = m.freed b ∧ m'.headers b = m.headers b)
    (done : count = 0 → m'.processed k.buf = m'.freed k.buf)
    (left : count ≠ 0 → m'.processed k.buf = m'.freed k.buf + 1 ∧ m'.headers k.buf .tcount = count - 1) :
    Counts (Function.update P i P') m' := by
  have kept : ∀ j, ∀ k' ∈ P j, k'.buf ≠ k.buf → k'.freed = false →
      m'.processed k'.buf = m'.freed k'.buf + 1 ∧ m'.headers k'.buf .tcount = k'.header .tcount := by
    intro j k' member ne alive
    obtain ⟨processed, freed, headers⟩ := others k'.buf ne
    rw [processed, freed, headers]
    exact before j k' member ne alive
  constructor
  · intro j k' member alive
    by_cases same : j = i
    · subst same
      rw [Function.update_self] at member
      rcases called.origin k' member with ⟨inside, ne⟩ | rfl
      · exact kept j k' inside ne alive
      · by_cases none : count = 0
        · simp [counted, none, markFreed] at alive
        · rw [countedBuf, counted, if_neg none]
          exact ⟨(left none).1, (left none).2.trans (by simp [setHeader])⟩
    · rw [Function.update_of_ne same] at member
      exact kept j k' member (fun eq => same (alone j k' member eq)) alive
  · intro buf held
    by_cases this : buf = k.buf
    · subst this
      by_cases none : count = 0
      · have := done none
        omega
      · exact ⟨i, counted count k, by rw [Function.update_self]; exact called.here none, countedBuf,
          by rw [counted, if_neg none]; exact live⟩
    · obtain ⟨processed, freed, -⟩ := others buf this
      rw [processed, freed] at held
      obtain ⟨j, k', member, rfl, alive⟩ := owned buf this held
      by_cases same : j = i
      · subst same
        exact ⟨j, k', by rw [Function.update_self]; exact called.others k' member this alive, rfl, alive⟩
      · exact ⟨j, k', by rw [Function.update_of_ne same]; exact member, rfl, alive⟩

/- A call with a packet that the server has taken, `P` and `R` in place of the lists that were. -/
theorem callKept (parts : Parts c start stop s old pre rest m) (split : ∀ j, pre j ++ rest j = P j ++ R j)
    (call : Call s.front t.front i k count (P i) P' (R i)) (member : k ∈ P i) (alive : ∀ j, ∀ k' ∈ R j, k'.freed = false)
    (taken : ∀ j, ∀ k' ∈ P j, s.front.pending ≠ some (j, k'.buf)) (arrivals : t.arrivals = s.arrivals)
    (same : t.number = s.number) (processed : ∀ j, processedIn t j = old j ++ (P j).map (number s))
    (phase : ∀ j, PhaseInv (reader t j) (R j)) (server : t.server = .select) (balanced : RxServer.Inv (Config.server c) m')
    (links : m'.links = t.links) (counts : Counts (Function.update P i P') m')
    (clients : ∀ link l, t.links[link]? = some l → ∃ b, Refines c.rxBuf l b ∧ Numbered t.number b (client c t link))
    (recorded : Recorded c t) : ∃ old', Parts c start stop t old' (Function.update P i P') R m' := by
  obtain ⟨gone, bufs⟩ := call.called.gone
  have numbers : number t = number s := funext fun k => by rw [number, number, same]
  have both : ∀ q : List Pkt, q.map (number s) = (q.map Pkt.buf).map s.number := fun q => (List.map_map ..).symm
  have pools : ∀ j, ofPool t j = ofPool s j := fun j => funext fun n => by rw [ofPool, ofPool, arrivals]
  have arrived : ∀ j, arrivedIn t j = old j ++ (P j ++ R j).map (number s) := by
    intro j
    rw [← split, ← (parts.line j).arrived, arrivedIn, arrivedIn, arrivals, pools]
  have origin : ∀ j, ∀ k' ∈ Function.update P i P' j, k' ∈ P j ∨ j = i ∧ k' = counted count k := by
    intro j k' inside
    by_cases here : j = i
    · subst here
      rw [Function.update_self] at inside
      exact (call.called.origin k' inside).imp And.left fun eq => ⟨rfl, eq⟩
    · rw [Function.update_of_ne here] at inside
      exact .inl inside
  refine ⟨fun j => if j = i then old i ++ gone.map s.number else old j, call.inv, fun j => ?_, fun j => ?_, fun j k' inside => ?_,
    fun j k' inside => ?_, balanced, links, counts, clients, by unfold ServerInv; rw [server]; trivial, recorded⟩
  · exact ⟨(call.extent j).1.trans (parts.extent j).1, (call.extent j).2.trans (parts.extent j).2⟩
  · by_cases here : j = i
    · subst here
      rw [if_pos rfl, Function.update_self]
      refine ⟨call.queue, ?_, ?_, alive j, phase j⟩
      · rw [arrived, numbers, List.map_append, both (P j), bufs, List.map_append, ← both, List.map_append]
        simp only [List.append_assoc]
      · rw [processed, numbers, both (P j), bufs, List.map_append, ← both, List.append_assoc]
    · rw [if_neg here, Function.update_of_ne here]
      refine ⟨?_, by rw [arrived, numbers], by rw [processed, numbers], alive j, phase j⟩
      have queue := (parts.line j).queue
      unfold RxParts.queue at queue ⊢
      rw [call.elsewhere j here, queue, split]
  · have still : ∀ k' a, Stocked c s j k' a → Stocked c t j k' a := fun k' a stocked =>
      stockedStill stocked arrivals same call.pending call.frame
    have older : k' ∈ P j ++ R j → ∃ a, Stocked c t j k' a := by
      intro before
      rw [← split] at before
      obtain ⟨a, stocked⟩ := parts.stocked j k' before
      exact ⟨a, still k' a stocked⟩
    rcases List.mem_append.mp inside with first | last
    · rcases origin j k' first with before | ⟨rfl, rfl⟩
      · exact older (List.mem_append_left _ before)
      · obtain ⟨a, stocked⟩ := parts.stocked j k (by rw [split]; exact List.mem_append_left _ member)
        exact ⟨a, still _ a (stockedCounted stocked (taken j k member))⟩
    · exact older (List.mem_append_right _ last)
  · rw [call.pending]
    rcases origin j k' inside with before | ⟨rfl, rfl⟩
    · exact taken j k' before
    · rw [countedBuf]
      exact taken j k member

end called

section release
variable {ι : Type} [DecidableEq ι] {c : Config ι} {start stop : ι → Int} {s t : State ι} {old : ι → List Nat}
  {pre rest : ι → List Pkt} {m m' : RxServer.State} {i j : ι} {k : Pkt}

theorem conveysHere (parts : Parts c start stop s old pre rest m) (size : 4 * (stop i - start i) < 2 ^ 31)
    (member : k ∈ pre i ++ rest i) {a : Arrival ι} (stocked : Stocked c s i k a) (free : s.front.pending ≠ some (i, k.buf)) :
    Conveys a (RxForward.reply .frameReq ⟨k.header, k.data⟩) := by
  obtain ⟨r, vr, vw, rep, -⟩ := poolRep parts i
  have carries := stocked.carries
  have header := headerHere parts member
  have long := carries.long
  have total : (payload a).length = a.bytes.length - 4 := by
    rw [payload, List.length_take]
    omega
  intro d call
  have read := (RxTransfer.replyRead rep member (k := k) (by rw [(parts.extent i).1, (parts.extent i).2]; exact size)
    (by rw [show miiPacketGetLength (pool s i) k.buf = _ from header .length, carries.length, total]; omega)
    (by rw [total]; exact carries.data) d call).1
  obtain ⟨got, reads, len, frame, port, time, inside, outside⟩ := read
  rw [RxForward.replySent rep member (carriesHeld carries)] at reads
  refine ⟨got, reads, len, frame, ?_, ?_, inside, outside⟩
  · rw [port, RxTransfer.field, header, (stocked.behind free).srcPort]
    rfl
  · rw [time, RxTransfer.field, header, carries.time]

theorem releaseCounts {m : RxServer.State} {buf : Int} (live : m.processed buf = m.freed buf + 1) :
    (m.headers buf .tcount = 0 → (RxServer.release m buf).processed buf = (RxServer.release m buf).freed buf) ∧
    (m.headers buf .tcount ≠ 0 → (RxServer.release m buf).processed buf = (RxServer.release m buf).freed buf + 1 ∧
      (RxServer.release m buf).headers buf .tcount = m.headers buf .tcount - 1) := by
  constructor
  · intro none
    simp [RxServer.release, RxServer.getAndDec, none, RxServer.miiFree, RxServer.bump, live]
  · intro some
    simp [RxServer.release, RxServer.getAndDec, some, RxServer.setHeader, live]

/- The packet that a reply has just been sent from. -/
structure AtReply (c : Config ι) (s : State ι) (pre rest : ι → List Pkt) (m : RxServer.State) (link : Nat) (cmd : Cmd) (dptr : Int)
    (sent : List Token) (l : Link) (i : ι) (k : Pkt) : Prop where
  server : s.server = .sending link cmd k.buf dptr [] sent
  here : s.links[link]? = some l
  next : (request c.rxBuf l).reply = .packet k.buf
  inside : k ∈ pre i
  live : k.freed = false
  home : c.poolOf k.buf = i
  spoken : Spoken (pool s i) k cmd dptr [] sent
  counted : m.processed k.buf = m.freed k.buf + 1
  tcount : m.headers k.buf .tcount = k.header .tcount

theorem atReply (apart : ∀ i a, start i ≤ a → a < stop i → c.poolOf a = i) (parts : Parts c start stop s old pre rest m) {link : Nat}
    {cmd : Cmd} {buf dptr : Int} {sent : List Token} (now : s.server = .sending link cmd buf dptr [] sent) :
    ∃ l i k, k.buf = buf ∧ AtReply c s pre rest m link cmd dptr sent l i k := by
  have before := parts.server
  unfold ServerInv at before
  simp only [now] at before
  obtain ⟨l, here, next, k, member, rfl, spoken⟩ := before
  obtain ⟨i, k', inside, same, live⟩ := nextHeld parts here next
  obtain ⟨home, rfl⟩ := sameBuf apart parts (List.mem_append_left _ inside) ((memQueue parts).mp member) same
  obtain ⟨counted, tcount⟩ := parts.counts.counted i k' inside live
  rw [← home] at spoken
  exact ⟨l, i, k', rfl, now, here, next, inside, live, home.symm, spoken, counted, tcount⟩

section at_reply
variable {link : Nat} {cmd : Cmd} {dptr : Int} {sent : List Token} {l : Link} {P' : List Pkt} {count : Int} {a : Arrival ι}

theorem releasedCounts (apart : ∀ i a, start i ≤ a → a < stop i → c.poolOf a = i) (parts : Parts c start stop s old pre rest m)
    (at_ : AtReply c s pre rest m link cmd dptr sent l i k) (called : Called (pre i) P' k (k.header .tcount)) (links : List Link) :
    Counts (Function.update pre i P') (RxServer.release { m with links := links } k.buf) := by
  obtain ⟨done, left⟩ := releaseCounts (m := { m with links := links }) at_.counted
  simp only [at_.tcount] at done left
  have elsewhere : ∀ j, ∀ k1 ∈ pre j, k1.buf = k.buf → j = i := fun j k1 there eq =>
    (sameBuf apart parts (List.mem_append_left _ there) (List.mem_append_left _ at_.inside) eq).1
  exact countsCalled called at_.live elsewhere (fun j k1 there _ alive => parts.counts.counted j k1 there alive)
    (fun b _ held => parts.counts.owned b held) (fun b ne => RxServer.releaseOthers { m with links := links } ne) done left

theorem releasedProcessed (parts : Parts c start stop s old pre rest m) (arrivals : t.arrivals = s.arrivals)
    (log : t.log = s.log ++ [.request link]) (j : ι) : processedIn t j = old j ++ (pre j).map (number s) := by
  have pools : ofPool t j = ofPool s j := funext fun n => by rw [ofPool, ofPool, arrivals]
  rw [← (parts.line j).processed, processedIn, processedIn, log, List.filterMap_append]
  simp [processedNumber, pools]

theorem releasedPhase (parts : Parts c start stop s old pre rest m) (at_ : AtReply c s pre rest m link cmd dptr sent l i k)
    {P R : List Pkt} (call : Call s.front t.front i k count P P' R) (rdptr : t.rdptr = s.rdptr) (server : t.server = .select) (j : ι) :
    PhaseInv (reader t j) (rest j) := by
  refine RxReadPointer.phaseSame (parts.line j).phase (by simp [reader, server, at_.server, readerPhase]) (congrFun rdptr j) ?_ rfl
  by_cases here : j = i
  · subst here
    exact call.wrptr
  · simp only [reader, call.elsewhere j here]

theorem releasedRecorded (parts : Parts c start stop s old pre rest m) (at_ : AtReply c s pre rest m link cmd dptr sent l i k)
    (small : 4 * (stop i - start i) < 2 ^ 31) (stocked : Stocked c s i k a) (arrivals : t.arrivals = s.arrivals)
    (log : t.log = s.log ++ [.request link]) (lines : t.links = s.links.set link (request c.rxBuf l).link)
    (fresh : t.replies = Function.update s.replies link (s.replies link ++ [.frame (s.number k.buf) cmd sent])) : Recorded c t := by
  have whole : cmd = .frameReq → Conveys a sent := by
    rintro rfl
    obtain ⟨done, all, said⟩ := at_.spoken.parts
    rw [List.append_nil] at all
    rw [said, ← all]
    exact conveysHere parts small (List.mem_append_left _ at_.inside) stocked (parts.taken i k at_.inside)
  refine recordedLogged parts.recorded arrivals log (by rw [lines, List.length_set]) (by simp [processedNumber]) (by simp)
    (repliesRequest parts at_.here log fresh (by rw [at_.next]; rfl)) (fun j n x member => ?_) (fun j x y member => ?_)
  · refine (repliesEarlier fresh j _ member).imp_right fun eq => ?_
    cases eq
    exact ⟨a, stocked.here, whole rfl⟩
  · exact (repliesEarlier fresh j _ member).imp_right fun eq => by cases eq

end at_reply

theorem releaseKeeps (apart : ∀ i a, start i ≤ a → a < stop i → c.poolOf a = i) (small : ∀ i, 4 * (stop i - start i) < 2 ^ 31)
    (parts : Parts c start stop s old pre rest m) {link : Nat} {cmd : Cmd} {buf dptr : Int} {sent : List Token}
    (now : s.server = .sending link cmd buf dptr [] sent) :
    ∃ t, step c s .server = some t ∧ ∃ old' pre' rest' m', Parts c start stop t old' pre' rest' m' := by
  obtain ⟨l, i, k, rfl, at_⟩ := atReply apart parts now
  have member := List.mem_append_left (rest i) at_.inside
  obtain ⟨a, stocked⟩ := parts.stocked i k member
  obtain ⟨u, P', made, call⟩ := callMade c.filter parts.front (parts.line i).queue at_.inside at_.live (parts.line i).live
    (parts.taken i k at_.inside) (k.header .tcount)
  have moved : RxServer.step (Config.server c) m (.request link) =
      some (RxServer.release { m with links := m.links.set link (request c.rxBuf l).link } k.buf) := by
    have reply : (request (Config.server c).rxBuf l).reply = .packet k.buf := at_.next
    simp only [RxServer.step, parts.links, at_.here, reply]
    rfl
  have taken : step c s .server = some { replied (onLink { s with front := u } link (request c.rxBuf l).link (.request link)) link
      (.frame (s.number k.buf) cmd sent) with server := .select } := by
    simp only [step, serverStep, now, at_.here, onPool, at_.home, headerHere parts member .tcount, made]
    rfl
  refine ⟨_, taken, ?_⟩
  generalize into : ({ replied (onLink { s with front := u } link (request c.rxBuf l).link (.request link)) link
    (.frame (s.number k.buf) cmd sent) with server := .select } : State ι) = t
  have front : t.front = u := by rw [← into]; rfl
  have arrivals : t.arrivals = s.arrivals := by rw [← into]; rfl
  have numbers : t.number = s.number := by rw [← into]; rfl
  have rdptr : t.rdptr = s.rdptr := by rw [← into]; rfl
  have server : t.server = .select := by rw [← into]
  have log : t.log = s.log ++ [.request link] := by rw [← into]; rfl
  have fresh : t.replies = Function.update s.replies link (s.replies link ++ [.frame (s.number k.buf) cmd sent]) := by
    rw [← into]; rfl
  have lines : t.links = s.links.set link (request c.rxBuf l).link := by rw [← into]; rfl
  rw [← front] at call
  have agree : (RxServer.release { m with links := m.links.set link (request c.rxBuf l).link } k.buf).links = t.links := by
    rw [RxServer.releaseLinks, lines, parts.links]
  obtain ⟨old', kept⟩ := callKept parts (fun _ => rfl) call at_.inside (fun j => (parts.line j).live) parts.taken arrivals numbers
    (releasedProcessed parts arrivals log) (releasedPhase parts at_ call rdptr server) server
    (RxServer.stepKeeps parts.balanced moved) agree (releasedCounts apart parts at_ call.called _)
    (clientsKept parts moved agree.symm log numbers) (releasedRecorded parts at_ (small i) stocked arrivals log lines fresh)
  exact ⟨old', _, _, _, kept⟩

end release

section process
variable {ι : Type} [DecidableEq ι] {c : Config ι} {start stop : ι → Int} {s t : State ι} {old : ι → List Nat}
  {pre rest : ι → List Pkt} {m m' : RxServer.State} {i j : ι} {k : Pkt}

/- process_received_frame, where nothing is forwarded. -/
omit [DecidableEq ι] in
theorem processCounts (m : RxServer.State) (buf : Int) {header : Field → Int} (same : m.processed buf = m.freed buf)
    (filtered : RxServer.Filtered (Config.server c) header) :
    ∃ m', RxServer.step (Config.server c) m (.process buf header) = some m' ∧
      let n := m.links.countP (fun l => (offer c.rxBuf buf (BitVec.ofInt 32 (header .filterResult)) l).taken)
      m'.links = m.links.map (fun l => (offer c.rxBuf buf (BitVec.ofInt 32 (header .filterResult)) l).link) ∧
      (∀ b, b ≠ buf → m'.processed b = m.processed b ∧ m'.freed b = m.freed b ∧ m'.headers b = m.headers b) ∧
      ((n : Int) = 0 → m'.processed buf = m'.freed buf) ∧
      ((n : Int) ≠ 0 → m'.processed buf = m'.freed buf + 1 ∧ m'.headers buf .tcount = (n : Int) - 1) := by
  have moved : RxServer.step (Config.server c) m (.process buf header) = some (RxServer.processReceivedFrame (Config.server c)
      { m with headers := fun b => if b = buf then header else m.headers b, processed := RxServer.bump m.processed buf } buf) :=
    if_pos ⟨same, filtered⟩
  refine ⟨_, moved, ?_⟩
  have effect := RxServer.processEffect (Config.server c)
    { m with headers := fun b => if b = buf then header else m.headers b, processed := RxServer.bump m.processed buf } buf
  generalize RxServer.processReceivedFrame (Config.server c) _ buf = m' at effect
  obtain ⟨links, processed, freed, others, -, -, tcount⟩ := effect
  simp only [RxServer.resultOf, if_true, Config.server] at links
  simp only [RxServer.consumers, RxServer.Forwarded, RxServer.resultOf, if_true, Config.server, Bool.false_eq_true, false_and, if_false,
    Nat.add_zero] at freed tcount
  dsimp only
  generalize m.links.countP (fun l => (offer c.rxBuf buf (BitVec.ofInt 32 (header .filterResult)) l).taken) = n at *
  refine ⟨links, fun b ne => ⟨?_, ?_, ?_⟩, fun none => ?_, fun some => ⟨?_, ?_⟩⟩
  · rw [processed]
    exact if_neg ne
  · rw [freed]
    split
    · exact if_neg ne
    · rfl
  · exact (others b ne).trans (if_neg ne)
  · rw [processed, freed, if_pos (by omega)]
    simp [RxServer.bump, same]
  · rw [processed, freed, if_neg (by omega)]
    simp [RxServer.bump, same]
  · have := tcount (by omega)
    omega

def takenOver (pre : ι → List Pkt) (i : ι) (k : Pkt) : ι → List Pkt := fun j => if j = i then pre i ++ [k] else pre j
def leftOver (rest : ι → List Pkt) (i : ι) (ks : List Pkt) : ι → List Pkt := fun j => if j = i then ks else rest j

theorem overSplit {ks : List Pkt} (first : rest i = k :: ks) (j : ι) :
    pre j ++ rest j = takenOver pre i k j ++ leftOver rest i ks j := by
  unfold takenOver leftOver
  by_cases same : j = i
  · subst same
    simp [first]
  · simp [same]

theorem takenMem {k' : Pkt} : k' ∈ takenOver pre i k j ↔ k' ∈ pre j ∨ j = i ∧ k' = k := by
  unfold takenOver
  by_cases same : j = i
  · subst same
    simp
  · simp [same]

theorem leftMem {ks : List Pkt} {k' : Pkt} (first : rest i = k :: ks) (inside : k' ∈ leftOver rest i ks j) : k' ∈ rest j := by
  unfold leftOver at inside
  by_cases same : j = i
  · subst same
    rw [if_pos rfl] at inside
    rw [first]
    exact List.mem_cons_of_mem _ inside
  · rwa [if_neg same] at inside

/- The packet behind the old read pointer, while process_received_frame is to be called for it. -/
structure AtPacket (c : Config ι) (s : State ι) (pre rest : ι → List Pkt) (m : RxServer.State) (i : ι) (k : Pkt) (ks : List Pkt) :
    Prop where
  server : s.server = .moved i k.buf
  first : rest i = k :: ks
  rdptr : s.rdptr i = startOf (pool s i) ks
  free : s.front.pending ≠ some (i, k.buf)
  member : k ∈ pre i ++ rest i
  live : k.freed = false
  same : m.processed k.buf = m.freed k.buf

theorem atPacket (apart : ∀ i a, start i ≤ a → a < stop i → c.poolOf a = i) (parts : Parts c start stop s old pre rest m)
    {buf : Int} (now : s.server = .moved i buf) : ∃ k ks, k.buf = buf ∧ AtPacket c s pre rest m i k ks := by
  have free := parts.server
  unfold ServerInv at free
  simp only [now] at free
  have phase := (parts.line i).phase
  unfold PhaseInv reader readerPhase at phase
  simp only [now, if_true] at phase
  obtain ⟨k, ks, first, rfl, rdptr⟩ := phase
  have last : k ∈ rest i := by rw [first]; simp
  have member : k ∈ pre i ++ rest i := List.mem_append_right _ last
  refine ⟨k, ks, rfl, now, first, rdptr, free, member, (parts.line i).live k last, ?_⟩
  rcases parts.balanced.balanced k.buf with ⟨same, -⟩ | ⟨held, -⟩
  · exact same
  · obtain ⟨j, k', inside, eq, -⟩ := parts.counts.owned k.buf held
    obtain ⟨rfl, rfl⟩ := sameBuf apart parts (List.mem_append_left _ inside) member eq
    exact absurd rfl (notBoth parts inside last)

section at_packet
variable {ks P' : List Pkt} {count : Int} {a : Arrival ι}

theorem overTaken (parts : Parts c start stop s old pre rest m) (at_ : AtPacket c s pre rest m i k ks) (j : ι) :
    ∀ k' ∈ takenOver pre i k j, s.front.pending ≠ some (j, k'.buf) := by
  intro k' inside
  rcases takenMem.mp inside with before | ⟨rfl, rfl⟩
  · exact parts.taken j k' before
  · exact at_.free

theorem overAlone (apart : ∀ i a, start i ≤ a → a < stop i → c.poolOf a = i) (parts : Parts c start stop s old pre rest m)
    (at_ : AtPacket c s pre rest m i k ks) (j : ι) : ∀ k' ∈ takenOver pre i k j, k'.buf = k.buf → j = i := by
  intro k' inside eq
  exact (sameBuf apart parts (by rw [overSplit at_.first]; exact List.mem_append_left _ inside) at_.member eq).1

theorem overCounts (apart : ∀ i a, start i ≤ a → a < stop i → c.poolOf a = i) (parts : Parts c start stop s old pre rest m)
    (at_ : AtPacket c s pre rest m i k ks) (called : Called (takenOver pre i k i) P' k count)
    (others : ∀ b, b ≠ k.buf → m'.processed b = m.processed b ∧ m'.freed b = m.freed b ∧ m'.headers b = m.headers b)
    (done : count = 0 → m'.processed k.buf = m'.freed k.buf)
    (left : count ≠ 0 → m'.processed k.buf = m'.freed k.buf + 1 ∧ m'.headers k.buf .tcount = count - 1) :
    Counts (Function.update (takenOver pre i k) i P') m' := by
  refine countsCalled called at_.live (overAlone apart parts at_) (fun j k' inside ne alive => ?_) (fun b ne held => ?_)
    others done left
  · rcases takenMem.mp inside with before | ⟨rfl, rfl⟩
    · exact parts.counts.counted j k' before alive
    · exact absurd rfl ne
  · obtain ⟨j, k', inside, eq, alive⟩ := parts.counts.owned b held
    exact ⟨j, k', takenMem.mpr (.inl inside), eq, alive⟩

theorem overProcessed (parts : Parts c start stop s old pre rest m) (stocked : Stocked c s i k a)
    (arrivals : t.arrivals = s.arrivals) (log : t.log = s.log ++ [.process (s.number k.buf) k.header]) (j : ι) :
    processedIn t j = old j ++ (takenOver pre i k j).map (number s) := by
  have before := (parts.line j).processed
  have pools : ofPool t j = ofPool s j := funext fun n => by rw [ofPool, ofPool, arrivals]
  have this : ofPool s j (s.number k.buf) = decide (i = j) := by
    have here : s.arrivals[s.number k.buf]? = some a := stocked.here
    rw [ofPool, here, ← stocked.pool]
    rfl
  unfold takenOver
  rw [processedIn] at before
  rw [processedIn, log, List.filterMap_append, pools, List.filter_append, before]
  by_cases same : j = i
  · subst same
    simp [processedNumber, this, number]
  · simp [processedNumber, this, same, Ne.symm same]

theorem overPhase (parts : Parts c start stop s old pre rest m) (at_ : AtPacket c s pre rest m i k ks)
    {P R : List Pkt} (call : Call s.front t.front i k count P P' R) (rdptr : t.rdptr = s.rdptr) (server : t.server = .select)
    (j : ι) :
    PhaseInv (reader t j) (leftOver rest i ks j) := by
  have phase := (parts.line j).phase
  unfold PhaseInv reader readerPhase at phase ⊢
  unfold leftOver
  simp only [server]
  by_cases same : j = i
  · subst same
    simp only [if_true, rdptr, at_.rdptr]
    exact (RxReadPointer.startSame call.wrptr rfl).symm
  · simp only [at_.server, Ne.symm same, if_false] at phase
    simp only [same, if_false, rdptr, call.elsewhere j same]
    exact phase

end at_packet

theorem processKeeps (apart : ∀ i a, start i ≤ a → a < stop i → c.poolOf a = i) (parts : Parts c start stop s old pre rest m)
    {buf : Int} (now : s.server = .moved i buf) :
    ∃ t, step c s .server = some t ∧ ∃ old' pre' rest' m', Parts c start stop t old' pre' rest' m' := by
  obtain ⟨k, ks, rfl, at_⟩ := atPacket apart parts now
  obtain ⟨a, stocked⟩ := parts.stocked i k at_.member
  have passed := stocked.behind at_.free
  obtain ⟨m', moved, links, others, done, left⟩ := processCounts (c := c) m k.buf at_.same
    (show RxServer.Filtered (Config.server c) k.header from ⟨passed.stage, by simp [Config.server], passed.stamp⟩)
  rw [parts.links] at links done left
  have loop := RxServer.processLoop c.rxBuf k.buf (BitVec.ofInt 32 (k.header .filterResult)) s.links
  generalize s.links.countP (fun l => (offer c.rxBuf k.buf (BitVec.ofInt 32 (k.header .filterResult)) l).taken) = n at *
  -- the call on the pool
  have alive : ∀ j, ∀ k' ∈ leftOver rest i ks j, k'.freed = false := fun j k' inside =>
    (parts.line j).live k' (leftMem at_.first inside)
  have mine : k ∈ takenOver pre i k i := takenMem.mpr (.inr ⟨rfl, rfl⟩)
  have queue := (parts.line i).queue
  rw [overSplit at_.first] at queue
  obtain ⟨u, P', made, call⟩ := callMade c.filter parts.front queue mine at_.live (alive i) at_.free n
  have counts := overCounts apart parts at_ call.called others done left
  have taken : step c s .server = some { s with
      front := u, links := s.links.map (fun l => (offer c.rxBuf k.buf (BitVec.ofInt 32 (k.header .filterResult)) l).link)
      server := .select, log := s.log ++ [.process (s.number k.buf) k.header] } := by
    simp only [step, serverStep, now, headerHere parts at_.member, loop, onPool, poolHere apart parts at_.member, made]
    rfl
  refine ⟨_, taken, ?_⟩
  generalize into : ({ s with
    front := u, links := s.links.map (fun l => (offer c.rxBuf k.buf (BitVec.ofInt 32 (k.header .filterResult)) l).link)
    server := .select, log := s.log ++ [.process (s.number k.buf) k.header] } : State ι) = t
  have front : t.front = u := by rw [← into]
  have arrivals : t.arrivals = s.arrivals := by rw [← into]
  have numbers : t.number = s.number := by rw [← into]
  have rdptr : t.rdptr = s.rdptr := by rw [← into]
  have server : t.server = .select := by rw [← into]
  have log : t.log = s.log ++ [.process (s.number k.buf) k.header] := by rw [← into]
  have replies : t.replies = s.replies := by rw [← into]
  have agree : m'.links = t.links := by rw [links, ← into]
  rw [← front] at call
  have recorded : Recorded c t := by
    refine recordedLogged parts.recorded arrivals log (by rw [← agree, links, List.length_map]) (fun n this => ?_)
      (fun n header this => ?_) (repliesQuiet parts.recorded log replies (by simp)) (fun j n x => ?_) (fun j x y => ?_)
    · obtain rfl : s.number k.buf = n := by simpa [processedNumber] using this
      exact (List.getElem?_eq_some_iff.mp stocked.here).1
    · obtain ⟨rfl, rfl⟩ : (s.number k.buf : Int) = n ∧ k.header = header := by simpa using this
      exact ⟨a, stocked.here, passed.outcome⟩
    · rw [replies]
      exact .inl
    · rw [replies]
      exact .inl
  obtain ⟨old', kept⟩ := callKept parts (overSplit at_.first) call mine alive (overTaken parts at_) arrivals numbers
    (overProcessed parts stocked arrivals log) (overPhase parts at_ call rdptr server) server
    (RxServer.stepKeeps parts.balanced moved) agree counts (clientsKept parts moved agree.symm log numbers) recorded
  exact ⟨old', _, _, _, kept⟩

end process

/-! A client takes frames in the order in which they are processed. -/

section clients
variable {n l : Nat} {a : Client}

theorem takenStep (h : a.sent ++ a.waiting = a.taken) (e : RxServer.Event) :
    let d := (RxServer.project l e).elim a (RxServer.clientStep n a)
    d.sent ++ d.waiting = d.taken ∧ (d.taken.map Int.toNat).Sublist (a.taken.map Int.toNat ++ (processedNumber e).toList) := by
  have still : (a.taken.map Int.toNat).Sublist (a.taken.map Int.toNat ++ (processedNumber e).toList) := List.sublist_append_left ..
  cases e with
  | process buf header =>
    simp only [RxServer.project, Option.elim, RxServer.clientStep, Client.offer]
    split
    · exact ⟨h, still⟩
    · split
      · refine ⟨by rw [← h, List.append_assoc], ?_⟩
        rw [List.map_append]
        exact List.Sublist.refl _
      · exact ⟨h, still⟩
  | request j =>
    simp only [RxServer.project]
    split
    · simp only [Option.elim, RxServer.clientStep, Client.request]
      split
      · exact ⟨h, still⟩
      · refine ⟨?_, still⟩
        rw [← h, List.append_assoc]
        cases a.waiting <;> rfl
    · exact ⟨h, still⟩
  | command j k =>
    simp only [RxServer.project]
    split
    · cases k <;> exact ⟨h, still⟩
    · exact ⟨h, still⟩
  | statusChange =>
    simp only [RxServer.project, Option.elim, RxServer.clientStep, Client.statusChange]
    split <;> exact ⟨h, still⟩
  | forward buf timestamp => exact ⟨h, still⟩

theorem takenRun (h : a.sent ++ a.waiting = a.taken) (es : List RxServer.Event) :
    let d := (es.filterMap (RxServer.project l)).foldl (RxServer.clientStep n) a
    d.sent ++ d.waiting = d.taken ∧ (d.taken.map Int.toNat).Sublist (a.taken.map Int.toNat ++ es.filterMap processedNumber) := by
  induction es generalizing a with
  | nil => exact ⟨h, by simp⟩
  | cons e es ih =>
    obtain ⟨first, grown⟩ := takenStep (n := n) (l := l) h e
    have next := ih first
    have split : (e :: es).filterMap processedNumber = (processedNumber e).toList ++ es.filterMap processedNumber := by
      cases event : processedNumber e <;> simp [event]
    have run : ((e :: es).filterMap (RxServer.project l)).foldl (RxServer.clientStep n) a =
        (es.filterMap (RxServer.project l)).foldl (RxServer.clientStep n)
          ((RxServer.project l e).elim a (RxServer.clientStep n a)) := by
      cases event : RxServer.project l e <;> simp [event]
    rw [run, split, ← List.append_assoc]
    exact ⟨next.1, next.2.trans (grown.append (List.Sublist.refl _))⟩

end clients

/-! Whole runs. -/

section run
variable {ι : Type} [DecidableEq ι] {c : Config ι} {start stop : ι → Int} {s t : State ι}

def Inv (c : Config ι) (start stop : ι → Int) (s : State ι) : Prop := ∃ old pre rest m, Parts c start stop s old pre rest m

theorem serverGoes (apart : ∀ i a, start i ≤ a → a < stop i → c.poolOf a = i) (small : ∀ i, 4 * (stop i - start i) < 2 ^ 31)
    (inv : Inv c start stop s) (busy : s.server ≠ .select) : ∃ t, step c s .server = some t ∧ Inv c start stop t := by
  obtain ⟨old, pre, rest, m, parts⟩ := inv
  cases now : s.server with
  | select => exact absurd now busy
  | found i buf =>
    obtain ⟨k, ks, -, -, next⟩ := foundNext parts now
    have taken : step c s .server = some { s with
        rdptr := Function.update s.rdptr i (startOf (pool s i) ks), server := .moved i buf } := by
      simp only [step, serverStep, now, next]
      rfl
    exact ⟨_, taken, _, _, _, _, foundKeeps parts now taken⟩
  | moved i buf => exact processKeeps apart parts now
  | sending link cmd buf dptr todo sent =>
    cases todo with
    | nil => exact releaseKeeps apart small parts now
    | cons item todo =>
      cases taken : step c s .server with
      | none => simp [step, serverStep, now] at taken
      | some t => exact ⟨t, rfl, _, _, _, _, outputKeeps parts now taken⟩

theorem leftStep (taken : step c s .server = some t) : s.server.left = t.server.left + 1 := by
  cases now : s.server with
  | select => simp [step, serverStep, now] at taken
  | found i buf =>
    simp only [step, serverStep, now] at taken
    obtain ⟨next, -, eq⟩ := Option.bind_eq_some_iff.mp taken
    cases eq
    rfl
  | moved i buf =>
    simp only [step, serverStep, now] at taken
    obtain ⟨u, -, eq⟩ := Option.bind_eq_some_iff.mp taken
    cases eq
    rfl
  | sending link cmd buf dptr todo sent =>
    cases todo with
    | nil =>
      simp only [step, serverStep, now] at taken
      obtain ⟨l, -, rest⟩ := Option.bind_eq_some_iff.mp taken
      obtain ⟨u, -, eq⟩ := Option.bind_eq_some_iff.mp rest
      cases eq
      rfl
    | cons item todo =>
      simp only [step, serverStep, now] at taken
      cases taken
      rfl

theorem serverReturns (apart : ∀ i a, start i ≤ a → a < stop i → c.poolOf a = i) (small : ∀ i, 4 * (stop i - start i) < 2 ^ 31)
    (inv : Inv c start stop s) : ∃ t, run (step c) s (List.replicate s.server.left .server) = some t ∧ t.server = .select := by
  generalize len : s.server.left = n
  induction n generalizing s with
  | zero =>
    refine ⟨s, rfl, ?_⟩
    cases now : s.server <;> simp [now, Server.left] at len
    rfl
  | succ n ih =>
    obtain ⟨t, taken, kept⟩ := serverGoes apart small inv fun now => by simp [now, Server.left] at len
    have left := leftStep taken
    obtain ⟨u, reached, idle⟩ := ih kept (by omega)
    exact ⟨u, by rw [List.replicate_succ, run, taken]; exact reached, idle⟩

theorem stepKeeps (apart : ∀ i a, start i ≤ a → a < stop i → c.poolOf a = i) (small : ∀ i, 4 * (stop i - start i) < 2 ^ 31)
    {e : Event ι} (inv : Inv c start stop s) (taken : step c s e = some t) : Inv c start stop t := by
  obtain ⟨old, pre, rest, m, parts⟩ := inv
  cases e with
  | front e =>
    cases e with
    | rx i e =>
      obtain ⟨rest', kept⟩ := ownKeeps apart parts taken
      exact ⟨_, _, _, _, kept⟩
    | filter =>
      obtain ⟨rest', kept⟩ := filterKeeps apart parts taken
      exact ⟨_, _, _, _, kept⟩
  | look i => exact ⟨_, _, _, _, lookKeeps parts taken⟩
  | server =>
    have busy : s.server ≠ .select := by
      intro now
      simp [step, serverStep, now] at taken
    obtain ⟨t', taken', kept⟩ := serverGoes apart small ⟨_, _, _, _, parts⟩ busy
    rw [taken] at taken'
    cases taken'
    exact kept
  | request link cmd =>
    obtain ⟨m', kept⟩ := RxServing.requestKeeps apart parts taken
    exact ⟨_, _, _, _, kept⟩
  | command link k =>
    obtain ⟨m', kept⟩ := commandKeeps parts taken
    exact ⟨_, _, _, _, kept⟩
  | linkStatus x => exact ⟨_, _, _, _, linkStatusKeeps parts taken⟩
  | statusChange =>
    obtain ⟨m', kept⟩ := statusChangeKeeps parts taken
    exact ⟨_, _, _, _, kept⟩

theorem invDelivers (apart : ∀ i a, start i ≤ a → a < stop i → c.poolOf a = i) (small : ∀ i, 4 * (stop i - start i) < 2 ^ 31)
    (inv : Inv c start stop s) : Delivers c s := by
  have answered := serverReturns apart small inv
  obtain ⟨old, pre, rest, m, parts⟩ := inv
  have recorded := parts.recorded
  have waits : ∀ link l, s.links[link]? = some l → ∀ n ∈ (client c s link).waiting, ∃ buf ∈ l.fifo.contents c.rxBuf,
      (s.number buf : Int) = n := by
    intro link l here n member
    obtain ⟨b, refines, numbered⟩ := parts.clients link l here
    rw [numbered.waiting, ← refines.waiting] at member
    exact List.mem_map.mp member
  refine ⟨recorded.whole, fun i => ?_, recorded.offered, recorded.replies, fun link i => ?_, recorded.conveyed, recorded.statuses,
    fun i k member => ?_, fun link below n member => ?_, answered⟩
  · have line := parts.line i
    rw [line.processed, line.arrived, List.map_append, ← List.append_assoc]
    exact List.prefix_append ..
  · obtain ⟨both, grown⟩ := takenRun (n := c.rxBuf) (l := link) (a := .initial c.rxBuf) rfl s.log
    rw [client, RxServer.clientRun, both]
    exact List.Sublist.filter _ grown
  · have line := parts.line i
    have inside := (memQueue parts).mp member
    constructor
    · intro live
      rcases List.mem_append.mp inside with first | last
      · right
        obtain ⟨link, l, here, holds⟩ := liveHeld parts first live
        obtain ⟨b, refines, numbered⟩ := parts.clients link l here
        refine ⟨link, (List.getElem?_eq_some_iff.mp here).1, ?_⟩
        rw [numbered.waiting, ← refines.waiting]
        exact List.mem_map_of_mem holds
      · left
        rw [line.processed]
        have once := arrivedNodup s i
        rw [line.arrived] at once
        intro gone
        rcases List.mem_append.mp gone with before | taken
        · exact (List.nodup_append.mp once).2.2 _ before _ (List.mem_map_of_mem inside) rfl
        · obtain ⟨k', first, same⟩ := List.mem_map.mp taken
          exact notBoth parts first last same
    · rintro (waiting | ⟨link, below, holds⟩)
      · rcases List.mem_append.mp inside with first | last
        · exact absurd (by rw [line.processed]; exact List.mem_append_right _ (List.mem_map_of_mem first)) waiting
        · exact line.live k last
      · obtain ⟨buf, holds, same⟩ := waits link _ (List.getElem?_eq_getElem below) _ holds
        obtain ⟨j, k', first, rfl, live⟩ := heldLive parts (List.getElem?_eq_getElem below) holds
        obtain ⟨-, rfl⟩ := sameNumber parts (List.mem_append_left _ first) inside (Int.ofNat.inj same)
        exact live
  · obtain ⟨buf, holds, same⟩ := waits link _ (List.getElem?_eq_getElem below) n member
    obtain ⟨i, k, first, rfl, live⟩ := heldLive parts (List.getElem?_eq_getElem below) holds
    exact ⟨i, k, (memQueue parts).mpr (List.mem_append_left _ first), live, same⟩

end run

theorem initialInv {ι : Type} [DecidableEq ι] (c : Config ι) (mem : ι → Int → Int) (mempool memsize : ι → Nat)
    (enough : ∀ i, 28 ≤ memsize i) (links : Nat) :
    Inv c (fun i => mempool i + 5) (fun i => mempool i + memsize i - 1) (initial c mem mempool memsize links) := by
  refine ⟨fun _ => [], fun _ => [], fun _ => [], RxServer.initial (Config.server c) links,
    FilterPass.systemStart mem mempool memsize enough, fun i => ?_, fun i => ⟨rfl, rfl, rfl, by simp, rfl⟩, by simp, by simp,
    RxServer.invInitial _ links, rfl, ⟨by simp, fun buf held => by simp [RxServer.initial] at held⟩, fun link l here => ?_, trivial,
    ⟨by simp [initial], by simp [initial], by simp [initial], fun link _ => rfl, by simp [initial], by simp [initial]⟩⟩
  · simp only [pool, initial, FilterPass.initial, RxComplete.initial, RxPins.initial, miiInitMempool, mempoolInfoSize]
    omega
  · have member := List.mem_of_getElem? here
    rw [List.eq_of_mem_replicate member]
    exact ⟨_, refinesInitial c.positive, rfl, rfl, rfl, rfl⟩

/-- In every state of every run, each client is sent the frames that it wants in the order in which they came, each once and
whole, a packet is in its pool as long as a client waits for it, and the server comes back to its select. -/
theorem framesDelivered {ι : Type} [DecidableEq ι] (c : Config ι) (mem : ι → Int → Int) (mempool memsize : ι → Nat) (links : Nat)
    (enough : ∀ i, 28 ≤ memsize i) (small : ∀ i, 4 * memsize i < 2 ^ 31)
    (apart : ∀ i (a : Int), mempool i ≤ a → a < mempool i + memsize i → c.poolOf a = i) (es : List (Event ι)) :
    Always (step c) (Delivers c) (initial c mem mempool memsize links) es := by
  have inside : ∀ i (a : Int), (mempool i : Int) + 5 ≤ a → a < mempool i + memsize i - 1 → c.poolOf a = i :=
    fun i a low high => apart i a (by omega) (by omega)
  have size : ∀ i, 4 * ((mempool i : Int) + memsize i - 1 - (mempool i + 5)) < 2 ^ 31 := by
    intro i
    have := small i
    omega
  exact alwaysInvariant (I := Inv c (fun i => mempool i + 5) (fun i => mempool i + memsize i - 1))
    (fun _ _ _ inv taken => stepKeeps inside size inv taken) (fun _ inv => invDelivers inside size inv)
    (initialInv c mem mempool memsize enough links) es

/- A multicast frame, wanted by the second of two clients. -/
def onePool : Config Unit := ⟨FilterPass.firstWord, 5, Nat.succ_pos 4, fun _ => ()⟩
def onePoolStart : State Unit := initial onePool (fun _ _ => 0) (fun _ => 0) (fun _ => 128) 2
def toSecond : List (Event Unit) :=
  [.command 1 (.customFilterSet 3#32)] ++ FilterPass.multicast.map .front ++ [.look (), .front .filter, .look (), .server, .server,
    .request 0 .frameReq, .request 1 .frameReq] ++ List.replicate 20 .server

theorem framesDeliveredToSecond : ∃ s a sent, run (step onePool) onePoolStart toSecond = some s ∧
    s.replies 1 = [.frame 0 .frameReq sent] ∧ s.arrivals[0]? = some a ∧ a.bytes = FilterPass.multicastFrame ∧ Conveys a sent ∧
    Delivers onePool s := by
  have ends : (run (step onePool) onePoolStart toSecond).any (fun s => decide (
      s.arrivals.map Arrival.bytes = [FilterPass.multicastFrame] ∧ (s.replies 1).map Reply.number = [some 0] ∧ (s.replies 1).map Reply.cmd = [some .frameReq])) = true := by decide +kernel
  cases reached : run (step onePool) onePoolStart toSecond with
  | none => rw [reached] at ends; cases ends
  | some s =>
    rw [reached, Option.any_some, decide_eq_true_iff] at ends
    obtain ⟨frames, numbers, cmds⟩ := ends
    obtain ⟨a, arrivals, bytes⟩ := List.map_eq_singleton_iff.mp frames
    obtain ⟨r, replies, number⟩ := List.map_eq_singleton_iff.mp numbers
    rw [replies, List.map_singleton] at cmds
    cases r with
    | frame n cmd sent =>
      obtain rfl : n = 0 := by simpa [Reply.number] using number
      obtain rfl : cmd = .frameReq := by simpa [Reply.cmd] using cmds
      have always := framesDelivered onePool (fun _ _ => 0) (fun _ => 0) (fun _ => 128) 2 (fun _ => by decide) (fun _ => by decide)
        (fun _ _ _ _ => rfl) toSecond
      have delivers := alwaysReached always reached
      obtain ⟨a', here, conveys⟩ := delivers.conveyed 1 0 sent (by rw [replies]; simp)
      rw [arrivals, List.getElem?_cons_zero, Option.some.injEq] at here
      subst here
      exact ⟨s, a, sent, rfl, replies, by rw [arrivals]; rfl, bytes, conveys, delivers⟩
    | status x sent => cases number
    | nothing => cases number

end ScEthernet.Full.RxDelivery
