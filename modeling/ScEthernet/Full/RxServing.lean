import ScEthernet.Full.RxParts

/-! The steps of ethernet_rx_server keep what RxParts says of the frames: reading the pools, handing a frame to the links,
sending it output by output, and giving the buffer back with the last link. -/
namespace ScEthernet.Full.RxServing
open Lib.UnrolledRing Lib.BitOrder Lib.ChannelTokens Lib.CircularFifo Lib.Runs Malloc PoolQueue RxLink RxSystem RxFront RxParts
open RxServer (clientRun clientStep project)
open RxForward (Item outputs reply)
open FilterPass (SystemInv Wanted)
open RxReadPointer (PhaseInv startOf)
open RxTransfer (Cmd field dataBound)
open DataWalks (dataAddress dataAddressPlace)

section server
variable {ι : Type} [DecidableEq ι] {c : Config ι} {start stop : ι → Int} {s t : State ι} {old : ι → List Nat}
  {pre rest : ι → List Pkt} {m m' : RxServer.State} {i j : ι} {k k' : Pkt}

theorem lineStill (line : Line s i (old i) (pre i) (rest i)) (front : t.front = s.front) (arrivals : t.arrivals = s.arrivals)
    (same : t.number = s.number) (processed : processedIn t i = processedIn s i) (phase : PhaseInv (reader t i) (rest i)) :
    Line t i (old i) (pre i) (rest i) := by
  have numbers : number t = number s := funext fun k => by rw [number, number, same]
  have pools : ofPool t i = ofPool s i := funext fun n => by rw [ofPool, ofPool, arrivals]
  refine ⟨by rw [queue, front]; exact line.queue, ?_, ?_, line.live, phase⟩
  · rw [arrivedIn, arrivals, pools, numbers]
    exact line.arrived
  · rw [processed, numbers]
    exact line.processed

omit [DecidableEq ι] in
theorem stockedStill {a : Arrival ι} (stocked : Stocked c s i k a) (arrivals : t.arrivals = s.arrivals)
    (same : t.number = s.number)
    (pending : t.front.pending = s.front.pending) (frame : t.front.frame = s.front.frame) : Stocked c t i k a := by
  refine ⟨?_, stocked.pool, stocked.carries, ?_, ?_⟩
  · rw [arrivals, number, same]
    exact stocked.here
  · rw [pending, frame]
    exact stocked.ahead
  · rw [pending]
    exact stocked.behind

theorem stillKept (parts : Parts c start stop s old pre rest m) (front : t.front = s.front) (arrivals : t.arrivals = s.arrivals)
    (same : t.number = s.number) (links : t.links = s.links) (log : t.log = s.log) (replies : t.replies = s.replies)
    (phases : ∀ i, PhaseInv (reader t i) (rest i)) (at_ : ServerInv c t) : Parts c start stop t old pre rest m := by
  refine frontKept parts (front ▸ parts.front) (fun i => by rw [pool, pool, front]; exact ⟨rfl, rfl⟩)
    (arrivals.trans (List.append_nil s.arrivals).symm) (by simp) (fun _ _ _ => by rw [number, number, same]) (fun i => ?_)
    (fun i k member => ?_) (fun i k member => by rw [front]; exact parts.taken i k member) links log replies at_
  · refine lineStill (parts.line i) front arrivals same ?_ (phases i)
    rw [processedIn, processedIn, log]
    exact List.filter_congr fun n _ => by rw [ofPool, ofPool, arrivals]
  · obtain ⟨a, stocked⟩ := parts.stocked i k member
    exact ⟨a, stockedStill stocked arrivals same (by rw [front]) (by rw [front])⟩

theorem lookKeeps (parts : Parts c start stop s old pre rest m) (taken : step c s (.look i) = some t) :
    Parts c start stop t old pre rest m := by
  simp only [step] at taken
  cases now : s.server <;> simp only [now] at taken
  case select =>
    cases taken
    have idle : ∀ j, s.rdptr j = startOf (pool s j) (rest j) := by
      intro j
      have phase := (parts.line j).phase
      unfold PhaseInv reader readerPhase at phase
      simp only [now] at phase
      exact phase
    by_cases found : miiGetMyNextBuf (pool s i) (s.rdptr i) ≠ 0 ∧
        miiPacketGetStage (pool s i) (miiGetMyNextBuf (pool s i) (s.rdptr i)) = 1
    · rw [if_pos found]
      have notEnd : s.rdptr i ≠ (pool s i).wrptr := fun same => found.1 (if_pos same)
      obtain ⟨k, ks, first⟩ : ∃ k ks, rest i = k :: ks := by
        cases shape : rest i with
        | nil =>
          have at_ := idle i
          rw [shape] at at_
          exact absurd at_ notEnd
        | cons k ks => exact ⟨k, ks, rfl⟩
      have next : miiGetMyNextBuf (pool s i) (s.rdptr i) = k.buf := by
        have at_ := idle i
        rw [first] at at_
        rw [miiGetMyNextBuf, if_neg notEnd, at_]
        simp [startOf, mallocHdrSize]
      rw [next] at found ⊢
      refine stillKept parts rfl rfl rfl rfl rfl rfl (fun j => ?_) ?_
      · unfold PhaseInv reader readerPhase
        by_cases same : i = j
        · subst same
          simp only [if_true]
          exact ⟨idle i, k, ks, first, rfl⟩
        · simp only [same, if_false]
          exact idle j
      · intro waits
        have member : k ∈ pre i ++ rest i := by rw [first]; simp
        obtain ⟨a, stocked⟩ := parts.stocked i k member
        have stage := (headerHere parts member .stage).symm.trans found.2
        rw [(stocked.ahead waits).1] at stage
        cases stage
    · rw [if_neg found]
      exact stillKept parts rfl rfl rfl rfl rfl rfl (fun j => by unfold PhaseInv reader readerPhase; exact idle j) trivial
  all_goals cases taken

theorem foundNext (parts : Parts c start stop s old pre rest m) {buf : Int} (now : s.server = .found i buf) :
    ∃ k ks, rest i = k :: ks ∧ k.buf = buf ∧ miiUpdateMyRdptr (pool s i) (s.rdptr i) = some (startOf (pool s i) ks) := by
  have phase := (parts.line i).phase
  unfold PhaseInv reader readerPhase at phase
  simp only [now, if_true] at phase
  obtain ⟨at_, k, ks, first, same⟩ := phase
  obtain ⟨r, vr, vw, rep, -⟩ := poolRep parts i
  obtain ⟨-, -, link, positive⟩ := RxReadPointer.startLink (s := reader s i) rep first ((parts.line i).live k (by simp [first]))
  refine ⟨k, ks, first, same, ?_⟩
  change s.rdptr i = startOf (pool s i) (rest i) at at_
  rw [miiUpdateMyRdptr, at_]
  change (pool s i).mem (startOf (pool s i) (rest i)) = startOf (pool s i) ks at link
  rw [link, if_neg (by have := positive; change 0 < startOf (pool s i) ks at this; omega)]

theorem foundKeeps (parts : Parts c start stop s old pre rest m) {buf : Int} (now : s.server = .found i buf)
    (taken : step c s .server = some t) : Parts c start stop t old pre rest m := by
  obtain ⟨k, ks, first, same, next⟩ := foundNext parts now
  simp only [step, serverStep, now, next, Option.bind_eq_bind, Option.bind_some, Option.some.injEq] at taken
  subst taken
  have before := parts.server
  unfold ServerInv at before
  simp only [now] at before
  refine stillKept parts rfl rfl rfl rfl rfl rfl (fun j => ?_) before
  have phase := (parts.line j).phase
  unfold PhaseInv reader readerPhase at phase ⊢
  by_cases here : i = j
  · subst here
    simp only [if_true, Function.update_self]
    exact ⟨k, ks, first, same, rfl⟩
  · simp only [now, here, if_false] at phase
    simp only [here, if_false, Function.update_of_ne (Ne.symm here)]
    exact phase

end server

/-! The links and what is logged of them. -/

def numberedEvent (number : Int → Nat) : RxServer.Event → RxServer.Event
  | .process buf header => .process (number buf) header
  | e => e

section clients
variable {number : Int → Nat} {n : Nat} {b a : Client}

theorem numberedStep (h : Numbered number b a) (link : Nat) (e : RxServer.Event) :
    Numbered number ((project link e).elim b (clientStep n b))
      ((project link (numberedEvent number e)).elim a (clientStep n a)) := by
  have request : Numbered number b.request a.request := by
    unfold Client.request
    rw [h.wants]
    split
    · exact ⟨h.mask, h.limit, rfl, h.waiting⟩
    · exact ⟨h.mask, h.limit, rfl, by rw [h.waiting, List.map_tail]⟩
  have command : ∀ k, Numbered number (b.command n k) (a.command n k) := by
    intro k
    cases k with
    | customFilterSet value => exact { h with mask := rfl }
    | dropPacketsSet drop => exact { h with limit := rfl }
    | queueSizeSet size => exact { h with limit := rfl }
    | wantsStatusUpdatesSet wants => exact { h with wants := rfl }
    | _ => exact h
  cases e with
  | process buf header =>
    have room : a.room n ↔ b.room n := by rw [Client.room, Client.room, h.waiting, h.limit, List.length_map]
    simp only [numberedEvent, project, Option.elim, clientStep, Client.offer, h.mask, room]
    split
    · exact h
    · split
      · exact ⟨rfl, h.limit, h.wants, by rw [h.waiting, List.map_append, List.map_singleton]⟩
      · exact ⟨rfl, h.limit, h.wants, h.waiting⟩
  | request j =>
    simp only [numberedEvent, project]
    split
    · exact request
    · exact h
  | command j k =>
    simp only [numberedEvent, project]
    split
    · exact command k
    · exact h
  | statusChange =>
    simp only [numberedEvent, project, Option.elim, clientStep, Client.statusChange, h.wants]
    split
    · exact { h with wants := rfl }
    · exact h
  | forward buf timestamp => exact h

def given : RxLink.Reply → List Int
  | .packet buf => [buf]
  | _ => []

theorem requestSent {l : Link} (refines : Refines n l b) (h : Numbered number b a) :
    a.request.sent = a.sent ++ (given (request n l).reply).map fun buf => (number buf : Int) := by
  unfold request Client.request
  rw [h.wants, ← refines.wants]
  by_cases status : l.wantsStatusUpdates = 2
  · simp only [if_pos status]
    split <;> simp [given]
  · simp only [if_neg status]
    by_cases more : l.fifo.rd ≠ l.fifo.wr
    · have head := popContents refines.valid more
      rw [refines.waiting] at head
      simp only [if_pos more]
      split <;> simp [given, h.waiting, head]
    · have empty := (emptyIff refines.valid).mp (not_not.mp more)
      rw [refines.waiting] at empty
      simp [if_neg more, given, h.waiting, empty]

theorem quietSent (a : Client) {link : Nat} {e : RxServer.Event} (quiet : e ≠ .request link) :
    ((project link e).elim a (clientStep n a)).sent = a.sent := by
  cases e with
  | process buf header =>
    simp only [project, Option.elim, clientStep, Client.offer]
    split
    · rfl
    · split <;> rfl
  | request j =>
    have other : link ≠ j := fun same => quiet (by rw [same])
    simp only [project, other, if_false, Option.elim]
  | command j k =>
    simp only [project]
    split
    · cases k <;> rfl
    · rfl
  | statusChange =>
    simp only [project, Option.elim, clientStep, Client.statusChange]
    split <;> rfl
  | forward buf timestamp => rfl

end clients

section log
variable {ι : Type} [DecidableEq ι] {c : Config ι} {start stop : ι → Int} {s t : State ι} {old : ι → List Nat}
  {pre rest : ι → List Pkt} {m m' : RxServer.State} {i j : ι} {k k' : Pkt} {e : RxServer.Event}

theorem linksLength {g : RxServer.Config} (moved : RxServer.step g m e = some m') : m'.links.length = m.links.length := by
  cases e with
  | process buf header =>
    simp only [RxServer.step] at moved
    split at moved
    · cases moved
      rw [RxServer.processLinks, List.length_map]
    · cases moved
  | request link =>
    simp only [RxServer.step] at moved
    split at moved
    · split at moved
      · cases moved
        rw [RxServer.releaseLinks, List.length_set]
      · cases moved
        rw [List.length_set]
    · cases moved
  | command link k =>
    simp only [RxServer.step] at moved
    split at moved
    · cases moved
      rw [List.length_set]
    · cases moved
  | statusChange =>
    cases moved
    rw [List.length_map]
  | forward buf timestamp =>
    simp only [RxServer.step] at moved
    split at moved
    · cases moved
      rw [RxServer.forwardLinks]
    · cases moved

omit [DecidableEq ι] in
theorem clientAppend (log : t.log = s.log ++ [e]) (link : Nat) :
    client c t link = (project link e).elim (client c s link) (clientStep c.rxBuf (client c s link)) := by
  rw [client, clientRun, log, List.filterMap_append, List.foldl_append]
  cases event : project link e <;> simp [event, client, clientRun]

theorem clientsKept (parts : Parts c start stop s old pre rest m) (moved : RxServer.step (Config.server c) m e = some m')
    (links : t.links = m'.links) (log : t.log = s.log ++ [numberedEvent s.number e]) (number : t.number = s.number) (link : Nat)
    (l : Link) (here : t.links[link]? = some l) : ∃ b, Refines c.rxBuf l b ∧ Numbered t.number b (client c t link) := by
  have each : ∀ link, ∃ b, ∀ l, s.links[link]? = some l → Refines c.rxBuf l b ∧ Numbered s.number b (client c s link) := by
    intro link
    cases at_ : s.links[link]? with
    | none => exact ⟨.initial c.rxBuf, by simp⟩
    | some l =>
      obtain ⟨b, both⟩ := parts.clients link l at_
      exact ⟨b, fun l' same => Option.some.inj same ▸ both⟩
  choose b before using each
  have refines := RxServer.stepRefines (a := b) (fun link l at_ => (before link l (parts.links ▸ at_)).1) moved link l (links ▸ here)
  refine ⟨_, refines, ?_⟩
  have inside : link < s.links.length := by
    rw [← parts.links, ← linksLength moved, ← links]
    exact (List.getElem?_eq_some_iff.mp here).1
  rw [number, clientAppend log]
  exact numberedStep (before link _ (List.getElem?_eq_getElem inside)).2 link e

omit [DecidableEq ι] in
theorem repliesQuiet (h : Recorded c s) (log : t.log = s.log ++ [e]) (replies : t.replies = s.replies)
    (quiet : ∀ link, e ≠ .request link) (link : Nat) (below : link < s.links.length) :
    (t.replies link).filterMap Reply.number = (client c t link).sent := by
  rw [replies, h.replies link below, clientAppend log, quietSent _ (quiet link)]

theorem repliesRequest (parts : Parts c start stop s old pre rest m) {link : Nat} {l : Link} (here : s.links[link]? = some l)
    {r : RxSystem.Reply} (log : t.log = s.log ++ [.request link])
    (replies : t.replies = Function.update s.replies link (s.replies link ++ [r]))
    (same : (given (request c.rxBuf l).reply).map (fun buf => (s.number buf : Int)) = r.number.toList) (j : Nat)
    (below : j < s.links.length) : (t.replies j).filterMap Reply.number = (client c t j).sent := by
  have before := parts.recorded.replies j below
  rw [replies, clientAppend log]
  by_cases mine : j = link
  · subst mine
    obtain ⟨b, refines, numbered⟩ := parts.clients j l here
    simp only [project, if_true, Option.elim, clientStep]
    have last : [r].filterMap Reply.number = r.number.toList := by cases number : r.number <;> simp [number]
    rw [Function.update_self, List.filterMap_append, before, requestSent refines numbered, same, last]
  · rw [Function.update_of_ne mine, before, quietSent _ (by simpa using Ne.symm mine)]

omit [DecidableEq ι] in
theorem recordedLogged (h : Recorded c s) (arrivals : t.arrivals = s.arrivals) (log : t.log = s.log ++ [e])
    (length : t.links.length = s.links.length) (known : ∀ n ∈ processedNumber e, n < s.arrivals.length)
    (offered : ∀ n header, e = .process n header →
      ∃ a, s.arrivals[n.toNat]? = some a ∧ Outcome c.filter a.bytes (BitVec.ofInt 32 (header .filterResult)))
    (replies : ∀ link, link < s.links.length → (t.replies link).filterMap Reply.number = (client c t link).sent)
    (conveyed : ∀ link n sent, .frame n .frameReq sent ∈ t.replies link → .frame n .frameReq sent ∈ s.replies link ∨
      ∃ a, s.arrivals[n]? = some a ∧ Conveys a sent)
    (statuses : ∀ link x sent, .status x sent ∈ t.replies link → .status x sent ∈ s.replies link ∨
      sent = RxTransfer.sendStatusPacket 0 x) : Recorded c t := by
  refine ⟨by rw [arrivals]; exact h.whole, fun n member => ?_, fun n header member => ?_, by rw [length]; exact replies,
    fun link n sent member => ?_, fun link x sent member => ?_⟩
  · rw [log, List.filterMap_append] at member
    rw [arrivals]
    rcases List.mem_append.mp member with before | now
    · exact h.known n before
    · obtain ⟨e', single, number⟩ := List.mem_filterMap.mp now
      obtain rfl := List.mem_singleton.mp single
      exact known n number
  · rw [log] at member
    rw [arrivals]
    rcases List.mem_append.mp member with before | now
    · exact h.offered n header before
    · exact offered n header (List.mem_singleton.mp now).symm
  · rw [arrivals]
    exact (conveyed link n sent member).elim (h.conveyed link n sent) id
  · exact (statuses link x sent member).elim (h.statuses link x sent) id

theorem quietKept (parts : Parts c start stop s old pre rest m) (moved : RxServer.step (Config.server c) m e = some m')
    (headers : m'.headers = m.headers) (processed : m'.processed = m.processed) (freed : m'.freed = m.freed)
    (quiet : processedNumber e = none) (front : t.front = s.front) (arrivals : t.arrivals = s.arrivals)
    (same : t.number = s.number)
    (rdptr : t.rdptr = s.rdptr) (before : s.server = .select) (after : t.server = .select) (links : t.links = m'.links)
    (log : t.log = s.log ++ [e]) (recorded : Recorded c t) : Parts c start stop t old pre rest m' where
  front := front ▸ parts.front
  extent i := by rw [pool, front]; exact parts.extent i
  line i := by
    refine lineStill (parts.line i) front arrivals same ?_ ?_
    · have pools : ofPool t i = ofPool s i := funext fun n => by rw [ofPool, ofPool, arrivals]
      rw [processedIn, processedIn, log, List.filterMap_append, pools]
      simp [quiet]
    · exact RxReadPointer.phaseSame (parts.line i).phase (by simp [reader, before, after]) (congrFun rdptr i)
        (by simp [reader, front]) rfl
  stocked i k member := by
    obtain ⟨a, stocked⟩ := parts.stocked i k member
    exact ⟨a, stockedStill stocked arrivals same (by rw [front]) (by rw [front])⟩
  taken i k member := by rw [front]; exact parts.taken i k member
  balanced := RxServer.stepKeeps parts.balanced moved
  links := links.symm
  counts := ⟨by rw [headers, processed, freed]; exact parts.counts.counted, by rw [processed, freed]; exact parts.counts.owned⟩
  clients := by
    refine clientsKept parts moved links (log.trans ?_) same
    cases e <;> first | rfl | cases quiet
  server := by unfold ServerInv; rw [after]; trivial
  recorded := recorded

theorem commandKeeps (parts : Parts c start stop s old pre rest m) {link : Nat} {k : Command}
    (taken : step c s (.command link k) = some t) : ∃ m', Parts c start stop t old pre rest m' := by
  simp only [step] at taken
  cases now : s.server <;> simp only [now] at taken
  case select =>
    cases here : s.links[link]? with
    | none => simp [here] at taken
    | some l =>
      simp only [here, Option.some.injEq] at taken
      subst taken
      have moved : RxServer.step (Config.server c) m (.command link k) =
          some { m with links := m.links.set link (command c.rxBuf k l) } := by
        simp only [RxServer.step, parts.links, here]
        rfl
      refine ⟨_, quietKept parts moved rfl rfl rfl rfl rfl rfl rfl rfl now now (by rw [parts.links]; rfl) rfl ?_⟩
      exact recordedLogged parts.recorded rfl rfl List.length_set (by simp [processedNumber]) (by simp)
        (repliesQuiet parts.recorded rfl rfl (by simp)) (fun _ _ _ => .inl) (fun _ _ _ => .inl)
  all_goals cases taken

theorem statusChangeKeeps (parts : Parts c start stop s old pre rest m) (taken : step c s .statusChange = some t) :
    ∃ m', Parts c start stop t old pre rest m' := by
  simp only [step] at taken
  cases now : s.server <;> simp only [now] at taken
  case select =>
    cases taken
    refine ⟨_, quietKept parts (e := .statusChange) rfl rfl rfl rfl rfl rfl rfl rfl rfl now rfl (by rw [parts.links]) rfl ?_⟩
    exact recordedLogged parts.recorded rfl rfl (List.length_map _) (by simp [processedNumber]) (by simp)
      (repliesQuiet parts.recorded rfl rfl (by simp)) (fun _ _ _ => .inl) (fun _ _ _ => .inl)
  all_goals cases taken

theorem linkStatusKeeps (parts : Parts c start stop s old pre rest m) {x : BitVec 32}
    (taken : step c s (.linkStatus x) = some t) : Parts c start stop t old pre rest m := by
  cases taken
  exact stillKept parts rfl rfl rfl rfl rfl rfl (fun i => (parts.line i).phase) parts.server

omit [DecidableEq ι] in
theorem repliesEarlier {link : Nat} {r : RxSystem.Reply} (replies : t.replies = Function.update s.replies link (s.replies link ++ [r]))
    (j : Nat) : ∀ r' ∈ t.replies j, r' ∈ s.replies j ∨ r' = r := by
  intro r' member
  rw [replies] at member
  by_cases mine : j = link
  · subst mine
    rw [Function.update_self] at member
    exact (List.mem_append.mp member).imp_right List.mem_singleton.mp
  · rw [Function.update_of_ne mine] at member
    exact .inl member

theorem requestQuiet (parts : Parts c start stop s old pre rest m) {link : Nat} {l : Link} (here : s.links[link]? = some l)
    (now : s.server = .select) {r : RxSystem.Reply} (none : given (request c.rxBuf l).reply = []) (quiet : r.number = .none)
    (status : ∀ x sent, r = .status x sent → sent = RxTransfer.sendStatusPacket 0 x) : ∃ m',
      Parts c start stop (replied (onLink s link (request c.rxBuf l).link (.request link)) link r) old pre rest m' := by
  have moved : RxServer.step (Config.server c) m (.request link) =
      some { m with links := m.links.set link (request c.rxBuf l).link } := by
    simp only [RxServer.step, parts.links, here, Config.server]
    cases reply : (request c.rxBuf l).reply with
    | packet buf => simp [reply, given] at none
    | status => rfl
    | nothing => rfl
  refine ⟨_, quietKept parts moved rfl rfl rfl rfl rfl rfl rfl rfl now now (by rw [parts.links]; rfl) rfl ?_⟩
  have earlier := repliesEarlier (t := replied (onLink s link (request c.rxBuf l).link (.request link)) link r) rfl
  refine recordedLogged parts.recorded rfl rfl List.length_set (by simp [processedNumber]) (by simp)
    (repliesRequest parts here rfl rfl (by simp [none, quiet])) (fun j n sent member => ?_) (fun j x sent member => ?_)
  · refine (earlier j _ member).imp_right fun same => ?_
    rw [← same] at quiet
    cases quiet
  · exact (earlier j _ member).imp_right fun same => status x sent same.symm

end log

/-! mac_rx_send_frame1, output by output. -/

section sending
variable {p : Pool} {q : List Pkt} {r : Ring} {vr vw : Nat} {k : Pkt} {cmd : Cmd} {dptr : Int} {todo : List Item} {sent : List Token}

theorem cursorFirst {buf : Int} (room : buf + 20 ≤ p.stop) :
    (if miiPacketGetDataPtr buf = p.stop then p.start else miiPacketGetDataPtr buf) = dataAddress p buf 0 := by
  rw [miiPacketGetDataPtr, dataAddress, bufDataOffset]
  split
  · omega
  · split <;> omega

theorem cursorNext {buf i : Int} (room : buf + 20 ≤ p.stop) (short : 12 + i < p.stop - p.start) :
    (if dataAddress p buf i + 1 = p.stop then p.start else dataAddress p buf i + 1) = dataAddress p buf (i + 1) := by
  rw [dataAddress, dataAddress, bufDataOffset]
  split <;> split <;> split <;> omega

theorem bufRoom (h : Rep p q r vr vw) (member : k ∈ q) : p.start ≤ k.buf ∧ k.buf + 20 ≤ p.stop := by
  obtain ⟨pre, post, rfl⟩ := List.append_of_mem member
  obtain ⟨v, w, left, slot, right⟩ := chainSlot h.chain
  have buf := slot.buf
  have room := slot.room
  have lower := r.placeLower v
  rw [h.start, h.stop]
  omega

theorem datumHere (h : Rep p q r vr vw) (member : k ∈ q) {i : Nat} (inside : i < k.data.length) :
    p.mem (dataAddress p k.buf i) = k.data[i] := by
  have bound := dataBound h member
  obtain ⟨pre, post, rfl⟩ := List.append_of_mem member
  obtain ⟨v, w, left, slot, right⟩ := chainSlot h.chain
  rw [h.start, h.stop, Ring.limit] at bound
  rw [slot.buf, dataAddressPlace h.start h.stop slot.room (by omega), slot.data i inside]

theorem outputIndices (cmd : Cmd) (length : Int) :
    ∃ n, n ≤ ((length + 3) / 4).toNat ∧ (outputs cmd length).filterMap Item.index = List.range n := by
  have words : ∀ (reversed : Bool) (ns : List Nat), (ns.map (Item.word reversed)).filterMap Item.index = ns := by
    intro reversed ns
    rw [List.filterMap_map]
    exact List.filterMap_some
  unfold outputs
  split
  · refine ⟨_, Nat.le_refl _, ?_⟩
    simp only [List.filterMap_append, List.filterMap_cons, List.filterMap_nil, words, Item.index, List.nil_append, List.append_nil]
  · refine ⟨((length + 3) / 4 - if cmd = .frameReq then 0 else 3).toNat, by split <;> omega, ?_⟩
    simp only [List.filterMap_append, List.filterMap_cons, List.filterMap_nil, words, Item.index, List.nil_append, List.append_nil]

theorem spokenFirst (h : Rep p q r vr vw) (member : k ∈ q) (cmd : Cmd) :
    Spoken p k cmd (miiPacketGetDataPtr k.buf) (outputs cmd (k.header .length)) [] := by
  refine ⟨⟨[], rfl, rfl⟩, fun i head => ?_⟩
  obtain ⟨n, -, indices⟩ := outputIndices cmd (k.header .length)
  rw [indices] at head
  cases n with
  | zero => simp at head
  | succ n =>
    rw [List.range_succ_eq_map, List.head?_cons, Option.some.injEq] at head
    subst head
    exact cursorFirst (bufRoom h member).2

theorem spokenNext {item : Item} (h : Rep p q r vr vw) (member : k ∈ q)
    (held : ((k.header .length + 3) / 4).toNat ≤ k.data.length) (spoken : Spoken p k cmd dptr (item :: todo) sent) :
    Spoken p k cmd (output p k.buf dptr item).2 todo (sent ++ (output p k.buf dptr item).1) := by
  obtain ⟨⟨done, parts, said⟩, cursor⟩ := spoken
  have header := (repIntact h member).1
  have order : (outputs cmd (k.header .length)) = (done ++ [item]) ++ todo := by rw [parts, List.append_assoc]; rfl
  have more : ∀ tokens, tokens = item.tokens ⟨k.header, k.data⟩ →
      sent ++ tokens = (done ++ [item]).flatMap (Item.tokens ⟨k.header, k.data⟩) := by
    rintro tokens rfl
    rw [said, List.flatMap_append, List.flatMap_singleton]
  cases item with
  | field f => exact ⟨⟨_, order, more _ (by simp only [output, field, header, Item.tokens])⟩, cursor⟩
  | int x => exact ⟨⟨_, order, more _ rfl⟩, cursor⟩
  | char x => exact ⟨⟨_, order, more _ rfl⟩, cursor⟩
  | timestamp => exact ⟨⟨_, order, more _ (by simp only [output, field, header, Item.tokens])⟩, cursor⟩
  | word reversed i =>
    obtain ⟨n, few, indices⟩ := outputIndices cmd (k.header .length)
    rw [parts, List.filterMap_append, List.filterMap_cons] at indices
    simp only [Item.index] at indices
    have inside : i < n := List.mem_range.mp (by rw [← indices]; simp)
    have here : (if dptr = miiGetWrapPtr p then p.mem dptr else dptr) = dataAddress p k.buf i := by
      have at_ := cursor i rfl
      rw [miiGetWrapPtr]
      split
      · rename_i last
        rw [if_pos last] at at_
        rw [last, h.wrapWord, at_]
      · rename_i inner
        rwa [if_neg inner] at at_
    simp only [output, here]
    refine ⟨⟨_, order, more _ ?_⟩, fun j head => ?_⟩
    · rw [datumHere h member (by omega)]
      simp only [Item.tokens, List.getElem?_eq_getElem (show i < k.data.length by omega), Option.getD_some]
    · obtain rfl : j = i + 1 := by
        have first : (List.range n)[(done.filterMap Item.index).length]? = some i := by rw [← indices]; simp
        have second : (List.range n)[(done.filterMap Item.index).length + 1]? = some j := by
          rw [← indices, List.getElem?_append_right (by omega), Nat.add_sub_cancel_left, List.getElem?_cons_succ,
            ← List.head?_eq_getElem?, head]
        obtain ⟨-, rfl⟩ := List.getElem?_eq_some_iff.mp first
        obtain ⟨-, rfl⟩ := List.getElem?_eq_some_iff.mp second
        rw [List.getElem_range, List.getElem_range]
      have bound := dataBound h member
      have room := (bufRoom h member).2
      rw [cursorNext room (by omega)]
      push_cast
      rfl

end sending

section requests
variable {ι : Type} [DecidableEq ι] {c : Config ι} {start stop : ι → Int} {s t : State ι} {old : ι → List Nat}
  {pre rest : ι → List Pkt} {m m' : RxServer.State} {i j : ι} {k k' : Pkt}

omit [DecidableEq ι] in
theorem carriesHeld {a : Arrival ι} (carries : Carries k a) : ((k.header .length + 3) / 4).toNat ≤ k.data.length := by
  have long := carries.long
  have fits := carries.fits
  have length := carries.length
  omega

theorem requestKeeps (apart : ∀ i a, start i ≤ a → a < stop i → c.poolOf a = i) (parts : Parts c start stop s old pre rest m)
    {link : Nat} {cmd : Cmd} (taken : step c s (.request link cmd) = some t) : ∃ m', Parts c start stop t old pre rest m' := by
  simp only [step] at taken
  cases now : s.server <;> simp only [now] at taken
  case select =>
    cases here : s.links[link]? with
    | none => simp [here] at taken
    | some l =>
      simp only [here] at taken
      cases reply : (request c.rxBuf l).reply <;> simp only [reply, Option.some.injEq] at taken
      case packet buf =>
        subst taken
        obtain ⟨i, k, member, rfl, -⟩ := nextHeld parts here reply
        have inside : k ∈ pre i ++ rest i := List.mem_append_left _ member
        obtain ⟨r, vr, vw, rep, -⟩ := poolRep parts i
        refine ⟨m, stillKept parts rfl rfl rfl rfl rfl rfl (fun j => ?_) ⟨l, here, reply, k, ?_, rfl, ?_⟩⟩
        · have phase := (parts.line j).phase
          unfold PhaseInv reader readerPhase at phase ⊢
          simp only [now] at phase
          exact phase
        · rw [poolHere apart parts inside]
          exact (memQueue parts).mpr inside
        · rw [poolHere apart parts inside, show miiPacketGetLength (pool s i) k.buf = _ from headerHere parts inside .length]
          exact spokenFirst rep inside cmd
      all_goals
        subst taken
        exact requestQuiet parts here now (by rw [reply]; rfl) rfl (by simp)
  all_goals cases taken

theorem outputKeeps (parts : Parts c start stop s old pre rest m) {link : Nat} {cmd : Cmd} {buf dptr : Int} {item : Item}
    {todo : List Item} {sent : List Token} (now : s.server = .sending link cmd buf dptr (item :: todo) sent)
    (taken : step c s .server = some t) : Parts c start stop t old pre rest m := by
  simp only [step, serverStep, now, Option.some.injEq] at taken
  subst taken
  have before := parts.server
  unfold ServerInv at before
  simp only [now] at before
  obtain ⟨l, here, next, k, member, rfl, spoken⟩ := before
  have inside := (memQueue parts).mp member
  obtain ⟨a, stocked⟩ := parts.stocked _ k inside
  obtain ⟨r, vr, vw, rep, -⟩ := poolRep parts (c.poolOf k.buf)
  refine stillKept parts rfl rfl rfl rfl rfl rfl (fun j => ?_)
    ⟨l, here, next, k, member, rfl, spokenNext rep inside (carriesHeld stocked.carries) spoken⟩
  have phase := (parts.line j).phase
  unfold PhaseInv reader readerPhase at phase ⊢
  simp only [now] at phase
  exact phase

end requests

end ScEthernet.Full.RxServing
