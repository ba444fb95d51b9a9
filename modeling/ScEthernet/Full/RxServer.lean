import ScEthernet.Full.Malloc
import ScEthernet.Full.RxLink
import ScEthernet.Lib.Runs
import Mathlib.Algebra.Group.Nat.Defs

/-! ethernet_rx_server with the clients of all links, and the transmitter of the other port
where it forwards received packets. A packet is known by its buffer; the receive pools hand
out a buffer again only when the packet before is freed. The header fields of a buffer are
a table here, `processed` and `freed` count the calls of process_received_frame and of
mii_free with it. -/
namespace ScEthernet.Full.RxServer
open Lib.Runs Lib.CircularFifo Malloc RxLink

structure Config where
  /- NUM_MII_RX_BUF -/
  rxBuf : Nat
  positive : 0 < rxBuf
  /- More than one port, and forwarding not disabled. -/
  forwards : Bool

structure State where
  links : List Link
  headers : Int → Field → Int
  tsQueue : List Int
  processed : Int → Nat
  freed : Int → Nat

inductive Event where
  | process (buf : Int) (header : Field → Int)
  | request (i : Nat)
  | command (i : Nat) (k : Command)
  | statusChange
  | forward (buf timestamp : Int)

def initial (c : Config) (links : Nat) : State :=
  ⟨List.replicate links (.initial c.rxBuf), fun _ _ => 0, [], fun _ => 0, fun _ => 0⟩

def bump (f : Int → Nat) (buf : Int) : Int → Nat := fun b => if b = buf then f b + 1 else f b

def setHeader (h : Int → Field → Int) (f : Field) (buf x : Int) : Int → Field → Int :=
  fun b g => if b = buf ∧ g = f then x else h b g

def miiFree (s : State) (buf : Int) : State := { s with freed := bump s.freed buf }

/- The loop over the links: the links and `tcount` after it. -/
def offerAll (n : Nat) (buf : Int) (result : BitVec 32) : List Link → List Link × Int
  | [] => ([], 0)
  | l :: ls =>
    let o := offer n buf result l
    let (ls, tcount) := offerAll n buf result ls
    (o.link :: ls, if o.taken then tcount + 1 else tcount)

def filterForwardToOtherPorts : BitVec 32 := 0x80000000#32

def processReceivedFrame (c : Config) (s : State) (buf : Int) : State :=
  let result := BitVec.ofInt 32 (s.headers buf .filterResult)
  let (links, tcount) := if result ≠ 0#32 then offerAll c.rxBuf buf result s.links else (s.links, 0)
  let forwarded := c.forwards ∧ result &&& filterForwardToOtherPorts ≠ 0#32
  let tcount := if forwarded then tcount + 1 else tcount
  let headers := if forwarded then setHeader s.headers .forwarding buf 0xFFFFFFFF else s.headers
  let s := { s with links := links, headers := headers }
  if tcount = 0 then miiFree s buf
  else { s with headers := setHeader s.headers .tcount buf (tcount - 1) }

/- get_and_dec_transmit_count -/
def getAndDec (h : Int → Field → Int) (buf : Int) : (Int → Field → Int) × Int :=
  let count := h buf .tcount
  (if count ≠ 0 then setHeader h .tcount buf (count - 1) else h, count)

/- The end of a frame request that sent `buf`. -/
def release (s : State) (buf : Int) : State :=
  let (headers, count) := getAndDec s.headers buf
  let s := { s with headers := headers }
  if count = 0 then miiFree s buf else s

/- mii_tx_pins of the other port from mii_transmit_packet, which stores the time, on. -/
def forwardTransmission (s : State) (buf timestamp : Int) : State :=
  let headers := setHeader s.headers .timestamp buf timestamp
  let headers := setHeader headers .forwarding buf 0
  let (headers, count) := getAndDec headers buf
  let s := { s with headers := headers }
  if count = 0 then
    if headers buf .timestampId ≠ 0 then
      { s with headers := setHeader headers .stage buf 2, tsQueue := s.tsQueue ++ [buf] }
    else miiFree s buf
  else s

/- A packet as mii_commit and the filter leave it. -/
def Filtered (c : Config) (header : Field → Int) : Prop :=
  header .stage = 1 ∧ (c.forwards = true → header .forwarding = 0) ∧
  (BitVec.ofInt 32 (header .filterResult) ≠ 0#32 → header .timestampId = 0)
instance (c header) : Decidable (Filtered c header) := by unfold Filtered; infer_instance

def step (c : Config) (s : State) : Event → Option State
  | .process buf header =>
    if s.processed buf = s.freed buf ∧ Filtered c header then
      let headers := fun b => if b = buf then header else s.headers b
      some (processReceivedFrame c { s with headers := headers, processed := bump s.processed buf } buf)
    else none
  | .request i =>
    match s.links[i]? with
    | some l =>
      let a := request c.rxBuf l
      let s := { s with links := s.links.set i a.link }
      match a.reply with
      | .packet buf => some (release s buf)
      | _ => some s
    | none => none
  | .command i k =>
    match s.links[i]? with
    | some l => some { s with links := s.links.set i (command c.rxBuf k l) }
    | none => none
  | .statusChange => some { s with links := s.links.map (fun l => (statusChange l).link) }
  | .forward buf timestamp =>
    if c.forwards = true ∧ s.processed buf = s.freed buf + 1 ∧ s.headers buf .forwarding ≠ 0 ∧
        s.headers buf .stage = 1 then
      some (forwardTransmission s buf timestamp)
    else none

def holders (c : Config) (s : State) (buf : Int) : Nat :=
  s.links.countP (fun l => buf ∈ l.fifo.contents c.rxBuf)

def pending (c : Config) (s : State) (buf : Int) : Nat :=
  if c.forwards = true ∧ s.headers buf .forwarding ≠ 0 then 1 else 0

structure Sound (c : Config) (s : State) : Prop where
  count : ∀ buf, s.processed buf = s.freed buf + 1 →
    s.headers buf .tcount + 1 = holders c s buf + pending c s buf
  present : ∀ buf, s.processed buf = s.freed buf + 1 ↔ 0 < holders c s buf + pending c s buf
  once : ∀ buf, s.processed buf = s.freed buf ∨ s.processed buf = s.freed buf + 1

/-! Delivery to one link. -/

inductive LinkEvent where
  | frame (buf : Int) (result : BitVec 32)
  | request
  | command (k : Command)
  | statusChange

def project (i : Nat) : Event → Option LinkEvent
  | .process buf header => some (.frame buf (BitVec.ofInt 32 (header .filterResult)))
  | .request j => if i = j then some .request else none
  | .command j k => if i = j then some (.command k) else none
  | .statusChange => some .statusChange
  | .forward _ _ => none

def clientStep (n : Nat) (c : Client) : LinkEvent → Client
  | .frame buf result => c.offer n buf result
  | .request => c.request
  | .command k => c.command n k
  | .statusChange => c.statusChange

def clientRun (n i : Nat) (es : List Event) : Client :=
  (es.filterMap (project i)).foldl (clientStep n) (.initial n)

section delivery
variable {c : Config} {s t : State}

theorem offerNone (n : Nat) (buf : Int) (l : Link) : offer n buf 0#32 l = ⟨l, false, false⟩ := by
  simp [offer]

theorem offerAllLinks (n : Nat) (buf : Int) (result : BitVec 32) (ls : List Link) :
    (offerAll n buf result ls).1 = ls.map (fun l => (offer n buf result l).link) := by
  induction ls with
  | nil => rfl
  | cons l ls ih => simp [offerAll, ih]

theorem offerAllCount (n : Nat) (buf : Int) (result : BitVec 32) (ls : List Link) :
    (offerAll n buf result ls).2 = ls.countP (fun l => (offer n buf result l).taken) := by
  induction ls with
  | nil => rfl
  | cons l ls ih =>
    simp only [offerAll, ih, List.countP_cons]
    split <;> simp

theorem processLoop (n : Nat) (buf : Int) (result : BitVec 32) (ls : List Link) :
    (if result ≠ 0#32 then offerAll n buf result ls else (ls, 0)) =
      (ls.map (fun l => (offer n buf result l).link),
        ((ls.countP (fun l => (offer n buf result l).taken) : Nat) : Int)) := by
  split
  · exact Prod.ext (offerAllLinks n buf result ls) (offerAllCount n buf result ls)
  · rename_i none
    rw [not_not.mp none]
    simp [offerNone]

theorem processLinks (s : State) (buf : Int) : (processReceivedFrame c s buf).links =
    s.links.map (fun l => (offer c.rxBuf buf (BitVec.ofInt 32 (s.headers buf .filterResult)) l).link) := by
  unfold processReceivedFrame
  simp only [processLoop]
  split <;> simp [miiFree] <;> split <;> rfl

theorem releaseLinks (s : State) (buf : Int) : (release s buf).links = s.links := by
  unfold release
  dsimp only
  split <;> rfl

theorem forwardLinks (s : State) (buf timestamp : Int) :
    (forwardTransmission s buf timestamp).links = s.links := by
  unfold forwardTransmission
  dsimp only
  split
  · split <;> rfl
  · rfl

def resultOf (s : State) (buf : Int) : BitVec 32 := BitVec.ofInt 32 (s.headers buf .filterResult)

def Forwarded (c : Config) (s : State) (buf : Int) : Prop :=
  c.forwards ∧ resultOf s buf &&& filterForwardToOtherPorts ≠ 0#32
instance (c s buf) : Decidable (Forwarded c s buf) := by unfold Forwarded; infer_instance

def consumers (c : Config) (s : State) (buf : Int) : Nat :=
  s.links.countP (fun l => (offer c.rxBuf buf (resultOf s buf) l).taken) +
    if Forwarded c s buf then 1 else 0

structure Processed (c : Config) (s t : State) (buf : Int) : Prop where
  links : t.links = s.links.map (fun l => (offer c.rxBuf buf (resultOf s buf) l).link)
  processed : t.processed = s.processed
  freed : t.freed = if consumers c s buf = 0 then bump s.freed buf else s.freed
  others : ∀ b, b ≠ buf → t.headers b = s.headers b
  forwarding : t.headers buf .forwarding =
    if Forwarded c s buf then 0xFFFFFFFF else s.headers buf .forwarding
  timestampId : t.headers buf .timestampId = s.headers buf .timestampId
  tcount : consumers c s buf ≠ 0 → t.headers buf .tcount + 1 = consumers c s buf

theorem processEffect (c : Config) (s : State) (buf : Int) :
    Processed c s (processReceivedFrame c s buf) buf := by
  have links := processLinks (c := c) s buf
  by_cases fwd : Forwarded c s buf
  · have count : consumers c s buf =
        s.links.countP (fun l => (offer c.rxBuf buf (resultOf s buf) l).taken) + 1 := by
      simp [consumers, fwd]
    have value : processReceivedFrame c s buf = { s with
        links := s.links.map (fun l => (offer c.rxBuf buf (resultOf s buf) l).link)
        headers := setHeader (setHeader s.headers .forwarding buf 0xFFFFFFFF) .tcount buf
          ((consumers c s buf : Int) - 1) } := by
      have some : ((s.links.countP (fun l => (offer c.rxBuf buf (resultOf s buf) l).taken) : Nat) : Int) + 1
          ≠ 0 := by omega
      have shown : c.forwards = true ∧ resultOf s buf &&& filterForwardToOtherPorts ≠ 0#32 := fwd
      unfold resultOf at some shown
      simp only [processReceivedFrame, processLoop, if_pos shown, if_neg some, count, resultOf]
      simp
    rw [value]
    refine ⟨rfl, rfl, by simp [count], fun b ne => ?_, ?_, ?_, fun _ => ?_⟩
    · funext g; simp [setHeader, ne]
    · simp [setHeader, fwd]
    · simp [setHeader]
    · simp [setHeader]
  · have count : consumers c s buf =
        s.links.countP (fun l => (offer c.rxBuf buf (resultOf s buf) l).taken) := by
      simp [consumers, fwd]
    have hidden : ¬ (c.forwards = true ∧ resultOf s buf &&& filterForwardToOtherPorts ≠ 0#32) := fwd
    by_cases none : consumers c s buf = 0
    · have value : processReceivedFrame c s buf = { s with
          links := s.links.map (fun l => (offer c.rxBuf buf (resultOf s buf) l).link)
          freed := bump s.freed buf } := by
        rw [none] at count
        unfold resultOf at hidden count
        simp only [processReceivedFrame, processLoop, if_neg hidden, ← count, resultOf, miiFree]
        simp
      rw [value]
      exact ⟨rfl, rfl, by simp [none], fun _ _ => rfl, by simp [fwd], rfl, fun some => absurd none some⟩
    · have value : processReceivedFrame c s buf = { s with
          links := s.links.map (fun l => (offer c.rxBuf buf (resultOf s buf) l).link)
          headers := setHeader s.headers .tcount buf ((consumers c s buf : Int) - 1) } := by
        have some : ((consumers c s buf : Nat) : Int) ≠ 0 := by omega
        rw [count] at some ⊢
        unfold resultOf at hidden some
        simp only [processReceivedFrame, processLoop, if_neg hidden, if_neg some, resultOf]
      rw [value]
      refine ⟨rfl, rfl, by simp [none], fun b ne => ?_, ?_, ?_, fun _ => ?_⟩
      · funext g; simp [setHeader, ne]
      · simp [setHeader, fwd]
      · simp [setHeader]
      · simp [setHeader]

theorem stepRefines {a : Nat → Client} {e : Event}
    (h : ∀ i l, s.links[i]? = some l → Refines c.rxBuf l (a i))
    (taken : step c s e = some t) (i : Nat) (l : Link) (here : t.links[i]? = some l) :
    Refines c.rxBuf l ((project i e).elim (a i) (clientStep c.rxBuf (a i))) := by
  cases e with
  | process buf header =>
    simp only [step] at taken
    split at taken
    · cases taken
      rw [processLinks, List.getElem?_map] at here
      obtain ⟨l', before, rfl⟩ := Option.map_eq_some_iff.mp here
      simpa [project, clientStep] using (offerRefines (h i l' before) buf _).1
    · cases taken
  | request j =>
    simp only [step] at taken
    cases before : s.links[j]? with
    | none => simp [before] at taken
    | some l' =>
      simp only [before] at taken
      have links : t.links = s.links.set j (request c.rxBuf l').link := by
        split at taken
        · cases taken; exact releaseLinks _ _
        · cases taken; rfl
      rw [links, List.getElem?_set] at here
      by_cases same : j = i
      · subst same
        have bound : j < s.links.length := (List.getElem?_eq_some_iff.mp before).1
        simp only [if_true, if_pos bound, Option.some.injEq] at here
        subst here
        simpa [project, clientStep] using requestRefines (h j l' before)
      · simp only [if_neg same] at here
        simpa [project, Ne.symm same] using h i l here
  | command j k =>
    simp only [step] at taken
    cases before : s.links[j]? with
    | none => simp [before] at taken
    | some l' =>
      simp only [before] at taken
      cases taken
      rw [List.getElem?_set] at here
      by_cases same : j = i
      · subst same
        have bound : j < s.links.length := (List.getElem?_eq_some_iff.mp before).1
        simp only [if_true, if_pos bound, Option.some.injEq] at here
        subst here
        simpa [project, clientStep] using commandRefines (h j l' before) k
      · simp only [if_neg same] at here
        simpa [project, Ne.symm same] using h i l here
  | statusChange =>
    simp only [step] at taken
    cases taken
    rw [List.getElem?_map] at here
    obtain ⟨l', before, rfl⟩ := Option.map_eq_some_iff.mp here
    exact statusChangeRefines (h i l' before)
  | forward buf timestamp =>
    simp only [step] at taken
    split at taken
    · cases taken
      rw [forwardLinks] at here
      exact h i l here
    · cases taken

theorem runRefines {a : Nat → Client} {es : List Event}
    (h : ∀ i l, s.links[i]? = some l → Refines c.rxBuf l (a i))
    (reached : run (step c) s es = some t) (i : Nat) (l : Link) (here : t.links[i]? = some l) :
    Refines c.rxBuf l ((es.filterMap (project i)).foldl (clientStep c.rxBuf) (a i)) := by
  induction es generalizing s a with
  | nil => cases reached; exact h i l here
  | cons e es ih =>
    obtain ⟨m, first, rest⟩ := Option.bind_eq_some_iff.mp reached
    have moved := stepRefines h first
    have last := ih (a := fun j => (project j e).elim (a j) (clientStep c.rxBuf (a j)))
      moved rest
    cases event : project i e <;> simpa [List.filterMap_cons, event] using last

theorem clientRefined {links : Nat} {es : List Event}
    (reached : run (step c) (initial c links) es = some s) {i : Nat} {l : Link}
    (here : s.links[i]? = some l) : Refines c.rxBuf l (clientRun c.rxBuf i es) := by
  refine runRefines (a := fun _ => .initial c.rxBuf) (fun j l before => ?_) reached i l here
  have member := List.mem_of_getElem? before
  rw [List.eq_of_mem_replicate member]
  exact refinesInitial c.positive

/-- For a link of any run: what it is sent and holds is what its client took, the counter is
the client's refusals in 32 bits, a matching frame is refused for lack of room only, and no
other link's events matter. -/
theorem linkDelivery (c : Config) (links : Nat) (es : List Event) {s : State}
    (reached : run (step c) (initial c links) es = some s) {i : Nat} {l : Link}
    (here : s.links[i]? = some l) :
    l.sent ++ l.fifo.contents c.rxBuf = (clientRun c.rxBuf i es).taken ∧
    l.droppedPktCnt.toNat = (clientRun c.rxBuf i es).refused % 2 ^ 32 ∧
    (∀ buf result, l.customFilterMask &&& result ≠ 0#32 →
      ((offer c.rxBuf buf result l).taken = false ↔
        c.rxBuf - 1 ≤ (l.fifo.contents c.rxBuf).length ∨
          l.maxQueueSize ≤ (l.fifo.contents c.rxBuf).length)) ∧
    ∀ links' es' s' l', run (step c) (initial c links') es' = some s' → s'.links[i]? = some l' →
      es'.filterMap (project i) = es.filterMap (project i) → l'.sent = l.sent := by
  have refined := clientRefined reached here
  refine ⟨?_, ?_, fun buf result matching => ?_, ?_⟩
  · rw [refined.sent, refined.waiting, refined.taken]
  · rw [refined.dropped, BitVec.toNat_ofNat]
  · have found := (offerRefines refined buf result).2
    rw [← Bool.not_eq_true, found, refined.waiting, refined.limit, Client.room]
    constructor
    · intro full
      have := not_and.mp full matching
      omega
    · rintro full ⟨-, room⟩
      omega
  · intro links' es' s' l' reached' here' same
    have refined' := clientRefined reached' here'
    rw [refined'.sent, refined.sent, clientRun, clientRun, same]

end delivery

def oneFrameHeader : Field → Int
  | .filterResult => 1
  | .stage => 1
  | _ => 0

def onePort : Config := ⟨5, by decide, false⟩

def twoFrames : List Event :=
  [.command 1 (.customFilterSet 3#32), .process 7 oneFrameHeader, .process 40 oneFrameHeader, .request 1]

theorem linkDeliveryTwoFrames : ∃ s l, run (step onePort) (initial onePort 2) twoFrames = some s ∧
    s.links[1]? = some l ∧ l.sent = [7] ∧ l.sent ++ l.fifo.contents 5 = [7, 40] :=
  ⟨_, _, rfl, rfl, rfl, (linkDelivery onePort 2 twoFrames rfl (i := 1) rfl).1.trans (by decide)⟩

/- A client that takes frames of one kind, for which there is never room. -/
def refusals (k : Nat) : List Event :=
  [.command 0 (.customFilterSet 1#32), .command 0 (.queueSizeSet 0)] ++
    List.replicate k (.process 7 oneFrameHeader)

structure Refusing (s : State) (l : Link) : Prop where
  links : s.links = [l]
  mask : l.customFilterMask = 1#32
  limit : l.maxQueueSize = 0
  empty : l.fifo.rd = l.fifo.wr
  freed : s.processed 7 = s.freed 7

theorem refusalStep {s : State} {l : Link} (h : Refusing s l) :
    ∃ t l', step onePort s (.process 7 oneFrameHeader) = some t ∧ Refusing t l' := by
  have filtered : Filtered onePort oneFrameHeader := by decide
  refine ⟨_, { l with droppedPktCnt := l.droppedPktCnt + 1#32 }, if_pos ⟨h.freed, filtered⟩, ?_⟩
  generalize into : { s with headers := fun b => if b = 7 then oneFrameHeader else s.headers b
                             processed := bump s.processed 7 } = m
  have effect := processEffect onePort m 7
  have links : m.links = [l] := by rw [← into]; exact h.links
  have result : resultOf m 7 = 1#32 := by rw [← into]; rfl
  have full : ¬ (queueSize onePort.rxBuf l < l.maxQueueSize ∧ next onePort.rxBuf l.fifo.wr ≠ l.fifo.rd) := by
    simp [queueSize, h.empty, h.limit]
  have refused : offer onePort.rxBuf 7 1#32 l =
      ⟨{ l with droppedPktCnt := l.droppedPktCnt + 1#32 }, false, false⟩ := by
    simp [offer, h.mask, full]
  have none : consumers onePort m 7 = 0 := by
    simp [consumers, links, result, refused, Forwarded, show onePort.forwards = false from rfl]
  refine ⟨?_, h.mask, h.limit, h.empty, ?_⟩
  · rw [effect.links, links, result]; simp [refused]
  · rw [effect.processed, effect.freed, if_pos none, ← into]
    simp [bump, h.freed]

theorem refusalRun (k : Nat) : ∃ s l, run (step onePort) (initial onePort 1) (refusals k) = some s ∧
    s.links[0]? = some l := by
  have later : ∀ s l, Refusing s l → ∃ t l', run (step onePort) s
      (List.replicate k (.process 7 oneFrameHeader)) = some t ∧ Refusing t l' := by
    induction k with
    | zero => exact fun s l h => ⟨s, l, rfl, h⟩
    | succ k ih =>
      intro s l h
      obtain ⟨m, l', first, h'⟩ := refusalStep h
      obtain ⟨t, l'', rest, last⟩ := ih m l' h'
      exact ⟨t, l'', by simp [List.replicate_succ, run, first, rest], last⟩
  obtain ⟨t, l, reached, last⟩ := later _ _ (Refusing.mk rfl rfl rfl rfl rfl : Refusing ⟨
    [{ Link.initial 5 with customFilterMask := 1#32, maxQueueSize := 0 }], fun _ _ => 0, [], fun _ => 0,
    fun _ => 0⟩ _)
  exact ⟨t, l, reached, by rw [last.links]; rfl⟩

theorem refusedFrames (k : Nat) {c : Client} (mask : c.mask = 1#32) (limit : c.limit = 0) :
    ((List.replicate k (.frame 7 1#32)).foldl (clientStep 5) c).refused = c.refused + k := by
  induction k generalizing c with
  | zero => rfl
  | succ k ih =>
    have full : ¬ c.room 5 := by simp [Client.room, limit]
    have refused : clientStep 5 c (.frame 7 1#32) = { c with refused := c.refused + 1 } := by
      simp [clientStep, Client.offer, mask, full]
    have later := ih (c := { c with refused := c.refused + 1 }) mask limit
    rw [List.replicate_succ, List.foldl_cons, refused, later]
    simp only; omega

theorem refusalCount (k : Nat) : (clientRun 5 0 (refusals k)).refused = k := by
  have projected : (refusals k).filterMap (project 0) =
      [.command (.customFilterSet 1#32), .command (.queueSizeSet 0)] ++ List.replicate k (.frame 7 1#32) := by
    simp [refusals, project, List.filterMap_replicate]
    exact .inr (by decide)
  rw [clientRun, projected, List.foldl_append, refusedFrames k rfl rfl]
  exact Nat.zero_add k

theorem linkCounterWraps : ¬ ∀ (c : Config) (links : Nat) (es : List Event) (s : State) (i : Nat) (l : Link),
    run (step c) (initial c links) es = some s → s.links[i]? = some l →
      l.droppedPktCnt.toNat = (clientRun c.rxBuf i es).refused := by
  intro all
  obtain ⟨s, l, reached, here⟩ := refusalRun (2 ^ 32)
  have same := all onePort 1 (refusals (2 ^ 32)) s 0 l reached here
  rw [show onePort.rxBuf = 5 from rfl, refusalCount] at same
  have := l.droppedPktCnt.isLt
  omega

/-! Reference counts. -/

def Balanced (c : Config) (s : State) (buf : Int) : Prop :=
  (s.processed buf = s.freed buf ∧ holders c s buf = 0 ∧ pending c s buf = 0) ∨
  (s.processed buf = s.freed buf + 1 ∧ 0 < holders c s buf + pending c s buf ∧
    s.headers buf .tcount + 1 = holders c s buf + pending c s buf ∧ s.headers buf .timestampId = 0)

structure Inv (c : Config) (s : State) : Prop where
  valid : ∀ l ∈ s.links, l.fifo.Valid c.rxBuf
  nodup : ∀ l ∈ s.links, (l.fifo.contents c.rxBuf).Nodup
  balanced : ∀ buf, Balanced c s buf

section counts
variable {c : Config} {s t : State}

theorem countSet (p : Link → Bool) {ls : List Link} {i : Nat} {l : Link} (l' : Link)
    (here : ls[i]? = some l) :
    (ls.set i l').countP p + (if p l then 1 else 0) = ls.countP p + if p l' then 1 else 0 := by
  induction ls generalizing i with
  | nil => simp at here
  | cons x ls ih =>
    cases i with
    | zero =>
      simp only [List.getElem?_cons_zero, Option.some.injEq] at here
      subst here
      simp only [List.set_cons_zero, List.countP_cons]
      omega
    | succ i =>
      have := ih (i := i) (by simpa using here)
      simp only [List.set_cons_succ, List.countP_cons]
      omega

theorem balancedSame {buf : Int} (h : Balanced c s buf) (processed : t.processed buf = s.processed buf)
    (freed : t.freed buf = s.freed buf) (holding : holders c t buf = holders c s buf)
    (headers : t.headers buf = s.headers buf) : Balanced c t buf := by
  unfold Balanced pending at h ⊢
  rw [processed, freed, holding, headers]
  exact h

theorem offeredHolders (valid : ∀ l ∈ s.links, l.fifo.Valid c.rxBuf) (buf b : Int) (result : BitVec 32)
    {t : State} (links : t.links = s.links.map (fun l => (offer c.rxBuf buf result l).link)) :
    (b ≠ buf → holders c t b = holders c s b) ∧
    (holders c s buf = 0 → holders c t buf = s.links.countP (fun l => (offer c.rxBuf buf result l).taken)) := by
  unfold holders
  rw [links, List.countP_map, List.countP_map]
  constructor
  · intro ne
    refine List.countP_congr (fun l member => ?_)
    rw [Function.comp, (offerContents (valid l member) buf result).2]
    split <;> simp [ne]
  · intro none
    refine List.countP_congr (fun l member => ?_)
    have absent := List.countP_eq_zero.mp none l member
    rw [Function.comp, (offerContents (valid l member) buf result).2]
    split <;> simp_all

theorem processKeeps (h : Inv c s) {buf : Int} {header : Field → Int}
    (taken : step c s (.process buf header) = some t) : Inv c t := by
  simp only [step] at taken
  split at taken
  case isFalse => cases taken
  rename_i guard
  obtain ⟨fresh, stage, forwarding, stamp⟩ := guard
  cases taken
  generalize into : { s with headers := fun b => if b = buf then header else s.headers b
                             processed := bump s.processed buf } = m
  have effect := processEffect c m buf
  generalize processReceivedFrame c m buf = t at effect
  have links : m.links = s.links := by rw [← into]
  have mHeader : m.headers buf = header := by rw [← into]; simp
  have holdersM : ∀ b, holders c m b = holders c s b := fun b => by unfold holders; rw [links]
  have valid : ∀ l ∈ m.links, l.fifo.Valid c.rxBuf := by rw [links]; exact h.valid
  have offered := fun b => offeredHolders valid buf b _ effect.links
  have absent : holders c m buf = 0 := by
    rw [holdersM]
    rcases h.balanced buf with ⟨-, none, -⟩ | ⟨live, -⟩
    · exact none
    · omega
  refine ⟨?_, ?_, fun b => ?_⟩
  · intro l member
    rw [effect.links] at member
    obtain ⟨l', inside, rfl⟩ := List.mem_map.mp member
    exact (offerContents (valid l' inside) buf _).1
  · intro l member
    rw [effect.links] at member
    obtain ⟨l', inside, rfl⟩ := List.mem_map.mp member
    rw [(offerContents (valid l' inside) buf _).2]
    have old := h.nodup l' (links ▸ inside)
    have out := List.countP_eq_zero.mp absent l' inside
    split
    · refine List.nodup_append.mpr ⟨old, by simp, fun a inside b single same => ?_⟩
      rw [same, List.mem_singleton.mp single] at inside
      exact absurd inside (by simpa using out)
    · simpa using old
  · by_cases same : b = buf
    · subst same
      have holding : holders c t b + pending c t b = consumers c m b := by
        rw [(offered b).2 absent, consumers, pending, effect.forwarding, mHeader]
        by_cases fwd : Forwarded c m b
        · simp [fwd, fwd.1]
        · have clear : c.forwards = true → header .forwarding = 0 := forwarding
          simp only [if_neg fwd]
          rw [if_neg]
          rintro ⟨on, nonzero⟩
          exact nonzero (clear on)
      have counted : m.processed b = m.freed b + 1 := by rw [← into]; simp [bump, fresh]
      by_cases none : consumers c m b = 0
      · refine .inl ⟨?_, by omega, by omega⟩
        rw [effect.processed, effect.freed, if_pos none, counted]
        simp [bump]
      · refine .inr ⟨?_, by omega, ?_, ?_⟩
        · rw [effect.processed, effect.freed, if_neg none, counted]
        · have := effect.tcount none
          omega
        · have some : resultOf m b ≠ 0#32 := by
            intro zero
            apply none
            simp [consumers, zero, offerNone, Forwarded]
          rw [effect.timestampId, mHeader]
          exact stamp (by rw [← mHeader]; exact some)
    · refine balancedSame (h.balanced b) ?_ ?_ ?_ ?_
      · rw [effect.processed, ← into]; simp [bump, same]
      · rw [effect.freed, ← into]; split <;> simp [bump, same]
      · rw [(offered b).1 same, holdersM]
      · rw [effect.others b same, ← into]; simp [same]

theorem releaseBalanced {m : State} {buf : Int} (live : m.processed buf = m.freed buf + 1)
    (count : m.headers buf .tcount = holders c m buf + pending c m buf)
    (stamp : m.headers buf .timestampId = 0) : Balanced c (release m buf) buf := by
  have links := releaseLinks m buf
  have holding : holders c (release m buf) buf = holders c m buf := by unfold holders; rw [links]
  unfold Balanced
  rw [holding]
  unfold release getAndDec at *
  dsimp only
  split
  · rename_i zero
    left
    have none : holders c m buf = 0 ∧ pending c m buf = 0 := by omega
    refine ⟨by simp [miiFree, bump, live], none.1, ?_⟩
    have off := none.2
    unfold pending at off ⊢
    simpa [miiFree, zero] using off
  · rename_i nonzero
    right
    have kept : pending c { m with headers := setHeader m.headers .tcount buf (m.headers buf .tcount - 1) }
        buf = pending c m buf := by simp [pending, setHeader]
    rw [kept]
    refine ⟨live, by omega, ?_, ?_⟩
    · simp only [setHeader, and_self, if_true]; omega
    · simpa [setHeader] using stamp

theorem releaseOthers (m : State) {buf b : Int} (ne : b ≠ buf) :
    (release m buf).processed b = m.processed b ∧ (release m buf).freed b = m.freed b ∧
    (release m buf).headers b = m.headers b := by
  have same : (getAndDec m.headers buf).1 b = m.headers b := by
    unfold getAndDec
    dsimp only
    split
    · funext g; simp [setHeader, ne]
    · rfl
  unfold release
  dsimp only
  split
  · exact ⟨rfl, by simp [miiFree, bump, ne], same⟩
  · exact ⟨rfl, rfl, same⟩

theorem requestKeeps (h : Inv c s) {i : Nat} (taken : step c s (.request i) = some t) : Inv c t := by
  simp only [step] at taken
  cases here : s.links[i]? with
  | none => simp [here] at taken
  | some l =>
    simp only [here] at taken
    have member := List.mem_of_getElem? here
    obtain ⟨valid, contents⟩ := requestContents (h.valid l member)
    have unique := h.nodup l member
    generalize into : { s with links := s.links.set i (request c.rxBuf l).link } = m at taken
    have links : m.links = s.links.set i (request c.rxBuf l).link := by rw [← into]
    have counts := fun b => countSet (fun l => b ∈ l.fifo.contents c.rxBuf) (request c.rxBuf l).link here
    have validM : ∀ l ∈ m.links, l.fifo.Valid c.rxBuf := by
      intro l' inside
      rw [links] at inside
      rcases List.mem_or_eq_of_mem_set inside with old | rfl
      · exact h.valid l' old
      · exact valid
    have nodupM : ∀ l ∈ m.links, (l.fifo.contents c.rxBuf).Nodup := by
      intro l' inside
      rw [links] at inside
      rcases List.mem_or_eq_of_mem_set inside with old | rfl
      · exact h.nodup l' old
      · rw [contents] at unique
        exact (List.nodup_append.mp unique).2.1
    have holdersM : ∀ b, holders c m b + (if b ∈ l.fifo.contents c.rxBuf then 1 else 0) =
        holders c s b + if b ∈ (request c.rxBuf l).link.fifo.contents c.rxBuf then 1 else 0 := by
      intro b
      have count := counts b
      unfold holders
      rw [links]
      simpa using count
    have others : ∀ b, (b ∈ l.fifo.contents c.rxBuf ↔
        b ∈ (request c.rxBuf l).link.fifo.contents c.rxBuf) → Balanced c m b := by
      intro b same
      have holding := holdersM b
      simp only [same] at holding
      exact balancedSame (h.balanced b) (by rw [← into]) (by rw [← into]) (by omega) (by rw [← into])
    cases reply : (request c.rxBuf l).reply with
    | packet buf =>
      rw [reply] at taken contents
      cases taken
      have outside : buf ∉ (request c.rxBuf l).link.fifo.contents c.rxBuf := by
        rw [contents] at unique
        exact (List.nodup_cons.mp unique).1
      have inside : buf ∈ l.fifo.contents c.rxBuf := by rw [contents]; simp
      have holding := holdersM buf
      rw [if_pos inside, if_neg outside] at holding
      refine ⟨by rw [releaseLinks]; exact validM, by rw [releaseLinks]; exact nodupM, fun b => ?_⟩
      by_cases same : b = buf
      · subst same
        rcases h.balanced b with ⟨-, none, -⟩ | ⟨live, -, count, stamp⟩
        · omega
        · have headers : m.headers = s.headers := by rw [← into]
          have pend : pending c m b = pending c s b := by unfold pending; rw [headers]
          refine releaseBalanced (by rw [← into]; exact live) ?_ (by rw [headers]; exact stamp)
          rw [headers, pend]; omega
      · have here := others b (by rw [contents]; simp [same])
        obtain ⟨processed, freed, headers⟩ := releaseOthers m same
        exact balancedSame here processed freed (by unfold holders; rw [releaseLinks]) headers
    | status =>
      rw [reply] at taken contents
      cases taken
      exact ⟨validM, nodupM, fun b => others b (by rw [contents]; simp)⟩
    | nothing =>
      rw [reply] at taken contents
      cases taken
      exact ⟨validM, nodupM, fun b => others b (by rw [contents]; simp)⟩

theorem quietKeeps (h : Inv c s) (headers : t.headers = s.headers) (processed : t.processed = s.processed)
    (freed : t.freed = s.freed) (fifos : t.links.map Link.fifo = s.links.map Link.fifo) : Inv c t := by
  have moved : ∀ l ∈ t.links, ∃ l' ∈ s.links, l'.fifo = l.fifo := by
    intro l member
    have inside : l.fifo ∈ s.links.map Link.fifo := fifos ▸ List.mem_map_of_mem member
    exact List.mem_map.mp inside
  have count : ∀ ls : List Link, ∀ b : Int, ls.countP (fun l => b ∈ l.fifo.contents c.rxBuf) =
      (ls.map Link.fifo).countP (fun f => b ∈ f.contents c.rxBuf) := by
    intro ls b
    rw [List.countP_map]
    rfl
  refine ⟨fun l member => ?_, fun l member => ?_, fun b => ?_⟩
  · obtain ⟨l', inside, same⟩ := moved l member
    exact same ▸ h.valid l' inside
  · obtain ⟨l', inside, same⟩ := moved l member
    exact same ▸ h.nodup l' inside
  · refine balancedSame (h.balanced b) (by rw [processed]) (by rw [freed]) ?_ (by rw [headers])
    unfold holders
    rw [count, count, fifos]

def transmitted (s : State) (buf timestamp : Int) : State :=
  let headers := setHeader s.headers .timestamp buf timestamp
  { s with headers := setHeader headers .forwarding buf 0 }

theorem forwardIsRelease {m : State} {buf : Int} (timestamp : Int)
    (stamp : m.headers buf .timestampId = 0) :
    forwardTransmission m buf timestamp = release (transmitted m buf timestamp) buf := by
  have kept : (getAndDec (transmitted m buf timestamp).headers buf).1 buf .timestampId = 0 := by
    unfold getAndDec
    dsimp only
    split <;> simp [transmitted, setHeader, stamp]
  unfold forwardTransmission release
  dsimp only [transmitted] at kept ⊢
  rw [if_neg (not_not.mpr kept)]

theorem forwardKeeps (h : Inv c s) {buf timestamp : Int}
    (taken : step c s (.forward buf timestamp) = some t) : Inv c t := by
  simp only [step] at taken
  split at taken
  case isFalse => cases taken
  rename_i guard
  obtain ⟨on, live, waits, -⟩ := guard
  rcases h.balanced buf with ⟨same, -⟩ | ⟨-, -, count, stamp⟩
  · omega
  rw [forwardIsRelease timestamp stamp] at taken
  cases taken
  generalize into : transmitted s buf timestamp = m
  have links : m.links = s.links := by rw [← into]; rfl
  have holding : ∀ b, holders c m b = holders c s b := fun b => by unfold holders; rw [links]
  have header : ∀ f, f ≠ .timestamp → f ≠ .forwarding → m.headers buf f = s.headers buf f := by
    intro f a b
    rw [← into]; simp [transmitted, setHeader, a, b]
  refine ⟨by rw [releaseLinks, links]; exact h.valid, by rw [releaseLinks, links]; exact h.nodup,
    fun b => ?_⟩
  by_cases same : b = buf
  · subst same
    have before : pending c s b = 1 := if_pos ⟨on, waits⟩
    have after : pending c m b = 0 := by
      rw [← into]; simp [pending, transmitted, setHeader]
    refine releaseBalanced (by rw [← into]; exact live) ?_ ?_
    · rw [header _ (by simp) (by simp), holding, after]; omega
    · rw [header _ (by simp) (by simp)]; exact stamp
  · obtain ⟨processed, freed, headers⟩ := releaseOthers m same
    refine balancedSame (h.balanced b) ?_ ?_ ?_ ?_
    · rw [processed, ← into]; rfl
    · rw [freed, ← into]; rfl
    · rw [← holding]; unfold holders; rw [releaseLinks]
    · rw [headers, ← into]; funext f; simp [transmitted, setHeader, same]

theorem stepKeeps (h : Inv c s) {e : Event} (taken : step c s e = some t) : Inv c t := by
  cases e with
  | process buf header => exact processKeeps h taken
  | request i => exact requestKeeps h taken
  | forward buf timestamp => exact forwardKeeps h taken
  | command i k =>
    simp only [step] at taken
    cases here : s.links[i]? with
    | none => simp [here] at taken
    | some l =>
      simp only [here] at taken
      cases taken
      refine quietKeeps h rfl rfl rfl ?_
      obtain ⟨bound, rfl⟩ := List.getElem?_eq_some_iff.mp here
      have inside : i < (s.links.map Link.fifo).length := by rw [List.length_map]; exact bound
      rw [List.map_set, commandFifo, ← List.getElem_map Link.fifo (h := inside), List.set_getElem_self]
  | statusChange =>
    simp only [step] at taken
    cases taken
    refine quietKeeps h rfl rfl rfl ?_
    rw [List.map_map]
    exact List.map_congr_left (fun l _ => statusChangeFifo)

theorem invSound (h : Inv c s) : Sound c s := by
  refine ⟨fun buf live => ?_, fun buf => ?_, fun buf => ?_⟩ <;>
    rcases h.balanced buf with ⟨same, none, clear⟩ | ⟨more, some, count, -⟩
  all_goals omega

end counts

theorem invInitial (c : Config) (links : Nat) : Inv c (initial c links) := by
  have empty : (Link.initial c.rxBuf).fifo.contents c.rxBuf = [] := by
    simp [Link.initial, Fifo.contents, Fifo.used]
  have each : ∀ l ∈ (initial c links).links, l = .initial c.rxBuf := fun l => List.eq_of_mem_replicate
  refine ⟨fun l member => ?_, fun l member => ?_, fun buf => .inl ⟨rfl, ?_, by simp [pending, initial]⟩⟩
  · rw [each l member]; exact ⟨c.positive, c.positive⟩
  · rw [each l member, empty]; exact List.nodup_nil
  · refine List.countP_eq_zero.mpr (fun l member => ?_)
    rw [each l member, empty]
    simp

/-- In every state of every run the counts are those of the consumers left, and a packet is
freed, once, when the last of them is done. -/
theorem countsSound (c : Config) (links : Nat) (es : List Event) :
    Always (step c) (Sound c) (initial c links) es :=
  alwaysInvariant (I := Inv c) (fun _ _ _ inv => stepKeeps inv) (fun _ => invSound)
    (invInitial c links) es

end ScEthernet.Full.RxServer
