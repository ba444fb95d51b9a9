import ScEthernet.Full.FilterPass
import ScEthernet.Full.RxForward
import ScEthernet.Full.RxReadPointer
import ScEthernet.Full.DataWalks

/-! The receiving side as a whole: mii_rx_pins with its pools, ethernet_filter and ethernet_rx_server with the requests
of its clients, all of them on the memory of the pools. A step is an access of one task to what another one reads; the
header of a packet that the server has taken is changed by nobody else, so that the end of a request is one step. The
default case looks at the pools in any order here. There is one port, which has nobody to forward to. -/
namespace ScEthernet.Full.RxSystem
open Lib.Runs Lib.BitOrder Lib.ChannelTokens Malloc PoolQueue RxLink RxTransfer
open RxServer (offerAll clientRun)
open RxForward (Item outputs)

structure Config (ι : Type) where
  filter : FilterPass.Config
  /- NUM_MII_RX_BUF -/
  rxBuf : Nat
  positive : 0 < rxBuf
  /- The pool that the header in front of a buffer names. -/
  poolOf : Int → ι

/- What ethernet_rx_server is at: `found` is behind the test of the stage, `moved` behind mii_update_my_rdptr and
`sending` in mac_rx_send_frame1 with the outputs to come and those that were. -/
inductive Server (ι : Type) where
  | select
  | found (i : ι) (buf : Int)
  | moved (i : ι) (buf : Int)
  | sending (link : Nat) (cmd : Cmd) (buf dptr : Int) (todo : List Item) (sent : List Token)

def Server.left {ι : Type} : Server ι → Nat
  | .select => 0
  | .found _ _ => 2
  | .moved _ _ => 1
  | .sending _ _ _ _ todo _ => todo.length + 1

/- History: a frame that mii_rx_pins has committed, the words of it as the port delivered them and whether one of them
found no space. -/
structure Arrival (ι : Type) where
  pool : ι
  bytes : List (BitVec 8)
  time : Int
  received : List (BitVec 32)
  lost : Bool

/- History: what a request has got. -/
inductive Reply where
  | status (x : BitVec 32) (sent : List Token)
  | frame (number : Nat) (cmd : Cmd) (sent : List Token)
  | nothing

def Reply.number : Reply → Option Int
  | .frame n _ _ => some n
  | _ => none

def Reply.cmd : Reply → Option Cmd
  | .frame _ cmd _ => some cmd
  | _ => none

structure State (ι : Type) where
  front : FilterPass.State ι
  rdptr : ι → Int
  links : List Link
  server : Server ι
  /- status of link_status.c -/
  status : BitVec 32
  /- History: the frames, and which of them is in a buffer; what the links were offered, told and asked for, with the
  numbers of the frames in place of the buffers; the replies. -/
  arrivals : List (Arrival ι)
  number : Int → Nat
  log : List RxServer.Event
  replies : Nat → List Reply

inductive Event (ι : Type) where
  | front (e : FilterPass.Event ι)
  | look (i : ι)
  | server
  | request (link : Nat) (cmd : Cmd)
  | command (link : Nat) (k : Command)
  | linkStatus (x : BitVec 32)
  | statusChange

def pool {ι : Type} (s : State ι) (i : ι) : Pool := (s.front.rx i).rx.pool

def initial {ι : Type} (c : Config ι) (mem : ι → Int → Int) (mempool memsize : ι → Nat) (links : Nat) : State ι where
  front := FilterPass.initial mem mempool memsize
  rdptr i := miiInitMyRdptr (RxPins.initial (mem i) (mempool i) (memsize i)).pool
  links := List.replicate links (.initial c.rxBuf)
  server := .select
  status := 0
  arrivals := []
  number := fun _ => 0
  log := []
  replies := fun _ => []

/- An output of mac_rx_send_frame1, and the data pointer behind it. -/
def output (p : Pool) (buf dptr : Int) : Item → List Token × Int
  | .field f => (outInt (field f p buf), dptr)
  | .int x => (outInt x, dptr)
  | .char x => (outChar x, dptr)
  | .word reversed _ =>
    let dptr := if dptr = miiGetWrapPtr p then p.mem dptr else dptr
    let datum := BitVec.ofInt 32 (p.mem dptr)
    (outInt (if reversed then byterev datum else datum), dptr + 1)
  | .timestamp => (outInt (field .timestamp p buf + ethernetRxPhyTimerOffset), dptr)

section
variable {ι : Type} [DecidableEq ι] (c : Config ι)

def committedTime (u : RxPins.State) : Int :=
  match u.phase with
  | .commit f => f.time
  | _ => 0

/- The frame that a step has handed to the filter, if it has. -/
def arrive (s : State ι) (i : ι) (t : FilterPass.State ι) : State ι :=
  match FilterPass.handed (s.front.rx i) (t.rx i) with
  | some buf =>
    { s with front := t, number := Function.update s.number buf s.arrivals.length
             arrivals := s.arrivals ++ [⟨i, t.frame, committedTime (s.front.rx i).rx, t.received, t.lost⟩] }
  | none => { s with front := t }

/- A call of the server on a buffer that it has. -/
def onPool (s : State ι) (e : Int → RxPins.Event) (buf : Int) : Option (State ι) :=
  (FilterPass.step c.filter false s.front (.rx (c.poolOf buf) (e buf))).map fun t => { s with front := t }

def onLink (s : State ι) (link : Nat) (l : Link) (e : RxServer.Event) : State ι :=
  { s with links := s.links.set link l, log := s.log ++ [e] }

def replied (s : State ι) (link : Nat) (r : Reply) : State ι :=
  { s with replies := Function.update s.replies link (s.replies link ++ [r]) }

def serverStep (s : State ι) : Option (State ι) :=
  match s.server with
  | .select => none
  | .found i buf => do
    let next ← miiUpdateMyRdptr (pool s i) (s.rdptr i)
    some { s with rdptr := Function.update s.rdptr i next, server := .moved i buf }
  | .moved i buf => do
    let header : Field → Int := fun f => getField f (pool s i) buf
    let result := BitVec.ofInt 32 (header .filterResult)
    let (links, tcount) := if result ≠ 0#32 then offerAll c.rxBuf buf result s.links else (s.links, 0)
    let t ← onPool c s (fun buf => if tcount = 0 then .free buf else .set buf .tcount (tcount - 1)) buf
    some { t with links := links, server := .select, log := s.log ++ [.process (s.number buf) header] }
  | .sending link cmd buf dptr (item :: todo) sent =>
    let (tokens, dptr) := output (pool s (c.poolOf buf)) buf dptr item
    some { s with server := .sending link cmd buf dptr todo (sent ++ tokens) }
  | .sending link cmd buf _ [] sent => do
    let l ← s.links[link]?
    let count := getField .tcount (pool s (c.poolOf buf)) buf
    let t ← onPool c s (fun buf => if count = 0 then .free buf else .set buf .tcount (count - 1)) buf
    let t := onLink t link (RxLink.request c.rxBuf l).link (.request link)
    some { replied t link (.frame (s.number buf) cmd sent) with server := .select }

def step (s : State ι) : Event ι → Option (State ι)
  | .front (.rx i e) =>
    if RxFilter.own e then (FilterPass.step c.filter false s.front (.rx i e)).map (arrive s i) else none
  | .front .filter => (FilterPass.step c.filter false s.front .filter).map fun t => { s with front := t }
  | .look i =>
    match s.server with
    | .select =>
      let buf := miiGetMyNextBuf (pool s i) (s.rdptr i)
      some { s with server := if buf ≠ 0 ∧ miiPacketGetStage (pool s i) buf = 1 then .found i buf else .select }
    | _ => none
  | .server => serverStep c s
  | .request link cmd =>
    match s.server, s.links[link]? with
    | .select, some l =>
      let a := RxLink.request c.rxBuf l
      match a.reply with
      | .packet buf =>
        let todo := outputs cmd (miiPacketGetLength (pool s (c.poolOf buf)) buf)
        some { s with server := .sending link cmd buf (miiPacketGetDataPtr buf) todo [] }
      | .status =>
        some (replied (onLink s link a.link (.request link)) link (.status s.status (sendStatusPacket 0 s.status)))
      | .nothing => some (replied (onLink s link a.link (.request link)) link .nothing)
    | _, _ => none
  | .command link k =>
    match s.server, s.links[link]? with
    | .select, some l => some (onLink s link (RxLink.command c.rxBuf k l) (.command link k))
    | _, _ => none
  | .linkStatus x => some { s with status := x }
  | .statusChange =>
    match s.server with
    | .select =>
      some { s with links := s.links.map (fun l => (RxLink.statusChange l).link), log := s.log ++ [.statusChange] }
    | _ => none

end

/-! What the clients are to see of it. -/

section
variable {ι : Type} [DecidableEq ι]

def client (c : Config ι) (s : State ι) (link : Nat) : RxLink.Client := clientRun c.rxBuf link s.log

def processedNumber : RxServer.Event → Option Nat
  | .process n _ => some n.toNat
  | _ => none

/- The frames of a pool, and those of them that the server has processed. -/
def ofPool (s : State ι) (i : ι) (n : Nat) : Bool := (s.arrivals[n]?).any fun a => decide (a.pool = i)
def arrivedIn (s : State ι) (i : ι) : List Nat := (List.range s.arrivals.length).filter (ofPool s i)
def processedIn (s : State ι) (i : ι) : List Nat := (s.log.filterMap processedNumber).filter (ofPool s i)

def payload (a : Arrival ι) : List (BitVec 8) := a.bytes.take (a.bytes.length - 4)

/- A reply holds its frame, whichever call of the client reads it. -/
def Conveys (a : Arrival ι) (sent : List Token) : Prop :=
  ∀ (d : RxTransfer.Client) (call : Call), ∃ got, Reads (call.run d) sent got ∧
    got.len = BitVec.ofNat 32 (payload a).length ∧ got.len ≠ statusPacketLen ∧ got.srcPort = 0 ∧
    got.rxTime = (if call.wantsTime then some (BitVec.ofInt 32 a.time + ethernetRxPhyTimerOffset) else none) ∧
    (∀ j (inside : j < (payload a).length), call.within j → got.buf j = (payload a)[j]) ∧
    ∀ j, (payload a).length ≤ j ∨ ¬ call.within j → got.buf j = d.buf j

/- The application's filter gets the first words of the frame. -/
def Views (view : Nat → BitVec 32) (frame : List (BitVec 8)) : Prop := bytes ((List.range 10).map view) = frame.take 40

def Outcome (g : FilterPass.Config) (frame : List (BitVec 8)) (result : BitVec 32) : Prop :=
  if FilterPass.Wanted g frame then ∃ view, Views view frame ∧ result = (g.macCustomFilter view).1 else result = 0#32

structure Delivers (c : Config ι) (s : State ι) : Prop where
  /- A frame none of whose words was lost is what the port has delivered. -/
  whole : ∀ a ∈ s.arrivals, a.lost = false → a.bytes.take (4 * a.received.length) = bytes a.received
  /- The links are offered the frames of a pool in their order, each with what the filter says of it. -/
  order : ∀ i, processedIn s i <+: arrivedIn s i
  offered : ∀ n header, .process n header ∈ s.log →
    ∃ a, s.arrivals[n.toNat]? = some a ∧ Outcome c.filter a.bytes (BitVec.ofInt 32 (header .filterResult))
  /- A client gets what its queue holds, in order and once. -/
  replies : ∀ link, link < s.links.length → (s.replies link).filterMap Reply.number = (client c s link).sent
  once : ∀ link i, ((((client c s link).sent ++ (client c s link).waiting).map Int.toNat).filter (ofPool s i)).Sublist
    (processedIn s i)
  conveyed : ∀ link n sent, .frame n .frameReq sent ∈ s.replies link → ∃ a, s.arrivals[n]? = some a ∧ Conveys a sent
  statuses : ∀ link x sent, .status x sent ∈ s.replies link → sent = sendStatusPacket 0 x
  /- A packet is in its pool until it is processed and no link waits for it any more. -/
  kept : ∀ i, ∀ k ∈ (s.front.rx i).rx.queue, k.freed = false ↔ s.number k.buf ∉ processedIn s i ∨
    ∃ link, link < s.links.length ∧ (s.number k.buf : Int) ∈ (client c s link).waiting
  held : ∀ link, link < s.links.length → ∀ n ∈ (client c s link).waiting, ∃ i, ∃ k ∈ (s.front.rx i).rx.queue,
    k.freed = false ∧ s.number k.buf = n
  /- The server comes back to its select. -/
  answers : ∃ t, run (step c) s (List.replicate s.server.left .server) = some t ∧ t.server = .select

end

end ScEthernet.Full.RxSystem
