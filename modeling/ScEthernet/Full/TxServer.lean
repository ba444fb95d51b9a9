import ScEthernet.Full.TxTransfer
import ScEthernet.Lib.CircularFifo
import ScEthernet.Lib.Runs

/-! The clients, ethernet_tx_server and a mii_tx_pins for each port. A step is an access of one task
to what another one reads: a store of ethernet_tx_server to buffers that are not committed yet goes to
all ports at once, and so do mii_commit and the header stores behind it, as mii_tx_pins takes a buffer
at stage 1 only. A buffer is known by its pool and its address there. Packets that mii_tx_pins forwards
from the other port are in other pools and have no timestamp_id. -/
namespace ScEthernet.Full.TxServer
open Lib.CircularFifo Lib.Runs Malloc PoolQueue TxTransfer

/- NUM_ETHERNET_PORTS, num_tx, ETHERNET_TX_HP_QUEUE and the condition of mii_commit. -/
structure Config where
  ports : Nat
  links : Nat
  hpQueue : Bool
  forwards : Bool

/- MAC_MAX_ENTRIES with NUM_MII_RX_BUF and NUM_MII_TX_BUF of 5 -/
def macMaxEntries : Nat := 6
def ethernetTxPhyTimerOffset : Int := 48
def ethBroadcast : Int := -1

/- What a client sends: `data` are the words that the server stores. -/
structure Request where
  link : Nat
  cmd : Cmd
  length : Nat
  dstPort : Int
  data : List Int

def Request.hp (r : Request) : Bool := (withoutHp r.cmd).2
def Request.timed (r : Request) : Bool := decide ((withoutHp r.cmd).1 = .reqTimed)
def Request.goesTo (r : Request) (p : Nat) : Bool := decide ((p : Int) = r.dstPort ∨ r.dstPort = ethBroadcast)

structure Request.Fits (c : Config) (r : Request) : Prop where
  link : r.link < c.links
  queue : r.hp = true → c.hpQueue = true
  port : r.dstPort = ethBroadcast ∨ 0 ≤ r.dstPort ∧ r.dstPort < c.ports
  short : (r.length : Int) ≤ ethernetMaxTxLpPacketSize
  words : r.data.length = TxPool.wordCount r.length

instance (c r) : Decidable (Request.Fits c r) :=
  decidable_of_iff (r.link < c.links ∧ (r.hp = true → c.hpQueue = true) ∧
    (r.dstPort = ethBroadcast ∨ 0 ≤ r.dstPort ∧ r.dstPort < c.ports) ∧ (r.length : Int) ≤ ethernetMaxTxLpPacketSize ∧
    r.data.length = TxPool.wordCount r.length)
    ⟨fun ⟨link, queue, port, short, words⟩ => ⟨link, queue, port, short, words⟩,
      fun h => ⟨h.link, h.queue, h.port, h.short, h.words⟩⟩

/- Where a client is in its call: the command, the transaction, the timestamp. -/
inductive Client where
  | idle
  | calling (call : Nat)
  | transferring (call : Nat)
  | waiting (call : Nat)
  deriving DecidableEq

def Client.call : Client → Option Nat
  | .idle => none
  | .calling n | .transferring n | .waiting n => some n

def Client.commands : Client → Bool
  | .calling _ => true
  | _ => false

/- `transfer` is get_packet_from_client with the words so far, `committing` the loop over the ports
behind it; `found` and `release` are the loop that replies, on either side of its output. -/
inductive Server where
  | loop (i : Nat)
  | reserving (i p : Nat)
  | transfer (i call j : Nat)
  | committing (i call p : Nat)
  | select
  | replying (p : Nat)
  | found (p : Nat) (hp : Bool) (buf : Int)
  | release (p : Nat) (hp : Bool) (buf : Int)
  deriving DecidableEq

/- `looked` is behind mii_get_next_buf, and `low` in front of it for lp_queue. -/
inductive Pins where
  | top
  | looked (hp : Bool) (buf : Int)
  | low
  | chosen (hp : Bool) (buf : Int)
  | transmitted (hp : Bool) (buf : Int)
  | cleared (hp : Bool) (buf : Int)
  | timed (hp : Bool) (buf : Int)
  | staged (hp : Bool) (buf : Int)
  deriving DecidableEq

/- History: the words that mii_transmit_packet reads, and the time it stores. -/
structure Transmission where
  port : Nat
  call : Nat
  data : List Int
  time : Int

/- History: `call` is the one that the client waits in, if it does. -/
structure Reply where
  link : Int
  time : Int
  call : Option Nat

structure State where
  clients : Nat → Client
  enabled : Nat → Bool
  pendingCmd : Nat → Option Cmd
  server : Server
  pins : Nat → Pins
  pools : Nat → Bool → TxPool.State
  tsQueue : Nat → Fifo (Bool × Int)
  /- History: the calls; of which call a buffer is; the port and the call of each buffer freed. -/
  calls : List Request
  owner : Nat → Bool → Int → Nat
  transmissions : List Transmission
  freed : List (Nat × Nat)
  replies : List Reply

inductive Event where
  | call (r : Request)
  | accept (i : Nat)
  /- A command of the select that asks for no frame: it leaves enabled[i] as it is. -/
  | command (i : Nat)
  | timer
  | default
  | server
  | pins (p : Nat) (held : Bool) (time : Int)

def set {α : Type} (f : Nat → α) (i : Nat) (x : α) : Nat → α := fun j => if j = i then x else f j
def setPool {α : Type} (f : Nat → Bool → α) (p : Nat) (hp : Bool) (x : α) : Nat → Bool → α :=
  fun q h => if q = p ∧ h = hp then x else f q h

section
variable {α : Type} {i j p q : Nat} {hp h : Bool}

theorem setSame (f : Nat → α) (i : Nat) (x : α) : set f i x i = x := if_pos rfl
theorem setOther {f : Nat → α} (ne : j ≠ i) (x : α) : set f i x j = f j := if_neg ne

theorem setPoolSame (f : Nat → Bool → α) (p : Nat) (hp : Bool) (x : α) : setPool f p hp x p hp = x := if_pos ⟨rfl, rfl⟩
theorem setPoolOther {f : Nat → Bool → α} (ne : ¬ (q = p ∧ h = hp)) (x : α) : setPool f p hp x q h = f q h := if_neg ne

end

def initial (mem : Nat → Bool → Int → Int) (mempool : Nat → Bool → Nat) (memsize : Bool → Nat) : State where
  clients := fun _ => .idle
  enabled := fun _ => true
  pendingCmd := fun _ => none
  server := .loop 0
  pins := fun _ => .top
  pools := fun p hp => TxPool.initial (mem p hp) (mempool p hp) (memsize hp)
  tsQueue := fun _ => ⟨0, 0, fun _ => (false, 0)⟩
  calls := []
  owner := fun _ _ _ => 0
  transmissions := []
  freed := []
  replies := []

def onPool (c : Config) (s : State) (p : Nat) (hp : Bool) (e : TxPool.Event) : Option State :=
  (TxPool.step c.forwards (s.pools p hp) e).map (fun u => { s with pools := setPool s.pools p hp u })

/- The pools of the ports below `n`. -/
def eachPort (c : Config) (hp : Bool) (e : TxPool.Event) : Nat → State → Option State
  | 0, s => some s
  | n + 1, s => (eachPort c hp e n s).bind (fun s => onPool c s n hp e)

/- buf[p] -/
def reservedBuf (s : TxPool.State) : Int :=
  match s.phase with
  | .idle => 0
  | .reserved buf => buf
  | .storing buf _ _ _ => buf

/- The call of client `i` whose command has been taken. -/
def transaction (s : State) (i : Nat) : Option (Nat × Request) :=
  match s.clients i with
  | .transferring n => (s.calls[n]?).map (fun r => (n, r))
  | _ => none

def serverStep (c : Config) (s : State) : Option State :=
  match s.server with
  | .loop i =>
    if i < c.links then
      some { s with server := if (s.pendingCmd i).isSome then .reserving i 0 else .loop (i + 1) }
    else some { s with server := .select }
  | .reserving i p => do
    let cmd ← s.pendingCmd i
    let hp := (withoutHp cmd).2
    if p < c.ports then
      let t ← onPool c s p hp .reserve
      some { t with server := .reserving i (p + 1) }
    else if ∀ q < c.ports, reservedBuf (s.pools q hp) ≠ 0 then
      let (n, r) ← transaction s i
      let t ← eachPort c hp (.length r.length) c.ports s
      some { t with server := .transfer i n 0 }
    else
      let t ← eachPort c hp .abandon c.ports s
      some { t with server := .loop (i + 1) }
  | .transfer i n j => do
    let (_, r) ← transaction s i
    match r.data[j]? with
    | some datum =>
      let t ← eachPort c r.hp (.word datum) c.ports s
      some { t with server := .transfer i n (j + 1) }
    | none =>
      some { s with clients := set s.clients i (if r.timed then .waiting n else .idle)
                    server := .committing i n 0 }
  | .committing i n p => do
    let r ← s.calls[n]?
    if p < c.ports then
      if r.goesTo p then
        let t ← onPool c s p r.hp (.commit (if r.timed then (i : Int) + 1 else 0))
        some { t with server := .committing i n (p + 1)
                      owner := setPool s.owner p r.hp
                        (fun buf => if buf = reservedBuf (s.pools p r.hp) then n else s.owner p r.hp buf) }
      else
        let t ← onPool c s p r.hp .abandon
        some { t with server := .committing i n (p + 1) }
    else
      some { s with enabled := set s.enabled i false, pendingCmd := set s.pendingCmd i none
                    server := .loop (i + 1) }
  | .select => none
  | .replying p =>
    if p < c.ports then
      let q := s.tsQueue p
      if q.rd = q.wr then some { s with server := .replying (p + 1) }
      else
        let (hp, buf) := q.cells q.rd
        some { s with tsQueue := set s.tsQueue p (q.pop macMaxEntries), server := .found p hp buf }
    else some { s with server := .loop 0 }
  | .found p hp buf =>
    let pool := (s.pools p hp).pool
    let i := miiPacketGetTimestampId pool buf - 1
    let ts := miiPacketGetTimestamp pool buf + ethernetTxPhyTimerOffset
    match s.clients i.toNat with
    | .waiting n =>
      some { s with clients := set s.clients i.toNat .idle, server := .release p hp buf
                    replies := s.replies ++ [⟨i, ts, some n⟩] }
    | _ => some { s with server := .release p hp buf, replies := s.replies ++ [⟨i, ts, none⟩] }
  | .release p hp buf => do
    let count := miiPacketGetTcount (s.pools p hp).pool buf
    let t ← onPool c s p hp (if count = 0 then .free buf else .set buf .tcount (count - 1))
    some { t with server := .replying (p + 1)
                  freed := if count = 0 then s.freed ++ [(p, s.owner p hp buf)] else s.freed }

/- `held` is credit < 0, and `time` what the timer says in mii_transmit_packet. -/
def pinsStep (c : Config) (s : State) (p : Nat) (held : Bool) (time : Int) : Option State :=
  match s.pins p with
  | .top =>
    let buf := miiGetNextBuf (s.pools p c.hpQueue).pool
    some { s with pins := set s.pins p (.looked c.hpQueue buf) }
  | .low => some { s with pins := set s.pins p (.looked false (miiGetNextBuf (s.pools p false).pool)) }
  | .looked hp buf =>
    if buf ≠ 0 ∧ miiPacketGetStage (s.pools p hp).pool buf = 1 ∧ (hp && held) = false then
      some { s with pins := set s.pins p (.chosen hp buf) }
    else some { s with pins := set s.pins p (if hp then .low else .top) }
  | .chosen hp buf => do
    let pool := (s.pools p hp).pool
    let data := readWords pool (TxPool.wordCount (miiPacketGetLength pool buf).toNat) (miiPacketGetDataPtr buf)
    let t ← onPool c s p hp (.set buf .timestamp time)
    some { t with pins := set s.pins p (.transmitted hp buf)
                  transmissions := s.transmissions ++ [⟨p, s.owner p hp buf, data, time⟩] }
  | .transmitted hp buf => do
    let t ← if miiPacketGetForwarding (s.pools p hp).pool buf ≠ 0 then onPool c s p hp (.set buf .forwarding 0)
      else some s
    some { t with pins := set s.pins p (.cleared hp buf) }
  | .cleared hp buf => do
    let pool := (s.pools p hp).pool
    let count := miiPacketGetTcount pool buf
    if count ≠ 0 then
      let t ← onPool c s p hp (.set buf .tcount (count - 1))
      some { t with pins := set s.pins p .top }
    else if miiPacketGetTimestampId pool buf ≠ 0 then
      some { s with pins := set s.pins p (.timed hp buf) }
    else
      let t ← onPool c s p hp (.free buf)
      some { t with pins := set s.pins p .top, freed := s.freed ++ [(p, s.owner p hp buf)] }
  | .timed hp buf => do
    let t ← onPool c s p hp (.set buf .stage 2)
    some { t with pins := set s.pins p (.staged hp buf) }
  | .staged hp buf =>
    some { s with pins := set s.pins p .top
                  tsQueue := set s.tsQueue p ((s.tsQueue p).push macMaxEntries (hp, buf)) }

def step (c : Config) (s : State) : Event → Option State
  | .call r =>
    if s.clients r.link = .idle ∧ r.Fits c then
      some { s with clients := set s.clients r.link (.calling s.calls.length), calls := s.calls ++ [r] }
    else none
  | .accept i =>
    match s.server, s.clients i with
    | .select, .calling n =>
      if i < c.links ∧ s.enabled i = true then
        (s.calls[n]?).map (fun r =>
          { s with clients := set s.clients i (.transferring n), pendingCmd := set s.pendingCmd i (some r.cmd)
                   server := .replying 0 })
      else none
    | _, _ => none
  | .command i =>
    match s.server, s.clients i with
    | .select, .idle => if i < c.links ∧ s.enabled i = true then some { s with server := .replying 0 } else none
    | _, _ => none
  | .timer =>
    match s.server with
    | .select => some { s with server := .replying 0 }
    | _ => none
  | .default =>
    match s.server with
    | .select =>
      if ∀ i < c.links, s.enabled i = true → (s.clients i).commands = false then
        some { s with enabled := fun _ => true, server := .replying 0 }
      else none
    | _ => none
  | .server => serverStep c s
  | .pins p held time => if p < c.ports then pinsStep c s p held time else none

/-! What the steps at the select are. -/

section
variable {c : Config} {s t : State} {i : Nat} {r : Request}

theorem callMoves (taken : step c s (.call r) = some t) : s.clients r.link = .idle ∧ r.Fits c ∧
    t = { s with clients := set s.clients r.link (.calling s.calls.length), calls := s.calls ++ [r] } := by
  simp only [step] at taken
  split at taken
  · rename_i idle
    cases taken
    exact ⟨idle.1, idle.2, rfl⟩
  · cases taken

theorem acceptMoves (taken : step c s (.accept i) = some t) : ∃ n r, s.server = .select ∧ s.clients i = .calling n ∧
    i < c.links ∧ s.enabled i = true ∧ s.calls[n]? = some r ∧
    t = { s with clients := set s.clients i (.transferring n), pendingCmd := set s.pendingCmd i (some r.cmd)
                 server := .replying 0 } := by
  simp only [step] at taken
  split at taken
  · rename_i n server client
    split at taken
    · rename_i on
      obtain ⟨r, known, rfl⟩ := Option.map_eq_some_iff.mp taken
      exact ⟨n, r, server, client, on.1, on.2, known, rfl⟩
    · cases taken
  · cases taken

theorem commandMoves (taken : step c s (.command i) = some t) : s.server = .select ∧ t = { s with server := .replying 0 } := by
  simp only [step] at taken
  split at taken
  · rename_i server client
    split at taken <;> cases taken
    exact ⟨server, rfl⟩
  · cases taken

theorem timerMoves (taken : step c s .timer = some t) : s.server = .select ∧ t = { s with server := .replying 0 } := by
  simp only [step] at taken
  split at taken
  · rename_i server
    cases taken
    exact ⟨server, rfl⟩
  · cases taken

theorem defaultMoves (taken : step c s .default = some t) : s.server = .select ∧
    (∀ i < c.links, s.enabled i = true → (s.clients i).commands = false) ∧
    t = { s with enabled := fun _ => true, server := .replying 0 } := by
  simp only [step] at taken
  split at taken
  · rename_i server
    split at taken
    · rename_i quiet
      cases taken
      exact ⟨server, quiet, rfl⟩
    · cases taken
  · cases taken

theorem pinsMoves {p : Nat} {held : Bool} {time : Int} (taken : step c s (.pins p held time) = some t) :
    p < c.ports ∧ pinsStep c s p held time = some t := by
  simp only [step] at taken
  split at taken
  · rename_i port
    exact ⟨port, taken⟩
  · cases taken

end

end ScEthernet.Full.TxServer
