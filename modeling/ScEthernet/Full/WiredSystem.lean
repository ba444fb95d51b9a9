import ScEthernet.Full.RxSystem
import ScEthernet.Full.TxOrder
import ScEthernet.Lib.BurstError

/-! Two devices on one wire: a port of the near one with its queues, ethernet_tx_server and clients, and the receiving side
of the far one. The wire may lose frames, and flip bits of the others. The near device sends while mii_rx_pins of the far one
is behind its reservations or still on its way there, and a frame is heard when it is there. -/
namespace ScEthernet.Full.WiredSystem
open Lib.BitOrder Lib.ShiftPort Lib.BurstError Lib.Runs Wire Malloc PoolQueue
open RxFilter (Pins closing)
open Receivers (pins)
open TxServer (Request)
open TxSim (Orderly)
open TxOrder (wireOf frameOf line due)

structure Config (ι : Type) where
  near : TxServer.Config
  port : Nat
  inside : port < near.ports
  /- TX_TIMESTAMP_END_OF_PACKET -/
  atEnd : Bool
  far : RxSystem.Config ι
  /- The pools in the order in which mii_rx_pins reserves, and the one for a frame with this in the place of its type. -/
  pools : List ι
  nodup : pools.Nodup
  poolFor : BitVec 16 → ι

structure State (ι : Type) where
  near : TxServer.State
  far : RxSystem.State ι
  /- What the near port has sent, and how much of it has gone by. -/
  wire : List (Option (List Bool))
  passed : Nat
  /- The steps of mii_rx_pins up to the next start of a frame. -/
  todo : List (ι × RxPins.Event)
  /- History: the frame on the wire that they are for, and those that the frames of the far device were. -/
  heard : Nat
  origins : List Nat

inductive Event (ι : Type) where
  | near (e : TxServer.Event)
  | far (e : RxSystem.Event ι)
  | pins
  | hear (gone : Nat) (errors : List (BitVec 8)) (register : BitVec 32) (time : Int)
  | lose

/- The nibbles at p_mii_rxd: the first ones of the preamble may be gone, and bits behind it are flipped. -/
def atPins (gone : Nat) (errors : List (BitVec 8)) (signal : List Bool) : List (BitVec 4) :=
  (nibblesOf (signal.take 64 ++ List.zipWith Bool.xor (signal.drop 64) (bits errors))).drop gone

/- when pinseq(0xD) -/
def behindStart (ns : List (BitVec 4)) : List (BitVec 4) := (ns.dropWhile (· != 0xD#4)).tail

section
variable {ι : Type} [DecidableEq ι] (c : Config ι)

/- A frame up to its commit: the first four words go to all pools with a buffer, the others to `own` if it has one. -/
def frameSteps (buffers : List ι) (own : ι) (time : Int) (x : Pins) : List (ι × RxPins.Event) :=
  let each : RxPins.Event → List (ι × RxPins.Event) := fun e => buffers.map fun i => (i, e)
  each (.sof time) ++ (x.words.take 4).flatMap (fun w => each (.word w)) ++
    (buffers.filter (· ≠ own)).map (fun i => (i, .drop)) ++
    if own ∈ buffers then ((x.words.drop 4).map RxPins.Event.word ++ closing x).map fun e => (own, e) else []

def reserves : List (ι × RxPins.Event) := c.pools.map fun i => (i, .reserve)

def reserved : RxPins.Phase → Bool
  | .reserved _ => true
  | _ => false

def idle : RxPins.Phase → Bool
  | .idle => true
  | _ => false

def commits : RxPins.Event → Bool
  | .commit => true
  | _ => false

def phase (s : State ι) (i : ι) : RxPins.Phase := (s.far.front.rx i).rx.phase

def initial (mem : Nat → Bool → Int → Int) (mempool : Nat → Bool → Nat) (memsize : Bool → Nat)
    (mem' : ι → Int → Int) (mempool' memsize' : ι → Nat) (links : Nat) : State ι :=
  ⟨TxServer.initial mem mempool memsize, RxSystem.initial c.far mem' mempool' memsize' links, [], 0, reserves c, 0, []⟩

/- The commit of a packet without space for its last word is left out. -/
def pinsStep (s : State ι) : Option (State ι) :=
  match s.todo with
  | [] => none
  | (i, e) :: todo =>
    if commits e && idle (phase s i) then some { s with todo := todo }
    else (RxSystem.step c.far s.far (.front (.rx i e))).map fun t =>
      { s with far := t, todo := todo
               origins := if s.far.arrivals.length < t.arrivals.length then s.origins ++ [s.heard] else s.origins }

def hear (s : State ι) (gone : Nat) (errors : List (BitVec 8)) (register : BitVec 32) (time : Int) (signal : List Bool) : State ι :=
  let x := pins (deliver register (behindStart (atPins gone errors signal)))
  let buffers := c.pools.filter fun i => reserved (phase s i)
  let own := c.poolFor ((x.words.getD 3 0).setWidth 16)
  { s with passed := s.passed + 1, heard := s.passed
           todo := frameSteps buffers own time x ++ (if own ∈ buffers then [(own, .commit)] else []) ++ reserves c }

def step (s : State ι) : Event ι → Option (State ι)
  | .near e => (TxServer.step c.near s.near e).map fun t =>
      { s with near := t, wire := s.wire ++ wireOf c.atEnd s.near c.port e }
  | .far (.front (.rx _ _)) => none
  | .far e => (RxSystem.step c.far s.far e).map fun t => { s with far := t }
  | .pins => pinsStep c s
  | .hear gone errors register time =>
    match s.todo, s.wire[s.passed]? with
    | [], some (some signal) =>
      if gone < 16 ∧ 64 + 8 * errors.length = signal.length then some (hear c s gone errors register time signal) else none
    | _, _ => none
  | .lose => if s.passed < s.wire.length then some { s with passed := s.passed + 1 } else none

/- The frames have the six words that mii_rx_pins inputs before it looks for their end, and an error is a burst that fits into
the FCS. -/
def Mild (s : State ι) : Event ι → Prop
  | .near e => Orderly c.near s.near e ∧ match e with
    | .call r => 20 ≤ r.length
    | _ => True
  | .hear _ errors _ _ => true ∉ bits errors ∨ Burst 32 (bits errors)
  | _ => True

end

/-! From client to client. -/

section
variable {ι : Type} [DecidableEq ι] (c : Config ι)

def sentOn (s : State ι) : List Nat := (s.near.transmissions.filter fun x => decide (x.port = c.port)).map TxServer.Transmission.call

def callOf (s : State ι) (n : Nat) : Option Nat := (s.origins[n]?).bind fun m => (sentOn c s)[m]?

def numbersOf (s : State ι) (link : Nat) (j : ι) : List Nat :=
  (((s.far.replies link).filterMap RxSystem.Reply.number).map Int.toNat).filter (RxSystem.ofPool s.far j)

def callsOf (s : State ι) (link : Nat) (j : ι) (i : Nat) (hp : Bool) : List Nat :=
  ((numbersOf s link j).filterMap (callOf c s)).filter fun n => (s.near.calls[n]?).any fun r => r.link == i && r.hp == hp

/- The client reads the frame of a call, or less than it where a word found no space. -/
def Gets (s : State ι) (n : Nat) (sent : List Lib.ChannelTokens.Token) : Prop :=
  ∃ a m r, s.far.arrivals[n]? = some a ∧ callOf c s n = some m ∧ s.near.calls[m]? = some r ∧ RxSystem.Conveys a sent ∧
    (RxSystem.payload a).length ≤ r.length ∧ ((RxSystem.payload a).length = r.length → RxSystem.payload a = frameOf r)

structure Connected (s : State ι) : Prop where
  gets : ∀ link n sent, link < s.far.links.length → .frame n .frameReq sent ∈ s.far.replies link → Gets c s n sent
  /- In the order of the calls, and none of them twice. -/
  order : ∀ link j i hp, link < s.far.links.length → (callsOf c s link j i hp).Sublist (due s.near c.port i hp)
  /- mii_rx_pins comes back to the start of a frame. -/
  listens : ∃ es t, (∀ e ∈ es, e = .pins ∨ e = .far (.front .filter)) ∧ run (step c) s es = some t ∧ t.todo = []

end

end ScEthernet.Full.WiredSystem
