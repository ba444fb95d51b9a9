import ScEthernet.Full.RxServer
import ScEthernet.Full.RxTransfer

/-! A packet that is delivered to the clients and forwarded to the other port. The outputs of
mac_rx_send_frame1 are steps, and so are the choice of a packet in mii_tx_pins, the store of the
time in mii_transmit_packet and what follows the transmission. Both tasks use one header. -/
namespace ScEthernet.Full.RxForward
open Lib.BitOrder Lib.ChannelTokens Lib.UnrolledRing Lib.Runs Malloc PoolQueue RxLink RxServer RxTransfer

inductive Item where
  | field (f : Field)
  | int (x : BitVec 32)
  | char (x : BitVec 8)
  | word (reversed : Bool) (i : Nat)
  | timestamp

structure Packet where
  header : Field → Int
  data : List Int

def Item.tokens (k : Packet) : Item → List Token
  | .field f => outInt (BitVec.ofInt 32 (k.header f))
  | .int x => outInt x
  | .char x => outChar x
  | .word reversed i =>
    let datum := BitVec.ofInt 32 ((k.data[i]?).getD 0)
    outInt (if reversed then byterev datum else datum)
  | .timestamp => outInt (BitVec.ofInt 32 (k.header .timestamp) + ethernetRxPhyTimerOffset)

def outputs (cmd : Cmd) (length : Int) : List Item :=
  if cmd = .frameReqOffset2 then
    [.field .srcPort, .int (BitVec.ofInt 32 length), .field .userData, .char 0, .char 0] ++
      (List.range ((length + 3) / 4).toNat).map (.word true) ++ [.char 0, .char 0, .timestamp]
  else
    let i : Int := if cmd = .frameReq then 0 else 3
    [.field .srcPort, .int (BitVec.ofInt 32 (length - 4 * i)), .field .userData] ++
      (List.range ((length + 3) / 4 - i).toNat).map (.word false) ++ [.timestamp]

def reply (cmd : Cmd) (k : Packet) : List Token := (outputs cmd (k.header .length)).flatMap (Item.tokens k)

structure Sending where
  link : Nat
  buf : Int
  cmd : Cmd
  todo : List Item
  sent : List Token

structure Delivery where
  link : Nat
  arrived : Packet
  cmd : Cmd
  sent : List Token

structure State where
  server : RxServer.State
  data : Int → List Int
  /- The server in mac_rx_send_frame1. -/
  sending : Option Sending
  /- For each port the packet in mii_transmit_packet, and whether its time is stored. -/
  transmitting : Bool → Option (Int × Bool)
  /- History: the packet as it came to the server, the time stored since, and the replies. -/
  arrived : Int → Packet
  stored : Int → Option Int
  delivered : List Delivery

inductive Event where
  | process (buf : Int) (k : Packet)
  | request (i : Nat) (cmd : Cmd)
  | send
  | finish
  | command (i : Nat) (k : Command)
  | statusChange
  | choose (port : Bool) (buf : Int)
  | stamp (port : Bool) (time : Int)
  | transmitted (port : Bool)

def initial (c : Config) (links : Nat) : State :=
  ⟨RxServer.initial c links, fun _ => [], none, fun _ => none, fun _ => ⟨fun _ => 0, []⟩, fun _ => none, []⟩

def setPort {α : Type} (f : Bool → α) (port : Bool) (x : α) : Bool → α := fun p => if p = port then x else f p

def packet (s : State) (buf : Int) : Packet := ⟨s.server.headers buf, s.data buf⟩

/- `portOf` is the port whose receive pool a buffer belongs to. -/
def step (c : Config) (portOf : Int → Bool) (s : State) : Event → Option State
  | .process buf k =>
    if s.sending.isNone then
      (RxServer.step c s.server (.process buf k.header)).map (fun server =>
        { s with server := server, data := fun b => if b = buf then k.data else s.data b
                 arrived := fun b => if b = buf then k else s.arrived b
                 stored := fun b => if b = buf then none else s.stored b })
    else none
  | .request i cmd =>
    if s.sending.isNone then
      match (s.server.links[i]?).map (fun l => (RxLink.request c.rxBuf l).reply) with
      | some (.packet buf) =>
        some { s with sending := some ⟨i, buf, cmd, outputs cmd (s.server.headers buf .length), []⟩ }
      | _ => (RxServer.step c s.server (.request i)).map (fun server => { s with server := server })
    else none
  | .send =>
    match s.sending with
    | some ⟨link, buf, cmd, item :: todo, sent⟩ =>
      some { s with sending := some ⟨link, buf, cmd, todo, sent ++ item.tokens (packet s buf)⟩ }
    | _ => none
  | .finish =>
    match s.sending with
    | some ⟨link, buf, cmd, [], sent⟩ =>
      (RxServer.step c s.server (.request link)).map (fun server =>
        { s with server := server, sending := none, delivered := s.delivered ++ [⟨link, s.arrived buf, cmd, sent⟩] })
    | _ => none
  | .command i k =>
    if s.sending.isNone then (RxServer.step c s.server (.command i k)).map (fun server => { s with server := server })
    else none
  | .statusChange =>
    if s.sending.isNone then (RxServer.step c s.server .statusChange).map (fun server => { s with server := server })
    else none
  | .choose port buf =>
    if (s.transmitting port).isNone ∧ portOf buf ≠ port ∧ c.forwards = true ∧
        s.server.processed buf = s.server.freed buf + 1 ∧ s.server.headers buf .forwarding ≠ 0 ∧
        s.server.headers buf .stage = 1 then
      some { s with transmitting := setPort s.transmitting port (some (buf, false)) }
    else none
  | .stamp port time =>
    match s.transmitting port with
    | some (buf, false) =>
      some { s with server := { s.server with headers := RxServer.setHeader s.server.headers .timestamp buf time }
                    transmitting := setPort s.transmitting port (some (buf, true))
                    stored := fun b => if b = buf then some time else s.stored b }
    | _ => none
  | .transmitted port =>
    match s.transmitting port with
    | some (buf, true) =>
      (RxServer.step c s.server (.forward buf (s.server.headers buf .timestamp))).map (fun server =>
        { s with server := server, transmitting := setPort s.transmitting port none })
    | _ => none

inductive Taken (c : Config) (portOf : Int → Bool) (s : State) : Event → State → Prop
  | process {buf : Int} {k : Packet} {server : RxServer.State} (idle : s.sending = none)
    (moved : RxServer.step c s.server (.process buf k.header) = some server) :
    Taken c portOf s (.process buf k)
      { s with server := server, data := fun b => if b = buf then k.data else s.data b
               arrived := fun b => if b = buf then k else s.arrived b
               stored := fun b => if b = buf then none else s.stored b }
  | reply (i : Nat) (cmd : Cmd) (buf : Int) :
    Taken c portOf s (.request i cmd)
      { s with sending := some ⟨i, buf, cmd, outputs cmd (s.server.headers buf .length), []⟩ }
  | serve {e : Event} {server : RxServer.State} (inv : RxServer.Inv c s.server → RxServer.Inv c server)
    (headers : ∀ b f, f ≠ .tcount → server.headers b f = s.server.headers b f) :
    Taken c portOf s e { s with server := server }
  | send {link : Nat} {buf : Int} {cmd : Cmd} {item : Item} {todo : List Item} {sent : List Token}
    (sending : s.sending = some ⟨link, buf, cmd, item :: todo, sent⟩) :
    Taken c portOf s .send { s with sending := some ⟨link, buf, cmd, todo, sent ++ item.tokens (packet s buf)⟩ }
  | finish {link : Nat} {buf : Int} {cmd : Cmd} {sent : List Token} {server : RxServer.State}
    (sending : s.sending = some ⟨link, buf, cmd, [], sent⟩) (moved : RxServer.step c s.server (.request link) = some server) :
    Taken c portOf s .finish
      { s with server := server, sending := none, delivered := s.delivered ++ [⟨link, s.arrived buf, cmd, sent⟩] }
  | choose {port : Bool} {buf : Int} (apart : portOf buf ≠ port) (on : c.forwards = true)
    (waits : s.server.headers buf .forwarding ≠ 0) (stage : s.server.headers buf .stage = 1) :
    Taken c portOf s (.choose port buf) { s with transmitting := setPort s.transmitting port (some (buf, false)) }
  | stamp {port : Bool} {buf : Int} (time : Int) (here : s.transmitting port = some (buf, false)) :
    Taken c portOf s (.stamp port time)
      { s with server := { s.server with headers := RxServer.setHeader s.server.headers .timestamp buf time }
               transmitting := setPort s.transmitting port (some (buf, true))
               stored := fun b => if b = buf then some time else s.stored b }
  | transmitted {port : Bool} {buf : Int} {server : RxServer.State} (here : s.transmitting port = some (buf, true))
    (moved : RxServer.step c s.server (.forward buf (s.server.headers buf .timestamp)) = some server) :
    Taken c portOf s (.transmitted port) { s with server := server, transmitting := setPort s.transmitting port none }

/- Each client is sent what it would be sent if nobody else had the packet. -/
structure Undisturbed (s : State) : Prop where
  delivered : ∀ d ∈ s.delivered, d.sent = reply d.cmd d.arrived
  sending : ∀ d ∈ s.sending, d.sent ++ d.todo.flatMap (Item.tokens (s.arrived d.buf)) = reply d.cmd (s.arrived d.buf)

/- The time is sent to a client before the other port has stored its own, or is the same. -/
def Timely (s : State) : Event → Prop
  | .send =>
    match s.sending with
    | some ⟨_, buf, _, .timestamp :: _, _⟩ =>
      match s.stored buf with
      | some time => BitVec.ofInt 32 time = BitVec.ofInt 32 ((s.arrived buf).header .timestamp)
      | none => True
    | _ => True
  | _ => True

section server
variable {c : Config} {s t : RxServer.State}

theorem releaseHeaders (s : RxServer.State) (buf b : Int) {f : Field} (other : f ≠ .tcount) :
    (release s buf).headers b f = s.headers b f := by
  have counted : (getAndDec s.headers buf).1 b f = s.headers b f := by
    unfold getAndDec
    dsimp only
    split <;> simp [RxServer.setHeader, other]
  unfold release
  dsimp only
  split <;> exact counted

theorem requestHeaders {i : Nat} (taken : RxServer.step c s (.request i) = some t) (b : Int) {f : Field}
    (other : f ≠ .tcount) : t.headers b f = s.headers b f := by
  simp only [RxServer.step] at taken
  split at taken
  · split at taken
    · cases taken
      exact releaseHeaders _ _ b other
    · cases taken
      rfl
  · cases taken

theorem processedHeaders (s : RxServer.State) (buf b : Int) {f : Field} (other : f ≠ .tcount) (unforwarded : f ≠ .forwarding) :
    (processReceivedFrame c s buf).headers b f = s.headers b f := by
  have set : ∀ (headers : Int → Field → Int) (g : Field) (x : Int), f ≠ g →
      RxServer.setHeader headers g buf x b f = headers b f := by
    intro headers g x ne
    simp [RxServer.setHeader, ne]
  simp only [processReceivedFrame, processLoop]
  -- whether it is forwarded, and whether anybody takes it
  split <;> split
  · exact set _ _ _ unforwarded
  · exact (set _ _ _ other).trans (set _ _ _ unforwarded)
  · rfl
  · exact set _ _ _ other

theorem processHeaders {buf : Int} {header : Field → Int}
    (taken : RxServer.step c s (.process buf header) = some t) (b : Int) {f : Field} (other : f ≠ .tcount)
    (unforwarded : f ≠ .forwarding) : t.headers b f = if b = buf then header f else s.headers b f := by
  simp only [RxServer.step] at taken
  split at taken
  case isFalse => cases taken
  cases taken
  refine (processedHeaders _ buf b other unforwarded).trans ?_
  dsimp only
  split <;> rfl

theorem processOthers {buf : Int} {header : Field → Int}
    (taken : RxServer.step c s (.process buf header) = some t) :
    s.processed buf = s.freed buf ∧ ∀ b, b ≠ buf → t.headers b = s.headers b := by
  simp only [RxServer.step] at taken
  split at taken
  case isFalse => cases taken
  rename_i guard
  cases taken
  refine ⟨guard.1, fun b other => ?_⟩
  rw [(processEffect c _ buf).others b other]
  exact if_neg other

theorem forwardHeaders {buf time : Int} (taken : RxServer.step c s (.forward buf time) = some t)
    (stamp : s.headers buf .timestampId = 0) (b : Int) {f : Field} (other : f ≠ .tcount) (unforwarded : f ≠ .forwarding) :
    t.headers b f = if b = buf ∧ f = .timestamp then time else s.headers b f := by
  simp only [RxServer.step] at taken
  split at taken
  case isFalse => cases taken
  cases taken
  rw [forwardIsRelease time stamp, releaseHeaders _ _ _ other]
  simp [RxServer.transmitted, RxServer.setHeader, unforwarded]

theorem forwardOthers {buf time : Int} (taken : RxServer.step c s (.forward buf time) = some t)
    (stamp : s.headers buf .timestampId = 0) (b : Int) (other : b ≠ buf) : t.headers b = s.headers b := by
  simp only [RxServer.step] at taken
  split at taken
  case isFalse => cases taken
  cases taken
  rw [forwardIsRelease time stamp, (releaseOthers _ other).2.2]
  funext f
  simp [RxServer.transmitted, RxServer.setHeader, other]

theorem quietHeaders {e : RxServer.Event} (quiet : (∃ i k, e = .command i k) ∨ e = .statusChange)
    (taken : RxServer.step c s e = some t) : t.headers = s.headers := by
  rcases quiet with ⟨i, k, rfl⟩ | rfl
  · simp only [RxServer.step] at taken
    split at taken
    · cases taken; rfl
    · cases taken
  · cases taken; rfl

theorem stampKeeps (h : RxServer.Inv c s) (buf time : Int) :
    RxServer.Inv c { s with headers := RxServer.setHeader s.headers .timestamp buf time } := by
  refine ⟨h.valid, h.nodup, fun b => ?_⟩
  have balanced := h.balanced b
  unfold RxServer.Balanced pending holders at balanced ⊢
  simpa [RxServer.setHeader] using balanced

theorem pendingLive (h : RxServer.Inv c s) {buf : Int} (on : c.forwards = true) (waits : s.headers buf .forwarding ≠ 0) :
    s.processed buf = s.freed buf + 1 ∧ s.headers buf .timestampId = 0 := by
  have pending : pending c s buf = 1 := if_pos ⟨on, waits⟩
  rcases h.balanced buf with ⟨-, -, none⟩ | ⟨live, -, -, stamp⟩
  · omega
  · exact ⟨live, stamp⟩

end server

structure Inv (c : Config) (portOf : Int → Bool) (s : State) : Prop where
  server : RxServer.Inv c s.server
  fields : ∀ buf f, f = .srcPort ∨ f = .length ∨ f = .userData →
    s.server.headers buf f = (s.arrived buf).header f
  time : ∀ buf, s.server.headers buf .timestamp = (s.stored buf).getD ((s.arrived buf).header .timestamp)
  data : ∀ buf, s.data buf = (s.arrived buf).data
  busy : ∀ port buf b, s.transmitting port = some (buf, b) → portOf buf ≠ port ∧ c.forwards = true ∧
    s.server.headers buf .forwarding ≠ 0 ∧ s.server.headers buf .stage = 1
  todo : ∀ d ∈ s.sending, ∃ done, outputs d.cmd ((s.arrived d.buf).header .length) = done ++ d.todo

section items
variable {s : State} {buf : Int} {cmd : Cmd} {length : Int}

theorem outputsFields {item : Item} (member : item ∈ outputs cmd length) :
    (item = .field .srcPort ∨ item = .field .userData) ∨ (∃ x, item = .int x) ∨ (∃ x, item = .char x) ∨
      (∃ reversed i, item = .word reversed i) ∨ item = .timestamp := by
  unfold outputs at member
  split at member
  all_goals
    simp only [List.mem_append, List.mem_cons, List.mem_map, List.not_mem_nil, or_false] at member
    grind

variable {c : Config} {portOf : Int → Bool}

theorem itemTokens (h : Inv c portOf s) {item : Item} (member : item ∈ outputs cmd length)
    (timely : item = .timestamp → ∀ time, s.stored buf = some time →
      BitVec.ofInt 32 time = BitVec.ofInt 32 ((s.arrived buf).header .timestamp)) :
    item.tokens (packet s buf) = item.tokens (s.arrived buf) := by
  rcases outputsFields member with (rfl | rfl) | ⟨x, rfl⟩ | ⟨x, rfl⟩ | ⟨reversed, i, rfl⟩ | rfl
  · simp only [Item.tokens, packet, h.fields buf .srcPort (.inl rfl)]
  · simp only [Item.tokens, packet, h.fields buf .userData (.inr (.inr rfl))]
  · rfl
  · rfl
  · simp only [Item.tokens, packet, h.data]
  · simp only [Item.tokens, packet, h.time]
    cases stored : s.stored buf with
    | none => rfl
    | some time => rw [Option.getD_some, timely rfl time stored]

theorem outIntInjective {x y : BitVec 32} (same : outInt x = outInt y) : x = y := by
  have one := readsInt x []
  rw [same, readsInt y []] at one
  exact (congrArg Prod.fst (Option.some.inj one)).symm

theorem replySent {p : Pool} {q : List Pkt} {r : Ring} {vr vw : Nat} {k : Pkt} (h : Rep p q r vr vw) (member : k ∈ q)
    (held : ((k.header .length + 3) / 4).toNat ≤ k.data.length) (cmd : Cmd) :
    macRxSendFrame1 p k.buf cmd = reply cmd ⟨k.header, k.data⟩ := by
  have header := (repIntact h member).1
  have stored : miiPacketGetLength p k.buf = k.header .length := header .length
  have words : ∀ (order : BitVec 32 → BitVec 32) (n : Nat), n ≤ k.data.length →
      sendData p order n (miiPacketGetDataPtr k.buf) =
        (List.range n).flatMap (fun i => outInt (order (BitVec.ofInt 32 ((k.data[i]?).getD 0)))) := by
    intro order n fits
    rw [sendDataQueued h member order fits, List.flatMap_map]
    have same : k.data.take n = (List.range n).map (fun i => (k.data[i]?).getD 0) := by
      apply List.ext_getElem
      · simp; omega
      · intro i a b
        have inside : i < k.data.length := by
          rw [List.length_take] at a
          omega
        simp [List.getElem?_eq_getElem inside]
    rw [same, List.flatMap_map]
  unfold macRxSendFrame1 reply outputs
  simp only [stored, field, header]
  split
  · rw [words byterev _ held]
    simp [Item.tokens, List.flatMap_map]
  · rw [words id _ (by split <;> omega)]
    simp [Item.tokens, List.flatMap_map]

end items

section steps
variable {c : Config} {portOf : Int → Bool} {s t : State} {e : Event}

theorem serverKeeps (h : Inv c portOf s) {server : RxServer.State} (inv : RxServer.Inv c server)
    (headers : ∀ b f, f ≠ .tcount → server.headers b f = s.server.headers b f)
    {sending : Option Sending} (todo : ∀ d ∈ sending, ∃ done, outputs d.cmd ((s.arrived d.buf).header .length) = done ++ d.todo)
    (delivered : List Delivery) :
    Inv c portOf { s with server := server, sending := sending, delivered := delivered } := by
  refine ⟨inv, fun buf f which => ?_, fun buf => ?_, h.data, fun port buf b here => ?_, todo⟩
  · exact (headers buf f (by rintro rfl; simp at which)).trans (h.fields buf f which)
  · exact (headers buf _ (by simp)).trans (h.time buf)
  · rw [headers buf _ (by simp), headers buf _ (by simp)]
    exact h.busy port buf b here

theorem stepCases (taken : step c portOf s e = some t) : Taken c portOf s e t := by
  cases e with
  | process buf k =>
    simp only [step] at taken
    split at taken
    case isFalse => cases taken
    rename_i idle
    obtain ⟨server, moved, rfl⟩ := Option.map_eq_some_iff.mp taken
    exact .process (Option.isNone_iff_eq_none.mp idle) moved
  | request i cmd =>
    simp only [step] at taken
    split at taken
    case isFalse => cases taken
    split at taken
    · cases taken
      exact .reply i cmd _
    · obtain ⟨server, moved, rfl⟩ := Option.map_eq_some_iff.mp taken
      exact .serve (fun h => RxServer.stepKeeps h moved) (fun b f other => requestHeaders moved b other)
  | send =>
    simp only [step] at taken
    split at taken
    case h_2 => cases taken
    rename_i sending
    cases taken
    exact .send sending
  | finish =>
    simp only [step] at taken
    split at taken
    case h_2 => cases taken
    rename_i sending
    obtain ⟨server, moved, rfl⟩ := Option.map_eq_some_iff.mp taken
    exact .finish sending moved
  | command i k =>
    simp only [step] at taken
    split at taken
    case isFalse => cases taken
    obtain ⟨server, moved, rfl⟩ := Option.map_eq_some_iff.mp taken
    exact .serve (fun h => RxServer.stepKeeps h moved) (fun b f _ => by rw [quietHeaders (.inl ⟨i, k, rfl⟩) moved])
  | statusChange =>
    simp only [step] at taken
    split at taken
    case isFalse => cases taken
    obtain ⟨server, moved, rfl⟩ := Option.map_eq_some_iff.mp taken
    exact .serve (fun h => RxServer.stepKeeps h moved) (fun b f _ => by rw [quietHeaders (.inr rfl) moved])
  | choose port buf =>
    simp only [step] at taken
    split at taken
    case isFalse => cases taken
    rename_i guard
    obtain ⟨-, apart, on, -, waits, stage⟩ := guard
    cases taken
    exact .choose apart on waits stage
  | stamp port time =>
    simp only [step] at taken
    split at taken
    case h_2 => cases taken
    rename_i here
    cases taken
    exact .stamp time here
  | transmitted port =>
    simp only [step] at taken
    split at taken
    case h_2 => cases taken
    rename_i here
    obtain ⟨server, moved, rfl⟩ := Option.map_eq_some_iff.mp taken
    exact .transmitted here moved

theorem stampInv (h : Inv c portOf s) {port : Bool} {buf : Int} (time : Int) (here : s.transmitting port = some (buf, false)) :
    Inv c portOf
      { s with server := { s.server with headers := RxServer.setHeader s.server.headers .timestamp buf time }
               transmitting := setPort s.transmitting port (some (buf, true))
               stored := fun b => if b = buf then some time else s.stored b } := by
  have header : ∀ b f, f ≠ .timestamp →
      RxServer.setHeader s.server.headers .timestamp buf time b f = s.server.headers b f := by
    intro b f other
    simp [RxServer.setHeader, other]
  refine ⟨stampKeeps h.server buf time, fun b f which => ?_, fun b => ?_, h.data, fun p b stored at_ => ?_, h.todo⟩
  · exact (header b f (by rintro rfl; simp at which)).trans (h.fields b f which)
  · by_cases same : b = buf
    · simp [RxServer.setHeader, same]
    · simpa [RxServer.setHeader, same] using h.time b
  · have busy : ∃ stored, s.transmitting p = some (b, stored) := by
      simp only [setPort] at at_
      split at at_
      · rename_i same
        cases at_
        exact ⟨false, by rw [same]; exact here⟩
      · exact ⟨stored, at_⟩
    obtain ⟨stored, busy⟩ := busy
    dsimp only
    rw [header b _ (by simp), header b _ (by simp)]
    exact h.busy p b stored busy

theorem transmittedInv (h : Inv c portOf s) {port : Bool} {buf : Int} {server : RxServer.State}
    (here : s.transmitting port = some (buf, true))
    (moved : RxServer.step c s.server (.forward buf (s.server.headers buf .timestamp)) = some server) :
    Inv c portOf { s with server := server, transmitting := setPort s.transmitting port none } := by
  obtain ⟨apart, on, waits, -⟩ := h.busy port buf true here
  have stamp := (pendingLive h.server on waits).2
  have headers := fun b f => forwardHeaders moved stamp b (f := f)
  refine ⟨RxServer.stepKeeps h.server moved, fun b f which => ?_, fun b => ?_, h.data, fun p b stored at_ => ?_, h.todo⟩
  · rw [headers b f (by rintro rfl; simp at which) (by rintro rfl; simp at which), if_neg (by rintro ⟨-, rfl⟩; simp at which)]
    exact h.fields b f which
  · rw [headers b _ (by simp) (by simp)]
    refine Eq.trans ?_ (h.time b)
    split
    · rename_i same; rw [same.1]
    · rfl
  · simp only [setPort] at at_
    split at at_
    · cases at_
    · rename_i different
      have busy := h.busy p b stored at_
      -- the packet is of one port, and the other port alone transmits it
      have other : b ≠ buf := by
        rintro rfl
        have first := busy.1
        revert different apart first
        cases p <;> cases port <;> cases portOf b <;> simp
      dsimp only
      rw [forwardOthers moved stamp b other]
      exact busy

theorem processInv (h : Inv c portOf s) {buf : Int} {k : Packet} {server : RxServer.State} (idle : s.sending = none)
    (moved : RxServer.step c s.server (.process buf k.header) = some server) :
    Inv c portOf
      { s with server := server, data := fun b => if b = buf then k.data else s.data b
               arrived := fun b => if b = buf then k else s.arrived b
               stored := fun b => if b = buf then none else s.stored b } := by
  have headers := fun b f => processHeaders moved b (f := f)
  obtain ⟨fresh, others⟩ := processOthers moved
  refine ⟨RxServer.stepKeeps h.server moved, fun b f which => ?_, fun b => ?_, fun b => ?_, fun port b here at_ => ?_, ?_⟩
  · rw [headers b f (by rintro rfl; simp at which) (by rintro rfl; simp at which)]
    dsimp only
    split
    · rfl
    · exact h.fields b f which
  · rw [headers b _ (by simp) (by simp)]
    dsimp only
    split
    · rfl
    · exact h.time b
  · dsimp only
    split
    · rfl
    · exact h.data b
  · obtain ⟨apart, on, waits, stage⟩ := h.busy port b here at_
    have live := (pendingLive h.server on waits).1
    have other : b ≠ buf := by
      rintro rfl
      omega
    rw [others b other]
    exact ⟨apart, on, waits, stage⟩
  · rw [idle]
    intro d member
    cases member

theorem stepKeeps (h : Inv c portOf s) (taken : step c portOf s e = some t) : Inv c portOf t := by
  cases stepCases taken with
  | process idle moved => exact processInv h idle moved
  | reply i cmd buf =>
    refine { h with todo := fun d member => ?_ }
    cases member
    exact ⟨[], by rw [h.fields _ .length (.inr (.inl rfl))]; rfl⟩
  | serve inv headers => exact serverKeeps h (inv h.server) headers h.todo _
  | @send _ _ _ item _ _ sending =>
    refine { h with todo := fun d member => ?_ }
    cases member
    obtain ⟨done, split⟩ := h.todo _ sending
    exact ⟨done ++ [item], by rw [List.append_assoc]; exact split⟩
  | finish sending moved =>
    exact serverKeeps h (RxServer.stepKeeps h.server moved) (fun b f other => requestHeaders moved b other)
      (fun d member => by cases member) _
  | choose apart on waits stage =>
    refine { h with busy := fun p b stored here => ?_ }
    simp only [setPort] at here
    split at here
    · rename_i same
      cases here
      exact ⟨same ▸ apart, on, waits, stage⟩
    · exact h.busy p b stored here
  | stamp time here => exact stampInv h time here
  | transmitted here moved => exact transmittedInv h here moved

theorem timelyIff {link : Nat} {buf : Int} {cmd : Cmd} {item : Item} {todo : List Item} {sent : List Token}
    (sending : s.sending = some ⟨link, buf, cmd, item :: todo, sent⟩) :
    Timely s .send ↔ (item = .timestamp → ∀ time, s.stored buf = some time →
      BitVec.ofInt 32 time = BitVec.ofInt 32 ((s.arrived buf).header .timestamp)) := by
  simp only [Timely, sending]
  cases item with
  | timestamp => cases stored : s.stored buf <;> simp [stored]
  | _ => simp

theorem sendUndisturbed (h : Inv c portOf s) (good : Undisturbed s) (taken : step c portOf s .send = some t) :
    Undisturbed t ↔ Timely s .send := by
  simp only [step] at taken
  split at taken
  case h_2 => cases taken
  rename_i link buf cmd item todo sent sending
  cases taken
  rw [timelyIff sending]
  obtain ⟨done, split⟩ := h.todo _ sending
  dsimp only at split
  have before := good.sending _ sending
  simp only [List.flatMap_cons, ← List.append_assoc] at before
  constructor
  · rintro kept rfl time stored
    have after := kept.sending _ rfl
    dsimp only at after
    have same := List.append_cancel_left (List.append_cancel_right (after.trans before.symm))
    simp only [Item.tokens, packet, h.time, stored, Option.getD_some] at same
    exact (BitVec.add_left_inj _).mp (outIntInjective same)
  · intro timely
    refine ⟨good.delivered, fun d member => ?_⟩
    cases member
    dsimp only
    rw [itemTokens h (by rw [split]; simp) timely]
    exact before

theorem stepUndisturbed (h : Inv c portOf s) (good : Undisturbed s) (timely : Timely s e)
    (taken : step c portOf s e = some t) : Undisturbed t := by
  cases stepCases taken with
  | process idle moved =>
    refine ⟨good.delivered, fun d member => ?_⟩
    rw [idle] at member
    cases member
  | reply i cmd buf =>
    refine ⟨good.delivered, fun d member => ?_⟩
    cases member
    dsimp only
    rw [reply, h.fields _ .length (.inr (.inl rfl)), List.nil_append]
  | send sending => exact (sendUndisturbed h good taken).mpr timely
  | finish sending moved =>
    refine ⟨fun d member => ?_, fun d member => by cases member⟩
    rcases List.mem_append.mp member with old | new
    · exact good.delivered d old
    · rw [List.mem_singleton.mp new]
      have whole := good.sending _ sending
      dsimp only at whole ⊢
      rwa [List.flatMap_nil, List.append_nil] at whole
  | serve | choose | stamp | transmitted => exact ⟨good.delivered, good.sending⟩

end steps

theorem invInitial (c : Config) (portOf : Int → Bool) (links : Nat) : Inv c portOf (initial c links) :=
  ⟨RxServer.invInitial c links, fun _ _ _ => rfl, fun _ => rfl, fun _ => rfl, (fun _ _ _ here => by cases here),
    (fun _ member => by cases member)⟩

/-- The replies to the clients are those of packets that nobody else has, exactly when every time is
sent before the other port has stored its own in the packet. -/
theorem undisturbedIff (c : Config) (portOf : Int → Bool) (links : Nat) (es : List Event) :
    Always (step c portOf) Undisturbed (initial c links) es ↔ Along (step c portOf) Timely (initial c links) es := by
  refine alwaysExact (I := fun s => Inv c portOf s ∧ Undisturbed s) ?_ (fun _ h => h.2) ?_ ⟨invInitial c portOf links, ?_⟩ es
  · exact fun s e t h timely taken => ⟨stepKeeps h.1 taken, stepUndisturbed h.1 h.2 timely taken⟩
  · intro s e t h taken late good
    cases e with
    | send => exact late ((sendUndisturbed h.1 h.2 taken).mp good)
    | _ => exact late trivial
  · exact ⟨(fun _ member => by cases member), (fun _ member => by cases member)⟩

/- A packet for one client and for the other port, received at 100. -/
def shared : Packet :=
  ⟨fun | .length => 60 | .timestamp => 100 | .filterResult => 0x80000001 | .stage => 1 | _ => 0, List.replicate 15 0⟩

/- It is transmitted at 5000, and then the client asks for it. -/
def forwardedFirst : List Event :=
  [.command 0 (.customFilterSet 1#32), .process 7 shared, .choose true 7, .stamp true 5000, .request 0 .frameReq] ++
    List.replicate 19 .send ++ [.finish]

theorem forwardedFirstDisturbed : ¬ ∀ (c : Config) (portOf : Int → Bool) (links : Nat) (es : List Event),
    Always (step c portOf) Undisturbed (initial c links) es := by
  intro always
  have kept := always ⟨5, by decide, true⟩ (fun _ => false) 1 forwardedFirst
  have ends : (run (step ⟨5, by decide, true⟩ (fun _ => false)) (initial ⟨5, by decide, true⟩ 1) forwardedFirst).any
      (fun s => s.delivered.any (fun d => d.sent ≠ reply d.cmd d.arrived)) = true := by decide +kernel
  obtain ⟨s, reached, disturbed⟩ := (Option.any_eq_true _ _).mp ends
  obtain ⟨d, member, different⟩ := List.any_eq_true.mp disturbed
  exact of_decide_eq_true different ((alwaysReached kept reached).delivered d member)

end ScEthernet.Full.RxForward
