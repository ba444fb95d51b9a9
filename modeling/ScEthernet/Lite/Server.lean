import ScEthernet.Lite.Stock
import ScEthernet.Lite.AppChannel
import ScEthernet.Lib.Runs

/-! the_server of the light component between the receive store and its client. A step of the
server is a call or an output; the interrupts and the client step between any two of them. -/
namespace ScEthernet.Lite.Server
open Lib.WordMemory Lib.BitOrder Lib.Runs Wire Buffer BankChain StoreInv ReadSide Stock AppChannel

/- Where the_server is. `checking` is behind the select, `confirming`, `status` and `zero` are in its
link check, and the others follow the confirmation of a packet. -/
inductive Pc where
  | select
  | confirming (newStatus : BitVec 32)
  | status (newStatus : BitVec 32)
  | zero (newStatus : BitVec 32)
  | sending (i : Nat)
  | freeing
  | restarting
  | getting
  | checking
  deriving DecidableEq

structure Frame where
  words : List (BitVec 32)
  odd : Fin 4
  tailBits : BitVec 32
  overran : Bool

structure State where
  store : Store
  havePacket : Bool
  a : Int
  nBytes : Int
  phyStatus : BitVec 32
  pc : Pc
  chan : Channel
  /- History: the packets that reached the interrupt routine, and those that were announced. -/
  frames : List Frame
  offers : List (Bool × Pkt)

inductive Event where
  | rx (e : Rx)
  | linkcheck (newStatus : BitVec 32)
  | notified
  | transmit
  | confirm
  | word
  | inuint
  | server

def initial (mem : Int → Int) (address : Int) (numberWords : Nat) : State :=
  ⟨miiBufferInit mem address numberWords, false, 0, 0, 0#32, .select, AppChannel.empty, [], []⟩

def message (length : Nat) (words : List (BitVec 32)) : Message :=
  ⟨BitVec.ofInt 32 ((length : Int) - 4), words.take ((length - 1) / 4)⟩

def statusMessage (newStatus : BitVec 32) : Message := ⟨-1#32, [newStatus, 0#32]⟩

def obtained (t : Store) (o : Obtained) : Option (Bool × Pkt) :=
  ((t.queue t.data.readBank).find? (fun k => k.hdr + 8 = o.a)).map (fun k => (t.data.readBank, k))

def offer (s : State) (t : Store) (o : Obtained) : State :=
  let m := (obtained t o).map (fun x => message x.2.length x.2.words)
  { s with store := t, a := o.a, nBytes := o.nBytes
           chan := announce s.chan (BitVec.ofInt 32 o.nBytes) (m.getD ⟨BitVec.ofInt 32 o.nBytes, []⟩)
           offers := s.offers ++ (obtained t o).toList }

def interrupted (s : Store) : Rx → List Frame
  | .interrupt odd tailBits => [⟨s.words, odd, tailBits, s.data.nextBuffer = -1⟩]
  | _ => []

def step (smi : Bool) (s : State) : Event → Option State
  | .rx e => (receive s.store e).map (fun t => { s with store := t, frames := s.frames ++ interrupted s.store e })
  | .linkcheck newStatus =>
    if s.pc = .select then
      if smi = true ∧ newStatus ≠ s.phyStatus then
        some { s with pc := .confirming newStatus, chan := announce s.chan (-1#32) (statusMessage newStatus) }
      else some { s with pc := .checking }
    else none
  | .notified =>
    if s.pc = .select then (miiNotified s.store).map (fun t => { s with store := t, pc := .checking }) else none
  | .transmit => if s.pc = .select then some { s with pc := .checking } else none
  | .confirm =>
    match s.pc with
    | .select =>
      if s.havePacket then (confirm s.chan).map (fun c => { s with chan := c, pc := .sending 0 }) else none
    | .confirming newStatus => (confirm s.chan).map (fun c => { s with chan := c, pc := .status newStatus })
    | _ => none
  | .word =>
    match s.chan.fifo with
    -- an announcement in the channel is in front of what the server outputs
    | early :: rest => (input { s.chan with fifo := rest } early).map (fun c => { s with chan := c })
    | [] =>
      match s.pc with
      | .status newStatus => (input s.chan newStatus).map (fun c => { s with chan := c, pc := .zero newStatus })
      | .zero newStatus =>
        (input s.chan 0#32).map (fun c => { s with chan := c, pc := .checking, phyStatus := newStatus })
      | .sending i =>
        if (i : Int) < (s.nBytes + 3) / 4 then
          (input s.chan (load s.store.mem (s.a + 4 * i))).map (fun c => { s with chan := c, pc := .sending (i + 1) })
        else none
      | _ => none
  | .inuint => (inuint s.chan).map (fun c => { s with chan := c })
  | .server =>
    match s.pc with
    | .sending i => if (i : Int) < (s.nBytes + 3) / 4 then none else some { s with pc := .freeing }
    | .freeing => (miiFreeInBuffer s.store s.a).map (fun t => { s with store := t, pc := .restarting })
    | .restarting => some { s with store := miiRestartBuffer s.store, pc := .getting }
    | .getting =>
      let (t, o) := miiGetInBuffer s.store
      if o.a = 0 then some { s with store := t, a := o.a, nBytes := o.nBytes, havePacket := false, pc := .checking }
      else some { offer s t o with pc := .checking }
    | .checking =>
      if s.havePacket then some { s with pc := .select }
      else
        let (t, o) := miiGetInBuffer s.store
        if o.a ≠ 0 then some { offer s t o with havePacket := true, pc := .select }
        else some { s with store := t, a := o.a, nBytes := o.nBytes, pc := .select }
    | _ => none

def stepAny (smi : Bool) (s : State) : Event → Option State
  | .rx e => (miiRxd s.store e).map (fun t => { s with store := t, frames := s.frames ++ interrupted s.store e })
  | e => step smi s e

/- No packet is longer than 1518 bytes. -/
def ShortRx (s : State) : Event → Prop
  | .rx e => Short maxFrame s.store e
  | _ => True

instance (s) : ∀ e, Decidable (ShortRx s e)
  | .rx e => inferInstanceAs (Decidable (Short maxFrame s.store e))
  | .linkcheck _ | .notified | .transmit | .confirm | .word | .inuint | .server => inferInstanceAs (Decidable True)

/- The link check sees a change only where no packet is announced. -/
def Settled (smi : Bool) (s : State) : Event → Prop
  | .linkcheck newStatus => smi = true → newStatus ≠ s.phyStatus → s.havePacket = false
  | _ => True

instance (smi s e) : Decidable (Settled smi s e) := by unfold Settled; split <;> infer_instance

/- Every announcement is for what the client then reads, and is confirmed before the next. -/
def Correct (s : State) : Prop := Faithful s.chan ∧ Serial s.chan

def accepted (f : Frame) : Bool := decide (Good f.words f.odd f.tailBits) && !f.overran

def Frame.message (f : Frame) : Message := Server.message (4 * f.words.length + f.odd.val) f.words

def holding (c : Bool) (k : Pkt) : Bool → List Pkt := fun y => if y = c then [k] else []

structure Holds (s : State) (c : Bool) (k : Pkt) (held : Bool → List Pkt) : Prop where
  some : s.havePacket = true
  a : s.a = k.hdr + 8
  nBytes : s.nBytes = (k.length : Int) - 4
  held : held = holding c k

def Waits (s : State) (held : Bool → List Pkt) (phase : Phase) : Prop :=
  s.havePacket = false ∧ held = (fun _ => []) ∧ phase = .quiet ∨
  ∃ c k, Holds s c k held ∧ phase = .offered (message k.length k.words)

def At (s : State) (held : Bool → List Pkt) (phase : Phase) : Prop :=
  match s.pc with
  | .select | .checking => Waits s held phase
  | .sending n => ∃ c k, Holds s c k held ∧ phase = .moving (message k.length k.words) n
  | .freeing => ∃ c k, Holds s c k held ∧ phase = .quiet
  | .restarting | .getting => s.havePacket = true ∧ held = (fun _ => []) ∧ phase = .quiet
  | .confirming newStatus => s.havePacket = false ∧ held = (fun _ => []) ∧ phase = .offered (statusMessage newStatus)
  | .status newStatus => s.havePacket = false ∧ held = (fun _ => []) ∧ phase = .moving (statusMessage newStatus) 0
  | .zero newStatus => s.havePacket = false ∧ held = (fun _ => []) ∧ phase = .moving (statusMessage newStatus) 1

structure Inv (s : State) (held waiting : Bool → List Pkt) (phase : Phase) : Prop where
  stocked : Stocked s.store (decide (s.pc = .restarting)) held waiting
  at_ : At s held phase
  talk : Talk s.chan phase
  offers : ∀ c, s.store.committed c = (s.offers.filter (fun x => x.1 = c)).map Prod.snd ++ waiting c
  frames : ((s.frames.filter accepted).map Frame.message).Perm
    ((s.store.committed false ++ s.store.committed true).map (fun k => message k.length k.words))

section messages
variable {k : Pkt}

theorem wantedLength {length : Nat} (low : 4 ≤ length) (high : length ≤ maxTagged) :
    wanted (BitVec.ofInt 32 ((length : Int) - 4)) = (length - 1) / 4 := by
  obtain ⟨n, rfl⟩ := Nat.exists_eq_add_of_le low
  unfold maxTagged at high
  rw [show ((4 + n : Nat) : Int) - 4 = (n : Int) by omega, BitVec.ofInt_natCast, wanted, if_neg]
  · simp only [BitVec.toNat_ushiftRight, BitVec.toNat_add, BitVec.toNat_ofNat, Nat.shiftRight_eq_div_pow]
    omega
  · intro same
    have := congrArg BitVec.toNat same
    simp at this
    omega

theorem slotFits {mem : Int → Int} (slot : Slot mem k) (intact : Intact mem k) : Fits (message k.length k.words) := by
  have low := slot.low
  obtain ⟨odd, length⟩ := intact.length
  rw [Fits, message, wantedLength low slot.high, List.length_take_of_le (by omega)]

theorem statusFits (newStatus : BitVec 32) : Fits (statusMessage newStatus) := rfl

theorem intactWord {mem : Int → Int} (intact : Intact mem k) {i : Nat} (more : (i : Int) < ((k.length : Int) - 4 + 3) / 4) :
    (message k.length k.words).words[i]? = some (load mem (k.hdr + 8 + 4 * i)) := by
  obtain ⟨odd, length⟩ := intact.length
  have inside : i < k.words.length := by omega
  rw [message, List.getElem?_take_of_lt (by omega), List.getElem?_eq_getElem inside, load, intact.words i inside (by omega),
    BitVec.ofInt_toInt]

end messages

section steps
variable {smi : Bool} {s t : State} {held waiting : Bool → List Pkt} {phase : Phase} {c : Bool} {k : Pkt}

inductive Got (s : Store) (freed : Bool) (waiting : Bool → List Pkt) : Prop where
  | nothing (a : (miiGetInBuffer s).2.a = 0) (none : ∀ c, waiting c = [])
      (next : Stocked (miiGetInBuffer s).1 freed (fun _ => []) waiting)
  | packet (c : Bool) (k : Pkt) (rest : List Pkt) (first : waiting c = k :: rest)
      (turn : c = !s.data.readBank ∨ waiting (!s.data.readBank) = []) (bank : (miiGetInBuffer s).1.data.readBank = c)
      (some : (miiGetInBuffer s).2.a ≠ 0) (a : (miiGetInBuffer s).2.a = k.hdr + 8)
      (nBytes : (miiGetInBuffer s).2.nBytes = (k.length : Int) - 4)
      (which : obtained (miiGetInBuffer s).1 (miiGetInBuffer s).2 = .some (c, k))
      (next : Stocked (miiGetInBuffer s).1 freed (holding c k) (fun y => if y = c then rest else waiting y))

theorem getGot {s : Store} {freed : Bool} (h : Stocked s freed (fun _ => []) waiting) : Got s freed waiting := by
  cases getStocked h with
  | nothing a none next => exact .nothing a none next
  | packet c k rest first turn bank a nBytes next =>
    have queue := next.fifo.split c
    simp only [if_true, List.nil_append] at queue
    have head := (queueWithin next.fifo.inv.banks (c := c) (k := k) (by rw [queue]; exact List.mem_cons_self)).1
    have first' := (bankWithin next.fifo.inv.banks c).1
    refine .packet c k rest first turn bank (by omega) a nBytes ?_ ?_
    · rw [obtained, bank, queue, List.cons_append, List.find?_cons_of_pos (by simpa using a.symm)]
      rfl
    · simp only [List.nil_append] at next
      exact next

theorem offerEq {u : Store} {o : Obtained} (which : obtained u o = some (c, k)) (a : o.a = k.hdr + 8)
    (nBytes : o.nBytes = (k.length : Int) - 4) :
    offer s u o = { s with
      store := u, a := k.hdr + 8, nBytes := (k.length : Int) - 4
      chan := announce s.chan (message k.length k.words).len (message k.length k.words)
      offers := s.offers ++ [(c, k)] } := by
  rw [offer, which, a, nBytes]
  rfl

structure Same (s t : State) : Prop where
  pc : t.pc = s.pc
  some : t.havePacket = s.havePacket
  a : t.a = s.a
  nBytes : t.nBytes = s.nBytes

theorem holdsSame (holds : Holds s c k held) (some : t.havePacket = s.havePacket) (a : t.a = s.a)
    (nBytes : t.nBytes = s.nBytes) : Holds t c k held :=
  ⟨by rw [some, holds.some], by rw [a, holds.a], by rw [nBytes, holds.nBytes], holds.held⟩

theorem waitsSame (waits : Waits s held phase) (some : t.havePacket = s.havePacket) (a : t.a = s.a)
    (nBytes : t.nBytes = s.nBytes) : Waits t held phase := by
  rcases waits with ⟨none, rest⟩ | ⟨c, k, holds, rest⟩
  · exact .inl ⟨by rw [some, none], rest⟩
  · exact .inr ⟨c, k, holdsSame holds some a nBytes, rest⟩

theorem atSame (at_ : At s held phase) (same : Same s t) : At t held phase := by
  obtain ⟨pc, some, a, nBytes⟩ := same
  unfold At at *
  rw [pc]
  cases here : s.pc with
  | select | checking =>
    simp only [here] at at_
    exact waitsSame at_ some a nBytes
  | sending n | freeing =>
    simp only [here] at at_
    obtain ⟨c, k, holds, rest⟩ := at_
    exact ⟨c, k, holdsSame holds some a nBytes, rest⟩
  | restarting | getting | confirming newStatus | status newStatus | zero newStatus =>
    simp only [here] at at_
    rwa [some]

theorem checkingAt (at_ : At s held phase) (here : s.pc = .select) (pc : t.pc = .checking)
    (some : t.havePacket = s.havePacket) (a : t.a = s.a) (nBytes : t.nBytes = s.nBytes) : At t held phase := by
  simp only [At, here] at at_
  simp only [At, pc]
  exact waitsSame at_ some a nBytes

theorem acceptedCommits {u : Store} {e : Rx} (h : StoreInv.Inv s.store) (taken : receive s.store e = some u) :
    (u.committed = s.store.committed → (interrupted s.store e).filter accepted = []) ∧
    ∀ x k, Commits s.store e x k u →
      ((interrupted s.store e).filter accepted).map Frame.message = [message k.length k.words] := by
  constructor
  · intro same
    cases e with
    | interrupt odd tailBits =>
      simp only [receive, receiveUpTo] at taken
      split at taken
      case isFalse => cases taken
      rename_i more
      rw [interruptCases (h.filling more.1)] at taken
      rw [interrupted, List.filter_eq_nil_iff]
      intro f member good
      rw [List.mem_singleton.mp member] at good
      simp only [accepted, Bool.and_eq_true, decide_eq_true_eq, Bool.not_eq_true', decide_eq_false_iff_not] at good
      rw [if_neg good.2, if_pos good.1] at taken
      cases taken
      obtain ⟨x, driving⟩ := h.driving
      have number : bankNumber (beforeCommit s.store odd tailBits).data s.store.data.packetInLLD = x :=
        drivingNumber h.banks driving
      have committed : (StoreInv.taken s.store odd tailBits).committed = _ := (commitBufferEq number).2.2.2.2.2.2
      have grown := congrFun (committed.symm.trans same) x
      simp [beforeCommit, miiRxLastBits] at grown
    | _ => rfl
  · intro x k commits
    obtain ⟨odd, tailBits, rfl, good, made, -⟩ := commits.event
    have next := commits.next
    simp [interrupted, accepted, good, next, made, appended, Frame.message]

theorem rxInv {e : Rx} (h : Inv s held waiting phase) (taken : step smi s (.rx e) = some t) :
    ∃ waiting', Inv t held waiting' phase ∧ ∀ c, waiting c <+: waiting' c := by
  obtain ⟨u, received, rfl⟩ := Option.map_eq_some_iff.mp taken
  obtain ⟨rejects, commits⟩ := acceptedCommits h.stocked.fifo.inv received
  have same : At { s with store := u, frames := s.frames ++ interrupted s.store e } held phase :=
    atSame h.at_ ⟨rfl, rfl, rfl, rfl⟩
  rcases receiveStocked h.stocked received with ⟨committed, next⟩ | ⟨x, k, here, next⟩
  · refine ⟨waiting, ⟨next, same, h.talk, fun c => ?_, ?_⟩, fun c => List.prefix_refl _⟩
    · rw [committed]
      exact h.offers c
    · rw [List.filter_append, rejects committed, List.append_nil, committed]
      exact h.frames
  · refine ⟨_, ⟨next, same, h.talk, fun c => ?_, ?_⟩, fun c => ?_⟩
    · simp only [here.committed]
      split
      · rw [h.offers, List.append_assoc]
      · exact h.offers c
    · rw [List.filter_append, List.map_append, commits x k here, here.committed]
      refine (h.frames.append_right _).trans ?_
      cases x
      · simp only [if_true, Bool.true_eq_false, if_false, List.map_append, List.map_cons, List.map_nil, List.append_assoc]
        exact List.perm_append_comm.append_left _
      · simp
    · split
      · exact List.prefix_append _ _
      · exact List.prefix_refl _

theorem linkcheckInv {newStatus : BitVec 32} (h : Inv s held waiting phase) (settled : Settled smi s (.linkcheck newStatus))
    (taken : step smi s (.linkcheck newStatus) = some t) : ∃ phase, Inv t held waiting phase := by
  simp only [step] at taken
  split at taken
  case isFalse => cases taken
  rename_i here
  have stocked := h.stocked
  rw [here] at stocked
  split at taken
  · rename_i changed
    cases taken
    have none := settled changed.1 changed.2
    have at_ := h.at_
    simp only [At, here] at at_
    rcases at_ with ⟨-, rfl, rfl⟩ | ⟨c, k, holds, -⟩
    · exact ⟨_, stocked, ⟨none, rfl, rfl⟩, announceTalk h.talk rfl, h.offers, h.frames⟩
    · have := holds.some
      rw [none] at this
      cases this
  · cases taken
    exact ⟨phase, stocked, checkingAt h.at_ here rfl rfl rfl rfl, h.talk, h.offers, h.frames⟩

theorem notifiedInv (h : Inv s held waiting phase) (taken : step smi s .notified = some t) : Inv t held waiting phase := by
  simp only [step] at taken
  split at taken
  case isFalse => cases taken
  rename_i here
  obtain ⟨u, notified, rfl⟩ := Option.map_eq_some_iff.mp taken
  have stocked := h.stocked
  rw [here] at stocked
  have committed := (notifiedReads notified).committed
  exact ⟨notifiedStocked stocked notified, checkingAt h.at_ here rfl rfl rfl rfl, h.talk,
    by rw [committed]; exact h.offers, by rw [committed]; exact h.frames⟩

theorem transmitInv (h : Inv s held waiting phase) (taken : step smi s .transmit = some t) : Inv t held waiting phase := by
  simp only [step] at taken
  split at taken
  case isFalse => cases taken
  rename_i here
  cases taken
  have stocked := h.stocked
  rw [here] at stocked
  exact ⟨stocked, checkingAt h.at_ here rfl rfl rfl rfl, h.talk, h.offers, h.frames⟩

theorem heldFits (h : Stocked s.store false (holding c k) waiting) :
    Fits (message k.length k.words) ∧ Intact s.store.mem k := by
  have member : k ∈ s.store.queue c := by
    rw [h.fifo.split, holding, if_pos rfl]
    exact List.mem_append_left _ List.mem_cons_self
  have intact := h.intact c k member
  exact ⟨slotFits (bankSlot (h.fifo.inv.banks.each c) member).1 intact, intact⟩

theorem confirmInv (h : Inv s held waiting phase) (taken : step smi s .confirm = some t) :
    ∃ m, phase = .offered m ∧ Inv t held waiting (.moving m 0) := by
  have stocked := h.stocked
  have at_ := h.at_
  simp only [step] at taken
  split at taken
  · rename_i here
    split at taken
    case isFalse => cases taken
    rename_i some
    obtain ⟨d, confirmed, rfl⟩ := Option.map_eq_some_iff.mp taken
    rw [here] at stocked
    simp only [At, here] at at_
    rcases at_ with ⟨none, -⟩ | ⟨c, k, holds, rfl⟩
    · rw [none] at some
      cases some
    · obtain ⟨have_, a, nBytes, rfl⟩ := holds
      exact ⟨_, rfl, stocked, ⟨c, k, ⟨have_, a, nBytes, rfl⟩, rfl⟩, confirmTalk h.talk (heldFits stocked).1 confirmed,
        h.offers, h.frames⟩
  · rename_i newStatus here
    obtain ⟨d, confirmed, rfl⟩ := Option.map_eq_some_iff.mp taken
    rw [here] at stocked
    simp only [At, here] at at_
    obtain ⟨none, rfl, rfl⟩ := at_
    exact ⟨_, rfl, stocked, ⟨none, rfl, rfl⟩, confirmTalk h.talk (statusFits newStatus) confirmed, h.offers, h.frames⟩
  · cases taken

theorem inuintInv (h : Inv s held waiting phase) (taken : step smi s .inuint = some t) :
    (∃ m, phase = .offered m ∧ s.chan.client = .idle ∧ t.chan.client = .confirming m.len) ∧ Inv t held waiting phase := by
  obtain ⟨d, read, rfl⟩ := Option.map_eq_some_iff.mp taken
  obtain ⟨m, rfl, idle, client, talk⟩ := inuintTalk h.talk read
  exact ⟨⟨m, rfl, idle, client⟩, h.stocked, atSame h.at_ ⟨rfl, rfl, rfl, rfl⟩, talk, h.offers, h.frames⟩

theorem wordInv (h : Inv s held waiting phase) (taken : step smi s .word = some t) :
    ∃ m n, phase = .moving m n ∧ n < m.words.length ∧
      (Inv t held waiting (.moving m (n + 1)) ∨ Inv t held waiting .quiet ∧ t.pc = .checking) := by
  have stocked := h.stocked
  have at_ := h.at_
  have talk := h.talk
  simp only [step] at taken
  split at taken
  · rename_i early rest queued
    exfalso
    obtain ⟨d, read, -⟩ := Option.map_eq_some_iff.mp taken
    cases phase with
    | quiet => rw [talk.1] at queued; cases queued
    | moving m n => rw [talk.1] at queued; cases queued
    | offered m =>
      obtain ⟨-, -, ⟨-, client⟩ | ⟨empty, -⟩⟩ := talk
      · simp [input, client] at read
      · rw [empty] at queued; cases queued
  split at taken
  · rename_i newStatus here
    obtain ⟨d, read, rfl⟩ := Option.map_eq_some_iff.mp taken
    rw [here] at stocked
    simp only [At, here] at at_
    obtain ⟨none, rfl, rfl⟩ := at_
    exact ⟨_, _, rfl, Nat.zero_lt_two, .inl ⟨stocked, ⟨none, rfl, rfl⟩, inputTalk talk (statusFits newStatus) rfl read, h.offers,
      h.frames⟩⟩
  · rename_i newStatus here
    obtain ⟨d, read, rfl⟩ := Option.map_eq_some_iff.mp taken
    rw [here] at stocked
    simp only [At, here] at at_
    obtain ⟨none, rfl, rfl⟩ := at_
    have ends := movingEnds (inputTalk talk (statusFits newStatus) rfl read) (Nat.le_refl 2)
    exact ⟨_, _, rfl, Nat.one_lt_two, .inr ⟨⟨stocked, .inl ⟨none, rfl, rfl⟩, ends, h.offers, h.frames⟩, rfl⟩⟩
  · rename_i i here
    split at taken
    case isFalse => cases taken
    rename_i more
    obtain ⟨d, read, rfl⟩ := Option.map_eq_some_iff.mp taken
    rw [here] at stocked
    simp only [At, here] at at_
    obtain ⟨c, k, ⟨some, a, nBytes, rfl⟩, rfl⟩ := at_
    obtain ⟨fits, intact⟩ := heldFits stocked
    rw [nBytes] at more
    rw [a] at read
    have next := intactWord intact more
    exact ⟨_, _, rfl, (List.getElem?_eq_some_iff.mp next).1, .inl ⟨stocked, ⟨c, k, ⟨some, a, nBytes, rfl⟩, rfl⟩,
      inputTalk talk fits next read, h.offers, h.frames⟩⟩
  · cases taken

theorem restartCommitted (s : Store) : (miiRestartBuffer s).committed = s.committed := by
  unfold miiRestartBuffer
  split <;> rfl

inductive Serves (s : State) (waiting : Bool → List Pkt) : Prop where
  | nothing (a : (miiGetInBuffer s.store).2.a = 0) (none : ∀ c, waiting c = [])
      (next : ∀ p b, p = .select ∨ p = .checking → b = false →
        Inv { s with store := (miiGetInBuffer s.store).1, a := (miiGetInBuffer s.store).2.a
                     nBytes := (miiGetInBuffer s.store).2.nBytes, havePacket := b, pc := p } (fun _ => []) waiting .quiet)
  | packet (c : Bool) (k : Pkt) (rest : List Pkt) (first : waiting c = k :: rest)
      (turn : c = !s.store.data.readBank ∨ waiting (!s.store.data.readBank) = [])
      (bank : (miiGetInBuffer s.store).1.data.readBank = c) (some : (miiGetInBuffer s.store).2.a ≠ 0)
      (which : obtained (miiGetInBuffer s.store).1 (miiGetInBuffer s.store).2 = .some (c, k))
      (next : ∀ p b, p = .select ∨ p = .checking → b = true →
        Inv { offer s (miiGetInBuffer s.store).1 (miiGetInBuffer s.store).2 with havePacket := b, pc := p }
          (holding c k) (fun y => if y = c then rest else waiting y) (.offered (message k.length k.words)))

theorem getServes (h : Inv s (fun _ => []) waiting .quiet) (kept : s.pc ≠ .restarting) : Serves s waiting := by
  have stocked := h.stocked
  rw [decide_eq_false kept] at stocked
  have committed := (getReads s.store).committed
  have loop : ∀ p : Pc, p = .select ∨ p = .checking → decide (p = .restarting) = false := by
    rintro p (rfl | rfl) <;> rfl
  cases getGot stocked with
  | nothing a none next =>
    refine .nothing a none fun p b here empty => ⟨?_, ?_, h.talk, ?_, ?_⟩
    · simp only [loop p here]
      exact next
    · rcases here with rfl | rfl <;> exact .inl ⟨empty, rfl, rfl⟩
    · simp only [committed]
      exact h.offers
    · simp only [committed]
      exact h.frames
  | packet c k rest first turn bank some a nBytes which next =>
    refine .packet c k rest first turn bank some which fun p b here full => ?_
    rw [offerEq which a nBytes]
    refine ⟨?_, ?_, announceTalk h.talk rfl, fun y => ?_, ?_⟩
    · simp only [loop p here]
      exact next
    · rcases here with rfl | rfl <;> exact .inr ⟨c, k, ⟨full, rfl, rfl, rfl⟩, rfl⟩
    · simp only [committed, List.filter_append, List.map_append]
      rw [h.offers, List.append_assoc]
      congr 1
      by_cases same : y = c
      · simp [same, first]
      · simp [same, Ne.symm same]
    · simp only [committed]
      exact h.frames

theorem serverInv (h : Inv s held waiting phase) (taken : step smi s .server = some t) :
    ∃ held waiting phase, Inv t held waiting phase := by
  have stocked := h.stocked
  have at_ := h.at_
  simp only [step] at taken
  split at taken
  · rename_i i here
    split at taken
    · cases taken
    rename_i last
    cases taken
    rw [here] at stocked
    simp only [At, here] at at_
    obtain ⟨c, k, ⟨some, a, nBytes, rfl⟩, rfl⟩ := at_
    have count : (message k.length k.words).words.length ≤ (k.length - 1) / 4 := List.length_take_le _ _
    rw [nBytes] at last
    exact ⟨_, waiting, _, stocked, ⟨c, k, ⟨some, a, nBytes, rfl⟩, rfl⟩, movingEnds h.talk (by omega), h.offers, h.frames⟩
  · rename_i here
    rw [here] at stocked
    simp only [At, here] at at_
    obtain ⟨c, k, ⟨some, a, nBytes, rfl⟩, rfl⟩ := at_
    obtain ⟨u, freed, next, committed, -⟩ := freeStocked stocked
    rw [a, freed] at taken
    cases taken
    exact ⟨_, waiting, _, next, ⟨some, rfl, rfl⟩, h.talk, by rw [committed]; exact h.offers, by rw [committed]; exact h.frames⟩
  · rename_i here
    cases taken
    rw [here] at stocked
    simp only [At, here] at at_
    obtain ⟨some, rfl, rfl⟩ := at_
    have committed := restartCommitted s.store
    exact ⟨_, waiting, _, restartStocked stocked, ⟨some, rfl, rfl⟩, h.talk, by rw [committed]; exact h.offers,
      by rw [committed]; exact h.frames⟩
  · rename_i here
    simp only [At, here] at at_
    obtain ⟨some, rfl, rfl⟩ := at_
    cases getServes h (by rw [here]; decide) with
    | nothing a none next =>
      rw [if_pos a] at taken
      cases taken
      exact ⟨_, _, _, next _ _ (.inr rfl) rfl⟩
    | packet c k rest first turn bank found which next =>
      rw [if_neg found] at taken
      cases taken
      exact ⟨_, _, _, next _ _ (.inr rfl) some⟩
  · rename_i here
    split at taken
    · cases taken
      rw [here] at stocked
      simp only [At, here] at at_
      exact ⟨held, waiting, phase, stocked, waitsSame at_ rfl rfl rfl, h.talk, h.offers, h.frames⟩
    · rename_i without
      have empty := Bool.eq_false_iff.mpr without
      simp only [At, here] at at_
      rcases at_ with ⟨-, rfl, rfl⟩ | ⟨c, k, holds, -⟩
      · cases getServes h (by rw [here]; decide) with
        | nothing a none next =>
          rw [if_neg (not_not.mpr a)] at taken
          cases taken
          exact ⟨_, _, _, next _ _ (.inl rfl) empty⟩
        | packet c k rest first turn bank found which next =>
          rw [if_pos found] at taken
          cases taken
          exact ⟨_, _, _, next _ _ (.inl rfl) rfl⟩
      · exact absurd holds.some without
  · cases taken

theorem stepInv {e : Event} (h : Inv s held waiting phase) (settled : Settled smi s e) (taken : step smi s e = some t) :
    ∃ held waiting phase, Inv t held waiting phase := by
  cases e with
  | rx e =>
    obtain ⟨waiting', next, -⟩ := rxInv h taken
    exact ⟨_, _, _, next⟩
  | linkcheck newStatus =>
    obtain ⟨phase, next⟩ := linkcheckInv h settled taken
    exact ⟨_, _, _, next⟩
  | notified => exact ⟨_, _, _, notifiedInv h taken⟩
  | transmit => exact ⟨_, _, _, transmitInv h taken⟩
  | confirm =>
    obtain ⟨m, -, next⟩ := confirmInv h taken
    exact ⟨_, _, _, next⟩
  | word =>
    obtain ⟨m, n, -, -, next | ⟨next, -⟩⟩ := wordInv h taken
    · exact ⟨_, _, _, next⟩
    · exact ⟨_, _, _, next⟩
  | inuint => exact ⟨_, _, _, (inuintInv h taken).2⟩
  | server => exact serverInv h taken

/- A link check that is not settled announces the status behind a packet that is not confirmed. -/
theorem unsettledBreaks {e : Event} (h : Inv s held waiting phase) (taken : step smi s e = some t)
    (unsettled : ¬ Settled smi s e) : ¬ Serial t.chan := by
  cases e with
  | linkcheck newStatus =>
    simp only [Settled, Classical.not_imp, Bool.not_eq_false] at unsettled
    obtain ⟨smi, changed, some⟩ := unsettled
    simp only [step] at taken
    split at taken
    case isFalse => cases taken
    rename_i here
    rw [if_pos ⟨smi, changed⟩] at taken
    cases taken
    have at_ := h.at_
    simp only [At, here] at at_
    rcases at_ with ⟨none, -⟩ | ⟨c, k, -, rfl⟩
    · rw [none] at some
      cases some
    · obtain ⟨announced, confirmed, -⟩ := h.talk
      simp only [Serial, announce, announced, confirmed, List.length_append, List.length_singleton]
      omega
  | _ => exact absurd trivial unsettled

end steps

theorem initialInv (mem : Int → Int) {address : Int} {numberWords : Nat} (aligned : address % 4 = 0)
    (positive : 0 < address) (large : 1532 ≤ numberWords) :
    Inv (initial mem address numberWords) (fun _ => []) (fun _ => []) .quiet :=
  ⟨stockedInitial mem aligned positive large, .inl ⟨rfl, rfl, rfl⟩, ⟨rfl, rfl, rfl, rfl⟩, fun _ => rfl, .refl _⟩

theorem stepShort {smi : Bool} {s : State} {e : Event} (short : ShortRx s e) : stepAny smi s e = step smi s e := by
  cases e with
  | rx e => rw [stepAny, step, receive, shortReceived short]
  | _ => rfl

/-- With packets of up to 1518 bytes every announcement is for what the client then reads and is confirmed before
the next, exactly when no link check sees a change while a packet is announced. -/
theorem correctIff (smi : Bool) (mem : Int → Int) (address : Int) (numberWords : Nat) (aligned : address % 4 = 0)
    (positive : 0 < address) (large : 1532 ≤ numberWords) (es : List Event)
    (short : Along (stepAny smi) ShortRx (initial mem address numberWords) es) :
    Always (stepAny smi) Correct (initial mem address numberWords) es ↔
      Along (stepAny smi) (Settled smi) (initial mem address numberWords) es := by
  refine alwaysExactWithin (I := fun s => ∃ held waiting phase, Inv s held waiting phase) (D := ShortRx) ?_ ?_ ?_ ?_ short
  · rintro s e t ⟨held, waiting, phase, h⟩ short settled taken
    exact stepInv h settled (stepShort short ▸ taken)
  · rintro s ⟨held, waiting, phase, h⟩
    exact talkFaithful h.talk
  · rintro s e t ⟨held, waiting, phase, h⟩ short taken unsettled correct
    exact unsettledBreaks h (stepShort short ▸ taken) unsettled correct.2
  · exact ⟨_, _, _, initialInv mem aligned positive large⟩

def goodPacket : List Event :=
  [.rx (.preamble 0), .rx (.word 0#32)] ++ List.replicate 15 (.rx (.word StoreSafety.sealing)) ++ [.rx (.interrupt 0 0#32)]

/- The packet is announced, the link goes up, and only then the client takes the announcement. -/
def linkBetween : List Event := goodPacket ++ [.notified, .server, .linkcheck 1#32, .inuint, .confirm, .word]

theorem linkBetweenMixed : ∃ s, run (stepAny true) (initial (fun _ => 0) 16 6400) linkBetween = some s ∧
    s.chan.announced.map Message.len = [60#32, -1#32] ∧ s.chan.client = .reading 60#32 [-1#32] ∧ ¬ Correct s := by
  have last : (run (stepAny true) (initial (fun _ => 0) 16 6400) linkBetween).map
      (fun s => (s.chan.announced, s.chan.client, s.chan.log)) =
      some ([message 64 (0#32 :: List.replicate 15 StoreSafety.sealing), statusMessage 1#32], .reading 60#32 [-1#32], []) := by
    decide +kernel
  obtain ⟨s, reached, same⟩ := Option.map_eq_some_iff.mp last
  simp only [Prod.mk.injEq] at same
  obtain ⟨announced, client, log⟩ := same
  refine ⟨s, reached, by rw [announced]; rfl, client, fun correct => ?_⟩
  obtain ⟨-, reading⟩ := correct.1
  rw [client, announced, log] at reading
  obtain ⟨m, first, -, got⟩ := reading
  cases first
  revert got
  decide +kernel

/- The link goes up after the client has the packet. -/
def linkAfter : List Event :=
  goodPacket ++ [.notified, .server, .inuint, .confirm] ++ List.replicate 15 .word ++ List.replicate 5 .server ++
    [.linkcheck 1#32, .inuint, .confirm, .word, .word]

theorem linkAfterCorrect : (run (stepAny true) (initial (fun _ => 0) 16 6400) linkAfter).any
      (fun s => s.chan.log.map Message.len = [60#32, -1#32]) = true ∧
    (Always (stepAny true) Correct (initial (fun _ => 0) 16 6400) linkAfter ↔
      Along (stepAny true) (Settled true) (initial (fun _ => 0) 16 6400) linkAfter) :=
  ⟨by decide +kernel, correctIff true (fun _ => 0) 16 6400 (by decide) (by decide) (by decide) linkAfter
    (by decide +kernel)⟩

end ScEthernet.Lite.Server
