import ScEthernet.Lib.CircularFifo

/-! What ethernet_rx_server keeps for a client and does with it: `offer` is the body of the
loop in process_received_frame, `request` the branch of a frame request, `command` the
switch of service_link_cmd, `statusChange` the loop after a change of the link. Each also
says whether it calls notify. -/
namespace ScEthernet.Full.RxLink
open Lib.CircularFifo

structure Link where
  customFilterMask : BitVec 32
  droppedPktCnt : BitVec 32
  notified : Bool
  maxQueueSize : Int
  /- The source's fifo, rdIndex and wrIndex. -/
  fifo : Fifo Int
  wantsStatusUpdates : Int
  /- History: the buffers sent to the client. -/
  sent : List Int

/- `n` is NUM_MII_RX_BUF in this module. -/
def Link.initial (n : Nat) : Link :=
  ⟨0#32, 0#32, false, n, ⟨0, 0, fun _ => 0⟩, 0, []⟩

def queueSize (n : Nat) (l : Link) : Int :=
  let size := (l.fifo.wr : Int) - l.fifo.rd
  if size < 0 then size + n else size

structure Offered where
  link : Link
  taken : Bool
  notify : Bool

def offer (n : Nat) (buf : Int) (result : BitVec 32) (l : Link) : Offered :=
  if l.customFilterMask &&& result = 0#32 then ⟨l, false, false⟩
  else if queueSize n l < l.maxQueueSize ∧ next n l.fifo.wr ≠ l.fifo.rd then
    ⟨{ l with fifo := l.fifo.push n buf, notified := true }, true, !l.notified⟩
  else ⟨{ l with droppedPktCnt := l.droppedPktCnt + 1#32 }, false, false⟩

inductive Reply where
  | status
  | packet (buf : Int)
  | nothing
  deriving DecidableEq

structure Answered where
  link : Link
  reply : Reply
  notify : Bool

def request (n : Nat) (l : Link) : Answered :=
  if l.wantsStatusUpdates = 2 then
    if l.fifo.rd ≠ l.fifo.wr then ⟨{ l with wantsStatusUpdates := 1 }, .status, true⟩
    else ⟨{ l with wantsStatusUpdates := 1, notified := false }, .status, false⟩
  else if l.fifo.rd ≠ l.fifo.wr then
    let buf := l.fifo.cells l.fifo.rd
    let fifo := l.fifo.pop n
    if fifo.rd ≠ fifo.wr then ⟨{ l with fifo := fifo, sent := l.sent ++ [buf] }, .packet buf, true⟩
    else ⟨{ l with fifo := fifo, sent := l.sent ++ [buf], notified := false }, .packet buf, false⟩
  else ⟨l, .nothing, false⟩

inductive Command where
  | customFilterSet (value : BitVec 32)
  | overflowCntReq
  | overflowMiiCntReq
  | dropPacketsSet (drop : Int)
  | queueSizeSet (size : Int)
  | wantsStatusUpdatesSet (wants : Int)
  | tileTimerOffsetReq
  | unrecognised
  deriving DecidableEq

def command (n : Nat) (c : Command) (l : Link) : Link :=
  match c with
  | .customFilterSet value => { l with customFilterMask := value }
  | .dropPacketsSet drop => { l with maxQueueSize := if drop ≠ 0 then 1 else n }
  | .queueSizeSet size => { l with maxQueueSize := size }
  | .wantsStatusUpdatesSet wants => { l with wantsStatusUpdates := wants }
  | _ => l

structure Changed where
  link : Link
  notify : Bool

def statusChange (l : Link) : Changed :=
  if l.wantsStatusUpdates ≠ 0 then ⟨{ l with wantsStatusUpdates := 2 }, !l.notified⟩ else ⟨l, false⟩

/-! A link as a plain list: its bounded queue without the ring. -/

structure Client where
  mask : BitVec 32
  limit : Int
  wants : Int
  waiting : List Int
  sent : List Int
  taken : List Int
  refused : Nat

def Client.initial (n : Nat) : Client := ⟨0#32, n, 0, [], [], [], 0⟩

def Client.room (n : Nat) (c : Client) : Prop := c.waiting.length < n - 1 ∧ c.waiting.length < c.limit
instance (n c) : Decidable (Client.room n c) := by unfold Client.room; infer_instance

def Client.offer (n : Nat) (buf : Int) (result : BitVec 32) (c : Client) : Client :=
  if c.mask &&& result = 0#32 then c
  else if c.room n then { c with waiting := c.waiting ++ [buf], taken := c.taken ++ [buf] }
  else { c with refused := c.refused + 1 }

def Client.request (c : Client) : Client :=
  if c.wants = 2 then { c with wants := 1 }
  else { c with waiting := c.waiting.tail, sent := c.sent ++ c.waiting.take 1 }

def Client.command (n : Nat) (k : Command) (c : Client) : Client :=
  match k with
  | .customFilterSet value => { c with mask := value }
  | .dropPacketsSet drop => { c with limit := if drop ≠ 0 then 1 else n }
  | .queueSizeSet size => { c with limit := size }
  | .wantsStatusUpdatesSet wants => { c with wants := wants }
  | _ => c

def Client.statusChange (c : Client) : Client := if c.wants ≠ 0 then { c with wants := 2 } else c

structure Refines (n : Nat) (l : Link) (c : Client) : Prop where
  valid : l.fifo.Valid n
  mask : l.customFilterMask = c.mask
  limit : l.maxQueueSize = c.limit
  wants : l.wantsStatusUpdates = c.wants
  waiting : l.fifo.contents n = c.waiting
  sent : l.sent = c.sent
  taken : c.sent ++ c.waiting = c.taken
  dropped : l.droppedPktCnt = BitVec.ofNat 32 c.refused

section
variable {n : Nat} {l : Link} {c : Client}

theorem refinesInitial (positive : 0 < n) : Refines n (.initial n) (.initial n) :=
  ⟨⟨positive, positive⟩, rfl, rfl, rfl, by simp [Link.initial, Fifo.contents, Fifo.used, Client.initial],
    rfl, rfl, rfl⟩

theorem queueSizeUsed (h : l.fifo.Valid n) : queueSize n l = l.fifo.used n := by
  have rd := h.rd
  have wr := h.wr
  simp only [queueSize, Fifo.used]
  split_ifs <;> omega

theorem roomIff (h : Refines n l c) :
    queueSize n l < l.maxQueueSize ∧ next n l.fifo.wr ≠ l.fifo.rd ↔ c.room n := by
  have full := fullIff h.valid
  have bound := usedBound h.valid
  have length : c.waiting.length = l.fifo.used n := by rw [← h.waiting, contentsLength]
  rw [queueSizeUsed h.valid, Client.room, length, h.limit]
  constructor
  · rintro ⟨small, notFull⟩
    exact ⟨by have := mt full.mpr notFull; omega, small⟩
  · rintro ⟨notFull, small⟩
    exact ⟨small, fun same => by have := full.mp same; omega⟩

theorem offerRefines (h : Refines n l c) (buf : Int) (result : BitVec 32) :
    Refines n (offer n buf result l).link (c.offer n buf result) ∧
    ((offer n buf result l).taken = true ↔ l.customFilterMask &&& result ≠ 0#32 ∧ c.room n) := by
  unfold offer Client.offer
  by_cases unmatched : l.customFilterMask &&& result = 0#32
  · have same : c.mask &&& result = 0#32 := h.mask ▸ unmatched
    simp only [if_pos unmatched, if_pos same]
    exact ⟨h, by simp [unmatched]⟩
  · have same : c.mask &&& result ≠ 0#32 := h.mask ▸ unmatched
    simp only [if_neg unmatched, if_neg same]
    by_cases room : c.room n
    · have found := (roomIff h).mpr room
      simp only [if_pos found, if_pos room]
      refine ⟨{ h with valid := pushValid h.valid buf, waiting := ?_, taken := ?_ }, ?_⟩
      · exact (pushContents h.valid found.2 buf).trans (by rw [h.waiting])
      · exact (List.append_assoc ..).symm.trans (by rw [h.taken])
      · simp [unmatched, room]
    · have full := mt (roomIff h).mp room
      simp only [if_neg full, if_neg room]
      refine ⟨{ h with dropped := ?_ }, by simp [room]⟩
      simp only [h.dropped, BitVec.ofNat_add]

theorem requestRefines (h : Refines n l c) : Refines n (request n l).link c.request := by
  unfold request Client.request
  by_cases status : l.wantsStatusUpdates = 2
  · have same : c.wants = 2 := h.wants ▸ status
    simp only [if_pos status, if_pos same]
    split <;> exact { h with wants := rfl }
  · have same : c.wants ≠ 2 := h.wants ▸ status
    simp only [if_neg status, if_neg same]
    by_cases some : l.fifo.rd ≠ l.fifo.wr
    · have head := popContents h.valid some
      simp only [if_pos some]
      rw [h.waiting] at head
      have popped : Refines n { l with fifo := l.fifo.pop n, sent := l.sent ++ [l.fifo.cells l.fifo.rd] }
          { c with waiting := c.waiting.tail, sent := c.sent ++ c.waiting.take 1 } := by
        refine { h with valid := popValid h.valid, waiting := ?_, sent := ?_, taken := ?_ }
        · simp [head]
        · simp [head, h.sent]
        · rw [← h.taken, head]; simp
      split <;> exact { popped with }
    · have empty := (emptyIff h.valid).mp (not_not.mp some)
      simp only [if_neg some]
      rw [h.waiting] at empty
      refine { h with waiting := ?_, sent := ?_, taken := ?_ }
      · simp [h.waiting, empty]
      · simp [h.sent, empty]
      · simpa [empty] using h.taken

theorem offerContents (h : l.fifo.Valid n) (buf : Int) (result : BitVec 32) :
    (offer n buf result l).link.fifo.Valid n ∧
    (offer n buf result l).link.fifo.contents n =
      l.fifo.contents n ++ if (offer n buf result l).taken then [buf] else [] := by
  unfold offer
  split
  · exact ⟨h, by simp⟩
  · split
    · rename_i found
      exact ⟨pushValid h buf, by simpa using pushContents h found.2 buf⟩
    · exact ⟨h, by simp⟩

theorem requestContents (h : l.fifo.Valid n) :
    (request n l).link.fifo.Valid n ∧
    l.fifo.contents n = (match (request n l).reply with
      | .packet buf => [buf]
      | _ => []) ++ (request n l).link.fifo.contents n := by
  unfold request
  split
  · split <;> exact ⟨h, rfl⟩
  · split
    · rename_i some
      have head := popContents h some
      dsimp only
      split <;> exact ⟨popValid h, head⟩
    · exact ⟨h, rfl⟩

theorem commandFifo (k : Command) : (command n k l).fifo = l.fifo := by cases k <;> rfl

theorem statusChangeFifo : (statusChange l).link.fifo = l.fifo := by unfold statusChange; split <;> rfl

theorem commandRefines (h : Refines n l c) (k : Command) : Refines n (command n k l) (c.command n k) := by
  cases k with
  | customFilterSet value => exact { h with mask := rfl }
  | dropPacketsSet drop => exact { h with limit := rfl }
  | queueSizeSet size => exact { h with limit := rfl }
  | wantsStatusUpdatesSet wants => exact { h with wants := rfl }
  | _ => exact h

theorem statusChangeRefines (h : Refines n l c) : Refines n (statusChange l).link c.statusChange := by
  unfold statusChange Client.statusChange
  rw [h.wants]
  split
  · exact { h with wants := rfl }
  · exact h

end

end ScEthernet.Full.RxLink
