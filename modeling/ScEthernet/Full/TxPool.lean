import ScEthernet.Full.PoolQueue
import ScEthernet.Lib.Runs

/-! One transmit pool under ethernet_tx_server: reservation, the words that
get_packet_from_client stores, the commit with its header updates, and the calls of the
transmitting side between any two of these: mii_free and header stores. A reservation is
abandoned when another port has no room or is the only destination. The queue is history:
the packets mii_commit took and mii_free has not reclaimed, as they were written. -/
namespace ScEthernet.Full.TxPool
open Lib.WordMemory Lib.UnrolledRing Lib.Runs Malloc PoolQueue

inductive Phase where
  | idle
  | reserved (buf : Int)
  | storing (buf dptr : Int) (length : Nat) (frame : List Int)

structure State where
  pool : Pool
  phase : Phase
  queue : List Pkt
  /- Results of the mii_commit calls so far. -/
  results : List Int

inductive Event where
  | reserve
  | length (length : Nat)
  | word (datum : Int)
  | commit (timestampId : Int)
  | abandon
  | set (buf : Int) (f : Field) (x : Int)
  | free (buf : Int)

def initial (mem : Int → Int) (mempool memsize : Nat) : State :=
  ⟨miiInitMempool mem mempool (memsize * 4), .idle, [], []⟩

def wordCount (length : Nat) : Nat := (length + 3) / 4

/- Header of a frame as the server leaves it; the rest is what the ring held. -/
def sentHeader (forwards : Bool) (p : Pool) (buf : Int) (length : Nat) (timestampId : Int) : Field → Int
  | .length => length
  | .timestampId => timestampId
  | .tcount => 0
  | .stage => 1
  | .forwarding => if forwards then 0 else getField .forwarding p buf
  | f => getField f p buf

def commitPacket (forwards : Bool) (p : Pool) (buf dptr : Int) (length : Nat) (timestampId : Int) :
    Pool × Int :=
  let p := miiPacketSetLength p buf length
  let p := miiPacketSetTimestampId p buf timestampId
  let (p, ret) := miiCommit forwards p buf dptr
  let p := miiPacketSetTcount p buf 0
  (miiPacketSetStage p buf 1, ret)

def step (forwards : Bool) (s : State) : Event → Option State
  | .reserve =>
    match s.phase with
    | .idle =>
      let (p, buf) := miiReserveAtLeast s.pool miiMallocFullPacketSizeLp
      some { s with pool := p, phase := if buf = 0 then .idle else .reserved buf }
    | _ => none
  | .length n =>
    match s.phase with
    | .reserved buf =>
      if n ≤ ethernetMaxTxLpPacketSize then
        some { s with phase := .storing buf (miiPacketGetDataPtr buf) n [] }
      else none
    | _ => none
  | .word datum =>
    match s.phase with
    | .storing buf dptr n frame =>
      if frame.length < wordCount n then
        let p := { s.pool with mem := store s.pool.mem dptr datum }
        some { s with pool := p, phase := .storing buf (nextDataPtr p dptr) n (frame ++ [datum]) }
      else none
    | _ => none
  | .commit timestampId =>
    match s.phase with
    | .storing buf dptr n frame =>
      if frame.length = wordCount n then
        let (p, ret) := commitPacket forwards s.pool buf dptr n timestampId
        let k : Pkt := ⟨buf, sentHeader forwards s.pool buf n timestampId, frame, false⟩
        some ⟨p, .idle, if ret = 0 then s.queue else s.queue ++ [k], s.results ++ [ret]⟩
      else none
    | _ => none
  | .abandon => some { s with phase := .idle }
  | .set buf f x =>
    if ∃ k ∈ s.queue, k.buf = buf ∧ k.freed = false then
      some { s with pool := setField f s.pool buf x, queue := onBuf buf (setHeader f x) s.queue }
    else none
  | .free buf =>
    if ∃ k ∈ s.queue, k.buf = buf ∧ k.freed = false then
      (miiFree s.pool buf).map (fun p => { s with pool := p, queue := free buf s.queue })
    else none

structure Sound (s : State) : Prop where
  accepted : ∀ ret ∈ s.results, ret = 1
  nonempty : s.queue ≠ [] → s.pool.wrptr ≠ s.pool.rdptr
  chain : queued s.pool = s.queue.map Pkt.buf
  intact : ∀ k ∈ s.queue, Intact s.pool k

/- At a commit the frame with its 48 header bytes leaves at least a word of the ring free. -/
def Spare (s : State) : Event → Prop
  | .commit _ =>
    match s.phase with
    | .storing _ _ n _ => miiPacketHeaderSize + 8 + 4 * wordCount n < spaceLeft s.pool
    | _ => True
  | _ => True

/-! What a reservation guarantees until the commit. `va` is the read pointer that
mii_reserve_at_least saw; the pointer may have moved on since. -/
structure Reserved (p : Pool) (r : Ring) (vr vw va : Nat) (buf : Int) : Prop where
  buf : buf = p.wrptr + 2
  info : p.mem (r.place (vw + 1)) = p.info
  seen : va ≤ vr
  seenRoom : r.place va + 22 ≤ r.limit
  enough : vw + 392 ≤ va + r.size
  margin : r.place va = r.base → vw + 414 ≤ va + r.size

def PhaseInv (s : State) (r : Ring) (vr vw : Nat) : Prop :=
  match s.phase with
  | .idle => True
  | .reserved buf => ∃ va, Reserved s.pool r vr vw va buf
  | .storing buf dptr n frame =>
    ∃ va, Reserved s.pool r vr vw va buf ∧ n ≤ 1518 ∧ frame.length ≤ wordCount n ∧
      dptr = r.place (vw + 12 + frame.length) ∧
      ∀ i (h : i < frame.length), s.pool.mem (r.place (vw + 12 + i)) = frame[i]

structure Ringed (s : State) (r : Ring) (vr vw : Nat) : Prop where
  rep : Rep s.pool s.queue r vr vw
  settled : Settled s.queue
  phase : PhaseInv s r vr vw
  results : ∀ ret ∈ s.results, ret = 1

structure Tiny (s : State) : Prop where
  phase : s.phase = .idle
  queue : s.queue = []
  results : s.results = []
  equal : s.pool.rdptr = s.pool.wrptr
  small : 4 * (s.pool.stop - s.pool.start) < 1566

def Inv (s : State) : Prop := Tiny s ∨ ∃ r vr vw, Ringed s r vr vw

section reservation
variable {p : Pool} {q : List Pkt} {r : Ring} {vr vw va : Nat} {buf : Int}

theorem reserveRep (h : Rep p q r vr vw) (ok : (miiReserveAtLeast p miiMallocFullPacketSizeLp).2 ≠ 0) :
    Rep (miiReserveAtLeast p miiMallocFullPacketSizeLp).1 q r vr vw ∧
    Reserved (miiReserveAtLeast p miiMallocFullPacketSizeLp).1 r vr vw vr
      (miiReserveAtLeast p miiMallocFullPacketSizeLp).2 := by
  have space := spaceLeftRep h
  have le := repLe h
  have next := repWrptr h (k := 1) (by omega)
  have large : ¬ spaceLeft p < spaceWanted p miiMallocFullPacketSizeLp := by
    intro small
    simp [miiReserveAtLeast, small] at ok
  have atBase : p.rdptr = p.start ↔ r.place vr = r.base := by rw [h.rdptr, h.start]
  have wanted : (if r.place vr = r.base then (1654 : Int) else 1566) ≤ 4 * (vr + r.size - vw) := by
    have same : spaceWanted p miiMallocFullPacketSizeLp =
        if r.place vr = r.base then (1654 : Int) else 1566 := by
      simp only [spaceWanted, atBase]
      rfl
    rw [space, same] at large
    omega
  have enough : vw + 392 ≤ vr + r.size := by split at wanted <;> omega
  rw [miiReserveAtLeast, if_neg large]
  rw [show p.wrptr + 1 = r.place (vw + 1) by rw [next]; rfl]
  refine ⟨repStore h (by omega) (by omega) _, rfl, storeSame _ _ _, Nat.le_refl _, repRdRoom h,
    enough, fun base => ?_⟩
  rw [if_pos base] at wanted
  omega

theorem reserveFails (p : Pool) (fails : (miiReserveAtLeast p miiMallocFullPacketSizeLp).2 = 0)
    (positive : 0 < p.wrptr) : (miiReserveAtLeast p miiMallocFullPacketSizeLp).1 = p := by
  unfold miiReserveAtLeast at fails ⊢
  by_cases small : spaceLeft p < spaceWanted p miiMallocFullPacketSizeLp
  · rw [if_pos small]
  · rw [if_neg small] at fails
    simp only [mallocHdrSize] at fails
    omega

theorem reservedStore (h : Rep p q r vr vw) (res : Reserved p r vr vw va buf) {x : Nat} {y : Int}
    (lo : vw + 2 ≤ x) (hi : x < vr + r.size) :
    Reserved { p with mem := store p.mem (r.place x) y } r vr vw va buf := by
  have ne : r.place (vw + 1) ≠ r.place x :=
    r.placeNe (a := vr) ⟨by have := repLe h; omega, by omega⟩ ⟨by have := repLe h; omega, hi⟩ (by omega)
  exact { res with info := (storeOther ne).trans res.info }

theorem reservedNotStuck (h : Rep p q r vr vw) (res : Reserved p r vr vw va buf) {D : Nat}
    (lo : vw < D) (hi : D ≤ vw + 392) (near : r.limit < r.place D + 22) : p.rdptr ≠ p.start := by
  rw [h.rdptr, h.start]
  intro base
  have le := repLe h
  have seen := res.seen
  have enough := res.enough
  have total := r.placeToEnd D
  have lap := r.placeLap D
  have window : D + r.toEnd D < vr + r.size → False := by
    intro inside
    refine r.placeNe (a := vr) ⟨Nat.le_refl _, by omega⟩ ⟨by omega, inside⟩ (by omega) ?_
    rw [lap, base]
  by_cases moved : va = vr
  · subst moved
    have margin := res.margin base
    exact window (by omega)
  · have early : r.limit < r.place va + 22 := by
      -- the read pointer passed the start after `va`, so `va` lies in the last words of its lap
      have up := r.placeLap va
      have whole := r.placeToEnd va
      have ends : va + r.toEnd va ≤ vr := by
        by_contra short
        have shift := r.placeAdd (v := va) (k := vr - va) (by omega)
        rw [show va + (vr - va) = vr by omega, base] at shift
        have := r.placeLower va
        omega
      by_contra far
      exact window (by omega)
    have := res.seenRoom
    omega

end reservation

section commit
variable {p : Pool} {q : List Pkt} {r : Ring} {vr vw va : Nat} {buf : Int} (forwards : Bool)

theorem reservedFrame {p' : Pool} {vr' : Nat} (res : Reserved p r vr vw va buf)
    (le : vr ≤ vr') (wrptr : p'.wrptr = p.wrptr) (info : p'.info = p.info)
    (same : ∀ x, vw ≤ x → x < vr + r.size → p'.mem (r.place x) = p.mem (r.place x)) :
    Reserved p' r vr' vw va buf := by
  have seen := res.seen
  have enough := res.enough
  refine { res with buf := ?_, info := ?_, seen := by omega }
  · rw [wrptr]; exact res.buf
  · rw [same _ (by omega) (by omega), info]; exact res.info

theorem setReserved (h : Rep p q r vr vw) (res : Reserved p r vr vw va buf) (f : Field) (x : Int) :
    Rep (setField f p buf x) q r vr vw ∧ Reserved (setField f p buf x) r vr vw va buf ∧
    ∀ y, vw + 12 ≤ y → y < vr + r.size → (setField f p buf x).mem (r.place y) = p.mem (r.place y) := by
  have bound := offsetBound f
  have le := repLe h
  have place := repWrptr h (k := 2 + f.offset) (by omega)
  have addr : buf + f.offset = r.place (vw + 2 + f.offset) := by
    rw [res.buf, show vw + 2 + f.offset = vw + (2 + f.offset) by omega, place]
    push_cast; omega
  have seen := res.seen
  have enough := res.enough
  rw [setField, addr]
  refine ⟨repStore h (by omega) (by omega) x, reservedStore h res (by omega) (by omega), ?_⟩
  intro y a b
  exact storeOther (r.placeNe (a := vr) ⟨by omega, b⟩ ⟨by omega, by omega⟩ (by omega))

def commitEnd (r : Ring) (D : Nat) : Nat := if r.limit < r.place D + 22 then D + r.toEnd D else D

theorem reservedCommit (h : Rep p q r vr vw) (res : Reserved p r vr vw va buf) {D : Nat}
    (lo : vw < D) (hi : D ≤ vw + 392) :
    miiCommit forwards p buf (r.place D) = commitAt forwards p buf (r.place (commitEnd r D)) := by
  rw [miiCommitEq h, commitEnd]
  split
  · rename_i near
    rw [if_neg (reservedNotStuck h res lo hi near)]
  · rfl

theorem commitEndBounds (h : Rep p q r vr vw) (res : Reserved p r vr vw va buf) {D : Nat}
    (lo : vw < D) (hi : D ≤ vw + 392) :
    D ≤ commitEnd r D ∧ r.place (commitEnd r D) + 22 ≤ r.limit ∧
    (commitEnd r D < vr + r.size ↔ D < vr + r.size) ∧
    (D = vr + r.size → r.place (commitEnd r D) = r.place vr) := by
  have seen := res.seen
  have enough := res.enough
  unfold commitEnd
  split
  · rename_i near
    have free := lapFree h near (by omega) (reservedNotStuck h res lo hi near)
    refine ⟨by omega, lapRoom h D, ⟨fun _ => by omega, fun _ => free⟩, fun exact => ?_⟩
    have room := repRdRoom h
    rw [exact, r.placeSize] at near
    omega
  · exact ⟨Nat.le_refl _, by omega, Iff.rfl, fun exact => by rw [exact, r.placeSize]⟩

theorem commitPacketEq (timestampId : Int) (h : Rep p q r vr vw) (res : Reserved p r vr vw va buf)
    {n D : Nat} (lo : vw < D) (hi : D ≤ vw + 392) :
    commitPacket forwards p buf (r.place D) n timestampId =
      (miiPacketSetStage (miiPacketSetTcount (commitAt forwards (miiPacketSetTimestampId
        (miiPacketSetLength p buf n) buf timestampId) buf (r.place (commitEnd r D))).1 buf 0) buf 1,
        1) := by
  obtain ⟨h1, res1, -⟩ := setReserved h res .length n
  obtain ⟨h2, res2, -⟩ := setReserved h1 res1 .timestampId timestampId
  have commit := reservedCommit forwards h2 res2 lo hi
  unfold commitPacket
  simp only [miiPacketSetLength, miiPacketSetTimestampId]
  rw [commit]
  rfl

theorem commitPacketRep (timestampId : Int) (h : Rep p q r vr vw) (res : Reserved p r vr vw va buf)
    {n : Nat} {frame : List Int} (short : frame.length ≤ 380)
    (words : ∀ i (b : i < frame.length), p.mem (r.place (vw + 12 + i)) = frame[i])
    (spare : vw + 12 + frame.length < vr + r.size) :
    Rep (commitPacket forwards p buf (r.place (vw + 12 + frame.length)) n timestampId).1
      (q ++ [⟨buf, sentHeader forwards p buf n timestampId, frame, false⟩])
      r vr (commitEnd r (vw + 12 + frame.length)) := by
  obtain ⟨h1, res1, same1⟩ := setReserved h res .length n
  obtain ⟨h2, res2, same2⟩ := setReserved h1 res1 .timestampId timestampId
  obtain ⟨le, room, window, -⟩ := commitEndBounds h res (D := vw + 12 + frame.length)
    (by omega) (by omega)
  have rep := commitRep h2 forwards (D := commitEnd r (vw + 12 + frame.length)) le
    (window.mpr spare) room res2.info (fun i b => by
      rw [same2 _ (by omega) (by omega), same1 _ (by omega) (by omega)]; exact words i b)
  rw [commitPacketEq forwards timestampId h res (by omega) (by omega)]
  rw [← res2.buf] at rep
  have rep3 := setFieldLast rep .tcount 0
  have rep4 := setFieldLast rep3 .stage 1
  have header : setHeader .stage 1 (setHeader .tcount 0 (committed (commitAt forwards
      (setField .timestampId (setField .length p buf n) buf timestampId) buf
      (r.place (commitEnd r (vw + 12 + frame.length)))).1 buf frame)) =
      ⟨buf, sentHeader forwards p buf n timestampId, frame, false⟩ := by
    simp only [setHeader, committed, Pkt.mk.injEq, true_and, and_true]
    funext f
    rw [commitAtHeader]
    cases f <;> cases forwards <;> simp [sentHeader]
  rw [header] at rep4
  exact rep4

end commit

section steps
variable {forwards : Bool} {s t : State} {r : Ring} {vr vw : Nat}

theorem commitKeeps (h : Ringed s r vr vw) {timestampId : Int}
    (spare : Spare s (.commit timestampId)) (taken : step forwards s (.commit timestampId) = some t) :
    ∃ vw', Ringed t r vr vw' := by
  cases phase : s.phase with
  | idle => simp [step, phase] at taken
  | reserved buf => simp [step, phase] at taken
  | storing buf dptr n frame =>
    have inv := h.phase
    simp only [PhaseInv, phase] at inv
    obtain ⟨va, res, small, -, rfl, words⟩ := inv
    simp only [step, phase] at taken
    split at taken
    · rename_i full
      have short : frame.length ≤ 380 := by unfold wordCount at full; omega
      simp only [Spare, phase, spaceLeftRep h.rep, miiPacketHeaderSize, ← full] at spare
      have rep := commitPacketRep forwards timestampId h.rep res (n := n) short words (by omega)
      have ret : (commitPacket forwards s.pool buf (r.place (vw + 12 + frame.length)) n
          timestampId).2 = 1 := by
        rw [commitPacketEq forwards timestampId h.rep res (by omega) (by omega)]
      cases taken
      refine ⟨commitEnd r (vw + 12 + frame.length), ⟨?_, ?_, trivial, ?_⟩⟩
      · simpa [ret] using rep
      · simpa [ret] using settledAppend h.settled (k := ⟨buf, _, frame, false⟩) rfl
      · intro x member
        rcases List.mem_append.mp member with old | new
        · exact h.results x old
        · rw [List.mem_singleton.mp new]; exact ret
    · cases taken

theorem phaseFrame {p' : Pool} {q' : List Pkt} {vr' : Nat} (h : Ringed s r vr vw)
    (rep : Rep p' q' r vr' vw) (settled : Settled q') (le : vr ≤ vr') (info : p'.info = s.pool.info)
    (same : ∀ x, vw ≤ x → x < vr + r.size → p'.mem (r.place x) = s.pool.mem (r.place x)) :
    Ringed { s with pool := p', queue := q' } r vr' vw := by
  have wrptr : p'.wrptr = s.pool.wrptr := by rw [rep.wrptr, h.rep.wrptr]
  refine ⟨rep, settled, ?_, h.results⟩
  have inv := h.phase
  unfold PhaseInv at inv ⊢
  cases phase : s.phase with
  | idle => trivial
  | reserved buf =>
    simp only [phase] at inv ⊢
    obtain ⟨va, res⟩ := inv
    exact ⟨va, reservedFrame res le wrptr info same⟩
  | storing buf dptr n frame =>
    simp only [phase] at inv ⊢
    obtain ⟨va, res, small, short, at_, words⟩ := inv
    refine ⟨va, reservedFrame res le wrptr info same, small, short, at_, fun i b => ?_⟩
    have seen := res.seen
    have enough := res.enough
    have : wordCount n ≤ 380 := by unfold wordCount; omega
    rw [same _ (by omega) (by omega)]
    exact words i b

theorem wordKeeps (h : Ringed s r vr vw) {datum : Int}
    (taken : step forwards s (.word datum) = some t) : Ringed t r vr vw := by
  cases phase : s.phase with
  | idle => simp [step, phase] at taken
  | reserved buf => simp [step, phase] at taken
  | storing buf dptr n frame =>
    have inv := h.phase
    simp only [PhaseInv, phase] at inv
    obtain ⟨va, res, small, -, rfl, words⟩ := inv
    simp only [step, phase] at taken
    split at taken
    · rename_i more
      have seen := res.seen
      have enough := res.enough
      have top : vw + 12 + frame.length < vr + r.size := by unfold wordCount at more; omega
      have rep := repStore h.rep (x := vw + 12 + frame.length) (by omega) top datum
      have res' := reservedStore (y := datum) h.rep res (x := vw + 12 + frame.length) (by omega) top
      cases taken
      refine ⟨rep, h.settled, ⟨va, res', small, by rw [List.length_append, List.length_singleton]; omega, ?_, ?_⟩, h.results⟩
      · rw [nextDataPtrRep rep]; simp [Nat.add_assoc]
      · intro i b
        rw [List.length_append, List.length_singleton] at b
        rw [List.getElem_append]
        split
        · rename_i old
          have ne : r.place (vw + 12 + i) ≠ r.place (vw + 12 + frame.length) :=
            r.placeNe (a := vr) ⟨by have := repLe h.rep; omega, by omega⟩
              ⟨by have := repLe h.rep; omega, top⟩ (by omega)
          exact (storeOther ne).trans (words i old)
        · have last : i = frame.length := by omega
          subst last
          simp
    · cases taken

theorem stepKeeps (h : Ringed s r vr vw) {e : Event} (spare : Spare s e)
    (taken : step forwards s e = some t) : ∃ vr' vw', Ringed t r vr' vw' := by
  cases e with
  | reserve =>
    cases phase : s.phase with
    | idle =>
      simp only [step, phase] at taken
      cases taken
      split
      · rename_i fails
        rw [reserveFails _ fails (by rw [h.rep.wrptr]; exact placePositive h.rep vw)]
        exact ⟨vr, vw, h.rep, h.settled, trivial, h.results⟩
      · rename_i ok
        obtain ⟨rep, res⟩ := reserveRep h.rep ok
        exact ⟨vr, vw, rep, h.settled, ⟨vr, res⟩, h.results⟩
    | reserved buf => simp [step, phase] at taken
    | storing buf dptr n frame => simp [step, phase] at taken
  | length n =>
    cases phase : s.phase with
    | idle => simp [step, phase] at taken
    | reserved buf =>
      have inv := h.phase
      simp only [PhaseInv, phase] at inv
      obtain ⟨va, res⟩ := inv
      simp only [step, phase] at taken
      split at taken
      · rename_i small
        unfold ethernetMaxTxLpPacketSize at small
        cases taken
        have data : miiPacketGetDataPtr buf = r.place (vw + 12) := by
          rw [miiPacketGetDataPtr, res.buf, repWrptr h.rep (k := 12) (by omega), bufDataOffset]
          push_cast; omega
        refine ⟨vr, vw, h.rep, h.settled, ⟨va, res, by omega, Nat.zero_le _, data, ?_⟩, h.results⟩
        intro i b
        simp at b
      · cases taken
    | storing buf dptr n frame => simp [step, phase] at taken
  | word datum => exact ⟨vr, vw, wordKeeps h taken⟩
  | commit timestampId =>
    obtain ⟨vw', h'⟩ := commitKeeps h spare taken
    exact ⟨vr, vw', h'⟩
  | abandon =>
    cases taken
    exact ⟨vr, vw, h.rep, h.settled, trivial, h.results⟩
  | set buf f x =>
    simp only [step] at taken
    split at taken
    · rename_i member
      obtain ⟨k, member, rfl, -⟩ := member
      obtain ⟨rep, same⟩ := setFieldRep h.rep member f x
      cases taken
      exact ⟨vr, vw, phaseFrame h rep (settledOnBuf h.settled _ _ (fun _ => rfl)) (Nat.le_refl _)
        rfl same⟩
    · cases taken
  | free buf =>
    simp only [step] at taken
    split at taken
    · rename_i member
      obtain ⟨k, member, rfl, live⟩ := member
      obtain ⟨p', vr', returns, rep, le, info, same⟩ := miiFreeRep h.rep h.settled member live
      rw [returns] at taken
      cases taken
      exact ⟨vr', vw, phaseFrame h rep (reclaimSettled _) le info same⟩
    · cases taken

theorem tinyKeeps (h : Tiny s) {e : Event} (taken : step forwards s e = some t) : Tiny t := by
  have none : miiReserveAtLeast s.pool miiMallocFullPacketSizeLp = (s.pool, 0) := by
    have small := h.small
    refine if_pos ?_
    simp only [spaceLeft, h.equal, Int.sub_self, Int.mul_zero, Int.zero_add, if_pos (Int.le_refl 0),
      spaceWanted, miiMallocFullPacketSizeLp, miiPacketHeaderSize, ethernetMaxTxLpPacketSize,
      minUsage, mallocHdrSize]
    split <;> omega
  cases e with
  | reserve =>
    simp only [step, h.phase, none] at taken
    cases taken
    exact ⟨rfl, h.queue, h.results, h.equal, h.small⟩
  | abandon => cases taken; exact ⟨rfl, h.queue, h.results, h.equal, h.small⟩
  | length n => simp [step, h.phase] at taken
  | word datum => simp [step, h.phase] at taken
  | commit timestampId => simp [step, h.phase] at taken
  | set buf f x => simp [step, h.queue] at taken
  | free buf => simp [step, h.queue] at taken

theorem exactFitEmpty (h : Ringed s r vr vw) {e : Event} (taken : step forwards s e = some t)
    (exact : ¬ Spare s e) : t.queue ≠ [] ∧ t.pool.wrptr = t.pool.rdptr := by
  cases e with
  | commit timestampId =>
    cases phase : s.phase with
    | storing buf dptr n frame =>
      have inv := h.phase
      simp only [PhaseInv, phase] at inv
      obtain ⟨va, res, small, -, rfl, words⟩ := inv
      simp only [step, phase] at taken
      split at taken
      · rename_i full
        have seen := res.seen
        have enough := res.enough
        simp only [Spare, phase, spaceLeftRep h.rep, miiPacketHeaderSize, ← full] at exact
        have wide : wordCount n ≤ 380 := by unfold wordCount; omega
        have fills : vw + 12 + frame.length = vr + r.size := by omega
        have eq := commitPacketEq forwards timestampId h.rep res (n := n)
          (D := vw + 12 + frame.length) (by omega) (by omega)
        obtain ⟨-, -, -, same⟩ := commitEndBounds h.rep res (D := vw + 12 + frame.length)
          (by omega) (by omega)
        rw [eq] at taken
        cases taken
        refine ⟨by simp, ?_⟩
        have wrptr := same fills
        have rdptr := h.rep.rdptr
        cases forwards <;>
          simpa [miiPacketSetStage, miiPacketSetTcount, miiPacketSetTimestampId, miiPacketSetLength,
            miiPacketSetForwarding, setField, commitAt, rdptr] using wrptr
      · cases taken
    | idle => simp [step, phase] at taken
    | reserved buf => simp [step, phase] at taken
  | _ => exact absurd trivial exact

end steps

theorem invInitial (mem : Int → Int) (mempool memsize : Nat) : Inv (initial mem mempool memsize) := by
  by_cases enough : 28 ≤ memsize
  · refine .inr ⟨_, 0, 0, initRep mem mempool memsize enough, ?_, trivial, ?_⟩
    · intro k head; simp [initial] at head
    · intro ret member; simp [initial] at member
  · left
    refine ⟨rfl, rfl, rfl, rfl, ?_⟩
    simp only [initial, miiInitMempool, mempoolInfoSize]
    omega

theorem invSound {s : State} (h : Inv s) : Sound s := by
  rcases h with tiny | ⟨r, vr, vw, ringed⟩
  · refine ⟨by simp [tiny.results], by simp [tiny.queue], ?_, by simp [tiny.queue]⟩
    simp [tiny.queue, queued, walk, tiny.equal]
  · refine ⟨ringed.results, fun some => ?_, queuedRep ringed.rep, fun k => repIntact ringed.rep⟩
    exact fun same => some ((repEmptyIff ringed.rep).mp same)

/-- In a run from mii_init_mempool the chain is the queue in every state if and only if no
commit fills the ring exactly. -/
theorem queueKeptIff (forwards : Bool) (mem : Int → Int) (mempool memsize : Nat) (es : List Event) :
    Always (step forwards) Sound (initial mem mempool memsize) es ↔
      Along (step forwards) Spare (initial mem mempool memsize) es := by
  refine alwaysExact (I := Inv) ?_ (fun s => invSound) ?_ (invInitial mem mempool memsize) es
  · rintro s e t (tiny | ⟨r, vr, vw, ringed⟩) spare taken
    · exact .inl (tinyKeeps tiny taken)
    · exact .inr (by obtain ⟨vr', vw', h⟩ := stepKeeps ringed spare taken; exact ⟨r, vr', vw', h⟩)
  · rintro s e t (tiny | ⟨r, vr, vw, ringed⟩) taken missed sound
    · refine missed ?_
      cases e <;> simp [Spare, tiny.phase]
    · obtain ⟨some, same⟩ := exactFitEmpty ringed taken missed
      exact sound.nonempty some same

/- Frames of 0, 40 and 1518 bytes through a ring of 414 words, the first one freed: the last
fills the 392 words that are left. -/
def exactFitRun : List Event :=
  [.reserve, .length 0, .commit 0, .free 7, .reserve, .length 40] ++ List.replicate 10 (.word 1) ++
  [.commit 0, .reserve, .length 1518] ++ List.replicate 380 (.word 2) ++ [.commit 0]

theorem exactFitLosesQueue : ¬ ∀ (forwards : Bool) (mem : Int → Int) (mempool memsize : Nat)
    (es : List Event), Always (step forwards) Sound (initial mem mempool memsize) es := by
  intro always
  have ends : (run (step false) (initial (fun _ => 0) 0 420) exactFitRun).any (fun t =>
      decide (t.queue.length = 2 ∧ t.pool.wrptr = t.pool.rdptr)) = true := by decide +kernel
  cases reached : run (step false) (initial (fun _ => 0) 0 420) exactFitRun with
  | none => rw [reached] at ends; cases ends
  | some t =>
    rw [reached] at ends
    obtain ⟨two, same⟩ := of_decide_eq_true ends
    have sound := alwaysReached (always false (fun _ => 0) 0 420 exactFitRun) reached
    exact sound.nonempty (by intro none; simp [none] at two) same

end ScEthernet.Full.TxPool
