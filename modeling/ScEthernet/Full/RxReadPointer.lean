import ScEthernet.Full.RxPins

/-! The read pointer that ethernet_rx_server keeps of its own beside the pool's. The server
looks at the packet there, moves the pointer once the filter has set the packet's stage,
and only then processes it; mii_free is called for processed packets only, in any order.
Header stores of the filter and of the server are steps of the receiver's pool. -/
namespace ScEthernet.Full.RxReadPointer
open Lib.WordMemory Lib.UnrolledRing Lib.Runs Malloc PoolQueue

inductive Phase where
  | idle
  /- mii_get_my_next_buf returned a buffer of stage 1. -/
  | found (buf : Int)
  /- mii_update_my_rdptr has returned. -/
  | moved (buf : Int)
  | trapped
  deriving DecidableEq

structure State where
  rx : RxPins.State
  rdptr : Int
  phase : Phase
  /- History: the buffers passed to process_received_frame. -/
  processed : List Int

inductive Event where
  | receiver (e : RxPins.Event)
  | getNext
  | update
  | process
  | free (buf : Int)

def initial (mem : Int → Int) (mempool memsize : Nat) : State :=
  let rx := RxPins.initial mem mempool memsize
  ⟨rx, miiInitMyRdptr rx.pool, .idle, []⟩

def processedPackets (s : State) : List Pkt :=
  s.rx.queue.take (s.processed.length - (s.rx.sent.length - s.rx.queue.length))

def step (forwards : Bool) (s : State) : Event → Option State
  | .receiver (.free _) => none
  | .receiver e => (RxPins.step forwards s.rx e).map (fun rx => { s with rx := rx })
  | .getNext =>
    if s.phase = .idle then
      let buf := miiGetMyNextBuf s.rx.pool s.rdptr
      if buf ≠ 0 ∧ miiPacketGetStage s.rx.pool buf = 1 then some { s with phase := .found buf }
      else some s
    else none
  | .update =>
    match s.phase with
    | .found buf =>
      match miiUpdateMyRdptr s.rx.pool s.rdptr with
      | some next => some { s with rdptr := next, phase := .moved buf }
      | none => some { s with phase := .trapped }
    | _ => none
  | .process =>
    match s.phase with
    | .moved buf => some { s with phase := .idle, processed := s.processed ++ [buf] }
    | _ => none
  | .free buf =>
    if ∃ k ∈ processedPackets s, k.buf = buf ∧ k.freed = false then
      (RxPins.step forwards s.rx (.free buf)).map (fun rx => { s with rx := rx })
    else none

structure Sound (s : State) : Prop where
  valid : s.rdptr = s.rx.pool.wrptr ∨ ∃ k ∈ s.rx.queue, k.freed = false ∧ s.rdptr = k.buf - 2
  untrapped : s.phase ≠ .trapped
  order : s.processed <+: s.rx.sent
  /- The next buffer is the next one sent; with none left it is 0. -/
  next : s.phase = .idle →
    miiGetMyNextBuf s.rx.pool s.rdptr = s.rx.sent[s.processed.length]?.getD 0 ∧
    (miiGetMyNextBuf s.rx.pool s.rdptr = 0 ↔ s.processed = s.rx.sent)

/-! Invariant: the queue is the processed packets and, behind them, the others, none of
which is freed; the pointer stands at the first of these, or behind it once it has moved. -/

def startOf (p : Pool) : List Pkt → Int
  | [] => p.wrptr
  | k :: _ => k.buf - 2

def PhaseInv (s : State) (rest : List Pkt) : Prop :=
  match s.phase with
  | .idle => s.rdptr = startOf s.rx.pool rest
  | .found buf => s.rdptr = startOf s.rx.pool rest ∧ ∃ k ks, rest = k :: ks ∧ k.buf = buf
  | .moved buf => ∃ k ks, rest = k :: ks ∧ k.buf = buf ∧ s.rdptr = startOf s.rx.pool ks
  | .trapped => False

structure Split (s : State) (old : List Int) (pre rest : List Pkt) : Prop where
  queue : s.rx.queue = pre ++ rest
  sent : s.rx.sent = old ++ s.rx.queue.map Pkt.buf
  processed : s.processed = old ++ pre.map Pkt.buf
  live : ∀ k ∈ rest, k.freed = false
  phase : PhaseInv s rest

def Inv (s : State) : Prop :=
  (∃ r vr vw, RxPins.Ringed s.rx r vr vw) ∧ ∃ old pre rest, Split s old pre rest

section
variable {forwards : Bool} {s t : State} {old : List Int} {pre rest : List Pkt}
variable {r : Ring} {vr vw : Nat}

theorem splitProcessed (h : Split s old pre rest) : processedPackets s = pre := by
  have sent := congrArg List.length h.sent
  have processed := congrArg List.length h.processed
  have queue := congrArg List.length h.queue
  simp only [List.length_append, List.length_map] at sent processed queue
  rw [processedPackets, show s.processed.length - (s.rx.sent.length - s.rx.queue.length) =
    pre.length by omega, h.queue, List.take_left]

theorem startLink (h : Rep s.rx.pool (pre ++ rest) r vr vw) {k : Pkt} {ks : List Pkt}
    (first : rest = k :: ks) (live : k.freed = false) :
    startOf s.rx.pool rest ≠ s.rx.pool.wrptr ∧ 0 < k.buf ∧
    s.rx.pool.mem (startOf s.rx.pool rest) = startOf s.rx.pool ks ∧ 0 < startOf s.rx.pool ks := by
  subst first
  obtain ⟨x, w, left, slot, right⟩ := chainSlot h.chain
  have size := slot.size
  have lo := chainLe left
  have hi := chainLe right
  have span := h.span
  have here : startOf s.rx.pool (k :: ks) = r.place x := by rw [startOf, slot.buf]; omega
  have behind : startOf s.rx.pool ks = r.place w := by
    cases right with
    | nil => exact h.wrptr
    | cons slot' rest' => rw [startOf, slot'.buf]; omega
  have positive := placePositive h x
  refine ⟨?_, by rw [slot.buf]; omega, ?_, by rw [behind]; exact placePositive h w⟩
  · rw [here, h.wrptr]
    exact r.placeNe (a := vr) ⟨lo, by omega⟩ ⟨by omega, h.span⟩ (by omega)
  · rw [here, behind, slot.link, live]
    rfl

theorem startAppend (p p' : Pool) (ks : List Pkt) {k : Pkt} (buf : k.buf = p.wrptr + 2) :
    startOf p' (ks ++ [k]) = startOf p ks := by
  cases ks with
  | nil => simp only [List.nil_append, startOf]; omega
  | cons k' ks => rfl

theorem startSame {p p' : Pool} (same : p'.wrptr = p.wrptr) {ks ks' : List Pkt}
    (bufs : ks'.map Pkt.buf = ks.map Pkt.buf) : startOf p' ks' = startOf p ks := by
  cases ks with
  | nil => rw [List.map_eq_nil_iff.mp bufs]; exact same
  | cons k ks =>
    cases ks' with
    | nil => cases bufs
    | cons k' ks' =>
      have head : k'.buf = k.buf := by simpa using (List.cons.inj bufs).1
      simp [startOf, head]

theorem phaseSame {rest' : List Pkt} (h : PhaseInv s rest) (phase : t.phase = s.phase)
    (rdptr : t.rdptr = s.rdptr) (wrptr : t.rx.pool.wrptr = s.rx.pool.wrptr)
    (bufs : rest'.map Pkt.buf = rest.map Pkt.buf) : PhaseInv t rest' := by
  have head : ∀ buf, (∃ k ks, rest = k :: ks ∧ k.buf = buf) → ∃ k ks, rest' = k :: ks ∧ k.buf = buf := by
    rintro buf ⟨k, ks, rfl, rfl⟩
    cases rest' with
    | nil => cases bufs
    | cons k' ks' => exact ⟨k', ks', rfl, by simpa using (List.cons.inj bufs).1⟩
  unfold PhaseInv at h ⊢
  rw [phase]
  cases now : s.phase with
  | idle =>
    rw [now] at h
    exact rdptr.trans (h.trans (startSame wrptr bufs).symm)
  | found buf =>
    rw [now] at h
    exact ⟨rdptr.trans (h.1.trans (startSame wrptr bufs).symm), head buf h.2⟩
  | moved buf =>
    rw [now] at h
    obtain ⟨k, ks, rfl, same, at_⟩ := h
    cases rest' with
    | nil => cases bufs
    | cons k' ks' =>
      have both := List.cons.inj bufs
      refine ⟨k', ks', rfl, ?_, rdptr.trans (at_.trans (startSame wrptr both.2).symm)⟩
      simpa [← same] using both.1
  | trapped => rw [now] at h; exact h

theorem phaseAppend {k : Pkt} (h : PhaseInv s rest) (phase : t.phase = s.phase)
    (rdptr : t.rdptr = s.rdptr) (buf : k.buf = s.rx.pool.wrptr + 2) : PhaseInv t (rest ++ [k]) := by
  unfold PhaseInv at h ⊢
  rw [phase]
  cases now : s.phase with
  | idle =>
    rw [now] at h
    exact rdptr.trans (h.trans (startAppend _ _ rest buf).symm)
  | found buf' =>
    rw [now] at h
    obtain ⟨at_, k', ks, rfl, same⟩ := h
    exact ⟨rdptr.trans (at_.trans (startAppend _ _ (k' :: ks) buf).symm), k', ks ++ [k], rfl, same⟩
  | moved buf' =>
    rw [now] at h
    obtain ⟨k', ks, rfl, same, at_⟩ := h
    exact ⟨k', ks ++ [k], rfl, same, rdptr.trans (at_.trans (startAppend _ _ ks buf).symm)⟩
  | trapped => rw [now] at h; exact h

theorem receiverKeeps {e : RxPins.Event} {rx : RxPins.State} (ringed : RxPins.Ringed s.rx r vr vw)
    (h : Split s old pre rest) (notFree : ∀ buf, e ≠ .free buf)
    (taken : RxPins.step forwards s.rx e = some rx) : Inv { s with rx := rx } := by
  refine ⟨?_, ?_⟩
  · obtain ⟨vr', vw', next⟩ := RxPins.stepKeeps ringed taken
    exact ⟨r, vr', vw', next⟩
  rcases RxPins.stepQueue ringed taken with ⟨queue, sent, wrptr⟩ | ⟨k, -, live, buf, queue, sent⟩ |
    ⟨buf, f, x, -, queue, sent, wrptr⟩ | ⟨buf, eq, -⟩
  · refine ⟨old, pre, rest, queue.trans h.queue, ?_, h.processed, h.live,
      phaseSame h.phase rfl rfl wrptr rfl⟩
    exact sent.trans (h.sent.trans (by rw [queue]))
  · refine ⟨old, pre, rest ++ [k], ?_, ?_, h.processed, ?_, phaseAppend h.phase rfl rfl buf⟩
    · exact queue.trans (by rw [h.queue, List.append_assoc])
    · exact sent.trans (by rw [queue, h.sent]; simp)
    · intro k' member
      rcases List.mem_append.mp member with old | new
      · exact h.live k' old
      · rw [List.mem_singleton.mp new]; exact live
  · have same := fun q => onBufBufs buf (f := setHeader f x) (fun _ => rfl) q
    refine ⟨old, onBuf buf (setHeader f x) pre, onBuf buf (setHeader f x) rest, ?_, ?_, ?_, ?_,
      phaseSame h.phase rfl rfl wrptr (same rest)⟩
    · exact queue.trans (by rw [h.queue, onBufAppend])
    · exact sent.trans (by rw [queue, same, h.sent])
    · rw [same]; exact h.processed
    · intro k member
      obtain ⟨k', inside, rfl⟩ := List.mem_map.mp member
      have := h.live k' inside
      split <;> exact this
  · exact absurd eq (notFree buf)

theorem freeKeeps {buf : Int} {rx : RxPins.State} (ringed : RxPins.Ringed s.rx r vr vw)
    (h : Split s old pre rest) {k : Pkt} (member : k ∈ pre) (same : k.buf = buf)
    (taken : RxPins.step forwards s.rx (.free buf) = some rx) : Inv { s with rx := rx } := by
  refine ⟨?_, ?_⟩
  · obtain ⟨vr', vw', next⟩ := RxPins.stepKeeps ringed taken
    exact ⟨r, vr', vw', next⟩
  rcases RxPins.stepQueue ringed taken with ⟨queue, sent, wrptr⟩ | ⟨_, eq, -⟩ | ⟨_, _, _, eq, -⟩ |
    ⟨buf', eq, queue, sent, wrptr⟩
  · exact ⟨old, pre, rest, queue.trans h.queue, sent.trans (h.sent.trans (by rw [queue])), h.processed,
      h.live, phaseSame h.phase rfl rfl wrptr rfl⟩
  · cases eq
  · cases eq
  · cases eq
    subst same
    obtain ⟨a, b, rfl⟩ := List.append_of_mem member
    have shape : s.rx.queue = a ++ k :: (b ++ rest) := by rw [h.queue]; simp
    have rep := ringed.rep
    rw [shape] at rep
    have marked : free k.buf s.rx.queue = reclaim (a ++ markFreed k :: b) ++ rest := by
      rw [free, shape, onBufSlot rep.chain rep.span, ← reclaimAppend h.live]
      simp
    obtain ⟨gone, rebuilt⟩ := reclaimSuffix (a ++ markFreed k :: b)
    have bufs : (a ++ k :: b).map Pkt.buf = gone.map Pkt.buf ++ (reclaim (a ++ markFreed k :: b)).map Pkt.buf := by
      rw [← List.map_append, ← rebuilt]
      simp [markFreed]
    refine ⟨old ++ gone.map Pkt.buf, reclaim (a ++ markFreed k :: b), rest, queue.trans marked, ?_, ?_,
      h.live, phaseSame h.phase rfl rfl wrptr rfl⟩
    · refine sent.trans ?_
      have parts : (a ++ k :: b ++ rest).map Pkt.buf = (a ++ k :: b).map Pkt.buf ++ rest.map Pkt.buf :=
        List.map_append
      rw [h.sent, queue, marked, h.queue, parts, bufs]
      simp
    · refine h.processed.trans ?_
      rw [bufs]; simp

theorem stepKeeps {e : Event} (inv : Inv s) (taken : step forwards s e = some t) : Inv t := by
  obtain ⟨⟨r, vr, vw, ringed⟩, old, pre, rest, h⟩ := inv
  have phase := h.phase
  unfold PhaseInv at phase
  cases e with
  | receiver e =>
    have notFree : ∀ buf, e ≠ .free buf := by
      rintro buf rfl
      simp [step] at taken
    have eq : step forwards s (.receiver e) =
        (RxPins.step forwards s.rx e).map (fun rx => { s with rx := rx }) := by
      cases e <;> first | rfl | exact absurd rfl (notFree _)
    rw [eq] at taken
    obtain ⟨rx, first, rfl⟩ := Option.map_eq_some_iff.mp taken
    exact receiverKeeps ringed h notFree first
  | getNext =>
    simp only [step] at taken
    split at taken
    · rename_i idle
      rw [idle] at phase
      split at taken
      · rename_i found
        cases taken
        refine ⟨⟨r, vr, vw, ringed⟩, old, pre, rest, h.queue, h.sent, h.processed, h.live, phase, ?_⟩
        have notEnd : s.rdptr ≠ s.rx.pool.wrptr := by
          intro same
          exact found.1 (if_pos same)
        cases rest with
        | nil => exact absurd phase notEnd
        | cons k ks =>
          refine ⟨k, ks, rfl, ?_⟩
          have at_ : s.rdptr = k.buf - 2 := phase
          rw [miiGetMyNextBuf, if_neg notEnd, at_]
          simp [mallocHdrSize]
      · cases taken
        exact ⟨⟨r, vr, vw, ringed⟩, old, pre, rest, h⟩
    · cases taken
  | update =>
    cases now : s.phase <;> simp only [step, now] at taken phase
    case found buf =>
      obtain ⟨at_, k, ks, first, same⟩ := phase
      have rep := ringed.rep
      rw [h.queue] at rep
      obtain ⟨-, -, link, positive⟩ := startLink rep first (h.live k (by simp [first]))
      have value : miiUpdateMyRdptr s.rx.pool s.rdptr = some (startOf s.rx.pool ks) := by
        rw [miiUpdateMyRdptr, at_, link, if_neg (by omega)]
      rw [value] at taken
      cases taken
      exact ⟨⟨r, vr, vw, ringed⟩, old, pre, rest, h.queue, h.sent, h.processed, h.live,
        k, ks, first, same, rfl⟩
    all_goals cases taken
  | process =>
    cases now : s.phase <;> simp only [step, now] at taken phase
    case moved buf =>
      obtain ⟨k, ks, rfl, same, at_⟩ := phase
      cases taken
      refine ⟨⟨r, vr, vw, ringed⟩, old, pre ++ [k], ks, ?_, h.sent, ?_, ?_, at_⟩
      · rw [h.queue]; simp
      · rw [h.processed]; simp [same]
      · exact fun k' member => h.live k' (List.mem_cons_of_mem _ member)
    all_goals cases taken
  | free buf =>
    simp only [step] at taken
    split at taken
    · rename_i member
      rw [splitProcessed h] at member
      obtain ⟨k, member, same, -⟩ := member
      obtain ⟨rx, first, rfl⟩ := Option.map_eq_some_iff.mp taken
      exact freeKeeps ringed h member same first
    · cases taken

theorem invSound (inv : Inv s) : Sound s := by
  obtain ⟨⟨r, vr, vw, ringed⟩, old, pre, rest, h⟩ := inv
  have rep := ringed.rep
  rw [h.queue] at rep
  have phase := h.phase
  unfold PhaseInv at phase
  have valid : ∀ ks, ks <:+ rest → startOf s.rx.pool ks = s.rx.pool.wrptr ∨
      ∃ k ∈ s.rx.queue, k.freed = false ∧ startOf s.rx.pool ks = k.buf - 2 := by
    intro ks suffix
    cases ks with
    | nil => exact .inl rfl
    | cons k ks =>
      have member : k ∈ rest := suffix.subset List.mem_cons_self
      exact .inr ⟨k, by rw [h.queue]; exact List.mem_append_right _ member, h.live k member, rfl⟩
  have sent : s.rx.sent = s.processed ++ rest.map Pkt.buf := by
    rw [h.sent, h.queue, h.processed]; simp
  refine ⟨?_, ?_, ⟨rest.map Pkt.buf, sent.symm⟩, ?_⟩
  · cases now : s.phase <;> rw [now] at phase
    · rw [phase]; exact valid rest List.suffix_rfl
    · rw [phase.1]; exact valid rest List.suffix_rfl
    · obtain ⟨k, ks, rfl, -, at_⟩ := phase
      rw [at_]; exact valid ks (List.suffix_cons k ks)
    · exact phase.elim
  · intro now
    rw [now] at phase
    exact phase
  · intro now
    rw [now] at phase
    cases rest with
    | nil =>
      have zero : miiGetMyNextBuf s.rx.pool s.rdptr = 0 := if_pos phase
      rw [zero, sent]
      simp
    | cons k ks =>
      obtain ⟨ne, positive, -⟩ := startLink rep rfl (h.live k List.mem_cons_self)
      have next : miiGetMyNextBuf s.rx.pool s.rdptr = k.buf := by
        rw [miiGetMyNextBuf, phase, if_neg ne]
        simp [startOf, mallocHdrSize]
      rw [next, sent]
      refine ⟨by simp, ⟨fun zero => by omega, fun all => by simp at all⟩⟩

/- A buffer comes to process_received_frame again only after mii_free of the packet before. -/
theorem nextBufferFresh (inv : Inv s) {buf : Int} (here : s.phase = .found buf ∨ s.phase = .moved buf)
    {k : Pkt} (member : k ∈ processedPackets s) : k.buf ≠ buf := by
  obtain ⟨⟨r, vr, vw, ringed⟩, old, pre, rest, h⟩ := inv
  have phase := h.phase
  unfold PhaseInv at phase
  obtain ⟨k', ks, first, same⟩ : ∃ k' ks, rest = k' :: ks ∧ k'.buf = buf := by
    rcases here with now | now <;> rw [now] at phase
    · exact phase.2
    · obtain ⟨k', ks, first, same, -⟩ := phase
      exact ⟨k', ks, first, same⟩
  have rep := ringed.rep
  rw [splitProcessed h] at member
  rw [h.queue, first] at rep
  obtain ⟨x, w, left, slot, right⟩ := chainSlot rep.chain
  obtain ⟨y, lo, hi, at_⟩ := chainBuf left member
  have size := slot.size
  have top := chainLe right
  have span := rep.span
  have apart := r.placeNe (a := vr) (v := y) (w := x) ⟨lo, by omega⟩ ⟨by omega, by omega⟩ (by omega)
  have other := slot.buf
  omega

end

theorem invInitial (mem : Int → Int) (mempool memsize : Nat) (enough : 28 ≤ memsize) :
    Inv (initial mem mempool memsize) :=
  ⟨RxPins.ringedInitial mem mempool memsize enough, [], [], [], rfl, rfl, rfl, by simp, rfl⟩

/-- In every run the pointer stands on a packet that is not freed or at the write pointer, it
never reads a link that is not positive, and the packets are processed as they were sent. The
pool is one that has room for its own margin. -/
theorem readPointerSound (forwards : Bool) (mem : Int → Int) (mempool memsize : Nat)
    (large : 28 ≤ memsize) (es : List Event) :
    Always (step forwards) Sound (initial mem mempool memsize) es :=
  alwaysInvariant (I := Inv) (fun _ _ _ inv => stepKeeps inv) (fun _ => invSound)
    (invInitial mem mempool memsize large) es

/- One frame is received, filtered, processed and freed. -/
def oneFrame : List Event :=
  (RxPins.twoFrames.take 17).map .receiver ++
  [.receiver (.set 7 .stage 1), .getNext, .update, .process, .free 7, .getNext]

theorem readPointerSoundOneFrame :
    (run (step false) (initial (fun _ => 0) 0 128) oneFrame).any
      (fun s => s.processed = [7] ∧ s.rdptr = s.rx.pool.wrptr) = true ∧
    Always (step false) Sound (initial (fun _ => 0) 0 128) oneFrame :=
  ⟨by decide +kernel, readPointerSound false (fun _ => 0) 0 128 (by decide) oneFrame⟩

end ScEthernet.Full.RxReadPointer
