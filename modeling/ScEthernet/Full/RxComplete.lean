import ScEthernet.Full.RxPins

/-! The words of a frame against what the port delivered. A word that finds no space is not
remembered: when mii_free moves the read pointer before the end of the frame the later words
are stored behind the hole, and the frame is committed with a short length and a CRC that
leaves the lost word out. -/
namespace ScEthernet.Full.RxComplete
open Lib.WordMemory Lib.UnrolledRing Lib.Runs Wire Malloc PoolQueue RxPins

structure State where
  rx : RxPins.State
  /- History: the words of the frame as the port delivered them, the bytes of the last part of
  a word, and whether a word found no space. -/
  received : List (BitVec 32)
  leftover : Nat
  missed : Bool

def initial (mem : Int → Int) (mempool memsize : Nat) : State :=
  ⟨RxPins.initial mem mempool memsize, [], 0, false⟩

/- The word finds `dptr` on the read pointer. -/
def full (s : RxPins.State) : Bool :=
  match s.phase with
  | .loop f _ _ => f.dptr = s.pool.rdptr
  | _ => false

def observe (s : State) (t : RxPins.State) : Event → State
  | .sof _ => ⟨t, [], 0, false⟩
  | .word word => ⟨t, s.received ++ [word], 0, s.missed || full s.rx⟩
  | .port taillen _ => { s with rx := t, leftover := taillen.val >>> 3 }
  | _ => { s with rx := t }

def step (forwards : Bool) (s : State) (e : Event) : Option State :=
  (RxPins.step forwards s.rx e).map (fun t => observe s t e)

/- The buffer holds all that was received: the words, their bytes with those of the part of a
word less the FCS, and the CRC of the words. -/
structure Complete (p : Pool) (buf : Int) (received : List (BitVec 32)) (leftover : Nat) : Prop where
  data : readWords p received.length (miiPacketGetDataPtr buf) = received.map BitVec.toInt
  length : miiPacketGetLength p buf = (4 * received.length + leftover : Nat) - 4
  crc : getField .crc p buf = (received.foldl crc32 seed).toInt

def HandsOver (s t : State) : Prop := t.rx.sent ≠ s.rx.sent

/-! Invariant. -/

structure Kept (s : State) (f : Frame) : Prop where
  all : s.missed = false → f.words = s.received.map BitVec.toInt ∧ f.crc = s.received.foldl crc32 seed
  short : s.missed = true → f.words.length < s.received.length

def fieldsOf (s : State) (f : Frame) : List (Field × Int) :=
  [(.length, 4 * f.words.length + s.leftover - 4), (.crc, f.crc.toInt), (.timestamp, f.time)]

structure Stored (s : State) (f : Frame) (pending : List (Field × Int)) : Prop where
  sub : ∀ x ∈ pending, x ∈ fieldsOf s f
  done : ∀ x ∈ fieldsOf s f, x ∈ pending ∨ getField x.1 s.rx.pool f.buf = x.2

def PhaseKept (s : State) : Prop :=
  match s.rx.phase with
  | .idle => True
  | .reserved _ => True
  | .first f => Kept s f ∧ s.missed = false
  | .loop f _ ii => Kept s f ∧ ii = 4 * f.words.length - 4
  | .port f ii => Kept s f ∧ ii = 4 * f.words.length - 4
  | .headers f _ pending => Kept s f ∧ Stored s f pending
  | .commit f => Kept s f ∧ Stored s f []

section steps
variable {forwards : Bool} {s t : State} {r : Ring} {vr vw : Nat} {f : Frame}

theorem othersKeep {u v : RxPins.State} {e : Event} (h : Ringed u r vr vw)
    (other : (∃ buf f x, e = .set buf f x) ∨ ∃ buf, e = .free buf)
    (taken : RxPins.step forwards u e = some v) : v.phase = u.phase ∧
      ∀ y, vw ≤ y → y < vr + r.size → v.pool.mem (r.place y) = u.pool.mem (r.place y) := by
  cases stepCases taken with
  | set f x member live => exact ⟨rfl, (setFieldRep h.rep member f x).2⟩
  | @free k p member live returns =>
    obtain ⟨p', vr', exact_, -, -, -, same⟩ := miiFreeRep h.rep h.settled member live
    obtain rfl : p = p' := Option.some.inj (returns.symm.trans exact_)
    exact ⟨rfl, same⟩
  | _ => simp at other

theorem storedSame {pending : List (Field × Int)} (h : Stored s f pending) (leftover : t.leftover = s.leftover)
    (same : ∀ g : Field, getField g t.rx.pool f.buf = getField g s.rx.pool f.buf) : Stored t f pending := by
  have fields : fieldsOf t f = fieldsOf s f := by rw [fieldsOf, leftover]; rfl
  refine ⟨by rw [fields]; exact h.sub, ?_⟩
  rw [fields]
  intro x member
  rw [same]
  exact h.done x member

theorem headerPlace {u : RxPins.State} (h : Ringed u r vr vw) (fill : Filling u.pool r vr vw f none) (g : Field) :
    f.buf + g.offset = r.place (vw + 2 + g.offset) ∧ vw + 2 + g.offset < vw + 12 := by
  have bound := offsetBound g
  exact ⟨reservedPlace h.rep fill.reserved (by omega), by omega⟩

theorem headersKept {tail : Int} {u : RxPins.State} {g : Field} {x : Int}
    {pending : List (Field × Int)} (phase : s.rx.phase = .headers f tail ((g, x) :: pending))
    (stored : Stored s f ((g, x) :: pending)) (taken : RxPins.step forwards s.rx .header = some u) :
    u.phase = .headers f tail pending ∧ Stored { s with rx := u } f pending := by
  simp only [RxPins.step, phase] at taken
  cases taken
  refine ⟨rfl, fun y member => stored.sub y (List.mem_cons_of_mem _ member), fun y member => ?_⟩
  have written : ∀ g', getField g' (RxPins.stored forwards s.rx .header) f.buf =
      if g' = g then x else getField g' s.rx.pool f.buf := by
    intro g'
    simp only [RxPins.stored, stores, phase, storeAllCons, storeAllNil]
    exact getSetField g' g s.rx.pool f.buf x
  rw [written]
  rcases stored.done y member with here | old
  · rcases List.mem_cons.mp here with rfl | later
    · exact .inr (if_pos rfl)
    · exact .inl later
  · by_cases same : y.1 = g
    · have now := stored.sub (g, x) List.mem_cons_self
      have : y = (g, x) := by
        simp only [fieldsOf, List.mem_cons, List.not_mem_nil, or_false] at now member
        rcases now with now | now | now <;> rcases member with member | member | member <;>
          simp_all
      rw [this]
      exact .inr (if_pos rfl)
    · rw [if_neg same]
      exact .inr old

theorem wordKept (h : Ringed s.rx r vr vw) (kept : PhaseKept s) {word : BitVec 32}
    (taken : step forwards s (.word word) = some t) : PhaseKept t := by
  obtain ⟨u, moved, rfl⟩ := Option.map_eq_some_iff.mp taken
  have inv := h.phase
  unfold PhaseKept at kept
  unfold PhaseInv at inv
  -- behind the start delimiter every word has found room so far
  have first : ∀ {f : Frame}, s.rx.phase = .first f → Kept s f → s.missed = false →
      f.words ++ [word.toInt] = (s.received ++ [word]).map BitVec.toInt ∧
        crc32 f.crc word = (s.received ++ [word]).foldl crc32 seed ∧ (s.missed || full s.rx) = false := by
    intro f phase kept found
    obtain ⟨words, crc⟩ := kept.all found
    exact ⟨by simp [words], by simp [crc], by simp [found, full, phase]⟩
  cases stepCases moved with
  | @early f _ phase small =>
    simp only [phase] at kept
    obtain ⟨words, crc, missed⟩ := first phase kept.1 kept.2
    exact ⟨⟨fun _ => ⟨words, crc⟩, fun lost => by simp [observe, missed] at lost⟩, missed⟩
  | @sixth f _ phase small =>
    simp only [phase] at kept inv
    obtain ⟨words, crc, missed⟩ := first phase kept.1 kept.2
    have six : f.words.length = 5 := by have := inv.2.2.1; omega
    refine ⟨⟨fun _ => ⟨words, crc⟩, fun lost => by simp [observe, missed] at lost⟩, ?_⟩
    simp [six]
  | @word f sixth ii _ phase free =>
    simp only [phase] at kept
    obtain ⟨kept, count⟩ := kept
    have missed : (s.missed || full s.rx) = s.missed := by simp [full, phase, free]
    refine ⟨⟨fun found => ?_, fun lost => ?_⟩, ?_⟩
    · obtain ⟨words, crc⟩ := kept.all (missed.symm.trans found)
      simp [observe, words, crc]
    · have := kept.short (missed.symm.trans lost)
      simpa [observe] using this
    · simp only [List.length_append, List.length_singleton]; omega
  | @lost f sixth ii _ phase free =>
    simp only [phase] at kept
    obtain ⟨kept, count⟩ := kept
    have missed : (s.missed || full s.rx) = true := by simp [full, phase, not_not.mp free]
    have same : observe s s.rx (.word word) = ⟨s.rx, s.received ++ [word], 0, true⟩ := by
      rw [observe, missed]
    rw [same]
    unfold PhaseKept
    simp only [phase]
    refine ⟨⟨fun found => by simp at found, fun _ => ?_⟩, count⟩
    simp only [List.length_append, List.length_singleton]
    cases lost : s.missed with
    | false => simp [(kept.all lost).1]
    | true => have := kept.short lost; omega

theorem othersKept {e : Event} {u : RxPins.State} (h : Ringed s.rx r vr vw) (kept : PhaseKept s)
    (other : (∃ buf f x, e = .set buf f x) ∨ ∃ buf, e = .free buf)
    (moved : RxPins.step forwards s.rx e = some u) : PhaseKept { s with rx := u } := by
  obtain ⟨phase, same⟩ := othersKeep h other moved
  have inv := h.phase
  have header : ∀ {f : Frame}, Filling s.rx.pool r vr vw f none →
      ∀ g : Field, getField g u.pool f.buf = getField g s.rx.pool f.buf := by
    intro f fill g
    have room := fill.reserved.room
    obtain ⟨place, bound⟩ := headerPlace h fill g
    rw [getField, getField, place]
    exact same _ (by omega) (by omega)
  unfold PhaseKept at kept ⊢
  unfold PhaseInv at inv
  simp only [phase]
  cases now : s.rx.phase <;> simp only [now] at kept inv ⊢
  case first f => exact ⟨⟨kept.1.all, kept.1.short⟩, kept.2⟩
  case loop f sixth ii => exact ⟨⟨kept.1.all, kept.1.short⟩, kept.2⟩
  case port f ii => exact ⟨⟨kept.1.all, kept.1.short⟩, kept.2⟩
  case headers f tail pending => exact ⟨⟨kept.1.all, kept.1.short⟩, storedSame kept.2 rfl (header inv)⟩
  case commit f => exact ⟨⟨kept.1.all, kept.1.short⟩, storedSame kept.2 rfl (header inv.1)⟩

theorem stepKept {e : Event} (h : Ringed s.rx r vr vw) (kept : PhaseKept s)
    (taken : step forwards s e = some t) : PhaseKept t := by
  have word : ∀ w, e = .word w → PhaseKept t := by
    rintro w rfl
    exact wordKept h kept taken
  obtain ⟨u, moved, rfl⟩ := Option.map_eq_some_iff.mp taken
  have inv := h.phase
  have before := kept
  unfold PhaseKept at kept
  unfold PhaseInv at inv
  cases stepCases moved with
  | early | sixth | word | lost => exact word _ rfl
  | set f x => exact othersKept h before (.inl ⟨_, f, x, rfl⟩) moved
  | free => exact othersKept h before (.inr ⟨_, rfl⟩) moved
  | reserve phase =>
    unfold PhaseKept
    simp only [observe]
    split_ifs <;> trivial
  | sof time phase => exact ⟨⟨fun _ => ⟨rfl, rfl⟩, fun lost => by cases lost⟩, rfl⟩
  | eof phase =>
    simp only [phase] at kept
    exact ⟨⟨kept.1.all, kept.1.short⟩, kept.2⟩
  | @port f ii taillen tail phase =>
    simp only [phase] at kept
    obtain ⟨kept, count⟩ := kept
    have fields : [(Field.length, ii + ((taillen.val >>> 3 : Nat) : Int)), (.crc, f.crc.toInt), (.timestamp, f.time)] =
        fieldsOf ⟨s.rx, s.received, taillen.val >>> 3, s.missed⟩ f := by
      have length : ii + ((taillen.val >>> 3 : Nat) : Int) =
          (4 : Int) * f.words.length + (taillen.val >>> 3 : Nat) - 4 := by omega
      simp only [fieldsOf, length]
    refine ⟨⟨kept.all, kept.short⟩, fun x member => ?_, fun x member => .inl ?_⟩
    · rw [fields] at member
      exact member
    · rw [fields]
      exact member
  | header phase =>
    simp only [phase] at kept
    exact ⟨⟨kept.1.all, kept.1.short⟩, (headersKept phase kept.2 moved).2⟩
  | @tail f tail phase free =>
    simp only [phase] at kept inv
    have room := (dptrFree h.rep inv).mp free
    have le := repLe h.rep
    refine ⟨⟨kept.1.all, kept.1.short⟩, storedSame (s := s) kept.2 rfl fun g => ?_⟩
    obtain ⟨place, bound⟩ := headerPlace h inv g
    simp only [getField, observe, RxPins.stored, stores, phase, if_pos free, storeAllCons, storeAllNil]
    rw [place, inv.dptr]
    exact storeOther (r.placeNe (a := vr) ⟨by omega, by omega⟩ ⟨by omega, room⟩ (by omega))
  | full | refused | commit | drop => trivial

theorem committedFields (forwards : Bool) (stored : Stored s f []) (endPtr : Int) :
    getField .length (commitAt forwards s.rx.pool f.buf endPtr).1 f.buf = 4 * f.words.length + s.leftover - 4 ∧
    getField .crc (commitAt forwards s.rx.pool f.buf endPtr).1 f.buf = f.crc.toInt := by
  have field : ∀ g x, (g, x) ∈ fieldsOf s f → g ≠ .stage → g ≠ .forwarding →
      getField g (commitAt forwards s.rx.pool f.buf endPtr).1 f.buf = x := by
    intro g x member stage forwarding
    rw [commitAtHeader, if_neg (by simp [stage, forwarding])]
    exact (stored.done (g, x) member).resolve_left List.not_mem_nil
  exact ⟨field _ _ (by simp [fieldsOf]) (by decide) (by decide), field _ _ (by simp [fieldsOf]) (by decide) (by decide)⟩

structure Committed (forwards : Bool) (r : Ring) (vr vw : Nat) (s t : State) (f : Frame) : Prop where
  phase : s.rx.phase = .commit f
  sent : t.rx.sent = s.rx.sent ++ [f.buf]
  pool : t.rx.pool = (miiCommit forwards s.rx.pool f.buf f.dptr).1
  kept : Kept s f
  fill : Filling s.rx.pool r vr vw f none
  spare : vw + 12 + f.words.length < vr + r.size
  length : miiPacketGetLength t.rx.pool f.buf = 4 * f.words.length + s.leftover - 4
  crc : getField .crc t.rx.pool f.buf = f.crc.toInt
  data : readWords t.rx.pool f.words.length (miiPacketGetDataPtr f.buf) = f.words

theorem handedFrame {e : Event} (h : Ringed s.rx r vr vw) (kept : PhaseKept s) (taken : step forwards s e = some t)
    (hands : HandsOver s t) : ∃ f, Committed forwards r vr vw s t f := by
  obtain ⟨u, moved, rfl⟩ := Option.map_eq_some_iff.mp taken
  have sent : u.sent ≠ s.rx.sent := by
    intro same
    apply hands
    cases e <;> exact same
  obtain ⟨rfl, f, phase, returns, rfl⟩ := stepSends moved sent
  have inv := h.phase
  simp only [PhaseInv, phase] at inv
  simp only [PhaseKept, phase] at kept
  obtain ⟨kept, stored⟩ := kept
  obtain ⟨fill, spare⟩ := inv
  rcases commitCases forwards h.rep fill spare with fails | ⟨D, le, window, room, commit⟩
  · exact absurd (by rw [fails]) returns
  · obtain ⟨length, crc⟩ := committedFields forwards stored (r.place D)
    have rep := commitRep h.rep forwards le window room fill.reserved.info (fun i b => fill.words i b (by simp))
    rw [← fill.reserved.buf] at rep
    have intact := (repIntact rep (List.mem_append_right _ (List.mem_singleton.mpr rfl))).2
    rw [← commit] at length crc
    refine ⟨f, phase, rfl, rfl, kept, fill, spare, length, crc, ?_⟩
    simp only [observe, commit]
    exact intact

/- A buffer that goes to the filter holds all that was received when no word was lost, and its
length is short when one was. -/
theorem handedOver {e : Event} (h : Ringed s.rx r vr vw) (kept : PhaseKept s) (taken : step forwards s e = some t)
    (hands : HandsOver s t) : ∃ buf, t.rx.sent = s.rx.sent ++ [buf] ∧
      (Complete t.rx.pool buf s.received s.leftover ↔ s.missed = false) := by
  obtain ⟨f, given⟩ := handedFrame h kept taken hands
  have length := given.length
  refine ⟨f.buf, given.sent, fun complete => ?_, fun found => ?_⟩
  · by_contra lost
    have short := given.kept.short (by simpa using lost)
    have whole := complete.length
    omega
  · obtain ⟨words, covered⟩ := given.kept.all found
    have count : f.words.length = s.received.length := by rw [words, List.length_map]
    refine ⟨?_, by omega, by rw [given.crc, covered]⟩
    rw [← count, ← words]
    exact given.data

theorem observeRx (s : State) (u : RxPins.State) (e : Event) : (observe s u e).rx = u := by cases e <;> rfl

theorem invariantKept {e : Event} (h : (∃ r vr vw, Ringed s.rx r vr vw) ∧ PhaseKept s) (taken : step forwards s e = some t) :
    (∃ r vr vw, Ringed t.rx r vr vw) ∧ PhaseKept t := by
  obtain ⟨⟨r, vr, vw, ringed⟩, kept⟩ := h
  refine ⟨?_, stepKept ringed kept taken⟩
  obtain ⟨u, moved, rfl⟩ := Option.map_eq_some_iff.mp taken
  obtain ⟨vr', vw', next⟩ := RxPins.stepKeeps ringed moved
  exact ⟨r, vr', vw', (observeRx s u e).symm ▸ next⟩

theorem invariantInitial (mem : Int → Int) (mempool memsize : Nat) (enough : 28 ≤ memsize) :
    (∃ r vr vw, Ringed (initial mem mempool memsize).rx r vr vw) ∧ PhaseKept (initial mem mempool memsize) :=
  ⟨ringedInitial mem mempool memsize enough, trivial⟩

end steps

/-- Committed frames are complete exactly when no word of theirs found the ring full. -/
theorem committedCompleteIff (forwards : Bool) (mem : Int → Int) (mempool memsize : Nat)
    (enough : 28 ≤ memsize) (es : List Event) :
    Always (step forwards) (fun s => ∀ e t, step forwards s e = some t → HandsOver s t →
        ∃ buf, t.rx.sent = s.rx.sent ++ [buf] ∧
          (Complete t.rx.pool buf s.received s.leftover ↔ s.missed = false))
      (initial mem mempool memsize) es := by
  refine alwaysInvariant (I := fun s => (∃ r vr vw, Ringed s.rx r vr vw) ∧ PhaseKept s) (fun s e t => invariantKept) ?_
    (invariantInitial mem mempool memsize enough) es
  rintro s ⟨⟨r, vr, vw, h⟩, kept⟩ e t taken hands
  exact handedOver h kept taken hands

theorem committedCompleteSmallest :
    28 ≤ 128 ∧ Always (step true) (fun s => ∀ e t, step true s e = some t → HandsOver s t →
        ∃ buf, t.rx.sent = s.rx.sent ++ [buf] ∧
          (Complete t.rx.pool buf s.received s.leftover ↔ s.missed = false))
      (initial (fun _ => 0) 0 128) twoFrames :=
  ⟨by decide, committedCompleteIff true (fun _ => 0) 0 128 (by decide) twoFrames⟩

/- A frame of 93 words behind one of eight: the 91st word finds the ring full, then the eight
are freed. -/
def holed : List Event :=
  [.reserve, .sof 7] ++ List.replicate 8 (.word 5) ++ [.eof, .port 8 3, .header, .header, .header, .tail, .commit] ++
  [.reserve, .sof 9] ++ List.replicate 91 (.word 5) ++ [.free 7] ++ List.replicate 2 (.word 6) ++
  [.eof, .port 8 3, .header, .header, .header, .tail]

theorem holeCommitted : ∃ s t, run (step true) (initial (fun _ => 0) 0 128) holed = some s ∧
    step true s .commit = some t ∧ t.rx.sent = s.rx.sent ++ [27] ∧ s.received.length = 93 ∧
    ¬ Complete t.rx.pool 27 s.received s.leftover := by
  have last : (run (step true) (initial (fun _ => 0) 0 128) holed).bind (fun s => (step true s .commit).map (fun t =>
      (decide (t.rx.sent = s.rx.sent ++ [27]), miiPacketGetLength t.rx.pool 27, s.received.length, s.leftover))) =
      some (true, 365, 93, 1) := by decide +kernel
  obtain ⟨s, reached, last⟩ := Option.bind_eq_some_iff.mp last
  obtain ⟨t, taken, same⟩ := Option.map_eq_some_iff.mp last
  simp only [Prod.mk.injEq, decide_eq_true_eq] at same
  obtain ⟨sent, length, received, leftover⟩ := same
  refine ⟨s, t, reached, taken, sent, received, fun complete => ?_⟩
  have whole := complete.length
  rw [length, received, leftover] at whole
  omega

end ScEthernet.Full.RxComplete
