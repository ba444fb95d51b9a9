import ScEthernet.Full.PoolQueue
import ScEthernet.Lib.Runs
import ScEthernet.Wire

/-! mii_rx_pins on one of its pools. Every store of a frame is a step, and so is every call;
mii_free and header stores of the tasks behind the receiver may come between any two. With
a high-priority queue the words of the ethertype go to both pools and one of them drops the
frame. A word that finds `dptr` on the read pointer is lost and the frame goes on. -/
namespace ScEthernet.Full.RxPins
open Lib.WordMemory Lib.UnrolledRing Lib.Runs Wire Malloc PoolQueue

structure Frame where
  buf : Int
  dptr : Int
  time : Int
  crc : BitVec 32
  /- History: the words kept of the frame, the sixth one included. -/
  words : List Int

inductive Phase where
  | idle
  | reserved (buf : Int)
  | first (f : Frame)
  | loop (f : Frame) (sixth ii : Int)
  | port (f : Frame) (ii : Int)
  | headers (f : Frame) (tail : Int) (pending : List (Field × Int))
  | commit (f : Frame)

structure State where
  pool : Pool
  phase : Phase
  queue : List Pkt
  /- History: the buffers sent to the filter. -/
  sent : List Int

inductive Event where
  | reserve
  | sof (time : Int)
  | word (word : BitVec 32)
  | eof
  | port (taillen : Fin 32) (tail : BitVec 32)
  | header
  | tail
  | commit
  | drop
  | set (buf : Int) (f : Field) (x : Int)
  | free (buf : Int)

def initial (mem : Int → Int) (mempool memsize : Nat) : State :=
  ⟨miiInitMempool mem mempool (memsize * 4), .idle, [], []⟩

def commitStores (forwards : Bool) (p : Pool) (buf endPtr : Int) : List (Int × Int) :=
  if (miiCommit forwards p buf endPtr).2 = 0 then []
  else (buf + Field.stage.offset, 0) ::
    (if forwards then [(buf + Field.forwarding.offset, 0)] else []) ++
    [(buf - mallocHdrSize / 4, (miiCommit forwards p buf endPtr).1.wrptr)]

def stores (forwards : Bool) (s : State) : Event → List (Int × Int)
  | .reserve =>
    match s.phase with
    | .idle => if (miiReserve s.pool 0).2.1 = 0 then [] else [(s.pool.wrptr + 1, s.pool.info)]
    | _ => []
  | .word word =>
    match s.phase with
    | .first f => if f.words.length < 5 then [(f.dptr + f.words.length, word.toInt)] else []
    | .loop f _ _ => if f.dptr ≠ s.pool.rdptr then [(f.dptr, word.toInt)] else []
    | _ => []
  | .eof =>
    match s.phase with
    | .loop f sixth _ => [(miiPacketGetDataPtr f.buf + 5, sixth)]
    | _ => []
  | .header =>
    match s.phase with
    | .headers f _ ((g, x) :: _) => [(f.buf + g.offset, x)]
    | _ => []
  | .tail =>
    match s.phase with
    | .headers f tail [] => if f.dptr ≠ s.pool.rdptr then [(f.dptr, tail)] else []
    | _ => []
  | .commit =>
    match s.phase with
    | .commit f => commitStores forwards s.pool f.buf f.dptr
    | _ => []
  | _ => []

def stored (forwards : Bool) (s : State) (e : Event) : Pool :=
  { s.pool with mem := storeAll s.pool.mem (stores forwards s e) }

def step (forwards : Bool) (s : State) (e : Event) : Option State :=
  match e, s.phase with
  | .reserve, .idle =>
    let (p, buf, _) := miiReserve s.pool 0
    some { s with pool := p, phase := if buf = 0 then .idle else .reserved buf }
  | .sof time, .reserved buf =>
    some { s with phase := .first ⟨buf, miiPacketGetDataPtr buf, time, seed, []⟩ }
  | .word word, .first f =>
    let g := { f with crc := crc32 f.crc word, words := f.words ++ [word.toInt] }
    let phase := if f.words.length < 5 then .first g
      else .loop { g with dptr := f.dptr + 6 } word.toInt (5 * 4)
    some { s with pool := stored forwards s e, phase := phase }
  | .word word, .loop f sixth ii =>
    let p := stored forwards s e
    if f.dptr ≠ s.pool.rdptr then
      let g := { f with dptr := nextDataPtr p f.dptr, crc := crc32 f.crc word
                        words := f.words ++ [word.toInt] }
      some { s with pool := p, phase := .loop g sixth (ii + 4) }
    else some s
  | .eof, .loop f _ ii => some { s with pool := stored forwards s e, phase := .port f ii }
  | .port taillen tail, .port f ii =>
    let length := ii + (taillen.val >>> 3 : Nat)
    let tail := (tail >>> (32 - taillen.val)).toInt
    let fields := [(.length, length), (.crc, f.crc.toInt), (.timestamp, f.time)]
    some { s with phase := .headers f tail fields }
  | .header, .headers f tail (_ :: pending) =>
    some { s with pool := stored forwards s e, phase := .headers f tail pending }
  | .tail, .headers f _ [] =>
    if f.dptr ≠ s.pool.rdptr then some { s with pool := stored forwards s e, phase := .commit f }
    else some { s with phase := .idle }
  | .commit, .commit f =>
    let (p, ret) := miiCommit forwards s.pool f.buf f.dptr
    if ret = 0 then some { s with pool := p, phase := .idle }
    else some ⟨p, .idle, s.queue ++ [committed p f.buf f.words], s.sent ++ [f.buf]⟩
  | .drop, .reserved _ => some { s with phase := .idle }
  | .drop, .first _ => some { s with phase := .idle }
  | .set buf f x, _ =>
    if ∃ k ∈ s.queue, k.buf = buf ∧ k.freed = false then
      some { s with pool := setField f s.pool buf x, queue := onBuf buf (setHeader f x) s.queue }
    else none
  | .free buf, _ =>
    if ∃ k ∈ s.queue, k.buf = buf ∧ k.freed = false then
      (miiFree s.pool buf).map (fun p => { s with pool := p, queue := free buf s.queue })
    else none
  | _, _ => none

inductive Taken (forwards : Bool) (s : State) : Event → State → Prop
  | reserve (phase : s.phase = .idle) :
    Taken forwards s .reserve { s with pool := (miiReserve s.pool 0).1
                                       phase := if (miiReserve s.pool 0).2.1 = 0 then .idle
                                         else .reserved (miiReserve s.pool 0).2.1 }
  | sof {buf : Int} (time : Int) (phase : s.phase = .reserved buf) :
    Taken forwards s (.sof time) { s with phase := .first ⟨buf, miiPacketGetDataPtr buf, time, seed, []⟩ }
  | early {f : Frame} {word : BitVec 32} (phase : s.phase = .first f) (more : f.words.length < 5) :
    Taken forwards s (.word word)
      { s with pool := stored forwards s (.word word)
               phase := .first { f with crc := crc32 f.crc word, words := f.words ++ [word.toInt] } }
  | sixth {f : Frame} {word : BitVec 32} (phase : s.phase = .first f) (five : ¬ f.words.length < 5) :
    Taken forwards s (.word word)
      { s with pool := stored forwards s (.word word)
               phase := .loop { f with crc := crc32 f.crc word, words := f.words ++ [word.toInt], dptr := f.dptr + 6 }
                 word.toInt (5 * 4) }
  | word {f : Frame} {sixth ii : Int} {word : BitVec 32} (phase : s.phase = .loop f sixth ii) (room : f.dptr ≠ s.pool.rdptr) :
    Taken forwards s (.word word)
      { s with pool := stored forwards s (.word word)
               phase := .loop { f with dptr := nextDataPtr (stored forwards s (.word word)) f.dptr
                                       crc := crc32 f.crc word
                                       words := f.words ++ [word.toInt] } sixth (ii + 4) }
  | lost {f : Frame} {sixth ii : Int} (word : BitVec 32) (phase : s.phase = .loop f sixth ii) (full : ¬ f.dptr ≠ s.pool.rdptr) :
    Taken forwards s (.word word) s
  | eof {f : Frame} {sixth ii : Int} (phase : s.phase = .loop f sixth ii) :
    Taken forwards s .eof { s with pool := stored forwards s .eof, phase := .port f ii }
  | port {f : Frame} {ii : Int} (taillen : Fin 32) (tail : BitVec 32) (phase : s.phase = .port f ii) :
    Taken forwards s (.port taillen tail)
      { s with phase := .headers f (tail >>> (32 - taillen.val)).toInt
                 [(.length, ii + (taillen.val >>> 3 : Nat)), (.crc, f.crc.toInt), (.timestamp, f.time)] }
  | header {f : Frame} {tail : Int} {field : Field × Int} {pending : List (Field × Int)}
    (phase : s.phase = .headers f tail (field :: pending)) :
    Taken forwards s .header { s with pool := stored forwards s .header, phase := .headers f tail pending }
  | tail {f : Frame} {tail : Int} (phase : s.phase = .headers f tail []) (room : f.dptr ≠ s.pool.rdptr) :
    Taken forwards s .tail { s with pool := stored forwards s .tail, phase := .commit f }
  | full {f : Frame} {tail : Int} (phase : s.phase = .headers f tail []) (full : ¬ f.dptr ≠ s.pool.rdptr) :
    Taken forwards s .tail { s with phase := .idle }
  | refused {f : Frame} (phase : s.phase = .commit f) (fails : (miiCommit forwards s.pool f.buf f.dptr).2 = 0) :
    Taken forwards s .commit { s with pool := (miiCommit forwards s.pool f.buf f.dptr).1, phase := .idle }
  | commit {f : Frame} (phase : s.phase = .commit f) (returns : ¬ (miiCommit forwards s.pool f.buf f.dptr).2 = 0) :
    Taken forwards s .commit
      ⟨(miiCommit forwards s.pool f.buf f.dptr).1, .idle,
        s.queue ++ [committed (miiCommit forwards s.pool f.buf f.dptr).1 f.buf f.words], s.sent ++ [f.buf]⟩
  | drop (phase : (∃ buf, s.phase = .reserved buf) ∨ ∃ f, s.phase = .first f) :
    Taken forwards s .drop { s with phase := .idle }
  | set {k : Pkt} (f : Field) (x : Int) (member : k ∈ s.queue) (live : k.freed = false) :
    Taken forwards s (.set k.buf f x)
      { s with pool := setField f s.pool k.buf x, queue := onBuf k.buf (setHeader f x) s.queue }
  | free {k : Pkt} {p : Pool} (member : k ∈ s.queue) (live : k.freed = false) (returns : miiFree s.pool k.buf = some p) :
    Taken forwards s (.free k.buf) { s with pool := p, queue := free k.buf s.queue }

theorem stepCases {forwards : Bool} {s t : State} {e : Event} (taken : step forwards s e = some t) :
    Taken forwards s e t := by
  unfold step at taken
  split at taken
  case h_1 phase =>
    cases taken
    exact .reserve phase
  case h_2 time buf phase =>
    cases taken
    exact .sof time phase
  case h_3 word f phase =>
    cases taken
    dsimp only
    split
    · rename_i more
      exact .early phase more
    · rename_i five
      exact .sixth phase five
  case h_4 word f sixth ii phase =>
    dsimp only at taken
    split at taken
    · rename_i room
      cases taken
      exact .word phase room
    · rename_i full
      cases taken
      exact .lost word phase full
  case h_5 f sixth ii phase =>
    cases taken
    exact .eof phase
  case h_6 taillen tail f ii phase =>
    cases taken
    exact .port taillen tail phase
  case h_7 f tail field pending phase =>
    cases taken
    exact .header phase
  case h_8 f tail phase =>
    split at taken
    · rename_i room
      cases taken
      exact .tail phase room
    · rename_i full
      cases taken
      exact .full phase full
  case h_9 f phase =>
    dsimp only at taken
    split at taken
    · rename_i fails
      cases taken
      exact .refused phase fails
    · rename_i returns
      cases taken
      exact .commit phase returns
  case h_10 buf phase =>
    cases taken
    exact .drop (.inl ⟨buf, phase⟩)
  case h_11 f phase =>
    cases taken
    exact .drop (.inr ⟨f, phase⟩)
  case h_12 buf f x =>
    split at taken
    · rename_i member
      obtain ⟨k, member, rfl, live⟩ := member
      cases taken
      exact .set f x member live
    · cases taken
  case h_13 buf =>
    split at taken
    · rename_i member
      obtain ⟨k, member, rfl, live⟩ := member
      obtain ⟨p, returns, rfl⟩ := Option.map_eq_some_iff.mp taken
      exact .free member live returns
    · cases taken
  case h_14 => cases taken

theorem stepSends {forwards : Bool} {s t : State} {e : Event} (taken : step forwards s e = some t) (sends : t.sent ≠ s.sent) :
    e = .commit ∧ ∃ f, s.phase = .commit f ∧ (miiCommit forwards s.pool f.buf f.dptr).2 ≠ 0 ∧
      t = ⟨(miiCommit forwards s.pool f.buf f.dptr).1, .idle,
        s.queue ++ [committed (miiCommit forwards s.pool f.buf f.dptr).1 f.buf f.words], s.sent ++ [f.buf]⟩ := by
  cases stepCases taken with
  | @commit f phase returns => exact ⟨rfl, f, phase, returns, rfl⟩
  | _ => exact absurd rfl sends

/- Between the start and MIN_USAGE bytes before the end. -/
def WithinMargin (p : Pool) (ptr : Int) : Prop := p.start ≤ ptr ∧ minUsage ≤ 4 * (p.stop - ptr)

structure Sound (s : State) : Prop where
  rdptr : WithinMargin s.pool s.pool.rdptr
  wrptr : WithinMargin s.pool s.pool.wrptr
  chain : queued s.pool = s.queue.map Pkt.buf

structure StepSound (forwards : Bool) (s : State) (e : Event) (t : State) : Prop where
  written : (∀ buf f x, e ≠ .set buf f x) → (∀ buf, e ≠ .free buf) →
    t.pool.mem = storeAll s.pool.mem (stores forwards s e)
  outside : ∀ st ∈ stores forwards s e, (∀ k ∈ s.queue, ¬ covers s.pool k.buf st.1) ∧ st.1 ≠ s.pool.stop
  nonempty : t.sent ≠ s.sent → queued t.pool ≠ []

/-! Invariant. -/

structure Reserved (p : Pool) (r : Ring) (vr vw : Nat) (buf : Int) : Prop where
  buf : buf = p.wrptr + 2
  info : p.mem (r.place (vw + 1)) = p.info
  room : vw + 22 ≤ vr + r.size

def Words (p : Pool) (r : Ring) (vw : Nat) (words : List Int) (skip : Option Nat) : Prop :=
  ∀ i (h : i < words.length), skip ≠ some i → p.mem (r.place (vw + 12 + i)) = words[i]

structure Filling (p : Pool) (r : Ring) (vr vw : Nat) (f : Frame) (skip : Option Nat) : Prop where
  reserved : Reserved p r vr vw f.buf
  six : 6 ≤ f.words.length
  dptr : f.dptr = r.place (vw + 12 + f.words.length)
  inside : vw + 12 + f.words.length ≤ vr + r.size
  words : Words p r vw f.words skip

def PhaseInv (s : State) (r : Ring) (vr vw : Nat) : Prop :=
  match s.phase with
  | .idle => True
  | .reserved buf => Reserved s.pool r vr vw buf
  | .first f => Reserved s.pool r vr vw f.buf ∧ f.dptr = r.place (vw + 12) ∧ f.words.length ≤ 5 ∧
      Words s.pool r vw f.words none
  | .loop f sixth _ => Filling s.pool r vr vw f (some 5) ∧ f.words[5]? = some sixth
  | .port f _ => Filling s.pool r vr vw f none
  | .headers f _ _ => Filling s.pool r vr vw f none
  | .commit f => Filling s.pool r vr vw f none ∧ vw + 12 + f.words.length < vr + r.size

structure Ringed (s : State) (r : Ring) (vr vw : Nat) : Prop where
  rep : Rep s.pool s.queue r vr vw
  settled : Settled s.queue
  phase : PhaseInv s r vr vw

section frames
variable {p p' : Pool} {q : List Pkt} {r : Ring} {vr vr' vw : Nat} {f : Frame}

structure Behind (p p' : Pool) (r : Ring) (vr vr' vw : Nat) : Prop where
  le : vr ≤ vr'
  wrptr : p'.wrptr = p.wrptr
  info : p'.info = p.info
  same : ∀ x, vw ≤ x → x < vr + r.size → p'.mem (r.place x) = p.mem (r.place x)

theorem reservedBehind {buf : Int} (b : Behind p p' r vr vr' vw) (h : Reserved p r vr vw buf) :
    Reserved p' r vr' vw buf := by
  have room := h.room
  have le := b.le
  refine ⟨by rw [b.wrptr]; exact h.buf, ?_, by omega⟩
  rw [b.same _ (by omega) (by omega), b.info]
  exact h.info

theorem wordsBehind {words skip} (b : Behind p p' r vr vr' vw) (h : Words p r vw words skip)
    (inside : vw + 12 + words.length ≤ vr + r.size) : Words p' r vw words skip := by
  intro i bound ne
  rw [b.same _ (by omega) (by omega)]
  exact h i bound ne

theorem fillingBehind {skip} (b : Behind p p' r vr vr' vw) (h : Filling p r vr vw f skip) :
    Filling p' r vr' vw f skip := by
  have inside := h.inside
  have le := b.le
  exact ⟨reservedBehind b h.reserved, h.six, h.dptr, by omega, wordsBehind b h.words inside⟩

theorem phaseBehind {s t : State} (b : Behind s.pool t.pool r vr vr' vw) (phase : t.phase = s.phase)
    (h : PhaseInv s r vr vw) : PhaseInv t r vr' vw := by
  unfold PhaseInv at h ⊢
  rw [phase]
  cases now : s.phase with
  | idle => trivial
  | reserved buf => rw [now] at h; exact reservedBehind b h
  | first f =>
    rw [now] at h
    obtain ⟨res, dptr, five, words⟩ := h
    have room := res.room
    exact ⟨reservedBehind b res, dptr, five, wordsBehind b words (by omega)⟩
  | loop f sixth ii => rw [now] at h; exact ⟨fillingBehind b h.1, h.2⟩
  | port f ii => rw [now] at h; exact fillingBehind b h
  | headers f tail pending => rw [now] at h; exact fillingBehind b h
  | commit f =>
    rw [now] at h
    have le := b.le
    exact ⟨fillingBehind b h.1, by have := h.2; omega⟩

theorem reservedStore {buf : Int} (h : Rep p q r vr vw) (res : Reserved p r vr vw buf) {x : Nat}
    {y : Int} (lo : vw + 2 ≤ x) (hi : x < vr + r.size) :
    Reserved { p with mem := store p.mem (r.place x) y } r vr vw buf := by
  have le := repLe h
  refine { res with info := (storeOther ?_).trans res.info }
  exact r.placeNe (a := vr) ⟨by omega, by omega⟩ ⟨by omega, hi⟩ (by omega)

theorem wordsStore {words skip} (h : Rep p q r vr vw) (ws : Words p r vw words skip) {x : Nat}
    {y : Int} (lo : vw ≤ x) (hi : x < vr + r.size) (inside : vw + 12 + words.length ≤ vr + r.size)
    (apart : x < vw + 12 ∨ vw + 12 + words.length ≤ x ∨ skip = some (x - (vw + 12))) :
    Words { p with mem := store p.mem (r.place x) y } r vw words skip := by
  have le := repLe h
  intro i bound ne
  refine (storeOther ?_).trans (ws i bound ne)
  refine r.placeNe (a := vr) ⟨by omega, by omega⟩ ⟨by omega, hi⟩ ?_
  intro same
  rcases apart with a | a | a
  · omega
  · omega
  · rw [show x - (vw + 12) = i by omega] at a
    exact ne a

theorem wordsNext {words skip val} (h : Rep p q r vr vw) (ws : Words p r vw words skip)
    (hi : vw + 12 + words.length < vr + r.size) :
    Words { p with mem := store p.mem (r.place (vw + 12 + words.length)) val } r vw
      (words ++ [val]) skip := by
  have old := wordsStore (y := val) h ws (x := vw + 12 + words.length) (by omega) hi (by omega)
    (.inr (.inl (Nat.le_refl _)))
  intro i bound ne
  rw [List.length_append, List.length_singleton] at bound
  rw [List.getElem_append]
  split
  · rename_i small; exact old i small ne
  · have last : i = words.length := by omega
    subst last
    simp

theorem wordsSixth {words sixth} (h : Rep p q r vr vw) (ws : Words p r vw words (some 5)) (five : words[5]? = some sixth)
    (room : vw + 2 + 15 < vr + r.size) (inside : vw + 12 + words.length ≤ vr + r.size) :
    Words { p with mem := store p.mem (r.place (vw + 2 + 15)) sixth } r vw words none := by
  intro i bound ne
  by_cases last : i = 5
  · subst last
    have value : words[5] = sixth := by
      rw [List.getElem?_eq_getElem bound] at five
      exact Option.some.inj five
    rw [show vw + 12 + 5 = vw + 2 + 15 by omega]
    exact (storeSame _ _ _).trans value.symm
  · exact wordsStore h ws (by omega) room inside (.inr (.inr (by simp))) i bound (by simpa using Ne.symm last)

theorem dptrFree {skip} (h : Rep p q r vr vw) (fill : Filling p r vr vw f skip) :
    f.dptr ≠ p.rdptr ↔ vw + 12 + f.words.length < vr + r.size := by
  have le := repLe h
  have inside := fill.inside
  rw [fill.dptr, h.rdptr]
  constructor
  · intro ne
    by_contra full
    apply ne
    rw [show vw + 12 + f.words.length = vr + r.size by omega, r.placeSize]
  · intro room
    exact r.placeNe (a := vr) ⟨by omega, room⟩ ⟨Nat.le_refl _, by have := r.positive; omega⟩ (by omega)

theorem reservedPlace {buf : Int} (h : Rep p q r vr vw) (res : Reserved p r vr vw buf) {k : Nat}
    (small : k < 20) : buf + k = r.place (vw + 2 + k) := by
  have place := repWrptr h (k := 2 + k) (by omega)
  rw [res.buf, show vw + 2 + k = vw + (2 + k) by omega, place]
  push_cast; omega

theorem sixthPlace {buf : Int} (h : Rep p q r vr vw) (res : Reserved p r vr vw buf) :
    miiPacketGetDataPtr buf + 5 = r.place (vw + 2 + 15) := by
  rw [← reservedPlace h res (k := 15) (by omega), miiPacketGetDataPtr, bufDataOffset]
  push_cast; omega

theorem firstPlace {n : Nat} (h : Rep p q r vr vw) (five : n ≤ 5) : r.place (vw + 12) + n = r.place (vw + 12 + n) := by
  rw [repWrptr h (k := 12) (by omega), Nat.add_assoc, repWrptr h (k := 12 + n) (by omega)]
  push_cast; omega

theorem reserveCases (h : Rep p q r vr vw) :
    ((miiReserve p 0).1 = p ∧ (miiReserve p 0).2.1 = 0) ∨
    ((miiReserve p 0).1 = { p with mem := store p.mem (p.wrptr + 1) p.info } ∧
      (miiReserve p 0).2.1 = p.wrptr + 2 ∧ p.wrptr + 1 = r.place (vw + 1) ∧ vw + 22 ≤ vr + r.size) := by
  unfold miiReserve
  split
  · exact .inl ⟨rfl, rfl⟩
  · rename_i short
    exact .inr ⟨rfl, rfl, (repWrptr h (k := 1) (by omega)).symm, repFreeWords h short⟩

theorem commitCases (forwards : Bool) (h : Rep p q r vr vw) (fill : Filling p r vr vw f none)
    (spare : vw + 12 + f.words.length < vr + r.size) :
    miiCommit forwards p f.buf f.dptr = (p, 0) ∨
    ∃ D, vw + 12 + f.words.length ≤ D ∧ D < vr + r.size ∧ r.place D + 22 ≤ r.limit ∧
      miiCommit forwards p f.buf f.dptr = commitAt forwards p f.buf (r.place D) := by
  rw [fill.dptr, miiCommitEq h]
  split
  · rename_i near
    split
    · exact .inl rfl
    · rename_i away
      exact .inr ⟨_, by omega, lapFree h near (by omega) away, lapRoom h _, rfl⟩
  · exact .inr ⟨_, Nat.le_refl _, spare, by omega, rfl⟩

theorem commitStoresAt (forwards : Bool) {buf endPtr at_ : Int}
    (commit : miiCommit forwards p buf endPtr = commitAt forwards p buf at_) :
    commitStores forwards p buf endPtr = (buf + Field.stage.offset, 0) ::
      (if forwards then [(buf + Field.forwarding.offset, 0)] else []) ++
      [(buf - mallocHdrSize / 4, at_)] ∧
    (miiCommit forwards p buf endPtr).1.mem = storeAll p.mem (commitStores forwards p buf endPtr) := by
  unfold commitStores
  rw [commit]
  cases forwards <;>
    simp [commitAt, miiPacketSetStage, miiPacketSetForwarding, setField]

theorem commitPlaced {forwards : Bool} {buf at_ : Int} {st : Int × Int} (h : Rep p q r vr vw) (res : Reserved p r vr vw buf)
    (member : st ∈ (buf + Field.stage.offset, 0) :: (if forwards then [(buf + Field.forwarding.offset, 0)] else []) ++
      [(buf - mallocHdrSize / 4, at_)]) :
    st.1 = r.place (vw + 2 + 5) ∨ st.1 = r.place (vw + 2 + 8) ∨ st.1 = r.place vw := by
  have stage := reservedPlace h res (k := 5) (by omega)
  have forwarding := reservedPlace h res (k := 8) (by omega)
  have buf := res.buf
  have wrptr := h.wrptr
  cases forwards <;> simp [Field.offset, mallocHdrSize] at member <;> grind

end frames

section steps
variable {forwards : Bool} {s t : State} {e : Event} {r : Ring} {vr vw : Nat}

theorem storesPlaced (h : Ringed s r vr vw) : ∀ st ∈ stores forwards s e,
    ∃ x, vw ≤ x ∧ (e ≠ .commit → vw < x) ∧ x < vr + r.size ∧ st.1 = r.place x := by
  intro st member
  have inv := h.phase
  unfold PhaseInv at inv
  cases e with
  | reserve =>
    cases phase : s.phase <;> simp only [stores, phase] at member
    · rcases reserveCases h.rep with ⟨-, fails⟩ | ⟨-, ok, next, room⟩
      · simp [fails] at member
      · split at member
        · cases member
        · rw [List.mem_singleton.mp member]
          exact ⟨vw + 1, by omega, fun _ => by omega, by omega, next⟩
    all_goals cases member
  | word word =>
    cases phase : s.phase <;> simp only [stores, phase] at member inv
    case first f =>
      obtain ⟨res, dptr, five, -⟩ := inv
      have room := res.room
      split at member
      · rename_i small
        rw [List.mem_singleton.mp member]
        refine ⟨vw + 12 + f.words.length, by omega, fun _ => by omega, by omega, ?_⟩
        rw [dptr]
        exact firstPlace h.rep five
      · cases member
    case loop f sixth ii =>
      split at member
      · rename_i free
        rw [List.mem_singleton.mp member]
        exact ⟨_, by omega, fun _ => by omega, (dptrFree h.rep inv.1).mp free, inv.1.dptr⟩
      · cases member
    all_goals cases member
  | eof =>
    cases phase : s.phase <;> simp only [stores, phase] at member inv
    case loop f sixth ii =>
      have room := inv.1.reserved.room
      rw [List.mem_singleton.mp member]
      exact ⟨vw + 2 + 15, by omega, fun _ => by omega, by omega, sixthPlace h.rep inv.1.reserved⟩
    all_goals cases member
  | header =>
    cases phase : s.phase <;> simp only [stores, phase] at member inv
    case headers f tail pending =>
      cases pending with
      | nil => cases member
      | cons field pending =>
        have room := inv.reserved.room
        have bound := offsetBound field.1
        rw [List.mem_singleton.mp member]
        exact ⟨vw + 2 + field.1.offset, by omega, fun _ => by omega, by omega,
          reservedPlace h.rep inv.reserved (by omega)⟩
    all_goals cases member
  | tail =>
    cases phase : s.phase <;> simp only [stores, phase] at member inv
    case headers f tail pending =>
      cases pending with
      | cons field pending => cases member
      | nil =>
        simp only at member
        split at member
        · rename_i free
          rw [List.mem_singleton.mp member]
          exact ⟨_, by omega, fun _ => by omega, (dptrFree h.rep inv).mp free, inv.dptr⟩
        · cases member
    all_goals cases member
  | commit =>
    cases phase : s.phase <;> simp only [stores, phase] at member inv
    case commit f =>
      obtain ⟨fill, spare⟩ := inv
      have room := fill.reserved.room
      rcases commitCases forwards h.rep fill spare with fails | ⟨D, -, -, -, commit⟩
      · simp [commitStores, fails] at member
      · rw [(commitStoresAt forwards commit).1] at member
        rcases commitPlaced h.rep fill.reserved member with a | a | a
        · exact ⟨_, by omega, fun other => absurd rfl other, by omega, a⟩
        · exact ⟨_, by omega, fun other => absurd rfl other, by omega, a⟩
        · exact ⟨_, by omega, fun other => absurd rfl other, by omega, a⟩
    all_goals cases member
  | _ => simp [stores] at member

theorem storesWritable (h : Ringed s r vr vw) : ∀ st ∈ stores forwards s e, Writable r vr vw st.1 := by
  intro st member
  obtain ⟨x, lo, -, hi, place⟩ := storesPlaced h st member
  exact ⟨x, lo, hi, place⟩

theorem wordKeeps (h : Ringed s r vr vw) {word : BitVec 32}
    (taken : step forwards s (.word word) = some t) : Ringed t r vr vw := by
  have inv := h.phase
  unfold PhaseInv at inv
  cases stepCases taken with
  | @early f _ phase small =>
    simp only [phase] at inv
    obtain ⟨res, dptr, five, words⟩ := inv
    have room := res.room
    have place := repWrptr h.rep (k := 12) (by omega)
    have next := repWrptr h.rep (k := 12 + f.words.length) (by omega)
    have addr : f.dptr + f.words.length = r.place (vw + 12 + f.words.length) := by
      rw [dptr, place, Nat.add_assoc, next]; push_cast; omega
    simp only [stored, stores, phase, if_pos small, storeAllCons, storeAllNil, addr]
    refine ⟨repStore h.rep (by omega) (by omega) _, h.settled, ?_⟩
    exact ⟨reservedStore h.rep res (by omega) (by omega), dptr,
      by rw [List.length_append, List.length_singleton]; omega,
      wordsNext h.rep words (by omega)⟩
  | @sixth f _ phase small =>
    simp only [phase] at inv
    obtain ⟨res, dptr, five, words⟩ := inv
    have room := res.room
    have place := repWrptr h.rep (k := 12) (by omega)
    have full : f.words.length = 5 := by omega
    simp only [stored, stores, phase, if_neg small, storeAllNil]
    refine ⟨h.rep, h.settled, ⟨res, by simp; omega, ?_, by simp; omega, ?_⟩, ?_⟩
    · have six := repWrptr h.rep (k := 18) (by omega)
      simp only [List.length_append, List.length_singleton, full]
      rw [dptr, place, six]; push_cast; omega
    · intro i bound ne
      rw [List.length_append, List.length_singleton] at bound
      have early : i < f.words.length := by
        have : i ≠ 5 := fun same => ne (by rw [same])
        omega
      rw [List.getElem_append_left early]
      exact words i early (by simp)
    · simp [← full]
  | @word f sixth ii _ phase free =>
    simp only [phase] at inv
    obtain ⟨fill, five⟩ := inv
    have six := fill.six
    have room := (dptrFree h.rep fill).mp free
    simp only [stored, stores, phase, if_pos free, storeAllCons, storeAllNil]
    rw [fill.dptr]
    have rep := repStore h.rep (x := vw + 12 + f.words.length) (by omega) room word.toInt
    refine ⟨rep, h.settled, ⟨reservedStore h.rep fill.reserved (by omega) room, by simp; omega, ?_,
      by simp; omega, wordsNext h.rep fill.words room⟩, ?_⟩
    · rw [nextDataPtrRep rep]; simp [Nat.add_assoc]
    · rw [List.getElem?_append_left (by omega)]; exact five
  | lost _ phase full => exact h

theorem stepAdvances (h : Ringed s r vr vw) (taken : step forwards s e = some t) :
    ∃ vr' vw', vr ≤ vr' ∧ (t.sent = s.sent → vw' = vw) ∧ Ringed t r vr' vw' := by
  have inv := h.phase
  unfold PhaseInv at inv
  cases stepCases taken with
  | reserve phase =>
    rcases reserveCases h.rep with ⟨same, fails⟩ | ⟨mem, ok, next, room⟩
    · rw [same]
      exact ⟨vr, vw, Nat.le_refl _, fun _ => rfl, h.rep, h.settled, by simp [PhaseInv, fails]⟩
    · have positive : 0 < s.pool.wrptr := by rw [h.rep.wrptr]; exact placePositive h.rep vw
      rw [mem, ok, if_neg (by omega), next]
      exact ⟨vr, vw, Nat.le_refl _, fun _ => rfl, repStore h.rep (by omega) (by omega) _, h.settled, rfl, storeSame _ _ _, room⟩
  | sof time phase =>
    simp only [phase] at inv
    refine ⟨vr, vw, Nat.le_refl _, fun _ => rfl, h.rep, h.settled, inv, ?_, Nat.zero_le _, ?_⟩
    · rw [miiPacketGetDataPtr, inv.buf, repWrptr h.rep (k := 12) (by omega), bufDataOffset]
      push_cast; omega
    · intro i bound
      simp at bound
  | early | sixth | word | lost => exact ⟨vr, vw, Nat.le_refl _, fun _ => rfl, wordKeeps h taken⟩
  | @eof f sixth ii phase =>
    simp only [phase] at inv
    obtain ⟨fill, five⟩ := inv
    have room := fill.reserved.room
    have inside := fill.inside
    have six := fill.six
    simp only [stored, stores, phase, storeAllCons, storeAllNil, sixthPlace h.rep fill.reserved]
    refine ⟨vr, vw, Nat.le_refl _, fun _ => rfl, repStore h.rep (by omega) (by omega) _, h.settled,
      reservedStore h.rep fill.reserved (by omega) (by omega), six, fill.dptr, inside, ?_⟩
    exact wordsSixth h.rep fill.words five (by omega) inside
  | port _ _ phase =>
    simp only [phase] at inv
    exact ⟨vr, vw, Nat.le_refl _, fun _ => rfl, h.rep, h.settled, inv⟩
  | @header f tail field pending phase =>
    simp only [phase] at inv
    have room := inv.reserved.room
    have bound := offsetBound field.1
    have addr := reservedPlace h.rep inv.reserved (k := field.1.offset) (by omega)
    simp only [stored, stores, phase, storeAllCons, storeAllNil, addr]
    refine ⟨vr, vw, Nat.le_refl _, fun _ => rfl, repStore h.rep (by omega) (by omega) _, h.settled,
      reservedStore h.rep inv.reserved (by omega) (by omega), inv.six, inv.dptr, inv.inside, ?_⟩
    exact wordsStore h.rep inv.words (by omega) (by omega) inv.inside (.inl (by omega))
  | @tail f tail phase free =>
    simp only [phase] at inv
    have room := (dptrFree h.rep inv).mp free
    have six := inv.six
    simp only [stored, stores, phase, if_pos free, storeAllCons, storeAllNil]
    rw [inv.dptr]
    refine ⟨vr, vw, Nat.le_refl _, fun _ => rfl, repStore h.rep (by omega) room _, h.settled,
      ⟨reservedStore h.rep inv.reserved (by omega) room, six, inv.dptr, inv.inside, ?_⟩, room⟩
    exact wordsStore h.rep inv.words (by omega) room inv.inside (.inr (.inl (Nat.le_refl _)))
  | full | drop => exact ⟨vr, vw, Nat.le_refl _, fun _ => rfl, h.rep, h.settled, trivial⟩
  | @refused f phase fails =>
    simp only [phase] at inv
    rcases commitCases forwards h.rep inv.1 inv.2 with same | ⟨D, -, -, -, commit⟩
    · rw [same]
      exact ⟨vr, vw, Nat.le_refl _, fun _ => rfl, h.rep, h.settled, trivial⟩
    · simp [commit, commitAt] at fails
  | @commit f phase returns =>
    simp only [phase] at inv
    obtain ⟨fill, spare⟩ := inv
    rcases commitCases forwards h.rep fill spare with fails | ⟨D, le, window, room, commit⟩
    · rw [fails] at returns
      exact absurd rfl returns
    · have rep := commitRep h.rep forwards le window room fill.reserved.info
        (fun i b => fill.words i b (by simp))
      rw [← fill.reserved.buf] at rep
      rw [commit]
      exact ⟨vr, D, Nat.le_refl _, fun same => by simp at same, rep, settledAppend h.settled rfl, trivial⟩
  | set f x member live =>
    obtain ⟨rep, same⟩ := setFieldRep h.rep member f x
    exact ⟨vr, vw, Nat.le_refl _, fun _ => rfl, rep, settledOnBuf h.settled _ _ (fun _ => rfl),
      phaseBehind (s := s) ⟨Nat.le_refl _, rfl, rfl, same⟩ rfl h.phase⟩
  | @free k p member live returns =>
    obtain ⟨p', vr', exact_, rep, le, info, same⟩ := miiFreeRep h.rep h.settled member live
    obtain rfl : p = p' := Option.some.inj (returns.symm.trans exact_)
    have wrptr : p.wrptr = s.pool.wrptr := by rw [rep.wrptr, h.rep.wrptr]
    exact ⟨vr', vw, le, fun _ => rfl, rep, reclaimSettled _,
      phaseBehind (s := s) ⟨le, wrptr, info, same⟩ rfl h.phase⟩

theorem stepKeeps (h : Ringed s r vr vw) (taken : step forwards s e = some t) :
    ∃ vr' vw', Ringed t r vr' vw' := by
  obtain ⟨vr', vw', -, -, next⟩ := stepAdvances h taken
  exact ⟨vr', vw', next⟩

theorem stepWrites (h : Ringed s r vr vw) (taken : step forwards s e = some t)
    (notSet : ∀ buf f x, e ≠ .set buf f x) (notFree : ∀ buf, e ≠ .free buf) :
    t.pool.mem = storeAll s.pool.mem (stores forwards s e) := by
  have inv := h.phase
  unfold PhaseInv at inv
  cases stepCases taken with
  | set f x => exact absurd rfl (notSet _ f x)
  | free => exact absurd rfl (notFree _)
  | reserve phase =>
    have positive : 0 < s.pool.wrptr := by rw [h.rep.wrptr]; exact placePositive h.rep vw
    rcases reserveCases h.rep with ⟨same, fails⟩ | ⟨mem, ok, -, -⟩
    · simp [stores, phase, same, fails]
    · have ne : (miiReserve s.pool 0).2.1 ≠ 0 := by omega
      simp [stores, phase, mem, if_neg ne]
  | refused phase fails =>
    simp only [phase] at inv
    rcases commitCases forwards h.rep inv.1 inv.2 with same | ⟨D, -, -, -, commit⟩
    · simp [stores, phase, commitStores, same]
    · simp [commit, commitAt] at fails
  | commit phase returns =>
    simp only [phase] at inv
    rcases commitCases forwards h.rep inv.1 inv.2 with fails | ⟨D, -, -, -, commit⟩
    · rw [fails] at returns
      exact absurd rfl returns
    · simpa only [stores, phase] using (commitStoresAt forwards commit).2
  | lost _ phase full | full phase full => simp [stores, phase, if_neg full]
  | early | sixth | word | eof | header | tail => rfl
  | sof | port | drop => rfl

theorem stepQueue (h : Ringed s r vr vw) (taken : step forwards s e = some t) :
    (t.queue = s.queue ∧ t.sent = s.sent ∧ t.pool.wrptr = s.pool.wrptr) ∨
    (∃ k : Pkt, e = .commit ∧ k.freed = false ∧ k.buf = s.pool.wrptr + 2 ∧
      t.queue = s.queue ++ [k] ∧ t.sent = s.sent ++ [k.buf]) ∨
    (∃ buf f x, e = .set buf f x ∧ t.queue = onBuf buf (setHeader f x) s.queue ∧ t.sent = s.sent ∧
      t.pool.wrptr = s.pool.wrptr) ∨
    (∃ buf, e = .free buf ∧ t.queue = free buf s.queue ∧ t.sent = s.sent ∧
      t.pool.wrptr = s.pool.wrptr) := by
  have inv := h.phase
  unfold PhaseInv at inv
  cases stepCases taken with
  | reserve phase =>
    have wrptr : (miiReserve s.pool 0).1.wrptr = s.pool.wrptr := by
      rcases reserveCases h.rep with ⟨same, -⟩ | ⟨mem, -, -, -⟩
      · rw [same]
      · rw [mem]
    exact .inl ⟨rfl, rfl, wrptr⟩
  | refused phase fails =>
    simp only [phase] at inv
    rcases commitCases forwards h.rep inv.1 inv.2 with same | ⟨D, -, -, -, commit⟩
    · exact .inl ⟨rfl, rfl, by rw [same]⟩
    · simp [commit, commitAt] at fails
  | commit phase returns =>
    simp only [phase] at inv
    exact .inr (.inl ⟨_, rfl, rfl, inv.1.reserved.buf, rfl, rfl⟩)
  | set => exact .inr (.inr (.inl ⟨_, _, _, rfl, rfl, rfl, rfl⟩))
  | free _ _ returns => exact .inr (.inr (.inr ⟨_, rfl, rfl, rfl, miiFreeLoopWrptr returns⟩))
  | _ => exact .inl ⟨rfl, rfl, rfl⟩

theorem stepSound (h : Ringed s r vr vw) (taken : step forwards s e = some t) :
    StepSound forwards s e t := by
  obtain ⟨vr', vw', next⟩ := stepKeeps h taken
  refine ⟨stepWrites h taken, fun st member => writableOutside h.rep (storesWritable h st member), ?_⟩
  intro sent
  rw [queuedRep next.rep]
  obtain ⟨-, f, -, -, rfl⟩ := stepSends taken sent
  simp

theorem withinMargin {v : Nat} (h : Rep s.pool s.queue r vr vw) (room : r.place v + 22 ≤ r.limit) :
    WithinMargin s.pool (r.place v) := by
  have low := r.placeLower v
  rw [WithinMargin, h.start, h.stop, minUsage, miiPacketHeaderSize, mallocHdrSize]
  omega

theorem ringedSound (h : Ringed s r vr vw) : Sound s := by
  refine ⟨?_, ?_, queuedRep h.rep⟩
  · rw [h.rep.rdptr]; exact withinMargin h.rep (repRdRoom h.rep)
  · rw [h.rep.wrptr]; exact withinMargin h.rep h.rep.wrRoom

end steps

theorem ringedInitial (mem : Int → Int) (mempool memsize : Nat) (enough : 28 ≤ memsize) :
    ∃ r vr vw, Ringed (initial mem mempool memsize) r vr vw := by
  refine ⟨_, 0, 0, initRep mem mempool memsize enough, ?_, trivial⟩
  intro k head
  simp [initial] at head

/-- In every state of every run the pointers keep their margin, the chain is the queue, and
whatever the receiver does next stays outside the packets and the word at the end. -/
theorem receiverKeepsPackets (forwards : Bool) (mem : Int → Int) (mempool memsize : Nat)
    (large : 512 ≤ 4 * memsize) (es : List Event) :
    Always (step forwards)
      (fun s => Sound s ∧ ∀ e t, step forwards s e = some t → StepSound forwards s e t)
      (initial mem mempool memsize) es := by
  refine alwaysInvariant (I := fun s => ∃ r vr vw, Ringed s r vr vw) ?_ ?_
    (ringedInitial mem mempool memsize (by omega)) es
  · rintro s e t ⟨r, vr, vw, h⟩ taken
    obtain ⟨vr', vw', next⟩ := stepKeeps h taken
    exact ⟨r, vr', vw', next⟩
  · rintro s ⟨r, vr, vw, h⟩
    exact ⟨ringedSound h, fun e t => stepSound h⟩

/- A frame of eight words through the smallest pool, freed while the next one comes in. -/
def twoFrames : List Event :=
  [.reserve, .sof 7] ++ List.replicate 8 (.word 5) ++
  [.eof, .port 8 3, .header, .header, .header, .tail, .commit, .reserve, .sof 9, .word 1, .free 7]

theorem receiverKeepsTwoFrames :
    (run (step true) (initial (fun _ => 0) 0 128) twoFrames).isSome = true ∧
    Always (step true) (fun s => Sound s ∧ ∀ e t, step true s e = some t → StepSound true s e t)
      (initial (fun _ => 0) 0 128) twoFrames :=
  ⟨by decide +kernel, receiverKeepsPackets true (fun _ => 0) 0 128 (by decide) twoFrames⟩

end ScEthernet.Full.RxPins
