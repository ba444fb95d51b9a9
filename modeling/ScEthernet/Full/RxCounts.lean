import ScEthernet.Full.RxPins

/-! mii_rx_pins over its one or two pools, with ETHERNET_COUNT_PACKETS: what becomes of every frame
whose start delimiter it has seen. In each pool the stores are those of RxPins; a frame that goes to
the other pool is dropped there. ETHERNET_RX_TRAP_ON_OUT_OF_MEMORY is off. -/
namespace ScEthernet.Full.RxCounts
open Lib.Runs Malloc PoolQueue

/- Where the receiver is: `first` has read that many words, `fifth` has chosen the pool of high
priority or the other, `frame` is behind the fifth word. -/
inductive Control where
  | begin
  | reserved
  | first (n : Nat)
  | fifth (hp : Bool)
  | frame (hp : Bool)
  | noAvailableBuffers
  | priorityUnavailable
  deriving DecidableEq

/- There is a pool of high priority with ETHERNET_RX_HP_QUEUE only. -/
structure State where
  hp : Option RxPins.State
  lp : RxPins.State
  control : Control
  noQueueEntries : BitVec 32
  /- History: the start delimiters. -/
  sofs : Nat

inductive Event where
  | reserve
  | sof (time : Int)
  | word (word : BitVec 32)
  | eof
  | port (taillen : Fin 32) (tail : BitVec 32)
  | header
  | tail
  | commit
  | rxdv
  | set (hp : Bool) (buf : Int) (f : Field) (x : Int)
  | free (hp : Bool) (buf : Int)

def State.pool (s : State) (hp : Bool) : Option RxPins.State := if hp then s.hp else some s.lp

def State.setPool (s : State) (hp : Bool) (p : RxPins.State) : State :=
  if hp then { s with hp := some p } else { s with lp := p }

def holds (p : RxPins.State) : Bool :=
  match p.phase with
  | .idle => false
  | _ => true

def take (forwards : Bool) (e : RxPins.Event) (p : RxPins.State) : Option RxPins.State :=
  if holds p then RxPins.step forwards p e else some p

def eachPool (f : RxPins.State → Option RxPins.State) : Option RxPins.State → Option (Option RxPins.State)
  | none => some none
  | some p => (f p).map some

def each (f : RxPins.State → Option RxPins.State) (s : State) (control : Control) : Option State := do
  let hp ← eachPool f s.hp
  let lp ← f s.lp
  some { s with hp := hp, lp := lp, control := control }

/- The pool of the ethertype, etype == 0x0081. -/
def chosen (s : State) (word : BitVec 32) : Bool := s.hp.isSome && decide (word.setWidth 16 = 0x0081#16)

/- A step of the frame in its pool; without its buffer the receiver begins again. -/
def inPool (forwards : Bool) (s : State) (hp : Bool) (e : RxPins.Event) : Option State := do
  let p ← s.pool hp
  let p ← RxPins.step forwards p e
  some { s.setPool hp p with control := if holds p then .frame hp else .begin }

def other (forwards : Bool) (s : State) (hp : Bool) (e : RxPins.Event) : Option State := do
  let p ← s.pool hp
  let p ← RxPins.step forwards p e
  some (s.setPool hp p)

def step (forwards : Bool) (s : State) (e : Event) : Option State :=
  match e, s.control with
  | .reserve, .begin => each (fun p => RxPins.step forwards p .reserve) s .reserved
  | .sof time, .reserved =>
    let s := { s with sofs := s.sofs + 1 }
    if holds s.lp || s.hp.any holds then each (take forwards (.sof time)) s (.first 0)
    else some { s with noQueueEntries := s.noQueueEntries + 1#32, control := .noAvailableBuffers }
  | .rxdv, .noAvailableBuffers => some { s with control := .begin }
  | .word word, .first n => do
    let t ← each (take forwards (.word word)) s (.first (n + 1))
    if n < 3 then some t
    else
      let hp := chosen s word
      match t.pool (!hp) with
      | none => some { t with control := .fifth hp }
      | some p => (take forwards .drop p).map (fun p => { t.setPool (!hp) p with control := .fifth hp })
  | .word word, .fifth hp => do
    let p ← s.pool hp
    if holds p then inPool forwards s hp (.word word)
    else some { s with control := .priorityUnavailable }
  | .rxdv, .priorityUnavailable =>
    some { s with noQueueEntries := s.noQueueEntries + 1#32, control := .begin }
  | .word word, .frame hp => inPool forwards s hp (.word word)
  | .eof, .frame hp => inPool forwards s hp .eof
  | .port taillen tail, .frame hp => inPool forwards s hp (.port taillen tail)
  | .header, .frame hp => inPool forwards s hp .header
  | .tail, .frame hp => inPool forwards s hp .tail
  | .commit, .frame hp => inPool forwards s hp .commit
  | .set hp buf f x, _ => other forwards s hp (.set buf f x)
  | .free hp buf, _ => other forwards s hp (.free buf)
  | _, _ => none

def start (hp : Option (Pool × List Pkt)) (lp : Pool × List Pkt) : State :=
  ⟨hp.map (fun x => ⟨x.1, .idle, x.2, []⟩), ⟨lp.1, .idle, lp.2, []⟩, .begin, 0#32, 0⟩

def sent (s : State) : Nat := (s.hp.elim 0 (fun p => p.sent.length)) + s.lp.sent.length

def Counted (s : State) : Prop :=
  s.control = .begin ∨ s.control = .reserved → BitVec.ofNat 32 s.sofs = BitVec.ofNat 32 (sent s) + s.noQueueEntries

/- The end of the frame finds room for the tail, and its commit is not refused. -/
def TailRoom (p : RxPins.State) : Prop := ∀ f tail, p.phase = .headers f tail [] → f.dptr ≠ p.pool.rdptr
def CommitRoom (p : RxPins.State) : Prop := ∀ f, p.phase = .commit f →
  ¬ (belowUnsigned (4 * (p.pool.stop - f.dptr)) minUsage ∧ p.pool.rdptrAtStart ≠ 0)

def Kept (s : State) (e : Event) : Prop :=
  ∀ hp, s.control = .frame hp → ∀ p ∈ s.pool hp, (e = .tail → TailRoom p) ∧ (e = .commit → CommitRoom p)

section pool
variable {forwards : Bool} {p q : RxPins.State} {e : RxPins.Event}

theorem commitReturns (forwards : Bool) (p : Pool) (buf endPtr : Int) : (miiCommit forwards p buf endPtr).2 = 0 ↔
    belowUnsigned (4 * (p.stop - endPtr)) minUsage ∧ p.rdptrAtStart ≠ 0 := by
  unfold miiCommit
  split
  · rename_i near
    split
    · rename_i atStart
      exact ⟨fun _ => ⟨near, atStart⟩, fun _ => rfl⟩
    · rename_i away
      exact ⟨fun zero => absurd zero (by simp [commitAt]), fun both => absurd both.2 away⟩
  · rename_i far
    exact ⟨fun zero => absurd zero (by simp [commitAt]), fun both => absurd both.1 far⟩

theorem poolSent (taken : RxPins.step forwards p e = some q) (quiet : e ≠ .commit) : q.sent = p.sent := by
  cases RxPins.stepCases taken with
  | refused | commit => exact absurd rfl quiet
  | _ => rfl

inductive Inner : RxPins.Event → Prop
  | word (w) : Inner (.word w)
  | eof : Inner .eof
  | port (taillen tail) : Inner (.port taillen tail)
  | header : Inner .header

theorem innerHolds (inner : Inner e) (taken : RxPins.step forwards p e = some q) : holds q = true := by
  cases RxPins.stepCases taken with
  | lost _ phase => simp only [holds, phase]
  | early | sixth | word | eof | port | header => rfl
  | _ => cases inner

theorem tailEnds (taken : RxPins.step forwards p .tail = some q) : q.sent = p.sent ∧ (holds q = true ↔ TailRoom p) := by
  refine ⟨poolSent taken (by simp), ?_⟩
  cases RxPins.stepCases taken with
  | tail phase room =>
    refine ⟨fun _ g tail' same => ?_, fun _ => rfl⟩
    rw [phase] at same
    cases same
    exact room
  | full phase full => exact ⟨(fun held => by cases held), fun room => absurd (room _ _ phase) full⟩

theorem commitEnds (taken : RxPins.step forwards p .commit = some q) : holds q = false ∧
    (CommitRoom p → q.sent.length = p.sent.length + 1) ∧ (¬ CommitRoom p → q.sent = p.sent) := by
  have room : ∀ {f : RxPins.Frame}, p.phase = .commit f → (CommitRoom p ↔ ¬ (miiCommit forwards p.pool f.buf f.dptr).2 = 0) := by
    intro f phase
    rw [commitReturns forwards p.pool f.buf f.dptr]
    refine ⟨fun all => all f phase, fun one g same => ?_⟩
    rw [phase] at same
    cases same
    exact one
  cases RxPins.stepCases taken with
  | refused phase fails => exact ⟨rfl, fun kept => absurd fails ((room phase).mp kept), fun _ => rfl⟩
  | commit phase returns => exact ⟨rfl, fun _ => List.length_append, fun lost => absurd ((room phase).mpr returns) lost⟩

end pool

def owed : Control → BitVec 32
  | .begin | .reserved | .noAvailableBuffers => 0#32
  | _ => 1#32

def Balanced (s : State) : Prop :=
  BitVec.ofNat 32 s.sofs = BitVec.ofNat 32 (sent s) + s.noQueueEntries + owed s.control

section run
variable {forwards : Bool} {s t : State} {e : Event} {hp : Bool}

@[simp] theorem setPoolControl (s : State) (hp : Bool) (q : RxPins.State) : (s.setPool hp q).control = s.control := by
  unfold State.setPool
  split <;> rfl

@[simp] theorem setPoolEntries (s : State) (hp : Bool) (q : RxPins.State) :
    (s.setPool hp q).noQueueEntries = s.noQueueEntries := by
  unfold State.setPool
  split <;> rfl

@[simp] theorem setPoolSofs (s : State) (hp : Bool) (q : RxPins.State) : (s.setPool hp q).sofs = s.sofs := by
  unfold State.setPool
  split <;> rfl

theorem setPoolSent {p : RxPins.State} (here : p ∈ s.pool hp) (q : RxPins.State) :
    sent (s.setPool hp q) + p.sent.length = sent s + q.sent.length := by
  cases hp with
  | true =>
    have high : s.hp = some p := here
    simp only [State.setPool, sent, high, if_true, Option.elim_some]
    omega
  | false =>
    have low : s.lp = p := Option.some.inj here
    simp only [State.setPool, sent, low, if_false, Bool.false_eq_true]
    omega

theorem takeSent {p q : RxPins.State} {e : RxPins.Event} (taken : take forwards e p = some q) (quiet : e ≠ .commit) :
    q.sent = p.sent := by
  unfold take at taken
  split at taken
  · exact poolSent taken quiet
  · cases taken
    rfl

theorem eachTaken {f : RxPins.State → Option RxPins.State} {control : Control} (taken : each f s control = some t)
    (same : ∀ p q, f p = some q → q.sent = p.sent) :
    sent t = sent s ∧ t.sofs = s.sofs ∧ t.noQueueEntries = s.noQueueEntries ∧ t.control = control := by
  simp only [each, Option.bind_eq_bind, Option.bind_eq_some_iff] at taken
  obtain ⟨hp, high, lp, low, last⟩ := taken
  cases Option.some.inj last
  refine ⟨?_, rfl, rfl, rfl⟩
  have lows := same _ _ low
  cases pools : s.hp with
  | none =>
    rw [pools] at high
    cases Option.some.inj high
    simp only [sent, pools, lows, Option.elim_none]
  | some p =>
    rw [pools, eachPool] at high
    obtain ⟨q, step, rfl⟩ := Option.map_eq_some_iff.mp high
    simp only [sent, pools, lows, same _ _ step, Option.elim_some]

theorem inPoolTaken {e : RxPins.Event} (taken : inPool forwards s hp e = some t) : ∃ p ∈ s.pool hp, ∃ q,
    RxPins.step forwards p e = some q ∧ t = { s.setPool hp q with control := if holds q then .frame hp else .begin } := by
  simp only [inPool, Option.bind_eq_bind, Option.bind_eq_some_iff] at taken
  obtain ⟨p, here, q, step, last⟩ := taken
  exact ⟨p, here, q, step, (Option.some.inj last).symm⟩

theorem otherTaken {e : RxPins.Event} (taken : other forwards s hp e = some t) : ∃ p ∈ s.pool hp, ∃ q,
    RxPins.step forwards p e = some q ∧ t = s.setPool hp q := by
  simp only [other, Option.bind_eq_bind, Option.bind_eq_some_iff] at taken
  obtain ⟨p, here, q, step, last⟩ := taken
  exact ⟨p, here, q, step, (Option.some.inj last).symm⟩

theorem otherKeeps {e : RxPins.Event} (h : Balanced s) (quiet : e ≠ .commit) (taken : other forwards s hp e = some t) :
    Balanced t := by
  obtain ⟨p, here, q, step, rfl⟩ := otherTaken taken
  have same := setPoolSent here q
  rw [poolSent step quiet] at same
  have total : sent (s.setPool hp q) = sent s := by omega
  simp only [Balanced, setPoolControl, setPoolEntries, setPoolSofs, total]
  exact h

theorem inPoolSent {p q : RxPins.State} (here : p ∈ s.pool hp) {n : Nat} (more : q.sent.length = p.sent.length + n) :
    sent { s.setPool hp q with control := if holds q then .frame hp else .begin } = sent s + n := by
  have same := setPoolSent here q
  have total : sent (s.setPool hp q) = sent s + n := by omega
  exact total

theorem frameKeeps {e : RxPins.Event} (h : Balanced s) (under : owed s.control = 1#32) (taken : inPool forwards s hp e = some t)
    (kind : Inner e ∨ e = .tail ∧ (∀ p ∈ s.pool hp, TailRoom p) ∨ e = .commit ∧ (∀ p ∈ s.pool hp, CommitRoom p)) :
    Balanced t := by
  obtain ⟨p, here, q, step, rfl⟩ := inPoolTaken taken
  rw [Balanced, under] at h
  have goesOn : holds q = true → q.sent = p.sent →
      Balanced { s.setPool hp q with control := if holds q then .frame hp else .begin } := by
    intro held same
    rw [Balanced, inPoolSent here (n := 0) (by rw [same]; rfl), if_pos held]
    simp only [setPoolSofs, setPoolEntries, Nat.add_zero]
    exact h
  rcases kind with inner | ⟨rfl, room⟩ | ⟨rfl, room⟩
  · exact goesOn (innerHolds inner step) (poolSent step (by rintro rfl; cases inner))
  · obtain ⟨same, held⟩ := tailEnds step
    exact goesOn (held.mpr (room p here)) same
  · obtain ⟨ends, commits, -⟩ := commitEnds step
    rw [Balanced, inPoolSent here (commits (room p here)), if_neg (by rw [ends]; decide)]
    simp only [setPoolSofs, setPoolEntries, owed]
    rw [h, BitVec.ofNat_add, BitVec.add_zero]
    rw [BitVec.add_assoc, BitVec.add_comm s.noQueueEntries, ← BitVec.add_assoc]

theorem frameLost {e : RxPins.Event} (h : Balanced s) (under : owed s.control = 1#32) (taken : inPool forwards s hp e = some t)
    (kind : e = .tail ∧ (∃ p ∈ s.pool hp, ¬ TailRoom p) ∨ e = .commit ∧ ∃ p ∈ s.pool hp, ¬ CommitRoom p) : ¬ Counted t := by
  obtain ⟨p, here, q, step, rfl⟩ := inPoolTaken taken
  rw [Balanced, under] at h
  have ends : q.sent = p.sent ∧ holds q = false := by
    rcases kind with ⟨rfl, p', here', full⟩ | ⟨rfl, p', here', full⟩
    · obtain ⟨same, held⟩ := tailEnds step
      rw [Option.some.inj (here'.symm.trans here)] at full
      exact ⟨same, Bool.eq_false_iff.mpr fun holds => full (held.mp holds)⟩
    · obtain ⟨idle, -, refused⟩ := commitEnds step
      rw [Option.some.inj (here'.symm.trans here)] at full
      exact ⟨refused full, idle⟩
  obtain ⟨same, idle⟩ := ends
  intro counted
  have off := counted (.inl (if_neg (by rw [idle]; decide)))
  rw [inPoolSent here (n := 0) (by rw [same]; rfl)] at off
  simp only [setPoolSofs, setPoolEntries, Nat.add_zero] at off
  rw [off] at h
  have one : 0#32 = 1#32 := (BitVec.add_right_inj _).mp ((BitVec.add_zero _).trans h)
  exact absurd one (by decide)

theorem eachKeeps {f : RxPins.State → Option RxPins.State} {control : Control} (h : Balanced s)
    (taken : each f s control = some t)
    (same : ∀ p q, f p = some q → q.sent = p.sent) (owes : owed control = owed s.control) : Balanced t := by
  obtain ⟨total, sofs, entries, now⟩ := eachTaken taken same
  rw [Balanced, total, sofs, entries, now, owes]
  exact h

theorem wordKeeps {word : BitVec 32} {n : Nat} (h : Balanced s) (here : s.control = .first n)
    (taken : step forwards s (.word word) = some t) : Balanced t := by
  simp only [step, here, Option.bind_eq_bind, Option.bind_eq_some_iff] at taken
  obtain ⟨u, all, rest⟩ := taken
  have next : Balanced u := eachKeeps h all (fun p q step => takeSent step (by simp)) (by rw [here]; rfl)
  obtain ⟨-, -, -, now⟩ := eachTaken all (fun p q step => takeSent step (by simp))
  split at rest
  · cases rest
    exact next
  · rw [Balanced, now] at next
    split at rest
    · cases rest
      exact next
    · rename_i p pool
      obtain ⟨q, dropped, rfl⟩ := Option.map_eq_some_iff.mp rest
      have same := setPoolSent pool q
      rw [takeSent dropped (by simp)] at same
      have total : sent (u.setPool (!chosen s word) q) = sent u := by omega
      change BitVec.ofNat 32 (u.setPool (!chosen s word) q).sofs =
        BitVec.ofNat 32 (sent (u.setPool (!chosen s word) q)) + (u.setPool (!chosen s word) q).noQueueEntries + 1#32
      rw [setPoolSofs, setPoolEntries, total]
      exact next

theorem stepKeeps (h : Balanced s) (kept : Kept s e) (taken : step forwards s e = some t) : Balanced t := by
  unfold step at taken
  split at taken
  case h_1 here =>
    refine eachKeeps h taken (fun p q step => poolSent step (by simp)) ?_
    rw [here]
    rfl
  case h_2 time here =>
    rw [Balanced, here] at h
    dsimp only at taken
    split at taken
    · obtain ⟨total, sofs, entries, now⟩ := eachTaken taken (fun p q step => takeSent step (by simp))
      rw [Balanced, total, sofs, entries, now, BitVec.ofNat_add, h]
      change _ + 0#32 + _ = _ + 1#32
      rw [BitVec.add_zero]
      rfl
    · cases taken
      rw [Balanced, BitVec.ofNat_add, h]
      change _ + 0#32 + 1#32 = _ + (_ + 1#32) + 0#32
      rw [BitVec.add_zero, BitVec.add_zero, BitVec.add_assoc]
      rfl
  case h_3 here =>
    cases taken
    rw [Balanced, here] at h
    exact h
  case h_4 word n here =>
    have same : step forwards s (.word word) = some t := by
      simp only [step, here]
      exact taken
    exact wordKeeps h here same
  case h_5 word hp here =>
    obtain ⟨p, -, rest⟩ := Option.bind_eq_some_iff.mp taken
    split at rest
    · exact frameKeeps h (by rw [here]; rfl) rest (.inl (.word word))
    · cases rest
      rw [Balanced, here] at h
      exact h
  case h_6 here =>
    cases taken
    rw [Balanced, here] at h
    change _ = _ + (_ + 1#32) + 0#32
    rw [h, BitVec.add_zero, ← BitVec.add_assoc]
    rfl
  case h_7 word hp here => exact frameKeeps h (by rw [here]; rfl) taken (.inl (.word word))
  case h_8 hp here => exact frameKeeps h (by rw [here]; rfl) taken (.inl .eof)
  case h_9 taillen tail hp here => exact frameKeeps h (by rw [here]; rfl) taken (.inl (.port taillen tail))
  case h_10 hp here => exact frameKeeps h (by rw [here]; rfl) taken (.inl .header)
  case h_11 hp here =>
    exact frameKeeps h (by rw [here]; rfl) taken (.inr (.inl ⟨rfl, fun p pool => (kept hp here p pool).1 rfl⟩))
  case h_12 hp here =>
    exact frameKeeps h (by rw [here]; rfl) taken (.inr (.inr ⟨rfl, fun p pool => (kept hp here p pool).2 rfl⟩))
  case h_13 => exact otherKeeps h (by simp) taken
  case h_14 => exact otherKeeps h (by simp) taken
  case h_15 => cases taken

theorem stepLoses (h : Balanced s) (taken : step forwards s e = some t) (lost : ¬ Kept s e) : ¬ Counted t := by
  unfold Kept at lost
  push Not at lost
  obtain ⟨hp, here, p, pool, room⟩ := lost
  by_cases tail : e = .tail ∧ ¬ TailRoom p
  · obtain ⟨rfl, full⟩ := tail
    simp only [step, here] at taken
    exact frameLost h (by rw [here]; rfl) taken (.inl ⟨rfl, p, pool, full⟩)
  · have refused : e = .commit ∧ ¬ CommitRoom p := room fun now => by
      by_contra full
      exact tail ⟨now, full⟩
    obtain ⟨rfl, full⟩ := refused
    simp only [step, here] at taken
    exact frameLost h (by rw [here]; rfl) taken (.inr ⟨rfl, p, pool, full⟩)

theorem balancedCounted (h : Balanced s) : Counted s := by
  rintro (here | here) <;> (rw [Balanced, here] at h; exact h.trans (BitVec.add_zero _))

end run

/-- Every start delimiter is for a frame sent or counted in exactly the runs in which no frame ends on
the read pointer and no commit is refused. -/
theorem countedIff (forwards : Bool) (hp : Option (Pool × List Pkt)) (lp : Pool × List Pkt) (es : List Event) :
    Always (step forwards) Counted (start hp lp) es ↔ Along (step forwards) Kept (start hp lp) es := by
  refine alwaysExact (I := Balanced) (fun _ _ _ => stepKeeps) (fun _ => balancedCounted)
    (fun _ _ _ h taken => stepLoses h taken) ?_ es
  have none : sent (start hp lp) = 0 := by
    cases hp <;> rfl
  rw [Balanced, none]
  rfl

section pools
variable {forwards : Bool} {s t : State} {e : Event}

def Separate (forwards : Bool) (s t : State) : Prop :=
  ∀ hp, ∀ q ∈ t.pool hp, ∃ p ∈ s.pool hp, ∃ es, run (RxPins.step forwards) p es = some q

theorem separateRefl (forwards : Bool) (s : State) : Separate forwards s s := fun _ q here => ⟨q, here, [], rfl⟩

theorem separateTrans {u : State} (one : Separate forwards s t) (other : Separate forwards t u) : Separate forwards s u := by
  intro hp q here
  obtain ⟨p, there, es, second⟩ := other hp q here
  obtain ⟨o, start, fs, first⟩ := one hp p there
  exact ⟨o, start, fs ++ es, by rw [runAppend, first]; exact second⟩

theorem runOne {p q : RxPins.State} {e : RxPins.Event} (taken : RxPins.step forwards p e = some q) :
    run (RxPins.step forwards) p [e] = some q := by
  rw [run, taken]
  rfl

theorem runTake {p q : RxPins.State} {e : RxPins.Event} (taken : take forwards e p = some q) :
    ∃ es, run (RxPins.step forwards) p es = some q := by
  unfold take at taken
  split at taken
  · exact ⟨[e], runOne taken⟩
  · exact ⟨[], taken⟩

theorem eachSeparate {f : RxPins.State → Option RxPins.State} {control : Control} (taken : each f s control = some t)
    (runs : ∀ p q, f p = some q → ∃ es, run (RxPins.step forwards) p es = some q) : Separate forwards s t := by
  simp only [each, Option.bind_eq_bind, Option.bind_eq_some_iff] at taken
  obtain ⟨high, highs, lp, low, last⟩ := taken
  cases Option.some.inj last
  intro hp q here
  cases hp with
  | false =>
    cases Option.some.inj here
    exact ⟨s.lp, rfl, runs _ _ low⟩
  | true =>
    have there : high = some q := here
    rw [there] at highs
    cases pools : s.hp with
    | none =>
      rw [pools] at highs
      cases highs
    | some p =>
      rw [pools, eachPool] at highs
      obtain ⟨q', step, same⟩ := Option.map_eq_some_iff.mp highs
      rw [← Option.some.inj same]
      exact ⟨p, pools, runs p q' step⟩

theorem setSeparate {p q : RxPins.State} {hp : Bool} (here : p ∈ s.pool hp) {es : List RxPins.Event}
    (runs : run (RxPins.step forwards) p es = some q) : Separate forwards s (s.setPool hp q) := by
  intro x q' there
  cases hp with
  | false =>
    cases x with
    | false =>
      cases Option.some.inj there
      exact ⟨p, here, es, runs⟩
    | true => exact ⟨q', there, [], rfl⟩
  | true =>
    cases x with
    | false => exact ⟨q', there, [], rfl⟩
    | true =>
      cases Option.some.inj there
      exact ⟨p, here, es, runs⟩

theorem inPoolSeparate {hp : Bool} {e : RxPins.Event} (taken : inPool forwards s hp e = some t) : Separate forwards s t := by
  obtain ⟨p, here, q, step, rfl⟩ := inPoolTaken taken
  exact setSeparate here (runOne step)

theorem otherSeparate {hp : Bool} {e : RxPins.Event} (taken : other forwards s hp e = some t) : Separate forwards s t := by
  obtain ⟨p, here, q, step, rfl⟩ := otherTaken taken
  exact setSeparate here (runOne step)

theorem stepSeparate (taken : step forwards s e = some t) : Separate forwards s t := by
  unfold step at taken
  split at taken
  case h_1 => exact eachSeparate taken fun p q step => ⟨_, runOne step⟩
  case h_2 =>
    dsimp only at taken
    split at taken
    · have all : Separate forwards { s with sofs := s.sofs + 1 } t := eachSeparate taken fun p q step => runTake step
      exact all
    · cases taken
      exact separateRefl forwards s
  case h_3 | h_6 =>
    cases taken
    exact separateRefl forwards s
  case h_4 word n here =>
    obtain ⟨u, all, rest⟩ := Option.bind_eq_some_iff.mp taken
    have first : Separate forwards s u := eachSeparate all fun p q step => runTake step
    split at rest
    · cases rest
      exact first
    · dsimp only at rest
      split at rest
      · cases rest
        exact first
      · rename_i p pool
        obtain ⟨q, dropped, rfl⟩ := Option.map_eq_some_iff.mp rest
        obtain ⟨es, runs⟩ := runTake dropped
        exact separateTrans first (setSeparate pool runs)
  case h_5 =>
    obtain ⟨p, -, rest⟩ := Option.bind_eq_some_iff.mp taken
    split at rest
    · exact inPoolSeparate rest
    · cases rest
      exact separateRefl forwards s
  case h_13 | h_14 => exact otherSeparate taken
  case h_15 => cases taken
  all_goals exact inPoolSeparate taken

/- Each pool goes through a run of the receiver on one pool, so what holds there holds of both. -/
theorem poolsSound (hp : Option (Int → Int)) (lp : Int → Int) (mempool memsize : Nat) (large : 512 ≤ 4 * memsize)
    (es : List Event) :
    Always (step forwards) (fun s => ∀ x, ∀ p ∈ s.pool x, RxPins.Sound p)
      (start (hp.map (fun mem => (miiInitMempool mem mempool (memsize * 4), [])))
        (miiInitMempool lp mempool (memsize * 4), [])) es := by
  refine alwaysInvariant (I := fun s => ∀ x, ∀ p ∈ s.pool x, ∃ r vr vw, RxPins.Ringed p r vr vw) ?_ ?_ ?_ es
  · intro s e t h taken x q there
    obtain ⟨p, here, es, runs⟩ := stepSeparate taken x q there
    refine runInvariant (I := fun p => ∃ r vr vw, RxPins.Ringed p r vr vw) ?_ (h x p here) runs
    rintro p e q ⟨r, vr, vw, h⟩ taken
    obtain ⟨vr', vw', next⟩ := RxPins.stepKeeps h taken
    exact ⟨r, vr', vw', next⟩
  · intro s h x p here
    obtain ⟨r, vr, vw, ringed⟩ := h x p here
    exact RxPins.ringedSound ringed
  · intro x p here
    cases x with
    | false =>
      cases Option.some.inj here
      exact RxPins.ringedInitial lp mempool memsize (by omega)
    | true =>
      cases hp with
      | none => cases here
      | some mem =>
        cases Option.some.inj here
        exact RxPins.ringedInitial mem mempool memsize (by omega)

end pools

def fresh (memsize : Nat) : Pool × List Pkt := (miiInitMempool (fun _ => 0) 16 (memsize * 4), [])

def frameOf (n : Nat) : List Event :=
  [.reserve, .sof 0] ++ List.replicate n (.word 0x0081#32) ++ [.eof, .port 0 0#32, .header, .header, .header, .tail]

theorem silentlyLost : ¬ Always (step true) Counted (start none (fresh 256)) (frameOf 238) := by
  intro always
  have last : (run (step true) (start none (fresh 256)) (frameOf 238)).map
      (fun s => (decide (s.control = .begin), s.sofs, sent s, s.noQueueEntries)) = some (true, 1, 0, 0#32) := by
    decide +kernel
  obtain ⟨s, reached, same⟩ := Option.map_eq_some_iff.mp last
  simp only [Prod.mk.injEq, decide_eq_true_eq] at same
  obtain ⟨here, sofs, none, entries⟩ := same
  have counted := alwaysReached always reached (.inl here)
  rw [sofs, none, entries] at counted
  revert counted
  decide

end ScEthernet.Full.RxCounts
