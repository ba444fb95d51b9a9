import Mathlib.Tactic.Ring
import ScEthernet.Lib.Runs

/-! The main loop of mii_tx_pins with ETHERNET_TX_HP_QUEUE and ETHERNET_TRAFFIC_SHAPER, credit
in exact integers. The stage of a buffer is read up to four times in an iteration, and the
task behind the queue may mark the buffer ready between two of the reads. -/
namespace ScEthernet.Full.TxShaper
open Lib.Runs

inductive Read where
  | forward | credit | select | low | send
  deriving DecidableEq

def Read.index : Read → Nat
  | .forward => 0
  | .credit => 1
  | .select => 2
  | .low => 3
  | .send => 4

/- The head of a queue. A stage 0 becomes 1 before the read `marked`, a later one stays. -/
structure Head where
  length : Nat
  forwarding : Int
  stage : Int
  marked : Nat

/- `high` is history: whether the queue is one of high priority. -/
structure Buf extends Head where
  high : Bool

def Buf.stageAt (b : Buf) (r : Read) : Int := if b.stage = 0 ∧ b.marked ≤ r.index then 1 else b.stage

/- What an iteration finds: mii_get_next_buf of each queue, the forwarding ones without the
port's own. They are empty where the configuration has none. -/
structure Reads where
  time : Int
  hpQueue : Option Head
  hpForward : List (Option Head)
  lpQueue : Option Head
  lpForward : List (Option Head)

def miiGetNextBuf (high : Bool) (queue : Option Head) : Option Buf := queue.map (fun h => ⟨h, high⟩)

/- The loop over the forwarding queues. -/
def forwardLoop (high : Bool) : List (Option Head) → Option Buf → Option Buf
  | [], buf => buf
  | queue :: queues, _ =>
    match miiGetNextBuf high queue with
    | none => forwardLoop high queues none
    | some b => if b.forwarding ≠ 0 then some b else forwardLoop high queues none

/- `!buf || mii_packet_get_stage(buf) == 0` -/
def idle (buf : Option Buf) (r : Read) : Bool := buf.all (fun b => b.stageAt r = 0)
/- `buf && mii_packet_get_stage(buf) == 1` -/
def ready (buf : Option Buf) (r : Read) : Bool := buf.any (fun b => b.stageAt r = 1)

/- History: a transmission, with the credit when it starts. -/
structure Sent where
  high : Bool
  length : Nat
  credit : Int

structure State where
  credit : Int
  creditTime : Int
  sent : List Sent

def highBuf (r : Reads) : Option Buf :=
  let buf := miiGetNextBuf true r.hpQueue
  if idle buf .forward then forwardLoop true r.hpForward buf else buf

def accrued (slope : Nat) (s : State) (r : Reads) : Int := s.credit + (r.time - s.creditTime) * slope

def frameOverhead : Int := 8 + 96 / 8 + 4
def cost (length : Nat) : Int := (length + frameOverhead) * 8 * 65536

def step (slope : Nat) (s : State) (r : Reads) : Option State :=
  if r.time < s.creditTime then none
  else
    let buf := highBuf r
    let credit := accrued slope s r
    let (buf, credit) :=
      if ready buf .credit then (if credit < 0 then none else buf, credit)
      else (buf, if credit > 0 then 0 else credit)
    let (buf, packetIsHighPriority) :=
      if ready buf .select then (buf, true) else (miiGetNextBuf false r.lpQueue, false)
    let buf := if idle buf .low then forwardLoop false r.lpForward buf else buf
    match buf with
    | none => some ⟨credit, r.time, s.sent⟩
    | some b =>
      if b.stageAt .send ≠ 1 then some ⟨credit, r.time, s.sent⟩
      else some ⟨if packetIsHighPriority then credit - cost b.length else credit, r.time,
        s.sent ++ [⟨b.high, b.length, credit⟩]⟩

def initial (time : Int) : State := ⟨0, time, []⟩

def charge (f : Sent) : Int := if f.high then cost f.length else 0
def charged (s : State) : Int := (s.sent.map charge).sum

def longest (s : State) : Nat := s.sent.foldr (fun f n => if f.high then max f.length n else n) 0

structure Shaped (slope : Nat) (s : State) (rs : List Reads) : Prop where
  credit : Always (step slope) (fun t => -cost (longest t) ≤ t.credit) s rs
  window : ∀ pre win a b, pre ++ win <+: rs → run (step slope) s pre = some a → run (step slope) a win = some b →
    charged b - charged a ≤ slope * (b.creditTime - a.creditTime) + max a.credit 0 + cost (longest b)
  paid : Always (step slope) (fun t => ∀ f ∈ t.sent, f.high = true → 0 ≤ f.credit) s rs
  low : Always (step slope) (fun t => ∀ r lpQueue lpForward,
    (step slope t { r with lpQueue := lpQueue, lpForward := lpForward }).map State.credit =
      (step slope t r).map State.credit) s rs

/- The other task marks the high-priority frame between the test of the credit and the choice
of the queue, and the credit is used up. -/
def SlipsIn (slope : Nat) (s : State) (r : Reads) : Prop :=
  accrued slope s r < 0 ∧ ready (highBuf r) .credit = false ∧ ready (highBuf r) .select = true
instance (slope s r) : Decidable (SlipsIn slope s r) := by unfold SlipsIn; infer_instance

section
variable {slope : Nat} {s t : State} {r : Reads} {rs : List Reads}

theorem forwardLoopHigh (high : Bool) (queues : List (Option Head)) {buf : Option Buf}
    (same : ∀ b ∈ buf, b.high = high) : ∀ b ∈ forwardLoop high queues buf, b.high = high := by
  induction queues generalizing buf with
  | nil => exact same
  | cons queue queues ih =>
    cases queue with
    | none => exact ih (by simp)
    | some h =>
      simp only [forwardLoop, miiGetNextBuf, Option.map_some]
      split
      · simp
      · exact ih (by simp)

theorem nextBufHigh (high : Bool) (queue : Option Head) : ∀ b ∈ miiGetNextBuf high queue, b.high = high := by
  intro b member
  obtain ⟨h, -, rfl⟩ := Option.map_eq_some_iff.mp member
  rfl

theorem highBufHigh (r : Reads) : ∀ b ∈ highBuf r, b.high = true := by
  unfold highBuf
  dsimp only
  split
  · exact forwardLoopHigh true _ (nextBufHigh true _)
  · exact nextBufHigh true _

theorem readyLater {b : Buf} {x y : Read} (later : x.index ≤ y.index) (now : b.stageAt x = 1) : b.stageAt y = 1 := by
  unfold Buf.stageAt at now ⊢
  by_cases zero : b.stage = 0
  · by_cases before : b.marked ≤ x.index
    · exact if_pos ⟨zero, by omega⟩
    · rw [if_neg fun both => before both.2] at now
      omega
  · rw [if_neg fun both => zero both.1] at now ⊢
    exact now

def clipped (slope : Nat) (s : State) (r : Reads) : Int :=
  if ready (highBuf r) .credit = false ∧ accrued slope s r > 0 then 0 else accrued slope s r

def lowEnd (s : State) (r : Reads) (credit : Int) : State :=
  let buf := miiGetNextBuf false r.lpQueue
  let buf := if idle buf .low then forwardLoop false r.lpForward buf else buf
  match buf with
  | none => ⟨credit, r.time, s.sent⟩
  | some b =>
    if b.stageAt .send ≠ 1 then ⟨credit, r.time, s.sent⟩
    else ⟨credit, r.time, s.sent ++ [⟨b.high, b.length, credit⟩]⟩

theorem lowEndSent (s : State) (r : Reads) (credit : Int) :
    (lowEnd s r credit).credit = credit ∧ (lowEnd s r credit).creditTime = r.time ∧
      ((lowEnd s r credit).sent = s.sent ∨ ∃ length, (lowEnd s r credit).sent = s.sent ++ [⟨false, length, credit⟩]) := by
  have low : ∀ b, (if idle (miiGetNextBuf false r.lpQueue) .low then
      forwardLoop false r.lpForward (miiGetNextBuf false r.lpQueue) else miiGetNextBuf false r.lpQueue) = some b →
      b.high = false := by
    intro b found
    split at found
    · exact forwardLoopHigh false _ (nextBufHigh false _) b found
    · exact nextBufHigh false _ b found
  unfold lowEnd
  dsimp only
  split
  · exact ⟨rfl, rfl, .inl rfl⟩
  · rename_i b found
    split
    · exact ⟨rfl, rfl, .inl rfl⟩
    · exact ⟨rfl, rfl, .inr ⟨b.length, by rw [low b found]⟩⟩

def Pays (slope : Nat) (s : State) (r : Reads) : Prop :=
  ready (highBuf r) .select = true ∧ ¬ (ready (highBuf r) .credit = true ∧ accrued slope s r < 0)

theorem slipsPays (slips : SlipsIn slope s r) : Pays slope s r :=
  ⟨slips.2.2, fun tested => by rw [slips.2.1] at tested; cases tested.1⟩

theorem paysClipped (pays : Pays slope s r) (spared : ¬ SlipsIn slope s r) : 0 ≤ clipped slope s r := by
  obtain ⟨chosen, passed⟩ := pays
  unfold SlipsIn at spared
  unfold clipped
  cases tested : ready (highBuf r) .credit with
  | true =>
    have : ¬ accrued slope s r < 0 := fun owed => passed ⟨tested, owed⟩
    simp; omega
  | false =>
    have : ¬ accrued slope s r < 0 := fun owed => spared ⟨owed, tested, chosen⟩
    split <;> omega

theorem stepCases (onTime : s.creditTime ≤ r.time) :
    (∃ b ∈ highBuf r, Pays slope s r ∧
      step slope s r = some ⟨clipped slope s r - cost b.length, r.time,
        s.sent ++ [⟨true, b.length, clipped slope s r⟩]⟩) ∨
    ¬ Pays slope s r ∧ step slope s r = some (lowEnd s r (clipped slope s r)) := by
  have late : ¬ r.time < s.creditTime := by omega
  have high := highBufHigh r
  unfold step Pays clipped
  rw [if_neg late]
  have ends : ∀ (buf : Option Buf) (none : State) (some : Buf → State),
      (match buf with
        | .none => Option.some none
        | .some b => if b.stageAt .send = 1 then Option.some (some b) else Option.some none) =
      Option.some (match buf with
        | .none => none
        | .some b => if b.stageAt .send = 1 then some b else none) := by
    intro buf none some
    cases buf with
    | none => rfl
    | some b => dsimp only; split <;> rfl
  cases found : highBuf r with
  | none => exact .inr ⟨by simp [ready], by simp [ready, lowEnd]; exact ends _ _ _⟩
  | some b =>
    rw [found] at high
    have kind := high b rfl
    have sends : b.stageAt .select = 1 → b.stageAt .low = 1 ∧ b.stageAt .send = 1 := fun now =>
      ⟨readyLater (by decide) now, readyLater (by decide) now⟩
    by_cases tested : b.stageAt .credit = 1
    · by_cases owed : accrued slope s r < 0
      · exact .inr ⟨fun pays => pays.2 ⟨by simp [ready, tested], owed⟩,
          by simp [ready, lowEnd, tested, owed]; exact ends _ _ _⟩
      · have chosen : b.stageAt .select = 1 := readyLater (by decide) tested
        obtain ⟨low, send⟩ := sends chosen
        exact .inl ⟨b, rfl, ⟨by simp [ready, chosen], fun held => owed held.2⟩,
          by simp [ready, idle, tested, owed, chosen, low, send, kind]⟩
    · by_cases chosen : b.stageAt .select = 1
      · obtain ⟨low, send⟩ := sends chosen
        exact .inl ⟨b, rfl, ⟨by simp [ready, chosen], by simp [ready, tested]⟩,
          by simp [ready, idle, tested, chosen, low, send, kind]⟩
      · exact .inr ⟨fun pays => by simp [ready, chosen] at pays, by simp [ready, lowEnd, tested, chosen]; exact ends _ _ _⟩

/- Credit and what was charged for, less what has accrued, do not grow. -/
def potential (slope : Nat) (s : State) : Int := s.credit + charged s - slope * s.creditTime

theorem chargedAppend (l : List Sent) (f : Sent) (c c' x x' : Int) :
    charged ⟨c, x, l ++ [f]⟩ = charged ⟨c', x', l⟩ + charge f := by
  simp [charged]

theorem costNonneg (length : Nat) : 0 ≤ cost length := by
  unfold cost frameOverhead; omega

theorem costMono {m n : Nat} (le : m ≤ n) : cost m ≤ cost n := by
  unfold cost; omega

theorem longestAppend (l : List Sent) (f : Sent) (c c' x x' : Int) :
    longest ⟨c', x', l⟩ ≤ longest ⟨c, x, l ++ [f]⟩ ∧ (f.high = true → f.length ≤ longest ⟨c, x, l ++ [f]⟩) := by
  unfold longest
  dsimp only
  induction l with
  | nil => simp; intro high; simp [high]
  | cons g l ih =>
    obtain ⟨le, last⟩ := ih
    simp only [List.cons_append, List.foldr_cons]
    split
    · exact ⟨Nat.max_le.mpr ⟨Nat.le_max_left _ _, Nat.le_trans le (Nat.le_max_right _ _)⟩,
        fun high => Nat.le_trans (last high) (Nat.le_max_right _ _)⟩
    · exact ⟨le, last⟩

theorem onTime (taken : step slope s r = some t) : s.creditTime ≤ r.time := by
  by_contra late
  simp [step, show r.time < s.creditTime by omega] at taken

theorem clippedBounds (slope : Nat) (s : State) (r : Reads) :
    clipped slope s r ≤ accrued slope s r ∧ min (accrued slope s r) 0 ≤ clipped slope s r := by
  unfold clipped
  split <;> omega

theorem accruedBounds (onTime : s.creditTime ≤ r.time) : s.credit ≤ accrued slope s r := by
  have := Int.mul_nonneg (show 0 ≤ r.time - s.creditTime by omega) (Int.natCast_nonneg slope)
  unfold accrued
  omega

theorem potentialFalls (taken : step slope s r = some t) : potential slope t ≤ potential slope s := by
  have now := onTime taken
  obtain ⟨clip, -⟩ := clippedBounds slope s r
  have elapsed : accrued slope s r - slope * r.time = s.credit - slope * s.creditTime := by
    unfold accrued; ring
  unfold potential
  rcases stepCases now with ⟨b, -, -, sends⟩ | ⟨-, ends⟩
  · rw [sends] at taken
    cases taken
    have more := chargedAppend s.sent ⟨true, b.length, clipped slope s r⟩
      (clipped slope s r - cost b.length) s.credit r.time s.creditTime
    simp only [charge, if_true] at more
    dsimp only
    rw [more]
    have : charged ⟨s.credit, s.creditTime, s.sent⟩ = charged s := rfl
    omega
  · rw [ends] at taken
    cases taken
    obtain ⟨credit, time, sent⟩ := lowEndSent s r (clipped slope s r)
    have same : charged (lowEnd s r (clipped slope s r)) = charged s := by
      unfold charged
      rcases sent with same | ⟨length, sent⟩
      · rw [same]
      · rw [sent]; simp [charge]
    rw [same, credit, time]
    omega

structure Inv (s : State) : Prop where
  credit : -cost (longest s) ≤ s.credit
  paid : ∀ f ∈ s.sent, f.high = true → 0 ≤ f.credit

theorem stepKeeps (h : Inv s) (spared : ¬ SlipsIn slope s r) (taken : step slope s r = some t) : Inv t := by
  have now := onTime taken
  obtain ⟨-, clip⟩ := clippedBounds slope s r
  have grows : s.credit ≤ accrued slope s r := accruedBounds now
  have credit := h.credit
  rcases stepCases now with ⟨b, -, pays, sends⟩ | ⟨-, ends⟩
  · rw [sends] at taken
    cases taken
    have paid := paysClipped pays spared
    obtain ⟨-, longer⟩ := longestAppend s.sent ⟨true, b.length, clipped slope s r⟩
      (clipped slope s r - cost b.length) s.credit r.time s.creditTime
    have more := costMono (longer rfl)
    refine ⟨by dsimp only at more ⊢; omega, fun f member high => ?_⟩
    rcases List.mem_append.mp member with old | new
    · exact h.paid f old high
    · rw [List.mem_singleton.mp new]
      exact paid
  · rw [ends] at taken
    cases taken
    obtain ⟨same, time, sent⟩ := lowEndSent s r (clipped slope s r)
    have nonneg := costNonneg (longest s)
    rcases sent with kept | ⟨length, sent⟩
    · have longest : longest (lowEnd s r (clipped slope s r)) = longest s := by unfold longest; rw [kept]
      refine ⟨by rw [longest, same]; omega, by rw [kept]; exact h.paid⟩
    · have longest : longest (lowEnd s r (clipped slope s r)) = longest s := by
        unfold longest; rw [sent]; simp
      refine ⟨by rw [longest, same]; omega, fun f member high => ?_⟩
      rw [sent] at member
      rcases List.mem_append.mp member with old | new
      · exact h.paid f old high
      · rw [List.mem_singleton.mp new] at high
        cases high

theorem slipBreaks (slips : SlipsIn slope s r) (taken : step slope s r = some t) :
    ∃ f ∈ t.sent, f.high = true ∧ f.credit < 0 := by
  rcases stepCases (onTime taken) with ⟨b, -, -, sends⟩ | ⟨spared, -⟩
  · rw [sends] at taken
    cases taken
    obtain ⟨clip, -⟩ := clippedBounds slope s r
    have owed := slips.1
    exact ⟨_, List.mem_append_right _ (List.mem_singleton.mpr rfl), rfl, by dsimp only; omega⟩
  · exact absurd (slipsPays slips) spared

theorem lowIndependent (slope : Nat) (s : State) (r : Reads) (lpQueue : Option Head) (lpForward : List (Option Head)) :
    (step slope s { r with lpQueue := lpQueue, lpForward := lpForward }).map State.credit =
      (step slope s r).map State.credit := by
  by_cases late : r.time < s.creditTime
  · simp [step, late]
  · have now : s.creditTime ≤ r.time := by omega
    generalize other : ({ r with lpQueue := lpQueue, lpForward := lpForward } : Reads) = q
    have time : s.creditTime ≤ q.time := by rw [← other]; exact now
    have high : highBuf q = highBuf r := by rw [← other]; rfl
    have credit : clipped slope s q = clipped slope s r := by rw [← other]; rfl
    have choice : Pays slope s q = Pays slope s r := by rw [← other]; rfl
    rcases stepCases now with ⟨b, found, pays, sends⟩ | ⟨waits, ends⟩
    · rcases stepCases time with ⟨b', found', -, sends'⟩ | ⟨waits', -⟩
      · rw [high, found] at found'
        cases found'
        rw [sends, sends', credit]
        rfl
      · exact absurd (choice ▸ pays) waits'
    · rcases stepCases time with ⟨b', -, pays', -⟩ | ⟨-, ends'⟩
      · exact absurd (choice ▸ pays') waits
      · rw [ends, ends', credit]
        simp only [Option.map_some, (lowEndSent _ _ _).1]

theorem windowBound {a b : State} {win : List Reads} (h : Inv b) (reached : run (step slope) a win = some b) :
    charged b - charged a ≤ slope * (b.creditTime - a.creditTime) + max a.credit 0 + cost (longest b) := by
  have credit := h.credit
  have falls : potential slope b ≤ potential slope a :=
    runInvariant (I := fun s => potential slope s ≤ potential slope a)
      (fun u _ v le taken => Int.le_trans (potentialFalls taken) le) (Int.le_refl _) reached
  have elapsed : slope * (b.creditTime - a.creditTime) = slope * b.creditTime - slope * a.creditTime := by ring
  unfold potential at falls
  omega

end

/-- The bounds of the credit-based shaper hold in exactly the runs in which no frame slips in
behind the credit test. -/
theorem shapedIff (slope : Nat) (time : Int) (rs : List Reads) :
    Shaped slope (initial time) rs ↔ Along (step slope) (fun s r => ¬ SlipsIn slope s r) (initial time) rs := by
  have init : Inv (initial time) := ⟨by simp [initial, longest, cost, frameOverhead], fun f member => by cases member⟩
  constructor
  · intro shaped
    refine (alwaysExact (P := fun t => ∀ f ∈ t.sent, f.high = true → 0 ≤ f.credit)
      (fun _ _ _ => stepKeeps) (fun _ h => h.paid) ?_ init rs).mp shaped.paid
    intro s r t _ taken slips paid
    obtain ⟨f, member, high, owed⟩ := slipBreaks (not_not.mp slips) taken
    have := paid f member high
    omega
  · intro along
    refine ⟨alwaysGuarded (fun _ _ _ => stepKeeps) (fun _ h => h.credit) init along, ?_,
      alwaysGuarded (fun _ _ _ => stepKeeps) (fun _ h => h.paid) init along,
      alwaysInvariant (I := fun _ => True) (fun _ _ _ _ _ => trivial) (fun s _ => lowIndependent slope s) trivial rs⟩
    rintro pre win a b ⟨rest, rfl⟩ first second
    have reached : run (step slope) (initial time) (pre ++ win) = some b := by
      rw [runAppend, first]; exact second
    have always : Always (step slope) Inv (initial time) (pre ++ win) :=
      alwaysGuarded (fun _ _ _ => stepKeeps) (fun _ h => h) init (alongPrefix along)
    exact windowBound (alwaysReached always reached) second

/- A frame of 60 bytes goes out, and when the line is free again a second one is marked just behind the
test of the credit, which has grown by a quarter of what the frame took. -/
def slipping : List Reads :=
  [⟨0, some ⟨60, 0, 1, 0⟩, [], none, []⟩, ⟨700, some ⟨60, 0, 0, 2⟩, [], none, []⟩]

theorem slippedFrame : ¬ Shaped 16384 (initial 0) slipping := by
  intro shaped
  have credit := alwaysReached shaped.credit (t := ⟨-cost 60 + 700 * 16384 - cost 60, 700,
    [⟨true, 60, 0⟩, ⟨true, 60, -cost 60 + 700 * 16384⟩]⟩) rfl
  revert credit
  decide

end ScEthernet.Full.TxShaper
