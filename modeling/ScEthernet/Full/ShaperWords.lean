import ScEthernet.Lib.WordArith
import ScEthernet.Full.TxShaper

/-! The traffic shaper of mii_tx_pins in the arithmetic of the machine, beside the same loop in
exact integers. The idle slope is read again only while a high-priority frame is ready. -/
namespace ScEthernet.Full.ShaperWords
open Lib.Runs Lib.WordArith TxShaper

structure Arith (α : Type) where
  word : Int → α
  add : α → α → α
  sub : α → α → α
  mul : α → α → α
  shl : α → Nat → α
  value : α → Int

def ints : Arith Int := ⟨id, (· + ·), (· - ·), (· * ·), fun x n => x * 2 ^ n, id⟩
def words : Arith (BitVec 32) :=
  ⟨BitVec.ofInt 32, (· + ·), (· - ·), (· * ·), fun x n => x <<< n, BitVec.toInt⟩

/- The time is exact; credit_time holds its low bits. The source declares idle_slope inside the loop
without an initial value; here it keeps what it held. `values` are the results of the arithmetic, `sent`
the frames with packet_is_high_priority. -/
structure State (α : Type) where
  credit : α
  creditTime : Int
  idleSlope : α
  values : List α
  sent : List (Bool × Nat)

/- What an iteration finds, with g_mii_idle_slope[ifnum]. -/
structure Iteration where
  reads : Reads
  installed : Int

def step {α : Type} (A : Arith α) (s : State α) (i : Iteration) : Option (State α) :=
  let r := i.reads
  if r.time < s.creditTime then none
  else
    let buf := highBuf r
    let elapsed := A.sub (A.word r.time) (A.word s.creditTime)
    let product := A.mul elapsed s.idleSlope
    let credit := A.add s.credit product
    let values := s.values ++ [product, credit]
    let (buf, credit, idleSlope) :=
      if ready buf .credit then (if A.value credit < 0 then none else buf, credit, A.word i.installed)
      else (buf, if A.value credit > 0 then A.word 0 else credit, s.idleSlope)
    let (buf, packetIsHighPriority) :=
      if ready buf .select then (buf, true) else (miiGetNextBuf false r.lpQueue, false)
    let buf := if idle buf .low then forwardLoop false r.lpForward buf else buf
    match buf with
    | none => some ⟨credit, r.time, idleSlope, values, s.sent⟩
    | some b =>
      if b.stageAt .send ≠ 1 then some ⟨credit, r.time, idleSlope, values, s.sent⟩
      else
        let sent := s.sent ++ [(packetIsHighPriority, b.length)]
        if packetIsHighPriority then
          let len := A.word (b.length + 8 + 96 / 8 + 4)
          let credit := A.sub credit (A.shl len 19)
          some ⟨credit, r.time, idleSlope, values ++ [credit], sent⟩
        else some ⟨credit, r.time, idleSlope, values, sent⟩

def initial {α : Type} (A : Arith α) (time slope : Int) : State α := ⟨A.word 0, time, A.word slope, [], []⟩

def macCalcIdleSlope (bps : Int) : Int :=
  let slope := bps * 2 ^ 16
  (slope + (100000000 - 1)).tdiv 100000000

def Installable (slope : Int) : Prop :=
  slope = 11 * 2 ^ 16 ∨ ∃ bps, 0 ≤ bps ∧ bps ≤ 100000000 ∧ slope = macCalcIdleSlope bps

def both (s : State (BitVec 32) × State Int) (i : Iteration) : Option (State (BitVec 32) × State Int) :=
  (step words s.1 i).bind (fun m => (step ints s.2 i).map (fun e => (m, e)))

def start (time slope : Int) : State (BitVec 32) × State Int := (initial words time slope, initial ints time slope)

def Exact (s : State (BitVec 32) × State Int) : Prop := s.1.values.map BitVec.toInt = s.2.values

def Within (s : State (BitVec 32) × State Int) (i : Iteration) : Prop :=
  i.reads.time ≤ s.1.creditTime + 12500 ∧ (∀ b ∈ highBuf i.reads, b.length ≤ 1518) ∧ Installable i.installed

/- What has accrued since the last iteration fits on top of the credit, and a frame that is marked
behind the test of the credit finds credit to be charged to. -/
def Room (s : State (BitVec 32) × State Int) (i : Iteration) : Prop :=
  let accrual := (i.reads.time - s.1.creditTime) * s.1.idleSlope.toInt
  max s.1.credit.toInt 0 + accrual < 2 ^ 31 ∧
  ∀ b ∈ highBuf i.reads, ready (highBuf i.reads) .credit = false → ready (highBuf i.reads) .select = true →
    cost b.length ≤ s.1.credit.toInt + accrual + 2 ^ 31

section step
variable {α : Type} {A : Arith α} {s t : State α} {i : Iteration}

def product (A : Arith α) (s : State α) (i : Iteration) : α :=
  A.mul (A.sub (A.word i.reads.time) (A.word s.creditTime)) s.idleSlope
def accrue (A : Arith α) (s : State α) (i : Iteration) : α := A.add s.credit (product A s i)

def clip (A : Arith α) (s : State α) (i : Iteration) : α :=
  if ready (highBuf i.reads) .credit = false ∧ A.value (accrue A s i) > 0 then A.word 0 else accrue A s i
def reload (A : Arith α) (s : State α) (i : Iteration) : α :=
  if ready (highBuf i.reads) .credit then A.word i.installed else s.idleSlope

def charged (A : Arith α) (s : State α) (i : Iteration) (length : Nat) : α :=
  A.sub (clip A s i) (A.shl (A.word (length + 8 + 96 / 8 + 4)) 19)

def Chosen (owed : Prop) (r : Reads) : Prop :=
  ready (highBuf r) .select = true ∧ ¬ (ready (highBuf r) .credit = true ∧ owed)

def lowSent (r : Reads) : List (Bool × Nat) :=
  let buf := miiGetNextBuf false r.lpQueue
  let buf := if idle buf .low then forwardLoop false r.lpForward buf else buf
  match buf with
  | none => []
  | some b => if b.stageAt .send ≠ 1 then [] else [(false, b.length)]

theorem lowEnds (r : Reads) (credit slope : α) (values : List α) (sent : List (Bool × Nat)) :
    (match (if idle (miiGetNextBuf false r.lpQueue) .low then forwardLoop false r.lpForward (miiGetNextBuf false r.lpQueue)
        else miiGetNextBuf false r.lpQueue) with
      | none => some (⟨credit, r.time, slope, values, sent⟩ : State α)
      | some b =>
        if b.stageAt .send ≠ 1 then some ⟨credit, r.time, slope, values, sent⟩
        else some ⟨credit, r.time, slope, values, sent ++ [(false, b.length)]⟩) =
      some ⟨credit, r.time, slope, values, sent ++ lowSent r⟩ := by
  unfold lowSent
  dsimp only
  split
  · rw [List.append_nil]
  · split
    · rw [List.append_nil]
    · rfl

theorem readyBuf {r : Reads} (chosen : ready (highBuf r) .select = true) : ∃ b, highBuf r = some b ∧
    idle (some b) .low = false ∧ b.stageAt .send = 1 := by
  obtain ⟨b, found, now⟩ := (Option.any_eq_true _ _).mp chosen
  have now : b.stageAt .select = 1 := of_decide_eq_true now
  have low : b.stageAt .low = 1 := readyLater (by decide) now
  exact ⟨b, found, by simp [idle, low], readyLater (by decide) now⟩

theorem readySelect {r : Reads} (tested : ready (highBuf r) .credit = true) : ready (highBuf r) .select = true := by
  obtain ⟨b, found, now⟩ := (Option.any_eq_true _ _).mp tested
  have later : b.stageAt .select = 1 := readyLater (by decide) (of_decide_eq_true now)
  rw [found]
  exact decide_eq_true later

theorem stepCases (onTime : s.creditTime ≤ i.reads.time) :
    (∃ b ∈ highBuf i.reads, Chosen (A.value (accrue A s i) < 0) i.reads ∧
      step A s i = some ⟨charged A s i b.length, i.reads.time, reload A s i,
        s.values ++ [product A s i, accrue A s i, charged A s i b.length], s.sent ++ [(true, b.length)]⟩) ∨
    ¬ Chosen (A.value (accrue A s i) < 0) i.reads ∧
      step A s i = some ⟨clip A s i, i.reads.time, reload A s i, s.values ++ [product A s i, accrue A s i],
        s.sent ++ lowSent i.reads⟩ := by
  have late : ¬ i.reads.time < s.creditTime := by omega
  have sum : A.add s.credit (A.mul (A.sub (A.word i.reads.time) (A.word s.creditTime)) s.idleSlope) = accrue A s i := rfl
  have factor : A.mul (A.sub (A.word i.reads.time) (A.word s.creditTime)) s.idleSlope = product A s i := rfl
  have nothing : ready none .select = false := rfl
  have bracket : ∀ (values : List α) (x y z : α), values ++ [x, y] ++ [z] = values ++ [x, y, z] := by simp
  unfold step Chosen charged clip reload
  dsimp only
  rw [if_neg late, sum, factor]
  cases tested : ready (highBuf i.reads) .credit with
  | true =>
    by_cases owed : A.value (accrue A s i) < 0
    · right
      refine ⟨fun chosen => chosen.2 ⟨rfl, owed⟩, ?_⟩
      simp only [owed, nothing, if_true, if_false, Bool.false_eq_true, Bool.true_eq_false, false_and]
      exact lowEnds i.reads _ _ _ _
    · left
      obtain ⟨b, found, busy, send⟩ := readyBuf (readySelect tested)
      have chosen := readySelect tested
      refine ⟨b, found, ⟨chosen, fun held => owed held.2⟩, ?_⟩
      rw [found] at chosen
      simp only [found, owed, chosen, busy, send, if_true, if_false, Bool.false_eq_true, Bool.true_eq_false, false_and,
        ne_eq, not_true_eq_false, bracket]
  | false =>
    cases chosen : ready (highBuf i.reads) .select with
    | true =>
      left
      obtain ⟨b, found, busy, send⟩ := readyBuf chosen
      refine ⟨b, found, ⟨rfl, (fun held => by cases held.1)⟩, ?_⟩
      rw [found] at chosen
      simp only [found, chosen, busy, send, if_true, if_false, Bool.false_eq_true, true_and,
        ne_eq, not_true_eq_false, bracket]
    | false =>
      right
      refine ⟨(fun waits => by cases waits.1), ?_⟩
      simp only [chosen, if_false, Bool.false_eq_true, true_and]
      exact lowEnds i.reads _ _ _ _

theorem onTime (taken : step A s i = some t) : s.creditTime ≤ i.reads.time := by
  by_contra late
  have early : i.reads.time < s.creditTime := by omega
  rw [step, if_pos early] at taken
  cases taken

theorem stepSlope (taken : step A s i = some t) : t.idleSlope = reload A s i := by
  rcases stepCases (onTime taken) with ⟨b, -, -, ends⟩ | ⟨-, ends⟩
  · rw [ends] at taken
    cases taken
    rfl
  · rw [ends] at taken
    cases taken
    rfl

end step

structure Same (s : State (BitVec 32) × State Int) : Prop where
  credit : s.1.credit.toInt = s.2.credit
  time : s.1.creditTime = s.2.creditTime
  slope : s.1.idleSlope.toInt = s.2.idleSlope
  bounds : 0 ≤ s.2.idleSlope ∧ s.2.idleSlope ≤ 11 * 2 ^ 16
  values : s.1.values.map BitVec.toInt = s.2.values
  sent : s.1.sent = s.2.sent

theorem macCalcIdleSlopeRounds {bps : Int} (low : 0 ≤ bps) :
    macCalcIdleSlope bps = (bps * 2 ^ 16 + 99999999) / 100000000 :=
  Int.tdiv_eq_ediv_of_nonneg (by omega)

theorem macCalcIdleSlopeBounds {bps : Int} (low : 0 ≤ bps) (high : bps ≤ 100000000) :
    0 ≤ macCalcIdleSlope bps ∧ macCalcIdleSlope bps ≤ 2 ^ 16 := by
  rw [macCalcIdleSlopeRounds low]
  omega

theorem installableBounds {slope : Int} (h : Installable slope) : 0 ≤ slope ∧ slope ≤ 11 * 2 ^ 16 := by
  rcases h with rfl | ⟨bps, low, high, rfl⟩
  · decide
  · have := macCalcIdleSlopeBounds low high
    omega

section words
variable {s t : State (BitVec 32) × State Int} {i : Iteration}

theorem wordExact {n : Int} (low : -2 ^ 31 ≤ n) (high : n < 2 ^ 31) : (words.word n).toInt = n :=
  ofIntExact.mpr ⟨low, high⟩

theorem elapsedExact (a b : Int) (low : b ≤ a) (high : a ≤ b + 12500) :
    (words.sub (words.word a) (words.word b)).toInt = a - b := by
  have difference : words.sub (words.word a) (words.word b) = BitVec.ofInt 32 (a - b) := by
    apply BitVec.eq_of_toInt_eq
    change (BitVec.ofInt 32 a - BitVec.ofInt 32 b).toInt = _
    rw [BitVec.toInt_sub, BitVec.toInt_ofInt, BitVec.toInt_ofInt, BitVec.toInt_ofInt, Int.bmod_sub_bmod, Int.sub_bmod_bmod]
  rw [difference]
  exact ofIntExact.mpr ⟨by omega, by omega⟩

theorem chargeExact {length : Nat} (short : length ≤ 1518) :
    (words.shl (words.word (length + 8 + 96 / 8 + 4)) 19).toInt = cost length := by
  have total : (length : Int) + 8 + 96 / 8 + 4 = (length + 24 : Nat) := by omega
  have small : (length + 24) % 2 ^ 32 = length + 24 := Nat.mod_eq_of_lt (by omega)
  have exact : cost length = ((length + 24) * 2 ^ 19 : Nat) := by
    unfold cost frameOverhead
    omega
  change (BitVec.ofInt 32 ((length : Int) + 8 + 96 / 8 + 4) <<< 19).toInt = cost length
  rw [total, BitVec.ofInt_natCast, BitVec.toInt_shiftLeft, BitVec.toNat_ofNat, small, Nat.shiftLeft_eq, exact]
  exact Int.bmod_eq_of_le (by omega) (by omega)

theorem elapsedSame (h : Same s) (onTime : s.1.creditTime ≤ i.reads.time) (within : Within s i) :
    (words.sub (words.word i.reads.time) (words.word s.1.creditTime)).toInt =
      ints.sub (ints.word i.reads.time) (ints.word s.2.creditTime) := by
  rw [elapsedExact _ _ onTime within.1, h.time]
  rfl

theorem productExact (h : Same s) (onTime : s.1.creditTime ≤ i.reads.time) (within : Within s i) :
    (product words s.1 i).toInt = product ints s.2 i ↔ Fits 31 (product ints s.2 i) := by
  have exact := mulExact (words.sub (words.word i.reads.time) (words.word s.1.creditTime)) s.1.idleSlope
  rw [elapsedSame h onTime within, h.slope] at exact
  exact exact

theorem accrueExact (h : Same s) (same : (product words s.1 i).toInt = product ints s.2 i) :
    (accrue words s.1 i).toInt = accrue ints s.2 i ↔ Fits 31 (accrue ints s.2 i) := by
  have exact := addExact s.1.credit (product words s.1 i)
  rw [h.credit, same] at exact
  exact exact

theorem clipExact (same : (accrue words s.1 i).toInt = accrue ints s.2 i) :
    (clip words s.1 i).toInt = clip ints s.2 i := by
  have value : words.value (accrue words s.1 i) = ints.value (accrue ints s.2 i) := same
  unfold clip
  rw [value]
  split
  · exact wordExact (by decide) (by decide)
  · exact same

theorem costBound {length : Nat} (short : length ≤ 1518) : 0 ≤ cost length ∧ cost length ≤ 2 ^ 31 := by
  unfold cost frameOverhead
  omega

theorem chargedInts (s : State Int) (i : Iteration) (length : Nat) :
    charged ints s i length = clip ints s i - cost length := by
  change clip ints s i - ((length : Int) + 8 + 96 / 8 + 4) * 2 ^ 19 = _
  unfold cost frameOverhead
  omega

theorem chargedExact (same : (clip words s.1 i).toInt = clip ints s.2 i) {length : Nat} (short : length ≤ 1518) :
    (charged words s.1 i length).toInt = charged ints s.2 i length ↔ Fits 31 (charged ints s.2 i length) := by
  have exact := subExact (clip words s.1 i) (words.shl (words.word (length + 8 + 96 / 8 + 4)) 19)
  rw [same, chargeExact short, ← chargedInts] at exact
  exact exact

theorem bothTaken (taken : both s i = some t) : step words s.1 i = some t.1 ∧ step ints s.2 i = some t.2 := by
  obtain ⟨m, first, rest⟩ := Option.bind_eq_some_iff.mp taken
  obtain ⟨e, second, rfl⟩ := Option.map_eq_some_iff.mp rest
  exact ⟨first, second⟩

theorem accrualEq (h : Same s) : (i.reads.time - s.1.creditTime) * s.1.idleSlope.toInt = product ints s.2 i := by
  rw [h.time, h.slope]
  rfl

theorem accrueEq (h : Same s) : s.1.credit.toInt + product ints s.2 i = accrue ints s.2 i := by
  rw [h.credit]
  rfl

theorem roomFits (h : Same s) (onTime : s.1.creditTime ≤ i.reads.time) :
    max s.1.credit.toInt 0 + product ints s.2 i < 2 ^ 31 ↔ Fits 31 (product ints s.2 i) ∧ Fits 31 (accrue ints s.2 i) := by
  have positive : 0 ≤ product ints s.2 i := by
    have early := h.time
    exact Int.mul_nonneg (by change 0 ≤ i.reads.time - s.2.creditTime; omega) h.bounds.1
  obtain ⟨low, high⟩ := valueFits (w := 31) s.1.credit
  have sum := accrueEq (i := i) h
  unfold Fits
  omega

theorem chosenSame {r : Reads} (same : (accrue words s.1 i).toInt = accrue ints s.2 i) :
    Chosen (words.value (accrue words s.1 i) < 0) r ↔ Chosen (ints.value (accrue ints s.2 i) < 0) r := by
  have value : words.value (accrue words s.1 i) = ints.value (accrue ints s.2 i) := same
  rw [value]

theorem reloadExact (h : Same s) (within : Within s i) : (reload words s.1 i).toInt = reload ints s.2 i ∧
    0 ≤ reload ints s.2 i ∧ reload ints s.2 i ≤ 11 * 2 ^ 16 := by
  obtain ⟨low, high⟩ := installableBounds within.2.2
  unfold reload
  split
  · exact ⟨wordExact (by omega) (by omega), low, high⟩
  · exact ⟨h.slope, h.bounds⟩

theorem chargedFits (h : Same s) (onTime : s.1.creditTime ≤ i.reads.time) (within : Within s i) (room : Room s i)
    {b : Buf} (found : b ∈ highBuf i.reads) (chosen : Chosen (ints.value (accrue ints s.2 i) < 0) i.reads) :
    Fits 31 (charged ints s.2 i b.length) := by
  obtain ⟨above, below⟩ := room
  rw [accrualEq h] at above below
  obtain ⟨-, low, high⟩ := (roomFits h onTime).mp above
  have bound := costBound (within.2.1 b found)
  have charges : cost b.length ≤ clip ints s.2 i + 2 ^ 31 ∧ clip ints s.2 i < 2 ^ 31 := by
    unfold clip
    split
    · change cost b.length ≤ (0 : Int) + 2 ^ 31 ∧ (0 : Int) < 2 ^ 31
      omega
    · refine ⟨?_, high⟩
      cases tested : ready (highBuf i.reads) .credit with
      | true =>
        have paid : ¬ accrue ints s.2 i < 0 := fun owed => chosen.2 ⟨tested, owed⟩
        omega
      | false =>
        have marked := below b found tested chosen.1
        rw [accrueEq h] at marked
        exact marked
  rw [chargedInts]
  exact ⟨by omega, by omega⟩

theorem stepKeeps (h : Same s) (within : Within s i) (room : Room s i) (taken : both s i = some t) : Same t := by
  obtain ⟨m, e⟩ := t
  obtain ⟨first, second⟩ := bothTaken taken
  have now := onTime first
  have later : s.2.creditTime ≤ i.reads.time := by
    rw [← h.time]
    exact now
  have above := room.1
  rw [accrualEq h] at above
  obtain ⟨productFits, accrueFits⟩ := (roomFits h now).mp above
  have product_ := (productExact h now within).mpr productFits
  have accrue_ := (accrueExact h product_).mpr accrueFits
  have clip_ := clipExact accrue_
  obtain ⟨slope, bounds⟩ := reloadExact h within
  rcases stepCases now with ⟨b, found, chosen, ends⟩ | ⟨waits, ends⟩
  · rcases stepCases later with ⟨b', found', chosen', ends'⟩ | ⟨waits', -⟩
    · have same : b' = b := Option.some.inj (found'.symm.trans found)
      subst same
      have charged_ := (chargedExact clip_ (within.2.1 b' found)).mpr (chargedFits h now within room found chosen')
      cases Option.some.inj (ends.symm.trans first)
      cases Option.some.inj (ends'.symm.trans second)
      refine ⟨charged_, rfl, slope, bounds, ?_, ?_⟩
      · rw [List.map_append, h.values, List.map_cons, List.map_cons, List.map_cons, product_, accrue_, charged_]
        rfl
      · dsimp only
        rw [h.sent]
    · exact absurd ((chosenSame accrue_).mp chosen) waits'
  · rcases stepCases later with ⟨b', -, chosen', -⟩ | ⟨-, ends'⟩
    · exact absurd ((chosenSame accrue_).mpr chosen') waits
    · cases Option.some.inj (ends.symm.trans first)
      cases Option.some.inj (ends'.symm.trans second)
      refine ⟨clip_, rfl, slope, bounds, ?_, ?_⟩
      · rw [List.map_append, h.values, List.map_cons, List.map_cons, product_, accrue_]
        rfl
      · dsimp only
        rw [h.sent]

theorem stepValues {α : Type} {A : Arith α} {s t : State α} (taken : step A s i = some t) :
    ∃ rest, t.values = s.values ++ product A s i :: accrue A s i :: rest ∧
      ∀ b ∈ highBuf i.reads, Chosen (A.value (accrue A s i) < 0) i.reads → rest = [charged A s i b.length] := by
  rcases stepCases (onTime taken) with ⟨b, found, -, ends⟩ | ⟨waits, ends⟩
  · rw [ends] at taken
    cases taken
    refine ⟨_, rfl, fun b' found' _ => ?_⟩
    rw [Option.some.inj (found'.symm.trans found)]
  · rw [ends] at taken
    cases taken
    exact ⟨[], rfl, fun _ _ chosen => absurd chosen waits⟩

theorem stepBreaks (h : Same s) (within : Within s i) (taken : both s i = some t) (full : ¬ Room s i) : ¬ Exact t := by
  intro exact
  obtain ⟨first, second⟩ := bothTaken taken
  have now := onTime first
  obtain ⟨rest, values, charge⟩ := stepValues first
  obtain ⟨rest', values', charge'⟩ := stepValues second
  rw [Exact, values, values', List.map_append, h.values, List.map_cons, List.map_cons] at exact
  have results := List.append_cancel_left exact
  simp only [List.cons.injEq] at results
  obtain ⟨product_, accrue_, tail⟩ := results
  have room : max s.1.credit.toInt 0 + product ints s.2 i < 2 ^ 31 :=
    (roomFits h now).mpr ⟨(productExact h now within).mp product_, (accrueExact h product_).mp accrue_⟩
  refine full ⟨by rw [accrualEq h]; exact room, fun b found tested marked => ?_⟩
  have chosen : ∀ owed, Chosen owed i.reads := fun owed => ⟨marked, fun held => by rw [tested] at held; cases held.1⟩
  rw [charge b found (chosen _), charge' b found (chosen _)] at tail
  have charged_ : (charged words s.1 i b.length).toInt = charged ints s.2 i b.length := List.head_eq_of_cons_eq tail
  obtain ⟨low, -⟩ := (chargedExact (clipExact accrue_) (within.2.1 b found)).mp charged_
  have clipped : clip ints s.2 i ≤ accrue ints s.2 i ∨ 0 < accrue ints s.2 i := by
    unfold clip
    split
    · rename_i positive
      exact .inr positive.2
    · exact .inl (Int.le_refl _)
  have short := costBound (within.2.1 b found)
  rw [accrualEq h, accrueEq h]
  rw [chargedInts] at low
  omega

theorem startSame {time slope : Int} (installable : Installable slope) : Same (start time slope) := by
  have bounds := installableBounds installable
  exact ⟨rfl, rfl, wordExact (by omega) (by omega), bounds, rfl, rfl⟩

theorem sentSame {time slope : Int} (installable : Installable slope) {is : List Iteration}
    (within : Along both Within (start time slope) is) (room : Along both Room (start time slope) is) :
    Always both (fun s => s.1.sent = s.2.sent) (start time slope) is := by
  refine alwaysGuarded (I := Same) (C := fun s i => Within s i ∧ Room s i) ?_ (fun _ h => h.sent) (startSame installable) ?_
  · intro s i t h both taken
    exact stepKeeps h both.1 both.2 taken
  · exact alongAnd within room

end words

/-- The arithmetic of the loop is exact in the runs in which there is room at every iteration, and in
no others. -/
theorem exactIff {time slope : Int} (installable : Installable slope) {is : List Iteration}
    (within : Along both Within (start time slope) is) :
    Always both Exact (start time slope) is ↔ Along both Room (start time slope) is :=
  alwaysExactWithin (I := Same) (fun _ _ _ => stepKeeps) (fun _ h => h.values) (fun _ _ _ h within taken => stepBreaks h within taken)
    (startSame installable) within

instance installableDecidable (slope : Int) : Decidable (Installable slope) :=
  decidable_of_iff (slope = 11 * 2 ^ 16 ∨ 0 ≤ slope ∧ slope ≤ 2 ^ 16) (by
    refine or_congr Iff.rfl ⟨fun ⟨low, high⟩ => ⟨slope * 100000000 / 2 ^ 16, by omega, by omega, ?_⟩, ?_⟩
    · rw [macCalcIdleSlopeRounds (by omega)]
      omega
    · rintro ⟨bps, low, high, rfl⟩
      exact macCalcIdleSlopeBounds low high)

instance (s i) : Decidable (Within s i) := by unfold Within; infer_instance
instance (s i) : Decidable (Room s i) := by unfold Room; infer_instance

/- A frame of low priority and behind it one of high priority. -/
def behindLow (length : Nat) (late : Int) : List Iteration :=
  [⟨⟨10, none, [], some ⟨length, 0, 1, 0⟩, []⟩, 11 * 2 ^ 16⟩, ⟨⟨late, some ⟨60, 0, 1, 0⟩, [], none, []⟩, 11 * 2 ^ 16⟩]

theorem exactBehindShort : Always both Exact (start 0 (11 * 2 ^ 16)) (behindLow 200 2000) :=
  (exactIff (by decide) (by decide +kernel)).mpr (by decide +kernel)

theorem overflowBehindLow : Along both Within (start 0 (11 * 2 ^ 16)) (behindLow 600 5010) ∧
    ¬ Always both Exact (start 0 (11 * 2 ^ 16)) (behindLow 600 5010) := by
  refine ⟨by decide +kernel, fun always => ?_⟩
  have last : (run both (start 0 (11 * 2 ^ 16)) (behindLow 600 5010)).map (fun s => (s.1.values.map BitVec.toInt, s.2.values)) =
      some ([7208960, 7208960, -690487296, -690487296], [7208960, 7208960, 3604480000, 3604480000, 3560439808]) := by
    decide +kernel
  obtain ⟨s, reached, same⟩ := Option.map_eq_some_iff.mp last
  have exact := alwaysReached always reached
  simp only [Prod.mk.injEq] at same
  rw [Exact, same.1, same.2] at exact
  revert exact
  decide

section shaper
variable {slope : Nat} {s t : State Int} {i : Iteration} {u : TxShaper.State}

theorem stepShapes (slopes : s.idleSlope = slope) (credit : u.credit = s.credit) (time : u.creditTime = s.creditTime)
    (taken : step ints s i = some t) : ∃ v, TxShaper.step slope u i.reads = some v ∧ v.credit = t.credit ∧
      v.creditTime = t.creditTime := by
  have now := onTime taken
  have later : u.creditTime ≤ i.reads.time := by
    rw [time]
    exact now
  have sum : TxShaper.accrued slope u i.reads = accrue ints s i := by
    rw [TxShaper.accrued, credit, time, ← slopes]
    rfl
  have clips : TxShaper.clipped slope u i.reads = clip ints s i := by
    rw [TxShaper.clipped, sum]
    rfl
  have choice : TxShaper.Pays slope u i.reads ↔ Chosen (ints.value (accrue ints s i) < 0) i.reads := by
    rw [TxShaper.Pays, sum]
    rfl
  rcases stepCases now with ⟨b, found, chosen, ends⟩ | ⟨waits, ends⟩
  · rcases TxShaper.stepCases later with ⟨b', found', -, ends'⟩ | ⟨waits', -⟩
    · rw [Option.some.inj (found'.symm.trans found), clips] at ends'
      refine ⟨_, ends', ?_⟩
      rw [← Option.some.inj (ends.symm.trans taken)]
      exact ⟨(chargedInts s i b.length).symm, rfl⟩
    · exact absurd (choice.mpr chosen) waits'
  · rcases TxShaper.stepCases later with ⟨b', -, chosen', -⟩ | ⟨-, ends'⟩
    · exact absurd (choice.mp chosen') waits
    · rw [ends] at taken
      cases taken
      obtain ⟨same, later, -⟩ := lowEndSent u i.reads (TxShaper.clipped slope u i.reads)
      exact ⟨_, ends', same.trans clips, later⟩

end shaper

/- While there is room the credit of the machine is that of the shaper, at a slope that stays. -/
theorem runShapes {slope : Nat} {is : List Iteration} (stays : ∀ i ∈ is, i.installed = slope)
    {s t : State (BitVec 32) × State Int} (h : Same s) (slopes : s.2.idleSlope = slope) {u : TxShaper.State}
    (credit : u.credit = s.2.credit) (time : u.creditTime = s.2.creditTime) (within : Along both Within s is)
    (room : Along both Room s is) (reached : run both s is = some t) :
    ∃ v, run (TxShaper.step slope) u (is.map Iteration.reads) = some v ∧ v.credit = t.1.credit.toInt := by
  induction is generalizing s u with
  | nil =>
    cases Option.some.inj reached
    exact ⟨u, rfl, by rw [credit, h.credit]⟩
  | cons i is ih =>
    obtain ⟨m, first, rest⟩ := Option.bind_eq_some_iff.mp reached
    obtain ⟨within_, within⟩ := within m first
    obtain ⟨room_, room⟩ := room m first
    have next := stepKeeps h within_ room_ first
    obtain ⟨v, shaped, credit_, time_⟩ := stepShapes slopes credit time (bothTaken first).2
    have kept : m.2.idleSlope = slope := by
      rw [stepSlope (bothTaken first).2, reload]
      split
      · exact stays i List.mem_cons_self
      · exact slopes
    obtain ⟨w, later, value⟩ := ih (fun j member => stays j (List.mem_cons_of_mem _ member)) next kept credit_ time_ within room rest
    exact ⟨w, by rw [List.map_cons, run, shaped, Option.bind_some, later], value⟩

end ScEthernet.Full.ShaperWords
