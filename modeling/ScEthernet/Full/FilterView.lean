import ScEthernet.Full.FilterPass

/-! The array that mac_custom_filter gets is the plain memory from the data of the packet on. Where the data
runs over the end of the pool the array goes on with the wrap pointer and what lies behind the pool, while
every other reader goes on at the start. -/
namespace ScEthernet.Full.FilterView
open Lib.UnrolledRing Lib.Runs Malloc PoolQueue RxPins RxFilter FilterPass

def frameWords (p : Pool) (buf : Int) : Nat := ((miiPacketGetLength p buf + 3) / 4).toNat

def Sees (p : Pool) (buf : Int) (received : List (BitVec 32)) : Prop :=
  ∀ i, i < frameWords p buf → received[i]? = some (coerced p buf i)
instance (p buf received) : Decidable (Sees p buf received) := by unfold Sees; infer_instance

/- The words of the packet before the end of the pool are those of the frame. -/
def InPool (p : Pool) (buf : Int) (received : List (BitVec 32)) : Prop :=
  ∀ i, i < frameWords p buf → miiPacketGetDataPtr buf + i < p.stop → received[i]? = some (getData p buf i)

def behind (p : Pool) (a : Int) : BitVec 32 := BitVec.ofInt 32 (if a = p.stop then p.start else p.mem a)

/- No word lies at the end or behind it, or what is there happens to be the frame's. -/
def BehindPool (p : Pool) (buf : Int) (received : List (BitVec 32)) : Prop :=
  ∀ i, i < frameWords p buf → p.stop ≤ miiPacketGetDataPtr buf + i →
    received[i]? = some (behind p (miiPacketGetDataPtr buf + i))

section view
variable {p : Pool} {q : List Pkt} {r : Ring} {vr vw : Nat}

theorem coercedInside {buf : Int} {i : Nat} (inside : miiPacketGetDataPtr buf + i < p.stop) :
    coerced p buf i = getData p buf i := by
  rw [miiPacketGetDataPtr] at inside
  rw [coerced, getData, miiPacketGetData, miiPacketGetDataPtr]
  rw [if_neg (by omega), show buf + bufDataOffset + (i : Int) = buf + (i + bufDataOffset) by omega]

theorem coercedBehind (h : Rep p q r vr vw) {buf : Int} {i : Nat} :
    coerced p buf i = behind p (miiPacketGetDataPtr buf + i) := by
  rw [coerced, behind]
  split
  · rename_i wrap
    rw [wrap, h.wrapWord]
  · rfl

theorem seesIff (h : Rep p q r vr vw) (buf : Int) (received : List (BitVec 32)) :
    Sees p buf received ↔ InPool p buf received ∧ BehindPool p buf received := by
  constructor
  · intro sees
    refine ⟨fun i small inside => ?_, fun i small _ => ?_⟩
    · rw [← coercedInside inside]; exact sees i small
    · rw [← coercedBehind h]; exact sees i small
  · rintro ⟨before, after⟩ i small
    by_cases inside : miiPacketGetDataPtr buf + i < p.stop
    · rw [coercedInside inside]; exact before i small inside
    · rw [coercedBehind h]; exact after i small (by omega)

theorem wholeInPool {u : RxPins.State} (h : Ringed u r vr vw) {buf : Int} {frame : List (BitVec 8)} {received : List (BitVec 32)}
    (held : Held u buf frame received false) : InPool u.pool buf received := by
  obtain ⟨pre, k, n, last, rfl, -, framed, -, whole⟩ := held
  have rep := h.rep
  rw [last] at rep
  have small := framed.small
  have count : frameWords u.pool k.buf ≤ k.data.length := by
    rw [frameWords, miiPacketGetLength, framedField rep, framed.length]; omega
  intro i below _
  rw [← whole rfl, List.getElem?_map, List.getElem?_eq_getElem (by omega), Option.map_some, dataWord rep]

end view

theorem filterSeesIff {ι : Type} [DecidableEq ι] (g : Config) (forwards : Bool) (mem : ι → Int → Int) (mempool memsize : ι → Nat)
    (enough : ∀ i, 28 ≤ memsize i) (es : List (FilterPass.Event ι)) :
    Always (FilterPass.step g forwards) (fun s => ∀ i buf, s.pending = some (i, buf) →
        (Sees (s.rx i).rx.pool buf s.received ↔
          InPool (s.rx i).rx.pool buf s.received ∧ BehindPool (s.rx i).rx.pool buf s.received) ∧
        (s.lost = false → InPool (s.rx i).rx.pool buf s.received))
      (FilterPass.initial mem mempool memsize) es := by
  refine alwaysInvariant (I := SystemInv) (fun _ _ _ inv taken => systemStep inv taken) ?_ (systemStart mem mempool memsize enough) es
  intro s inv i buf waits
  obtain ⟨r, vr, vw, h⟩ := (inv.pools i).ringed
  have held := inv.held i buf waits
  refine ⟨seesIff h.rep buf s.received, fun found => ?_⟩
  rw [found] at held
  exact wholeInPool h held

/- Where no word was lost and the data ends before the end of the pool, the array is the frame as it came in. -/
theorem contiguousSeen {ι : Type} [DecidableEq ι] (g : Config) (forwards : Bool) (mem : ι → Int → Int) (mempool memsize : ι → Nat)
    (enough : ∀ i, 28 ≤ memsize i) (es : List (FilterPass.Event ι)) :
    Always (FilterPass.step g forwards) (fun s => ∀ i buf, s.pending = some (i, buf) → s.lost = false →
        miiPacketGetDataPtr buf + frameWords (s.rx i).rx.pool buf ≤ (s.rx i).rx.pool.stop →
        Sees (s.rx i).rx.pool buf s.received)
      (FilterPass.initial mem mempool memsize) es := by
  refine alwaysInvariant (I := SystemInv) (fun _ _ _ inv taken => systemStep inv taken) ?_ (systemStart mem mempool memsize enough) es
  intro s inv i buf waits found ends
  obtain ⟨r, vr, vw, h⟩ := (inv.pools i).ringed
  have held := inv.held i buf waits
  rw [found] at held
  exact (seesIff h.rep buf s.received).mpr ⟨wholeInPool h held, fun j small past => by omega⟩

/- Behind a short frame that is gone, one of 19 words whose data runs over the end. -/
def overEnd : List (FilterPass.Event Unit) :=
  (frameEvents 7 ⟨List.replicate 14 1, 0, 0⟩ ++ [RxPins.Event.commit]).map (.rx ()) ++
  [.filter, .rx () (.free 7)] ++
  (frameEvents 9 ⟨(List.range 19).map (fun i : Nat => BitVec.ofNat 32 (100 + i)), 0, 0⟩ ++ [RxPins.Event.commit]).map (.rx ())

def overEndStart : FilterPass.State Unit := FilterPass.initial (fun _ _ => 0) (fun _ => 0) (fun _ => 60)

theorem wrapPointerSeen : ∃ s buf, run (FilterPass.step firstWord false) overEndStart overEnd = some s ∧
    s.pending = some ((), buf) ∧ s.lost = false ∧ ¬ Sees (s.rx ()).rx.pool buf s.received := by
  have ends : (run (FilterPass.step firstWord false) overEndStart overEnd).any (fun s => match s.pending with
      | some (_, buf) => decide (s.lost = false ∧ coerced (s.rx ()).rx.pool buf 16 = 5 ∧ s.received[16]? = some 116 ∧
          16 < frameWords (s.rx ()).rx.pool buf)
      | none => false) = true := by decide +kernel
  cases reached : run (FilterPass.step firstWord false) overEndStart overEnd with
  | none => rw [reached] at ends; cases ends
  | some s =>
    rw [reached, Option.any_some] at ends
    split at ends
    case h_2 => cases ends
    rename_i i buf waits
    obtain ⟨found, seen, sent, inside⟩ := of_decide_eq_true ends
    refine ⟨s, buf, rfl, waits, found, fun sees => ?_⟩
    have same := sees 16 inside
    rw [seen, sent] at same
    cases same

theorem filterSeesMulticast : Always (FilterPass.step firstWord false) (fun s => ∀ i buf, s.pending = some (i, buf) →
      (Sees (s.rx i).rx.pool buf s.received ↔
        InPool (s.rx i).rx.pool buf s.received ∧ BehindPool (s.rx i).rx.pool buf s.received) ∧
      (s.lost = false → InPool (s.rx i).rx.pool buf s.received))
    multicastStart multicast :=
  filterSeesIff firstWord false (fun _ _ => 0) (fun _ => 0) (fun _ => 128) (fun _ : Unit => by decide) multicast

end ScEthernet.Full.FilterView
