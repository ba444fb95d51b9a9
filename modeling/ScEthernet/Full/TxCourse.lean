import ScEthernet.Full.TxServer
import Mathlib.Algebra.Group.Nat.Defs

/-! The course of one call of a client. Its frame comes to each port that it goes to, is transmitted
there once and freed once, and a timed one is answered in between. -/
namespace ScEthernet.Full.TxCourse
open TxServer

inductive Phase where
  | before
  | waiting
  | ended
  deriving DecidableEq

inductive Life where
  | absent
  | queued
  | sent (time : Int)
  | answered (time : Int)
  | gone
  deriving DecidableEq

def Life.past : Life → Bool
  | .absent | .queued => false
  | _ => true

/- `next` is the port that the server comes to next with the frame. -/
structure Course where
  phase : Phase
  next : Option Nat
  life : Nat → Life
  sent : List Transmission
  freed : List Nat
  replies : List Reply

def initial : Course := ⟨.before, none, fun _ => .absent, [], [], []⟩

/- A timed frame goes to one port. -/
def Single (c : Config) (r : Request) : Prop := r.timed = true → c.ports ≤ 1 ∨ r.dstPort ≠ ethBroadcast

def Course.Awaited (k : Course) (p : Nat) : Prop := k.phase = .before ∨ ∃ q ≤ p, k.next = some q

section
variable (c : Config) (r : Request) (n : Nat)

inductive Step (k : Course) : Course → Prop
  | transfer (before : k.phase = .before) :
    Step k { k with phase := if r.timed then .waiting else .ended, next := some 0 }
  | enter {p : Nat} (next : k.next = some p) (port : p < c.ports) (goes : r.goesTo p = true) :
    Step k { k with life := set k.life p .queued, next := some (p + 1) }
  | pass {p : Nat} (next : k.next = some p) (stays : r.goesTo p = false) : Step k { k with next := some (p + 1) }
  | done {p : Nat} (next : k.next = some p) (last : ¬ p < c.ports) : Step k { k with next := none }
  | transmit {p : Nat} (time : Int) (queued : k.life p = .queued) :
    Step k { k with life := set k.life p (.sent time), sent := k.sent ++ [⟨p, n, r.data, time⟩] }
  | leave {p : Nat} {time : Int} (sent : k.life p = .sent time) (untimed : r.timed = false) :
    Step k { k with life := set k.life p .gone, freed := k.freed ++ [p] }
  | answer {p : Nat} {time : Int} (sent : k.life p = .sent time) (timed : r.timed = true) (settled : k.next = none) :
    Step k { k with life := set k.life p (.answered time), phase := .ended
                    replies := k.replies ++ [⟨r.link, time + ethernetTxPhyTimerOffset, some n⟩] }
  | release {p : Nat} {time : Int} (answered : k.life p = .answered time) :
    Step k { k with life := set k.life p .gone, freed := k.freed ++ [p] }

structure At (k : Course) (p : Nat) (x : Life) : Prop where
  absent : x = .absent ↔ ¬ (p < c.ports ∧ r.goesTo p = true) ∨ k.Awaited p
  waits : r.timed = true → (x = .queued ∨ ∃ t, x = .sent t) → k.phase = .waiting
  ended : r.timed = true → ((∃ t, x = .answered t) ∨ x = .gone) → k.phase = .ended
  sent : k.sent.countP (fun y => decide (y.port = p)) = if x.past then 1 else 0
  freed : k.freed.count p = if x = .gone then 1 else 0
  times : ∀ t, (x = .sent t ∨ x = .answered t) → ⟨p, n, r.data, t⟩ ∈ k.sent

structure Inv (k : Course) : Prop where
  before : k.phase = .before → k.next = none
  entering : r.timed = true → ∀ p, k.next = some p → k.phase = .waiting
  ports : ∀ p, At c r n k p (k.life p)
  frames : ∀ x ∈ k.sent, x.port < c.ports ∧ r.goesTo x.port = true ∧ x.data = r.data
  answers : k.replies.length = if r.timed = true ∧ k.phase = .ended then 1 else 0
  replies : ∀ a ∈ k.replies, r.timed = true ∧ a.link = r.link ∧
    ∃ p t, ⟨p, n, r.data, t⟩ ∈ k.sent ∧ a.time = t + ethernetTxPhyTimerOffset

end

section
variable {c : Config} {r : Request} {n : Nat} {k k' : Course} {p q : Nat} {x : Life}

theorem invInitial : Inv c r n initial where
  before _ := rfl
  entering _ _ next := by cases next
  ports p :=
    { absent := ⟨fun _ => .inr (.inl rfl), fun _ => rfl⟩
      waits := fun _ lives => by rcases lives with queued | ⟨t, sent⟩ <;> contradiction
      ended := fun _ lives => by rcases lives with ⟨t, answered⟩ | gone <;> contradiction
      sent := rfl
      freed := rfl
      times := fun t lives => by rcases lives with sent | answered <;> contradiction }
  frames _ member := by cases member
  answers := by simp [initial]
  replies _ member := by cases member

theorem onePort (single : Single c r) (timed : r.timed = true) (portP : p < c.ports) (portQ : q < c.ports)
    (goesP : r.goesTo p = true) (goesQ : r.goesTo q = true) : p = q := by
  have toP := of_decide_eq_true goesP
  have toQ := of_decide_eq_true goesQ
  rcases single timed with one | other
  · omega
  · have atP := toP.resolve_right other
    have atQ := toQ.resolve_right other
    omega

theorem presentGoes (h : Inv c r n k) (present : k.life p ≠ .absent) :
    p < c.ports ∧ r.goesTo p = true ∧ ¬ k.Awaited p := by
  have absent := (h.ports p).absent.not.mp present
  push Not at absent
  exact ⟨absent.1.1, absent.1.2, absent.2⟩

theorem portsSet {f : Nat → Life} (here : At c r n k p x) (there : ∀ q, q ≠ p → At c r n k q (f q)) (q : Nat) :
    At c r n k q (set f p x q) := by
  by_cases same : q = p
  · subst same
    rw [setSame]
    exact here
  · rw [setOther same]
    exact there q same

theorem transferKeeps (h : Inv c r n k) (before : k.phase = .before) :
    Inv c r n { k with phase := if r.timed then .waiting else .ended, next := some 0 } := by
  have absent : ∀ p, k.life p = .absent := fun p => (h.ports p).absent.mpr (.inr (.inl before))
  have none : k.replies.length = 0 := by rw [h.answers, before]; simp
  refine { h with before := ?_, entering := fun timed _ _ => if_pos timed, ports := ?_, answers := ?_ }
  · intro still
    exfalso
    cases timed : r.timed <;> simp [timed] at still
  · intro p
    have now := h.ports p
    rw [absent p] at now ⊢
    refine { now with absent := ?_, waits := fun timed _ => if_pos timed, ended := ?_ }
    · exact ⟨fun _ => .inr (.inr ⟨0, Nat.zero_le p, rfl⟩), fun _ => rfl⟩
    · rintro - (⟨t, answered⟩ | gone) <;> contradiction
  · rw [none]
    cases timed : r.timed <;> simp

theorem notBefore (h : Inv c r n k) (next : k.next = some p) : k.phase ≠ .before :=
  fun before => by rw [h.before before] at next; cases next

theorem nextAwaited {k : Course} (started : k.phase ≠ .before) (next : k.next = some p) : k.Awaited q ↔ p ≤ q := by
  unfold Course.Awaited
  rw [next]
  constructor
  · rintro (before | ⟨x, low, at_⟩)
    · exact absurd before started
    · cases at_
      exact low
  · exact fun low => .inr ⟨p, low, rfl⟩

theorem enterKeeps (h : Inv c r n k) (next : k.next = some p) (port : p < c.ports) (goes : r.goesTo p = true) :
    Inv c r n { k with life := set k.life p .queued, next := some (p + 1) } := by
  have started := notBefore h next
  have absent : k.life p = .absent := (h.ports p).absent.mpr (.inr (.inr ⟨p, Nat.le_refl p, next⟩))
  have now := h.ports p
  rw [absent] at now
  have awaits : ∀ q, Course.Awaited { k with life := set k.life p .queued, next := some (p + 1) } q ↔ p + 1 ≤ q :=
    fun q => nextAwaited started rfl
  refine { h with before := fun before => absurd before started, entering := fun timed _ _ => h.entering timed p next
                  ports := portsSet ?_ ?_ }
  · refine { now with absent := ?_, waits := fun timed _ => h.entering timed p next, ended := ?_, times := ?_ }
    · rw [awaits]
      simp [port, goes]
    · rintro - (⟨t, answered⟩ | gone) <;> contradiction
    · rintro t (sent | answered) <;> contradiction
  · intro q ne
    have away := h.ports q
    refine { away with absent := away.absent.trans ?_ }
    rw [awaits, nextAwaited started next]
    refine or_congr Iff.rfl ⟨fun le => ?_, fun le => ?_⟩ <;> omega

theorem passKeeps (h : Inv c r n k) (next : k.next = some p) (stays : r.goesTo p = false) :
    Inv c r n { k with next := some (p + 1) } := by
  have started := notBefore h next
  have awaits : ∀ q, Course.Awaited { k with next := some (p + 1) } q ↔ p + 1 ≤ q := fun q => nextAwaited started rfl
  refine { h with before := fun before => absurd before started, entering := fun timed _ _ => h.entering timed p next
                  ports := fun q => ?_ }
  have now := h.ports q
  refine { now with absent := now.absent.trans ?_ }
  rw [awaits, nextAwaited started next]
  by_cases here : q = p
  · subst here
    simp [stays]
  · refine or_congr Iff.rfl ⟨fun le => ?_, fun le => ?_⟩ <;> omega

theorem doneKeeps (h : Inv c r n k) (next : k.next = some p) (last : ¬ p < c.ports) : Inv c r n { k with next := none } := by
  have started := notBefore h next
  refine { h with before := fun _ => rfl, entering := fun _ _ none => (by cases none), ports := fun q => ?_ }
  have now := h.ports q
  refine { now with absent := now.absent.trans ?_ }
  rw [nextAwaited started next]
  constructor
  · rintro (away | le)
    · exact .inl away
    · exact .inl fun goes => last (Nat.lt_of_le_of_lt le goes.1)
  · rintro (away | before | ⟨x, -, none⟩)
    · exact .inl away
    · exact absurd before started
    · cases none

theorem portFrame (h : At c r n k q x) (phase : k'.phase = k.phase) (next : k'.next = k.next)
    (sent : k'.sent.countP (fun y => decide (y.port = q)) = k.sent.countP (fun y => decide (y.port = q)))
    (freed : k'.freed.count q = k.freed.count q) (kept : ∀ y ∈ k.sent, y ∈ k'.sent) : At c r n k' q x where
  absent := by
    unfold Course.Awaited
    rw [phase, next]
    exact h.absent
  waits timed lives := phase.trans (h.waits timed lives)
  ended timed lives := phase.trans (h.ended timed lives)
  sent := sent.trans h.sent
  freed := freed.trans h.freed
  times t lives := kept _ (h.times t lives)

theorem transmitKeeps (h : Inv c r n k) (time : Int) (queued : k.life p = .queued) :
    Inv c r n { k with life := set k.life p (.sent time), sent := k.sent ++ [⟨p, n, r.data, time⟩] } := by
  have now := h.ports p
  rw [queued] at now
  have goes := presentGoes h (p := p) (by rw [queued]; decide)
  have kept : ∀ y ∈ k.sent, y ∈ k.sent ++ [⟨p, n, r.data, time⟩] := fun y old => List.mem_append_left _ old
  refine { h with ports := portsSet ?_ ?_, frames := ?_, replies := ?_ }
  · refine { now with absent := ?_, waits := fun timed _ => now.waits timed (.inl rfl), ended := ?_, sent := ?_, times := ?_ }
    · exact ⟨fun sent => (by cases sent), fun awaited => (by cases now.absent.mpr awaited)⟩
    · rintro - (⟨t, answered⟩ | gone) <;> contradiction
    · rw [List.countP_append, now.sent]
      simp [Life.past]
    · rintro t (sent | answered)
      · cases sent
        exact List.mem_append_right _ (List.mem_singleton.mpr rfl)
      · cases answered
  · intro q ne
    exact portFrame (h.ports q) rfl rfl (by simp [List.countP_append, Ne.symm ne]) rfl kept
  · intro y member
    rcases List.mem_append.mp member with old | new
    · exact h.frames y old
    · rw [List.mem_singleton.mp new]
      exact ⟨goes.1, goes.2.1, rfl⟩
  · intro a member
    obtain ⟨timed, link, q, t, sent, at_⟩ := h.replies a member
    exact ⟨timed, link, q, t, kept _ sent, at_⟩

theorem freeKeeps (h : Inv c r n k) (present : k.life p ≠ .absent) (past : (k.life p).past = true) (kept : k.life p ≠ .gone)
    (ended : r.timed = true → k.phase = .ended) :
    Inv c r n { k with life := set k.life p .gone, freed := k.freed ++ [p] } := by
  have now := h.ports p
  refine { h with ports := portsSet ?_ ?_ }
  · refine { now with absent := ?_, waits := ?_, ended := fun timed _ => ended timed, sent := ?_, freed := ?_, times := ?_ }
    · exact ⟨fun gone => (by cases gone), fun awaited => absurd (now.absent.mpr awaited) present⟩
    · rintro - (queued | ⟨t, sent⟩) <;> contradiction
    · rw [now.sent, past]
      rfl
    · rw [List.count_append, now.freed, if_neg kept]
      simp
    · rintro t (sent | answered) <;> contradiction
  · intro q ne
    exact portFrame (h.ports q) rfl rfl rfl (by simp [List.count_append, Ne.symm ne]) fun y old => old

theorem answerKeeps (h : Inv c r n k) (single : Single c r) {time : Int} (sent : k.life p = .sent time)
    (timed : r.timed = true) (settled : k.next = none) :
    Inv c r n { k with life := set k.life p (.answered time), phase := .ended
                       replies := k.replies ++ [⟨r.link, time + ethernetTxPhyTimerOffset, some n⟩] } := by
  have now := h.ports p
  rw [sent] at now
  have waiting := now.waits timed (.inr ⟨time, rfl⟩)
  have none : k.replies.length = 0 := by rw [h.answers, waiting]; simp
  have here := presentGoes h (p := p) (by rw [sent]; exact fun absent => (by cases absent))
  have started : ∀ q, Course.Awaited { k with phase := .ended } q ↔ k.Awaited q := by
    intro q
    simp [Course.Awaited, waiting, settled]
  refine { h with before := fun before => (by cases before), entering := ?_, ports := portsSet ?_ ?_, answers := ?_, replies := ?_ }
  · intro _ q next
    rw [settled] at next
    cases next
  · refine { now with absent := ?_, waits := ?_, ended := fun _ _ => rfl, times := ?_ }
    · exact ⟨fun answered => (by cases answered), fun awaited => absurd (now.absent.mpr (awaited.imp_right (started p).mp)) (by simp)⟩
    · rintro - (queued | ⟨t, sent⟩) <;> contradiction
    · rintro t (sent | answered)
      · cases sent
      · cases answered
        exact now.times time (.inl rfl)
  · intro q ne
    have away := h.ports q
    refine { away with absent := away.absent.trans (or_congr Iff.rfl (started q).symm), waits := ?_, ended := fun _ _ => rfl }
    intro _ lives
    have there := presentGoes h (p := q) (by rintro absent; rw [absent] at lives; rcases lives with queued | ⟨t, sent⟩ <;> contradiction)
    exact absurd (onePort single timed there.1 here.1 there.2.1 here.2.1) ne
  · rw [List.length_append, none]
    simp [timed]
  · intro a member
    rcases List.mem_append.mp member with old | new
    · exact h.replies a old
    · rw [List.mem_singleton.mp new]
      exact ⟨timed, rfl, p, time, now.times time (.inl rfl), rfl⟩

theorem stepKeeps (h : Inv c r n k) (single : Single c r) (taken : Step c r n k k') : Inv c r n k' := by
  cases taken with
  | transfer before => exact transferKeeps h before
  | enter next port goes => exact enterKeeps h next port goes
  | pass next stays => exact passKeeps h next stays
  | done next last => exact doneKeeps h next last
  | transmit time queued => exact transmitKeeps h time queued
  | leave sent untimed => exact freeKeeps h (by simp [sent]) (by rw [sent]; rfl) (by simp [sent]) (by simp [untimed])
  | answer sent timed settled => exact answerKeeps h single sent timed settled
  | @release p time answered =>
    exact freeKeeps h (by simp [answered]) (by rw [answered]; rfl) (by simp [answered])
      fun timed => (h.ports p).ended timed (.inl ⟨time, answered⟩)

end

end ScEthernet.Full.TxCourse
