import ScEthernet.Lite.ReadSide

/-! Whether mii_restart_buffer finds room once everything is freed. A bank that is empty when its
write pointer wraps keeps the free pointer on the unused tail; when that lies less than
MAXPACKET above the head there is no room, and nothing ever moves the pointer again. -/
namespace ScEthernet.Lite.Refill
open Lib.WordMemory Lib.Runs Wire Buffer BankChain StoreInv StoreSafety ReadSide

/- mii_restart_buffer wraps an empty bank that is too short in front of the write pointer. -/
def Narrow (s : State) : Prop :=
  let d := s.store.data
  let b := d.bank d.refillBankNumber
  d.nextBuffer = -1 ∧ s.store.queue d.refillBankNumber = [] ∧ b.lastSafePtr < b.wrPtr ∧ b.wrPtr < b.firstPtr + 8 + maxPacket

def Wide (s : State) : Event → Prop
  | .restart => ¬ Narrow s
  | _ => True

/- The bank to refill is empty, and there is no room in front of its free pointer. -/
structure Stalled (s : Store) : Prop where
  next : s.data.nextBuffer = -1
  queue : s.queue s.data.refillBankNumber = []
  wrPtr : (s.data.bank s.data.refillBankNumber).wrPtr ≤ (s.data.bank s.data.refillBankNumber).lastSafePtr
  below : (s.data.bank s.data.refillBankNumber).wrPtr ≤ (s.data.bank s.data.refillBankNumber).freePtr
  short : (s.data.bank s.data.refillBankNumber).freePtr - (s.data.bank s.data.refillBankNumber).wrPtr < maxPacket

/- An empty bank has room, or is flat. -/
structure Roomy (s : Store) : Prop where
  inv : Inv s
  settled : ∀ c, ∀ k ∈ (s.queue c).head?, k.freed = false
  room : ∀ c, s.queue c = [] → (s.data.bank c).freePtr < (s.data.bank c).wrPtr ∨
    (s.data.bank c).wrPtr + maxPacket ≤ (s.data.bank c).freePtr

section banks
variable {b : Bank} {mem : Int → Int}

theorem emptyFlat (h : BankInv b mem []) (flat : b.freePtr < b.wrPtr) : b.freePtr = b.wrPtr - 4 := by
  have layout := h.layout
  generalize into : ([] : List Pkt) = q at layout
  cases layout with
  | flat low chain =>
    subst into
    exact chainFront chain b.wrPtr rfl
  | wrapped upper tail inside lower below => omega

theorem emptyMarked (h : BankInv b mem []) (used : 0 < mem b.freePtr) : b.freePtr < b.wrPtr := by
  have front := layoutFront h used
  rw [frontPtr] at front
  omega

end banks

theorem reclaimHeadUnfreed (q : List Pkt) : ∀ k ∈ (reclaim q).head?, k.freed = false := by
  induction q with
  | nil => intro k member; cases member
  | cons j q ih =>
    unfold reclaim
    split
    · exact ih
    · rename_i live
      intro k member
      cases member
      simpa using live

theorem liveEmpty {s : Store} (settled : ∀ c, ∀ k ∈ (s.queue c).head?, k.freed = false) (none : live s = []) (c : Bool) :
    s.queue c = [] := by
  cases list : s.queue c with
  | nil => rfl
  | cons k rest =>
    have unfreed := settled c k (by rw [list]; rfl)
    have member : k ∈ live s := liveIff.mpr ⟨c, by rw [list]; exact List.mem_cons_self, unfreed⟩
    rw [none] at member
    cases member

section steps
variable {s t : State}

theorem readRoomy {u v : Store} (h : Roomy u) (read : OnlyRead u v) : Roomy v := by
  refine ⟨onlyReadKeeps h.inv read, by rw [read.queue]; exact h.settled, fun c none => ?_⟩
  obtain ⟨wr, free, -, -⟩ := readFields read c
  rw [wr, free]
  rw [read.queue] at none
  exact h.room c none

theorem restartRoomy (h : Roomy s.store) (wide : ¬ Narrow s) : Roomy (miiRestartBuffer s.store) := by
  have inv := restartKeeps h.inv
  by_cases none : s.store.data.nextBuffer = -1
  · obtain ⟨-, bank, -, -, -, queue, -⟩ := restartEq none
    refine ⟨inv, by rw [queue]; exact h.settled, fun c empty => ?_⟩
    rw [queue] at empty
    rw [bank]
    have room := h.room c empty
    dsimp only
    split
    · rename_i same
      subst same
      rcases restartCases (s.store.data.bank s.store.data.refillBankNumber) s.store.mem with ⟨kept, -⟩ | ⟨late, -, wrapped, -⟩
      · rw [kept]; exact room
      · have own := h.inv.banks.each s.store.data.refillBankNumber
        have fits := own.fits
        have flat : (s.store.data.bank s.store.data.refillBankNumber).freePtr <
            (s.store.data.bank s.store.data.refillBankNumber).wrPtr := by
          omega
        rw [empty] at own
        have at_ := emptyFlat own flat
        have enough : ¬ (s.store.data.bank s.store.data.refillBankNumber).wrPtr <
            (s.store.data.bank s.store.data.refillBankNumber).firstPtr + 8 + maxPacket :=
          fun short => wide ⟨none, empty, late, short⟩
        rw [wrapped]
        right
        dsimp only
        omega
    · exact room
  · have same : miiRestartBuffer s.store = s.store := if_pos none
    rw [same]
    exact h

theorem stepRoomy (h : Roomy s.store) {e : Event} (spared : Spares s e) (wide : Wide s e) (taken : step s e = some t) :
    Roomy t.store := by
  have inv := stepKeeps h.inv spared taken
  cases e with
  | rx e =>
    obtain ⟨u, received, rfl⟩ := Option.map_eq_some_iff.mp taken
    rcases receiveCommits h.inv received with ⟨bank, queue, -⟩ | ⟨x, k, commits⟩
    · exact ⟨inv, by rw [queue]; exact h.settled, by rw [queue, bank]; exact h.room⟩
    · obtain ⟨odd, tailBits, -, -, made, bank⟩ := commits.event
      refine ⟨inv, fun c j head => ?_, fun c empty => ?_⟩
      · dsimp only at head
        rw [commits.queue] at head
        dsimp only at head
        split at head
        · cases list : s.store.queue c with
          | nil =>
            rw [list] at head
            cases head
            rw [made]; rfl
          | cons i rest =>
            rw [list] at head
            cases head
            exact h.settled c j (by rw [list]; rfl)
        · exact h.settled c j head
      · dsimp only at empty ⊢
        rw [commits.queue] at empty
        dsimp only at empty
        split at empty
        · simp at empty
        · rename_i other
          rw [bank]
          simp only [if_neg other]
          exact h.room c empty
  | get => cases taken; exact readRoomy h (getReads s.store)
  | free base =>
    simp only [step] at taken
    split at taken
    case isFalse => cases taken
    obtain ⟨k, member, rfl⟩ := spared
    obtain ⟨c, member, unfreed⟩ := liveIff.mp member
    obtain ⟨u, freed, -, -, queue, ⟨f, data, used⟩, -⟩ := freeKeeps h.inv member unfreed
    rw [freed] at taken
    cases taken
    refine ⟨inv, fun y j head => ?_, fun y empty => ?_⟩
    · dsimp only at head
      rw [queue] at head
      dsimp only at head
      split at head
      · exact reclaimHeadUnfreed _ j head
      · exact h.settled y j head
    · dsimp only at inv empty ⊢
      by_cases same : y = c
      · subst same
        have own := inv.banks.each y
        rw [empty] at own
        refine .inl (emptyMarked own ?_)
        rw [data]
        simp only [MiiData.setBank, if_true]
        exact used
      · rw [queue] at empty
        simp only [if_neg same] at empty
        rw [data]
        simp only [MiiData.setBank, if_neg same]
        exact h.room y empty
  | restart => cases taken; exact restartRoomy h wide
  | notified =>
    obtain ⟨u, seen, rfl⟩ := Option.map_eq_some_iff.mp taken
    exact readRoomy h (notifiedReads seen)

/- Without a next buffer every interrupt is an overrun. -/
theorem receiveStuck {u v : Store} {e : Rx} (h : Inv u) (none : u.data.nextBuffer = -1) (taken : receive u e = some v) :
    v.data.nextBuffer = -1 ∧ v.data.refillBankNumber = u.data.refillBankNumber ∧ v.data.bank = u.data.bank ∧
      v.queue = u.queue := by
  cases e with
  | preamble time =>
    simp only [receive, receiveUpTo] at taken
    split at taken
    · cases taken
    · cases taken; exact ⟨none, rfl, rfl, rfl⟩
  | word word =>
    simp only [receive, receiveUpTo] at taken
    split at taken
    · cases taken; exact ⟨none, rfl, rfl, rfl⟩
    · cases taken
  | interrupt odd tailBits =>
    simp only [receive, receiveUpTo] at taken
    split at taken
    case isFalse => cases taken
    rename_i more
    rw [interruptCases (h.filling more.1), if_pos none] at taken
    cases taken
    exact ⟨none, rfl, rfl, rfl⟩

theorem stalledSame {u v : Store} (h : Stalled u) (next : v.data.nextBuffer = -1)
    (refill : v.data.refillBankNumber = u.data.refillBankNumber)
    (queue : v.queue u.data.refillBankNumber = u.queue u.data.refillBankNumber)
    (bank : ∃ r, v.data.bank u.data.refillBankNumber = { u.data.bank u.data.refillBankNumber with readPtr := r }) :
    Stalled v := by
  obtain ⟨r, bank⟩ := bank
  refine ⟨next, ?_, ?_, ?_, ?_⟩
  · rw [refill, queue]; exact h.queue
  · rw [refill, bank]; exact h.wrPtr
  · rw [refill, bank]; exact h.below
  · rw [refill, bank]; exact h.short

theorem restartStalled {u : Store} (h : Stalled u) : Stalled (miiRestartBuffer u) := by
  have low := h.wrPtr
  have below := h.below
  have short := h.short
  have same : restartBank (u.data.bank u.data.refillBankNumber) u.mem =
      (u.data.bank u.data.refillBankNumber, u.mem, -1) := by
    unfold restartBank
    rw [if_neg (by omega), if_neg (by omega)]
  obtain ⟨-, bank, next, -, refill, queue, -⟩ := restartEq h.next
  rw [same] at bank next
  exact stalledSame h next refill (congrFun queue _) ⟨_, (congrFun bank _).trans (if_pos rfl)⟩

theorem stalledKeeps (h : Stalled s.store) (inv : Inv s.store) {e : Event} (spared : Spares s e) (taken : step s e = some t) :
    Stalled t.store := by
  cases e with
  | rx e =>
    obtain ⟨u, received, rfl⟩ := Option.map_eq_some_iff.mp taken
    obtain ⟨next, refill, bank, queue⟩ := receiveStuck inv h.next received
    exact stalledSame h next refill (by rw [queue]) ⟨_, by rw [bank]⟩
  | get =>
    cases taken
    have read := getReads s.store
    exact stalledSame h (read.data.1.trans h.next) read.data.2.2 (congrFun read.queue _) (read.bank _)
  | free base =>
    simp only [step] at taken
    split at taken
    case isFalse => cases taken
    obtain ⟨k, member, rfl⟩ := spared
    obtain ⟨c, member, unfreed⟩ := liveIff.mp member
    obtain ⟨u, freed, -, -, queue, ⟨f, data, used⟩, -⟩ := freeKeeps inv member unfreed
    rw [freed] at taken
    cases taken
    have other : s.store.data.refillBankNumber ≠ c := by
      intro same
      rw [← same, h.queue] at member
      cases member
    refine stalledSame h ?_ ?_ ?_ ⟨(s.store.data.bank s.store.data.refillBankNumber).readPtr, ?_⟩
    · rw [data]; exact h.next
    · rw [data]; rfl
    · rw [queue]; exact if_neg other
    · rw [data]; exact if_neg other
  | restart =>
    cases taken
    exact restartStalled h
  | notified =>
    obtain ⟨u, seen, rfl⟩ := Option.map_eq_some_iff.mp taken
    have read := notifiedReads seen
    exact stalledSame h (read.data.1.trans h.next) read.data.2.2 (congrFun read.queue _) (read.bank _)

theorem narrowStalls (inv : Inv s.store) (narrow : Narrow s) : Stalled (miiRestartBuffer s.store) := by
  obtain ⟨none, empty, late, short⟩ := narrow
  obtain ⟨-, bank, next, -, refill, queue, -⟩ := restartEq none
  have own := inv.banks.each s.store.data.refillBankNumber
  have size := own.size
  have fits := own.fits
  rw [empty] at own
  have at_ := emptyFlat own (by omega)
  generalize s.store.data.refillBankNumber = d at *
  generalize s.store.data.bank d = b at *
  have wrapped : (restartBank b s.store.mem).1 = { b with wrPtr := b.firstPtr + 4 } ∧
      (restartBank b s.store.mem).2.2 = -1 := by
    unfold restartBank
    dsimp only
    rw [if_pos late, if_pos (by omega), if_neg (by omega)]
    exact ⟨rfl, rfl⟩
  have moved : (miiRestartBuffer s.store).data.bank d = { b with wrPtr := b.firstPtr + 4 } := by
    rw [bank, ← wrapped.1]
    exact if_pos rfl
  refine ⟨next.trans wrapped.2, by rw [refill, queue]; exact empty, ?_, ?_, ?_⟩
  all_goals rw [refill, moved]; dsimp only; omega

/- With everything freed there is room, but for the narrow bank. -/
theorem idleRefills (h : Roomy s.store) (idle : live s.store = []) :
    (miiRestartBuffer s.store).data.nextBuffer ≠ -1 ↔ ¬ Narrow s := by
  constructor
  · exact fun some narrow => some (narrowStalls h.inv narrow).next
  · intro wide
    by_cases none : s.store.data.nextBuffer = -1
    · obtain ⟨-, -, next, -⟩ := restartEq none
      have empty := liveEmpty h.settled idle s.store.data.refillBankNumber
      have own := h.inv.banks.each s.store.data.refillBankNumber
      have room := h.room _ empty
      have within := bankWithin h.inv.banks s.store.data.refillBankNumber
      have enough : ¬ ((s.store.data.bank s.store.data.refillBankNumber).lastSafePtr <
            (s.store.data.bank s.store.data.refillBankNumber).wrPtr ∧
          (s.store.data.bank s.store.data.refillBankNumber).wrPtr <
            (s.store.data.bank s.store.data.refillBankNumber).firstPtr + 8 + maxPacket) :=
        fun short => wide ⟨none, empty, short.1, short.2⟩
      have size := own.size
      have fits := own.fits
      rw [next]
      rw [empty] at own
      have flat := emptyFlat own
      unfold restartBank
      dsimp only
      split_ifs <;> dsimp only <;> omega
    · have same : miiRestartBuffer s.store = s.store := if_pos none
      rw [same]
      exact none

theorem runRoomy {es : List Event} (h : Roomy s.store) (spared : Along step Spares s es) (reached : run step s es = some t) :
    (Along step Wide s es → Roomy t.store) ∧ (¬ Along step Wide s es → Inv t.store ∧ Stalled t.store) := by
  induction es generalizing s with
  | nil =>
    cases reached
    exact ⟨fun _ => h, fun missed => absurd trivial missed⟩
  | cons e es ih =>
    obtain ⟨u, taken, rest⟩ := Option.bind_eq_some_iff.mp reached
    obtain ⟨now, later⟩ := spared u taken
    by_cases wide : Wide s e
    · obtain ⟨keeps, stalls⟩ := ih (stepRoomy h now wide taken) later rest
      refine ⟨fun along => keeps (along u taken).2, fun missed => stalls fun along => missed fun v same => ?_⟩
      rw [taken] at same
      cases same
      exact ⟨wide, along⟩
    · refine ⟨fun along => absurd (along u taken).1 wide, fun _ => ?_⟩
      have start : Inv u.store ∧ Stalled u.store := by
        refine ⟨stepKeeps h.inv now taken, ?_⟩
        cases e with
        | restart =>
          cases taken
          exact narrowStalls h.inv (not_not.mp wide)
        | _ => exact absurd trivial wide
      have always : Always step (fun v => Inv v.store ∧ Stalled v.store) u es :=
        alwaysGuarded (I := fun v => Inv v.store ∧ Stalled v.store) (C := Spares)
          (fun _ _ _ both now taken => ⟨stepKeeps both.1 now taken, stalledKeeps both.2 both.1 now taken⟩)
          (fun _ both => both) start later
      have last := alwaysReached always rest
      exact last

end steps

/-- Once every packet is freed, a call of mii_restart_buffer finds room exactly when it and those
before it wrapped no empty bank that was too short. -/
theorem refillsIff (mem : Int → Int) {address : Int} {numberWords : Nat} (aligned : address % 4 = 0)
    (positive : 0 < address) (large : 1520 ≤ numberWords) {es : List Event} {t : State}
    (spared : Along step Spares (initial mem address numberWords) es)
    (reached : run step (initial mem address numberWords) es = some t) (idle : live t.store = []) :
    (miiRestartBuffer t.store).data.nextBuffer ≠ -1 ↔ Along step Wide (initial mem address numberWords) (es ++ [.restart]) := by
  have inv : Inv (initial mem address numberWords).store := invInitial mem aligned positive large
  have init : Roomy (initial mem address numberWords).store := by
    refine ⟨inv, (fun c k head => by cases head), fun c _ => .inl ?_⟩
    have flat : ((miiBufferInit mem address numberWords).data.bank c).freePtr =
        ((miiBufferInit mem address numberWords).data.bank c).wrPtr - 4 := by
      cases c <;> simp [miiBufferInit]
    have := flat
    simp only [initial]
    omega
  obtain ⟨keeps, stalls⟩ := runRoomy init spared reached
  rw [alongAppend reached]
  constructor
  · intro some
    have early : Along step Wide (initial mem address numberWords) es := by
      by_contra missed
      exact some (restartStalled (stalls missed).2).next
    exact ⟨early, fun u _ => ⟨(idleRefills (keeps early) idle).mp some, trivial⟩⟩
  · rintro ⟨early, last⟩
    exact (idleRefills (keeps early) idle).mpr (last _ rfl).1

theorem refillsAfterOne : ∃ t, run step (initial (fun _ => 0) 16 1520) (frame 0 ++ [.get, .free 24]) = some t ∧
    live t.store = [] ∧ ((miiRestartBuffer t.store).data.nextBuffer ≠ -1 ↔
      Along step Wide (initial (fun _ => 0) 16 1520) (frame 0 ++ [.get, .free 24] ++ [.restart])) := by
  have ends : (run step (initial (fun _ => 0) 16 1520) (frame 0 ++ [.get, .free 24])).any
      (fun t => (live t.store).isEmpty) = true := by decide +kernel
  obtain ⟨t, reached, idle⟩ := (Option.any_eq_true _ _).mp ends
  have idle := List.isEmpty_iff.mp idle
  exact ⟨t, reached, idle, refillsIff (fun _ => 0) (by decide) (by decide) (by decide) (by decide +kernel) reached idle⟩

/- A frame of 1516 bytes in the smallest store, obtained and freed. -/
def longFrame : List Event := frame 378 ++ [.get, .free 24]

theorem longFrameStalls : ∃ t, run step (initial (fun _ => 0) 16 1520) longFrame = some t ∧ live t.store = [] ∧
    (miiRestartBuffer t.store).data.nextBuffer = -1 := by
  let s : State := { initial (fun _ => 0) 16 1520 with
    store := miiInterruptHandler (sealed 378 (opened (initial (fun _ => 0) 16 1520).store)) 0 0#32 }
  have one : run step (initial (fun _ => 0) 16 1520) longFrame = run step s [.get, .free 24] := frameRun rfl (by decide) _
  have ends : (run step s [.get, .free 24]).any (fun t => (live t.store).isEmpty &&
      decide ((miiRestartBuffer t.store).data.nextBuffer = -1)) = true := by decide +kernel
  obtain ⟨t, reached, same⟩ := (Option.any_eq_true _ _).mp ends
  simp only [Bool.and_eq_true, List.isEmpty_iff, decide_eq_true_eq] at same
  exact ⟨t, one.trans reached, same⟩

end ScEthernet.Lite.Refill
