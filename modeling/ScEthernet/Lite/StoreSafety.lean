import ScEthernet.Lite.StoreInv
import ScEthernet.Lib.Runs

/-! Safety of the receive store under any user. A user holds what mii_get_in_buffer has
returned and frees it once, in any order. Two things can go wrong. A bank whose packets
were all freed can wrap in mii_restart_buffer with the free pointer on the marker that
becomes the unused tail; a later commit takes that for a free head. And the read pointer
can be left on such a marker while the driver fills the memory around it, so that
mii_get_in_buffer returns something that was never committed. -/
namespace ScEthernet.Lite.StoreSafety
open Lib.WordMemory Lib.Runs Lib.ShiftCrc Wire Buffer BankChain StoreInv

structure State where
  store : Store
  held : List Int

inductive Event where
  | rx (e : Rx)
  | get
  | free (base : Int)
  | restart
  | notified

def initial (mem : Int → Int) (address : Int) (numberWords : Nat) : State :=
  ⟨miiBufferInit mem address numberWords, []⟩

def step (s : State) : Event → Option State
  | .rx e => (receive s.store e).map (fun t => { s with store := t })
  | .get =>
    let (t, o) := miiGetInBuffer s.store
    some ⟨t, if o.a = 0 then s.held else s.held ++ [o.a]⟩
  | .free base =>
    if base ∈ s.held then (miiFreeInBuffer s.store base).map (fun t => ⟨t, s.held.erase base⟩) else none
  | .restart => some { s with store := miiRestartBuffer s.store }
  | .notified => (miiNotified s.store).map (fun t => { s with store := t })

def live (s : Store) : List Pkt := (s.queue false ++ s.queue true).filter (fun k => !k.freed)

def Occupies (k : Pkt) (a : Int) : Prop := k.hdr ≤ a ∧ a < k.hdr + 4 + k.length

/- The header word below a buffer and the words of the longest packet: the timestamp, the
words of the packet, and three at its end. -/
def Fills (p a : Int) : Prop := p - 4 ≤ a ∧ a < p + (maxFrame / 4 * 4 : Nat) + 16

structure Safe (s : Store) : Prop where
  apart : ∀ p, p = s.data.packetInLLD ∨ p = s.data.nextBuffer ∧ p ≠ -1 →
    ∀ k ∈ live s, ∀ a, Occupies k a → ¬ Fills p a
  header : ∀ k ∈ live s, s.mem k.hdr = k.length

def driven (s : Store) : Event → Int → Int
  | .rx (.preamble time) => store s.mem s.r4 time
  | .rx (.word word) => store s.mem (s.r4 + 4) word.toInt
  | .rx (.interrupt odd tailBits) => (miiRxLastBits s odd tailBits).mem
  | _ => s.mem

/- Of the stores of miiLLD and of those of the event that come after them. -/
structure StepSafe (s : Store) (e : Event) (t : Store) : Prop where
  driver : ∀ k ∈ live s, ∀ a, Occupies k a → driven s e a = s.mem a
  kept : (∀ base, e ≠ .free base) → ∀ k ∈ live t, ∀ a, Occupies k a → k ∈ live s ∨ a ≠ k.hdr →
    t.mem a = driven s e a

def Spares (s : State) : Event → Prop
  | .rx (.interrupt odd tailBits) => Spared s.store odd tailBits
  | .free base => ∃ k ∈ live s.store, base = k.hdr + 8
  | _ => True
instance (s odd tailBits) : Decidable (Spared s odd tailBits) := by unfold Spared; infer_instance
instance (s e) : Decidable (Spares s e) := by unfold Spares; split <;> infer_instance

section
variable {s t : Store} {k : Pkt} {a : Int} {c d : Bool}

theorem liveIff : k ∈ live s ↔ ∃ c, k ∈ s.queue c ∧ k.freed = false := by
  simp only [live, List.mem_filter, List.mem_append, Bool.not_eq_true']
  constructor
  · rintro ⟨low | high, unfreed⟩
    · exact ⟨false, low, unfreed⟩
    · exact ⟨true, high, unfreed⟩
  · rintro ⟨c, member, unfreed⟩
    cases c
    · exact ⟨.inl member, unfreed⟩
    · exact ⟨.inr member, unfreed⟩

theorem occupiesInside (h : Banks s.data.bank s.mem s.queue) (member : k ∈ s.queue c) (inside : Occupies k a) :
    ¬ Vacant (s.data.bank c) a ∧ (s.data.bank c).firstPtr ≤ a ∧ a < Bank.limit (s.data.bank c) := by
  obtain ⟨low, high⟩ := inside
  have next := slotNext (bankSlot (h.each c) member).1
  exact slotOccupied (h.each c) member low (by omega)

theorem vacantOutside (h : Banks s.data.bank s.mem s.queue) (member : k ∈ s.queue c) (inside : Occupies k a)
    (vacant : Vacant (s.data.bank d) a) (low : (s.data.bank d).firstPtr ≤ a) (high : a < Bank.limit (s.data.bank d)) :
    False := by
  obtain ⟨occupied, low', high'⟩ := occupiesInside h member inside
  by_cases same : c = d
  · exact occupied (same ▸ vacant)
  · have other : d = !c := by cases c <;> cases d <;> simp_all
    exact bankOther h low' high' (other ▸ ⟨low, high⟩)

theorem fillsOutside (h : Banks s.data.bank s.mem s.queue) (clear : Clear (s.data.bank d)) (member : k ∈ s.queue c)
    (inside : Occupies k a) : ¬ Fills (s.data.bank d).wrPtr a := by
  rintro ⟨low, high⟩
  unfold maxFrame at high
  have within := bankWithin h d
  obtain ⟨vacant, limit⟩ := clearVacant (h.each d) clear (x := a) (by omega) (by omega)
  exact vacantOutside h member inside vacant (by omega) limit

theorem invSafe (h : Inv s) : Safe s := by
  obtain ⟨x, driving⟩ := h.driving
  constructor
  · rintro p filled k member a inside
    obtain ⟨c, member, -⟩ := liveIff.mp member
    rcases filled with rfl | ⟨rfl, some⟩
    · rw [driving.current]
      exact fillsOutside h.banks driving.room member inside
    · obtain ⟨next, clear⟩ := driving.next.resolve_left fun none => some none.1
      rw [next]
      exact fillsOutside h.banks clear member inside
  · intro k member
    obtain ⟨c, member, unfreed⟩ := liveIff.mp member
    rw [(bankSlot (h.banks.each c) member).1.word, unfreed]
    rfl

theorem drivenInside (h : Inv s) {e : Rx} (possible : receive s e ≠ none) {x : Bool} (driving : Driving s.data x)
    (changed : driven s (.rx e) a ≠ s.mem a) : Fills (s.data.bank x).wrPtr a := by
  have current := driving.current
  unfold Fills maxFrame
  cases e with
  | preamble time =>
    have off : s.inPacket = false := by
      by_contra on
      exact possible (if_pos (by simpa using on))
    have r4 := h.idle off
    have at_ : a = s.r4 := by
      by_contra other
      exact changed (storeOther other)
    omega
  | word word =>
    have more : s.inPacket ∧ 4 * (s.words.length + 1) ≤ maxFrame := by
      by_contra done
      exact possible (if_neg done)
    have r4 := (h.filling more.1).r4
    have short := more.2
    unfold maxFrame at short
    have at_ : a = s.r4 + 4 := by
      by_contra other
      exact changed (storeOther other)
    omega
  | interrupt odd tailBits =>
    have more : s.inPacket ∧ 4 * s.words.length + odd.val ≤ maxFrame := by
      by_contra done
      exact possible (if_neg done)
    have inside := lastBitsInside (h.filling more.1) changed
    have short := more.2
    unfold maxFrame at short
    omega

theorem commitKept (h : Banks s.data.bank s.mem s.queue) (room : Clear (s.data.bank d)) {length : Nat}
    (low : 4 ≤ length) (high : length ≤ maxFrame)
    (rest : (s.data.bank d).wrPtr + roundUp length + 4 > (s.data.bank d).lastSafePtr →
      s.mem (s.data.bank d).freePtr ≠ 0) {words : List (BitVec 32)}
    (member : k ∈ s.queue c ∨ k = appended (s.data.bank d) length words) (inside : Occupies k a)
    (old : (∃ y, k ∈ s.queue y) ∨ a ≠ k.hdr) : (commitBank (s.data.bank d) s.mem length).2.1 a = s.mem a := by
  by_contra changed
  have within := bankWithin h d
  have round := roundUpBounds length
  unfold maxFrame at high
  have wrapped := (freeWord (h.each d)).2
  have limits := bankBounds (h.each d)
  have wr := (h.each d).wrAligned
  have free := (h.each d).freeAligned
  have clear := room
  unfold Clear maxPacket at clear
  have vacant : Vacant (s.data.bank d) a ∧ (s.data.bank d).firstPtr ≤ a ∧ a < Bank.limit (s.data.bank d) ∧
      (a = (s.data.bank d).wrPtr - 4 ∨ (s.data.bank d).wrPtr + length ≤ a ∨ a < (s.data.bank d).wrPtr - 4) := by
    rcases commitBankStores changed with mark | mark | ⟨head, moved, beyond⟩
    · have vacant := clearVacant (h.each d) room (x := a) (by omega) (by omega)
      exact ⟨vacant.1, by omega, vacant.2, .inl mark⟩
    · have vacant := clearVacant (h.each d) room (x := a) (by omega) (by omega)
      exact ⟨vacant.1, by omega, vacant.2, .inr (.inl (by omega))⟩
    · have flat : (s.data.bank d).freePtr < (s.data.bank d).wrPtr := by
        by_contra above
        exact rest beyond (wrapped (by omega) (by omega))
      unfold Vacant
      omega
  obtain ⟨vacant, low', high', place⟩ := vacant
  rcases member with member | rfl
  · exact vacantOutside h member inside vacant low' high'
  · rcases old with ⟨y, member⟩ | apart
    · exact vacantOutside h member inside vacant low' high'
    · simp only [Occupies, appended] at inside apart
      omega

theorem restartKept (h : Banks s.data.bank s.mem s.queue) (member : k ∈ s.queue c) (inside : Occupies k a) :
    (restartBank (s.data.bank d) s.mem).2.1 a = s.mem a := by
  by_contra changed
  obtain ⟨place, moved, beyond⟩ := restartBankStores changed
  have within := bankWithin h d
  have limits := bankBounds (h.each d)
  have fits := (h.each d).fits
  refine vacantOutside (d := d) h member inside ?_ (by omega) (by omega)
  unfold Vacant
  omega

end

section steps
variable {s t : State}

theorem stepKeeps (h : Inv s.store) {e : Event} (spared : Spares s e) (taken : step s e = some t) : Inv t.store := by
  cases e with
  | rx e =>
    obtain ⟨u, received, rfl⟩ := Option.map_eq_some_iff.mp taken
    exact receiveKeeps h (fun odd tailBits same => by subst same; exact spared) received
  | get =>
    cases taken
    exact onlyReadKeeps h (getReads s.store)
  | free base =>
    simp only [step] at taken
    split at taken
    case isFalse => cases taken
    obtain ⟨k, member, rfl⟩ := spared
    obtain ⟨c, member, unfreed⟩ := liveIff.mp member
    obtain ⟨u, freed, inv, -⟩ := freeKeeps h member unfreed
    rw [freed] at taken
    cases taken
    exact inv
  | restart =>
    cases taken
    exact restartKeeps h
  | notified =>
    obtain ⟨u, seen, rfl⟩ := Option.map_eq_some_iff.mp taken
    exact onlyReadKeeps h (notifiedReads seen)

theorem interruptKept (h : Inv s.store) {odd : Fin 4} {tailBits : BitVec 32} (on : s.store.inPacket = true)
    (short : 4 * s.store.words.length + odd.val ≤ maxFrame) (spared : Spared s.store odd tailBits) {k : Pkt}
    (member : k ∈ live (miiInterruptHandler s.store odd tailBits)) {a : Int} (inside : Occupies k a)
    (old : k ∈ live s.store ∨ a ≠ k.hdr) :
    (miiInterruptHandler s.store odd tailBits).mem a = (miiRxLastBits s.store odd tailBits).mem a := by
  have fill := h.filling on
  obtain ⟨x, driving⟩ := h.driving
  have ends := frameEnds short
  have banks := lastBitsBanks h.banks driving fill ends odd tailBits
  have number := drivingNumber h.banks driving
  rw [interruptCases fill] at member ⊢
  split at member
  · rename_i none
    rw [if_pos none]
    rfl
  · rename_i some
    split at member
    · rename_i good
      rw [if_neg some, if_pos good]
      have long := List.length_pos_iff.mpr (goodLong good)
      have rest := spared some
      rw [number] at rest
      obtain ⟨mem, -, -, -, -, queue, -⟩ := commitBufferEq (s := beforeCommit s.store odd tailBits)
        number
      obtain ⟨c, member, unfreed⟩ := liveIff.mp member
      have known : k ∈ s.store.queue c ∨ k = appended (s.store.data.bank x) (4 * s.store.words.length + odd.val) s.store.words := by
        have queued : (taken s.store odd tailBits).queue c = _ := congrFun queue c
        rw [queued] at member
        split at member
        · exact (List.mem_append.mp member).imp id List.mem_singleton.mp
        · exact .inl member
      refine (congrFun mem a).trans ?_
      refine commitKept (s := beforeCommit s.store odd tailBits) (d := x) banks driving.room (by omega) short
        (fun beyond => ?_) known inside (old.imp (fun old => ?_) id)
      · have word := lastBitsFree h.banks driving fill ends odd tailBits
        exact word.symm ▸ rest beyond good
      · obtain ⟨y, queued, -⟩ := liveIff.mp old
        exact ⟨y, queued⟩
    · rename_i bad
      rw [if_neg some, if_neg bad]
      rfl

theorem stepSafe (h : Inv s.store) {e : Event} (spared : Spares s e) (taken : step s e = some t) :
    StepSafe s.store e t.store := by
  cases e with
  | rx e =>
    obtain ⟨u, received, rfl⟩ := Option.map_eq_some_iff.mp taken
    obtain ⟨x, driving⟩ := h.driving
    refine ⟨fun k member a inside => ?_, fun _ k member a inside old => ?_⟩
    · by_contra changed
      obtain ⟨c, member, -⟩ := liveIff.mp member
      exact fillsOutside h.banks driving.room member inside
        (drivenInside h (by rw [received]; simp) driving changed)
    · cases e with
      | preamble time =>
        simp only [receive, receiveUpTo] at received
        split at received
        · cases received
        · cases received; rfl
      | word word =>
        simp only [receive, receiveUpTo] at received
        split at received
        · cases received; rfl
        · cases received
      | interrupt odd tailBits =>
        simp only [receive, receiveUpTo] at received
        split at received
        case isFalse => cases received
        rename_i more
        cases received
        exact interruptKept h more.1 more.2 spared member inside old
  | get =>
    cases taken
    exact ⟨fun _ _ _ _ => rfl, fun _ _ _ a _ _ => congrFun (getReads s.store).mem a⟩
  | free base => exact ⟨fun _ _ _ _ => rfl, fun other => absurd rfl (other base)⟩
  | restart =>
    cases taken
    refine ⟨fun _ _ _ _ => rfl, fun _ k member a inside _ => ?_⟩
    by_cases none : s.store.data.nextBuffer = -1
    · obtain ⟨mem, -, -, -, -, queue, -⟩ := restartEq none
      obtain ⟨c, member, -⟩ := liveIff.mp member
      dsimp only at member ⊢
      rw [queue] at member
      rw [mem]
      exact restartKept h.banks member inside
    · have same : miiRestartBuffer s.store = s.store := if_pos none
      dsimp only
      rw [same]
      rfl
  | notified =>
    obtain ⟨u, seen, rfl⟩ := Option.map_eq_some_iff.mp taken
    exact ⟨fun _ _ _ _ => rfl, fun _ _ _ a _ _ => congrFun (notifiedReads seen).mem a⟩

end steps

/-- In every run whose steps meet `Spares`, what the driver fills next is apart from the
packets in use, and no store changes one. -/
theorem liveKept (mem : Int → Int) {address : Int} {numberWords : Nat} (aligned : address % 4 = 0)
    (positive : 0 < address) (large : 1520 ≤ numberWords) {es : List Event}
    (spared : Along step Spares (initial mem address numberWords) es) :
    Always step (fun s => Safe s.store) (initial mem address numberWords) es ∧
    Along step (fun s e => ∀ t, step s e = some t → StepSafe s.store e t.store) (initial mem address numberWords) es := by
  have init : Inv (initial mem address numberWords).store := invInitial mem aligned positive large
  constructor
  · exact alwaysGuarded (I := fun s => Inv s.store) (C := Spares) (fun _ _ _ inv now taken => stepKeeps inv now taken)
      (fun _ inv => invSafe inv) init spared
  · exact alongGuarded (I := fun s => Inv s.store) (C := Spares) (fun _ _ _ inv now taken => stepKeeps inv now taken)
      (fun _ _ _ inv now _ t taken => stepSafe inv now taken) init spared

def sealing : BitVec 32 := ~~~shifts poly 32 (BitVec.allOnes 32)

def frame (n : Nat) : List Event :=
  [.rx (.preamble 0), .rx (.word 0#32)] ++ List.replicate n (.rx (.word sealing)) ++ [.rx (.interrupt 0 0#32)]

def runt : List Event := [.rx (.preamble 0), .rx (.interrupt 0 0#32)]

def opened (s : Store) : Store :=
  let mem := store (store s.mem s.r4 0) (s.r4 + 4) 0
  { s with mem := mem, r4 := s.r4 + 4, r10 := BitVec.allOnes 32, inPacket := true, words := [0#32] }

def sealed : Nat → Store → Store
  | 0, s => s
  | n + 1, s =>
    sealed n { s with mem := store s.mem (s.r4 + 4) sealing.toInt, r4 := s.r4 + 4, words := s.words ++ [sealing] }

section frames
variable {s : State}

theorem sealedRun {n : Nat} (on : s.store.inPacket = true) (crc : s.store.r10 = BitVec.allOnes 32)
    (short : 4 * (s.store.words.length + n) ≤ maxFrame) (es : List Event) :
    run step s (List.replicate n (.rx (.word sealing)) ++ es) = run step { s with store := sealed n s.store } es ∧
    (sealed n s.store).words.length = s.store.words.length + n ∧ (sealed n s.store).inPacket = true := by
  induction n generalizing s with
  | zero => exact ⟨rfl, rfl, on⟩
  | succ n ih =>
    have same : crc32 s.store.r10 sealing = BitVec.allOnes 32 := by
      rw [crc]
      decide +kernel
    let t : Store := { s.store with
      mem := store s.store.mem (s.store.r4 + 4) sealing.toInt
      r4 := s.store.r4 + 4
      words := s.store.words ++ [sealing] }
    have next : step s (.rx (.word sealing)) = some { s with store := t } := by
      have enabled : s.store.inPacket = true ∧ 4 * (s.store.words.length + 1) ≤ maxFrame := ⟨on, by omega⟩
      simp only [step, receive, receiveUpTo, if_pos enabled, same, ← crc]
      rfl
    have length : t.words.length = s.store.words.length + 1 := List.length_append
    obtain ⟨rest, count, still⟩ := ih (s := { s with store := t }) on crc (by dsimp only; omega)
    refine ⟨?_, by rw [sealed, count, length]; omega, still⟩
    rw [List.replicate_succ, List.cons_append, run, next]
    exact rest

theorem frameRun {n : Nat} (off : s.store.inPacket = false) (short : 4 * (n + 1) ≤ maxFrame) (es : List Event) :
    run step s (frame n ++ es) =
      run step { s with store := miiInterruptHandler (sealed n (opened s.store)) 0 0#32 } es := by
  have start : crc32 seed 0#32 = BitVec.allOnes 32 := by
    rw [crc32, shiftAllWord, BitVec.zero_xor, seedShifts]
  have first : run step s [.rx (.preamble 0), .rx (.word 0#32)] = some { s with store := opened s.store } := by
    simp only [run, step, receive, receiveUpTo, off, Bool.false_eq_true, if_false, Option.map_some, Option.bind_some,
      List.length_nil, start]
    rw [if_pos ⟨trivial, by decide⟩]
    rfl
  obtain ⟨rest, count, on⟩ := sealedRun (s := { s with store := opened s.store }) (n := n) rfl rfl
    (by simp only [opened, List.length_singleton]; omega) ([.rx (.interrupt 0 0#32)] ++ es)
  have enabled : (sealed n (opened s.store)).inPacket = true ∧
      4 * (sealed n (opened s.store)).words.length + (0 : Fin 4).val ≤ maxFrame := by
    refine ⟨on, ?_⟩
    rw [count]
    simp only [opened, List.length_singleton, Fin.val_zero]
    omega
  rw [frame, List.append_assoc, List.append_assoc, runAppend, first, Option.bind_some, rest, List.singleton_append,
    run]
  simp only [step, receive, receiveUpTo, if_pos enabled, Option.map_some, Option.bind_some]

end frames

def take (n : Nat) (s : State) : State :=
  { s with store := miiInterruptHandler (sealed n (opened s.store)) 0 0#32 }

def afterOne : State := take 190 (initial (fun _ => 0) 16 1520)

def user : List Event := [.get, .get, .free 24, .free 792, .restart] ++ runt

/- Two packets in the smallest store, both freed before mii_restart_buffer, and a third. -/
def strandedFreePtr : List Event := frame 190 ++ (runt ++ (frame 190 ++ (user ++ (frame 375 ++ []))))

theorem strandedFreePtrFills : ¬ ∀ (mem : Int → Int) (address : Int) (numberWords : Nat) (es : List Event),
    address % 4 = 0 → 0 < address → 1520 ≤ numberWords →
    Always step (fun s => Safe s.store) (initial mem address numberWords) es := by
  intro always
  have safe : Always step (fun s => Safe s.store) (initial (fun _ => 0) 16 1520) strandedFreePtr :=
    always _ 16 1520 _ rfl (by decide) (by decide)
  have one : run step (initial (fun _ => 0) 16 1520) strandedFreePtr =
      run step afterOne (runt ++ (frame 190 ++ (user ++ (frame 375 ++ [])))) :=
    frameRun rfl (by decide) _
  have ends : (run step afterOne runt).any (fun s => decide (s.store.inPacket = false ∧
      (run step (take 190 s) user).any (fun s => decide (s.store.inPacket = false ∧
        (take 375 s).store.data.nextBuffer = 20 ∧ ∃ k ∈ live (take 375 s).store, k.hdr = 16)) = true)) = true := by
    decide +kernel
  cases two : run step afterOne runt with
  | none => rw [two] at ends; cases ends
  | some s2 =>
    rw [two, Option.any_some] at ends
    obtain ⟨off2, ends⟩ := of_decide_eq_true ends
    cases three : run step (take 190 s2) user with
    | none => rw [three] at ends; cases ends
    | some s3 =>
      rw [three, Option.any_some] at ends
      obtain ⟨off3, next, k, member, hdr⟩ := of_decide_eq_true ends
      have reached : run step (initial (fun _ => 0) 16 1520) strandedFreePtr = some (take 375 s3) := by
        rw [one, runAppend, two, Option.bind_some, frameRun off2 (by decide), runAppend]
        refine (congrArg (Option.bind · _) three).trans ?_
        rw [Option.bind_some, frameRun off3 (by decide)]
        rfl
      refine (alwaysReached safe reached).apart 20 (.inr ⟨next.symm, by decide⟩) k member 16 ⟨by omega, by omega⟩ ?_
      unfold Fills maxFrame
      omega

def twoPackets : List Event := frame 0 ++ frame 1 ++ [.get, .get, .free 3064, .restart, .free 24]

theorem liveKeptTwoPackets :
    (run step (initial (fun _ => 0) 16 1520) twoPackets).isSome = true ∧
    Always step (fun s => Safe s.store) (initial (fun _ => 0) 16 1520) twoPackets ∧
    Along step (fun s e => ∀ t, step s e = some t → StepSafe s.store e t.store) (initial (fun _ => 0) 16 1520) twoPackets :=
  ⟨by decide +kernel, liveKept (fun _ => 0) (by decide) (by decide) (by decide) (by decide +kernel)⟩

end ScEthernet.Lite.StoreSafety
