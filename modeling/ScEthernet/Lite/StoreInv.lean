import ScEthernet.Lite.BankChain

/-! What holds of the receive store between two calls, and what each call does with it. -/
namespace ScEthernet.Lite.StoreInv
open Lib.WordMemory Lib.BitOrder Lib.ShiftCrc Wire Buffer BankChain

structure Banks (bank : Bool → Bank) (mem : Int → Int) (queue : Bool → List Pkt) : Prop where
  address : 0 < (bank false).firstPtr
  apart : Bank.limit (bank false) ≤ (bank true).firstPtr
  each : ∀ c, BankInv (bank c) mem (queue c)

/- `x` is the bank that miiLLD fills; the other one is next, or has no room. -/
structure Driving (d : MiiData) (x : Bool) : Prop where
  current : d.packetInLLD = (d.bank x).wrPtr
  room : Clear (d.bank x)
  next : d.nextBuffer = -1 ∧ d.refillBankNumber = !x ∨
    d.nextBuffer = (d.bank !x).wrPtr ∧ Clear (d.bank !x)

structure Filling (s : Store) : Prop where
  r4 : s.r4 = s.data.packetInLLD + 4 * (s.words.length : Int)
  crc : s.r10 = shiftAll poly seed (bits s.words)
  short : 4 * s.words.length ≤ maxTagged

structure Inv (s : Store) : Prop where
  banks : Banks s.data.bank s.mem s.queue
  driving : ∃ x, Driving s.data x
  idle : s.inPacket = false → s.r4 = s.data.packetInLLD
  filling : s.inPacket = true → Filling s

theorem fillingSame {s t : Store} (fill : Filling s) (packet : t.data.packetInLLD = s.data.packetInLLD)
    (driver : t.r4 = s.r4 ∧ t.r10 = s.r10 ∧ t.inPacket = s.inPacket ∧ t.words = s.words) : Filling t := by
  obtain ⟨r4, r10, -, words⟩ := driver
  exact ⟨by rw [r4, packet, words]; exact fill.r4, by rw [r10, words]; exact fill.crc, by rw [words]; exact fill.short⟩

theorem fillingWord {s : Store} {word : BitVec 32} (fill : Filling s) (short : 4 * (s.words.length + 1) ≤ maxTagged) :
    Filling { s with mem := store s.mem (s.r4 + 4) word.toInt, r10 := crc32 s.r10 word, r4 := s.r4 + 4
                     words := s.words ++ [word] } := by
  refine ⟨?_, ?_, ?_⟩
  · dsimp only
    rw [fill.r4, List.length_append, List.length_singleton]
    push_cast; omega
  · dsimp only
    rw [fill.crc, bitsAppend, shiftAllAppend, bitsCons, bitsNil, List.append_nil]
    rfl
  · dsimp only
    rw [List.length_append, List.length_singleton]
    exact short

def received (words : List (BitVec 32)) (odd : Fin 4) (tailBits : BitVec 32) : List Bool :=
  bits words ++ (lsbFirst (tailBits >>> (32 - 8 * odd.val))).take (8 * odd.val)

def Good (words : List (BitVec 32)) (odd : Fin 4) (tailBits : BitVec 32) : Prop :=
  shiftAll poly seed (received words odd tailBits) = BitVec.allOnes 32
instance (words odd tailBits) : Decidable (Good words odd tailBits) := by unfold Good; infer_instance

section crc
variable {words : List (BitVec 32)} {odd : Fin 4} {tailBits : BitVec 32}

theorem crc8shrsBits (n : Nat) (crc x : BitVec 32) (small : n ≤ 4) :
    crc8shrs n crc x = shiftAll poly crc ((lsbFirst x).take (8 * n)) := by
  induction n generalizing crc x with
  | zero => simp [crc8shrs, shiftAll]
  | succ n ih =>
    rw [← crc8shrStep crc x small, ← ih _ _ (by omega)]
    rfl

theorem goodLong (good : Good words odd tailBits) : words ≠ [] := by
  rintro rfl
  refine runtResidue odd ?_ good
  simp [received]
  omega

theorem crcBadRest {mem : Int → Int} {base last : Int} (length : (load mem (last + 8) >>> 3).toNat = odd.val)
    (tail : load mem (last + 4) = tailBits) (crc : load mem (last + 12) = shiftAll poly seed (bits words)) :
    crcBad mem base last = if Good words odd tailBits then last - base + odd.val else 0 := by
  have residue : ∀ x : BitVec 32, ~~~x = 0#32 ↔ x = BitVec.allOnes 32 := by
    intro x
    rw [← BitVec.not_allOnes, BitVec.not_inj]
  have steps : tailCRC odd.val (shiftAll poly seed (bits words)) tailBits =
      shiftAll poly seed (received words odd tailBits) := by
    rw [received, shiftAllAppend]
    match odd with
    | 0 => simp [shiftAll, tailCRC]
    | 1 => exact crc8shrsBits 1 _ _ (by decide)
    | 2 => exact crc8shrsBits 2 _ _ (by decide)
    | 3 => exact crc8shrsBits 3 _ _ (by decide)
  simp only [crcBad, length, tail, crc, steps, residue]
  rfl

theorem crcBadEq {mem : Int → Int} {base last : Int} (length : load mem (last + 8) = BitVec.ofNat 32 (8 * odd.val))
    (tail : load mem (last + 4) = tailBits) (crc : load mem (last + 12) = shiftAll poly seed (bits words)) :
    crcBad mem base last = if Good words odd tailBits then last - base + odd.val else 0 := by
  have count : ∀ odd : Fin 4, (BitVec.ofNat 32 (8 * odd.val) >>> 3).toNat = odd.val := by decide
  exact crcBadRest (by rw [length, count]) tail crc

end crc

section banks
variable {bank : Bool → Bank} {mem mem' : Int → Int} {queue : Bool → List Pkt} {c : Bool}

theorem bankWithin (h : Banks bank mem queue) (c : Bool) : 0 < (bank c).firstPtr ∧
    (bank c).firstPtr + 4 ≤ (bank c).wrPtr ∧ (bank c).wrPtr + 4 ≤ Bank.limit (bank c) := by
  have own := bankBounds (h.each c)
  have low := (h.each c).wrLow
  have first := bankBounds (h.each false)
  have firstLow := (h.each false).wrLow
  have address := h.address
  have apart := h.apart
  cases c <;> omega

theorem bankOther (h : Banks bank mem queue) {x : Int} (low : (bank c).firstPtr ≤ x) (high : x < Bank.limit (bank c)) :
    ¬ ((bank !c).firstPtr ≤ x ∧ x < Bank.limit (bank !c)) := by
  have apart := h.apart
  cases c <;> simp only [Bool.not_true, Bool.not_false] <;> omega

theorem bankNumberIn {d : MiiData} (h : Banks d.bank mem queue) {x : Int} (low : (d.bank c).firstPtr ≤ x)
    (high : x < Bank.limit (d.bank c)) : bankNumber d x = c := by
  have apart := h.apart
  unfold bankNumber
  cases c
  · simp; omega
  · simp; omega

theorem banksSet (h : Banks bank mem queue) {b : Bank} {q : List Pkt} (inv : BankInv b mem' q)
    (first : b.firstPtr = (bank c).firstPtr) (last : b.lastSafePtr = (bank c).lastSafePtr)
    (inside : ∀ x, mem' x ≠ mem x → (bank c).firstPtr ≤ x ∧ x < Bank.limit (bank c)) :
    Banks (fun y => if y = c then b else bank y) mem' (fun y => if y = c then q else queue y) := by
  have limit : Bank.limit b = Bank.limit (bank c) := by unfold Bank.limit; rw [last]
  have firsts : ∀ y, (if y = c then b else bank y).firstPtr = (bank y).firstPtr := by
    intro y; split
    · rename_i same; rw [same]; exact first
    · rfl
  have limits : ∀ y, Bank.limit (if y = c then b else bank y) = Bank.limit (bank y) := by
    intro y; split
    · rename_i same; rw [same]; exact limit
    · rfl
  refine ⟨by rw [firsts]; exact h.address, by rw [firsts, limits]; exact h.apart, fun y => ?_⟩
  by_cases same : y = c
  · simp only [if_pos same]
    exact inv
  · simp only [if_neg same]
    have other : y = !c := by cases y <;> cases c <;> simp_all
    have kept : ∀ x, (bank y).firstPtr ≤ x → x < Bank.limit (bank y) → mem' x = mem x := by
      intro x low high
      by_contra changed
      obtain ⟨low', high'⟩ := inside x changed
      exact bankOther h low' high' (other ▸ ⟨low, high⟩)
    have within := bankWithin h y
    exact bankFrame (h.each y) (fun x low high _ => kept x low high) (kept _ (by omega) (by omega))

theorem banksFill (h : Banks bank mem queue)
    (inside : ∀ x, mem' x ≠ mem x → (bank c).wrPtr ≤ x ∧ Vacant (bank c) x ∧ x < Bank.limit (bank c)) :
    Banks bank mem' queue := by
  have within := bankWithin h c
  have inv : BankInv (bank c) mem' (queue c) := by
    refine bankFrame (h.each c) (fun x _ _ occupied => ?_) ?_
    · by_contra changed
      exact occupied (inside x changed).2.1
    · by_contra changed
      have := (inside _ changed).1
      omega
  have set := banksSet h inv rfl rfl (fun x changed => by
    obtain ⟨low, -, high⟩ := inside x changed
    exact ⟨by omega, high⟩)
  have same : ∀ {α : Type} (f : Bool → α), (fun y => if y = c then f c else f y) = f := by
    intro α f
    funext y
    split
    · rename_i same; rw [same]
    · rfl
  rwa [same, same] at set

end banks

section commit
variable {s : Store} {x : Bool} {base : Int} {length : Nat}

theorem commitBufferEq (number : bankNumber s.data base = x) :
    let r := commitBank (s.data.bank x) s.mem length
    let t := miiCommitBuffer s base length
    t.mem = r.2.1 ∧ t.data.bank = (fun y => if y = x then r.1 else s.data.bank y) ∧
    t.data.nextBuffer = r.2.2 ∧ t.data.packetInLLD = s.data.packetInLLD ∧
    t.data.refillBankNumber = (if r.2.2 = -1 then x else s.data.refillBankNumber) ∧
    t.queue = (fun y => if y = x then s.queue y ++ [appended (s.data.bank x) length s.words] else s.queue y) ∧
    t.committed =
      (fun y => if y = x then s.committed y ++ [appended (s.data.bank x) length s.words] else s.committed y) := by
  intro r t
  have into : t = miiCommitBuffer s base length := rfl
  unfold miiCommitBuffer at into
  rw [number] at into
  have notified : (miiNotify s).data.packetInLLD = s.data.packetInLLD ∧ (miiNotify s).data.bank = s.data.bank ∧
      (miiNotify s).data.refillBankNumber = s.data.refillBankNumber ∧
      (miiNotify s).queue = s.queue ∧ (miiNotify s).committed = s.committed := by
    unfold miiNotify; split <;> exact ⟨rfl, rfl, rfl, rfl, rfl⟩
  obtain ⟨packet, bank, refill, queue, committed⟩ := notified
  rw [into]
  refine ⟨rfl, ?_, rfl, packet, ?_, ?_, ?_⟩
  · simp only [MiiData.setBank, bank]
    rfl
  · dsimp only
    rw [refill]
  · dsimp only
    rw [queue]
    rfl
  · dsimp only
    rw [committed]
    rfl

theorem commitInside (h : Banks s.data.bank s.mem s.queue) (room : Clear (s.data.bank x)) (high : length ≤ maxTagged)
    {a : Int} (changed : (commitBank (s.data.bank x) s.mem length).2.1 a ≠ s.mem a) :
    (s.data.bank x).firstPtr ≤ a ∧ a < Bank.limit (s.data.bank x) := by
  have within := bankWithin h x
  have round := roundUpBounds length
  have limit := (clearVacant (h.each x) room (x := (s.data.bank x).wrPtr + 1531) (by omega) (by omega)).2
  unfold maxTagged at high
  rcases commitBankStores changed with mark | mark | ⟨head, -⟩ <;> omega

theorem commitKeeps (h : Banks s.data.bank s.mem s.queue) (room : Clear (s.data.bank x))
    (current : base = (s.data.bank x).wrPtr) (other : Clear (s.data.bank !x))
    (next : s.data.packetInLLD = (s.data.bank !x).wrPtr) (low : 4 ≤ length) (high : length ≤ maxTagged)
    (rest : (s.data.bank x).wrPtr + roundUp length + 4 > (s.data.bank x).lastSafePtr →
      s.mem (s.data.bank x).freePtr ≠ 0) :
    Banks (miiCommitBuffer s base length).data.bank (miiCommitBuffer s base length).mem
      (miiCommitBuffer s base length).queue ∧
    Driving (miiCommitBuffer s base length).data (!x) := by
  have within := bankWithin h x
  have number : bankNumber s.data base = x := bankNumberIn h (by omega) (by omega)
  obtain ⟨mem, bank, nextBuffer, packet, refill, queue, -⟩ := commitBufferEq number
  have refilled := commitBankInv (h.each x) room low high rest s.words
  have set := banksSet h refilled.inv refilled.firstPtr refilled.lastSafePtr
    (fun a changed => commitInside h room high changed)
  have queues : (miiCommitBuffer s base length).queue =
      (fun y => if y = x then s.queue x ++ [appended (s.data.bank x) length s.words] else s.queue y) := by
    rw [queue]
    funext y
    split
    · rename_i same; rw [same]
    · rfl
  have own : (miiCommitBuffer s base length).data.bank x = (commitBank (s.data.bank x) s.mem length).1 := by
    rw [bank]; exact if_pos rfl
  have apart : (miiCommitBuffer s base length).data.bank (!x) = s.data.bank !x := by
    rw [bank]; exact if_neg (by cases x <;> decide)
  refine ⟨by rw [bank, mem, queues]; exact set, ?_, ?_, ?_⟩
  · rw [packet, apart]
    exact next
  · rw [apart]
    exact other
  · rw [nextBuffer, refill, Bool.not_not, own]
    rcases refilled.next with none | ⟨some, clear⟩
    · exact .inl ⟨none, if_pos none⟩
    · exact .inr ⟨some, clear⟩

end commit

section receive
variable {s t : Store} {x : Bool} {odd : Fin 4} {tailBits : BitVec 32}

theorem lastBitsInside (fill : Filling s) {a : Int} (changed : (miiRxLastBits s odd tailBits).mem a ≠ s.mem a) :
    s.data.packetInLLD ≤ a ∧ a < s.data.packetInLLD + (4 * s.words.length + 16) ∧ a % 4 = s.data.packetInLLD % 4 := by
  have r4 := fill.r4
  by_contra outside
  apply changed
  unfold miiRxLastBits
  dsimp only
  repeat rw [storeOther (by omega)]

/- The words at the end of the packet fit into any buffer, or there is one more word behind it. -/
def Ends (s : Store) : Prop :=
  let b := s.data.bank (bankNumber s.data s.data.packetInLLD)
  4 * s.words.length < 1520 ∨
    s.data.packetInLLD + 1532 ≠ Bank.limit b ∧ s.data.packetInLLD + 1532 ≠ b.freePtr
instance (s) : Decidable (Ends s) := by unfold Ends; infer_instance

theorem lastBitsCrc (fill : Filling s) (odd : Fin 4) (tailBits : BitVec 32) :
    crcBad (miiRxLastBits s odd tailBits).mem s.data.packetInLLD s.r4 =
    if Good s.words odd tailBits then ((4 * s.words.length + odd.val : Nat) : Int) else 0 := by
  have r4 := fill.r4
  have apart : s.r4 + 8 ≠ s.r4 + 4 ∧ s.r4 + 8 ≠ s.r4 + 12 ∧ s.r4 + 4 ≠ s.r4 + 12 := by omega
  rw [crcBadEq]
  · congr 1
    push_cast
    omega
  · simp only [load, miiRxLastBits]
    rw [storeOther apart.2.1, storeOther apart.1, storeSame]
    rfl
  · simp only [load, miiRxLastBits]
    rw [storeOther apart.2.2, storeSame, BitVec.ofInt_toInt]
  · simp only [load, miiRxLastBits]
    rw [storeSame, BitVec.ofInt_toInt, fill.crc]

def beforeCommit (s : Store) (odd : Fin 4) (tailBits : BitVec 32) : Store :=
  let d := { s.data with packetInLLD := s.data.nextBuffer
                         miiPacketsReceived := s.data.miiPacketsReceived + 1#32 }
  { miiRxLastBits s odd tailBits with data := d }

def overrun (s : Store) (odd : Fin 4) (tailBits : BitVec 32) : Store :=
  let d := { s.data with miiPacketsOverran := s.data.miiPacketsOverran + 1#32 }
  { miiRxLastBits s odd tailBits with data := d, r4 := s.data.packetInLLD, inPacket := false }

def rejected (s : Store) (odd : Fin 4) (tailBits : BitVec 32) : Store :=
  let d := { s.data with packetInLLD := s.data.nextBuffer, nextBuffer := s.data.packetInLLD
                         miiPacketsCRCError := s.data.miiPacketsCRCError + 1#32 }
  { miiRxLastBits s odd tailBits with data := d, r4 := s.data.nextBuffer, inPacket := false }

def taken (s : Store) (odd : Fin 4) (tailBits : BitVec 32) : Store :=
  let length : Int := (4 * s.words.length + odd.val : Nat)
  { miiCommitBuffer (beforeCommit s odd tailBits) s.data.packetInLLD length with
    r4 := s.data.nextBuffer, inPacket := false }

theorem interruptCases (fill : Filling s) : miiInterruptHandler s odd tailBits =
    if s.data.nextBuffer = -1 then overrun s odd tailBits
    else if Good s.words odd tailBits then taken s odd tailBits
    else rejected s odd tailBits := by
  have crc := lastBitsCrc fill odd tailBits
  have data : (miiRxLastBits s odd tailBits).data = s.data := rfl
  unfold miiInterruptHandler
  simp only [data]
  split
  · rfl
  · simp only [miiClientUser, packetGood, crc]
    split
    · rename_i good
      have some := goodLong good
      have long : ((4 * s.words.length + odd.val : Nat) : Int) ≠ 0 := by
        have := List.length_pos_iff.mpr some
        omega
      simp only [if_neg long]
      rw [if_pos long]
      have packet : (miiCommitBuffer (beforeCommit s odd tailBits) s.data.packetInLLD
          ((4 * s.words.length + odd.val : Nat) : Int)).data.packetInLLD = s.data.nextBuffer :=
        (commitBufferEq rfl).2.2.2.1
      change { miiCommitBuffer (beforeCommit s odd tailBits) s.data.packetInLLD
        ((4 * s.words.length + odd.val : Nat) : Int) with
          r4 := (miiCommitBuffer (beforeCommit s odd tailBits) s.data.packetInLLD
            ((4 * s.words.length + odd.val : Nat) : Int)).data.packetInLLD
          inPacket := false } = _
      rw [packet]
      rfl
    · rfl

/- A good frame whose commit passes the last safe position finds the free pointer off the
unused tail. -/
def Spared (s : Store) (odd : Fin 4) (tailBits : BitVec 32) : Prop :=
  let b := s.data.bank (bankNumber s.data s.data.packetInLLD)
  let length : Int := (4 * s.words.length + odd.val : Nat)
  s.data.nextBuffer ≠ -1 → b.wrPtr + roundUp length + 4 > b.lastSafePtr → Good s.words odd tailBits →
    s.mem b.freePtr ≠ 0

theorem drivingNumber (h : Banks s.data.bank s.mem s.queue) (driving : Driving s.data x) :
    bankNumber s.data s.data.packetInLLD = x := by
  have within := bankWithin h x
  rw [driving.current]
  exact bankNumberIn h (by omega) (by omega)

theorem lastBitsVacant (h : Banks s.data.bank s.mem s.queue) (driving : Driving s.data x) (fill : Filling s)
    (ends : Ends s) {a : Int} (changed : (miiRxLastBits s odd tailBits).mem a ≠ s.mem a) :
    (s.data.bank x).wrPtr ≤ a ∧ Vacant (s.data.bank x) a ∧ a < Bank.limit (s.data.bank x) := by
  obtain ⟨low, high, -⟩ := lastBitsInside fill changed
  have short := fill.short
  have current := driving.current
  unfold maxTagged at short
  refine ⟨by omega, ?_⟩
  rw [Ends, drivingNumber h driving, current] at ends
  rcases ends with early | ⟨last, free⟩
  · exact clearVacant (h.each x) driving.room (by omega) (by omega)
  · exact ampleVacant (h.each x) driving.room last free (by omega) (by omega)

theorem lastBitsBanks (h : Banks s.data.bank s.mem s.queue) (driving : Driving s.data x) (fill : Filling s)
    (ends : Ends s) (odd : Fin 4) (tailBits : BitVec 32) : Banks s.data.bank (miiRxLastBits s odd tailBits).mem s.queue :=
  banksFill h fun _ changed => lastBitsVacant h driving fill ends changed

theorem lastBitsFree (h : Banks s.data.bank s.mem s.queue) (driving : Driving s.data x) (fill : Filling s)
    (ends : Ends s) (odd : Fin 4) (tailBits : BitVec 32) :
    (miiRxLastBits s odd tailBits).mem (s.data.bank x).freePtr = s.mem (s.data.bank x).freePtr := by
  by_contra changed
  obtain ⟨low, vacant, -⟩ := lastBitsVacant h driving fill ends changed
  unfold Vacant at vacant
  omega

theorem interruptKeeps (h : Inv s) (on : s.inPacket = true) (short : 4 * s.words.length + odd.val ≤ maxTagged)
    (ends : Ends s) (spared : Spared s odd tailBits) : Inv (miiInterruptHandler s odd tailBits) := by
  have fill := h.filling on
  obtain ⟨x, driving⟩ := h.driving
  have banks := lastBitsBanks h.banks driving fill ends odd tailBits
  have number := drivingNumber h.banks driving
  rw [interruptCases fill]
  split
  · rename_i none
    exact ⟨banks, ⟨x, driving.current, driving.room, driving.next⟩, fun _ => rfl, fun on => by cases on⟩
  · rename_i some
    have next := driving.next.resolve_left fun none => some none.1
    split
    · rename_i good
      have long := List.length_pos_iff.mpr (goodLong good)
      have rest := spared some
      rw [number] at rest
      have kept := commitKeeps (s := beforeCommit s odd tailBits) banks driving.room driving.current
        next.2 next.1 (by omega) short (fun beyond => by
          have word := lastBitsFree h.banks driving fill ends odd tailBits
          exact word.symm ▸ rest beyond good)
      have packet : (taken s odd tailBits).data.packetInLLD = s.data.nextBuffer := (commitBufferEq rfl).2.2.2.1
      exact ⟨kept.1, ⟨!x, kept.2⟩, fun _ => packet.symm, fun on => by cases on⟩
    · refine ⟨banks, ⟨!x, next.1, next.2, .inr ⟨?_, ?_⟩⟩, fun _ => rfl, fun on => by cases on⟩
      · rw [Bool.not_not]; exact driving.current
      · rw [Bool.not_not]; exact driving.room

theorem receiveUpToKeeps (h : Inv s) {limit : Nat} (small : limit ≤ maxTagged) {e : Rx}
    (spared : ∀ odd tailBits, e = .interrupt odd tailBits → Spared s odd tailBits)
    (ends : ∀ odd tailBits, e = .interrupt odd tailBits → Ends s) (taken : receiveUpTo limit s e = some t) : Inv t := by
  obtain ⟨x, driving⟩ := h.driving
  cases e with
  | preamble time =>
    simp only [receiveUpTo] at taken
    split at taken
    · cases taken
    rename_i off
    have off : s.inPacket = false := by simpa using off
    have r4 := h.idle off
    have banks : Banks s.data.bank (store s.mem s.r4 time) s.queue := banksFill h.banks fun a changed => by
      have at_ : a = (s.data.bank x).wrPtr := by
        by_contra other
        rw [r4, driving.current] at changed
        exact changed (storeOther other)
      exact ⟨by omega, clearVacant (h.banks.each x) driving.room (by omega) (by omega)⟩
    cases taken
    refine ⟨banks, ⟨x, driving⟩, (fun off => by cases off), fun _ => ⟨?_, rfl, Nat.zero_le _⟩⟩
    simpa using r4
  | word word =>
    simp only [receiveUpTo] at taken
    split at taken
    case isFalse => cases taken
    rename_i more
    obtain ⟨on, short⟩ := more
    have fill := h.filling on
    have banks : Banks s.data.bank (store s.mem (s.r4 + 4) word.toInt) s.queue := banksFill h.banks fun a changed => by
      have r4 := fill.r4
      unfold maxTagged at small
      rw [driving.current] at r4
      have at_ : a = s.r4 + 4 := by
        by_contra other
        exact changed (storeOther other)
      exact ⟨by omega, clearVacant (h.banks.each x) driving.room (by omega) (by omega)⟩
    cases taken
    refine ⟨banks, ⟨x, driving⟩, fun off => ?_, fun _ => fillingWord fill (Nat.le_trans short small)⟩
    dsimp only at off; rw [on] at off; cases off
  | interrupt odd tailBits =>
    simp only [receiveUpTo] at taken
    split at taken
    case isFalse => cases taken
    rename_i more
    cases taken
    exact interruptKeeps h more.1 (Nat.le_trans more.2 small) (ends odd tailBits rfl) (spared odd tailBits rfl)

theorem frameEnds (short : 4 * s.words.length + odd.val ≤ maxFrame) : Ends s := by
  unfold maxFrame at short
  exact .inl (by omega)

theorem receiveKeeps (h : Inv s) {e : Rx} (spared : ∀ odd tailBits, e = .interrupt odd tailBits → Spared s odd tailBits)
    (taken : receive s e = some t) : Inv t := by
  refine receiveUpToKeeps h (by decide) spared (fun odd tailBits same => ?_) taken
  subst same
  simp only [receive, receiveUpTo] at taken
  split at taken
  · rename_i more
    exact frameEnds more.2
  · cases taken

end receive

section user
variable {s t : Store}

theorem restartEq (none : s.data.nextBuffer = -1) :
    let c := s.data.refillBankNumber
    let r := restartBank (s.data.bank c) s.mem
    let t := miiRestartBuffer s
    t.mem = r.2.1 ∧ t.data.bank = (fun y => if y = c then r.1 else s.data.bank y) ∧
    t.data.nextBuffer = r.2.2 ∧ t.data.packetInLLD = s.data.packetInLLD ∧ t.data.refillBankNumber = c ∧
    t.queue = s.queue ∧ t.r4 = s.r4 ∧ t.inPacket = s.inPacket ∧ t.words = s.words ∧ t.r10 = s.r10 := by
  intro c r t
  have into : t = miiRestartBuffer s := rfl
  unfold miiRestartBuffer at into
  rw [if_neg (not_not.mpr none)] at into
  rw [into]
  exact ⟨rfl, rfl, rfl, rfl, rfl, rfl, rfl, rfl, rfl, rfl⟩

theorem restartInside {c : Bool} (h : Banks s.data.bank s.mem s.queue) {a : Int}
    (changed : (restartBank (s.data.bank c) s.mem).2.1 a ≠ s.mem a) :
    (s.data.bank c).firstPtr ≤ a ∧ a < Bank.limit (s.data.bank c) := by
  have within := bankWithin h c
  rcases (restartBankStores changed).1 with mark | head <;> omega

theorem restartKeeps (h : Inv s) : Inv (miiRestartBuffer s) := by
  by_cases none : s.data.nextBuffer = -1
  · obtain ⟨x, driving⟩ := h.driving
    obtain ⟨mem, bank, nextBuffer, packet, refill, queue, r4, inPacket, words, r10⟩ := restartEq none
    have within := bankWithin h.banks (!x)
    have number : s.data.refillBankNumber = !x := by
      rcases driving.next with ⟨-, number⟩ | ⟨some, -⟩
      · exact number
      · omega
    rw [number] at mem bank nextBuffer refill
    have refilled := restartBankInv (h.banks.each (!x))
    have set := banksSet h.banks refilled.inv refilled.firstPtr refilled.lastSafePtr
      (fun a changed => restartInside h.banks changed)
    have queues : (fun y => if y = !x then s.queue (!x) else s.queue y) = s.queue := by
      funext y
      split
      · rename_i same; rw [same]
      · rfl
    rw [queues] at set
    have own : (miiRestartBuffer s).data.bank (!x) = (restartBank (s.data.bank !x) s.mem).1 := by
      rw [bank]; exact if_pos rfl
    have apart : (miiRestartBuffer s).data.bank x = s.data.bank x := by
      rw [bank]; exact if_neg (by cases x <;> decide)
    refine ⟨by rw [bank, mem, queue]; exact set, ⟨x, ?_, ?_, ?_⟩, ?_, ?_⟩
    · rw [packet, apart]; exact driving.current
    · rw [apart]; exact driving.room
    · rw [nextBuffer, refill, own]
      rcases refilled.next with none | ⟨some, clear⟩
      · exact .inl ⟨none, rfl⟩
      · exact .inr ⟨some, clear⟩
    · rw [inPacket, r4, packet]; exact h.idle
    · intro on
      rw [inPacket] at on
      exact fillingSame (h.filling on) packet ⟨r4, r10, inPacket, words⟩
  · have same : miiRestartBuffer s = s := by
      unfold miiRestartBuffer
      rw [if_pos none]
    rw [same]; exact h

theorem queueWithin {c : Bool} {k : Pkt} (h : Banks s.data.bank s.mem s.queue) (member : k ∈ s.queue c) :
    (s.data.bank c).firstPtr ≤ k.hdr ∧ k.hdr + 8 < Bank.limit (s.data.bank c) := by
  have slot := (bankSlot (h.each c) member).1
  have next := slotNext slot
  have occupied := slotOccupied (h.each c) member (Int.le_refl _) (by omega)
  have early := (h.each c).early k member
  have limit : Bank.limit (s.data.bank c) = (s.data.bank c).lastSafePtr + maxPacket := rfl
  unfold maxPacket at limit
  omega

theorem freeKeeps {c : Bool} {k : Pkt} (h : Inv s) (member : k ∈ s.queue c) (live : k.freed = false) :
    ∃ t, miiFreeInBuffer s (k.hdr + 8) = some t ∧ Inv t ∧ t.mem = store s.mem k.hdr (-(s.mem k.hdr)) ∧
      t.queue = (fun y => if y = c then reclaim (markFreed k.hdr (s.queue y)) else s.queue y) ∧
      (∃ f, t.data = s.data.setBank c { s.data.bank c with freePtr := f } ∧ 0 < t.mem f) ∧
      t.committed = s.committed ∧ t.notifications = s.notifications ∧
      t.inPacket = s.inPacket ∧ t.words = s.words := by
  have inside := queueWithin h.banks member
  have number : bankNumber s.data (k.hdr + 8) = c := bankNumberIn h.banks (by omega) (by omega)
  have header : k.hdr + 8 - 4 - 4 = k.hdr := by omega
  obtain ⟨f, found, inv, clear⟩ := freeBankInv (h.banks.each c) member live
  have set := banksSet h.banks inv rfl rfl (c := c) (fun a changed => by
    by_contra outside
    exact changed (storeOther (by omega)))
  obtain ⟨x, driving⟩ := h.driving
  have queues : (fun y => if y = c then reclaim (markFreed k.hdr (s.queue y)) else s.queue y) =
      (fun y => if y = c then reclaim (markFreed k.hdr (s.queue c)) else s.queue y) := by
    funext y
    split
    · rename_i same; rw [same]
    · rfl
  have wr : ∀ y, (if y = c then { s.data.bank c with freePtr := f } else s.data.bank y).wrPtr =
      (s.data.bank y).wrPtr := by
    intro y; split
    · rename_i same; rw [same]
    · rfl
  have room : ∀ y, Clear (s.data.bank y) →
      Clear (if y = c then { s.data.bank c with freePtr := f } else s.data.bank y) := by
    intro y room
    split
    · rename_i same; exact clear (same ▸ room)
    · exact room
  rw [← queues] at set
  let t : Store := { s with
    mem := store s.mem k.hdr (-(s.mem k.hdr))
    data := s.data.setBank c { s.data.bank c with freePtr := f }
    queue := fun y => if y = c then reclaim (markFreed k.hdr (s.queue y)) else s.queue y }
  refine ⟨t, ?_, ?_, rfl, rfl, ⟨f, rfl, freeLoopPositive found⟩, rfl, rfl, rfl, rfl⟩
  · unfold miiFreeInBuffer miiFreeInBufferUpTo
    simp only [number, header, found]
    rfl
  · refine ⟨set, ⟨x, driving.current.trans (wr x).symm, room x driving.room, ?_⟩, h.idle, fun on => ?_⟩
    · exact driving.next.imp id fun ⟨same, clear⟩ => ⟨same.trans (wr _).symm, room _ clear⟩
    · have fill := h.filling on
      exact ⟨fill.r4, fill.crc, fill.short⟩

structure OnlyRead (s t : Store) : Prop where
  mem : t.mem = s.mem
  bank : ∀ c, ∃ r, t.data.bank c = { s.data.bank c with readPtr := r }
  data : t.data.nextBuffer = s.data.nextBuffer ∧ t.data.packetInLLD = s.data.packetInLLD ∧
    t.data.refillBankNumber = s.data.refillBankNumber
  queue : t.queue = s.queue
  committed : t.committed = s.committed
  driver : t.r4 = s.r4 ∧ t.r10 = s.r10 ∧ t.inPacket = s.inPacket ∧ t.words = s.words

theorem onlyReadKeeps (h : Inv s) (read : OnlyRead s t) : Inv t := by
  have fields : ∀ c, (t.data.bank c).wrPtr = (s.data.bank c).wrPtr ∧
      (t.data.bank c).firstPtr = (s.data.bank c).firstPtr ∧ Bank.limit (t.data.bank c) = Bank.limit (s.data.bank c) ∧
      (Clear (s.data.bank c) → Clear (t.data.bank c)) ∧
      (BankInv (s.data.bank c) s.mem (s.queue c) → BankInv (t.data.bank c) s.mem (s.queue c)) := by
    intro c
    obtain ⟨r, same⟩ := read.bank c
    rw [same]
    exact ⟨rfl, rfl, rfl, id, fun inv => { inv with }⟩
  obtain ⟨x, driving⟩ := h.driving
  obtain ⟨next, packet, refill⟩ := read.data
  obtain ⟨r4, r10, inPacket, words⟩ := read.driver
  refine ⟨⟨?_, ?_, fun c => ?_⟩, ⟨x, ?_, (fields x).2.2.2.1 driving.room, ?_⟩, ?_, fun on => ?_⟩
  · rw [(fields false).2.1]; exact h.banks.address
  · rw [(fields false).2.2.1, (fields true).2.1]; exact h.banks.apart
  · rw [read.mem, read.queue]; exact (fields c).2.2.2.2 (h.banks.each c)
  · rw [packet, (fields x).1]; exact driving.current
  · rw [next, refill, (fields !x).1]
    exact driving.next.imp id fun ⟨same, clear⟩ => ⟨same, (fields _).2.2.2.1 clear⟩
  · rw [inPacket, r4, packet]; exact h.idle
  · rw [inPacket] at on
    exact fillingSame (h.filling on) packet read.driver

theorem onlyReadTrans {u : Store} (first : OnlyRead s t) (second : OnlyRead t u) : OnlyRead s u := by
  obtain ⟨n1, p1, f1⟩ := first.data
  obtain ⟨n2, p2, f2⟩ := second.data
  obtain ⟨a1, b1, c1, d1⟩ := first.driver
  obtain ⟨a2, b2, c2, d2⟩ := second.driver
  refine ⟨second.mem.trans first.mem, fun c => ?_, ⟨n2.trans n1, p2.trans p1, f2.trans f1⟩,
    second.queue.trans first.queue, second.committed.trans first.committed,
    ⟨a2.trans a1, b2.trans b1, c2.trans c1, d2.trans d1⟩⟩
  obtain ⟨r1, one⟩ := first.bank c
  obtain ⟨r2, two⟩ := second.bank c
  exact ⟨r2, by rw [two, one]⟩

theorem getFromReads (s : Store) : OnlyRead s (getFrom s).1 := by
  have set : ∀ (b : Bank) (c : Bool), (∃ r, b = { s.data.bank c with readPtr := r }) →
      ∀ y, ∃ r, (if y = c then b else s.data.bank y) = { s.data.bank y with readPtr := r } := by
    intro b c only y
    split
    · rename_i same; rw [same]; exact only
    · exact ⟨_, rfl⟩
  unfold getFrom
  dsimp only
  have moved : ∀ c : Bool, ∃ r, (if s.mem (s.data.bank c).readPtr = 0
      then { s.data.bank c with readPtr := (s.data.bank c).firstPtr } else s.data.bank c) =
        { s.data.bank c with readPtr := r } := by
    intro c; split <;> exact ⟨_, rfl⟩
  obtain ⟨r, same⟩ := moved (!s.data.readBank)
  rw [same]
  split <;> exact ⟨rfl, set _ _ ⟨_, rfl⟩, ⟨rfl, rfl, rfl⟩, rfl, rfl, ⟨rfl, rfl, rfl, rfl⟩⟩

theorem getReads (s : Store) : OnlyRead s (miiGetInBuffer s).1 := by
  have one := getFromReads s
  unfold miiGetInBuffer
  split
  · rename_i t o first
    rw [first] at one
    exact one
  · rename_i t first
    rw [first] at one
    have two := getFromReads t
    split <;> rename_i second <;> rw [second] at two <;> exact onlyReadTrans one two

theorem notifiedReads (taken : miiNotified s = some t) : OnlyRead s t := by
  unfold miiNotified at taken
  split at taken
  · cases taken
  · cases taken
    exact ⟨rfl, fun c => ⟨_, rfl⟩, ⟨rfl, rfl, rfl⟩, rfl, rfl, ⟨rfl, rfl, rfl, rfl⟩⟩

end user

theorem invInitial (mem : Int → Int) {address : Int} {numberWords : Nat} (aligned : address % 4 = 0)
    (positive : 0 < address) (large : 1520 ≤ numberWords) : Inv (miiBufferInit mem address numberWords) := by
  have half : (2 * numberWords / 4 * 4 : Nat) ≤ 2 * numberWords ∧ 2 * numberWords < (2 * numberWords / 4 * 4 : Nat) + 4 := by
    omega
  obtain ⟨size, into⟩ : ∃ n : Nat, n = 2 * numberWords / 4 := ⟨_, rfl⟩
  have empty : ∀ (bank : Bank) (m : Int → Int), bank.firstPtr % 4 = 0 → bank.lastSafePtr % 4 = 2 →
      bank.firstPtr + 1510 ≤ bank.lastSafePtr → bank.freePtr = bank.firstPtr → bank.wrPtr = bank.firstPtr + 4 →
      m bank.firstPtr = 1 → BankInv bank m [] := by
    intro bank m base last room free wr marker
    refine ⟨base, last, room, by omega, by omega, by omega, by omega, .flat (by omega) ?_, by omega, ?_, by simp⟩
    · rw [wr, free, show bank.firstPtr + 4 - 4 = bank.firstPtr by omega]; exact .nil _
    · rw [wr, show bank.firstPtr + 4 - 4 = bank.firstPtr by omega]; exact marker
  unfold miiBufferInit
  rw [← into] at half ⊢
  refine ⟨⟨positive, ?_, fun c => ?_⟩, ⟨false, rfl, ?_, ?_⟩, fun _ => rfl, fun on => by cases on⟩
  · simp only [Bank.limit, maxPacket]
    simp
  · cases c
    · refine empty _ _ aligned ?_ ?_ rfl rfl ?_
      · simp [maxPacket]; omega
      · simp [maxPacket]; omega
      · simp only [Bool.false_eq_true, if_false]
        rw [storeOther (by omega), storeSame]
    · refine empty _ _ ?_ ?_ ?_ rfl rfl ?_
      · simp; omega
      · simp [maxPacket]; omega
      · simp [maxPacket]; omega
      · simp
  · simp [Clear, maxPacket]; omega
  · refine .inr ⟨rfl, ?_⟩
    simp [Clear, maxPacket]; omega

end ScEthernet.Lite.StoreInv
