import ScEthernet.Lite.StoreSafety

/-! The words that miiLLD stores for a packet, in the buffers that the store hands out. MAXPACKET
leaves 1532 bytes from the timestamp on; a packet of 1520 bytes or more needs 1536. -/
namespace ScEthernet.Lite.Footprint
open Lib.WordMemory Lib.Runs Lib.BitOrder Lib.ShiftCrc Wire Buffer BankChain StoreInv StoreSafety

def storesAt (r4 : Int) : Rx → List Int
  | .preamble _ => [r4]
  | .word _ => [r4 + 4]
  | .interrupt _ _ => [r4 + 8, r4 + 4, r4 + 12]

def pointer (r4 : Int) : Rx → Int
  | .word _ => r4 + 4
  | _ => r4

def stores : Int → List Rx → List Int
  | _, [] => []
  | r4, e :: es => storesAt r4 e ++ stores (pointer r4 e) es

def values (s : Store) : Rx → List Int
  | .preamble time => [time]
  | .word word => [word.toInt]
  | .interrupt odd tailBits => [(8 * odd.val : Nat), tailBits.toInt, s.r10.toInt]

def packet (time : Int) (words : List (BitVec 32)) (odd : Fin 4) (tailBits : BitVec 32) : List Rx :=
  .preamble time :: (words.map .word ++ [.interrupt odd tailBits])

/- A whole word of the bank, and below the free pointer if that is above the buffer. -/
def Inside (b : Bank) (p a : Int) : Prop :=
  b.firstPtr ≤ a ∧ a + 4 ≤ Bank.limit b ∧ (p < b.freePtr → a + 4 ≤ b.freePtr)

def Contained (b : Bank) (p : Int) (words : List (BitVec 32)) : Prop :=
  ∀ time odd tailBits, ∀ a ∈ stores p (packet time words odd tailBits), Inside b p a

/- The packet is below 1520 bytes, or there is a word more than MAXPACKET asks for. -/
def Ample (b : Bank) (p : Int) (length : Nat) : Prop :=
  length < 1520 ∨ p + 1532 ≠ Bank.limit b ∧ p + 1532 ≠ b.freePtr

def Exact (s : Store) (p : Int) : Prop :=
  ∀ (words : List (BitVec 32)) (odd : Fin 4), 4 * words.length + odd.val ≤ maxTagged →
    (Contained (s.data.bank (bankNumber s.data p)) p words ↔
      Ample (s.data.bank (bankNumber s.data p)) p (4 * words.length + odd.val))

/- The user's calls, and packets of up to 1522 bytes. The loop of mii_free_in_buffer takes any
number of passes, whatever is in memory. -/
inductive Event where
  | rx (e : Rx)
  | get
  | free (base : Int) (passes : Nat)
  | restart
  | notified

def step (s : State) : Event → Option State
  | .rx e => (receiveUpTo maxTagged s.store e).map (fun t => { s with store := t })
  | .get => StoreSafety.step s .get
  | .free base passes =>
    if base ∈ s.held then (miiFreeInBufferUpTo passes s.store base).map (fun t => ⟨t, s.held.erase base⟩) else none
  | .restart => StoreSafety.step s .restart
  | .notified => StoreSafety.step s .notified

/- miiCommitBuffer or mii_restart_buffer has set nextBuffer. -/
def HandsOut (s t : Store) : Event → Prop
  | .rx (.interrupt _ _) => t.data.miiPacketsReceived ≠ s.data.miiPacketsReceived ∧ t.data.nextBuffer ≠ -1
  | .restart => s.data.nextBuffer = -1 ∧ t.data.nextBuffer ≠ -1
  | _ => False

def Open (s : Store) (p : Int) : Prop := p = s.data.packetInLLD ∨ p = s.data.nextBuffer ∧ p ≠ -1

/- A packet ends inside its buffer, and a commit past the last safe position finds the free
pointer off the unused tail. The user frees what has been committed. -/
def Sound (s : State) : Event → Prop
  | .rx (.interrupt odd tailBits) => Ends s.store ∧ Spared s.store odd tailBits
  | .free base _ => ∃ k ∈ live s.store, base = k.hdr + 8
  | _ => True
instance (s e) : Decidable (Sound s e) := by unfold Sound; split <;> infer_instance

section coroutine
variable {s t : Store} {limit : Nat}

theorem drivenOutside {e : Rx} {a : Int} (outside : a ∉ storesAt s.r4 e) : driven s (.rx e) a = s.mem a := by
  cases e with
  | preamble time =>
    simp only [storesAt, List.mem_singleton] at outside
    exact storeOther outside
  | word word =>
    simp only [storesAt, List.mem_singleton] at outside
    exact storeOther outside
  | interrupt odd tailBits =>
    simp only [storesAt, List.mem_cons, List.not_mem_nil, or_false, not_or] at outside
    simp only [driven, miiRxLastBits]
    rw [storeOther outside.2.2, storeOther outside.2.1, storeOther outside.1]

theorem runStores {es : List Rx} (words : ∀ e ∈ es, ∀ odd tailBits, e ≠ .interrupt odd tailBits)
    (received : run (receiveUpTo limit) s es = some t) :
    t.r4 = es.foldl pointer s.r4 ∧ ∀ a, a ∉ stores s.r4 es → t.mem a = s.mem a := by
  induction es generalizing s with
  | nil => cases received; exact ⟨rfl, fun _ _ => rfl⟩
  | cons e es ih =>
    obtain ⟨u, taken, rest⟩ := Option.bind_eq_some_iff.mp received
    have one : u.r4 = pointer s.r4 e ∧ u.mem = driven s (.rx e) := by
      cases e with
      | preamble time =>
        simp only [receiveUpTo] at taken
        split at taken
        · cases taken
        · cases taken; exact ⟨rfl, rfl⟩
      | word word =>
        simp only [receiveUpTo] at taken
        split at taken
        · cases taken; exact ⟨rfl, rfl⟩
        · cases taken
      | interrupt odd tailBits => exact absurd rfl (words _ List.mem_cons_self odd tailBits)
    obtain ⟨last, others⟩ := ih (fun e member => words e (List.mem_cons_of_mem _ member)) rest
    refine ⟨by rw [last, one.1]; rfl, fun a outside => ?_⟩
    rw [stores, List.mem_append, not_or] at outside
    rw [others a (by rw [one.1]; exact outside.2), one.2]
    exact drivenOutside outside.1

end coroutine

section words
variable {b : Bank} {p : Int} {words : List (BitVec 32)}

theorem storesWords (r4 : Int) (words : List (BitVec 32)) (odd : Fin 4) (tailBits : BitVec 32) (a : Int) :
    a ∈ stores r4 (words.map .word ++ [.interrupt odd tailBits]) ↔
      r4 < a ∧ a ≤ r4 + 4 * words.length + 12 ∧ a % 4 = r4 % 4 := by
  induction words generalizing r4 with
  | nil =>
    simp only [List.map_nil, List.nil_append, stores, storesAt, List.append_nil, List.mem_cons, List.not_mem_nil, or_false,
      List.length_nil]
    omega
  | cons word words ih =>
    simp only [List.map_cons, List.cons_append, stores, storesAt, pointer, List.nil_append, List.mem_cons, ih,
      List.length_cons]
    omega

theorem storesPacket (time : Int) (odd : Fin 4) (tailBits : BitVec 32) (a : Int) :
    a ∈ stores p (packet time words odd tailBits) ↔ p ≤ a ∧ a ≤ p + 4 * words.length + 12 ∧ a % 4 = p % 4 := by
  simp only [packet, stores, storesAt, pointer, List.cons_append, List.nil_append, List.mem_cons, storesWords]
  omega

end words

structure Shaped (b : Bank) : Prop where
  base : b.firstPtr % 4 = 0
  last : b.lastSafePtr % 4 = 2
  size : b.firstPtr + 1510 ≤ b.lastSafePtr
  freeAligned : b.freePtr % 4 = 0
  wrAligned : b.wrPtr % 4 = 0
  wrLow : b.firstPtr + 4 ≤ b.wrPtr

section banks
variable {b : Bank} {mem : Int → Int} {q : List Pkt}

theorem bankShaped (h : BankInv b mem q) : Shaped b :=
  ⟨h.base, h.last, h.size, h.freeAligned, h.wrAligned, h.wrLow⟩

theorem containedIff (h : Shaped b) (clear : Clear b) {words : List (BitVec 32)} {odd : Fin 4}
    (short : 4 * words.length + odd.val ≤ maxTagged) :
    Contained b b.wrPtr words ↔ Ample b b.wrPtr (4 * words.length + odd.val) := by
  obtain ⟨base, last, size, freeAligned, wrAligned, wrLow⟩ := h
  have odd' := odd.isLt
  unfold maxTagged at short
  unfold Clear maxPacket at clear
  have limit : Bank.limit b = b.lastSafePtr + 1530 := rfl
  constructor
  · intro contained
    have end_ := contained 0 0 0#32 (b.wrPtr + 4 * words.length + 12) ((storesPacket ..).mpr (by omega))
    unfold Inside at end_
    unfold Ample
    omega
  · intro ample time odd tailBits a stored
    have place := (storesPacket ..).mp stored
    unfold Ample at ample
    unfold Inside
    omega

theorem commitShaped (h : Shaped b) {length : Nat} :
    Shaped (commitBank b mem length).1 ∧ (commitBank b mem length).1.firstPtr = b.firstPtr ∧
    (commitBank b mem length).1.lastSafePtr = b.lastSafePtr ∧
    ((commitBank b mem length).2.2 ≠ -1 →
      (commitBank b mem length).2.2 = (commitBank b mem length).1.wrPtr ∧ Clear (commitBank b mem length).1) := by
  obtain ⟨base, last, size, freeAligned, wrAligned, wrLow⟩ := h
  have round := roundUpBounds length
  unfold commitBank
  dsimp only
  split_ifs
  all_goals
    refine ⟨⟨?_, ?_, ?_, ?_, ?_, ?_⟩, rfl, rfl, fun some => ⟨?_, ?_⟩⟩
  all_goals
    simp only [Clear, maxPacket] at * <;> omega

theorem restartShaped (h : Shaped b) :
    Shaped (restartBank b mem).1 ∧ (restartBank b mem).1.firstPtr = b.firstPtr ∧
    (restartBank b mem).1.lastSafePtr = b.lastSafePtr ∧
    ((restartBank b mem).2.2 ≠ -1 →
      (restartBank b mem).2.2 = (restartBank b mem).1.wrPtr ∧ Clear (restartBank b mem).1) := by
  obtain ⟨base, last, size, freeAligned, wrAligned, wrLow⟩ := h
  unfold restartBank
  dsimp only
  split_ifs
  all_goals
    refine ⟨⟨?_, ?_, ?_, ?_, ?_, ?_⟩, rfl, rfl, fun some => ⟨?_, ?_⟩⟩
  all_goals
    simp only [Clear, maxPacket] at * <;> omega

theorem freeLoopAligned {first : Int} (base : first % 4 = 0) {fuel : Nat} {a f : Int} (aligned : a % 4 = 0)
    (found : freeLoop mem first fuel a = some f) : f % 4 = 0 := by
  induction fuel generalizing a with
  | zero => cases found
  | succ fuel ih =>
    simp only [freeLoop] at found
    split_ifs at found
    · cases found; exact aligned
    · exact ih base found
    · have round := roundUpBounds (-(mem a))
      exact ih (by omega) found

end banks

def Coroutine (s : Store) : Prop :=
  if s.inPacket then Filling s else s.r4 = s.data.packetInLLD

theorem coroutineSame {s t : Store} (h : Coroutine s) (packet : t.data.packetInLLD = s.data.packetInLLD)
    (driver : t.r4 = s.r4 ∧ t.r10 = s.r10 ∧ t.inPacket = s.inPacket ∧ t.words = s.words) : Coroutine t := by
  unfold Coroutine at h ⊢
  rw [driver.2.2.1]
  split
  · rename_i on
    rw [if_pos on] at h
    exact fillingSame h packet driver
  · rename_i off
    rw [if_neg off] at h
    rw [driver.1, packet]
    exact h

/- The driver's buffers are at the write pointers of their banks, and were handed out below the
last safe position. -/
structure Placed (s : Store) : Prop where
  shaped : ∀ c, Shaped (s.data.bank c)
  address : 0 < (s.data.bank false).firstPtr
  apart : Bank.limit (s.data.bank false) ≤ (s.data.bank true).firstPtr
  driving : ∃ x, s.data.packetInLLD = (s.data.bank x).wrPtr ∧ (s.data.bank x).wrPtr ≤ (s.data.bank x).lastSafePtr ∧
    (s.data.nextBuffer = -1 ∧ s.data.refillBankNumber = !x ∨
      s.data.nextBuffer = (s.data.bank !x).wrPtr ∧ (s.data.bank !x).wrPtr ≤ (s.data.bank !x).lastSafePtr)
  coroutine : Coroutine s

section placed
variable {s t : Store} {x c : Bool}

theorem placedNumber (h : Placed s) (low : (s.data.bank c).wrPtr ≤ (s.data.bank c).lastSafePtr) :
    bankNumber s.data (s.data.bank c).wrPtr = c ∧ 0 < (s.data.bank c).wrPtr := by
  have address := h.address
  have apart := h.apart
  have first := (h.shaped false).size
  have wr := (h.shaped c).wrLow
  unfold Bank.limit maxPacket at apart
  unfold bankNumber
  cases c
  · simp; omega
  · simp; omega

theorem placedSame (h : Placed s) (shaped : ∀ c, Shaped (t.data.bank c))
    (bank : ∀ c, (t.data.bank c).firstPtr = (s.data.bank c).firstPtr ∧ (t.data.bank c).wrPtr = (s.data.bank c).wrPtr ∧
      (t.data.bank c).lastSafePtr = (s.data.bank c).lastSafePtr)
    (data : t.data.nextBuffer = s.data.nextBuffer ∧ t.data.packetInLLD = s.data.packetInLLD ∧
      t.data.refillBankNumber = s.data.refillBankNumber)
    (coroutine : Coroutine t) : Placed t := by
  obtain ⟨next, packet, refill⟩ := data
  obtain ⟨x, driving⟩ := h.driving
  refine ⟨shaped, by rw [(bank false).1]; exact h.address, ?_, ⟨x, ?_⟩, coroutine⟩
  · unfold Bank.limit
    rw [(bank false).2.2, (bank true).1]
    exact h.apart
  · rw [next, packet, refill, (bank x).2.1, (bank x).2.2, (bank !x).2.1, (bank !x).2.2]
    exact driving

theorem placedExact (h : Placed s) (low : (s.data.bank c).wrPtr ≤ (s.data.bank c).lastSafePtr)
    (clear : Clear (s.data.bank c)) : Exact s (s.data.bank c).wrPtr := by
  intro words odd short
  rw [(placedNumber h low).1]
  exact containedIff (h.shaped c) clear short

theorem placedSet (h : Placed s) {b : Bank} {next : Int} (shaped : Shaped b) (first : b.firstPtr = (s.data.bank x).firstPtr)
    (last : b.lastSafePtr = (s.data.bank x).lastSafePtr) (given : next ≠ -1 → next = b.wrPtr ∧ Clear b)
    (current : t.data.packetInLLD = (s.data.bank !x).wrPtr)
    (safe : (s.data.bank !x).wrPtr ≤ (s.data.bank !x).lastSafePtr)
    (bank : t.data.bank = fun y => if y = x then b else s.data.bank y) (nextBuffer : t.data.nextBuffer = next)
    (refill : next = -1 → t.data.refillBankNumber = x) (coroutine : Coroutine t) :
    Placed t ∧ (t.data.nextBuffer ≠ -1 → Exact t t.data.nextBuffer) := by
  have own : t.data.bank x = b := by rw [bank]; exact if_pos rfl
  have other : t.data.bank (!x) = s.data.bank !x := by rw [bank]; exact if_neg (by cases x <;> decide)
  have fields : ∀ y, Shaped (t.data.bank y) ∧ (t.data.bank y).firstPtr = (s.data.bank y).firstPtr ∧
      (t.data.bank y).lastSafePtr = (s.data.bank y).lastSafePtr := by
    intro y
    by_cases same : y = x
    · rw [same, own]; exact ⟨shaped, first, last⟩
    · rw [Bool.eq_not_of_ne same, other]; exact ⟨h.shaped _, rfl, rfl⟩
  have placed : Placed t := by
    refine ⟨fun y => (fields y).1, by rw [(fields false).2.1]; exact h.address, ?_, ⟨!x, ?_, ?_, ?_⟩, coroutine⟩
    · unfold Bank.limit
      rw [(fields false).2.2, (fields true).2.1]
      exact h.apart
    · rw [other]; exact current
    · rw [other]; exact safe
    · rw [Bool.not_not, own, nextBuffer]
      by_cases none : next = -1
      · exact .inl ⟨none, refill none⟩
      · exact .inr ⟨(given none).1, (given none).2.1⟩
  refine ⟨placed, fun some => ?_⟩
  rw [nextBuffer] at some ⊢
  obtain ⟨at_, clear⟩ := given some
  rw [at_, ← own]
  exact placedExact placed (by rw [own]; exact clear.1) (by rw [own]; exact clear)

theorem interruptPlaced (h : Placed s) (on : s.inPacket = true) (odd : Fin 4) (tailBits : BitVec 32) :
    Placed (miiInterruptHandler s odd tailBits) ∧
    (HandsOut s (miiInterruptHandler s odd tailBits) (.rx (.interrupt odd tailBits)) →
      Exact (miiInterruptHandler s odd tailBits) (miiInterruptHandler s odd tailBits).data.nextBuffer) := by
  have fill : Filling s := by
    have coroutine := h.coroutine
    rwa [Coroutine, if_pos on] at coroutine
  obtain ⟨x, current, low, next⟩ := h.driving
  rw [interruptCases fill]
  split
  · rename_i none
    exact ⟨placedSame h h.shaped (fun c => ⟨rfl, rfl, rfl⟩) ⟨rfl, rfl, rfl⟩ rfl,
      fun handed => absurd none handed.2⟩
  · rename_i some
    have next := next.resolve_left fun none => some none.1
    split
    · rename_i good
      obtain ⟨-, bank, nextBuffer, packet, refill, -⟩ := commitBufferEq (s := beforeCommit s odd tailBits)
        (current ▸ (placedNumber h low).1)
      obtain ⟨shaped, first, last, given⟩ := commitShaped (h.shaped x)

      have set := placedSet (t := taken s odd tailBits) h shaped first last given (packet.trans next.1) next.2 bank nextBuffer
        (fun none => refill.trans (if_pos none)) packet.symm
      exact ⟨set.1, fun handed => set.2 handed.2⟩
    · refine ⟨⟨h.shaped, h.address, h.apart, ⟨!x, next.1, next.2, .inr ?_⟩, rfl⟩, fun handed => ?_⟩
      · rw [Bool.not_not]; exact ⟨current, low⟩
      · exact absurd rfl handed.1

theorem receivePlaced (h : Placed s) {e : Rx} (taken : receiveUpTo maxTagged s e = some t) :
    Placed t ∧ (HandsOut s t (.rx e) → Exact t t.data.nextBuffer) := by
  have coroutine := h.coroutine
  unfold Coroutine at coroutine
  cases e with
  | preamble time =>
    simp only [receiveUpTo] at taken
    split at taken
    · cases taken
    rename_i off
    rw [if_neg off] at coroutine
    cases taken
    refine ⟨placedSame h h.shaped (fun c => ⟨rfl, rfl, rfl⟩) ⟨rfl, rfl, rfl⟩ ⟨?_, rfl, Nat.zero_le _⟩, False.elim⟩
    dsimp only
    rw [coroutine]
    simp
  | word word =>
    simp only [receiveUpTo] at taken
    split at taken
    case isFalse => cases taken
    rename_i more
    obtain ⟨on, short⟩ := more
    rw [if_pos on] at coroutine
    cases taken
    refine ⟨placedSame h h.shaped (fun c => ⟨rfl, rfl, rfl⟩) ⟨rfl, rfl, rfl⟩ ?_, False.elim⟩
    unfold Coroutine
    dsimp only
    rw [if_pos on]
    exact fillingWord coroutine short
  | interrupt odd tailBits =>
    simp only [receiveUpTo] at taken
    split at taken
    case isFalse => cases taken
    rename_i more
    cases taken
    exact interruptPlaced h more.1 odd tailBits

theorem restartPlaced (h : Placed s) : Placed (miiRestartBuffer s) ∧
    (HandsOut s (miiRestartBuffer s) .restart → Exact (miiRestartBuffer s) (miiRestartBuffer s).data.nextBuffer) := by
  by_cases none : s.data.nextBuffer = -1
  · obtain ⟨-, bank, nextBuffer, packet, refill, -, r4, inPacket, words, r10⟩ := restartEq none
    obtain ⟨x, current, low, next⟩ := h.driving
    have number : s.data.refillBankNumber = !x := by
      rcases next with ⟨-, number⟩ | ⟨some, safe⟩
      · exact number
      · have := (placedNumber h safe).2
        omega
    rw [number] at bank nextBuffer refill
    obtain ⟨shaped, first, last, given⟩ := restartShaped (h.shaped !x)
    have coroutine := coroutineSame h.coroutine packet ⟨r4, r10, inPacket, words⟩
    have set := placedSet h shaped first last given (by rw [Bool.not_not]; exact packet.trans current)
      (by rw [Bool.not_not]; exact low) bank nextBuffer (fun _ => refill) coroutine
    exact ⟨set.1, fun handed => set.2 handed.2⟩
  · have same : miiRestartBuffer s = s := if_pos none
    rw [same]
    exact ⟨h, fun handed => absurd handed.1 none⟩

theorem readPlaced (h : Placed s) (read : OnlyRead s t) : Placed t := by
  refine placedSame h (fun c => ?_) (fun c => ?_) read.data ?_
  · obtain ⟨r, same⟩ := read.bank c
    rw [same]
    exact ⟨(h.shaped c).base, (h.shaped c).last, (h.shaped c).size, (h.shaped c).freeAligned, (h.shaped c).wrAligned,
      (h.shaped c).wrLow⟩
  · obtain ⟨r, same⟩ := read.bank c
    rw [same]
    exact ⟨rfl, rfl, rfl⟩
  · exact coroutineSame h.coroutine read.data.2.1 read.driver

theorem freePlaced (h : Placed s) {passes : Nat} {base : Int} (freed : miiFreeInBufferUpTo passes s base = some t) :
    Placed t := by
  obtain ⟨f, found, rfl⟩ := Option.map_eq_some_iff.mp freed
  have own := h.shaped (bankNumber s.data base)
  have aligned := freeLoopAligned own.base own.freeAligned found
  refine placedSame h (fun c => ?_) (fun c => ?_) ⟨rfl, rfl, rfl⟩
    (coroutineSame h.coroutine rfl ⟨rfl, rfl, rfl, rfl⟩)
  all_goals
    simp only [MiiData.setBank]
    split
  · exact ⟨own.base, own.last, own.size, aligned, own.wrAligned, own.wrLow⟩
  · exact h.shaped c
  · rename_i same
    rw [same]
    exact ⟨rfl, rfl, rfl⟩
  · exact ⟨rfl, rfl, rfl⟩

end placed

theorem stepPlaced {s t : State} (h : Placed s.store) {e : Event} (taken : step s e = some t) :
    Placed t.store ∧ (HandsOut s.store t.store e → Exact t.store t.store.data.nextBuffer) := by
  cases e with
  | rx e =>
    obtain ⟨u, received, rfl⟩ := Option.map_eq_some_iff.mp taken
    exact receivePlaced h received
  | get =>
    cases taken
    exact ⟨readPlaced h (getReads s.store), False.elim⟩
  | free base passes =>
    simp only [step] at taken
    split at taken
    case isFalse => cases taken
    obtain ⟨u, freed, rfl⟩ := Option.map_eq_some_iff.mp taken
    exact ⟨freePlaced h freed, False.elim⟩
  | restart =>
    cases taken
    exact restartPlaced h
  | notified =>
    obtain ⟨u, seen, rfl⟩ := Option.map_eq_some_iff.mp taken
    exact ⟨readPlaced h (notifiedReads seen), False.elim⟩

theorem freeLoopUnique {mem : Int → Int} {first : Int} {n m : Nat} {a f g : Int} (one : freeLoop mem first n a = some f)
    (two : freeLoop mem first m a = some g) : f = g := by
  induction n generalizing m a with
  | zero => cases one
  | succ n ih =>
    cases m with
    | zero => cases two
    | succ m =>
      simp only [freeLoop] at one two
      split_ifs at one two
      · cases one; cases two; rfl
      · exact ih one two
      · exact ih one two

theorem stepSound {s t : State} (h : Inv s.store) {e : Event} (sound : Sound s e) (taken : step s e = some t) :
    Inv t.store := by
  cases e with
  | rx e =>
    obtain ⟨u, received, rfl⟩ := Option.map_eq_some_iff.mp taken
    refine receiveUpToKeeps h (Nat.le_refl _) (fun odd tailBits same => ?_) (fun odd tailBits same => ?_) received
    · subst same; exact sound.2
    · subst same; exact sound.1
  | get => cases taken; exact onlyReadKeeps h (getReads s.store)
  | free base passes =>
    simp only [step] at taken
    split at taken
    case isFalse => cases taken
    obtain ⟨u, freed, rfl⟩ := Option.map_eq_some_iff.mp taken
    obtain ⟨k, member, rfl⟩ := sound
    obtain ⟨c, member, unfreed⟩ := liveIff.mp member
    obtain ⟨v, freed', inv, -⟩ := freeKeeps h member unfreed
    obtain ⟨f, found, rfl⟩ := Option.map_eq_some_iff.mp freed
    obtain ⟨g, found', rfl⟩ := Option.map_eq_some_iff.mp freed'
    rw [freeLoopUnique found found']
    exact inv
  | restart => cases taken; exact restartKeeps h
  | notified =>
    obtain ⟨u, seen, rfl⟩ := Option.map_eq_some_iff.mp taken
    exact onlyReadKeeps h (notifiedReads seen)

theorem openExact {s : Store} (h : Inv s) {p : Int} (opened : Open s p) : Exact s p := by
  obtain ⟨x, driving⟩ := h.driving
  have exact_ : ∀ c, Clear (s.data.bank c) → Exact s (s.data.bank c).wrPtr := by
    intro c clear words odd short
    have within := bankWithin h.banks c
    rw [bankNumberIn h.banks (c := c) (by omega) (by omega)]
    exact containedIff (bankShaped (h.banks.each c)) clear short
  rcases opened with rfl | ⟨rfl, some⟩
  · rw [driving.current]
    exact exact_ x driving.room
  · obtain ⟨next, clear⟩ := driving.next.resolve_left fun none => some none.1
    rw [next]
    exact exact_ (!x) clear

theorem invPlaced {s : Store} (h : Inv s) : Placed s := by
  obtain ⟨x, driving⟩ := h.driving
  refine ⟨fun c => bankShaped (h.banks.each c), h.banks.address, h.banks.apart,
    ⟨x, driving.current, driving.room.1, driving.next.imp id fun ⟨next, clear⟩ => ⟨next, clear.1⟩⟩, ?_⟩
  unfold Coroutine
  split
  · rename_i on; exact h.filling on
  · rename_i off; exact h.idle (by simpa using off)

/-- Every buffer, when mii_buffer_init, miiCommitBuffer or mii_restart_buffer hands it out, holds
the packets that are ample and no others. In the runs that are sound it does for as long as the
driver has it. -/
theorem containedExactly (mem : Int → Int) {address : Int} {numberWords : Nat} (aligned : address % 4 = 0)
    (positive : 0 < address) (large : 1520 ≤ numberWords) (es : List Event) :
    (∀ p, Open (initial mem address numberWords).store p → Exact (initial mem address numberWords).store p) ∧
    Along step (fun s e => ∀ t, step s e = some t → HandsOut s.store t.store e → Exact t.store t.store.data.nextBuffer)
      (initial mem address numberWords) es ∧
    (Along step Sound (initial mem address numberWords) es →
      Always step (fun s => ∀ p, Open s.store p → Exact s.store p) (initial mem address numberWords) es) := by
  have init : Inv (initial mem address numberWords).store := invInitial mem aligned positive large
  refine ⟨fun p opened => openExact init opened, ?_, fun sound => ?_⟩
  · exact alongGuarded (I := fun s => Placed s.store) (C := fun _ _ => True) (fun _ _ _ h _ taken => (stepPlaced h taken).1)
      (fun _ _ _ h _ _ t taken => (stepPlaced h taken).2) (invPlaced init) (alongTrue _ _)
  · exact alwaysGuarded (I := fun s => Inv s.store) (C := Sound) (fun _ _ _ h now taken => stepSound h now taken)
      (fun _ h p opened => openExact h opened) init sound

def onePacket : List Event :=
  [.rx (.preamble 0), .rx (.word 0#32), .rx (.interrupt 0 0#32), .get, .free 24 2, .restart]

theorem containedExactlyOnePacket :
    (run step (initial (fun _ => 0) 16 1520) onePacket).isSome = true ∧
    Always step (fun s => ∀ p, Open s.store p → Exact s.store p) (initial (fun _ => 0) 16 1520) onePacket :=
  ⟨by decide +kernel, (containedExactly (fun _ => 0) (by decide) (by decide) (by decide) onePacket).2.2 (by decide +kernel)⟩

def framed (n : Nat) : List Event :=
  [.rx (.preamble 0), .rx (.word 0#32)] ++ List.replicate n (.rx (.word sealing)) ++ [.rx (.interrupt 0 0#32)]

theorem receiveTagged {s t : Store} {e : Rx} (taken : receive s e = some t) : receiveUpTo maxTagged s e = some t := by
  cases e with
  | preamble time => exact taken
  | word word =>
    simp only [receive, receiveUpTo] at taken
    split at taken
    · rename_i more
      cases taken
      exact if_pos ⟨more.1, Nat.le_trans more.2 (by decide)⟩
    · cases taken
  | interrupt odd tailBits =>
    simp only [receive, receiveUpTo] at taken
    split at taken
    · rename_i more
      cases taken
      exact if_pos ⟨more.1, Nat.le_trans more.2 (by decide)⟩
    · cases taken

theorem runTagged {s t : State} {es : List Rx} (reached : run StoreSafety.step s (es.map .rx) = some t) :
    run step s (es.map .rx) = some t := by
  induction es generalizing s with
  | nil => exact reached
  | cons e es ih =>
    obtain ⟨u, taken, rest⟩ := Option.bind_eq_some_iff.mp reached
    obtain ⟨v, received, rfl⟩ := Option.map_eq_some_iff.mp taken
    have next : step s (.rx e) = some { s with store := v } := by
      simp only [step, receiveTagged received, Option.map_some]
    rw [List.map_cons, run, next]
    exact ih rest

theorem framedRun {s : State} {n : Nat} (off : s.store.inPacket = false) (short : 4 * (n + 1) ≤ maxFrame) :
    run step s (framed n) = some (take n s) := by
  let es : List Rx := [.preamble 0, .word 0#32] ++ List.replicate n (.word sealing) ++ [.interrupt 0 0#32]
  have here : framed n = es.map .rx := by simp [framed, es]
  have there : frame n ++ [] = es.map .rx := by simp [frame, es]
  rw [here]
  refine runTagged ?_
  rw [← there, frameRun off short]
  rfl

theorem headerOverwritten : ¬ ∀ (mem : Int → Int) (address : Int) (numberWords : Nat) (es : List Event),
    address % 4 = 0 → 0 < address → 1520 ≤ numberWords →
    Always step (fun s => ∀ p, Open s.store p → ∀ (words : List (BitVec 32)) (odd : Fin 4),
      4 * words.length + odd.val ≤ maxTagged → Contained (s.store.data.bank (bankNumber s.store.data p)) p words)
      (initial mem address numberWords) es := by
  intro always
  have reached : run step (initial (fun _ => 0) 16 1520) (framed 374) = some (take 374 (initial (fun _ => 0) 16 1520)) :=
    framedRun rfl (by decide)
  obtain ⟨next, limit⟩ : (take 374 (initial (fun _ => 0) 16 1520)).store.data.nextBuffer = 1524 ∧
      Bank.limit ((take 374 (initial (fun _ => 0) 16 1520)).store.data.bank
        (bankNumber (take 374 (initial (fun _ => 0) 16 1520)).store.data 1524)) = 3056 := by decide +kernel
  obtain ⟨words, length⟩ : ∃ words : List (BitVec 32), words.length = 380 :=
    ⟨List.replicate 380 0#32, List.length_replicate⟩
  have contained := alwaysReached (always _ 16 1520 _ rfl (by decide) (by decide)) reached 1524
    (.inr ⟨next.symm, by decide⟩) words 0 (by rw [length]; decide)
  obtain ⟨-, inside, -⟩ := contained 0 0 0#32 3056 ((storesPacket ..).mpr (by omega))
  rw [limit] at inside
  omega

end ScEthernet.Lite.Footprint
