import ScEthernet.Lite.Server
import ScEthernet.Lib.ChannelTokens
import Mathlib.Algebra.Group.Nat.Defs

/-! safe_mac_rx_lite and the buffer it fills, at the other end of the channel from the_server. -/
namespace ScEthernet.Lite.SafeRx
open Lib.BitOrder Lib.ChannelTokens Lib.Runs Buffer StoreInv BankChain AppChannel Server

/-! The server. -/

def packetWords (mem : Int → Int) (a nBytes : Int) : List (BitVec 32) :=
  (List.range ((nBytes + 3) / 4).toNat).map (fun i : Nat => load mem (a + 4 * i))

/- outuint(appIn, nBytes), and behind the confirmation the loop over the words. -/
def sendPacket (mem : Int → Int) (a nBytes : Int) : List Token :=
  outInt (BitVec.ofInt 32 nBytes) ++ (packetWords mem a nBytes).flatMap outInt

def sendStatus (newStatus : BitVec 32) : List Token := outInt (-1#32) ++ outInt newStatus ++ outInt 0#32

/-! The client. Its confirmation goes the other way over the channel. -/

structure Client where
  buffer : Nat → BitVec 8
  len : BitVec 32
  srcPort : BitVec 32

/- cIn :> (buffer, unsigned int[]) [i] -/
def storeWord (i : Nat) (x : BitVec 32) (buffer : Nat → BitVec 8) : Nat → BitVec 8 :=
  fun j => if j / 4 = i then x.extractLsb' (8 * (j % 4)) 8 else buffer j

def readWords : Nat → Nat → (Nat → BitVec 8) → Reader (Nat → BitVec 8)
  | 0, _, buffer => pure buffer
  | count + 1, i, buffer => do
    let x ← inInt
    readWords count (i + 1) (storeWord i x buffer)

def safeMacRxLite (c : Client) (_n : Int) : Reader Client := do
  let len ← inInt
  if len = -1#32 then
    let status ← inInt
    let srcPort ← inInt
    pure ⟨fun j => if j = 0 then status.setWidth 8 else c.buffer j, len, srcPort⟩
  else
    let buffer ← readWords ((len + 3#32) >>> 2).toNat 0 c.buffer
    pure ⟨buffer, len, 0#32⟩

def macRxLite (c : Client) : Reader Client := safeMacRxLite c (-1)

/-! What the buffer holds behind the call. -/

def filled (words : List (BitVec 32)) (i : Nat) (buffer : Nat → BitVec 8) : Nat → BitVec 8 :=
  fun j => if 4 * i ≤ j then ((bytes words)[j - 4 * i]?).getD (buffer j) else buffer j

def frameBytes (mem : Int → Int) (a : Int) (length : Nat) : List (BitVec 8) :=
  (bytes (packetWords mem a length)).take length

/- The call takes what was sent, fills the buffer below the limit and leaves the rest alone. -/
def LimitKept (sent : List Token) (frame : List (BitVec 8)) (c : Client) (n : Int) : Prop :=
  ∃ d, Reads (safeMacRxLite c n) sent d ∧
    (∀ j : Nat, j < frame.length → (j : Int) < n → frame[j]? = some (d.buffer j)) ∧
    ∀ j : Nat, n ≤ j → d.buffer j = c.buffer j

section client
variable {c d : Client} {n : Int}

theorem bytesOfAt (x : BitVec 32) {k : Nat} (small : k < 4) : (bytesOf x)[k]? = some (x.extractLsb' (8 * k) 8) := by
  match k, small with
  | 0, _ | 1, _ | 2, _ | 3, _ => rfl

theorem filledNil (i : Nat) (buffer : Nat → BitVec 8) : filled [] i buffer = buffer := by
  funext j
  simp [filled, bytes]

theorem filledCons (x : BitVec 32) (words : List (BitVec 32)) (i : Nat) (buffer : Nat → BitVec 8) :
    filled words (i + 1) (storeWord i x buffer) = filled (x :: words) i buffer := by
  funext j
  have parts : bytes (x :: words) = bytesOf x ++ bytes words := rfl
  have length : (bytesOf x).length = 4 := rfl
  rcases Nat.lt_or_ge j (4 * i) with before | behind
  · have other : j / 4 ≠ i := by omega
    rw [filled, filled, if_neg (by omega), if_neg (by omega), storeWord, if_neg other]
  · rcases Nat.lt_or_ge j (4 * (i + 1)) with here | later
    · have place : j / 4 = i := by omega
      have offset : j - 4 * i = j % 4 := by omega
      rw [filled, filled, if_neg (by omega), if_pos behind, storeWord, if_pos place, parts, offset,
        List.getElem?_append_left (by omega), bytesOfAt x (by omega), Option.getD_some]
    · have other : j / 4 ≠ i := by omega
      have offset : j - 4 * i - 4 = j - 4 * (i + 1) := by omega
      rw [filled, filled, if_pos later, if_pos behind, storeWord, if_neg other, parts,
        List.getElem?_append_right (by omega), length, offset]

theorem readWordsReads (words : List (BitVec 32)) (i : Nat) (buffer : Nat → BitVec 8) :
    Reads (readWords words.length i buffer) (words.flatMap outInt) (filled words i buffer) := by
  induction words generalizing i buffer with
  | nil =>
    rw [filledNil]
    exact readsPure buffer
  | cons x words ih =>
    rw [← filledCons]
    exact readsBind (readsInt x) (ih (i + 1) (storeWord i x buffer))

theorem messageReads {m : Message} (fits : Fits m) (packet : m.len ≠ -1#32) (c : Client) (n : Int) :
    Reads (safeMacRxLite c n) (outInt m.len ++ m.words.flatMap outInt) ⟨filled m.words 0 c.buffer, m.len, 0#32⟩ := by
  have count : ((m.len + 3#32) >>> 2).toNat = m.words.length := by
    rw [← fits, wanted, if_neg packet]
  rw [← List.append_nil (m.words.flatMap outInt)]
  refine readsBind (readsInt m.len) ?_
  rw [if_neg packet, count]
  exact readsBind (readWordsReads m.words 0 c.buffer) (readsPure _)

theorem statusReads (newStatus : BitVec 32) (c : Client) (n : Int) : Reads (safeMacRxLite c n) (sendStatus newStatus)
    ⟨fun j => if j = 0 then newStatus.setWidth 8 else c.buffer j, -1#32, 0#32⟩ := by
  rw [sendStatus, List.append_assoc, ← List.append_nil (outInt 0#32)]
  refine readsBind (readsInt (-1#32)) ?_
  rw [if_pos rfl]
  exact readsBind (readsInt newStatus) (readsBind (readsInt 0#32) (readsPure _))

theorem readsOnce {α : Type} {r : Reader α} {sent : List Token} {x y : α} (one : Reads r sent x) (other : Reads r sent y) :
    x = y := by
  have same := (one []).symm.trans (other [])
  exact congrArg Prod.fst (Option.some.inj same)

end client

section packet
variable {mem : Int → Int} {a : Int} {length : Nat}

theorem packetWordsLength (mem : Int → Int) (a : Int) (length : Nat) :
    (packetWords mem a length).length = (length + 3) / 4 := by
  rw [packetWords, List.length_map, List.length_range]
  omega

theorem packetFits (small : length + 3 < 2 ^ 31) :
    Fits ⟨BitVec.ofInt 32 length, packetWords mem a length⟩ ∧ BitVec.ofInt 32 (length : Int) ≠ -1#32 := by
  have packet : BitVec.ofInt 32 (length : Int) ≠ -1#32 := by
    intro same
    have value := congrArg BitVec.toNat same
    simp at value
    omega
  refine ⟨?_, packet⟩
  rw [Fits, wanted, if_neg packet, packetWordsLength, BitVec.ofInt_natCast]
  simp only [BitVec.toNat_ushiftRight, BitVec.toNat_add, BitVec.toNat_ofNat, Nat.shiftRight_eq_div_pow]
  omega

theorem packetReads (small : length + 3 < 2 ^ 31) (c : Client) (n : Int) :
    Reads (safeMacRxLite c n) (sendPacket mem a length)
      ⟨filled (packetWords mem a length) 0 c.buffer, BitVec.ofInt 32 length, 0#32⟩ := by
  obtain ⟨fits, packet⟩ := @packetFits mem a length small
  exact messageReads fits packet c n

theorem frameFilled (mem : Int → Int) (a : Int) (buffer : Nat → BitVec 8) {j : Nat} (inside : j < length) :
    (frameBytes mem a length)[j]? = some (filled (packetWords mem a length) 0 buffer j) := by
  have room : j < (bytes (packetWords mem a length)).length := by
    rw [bytesLength, packetWordsLength]
    omega
  rw [frameBytes, List.getElem?_take, if_pos inside, filled, if_pos (by omega), Nat.mul_zero, Nat.sub_zero,
    List.getElem?_eq_getElem room, Option.getD_some]

theorem keptEqual (small : length + 3 < 2 ^ 31) {c : Client} {n : Int}
    (kept : LimitKept (sendPacket mem a length) (frameBytes mem a length) c n) {j : Nat} (above : n ≤ j)
    (inside : j < 4 * ((length + 3) / 4)) : (bytes (packetWords mem a length))[j]? = some (c.buffer j) := by
  obtain ⟨d, taken, -, same⟩ := kept
  have room : j < (bytes (packetWords mem a length)).length := by
    rw [bytesLength, packetWordsLength]
    exact inside
  have here : filled (packetWords mem a length) 0 c.buffer j = c.buffer j := by
    rw [readsOnce taken (packetReads small c n)] at same
    exact same j above
  rw [filled, if_pos (by omega), Nat.mul_zero, Nat.sub_zero] at here
  rw [List.getElem?_eq_getElem room] at here ⊢
  exact congrArg some here

/-- The bytes that fill up the last word count against the limit too. -/
theorem limitKeptIff (mem : Int → Int) (a : Int) {length : Nat} (small : length + 3 < 2 ^ 31) (c : Client) (n : Int) :
    LimitKept (sendPacket mem a length) (frameBytes mem a length) c n ↔
      ∀ j : Nat, n ≤ j → j < 4 * ((length + 3) / 4) → (bytes (packetWords mem a length))[j]? = some (c.buffer j) := by
  constructor
  · intro kept j above inside
    exact keptEqual small kept above inside
  · intro equal
    refine ⟨_, packetReads small c n, fun j inside _ => frameFilled mem a c.buffer ?_, fun j above => ?_⟩
    · rw [frameBytes, List.length_take] at inside
      omega
    · change filled (packetWords mem a length) 0 c.buffer j = c.buffer j
      rw [filled, if_pos (by omega), Nat.mul_zero, Nat.sub_zero]
      rcases Nat.lt_or_ge j (4 * ((length + 3) / 4)) with inside | past
      · rw [equal j above inside, Option.getD_some]
      · rw [List.getElem?_eq_none (by rw [bytesLength, packetWordsLength]; exact past), Option.getD_none]

def ramp : Int → Int := fun _ => 0x04030201
def blank : Client := ⟨fun _ => 0#8, 0#32, 0#32⟩

theorem limitKeptWhole : LimitKept (sendPacket ramp 0 (62 : Nat)) (frameBytes ramp 0 62) blank 64 :=
  (limitKeptIff ramp 0 (by decide) blank 64).mpr fun j above inside => by omega

theorem limitPassed : ¬ LimitKept (sendPacket ramp 0 (60 : Nat)) (frameBytes ramp 0 60) blank 32 := by
  intro kept
  have same := keptEqual (by decide) kept (j := 32) (by decide) (by decide)
  exact absurd same (by decide)

end packet

section run
variable {s : State} {held waiting : Bool → List Pkt} {phase : Phase}

theorem sendingPacket (h : Inv s held waiting phase) {i : Nat} (here : s.pc = .sending i) :
    ∃ length : Nat, s.nBytes = length ∧ length + 4 ≤ maxTagged ∧
      phase = .moving ⟨BitVec.ofInt 32 length, packetWords s.store.mem s.a length⟩ i := by
  have stocked := h.stocked
  have at_ := h.at_
  rw [here] at stocked
  simp only [At, here] at at_
  obtain ⟨c, k, ⟨-, a, nBytes, rfl⟩, rfl⟩ := at_
  obtain ⟨-, intact⟩ := heldFits stocked
  have member : k ∈ s.store.queue c := by
    rw [stocked.fifo.split, holding, if_pos rfl]
    exact List.mem_append_left _ List.mem_cons_self
  have slot := (bankSlot (stocked.fifo.inv.banks.each c) member).1
  obtain ⟨length, whole⟩ := Nat.exists_eq_add_of_le slot.low
  have size : s.nBytes = length := by omega
  have words : (message k.length k.words).words = packetWords s.store.mem s.a length := by
    apply List.ext_getElem?
    intro j
    rcases Nat.lt_or_ge j ((length + 3) / 4) with inside | past
    · rw [intactWord intact (by omega), packetWords, List.getElem?_map, List.getElem?_range (by omega), a]
      rfl
    · have count : (message k.length k.words).words.length ≤ (k.length - 1) / 4 := List.length_take_le _ _
      rw [List.getElem?_eq_none (by omega), List.getElem?_eq_none (by rw [packetWordsLength]; exact past)]
  have len : (message k.length k.words).len = BitVec.ofInt 32 length := by
    rw [← size, nBytes]
    rfl
  refine ⟨length, size, by have high := slot.high; omega, ?_⟩
  rw [← words, ← len]

def Fills (s : State) : Prop := ∀ i, s.pc = .sending i → ∃ d : Client → Client, ∀ c n,
  Reads (safeMacRxLite c n) (sendPacket s.store.mem s.a s.nBytes) (d c)

theorem runFills {smi : Bool} {mem : Int → Int} {address : Int} {numberWords : Nat} (aligned : address % 4 = 0)
    (positive : 0 < address) (large : 1532 ≤ numberWords) {es : List Event}
    (settled : Along (step smi) (Settled smi) (initial mem address numberWords) es) :
    Always (step smi) Fills (initial mem address numberWords) es := by
  refine alwaysGuarded (I := fun s => ∃ held waiting phase, Inv s held waiting phase) ?_ ?_ ?_ settled
  · rintro s e t ⟨held, waiting, phase, h⟩ settled taken
    exact stepInv h settled taken
  · rintro s ⟨held, waiting, phase, h⟩ i here
    obtain ⟨length, size, high, -⟩ := sendingPacket h here
    unfold maxTagged at high
    rw [size]
    exact ⟨fun c => ⟨filled (packetWords s.store.mem s.a length) 0 c.buffer, BitVec.ofInt 32 length, 0#32⟩,
      fun c n => packetReads (by omega) c n⟩
  · exact ⟨_, _, _, initialInv mem aligned positive large⟩

end run

end ScEthernet.Lite.SafeRx
