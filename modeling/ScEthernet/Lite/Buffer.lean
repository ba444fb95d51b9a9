import ScEthernet.Lib.WordMemory
import ScEthernet.Wire

/-! The receive store of the light driver: mii_client_user.xc, the interrupt handler and the
IN coroutine of miiLLD that fills the buffers. Addresses count bytes and every access is to a
whole word. The arrays of two in struct miiData are a record for each bank, Bank 0 being
`false`. -/
namespace ScEthernet.Lite.Buffer
open Lib.WordMemory Lib.BitOrder Lib.ShiftCrc Wire

def maxPacket : Int := 1530
/- (l + 3) & ~3 -/
def roundUp (l : Int) : Int := (l + 3) / 4 * 4

structure Bank where
  readPtr : Int
  wrPtr : Int
  freePtr : Int
  lastSafePtr : Int
  firstPtr : Int

structure MiiData where
  nextBuffer : Int
  packetInLLD : Int
  miiPacketsOverran : BitVec 32
  refillBankNumber : Bool
  bank : Bool → Bank
  notifyLast : Bool
  notifySeen : Bool
  miiPacketsReceived : BitVec 32
  miiPacketsCRCError : BitVec 32
  readBank : Bool

def MiiData.setBank (d : MiiData) (bn : Bool) (b : Bank) : MiiData :=
  { d with bank := fun c => if c = bn then b else d.bank c }

/- History: a committed packet by its header word; `words` are those miiLLD stored for it. -/
structure Pkt where
  hdr : Int
  length : Nat
  freed : Bool
  words : List (BitVec 32)

structure Store where
  data : MiiData
  mem : Int → Int
  /- What the interrupt routine has put in cNotifications. -/
  notifications : List Bool
  /- Registers of the IN coroutine, and whether it is between a preamble and the end of its packet. -/
  r4 : Int
  r10 : BitVec 32
  inPacket : Bool
  /- History: the words of that packet. -/
  words : List (BitVec 32)
  /- History: for each bank the packets from the free pointer on, and all there ever were. -/
  queue : Bool → List Pkt
  committed : Bool → List Pkt

def miiBufferInit (mem : Int → Int) (address : Int) (numberWords : Nat) : Store :=
  let first1 := address + ((2 * numberWords / 4 * 4 : Nat) : Int)
  let bank0 : Bank := ⟨address, address + 4, address, first1 - maxPacket, address⟩
  let bank1 : Bank := ⟨first1, first1 + 4, first1, address + 4 * numberWords - maxPacket, first1⟩
  { data := ⟨bank1.wrPtr, bank0.wrPtr, 0#32, false, fun b => if b then bank1 else bank0, true, true, 0#32, 0#32, false⟩
    mem := store (store mem address 1) first1 1
    notifications := []
    r4 := bank0.wrPtr, r10 := 0#32, inPacket := false, words := []
    queue := fun _ => [], committed := fun _ => [] }

def load (mem : Int → Int) (a : Int) : BitVec 32 := BitVec.ofInt 32 (mem a)

/- The crc8shr calls of a case in CRCBad. -/
def crc8shrs : Nat → BitVec 32 → BitVec 32 → BitVec 32
  | 0, partCRC, _ => partCRC
  | n + 1, partCRC, tailBits =>
    let (partCRC, tailBits) := crc8shr partCRC tailBits
    crc8shrs n partCRC tailBits

/- The switch of CRCBad. -/
def tailCRC : Nat → BitVec 32 → BitVec 32 → BitVec 32
  | 0, partCRC, _ => partCRC
  | 1, partCRC, tailBits => crc8shrs 1 partCRC (tailBits >>> 24)
  | 2, partCRC, tailBits => crc8shrs 2 partCRC (tailBits >>> 16)
  | 3, partCRC, tailBits => crc8shrs 3 partCRC (tailBits >>> 8)
  | _, partCRC, _ => partCRC

def crcBad (mem : Int → Int) (base last : Int) : Int :=
  let tailBits := load mem (last + 4)
  let tailLength := load mem (last + 8)
  let partCRC := load mem (last + 12)
  let length := last - base + (tailLength >>> 3).toNat
  if ~~~(tailCRC (tailLength >>> 3).toNat partCRC tailBits) = 0#32 then length else 0

def bankNumber (d : MiiData) (base : Int) : Bool := !decide (base < (d.bank true).firstPtr)

def miiNotify (s : Store) : Store :=
  if s.data.notifyLast = s.data.notifySeen then
    { s with data := { s.data with notifyLast := !s.data.notifyLast }
             notifications := s.notifications ++ [!s.data.notifyLast] }
  else s

/- miiCommitBuffer on its bank: the bank, the memory and the new nextBuffer. -/
def commitBank (b : Bank) (mem : Int → Int) (length : Int) : Bank × (Int → Int) × Int :=
  let mem := store mem (b.wrPtr - 4) length
  let b := { b with wrPtr := b.wrPtr + roundUp length + 4 }
  if b.wrPtr > b.lastSafePtr then
    if b.freePtr ≠ b.firstPtr then
      let mem := store mem (b.wrPtr - 4) 0
      let b := { b with wrPtr := b.firstPtr + 4 }
      let mem := store mem (b.wrPtr - 4) 1
      if b.freePtr - b.wrPtr ≥ maxPacket then (b, mem, b.wrPtr) else (b, mem, -1)
    else (b, store mem (b.wrPtr - 4) 1, -1)
  else
    let mem := store mem (b.wrPtr - 4) 1
    if b.wrPtr > b.freePtr ∨ b.freePtr - b.wrPtr ≥ maxPacket then (b, mem, b.wrPtr) else (b, mem, -1)

def miiCommitBuffer (s : Store) (currentBuffer length : Int) : Store :=
  let bn := bankNumber s.data currentBuffer
  let (b, mem, next) := commitBank (s.data.bank bn) s.mem length
  let k : Pkt := ⟨(s.data.bank bn).wrPtr - 4, length.toNat, false, s.words⟩
  let s := miiNotify s
  { s with
    mem := mem
    data := { s.data.setBank bn b with
      nextBuffer := next
      refillBankNumber := if next = -1 then bn else s.data.refillBankNumber }
    queue := fun c => if c = bn then s.queue c ++ [k] else s.queue c
    committed := fun c => if c = bn then s.committed c ++ [k] else s.committed c }

def miiRejectBuffer (s : Store) (currentBuffer : Int) : Store :=
  { s with data := { s.data with nextBuffer := currentBuffer } }

/- mii_restart_buffer on the bank to refill. -/
def restartBank (b : Bank) (mem : Int → Int) : Bank × (Int → Int) × Int :=
  if b.wrPtr > b.lastSafePtr then
    if b.freePtr ≠ b.firstPtr then
      let mem := store mem (b.wrPtr - 4) 0
      let b := { b with wrPtr := b.firstPtr + 4 }
      let mem := store mem (b.wrPtr - 4) 1
      if b.freePtr - b.wrPtr ≥ maxPacket then (b, mem, b.wrPtr) else (b, mem, -1)
    else (b, mem, -1)
  else if b.wrPtr > b.freePtr ∨ b.freePtr - b.wrPtr ≥ maxPacket then (b, mem, b.wrPtr) else (b, mem, -1)

def miiRestartBuffer (s : Store) : Store :=
  if s.data.nextBuffer ≠ -1 then s
  else
    let bn := s.data.refillBankNumber
    let (b, mem, next) := restartBank (s.data.bank bn) s.mem
    { s with mem := mem, data := { s.data.setBank bn b with nextBuffer := next } }

/- The while loop, from the free pointer on. -/
def freeLoop (mem : Int → Int) (firstPtr : Int) : Nat → Int → Option Int
  | 0, _ => none
  | fuel + 1, freePtr =>
    let l := mem freePtr
    if l > 0 then some freePtr
    else if l = 0 then freeLoop mem firstPtr fuel firstPtr
    else freeLoop mem firstPtr fuel (freePtr + (roundUp (-l) + 4))

/- A pass goes past a packet or to the head, so the bytes of the bank bound the passes. -/
def freeFuel (b : Bank) : Nat := (b.lastSafePtr - b.firstPtr).toNat

def reclaim : List Pkt → List Pkt
  | [] => []
  | k :: ks => if k.freed then reclaim ks else k :: ks

def markFreed (hdr : Int) (q : List Pkt) : List Pkt :=
  q.map (fun k => if k.hdr = hdr then { k with freed := true } else k)

/- mii_free_in_buffer where its loop ends within `fuel` passes. -/
def miiFreeInBufferUpTo (fuel : Nat) (s : Store) (base : Int) : Option Store :=
  let bn := bankNumber s.data base
  let b := s.data.bank bn
  let base := base - 4
  let mem := store s.mem (base - 4) (-(s.mem (base - 4)))
  (freeLoop mem b.firstPtr fuel b.freePtr).map (fun f =>
    { s with
      mem := mem
      data := s.data.setBank bn { b with freePtr := f }
      queue := fun c => if c = bn then reclaim (markFreed (base - 4) (s.queue c)) else s.queue c })

def miiFreeInBuffer (s : Store) (base : Int) : Option Store :=
  miiFreeInBufferUpTo (freeFuel (s.data.bank (bankNumber s.data base))) s base

structure Obtained where
  a : Int
  nBytes : Int
  timeStamp : Int

def getFrom (s : Store) : Store × Option Obtained :=
  let d := { s.data with readBank := !s.data.readBank }
  let b := d.bank d.readBank
  let nBytes := s.mem b.readPtr
  let b := if nBytes = 0 then { b with readPtr := b.firstPtr } else b
  let nBytes := s.mem b.readPtr
  if nBytes ≠ 1 then
    let retVal := b.readPtr + 4
    let readPtr := b.readPtr + (roundUp nBytes + 4)
    let readPtr := if s.mem readPtr = 0 then b.firstPtr else readPtr
    ({ s with data := d.setBank d.readBank { b with readPtr := readPtr } },
      some ⟨retVal + 4, nBytes - 4, s.mem retVal⟩)
  else ({ s with data := d.setBank d.readBank b }, none)

def miiGetInBuffer (s : Store) : Store × Obtained :=
  match getFrom s with
  | (s, some o) => (s, o)
  | (s, none) =>
    match getFrom s with
    | (s, some o) => (s, o)
    | (s, none) => (s, ⟨0, 0, 0⟩)

/- mii_notified -/
def miiNotified (s : Store) : Option Store :=
  match s.notifications with
  | [] => none
  | seen :: rest => some { s with data := { s.data with notifySeen := seen }, notifications := rest }

def packetGood (s : Store) (base last : Int) : Store × Int :=
  let length := crcBad s.mem base last
  if length = 0 then
    ({ s with data := { s.data with miiPacketsCRCError := s.data.miiPacketsCRCError + 1#32 } }, 0)
  else ({ s with data := { s.data with miiPacketsReceived := s.data.miiPacketsReceived + 1#32 } }, length)

def miiClientUser (s : Store) (base last : Int) : Store :=
  let (s, length) := packetGood s base last
  if length ≠ 0 then miiCommitBuffer s base length else miiRejectBuffer s base

/- The interrupt at the end of a packet. The 0 in the channel makes miiLLD store the rest. -/
def miiRxLastBits (s : Store) (odd : Fin 4) (tailBits : BitVec 32) : Store :=
  let mem := store s.mem (s.r4 + 8) (8 * odd.val : Nat)
  let mem := store mem (s.r4 + 4) tailBits.toInt
  { s with mem := store mem (s.r4 + 12) s.r10.toInt }

def miiInterruptHandler (s : Store) (odd : Fin 4) (tailBits : BitVec 32) : Store :=
  let last := s.r4
  let s := miiRxLastBits s odd tailBits
  let base := s.data.packetInLLD
  let s :=
    if s.data.nextBuffer = -1 then
      { s with data := { s.data with miiPacketsOverran := s.data.miiPacketsOverran + 1#32 } }
    else miiClientUser { s with data := { s.data with packetInLLD := s.data.nextBuffer } } base last
  { s with r4 := s.data.packetInLLD, inPacket := false }

inductive Rx where
  | preamble (time : Int)
  | word (word : BitVec 32)
  | interrupt (odd : Fin 4) (tailBits : BitVec 32)

/- Bytes of a packet with its FCS, untagged and tagged. -/
def maxFrame : Nat := 1518
def maxTagged : Nat := 1522

def receiveUpTo (limit : Nat) (s : Store) : Rx → Option Store
  | .preamble time =>
    if s.inPacket then none
    else some { s with mem := store s.mem s.r4 time, r10 := seed, inPacket := true, words := [] }
  | .word word =>
    if s.inPacket ∧ 4 * (s.words.length + 1) ≤ limit then
      some { s with mem := store s.mem (s.r4 + 4) word.toInt, r10 := crc32 s.r10 word, r4 := s.r4 + 4
                    words := s.words ++ [word] }
    else none
  | .interrupt odd tailBits =>
    if s.inPacket ∧ 4 * s.words.length + odd.val ≤ limit then
      some (miiInterruptHandler s odd tailBits)
    else none

def receive (s : Store) (e : Rx) : Option Store := receiveUpTo maxFrame s e

/- The IN coroutine looks at no length. -/
def miiRxd (s : Store) : Rx → Option Store
  | .preamble time =>
    if s.inPacket then none
    else some { s with mem := store s.mem s.r4 time, r10 := seed, inPacket := true, words := [] }
  | .word word =>
    if s.inPacket then
      some { s with mem := store s.mem (s.r4 + 4) word.toInt, r10 := crc32 s.r10 word, r4 := s.r4 + 4
                    words := s.words ++ [word] }
    else none
  | .interrupt odd tailBits => if s.inPacket then some (miiInterruptHandler s odd tailBits) else none

/- The packet has no more than `limit` bytes so far. -/
def Short (limit : Nat) (s : Store) : Rx → Prop
  | .preamble _ => True
  | .word _ => 4 * (s.words.length + 1) ≤ limit
  | .interrupt odd _ => 4 * s.words.length + odd.val ≤ limit

instance (limit s) : ∀ e, Decidable (Short limit s e)
  | .preamble _ => inferInstanceAs (Decidable True)
  | .word _ => inferInstanceAs (Decidable (4 * (s.words.length + 1) ≤ limit))
  | .interrupt odd _ => inferInstanceAs (Decidable (4 * s.words.length + odd.val ≤ limit))

theorem shortReceived {limit : Nat} {s : Store} {e : Rx} (short : Short limit s e) : miiRxd s e = receiveUpTo limit s e := by
  cases e with
  | preamble time => rfl
  | word word =>
    unfold Short at short
    simp only [miiRxd, receiveUpTo, short, and_true]
  | interrupt odd tailBits =>
    unfold Short at short
    simp only [miiRxd, receiveUpTo, short, and_true]

end ScEthernet.Lite.Buffer
