import ScEthernet.Lib.WordMemory

/-! mii_malloc.c and the packet header of mii_full.h. Every pointer of the pool is an
`int *`, so addresses count words and a `(char *)` difference is four times theirs; sizes
keep the source's bytes. Hardware locks are on (ETHERNET_USE_HARDWARE_LOCKS), so
mempool_info_t has five words and a call of mii_free is one step. -/
namespace ScEthernet.Full.Malloc
open Lib.WordMemory

inductive Field where
  | length | timestamp | filterResult | srcPort | timestampId
  | stage | tcount | crc | forwarding | userData
  deriving DecidableEq, Repr

/- The BUF_OFFSET constants. -/
def Field.offset : Field → Nat
  | .length => 0
  | .timestamp => 1
  | .filterResult => 2
  | .srcPort => 3
  | .timestampId => 4
  | .stage => 5
  | .tcount => 6
  | .crc => 7
  | .forwarding => 8
  | .userData => 9

def bufDataOffset : Int := 10
def mallocHdrSize : Int := 8
def mempoolInfoSize : Int := 20
def miiPacketHeaderSize : Int := 40
def minUsage : Int := miiPacketHeaderSize + mallocHdrSize + 4 * 10
def ethernetMaxTxLpPacketSize : Int := 1518
def miiMallocFullPacketSizeLp : Int := miiPacketHeaderSize + 8 + ethernetMaxTxLpPacketSize

structure Pool where
  /- Address of the mempool_info_t, as every header of the pool records it. -/
  info : Int
  rdptr : Int
  wrptr : Int
  start : Int
  /- The source's `end`: the word behind the ring, which holds the wrap pointer. -/
  stop : Int
  rdptrAtStart : Int
  mem : Int → Int

def miiInitMempool (mem : Int → Int) (mempool : Int) (size : Int) : Pool :=
  let start := mempool + mempoolInfoSize / 4
  let stop := mempool + size / 4 - 1
  { info := mempool, rdptr := start, wrptr := start, start := start, stop := stop
    rdptrAtStart := 1, mem := store (store mem start 0) stop start }

def miiGetWrapPtr (p : Pool) : Int := p.stop

def getField (f : Field) (p : Pool) (buf : Int) : Int := p.mem (buf + f.offset)
def setField (f : Field) (p : Pool) (buf x : Int) : Pool :=
  { p with mem := store p.mem (buf + f.offset) x }

def miiPacketGetLength := getField .length
def miiPacketGetTimestamp := getField .timestamp
def miiPacketGetTimestampId := getField .timestampId
def miiPacketGetStage := getField .stage
def miiPacketGetTcount := getField .tcount
def miiPacketGetForwarding := getField .forwarding
def miiPacketSetLength := setField .length
def miiPacketSetTimestamp := setField .timestamp
def miiPacketSetTimestampId := setField .timestampId
def miiPacketSetStage := setField .stage
def miiPacketSetTcount := setField .tcount
def miiPacketSetCrc := setField .crc
def miiPacketSetForwarding := setField .forwarding

def miiPacketGetDataPtr (buf : Int) : Int := buf + bufDataOffset

/- The increment of a data pointer: past the last word of the ring it is reloaded from the
word at `wrap_ptr`. -/
def nextDataPtr (p : Pool) (dptr : Int) : Int :=
  if dptr + 1 = miiGetWrapPtr p then p.mem (dptr + 1) else dptr + 1

/- Bytes between the write and the read pointer; all of the ring when they are equal. -/
def spaceLeft (p : Pool) : Int :=
  let space := 4 * (p.rdptr - p.wrptr)
  if space ≤ 0 then space + 4 * (p.stop - p.start) else space

/- With the read pointer at the start the write pointer may not come near the end: its wrap
would make the ring look empty. -/
def spaceWanted (p : Pool) (minSize : Int) : Int :=
  if p.rdptr = p.start then minSize + minUsage else minSize

def miiReserveAtLeast (p : Pool) (minSize : Int) : Pool × Int :=
  if spaceLeft p < spaceWanted p minSize then (p, 0)
  else ({ p with mem := store p.mem (p.wrptr + 1) p.info }, p.wrptr + mallocHdrSize / 4)

/- C compares an int with a size_t as unsigned: a negative int is never the smaller. -/
def belowUnsigned (x size : Int) : Prop := 0 ≤ x ∧ x < size
instance (x size) : Decidable (belowUnsigned x size) := by unfold belowUnsigned; infer_instance

/- Returns the pool, the buffer and the value left in `end_ptr`. -/
def miiReserve (p : Pool) (endPtr : Int) : Pool × Int × Int :=
  if p.rdptr > p.wrptr ∧ belowUnsigned (4 * (p.rdptr - p.wrptr)) minUsage then (p, 0, endPtr)
  else ({ p with mem := store p.mem (p.wrptr + 1) p.info }, p.wrptr + mallocHdrSize / 4, p.rdptr)

/- The end of mii_commit, once `end_ptr` is settled. `forwards` is the condition
NUM_ETHERNET_PORTS > 1 without DISABLE_ETHERNET_PORT_FORWARDING. -/
def commitAt (forwards : Bool) (p : Pool) (buf endPtr : Int) : Pool × Int :=
  let p := miiPacketSetStage p buf 0
  let p := if forwards then miiPacketSetForwarding p buf 0 else p
  ({ p with mem := store p.mem (buf - mallocHdrSize / 4) endPtr, wrptr := endPtr }, 1)

def miiCommit (forwards : Bool) (p : Pool) (buf endPtr : Int) : Pool × Int :=
  if belowUnsigned (4 * (p.stop - endPtr)) minUsage then
    if p.rdptrAtStart ≠ 0 then (p, 0) else commitAt forwards p buf p.start
  else commitAt forwards p buf endPtr

def miiFreeLoop : Nat → Pool → Int → Option Pool
  | 0, _, _ => none
  | fuel + 1, p, hdr =>
    if hdr = p.rdptr then
      let next := if p.mem hdr < 0 then -p.mem hdr else p.mem hdr
      let p := { p with rdptr := next, rdptrAtStart := if next = p.start then 1 else 0
                        mem := store p.mem hdr 0 }
      if next = p.wrptr ∨ p.mem next > 0 then some p else miiFreeLoop fuel p next
    else some { p with mem := store p.mem hdr (-p.mem hdr) }

/- A pass of the loop reclaims a packet, so the words of the ring bound the passes. -/
def miiFree (p : Pool) (buf : Int) : Option Pool :=
  miiFreeLoop ((p.stop - p.start).toNat + 1) p (buf - mallocHdrSize / 4)

def miiInitMyRdptr (p : Pool) : Int := p.rdptr

/- `none` is the MII_MALLOC_ASSERT trap. -/
def miiUpdateMyRdptr (p : Pool) (rdptr : Int) : Option Int :=
  if p.mem rdptr ≤ 0 then none else some (p.mem rdptr)

def miiGetMyNextBuf (p : Pool) (rdptr : Int) : Int :=
  if rdptr = p.wrptr then 0 else rdptr + mallocHdrSize / 4

def miiGetNextBuf (p : Pool) : Int := miiGetMyNextBuf p p.rdptr

end ScEthernet.Full.Malloc
