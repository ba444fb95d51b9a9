import ScEthernet.Full.Malloc
import ScEthernet.Lib.UnrolledRing

/-! A pool is for queueing packets: they leave in the order of their commits, and a packet
freed early waits for the older ones. `Rep` says that the ring memory represents such a
queue, with the ring unrolled: the committed packets fill the positions from `vr` to `vw`,
and every word a writer may use lies from `vw` up to, but not at, `vr + size`. -/
namespace ScEthernet.Full.PoolQueue
open Lib.WordMemory Lib.UnrolledRing Malloc

structure Pkt where
  buf : Int
  header : Field → Int
  data : List Int
  freed : Bool

def reclaim : List Pkt → List Pkt
  | [] => []
  | k :: ks => if k.freed then reclaim ks else k :: ks

def onBuf (buf : Int) (f : Pkt → Pkt) (q : List Pkt) : List Pkt :=
  q.map (fun k => if k.buf = buf then f k else k)

def markFreed (k : Pkt) : Pkt := { k with freed := true }
def free (buf : Int) (q : List Pkt) : List Pkt := reclaim (onBuf buf markFreed q)
def setHeader (f : Field) (x : Int) (k : Pkt) : Pkt :=
  { k with header := fun g => if g = f then x else k.header g }

/- The buffers met from `hdr` through the links up to `wrptr`. -/
def walk (p : Pool) : Nat → Int → List Int
  | 0, _ => []
  | fuel + 1, hdr =>
    if hdr = p.wrptr then []
    else (hdr + mallocHdrSize / 4) :: walk p fuel (if p.mem hdr < 0 then -p.mem hdr else p.mem hdr)

def queued (p : Pool) : List Int := walk p ((p.stop - p.start).toNat + 1) p.rdptr

def readWords (p : Pool) : Nat → Int → List Int
  | 0, _ => []
  | n + 1, dptr => p.mem dptr :: readWords p n (nextDataPtr p dptr)

def Intact (p : Pool) (k : Pkt) : Prop :=
  (∀ f, getField f p k.buf = k.header f) ∧
  readWords p k.data.length (miiPacketGetDataPtr k.buf) = k.data

/- The word at `a` belongs to the packet of `buf`: from its malloc header to what it links to. -/
def covers (p : Pool) (buf a : Int) : Prop :=
  let hdr := buf - mallocHdrSize / 4
  let next := if p.mem hdr < 0 then -p.mem hdr else p.mem hdr
  if hdr < next then hdr ≤ a ∧ a < next else (hdr ≤ a ∧ a < p.stop) ∨ (p.start ≤ a ∧ a < next)

structure Slot (r : Ring) (info : Int) (mem : Int → Int) (v w : Nat) (k : Pkt) : Prop where
  buf : k.buf = r.place v + 2
  size : v + 12 + k.data.length ≤ w
  room : r.place v + 22 ≤ r.limit
  link : mem (r.place v) = if k.freed then -r.place w else r.place w
  info : mem (r.place (v + 1)) = info
  header : ∀ f : Field, mem (r.place (v + 2 + f.offset)) = k.header f
  data : ∀ i (h : i < k.data.length), mem (r.place (v + 12 + i)) = k.data[i]

inductive Chain (r : Ring) (info : Int) (mem : Int → Int) : Nat → List Pkt → Nat → Prop where
  | nil (v) : Chain r info mem v [] v
  | cons {v w u k q} (slot : Slot r info mem v w k) (rest : Chain r info mem w q u) :
      Chain r info mem v (k :: q) u

structure Rep (p : Pool) (q : List Pkt) (r : Ring) (vr vw : Nat) : Prop where
  start : p.start = r.base
  stop : p.stop = r.limit
  base : 0 < r.base
  rdptr : p.rdptr = r.place vr
  wrptr : p.wrptr = r.place vw
  span : vw < vr + r.size
  wrRoom : r.place vw + 22 ≤ r.limit
  atStart : p.rdptrAtStart = if p.rdptr = p.start then 1 else 0
  wrapWord : p.mem p.stop = p.start
  chain : Chain r p.info p.mem vr q vw

/- Nothing freed is left at the head: mii_free has reclaimed it. -/
def Settled (q : List Pkt) : Prop := ∀ k ∈ q.head?, k.freed = false

theorem offsetBound (f : Field) : f.offset < 10 := by cases f <;> decide

section chains
variable {r : Ring} {info : Int} {mem mem' : Int → Int}

theorem chainLength {v u q} (h : Chain r info mem v q u) : v + 12 * q.length ≤ u := by
  induction h with
  | nil => simp
  | cons slot rest ih => have := slot.size; simp only [List.length_cons]; omega

theorem chainLe {v u q} (h : Chain r info mem v q u) : v ≤ u := by
  have := chainLength h; omega

theorem chainAppend {v w u q q'} (h : Chain r info mem v q w) (h' : Chain r info mem w q' u) :
    Chain r info mem v (q ++ q') u := by
  induction h with
  | nil => exact h'
  | cons slot rest ih => exact .cons slot (ih h')

theorem chainSplit {v u q q'} (h : Chain r info mem v (q ++ q') u) :
    ∃ w, Chain r info mem v q w ∧ Chain r info mem w q' u := by
  induction q generalizing v with
  | nil => exact ⟨v, .nil v, h⟩
  | cons k q ih =>
    cases h with
    | cons slot rest =>
      obtain ⟨w, left, right⟩ := ih rest
      exact ⟨w, .cons slot left, right⟩

theorem chainSlot {v u pre k post} (h : Chain r info mem v (pre ++ k :: post) u) :
    ∃ x w, Chain r info mem v pre x ∧ Slot r info mem x w k ∧ Chain r info mem w post u := by
  obtain ⟨x, left, right⟩ := chainSplit h
  cases right with
  | cons slot rest => exact ⟨x, _, left, slot, rest⟩

theorem slotFrame {v w k} (slot : Slot r info mem v w k)
    (same : ∀ x, v ≤ x → x < w → mem' (r.place x) = mem (r.place x)) :
    Slot r info mem' v w k := by
  have size := slot.size
  refine ⟨slot.buf, size, slot.room, ?_, ?_, ?_, ?_⟩
  · rw [same v (by omega) (by omega)]; exact slot.link
  · rw [same _ (by omega) (by omega)]; exact slot.info
  · intro f
    have := offsetBound f
    rw [same _ (by omega) (by omega)]; exact slot.header f
  · intro i h
    rw [same _ (by omega) (by omega)]; exact slot.data i h

theorem chainFrame {v u q} (h : Chain r info mem v q u)
    (same : ∀ x, v ≤ x → x < u → mem' (r.place x) = mem (r.place x)) :
    Chain r info mem' v q u := by
  induction h with
  | nil v => exact .nil v
  | @cons v w u k q slot rest ih =>
    have later := chainLe rest
    have size := slot.size
    exact .cons (slotFrame slot (fun x a b => same x a (by omega)))
      (ih (fun x a b => same x (by omega) b))

theorem chainBuf {v u q} (h : Chain r info mem v q u) {k} (member : k ∈ q) :
    ∃ x, v ≤ x ∧ x + 12 ≤ u ∧ k.buf = r.place x + 2 := by
  induction h with
  | nil => simp at member
  | @cons v w u k' q slot rest ih =>
    have later := chainLe rest
    have size := slot.size
    rcases List.mem_cons.mp member with rfl | tail
    · exact ⟨v, by omega, by omega, slot.buf⟩
    · obtain ⟨x, a, b, buf⟩ := ih tail
      exact ⟨x, by omega, b, buf⟩

theorem onBufSlot {v u pre k post} (h : Chain r info mem v (pre ++ k :: post) u)
    (window : u < v + r.size) (f : Pkt → Pkt) :
    onBuf k.buf f (pre ++ k :: post) = pre ++ f k :: post := by
  obtain ⟨x, w, left, slot, right⟩ := chainSlot h
  have lo := chainLe left
  have hi := chainLe right
  have size := slot.size
  have other : ∀ (k' : Pkt) (y : Nat), k'.buf = r.place y + 2 → v ≤ y → y < u → y ≠ x → k'.buf ≠ k.buf := by
    intro k' y buf a b ne same
    refine r.placeNe (a := v) ⟨a, by omega⟩ ⟨lo, by omega⟩ ne ?_
    have := slot.buf; omega
  have before : ∀ k' ∈ pre, k'.buf ≠ k.buf := by
    intro k' member
    obtain ⟨y, a, b, buf⟩ := chainBuf left member
    exact other k' y buf a (by omega) (by omega)
  have after : ∀ k' ∈ post, k'.buf ≠ k.buf := by
    intro k' member
    obtain ⟨y, a, b, buf⟩ := chainBuf right member
    exact other k' y buf (by omega) (by omega) (by omega)
  have fixed : ∀ ks : List Pkt, (∀ k' ∈ ks, k'.buf ≠ k.buf) → onBuf k.buf f ks = ks := by
    intro ks ne
    exact (List.map_congr_left (fun k' member => if_neg (ne k' member))).trans (List.map_id ks)
  have step := fixed pre before
  have tail := fixed post after
  unfold onBuf at step tail ⊢
  rw [List.map_append, List.map_cons, step, tail, if_pos rfl]

theorem chainReplace {v x w u pre k post} (left : Chain r info mem v pre x)
    (slot : Slot r info mem' x w k) (right : Chain r info mem w post u)
    (same : ∀ y, (v ≤ y ∧ y < x) ∨ (w ≤ y ∧ y < u) → mem' (r.place y) = mem (r.place y)) :
    Chain r info mem' v (pre ++ k :: post) u :=
  chainAppend (chainFrame left (fun y a b => same y (.inl ⟨a, b⟩)))
    (.cons slot (chainFrame right (fun y a b => same y (.inr ⟨a, b⟩))))

end chains

section pool
variable {p : Pool} {q : List Pkt} {r : Ring} {vr vw : Nat}

theorem repLe (h : Rep p q r vr vw) : vr ≤ vw := chainLe h.chain

theorem repEmptyIff (h : Rep p q r vr vw) : p.wrptr = p.rdptr ↔ q = [] := by
  rw [h.rdptr, h.wrptr]
  constructor
  · intro same
    have eq := r.placeInjective (repLe h) h.span same.symm
    have := chainLength h.chain
    exact List.length_eq_zero_iff.mp (by omega)
  · rintro rfl
    cases h.chain
    rfl

theorem repRdRoom (h : Rep p q r vr vw) : r.place vr + 22 ≤ r.limit := by
  cases h.chain with
  | nil => exact h.wrRoom
  | cons slot rest => exact slot.room

theorem spaceLeftRep (h : Rep p q r vr vw) : spaceLeft p = 4 * ((vr : Int) + r.size - vw) := by
  have gap := r.placeGap (repLe h) h.span
  have le := repLe h
  have span := h.span
  unfold spaceLeft
  rw [h.rdptr, h.wrptr, h.start, h.stop]
  unfold Ring.limit
  dsimp only
  split <;> omega

theorem repStore (h : Rep p q r vr vw) {x : Nat} (lo : vw ≤ x) (hi : x < vr + r.size) (val : Int) :
    Rep { p with mem := store p.mem (r.place x) val } q r vr vw := by
  have le := repLe h
  refine { h with wrapWord := ?_, chain := ?_ }
  · have := r.placeUpper x
    have ne : p.stop ≠ r.place x := by rw [h.stop]; omega
    exact (storeOther ne).trans h.wrapWord
  · refine chainFrame h.chain (fun y a b => storeOther ?_)
    exact r.placeNe (a := vr) ⟨a, by omega⟩ ⟨by omega, hi⟩ (by omega)

def Writable (r : Ring) (vr vw : Nat) (a : Int) : Prop := ∃ x, vw ≤ x ∧ x < vr + r.size ∧ a = r.place x

theorem repWrptr (h : Rep p q r vr vw) {k : Nat} (small : k < 22) :
    r.place (vw + k) = p.wrptr + k := by
  have total := r.placeToEnd vw
  have room := h.wrRoom
  rw [h.wrptr]
  exact r.placeAdd (by omega)

theorem repSlotPlace {r : Ring} {info mem v w k} (slot : Slot r info mem v w k) {i : Nat}
    (small : i < 22) : r.place (v + i) = r.place v + i := by
  have total := r.placeToEnd v
  have room := slot.room
  exact r.placeAdd (by omega)

/- The first words behind the write pointer are free whenever mii_reserve succeeds. -/
theorem repFreeWords (h : Rep p q r vr vw) (short : ¬ (p.rdptr > p.wrptr ∧
    belowUnsigned (4 * (p.rdptr - p.wrptr)) minUsage)) : vw + 22 ≤ vr + r.size := by
  have gap := r.placeGap (repLe h) h.span
  have le := repLe h
  have span := h.span
  have rd := repRdRoom h
  have wr := h.wrRoom
  have up := r.placeUpper vr
  have low := r.placeLower vr
  rw [h.rdptr, h.wrptr] at short
  simp only [belowUnsigned, minUsage, miiPacketHeaderSize, mallocHdrSize, not_and] at short
  unfold Ring.limit at *
  omega

theorem nextDataPtrRep (h : Rep p q r vr vw) (v : Nat) :
    nextDataPtr p (r.place v) = r.place (v + 1) := by
  rw [r.placeSucc, nextDataPtr, miiGetWrapPtr, h.stop]
  split
  · rename_i last; rw [last, ← h.stop, h.wrapWord, h.start]
  · rfl

theorem readWordsRep (h : Rep p q r vr vw) (n v : Nat) :
    readWords p n (r.place v) = (List.range n).map (fun i => p.mem (r.place (v + i))) := by
  induction n generalizing v with
  | zero => rfl
  | succ n ih =>
    rw [readWords, nextDataPtrRep h, ih, List.range_succ_eq_map]
    simp [Nat.add_assoc, Nat.add_comm 1]

theorem repIntact (h : Rep p q r vr vw) {k : Pkt} (member : k ∈ q) : Intact p k := by
  obtain ⟨pre, post, rfl⟩ := List.append_of_mem member
  obtain ⟨x, w, left, slot, right⟩ := chainSlot h.chain
  constructor
  · intro f
    have bound := offsetBound f
    have place := repSlotPlace slot (i := 2 + f.offset) (by omega)
    rw [getField, slot.buf, ← slot.header f, show x + 2 + f.offset = x + (2 + f.offset) by omega,
      place]
    congr 1; push_cast; omega
  · have place := repSlotPlace slot (i := 12) (by omega)
    rw [miiPacketGetDataPtr, slot.buf, bufDataOffset, show r.place x + 2 + 10 = r.place (x + 12) by
      rw [place]; push_cast; omega, readWordsRep h]
    apply List.ext_getElem
    · simp
    · intro i a b
      simpa using slot.data i b

theorem placePositive (h : Rep p q r vr vw) (v : Nat) : 0 < r.place v :=
  Int.lt_of_lt_of_le h.base (r.placeLower v)

theorem linkTarget {info v w k mem} (slot : Slot r info mem v w k) (positive : 0 < r.place w) :
    (if mem (r.place v) < 0 then -mem (r.place v) else mem (r.place v)) = r.place w := by
  rw [slot.link]
  cases k.freed <;> simp <;> omega

theorem coversSlot (h : Rep p q r vr vw) {k : Pkt} {v w : Nat} (slot : Slot r p.info p.mem v w k)
    (lo : vr ≤ v) (hi : w ≤ vw) {a : Int} (covered : covers p k.buf a) :
    ∃ x, v ≤ x ∧ x < w ∧ a = r.place x := by
  have size := slot.size
  have span := h.span
  have hdr : k.buf - mallocHdrSize / 4 = r.place v := by rw [slot.buf]; simp [mallocHdrSize]
  simp only [covers, hdr, linkTarget slot (placePositive h w), h.start, h.stop] at covered
  have gap := r.placeGap (v := v) (w := w) (by omega) (by omega)
  have inRing : r.base ≤ a ∧ a < r.limit := by
    have := r.placeLower v
    have := r.placeUpper w
    split at covered <;> omega
  obtain ⟨x, above, below, rfl⟩ := r.placeOnto v inRing.1 inRing.2
  refine ⟨x, above, ?_, rfl⟩
  have here := r.placeGap (v := v) (w := x) above (by omega)
  have low := r.placeLower w
  unfold Ring.limit at covered inRing
  split at covered <;> omega

theorem coversPlace (h : Rep p q r vr vw) {k : Pkt} (member : k ∈ q) {a : Int}
    (covered : covers p k.buf a) : ∃ x, vr ≤ x ∧ x < vw ∧ a = r.place x := by
  obtain ⟨pre, post, rfl⟩ := List.append_of_mem member
  obtain ⟨v, w, left, slot, right⟩ := chainSlot h.chain
  have lo := chainLe left
  have hi := chainLe right
  obtain ⟨x, above, below, same⟩ := coversSlot h slot lo hi covered
  exact ⟨x, by omega, by omega, same⟩

theorem writableOutside (h : Rep p q r vr vw) {a : Int} (writable : Writable r vr vw a) :
    (∀ k ∈ q, ¬ covers p k.buf a) ∧ a ≠ p.stop := by
  obtain ⟨x, lo, hi, rfl⟩ := writable
  refine ⟨fun k member covered => ?_, ?_⟩
  · obtain ⟨y, a, b, same⟩ := coversPlace h member covered
    exact r.placeNe (a := vr) ⟨by omega, hi⟩ ⟨a, by omega⟩ (by omega) same
  · have := r.placeUpper x
    rw [h.stop]; omega

theorem walkRep (h : Rep p q r vr vw) {v : Nat} {ks : List Pkt} (chain : Chain r p.info p.mem v ks vw)
    (inside : vr ≤ v) {fuel : Nat} (enough : ks.length < fuel) :
    walk p fuel (r.place v) = ks.map Pkt.buf := by
  induction ks generalizing v fuel with
  | nil =>
    obtain ⟨fuel, rfl⟩ := Nat.exists_eq_add_of_lt enough
    cases chain
    simp [walk, h.wrptr]
  | cons k ks ih =>
    cases fuel with
    | zero => simp at enough
    | succ fuel =>
      cases chain with
      | @cons _ w _ _ _ slot rest =>
        have size := slot.size
        have later := chainLe rest
        have ne : r.place v ≠ p.wrptr := by
          rw [h.wrptr]
          exact r.placeNe (a := vr) ⟨inside, by have := h.span; omega⟩
            ⟨repLe h, h.span⟩ (by omega)
        rw [walk, if_neg ne, linkTarget slot (placePositive h w),
          ih rest (by omega) (by simpa using enough)]
        simp [slot.buf, mallocHdrSize]

theorem ringWords (h : Rep p q r vr vw) : (p.stop - p.start).toNat = r.size := by
  rw [h.stop, h.start]; unfold Ring.limit; omega

theorem queuedRep (h : Rep p q r vr vw) : queued p = q.map Pkt.buf := by
  have bound := chainLength h.chain
  have span := h.span
  rw [queued, ringWords h, h.rdptr]
  exact walkRep h h.chain (Nat.le_refl _) (by omega)

/-! Commit. -/

theorem lapPlace (h : Rep p q r vr vw) (D : Nat) : r.place (D + r.toEnd D) = p.start := by
  rw [r.placeLap, h.start]

theorem lapFree (h : Rep p q r vr vw) {D : Nat} (near : r.limit < r.place D + 22)
    (hD : D ≤ vr + r.size) (away : p.rdptr ≠ p.start) : D + r.toEnd D < vr + r.size := by
  have room := repRdRoom h
  have le := r.laterLap hD near (by rw [r.placeSize]; exact room)
  have ne : D + r.toEnd D ≠ vr + r.size := by
    intro same
    have lap := lapPlace h D
    rw [same, r.placeSize, ← h.rdptr] at lap
    exact away lap
  omega

theorem lapRoom (h : Rep p q r vr vw) (D : Nat) : r.place (D + r.toEnd D) + 22 ≤ r.limit := by
  have room := repRdRoom h
  have := r.placeLower vr
  rw [r.placeLap]; omega

theorem miiCommitEq (h : Rep p q r vr vw) (forwards : Bool) (buf : Int) (D : Nat) :
    miiCommit forwards p buf (r.place D) =
      if r.limit < r.place D + 22 then
        if p.rdptr = p.start then (p, 0)
        else commitAt forwards p buf (r.place (D + r.toEnd D))
      else commitAt forwards p buf (r.place D) := by
  have upper := r.placeUpper D
  have near : belowUnsigned (4 * (p.stop - r.place D)) minUsage ↔ r.limit < r.place D + 22 := by
    rw [h.stop]
    unfold belowUnsigned minUsage miiPacketHeaderSize mallocHdrSize
    omega
  have flag : p.rdptrAtStart ≠ 0 ↔ p.rdptr = p.start := by
    rw [h.atStart]
    split <;> simp_all
  simp only [miiCommit, near, flag, lapPlace h D]

def committed (p : Pool) (buf : Int) (data : List Int) : Pkt :=
  { buf := buf, header := fun f => getField f p buf, data := data, freed := false }

theorem commitHeader (h : Rep p q r vr vw) (forwards : Bool) {D : Nat} (room : vw + 12 ≤ vr + r.size) :
    ∃ m, (commitAt forwards p (p.wrptr + 2) (r.place D)).1 =
      { p with mem := store m p.wrptr (r.place D), wrptr := r.place D } ∧
    (∀ x, x = vw + 1 ∨ vw + 12 ≤ x → x < vr + r.size → m (r.place x) = p.mem (r.place x)) ∧
    Rep { p with mem := m } q r vr vw := by
  have stage := repWrptr h (k := 7) (by omega)
  have forwarding := repWrptr h (k := 10) (by omega)
  have first : p.wrptr + 2 + 5 = r.place (vw + 7) := by rw [stage]; push_cast; omega
  have second : p.wrptr + 2 + 8 = r.place (vw + 10) := by rw [forwarding]; push_cast; omega
  have apart : ∀ x y, (x = vw + 7 ∨ x = vw + 10) → y = vw + 1 ∨ vw + 12 ≤ y →
      y < vr + r.size → r.place y ≠ r.place x := by
    intro x y hx hy top
    have := repLe h
    exact r.placeNe (a := vr) ⟨by omega, top⟩ ⟨by omega, by omega⟩ (by omega)
  have h1 := repStore h (x := vw + 7) (by omega) (by omega) 0
  cases forwards with
  | false =>
    refine ⟨store p.mem (r.place (vw + 7)) 0, ?_, ?_, h1⟩
    · simp [commitAt, miiPacketSetStage, setField, Field.offset, mallocHdrSize, first]
    · intro x hx top
      exact storeOther (apart _ x (.inl rfl) hx top)
  | true =>
    refine ⟨store (store p.mem (r.place (vw + 7)) 0) (r.place (vw + 10)) 0, ?_, ?_,
      repStore h1 (x := vw + 10) (by omega) (by omega) 0⟩
    · simp [commitAt, miiPacketSetStage, miiPacketSetForwarding, setField, Field.offset,
        mallocHdrSize, first, second]
    · intro x hx top
      rw [storeOther (apart _ x (.inr rfl) hx top), storeOther (apart _ x (.inl rfl) hx top)]

theorem commitRep (h : Rep p q r vr vw) (forwards : Bool) {D : Nat} {data : List Int}
    (fits : vw + 12 + data.length ≤ D) (spare : D < vr + r.size)
    (room : r.place D + 22 ≤ r.limit) (info : p.mem (r.place (vw + 1)) = p.info)
    (words : ∀ i (b : i < data.length), p.mem (r.place (vw + 12 + i)) = data[i]) :
    Rep (commitAt forwards p (p.wrptr + 2) (r.place D)).1
      (q ++ [committed (commitAt forwards p (p.wrptr + 2) (r.place D)).1 (p.wrptr + 2) data])
      r vr D := by
  obtain ⟨m, stored, outside, h'⟩ := commitHeader h forwards (D := D) (by omega)
  have le := repLe h
  have other : ∀ x, vr ≤ x → x < vr + r.size → x ≠ vw →
      store m p.wrptr (r.place D) (r.place x) = m (r.place x) := by
    intro x a b ne
    rw [h.wrptr]
    exact storeOther (r.placeNe (a := vr) ⟨a, b⟩ ⟨le, h.span⟩ ne)
  rw [stored]
  have top := repWrptr h (k := 21) (by omega)
  have slot : Slot r p.info (store m p.wrptr (r.place D)) vw D
      (committed { p with mem := store m p.wrptr (r.place D), wrptr := r.place D }
        (p.wrptr + 2) data) := by
    refine ⟨by simp [committed, h.wrptr], fits, h.wrRoom, ?_, ?_, ?_, ?_⟩
    · simp [committed, h.wrptr]
    · rw [other _ (by omega) (by omega) (by omega), outside _ (.inl rfl) (by omega)]
      exact info
    · intro f
      have bound := offsetBound f
      have place := repWrptr h (k := 2 + f.offset) (by omega)
      have same : r.place (vw + 2 + f.offset) = p.wrptr + 2 + f.offset := by
        rw [show vw + 2 + f.offset = vw + (2 + f.offset) by omega, place]
        push_cast; omega
      exact congrArg _ same
    · intro i b
      have b' : i < data.length := b
      rw [other _ (by omega) (by omega) (by omega), outside _ (.inr (by omega)) (by omega)]
      exact words i b'
  refine ⟨h.start, h.stop, h.base, h.rdptr, rfl, spare, room, h.atStart, ?_, ?_⟩
  · have ne : p.stop ≠ p.wrptr := by
      have := r.placeUpper vw
      rw [h.stop, h.wrptr]; omega
    exact (storeOther ne).trans h'.wrapWord
  · refine chainAppend (chainFrame h'.chain (fun x a b => ?_)) (.cons slot (.nil D))
    exact other x a (by have := h.span; omega) (by omega)

/-! Free. -/

theorem reclaimHead {k : Pkt} {w : Nat} (h : Rep p (k :: q) r vr vw)
    (slot : Slot r p.info p.mem vr w k) (rest : Chain r p.info p.mem w q vw) :
    Rep { p with rdptr := r.place w, rdptrAtStart := if r.place w = p.start then 1 else 0
                 mem := store p.mem (r.place vr) 0 } q r w vw := by
  have size := slot.size
  have later := chainLe rest
  have span := h.span
  refine ⟨h.start, h.stop, h.base, rfl, h.wrptr, by omega, h.wrRoom, rfl, ?_, ?_⟩
  · have upper := r.placeUpper vr
    have ne : p.stop ≠ r.place vr := by rw [h.stop]; omega
    exact (storeOther ne).trans h.wrapWord
  · refine chainFrame rest (fun x a b => storeOther ?_)
    exact r.placeNe (a := vr) ⟨by omega, by omega⟩ ⟨(Nat.le_refl _), by have := r.positive; omega⟩ (by omega)

def clear (mem : Int → Int) (ks : List Pkt) : Int → Int := ks.foldl (fun m k => store m (k.buf - mallocHdrSize / 4) 0) mem

/- The loop of mii_free, entered at the read pointer, reclaims the head and every freed
packet behind it. -/
theorem freeLoopRep {k : Pkt} {n : Nat} (h : Rep p (k :: q) r vr vw) (enough : q.length < n) :
    ∃ p' vr', miiFreeLoop n p p.rdptr = some p' ∧ Rep p' (reclaim q) r vr' vw ∧ vr ≤ vr' ∧
      p'.info = p.info ∧ (∀ x, vw ≤ x → x < vr + r.size → p'.mem (r.place x) = p.mem (r.place x)) ∧
      p'.mem = clear p.mem (k :: q.takeWhile Pkt.freed) := by
  induction q generalizing p vr k n with
  | nil =>
    cases n with
    | zero => simp at enough
    | succ n =>
      cases h.chain with
      | @cons _ w _ _ _ slot rest =>
        cases rest
        have head := reclaimHead h slot (.nil vw)
        have size := slot.size
        have span := h.span
        have hdr : k.buf - mallocHdrSize / 4 = r.place vr := by rw [slot.buf]; simp [mallocHdrSize]
        refine ⟨_, vw, ?_, head, by omega, rfl, ?_, ?_⟩
        · simp only [miiFreeLoop, if_true, h.rdptr, linkTarget slot (placePositive h vw), h.wrptr,
            true_or]
        · intro x a b
          exact storeOther (r.placeNe (a := vr) ⟨by omega, b⟩ ⟨(Nat.le_refl _), by omega⟩ (by omega))
        · simp only [List.takeWhile_nil, clear, List.foldl_cons, List.foldl_nil, hdr]
  | cons k' q ih =>
    cases n with
    | zero => simp at enough
    | succ n =>
      cases h.chain with
      | @cons _ w _ _ _ slot rest =>
        have head := reclaimHead h slot rest
        have hdr : k.buf - mallocHdrSize / 4 = r.place vr := by rw [slot.buf]; simp [mallocHdrSize]
        have size := slot.size
        have span := h.span
        have later := chainLength rest
        simp only [List.length_cons] at later
        have unread : ∀ x, vw ≤ x → x < vr + r.size →
            store p.mem (r.place vr) 0 (r.place x) = p.mem (r.place x) := fun x a b =>
          storeOther (r.placeNe (a := vr) ⟨by omega, b⟩ ⟨(Nat.le_refl _), by omega⟩ (by omega))
        have notEnd : r.place w ≠ p.wrptr := by
          rw [h.wrptr]
          exact r.placeNe (a := vr) ⟨by omega, by omega⟩ ⟨by omega, h.span⟩ (by omega)
        have link : store p.mem (r.place vr) 0 (r.place w) > 0 ↔ k'.freed = false := by
          cases head.chain with
          | @cons _ w' _ _ _ slot' rest' =>
            have positive := placePositive h w'
            have value := slot'.link
            simp only at value
            rw [value]
            cases k'.freed <;> simp <;> omega
        cases freed : k'.freed with
        | false =>
          have stays : reclaim (k' :: q) = k' :: q := by simp [reclaim, freed]
          rw [stays]
          refine ⟨_, w, ?_, head, by omega, rfl, unread, ?_⟩
          · simp only [miiFreeLoop, if_true, h.rdptr, linkTarget slot (placePositive h w)]
            rw [if_pos (.inr (link.mpr freed))]
          · rw [List.takeWhile_cons_of_neg (by simp [freed])]
            simp only [clear, List.foldl_cons, List.foldl_nil, hdr]
        | true =>
          obtain ⟨p', vr', loop, rep, le, info, same, cleared⟩ := ih (n := n) head (by simpa using enough)
          refine ⟨p', vr', ?_, by simpa [reclaim, freed] using rep, by omega, info, ?_, ?_⟩
          · simp only [miiFreeLoop, if_true, h.rdptr, linkTarget slot (placePositive h w)]
            rw [if_neg]
            · exact loop
            · rintro (stop | positive)
              · exact notEnd stop
              · rw [link, freed] at positive; cases positive
          · intro x a b
            rw [same x a (by omega)]
            exact unread x a b
          · rw [List.takeWhile_cons_of_pos freed, cleared]
            simp only [clear, List.foldl_cons, hdr]

theorem reclaimSettled (q : List Pkt) : Settled (reclaim q) := by
  induction q with
  | nil => intro k h; simp [reclaim] at h
  | cons k q ih =>
    unfold reclaim
    split
    · exact ih
    · rename_i live
      intro k' h
      simp only [List.head?_cons, Option.mem_def, Option.some.injEq] at h
      subst k'; simpa using live

theorem settledAppend {q : List Pkt} {k : Pkt} (h : Settled q) (live : k.freed = false) :
    Settled (q ++ [k]) := by
  cases q with
  | nil => simpa [Settled] using live
  | cons k' q => simpa [Settled] using h

theorem settledOnBuf {q : List Pkt} (h : Settled q) (buf : Int) (f : Pkt → Pkt)
    (same : ∀ k, (f k).freed = k.freed) : Settled (onBuf buf f q) := by
  cases q with
  | nil => simp [Settled, onBuf]
  | cons k q =>
    have live := h k (by simp)
    simp only [Settled, onBuf, List.map_cons, List.head?_cons, Option.mem_def, Option.some.injEq,
      forall_eq']
    split
    · rw [same]; exact live
    · exact live

/- mii_free returns, and does to the ring what `free` does to the queue. -/
theorem miiFreeExact {pre post : List Pkt} {k : Pkt} (h : Rep p (pre ++ k :: post) r vr vw) (settled : Settled (pre ++ k :: post))
    (live : k.freed = false) :
    ∃ p' vr', miiFree p k.buf = some p' ∧ Rep p' (free k.buf (pre ++ k :: post)) r vr' vw ∧ vr ≤ vr' ∧
      p'.info = p.info ∧ (∀ x, vw ≤ x → x < vr + r.size → p'.mem (r.place x) = p.mem (r.place x)) ∧
      p'.mem = if pre = [] then clear p.mem (k :: post.takeWhile Pkt.freed)
        else store p.mem (k.buf - mallocHdrSize / 4) (-p.mem (k.buf - mallocHdrSize / 4)) := by
  have bound := chainLength h.chain
  have span := h.span
  obtain ⟨x, w, left, slot, right⟩ := chainSlot h.chain
  have hdr : k.buf - mallocHdrSize / 4 = r.place x := by rw [slot.buf]; simp [mallocHdrSize]
  rw [free, onBufSlot h.chain h.span, miiFree, ringWords h, hdr]
  cases pre with
  | nil =>
    cases left
    rw [← h.rdptr]
    simpa [reclaim, markFreed] using freeLoopRep (n := r.size + 1) h (by simp at bound; omega)
  | cons k0 pre =>
    have size := slot.size
    have lo := chainLength left
    have hi := chainLe right
    simp only [List.length_cons] at lo
    have notHead : r.place x ≠ p.rdptr := by
      rw [h.rdptr]
      exact r.placeNe (a := vr) ⟨by omega, by omega⟩ ⟨(Nat.le_refl _), by omega⟩ (by omega)
    have headLive : k0.freed = false := settled k0 (by simp)
    have apart : ∀ y, vr ≤ y → y < vr + r.size → y ≠ x →
        store p.mem (r.place x) (-p.mem (r.place x)) (r.place y) = p.mem (r.place y) :=
      fun y a b ne => storeOther (r.placeNe (a := vr) ⟨a, b⟩ ⟨by omega, by omega⟩ ne)
    refine ⟨{ p with mem := store p.mem (r.place x) (-p.mem (r.place x)) }, vr,
      by simp only [miiFreeLoop, if_neg notHead], ?_, (Nat.le_refl _), rfl, ?_, by rw [if_neg (by simp)]⟩
    · rw [List.cons_append, reclaim, if_neg (by simp [headLive]), ← List.cons_append]
      refine { h with wrapWord := ?_, chain := ?_ }
      · have ne : p.stop ≠ r.place x := by
          have := r.placeUpper x
          rw [h.stop]; omega
        exact (storeOther ne).trans h.wrapWord
      · refine chainReplace left ?_ right (fun y => ?_)
        · refine ⟨slot.buf, slot.size, slot.room, ?_, ?_, ?_, ?_⟩
          · simp [markFreed, slot.link, live]
          · exact (apart _ (by omega) (by omega) (by omega)).trans slot.info
          · intro f
            have := offsetBound f
            exact (apart _ (by omega) (by omega) (by omega)).trans (slot.header f)
          · intro i b
            have b' : i < k.data.length := b
            exact (apart _ (by omega) (by omega) (by omega)).trans (slot.data i b')
        · rintro (⟨a, b⟩ | ⟨a, b⟩) <;> exact apart y (by omega) (by omega) (by omega)
    · intro y a b
      exact apart y (by omega) b (by omega)

theorem miiFreeRep (h : Rep p q r vr vw) (settled : Settled q) {k : Pkt} (member : k ∈ q)
    (live : k.freed = false) :
    ∃ p' vr', miiFree p k.buf = some p' ∧ Rep p' (free k.buf q) r vr' vw ∧ vr ≤ vr' ∧
      p'.info = p.info ∧
      ∀ x, vw ≤ x → x < vr + r.size → p'.mem (r.place x) = p.mem (r.place x) := by
  obtain ⟨pre, post, rfl⟩ := List.append_of_mem member
  obtain ⟨p', vr', returns, rep, le, info, same, -⟩ := miiFreeExact h settled live
  exact ⟨p', vr', returns, rep, le, info, same⟩

theorem miiFreeLoopWrptr {fuel : Nat} {p p' : Pool} {hdr : Int}
    (returns : miiFreeLoop fuel p hdr = some p') : p'.wrptr = p.wrptr := by
  induction fuel generalizing p hdr with
  | zero => cases returns
  | succ fuel ih =>
    simp only [miiFreeLoop] at returns
    generalize (if p.mem hdr < 0 then -p.mem hdr else p.mem hdr) = next at returns
    split at returns
    · split at returns
      · cases returns; rfl
      · have kept := ih returns
        exact kept
    · cases returns; rfl

theorem reclaimSuffix (q : List Pkt) : ∃ gone, q = gone ++ reclaim q := by
  induction q with
  | nil => exact ⟨[], rfl⟩
  | cons k q ih =>
    obtain ⟨gone, rest⟩ := ih
    unfold reclaim
    split
    · exact ⟨k :: gone, congrArg (k :: ·) rest⟩
    · exact ⟨[], rfl⟩

theorem reclaimAppend {q live : List Pkt} (alive : ∀ k ∈ live, k.freed = false) :
    reclaim (q ++ live) = reclaim q ++ live := by
  induction q with
  | nil =>
    cases live with
    | nil => rfl
    | cons k live => simp [reclaim, alive k List.mem_cons_self]
  | cons k q ih =>
    simp only [List.cons_append, reclaim]
    split
    · exact ih
    · rfl

theorem onBufAppend (buf : Int) (f : Pkt → Pkt) (q q' : List Pkt) :
    onBuf buf f (q ++ q') = onBuf buf f q ++ onBuf buf f q' := List.map_append

theorem onBufBufs (buf : Int) {f : Pkt → Pkt} (same : ∀ k, (f k).buf = k.buf) (q : List Pkt) :
    (onBuf buf f q).map Pkt.buf = q.map Pkt.buf := by
  simp only [onBuf, List.map_map]
  refine List.map_congr_left (fun k _ => ?_)
  simp only [Function.comp]
  split
  · exact same k
  · rfl

/-! Header updates of a committed packet. -/

@[simp] theorem getSetField (f g : Field) (p : Pool) (buf x : Int) :
    getField f (setField g p buf x) buf = if f = g then x else getField f p buf := by
  unfold getField setField store
  have same : buf + (f.offset : Int) = buf + g.offset ↔ f = g := by
    constructor
    · intro eq
      have eq : f.offset = g.offset := by omega
      revert eq
      cases f <;> cases g <;> simp [Field.offset]
    · rintro rfl; rfl
  simp only [same]

theorem commitAtHeader (forwards : Bool) (p : Pool) (buf endPtr : Int) (f : Field) :
    getField f (commitAt forwards p buf endPtr).1 buf =
      if f = .stage ∨ (forwards = true ∧ f = .forwarding) then 0 else getField f p buf := by
  have linked : ∀ p : Pool, getField f { p with
      mem := store p.mem (buf - mallocHdrSize / 4) endPtr, wrptr := endPtr } buf =
      getField f p buf := by
    intro p
    exact storeOther (by simp only [mallocHdrSize]; omega)
  rw [commitAt, linked]
  cases forwards <;> cases f <;> simp [miiPacketSetStage, miiPacketSetForwarding]

theorem setFieldRep (h : Rep p q r vr vw) {k : Pkt} (member : k ∈ q) (f : Field) (x : Int) :
    Rep (setField f p k.buf x) (onBuf k.buf (setHeader f x) q) r vr vw ∧
    ∀ y, vw ≤ y → y < vr + r.size → (setField f p k.buf x).mem (r.place y) = p.mem (r.place y) := by
  obtain ⟨pre, post, rfl⟩ := List.append_of_mem member
  obtain ⟨v, w, left, slot, right⟩ := chainSlot h.chain
  have bound := offsetBound f
  have size := slot.size
  have lo := chainLe left
  have hi := chainLe right
  have span := h.span
  have addr : k.buf + f.offset = r.place (v + 2 + f.offset) := by
    have place := repSlotPlace slot (i := 2 + f.offset) (by omega)
    rw [slot.buf, show v + 2 + f.offset = v + (2 + f.offset) by omega, place]
    push_cast; omega
  have apart : ∀ y, vr ≤ y → y < vr + r.size → y ≠ v + 2 + f.offset →
      store p.mem (r.place (v + 2 + f.offset)) x (r.place y) = p.mem (r.place y) :=
    fun y a b ne => storeOther (r.placeNe (a := vr) ⟨a, b⟩ ⟨by omega, by omega⟩ ne)
  rw [onBufSlot h.chain h.span, setField, addr]
  refine ⟨{ h with wrapWord := ?_, chain := ?_ },
    fun y a b => apart y (by omega) b (by omega)⟩
  · have ne : p.stop ≠ r.place (v + 2 + f.offset) := by
      have := r.placeUpper (v + 2 + f.offset)
      rw [h.stop]; omega
    exact (storeOther ne).trans h.wrapWord
  · refine chainReplace left ?_ right (fun y => ?_)
    · refine ⟨slot.buf, slot.size, slot.room, ?_, ?_, ?_, ?_⟩
      · exact (apart _ (by omega) (by omega) (by omega)).trans slot.link
      · exact (apart _ (by omega) (by omega) (by omega)).trans slot.info
      · intro g
        have := offsetBound g
        by_cases same : g = f
        · subst g; simp [setHeader]
        · have ne : v + 2 + g.offset ≠ v + 2 + f.offset := by
            intro eq
            apply same
            revert eq
            cases g <;> cases f <;> simp [Field.offset]
          exact (apart _ (by omega) (by omega) ne).trans (by simpa [setHeader, same] using slot.header g)
      · intro i b
        have b' : i < k.data.length := b
        exact (apart _ (by omega) (by omega) (by omega)).trans (slot.data i b')
    · rintro (⟨a, b⟩ | ⟨a, b⟩) <;> exact apart y (by omega) (by omega) (by omega)

theorem setFieldLast {k : Pkt} (h : Rep p (q ++ [k]) r vr vw) (f : Field) (x : Int) :
    Rep (setField f p k.buf x) (q ++ [setHeader f x k]) r vr vw := by
  have rep := (setFieldRep h (k := k) (by simp) f x).1
  rwa [onBufSlot h.chain h.span] at rep

end pool

theorem initRep (mem : Int → Int) (mempool memsize : Nat) (enough : 28 ≤ memsize) :
    Rep (miiInitMempool mem mempool (memsize * 4)) [] ⟨mempool + 5, memsize - 6, by omega⟩ 0 0 := by
  have size : ((memsize - 6 : Nat) : Int) = memsize - 6 := by omega
  have stop : (mempool : Int) + memsize * 4 / 4 - 1 = mempool + 5 + (memsize - 6 : Nat) := by omega
  refine ⟨?_, ?_, by simp; omega, ?_, ?_, by simp; omega, ?_, ?_, ?_, .nil 0⟩
  · simp [miiInitMempool, mempoolInfoSize]
  · simpa [miiInitMempool, Ring.limit] using stop
  · simp [miiInitMempool, mempoolInfoSize, Ring.place]
  · simp [miiInitMempool, mempoolInfoSize, Ring.place]
  · simp only [Ring.place, Ring.limit, Nat.zero_mod]; omega
  · simp [miiInitMempool]
  · simp [miiInitMempool]

end ScEthernet.Full.PoolQueue
