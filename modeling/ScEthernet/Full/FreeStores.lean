import ScEthernet.Full.FreeOrder

/-! mii_free store by store. The receiver takes no lock: between two stores of mii_free it may
write any word outside the allocated part of the ring, read off `rdptr` and `wrptr` as they are
then. The word `old_hdr->next` is cleared after the read pointer has left it. -/
namespace ScEthernet.Full.FreeStores
open Lib.WordMemory Lib.UnrolledRing Malloc PoolQueue FreeOrder

inductive Store where
  | rdptr (x : Int)
  | atStart (x : Int)
  | word (a v : Int)

def apply (p : Pool) : Store → Pool
  | .rdptr x => { p with rdptr := x }
  | .atStart x => { p with rdptrAtStart := x }
  | .word a v => { p with mem := store p.mem a v }

def sweep (p : Pool) (hdr next : Int) : List Store :=
  [.rdptr next, .atStart (if next = p.start then 1 else 0), .word hdr 0]

def loopStores : Nat → Pool → Int → List Store
  | 0, _, _ => []
  | fuel + 1, p, hdr =>
    if hdr = p.rdptr then
      let next := if p.mem hdr < 0 then -p.mem hdr else p.mem hdr
      let swept := { p with rdptr := next, rdptrAtStart := if next = p.start then 1 else 0
                            mem := store p.mem hdr 0 }
      if next = p.wrptr ∨ swept.mem next > 0 then sweep p hdr next
      else sweep p hdr next ++ loopStores fuel swept next
    else [.word hdr (-p.mem hdr)]

def freeStores (p : Pool) (buf : Int) : List Store :=
  loopStores ((p.stop - p.start).toNat + 1) p (buf - mallocHdrSize / 4)

def Allocated (p : Pool) (a : Int) : Prop :=
  if p.rdptr ≤ p.wrptr then p.rdptr ≤ a ∧ a < p.wrptr
  else (p.rdptr ≤ a ∧ a < p.stop) ∨ (p.start ≤ a ∧ a < p.wrptr)

/- Each store into the ring falls on an allocated word, at its moment. -/
def Inside : Pool → List Store → Prop
  | _, [] => True
  | p, s :: rest => (∀ a v, s = .word a v → Allocated p a) ∧ Inside (apply p s) rest

theorem sweepRun (p : Pool) (hdr next : Int) : (sweep p hdr next).foldl apply p =
    { p with rdptr := next, rdptrAtStart := if next = p.start then 1 else 0, mem := store p.mem hdr 0 } := rfl

theorem insideAppend {p : Pool} {early late : List Store} (h : Inside p (early ++ late)) : Inside p early := by
  induction early generalizing p with
  | nil => trivial
  | cons s early ih => exact ⟨h.1, ih h.2⟩

theorem loopStoresRun {fuel : Nat} {p p' : Pool} {hdr : Int} (returns : miiFreeLoop fuel p hdr = some p') :
    (loopStores fuel p hdr).foldl apply p = p' := by
  induction fuel generalizing p hdr with
  | zero => cases returns
  | succ fuel ih =>
    simp only [miiFreeLoop] at returns
    simp only [loopStores]
    generalize (if p.mem hdr < 0 then -p.mem hdr else p.mem hdr) = next at returns ⊢
    split at returns
    · rename_i head
      rw [if_pos head]
      split at returns
      · rename_i last
        cases returns
        rw [if_pos last, sweepRun]
      · rename_i more
        rw [if_neg more, List.foldl_append, sweepRun]
        exact ih returns
    · rename_i other
      cases returns
      rw [if_neg other]
      rfl

section ring
variable {p : Pool} {q : List Pkt} {r : Ring} {vr vw : Nat}

theorem allocatedAt (start : p.start = r.base) (stop : p.stop = r.limit) (rdptr : p.rdptr = r.place vr)
    (wrptr : p.wrptr = r.place vw) (le : vr ≤ vw) (span : vw < vr + r.size) {a : Int} :
    Allocated p a ↔ ∃ x, vr ≤ x ∧ x < vw ∧ a = r.place x := by
  have gap := r.placeGap le span
  have lower := r.placeLower vr
  have lowerW := r.placeLower vw
  have upper := r.placeUpper vw
  unfold Allocated
  rw [start, stop, rdptr, wrptr]
  constructor
  · intro held
    have inRing : r.base ≤ a ∧ a < r.limit := by split at held <;> omega
    obtain ⟨x, above, below, rfl⟩ := r.placeOnto vr inRing.1 inRing.2
    refine ⟨x, above, ?_, rfl⟩
    have here := r.placeGap above below
    unfold Ring.limit at *
    split at held <;> omega
  · rintro ⟨x, above, below, rfl⟩
    have here := r.placeGap above (by omega)
    have low := r.placeLower x
    have up := r.placeUpper x
    unfold Ring.limit at *
    split <;> omega

theorem insideMarked (h : Rep p q r vr vw) {k : Pkt} (member : k ∈ q) (behind : linkOf k ≠ p.rdptr) :
    Inside p (freeStores p k.buf) := by
  obtain ⟨x, above, below, buf⟩ := chainBuf h.chain member
  have hdr : linkOf k = r.place x := by rw [linkOf, buf]; simp [mallocHdrSize]
  have one : freeStores p k.buf = [.word (linkOf k) (-p.mem (linkOf k))] := by
    simp only [freeStores, loopStores]
    exact if_neg behind
  rw [one]
  refine ⟨?_, trivial⟩
  intro a v same
  cases same
  exact (allocatedAt h.start h.stop h.rdptr h.wrptr (repLe h) h.span).mpr ⟨x, above, by omega, hdr⟩

/- The oldest packet's link is outside once the read pointer has moved. -/
theorem outsideSwept (h : Rep p q r vr vw) {k : Pkt} (member : k ∈ q) (oldest : linkOf k = p.rdptr) :
    ¬ Inside p (freeStores p k.buf) := by
  obtain ⟨pre, post, rfl⟩ := List.append_of_mem member
  obtain ⟨v, w, left, slot, right⟩ := chainSlot h.chain
  have size := slot.size
  have lo := chainLe left
  have hi := chainLe right
  have span := h.span
  have hdr : linkOf k = r.place v := by rw [linkOf, slot.buf]; simp [mallocHdrSize]
  have next := linkTarget slot (placePositive h w)
  intro inside
  have swept : Inside p (sweep p (r.place v) (r.place w)) := by
    unfold freeStores loopStores at inside
    rw [show k.buf - mallocHdrSize / 4 = r.place v from hdr] at inside
    simp only [if_pos (hdr.symm.trans oldest), next] at inside
    split at inside
    · exact inside
    · exact insideAppend inside
  have cleared := swept.2.2.1 _ _ rfl
  obtain ⟨x, above, below, same⟩ := (allocatedAt (p := apply (apply p (.rdptr (r.place w))) (.atStart _))
    h.start h.stop rfl h.wrptr hi (by omega)).mp cleared
  exact r.placeNe (a := v) ⟨by omega, by omega⟩ ⟨by omega, by omega⟩ (by omega) same

end ring

theorem freeStoresInsideIff {p : Pool} {q : List Pkt} {r : Ring} {vr vw : Nat} (h : Rep p q r vr vw) (settled : Settled q)
    {k : Pkt} (member : k ∈ q) (live : k.freed = false) :
    miiFree p k.buf = some ((freeStores p k.buf).foldl apply p) ∧
      (Inside p (freeStores p k.buf) ↔ linkOf k ≠ p.rdptr) := by
  obtain ⟨p', vr', returns, -⟩ := miiFreeRep h settled member live
  refine ⟨?_, ?_, insideMarked h member⟩
  · rw [returns, freeStores, loopStoresRun returns]
  · intro inside oldest
    exact outsideSwept h member oldest inside

theorem oldestFreedOutside : Rep twoWrapped [emptyPkt 33, emptyPkt 8] ⟨1, 59, by decide⟩ 30 80 ∧
    ¬ Inside twoWrapped (freeStores twoWrapped 33) :=
  ⟨twoWrappedRep, outsideSwept twoWrappedRep (k := emptyPkt 33) (by simp) (by decide)⟩

theorem freeStoresInsideYounger : Inside twoWrapped (freeStores twoWrapped 8) :=
  (freeStoresInsideIff twoWrappedRep (by simp [Settled, emptyPkt]) (k := emptyPkt 8) (by simp) rfl).2.mpr (by decide)

end ScEthernet.Full.FreeStores
