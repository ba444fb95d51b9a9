import ScEthernet.Lite.Buffer

/-! A bank of the receive store as a chain of packets. In the flat layout they lie from the
free pointer to the write pointer; in the wrapped one from the free pointer to the unused
tail, and on from the first word to the write pointer. A free pointer that was left on the
unused tail is a wrapped layout with nothing in front of the tail. -/
namespace ScEthernet.Lite.BankChain
open Lib.WordMemory Buffer

def Pkt.next (k : Pkt) : Int := k.hdr + (roundUp k.length + 4)

structure Slot (mem : Int → Int) (k : Pkt) : Prop where
  low : 4 ≤ k.length
  high : k.length ≤ maxTagged
  word : mem k.hdr = if k.freed then -(k.length : Int) else k.length

inductive Chain (mem : Int → Int) : Int → List Pkt → Int → Prop where
  | nil (a) : Chain mem a [] a
  | cons {a k q z} (here : k.hdr = a) (slot : Slot mem k) (rest : Chain mem (Pkt.next k) q z) :
      Chain mem a (k :: q) z

inductive Layout (mem : Int → Int) (first free wr limit : Int) : List Pkt → Prop where
  | flat {q} (low : first ≤ free) (chain : Chain mem free q (wr - 4)) : Layout mem first free wr limit q
  | wrapped {last q1 q2} (upper : Chain mem free q1 last) (tail : mem last = 0) (inside : last + 4 ≤ limit)
      (lower : Chain mem first q2 (wr - 4)) (below : wr ≤ free) : Layout mem first free wr limit (q1 ++ q2)

def Bank.limit (b : Bank) : Int := b.lastSafePtr + maxPacket

structure BankInv (b : Bank) (mem : Int → Int) (q : List Pkt) : Prop where
  base : b.firstPtr % 4 = 0
  last : b.lastSafePtr % 4 = 2
  size : b.firstPtr + 1510 ≤ b.lastSafePtr
  freeAligned : b.freePtr % 4 = 0
  wrAligned : b.wrPtr % 4 = 0
  wrLow : b.firstPtr + 4 ≤ b.wrPtr
  wrHigh : b.wrPtr ≤ b.lastSafePtr + 1526
  layout : Layout mem b.firstPtr b.freePtr b.wrPtr (Bank.limit b) q
  fits : b.wrPtr ≤ b.freePtr → b.wrPtr ≤ b.lastSafePtr
  marker : mem (b.wrPtr - 4) = 1
  early : ∀ k ∈ q, k.hdr + 4 ≤ b.lastSafePtr

def Clear (b : Bank) : Prop := b.wrPtr ≤ b.lastSafePtr ∧ (b.freePtr < b.wrPtr ∨ b.wrPtr + maxPacket ≤ b.freePtr)

def Vacant (b : Bank) (x : Int) : Prop :=
  (b.freePtr < b.wrPtr ∧ (x < b.freePtr ∨ b.wrPtr - 4 ≤ x)) ∨
  (b.wrPtr ≤ b.freePtr ∧ b.wrPtr - 4 ≤ x ∧ x < b.freePtr)

theorem roundUpBounds (l : Int) : l ≤ roundUp l ∧ roundUp l ≤ l + 3 ∧ roundUp l % 4 = 0 := by
  unfold roundUp; omega

section chains
variable {mem mem' : Int → Int} {a z : Int} {q q' : List Pkt} {k : Pkt}

theorem slotNext (slot : Slot mem k) : k.hdr + 8 ≤ Pkt.next k ∧ Pkt.next k ≤ k.hdr + 1528 ∧
    k.hdr + 4 + k.length ≤ Pkt.next k ∧ (k.hdr % 4 = 0 → Pkt.next k % 4 = 0) := by
  have low := slot.low
  have high := slot.high
  unfold maxTagged at high
  unfold Pkt.next roundUp
  omega

theorem chainBounds (h : Chain mem a q z) : a + 8 * q.length ≤ z ∧ (a % 4 = 0 → z % 4 = 0) := by
  induction h with
  | nil => simp
  | cons here slot rest ih =>
    have next := slotNext slot
    simp only [List.length_cons]
    omega

theorem chainMember (h : Chain mem a q z) (member : k ∈ q) :
    a ≤ k.hdr ∧ Pkt.next k ≤ z ∧ Slot mem k ∧ (a % 4 = 0 → k.hdr % 4 = 0) := by
  induction h with
  | nil => cases member
  | @cons a j q z here slot rest ih =>
    have next := slotNext slot
    have bounds := chainBounds rest
    rcases List.mem_cons.mp member with rfl | member
    · exact ⟨by omega, by omega, slot, fun aligned => here ▸ aligned⟩
    · obtain ⟨low, high, found, aligned⟩ := ih member
      exact ⟨by omega, high, found, fun start => aligned (by omega)⟩

theorem chainAppend (h : Chain mem a q z) {y : Int} (h' : Chain mem z q' y) : Chain mem a (q ++ q') y := by
  induction h with
  | nil => exact h'
  | cons here slot rest ih => exact .cons here slot (ih h')

theorem slotFrame (slot : Slot mem k) (same : mem' k.hdr = mem k.hdr) : Slot mem' k :=
  ⟨slot.low, slot.high, same.trans slot.word⟩

theorem chainFrame (h : Chain mem a q z) (same : ∀ x, a ≤ x → x < z → mem' x = mem x) :
    Chain mem' a q z := by
  induction h with
  | nil a => exact .nil a
  | cons here slot rest ih =>
    have next := slotNext slot
    have bounds := chainBounds rest
    exact .cons here (slotFrame slot (same _ (by omega) (by omega)))
      (ih fun x low high => same x (by omega) high)

theorem chainMark (h : Chain mem a q z) {hdr : Int} (used : 0 < mem hdr) :
    Chain (store mem hdr (-(mem hdr))) a (markFreed hdr q) z := by
  induction h with
  | nil a => exact .nil a
  | @cons a k q z here slot rest ih =>
    have low := slot.low
    by_cases same : k.hdr = hdr
    · have live : k.freed = false := by
        by_contra freed
        have word := slot.word
        rw [same, if_pos (by simpa using freed)] at word
        omega
      have word := slot.word
      rw [same, live] at word
      have marked : markFreed hdr (k :: q) = { k with freed := true } :: markFreed hdr q := by
        simp [markFreed, same]
      rw [marked]
      refine .cons here ⟨slot.low, slot.high, ?_⟩ ih
      rw [same, storeSame, word]
      rfl
    · have left : markFreed hdr (k :: q) = k :: markFreed hdr q := by
        simp [markFreed, same]
      rw [left]
      exact .cons here (slotFrame slot (storeOther same)) ih

theorem slotWordSign (slot : Slot mem k) : 0 < mem k.hdr ↔ k.freed = false := by
  have low := slot.low
  rw [slot.word]
  cases k.freed with
  | false => simp; omega
  | true => simp

@[simp] theorem markFreedLength (hdr : Int) (q : List Pkt) : (markFreed hdr q).length = q.length :=
  List.length_map ..

theorem markFreedAppend (hdr : Int) (q q' : List Pkt) :
    markFreed hdr (q ++ q') = markFreed hdr q ++ markFreed hdr q' := List.map_append

theorem reclaimSub (q : List Pkt) : ∀ k ∈ reclaim q, k ∈ q := by
  induction q with
  | nil => simp [reclaim]
  | cons k q ih =>
    intro j member
    unfold reclaim at member
    split at member
    · exact List.mem_cons_of_mem _ (ih j member)
    · exact member

theorem reclaimAppend (q q' : List Pkt) :
    reclaim (q ++ q') = if reclaim q = [] then reclaim q' else reclaim q ++ q' := by
  induction q with
  | nil => rfl
  | cons k q ih =>
    cases freed : k.freed <;> simp [reclaim, freed, ih]

theorem freeLoopStops (h : Chain mem a q z) (first : Int) (fuel : Nat) (enough : q.length ≤ fuel)
    (some : reclaim q ≠ []) :
    ∃ f, freeLoop mem first fuel a = Option.some f ∧ a ≤ f ∧ (a % 4 = 0 → f % 4 = 0) ∧
      Chain mem f (reclaim q) z := by
  induction h generalizing fuel with
  | nil => exact absurd rfl some
  | @cons a k q z here slot rest ih =>
    obtain ⟨fuel, rfl⟩ := Nat.exists_eq_succ_of_ne_zero (n := fuel) (by rw [List.length_cons] at enough; omega)
    have low := slot.low
    have word := slot.word
    rw [here] at word
    cases freed : k.freed with
    | false =>
      rw [freed] at word
      have used : mem a > 0 := by rw [word]; simp; omega
      simp only [freeLoop, if_pos used, reclaim, freed, Bool.false_eq_true, if_false]
      exact ⟨a, rfl, Int.le_refl a, id, .cons here slot rest⟩
    | true =>
      rw [freed, if_pos rfl] at word
      have next := slotNext slot
      simp only [reclaim, freed, if_true] at some ⊢
      obtain ⟨f, found, le, aligned, chain⟩ := ih fuel (by rw [List.length_cons] at enough; omega) some
      refine ⟨f, ?_, by omega, fun start => aligned (by omega), chain⟩
      have go : a + (roundUp (-(mem a)) + 4) = Pkt.next k := by
        rw [word, Int.neg_neg, Pkt.next, here]
      simp only [freeLoop, if_neg (show ¬ mem a > 0 by omega), if_neg (show ¬ mem a = 0 by omega), go]
      exact found

theorem freeLoopPositive {first : Int} {fuel : Nat} {f : Int} (found : freeLoop mem first fuel a = some f) :
    0 < mem f := by
  induction fuel generalizing a with
  | zero => cases found
  | succ fuel ih =>
    simp only [freeLoop] at found
    split at found
    · rename_i positive
      cases found
      exact positive
    · split at found <;> exact ih found

theorem freeLoopPasses (h : Chain mem a q z) (first : Int) (fuel : Nat) (none : reclaim q = []) :
    freeLoop mem first (fuel + q.length) a = freeLoop mem first fuel z := by
  induction h with
  | nil => rfl
  | @cons a k q z here slot rest ih =>
    have low := slot.low
    have word := slot.word
    rw [here] at word
    have freed : k.freed = true := by
      by_contra live
      simp [reclaim, live] at none
    simp only [reclaim, freed, if_true] at none
    rw [freed, if_pos rfl] at word
    have go : a + (roundUp (-(mem a)) + 4) = Pkt.next k := by
      rw [word, Int.neg_neg, Pkt.next, here]
    rw [List.length_cons, ← Nat.add_assoc]
    simp only [freeLoop, if_neg (show ¬ mem a > 0 by omega), if_neg (show ¬ mem a = 0 by omega), go]
    exact ih none

end chains

section banks
variable {b : Bank} {mem mem' : Int → Int} {q : List Pkt} {k : Pkt}

theorem bankBounds (h : BankInv b mem q) : b.wrPtr + 4 ≤ Bank.limit b ∧ b.firstPtr ≤ b.freePtr ∧
    b.freePtr < Bank.limit b ∧ (b.freePtr < b.wrPtr → b.freePtr + 4 ≤ b.wrPtr) := by
  have last := h.last
  have high := h.wrHigh
  have low := h.wrLow
  have aligned := h.wrAligned
  have free := h.freeAligned
  have limit : Bank.limit b = b.lastSafePtr + maxPacket := rfl
  unfold maxPacket at limit
  cases h.layout with
  | flat first chain => have bounds := chainBounds chain; omega
  | wrapped upper tail inside lower below => have bounds := chainBounds upper; omega

theorem bankSlot (h : BankInv b mem q) (member : k ∈ q) : Slot mem k ∧ k.hdr % 4 = 0 := by
  have base := h.base
  have free := h.freeAligned
  cases h.layout with
  | flat first chain =>
    obtain ⟨-, -, slot, aligned⟩ := chainMember chain member
    exact ⟨slot, aligned free⟩
  | wrapped upper tail inside lower below =>
    rcases List.mem_append.mp member with member | member
    · obtain ⟨-, -, slot, aligned⟩ := chainMember upper member
      exact ⟨slot, aligned free⟩
    · obtain ⟨-, -, slot, aligned⟩ := chainMember lower member
      exact ⟨slot, aligned base⟩

theorem slotOccupied (h : BankInv b mem q) (member : k ∈ q) {x : Int} (low : k.hdr ≤ x) (high : x < Pkt.next k) :
    ¬ Vacant b x ∧ b.firstPtr ≤ x ∧ x < Bank.limit b := by
  have bounds := bankBounds h
  have layout := h.layout
  unfold Vacant
  generalize b.wrPtr = wr at *
  generalize b.freePtr = fr at *
  cases layout with
  | flat first chain =>
    obtain ⟨a, z, -⟩ := chainMember chain member
    have whole := chainBounds chain
    omega
  | wrapped upper tail inside lower below =>
    have upperWhole := chainBounds upper
    rcases List.mem_append.mp member with member | member
    · obtain ⟨a, z, -⟩ := chainMember upper member
      omega
    · obtain ⟨a, z, -⟩ := chainMember lower member
      omega

theorem layoutFrame (h : BankInv b mem q)
    (same : ∀ x, b.firstPtr ≤ x → x < Bank.limit b → ¬ Vacant b x → mem' x = mem x) :
    Layout mem' b.firstPtr b.freePtr b.wrPtr (Bank.limit b) q := by
  have bounds := bankBounds h
  have layout := h.layout
  unfold Vacant at same
  generalize b.wrPtr = wr at *
  generalize b.freePtr = fr at *
  generalize b.firstPtr = first at *
  cases layout with
  | flat low chain =>
    have whole := chainBounds chain
    exact .flat low (chainFrame chain fun x a z => same x (by omega) (by omega) (by omega))
  | @wrapped last q1 q2 upper tail inside lower below =>
    have whole := chainBounds upper
    refine .wrapped (chainFrame upper fun x a z => same x (by omega) (by omega) (by omega)) ?_ inside
      (chainFrame lower fun x a z => same x (by omega) (by omega) (by omega)) below
    rw [same last (by omega) (by omega) (by omega)]
    exact tail

theorem bankFrame (h : BankInv b mem q)
    (same : ∀ x, b.firstPtr ≤ x → x < Bank.limit b → ¬ Vacant b x → mem' x = mem x)
    (marker : mem' (b.wrPtr - 4) = mem (b.wrPtr - 4)) : BankInv b mem' q :=
  { h with layout := layoutFrame h same, marker := marker.trans h.marker }

theorem clearVacant (h : BankInv b mem q) (clear : Clear b) {x : Int} (low : b.wrPtr - 4 ≤ x)
    (high : x < b.wrPtr + 1532) : Vacant b x ∧ x < Bank.limit b := by
  obtain ⟨room, free⟩ := clear
  have last := h.last
  have aligned := h.wrAligned
  have freeAligned := h.freeAligned
  unfold Vacant Bank.limit
  unfold maxPacket at *
  omega

theorem ampleVacant (h : BankInv b mem q) (clear : Clear b) (last : b.wrPtr + 1532 ≠ Bank.limit b)
    (free : b.wrPtr + 1532 ≠ b.freePtr) {x : Int} (low : b.wrPtr - 4 ≤ x) (high : x < b.wrPtr + 1536) :
    Vacant b x ∧ x < Bank.limit b := by
  obtain ⟨room, above⟩ := clear
  have end_ := h.last
  have aligned := h.wrAligned
  have freeAligned := h.freeAligned
  unfold Vacant Bank.limit at *
  unfold maxPacket at *
  omega

/- In the flat layout the free pointer does not rest on an unused tail, and below the last
safe position a free pointer above the write pointer does. -/
theorem freeWord (h : BankInv b mem q) : (b.freePtr < b.wrPtr → mem b.freePtr ≠ 0) ∧
    (b.wrPtr ≤ b.freePtr → b.lastSafePtr - 4 < b.freePtr → mem b.freePtr = 0) := by
  have marker := h.marker
  have early := h.early
  have layout := h.layout
  generalize b.wrPtr = wr at *
  generalize b.freePtr = fr at *
  cases layout with
  | flat low chain =>
    have whole := chainBounds chain
    refine ⟨fun _ => ?_, fun above => by omega⟩
    cases chain with
    | nil => rw [marker]; decide
    | cons here slot rest =>
      have low := slot.low
      have word := slot.word
      rw [here] at word
      rw [word]
      split <;> omega
  | wrapped upper tail inside lower below =>
    refine ⟨fun under => by omega, fun _ high => ?_⟩
    cases upper with
    | nil => exact tail
    | cons here slot rest =>
      have := early _ (List.mem_append_left _ List.mem_cons_self)
      omega

/- The wrap: the write marker becomes the unused tail and the head takes its place. -/
theorem wrapInv (h : BankInv b mem q) (flat : b.freePtr < b.wrPtr) (moved : b.freePtr ≠ b.firstPtr) :
    BankInv { b with wrPtr := b.firstPtr + 4 } (store (store mem (b.wrPtr - 4) 0) (b.firstPtr + 4 - 4) 1) q := by
  obtain ⟨base, last, size, freeAligned, wrAligned, wrLow, wrHigh, layout, fits, marker, early⟩ := h
  have limit : Bank.limit b = b.lastSafePtr + maxPacket := rfl
  unfold maxPacket at limit
  cases layout with
  | wrapped upper tail inside lower below => omega
  | flat low chain =>
    have whole := chainBounds chain
    have head : b.firstPtr + 4 - 4 = b.firstPtr := by omega
    rw [head]
    refine ⟨base, last, size, freeAligned, by dsimp only; omega, Int.le_refl _, by dsimp only; omega, ?_,
      fun _ => by dsimp only; omega, ?_, early⟩
    · have none : Chain (store (store mem (b.wrPtr - 4) 0) b.firstPtr 1) b.firstPtr [] (b.firstPtr + 4 - 4) := by
        rw [head]; exact .nil _
      have upper : Chain (store (store mem (b.wrPtr - 4) 0) b.firstPtr 1) b.freePtr q (b.wrPtr - 4) :=
        chainFrame chain fun x a z => by
          rw [storeOther (show x ≠ b.firstPtr by omega), storeOther (show x ≠ b.wrPtr - 4 by omega)]
      have wrapped : Layout _ b.firstPtr _ _ (Bank.limit b) _ := Layout.wrapped upper
        ((storeOther (show b.wrPtr - 4 ≠ b.firstPtr by omega)).trans (storeSame _ _ _))
        (by omega) none (by omega)
      rw [List.append_nil] at wrapped
      exact wrapped
    · dsimp only
      rw [head, storeSame]

structure Refilled (b : Bank) (q : List Pkt) (r : Bank × (Int → Int) × Int) : Prop where
  inv : BankInv r.1 r.2.1 q
  next : r.2.2 = -1 ∨ r.2.2 = r.1.wrPtr ∧ Clear r.1
  freePtr : r.1.freePtr = b.freePtr
  firstPtr : r.1.firstPtr = b.firstPtr
  lastSafePtr : r.1.lastSafePtr = b.lastSafePtr
  readPtr : r.1.readPtr = b.readPtr

theorem restartBankInv (h : BankInv b mem q) : Refilled b q (restartBank b mem) := by
  unfold restartBank
  split
  · rename_i high
    split
    · rename_i moved
      have fits := h.fits
      have wrap := wrapInv h (by omega) moved
      have size := h.size
      dsimp only
      split
      · rename_i room
        exact ⟨wrap, .inr ⟨rfl, by dsimp only; omega, .inr (by dsimp only; omega)⟩, rfl, rfl, rfl, rfl⟩
      · exact ⟨wrap, .inl rfl, rfl, rfl, rfl, rfl⟩
    · exact ⟨h, .inl rfl, rfl, rfl, rfl, rfl⟩
  · rename_i low
    split
    · rename_i room
      exact ⟨h, .inr ⟨rfl, by dsimp only; omega, by dsimp only; omega⟩, rfl, rfl, rfl, rfl⟩
    · exact ⟨h, .inl rfl, rfl, rfl, rfl, rfl⟩

def appended (b : Bank) (length : Nat) (words : List (BitVec 32)) : Pkt := ⟨b.wrPtr - 4, length, false, words⟩

theorem extendInv (h : BankInv b mem q) (clear : Clear b) {length : Nat} (low : 4 ≤ length)
    (high : length ≤ maxTagged) (rest : b.wrPtr + roundUp length + 4 > b.lastSafePtr → mem b.freePtr ≠ 0)
    (words : List (BitVec 32)) :
    BankInv { b with wrPtr := b.wrPtr + roundUp length + 4 }
      (store (store mem (b.wrPtr - 4) length) (b.wrPtr + roundUp length + 4 - 4) 1)
      (q ++ [appended b length words]) := by
  obtain ⟨room, free⟩ := clear
  obtain ⟨tailFree, -⟩ := freeWord h
  have onTail := (freeWord h).2
  have bounds := bankBounds h
  obtain ⟨base, last, size, freeAligned, wrAligned, wrLow, wrHigh, layout, fits, marker, early⟩ := h
  have round := roundUpBounds length
  have limit : Bank.limit b = b.lastSafePtr + maxPacket := rfl
  unfold maxPacket at limit free
  unfold maxTagged at high
  have behind : b.wrPtr + roundUp length + 4 - 4 = b.wrPtr + roundUp length := by omega
  rw [behind]
  generalize into : store (store mem (b.wrPtr - 4) length) (b.wrPtr + roundUp length) 1 = m
  have same : ∀ x, x ≠ b.wrPtr - 4 → x ≠ b.wrPtr + roundUp length → m x = mem x := by
    intro x header mark
    rw [← into, storeOther mark, storeOther header]
  have slot : Slot m (appended b length words) := by
    refine ⟨low, high, ?_⟩
    rw [← into]
    exact (storeOther (show b.wrPtr - 4 ≠ b.wrPtr + roundUp length by omega)).trans (storeSame _ _ _)
  have one : Chain m (b.wrPtr - 4) [appended b length words] (b.wrPtr + roundUp length + 4 - 4) := by
    refine .cons rfl slot ?_
    have : Pkt.next (appended b length words) = b.wrPtr + roundUp length + 4 - 4 := by
      simp only [Pkt.next, appended]; omega
    rw [this]
    exact .nil _
  refine ⟨base, last, size, freeAligned, by dsimp only; omega, by dsimp only; omega, by dsimp only; omega,
    ?_, ?_, ?_, ?_⟩
  · cases layout with
    | flat first chain =>
      exact .flat first (chainAppend (chainFrame chain fun x a z => same x (by omega) (by omega)) one)
    | @wrapped last q1 q2 upper tail inside lower below =>
      have whole := chainBounds upper
      have above := chainFrame upper fun x a z => same x (by omega) (by omega)
      rw [List.append_assoc]
      refine .wrapped above ?_ inside
        (chainAppend (chainFrame lower fun x a z => same x (by omega) (by omega)) one) (by dsimp only; omega)
      rw [same last (by omega) (by omega)]
      exact tail
  · dsimp only
    intro above
    by_contra beyond
    exact rest (by omega) (onTail (by omega) (by omega))
  · dsimp only
    rw [behind, ← into, storeSame]
  · intro k member
    rcases List.mem_append.mp member with old | new
    · exact early k old
    · rw [List.mem_singleton.mp new]
      simp only [appended]; omega

theorem commitBankInv (h : BankInv b mem q) (clear : Clear b) {length : Nat} (low : 4 ≤ length)
    (high : length ≤ maxTagged) (rest : b.wrPtr + roundUp length + 4 > b.lastSafePtr → mem b.freePtr ≠ 0)
    (words : List (BitVec 32)) :
    Refilled b (q ++ [appended b length words]) (commitBank b mem length) := by
  have inv := extendInv h clear low high rest words
  have flat := (freeWord h).2
  have round := roundUpBounds length
  have fits := inv.fits
  dsimp only at fits
  unfold commitBank
  dsimp only
  split
  · rename_i beyond
    split
    · rename_i moved
      have wrap := wrapInv inv (by dsimp only; omega) moved
      have size := h.size
      rw [storeAgain] at wrap
      split
      · rename_i room
        exact ⟨wrap, .inr ⟨rfl, by dsimp only; omega, .inr (by dsimp only; omega)⟩, rfl, rfl, rfl, rfl⟩
      · exact ⟨wrap, .inl rfl, rfl, rfl, rfl, rfl⟩
    · exact ⟨inv, .inl rfl, rfl, rfl, rfl, rfl⟩
  · rename_i within
    split
    · rename_i room
      exact ⟨inv, .inr ⟨rfl, by dsimp only; omega, by dsimp only; omega⟩, rfl, rfl, rfl, rfl⟩
    · exact ⟨inv, .inl rfl, rfl, rfl, rfl, rfl⟩

theorem commitBankStores {length x : Int} (changed : (commitBank b mem length).2.1 x ≠ mem x) :
    x = b.wrPtr - 4 ∨ x = b.wrPtr + roundUp length ∨
      x = b.firstPtr ∧ b.freePtr ≠ b.firstPtr ∧ b.wrPtr + roundUp length + 4 > b.lastSafePtr := by
  by_contra none
  apply changed
  unfold commitBank
  dsimp only
  split_ifs <;> dsimp only <;> repeat rw [storeOther (by omega)]

theorem restartBankStores {x : Int} (changed : (restartBank b mem).2.1 x ≠ mem x) :
    (x = b.wrPtr - 4 ∨ x = b.firstPtr) ∧ b.freePtr ≠ b.firstPtr ∧ b.wrPtr > b.lastSafePtr := by
  by_contra none
  apply changed
  unfold restartBank
  dsimp only
  split_ifs <;> dsimp only <;> repeat rw [storeOther (by omega)]

theorem markedEarly {p : Int → Prop} (early : ∀ k ∈ q, p k.hdr) (hdr : Int) :
    ∀ k ∈ reclaim (markFreed hdr q), p k.hdr := by
  intro k member
  obtain ⟨j, old, same⟩ := List.mem_map.mp (reclaimSub _ k member)
  have kept : k.hdr = j.hdr := by
    rw [← same]; split <;> rfl
  rw [kept]
  exact early j old

theorem freeLoopMarker {a z : Int} (h : Chain mem a q z) (marker : mem z = 1) (first : Int)
    (fuel : Nat) (enough : q.length < fuel) :
    ∃ f, freeLoop mem first fuel a = some f ∧ a ≤ f ∧ (a % 4 = 0 → f % 4 = 0) ∧ Chain mem f (reclaim q) z := by
  have whole := chainBounds h
  by_cases none : reclaim q = []
  · obtain ⟨fuel, rfl⟩ : ∃ n, fuel = n + 1 + q.length := ⟨fuel - 1 - q.length, by omega⟩
    refine ⟨z, ?_, by omega, whole.2, none ▸ .nil z⟩
    rw [freeLoopPasses h first _ none, freeLoop, marker]
    rfl
  · exact freeLoopStops h first _ (by omega) none

theorem freeBankInv (h : BankInv b mem q) (member : k ∈ q) (live : k.freed = false) :
    ∃ f, freeLoop (store mem k.hdr (-(mem k.hdr))) b.firstPtr (freeFuel b) b.freePtr = some f ∧
      BankInv { b with freePtr := f } (store mem k.hdr (-(mem k.hdr))) (reclaim (markFreed k.hdr q)) ∧
      (Clear b → Clear { b with freePtr := f }) := by
  have slot := (bankSlot h member).1
  have used := (slotWordSign slot).mpr live
  have outside := slotOccupied h member (Int.le_refl _) (by have := slotNext slot; omega)
  unfold Vacant at outside
  obtain ⟨base, last, size, freeAligned, wrAligned, wrLow, wrHigh, layout, fits, marker, early⟩ := h
  have limit : Bank.limit b = b.lastSafePtr + maxPacket := rfl
  unfold maxPacket at limit
  have early' := markedEarly (p := fun hdr => hdr + 4 ≤ b.lastSafePtr) early k.hdr
  have fuel : (freeFuel b : Int) = b.lastSafePtr - b.firstPtr := by unfold freeFuel; omega
  have mark : ∀ {a z q'}, Chain mem a q' z → Chain _ a (markFreed k.hdr q') z := fun chain => chainMark chain used
  have other : ∀ x, x ≠ k.hdr → store mem k.hdr (-(mem k.hdr)) x = mem x := fun x ne => storeOther ne
  generalize store mem k.hdr (-(mem k.hdr)) = m at mark other ⊢
  have marker' : m (b.wrPtr - 4) = 1 := (other _ (by omega)).trans marker
  cases layout with
  | flat low chain =>
    have whole := chainBounds chain
    obtain ⟨f, found, le, aligned, chain'⟩ := freeLoopMarker (mark chain) marker' b.firstPtr
      (freeFuel b) (by rw [markFreedLength]; omega)
    have whole' := chainBounds chain'
    have flat : Layout m b.firstPtr f b.wrPtr (Bank.limit b) (reclaim (markFreed k.hdr q)) :=
      .flat (by omega) chain'
    exact ⟨f, found, ⟨base, last, size, aligned freeAligned, wrAligned, wrLow, wrHigh, flat,
      fun above => by dsimp only at above; omega, marker', early'⟩,
      fun clear => ⟨clear.1, .inl (by dsimp only; omega)⟩⟩
  | @wrapped tail q1 q2 upper zero inside lower below =>
    have upperWhole := chainBounds upper
    have lowerWhole := chainBounds lower
    have atTail : m tail = 0 := by
      refine (other _ fun same => ?_).trans zero
      rw [← same, zero] at used
      omega
    rw [markFreedAppend, reclaimAppend] at early' ⊢
    by_cases none : reclaim (markFreed k.hdr q1) = []
    · simp only [if_pos none] at early' ⊢
      obtain ⟨n, total⟩ : ∃ n, freeFuel b = n + 1 + q1.length := ⟨freeFuel b - 1 - q1.length, by omega⟩
      obtain ⟨f, found, le, aligned, chain'⟩ := freeLoopMarker (mark lower) marker' b.firstPtr
        n (by rw [markFreedLength]; omega)
      have whole' := chainBounds chain'
      have passed : freeLoop m b.firstPtr (freeFuel b) b.freePtr = some f := by
        rw [total, ← markFreedLength k.hdr q1, freeLoopPasses (mark upper) _ _ none, freeLoop, atTail]
        exact found
      exact ⟨f, passed, ⟨base, last, size, aligned base, wrAligned, wrLow, wrHigh, .flat le chain',
        fun above => by dsimp only at above; omega, marker', early'⟩,
        fun clear => ⟨clear.1, .inl (by dsimp only; omega)⟩⟩
    · simp only [if_neg none] at early' ⊢
      obtain ⟨f, found, le, aligned, chain'⟩ := freeLoopStops (mark upper) b.firstPtr (freeFuel b)
        (by rw [markFreedLength]; omega) none
      have whole' := chainBounds chain'
      have wrapped : Layout m b.firstPtr f b.wrPtr (Bank.limit b)
          (reclaim (markFreed k.hdr q1) ++ markFreed k.hdr q2) :=
        .wrapped chain' atTail inside (mark lower) (by omega)
      refine ⟨f, found, ⟨base, last, size, aligned freeAligned, wrAligned, wrLow, wrHigh, wrapped,
        fun _ => fits below, marker', early'⟩, fun clear => ⟨clear.1, ?_⟩⟩
      have room := clear.2
      dsimp only
      omega

end banks

end ScEthernet.Lite.BankChain
