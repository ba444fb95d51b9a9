import ScEthernet.Lite.ReadSide

/-! The receive store under a user that holds one packet at a time and calls mii_restart_buffer
after each mii_free_in_buffer, where a bank has room for more than one packet: no pointer is ever
left on an unused tail, and the words of a packet stay in memory until it is freed. -/
namespace ScEthernet.Lite.Stock
open Lib.WordMemory Lib.BitOrder Wire Buffer BankChain StoreInv StoreSafety ReadSide

structure Intact (mem : Int → Int) (k : Pkt) : Prop where
  length : ∃ odd : Fin 4, k.length = 4 * k.words.length + odd.val
  words : ∀ i (h : i < k.words.length), 4 * i + 4 < k.length → mem (k.hdr + 8 + 4 * i) = k.words[i].toInt

/- `freed` is true between mii_free_in_buffer and mii_restart_buffer. -/
structure Stocked (s : Store) (freed : Bool) (held waiting : Bool → List Pkt) : Prop where
  fifo : Fifo s held waiting
  front : ReadFront s waiting
  free : ∀ c, 0 < s.mem (s.data.bank c).freePtr
  late : ∀ c, (s.data.bank c).wrPtr > (s.data.bank c).lastSafePtr →
    (s.data.bank c).freePtr = (s.data.bank c).firstPtr ∨
      freed = true ∧ (s.data.bank c).freePtr ≤ (s.data.bank c).firstPtr + 1528
  size : ∀ c, (s.data.bank c).firstPtr + 1532 < (s.data.bank c).lastSafePtr
  intact : ∀ c, ∀ k ∈ s.queue c, Intact s.mem k
  filled : s.inPacket = true → ∀ i (h : i < s.words.length),
    s.mem (s.data.packetInLLD + 4 + 4 * i) = s.words[i].toInt

section banks
variable {b : Bank} {mem mem' : Int → Int} {q : List Pkt} {k : Pkt}

theorem lateRest (h : BankInv b mem q) (beyond : b.wrPtr > b.lastSafePtr) (low : b.freePtr + 1532 < b.lastSafePtr) :
    q ≠ [] ∧ Chain mem b.freePtr q (b.wrPtr - 4) := by
  have fits := h.fits
  have layout := h.layout
  generalize b.freePtr = free at *
  cases layout with
  | flat first chain =>
    refine ⟨?_, chain⟩
    rintro rfl
    have := chainFront chain b.wrPtr rfl
    rw [frontPtr] at this
    omega
  | wrapped upper tail inside lower below => omega

theorem frontBehind {free wr : Int} (chain : Chain mem free (k :: q) (wr - 4)) : frontPtr q wr ≤ free + 1528 := by
  cases chain with
  | cons here slot rest =>
    have next := slotNext slot
    have target := chainFront rest wr rfl
    omega

theorem commitLate {length : Int} (first : b.firstPtr + 4 ≤ b.lastSafePtr)
    (beyond : (commitBank b mem length).1.wrPtr > (commitBank b mem length).1.lastSafePtr) : b.freePtr = b.firstPtr := by
  unfold commitBank at beyond
  dsimp only at beyond
  split_ifs at beyond <;> dsimp only at beyond <;> omega

theorem restartLate (first : b.firstPtr + 4 ≤ b.lastSafePtr)
    (beyond : (restartBank b mem).1.wrPtr > (restartBank b mem).1.lastSafePtr) : b.freePtr = b.firstPtr := by
  unfold restartBank at beyond
  dsimp only at beyond
  split_ifs at beyond <;> dsimp only at beyond <;> omega

theorem intactFrame (intact : Intact mem k) (same : ∀ a, Occupies k a → a ≠ k.hdr → mem' a = mem a) : Intact mem' k := by
  refine ⟨intact.length, fun i inside sent => ?_⟩
  rw [same _ ⟨by omega, by omega⟩ (by omega)]
  exact intact.words i inside sent

end banks

section calls
variable {s t : Store} {freed : Bool} {held waiting : Bool → List Pkt} {c : Bool} {k : Pkt}

theorem freeFront (h : Stocked s freed held waiting) (c : Bool) :
    (s.data.bank c).freePtr = frontPtr (s.queue c) (s.data.bank c).wrPtr :=
  layoutFront (h.fifo.inv.banks.each c) (h.free c)

theorem frontFree (h : Fifo s held waiting) (front : (s.data.bank c).freePtr = frontPtr (s.queue c) (s.data.bank c).wrPtr) :
    0 < s.mem (s.data.bank c).freePtr := by
  rw [front]
  exact frontUsed (h.inv.banks.each c) (fun k member => member) (h.unfreed c)

theorem readStocked {held' waiting' : Bool → List Pkt} (h : Stocked s freed held waiting) (read : OnlyRead s t)
    (fifo : Fifo t held' waiting') (front : ReadFront t waiting') : Stocked t freed held' waiting' := by
  have fields := readFields read
  refine ⟨fifo, front, fun c => ?_, fun c => ?_, fun c => ?_, by rw [read.queue, read.mem]; exact h.intact, ?_⟩
  · rw [read.mem, (fields c).2.1]; exact h.free c
  · obtain ⟨wr, free, first, last⟩ := fields c
    rw [wr, free, first, last]; exact h.late c
  · obtain ⟨-, -, first, last⟩ := fields c
    rw [first, last]; exact h.size c
  · rw [read.driver.2.2.1, read.mem, read.data.2.1]
    simp only [read.driver.2.2.2]
    exact h.filled

inductive Taken (s t : Store) (o : Obtained) (freed : Bool) (held waiting : Bool → List Pkt) : Prop where
  | nothing (a : o.a = 0) (none : ∀ c, waiting c = []) (next : Stocked t freed held waiting)
  | packet (c : Bool) (k : Pkt) (rest : List Pkt) (first : waiting c = k :: rest)
      (turn : c = !s.data.readBank ∨ waiting (!s.data.readBank) = []) (bank : t.data.readBank = c)
      (a : o.a = k.hdr + 8) (nBytes : o.nBytes = (k.length : Int) - 4)
      (next : Stocked t freed (fun y => if y = c then held y ++ [k] else held y)
        (fun y => if y = c then rest else waiting y))

theorem getStocked (h : Stocked s freed held waiting) :
    Taken s (miiGetInBuffer s).1 (miiGetInBuffer s).2 freed held waiting := by
  have read := getReads s
  cases getFifo h.fifo with
  | nothing a none next front => exact .nothing a none (readStocked h read next (front h.front))
  | packet c k rest first turn bank a nBytes next front =>
    exact .packet c k rest first turn bank a nBytes (readStocked h read next (front h.front))

theorem notifiedStocked (h : Stocked s freed held waiting) (taken : miiNotified s = some t) :
    Stocked t freed held waiting := by
  obtain ⟨fifo, bank, -⟩ := notifiedFifo h.fifo taken
  refine readStocked h (notifiedReads taken) fifo fun c => ?_
  rw [bank]
  exact h.front c

theorem filledOutside (h : Inv s) {i : Nat} (on : s.inPacket = true) (inside : i < s.words.length) {j : Pkt}
    (member : j ∈ s.queue c) {a : Int} (occupied : Occupies j a) : s.data.packetInLLD + 4 + 4 * i ≠ a := by
  obtain ⟨x, driving⟩ := h.driving
  have short := (h.filling on).short
  have apart := fillsOutside h.banks driving.room member occupied
  rw [driving.current]
  unfold maxTagged at short
  unfold Fills maxFrame at apart
  omega

theorem bankApart {x : Bool} {j : Pkt} {a : Int} (h : Banks s.data.bank s.mem s.queue) (member : k ∈ s.queue c) (ne : x ≠ c)
    (there : j ∈ s.queue x) (occupied : Occupies j a) : a ≠ k.hdr := by
  rintro rfl
  have header := queueWithin h member
  have within := occupiesInside h there occupied
  rw [Bool.eq_not_of_ne ne] at within
  exact bankOther h header.1 (by omega) ⟨within.2.1, within.2.2⟩

theorem freeStocked (h : Stocked s false (fun y => if y = c then [k] else []) waiting) :
    ∃ t, miiFreeInBuffer s (k.hdr + 8) = some t ∧ Stocked t true (fun _ => []) waiting ∧
      t.committed = s.committed ∧ t.notifications = s.notifications ∧ t.data.notifyLast = s.data.notifyLast ∧
      t.data.notifySeen = s.data.notifySeen ∧ t.data.readBank = s.data.readBank := by
  have queue : s.queue c = k :: waiting c := by
    have split := h.fifo.split c
    rwa [if_pos rfl] at split
  have member : k ∈ s.queue c := by rw [queue]; exact List.mem_cons_self
  obtain ⟨t, f, freed, fifo, mem, data, used, committed, notifications, inPacket, words⟩ := freeFifo h.fifo
  have head := h.fifo.inv.banks.each c
  rw [queue] at head
  have left : t.queue = waiting := by
    funext y
    simpa using fifo.split y
  have bank : ∀ y, t.data.bank y = if y = c then { s.data.bank c with freePtr := f } else s.data.bank y := by
    intro y; rw [data]; rfl
  have fields : ∀ y, (t.data.bank y).wrPtr = (s.data.bank y).wrPtr ∧
      (t.data.bank y).readPtr = (s.data.bank y).readPtr ∧ (t.data.bank y).firstPtr = (s.data.bank y).firstPtr ∧
      (t.data.bank y).lastSafePtr = (s.data.bank y).lastSafePtr := by
    intro y
    rw [bank]
    split
    · rename_i same; rw [same]; exact ⟨rfl, rfl, rfl, rfl⟩
    · exact ⟨rfl, rfl, rfl, rfl⟩
  have stored : ∀ a, a ≠ k.hdr → t.mem a = s.mem a := fun a other => by rw [mem]; exact storeOther other
  have front := freeFront h
  refine ⟨t, freed, ⟨fifo, fun y => ?_, fun y => ?_, fun y beyond => ?_, fun y => ?_, fun y j live => ?_, ?_⟩, committed,
    notifications, by rw [data]; rfl, by rw [data]; rfl, by rw [data]; rfl⟩
  · rw [(fields y).1, (fields y).2.1]; exact h.front y
  · by_cases same : y = c
    · rw [bank, if_pos same]; exact used
    · refine frontFree fifo ?_
      have split := h.fifo.split y
      rw [if_neg same, List.nil_append] at split
      rw [left, ← split, bank, if_neg same]
      exact front y
  · obtain ⟨wr, -, first, last⟩ := fields y
    rw [wr, last] at beyond
    have size := h.size y
    have before : (s.data.bank y).freePtr = (s.data.bank y).firstPtr :=
      (h.late y beyond).resolve_right fun freed => by simp at freed
    rw [first]
    by_cases same : y = c
    · refine .inr ⟨rfl, ?_⟩
      subst same
      obtain ⟨-, chain⟩ := lateRest head beyond (by omega)
      have now := layoutFront (fifo.inv.banks.each y) (by rw [bank, if_pos rfl]; exact used)
      rw [left, wr] at now
      rw [now, ← before]
      exact frontBehind chain
    · rw [bank, if_neg same]
      exact .inl before
  · obtain ⟨-, -, first, last⟩ := fields y
    rw [first, last]; exact h.size y
  · rw [left] at live
    have old : j ∈ s.queue y := by rw [h.fifo.split]; exact List.mem_append_right _ live
    refine intactFrame (h.intact y j old) fun a inside _ => stored a ?_
    by_cases same : y = c
    · subst same
      exact headApart head live inside
    · exact bankApart h.fifo.inv.banks member same old inside
  · rw [inPacket]
    intro on i inside
    have packet : t.data.packetInLLD = s.data.packetInLLD := by rw [data]; rfl
    simp only [words] at inside ⊢
    have slot := (bankSlot (h.fifo.inv.banks.each c) member).1
    rw [packet, stored _ (filledOutside h.fifo.inv on inside member ⟨Int.le_refl _, by omega⟩)]
    exact h.filled on i inside

/- The banks that mii_restart_buffer may find late are those without a next buffer. -/
theorem lateRefill (h : Inv s) (beyond : (s.data.bank c).wrPtr > (s.data.bank c).lastSafePtr) :
    s.data.nextBuffer = -1 ∧ s.data.refillBankNumber = c := by
  obtain ⟨x, driving⟩ := h.driving
  have room := driving.room.1
  have other : c = !x := by
    refine Bool.eq_not_of_ne ?_
    rintro rfl
    omega
  rcases driving.next with ⟨none, refill⟩ | ⟨-, clear⟩
  · exact ⟨none, refill.trans other.symm⟩
  · have := clear.1
    rw [other] at beyond
    omega

theorem filledInside (h : Inv s) {i : Nat} (on : s.inPacket = true) (inside : i < s.words.length) {x : Bool}
    (driving : Driving s.data x) : (s.data.bank x).firstPtr ≤ s.data.packetInLLD + 4 + 4 * i ∧
      s.data.packetInLLD + 4 + 4 * i < Bank.limit (s.data.bank x) := by
  have short := (h.filling on).short
  have within := bankWithin h.banks x
  unfold maxTagged at short
  rw [driving.current]
  exact ⟨by omega, (clearVacant (h.banks.each x) driving.room (by omega) (by omega)).2⟩

structure RestartBank (s : Store) (waiting : Bool → List Pkt) (t : Store) (c : Bool) : Prop where
  front : frontPtr (waiting c) (t.data.bank c).wrPtr = frontPtr (waiting c) (s.data.bank c).wrPtr
  read : (t.data.bank c).readPtr = (s.data.bank c).readPtr
  free : (t.data.bank c).freePtr = (s.data.bank c).freePtr
  first : (t.data.bank c).firstPtr = (s.data.bank c).firstPtr
  last : (t.data.bank c).lastSafePtr = (s.data.bank c).lastSafePtr

theorem bankKept (kept : t.data.bank c = s.data.bank c) : RestartBank s waiting t c := by
  constructor <;> rw [kept]

theorem restartFields (h : Stocked s freed (fun _ => []) waiting) (c : Bool)
    (bank : t.data.bank c = (restartBank (s.data.bank c) s.mem).1) : RestartBank s waiting t c := by
  rcases restartCases (s.data.bank c) s.mem with ⟨kept, -⟩ | ⟨late, moved, wrapped, -⟩
  · exact bankKept (bank.trans kept)
  · have some : waiting c ≠ [] := by
      intro empty
      have low := ((h.late c late).resolve_left moved).2
      have front := freeFront h c
      have list : s.queue c = waiting c := by simpa using h.fifo.split c
      have size := h.size c
      rw [list, empty, frontPtr] at front
      omega
    obtain ⟨k, rest, list⟩ := List.exists_cons_of_ne_nil some
    have moved := bank.trans wrapped
    refine ⟨?_, by rw [moved], by rw [moved], by rw [moved], by rw [moved]⟩
    rw [list]
    rfl

theorem restartStocked (h : Stocked s freed (fun _ => []) waiting) :
    Stocked (miiRestartBuffer s) false (fun _ => []) waiting := by
  have fifo := restartFifo h.fifo
  by_cases none : s.data.nextBuffer = -1
  case neg =>
    have same : miiRestartBuffer s = s := if_pos none
    rw [same]
    exact { h with late := fun c beyond => absurd (lateRefill h.fifo.inv beyond).1 none }
  obtain ⟨mem, banks, -, packet, -, queue, -, inPacket, words, -⟩ := restartEq none
  obtain ⟨x, driving⟩ := h.fifo.inv.driving
  have refill : s.data.refillBankNumber = !x := by
    rcases driving.next with ⟨-, refill⟩ | ⟨some, -⟩
    · exact refill
    · have := bankWithin h.fifo.inv.banks (!x)
      omega
  rw [refill] at mem banks
  have bank : ∀ c, (miiRestartBuffer s).data.bank c =
      if c = !x then (restartBank (s.data.bank !x) s.mem).1 else s.data.bank c := fun c => congrFun banks c
  have lists : ∀ c, s.queue c = waiting c := fun c => by simpa using h.fifo.split c
  have fields : ∀ c, RestartBank s waiting (miiRestartBuffer s) c := by
    intro c
    by_cases same : c = !x
    · exact restartFields h c (by rw [bank, if_pos same, same])
    · exact bankKept (by rw [bank, if_neg same])
  refine ⟨fifo, fun c => ?_, fun c => ?_, fun c beyond => ?_, fun c => ?_, fun c k member => ?_, ?_⟩
  · rw [(fields c).front, (fields c).read]; exact h.front c
  · refine frontFree fifo ?_
    rw [queue, (fields c).free, lists, (fields c).front, ← lists]
    exact freeFront h c
  · rw [(fields c).free, (fields c).first]
    left
    by_cases same : c = !x
    · subst same
      have size := h.size (!x)
      rw [bank, if_pos rfl] at beyond
      exact restartLate (by omega) beyond
    · rw [bank, if_neg same] at beyond
      exact absurd ((lateRefill h.fifo.inv beyond).2.symm.trans refill) same
  · rw [(fields c).first, (fields c).last]; exact h.size c
  · rw [queue] at member
    refine intactFrame (h.intact c k member) fun a inside _ => ?_
    rw [mem]
    exact restartKept h.fifo.inv.banks member inside
  · rw [inPacket, packet]
    simp only [words]
    intro on i inside
    rw [← h.filled on i inside, mem]
    by_contra changed
    have touched := restartInside h.fifo.inv.banks changed
    exact bankOther h.fifo.inv.banks touched.1 touched.2 (by
      rw [Bool.not_not]
      exact filledInside h.fifo.inv on inside driving)

theorem filledNext {e : Rx} (h : Inv s) (filled : s.inPacket = true → ∀ i (h : i < s.words.length),
      s.mem (s.data.packetInLLD + 4 + 4 * i) = s.words[i].toInt) (taken : receive s e = some t) :
    t.inPacket = true → ∀ i (h : i < t.words.length), t.mem (t.data.packetInLLD + 4 + 4 * i) = t.words[i].toInt := by
  cases e with
  | preamble time =>
    simp only [receive, receiveUpTo] at taken
    split at taken
    · cases taken
    · cases taken
      intro _ i inside
      cases inside
  | word word =>
    simp only [receive, receiveUpTo] at taken
    split at taken
    case isFalse => cases taken
    rename_i more
    have r4 := (h.filling more.1).r4
    cases taken
    intro on i inside
    dsimp only at inside ⊢
    rw [List.length_append, List.length_singleton] at inside
    by_cases old : i < s.words.length
    · rw [List.getElem_append_left old, storeOther (by omega)]
      exact filled on i old
    · have last : i = s.words.length := by omega
      subst last
      rw [List.getElem_concat_length rfl, show s.data.packetInLLD + 4 + 4 * (s.words.length : Int) = s.r4 + 4 by omega, storeSame]
  | interrupt odd tailBits =>
    simp only [receive, receiveUpTo] at taken
    split at taken
    · cases taken
      intro on
      cases on
    · cases taken

theorem committedIntact {e : Rx} {x : Bool} (h : Stocked s freed held waiting) (commits : Commits s e x k t)
    (taken : receive s e = some t) (member : k ∈ live t) (safe : StepSafe s (.rx e) t) : Intact t.mem k := by
  obtain ⟨odd, tailBits, rfl, -, made, -⟩ := commits.event
  have on : s.inPacket = true := by
    simp only [receive, receiveUpTo] at taken
    split at taken
    · rename_i more; exact more.1
    · cases taken
  have fill := h.fifo.inv.filling on
  have length : k.length = 4 * s.words.length + odd.val := by rw [made]; rfl
  have words : k.words = s.words := by rw [made]; rfl
  have hdr : k.hdr = s.data.packetInLLD - 4 := by rw [made, commits.driving.current]; rfl
  refine ⟨⟨odd, by rw [words]; exact length⟩, fun i inside sent => ?_⟩
  have kept := safe.kept (fun base same => by cases same) k member (k.hdr + 8 + 4 * i) ⟨by omega, by omega⟩ (.inr (by omega))
  rw [kept]
  simp only [words] at inside ⊢
  rw [← h.filled on i inside]
  by_contra changed
  rw [show k.hdr + 8 + 4 * (i : Int) = s.data.packetInLLD + 4 + 4 * i by omega] at changed
  have place : s.data.packetInLLD + 4 + 4 * (i : Int) < s.r4 + 4 := by
    rw [fill.r4]
    omega
  refine changed ?_
  simp only [driven, miiRxLastBits]
  rw [storeOther (by omega), storeOther (by omega), storeOther (by omega)]

theorem stockSpared (h : Stocked s freed held waiting) (odd : Fin 4) (tailBits : BitVec 32) : Spared s odd tailBits := by
  intro _ _ _ none
  have := h.free (bankNumber s.data s.data.packetInLLD)
  omega

theorem receiveSafe {e : Rx} (h : Stocked s freed held waiting) (taken : receive s e = some t) : StepSafe s (.rx e) t := by
  have spares : Spares ⟨s, []⟩ (.rx e) := by
    cases e with
    | interrupt odd tailBits => exact stockSpared h odd tailBits
    | _ => trivial
  refine stepSafe (s := ⟨s, []⟩) (t := ⟨t, []⟩) h.fifo.inv spares ?_
  simp only [StoreSafety.step, taken]
  rfl

theorem receiveIntact {e : Rx} (h : Stocked s freed held waiting) (taken : receive s e = some t)
    (alive : ∀ c, ∀ j ∈ t.queue c, j.freed = false) : ∀ c, ∀ j ∈ s.queue c, j ∈ t.queue c → Intact t.mem j := by
  intro c j before after
  have safe := receiveSafe h taken
  have lived : j ∈ live s := liveIff.mpr ⟨c, before, h.fifo.unfreed c j before⟩
  refine intactFrame (h.intact c j before) fun a inside _ => ?_
  rw [safe.kept (fun base same => by cases same) j (liveIff.mpr ⟨c, after, alive c j after⟩) a inside (.inl lived)]
  exact safe.driver j lived a inside

theorem commitStocked {e : Rx} {x : Bool} (h : Stocked s freed held waiting) (taken : receive s e = some t)
    (commits : Commits s e x k t) (fifo : Fifo t held (fun y => if y = x then waiting y ++ [k] else waiting y))
    (front : ReadFront t (fun y => if y = x then waiting y ++ [k] else waiting y)) :
    Stocked t freed held (fun y => if y = x then waiting y ++ [k] else waiting y) := by
  obtain ⟨odd, tailBits, -, -, made, bank⟩ := commits.event
  have banks : ∀ c, t.data.bank c = if c = x then
      (commitBank (s.data.bank x) (miiRxLastBits s odd tailBits).mem (4 * s.words.length + odd.val : Nat)).1
    else s.data.bank c := fun c => congrFun bank c
  have queues : ∀ c, t.queue c = if c = x then s.queue c ++ [k] else s.queue c := fun c => congrFun commits.queue c
  have hdr : k.hdr = (s.data.bank x).wrPtr - 4 := by rw [made]; rfl
  obtain ⟨-, first, last, free⟩ := commitBankFields (s.data.bank x) (miiRxLastBits s odd tailBits).mem
    (4 * s.words.length + odd.val : Nat)
  refine ⟨fifo, front, fun c => ?_, fun c beyond => ?_, fun c => ?_, fun c j member => ?_,
    filledNext h.fifo.inv h.filled taken⟩
  · refine frontFree fifo ?_
    have before := freeFront h c
    rw [banks, queues]
    by_cases same : c = x
    · subst same
      rw [if_pos rfl, if_pos rfl, free, before]
      cases list : s.queue c with
      | nil => exact hdr.symm
      | cons j rest => rfl
    · rw [if_neg same, if_neg same]
      exact before
  · rw [banks] at beyond ⊢
    split at beyond
    · rename_i same
      subst same
      rw [if_pos rfl, free, first]
      have size := h.size c
      exact .inl (commitLate (by omega) beyond)
    · rename_i other
      rw [if_neg other]
      exact h.late c beyond
  · rw [banks]
    split
    · rename_i same
      subst same
      rw [first, last]
      exact h.size c
    · exact h.size c
  · have there := member
    rw [queues] at member
    split at member
    · rcases List.mem_append.mp member with before | new
      · exact receiveIntact h taken fifo.unfreed c j before there
      · rw [List.mem_singleton.mp new] at there ⊢
        exact committedIntact h commits taken (liveIff.mpr ⟨c, there, fifo.unfreed c k there⟩) (receiveSafe h taken)
    · exact receiveIntact h taken fifo.unfreed c j member there

theorem receiveStocked {e : Rx} (h : Stocked s freed held waiting) (taken : receive s e = some t) :
    (t.committed = s.committed ∧ Stocked t freed held waiting) ∨
    ∃ x k, Commits s e x k t ∧ Stocked t freed held (fun y => if y = x then waiting y ++ [k] else waiting y) := by
  have spared : ∀ odd tailBits, e = .interrupt odd tailBits → Spared s odd tailBits := fun odd tailBits _ => stockSpared h odd tailBits
  have unspoiled : Unspoiled s e := by
    intro c zero
    have := frontNonzero h.fifo c
    rw [← h.front c] at this
    omega
  rcases receiveCommits h.fifo.inv taken with ⟨bank, queue, -⟩ | ⟨x, k, commits⟩
  · rcases receiveFifo h.fifo spared unspoiled taken with ⟨committed, fifo, front⟩ | ⟨x, k, commits, -⟩
    · refine .inl ⟨committed, fifo, front h.front, fun c => ?_, by rw [bank]; exact h.late, by rw [bank]; exact h.size,
        fun c j member => ?_, filledNext h.fifo.inv h.filled taken⟩
      · refine frontFree fifo ?_
        rw [bank, queue]
        exact freeFront h c
      · exact receiveIntact h taken fifo.unfreed c j (by rw [← queue]; exact member) member
    · have grown := congrFun (queue.symm.trans commits.queue) x
      simp at grown
  · rcases receiveFifo h.fifo spared unspoiled taken with ⟨committed, -⟩ | ⟨x', k', commits', fifo, front⟩
    · have grown := congrFun (committed.symm.trans commits.committed) x
      simp at grown
    · exact .inr ⟨x', k', commits', commitStocked h taken commits' fifo (front h.front)⟩

theorem stockedInitial (mem : Int → Int) {address : Int} {numberWords : Nat} (aligned : address % 4 = 0)
    (positive : 0 < address) (large : 1532 ≤ numberWords) :
    Stocked (miiBufferInit mem address numberWords) false (fun _ => []) (fun _ => []) := by
  have fifo := fifoInitial mem aligned positive (by omega : 1520 ≤ numberWords)
  have at_ : ∀ c, ((miiBufferInit mem address numberWords).data.bank c).readPtr =
        ((miiBufferInit mem address numberWords).data.bank c).wrPtr - 4 ∧
      ((miiBufferInit mem address numberWords).data.bank c).freePtr =
        ((miiBufferInit mem address numberWords).data.bank c).wrPtr - 4 ∧
      ((miiBufferInit mem address numberWords).data.bank c).freePtr =
        ((miiBufferInit mem address numberWords).data.bank c).firstPtr ∧
      ((miiBufferInit mem address numberWords).data.bank c).firstPtr + 1532 <
        ((miiBufferInit mem address numberWords).data.bank c).lastSafePtr := by
    intro c
    cases c <;> simp [miiBufferInit, maxPacket] <;> omega
  refine ⟨fifo, fun c => (at_ c).1, fun c => ?_, fun c _ => .inl (at_ c).2.2.1, fun c => (at_ c).2.2.2,
    (fun c k member => by cases member), (fun on => by cases on)⟩
  rw [(at_ c).2.1, (fifo.inv.banks.each c).marker]
  decide

end calls

end ScEthernet.Lite.Stock
