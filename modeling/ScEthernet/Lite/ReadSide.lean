import ScEthernet.Lite.StoreSafety

/-! The receive store under a user that frees each packet before it obtains the next one: the
packets of a bank are the one the user holds and then those that wait for the read pointer. -/
namespace ScEthernet.Lite.ReadSide
open Lib.WordMemory Lib.BitOrder Wire Buffer BankChain StoreInv StoreSafety

/- Where a pointer is that has the packets `q` and then the write marker ahead. -/
def frontPtr (q : List Pkt) (wrPtr : Int) : Int :=
  match q with
  | [] => wrPtr - 4
  | k :: _ => k.hdr

/- Where mii_get_in_buffer reads in a bank: from the head when the pointer is on an unused tail. -/
def resolved (s : Store) (c : Bool) : Int :=
  if s.mem (s.data.bank c).readPtr = 0 then (s.data.bank c).firstPtr else (s.data.bank c).readPtr

structure Fifo (s : Store) (held waiting : Bool → List Pkt) : Prop where
  inv : Inv s
  split : ∀ c, s.queue c = held c ++ waiting c
  unfreed : ∀ c, ∀ k ∈ s.queue c, k.freed = false
  read : ∀ c, resolved s c = frontPtr (waiting c) (s.data.bank c).wrPtr
  inside : ∀ c, (s.data.bank c).firstPtr ≤ (s.data.bank c).readPtr ∧ (s.data.bank c).readPtr < Bank.limit (s.data.bank c)

/- The event leaves an unused tail that a read pointer rests on as it is. -/
def Unspoiled (s : Store) (e : Rx) : Prop :=
  ∀ c, s.mem (s.data.bank c).readPtr = 0 → ∀ t ∈ receive s e, t.mem (s.data.bank c).readPtr = 0

section banks
variable {b : Bank} {mem : Int → Int} {q pre post : List Pkt} {k : Pkt} {a z : Int}

theorem chainAfter (h : Chain mem a (pre ++ k :: post) z) : Chain mem (Pkt.next k) post z := by
  induction pre generalizing a with
  | nil =>
    cases h with
    | cons here slot rest => exact rest
  | cons j pre ih =>
    cases h with
    | cons here slot rest => exact ih rest

theorem chainBehind (h : Chain mem a (k :: post) z) : Chain mem (Pkt.next k) post z := by
  cases h with
  | cons here slot rest => exact rest

theorem chainFront (h : Chain mem a q z) (wrPtr : Int) (last : z = wrPtr - 4) : a = frontPtr q wrPtr := by
  cases h with
  | nil => exact last
  | cons here slot rest => exact here.symm

theorem layoutFront (h : BankInv b mem q) (used : 0 < mem b.freePtr) : b.freePtr = frontPtr q b.wrPtr := by
  have layout := h.layout
  generalize b.freePtr = free at *
  cases layout with
  | flat low chain => exact chainFront chain _ rfl
  | wrapped upper tail inside lower below =>
    cases upper with
    | nil => omega
    | cons here slot rest => exact here.symm

theorem frontUsed (h : BankInv b mem q) (sub : ∀ k ∈ post, k ∈ q) (unfreed : ∀ k ∈ q, k.freed = false) :
    0 < mem (frontPtr post b.wrPtr) := by
  cases post with
  | nil =>
    rw [frontPtr, h.marker]
    decide
  | cons k post =>
    have member := sub k List.mem_cons_self
    exact (slotWordSign (bankSlot h member).1).mpr (unfreed k member)

/- Behind a packet there is the next one or the write marker, or an unused tail in front of it. -/
theorem bankAfter (h : BankInv b mem (pre ++ k :: post)) (unfreed : ∀ j ∈ pre ++ k :: post, j.freed = false) :
    mem (Pkt.next k) ≠ 0 ∧ Pkt.next k = frontPtr post b.wrPtr ∨
    mem (Pkt.next k) = 0 ∧ b.firstPtr = frontPtr post b.wrPtr := by
  have used : 0 < mem (frontPtr post b.wrPtr) := frontUsed h (fun j member => by simp [member]) unfreed
  have here : Pkt.next k = frontPtr post b.wrPtr →
      mem (Pkt.next k) ≠ 0 ∧ Pkt.next k = frontPtr post b.wrPtr := by
    intro same
    rw [same]
    exact ⟨by omega, rfl⟩
  have layout := h.layout
  generalize into : pre ++ k :: post = q at layout
  cases layout with
  | flat low chain =>
    rw [← into] at chain
    exact .inl (here (chainFront (chainAfter chain) _ rfl))
  | @wrapped tail q1 q2 upper zero inside lower below =>
    rcases List.append_eq_append_iff.mp into with ⟨mid, left, right⟩ | ⟨mid, left, right⟩
    · cases mid with
      | nil =>
        rw [List.append_nil] at left
        rw [List.nil_append] at right
        rw [← right] at lower
        exact .inl (here (chainFront (chainBehind lower) _ rfl))
      | cons j mid =>
        rw [List.cons_append] at right
        cases right
        rw [left] at upper
        have rest := chainAfter upper
        cases mid with
        | nil =>
          cases rest
          exact .inr ⟨zero, chainFront lower _ rfl⟩
        | cons j mid =>
          cases rest with
          | cons at_ slot rest => exact .inl (here at_.symm)
    · rw [right] at lower
      exact .inl (here (chainFront (chainAfter lower) _ rfl))

theorem headApart (h : BankInv b mem (k :: post)) {j : Pkt} (member : j ∈ post) {x : Int} (inside : Occupies j x) :
    x ≠ k.hdr := by
  obtain ⟨low, high⟩ := inside
  have behind : ∀ {a z q}, Chain mem a (k :: q) z → j ∈ q → x ≠ k.hdr := by
    intro a z q chain member
    cases chain with
    | cons here slot rest =>
      have next := slotNext slot
      have bounds := chainMember rest member
      omega
  have layout := h.layout
  generalize into : k :: post = q at layout
  cases layout with
  | flat first chain =>
    rw [← into] at chain
    exact behind chain member
  | @wrapped tail q1 q2 upper zero inside lower below =>
    cases q1 with
    | nil =>
      rw [List.nil_append] at into
      rw [← into] at lower
      exact behind lower member
    | cons k' q1 =>
      cases into
      rcases List.mem_append.mp member with above | under
      · exact behind upper above
      · have bounds := chainMember lower under
        have next := slotNext bounds.2.2.1
        have head := chainMember upper List.mem_cons_self
        omega

theorem reclaimUnfreed (unfreed : ∀ j ∈ q, j.freed = false) : reclaim q = q := by
  cases q with
  | nil => rfl
  | cons j q => simp [reclaim, unfreed j List.mem_cons_self]

theorem reclaimHead (h : BankInv b mem (k :: post)) (unfreed : ∀ j ∈ k :: post, j.freed = false) :
    reclaim (markFreed k.hdr (k :: post)) = post := by
  have others : markFreed k.hdr post = post := by
    have same : ∀ j ∈ post, (if j.hdr = k.hdr then { j with freed := true } else j) = j := by
      intro j member
      have slot := (bankSlot h (List.mem_cons_of_mem _ member)).1
      exact if_neg (headApart h member ⟨Int.le_refl _, by have := slot.low; omega⟩)
    rw [markFreed, List.map_congr_left same, List.map_id']
  simp only [markFreed, List.map_cons, reclaim, if_true]
  rw [← markFreed, others]
  exact reclaimUnfreed fun j member => unfreed j (List.mem_cons_of_mem _ member)

end banks

section
variable {s t : Store} {held waiting held' waiting' : Bool → List Pkt} {c : Bool} {k : Pkt} {rest : List Pkt}

theorem frontNonzero (h : Fifo s held waiting) (c : Bool) :
    0 < s.mem (frontPtr (waiting c) (s.data.bank c).wrPtr) :=
  frontUsed (h.inv.banks.each c) (fun k member => by rw [h.split]; exact List.mem_append_right _ member) (h.unfreed c)

theorem frontInside (h : Inv s) (post : List Pkt) (sub : ∀ k ∈ post, k ∈ s.queue c) :
    (s.data.bank c).firstPtr ≤ frontPtr post (s.data.bank c).wrPtr ∧
      frontPtr post (s.data.bank c).wrPtr < Bank.limit (s.data.bank c) := by
  have within := bankWithin h.banks c
  cases post with
  | nil => simp only [frontPtr]; omega
  | cons k post =>
    have header := queueWithin h.banks (sub k List.mem_cons_self)
    simp only [frontPtr]; omega

theorem resolvedKeeps (h : Fifo s held waiting) (waiting' : Bool → List Pkt)
    (read : (t.data.bank c).readPtr = (s.data.bank c).readPtr) (first : (t.data.bank c).firstPtr = (s.data.bank c).firstPtr)
    (tail : s.mem (s.data.bank c).readPtr = 0 → t.mem (s.data.bank c).readPtr = 0)
    (front : frontPtr (waiting' c) (t.data.bank c).wrPtr = frontPtr (waiting c) (s.data.bank c).wrPtr)
    (used : 0 < t.mem (frontPtr (waiting' c) (t.data.bank c).wrPtr)) :
    resolved t c = frontPtr (waiting' c) (t.data.bank c).wrPtr := by
  have before := h.read c
  unfold resolved at before ⊢
  rw [read, first, front]
  rw [front] at used
  by_cases zero : s.mem (s.data.bank c).readPtr = 0
  · rw [if_pos zero] at before
    rw [if_pos (tail zero), before]
  · rw [if_neg zero] at before
    rw [if_neg (by rw [before]; omega), before]

theorem readFields (read : OnlyRead s t) (c : Bool) : (t.data.bank c).wrPtr = (s.data.bank c).wrPtr ∧
    (t.data.bank c).freePtr = (s.data.bank c).freePtr ∧ (t.data.bank c).firstPtr = (s.data.bank c).firstPtr ∧
    (t.data.bank c).lastSafePtr = (s.data.bank c).lastSafePtr := by
  obtain ⟨r, same⟩ := read.bank c
  rw [same]
  exact ⟨rfl, rfl, rfl, rfl⟩

def ReadFront (s : Store) (waiting : Bool → List Pkt) : Prop :=
  ∀ c, (s.data.bank c).readPtr = frontPtr (waiting c) (s.data.bank c).wrPtr

theorem movedFifo (h : Fifo s held waiting) (read : OnlyRead s t) (split : ∀ y, s.queue y = held' y ++ waiting' y)
    (own : (t.data.bank c).readPtr = frontPtr (waiting' c) (s.data.bank c).wrPtr)
    (others : ∀ y, y ≠ c → t.data.bank y = s.data.bank y ∧ waiting' y = waiting y) :
    Fifo t held' waiting' ∧ (ReadFront s waiting → ReadFront t waiting') := by
  have resolves : ∀ y, resolved t y = frontPtr (waiting' y) (t.data.bank y).wrPtr := by
    intro y
    by_cases same : y = c
    · subst same
      have used := frontUsed (h.inv.banks.each y)
        (fun k member => by rw [split]; exact List.mem_append_right _ member) (h.unfreed y)
      rw [resolved, read.mem, own, if_neg (by omega), (readFields read y).1]
    · obtain ⟨bank, list⟩ := others y same
      rw [resolved, read.mem, bank, list]
      exact h.read y
  have within : ∀ y, (t.data.bank y).firstPtr ≤ (t.data.bank y).readPtr ∧
      (t.data.bank y).readPtr < Bank.limit (t.data.bank y) := by
    intro y
    obtain ⟨-, -, first, last⟩ := readFields read y
    have limit : Bank.limit (t.data.bank y) = Bank.limit (s.data.bank y) := by rw [Bank.limit, last, Bank.limit]
    rw [first, limit]
    by_cases same : y = c
    · subst same
      rw [own]
      exact frontInside h.inv _ fun k member => by rw [split]; exact List.mem_append_right _ member
    · rw [(others y same).1]
      exact h.inside y
  refine ⟨⟨onlyReadKeeps h.inv read, by rw [read.queue]; exact split, by rw [read.queue]; exact h.unfreed, resolves,
    within⟩, fun front y => ?_⟩
  by_cases same : y = c
  · subst same
    rw [own, (readFields read y).1]
  · obtain ⟨bank, list⟩ := others y same
    rw [bank, list]
    exact front y

theorem getFromFifo (k : Pkt) (rest : List Pkt) (h : Fifo s held waiting) (turn : c = !s.data.readBank) :
    (waiting c = [] → (getFrom s).2 = none ∧ Fifo (getFrom s).1 held waiting ∧
      (ReadFront s waiting → ReadFront (getFrom s).1 waiting)) ∧
    (waiting c = k :: rest → (∃ time, (getFrom s).2 = some ⟨k.hdr + 8, (k.length : Int) - 4, time⟩) ∧
      Fifo (getFrom s).1 (fun y => if y = c then held y ++ [k] else held y)
        (fun y => if y = c then rest else waiting y) ∧
      (ReadFront s waiting → ReadFront (getFrom s).1 (fun y => if y = c then rest else waiting y))) := by
  have reads := getFromReads s
  have inv := h.inv.banks.each c
  have read := h.read c
  have at_ : (if s.mem (s.data.bank c).readPtr = 0 then { s.data.bank c with readPtr := (s.data.bank c).firstPtr }
      else s.data.bank c) = { s.data.bank c with readPtr := frontPtr (waiting c) (s.data.bank c).wrPtr } := by
    rw [← read]
    unfold resolved
    split <;> rfl
  have others : ∀ b : Bank, ∀ y, y ≠ c → (MiiData.setBank { s.data with readBank := c } c b).bank y = s.data.bank y :=
    fun b y other => if_neg other
  constructor
  · intro none
    rw [none, frontPtr] at at_
    let b : Bank := { s.data.bank c with readPtr := (s.data.bank c).wrPtr - 4 }
    have result : getFrom s = ({ s with data := { s.data with readBank := c }.setBank c b }, Option.none) := by
      unfold getFrom
      simp only [← turn, at_, inv.marker]
      rfl
    refine ⟨by rw [result], movedFifo (c := c) h reads h.split ?_ fun y other => ⟨?_, rfl⟩⟩
    · rw [result, none]
      simp only [MiiData.setBank, if_true, frontPtr, b]
    · rw [result]
      exact others b y other
  · intro some
    have member : k ∈ s.queue c := by rw [h.split, some]; simp
    have slot := (bankSlot inv member).1
    have low := slot.low
    have word := slot.word
    rw [h.unfreed c k member] at word
    have length : s.mem k.hdr = k.length := word
    have after := bankAfter (k := k) (by rw [← some, ← h.split]; exact inv)
      (by rw [← some, ← h.split]; exact h.unfreed c)
    rw [some, frontPtr] at at_
    let b : Bank := { s.data.bank c with readPtr := frontPtr rest (s.data.bank c).wrPtr }
    have result : getFrom s = ({ s with data := { s.data with readBank := c }.setBank c b },
        Option.some ⟨k.hdr + 8, (k.length : Int) - 4, s.mem (k.hdr + 4)⟩) := by
      have next : k.hdr + (roundUp k.length + 4) = Pkt.next k := rfl
      have sum : k.hdr + 4 + 4 = k.hdr + 8 := by omega
      unfold getFrom
      simp only [← turn, at_, length, if_pos (show (k.length : Int) ≠ 1 by omega), next, sum]
      rcases after with ⟨used, here⟩ | ⟨tail, here⟩
      · rw [if_neg used, here]
      · simp only [if_pos tail, b, ← here]
    refine ⟨⟨_, by rw [result]⟩, movedFifo (c := c) h reads (fun y => ?_) ?_ fun y other => ⟨?_, if_neg other⟩⟩
    · by_cases same : y = c
      · subst same
        rw [if_pos rfl, if_pos rfl, h.split, some]
        simp
      · rw [if_neg same, if_neg same]
        exact h.split y
    · rw [result]
      simp only [MiiData.setBank, if_true, b]
    · rw [result]
      exact others b y other

inductive Got (s t : Store) (o : Obtained) (held waiting : Bool → List Pkt) : Prop where
  | nothing (a : o.a = 0) (none : ∀ c, waiting c = []) (next : Fifo t held waiting)
      (read : ReadFront s waiting → ReadFront t waiting)
  | packet (c : Bool) (k : Pkt) (rest : List Pkt) (first : waiting c = k :: rest)
      (turn : c = !s.data.readBank ∨ waiting (!s.data.readBank) = []) (bank : t.data.readBank = c)
      (a : o.a = k.hdr + 8) (nBytes : o.nBytes = (k.length : Int) - 4)
      (next : Fifo t (fun y => if y = c then held y ++ [k] else held y) (fun y => if y = c then rest else waiting y))
      (read : ReadFront s waiting → ReadFront t (fun y => if y = c then rest else waiting y))

theorem getFromTurn (s : Store) : (getFrom s).1.data.readBank = !s.data.readBank := by
  unfold getFrom
  dsimp only
  split_ifs <;> rfl

theorem getFifo (h : Fifo s held waiting) : Got s (miiGetInBuffer s).1 (miiGetInBuffer s).2 held waiting := by
  have turn := getFromTurn s
  unfold miiGetInBuffer
  cases here : waiting (!s.data.readBank) with
  | cons k rest =>
    obtain ⟨⟨time, same⟩, next, read⟩ := (getFromFifo k rest h rfl).2 here
    have found : getFrom s = ((getFrom s).1, some ⟨k.hdr + 8, (k.length : Int) - 4, time⟩) := by rw [← same]
    rw [found]
    exact .packet _ k rest here (.inl rfl) turn rfl rfl next read
  | nil =>
    obtain ⟨none, next, read⟩ := (getFromFifo ⟨0, 0, false, []⟩ [] h rfl).1 here
    have found : getFrom s = ((getFrom s).1, Option.none) := by rw [← none]
    rw [found]
    dsimp only
    generalize (getFrom s).1 = u at *
    have turn' := getFromTurn u
    have again : (!u.data.readBank) = s.data.readBank := by rw [turn, Bool.not_not]
    cases there : waiting (!u.data.readBank) with
    | cons k rest =>
      obtain ⟨⟨time, same⟩, next', read'⟩ := (getFromFifo k rest next rfl).2 there
      have found : getFrom u = ((getFrom u).1, some ⟨k.hdr + 8, (k.length : Int) - 4, time⟩) := by rw [← same]
      rw [found]
      exact .packet _ k rest there (.inr here) turn' rfl rfl next' (fun front => read' (read front))
    | nil =>
      obtain ⟨none', next', read'⟩ := (getFromFifo ⟨0, 0, false, []⟩ [] next rfl).1 there
      have found : getFrom u = ((getFrom u).1, Option.none) := by rw [← none']
      rw [found]
      refine .nothing rfl (fun c => ?_) next' fun front => read' (read front)
      by_cases same : c = s.data.readBank
      · rw [same, ← again]; exact there
      · rw [Bool.eq_not_of_ne same]; exact here

theorem freeFifo (h : Fifo s (fun y => if y = c then [k] else []) waiting) :
    ∃ t f, miiFreeInBuffer s (k.hdr + 8) = some t ∧ Fifo t (fun _ => []) waiting ∧
      t.mem = store s.mem k.hdr (-(s.mem k.hdr)) ∧
      t.data = s.data.setBank c { s.data.bank c with freePtr := f } ∧ 0 < t.mem f ∧
      t.committed = s.committed ∧ t.notifications = s.notifications ∧ t.inPacket = s.inPacket ∧ t.words = s.words := by
  have queue : s.queue c = k :: waiting c := by
    have split := h.split c
    rwa [if_pos rfl] at split
  have member : k ∈ s.queue c := by rw [queue]; exact List.mem_cons_self
  have live := h.unfreed c k member
  obtain ⟨t, freed, inv, mem, queues, ⟨f, data, used⟩, committed, notifications, inPacket, words⟩ :=
    freeKeeps h.inv member live
  have head := h.inv.banks.each c
  rw [queue] at head
  have unfreed := h.unfreed c
  rw [queue] at unfreed
  have left : t.queue = waiting := by
    rw [queues]
    funext y
    split
    · rename_i same
      rw [same, queue]
      exact reclaimHead head unfreed
    · rename_i other
      have split := h.split y
      rwa [if_neg other] at split
  have fields : ∀ y, (t.data.bank y).wrPtr = (s.data.bank y).wrPtr ∧
      (t.data.bank y).readPtr = (s.data.bank y).readPtr ∧ (t.data.bank y).firstPtr = (s.data.bank y).firstPtr ∧
      Bank.limit (t.data.bank y) = Bank.limit (s.data.bank y) := by
    intro y
    rw [data]
    simp only [MiiData.setBank]
    split
    · rename_i same; rw [same]; exact ⟨rfl, rfl, rfl, rfl⟩
    · exact ⟨rfl, rfl, rfl, rfl⟩
  have positive := (slotWordSign (bankSlot (h.inv.banks.each c) member).1).mpr live
  have alive : ∀ y, ∀ j ∈ t.queue y, j.freed = false := by
    intro y j member
    rw [left] at member
    exact h.unfreed y j (by rw [h.split]; exact List.mem_append_right _ member)
  refine ⟨t, f, freed, ⟨inv, by rw [left]; exact fun y => rfl, alive, fun y => ?_, fun y => ?_⟩, mem, data, used,
    committed, notifications, inPacket, words⟩
  · obtain ⟨wr, read, first, -⟩ := fields y
    refine resolvedKeeps h _ read first (fun zero => ?_) (by rw [wr]) ?_
    · rw [mem, storeOther, zero]
      intro same
      rw [same] at zero
      omega
    · exact frontUsed (inv.banks.each y) (fun j member => by rw [left]; exact member) (alive y)
  · obtain ⟨-, read, first, limit⟩ := fields y
    rw [read, first, limit]
    exact h.inside y

theorem restartCases (b : Bank) (mem : Int → Int) :
    ((restartBank b mem).1 = b ∧ (restartBank b mem).2.1 = mem) ∨
    (b.wrPtr > b.lastSafePtr ∧ b.freePtr ≠ b.firstPtr ∧ (restartBank b mem).1 = { b with wrPtr := b.firstPtr + 4 } ∧
      (restartBank b mem).2.1 = store (store mem (b.wrPtr - 4) 0) (b.firstPtr + 4 - 4) 1) := by
  unfold restartBank
  dsimp only
  split_ifs with late moved room
  · exact .inr ⟨late, moved, rfl, rfl⟩
  · exact .inr ⟨late, moved, rfl, rfl⟩
  all_goals exact .inl ⟨rfl, rfl⟩

/- A bank that wraps puts an unused tail at its write pointer, where the read pointer may be. -/
theorem wrappedRead (h : Fifo s held waiting) (late : (s.data.bank c).wrPtr > (s.data.bank c).lastSafePtr)
    (read : (t.data.bank c).readPtr = (s.data.bank c).readPtr) (first : (t.data.bank c).firstPtr = (s.data.bank c).firstPtr)
    (mem : t.mem = store (store s.mem ((s.data.bank c).wrPtr - 4) 0) (s.data.bank c).firstPtr 1)
    (own : (t.data.bank c).wrPtr = (s.data.bank c).firstPtr + 4)
    (used : 0 < t.mem (frontPtr (waiting c) (t.data.bank c).wrPtr)) :
    resolved t c = frontPtr (waiting c) (t.data.bank c).wrPtr := by
  have size := (h.inv.banks.each c).size
  have nonzero := frontNonzero h c
  have before := h.read c
  unfold resolved at before
  cases list : waiting c with
  | nil =>
    rw [list, frontPtr] at before
    have at_ : (s.data.bank c).readPtr = (s.data.bank c).wrPtr - 4 := by
      split at before
      · omega
      · exact before
    rw [resolved, read, first, at_, mem, storeOther (by omega), storeSame, if_pos rfl, frontPtr, own]
    omega
  | cons k rest =>
    rw [← list]
    refine resolvedKeeps h _ read first (fun zero => ?_) (by rw [list, frontPtr, frontPtr]) used
    rw [if_pos zero] at before
    rw [mem, storeOther]
    · unfold store
      split
      · rfl
      · exact zero
    · intro head
      rw [← before, ← head, zero] at nonzero
      omega

theorem restartFifo (h : Fifo s held waiting) : Fifo (miiRestartBuffer s) held waiting := by
  have inv := restartKeeps h.inv
  by_cases none : s.data.nextBuffer = -1
  · obtain ⟨mem, banks, -, -, -, queue, -⟩ := restartEq none
    generalize s.data.refillBankNumber = d at *
    have bank : ∀ c, (miiRestartBuffer s).data.bank c =
        if c = d then (restartBank (s.data.bank d) s.mem).1 else s.data.bank c := fun c => congrFun banks c
    have split : ∀ c, (miiRestartBuffer s).queue c = held c ++ waiting c := by rw [queue]; exact h.split
    have alive : ∀ c, ∀ j ∈ (miiRestartBuffer s).queue c, j.freed = false := by rw [queue]; exact h.unfreed
    have reset : ∀ c, ((miiRestartBuffer s).data.bank c).readPtr = (s.data.bank c).readPtr ∧
        ((miiRestartBuffer s).data.bank c).firstPtr = (s.data.bank c).firstPtr ∧
        Bank.limit ((miiRestartBuffer s).data.bank c) = Bank.limit (s.data.bank c) := by
      intro c
      rw [bank]
      split
      · rename_i same
        rw [same]
        rcases restartCases (s.data.bank d) s.mem with ⟨kept, -⟩ | ⟨-, -, wrapped, -⟩
        · rw [kept]; exact ⟨rfl, rfl, rfl⟩
        · rw [wrapped]; exact ⟨rfl, rfl, rfl⟩
      · exact ⟨rfl, rfl, rfl⟩
    refine ⟨inv, split, alive, fun c => ?_, fun c => ?_⟩
    · obtain ⟨read, first, -⟩ := reset c
      have used := frontUsed (inv.banks.each c)
        (fun j member => by rw [split]; exact List.mem_append_right _ member) (alive c)
      by_cases same : c = d
      · subst same
        have own : (miiRestartBuffer s).data.bank c = (restartBank (s.data.bank c) s.mem).1 := by rw [bank, if_pos rfl]
        rcases restartCases (s.data.bank c) s.mem with ⟨kept, stored⟩ | ⟨late, moved, wrapped, stored⟩
        · rw [kept] at own
          rw [stored] at mem
          exact resolvedKeeps h _ read first (fun zero => by rw [mem]; exact zero) (by rw [own]) used
        · rw [wrapped] at own
          rw [stored, show (s.data.bank c).firstPtr + 4 - 4 = (s.data.bank c).firstPtr by omega] at mem
          exact wrappedRead h late read first mem (by rw [own]) used
      · have own : (miiRestartBuffer s).data.bank c = s.data.bank c := by rw [bank, if_neg same]
        refine resolvedKeeps h _ read first (fun zero => ?_) (by rw [own]) used
        by_contra changed
        rw [mem, ← zero] at changed
        have touched := restartInside h.inv.banks changed
        refine bankOther h.inv.banks touched.1 touched.2 ?_
        rw [← Bool.eq_not_of_ne same]
        exact h.inside c
    · obtain ⟨read, first, limit⟩ := reset c
      rw [read, first, limit]
      exact h.inside c
  · have same : miiRestartBuffer s = s := if_pos none
    rw [same]
    exact h

theorem notifiedFifo (h : Fifo s held waiting) (taken : miiNotified s = some t) : Fifo t held waiting ∧
    t.data.bank = s.data.bank ∧ t.committed = s.committed ∧ t.mem = s.mem := by
  have read := notifiedReads taken
  have bank : t.data.bank = s.data.bank := by
    unfold miiNotified at taken
    split at taken
    · cases taken
    · cases taken; rfl
  refine ⟨⟨onlyReadKeeps h.inv read, by rw [read.queue]; exact h.split, by rw [read.queue]; exact h.unfreed, ?_, ?_⟩,
    bank, read.committed, read.mem⟩
  · intro c
    rw [resolved, read.mem, bank]
    exact h.read c
  · rw [bank]
    exact h.inside

theorem commitBankFields (b : Bank) (mem : Int → Int) (length : Int) :
    (commitBank b mem length).1.readPtr = b.readPtr ∧ (commitBank b mem length).1.firstPtr = b.firstPtr ∧
    (commitBank b mem length).1.lastSafePtr = b.lastSafePtr ∧ (commitBank b mem length).1.freePtr = b.freePtr := by
  unfold commitBank
  dsimp only
  split_ifs <;> exact ⟨rfl, rfl, rfl, rfl⟩

structure Commits (s : Store) (e : Rx) (x : Bool) (k : Pkt) (t : Store) : Prop where
  driving : Driving s.data x
  next : s.data.nextBuffer ≠ -1
  event : ∃ odd tailBits, e = .interrupt odd tailBits ∧ Good s.words odd tailBits ∧
    k = appended (s.data.bank x) (4 * s.words.length + odd.val) s.words ∧
    t.data.bank = fun y => if y = x then
      (commitBank (s.data.bank x) (miiRxLastBits s odd tailBits).mem (4 * s.words.length + odd.val : Nat)).1
    else s.data.bank y
  queue : t.queue = fun y => if y = x then s.queue y ++ [k] else s.queue y
  committed : t.committed = fun y => if y = x then s.committed y ++ [k] else s.committed y

theorem receiveCommits {e : Rx} (h : Inv s) (taken : receive s e = some t) :
    (t.data.bank = s.data.bank ∧ t.queue = s.queue ∧ t.committed = s.committed) ∨ ∃ x k, Commits s e x k t := by
  obtain ⟨x, driving⟩ := h.driving
  cases e with
  | preamble time =>
    simp only [receive, receiveUpTo] at taken
    split at taken
    · cases taken
    · cases taken; exact .inl ⟨rfl, rfl, rfl⟩
  | word word =>
    simp only [receive, receiveUpTo] at taken
    split at taken
    · cases taken; exact .inl ⟨rfl, rfl, rfl⟩
    · cases taken
  | interrupt odd tailBits =>
    simp only [receive, receiveUpTo] at taken
    split at taken
    case isFalse => cases taken
    rename_i more
    have fill := h.filling more.1
    have number := drivingNumber h.banks driving
    rw [interruptCases fill] at taken
    split at taken
    · cases taken; exact .inl ⟨rfl, rfl, rfl⟩
    rename_i some
    split at taken
    · rename_i good
      cases taken
      obtain ⟨-, bank, -, -, -, queue, committed⟩ := commitBufferEq (s := beforeCommit s odd tailBits)
        number
      exact .inr ⟨x, _, driving, some, ⟨odd, tailBits, rfl, good, rfl, bank⟩, queue, committed⟩
    · cases taken; exact .inl ⟨rfl, rfl, rfl⟩

theorem receiveFifo {e : Rx} (h : Fifo s held waiting)
    (spared : ∀ odd tailBits, e = .interrupt odd tailBits → Spared s odd tailBits) (unspoiled : Unspoiled s e)
    (taken : receive s e = some t) :
    (t.committed = s.committed ∧ Fifo t held waiting ∧ (ReadFront s waiting → ReadFront t waiting)) ∨
    ∃ x k, Commits s e x k t ∧ Fifo t held (fun y => if y = x then waiting y ++ [k] else waiting y) ∧
      (ReadFront s waiting → ReadFront t (fun y => if y = x then waiting y ++ [k] else waiting y)) := by
  have inv := receiveKeeps h.inv spared taken
  have tail : ∀ c, s.mem (s.data.bank c).readPtr = 0 → t.mem (s.data.bank c).readPtr = 0 :=
    fun c zero => unspoiled c zero t taken
  rcases receiveCommits h.inv taken with ⟨bank, queue, committed⟩ | ⟨x, k, commits⟩
  · have split : ∀ c, t.queue c = held c ++ waiting c := by rw [queue]; exact h.split
    have alive : ∀ c, ∀ j ∈ t.queue c, j.freed = false := by rw [queue]; exact h.unfreed
    refine .inl ⟨committed, ⟨inv, split, alive, fun c => ?_, by rw [bank]; exact h.inside⟩, fun front c => ?_⟩
    · exact resolvedKeeps h _ (by rw [bank]) (by rw [bank]) (tail c) (by rw [bank])
        (frontUsed (inv.banks.each c) (fun j member => by rw [split]; exact List.mem_append_right _ member) (alive c))
    · rw [bank]; exact front c
  · obtain ⟨odd, tailBits, -, -, made, bank⟩ := commits.event
    have banks : ∀ c, t.data.bank c = if c = x then
        (commitBank (s.data.bank x) (miiRxLastBits s odd tailBits).mem (4 * s.words.length + odd.val : Nat)).1
      else s.data.bank c := fun c => congrFun bank c
    have queues : ∀ c, t.queue c = if c = x then s.queue c ++ [k] else s.queue c := fun c => congrFun commits.queue c
    have hdr : k.hdr = (s.data.bank x).wrPtr - 4 := by rw [made]; rfl
    have split : ∀ c, t.queue c = held c ++ if c = x then waiting c ++ [k] else waiting c := by
      intro c
      rw [queues]
      by_cases same : c = x
      · rw [if_pos same, if_pos same, h.split, List.append_assoc]
      · rw [if_neg same, if_neg same, h.split]
    have alive : ∀ c, ∀ j ∈ t.queue c, j.freed = false := by
      intro c j member
      rw [queues] at member
      split at member
      · rcases List.mem_append.mp member with old | new
        · exact h.unfreed c j old
        · rw [List.mem_singleton.mp new, made]
          rfl
      · exact h.unfreed c j member
    have fields : ∀ c, (t.data.bank c).readPtr = (s.data.bank c).readPtr ∧
        (t.data.bank c).firstPtr = (s.data.bank c).firstPtr ∧ Bank.limit (t.data.bank c) = Bank.limit (s.data.bank c) := by
      intro c
      rw [banks]
      split
      · rename_i same
        obtain ⟨read, first, last, -⟩ := commitBankFields (s.data.bank x) (miiRxLastBits s odd tailBits).mem
          (4 * s.words.length + odd.val : Nat)
        rw [same]
        exact ⟨read, first, by rw [Bank.limit, last, Bank.limit]⟩
      · exact ⟨rfl, rfl, rfl⟩
    have front : ∀ c, frontPtr (if c = x then waiting c ++ [k] else waiting c) (t.data.bank c).wrPtr =
        frontPtr (waiting c) (s.data.bank c).wrPtr := by
      intro c
      by_cases same : c = x
      · rw [if_pos same]
        cases list : waiting c with
        | nil => rw [same]; exact hdr
        | cons j rest => rfl
      · rw [if_neg same, banks, if_neg same]
    refine .inr ⟨x, k, commits, ⟨inv, split, alive, fun c => ?_, fun c => ?_⟩, fun read c => ?_⟩
    · obtain ⟨read, first, -⟩ := fields c
      exact resolvedKeeps h (fun y => if y = x then waiting y ++ [k] else waiting y) read first (tail c) (front c)
        (frontUsed (inv.banks.each c) (fun j member => by rw [split]; exact List.mem_append_right _ member) (alive c))
    · obtain ⟨read, first, limit⟩ := fields c
      rw [read, first, limit]
      exact h.inside c
    · rw [(fields c).1, front]
      exact read c

theorem fifoInitial (mem : Int → Int) {address : Int} {numberWords : Nat} (aligned : address % 4 = 0)
    (positive : 0 < address) (large : 1520 ≤ numberWords) :
    Fifo (miiBufferInit mem address numberWords) (fun _ => []) (fun _ => []) := by
  have inv := invInitial mem aligned positive large
  have read : ∀ c, ((miiBufferInit mem address numberWords).data.bank c).readPtr =
      ((miiBufferInit mem address numberWords).data.bank c).wrPtr - 4 := by
    intro c
    cases c <;> simp [miiBufferInit]
  refine ⟨inv, fun _ => rfl, (fun c k member => by cases member), fun c => ?_, fun c => ?_⟩
  · rw [resolved, read, (inv.banks.each c).marker]
    rfl
  · rw [read]
    exact frontInside inv [] fun k member => by cases member

end

end ScEthernet.Lite.ReadSide
