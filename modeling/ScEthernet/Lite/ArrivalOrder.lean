import ScEthernet.Lite.ReadSide

/-! The order in which mii_get_in_buffer hands out the packets of the two banks. It tries the
banks in turn, and nothing ties its turn to the bank that received first: with a packet
waiting in both, the younger one can be taken. -/
namespace ScEthernet.Lite.ArrivalOrder
open Lib.WordMemory Lib.Runs Wire Buffer BankChain StoreInv ReadSide
open StoreSafety (sealing)

structure State where
  store : Store
  held : Option Int
  /- History: the committed packets with their banks, in the order of their interrupts, and
  what mii_get_in_buffer has returned. -/
  arrivals : List (Bool × Pkt)
  got : List (Int × Int)

inductive Event where
  | rx (e : Rx)
  | get
  | free
  | restart
  | notified

def initial (mem : Int → Int) (address : Int) (numberWords : Nat) : State :=
  ⟨miiBufferInit mem address numberWords, none, [], []⟩

def newest (s t : Store) (c : Bool) : List (Bool × Pkt) :=
  ((t.committed c).drop (s.committed c).length).map (fun k => (c, k))

def step (s : State) : Event → Option State
  | .rx e => (miiRxd s.store e).map (fun t =>
      { s with store := t, arrivals := s.arrivals ++ newest s.store t false ++ newest s.store t true })
  | .get =>
    if s.held = none then
      let (t, o) := miiGetInBuffer s.store
      if o.a = 0 then some { s with store := t }
      else some { s with store := t, held := some o.a, got := s.got ++ [(o.a, o.nBytes)] }
    else none
  | .free => s.held.bind (fun base => (miiFreeInBuffer s.store base).map (fun t => { s with store := t, held := none }))
  | .restart => some { s with store := miiRestartBuffer s.store }
  | .notified => (miiNotified s.store).map (fun t => { s with store := t })

def answer (x : Bool × Pkt) : Int × Int := (x.2.hdr + 8, (x.2.length : Int) - 4)

def InOrder (s : State) : Prop := s.got <+: s.arrivals.map answer

def pending (s : State) : List (Bool × Pkt) := s.arrivals.drop s.got.length

/- The oldest packet is in the bank that is tried first, or none is. -/
def Turn (s : State) : Event → Prop
  | .get => ∀ x ∈ (pending s).head?, x.1 = !s.store.data.readBank ∨ ∀ y ∈ pending s, y.1 ≠ !s.store.data.readBank
  | _ => True

/- No frame is longer than 1518 bytes, the interrupt does not take an unused tail for a free head, and no event
stores to an unused tail that a read pointer is left on. -/
def Sound (s : State) : Event → Prop
  | .rx e => Short maxFrame s.store e ∧ (match e with | .interrupt odd tailBits => Spared s.store odd tailBits | _ => True) ∧
      Unspoiled s.store e
  | _ => True

instance (s e) : Decidable (Turn s e) := by unfold Turn; split <;> infer_instance
instance (s e) : Decidable (Unspoiled s e) := by unfold Unspoiled; infer_instance
instance (s e) : Decidable (Sound s e) := by
  cases e with
  | rx e => cases e <;> (unfold Sound; infer_instance)
  | _ => unfold Sound; infer_instance

structure Inv (s : State) (held waiting : Bool → List Pkt) (left : List (Bool × Pkt)) : Prop where
  fifo : Fifo s.store held waiting
  free : s.held = none → held = fun _ => []
  one : ∀ base, s.held = some base → ∃ c k, base = k.hdr + 8 ∧ held = fun y => if y = c then [k] else []
  arrivals : ∃ done, s.arrivals = done ++ left ∧ s.got = done.map answer
  waiting : ∀ c, waiting c = (left.filter (fun x => x.1 = c)).map Prod.snd

section
variable {s t : State} {held waiting : Bool → List Pkt} {left : List (Bool × Pkt)}

theorem pendingLeft (h : Inv s held waiting left) : pending s = left := by
  obtain ⟨done, arrivals, got⟩ := h.arrivals
  rw [pending, arrivals, got, List.length_map, List.drop_left]

theorem invInOrder (h : Inv s held waiting left) : InOrder s := by
  obtain ⟨done, arrivals, got⟩ := h.arrivals
  rw [InOrder, arrivals, got, List.map_append]
  exact List.prefix_append _ _

theorem waitingNil (h : Inv s held waiting left) (c : Bool) : waiting c = [] ↔ ∀ x ∈ left, x.1 ≠ c := by
  rw [h.waiting, List.map_eq_nil_iff, List.filter_eq_nil_iff]
  simp

theorem newestKept {u v : Store} (same : v.committed = u.committed) (c : Bool) : newest u v c = [] := by
  rw [newest, same, List.drop_length]
  rfl

theorem receiveInv {e : Rx} (h : Inv s held waiting left) (sound : Sound s (.rx e)) (taken : step s (.rx e) = some t) :
    ∃ waiting left, Inv t held waiting left := by
  obtain ⟨u, received, rfl⟩ := Option.map_eq_some_iff.mp taken
  obtain ⟨short, spares, unspoiled⟩ := sound
  rw [shortReceived short] at received
  obtain ⟨done, arrivals, got⟩ := h.arrivals
  have spared : ∀ odd tailBits, e = .interrupt odd tailBits → Spared s.store odd tailBits := by
    rintro odd tailBits rfl
    exact spares
  rcases receiveFifo h.fifo spared unspoiled received with ⟨same, next, -⟩ | ⟨x, k, commits, next, -⟩
  · refine ⟨waiting, left, next, h.free, h.one, ⟨done, ?_, got⟩, h.waiting⟩
    simp only [newestKept same, List.append_nil]
    exact arrivals
  · have fresh : newest s.store u false ++ newest s.store u true = [(x, k)] := by
      unfold newest
      rw [commits.committed]
      cases x <;> simp
    refine ⟨_, left ++ [(x, k)], next, h.free, h.one, ⟨done, ?_, got⟩, fun c => ?_⟩
    · dsimp only
      rw [List.append_assoc, fresh, arrivals, List.append_assoc]
    · rw [List.filter_append, List.map_append, ← h.waiting]
      by_cases same : c = x
      · subst same; simp
      · simp [same, Ne.symm same]

theorem getCases (h : Inv s held waiting left) (taken : step s .get = some t) :
    (left = [] ∧ Inv t held waiting left) ∨
    ∃ c k rest, waiting c = k :: rest ∧ (c = !s.store.data.readBank ∨ waiting (!s.store.data.readBank) = []) ∧
      t.got = s.got ++ [answer (c, k)] ∧ t.arrivals = s.arrivals ∧ t.held = some (k.hdr + 8) ∧
      Fifo t.store (fun y => if y = c then [k] else []) (fun y => if y = c then rest else waiting y) := by
  simp only [step] at taken
  split at taken
  case isFalse => cases taken
  rename_i free
  have empty := h.free free
  subst empty
  cases getFifo h.fifo with
  | nothing a none next read =>
    rw [if_pos a] at taken
    cases taken
    have all : left = [] := by
      cases left with
      | nil => rfl
      | cons x left => exact absurd rfl ((waitingNil h x.1).mp (none x.1) x List.mem_cons_self)
    exact .inl ⟨all, next, fun _ => rfl, h.one, h.arrivals, h.waiting⟩
  | packet c k rest first turn bank a nBytes next read =>
    have member : k ∈ s.store.queue c := by rw [h.fifo.split, first]; simp
    have header := queueWithin h.fifo.inv.banks member
    have within := bankWithin h.fifo.inv.banks c
    rw [if_neg (by omega)] at taken
    cases taken
    refine .inr ⟨c, k, rest, first, turn, ?_, rfl, by rw [a], next⟩
    simp only [a, nBytes, answer]

theorem oldest (h : Inv s held waiting left) {c : Bool} {k : Pkt} {rest : List Pkt} (first : waiting c = k :: rest)
    {x : Bool × Pkt} {later : List (Bool × Pkt)} (list : left = x :: later) (bank : x.1 = c) :
    x.2 = k ∧ rest = (later.filter (fun y => y.1 = c)).map Prod.snd := by
  have all := h.waiting c
  rw [first, list, List.filter_cons, if_pos (by simpa using bank), List.map_cons] at all
  cases all
  exact ⟨rfl, rfl⟩

theorem getInv (h : Inv s held waiting left) (turn : Turn s .get) (taken : step s .get = some t) :
    ∃ held waiting left, Inv t held waiting left := by
  rcases getCases h taken with ⟨-, inv⟩ | ⟨c, k, rest, first, bank, got, arrivals, holds, next⟩
  · exact ⟨held, waiting, left, inv⟩
  · have waits : waiting c ≠ [] := by rw [first]; simp
    cases list : left with
    | nil => exact absurd ((waitingNil h c).mpr fun x member => by rw [list] at member; cases member) waits
    | cons x later =>
      have now := turn x (by rw [pendingLeft h, list]; rfl)
      rw [pendingLeft h, ← waitingNil h] at now
      have same : x.1 = c := by
        by_cases mine : waiting (!s.store.data.readBank) = []
        · have other : c ≠ !s.store.data.readBank := by
            rintro rfl
            exact waits mine
          have apart := (waitingNil h _).mp mine x (by rw [list]; exact List.mem_cons_self)
          rw [Bool.eq_not_of_ne apart, Bool.eq_not_of_ne other]
        · rw [now.resolve_right mine, bank.resolve_right mine]
      obtain ⟨rfl, rfl⟩ := oldest h first list same
      obtain ⟨done, before, returned⟩ := h.arrivals
      refine ⟨_, _, later, next, fun free => (by rw [holds] at free; cases free), fun base now => ⟨c, x.2, ?_, rfl⟩,
        ⟨done ++ [x], ?_, ?_⟩, fun d => ?_⟩
      · rw [holds] at now
        exact (Option.some.inj now).symm
      · rw [arrivals, before, list]; simp
      · rw [got, returned, ← same]; simp
      · by_cases mine : d = c
        · rw [if_pos mine, mine]
        · have all := h.waiting d
          rw [list, List.filter_cons, if_neg (by simpa [same] using Ne.symm mine)] at all
          rw [if_neg mine, all]

/- The bank tried first has a packet, and the other one holds the oldest. -/
theorem turnBreaks (h : Inv s held waiting left) (taken : step s .get = some t) (missed : ¬ Turn s .get) :
    ¬ InOrder t := by
  rw [Turn, pendingLeft h] at missed
  simp only [← waitingNil h, not_forall, not_or] at missed
  obtain ⟨x, head, bank, missed⟩ := missed
  cases list : left with
  | nil => rw [list] at head; cases head
  | cons y later =>
    rw [list] at head
    cases head
    rcases getCases h taken with ⟨none, -⟩ | ⟨c, k, rest, first, turn, got, arrivals, -, -⟩
    · rw [list] at none; cases none
    · have own := turn.resolve_right missed
      obtain ⟨done, before, returned⟩ := h.arrivals
      have member : k ∈ s.store.queue c := by rw [h.fifo.split, first]; simp
      have older : x.2 ∈ s.store.queue x.1 := by
        rw [h.fifo.split, h.waiting x.1, list]
        simp
      have header := queueWithin h.fifo.inv.banks member
      have header' := queueWithin h.fifo.inv.banks older
      have apart : c ≠ x.1 := by rw [own]; exact Ne.symm bank
      intro inOrder
      rw [InOrder, got, arrivals, before, returned, list, List.map_append, List.map_cons,
        List.prefix_append_right_inj, List.cons_prefix_cons] at inOrder
      have same := congrArg Prod.fst inOrder.1
      simp only [answer] at same
      refine bankOther h.fifo.inv.banks header'.1 (by omega) ?_
      rw [← Bool.eq_not_of_ne apart]
      omega

theorem stepInv {e : Event} (h : Inv s held waiting left) (sound : Sound s e) (turn : Turn s e) (taken : step s e = some t) :
    ∃ held waiting left, Inv t held waiting left := by
  cases e with
  | rx e => exact ⟨held, receiveInv h sound taken⟩
  | get => exact getInv h turn taken
  | free =>
    obtain ⟨base, holds, taken⟩ := Option.bind_eq_some_iff.mp taken
    obtain ⟨c, k, rfl, rfl⟩ := h.one base holds
    obtain ⟨u, f, freed, next, -⟩ := freeFifo h.fifo
    rw [freed] at taken
    cases taken
    exact ⟨_, waiting, left, next, fun _ => rfl, (fun base holds => by cases holds), h.arrivals, h.waiting⟩
  | restart =>
    cases taken
    exact ⟨held, waiting, left, restartFifo h.fifo, h.free, h.one, h.arrivals, h.waiting⟩
  | notified =>
    obtain ⟨u, seen, rfl⟩ := Option.map_eq_some_iff.mp taken
    exact ⟨held, waiting, left, (notifiedFifo h.fifo seen).1, h.free, h.one, h.arrivals, h.waiting⟩

end

theorem invInitial (mem : Int → Int) {address : Int} {numberWords : Nat} (aligned : address % 4 = 0)
    (positive : 0 < address) (large : 1520 ≤ numberWords) :
    Inv (initial mem address numberWords) (fun _ => []) (fun _ => []) [] :=
  ⟨fifoInitial mem aligned positive large, fun _ => rfl, (fun base holds => by cases holds), ⟨[], rfl, rfl⟩, fun _ => rfl⟩

/-- In the runs in which the store is sound the packets come in the order of their arrival exactly
when each call has its turn right. -/
theorem inOrderIff (mem : Int → Int) {address : Int} {numberWords : Nat} (aligned : address % 4 = 0)
    (positive : 0 < address) (large : 1520 ≤ numberWords) {es : List Event}
    (sound : Along step Sound (initial mem address numberWords) es) :
    Always step InOrder (initial mem address numberWords) es ↔ Along step Turn (initial mem address numberWords) es := by
  refine alwaysExactWithin (I := fun s => ∃ held waiting left, Inv s held waiting left) (D := Sound) ?_ ?_ ?_
    ⟨_, _, _, invInitial mem aligned positive large⟩ sound
  · rintro s e t ⟨held, waiting, left, h⟩ sound turn taken
    exact stepInv h sound turn taken
  · rintro s ⟨held, waiting, left, h⟩
    exact invInOrder h
  · rintro s e t ⟨held, waiting, left, h⟩ - taken missed
    cases e with
    | get => exact turnBreaks h taken missed
    | _ => exact absurd trivial missed

def goodFrame (n : Nat) : List Event :=
  [.rx (.preamble 0), .rx (.word 0#32)] ++ List.replicate n (.rx (.word sealing)) ++ [.rx (.interrupt 0 0#32)]

def twoBefore : List Event := goodFrame 0 ++ goodFrame 1 ++ [.get]

theorem youngerFirst : ∃ s, run step (initial (fun _ => 0) 16 6400) twoBefore = some s ∧
    s.arrivals.map answer = [(24, 0), (12824, 4)] ∧ s.got = [(12824, 4)] ∧ ¬ InOrder s := by
  have last : (run step (initial (fun _ => 0) 16 6400) twoBefore).map (fun s => (s.arrivals.map answer, s.got)) =
      some ([(24, 0), (12824, 4)], [(12824, 4)]) := by decide +kernel
  obtain ⟨s, reached, same⟩ := Option.map_eq_some_iff.mp last
  obtain ⟨arrivals, got⟩ := Prod.mk.injEq .. ▸ same
  refine ⟨s, reached, arrivals, got, ?_⟩
  rw [InOrder, arrivals, got]
  decide

/- One frame at a time, and the bank that holds it. -/
def oneAtATime : List Event := goodFrame 0 ++ [.get, .free, .restart] ++ goodFrame 1 ++ [.get, .free]

theorem inOrderOneAtATime : (run step (initial (fun _ => 0) 16 1520) oneAtATime).isSome = true ∧
    (Always step InOrder (initial (fun _ => 0) 16 1520) oneAtATime ↔
      Along step Turn (initial (fun _ => 0) 16 1520) oneAtATime) :=
  ⟨by decide +kernel, inOrderIff (fun _ => 0) (by decide) (by decide) (by decide) (by decide +kernel)⟩

end ScEthernet.Lite.ArrivalOrder
