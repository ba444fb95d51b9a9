import ScEthernet.Lite.Server
import ScEthernet.Lib.Fairness
import Mathlib.Data.Prod.Lex
import Mathlib.Data.List.Perm.Subperm

/-! What becomes of the frames that arrive, where the_server has no link to check: each one that
passes the CRC check and finds a buffer is handed to the client, once and with its bytes. -/
namespace ScEthernet.Lite.Delivery
open Lib.WordMemory Lib.BitOrder Lib.Runs Lib.Fairness Wire Buffer BankChain StoreInv ReadSide Stock AppChannel Server

def frameBytes (f : Frame) : List (BitVec 8) :=
  bytes f.words ++ (bytesOf (f.tailBits >>> (32 - 8 * f.odd.val))).take f.odd.val

/- What mac_rx_lite should give for a frame: its length without the FCS, and the bytes. -/
def reception (f : Frame) : BitVec 32 × List (BitVec 8) :=
  (BitVec.ofNat 32 ((frameBytes f).length - 4), (frameBytes f).take ((frameBytes f).length - 4))

def handed (s : State) : List (BitVec 32 × List (BitVec 8)) :=
  s.chan.log.map (fun m => (m.len, (bytes m.words).take m.len.toNat))

def due (s : State) : List (BitVec 32 × List (BitVec 8)) := (s.frames.filter accepted).map reception

def work : Event → Prop
  | .notified | .confirm | .word | .inuint | .server => True
  | _ => False

def packetMessage (x : Bool × Pkt) : Message := message x.2.length x.2.words

def offered (s : State) (c : Bool) : List Pkt := (s.offers.filter (fun x => x.1 = c)).map Prod.snd
def done (s : State) (c : Bool) : List Pkt := ((s.offers.take s.chan.log.length).filter (fun x => x.1 = c)).map Prod.snd

def notes (s : Store) : List Bool × Bool × Bool := (s.notifications, s.data.notifyLast, s.data.notifySeen)

def Noted (s : Store) : Prop :=
  s.notifications = [] ∧ s.data.notifyLast = s.data.notifySeen ∨
  s.notifications = [s.data.notifyLast] ∧ s.data.notifyLast ≠ s.data.notifySeen

structure Serving (s : State) : Prop where
  inv : ∃ held waiting phase, Server.Inv s held waiting phase
  plain : ∀ newStatus, s.pc ≠ .confirming newStatus ∧ s.pc ≠ .status newStatus ∧ s.pc ≠ .zero newStatus
  announced : s.chan.announced = s.offers.map packetMessage
  noted : Noted s.store
  wake : s.pc = .select → s.havePacket = false → ∀ c, (offered s c).length < (s.store.committed c).length →
    s.store.notifications ≠ []

section notes
variable {s t : Store}

theorem notifiedNoted (noted : Noted s) (taken : miiNotified s = some t) : Noted t := by
  unfold miiNotified at taken
  rcases noted with ⟨empty, -⟩ | ⟨one, -⟩
  · rw [empty] at taken
    cases taken
  · rw [one] at taken
    cases taken
    exact .inl ⟨rfl, rfl⟩

theorem notedSame (noted : Noted s) (same : notes t = notes s) : Noted t := by
  simp only [notes, Prod.mk.injEq] at same
  obtain ⟨notifications, last, seen⟩ := same
  unfold Noted
  rw [notifications, last, seen]
  exact noted

theorem notifyNoted (noted : Noted s) (same : notes t = notes (miiNotify s)) : Noted t ∧ t.notifications ≠ [] := by
  simp only [notes, Prod.mk.injEq] at same
  obtain ⟨notifications, last, seen⟩ := same
  unfold Noted
  rw [notifications, last, seen]
  unfold miiNotify
  rcases noted with ⟨empty, same⟩ | ⟨one, other⟩
  · rw [if_pos same]
    simp [empty, same]
  · rw [if_neg other]
    simp [one, other]

theorem notifyNotes (s : Store) : notes (miiNotify s) =
    if s.data.notifyLast = s.data.notifySeen then (s.notifications ++ [!s.data.notifyLast], !s.data.notifyLast, s.data.notifySeen)
    else notes s := by
  unfold miiNotify
  split <;> rfl

theorem notifyReadBank (s : Store) : (miiNotify s).data.readBank = s.data.readBank := by
  unfold miiNotify
  split <;> rfl

theorem getFromNotes (s : Store) : notes (getFrom s).1 = notes s := by
  unfold getFrom
  dsimp only
  split_ifs <;> rfl

theorem getNotes (s : Store) : notes (miiGetInBuffer s).1 = notes s := by
  unfold miiGetInBuffer
  split
  · rename_i u o first
    rw [← getFromNotes s, first]
  · rename_i u first
    have here : notes u = notes s := by rw [← getFromNotes s, first]
    split
    · rename_i v o second
      rw [← here, ← getFromNotes u, second]
    · rename_i v second
      rw [← here, ← getFromNotes u, second]

theorem restartNotes (s : Store) : notes (miiRestartBuffer s) = notes s ∧
    (miiRestartBuffer s).data.readBank = s.data.readBank := by
  unfold miiRestartBuffer
  split <;> exact ⟨rfl, rfl⟩

theorem receiveNotes {e : Rx} (h : StoreInv.Inv s) (taken : receive s e = some t) :
    t.data.readBank = s.data.readBank ∧
      (t.committed = s.committed ∧ notes t = notes s ∨ notes t = notes (miiNotify s)) := by
  cases e with
  | preamble time =>
    simp only [receive, receiveUpTo] at taken
    split at taken
    · cases taken
    · cases taken; exact ⟨rfl, .inl ⟨rfl, rfl⟩⟩
  | word word =>
    simp only [receive, receiveUpTo] at taken
    split at taken
    · cases taken; exact ⟨rfl, .inl ⟨rfl, rfl⟩⟩
    · cases taken
  | interrupt odd tailBits =>
    simp only [receive, receiveUpTo] at taken
    split at taken
    case isFalse => cases taken
    rename_i more
    rw [interruptCases (h.filling more.1)] at taken
    split at taken
    · cases taken; exact ⟨rfl, .inl ⟨rfl, rfl⟩⟩
    split at taken
    · cases taken
      have same : notes (miiNotify (beforeCommit s odd tailBits)) = notes (miiNotify s) := by
        rw [notifyNotes, notifyNotes]
        rfl
      exact ⟨notifyReadBank (beforeCommit s odd tailBits), .inr same⟩
    · cases taken; exact ⟨rfl, .inl ⟨rfl, rfl⟩⟩

end notes

structure Grows (s t : State) : Prop where
  offers : s.offers <+: t.offers
  log : s.chan.log <+: t.chan.log
  committed : ∀ c, s.store.committed c <+: t.store.committed c

structure Steady (s t : State) : Prop where
  offers : t.offers = s.offers
  chan : t.chan = s.chan
  committed : t.store.committed = s.store.committed
  notes : notes t.store = notes s.store
  bank : t.store.data.readBank = s.store.data.readBank

/- The packets of bank `d` up to the `T`th: how many more must be announced before, and whose turn it is. -/
def gets (d : Bool) (T : Nat) (s : State) : Nat :=
  if (offered s d).length < T then 2 * (T - (offered s d).length) + (if s.store.data.readBank = d then 1 else 0) else 0

def remaining (s : State) : Nat := ((s.nBytes + 3) / 4).toNat

def effort (s : State) : Nat :=
  match s.pc with
  | .select | .checking =>
    if s.havePacket then (if s.chan.client = .idle then 7 + remaining s else 6 + remaining s) else 1
  | .sending i => 5 + (remaining s - i)
  | .freeing => 4
  | .restarting => 3
  | .getting => 2
  | _ => 0

def rank (d : Bool) (T : Nat) (s : State) : Nat ×ₗ Nat := toLex (gets d T s, effort s)

def helpful (s : State) : Event :=
  match s.pc with
  | .select | .checking => if s.havePacket then (if s.chan.client = .idle then .inuint else .confirm) else .server
  | .sending i => if i < remaining s then .word else .server
  | _ => .server

def aux (s : State) : Event :=
  match s.pc with
  | .select | .checking => if s.havePacket then .server else .notified
  | .sending i => if i < remaining s then .word else .server
  | _ => .server

def Pending (d : Bool) (T : Nat) (s : State) : Prop := (done s d).length < T ∧ T ≤ (s.store.committed d).length
def Reached (d : Bool) (T : Nat) (s : State) : Prop := T ≤ (done s d).length

def Kept (d : Bool) (T : Nat) (s t : State) : Prop :=
  rank d T t < rank d T s ∨ rank d T t = rank d T s ∧ helpful t = helpful s ∧ aux t = aux s

section ranks
variable {s t : State} {d : Bool} {T : Nat}

theorem getsSame (offers : t.offers = s.offers) (bank : t.store.data.readBank = s.store.data.readBank) :
    gets d T t = gets d T s := by
  rw [gets, gets, offered, offered, offers, bank]

theorem lessEffort (same : gets d T t = gets d T s) (less : effort t < effort s) : rank d T t < rank d T s := by
  rw [rank, rank, same]
  exact Prod.Lex.toLex_lt_toLex.mpr (.inr ⟨rfl, less⟩)

theorem lessGets (less : gets d T t < gets d T s) : rank d T t < rank d T s :=
  Prod.Lex.toLex_lt_toLex.mpr (.inl less)

theorem loopKept (same : gets d T t = gets d T s) (before : s.pc = .select ∨ s.pc = .checking)
    (after : t.pc = .select ∨ t.pc = .checking) (some : t.havePacket = s.havePacket) (client : t.chan.client = s.chan.client)
    (nBytes : t.nBytes = s.nBytes) : Kept d T s t := by
  have remain : remaining t = remaining s := by rw [remaining, remaining, nBytes]
  have parts : effort t = effort s ∧ helpful t = helpful s ∧ aux t = aux s := by
    unfold effort helpful aux
    rcases before with before | before <;> rcases after with after | after <;>
      simp only [before, after, some, client, remain, and_self]
  exact .inr ⟨by rw [rank, rank, same, parts.1], parts.2⟩

end ranks

section steps
variable {s t : State} {d : Bool} {T : Nat} {held waiting : Bool → List Pkt} {phase : Phase}

theorem steadyGrows (steady : Steady s t) : Grows s t :=
  ⟨steady.offers ▸ List.prefix_refl _, steady.chan ▸ List.prefix_refl _, fun _ => steady.committed ▸ List.prefix_refl _⟩

theorem steadyServing (h : Serving s) (inv : ∃ held waiting phase, Server.Inv t held waiting phase) (steady : Steady s t)
    (plain : ∀ newStatus, t.pc ≠ .confirming newStatus ∧ t.pc ≠ .status newStatus ∧ t.pc ≠ .zero newStatus)
    (away : t.pc = .select → t.havePacket = true) : Serving t :=
  ⟨inv, plain, by rw [steady.chan, steady.offers]; exact h.announced, notedSame h.noted steady.notes,
    fun here none => by rw [away here] at none; cases none⟩

theorem waitingLength (h : Server.Inv s held waiting phase) (c : Bool) :
    (s.store.committed c).length = (offered s c).length + (waiting c).length := by
  rw [h.offers, List.length_append]
  rfl

theorem quietDone (h : Serving s) (quiet : Talk s.chan .quiet) (c : Bool) : done s c = offered s c := by
  obtain ⟨-, -, -, log⟩ := quiet
  rw [done, offered, log, h.announced, List.length_map, List.take_length]

theorem quietPending (h : Serving s) (inv : Server.Inv s held waiting .quiet) (pending : Pending d T s) :
    (offered s d).length < T ∧ waiting d ≠ [] := by
  have before := pending.1
  rw [quietDone h inv.talk] at before
  refine ⟨before, fun none => ?_⟩
  have length := waitingLength inv d
  rw [none, List.length_nil] at length
  have := pending.2
  omega

theorem rxMoves {e : Rx} (h : Serving s) (taken : step false s (.rx e) = some t) : Serving t ∧ Grows s t ∧ Kept d T s t := by
  obtain ⟨held, waiting, phase, inv⟩ := h.inv
  obtain ⟨waiting', next, -⟩ := rxInv inv taken
  obtain ⟨u, received, rfl⟩ := Option.map_eq_some_iff.mp taken
  obtain ⟨bank, rings⟩ := receiveNotes inv.stocked.fifo.inv received
  have same : gets d T { s with store := u, frames := s.frames ++ interrupted s.store e } = gets d T s :=
    getsSame rfl bank
  refine ⟨⟨⟨_, _, _, next⟩, h.plain, h.announced, ?_, ?_⟩, ⟨List.prefix_refl _, List.prefix_refl _, fun c => ?_⟩,
    .inr ⟨by rw [rank, same]; rfl, rfl, rfl⟩⟩
  · rcases rings with ⟨-, same⟩ | same
    · exact notedSame h.noted same
    · exact (notifyNoted h.noted same).1
  · intro here none c fewer
    rcases rings with ⟨committed, same⟩ | same
    · have notifications : u.notifications = s.store.notifications := congrArg Prod.fst same
      simp only [committed] at fewer
      simp only [notifications]
      exact h.wake here none c fewer
    · exact (notifyNoted h.noted same).2
  · rcases receiveStocked inv.stocked received with ⟨committed, -⟩ | ⟨x, k, commits, -⟩
    · exact committed ▸ List.prefix_refl _
    · rw [commits.committed]
      dsimp only
      split
      · exact List.prefix_append _ _
      · exact List.prefix_refl _

theorem loopMoves {e : Event} (h : Serving s) (idle : e = .transmit ∨ ∃ newStatus, e = .linkcheck newStatus)
    (taken : step false s e = some t) : Serving t ∧ Grows s t ∧ Kept d T s t := by
  have inv : ∃ held waiting phase, Server.Inv t held waiting phase := by
    obtain ⟨held, waiting, phase, inv⟩ := h.inv
    rcases idle with rfl | ⟨newStatus, rfl⟩
    · exact ⟨_, _, _, transmitInv inv taken⟩
    · obtain ⟨phase, next⟩ := linkcheckInv inv (fun smi => by cases smi) taken
      exact ⟨_, _, _, next⟩
  have moved : s.pc = .select ∧ t = { s with pc := .checking } := by
    rcases idle with rfl | ⟨newStatus, rfl⟩
    · simp only [step] at taken
      split at taken
      · rename_i here; cases taken; exact ⟨here, rfl⟩
      · cases taken
    · simp only [step] at taken
      split at taken
      · rename_i here
        rw [if_neg (by simp)] at taken
        cases taken
        exact ⟨here, rfl⟩
      · cases taken
  obtain ⟨here, rfl⟩ := moved
  have steady : Steady s { s with pc := .checking } := ⟨rfl, rfl, rfl, rfl, rfl⟩
  exact ⟨steadyServing h inv steady (by simp) (by simp), steadyGrows steady,
    loopKept (getsSame rfl rfl) (.inl here) (.inr rfl) rfl rfl rfl⟩

theorem notifiedMoves (h : Serving s) (taken : step false s .notified = some t) :
    Serving t ∧ Grows s t ∧ Kept d T s t ∧ t.pc = .checking ∧ t.havePacket = s.havePacket := by
  obtain ⟨held, waiting, phase, inv⟩ := h.inv
  have next := notifiedInv inv taken
  simp only [step] at taken
  split at taken
  case isFalse => cases taken
  rename_i here
  obtain ⟨u, notified, rfl⟩ := Option.map_eq_some_iff.mp taken
  have committed := (notifiedReads notified).committed
  have bank : u.data.readBank = s.store.data.readBank := by
    unfold miiNotified at notified
    split at notified
    · cases notified
    · cases notified; rfl
  refine ⟨⟨⟨_, _, _, next⟩, by simp, h.announced, notifiedNoted h.noted notified, by simp⟩,
    ⟨List.prefix_refl _, List.prefix_refl _, fun c => committed ▸ List.prefix_refl _⟩, ?_, rfl, rfl⟩
  exact loopKept (getsSame rfl bank) (.inl here) (.inr rfl) rfl rfl rfl

theorem inuintMoves (h : Serving s) (taken : step false s .inuint = some t) :
    Serving t ∧ Grows s t ∧ rank d T t < rank d T s := by
  obtain ⟨held, waiting, phase, inv⟩ := h.inv
  obtain ⟨⟨m, rfl, idle, client⟩, next⟩ := inuintInv inv taken
  obtain ⟨c, read, rfl⟩ := Option.map_eq_some_iff.mp taken
  obtain ⟨announced, log⟩ := inuintGrows read
  refine ⟨⟨⟨_, _, _, next⟩, h.plain, by rw [announced]; exact h.announced, h.noted, h.wake⟩,
    ⟨List.prefix_refl _, log ▸ List.prefix_refl _, fun c => List.prefix_refl _⟩, lessEffort rfl ?_⟩
  have at_ := inv.at_
  dsimp only at client
  unfold At at at_
  unfold effort
  cases here : s.pc with
  | select | checking =>
    simp only [here] at at_
    rcases at_ with ⟨-, -, none⟩ | ⟨x, k, holds, -⟩
    · cases none
    · simp only [holds.some, idle, client, if_true, remaining, reduceCtorEq, if_false]
      omega
  | sending n | freeing => simp [here] at at_
  | restarting | getting => simp [here] at at_
  | confirming newStatus => exact absurd here (h.plain newStatus).1
  | status newStatus => exact absurd here (h.plain newStatus).2.1
  | zero newStatus => exact absurd here (h.plain newStatus).2.2

theorem confirmMoves (h : Serving s) (taken : step false s .confirm = some t) :
    Serving t ∧ Grows s t ∧ rank d T t < rank d T s := by
  obtain ⟨held, waiting, phase, inv⟩ := h.inv
  obtain ⟨m, rfl, next⟩ := confirmInv inv taken
  simp only [step] at taken
  split at taken
  · rename_i here
    split at taken
    case isFalse => cases taken
    rename_i some
    obtain ⟨c, confirmed, rfl⟩ := Option.map_eq_some_iff.mp taken
    obtain ⟨⟨len, client⟩, announced, log⟩ := confirmGrows confirmed
    refine ⟨⟨⟨_, _, _, next⟩, by simp, by rw [announced]; exact h.announced, h.noted, by simp⟩,
      ⟨List.prefix_refl _, log, fun c => List.prefix_refl _⟩, lessEffort rfl ?_⟩
    simp only [effort, here, some, client, if_true, reduceCtorEq, if_false, remaining]
    omega
  · rename_i newStatus here
    exact absurd here (h.plain newStatus).1
  · cases taken

theorem wordMoves (h : Serving s) (taken : step false s .word = some t) :
    Serving t ∧ Grows s t ∧ rank d T t < rank d T s := by
  obtain ⟨held, waiting, phase, inv⟩ := h.inv
  obtain ⟨m, n, rfl, more, next⟩ := wordInv inv taken
  have next : ∃ held waiting phase, Server.Inv t held waiting phase := by
    rcases next with next | ⟨next, -⟩
    · exact ⟨_, _, _, next⟩
    · exact ⟨_, _, _, next⟩
  simp only [step, inv.talk.1] at taken
  split at taken
  · rename_i newStatus here
    exact absurd here (h.plain newStatus).2.1
  · rename_i newStatus here
    exact absurd here (h.plain newStatus).2.2
  · rename_i i here
    split at taken
    case isFalse => cases taken
    rename_i left
    obtain ⟨c, read, rfl⟩ := Option.map_eq_some_iff.mp taken
    obtain ⟨announced, log⟩ := inputGrows read
    refine ⟨⟨next, by simp, by rw [announced]; exact h.announced, h.noted, by simp⟩,
      ⟨List.prefix_refl _, log, fun c => List.prefix_refl _⟩, lessEffort rfl ?_⟩
    simp only [effort, here, remaining]
    omega
  · cases taken

theorem offerHistory {u : Store} {o : Obtained} {x : Bool × Pkt} (which : obtained u o = some x) :
    (offer s u o).chan.announced = s.chan.announced ++ [packetMessage x] ∧ (offer s u o).chan.log = s.chan.log ∧
    (offer s u o).offers = s.offers ++ [x] ∧ (offer s u o).store = u := by
  rw [offer, which]
  exact ⟨rfl, rfl, rfl, rfl⟩

theorem offerGets (h : Serving s) (inv : Server.Inv s held waiting .quiet) (pending : Pending d T s) {c : Bool} {k : Pkt}
    (turn : c = !s.store.data.readBank ∨ waiting (!s.store.data.readBank) = []) (offers : t.offers = s.offers ++ [(c, k)])
    (bank : t.store.data.readBank = c) : gets d T t < gets d T s := by
  obtain ⟨fewer, some⟩ := quietPending h inv pending
  have count : (offered t d).length = (offered s d).length + if c = d then 1 else 0 := by
    rw [offered, offered, offers, List.filter_append, List.map_append, List.length_append]
    by_cases same : c = d <;> simp [same]
  rw [gets, gets, count, bank, if_pos fewer]
  by_cases same : c = d
  · simp only [if_pos same]
    split <;> omega
  · have mine : s.store.data.readBank = d := by
      rcases turn with other | none
      · cases c <;> cases d <;> simp_all
      · by_contra other
        rw [Bool.not_eq.mpr (Ne.symm (fun h => other h.symm))] at none
        exact some none
    simp only [if_neg same, if_pos mine, Nat.add_zero, if_pos fewer]
    omega

theorem getMoves (h : Serving s) (inv : Server.Inv s (fun _ => []) waiting .quiet) (kept : s.pc ≠ .restarting) {p : Pc}
    (loop : p = .select ∨ p = .checking) :
    (miiGetInBuffer s.store).2.a = 0 ∧ (∀ d T, ¬ Pending d T s) ∧ (∀ b, b = false →
      Serving { s with store := (miiGetInBuffer s.store).1, a := (miiGetInBuffer s.store).2.a
                       nBytes := (miiGetInBuffer s.store).2.nBytes, havePacket := b, pc := p } ∧
      Grows s { s with store := (miiGetInBuffer s.store).1, a := (miiGetInBuffer s.store).2.a
                       nBytes := (miiGetInBuffer s.store).2.nBytes, havePacket := b, pc := p }) ∨
    (miiGetInBuffer s.store).2.a ≠ 0 ∧ ∀ b, b = true →
      Serving { offer s (miiGetInBuffer s.store).1 (miiGetInBuffer s.store).2 with havePacket := b, pc := p } ∧
      Grows s { offer s (miiGetInBuffer s.store).1 (miiGetInBuffer s.store).2 with havePacket := b, pc := p } ∧
      ∀ d T, Pending d T s → rank d T { offer s (miiGetInBuffer s.store).1 (miiGetInBuffer s.store).2 with
        havePacket := b, pc := p } < rank d T s := by
  have committed := (getReads s.store).committed
  have noted := notedSame h.noted (getNotes s.store)
  have plain : ∀ newStatus, p ≠ .confirming newStatus ∧ p ≠ .status newStatus ∧ p ≠ .zero newStatus := by
    rcases loop with rfl | rfl <;> simp
  cases getServes inv kept with
  | nothing a none next =>
    refine .inl ⟨a, fun d T pending => (quietPending h inv pending).2 (none d), fun b empty =>
      ⟨⟨⟨_, _, _, next p b loop empty⟩, plain, h.announced, noted, fun _ _ c fewer => ?_⟩,
        List.prefix_refl _, List.prefix_refl _, fun c => committed ▸ List.prefix_refl _⟩⟩
    simp only [committed, waitingLength inv c, none c, List.length_nil] at fewer
    exact absurd fewer (Nat.lt_irrefl _)
  | packet c k rest first turn bank some which next =>
    obtain ⟨announced, log, offers, store⟩ := @offerHistory s _ _ _ which
    refine .inr ⟨some, fun b full =>
      ⟨⟨⟨_, _, _, next p b loop full⟩, plain, ?_, by rw [store]; exact noted, fun _ none => ?_⟩, ⟨?_, ?_, ?_⟩, fun d T pending =>
        lessGets (offerGets h inv pending turn offers (by rw [store]; exact bank))⟩⟩
    · simp only [announced, offers, h.announced, List.map_append, List.map_cons, List.map_nil]
    · rw [full] at none
      cases none
    · rw [offers]
      exact List.prefix_append _ _
    · exact log ▸ List.prefix_refl _
    · intro y
      rw [store]
      exact committed ▸ List.prefix_refl _

def Rounds (s t : State) : Prop := s.pc = .checking ∧ s.havePacket = true ∧ t = { s with pc := .select }

theorem serverMoves (h : Serving s) (taken : step false s .server = some t) :
    Serving t ∧ Grows s t ∧ ∀ d T, Pending d T s → rank d T t < rank d T s ∨ Rounds s t ∧ Kept d T s t := by
  obtain ⟨held, waiting, phase, inv⟩ := h.inv
  have next := serverInv inv taken
  have at_ := inv.at_
  simp only [step] at taken
  split at taken
  · rename_i i here
    split at taken
    · cases taken
    cases taken
    have steady : Steady s { s with pc := .freeing } := ⟨rfl, rfl, rfl, rfl, rfl⟩
    refine ⟨steadyServing h next steady (by simp) (by simp), steadyGrows steady, fun d T _ => .inl (lessEffort (getsSame rfl rfl) ?_)⟩
    simp only [effort, here]
    omega
  · rename_i here
    simp only [At, here] at at_
    obtain ⟨c, k, ⟨some, a, nBytes, rfl⟩, rfl⟩ := at_
    have stocked := inv.stocked
    rw [here] at stocked
    obtain ⟨u, freed, -, committed, notifications, last, seen, bank⟩ := freeStocked stocked
    rw [← a] at freed
    rw [freed] at taken
    cases taken
    have steady : Steady s { s with store := u, pc := .restarting } :=
      ⟨rfl, rfl, committed, by simp only [notes, notifications, last, seen], bank⟩
    refine ⟨steadyServing h next steady (by simp) (by simp), steadyGrows steady, fun d T _ => .inl (lessEffort (getsSame rfl bank) ?_)⟩
    simp only [effort, here]
    omega
  · rename_i here
    cases taken
    obtain ⟨rings, bank⟩ := restartNotes s.store
    have steady : Steady s { s with store := miiRestartBuffer s.store, pc := .getting } :=
      ⟨rfl, rfl, restartCommitted _, rings, bank⟩
    refine ⟨steadyServing h next steady (by simp) (by simp), steadyGrows steady, fun d T _ => .inl (lessEffort (getsSame rfl bank) ?_)⟩
    simp only [effort, here]
    omega
  · rename_i here
    simp only [At, here] at at_
    obtain ⟨some, rfl, rfl⟩ := at_
    rcases getMoves h inv (by rw [here]; decide) (.inr rfl) with ⟨a, none, moves⟩ | ⟨a, moves⟩
    · rw [if_pos a] at taken
      cases taken
      exact ⟨(moves _ rfl).1, (moves _ rfl).2, fun d T pending => absurd pending (none d T)⟩
    · rw [if_neg a] at taken
      cases taken
      obtain ⟨serving, grows, less⟩ := moves _ some
      exact ⟨serving, grows, fun d T pending => .inl (less d T pending)⟩
  · rename_i here
    split at taken
    · rename_i some
      cases taken
      have steady : Steady s { s with pc := .select } := ⟨rfl, rfl, rfl, rfl, rfl⟩
      exact ⟨steadyServing h next steady (by simp) (fun _ => some), steadyGrows steady, fun d T _ =>
        .inr ⟨⟨here, some, rfl⟩, loopKept (getsSame rfl rfl) (.inr here) (.inl rfl) rfl rfl rfl⟩⟩
    · rename_i without
      have empty := Bool.eq_false_iff.mpr without
      simp only [At, here] at at_
      rcases at_ with ⟨-, rfl, rfl⟩ | ⟨c, k, holds, -⟩
      · rcases getMoves h inv (by rw [here]; decide) (.inl rfl) with ⟨a, none, moves⟩ | ⟨a, moves⟩
        · rw [if_neg (not_not.mpr a)] at taken
          cases taken
          exact ⟨(moves _ empty).1, (moves _ empty).2, fun d T pending => absurd pending (none d T)⟩
        · rw [if_pos a] at taken
          cases taken
          obtain ⟨serving, grows, less⟩ := moves _ rfl
          exact ⟨serving, grows, fun d T pending => .inl (less d T pending)⟩
      · exact absurd holds.some without
  · cases taken

theorem stepMoves {e : Event} (h : Serving s) (taken : step false s e = some t) :
    Serving t ∧ Grows s t ∧ (Pending d T s → Kept d T s t) := by
  cases e with
  | rx e =>
    obtain ⟨serving, grows, kept⟩ := rxMoves h taken
    exact ⟨serving, grows, fun _ => kept⟩
  | linkcheck newStatus =>
    obtain ⟨serving, grows, kept⟩ := loopMoves h (.inr ⟨newStatus, rfl⟩) taken
    exact ⟨serving, grows, fun _ => kept⟩
  | transmit =>
    obtain ⟨serving, grows, kept⟩ := loopMoves h (.inl rfl) taken
    exact ⟨serving, grows, fun _ => kept⟩
  | notified =>
    obtain ⟨serving, grows, kept, -⟩ := notifiedMoves h taken
    exact ⟨serving, grows, fun _ => kept⟩
  | inuint =>
    obtain ⟨serving, grows, less⟩ := inuintMoves h taken
    exact ⟨serving, grows, fun _ => .inl less⟩
  | confirm =>
    obtain ⟨serving, grows, less⟩ := confirmMoves h taken
    exact ⟨serving, grows, fun _ => .inl less⟩
  | word =>
    obtain ⟨serving, grows, less⟩ := wordMoves h taken
    exact ⟨serving, grows, fun _ => .inl less⟩
  | server =>
    obtain ⟨serving, grows, moves⟩ := serverMoves h taken
    refine ⟨serving, grows, fun pending => ?_⟩
    rcases moves d T pending with less | ⟨-, kept⟩
    · exact .inl less
    · exact kept

theorem getEnabled (here : s.pc = .getting ∨ s.pc = .checking) : Enabled (step false) s .server := by
  rcases here with here | here
  · simp only [Enabled, step, here]
    split <;> rfl
  · simp only [Enabled, step, here]
    split
    · rfl
    · split <;> rfl

theorem workEnabled (h : Serving s) (pending : Pending d T s) :
    Enabled (step false) s (helpful s) ∨ Enabled (step false) s (aux s) := by
  obtain ⟨held, waiting, phase, inv⟩ := h.inv
  have at_ := inv.at_
  have stocked := inv.stocked
  unfold At at at_
  cases here : s.pc with
  | select =>
    simp only [here] at at_
    rcases at_ with ⟨none, rfl, rfl⟩ | ⟨c, k, holds, rfl⟩
    · -- the packet has rung
      have some := h.wake here none d (by
        have fewer := (quietPending h inv pending).1
        have := pending.2
        omega)
      obtain ⟨seen, rest, ring⟩ := List.exists_cons_of_ne_nil some
      right
      simp [Enabled, step, aux, here, none, miiNotified, ring]
    · left
      obtain ⟨-, -, ⟨fifo, client⟩ | ⟨-, client⟩⟩ := inv.talk
      · simp [Enabled, step, helpful, here, holds.some, client, inuint, fifo]
      · simp [Enabled, step, helpful, here, holds.some, client, confirm]
  | checking =>
    have on := getEnabled (.inr here)
    simp only [here] at at_
    rcases at_ with ⟨none, rfl, rfl⟩ | ⟨c, k, holds, rfl⟩
    · left
      simpa only [helpful, here, none, Bool.false_eq_true, if_false] using on
    · right
      simpa only [aux, here, holds.some, if_true] using on
  | sending i =>
    simp only [here] at at_
    obtain ⟨c, k, ⟨some, a, nBytes, rfl⟩, rfl⟩ := at_
    rw [here] at stocked
    left
    by_cases more : i < remaining s
    · have test : (i : Int) < (s.nBytes + 3) / 4 := by
        unfold remaining at more
        omega
      rw [nBytes] at test
      obtain ⟨inside, -⟩ := List.getElem?_eq_some_iff.mp (intactWord (heldFits stocked).2 test)
      rw [← nBytes] at test
      obtain ⟨fifo, -, ⟨-, -, client⟩ | ⟨last, -⟩⟩ := inv.talk
      · simp [Enabled, step, helpful, here, more, fifo, test, client, input]
      · omega
    · have test : ¬ (i : Int) < (s.nBytes + 3) / 4 := by
        unfold remaining at more
        omega
      simp [Enabled, step, helpful, here, more, test]
  | freeing =>
    simp only [here] at at_
    obtain ⟨c, k, ⟨some, a, nBytes, rfl⟩, rfl⟩ := at_
    rw [here] at stocked
    obtain ⟨u, freed, -⟩ := freeStocked stocked
    rw [← a] at freed
    left
    simp [Enabled, step, helpful, here, freed]
  | restarting =>
    left
    simp [Enabled, step, helpful, here]
  | getting =>
    left
    have on := getEnabled (.inl here)
    simpa only [helpful, here] using on
  | confirming newStatus => exact absurd here (h.plain newStatus).1
  | status newStatus => exact absurd here (h.plain newStatus).2.1
  | zero newStatus => exact absurd here (h.plain newStatus).2.2

theorem helpfulLess (h : Serving s) (pending : Pending d T s) (taken : step false s (helpful s) = some t) :
    rank d T t < rank d T s := by
  have server : ∀ t, step false s .server = some t → (s.pc = .checking → s.havePacket = false) →
      rank d T t < rank d T s := by
    intro t taken clear
    rcases (serverMoves h taken).2.2 d T pending with less | ⟨⟨here, some, -⟩, -⟩
    · exact less
    · rw [clear here] at some
      cases some
  unfold helpful at taken
  split at taken
  · split at taken
    · split at taken
      · exact (inuintMoves h taken).2.2
      · exact (confirmMoves h taken).2.2
    · rename_i none
      exact server t taken fun _ => Bool.eq_false_iff.mpr none
  · split at taken
    · split at taken
      · exact (inuintMoves h taken).2.2
      · exact (confirmMoves h taken).2.2
    · rename_i none
      exact server t taken fun _ => Bool.eq_false_iff.mpr none
  · rename_i i here
    split at taken
    · exact (wordMoves h taken).2.2
    · exact server t taken fun other => by rw [here] at other; cases other
  · rename_i one two three
    exact server t taken fun other => absurd other two

theorem pendingProgress (d : Bool) (T : Nat) :
    Progress (step false) Serving (Pending d T) (Reached d T) (rank d T) helpful aux := by
  refine ⟨fun s e t h pending taken => ?_, fun s h => workEnabled h, fun s t h pending taken => .inr (helpfulLess h pending taken),
    fun s t h pending taken => ?_⟩
  · obtain ⟨-, grows, kept⟩ := stepMoves h taken
    by_cases reached : Reached d T t
    · exact .inl reached
    · exact .inr ⟨⟨Nat.lt_of_not_le reached, Nat.le_trans pending.2 (grows.committed d).length_le⟩, kept pending⟩
  · obtain ⟨serving, grows, -⟩ := @stepMoves s t d T _ h taken
    by_cases reached : Reached d T t
    · exact .inl reached
    have pending' : Pending d T t := ⟨Nat.lt_of_not_le reached, Nat.le_trans pending.2 (grows.committed d).length_le⟩
    -- only the steps between the select and the end of its loop are not helpful themselves
    have turned : helpful t = helpful s → ¬ Enabled (step false) t (aux t) → Enabled (step false) t (helpful s) := by
      intro same off
      rcases workEnabled serving pending' with on | on
      · rwa [← same]
      · exact absurd on off
    by_cases loop : s.pc = .select ∨ s.pc = .checking
    · by_cases some : s.havePacket = true
      · have server : aux s = .server := by
          unfold aux
          rcases loop with here | here <;> simp [here, some]
        rw [server] at taken
        rcases (serverMoves h taken).2.2 d T pending with less | ⟨⟨here, -, rfl⟩, less | ⟨-, same, -⟩⟩
        · exact .inr (.inl less)
        · exact .inr (.inl less)
        · exact .inr (.inr (turned same (by simp [Enabled, step, aux, some])))
      · have notified : aux s = .notified := by
          unfold aux
          rcases loop with here | here <;> simp [here, some]
        rw [notified] at taken
        obtain ⟨-, -, less | ⟨-, same, -⟩, here, none⟩ := @notifiedMoves s t d T h taken
        · exact .inr (.inl less)
        · exact .inr (.inr (turned same (by simp [Enabled, step, aux, here, none, some])))
    · have same : aux s = helpful s := by
        simp only [not_or] at loop
        unfold aux helpful
        split <;> simp_all
      rw [same] at taken
      exact .inr (.inl (helpfulLess h pending taken))

end steps

section lists
variable {s t : State} {f : Frame}

def payload (m : Message) : BitVec 32 × List (BitVec 8) := (m.len, (bytes m.words).take m.len.toNat)

theorem frameBytesLength (f : Frame) : (frameBytes f).length = 4 * f.words.length + f.odd.val := by
  have four : ∀ x, (bytesOf x).length = 4 := fun _ => rfl
  rw [frameBytes, List.length_append, bytesLength, List.length_take, four]
  omega

theorem receptionMessage (long : f.words ≠ []) (short : 4 * f.words.length + f.odd.val ≤ maxFrame) :
    payload f.message = reception f := by
  have some := List.length_pos_iff.mpr long
  have total := frameBytesLength f
  have len : ((4 * f.words.length + f.odd.val : Nat) : Int) - 4 = ((4 * f.words.length + f.odd.val - 4 : Nat) : Int) := by omega
  unfold maxFrame at short
  rw [payload, reception, Frame.message, message, len, BitVec.ofInt_natCast, total]
  simp only [BitVec.toNat_ofNat]
  rw [Nat.mod_eq_of_lt (by omega), bytesTake, List.take_take, Nat.min_eq_left (by omega), frameBytes,
    List.take_append_of_le_length (by rw [bytesLength]; omega)]

theorem stepFrames {e : Event} (taken : step false s e = some t) :
    t.frames = s.frames ∨ ∃ rx, (receive s.store rx).isSome = true ∧ t.frames = s.frames ++ interrupted s.store rx := by
  cases e with
  | rx rx =>
    obtain ⟨u, received, rfl⟩ := Option.map_eq_some_iff.mp taken
    exact .inr ⟨rx, by rw [received]; rfl, rfl⟩
  | _ =>
    left
    simp only [step, offer] at taken
    grind [Option.map_eq_some_iff]

def Short (s : State) : Prop := ∀ f ∈ s.frames, 4 * f.words.length + f.odd.val ≤ maxFrame

theorem stepShort {e : Event} (short : Short s) (taken : step false s e = some t) : Short t := by
  rcases stepFrames taken with same | ⟨rx, received, more⟩
  · unfold Short
    rw [same]
    exact short
  · intro f member
    rw [more] at member
    rcases List.mem_append.mp member with old | new
    · exact short f old
    · cases rx with
      | interrupt odd tailBits =>
        rw [List.mem_singleton.mp new]
        simp only [receive, receiveUpTo] at received
        split at received
        · rename_i fits; exact fits.2
        · cases received
      | _ => cases new

theorem duePerm (h : Serving s) (short : Short s) : (due s).Perm
    (((s.store.committed false ++ s.store.committed true).map (fun k => message k.length k.words)).map payload) := by
  obtain ⟨held, waiting, phase, inv⟩ := h.inv
  have same : due s = ((s.frames.filter accepted).map Frame.message).map payload := by
    rw [due, List.map_map]
    refine List.map_congr_left fun f member => ?_
    obtain ⟨here, good⟩ := List.mem_filter.mp member
    simp only [accepted, Bool.and_eq_true, decide_eq_true_eq] at good
    exact (receptionMessage (goodLong good.1) (short f here)).symm
  rw [same]
  exact inv.frames.map payload

theorem banksPerm (l : List (Bool × Pkt)) : (l.map packetMessage).Perm
    (((l.filter (fun x => x.1 = false)).map Prod.snd ++ (l.filter (fun x => x.1 = true)).map Prod.snd).map
      (fun k => message k.length k.words)) := by
  have split := List.filter_append_perm (fun x : Bool × Pkt => decide (x.1 = false)) l
  have other : (fun x : Bool × Pkt => !decide (x.1 = false)) = fun x => decide (x.1 = true) := by
    funext x
    cases x.1 <;> rfl
  rw [other] at split
  have mapped := (split.map packetMessage).symm
  rw [List.map_append] at mapped
  rwa [List.map_append, List.map_map, List.map_map]

theorem handedPerm (h : Serving s) :
    (handed s).Perm (((done s false ++ done s true).map (fun k => message k.length k.words)).map payload) := by
  obtain ⟨held, waiting, phase, inv⟩ := h.inv
  have log := List.prefix_iff_eq_take.mp (talkFaithful inv.talk).1.1
  rw [h.announced, ← List.map_take] at log
  have same : handed s = ((s.offers.take s.chan.log.length).map packetMessage).map payload := by
    rw [← log]
    rfl
  rw [same]
  exact (banksPerm _).map payload

theorem doneCommitted (h : Serving s) (c : Bool) : done s c <+: s.store.committed c := by
  obtain ⟨held, waiting, phase, inv⟩ := h.inv
  rw [inv.offers]
  exact (((List.take_prefix _ _).filter _).map _).trans (List.prefix_append _ _)

theorem handedDue (h : Serving s) (short : Short s) : (handed s).Subperm (due s) := by
  have parts := (doneCommitted h false).sublist.append (doneCommitted h true).sublist
  exact ((handedPerm h).subperm.trans ((parts.map _).map _).subperm).trans (duePerm h short).symm.subperm

theorem dueHanded (h : Serving s) (short : Short s) (later : Serving t) (grows : ∀ c, s.store.committed c <+: t.store.committed c)
    (reached : ∀ c, Reached c (s.store.committed c).length t) : (due s).Subperm (handed t) := by
  have parts : ∀ c, s.store.committed c <+: done t c := fun c =>
    List.prefix_of_prefix_length_le (grows c) (doneCommitted later c) (reached c)
  have whole := (parts false).sublist.append (parts true).sublist
  exact ((duePerm h short).subperm.trans ((whole.map _).map _).subperm).trans (handedPerm later).symm.subperm

end lists

theorem initialServing (mem : Int → Int) {address : Int} {numberWords : Nat} (aligned : address % 4 = 0)
    (positive : 0 < address) (large : 1532 ≤ numberWords) :
    Serving (initial mem address numberWords) ∧ Short (initial mem address numberWords) :=
  ⟨⟨⟨_, _, _, initialInv mem aligned positive large⟩, (fun _ => by simp [initial]), rfl, .inl ⟨rfl, rfl⟩,
    (fun _ _ _ fewer => by cases fewer)⟩, (fun f member => by cases member)⟩

section runs
variable {state : Nat → State} {event : Nat → Event}

theorem executionServing (execution : Execution (step false) state event) (init : Serving (state 0) ∧ Short (state 0)) (n : Nat) :
    Serving (state n) ∧ Short (state n) := by
  refine executionInvariant (I := fun s => Serving s ∧ Short s) ?_ execution init n
  exact fun s e t h taken => ⟨(@stepMoves s t false 0 e h.1 taken).1, stepShort h.2 taken⟩

theorem executionGrows (execution : Execution (step false) state event) (init : Serving (state 0) ∧ Short (state 0))
    {m n : Nat} (later : m ≤ n) (c : Bool) : (state m).store.committed c <+: (state n).store.committed c := by
  refine executionStable (Q := fun t => (state m).store.committed c <+: t.store.committed c) (I := Serving) ?_ execution
    (fun k => (executionServing execution init k).1) later (List.prefix_refl _)
  exact fun s e t h before taken => before.trans ((@stepMoves s t false 0 e h taken).2.1.committed c)

theorem doneGrows {s t : State} (grows : Grows s t) (c : Bool) : (done s c).length ≤ (done t c).length := by
  have longer := grows.offers.length_le
  have further := grows.log.length_le
  have start : s.offers.take s.chan.log.length <+: t.offers.take t.chan.log.length := by
    refine List.prefix_of_prefix_length_le ((List.take_prefix _ _).trans grows.offers) (List.take_prefix _ _) ?_
    rw [List.length_take, List.length_take]
    omega
  exact ((start.filter _).map _).length_le

theorem executionReached (execution : Execution (step false) state event) (init : Serving (state 0) ∧ Short (state 0))
    (fair : Fair (step false) work state event) (n : Nat) (c : Bool) :
    ∃ m, n ≤ m ∧ Reached c ((state n).store.committed c).length (state m) := by
  have inv := fun k => (executionServing execution init k).1
  by_cases now : Reached c ((state n).store.committed c).length (state n)
  · exact ⟨n, Nat.le_refl n, now⟩
  · refine fairLeads (pendingProgress c _) (fun s => ?_) (fun s => ?_) execution inv fair ⟨Nat.lt_of_not_le now, Nat.le_refl _⟩
    · unfold helpful
      split <;> try split_ifs
      all_goals trivial
    · unfold aux
      split <;> try split_ifs
      all_goals trivial

theorem reachedStays (execution : Execution (step false) state event) (init : Serving (state 0) ∧ Short (state 0)) {c : Bool}
    {T m n : Nat} (later : m ≤ n) (reached : Reached c T (state m)) : Reached c T (state n) :=
  executionStable (fun s e t h before taken => Nat.le_trans before (doneGrows (@stepMoves s t c T e h taken).2.1 c)) execution
    (fun k => (executionServing execution init k).1) later reached

end runs

/-- Where the link is not checked: nothing but what is due is handed to the client, and no more often
than it is due; in a fair run all of it is; and the loop of mii_free_in_buffer always ends. -/
theorem deliveredOnce (mem : Int → Int) (address : Int) (numberWords : Nat) (aligned : address % 4 = 0)
    (positive : 0 < address) (large : 1532 ≤ numberWords) :
    (∀ es s, run (step false) (initial mem address numberWords) es = some s →
      (handed s).Subperm (due s) ∧ (s.pc = .freeing → (miiFreeInBuffer s.store s.a).isSome = true)) ∧
    ∀ state event, state 0 = initial mem address numberWords → Execution (step false) state event →
      Fair (step false) work state event → ∀ n, ∃ m, n ≤ m ∧ (due (state n)).Subperm (handed (state m)) := by
  obtain ⟨serving, short⟩ := initialServing mem aligned positive large
  constructor
  · intro es s reached
    obtain ⟨serving, short⟩ := runInvariant (I := fun s => Serving s ∧ Short s)
      (fun s e t h taken => ⟨(@stepMoves s t false 0 e h.1 taken).1, stepShort h.2 taken⟩) ⟨serving, short⟩ reached
    refine ⟨handedDue serving short, fun here => ?_⟩
    obtain ⟨held, waiting, phase, inv⟩ := serving.inv
    have stocked := inv.stocked
    have at_ := inv.at_
    rw [here] at stocked
    simp only [At, here] at at_
    obtain ⟨c, k, ⟨some, a, nBytes, rfl⟩, rfl⟩ := at_
    obtain ⟨u, freed, -⟩ := freeStocked stocked
    rw [a, freed]
    rfl
  · intro state event start execution fair n
    have init : Serving (state 0) ∧ Short (state 0) := start ▸ ⟨serving, short⟩
    obtain ⟨m, after, first⟩ := executionReached execution init fair n false
    obtain ⟨m', after', second⟩ := executionReached execution init fair n true
    refine ⟨max m m', by omega, ?_⟩
    obtain ⟨before, short⟩ := executionServing execution init n
    refine dueHanded before short (executionServing execution init _).1 (executionGrows execution init (by omega)) fun c => ?_
    cases c
    · exact reachedStays execution init (Nat.le_max_left _ _) first
    · exact reachedStays execution init (Nat.le_max_right _ _) second

structure Resting (s : State) : Prop where
  serving : Serving s
  none : s.havePacket = false
  silent : s.store.notifications = []
  empty : ∀ c, (s.store.committed c).length = (offered s c).length

def restEvent (n : Nat) : Event := if n % 2 = 0 then .transmit else .server

def restState (q : State) : Nat → State
  | 0 => q
  | n + 1 => (step false (restState q n) (restEvent n)).getD (restState q n)

section rest
variable {s q : State}

theorem restTransmit (rest : Resting s) (here : s.pc = .select) :
    ∃ t, step false s .transmit = some t ∧ Resting t ∧ t.pc = .checking := by
  have taken : step false s .transmit = some { s with pc := .checking } := by simp [step, here]
  exact ⟨_, taken, ⟨(@loopMoves _ _ false 0 _ rest.serving (.inl rfl) taken).1, rest.none, rest.silent, rest.empty⟩, rfl⟩

theorem restServer (rest : Resting s) (here : s.pc = .checking) :
    ∃ t, step false s .server = some t ∧ Resting t ∧ t.pc = .select := by
  obtain ⟨held, waiting, phase, inv⟩ := rest.serving.inv
  have at_ := inv.at_
  simp only [At, here] at at_
  rcases at_ with ⟨-, rfl, rfl⟩ | ⟨c, k, holds, -⟩
  case inr =>
    have := holds.some
    rw [rest.none] at this
    cases this
  cases getServes inv (by rw [here]; decide) with
  | packet c k more first =>
    have length := waitingLength inv c
    rw [first, rest.empty c, List.length_cons] at length
    omega
  | nothing a none next =>
    have taken : step false s .server = some { s with
        store := (miiGetInBuffer s.store).1, a := (miiGetInBuffer s.store).2.a
        nBytes := (miiGetInBuffer s.store).2.nBytes, pc := .select } := by
      simp [step, here, rest.none, a]
    have notifications : (miiGetInBuffer s.store).1.notifications = s.store.notifications := congrArg Prod.fst (getNotes s.store)
    refine ⟨_, taken, ⟨(stepMoves (d := false) (T := 0) rest.serving taken).1, rest.none, notifications.trans rest.silent,
      fun c => ?_⟩, rfl⟩
    simp only [(getReads s.store).committed]
    exact rest.empty c

theorem restRun (rest : Resting q) (here : q.pc = .select) (n : Nat) :
    Resting (restState q n) ∧ (restState q n).pc = (if n % 2 = 0 then .select else .checking) ∧
      step false (restState q n) (restEvent n) = some (restState q (n + 1)) := by
  have go : ∀ n, Resting (restState q n) → (restState q n).pc = (if n % 2 = 0 then .select else .checking) →
      ∃ t, step false (restState q n) (restEvent n) = some t ∧ Resting t ∧
        t.pc = (if (n + 1) % 2 = 0 then .select else .checking) := by
    intro n rest place
    unfold restEvent
    by_cases even : n % 2 = 0
    · rw [if_pos even] at place ⊢
      rw [if_neg (by omega)]
      exact restTransmit rest place
    · rw [if_neg even] at place ⊢
      rw [if_pos (by omega)]
      exact restServer rest place
  have both : Resting (restState q n) ∧ (restState q n).pc = (if n % 2 = 0 then .select else .checking) := by
    induction n with
    | zero => exact ⟨rest, here⟩
    | succ n ih =>
      obtain ⟨t, taken, resting, place⟩ := go n ih.1 ih.2
      rw [restState, taken]
      exact ⟨resting, place⟩
  obtain ⟨t, taken, -⟩ := go n both.1 both.2
  exact ⟨both.1, both.2, by rw [restState, taken]; rfl⟩

theorem restWork (rest : Resting s) (place : s.pc = .select ∨ s.pc = .checking) {e : Event} (works : work e)
    (on : Enabled (step false) s e) : e = .server := by
  obtain ⟨held, waiting, phase, inv⟩ := rest.serving.inv
  have quiet : phase = .quiet := by
    have at_ := inv.at_
    unfold At at at_
    rcases place with here | here
    all_goals
      simp only [here] at at_
      rcases at_ with ⟨-, -, quiet⟩ | ⟨c, k, holds, -⟩
      · exact quiet
      · have := holds.some
        rw [rest.none] at this
        cases this
  subst quiet
  obtain ⟨fifo, client, -⟩ := inv.talk
  cases e with
  | server => rfl
  | notified =>
    simp only [Enabled, step, miiNotified, rest.silent] at on
    split at on <;> cases on
  | confirm => rcases place with here | here <;> simp [Enabled, step, here, rest.none] at on
  | word => rcases place with here | here <;> simp [Enabled, step, here, fifo] at on
  | inuint => simp [Enabled, step, inuint, client, fifo] at on
  | _ => cases works

theorem restFair (rest : Resting q) (here : q.pc = .select) :
    Execution (step false) (restState q) restEvent ∧ Fair (step false) work (restState q) restEvent := by
  refine ⟨⟨fun n => (restRun rest here n).2.2⟩, fun e works often n => ?_⟩
  obtain ⟨m, -, on⟩ := often 0
  obtain ⟨resting, place, -⟩ := restRun rest here m
  have server := restWork resting (by rw [place]; split <;> simp) works on
  refine ⟨2 * n + 1, by omega, ?_⟩
  rw [server, restEvent, if_neg (by omega)]

end rest

def onePacket : List Event :=
  goodPacket ++ [.notified, .server, .inuint, .confirm] ++ List.replicate 15 .word ++ List.replicate 5 .server

theorem deliveredOncePacket : ∃ state event n, state 0 = initial (fun _ => 0) 16 6400 ∧ Execution (step false) state event ∧
    Fair (step false) work state event ∧ (due (state n)).length = 1 ∧ ∃ m, n ≤ m ∧ (due (state n)).Subperm (handed (state m)) := by
  have ends : (run (step false) (initial (fun _ => 0) 16 6400) onePacket).map
      (fun s => (s.pc, s.havePacket, s.store.notifications, (due s).length)) = some (.select, false, [], 1) := by decide +kernel
  obtain ⟨q, reached, same⟩ := Option.map_eq_some_iff.mp ends
  simp only [Prod.mk.injEq] at same
  obtain ⟨here, none, silent, one⟩ := same
  have serving := runInvariant (fun s e t h taken => (stepMoves (d := false) (T := 0) h taken).1)
    (initialServing (fun _ => 0) (by decide) (by decide) (by decide)).1 reached
  have rest : Resting q := by
    refine ⟨serving, none, silent, fun c => ?_⟩
    obtain ⟨held, waiting, phase, inv⟩ := serving.inv
    have length := waitingLength inv c
    have rung := serving.wake here none c
    rw [silent] at rung
    by_contra other
    exact rung (by omega) rfl
  obtain ⟨execution, fair⟩ := restFair rest here
  obtain ⟨state, event, start, execution, fair, same⟩ := executionAppend reached execution fair
  have last : state (onePacket.length + 0) = q := same 0
  refine ⟨state, event, onePacket.length + 0, start, execution, fair, by rw [last]; exact one, ?_⟩
  exact (deliveredOnce (fun _ => 0) 16 6400 (by decide) (by decide) (by decide)).2 state event start execution fair _

end ScEthernet.Lite.Delivery
