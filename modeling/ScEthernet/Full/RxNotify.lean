import ScEthernet.Full.RxLink
import ScEthernet.Lib.Runs

/-! The notification protocol of one receive link. `s2c` and `c2s` are the two directions of
the channel end to end. Every token the server sends is an XS1_CT_END to the client; which
statement sent it, and for which call, is history. The values of a command or of a packet
pass in one exchange, in which neither side can run ahead of the other. -/
namespace ScEthernet.Full.RxNotify
open Lib.CircularFifo Lib.Runs RxLink

inductive Token where
  | notify
  | first (call : Nat)
  | second (call : Nat)
  deriving DecidableEq

inductive Request where
  | frameReq
  | frameReqOffset2
  | typePayloadReq
  deriving DecidableEq

inductive Cmd where
  | frame (r : Request)
  | other (c : Command)
  deriving DecidableEq

inductive Datum where
  | isCmd (flag : Bool)
  | ended
  | cmd (c : Cmd)
  deriving DecidableEq

inductive Call where
  | unifiedGetData (r : Request)
  | macSetDropPackets (x : Int)
  | macRequestStatusPackets
  | macSetQueueSize (x : Int)
  | macSetCustomFilter (x : BitVec 32)
  | macGetLinkCounters
  | macGetGlobalCounters
  | macGetTileTimerOffset

def Call.cmd : Call → Cmd
  | .unifiedGetData r => .frame r
  | .macSetDropPackets x => .other (.dropPacketsSet x)
  | .macRequestStatusPackets => .other (.wantsStatusUpdatesSet 1)
  | .macSetQueueSize x => .other (.queueSizeSet x)
  | .macSetCustomFilter x => .other (.customFilterSet x)
  | .macGetLinkCounters => .other .overflowCntReq
  | .macGetGlobalCounters => .other .overflowMiiCntReq
  | .macGetTileTimerOffset => .other .tileTimerOffsetReq

/- Where the client waits: for an END in ethernet_unified_get_data or send_cmd, or in the data. -/
inductive Client where
  | idle
  | getNotify (r : Request)
  | getFirst (r : Request)
  | getSecond (r : Request)
  | getData (r : Request)
  | cmdFirst (c : Command)
  | cmdSecond (c : Command)
  | cmdData (c : Command)

/- `handshake` and `body` are inside service_link_cmd or the branch behind it, before the
second read and after it; `finish` is what follows the data. -/
inductive Server where
  | select
  | handshake (renotify : Bool)
  | body (c : Cmd) (renotify : Bool)
  | finish (c : Cmd) (renotify : Bool)

structure State where
  link : Link
  client : Client
  server : Server
  s2c : List Token
  c2s : List Datum
  /- History: a notification went out and no request has been answered since. -/
  unanswered : Bool
  /- History: calls the client has made and calls the server has taken up. -/
  calls : Nat
  served : Nat

inductive Event where
  | call (c : Call)
  | consume
  | serve
  | acknowledge
  | exchange
  | pass
  | finish
  | frame (buf : Int) (result : BitVec 32)
  | linkStatus

/- `n + 1` is NUM_MII_RX_BUF. -/
def initial (n : Nat) : State := ⟨.initial (n + 1), .idle, .select, [], [], false, 0, 0⟩

def notifyIf (b : Bool) (s : State) : State :=
  if b then { s with s2c := s.s2c ++ [.notify], unanswered := true } else s

def step (n : Nat) (s : State) : Event → Option State
  | .call c =>
    match s.client, c.cmd with
    | .idle, .frame r => some { s with client := .getNotify r, calls := s.calls + 1 }
    | .idle, .other c =>
      some { s with client := .cmdFirst c, calls := s.calls + 1, c2s := s.c2s ++ [.isCmd true, .ended] }
    | _, _ => none
  | .consume =>
    match s.s2c, s.client with
    | _ :: ts, .getNotify r =>
      some { s with s2c := ts, client := .getFirst r, c2s := s.c2s ++ [.isCmd false, .ended] }
    | _ :: ts, .getFirst r =>
      some { s with s2c := ts, client := .getSecond r, c2s := s.c2s ++ [.cmd (.frame r), .ended] }
    | _ :: ts, .getSecond r => some { s with s2c := ts, client := .getData r }
    | _ :: ts, .cmdFirst c =>
      some { s with s2c := ts, client := .cmdSecond c, c2s := s.c2s ++ [.cmd (.other c), .ended] }
    | _ :: ts, .cmdSecond c => some { s with s2c := ts, client := .cmdData c }
    | _, _ => none
  | .serve =>
    match s.server, s.c2s with
    | .select, .isCmd flag :: .ended :: rest =>
      let t := { s with c2s := rest, served := s.served + 1, server := .handshake s.link.notified }
      if s.link.notified && flag then some t else some { t with s2c := s.s2c ++ [.first t.served] }
    | _, _ => none
  | .acknowledge =>
    match s.server, s.c2s with
    | .handshake renotify, .cmd c :: .ended :: rest =>
      let renotify := match c with
        | .frame _ => false
        | .other _ => renotify
      some { s with c2s := rest, s2c := s.s2c ++ [.second s.served], server := .body c renotify }
    | _, _ => none
  | .exchange =>
    match s.server, s.client with
    | .body (.frame r) renotify, .getData _ =>
      if (request (n + 1) s.link).reply = .nothing then none
      else some { s with client := .idle, server := .finish (.frame r) renotify }
    | .body (.other c) renotify, .cmdData _ =>
      if c = .unrecognised then none
      else some { s with link := command (n + 1) c s.link, client := .idle, server := .finish (.other c) renotify }
    | _, _ => none
  | .pass =>
    match s.server with
    -- a request without notification, and a command that is not recognised
    | .body (.frame _) _ =>
      if (request (n + 1) s.link).reply = .nothing then some { s with server := .select } else none
    | .body (.other c) renotify =>
      if c = .unrecognised then some (notifyIf renotify { s with server := .select }) else none
    | _ => none
  | .finish =>
    match s.server with
    | .finish (.frame _) _ =>
      let a := request (n + 1) s.link
      some (notifyIf a.notify { s with link := a.link, server := .select, unanswered := false })
    | .finish (.other _) renotify => some (notifyIf renotify { s with server := .select })
    | _ => none
  | .frame buf result =>
    match s.server with
    | .select =>
      let o := offer (n + 1) buf result s.link
      some (notifyIf o.notify { s with link := o.link })
    | _ => none
  | .linkStatus =>
    match s.server with
    | .select =>
      let c := statusChange s.link
      some (notifyIf c.notify { s with link := c.link })
    | _ => none

/- A command may take the notification for the first acknowledgement. -/
def Client.awaits (calls : Nat) (t : Token) : Client → Prop
  | .getNotify _ => t = .notify
  | .getFirst _ => t = .first calls
  | .cmdFirst _ => t = .notify ∨ t = .first calls
  | .getSecond _ => t = .second calls
  | .cmdSecond _ => t = .second calls
  | _ => False

structure Sound (s : State) : Prop where
  single : s.s2c.countP (· = .notify) ≤ 1
  flag : s.link.notified = s.unanswered
  expected : ∀ t ts, s.s2c = t :: ts → s.client ≠ .idle → s.client.awaits s.calls t
  clean : (∃ r, s.client = .getData r) ∨ (∃ c, s.client = .cmdData c) → s.s2c = []

/- The link changes when the client does not want to know or has been notified. -/
def Covered (s : State) : Event → Prop
  | .linkStatus => s.link.wantsStatusUpdates = 0 ∨ s.link.notified = true
  | _ => True

inductive Rest (notified : Bool) : Server → List Token → Prop where
  | select : Rest notified .select (if notified then [.notify] else [])
  | packet (r) (on : notified = true) (renotify) : Rest notified (.finish (.frame r) renotify) []
  | command (c) : Rest notified (.finish (.other c) notified) []

inductive Joint : Bool → Client → Server → List Token → List Datum → Nat → Nat → Prop where
  | idle {b sv s2c} (rest : Rest b sv s2c) (k) : Joint b .idle sv s2c [] k k
  | getNotify {b sv s2c} (rest : Rest b sv s2c) (r k) : Joint b (.getNotify r) sv s2c [] (k + 1) k
  | getAsked (r k) : Joint true (.getFirst r) .select [] [.isCmd false, .ended] (k + 1) k
  | getFirst (r k) : Joint true (.getFirst r) (.handshake true) [.first k] [] k k
  | getSent (r k) : Joint true (.getSecond r) (.handshake true) [] [.cmd (.frame r), .ended] k k
  | getSecond (r k) : Joint true (.getSecond r) (.body (.frame r) false) [.second k] [] k k
  | getData (r k) : Joint true (.getData r) (.body (.frame r) false) [] [] k k
  | cmdAsked {b sv s2c} (rest : Rest b sv s2c) {c} (known : c ≠ .unrecognised) (k) :
      Joint b (.cmdFirst c) sv s2c [.isCmd true, .ended] (k + 1) k
  | cmdFirst {c} (known : c ≠ .unrecognised) (k) :
      Joint false (.cmdFirst c) (.handshake false) [.first k] [] k k
  -- the notification is in the channel when the server gets to the command
  | cmdCrossed {c} (known : c ≠ .unrecognised) (k) :
      Joint true (.cmdFirst c) (.handshake true) [.notify] [] k k
  -- the client has taken the notification before the server gets to the command
  | cmdAhead {c} (known : c ≠ .unrecognised) (k) :
      Joint true (.cmdSecond c) .select [] [.isCmd true, .ended, .cmd (.other c), .ended] (k + 1) k
  | cmdSent (b) {c} (known : c ≠ .unrecognised) (k) :
      Joint b (.cmdSecond c) (.handshake b) [] [.cmd (.other c), .ended] k k
  | cmdSecond (b) {c} (known : c ≠ .unrecognised) (k) :
      Joint b (.cmdSecond c) (.body (.other c) b) [.second k] [] k k
  | cmdData (b) {c} (known : c ≠ .unrecognised) (k) :
      Joint b (.cmdData c) (.body (.other c) b) [] [] k k

def Flagged (n : Nat) (l : Link) : Prop :=
  l.fifo.Valid n ∧ (l.notified = true ↔ l.fifo.rd ≠ l.fifo.wr)

structure Inv (n : Nat) (s : State) : Prop where
  joint : Joint s.link.notified s.client s.server s.s2c s.c2s s.calls s.served
  flagged : Flagged (n + 1) s.link
  flag : s.link.notified = s.unanswered

section links
variable {n : Nat} {l : Link}

theorem pushNonempty (room : next n l.fifo.wr ≠ l.fifo.rd) (buf : Int) :
    (l.fifo.push n buf).rd ≠ (l.fifo.push n buf).wr := fun same => room same.symm

theorem offerFlagged (h : Flagged n l) (buf : Int) (result : BitVec 32) :
    Flagged n (offer n buf result l).link ∧
    (offer n buf result l).link.notified = (l.notified || (offer n buf result l).notify) ∧
    ((offer n buf result l).notify = true → l.notified = false) := by
  obtain ⟨valid, waiting⟩ := h
  unfold offer
  split
  · exact ⟨⟨valid, waiting⟩, by simp, by simp⟩
  · split
    · rename_i found
      refine ⟨⟨pushValid valid buf, ?_⟩, by simp, by simp⟩
      simpa using pushNonempty found.2 buf
    · exact ⟨⟨valid, waiting⟩, by simp, by simp⟩

theorem requestFlagged (h : Flagged n l) (on : l.notified = true) :
    Flagged n (request n l).link ∧ (request n l).link.notified = (request n l).notify ∧
    (request n l).reply ≠ .nothing := by
  obtain ⟨valid, waiting⟩ := h
  have some := waiting.mp on
  unfold request
  simp only [if_pos some]
  split
  · exact ⟨⟨valid, waiting⟩, on, by simp⟩
  · split
    · rename_i more
      exact ⟨⟨popValid valid, by simpa [on] using more⟩, on, by simp⟩
    · rename_i last
      exact ⟨⟨popValid valid, by simpa using last⟩, rfl, by simp⟩

theorem commandFlagged (h : Flagged n l) (c : Command) :
    Flagged n (command n c l) ∧ (command n c l).notified = l.notified := by
  cases c <;> exact ⟨h, rfl⟩

theorem statusChangeFlagged (h : Flagged n l) :
    Flagged n (statusChange l).link ∧ (statusChange l).link.notified = l.notified := by
  unfold statusChange
  split <;> exact ⟨h, rfl⟩

end links

section joint
variable {b : Bool} {cl : Client} {sv : Server} {s2c : List Token} {c2s : List Datum} {k m : Nat}

theorem jointNotify (h : Joint false cl .select s2c c2s k m) :
    Joint true cl .select (s2c ++ [.notify]) c2s k m := by
  cases h with
  | idle rest => cases rest; exact .idle .select _
  | getNotify rest r => cases rest; exact .getNotify .select r _
  | cmdAsked rest known => cases rest; exact .cmdAsked .select known _

theorem jointRest {sv' : Server} {b' : Bool} {s2c' : List Token} {c : Cmd} {renotify : Bool}
    (h : Joint b cl (.finish c renotify) s2c c2s k m) (rest' : Rest b' sv' s2c') :
    Joint b' cl sv' s2c' c2s k m ∧ s2c = [] ∧
      ((∃ r, c = .frame r ∧ b = true) ∨ ∃ d, c = .other d ∧ renotify = b) := by
  cases h with
  | idle rest =>
    refine ⟨.idle rest' _, ?_⟩
    cases rest with
    | packet r on => exact ⟨rfl, .inl ⟨r, rfl, on⟩⟩
    | command d => exact ⟨rfl, .inr ⟨d, rfl, rfl⟩⟩
  | getNotify rest r =>
    refine ⟨.getNotify rest' r _, ?_⟩
    cases rest with
    | packet r on => exact ⟨rfl, .inl ⟨r, rfl, on⟩⟩
    | command d => exact ⟨rfl, .inr ⟨d, rfl, rfl⟩⟩
  | cmdAsked rest known =>
    refine ⟨.cmdAsked rest' known _, ?_⟩
    cases rest with
    | packet r on => exact ⟨rfl, .inl ⟨r, rfl, on⟩⟩
    | command d => exact ⟨rfl, .inr ⟨d, rfl, rfl⟩⟩

theorem restSingle (h : Rest b sv s2c) : s2c = [] ∨ s2c = [.notify] := by
  cases h with
  | select => cases b <;> simp
  | packet => exact .inl rfl
  | command => exact .inl rfl

theorem jointSingle (h : Joint b cl sv s2c c2s k m) : s2c = [] ∨ ∃ t, s2c = [t] ∧
    (cl ≠ .idle → cl.awaits k t) := by
  cases h with
  | idle rest => rcases restSingle rest with rfl | rfl <;> simp
  | getNotify rest => rcases restSingle rest with rfl | rfl <;> simp [Client.awaits]
  | cmdAsked rest => rcases restSingle rest with rfl | rfl <;> simp [Client.awaits]
  | _ => simp [Client.awaits]

theorem jointClean (h : Joint b cl sv s2c c2s k m)
    (data : (∃ r, cl = .getData r) ∨ ∃ c, cl = .cmdData c) : s2c = [] := by
  rcases data with ⟨r, rfl⟩ | ⟨c, rfl⟩ <;> cases h <;> rfl

end joint

section steps
variable {n : Nat} {s t : State}

theorem callKeeps (h : Inv n s) {c : Call} (taken : step n s (.call c) = some t) : Inv n t := by
  obtain ⟨link, client, server, s2c, c2s, unanswered, calls, served⟩ := s
  obtain ⟨joint, flagged, flag⟩ := h
  simp only at flag joint
  simp only [step] at taken
  generalize on : link.notified = b at joint
  split at taken
  · cases taken
    cases joint with
    | idle rest => exact ⟨on ▸ .getNotify rest _ _, flagged, flag⟩
  · rename_i c' cmd
    have known : c' ≠ .unrecognised := by
      rintro rfl
      cases c <;> simp [Call.cmd] at cmd
    cases taken
    cases joint with
    | idle rest => exact ⟨on ▸ .cmdAsked rest known _, flagged, flag⟩
  · cases taken

theorem restTake {b : Bool} {server : Server} {x : Token} {ts : List Token}
    (h : Rest b server (x :: ts)) : b = true ∧ server = .select ∧ ts = [] := by
  generalize here : x :: ts = s2c at h
  cases h with
  | select => cases b <;> simp_all
  | packet => cases here
  | command => cases here

theorem consumeKeeps (h : Inv n s) (taken : step n s .consume = some t) : Inv n t := by
  obtain ⟨link, client, server, s2c, c2s, unanswered, calls, served⟩ := s
  obtain ⟨joint, flagged, flag⟩ := h
  simp only at flag joint
  simp only [step] at taken
  generalize on : link.notified = b at joint
  split at taken
  · cases taken
    cases joint with
    | getNotify rest =>
      obtain ⟨rfl, rfl, rfl⟩ := restTake rest
      exact ⟨on ▸ .getAsked _ _, flagged, flag⟩
  · cases taken
    cases joint with
    | getFirst => exact ⟨on ▸ .getSent _ _, flagged, flag⟩
  · cases taken
    cases joint with
    | getSecond => exact ⟨on ▸ .getData _ _, flagged, flag⟩
  · cases taken
    cases joint with
    | cmdAsked rest known =>
      obtain ⟨rfl, rfl, rfl⟩ := restTake rest
      exact ⟨on ▸ .cmdAhead known _, flagged, flag⟩
    | cmdFirst known => exact ⟨on ▸ .cmdSent _ known _, flagged, flag⟩
    | cmdCrossed known => exact ⟨on ▸ .cmdSent _ known _, flagged, flag⟩
  · cases taken
    cases joint with
    | cmdSecond b known => exact ⟨on ▸ .cmdData _ known _, flagged, flag⟩
  · cases taken

theorem serveKeeps (h : Inv n s) (taken : step n s .serve = some t) : Inv n t := by
  obtain ⟨link, client, server, s2c, c2s, unanswered, calls, served⟩ := s
  obtain ⟨joint, flagged, flag⟩ := h
  simp only at flag joint
  simp only [step] at taken
  generalize on : link.notified = b at joint taken
  split at taken
  case h_2 => cases taken
  cases joint with
  | getAsked r k =>
    cases taken
    exact ⟨on.symm ▸ .getFirst r _, flagged, flag⟩
  | cmdAhead known k =>
    cases taken
    exact ⟨on.symm ▸ .cmdSent true known _, flagged, flag⟩
  | cmdAsked rest known k =>
    cases rest
    cases b
    · cases taken
      exact ⟨on.symm ▸ .cmdFirst known _, flagged, flag⟩
    · cases taken
      exact ⟨on.symm ▸ .cmdCrossed known _, flagged, flag⟩

theorem acknowledgeKeeps (h : Inv n s) (taken : step n s .acknowledge = some t) : Inv n t := by
  obtain ⟨link, client, server, s2c, c2s, unanswered, calls, served⟩ := s
  obtain ⟨joint, flagged, flag⟩ := h
  simp only at flag joint
  simp only [step] at taken
  generalize on : link.notified = b at joint
  split at taken
  case h_2 => cases taken
  cases joint with
  | getSent r k =>
    cases taken
    exact ⟨on ▸ .getSecond r _, flagged, flag⟩
  | cmdSent b known k =>
    cases taken
    exact ⟨on ▸ .cmdSecond _ known _, flagged, flag⟩

theorem exchangeKeeps (h : Inv n s) (taken : step n s .exchange = some t) : Inv n t := by
  obtain ⟨link, client, server, s2c, c2s, unanswered, calls, served⟩ := s
  obtain ⟨joint, flagged, flag⟩ := h
  simp only at flag joint
  simp only [step] at taken
  generalize on : link.notified = b at joint
  split at taken
  · split at taken
    · cases taken
    cases taken
    cases joint with
    | getData r k => exact ⟨on ▸ .idle (.packet _ rfl _) _, flagged, flag⟩
  · split at taken
    · cases taken
    cases taken
    cases joint with
    | cmdData b known k =>
      obtain ⟨flagged', same⟩ := commandFlagged flagged _
      exact ⟨(same.trans on) ▸ .idle (.command _) _, flagged', same.trans flag⟩
  · cases taken

theorem passNever (h : Inv n s) : step n s .pass = none := by
  obtain ⟨link, client, server, s2c, c2s, unanswered, calls, served⟩ := s
  obtain ⟨joint, flagged, flag⟩ := h
  simp only at joint
  simp only [step]
  generalize on : link.notified = b at joint
  split
  · cases joint with
    | getSecond r k => exact if_neg (requestFlagged flagged on).2.2
    | getData r k => exact if_neg (requestFlagged flagged on).2.2
    | idle rest => cases rest
    | getNotify rest => cases rest
    | cmdAsked rest => cases rest
  · cases joint with
    | cmdSecond b known k => exact if_neg known
    | cmdData b known k => exact if_neg known
    | idle rest => cases rest
    | getNotify rest => cases rest
    | cmdAsked rest => cases rest
  · rfl

theorem notifySelect {link : Link} (h : Inv n s) (server : s.server = .select) {b : Bool}
    (flagged : Flagged (n + 1) link) (raised : link.notified = (s.link.notified || b))
    (down : b = true → s.link.notified = false) : Inv n (notifyIf b { s with link := link }) := by
  obtain ⟨joint, -, flag⟩ := h
  rw [server] at joint
  cases b with
  | false =>
    rw [Bool.or_false] at raised
    refine ⟨?_, flagged, raised.trans flag⟩
    simp only [notifyIf, Bool.false_eq_true, if_false, raised, server]
    exact joint
  | true =>
    rw [down rfl] at joint
    rw [Bool.or_true] at raised
    refine ⟨?_, flagged, raised⟩
    simp only [notifyIf, if_true, raised, server]
    exact jointNotify joint

theorem frameKeeps (h : Inv n s) {buf : Int} {result : BitVec 32}
    (taken : step n s (.frame buf result) = some t) : Inv n t := by
  simp only [step] at taken
  split at taken
  case h_2 => cases taken
  rename_i server
  cases taken
  obtain ⟨flagged, raised, down⟩ := offerFlagged h.flagged buf result
  exact notifySelect h server flagged raised down

theorem linkStatusKeeps (h : Inv n s) (covered : Covered s .linkStatus)
    (taken : step n s .linkStatus = some t) : Inv n t := by
  simp only [step] at taken
  split at taken
  case h_2 => cases taken
  rename_i server
  cases taken
  obtain ⟨flagged, same⟩ := statusChangeFlagged h.flagged
  have quiet : (statusChange s.link).notify = false := by
    unfold statusChange
    split
    · rename_i wants
      rcases covered with none | on
      · exact absurd none wants
      · simp [on]
    · rfl
  exact notifySelect h server flagged (by rw [same, quiet, Bool.or_false]) (by simp [quiet])

theorem notifyFinish {link : Link} {c : Cmd} {renotify : Bool} (h : Inv n s)
    (server : s.server = .finish c renotify) (flagged : Flagged (n + 1) link) {unanswered : Bool}
    (quiet : link.notified = false → unanswered = false) :
    Inv n (notifyIf link.notified { s with link := link, server := .select, unanswered := unanswered }) := by
  have joint := h.joint
  rw [server] at joint
  obtain ⟨joint, none, -⟩ := jointRest joint (@Rest.select link.notified)
  cases on : link.notified with
  | false =>
    rw [on] at joint
    refine ⟨?_, flagged, on.trans (quiet on).symm⟩
    simp only [notifyIf, Bool.false_eq_true, if_false, on, none] at joint ⊢
    exact joint
  | true =>
    rw [on] at joint
    refine ⟨?_, flagged, on⟩
    simp only [notifyIf, if_true, on, none, List.nil_append] at joint ⊢
    exact joint

theorem finishKeeps (h : Inv n s) (taken : step n s .finish = some t) : Inv n t := by
  have joint := h.joint
  simp only [step] at taken
  split at taken
  · rename_i server
    rw [server] at joint
    obtain ⟨-, -, (⟨_, -, on⟩ | ⟨_, kind, -⟩)⟩ := jointRest joint (@Rest.select false)
    · obtain ⟨flagged, again, -⟩ := requestFlagged h.flagged on
      cases taken
      rw [← again]
      exact notifyFinish h server flagged (fun _ => rfl)
    · cases kind
  · rename_i server
    rw [server] at joint
    obtain ⟨-, -, (⟨_, kind, -⟩ | ⟨_, -, same⟩)⟩ := jointRest joint (@Rest.select false)
    · cases kind
    · cases taken
      rw [same]
      exact notifyFinish h server h.flagged (fun off => h.flag.symm.trans off)
  · cases taken

theorem stepKeeps (h : Inv n s) {e : Event} (covered : Covered s e) (taken : step n s e = some t) :
    Inv n t := by
  cases e with
  | call c => exact callKeeps h taken
  | consume => exact consumeKeeps h taken
  | serve => exact serveKeeps h taken
  | acknowledge => exact acknowledgeKeeps h taken
  | exchange => exact exchangeKeeps h taken
  | pass => rw [passNever h] at taken; cases taken
  | finish => exact finishKeeps h taken
  | frame buf result => exact frameKeeps h taken
  | linkStatus => exact linkStatusKeeps h covered taken

theorem invSound (h : Inv n s) : Sound s := by
  obtain ⟨joint, -, flag⟩ := h
  refine ⟨?_, flag, fun t ts here waits => ?_, jointClean joint⟩
  · rcases jointSingle joint with none | ⟨t, one, -⟩
    · simp [none]
    · rw [one]
      exact List.countP_le_length
  · rcases jointSingle joint with none | ⟨t', one, proper⟩
    · rw [none] at here; cases here
    · rw [one] at here; cases here
      exact proper waits

theorem uncoveredBreaks {e : Event} (taken : step n s e = some t) (missed : ¬ Covered s e) :
    ¬ Sound t := by
  intro sound
  have flag := sound.flag
  cases e with
  | linkStatus =>
    obtain ⟨wants, off⟩ := not_or.mp missed
    have down : s.link.notified = false := Bool.eq_false_iff.mpr off
    simp only [step] at taken
    split at taken
    case h_2 => cases taken
    cases taken
    simp [statusChange, wants, down, notifyIf] at flag
  | _ => exact missed trivial

end steps

theorem invInitial (n : Nat) : Inv n (initial n) := by
  refine ⟨.idle .select 0, ⟨⟨Nat.succ_pos n, Nat.succ_pos n⟩, ?_⟩, rfl⟩
  simp [initial, Link.initial]

/-- The protocol holds in every state of a run if and only if the flag covers every change of
the link in it. -/
theorem notificationSoundIff (n : Nat) (es : List Event) :
    Always (step n) Sound (initial n) es ↔ Along (step n) Covered (initial n) es :=
  alwaysExact (I := Inv n) (fun _ _ _ inv covered taken => stepKeeps inv covered taken)
    (fun _ => invSound) (fun _ _ _ _ taken missed => uncoveredBreaks taken missed)
    (invInitial n) es

def setUp (c : Call) : List Event := [.call c, .serve, .consume, .acknowledge, .consume, .exchange, .finish]

/- A client that takes frames and wants to know the link: the link changes, a frame comes. -/
def statusThenFrame : List Event :=
  setUp (.macSetCustomFilter 1#32) ++ setUp .macRequestStatusPackets ++ [.linkStatus, .frame 7 1#32]

theorem statusChangeNotifiesTwice : ¬ ∀ n es, Always (step n) Sound (initial n) es := by
  intro always
  have ends : (run (step 9) (initial 9) statusThenFrame).any
      (fun t => decide (t.s2c = [.notify, .notify])) = true := by decide
  cases reached : run (step 9) (initial 9) statusThenFrame with
  | none => rw [reached] at ends; cases ends
  | some t =>
    rw [reached] at ends
    have two := of_decide_eq_true ends
    have sound := alwaysReached (always 9 statusThenFrame) reached
    have single := sound.single
    rw [two] at single
    exact absurd single (by decide)

end ScEthernet.Full.RxNotify
