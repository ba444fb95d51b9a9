import Mathlib.Data.List.Basic
import Mathlib.Tactic.Common

/-! The channel between the_server and its client, and safe_mac_rx_lite at its end. An outuint
leaves its word in the channel; the outputs and inputs of XC wait for each other. -/
namespace ScEthernet.Lite.AppChannel

structure Message where
  len : BitVec 32
  words : List (BitVec 32)
  deriving DecidableEq

/- The words that safe_mac_rx_lite reads: the status and the port, or the packet. -/
def wanted (len : BitVec 32) : Nat := if len = -1#32 then 2 else ((len + 3#32) >>> 2).toNat

inductive Client where
  | idle
  | confirming (len : BitVec 32)
  | reading (len : BitVec 32) (got : List (BitVec 32))
  deriving DecidableEq

structure Channel where
  fifo : List (BitVec 32)
  client : Client
  /- History: what the announcements are for, how many were confirmed, and what the calls of
  safe_mac_rx_lite have read. -/
  announced : List Message
  confirmed : Nat
  log : List Message

def empty : Channel := ⟨[], .idle, [], 0, []⟩

def announce (c : Channel) (len : BitVec 32) (m : Message) : Channel :=
  { c with fifo := c.fifo ++ [len], announced := c.announced ++ [m] }

def inuint (c : Channel) : Option Channel :=
  match c.client, c.fifo with
  | .idle, len :: rest => some { c with fifo := rest, client := .confirming len }
  | _, _ => none

/- The loop test of safe_mac_rx_lite, after which it reads on or returns. -/
def readOn (c : Channel) (len : BitVec 32) (got : List (BitVec 32)) : Channel :=
  if got.length < wanted len then { c with client := .reading len got }
  else { c with client := .idle, log := c.log ++ [⟨len, got⟩] }

def confirm (c : Channel) : Option Channel :=
  match c.client with
  | .confirming len => some (readOn { c with confirmed := c.confirmed + 1 } len [])
  | _ => none

def input (c : Channel) (word : BitVec 32) : Option Channel :=
  match c.client with
  | .reading len got => some (readOn c len (got ++ [word]))
  | _ => none

def Faithful (c : Channel) : Prop :=
  c.log <+: c.announced ∧
  match c.client with
  | .idle => True
  | .confirming len => ∃ m, c.announced[c.log.length]? = some m ∧ m.len = len
  | .reading len got => ∃ m, c.announced[c.log.length]? = some m ∧ m.len = len ∧ got <+: m.words

def Serial (c : Channel) : Prop := c.announced.length ≤ c.confirmed + 1

/- The conversation: nothing is announced, `m` is announced, `n` words of `m` are sent. -/
inductive Phase where
  | quiet
  | offered (m : Message)
  | moving (m : Message) (n : Nat)

def Talk (c : Channel) : Phase → Prop
  | .quiet => c.fifo = [] ∧ c.client = .idle ∧ c.confirmed = c.announced.length ∧ c.log = c.announced
  | .offered m => c.announced = c.log ++ [m] ∧ c.confirmed = c.log.length ∧
      (c.fifo = [m.len] ∧ c.client = .idle ∨ c.fifo = [] ∧ c.client = .confirming m.len)
  | .moving m n => c.fifo = [] ∧ c.confirmed = c.announced.length ∧
      (n < m.words.length ∧ c.announced = c.log ++ [m] ∧ c.client = .reading m.len (m.words.take n) ∨
        n = m.words.length ∧ c.announced = c.log ∧ c.client = .idle)

def Fits (m : Message) : Prop := wanted m.len = m.words.length

section
variable {c d : Channel} {m : Message} {n : Nat} {phase : Phase}

theorem talkFaithful (talk : Talk c phase) : Faithful c ∧ Serial c := by
  cases phase with
  | quiet =>
    obtain ⟨-, client, confirmed, log⟩ := talk
    rw [Faithful, Serial, client, log, confirmed]
    exact ⟨⟨List.prefix_refl _, trivial⟩, Nat.le_succ _⟩
  | offered m =>
    obtain ⟨announced, confirmed, ⟨-, client⟩ | ⟨-, client⟩⟩ := talk
    · rw [Faithful, Serial, client, announced, confirmed]
      exact ⟨⟨List.prefix_append _ _, trivial⟩, by simp⟩
    · rw [Faithful, Serial, client, announced, confirmed]
      exact ⟨⟨List.prefix_append _ _, m, by simp, rfl⟩, by simp⟩
  | moving m n =>
    obtain ⟨-, confirmed, ⟨-, announced, client⟩ | ⟨-, announced, client⟩⟩ := talk
    · rw [Faithful, Serial, client, confirmed, announced]
      exact ⟨⟨List.prefix_append _ _, m, by simp, rfl, List.take_prefix _ _⟩, Nat.le_succ _⟩
    · rw [Faithful, Serial, client, confirmed, announced]
      exact ⟨⟨List.prefix_refl _, trivial⟩, Nat.le_succ _⟩

theorem announceTalk (talk : Talk c .quiet) {len : BitVec 32} (same : m.len = len) :
    Talk (announce c len m) (.offered m) := by
  obtain ⟨fifo, client, confirmed, log⟩ := talk
  refine ⟨?_, ?_, .inl ⟨?_, client⟩⟩
  · simp only [announce, log]
  · simp only [announce, log, confirmed]
  · simp only [announce, fifo, List.nil_append, same]

theorem inuintTalk (talk : Talk c phase) (taken : inuint c = some d) :
    ∃ m, phase = .offered m ∧ c.client = .idle ∧ d.client = .confirming m.len ∧ Talk d (.offered m) := by
  have idle : c.client = .idle := by
    unfold inuint at taken
    split at taken
    · rename_i idle _; exact idle
    · cases taken
  cases phase with
  | quiet => simp [inuint, talk.1] at taken
  | moving m n => simp [inuint, talk.1] at taken
  | offered m =>
    obtain ⟨announced, confirmed, ⟨fifo, -⟩ | ⟨fifo, -⟩⟩ := talk
    · simp only [inuint, idle, fifo, Option.some.injEq] at taken
      subst taken
      exact ⟨m, rfl, idle, rfl, announced, confirmed, .inr ⟨rfl, rfl⟩⟩
    · simp [inuint, fifo] at taken

theorem readOnTalk (fits : Fits m) (fifo : c.fifo = []) (announced : c.announced = c.log ++ [m])
    (confirmed : c.confirmed = c.announced.length) (inside : n ≤ m.words.length) :
    Talk (readOn c m.len (m.words.take n)) (.moving m n) := by
  have count : (m.words.take n).length = n := List.length_take_of_le inside
  unfold readOn
  rw [fits, count]
  split
  · rename_i more
    exact ⟨fifo, confirmed, .inl ⟨more, announced, rfl⟩⟩
  · have last : n = m.words.length := by omega
    refine ⟨fifo, confirmed, .inr ⟨last, ?_, rfl⟩⟩
    rw [last, List.take_length]
    exact announced

theorem confirmTalk (talk : Talk c (.offered m)) (fits : Fits m) (taken : confirm c = some d) : Talk d (.moving m 0) := by
  obtain ⟨announced, confirmed, ⟨-, client⟩ | ⟨fifo, client⟩⟩ := talk
  · simp [confirm, client] at taken
  · simp only [confirm, client, Option.some.injEq] at taken
    subst taken
    exact readOnTalk (n := 0) (c := { c with confirmed := c.confirmed + 1 }) fits fifo announced
      (by simp [confirmed, announced]) (Nat.zero_le _)

theorem inputTalk (talk : Talk c (.moving m n)) (fits : Fits m) {word : BitVec 32} (next : m.words[n]? = some word)
    (taken : input c word = some d) : Talk d (.moving m (n + 1)) := by
  obtain ⟨fifo, confirmed, ⟨more, announced, client⟩ | ⟨-, -, client⟩⟩ := talk
  · simp only [input, client, Option.some.injEq] at taken
    subst taken
    rw [show m.words.take n ++ [word] = m.words.take (n + 1) by rw [List.take_add_one, next]; rfl]
    exact readOnTalk fits fifo announced confirmed more
  · simp [input, client] at taken

theorem movingEnds (talk : Talk c (.moving m n)) (last : m.words.length ≤ n) : Talk c .quiet := by
  obtain ⟨fifo, confirmed, ⟨more, -⟩ | ⟨-, announced, client⟩⟩ := talk
  · omega
  · exact ⟨fifo, client, confirmed, announced.symm⟩

theorem readOnGrows (c : Channel) (len : BitVec 32) (got : List (BitVec 32)) :
    (readOn c len got).announced = c.announced ∧ c.log <+: (readOn c len got).log := by
  unfold readOn
  split
  · exact ⟨rfl, List.prefix_refl _⟩
  · exact ⟨rfl, List.prefix_append _ _⟩

theorem inuintGrows (taken : inuint c = some d) : d.announced = c.announced ∧ d.log = c.log := by
  unfold inuint at taken
  split at taken
  · cases taken; exact ⟨rfl, rfl⟩
  · cases taken

theorem confirmGrows (taken : confirm c = some d) : (∃ len, c.client = .confirming len) ∧ d.announced = c.announced ∧
    c.log <+: d.log := by
  unfold confirm at taken
  split at taken
  · rename_i len client
    cases taken
    exact ⟨⟨len, client⟩, readOnGrows _ _ _⟩
  · cases taken

theorem inputGrows {word : BitVec 32} (taken : input c word = some d) : d.announced = c.announced ∧ c.log <+: d.log := by
  unfold input at taken
  split at taken
  · cases taken; exact readOnGrows _ _ _
  · cases taken

end

end ScEthernet.Lite.AppChannel
