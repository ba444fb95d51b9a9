import ScEthernet.Full.TxCourse
import ScEthernet.Full.TxPackets
import Mathlib.Data.Fintype.Card
import Mathlib.Logic.Function.Basic

/-! One port: the queues of its pools, mii_tx_pins and ts_queue with what the server has taken from it.
A buffer at stage 2 is in one place on its way to mii_free, and until then it is the head of its pool. -/
namespace ScEthernet.Full.TxPort
open Lib.CircularFifo Malloc PoolQueue TxServer TxCourse

def holds : Pins → Option (Bool × Int)
  | .chosen hp buf | .transmitted hp buf | .cleared hp buf | .timed hp buf => some (hp, buf)
  | _ => none

def transmitted : Pins → Option (Bool × Int)
  | .transmitted hp buf | .cleared hp buf | .timed hp buf => some (hp, buf)
  | _ => none

def staged : Pins → Option (Bool × Int)
  | .staged hp buf => some (hp, buf)
  | _ => none

def timed : Pins → Option (Bool × Int)
  | .timed hp buf => some (hp, buf)
  | _ => none

theorem transmittedHolds {pins : Pins} {x : Bool × Int} (past : transmitted pins = some x) : holds pins = some x := by
  cases pins <;> first | exact past | cases past

theorem timedHolds {pins : Pins} {x : Bool × Int} (last : timed pins = some x) : holds pins = some x := by
  cases pins <;> first | exact last | cases last

/- Where the packet is on its way: `tokens` are the buffers at stage 2, and of them `answered` the one
whose client has the time. -/
def status (pins : Pins) (tokens : List (Bool × Int)) (answered : Option (Bool × Int)) (hp : Bool) (k : Pkt) : Life :=
  if answered = some (hp, k.buf) then .answered (k.header .timestamp)
  else if (hp, k.buf) ∈ tokens ∨ transmitted pins = some (hp, k.buf) then .sent (k.header .timestamp)
  else .queued

structure Packet (calls : List Request) (hp : Bool) (n : Nat) (k : Pkt) (r : Request) : Prop where
  known : calls[n]? = some r
  hp : r.hp = hp
  live : k.freed = false
  data : k.data = r.data
  words : r.data.length = TxPool.wordCount r.length
  length : k.header .length = r.length
  timestampId : k.header .timestampId = if r.timed then (r.link : Int) + 1 else 0
  tcount : k.header .tcount = 0

structure Queues (calls : List Request) (queue : Bool → List Pkt) (owner : Bool → Int → Nat) : Prop where
  packets : ∀ hp, ∀ k ∈ queue hp, ∃ r, Packet calls hp (owner hp k.buf) k r
  bufs : ∀ hp, ((queue hp).map Pkt.buf).Nodup
  owners : ∀ hp, ∀ k ∈ queue hp, ∀ k' ∈ queue hp, owner hp k.buf = owner hp k'.buf → k.buf = k'.buf

structure Port (calls : List Request) (queue : Bool → List Pkt) (owner : Bool → Int → Nat) (pins : Pins)
    (tokens : List (Bool × Int)) (answered : Option (Bool × Int)) (life : Nat → Life) : Prop where
  queues : Queues calls queue owner
  lives : ∀ hp, ∀ k ∈ queue hp, life (owner hp k.buf) = status pins tokens answered hp k
  stages : ∀ hp, ∀ k ∈ queue hp, k.header .stage = if (hp, k.buf) ∈ tokens then 2 else 1
  heads : ∀ hp buf, ((hp, buf) ∈ tokens ∨ holds pins = some (hp, buf)) → ∃ k, (queue hp).head? = some k ∧ k.buf = buf
  apart : ∀ x, holds pins = some x → x ∉ tokens
  ids : ∀ hp, ∀ k ∈ queue hp, ((hp, k.buf) ∈ tokens ∨ timed pins = some (hp, k.buf)) → k.header .timestampId ≠ 0
  once : tokens.Nodup
  served : ∀ x, answered = some x → x ∈ tokens
  placed : ∀ n, life n ≠ .absent → life n ≠ .gone → ∃ hp, ∃ k ∈ queue hp, owner hp k.buf = n

section queues
variable {calls : List Request} {queue : Bool → List Pkt} {owner : Bool → Int → Nat} {h h' hp : Bool} {k k' : Pkt}

theorem ownersApart (ok : Queues calls queue owner) (member : k ∈ queue h) (member' : k' ∈ queue h')
    (same : owner h k.buf = owner h' k'.buf) : h = h' ∧ k.buf = k'.buf := by
  obtain ⟨r, packet⟩ := ok.packets h k member
  obtain ⟨r', packet'⟩ := ok.packets h' k' member'
  have known := packet.known
  rw [same, packet'.known] at known
  cases known
  have queues : h = h' := packet.hp.symm.trans packet'.hp
  subst queues
  exact ⟨rfl, ok.owners h k member k' member' same⟩

def stored (queue : Bool → List Pkt) (hp : Bool) (buf : Int) (f : Field) (x : Int) : Bool → List Pkt :=
  Function.update queue hp (onBuf buf (setHeader f x) (queue hp))

variable {buf x : Int} {f : Field}

theorem memStored (member : k ∈ stored queue hp buf f x h) :
    ∃ k' ∈ queue h, k = if h = hp ∧ k'.buf = buf then setHeader f x k' else k' := by
  unfold stored at member
  by_cases here : h = hp
  · subst here
    rw [Function.update_self] at member
    obtain ⟨k', inside, rfl⟩ := List.mem_map.mp member
    exact ⟨k', inside, by simp⟩
  · rw [Function.update_of_ne here] at member
    exact ⟨k, member, by rw [if_neg fun both => here both.1]⟩

theorem storedMem (member : k ∈ queue h) :
    (if h = hp ∧ k.buf = buf then setHeader f x k else k) ∈ stored queue hp buf f x h := by
  unfold stored
  by_cases here : h = hp
  · subst here
    rw [Function.update_self]
    exact List.mem_map.mpr ⟨k, member, by simp⟩
  · rw [Function.update_of_ne here, if_neg fun both => here both.1]
    exact member

theorem storedBuf (k : Pkt) (both : Prop) [Decidable both] : (if both then setHeader f x k else k).buf = k.buf := by
  split <;> rfl

theorem storedHeader (k : Pkt) (both : Prop) [Decidable both] {g : Field} (ne : g ≠ f) :
    (if both then setHeader f x k else k).header g = k.header g := by
  split
  · exact if_neg ne
  · rfl

theorem storedHead {b : Int} (head : ∃ k, (queue h).head? = some k ∧ k.buf = b) :
    ∃ k, (stored queue hp buf f x h).head? = some k ∧ k.buf = b := by
  obtain ⟨k, first, at_⟩ := head
  unfold stored
  by_cases here : h = hp
  · subst here
    rw [Function.update_self, onBuf, List.head?_map, first]
    exact ⟨_, rfl, (storedBuf k _).trans at_⟩
  · rw [Function.update_of_ne here]
    exact ⟨k, first, at_⟩

theorem queuesStored (ok : Queues calls queue owner) (length : f ≠ .length) (id : f ≠ .timestampId) (count : f ≠ .tcount) :
    Queues calls (stored queue hp buf f x) owner where
  packets h k member := by
    obtain ⟨k', inside, rfl⟩ := memStored member
    obtain ⟨r, packet⟩ := ok.packets h k' inside
    rw [storedBuf]
    exact ⟨r, { known := packet.known, hp := packet.hp, words := packet.words
                live := by split <;> exact packet.live
                data := by split <;> exact packet.data
                length := (storedHeader k' _ (Ne.symm length)).trans packet.length
                timestampId := (storedHeader k' _ (Ne.symm id)).trans packet.timestampId
                tcount := (storedHeader k' _ (Ne.symm count)).trans packet.tcount }⟩
  bufs h := by
    have same : (stored queue hp buf f x h).map Pkt.buf = (queue h).map Pkt.buf := by
      unfold stored
      by_cases here : h = hp
      · subst here
        rw [Function.update_self, onBuf, List.map_map]
        exact List.map_congr_left fun k _ => storedBuf k _
      · rw [Function.update_of_ne here]
    rw [same]
    exact ok.bufs h
  owners h k member k' member' same := by
    obtain ⟨j, inside, rfl⟩ := memStored member
    obtain ⟨j', inside', rfl⟩ := memStored member'
    rw [storedBuf, storedBuf] at same ⊢
    exact ok.owners h j inside j' inside' same

theorem memTail (ok : Queues calls queue owner) {rest : List Pkt} (head : queue hp = k :: rest)
    (member : k' ∈ Function.update queue hp rest h) : k' ∈ queue h ∧ (h, k'.buf) ≠ (hp, k.buf) := by
  by_cases here : h = hp
  · subst here
    have bufs := ok.bufs h
    rw [Function.update_self] at member
    rw [head] at bufs ⊢
    refine ⟨List.mem_cons_of_mem k member, fun same => ?_⟩
    exact (List.nodup_cons.mp bufs).1 (List.mem_map.mpr ⟨k', member, (Prod.mk.inj same).2⟩)
  · rw [Function.update_of_ne here] at member
    exact ⟨member, fun same => here (Prod.mk.inj same).1⟩

theorem tailMem {rest : List Pkt} (head : queue hp = k :: rest) (member : k' ∈ queue h) (away : (h, k'.buf) ≠ (hp, k.buf)) :
    k' ∈ Function.update queue hp rest h := by
  by_cases here : h = hp
  · subst here
    rw [head] at member
    rw [Function.update_self]
    rcases List.mem_cons.mp member with rfl | tail
    · exact absurd rfl away
    · exact tail
  · rw [Function.update_of_ne here]
    exact member

theorem queuesTail (ok : Queues calls queue owner) {rest : List Pkt} (head : queue hp = k :: rest) :
    Queues calls (Function.update queue hp rest) owner where
  packets h k' member := ok.packets h k' (memTail ok head member).1
  bufs h := by
    have bufs := ok.bufs h
    by_cases here : h = hp
    · subst here
      rw [head] at bufs
      rw [Function.update_self]
      exact (List.nodup_cons.mp bufs).2
    · rw [Function.update_of_ne here]
      exact bufs
  owners h k' member k'' member' := ok.owners h k' (memTail ok head member).1 k'' (memTail ok head member').1

def owned (owner : Bool → Int → Nat) (hp : Bool) (buf : Int) (n : Nat) : Bool → Int → Nat :=
  Function.update owner hp (fun b => if b = buf then n else owner hp b)

theorem ownedNew (owner : Bool → Int → Nat) (hp : Bool) (buf : Int) (n : Nat) : owned owner hp buf n hp buf = n := by
  simp [owned]

theorem ownedOld {n : Nat} (fresh : ∀ k' ∈ queue hp, k'.buf ≠ k.buf) (member : k' ∈ queue h) :
    owned owner hp k.buf n h k'.buf = owner h k'.buf := by
  unfold owned
  by_cases here : h = hp
  · subst here
    rw [Function.update_self, if_neg (fresh k' member)]
  · rw [Function.update_of_ne here]

theorem memAppended : k' ∈ Function.update queue hp (queue hp ++ [k]) h ↔ k' ∈ queue h ∨ h = hp ∧ k' = k := by
  by_cases here : h = hp
  · subst here
    simp
  · simp [here]

theorem queuesAppended (ok : Queues calls queue owner) {n : Nat} {r : Request} (packet : Packet calls hp n k r)
    (fresh : ∀ k' ∈ queue hp, k'.buf ≠ k.buf) (other : ∀ h, ∀ k' ∈ queue h, owner h k'.buf ≠ n) :
    Queues calls (Function.update queue hp (queue hp ++ [k])) (owned owner hp k.buf n) where
  packets h k' member := by
    rcases memAppended.mp member with old | ⟨rfl, rfl⟩
    · rw [ownedOld fresh old]
      exact ok.packets h k' old
    · rw [ownedNew]
      exact ⟨r, packet⟩
  bufs h := by
    by_cases here : h = hp
    · subst here
      rw [Function.update_self, List.map_append]
      refine List.nodup_append.mpr ⟨ok.bufs h, List.nodup_singleton _, ?_⟩
      rintro b old b' last rfl
      obtain ⟨k', inside, rfl⟩ := List.mem_map.mp old
      exact fresh k' inside (List.mem_singleton.mp last)
    · rw [Function.update_of_ne here]
      exact ok.bufs h
  owners h k' member k'' member' same := by
    rcases memAppended.mp member with old | ⟨rfl, rfl⟩ <;> rcases memAppended.mp member' with old' | ⟨here, rfl⟩
    · rw [ownedOld fresh old, ownedOld fresh old'] at same
      exact ok.owners h k' old k'' old' same
    · subst here
      rw [ownedOld fresh old, ownedNew] at same
      exact absurd same (other _ k' old)
    · rw [ownedNew, ownedOld fresh old'] at same
      exact absurd same.symm (other _ k'' old')
    · rfl

end queues

section port
variable {calls : List Request} {queue : Bool → List Pkt} {owner : Bool → Int → Nat} {pins : Pins}
  {tokens : List (Bool × Int)} {answered : Option (Bool × Int)} {life : Nat → Life} {hp h : Bool} {buf : Int} {k : Pkt}

theorem portCalls (ok : Port calls queue owner pins tokens answered life) {more : List Request}
    (kept : ∀ (n : Nat) (r : Request), calls[n]? = some r → more[n]? = some r) :
    Port more queue owner pins tokens answered life := by
  refine { ok with queues := { ok.queues with packets := fun hp k member => ?_ } }
  obtain ⟨r, packet⟩ := ok.queues.packets hp k member
  exact ⟨r, { packet with known := kept _ r packet.known }⟩

theorem headMember {q : List Pkt} (head : ∃ k, q.head? = some k ∧ k.buf = buf) : ∃ k ∈ q, k.buf = buf := by
  obtain ⟨k, first, at_⟩ := head
  exact ⟨k, List.mem_of_mem_head? first, at_⟩

theorem portPins (ok : Port calls queue owner pins tokens answered life) {next : Pins}
    (past : transmitted next = transmitted pins)
    (heads : ∀ hp buf, holds next = some (hp, buf) → ∃ k, (queue hp).head? = some k ∧ k.buf = buf)
    (apart : ∀ x, holds next = some x → x ∉ tokens)
    (ids : ∀ hp, ∀ k ∈ queue hp, timed next = some (hp, k.buf) → k.header .timestampId ≠ 0) :
    Port calls queue owner next tokens answered life :=
  { ok with
    lives := fun hp k member => by rw [ok.lives hp k member, status, status, past]
    heads := fun hp buf some => some.elim (fun token => ok.heads hp buf (.inl token)) (heads hp buf)
    apart := apart
    ids := fun hp k member some => some.elim (fun token => ok.ids hp k member (.inl token)) (ids hp k member) }

theorem portForwarding (ok : Port calls queue owner pins tokens answered life) :
    Port calls (stored queue hp buf .forwarding 0) owner pins tokens answered life where
  queues := queuesStored ok.queues (by decide) (by decide) (by decide)
  lives h k member := by
    obtain ⟨k', inside, rfl⟩ := memStored member
    rw [storedBuf, ok.lives h k' inside, status, status, storedBuf, storedHeader _ _ (by decide)]
  stages h k member := by
    obtain ⟨k', inside, rfl⟩ := memStored member
    rw [storedBuf, storedHeader _ _ (by decide)]
    exact ok.stages h k' inside
  heads h buf some := storedHead (ok.heads h buf some)
  apart := ok.apart
  ids h k member some := by
    obtain ⟨k', inside, rfl⟩ := memStored member
    rw [storedBuf] at some
    rw [storedHeader _ _ (by decide)]
    exact ok.ids h k' inside some
  once := ok.once
  served := ok.served
  placed n present kept := by
    obtain ⟨h, k, member, owned⟩ := ok.placed n present kept
    exact ⟨h, _, storedMem member, by rw [storedBuf]; exact owned⟩

theorem portTransmit (ok : Port calls queue owner (.chosen hp buf) tokens answered life) (time : Int) :
    Port calls (stored queue hp buf .timestamp time) owner (.transmitted hp buf) tokens answered
      (set life (owner hp buf) (.sent time)) := by
  obtain ⟨k₀, member₀, at₀⟩ := headMember (ok.heads hp buf (.inr rfl))
  have fresh := ok.apart (hp, buf) rfl
  constructor
  · exact queuesStored ok.queues (by decide) (by decide) (by decide)
  · intro h k member
    obtain ⟨k', inside, rfl⟩ := memStored member
    rw [storedBuf, status, storedBuf]
    by_cases here : h = hp ∧ k'.buf = buf
    · obtain ⟨rfl, rfl⟩ := here
      have unanswered : answered ≠ some (h, k'.buf) := fun same => fresh (ok.served _ same)
      rw [setSame, if_neg unanswered, if_pos (.inr rfl), if_pos ⟨rfl, rfl⟩]
      rfl
    · have other : owner h k'.buf ≠ owner hp buf := by
        rw [← at₀]
        intro same
        obtain ⟨sameQueue, sameBuf⟩ := ownersApart ok.queues inside member₀ same
        exact here ⟨sameQueue, sameBuf.trans at₀⟩
      have now : transmitted (.transmitted hp buf) ≠ some (h, k'.buf) := by
        intro same
        cases same
        exact here ⟨rfl, rfl⟩
      have before : transmitted (.chosen hp buf) ≠ some (h, k'.buf) := by simp [transmitted]
      rw [setOther other, ok.lives h k' inside, status, if_neg here]
      simp only [now, before, or_false]
  · intro h k member
    obtain ⟨k', inside, rfl⟩ := memStored member
    rw [storedBuf, storedHeader _ _ (by decide)]
    exact ok.stages h k' inside
  · exact fun h b some => storedHead (ok.heads h b some)
  · exact ok.apart
  · intro h k member some
    obtain ⟨k', inside, rfl⟩ := memStored member
    rw [storedBuf] at some
    rw [storedHeader _ _ (by decide)]
    exact ok.ids h k' inside some
  · exact ok.once
  · exact ok.served
  · intro n present kept
    by_cases here : n = owner hp buf
    · exact ⟨hp, _, storedMem member₀, by rw [storedBuf, at₀]; exact here.symm⟩
    · rw [setOther here] at present kept
      obtain ⟨h, k, member, owned⟩ := ok.placed n present kept
      exact ⟨h, _, storedMem member, by rw [storedBuf]; exact owned⟩

theorem portStage (ok : Port calls queue owner (.timed hp buf) tokens answered life) :
    Port calls (stored queue hp buf .stage 2) owner (.staged hp buf) (tokens ++ [(hp, buf)]) answered life := by
  obtain ⟨k₀, member₀, at₀⟩ := headMember (ok.heads hp buf (.inr rfl))
  have fresh := ok.apart (hp, buf) rfl
  have token : ∀ x, x ∈ tokens ++ [(hp, buf)] ↔ x ∈ tokens ∨ timed (.timed hp buf) = some x := by
    intro x
    rw [List.mem_append, List.mem_singleton, timed, Option.some.injEq, eq_comm (a := x)]
  have moved : ∀ x, (x ∈ tokens ∨ timed (.timed hp buf) = some x) ∨ transmitted (.staged hp buf) = some x ↔
      x ∈ tokens ∨ transmitted (.timed hp buf) = some x := by
    intro x
    simp [timed, transmitted]
  constructor
  · exact queuesStored ok.queues (by decide) (by decide) (by decide)
  · intro h k member
    obtain ⟨k', inside, rfl⟩ := memStored member
    rw [storedBuf, ok.lives h k' inside, status, status, storedBuf, storedHeader _ _ (by decide)]
    simp only [token, moved]
  · intro h k member
    obtain ⟨k', inside, rfl⟩ := memStored member
    rw [storedBuf]
    by_cases here : h = hp ∧ k'.buf = buf
    · obtain ⟨rfl, rfl⟩ := here
      rw [if_pos ⟨rfl, rfl⟩, if_pos (List.mem_append_right _ (List.mem_singleton.mpr rfl))]
      rfl
    · have other : (h, k'.buf) ≠ (hp, buf) := fun same => here (Prod.mk.inj same)
      rw [if_neg here, ok.stages h k' inside]
      simp only [List.mem_append, List.mem_singleton, other, or_false]
  · rintro h b (old | held)
    · exact storedHead (ok.heads h b ((token _).mp old))
    · cases held
  · exact fun x held => (by cases held)
  · intro h k member some
    obtain ⟨k', inside, rfl⟩ := memStored member
    rw [storedBuf] at some
    rw [storedHeader _ _ (by decide)]
    rcases some with old | none
    · exact ok.ids h k' inside ((token _).mp old)
    · cases none
  · refine List.nodup_append.mpr ⟨ok.once, List.nodup_singleton _, ?_⟩
    rintro x old y new rfl
    rw [List.mem_singleton.mp new] at old
    exact fresh old
  · exact fun x same => List.mem_append_left _ (ok.served x same)
  · intro n present kept
    obtain ⟨h, k, member, owned⟩ := ok.placed n present kept
    exact ⟨h, _, storedMem member, by rw [storedBuf]; exact owned⟩

theorem portAnswer (ok : Port calls queue owner pins tokens none life) (member : k ∈ queue hp)
    (token : (hp, k.buf) ∈ tokens) : Port calls queue owner pins tokens (some (hp, k.buf))
      (set life (owner hp k.buf) (.answered (k.header .timestamp))) where
  queues := ok.queues
  lives h k' inside := by
    by_cases here : h = hp ∧ k'.buf = k.buf
    · obtain ⟨rfl, same⟩ := here
      have one : k' = k := List.inj_on_of_nodup_map (ok.queues.bufs h) inside member same
      subst one
      rw [setSame, status, if_pos rfl]
    · have other : owner h k'.buf ≠ owner hp k.buf := fun same => here (ownersApart ok.queues inside member same)
      have away : some (hp, k.buf) ≠ some (h, k'.buf) := by
        intro same
        obtain ⟨sameQueue, sameBuf⟩ := Prod.mk.inj (Option.some.inj same)
        exact here ⟨sameQueue.symm, sameBuf.symm⟩
      rw [setOther other, ok.lives h k' inside, status, status, if_neg away, if_neg (by simp)]
  stages := ok.stages
  heads := ok.heads
  apart := ok.apart
  ids := ok.ids
  once := ok.once
  served x same := by
    cases same
    exact token
  placed n present kept := by
    by_cases here : n = owner hp k.buf
    · exact ⟨hp, k, member, here.symm⟩
    · rw [setOther here] at present kept
      exact ok.placed n present kept

theorem portFree (ok : Port calls queue owner pins tokens answered life) {rest : List Pkt} (head : queue hp = k :: rest)
    {pins' : Pins} {tokens' : List (Bool × Int)} {answered' : Option (Bool × Int)}
    (left : ∀ x, x ∈ tokens' ↔ x ∈ tokens ∧ x ≠ (hp, k.buf)) (once : tokens'.Nodup)
    (held : ∀ x, holds pins' = some x → holds pins = some x ∧ x ≠ (hp, k.buf))
    (past : ∀ x, x ≠ (hp, k.buf) → (transmitted pins' = some x ↔ transmitted pins = some x))
    (ids : ∀ x, timed pins' = some x → timed pins = some x)
    (served : ∀ x, x ≠ (hp, k.buf) → (answered' = some x ↔ answered = some x))
    (gone : answered' ≠ some (hp, k.buf)) :
    Port calls (Function.update queue hp rest) owner pins' tokens' answered' (set life (owner hp k.buf) .gone) := by
  have member : k ∈ queue hp := by rw [head]; exact List.mem_cons_self
  have heads : ∀ h b, (h, b) ≠ (hp, k.buf) → (∃ k, (queue h).head? = some k ∧ k.buf = b) →
      ∃ k, (Function.update queue hp rest h).head? = some k ∧ k.buf = b := by
    rintro h b away ⟨k', first, rfl⟩
    have other : h ≠ hp := by
      rintro rfl
      rw [head] at first
      cases first
      exact away rfl
    rw [Function.update_of_ne other]
    exact ⟨k', first, rfl⟩
  constructor
  · exact queuesTail ok.queues head
  · intro h k' inside
    obtain ⟨old, away⟩ := memTail ok.queues head inside
    have other : owner h k'.buf ≠ owner hp k.buf := by
      intro same
      obtain ⟨sameQueue, sameBuf⟩ := ownersApart ok.queues old member same
      exact away (Prod.ext sameQueue sameBuf)
    rw [setOther other, ok.lives h k' old, status, status]
    simp only [served _ away, left, past _ away, away, and_true, ne_eq, not_false_eq_true]
  · intro h k' inside
    obtain ⟨old, away⟩ := memTail ok.queues head inside
    rw [ok.stages h k' old]
    simp only [left, away, and_true, ne_eq, not_false_eq_true]
  · rintro h b (token | taken)
    · exact heads h b ((left _).mp token).2 (ok.heads h b (.inl ((left _).mp token).1))
    · exact heads h b (held _ taken).2 (ok.heads h b (.inr (held _ taken).1))
  · exact fun x taken token => ok.apart x (held x taken).1 ((left x).mp token).1
  · intro h k' inside some
    exact ok.ids h k' (memTail ok.queues head inside).1 (some.imp (fun token => ((left _).mp token).1) (ids _))
  · exact once
  · intro x same
    have away : x ≠ (hp, k.buf) := by
      rintro rfl
      exact gone same
    exact (left x).mpr ⟨ok.served x ((served x away).mp same), away⟩
  · intro n present kept
    have other : n ≠ owner hp k.buf := by
      rintro rfl
      rw [setSame] at kept
      exact kept rfl
    rw [setOther other] at present kept
    obtain ⟨h, k', old, mine⟩ := ok.placed n present kept
    refine ⟨h, k', tailMem head old fun same => other ?_, mine⟩
    obtain ⟨rfl, sameBuf⟩ := Prod.mk.inj same
    rw [← mine, sameBuf]

theorem statusPresent (hp : Bool) (k : Pkt) : status pins tokens answered hp k ≠ .absent := by
  unfold status
  split
  · simp
  · split <;> simp

theorem portEnter (ok : Port calls queue owner pins tokens answered life) {n : Nat} {r : Request} (packet : Packet calls hp n k r)
    (fresh : ∀ k' ∈ queue hp, k'.buf ≠ k.buf) (new : life n = .absent) (stage : k.header .stage = 1) :
    Port calls (Function.update queue hp (queue hp ++ [k])) (owned owner hp k.buf n) pins tokens answered (set life n .queued) := by
  have other : ∀ h, ∀ k' ∈ queue h, owner h k'.buf ≠ n := by
    rintro h k' old rfl
    rw [ok.lives h k' old] at new
    exact statusPresent h k' new
  have free : ∀ x, (x ∈ tokens ∨ holds pins = some x) → x ≠ (hp, k.buf) := by
    rintro x some rfl
    obtain ⟨k', old, same⟩ := headMember (ok.heads hp k.buf some)
    exact fresh k' old same
  constructor
  · exact queuesAppended ok.queues packet fresh other
  · intro h k' member
    rcases memAppended.mp member with old | ⟨rfl, rfl⟩
    · rw [ownedOld fresh old, setOther (other h k' old)]
      exact ok.lives h k' old
    · have unanswered : answered ≠ some (h, k'.buf) := fun same => free _ (.inl (ok.served _ same)) rfl
      have untaken : ¬ ((h, k'.buf) ∈ tokens ∨ transmitted pins = some (h, k'.buf)) :=
        fun some => free _ (some.imp_right transmittedHolds) rfl
      rw [ownedNew, setSame, status, if_neg unanswered, if_neg untaken]
  · intro h k' member
    rcases memAppended.mp member with old | ⟨rfl, rfl⟩
    · exact ok.stages h k' old
    · rw [stage, if_neg fun token => free _ (.inl token) rfl]
  · intro h b some
    obtain ⟨k', first, at_⟩ := ok.heads h b some
    by_cases here : h = hp
    · subst here
      rw [Function.update_self, List.head?_append, first]
      exact ⟨k', rfl, at_⟩
    · rw [Function.update_of_ne here]
      exact ⟨k', first, at_⟩
  · exact ok.apart
  · intro h k' member some
    rcases memAppended.mp member with old | ⟨rfl, rfl⟩
    · exact ok.ids h k' old some
    · exact absurd rfl (free _ (some.imp_right timedHolds))
  · exact ok.once
  · exact ok.served
  · intro m present kept
    by_cases here : m = n
    · exact ⟨hp, k, memAppended.mpr (.inr ⟨rfl, rfl⟩), (ownedNew ..).trans here.symm⟩
    · rw [setOther here] at present kept
      obtain ⟨h, k', old, mine⟩ := ok.placed m present kept
      exact ⟨h, k', memAppended.mpr (.inl old), (ownedOld fresh old).trans mine⟩

theorem portTokens (ok : Port calls queue owner pins tokens answered life) : tokens.length ≤ 2 := by
  have queues : (tokens.map Prod.fst).Nodup := by
    refine List.Nodup.map_on (fun x inside y inside' same => ?_) ok.once
    obtain ⟨k, first, at_⟩ := ok.heads x.1 x.2 (.inl inside)
    obtain ⟨k', first', at'⟩ := ok.heads y.1 y.2 (.inl inside')
    rw [same, first'] at first
    cases first
    exact Prod.ext same (at_.symm.trans at')
  have := queues.length_le_card
  rwa [List.length_map, Fintype.card_bool] at this

end port

end ScEthernet.Full.TxPort
