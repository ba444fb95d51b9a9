import ScEthernet.Full.TxPool
import Mathlib.Data.List.Nodup

/-! What the tasks around a transmit pool see of its packets, and what each of their calls does to
the queue. -/
namespace ScEthernet.Full.TxPackets
open Lib.UnrolledRing Malloc PoolQueue TxPool

theorem chainBufs {r : Ring} {info : Int} {mem : Int → Int} {v u : Nat} {q : List Pkt} (chain : Chain r info mem v q u)
    (window : u < v + r.size) : (q.map Pkt.buf).Nodup := by
  induction chain with
  | nil => exact List.nodup_nil
  | @cons v w u k q slot rest ih =>
    have size := slot.size
    have later := chainLe rest
    refine List.nodup_cons.mpr ⟨fun member => ?_, ih (by omega)⟩
    obtain ⟨k', inside, same⟩ := List.mem_map.mp member
    obtain ⟨x, above, below, buf⟩ := chainBuf rest inside
    refine r.placeNe (a := v) ⟨Nat.le_refl v, by omega⟩ ⟨by omega, by omega⟩ (by omega : v ≠ x) ?_
    have := slot.buf
    omega

section
variable {forwards : Bool} {s t : State} {k : Pkt}

theorem invKeeps (h : Inv s) {e : Event} (spare : Spare s e) (taken : step forwards s e = some t) : Inv t := by
  rcases h with tiny | ⟨r, vr, vw, ringed⟩
  · exact .inl (tinyKeeps tiny taken)
  · obtain ⟨vr', vw', kept⟩ := stepKeeps ringed spare taken
    exact .inr ⟨r, vr', vw', kept⟩

theorem queueBufs (h : Inv s) : (s.queue.map Pkt.buf).Nodup := by
  rcases h with tiny | ⟨r, vr, vw, ringed⟩
  · rw [tiny.queue]
    exact List.nodup_nil
  · exact chainBufs ringed.rep.chain (Nat.lt_of_lt_of_le ringed.rep.span (by have := repLe ringed.rep; omega))

theorem nextBuf (h : Inv s) : miiGetNextBuf s.pool = (s.queue.head?.map Pkt.buf).getD 0 := by
  unfold miiGetNextBuf miiGetMyNextBuf
  rcases h with tiny | ⟨r, vr, vw, ringed⟩
  · rw [tiny.queue, tiny.equal, if_pos rfl]
    rfl
  · cases queue : s.queue with
    | nil =>
      have empty := (repEmptyIff ringed.rep).mpr queue
      rw [if_pos empty.symm]
      rfl
    | cons k rest =>
      have some : s.pool.rdptr ≠ s.pool.wrptr := by
        intro same
        rw [(repEmptyIff ringed.rep).mp same.symm] at queue
        cases queue
      have chain := ringed.rep.chain
      rw [queue] at chain
      cases chain with
      | cons slot rest =>
        rw [if_neg some, ringed.rep.rdptr]
        exact slot.buf.symm

theorem headerOf (h : Inv s) (member : k ∈ s.queue) (f : Field) : getField f s.pool k.buf = k.header f :=
  ((invSound h).intact k member).1 f

theorem dataOf (h : Inv s) (member : k ∈ s.queue) :
    readWords s.pool k.data.length (miiPacketGetDataPtr k.buf) = k.data := ((invSound h).intact k member).2

theorem setQueue {buf x : Int} {f : Field} (taken : step forwards s (.set buf f x) = some t) :
    t.queue = onBuf buf (setHeader f x) s.queue ∧ t.phase = s.phase := by
  simp only [step] at taken
  split at taken
  · cases taken
    exact ⟨rfl, rfl⟩
  · cases taken

theorem freeQueue {buf : Int} (taken : step forwards s (.free buf) = some t) :
    t.queue = free buf s.queue ∧ t.phase = s.phase := by
  simp only [step] at taken
  split at taken
  · obtain ⟨p, -, rfl⟩ := Option.map_eq_some_iff.mp taken
    exact ⟨rfl, rfl⟩
  · cases taken

theorem commitQueue (h : Inv t) {id : Int} (taken : step forwards s (.commit id) = some t) :
    ∃ buf dptr n frame, s.phase = .storing buf dptr n frame ∧ frame.length = wordCount n ∧
      t.queue = s.queue ++ [⟨buf, sentHeader forwards s.pool buf n id, frame, false⟩] ∧ t.phase = .idle := by
  cases phase : s.phase with
  | storing buf dptr n frame =>
    simp only [step, phase] at taken
    split at taken
    · rename_i full
      cases taken
      have accepted := (invSound h).accepted _ (List.mem_append_right _ (List.mem_singleton.mpr rfl))
      exact ⟨buf, dptr, n, frame, rfl, full, by simp [accepted], rfl⟩
    · cases taken
  | idle => simp [step, phase] at taken
  | reserved buf => simp [step, phase] at taken

def Quiet : Event → Prop
  | .reserve | .length _ | .word _ | .abandon => True
  | _ => False

theorem quietQueue {e : Event} (quiet : Quiet e) (taken : step forwards s e = some t) : t.queue = s.queue := by
  cases e with
  | reserve =>
    cases phase : s.phase <;> simp only [step, phase] at taken <;> cases taken
    rfl
  | length n =>
    cases phase : s.phase <;> simp only [step, phase] at taken <;> try cases taken
    split at taken <;> cases taken
    rfl
  | word datum =>
    cases phase : s.phase <;> simp only [step, phase] at taken <;> try cases taken
    split at taken <;> cases taken
    rfl
  | abandon =>
    cases taken
    rfl
  | commit id => exact quiet.elim
  | set buf f x => exact quiet.elim
  | free buf => exact quiet.elim

theorem quietSpare {e : Event} (quiet : Quiet e) : Spare s e := by
  cases e with
  | commit id => exact quiet.elim
  | _ => trivial

theorem lengthPhase {n : Nat} (taken : step forwards s (.length n) = some t) : ∃ buf dptr, t.phase = .storing buf dptr n [] := by
  cases phase : s.phase with
  | reserved buf =>
    simp only [step, phase] at taken
    split at taken
    · cases taken
      exact ⟨_, _, rfl⟩
    · cases taken
  | idle => simp [step, phase] at taken
  | storing buf dptr n frame => simp [step, phase] at taken

theorem wordPhase {datum buf dptr : Int} {n : Nat} {frame : List Int} (before : s.phase = .storing buf dptr n frame)
    (taken : step forwards s (.word datum) = some t) : ∃ dptr', t.phase = .storing buf dptr' n (frame ++ [datum]) := by
  simp only [step, before] at taken
  split at taken
  · cases taken
    exact ⟨_, rfl⟩
  · cases taken

theorem freeHead {q : List Pkt} (live : ∀ k' ∈ k :: q, k'.freed = false) (bufs : ((k :: q).map Pkt.buf).Nodup) :
    free k.buf (k :: q) = q := by
  have fresh := (List.nodup_cons.mp bufs).1
  have rest : onBuf k.buf markFreed q = q := by
    refine (List.map_congr_left fun k' member => if_neg ?_).trans (List.map_id q)
    exact fun same => fresh (List.mem_map.mpr ⟨k', member, same⟩)
  have settled : reclaim q = q := by
    cases q with
    | nil => rfl
    | cons k' q => simp [reclaim, live k' (by simp)]
  have head : onBuf k.buf markFreed (k :: q) = markFreed k :: q := by
    unfold onBuf at rest ⊢
    rw [List.map_cons, if_pos rfl, rest]
  rw [free, head]
  exact settled

end

end ScEthernet.Full.TxPackets
