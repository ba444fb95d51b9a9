import ScEthernet.Full.RxFilter

/-! The CRC check on any frame that goes to the filter, whatever space there was for it: words may have been lost, and
the length that mii_rx_pins stores tells whether some were. -/
namespace ScEthernet.Full.RxCheck
open Lib.WordMemory Lib.UnrolledRing Lib.ShiftCrc Lib.Runs Wire Malloc PoolQueue RxPins RxComplete RxFilter

/- Of the receiver's own events `todo` are left. An idle receiver with some left has no way on. -/
def Follows (x : Pins) (time : Int) (s : RxComplete.State) (todo : List Event) : Prop :=
  match s.rx.phase with
  | .idle => ∀ rest, todo = .reserve :: rest → todo = frameEvents time x
  | .reserved _ => todo = .sof time :: (x.words.map .word ++ closing x)
  | .first _ => ∃ ws, todo = ws.map .word ++ closing x ∧ s.received ++ ws = x.words
  | .loop _ _ _ => ∃ ws, todo = ws.map .word ++ closing x ∧ s.received ++ ws = x.words
  | .port _ _ => todo = (closing x).tail ∧ s.received = x.words
  | .headers _ tail pending => todo = pending.map (fun _ => .header) ++ [.tail] ∧
      s.received = x.words ∧ s.leftover = x.taillen.val >>> 3 ∧ tail = (tailWord x).toInt
  | .commit f => todo = [] ∧
      s.received = x.words ∧ s.leftover = x.taillen.val >>> 3 ∧ s.rx.pool.mem f.dptr = (tailWord x).toInt

section
variable {forwards : Bool} {x : Pins} {time : Int} {r : Ring} {vr vw : Nat} {s t : RxComplete.State} {e : Event} {todo : List Event}

theorem wordLeft {word : BitVec 32} {received : List (BitVec 32)}
    (left : ∃ ws, .word word :: todo = ws.map Event.word ++ closing x ∧ received ++ ws = x.words) :
    ∃ ws, todo = ws.map Event.word ++ closing x ∧ (received ++ [word]) ++ ws = x.words := by
  obtain ⟨ws, here, all⟩ := left
  cases ws with
  | nil => cases here
  | cons w ws =>
    obtain ⟨same, rest⟩ := List.cons.inj here
    cases same
    exact ⟨ws, rest, by rw [← all, List.append_assoc]; rfl⟩

theorem ownFollowed (h : Follows x time s (e :: todo)) (mine : own e = true)
    (taken : RxComplete.step forwards s e = some t) : Follows x time t todo := by
  obtain ⟨u, moved, rfl⟩ := Option.map_eq_some_iff.mp taken
  unfold Follows at h
  cases stepCases moved with
  | reserve phase =>
    simp only [phase] at h
    obtain ⟨-, rfl⟩ := List.cons.inj (h todo rfl)
    simp only [Follows, observe]
    by_cases none : (miiReserve s.rx.pool 0).2.1 = 0
    · rw [if_pos none]
      intro rest wrong
      cases wrong
    · rw [if_neg none]
      trivial
  | sof _ phase =>
    simp only [phase] at h
    obtain ⟨same, rfl⟩ := List.cons.inj h
    exact ⟨x.words, rfl, rfl⟩
  | early phase | sixth phase | word phase =>
    simp only [phase] at h
    exact wordLeft h
  | lost _ phase =>
    simp only [phase] at h
    simp only [Follows, observe, phase]
    exact wordLeft h
  | eof phase =>
    simp only [phase] at h
    obtain ⟨ws, left, all⟩ := h
    cases ws with
    | cons w ws => cases left
    | nil =>
      rw [List.append_nil] at all
      exact ⟨(List.cons.inj left).2, all⟩
  | port taillen tail phase =>
    simp only [phase] at h
    obtain ⟨same, rfl⟩ := List.cons.inj h.1
    cases same
    exact ⟨rfl, h.2, rfl, rfl⟩
  | header phase =>
    simp only [phase] at h
    exact ⟨(List.cons.inj h.1).2, h.2⟩
  | @tail f tail phase free =>
    simp only [phase] at h
    obtain ⟨left, all, leftover, value⟩ := h
    refine ⟨(List.cons.inj left).2, all, leftover, ?_⟩
    simp only [observe, RxPins.stored, stores, phase, if_pos free, storeAllCons, storeAllNil, storeSame, value]
  | full phase =>
    simp only [phase] at h
    obtain ⟨-, rfl⟩ := List.cons.inj h.1
    intro rest wrong
    cases wrong
  | refused phase | commit phase =>
    simp only [phase] at h
    cases h.1
  | drop phase =>
    rcases phase with ⟨buf, phase⟩ | ⟨f, phase⟩ <;> simp only [phase] at h
    · cases h
    · obtain ⟨ws, left, -⟩ := h
      cases ws <;> cases left
  | set | free => cases mine

theorem otherFollowed (ringed : Ringed s.rx r vr vw) (h : Follows x time s todo) (other : own e = false)
    (taken : RxComplete.step forwards s e = some t) : Follows x time t todo := by
  obtain ⟨u, moved, rfl⟩ := Option.map_eq_some_iff.mp taken
  have which := otherCalls other
  obtain ⟨phase, words⟩ := othersKeep ringed which moved
  have inv := ringed.phase
  rw [observeOther s u other]
  unfold Follows at h ⊢
  unfold PhaseInv at inv
  simp only [phase]
  cases now : s.rx.phase <;> simp only [now] at h inv ⊢
  case commit f =>
    obtain ⟨left, all, leftover, value⟩ := h
    refine ⟨left, all, leftover, ?_⟩
    rw [← value, inv.1.dptr]
    exact words _ (by omega) inv.2
  all_goals exact h

theorem runFollowed {es : List Event} (inv : (∃ r vr vw, Ringed s.rx r vr vw) ∧ PhaseKept s) (h : Follows x time s todo)
    (owned : es.filter own = todo) (reached : run (RxComplete.step forwards) s es = some t) :
    ((∃ r vr vw, Ringed t.rx r vr vw) ∧ PhaseKept t) ∧ Follows x time t [] := by
  induction es generalizing s todo with
  | nil =>
    cases owned
    cases reached
    exact ⟨inv, h⟩
  | cons e es ih =>
    rw [run] at reached
    obtain ⟨u, taken, rest⟩ := Option.bind_eq_some_iff.mp reached
    have next := invariantKept inv taken
    cases mine : own e with
    | false =>
      rw [List.filter_cons_of_neg (by simp [mine])] at owned
      obtain ⟨⟨r, vr, vw, ringed⟩, -⟩ := inv
      exact ih next (otherFollowed ringed h mine taken) owned rest
    | true =>
      rw [List.filter_cons_of_pos mine] at owned
      rw [← owned] at h
      exact ih next (ownFollowed h mine taken) rfl rest

/- With the length of the whole frame in its header every word of the frame went into the CRC. -/
theorem checkedWhole {buf : Int} (inv : (∃ r vr vw, Ringed s.rx r vr vw) ∧ PhaseKept s) (h : Follows x time s [])
    (commit : RxComplete.step forwards s .commit = some t) (sent : t.rx.sent = s.rx.sent ++ [buf])
    (whole : miiPacketGetLength t.rx.pool buf + 4 = 4 * (x.words.length : Int) + (x.taillen.val >>> 3 : Nat)) :
    filterCRC t.rx.pool buf = shiftAll poly seed (wholeBits x) := by
  obtain ⟨⟨r, vr, vw, ringed⟩, kept⟩ := inv
  have hands : HandsOver s t := by
    intro same
    rw [sent] at same
    simp at same
  obtain ⟨f, given⟩ := handedFrame ringed kept commit hands
  obtain rfl : f.buf = buf := by
    have both := sent.symm.trans given.sent
    simpa using both.symm
  simp only [Follows, given.phase] at h
  obtain ⟨-, all, leftover, value⟩ := h
  have length := given.length
  have found : s.missed = false := by
    by_contra lost
    have short := given.kept.short (by simpa using lost)
    rw [all] at short
    omega
  obtain ⟨words, covered⟩ := given.kept.all found
  have count : f.words.length = x.words.length := by rw [words, List.length_map, all]
  have complete : Complete t.rx.pool f.buf x.words (x.taillen.val >>> 3) := by
    refine ⟨?_, by omega, by rw [given.crc, covered, all]⟩
    rw [← count, ← all, ← words]
    exact given.data
  rw [given.pool] at complete ⊢
  exact committedCRC forwards ringed given.fill given.spare count value complete

end

end ScEthernet.Full.RxCheck
