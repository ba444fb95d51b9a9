import ScEthernet.Full.WiredFrames

/-! The steps that mii_rx_pins has before it, pool by pool: they go with the phase the pool is in, and so the next one can be
taken unless ethernet_filter still has the last frame. -/
namespace ScEthernet.Full.WiredSteps
open Lib.UnrolledRing Lib.BitOrder Lib.Runs Malloc PoolQueue WiredSystem WiredFrames
open RxPins (Phase stepCases Ringed)
open RxFilter (Pins closing own)

section steps
variable {ι : Type} [DecidableEq ι] {i j : ι} {e : RxPins.Event} {todo : List (ι × RxPins.Event)} {buffers : List ι}

def stepsOf (i : ι) (todo : List (ι × RxPins.Event)) : List RxPins.Event := (todo.filter fun y => decide (y.1 = i)).map Prod.snd

theorem stepsOfAppend (i : ι) (xs ys : List (ι × RxPins.Event)) : stepsOf i (xs ++ ys) = stepsOf i xs ++ stepsOf i ys := by
  rw [stepsOf, List.filter_append, List.map_append]
  rfl

theorem stepsOfOwn : stepsOf i ((i, e) :: todo) = e :: stepsOf i todo := by simp [stepsOf]

theorem stepsOfOther (other : j ≠ i) : stepsOf i ((j, e) :: todo) = stepsOf i todo := by simp [stepsOf, other]

theorem stepsOfPool (i : ι) (es : List RxPins.Event) : stepsOf i (es.map fun e => (i, e)) = es := by
  induction es with
  | nil => rfl
  | cons e es ih => rw [List.map_cons, stepsOfOwn, ih]

theorem stepsOfElsewhere (absent : ∀ y ∈ todo, y.1 ≠ i) : stepsOf i todo = [] := by
  rw [stepsOf, List.map_eq_nil_iff, List.filter_eq_nil_iff]
  exact fun y member => by simpa using absent y member

theorem stepsOfNone (absent : i ∉ buffers) (e : RxPins.Event) : stepsOf i (buffers.map fun j => (j, e)) = [] := by
  refine stepsOfElsewhere fun y member => ?_
  obtain ⟨j, inside, rfl⟩ := List.mem_map.mp member
  rintro rfl
  exact absent inside

theorem stepsOfEach (nodup : buffers.Nodup) (member : i ∈ buffers) (e : RxPins.Event) :
    stepsOf i (buffers.map fun j => (j, e)) = [e] := by
  obtain ⟨front, back, rfl⟩ := List.append_of_mem member
  rw [List.nodup_append] at nodup
  obtain ⟨-, nodup, apart⟩ := nodup
  rw [List.map_append, List.map_cons, stepsOfAppend, stepsOfOwn, stepsOfNone (fun again => apart i again i List.mem_cons_self rfl),
    stepsOfNone (List.nodup_cons.mp nodup).1]
  rfl

theorem stepsOfWords (nodup : buffers.Nodup) (member : i ∈ buffers) (words : List (BitVec 32)) :
    stepsOf i (words.flatMap fun w => buffers.map fun j => (j, .word w)) = words.map .word := by
  induction words with
  | nil => rfl
  | cons w words ih => rw [List.flatMap_cons, stepsOfAppend, stepsOfEach nodup member, ih]; rfl

variable (own : ι) (time : Int) (x : Pins)

theorem frameQuiet (buffers : List ι) : ∀ y ∈ frameSteps buffers own time x, y.2 ≠ .commit := by
  intro y member
  simp only [frameSteps, List.mem_append, List.mem_map, List.mem_flatMap] at member
  rcases member with ((⟨i, -, rfl⟩ | ⟨w, -, i, -, rfl⟩) | ⟨i, -, rfl⟩) | last
  · simp
  · simp
  · simp
  · split at last
    · obtain ⟨e, later, rfl⟩ := List.mem_map.mp last
      simp only [closing, List.mem_append, List.mem_map, List.mem_cons, List.not_mem_nil, or_false] at later
      rcases later with ⟨w, -, rfl⟩ | rfl | rfl | rfl | rfl | rfl | rfl <;> simp
    · cases last

theorem stepsOfOnly (buffers : List ι) (i : ι) (es : List RxPins.Event) :
    stepsOf i (if own ∈ buffers then es.map fun e => (own, e) else []) = if i = own ∧ i ∈ buffers then es else [] := by
  by_cases mine : i = own
  · subst mine
    by_cases member : i ∈ buffers
    · rw [if_pos member, if_pos ⟨rfl, member⟩, stepsOfPool]
    · rw [if_neg member, if_neg fun both => member both.2]
      rfl
  · have away : stepsOf i (if own ∈ buffers then es.map fun e => (own, e) else []) = [] := by
      refine stepsOfElsewhere fun y last => ?_
      split at last
      · obtain ⟨e, -, rfl⟩ := List.mem_map.mp last
        exact Ne.symm mine
      · cases last
    rw [away, if_neg fun both => mine both.1]

theorem stepsOfFrame (nodup : buffers.Nodup) (i : ι) : stepsOf i (frameSteps buffers own time x) = if i ∈ buffers then .sof time ::
    (if i = own then x.words.map .word ++ closing x else (x.words.take 4).map .word ++ [.drop]) else [] := by
  simp only [frameSteps, stepsOfAppend, stepsOfOnly]
  by_cases member : i ∈ buffers
  · rw [stepsOfEach nodup member, stepsOfWords nodup member, if_pos member]
    by_cases mine : i = own
    · have none : stepsOf i ((buffers.filter (· ≠ own)).map fun j => (j, .drop)) = [] := stepsOfNone (by simp [mine]) _
      rw [none, if_pos mine, if_pos ⟨mine, member⟩, List.append_nil, List.append_assoc, ← List.append_assoc (List.map _ _),
        ← List.map_append, List.take_append_drop]
      rfl
    · have once : stepsOf i ((buffers.filter (· ≠ own)).map fun j => (j, .drop)) = [.drop] :=
        stepsOfEach (nodup.filter _) (by simp [member, mine]) _
      rw [once, if_neg mine, if_neg fun both => mine both.1, List.append_nil]
      rfl
  · have early : stepsOf i ((x.words.take 4).flatMap fun w => buffers.map fun i => (i, .word w)) = [] := by
      refine stepsOfElsewhere fun y inside => ?_
      obtain ⟨w, -, there⟩ := List.mem_flatMap.mp inside
      obtain ⟨j, here, rfl⟩ := List.mem_map.mp there
      rintro rfl
      exact member here
    rw [stepsOfNone member, early, stepsOfNone fun inside => member (List.mem_of_mem_filter inside), if_neg member,
      if_neg fun both => member both.2]
    rfl

end steps

def ending (x : Pins) : List RxPins.Event := closing x ++ [.commit, .reserve]

/- What a pool has before it in a phase. A frame that goes to another pool ends with its fourth word here, and behind a packet
without space for its last word the commit is left over. -/
def Fits (phase : Phase) (todo : List RxPins.Event) : Prop :=
  match phase with
  | .idle => todo = [] ∨ todo = [.reserve] ∨ todo = [.commit, .reserve]
  | .reserved _ => todo = [] ∨ ∃ (time : Int) (ws : List (BitVec 32)),
      ws.length ≤ 5 ∧ todo = .sof time :: (ws.map .word ++ [.drop, .reserve]) ∨
      6 ≤ ws.length ∧ ∃ x, todo = .sof time :: (ws.map .word ++ ending x)
  | .first f => ∃ ws : List (BitVec 32), f.words.length + ws.length ≤ 5 ∧ todo = ws.map .word ++ [.drop, .reserve] ∨
      6 ≤ f.words.length + ws.length ∧ ∃ x, todo = ws.map .word ++ ending x
  | .loop _ _ _ => ∃ (ws : List (BitVec 32)) (x : Pins), todo = ws.map .word ++ ending x
  | .port _ _ => ∃ x, todo = (ending x).tail
  | .headers _ _ pending => todo = pending.map (fun _ => .header) ++ [.tail, .commit, .reserve]
  | .commit _ => todo = [.commit, .reserve]

section fits
variable {forwards : Bool} {s t : RxPins.State} {e : RxPins.Event} {todo : List RxPins.Event}

theorem wordOf {word : BitVec 32} {ws : List (BitVec 32)} {back : List RxPins.Event} (differs : ∀ w rest, back ≠ .word w :: rest)
    (same : .word word :: todo = ws.map RxPins.Event.word ++ back) :
    ∃ rest, ws = word :: rest ∧ todo = rest.map .word ++ back := by
  cases ws with
  | nil => exact absurd same.symm (differs _ _)
  | cons w ws =>
    obtain ⟨here, rest⟩ := List.cons.inj same
    cases here
    exact ⟨ws, rfl, rest⟩

theorem fitsNext (fits : Fits s.phase (e :: todo)) (mine : own e = true) (taken : RxPins.step forwards s e = some t) :
    Fits t.phase todo := by
  have dropped : ∀ w rest, [RxPins.Event.drop, .reserve] ≠ .word w :: rest := by simp
  have ended : ∀ x w rest, ending x ≠ .word w :: rest := by simp [ending, closing]
  cases stepCases taken with
  | reserve phase =>
    simp only [Fits, phase, List.cons.injEq, reduceCtorEq, false_and, false_or, or_false, true_and] at fits
    subst fits
    dsimp only
    split <;> exact .inl rfl
  | sof time phase =>
    simp only [Fits, phase, reduceCtorEq, false_or] at fits
    obtain ⟨time, ws, ⟨short, same⟩ | ⟨long, x, same⟩⟩ := fits
    · exact ⟨ws, .inl ⟨by simpa using short, (List.cons.inj same).2⟩⟩
    · exact ⟨ws, .inr ⟨by simpa using long, x, (List.cons.inj same).2⟩⟩
  | early phase more =>
    simp only [Fits, phase] at fits
    obtain ⟨ws, ⟨short, same⟩ | ⟨long, x, same⟩⟩ := fits
    · obtain ⟨rest, rfl, behind⟩ := wordOf dropped same
      refine ⟨rest, .inl ⟨?_, behind⟩⟩
      simp only [List.length_append, List.length_cons, List.length_nil] at short ⊢
      omega
    · obtain ⟨rest, rfl, behind⟩ := wordOf (ended x) same
      refine ⟨rest, .inr ⟨?_, x, behind⟩⟩
      simp only [List.length_append, List.length_cons, List.length_nil] at long ⊢
      omega
  | sixth phase five =>
    simp only [Fits, phase] at fits
    obtain ⟨ws, ⟨short, same⟩ | ⟨long, x, same⟩⟩ := fits
    · obtain ⟨rest, rfl, behind⟩ := wordOf dropped same
      rw [List.length_cons] at short
      omega
    · obtain ⟨rest, rfl, behind⟩ := wordOf (ended x) same
      exact ⟨rest, x, behind⟩
  | word phase =>
    simp only [Fits, phase] at fits
    obtain ⟨ws, x, same⟩ := fits
    obtain ⟨rest, rfl, behind⟩ := wordOf (ended x) same
    exact ⟨rest, x, behind⟩
  | lost word phase =>
    simp only [Fits, phase] at fits ⊢
    obtain ⟨ws, x, same⟩ := fits
    obtain ⟨rest, rfl, behind⟩ := wordOf (ended x) same
    exact ⟨rest, x, behind⟩
  | eof phase =>
    simp only [Fits, phase] at fits
    obtain ⟨ws, x, same⟩ := fits
    cases ws with
    | nil => exact ⟨x, (List.cons.inj same).2⟩
    | cons w ws => cases same
  | port taillen tail phase =>
    simp only [Fits, phase] at fits
    obtain ⟨x, same⟩ := fits
    exact (List.cons.inj same).2
  | header phase =>
    simp only [Fits, phase] at fits
    exact (List.cons.inj fits).2
  | tail phase =>
    simp only [Fits, phase] at fits
    exact (List.cons.inj fits).2
  | full phase =>
    simp only [Fits, phase] at fits
    exact .inr (.inr (List.cons.inj fits).2)
  | refused phase =>
    simp only [Fits, phase] at fits
    exact .inr (.inl (List.cons.inj fits).2)
  | commit phase =>
    simp only [Fits, phase] at fits
    exact .inr (.inl (List.cons.inj fits).2)
  | drop phase =>
    rcases phase with ⟨buf, phase⟩ | ⟨f, phase⟩
    · simp only [Fits, phase, reduceCtorEq, false_or] at fits
      obtain ⟨time, ws, ⟨-, same⟩ | ⟨-, x, same⟩⟩ := fits <;> cases same
    · simp only [Fits, phase] at fits
      obtain ⟨ws, ⟨-, same⟩ | ⟨-, x, same⟩⟩ := fits
      · cases ws with
        | nil => exact .inr (.inl (List.cons.inj same).2)
        | cons w ws => cases same
      · cases ws <;> cases same
  | set | free => cases mine

theorem fitsNil {phase : Phase} (fits : Fits phase []) : phase = .idle ∨ ∃ buf, phase = .reserved buf := by
  cases phase with
  | idle => exact .inl rfl
  | reserved buf => exact .inr ⟨buf, rfl⟩
  | first f =>
    obtain ⟨ws, ⟨-, same⟩ | ⟨-, x, same⟩⟩ := fits <;> cases ws <;> cases same
  | loop f sixth ii =>
    obtain ⟨ws, x, same⟩ := fits
    cases ws <;> cases same
  | port f ii =>
    obtain ⟨x, same⟩ := fits
    cases same
  | headers f tail pending => cases pending <;> cases fits
  | commit f => cases fits

theorem fitsTaken (forwards : Bool) {r : Ring} {vr vw : Nat} (ringed : Ringed s r vr vw) (fits : Fits s.phase (e :: todo)) :
    own e = true ∧ ((RxPins.step forwards s e).isSome = true ∨ e = .commit ∧ s.phase = .idle) := by
  have inv := ringed.phase
  unfold Fits at fits
  unfold RxPins.PhaseInv at inv
  cases phase : s.phase <;> simp only [phase] at fits inv
  case idle =>
    rcases fits with same | same | same
    · cases same
    · cases same
      exact ⟨rfl, .inl (by simp [RxPins.step, phase])⟩
    · cases same
      exact ⟨rfl, .inr ⟨rfl, rfl⟩⟩
  case reserved buf =>
    rcases fits with same | ⟨time, ws, ⟨-, same⟩ | ⟨-, x, same⟩⟩
    · cases same
    · cases same
      exact ⟨rfl, .inl (by simp [RxPins.step, phase])⟩
    · cases same
      exact ⟨rfl, .inl (by simp [RxPins.step, phase])⟩
  case first f =>
    obtain ⟨ws, ⟨-, same⟩ | ⟨long, x, same⟩⟩ := fits
    · cases ws <;> cases same <;> exact ⟨rfl, .inl (by simp [RxPins.step, phase])⟩
    · cases ws with
      | nil =>
        have few := inv.2.2.1
        rw [List.length_nil] at long
        omega
      | cons w ws =>
        cases same
        exact ⟨rfl, .inl (by simp [RxPins.step, phase])⟩
  case loop f sixth ii =>
    obtain ⟨ws, x, same⟩ := fits
    cases ws with
    | nil =>
      cases same
      exact ⟨rfl, .inl (by simp [RxPins.step, phase])⟩
    | cons w ws =>
      cases same
      refine ⟨rfl, .inl ?_⟩
      simp only [RxPins.step, phase]
      split <;> rfl
  case port f ii =>
    obtain ⟨x, same⟩ := fits
    cases same
    exact ⟨rfl, .inl (by simp [RxPins.step, phase])⟩
  case headers f tail pending =>
    cases pending with
    | nil =>
      cases fits
      refine ⟨rfl, .inl ?_⟩
      simp only [RxPins.step, phase]
      split <;> rfl
    | cons field pending =>
      cases fits
      exact ⟨rfl, .inl (by simp [RxPins.step, phase])⟩
  case commit f =>
    cases fits
    refine ⟨rfl, .inl ?_⟩
    simp only [RxPins.step, phase]
    split <;> rfl

end fits

end ScEthernet.Full.WiredSteps
