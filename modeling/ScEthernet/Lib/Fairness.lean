import ScEthernet.Lib.Runs
import Mathlib.Algebra.BigOperators.Group.Finset.Basic
import Mathlib.Data.Nat.Find
import Mathlib.Order.WellFounded

/-! Infinite runs of a partial step function that are fair to some of its events: what is enabled
again and again is taken again and again. -/
namespace ScEthernet.Lib.Fairness
open Lib.Runs

section
variable {σ ε : Type} (step : σ → ε → Option σ)

def Enabled (s : σ) (e : ε) : Prop := (step s e).isSome = true

structure Execution (state : Nat → σ) (event : Nat → ε) : Prop where
  next : ∀ n, step (state n) (event n) = some (state (n + 1))

def Fair (work : ε → Prop) (state : Nat → σ) (event : Nat → ε) : Prop :=
  ∀ e, work e → (∀ n, ∃ m, n ≤ m ∧ Enabled step (state m) e) → ∀ n, ∃ m, n ≤ m ∧ event m = e

def Comes (state : Nat → σ) (n : Nat) (P : σ → Prop) : Prop := ∃ m, n ≤ m ∧ P (state m)

def Often (P : Nat → Prop) : Prop := ∀ n, ∃ m, n ≤ m ∧ P m

/- A task that could do a step again and again does one again and again. -/
def TakesTurns (work : ε → Prop) (state : Nat → σ) (event : Nat → ε) : Prop :=
  (Often fun m => ∃ e, work e ∧ Enabled step (state m) e) → Often fun m => work (event m)

variable {step} {state : Nat → σ} {event : Nat → ε}

theorem executionInvariant {I : σ → Prop} (keep : ∀ s e t, I s → step s e = some t → I t)
    (execution : Execution step state event) (init : I (state 0)) (n : Nat) : I (state n) := by
  induction n with
  | zero => exact init
  | succ n ih => exact keep _ _ _ ih (execution.next n)

theorem executionStable {Q : σ → Prop} {I : σ → Prop} (keep : ∀ s e t, I s → Q s → step s e = some t → Q t)
    (execution : Execution step state event) (inv : ∀ n, I (state n)) {m n : Nat} (later : m ≤ n) (now : Q (state m)) :
    Q (state n) := by
  induction later with
  | refl => exact now
  | @step n _ ih => exact keep _ _ _ (inv n) ih (execution.next n)

theorem comesLater {P : σ → Prop} {n m : Nat} (later : n ≤ m) (comes : Comes state m P) : Comes state n P := by
  obtain ⟨l, after, holds⟩ := comes
  exact ⟨l, Nat.le_trans later after, holds⟩

theorem comesOn {P Q : σ → Prop} {n : Nat} (comes : Comes state n P) (on : ∀ m, n ≤ m → P (state m) → Comes state m Q) :
    Comes state n Q := by
  obtain ⟨m, later, holds⟩ := comes
  exact comesLater later (on m later holds)

/- At the next turn of a task, what only its own steps change is as it was. -/
theorem nextTurn {α : Type} {work : ε → Prop} {f : σ → α} (execution : Execution step state event)
    (often : Often fun m => work (event m)) (alone : ∀ s e t, step s e = some t → ¬ work e → f t = f s) (n : Nat) :
    ∃ m, n ≤ m ∧ work (event m) ∧ f (state m) = f (state n) := by
  classical
  have some : ∃ d, work (event (n + d)) := by
    obtain ⟨m, later, turn⟩ := often n
    obtain ⟨d, rfl⟩ := Nat.exists_eq_add_of_le later
    exact ⟨d, turn⟩
  have same : ∀ d, d ≤ Nat.find some → f (state (n + d)) = f (state n) := by
    intro d
    induction d with
    | zero => exact fun _ => rfl
    | succ d ih =>
      intro before
      exact (alone _ _ _ (execution.next (n + d)) (Nat.find_min some before)).trans (ih (Nat.le_of_succ_le before))
  exact ⟨n + Nat.find some, Nat.le_add_right n _, Nat.find_spec some, same _ (Nat.le_refl _)⟩

/- What a state waits for: one event brings its rank down, and another one enables that event. -/
structure Progress {ρ : Type} [LT ρ] (step : σ → ε → Option σ) (I P Q : σ → Prop) (rank : σ → ρ) (helpful aux : σ → ε) :
    Prop where
  keeps : ∀ s e t, I s → P s → step s e = some t →
    Q t ∨ P t ∧ (rank t < rank s ∨ rank t = rank s ∧ helpful t = helpful s ∧ aux t = aux s)
  enabled : ∀ s, I s → P s → Enabled step s (helpful s) ∨ Enabled step s (aux s)
  helps : ∀ s t, I s → P s → step s (helpful s) = some t → Q t ∨ rank t < rank s
  leads : ∀ s t, I s → P s → step s (aux s) = some t → Q t ∨ rank t < rank s ∨ Enabled step t (helpful s)

/- In a fair run every such state comes to what it waits for. -/
theorem fairLeads {ρ : Type} [LT ρ] [WellFoundedLT ρ] {I P Q : σ → Prop} {rank : σ → ρ} {helpful aux : σ → ε}
    {work : ε → Prop} (progress : Progress step I P Q rank helpful aux) (helpfulWork : ∀ s, work (helpful s))
    (auxWork : ∀ s, work (aux s)) (execution : Execution step state event) (inv : ∀ n, I (state n))
    (fair : Fair step work state event) {n : Nat} (now : P (state n)) : ∃ m, n ≤ m ∧ Q (state m) := by
  induction into : rank (state n) using WellFoundedLT.induction generalizing n with
  | ind r ih =>
    subst into
    by_contra never
    simp only [not_exists, not_and] at never
    -- the rank never gets lower, so the same event is helpful for good
    have still : ∀ m, n ≤ m → P (state m) ∧ rank (state m) = rank (state n) ∧ helpful (state m) = helpful (state n) ∧
        aux (state m) = aux (state n) := by
      intro m later
      induction later with
      | refl => exact ⟨now, rfl, rfl, rfl⟩
      | @step m later ih' =>
        obtain ⟨here, same, sameHelpful, sameAux⟩ := ih'
        rcases progress.keeps _ _ _ (inv m) here (execution.next m) with reached | ⟨next, less | ⟨equal, eqHelpful, eqAux⟩⟩
        · exact absurd reached (never (m + 1) (Nat.le_succ_of_le later))
        · rw [same] at less
          obtain ⟨l, after, reached⟩ := ih _ less next rfl
          exact absurd reached (never l (Nat.le_trans (Nat.le_succ_of_le later) after))
        · exact ⟨next, equal.trans same, eqHelpful.trans sameHelpful, eqAux.trans sameAux⟩
    have lower : ∀ m, n ≤ m → ¬ rank (state (m + 1)) < rank (state n) := by
      intro m later less
      have next := still (m + 1) (by omega)
      obtain ⟨l, after, reached⟩ := ih _ less next.1 rfl
      exact never l (by omega) reached
    have untaken : ∀ m, n ≤ m → event m ≠ helpful (state n) := by
      intro m later same
      obtain ⟨here, equal, sameHelpful, -⟩ := still m later
      have next := execution.next m
      rw [same, ← sameHelpful] at next
      rcases progress.helps _ _ (inv m) here next with reached | less
      · exact never (m + 1) (by omega) reached
      · exact lower m later (equal ▸ less)
    by_cases often : ∀ l, ∃ m, l ≤ m ∧ Enabled step (state m) (helpful (state n))
    · obtain ⟨m, later, same⟩ := fair _ (helpfulWork _) often n
      exact untaken m later same
    · simp only [not_forall, not_exists, not_and] at often
      obtain ⟨l, off⟩ := often
      have other : ∀ m, n ≤ m → l ≤ m → Enabled step (state m) (aux (state n)) := by
        intro m later after
        obtain ⟨here, -, sameHelpful, sameAux⟩ := still m later
        rcases progress.enabled _ (inv m) here with enabled | enabled
        · rw [sameHelpful] at enabled
          exact absurd enabled (off m after)
        · rwa [sameAux] at enabled
      obtain ⟨m, later, same⟩ := fair _ (auxWork (state n))
        (fun k => ⟨max k (max n l), by omega, other _ (by omega) (by omega)⟩) (max n l)
      obtain ⟨here, equal, sameHelpful, sameAux⟩ := still m (by omega)
      have next := execution.next m
      rw [same, ← sameAux] at next
      rcases progress.leads _ _ (inv m) here next with reached | less | enabled
      · exact never (m + 1) (by omega) reached
      · exact lower m (by omega) (equal ▸ less)
      · rw [sameHelpful] at enabled
        exact off (m + 1) (by omega) enabled

/- While `P` lasts every event is paid for, so what the events cost together is bounded by what there is. -/
theorem paidFor {P : σ → Prop} (worth : σ → Nat) (cost : ε → Nat) (execution : Execution step state event)
    (pays : ∀ s e t, P s → step s e = some t → P t → worth t + cost e ≤ worth s) {n : Nat} (k : Nat)
    (lasts : ∀ m, n ≤ m → m ≤ n + k → P (state m)) :
    worth (state (n + k)) + ∑ i ∈ Finset.range k, cost (event (n + i)) ≤ worth (state n) := by
  induction k with
  | zero => exact Nat.le_refl _
  | succ k ih =>
    have before := ih fun m later sooner => lasts m later (by omega)
    have last := pays _ _ _ (lasts (n + k) (by omega) (by omega)) (execution.next (n + k)) (lasts (n + k + 1) (by omega) (by omega))
    rw [Finset.sum_range_succ, ← Nat.add_assoc n k 1]
    omega

theorem executionPrepend {s : σ} {es : List ε} (before : run step s es = some (state 0))
    (execution : Execution step state event) :
    ∃ state' event', state' 0 = s ∧ Execution step state' event' ∧
      (∀ n, state' (es.length + n) = state n ∧ event' (es.length + n) = event n) ∧
      ∀ C : σ → ε → Prop, Along step C s es → ∀ n < es.length, C (state' n) (event' n) := by
  induction es generalizing s with
  | nil =>
    cases Option.some.inj before
    refine ⟨state, event, rfl, execution, fun n => ?_, fun C _ n none => absurd none (Nat.not_lt_zero n)⟩
    rw [List.length_nil, Nat.zero_add]
    exact ⟨rfl, rfl⟩
  | cons e es ih =>
    obtain ⟨t, first, rest⟩ := Option.bind_eq_some_iff.mp before
    obtain ⟨later, events, start, next, same, along⟩ := ih rest
    refine ⟨fun n => n.casesOn s later, fun n => n.casesOn e events, rfl, ⟨fun n => ?_⟩, fun n => ?_, fun C holds n below => ?_⟩
    · cases n with
      | zero =>
        change step s e = some (later 0)
        rw [start]
        exact first
      | succ n => exact next.next n
    · rw [List.length_cons, Nat.add_right_comm]
      exact same n
    · obtain ⟨now, others⟩ := holds t first
      cases n with
      | zero => exact now
      | succ n => exact along C others n (Nat.lt_of_succ_lt_succ below)

theorem executionAppend {work : ε → Prop} {s : σ} {es : List ε} (before : run step s es = some (state 0))
    (execution : Execution step state event) (fair : Fair step work state event) :
    ∃ state' event', state' 0 = s ∧ Execution step state' event' ∧ Fair step work state' event' ∧
      ∀ n, state' (es.length + n) = state n := by
  induction es generalizing s with
  | nil =>
    cases Option.some.inj before
    exact ⟨state, event, rfl, execution, fair, fun n => by rw [List.length_nil, Nat.zero_add]⟩
  | cons e es ih =>
    obtain ⟨t, first, rest⟩ := Option.bind_eq_some_iff.mp before
    obtain ⟨later, events, start, next, fair', same⟩ := ih rest
    refine ⟨fun n => n.casesOn s later, fun n => n.casesOn e events, rfl, ⟨fun n => ?_⟩, fun w works often n => ?_, fun n => ?_⟩
    · cases n with
      | zero =>
        change step s e = some (later 0)
        rw [start]
        exact first
      | succ n => exact next.next n
    · have often' : ∀ n, ∃ m, n ≤ m ∧ Enabled step (later m) w := by
        intro n
        obtain ⟨m, after, on⟩ := often (n + 1)
        obtain ⟨m, rfl⟩ := Nat.exists_eq_add_of_le' (Nat.le_trans (Nat.le_add_left 1 n) after)
        exact ⟨m, by omega, on⟩
      obtain ⟨m, after, taken⟩ := fair' w works often' n
      exact ⟨m + 1, by omega, taken⟩
    · rw [List.length_cons, Nat.add_right_comm]
      exact same n

end

end ScEthernet.Lib.Fairness
