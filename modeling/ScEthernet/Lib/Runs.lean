import Mathlib.Tactic.Common

/-! Runs of a partial step function. `Always` is about the states of a run,
`Along` about its steps, each read in the state before the step. A step that is
not enabled ends the run. -/
namespace ScEthernet.Lib.Runs

section
variable {σ ε : Type} (step : σ → ε → Option σ)

def run : σ → List ε → Option σ
  | s, [] => some s
  | s, e :: es => (step s e).bind (fun t => run t es)

def Always (P : σ → Prop) : σ → List ε → Prop
  | s, [] => P s
  | s, e :: es => P s ∧ ∀ t, step s e = some t → Always P t es

def Along (C : σ → ε → Prop) : σ → List ε → Prop
  | _, [] => True
  | s, e :: es => ∀ t, step s e = some t → C s e ∧ Along C t es

instance alongDecidable (C : σ → ε → Prop) [∀ s e, Decidable (C s e)] :
    (s : σ) → (es : List ε) → Decidable (Along step C s es)
  | _, [] => .isTrue trivial
  | s, e :: es =>
    match taken : step s e with
    | none => .isTrue fun t h => by rw [taken] at h; cases h
    | some t =>
      have := alongDecidable C t es
      if now : C s e ∧ Along step C t es then
        .isTrue fun u h => by rw [taken] at h; cases h; exact now
      else .isFalse fun h => now (h t taken)

variable {step}

theorem runAppend (s : σ) (es fs : List ε) :
    run step s (es ++ fs) = (run step s es).bind (fun t => run step t fs) := by
  induction es generalizing s with
  | nil => rfl
  | cons e es ih =>
    cases h : step s e with
    | none => simp [run, h]
    | some t => simpa [run, h] using ih t

theorem runInvariant {I : σ → Prop} (keep : ∀ s e t, I s → step s e = some t → I t)
    {s t : σ} {es : List ε} (init : I s) (reached : run step s es = some t) : I t := by
  induction es generalizing s with
  | nil => cases Option.some.inj reached; exact init
  | cons e es ih =>
    obtain ⟨m, first, rest⟩ := Option.bind_eq_some_iff.mp reached
    exact ih (keep s e m init first) rest

theorem alwaysHead {P : σ → Prop} {s : σ} {es : List ε} (h : Always step P s es) : P s := by
  cases es with
  | nil => exact h
  | cons e es => exact h.1

theorem alwaysReached {P : σ → Prop} {s t : σ} {es : List ε} (h : Always step P s es)
    (reached : run step s es = some t) : P t := by
  induction es generalizing s with
  | nil => cases Option.some.inj reached; exact h
  | cons e es ih =>
    obtain ⟨m, first, rest⟩ := Option.bind_eq_some_iff.mp reached
    exact ih (h.2 m first) rest

theorem alongPrefix {C : σ → ε → Prop} {s : σ} {es fs : List ε} (h : Along step C s (es ++ fs)) :
    Along step C s es := by
  induction es generalizing s with
  | nil => trivial
  | cons e es ih =>
    intro t taken
    obtain ⟨now, later⟩ := h t taken
    exact ⟨now, ih later⟩

theorem alongAppend {C : σ → ε → Prop} {s t : σ} {es fs : List ε} (reached : run step s es = some t) :
    Along step C s (es ++ fs) ↔ Along step C s es ∧ Along step C t fs := by
  induction es generalizing s with
  | nil =>
    cases Option.some.inj reached
    exact ⟨fun along => ⟨trivial, along⟩, fun both => both.2⟩
  | cons e es ih =>
    obtain ⟨m, first, rest⟩ := Option.bind_eq_some_iff.mp reached
    constructor
    · intro along
      obtain ⟨now, later⟩ := along m first
      obtain ⟨early, late⟩ := (ih rest).mp later
      refine ⟨fun u taken => ?_, late⟩
      rw [first] at taken
      cases taken
      exact ⟨now, early⟩
    · rintro ⟨early, late⟩ u taken
      rw [first] at taken
      cases taken
      obtain ⟨now, later⟩ := early m first
      exact ⟨now, (ih rest).mpr ⟨later, late⟩⟩

theorem alongAnd {C D : σ → ε → Prop} {s : σ} {es : List ε} (one : Along step C s es) (other : Along step D s es) :
    Along step (fun s e => C s e ∧ D s e) s es := by
  induction es generalizing s with
  | nil => trivial
  | cons e es ih =>
    intro t taken
    obtain ⟨c, cs⟩ := one t taken
    obtain ⟨d, ds⟩ := other t taken
    exact ⟨⟨c, d⟩, ih cs ds⟩

theorem alwaysGuarded {I P : σ → Prop} {C : σ → ε → Prop}
    (keep : ∀ s e t, I s → C s e → step s e = some t → I t) (safe : ∀ s, I s → P s)
    {s : σ} {es : List ε} (init : I s) (along : Along step C s es) : Always step P s es := by
  induction es generalizing s with
  | nil => exact safe s init
  | cons e es ih =>
    refine ⟨safe s init, fun t taken => ?_⟩
    obtain ⟨now, later⟩ := along t taken
    exact ih (keep s e t init now taken) later

theorem alwaysInvariant {I P : σ → Prop} (keep : ∀ s e t, I s → step s e = some t → I t)
    (safe : ∀ s, I s → P s) {s : σ} (init : I s) (es : List ε) : Always step P s es := by
  induction es generalizing s with
  | nil => exact safe s init
  | cons e es ih => exact ⟨safe s init, fun t taken => ih (keep s e t init taken)⟩

theorem alongGuarded {I : σ → Prop} {C D : σ → ε → Prop}
    (keep : ∀ s e t, I s → C s e → step s e = some t → I t)
    (safe : ∀ s e t, I s → C s e → step s e = some t → D s e)
    {s : σ} {es : List ε} (init : I s) (along : Along step C s es) : Along step D s es := by
  induction es generalizing s with
  | nil => trivial
  | cons e es ih =>
    intro t taken
    obtain ⟨now, later⟩ := along t taken
    exact ⟨safe s e t init now taken, ih (keep s e t init now taken) later⟩

/- In the runs that meet `D`, where a step that misses `C` breaks `P` at once, `C` is the exact
condition. -/
theorem alwaysExactWithin {I P : σ → Prop} {C D : σ → ε → Prop}
    (keep : ∀ s e t, I s → D s e → C s e → step s e = some t → I t) (safe : ∀ s, I s → P s)
    (breaks : ∀ s e t, I s → D s e → step s e = some t → ¬ C s e → ¬ P t)
    {s : σ} (init : I s) {es : List ε} (within : Along step D s es) : Always step P s es ↔ Along step C s es := by
  induction es generalizing s with
  | nil => exact ⟨fun _ => trivial, fun _ => safe s init⟩
  | cons e es ih =>
    constructor
    · intro always t taken
      obtain ⟨inside, later⟩ := within t taken
      have now : C s e := by
        by_contra missed
        exact breaks s e t init inside taken missed (alwaysHead (always.2 t taken))
      exact ⟨now, (ih (keep s e t init inside now taken) later).mp (always.2 t taken)⟩
    · intro along
      refine ⟨safe s init, fun t taken => ?_⟩
      obtain ⟨inside, later⟩ := within t taken
      obtain ⟨now, rest⟩ := along t taken
      exact (ih (keep s e t init inside now taken) later).mpr rest

theorem alongTrue (s : σ) (es : List ε) : Along step (fun _ _ => True) s es := by
  induction es generalizing s with
  | nil => trivial
  | cons e es ih => exact fun t _ => ⟨trivial, ih t⟩

/- Where a step that misses `C` breaks `P` at once, `C` is the exact condition. -/
theorem alwaysExact {I P : σ → Prop} {C : σ → ε → Prop}
    (keep : ∀ s e t, I s → C s e → step s e = some t → I t) (safe : ∀ s, I s → P s)
    (breaks : ∀ s e t, I s → step s e = some t → ¬ C s e → ¬ P t)
    {s : σ} (init : I s) (es : List ε) : Always step P s es ↔ Along step C s es :=
  alwaysExactWithin (fun s e t inv _ => keep s e t inv) safe (fun s e t inv _ => breaks s e t inv) init (alongTrue s es)

end

end ScEthernet.Lib.Runs
