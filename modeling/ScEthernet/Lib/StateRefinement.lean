import Mathlib.Tactic.Common

/-! Programs with state on two levels. A program refines another one when from related states both return
the same and end in related states again; programs that are made of parts alike refine each other part by part. -/
namespace ScEthernet.Lib.StateRefinement

section
variable {σ τ α β ι : Type} (R : σ → τ → Prop)

def Refines (m : StateM σ α) (a : StateM τ α) : Prop := ∀ s t, R s t → (m s).1 = (a t).1 ∧ R (m s).2 (a t).2

variable {R} {m : StateM σ α} {a : StateM τ α}

theorem bindRun {β : Type} (f : α → StateM σ β) (s : σ) : (m >>= f) s = f (m s).1 (m s).2 := rfl

theorem refinesPure (x : α) : Refines R (pure x : StateM σ α) (pure x) := fun _ _ related => ⟨rfl, related⟩

theorem refinesBind {f : α → StateM σ β} {g : α → StateM τ β} (first : Refines R m a) (rest : ∀ x, Refines R (f x) (g x)) :
    Refines R (m >>= f) (a >>= g) := by
  intro s t related
  obtain ⟨same, next⟩ := first s t related
  have later := rest (m s).1 (m s).2 (a t).2 next
  rw [same] at later
  rw [bindRun, bindRun, same]
  exact later

def each (m : ι → StateM σ α) : List ι → StateM σ (List α)
  | [] => pure []
  | i :: is => do
    let x ← m i
    let xs ← each m is
    pure (x :: xs)

theorem refinesEach {m : ι → StateM σ α} {a : ι → StateM τ α} {is : List ι} (parts : ∀ i ∈ is, Refines R (m i) (a i)) :
    Refines R (each m is) (each a is) := by
  induction is with
  | nil => exact refinesPure []
  | cons i is ih =>
    have rest := ih fun j member => parts j (List.mem_cons_of_mem i member)
    exact refinesBind (parts i List.mem_cons_self) fun x => refinesBind rest fun xs => refinesPure (x :: xs)

end

end ScEthernet.Lib.StateRefinement
