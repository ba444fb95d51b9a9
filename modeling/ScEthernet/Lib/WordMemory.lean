import Mathlib.Tactic.Common

/-! Word memory as a function of the address. -/
namespace ScEthernet.Lib.WordMemory

def store (mem : Int → Int) (a v : Int) : Int → Int := fun x => if x = a then v else mem x

@[simp] theorem storeSame (mem : Int → Int) (a v : Int) : store mem a v a = v := by simp [store]

theorem storeOther {mem : Int → Int} {a v x : Int} (ne : x ≠ a) : store mem a v x = mem x := by
  simp [store, ne]

@[simp] theorem storeAgain (mem : Int → Int) (a v w : Int) : store (store mem a v) a w = store mem a w := by
  funext x
  unfold store
  split <;> rfl

def storeAll (mem : Int → Int) (stores : List (Int × Int)) : Int → Int :=
  stores.foldl (fun m s => store m s.1 s.2) mem

@[simp] theorem storeAllNil (mem : Int → Int) : storeAll mem [] = mem := rfl

@[simp] theorem storeAllCons (mem : Int → Int) (s : Int × Int) (ss : List (Int × Int)) :
    storeAll mem (s :: ss) = storeAll (store mem s.1 s.2) ss := rfl

theorem storeAllOther {mem : Int → Int} {stores : List (Int × Int)} {x : Int}
    (outside : ∀ s ∈ stores, x ≠ s.1) : storeAll mem stores x = mem x := by
  induction stores generalizing mem with
  | nil => rfl
  | cons s ss ih =>
    rw [storeAllCons, ih (fun t ht => outside t (List.mem_cons_of_mem _ ht))]
    exact storeOther (outside s List.mem_cons_self)

end ScEthernet.Lib.WordMemory
