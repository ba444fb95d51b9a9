import Mathlib.Tactic.Common

/-! A ring of cells, unrolled. Positions are natural numbers that only grow; `place`
is the address a position has in the ring. Addresses of two positions in one window of
the ring's size differ unless the positions are equal, so a region of the ring, wrapped
or not, is an interval of positions. -/
namespace ScEthernet.Lib.UnrolledRing

structure Ring where
  base : Int
  size : Nat
  positive : 0 < size

namespace Ring
variable (r : Ring)

def limit : Int := r.base + r.size
def place (v : Nat) : Int := r.base + (v % r.size : Nat)
def toEnd (v : Nat) : Nat := r.size - v % r.size

theorem offsetBound (v : Nat) : v % r.size < r.size := Nat.mod_lt v r.positive

theorem placeLower (v : Nat) : r.base ≤ r.place v := by
  unfold place; omega

theorem placeUpper (v : Nat) : r.place v < r.limit := by
  have := r.offsetBound v
  unfold place limit; omega

theorem placeToEnd (v : Nat) : r.place v + r.toEnd v = r.limit := by
  have := r.offsetBound v
  unfold place toEnd limit; omega

theorem toEndPositive (v : Nat) : 0 < r.toEnd v := by
  have := r.offsetBound v
  unfold toEnd; omega

@[simp] theorem placeSize (v : Nat) : r.place (v + r.size) = r.place v := by
  simp [place]

theorem placeInjective {v w : Nat} (le : v ≤ w) (lt : w < v + r.size)
    (same : r.place v = r.place w) : v = w := by
  have mods : v % r.size = w % r.size := by unfold place at same; omega
  have shifted : (w - v) % r.size = 0 := Nat.sub_mod_eq_zero_of_mod_eq mods.symm
  rw [Nat.mod_eq_of_lt (by omega)] at shifted
  omega

theorem placeNe {a v w : Nat} (hv : a ≤ v ∧ v < a + r.size) (hw : a ≤ w ∧ w < a + r.size)
    (ne : v ≠ w) : r.place v ≠ r.place w := by
  intro same
  rcases Nat.le_total v w with le | le
  · exact ne (r.placeInjective le (by omega) same)
  · exact ne (r.placeInjective le (by omega) same.symm).symm

theorem placeAdd {v k : Nat} (inside : k < r.toEnd v) : r.place (v + k) = r.place v + k := by
  have bound := r.offsetBound v
  unfold toEnd at inside
  have mod : (v + k) % r.size = v % r.size + k := by
    rw [Nat.add_mod, Nat.mod_eq_of_lt (a := k) (by omega)]
    exact Nat.mod_eq_of_lt (by omega)
  simp only [place, mod]; omega

theorem placeLap (v : Nat) : r.place (v + r.toEnd v) = r.base := by
  have bound := r.offsetBound v
  have split := Nat.div_add_mod v r.size
  have mult : v + r.toEnd v = r.size * (v / r.size + 1) := by
    rw [Nat.mul_add, Nat.mul_one]; unfold toEnd; omega
  rw [mult]; simp [place]

theorem placeSucc (v : Nat) :
    r.place (v + 1) = if r.place v + 1 = r.limit then r.base else r.place v + 1 := by
  have total := r.placeToEnd v
  have positive := r.toEndPositive v
  split
  · rename_i last
    have one : r.toEnd v = 1 := by omega
    rw [← one]; exact r.placeLap v
  · rename_i inner
    have := r.placeAdd (v := v) (k := 1) (by omega)
    simpa using this

/- The address gap between two positions of one window, with and without a wrap. -/
theorem placeGap {v w : Nat} (le : v ≤ w) (lt : w < v + r.size) :
    r.place w - r.place v = (w : Int) - v ∨ r.place w - r.place v = (w : Int) - v - r.size := by
  by_cases inside : w - v < r.toEnd v
  · have shift := r.placeAdd inside
    rw [show v + (w - v) = w by omega] at shift
    left; omega
  · have lap := r.placeLap v
    have total := r.placeToEnd (v + r.toEnd v)
    have here := r.placeToEnd v
    have lower := r.placeLower v
    have shift := r.placeAdd (v := v + r.toEnd v) (k := w - (v + r.toEnd v))
      (by unfold limit at *; omega)
    rw [show v + r.toEnd v + (w - (v + r.toEnd v)) = w by omega, lap] at shift
    right; unfold limit at *; omega

theorem placeOnto (v : Nat) {a : Int} (lower : r.base ≤ a) (upper : a < r.limit) :
    ∃ x, v ≤ x ∧ x < v + r.size ∧ a = r.place x := by
  have total := r.placeToEnd v
  have low := r.placeLower v
  have bound := r.offsetBound v
  by_cases ahead : r.place v ≤ a
  · have shift := r.placeAdd (v := v) (k := (a - r.place v).toNat) (by omega)
    refine ⟨v + (a - r.place v).toNat, by omega, ?_, by omega⟩
    unfold toEnd at total; omega
  · have lap := r.placeLap v
    have next := r.placeToEnd (v + r.toEnd v)
    have shift := r.placeAdd (v := v + r.toEnd v) (k := (a - r.base).toNat) (by omega)
    refine ⟨v + r.toEnd v + (a - r.base).toNat, by omega, ?_, by omega⟩
    unfold limit at total; omega

/- A later position that is not within `m` cells of the limit, seen from a position that
is, lies in a later lap. -/
theorem laterLap {v w m : Nat} (le : v ≤ w) (near : r.limit < r.place v + m)
    (far : r.place w + m ≤ r.limit) : v + r.toEnd v ≤ w := by
  by_contra inside
  have shift := r.placeAdd (v := v) (k := w - v) (by omega)
  rw [show v + (w - v) = w by omega] at shift
  omega

end Ring
end ScEthernet.Lib.UnrolledRing
