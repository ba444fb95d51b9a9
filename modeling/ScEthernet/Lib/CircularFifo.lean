import Mathlib.Tactic.Common

/-! A FIFO in an array of `n` cells with a read and a write index, empty when they are equal,
so that it holds at most `n - 1` elements. The indices wrap by comparison. -/
namespace ScEthernet.Lib.CircularFifo

structure Fifo (α : Type) where
  rd : Nat
  wr : Nat
  cells : Nat → α

section
variable {α : Type} (n : Nat)

def next (i : Nat) : Nat := if i + 1 = n then 0 else i + 1
def index (rd k : Nat) : Nat := if rd + k < n then rd + k else rd + k - n

def Fifo.used (f : Fifo α) : Nat := if f.rd ≤ f.wr then f.wr - f.rd else f.wr + n - f.rd
def Fifo.contents (f : Fifo α) : List α :=
  (List.range (f.used n)).map (fun k => f.cells (index n f.rd k))

def Fifo.push (f : Fifo α) (x : α) : Fifo α :=
  { f with wr := next n f.wr, cells := fun i => if i = f.wr then x else f.cells i }
def Fifo.pop (f : Fifo α) : Fifo α := { f with rd := next n f.rd }

structure Fifo.Valid (f : Fifo α) : Prop where
  rd : f.rd < n
  wr : f.wr < n

variable {n} {f : Fifo α}

theorem nextBound {i : Nat} (h : i < n) : next n i < n := by
  unfold next; split <;> omega

theorem usedBound (h : f.Valid n) : f.used n < n := by
  have := h.rd
  have := h.wr
  unfold Fifo.used; split <;> omega

@[simp] theorem contentsLength : (f.contents n).length = f.used n := by simp [Fifo.contents]

theorem emptyIff (h : f.Valid n) : f.rd = f.wr ↔ f.contents n = [] := by
  rw [← List.length_eq_zero_iff, contentsLength]
  have := h.rd
  have := h.wr
  unfold Fifo.used; split <;> omega

theorem fullIff (h : f.Valid n) : next n f.wr = f.rd ↔ f.used n = n - 1 := by
  have := h.rd
  have := h.wr
  unfold Fifo.used next; split_ifs <;> omega

theorem pushValid (h : f.Valid n) (x : α) : (f.push n x).Valid n :=
  ⟨h.rd, nextBound h.wr⟩

theorem popValid (h : f.Valid n) : (f.pop n).Valid n := ⟨nextBound h.rd, h.wr⟩

theorem pushContents (h : f.Valid n) (room : next n f.wr ≠ f.rd) (x : α) :
    (f.push n x).contents n = f.contents n ++ [x] := by
  have rd := h.rd
  have wr := h.wr
  have used : (f.push n x).used n = f.used n + 1 := by
    simp only [Fifo.used, Fifo.push, next] at room ⊢
    split_ifs at room ⊢ <;> omega
  have bound := usedBound h
  have last : index n f.rd (f.used n) = f.wr := by
    simp only [index, Fifo.used]; split_ifs <;> omega
  rw [Fifo.contents, used, List.range_succ, List.map_append]
  congr 1
  · refine List.map_congr_left (fun k small => if_neg ?_)
    have small := List.mem_range.mp small
    have spread : index n f.rd k ≠ index n f.rd (f.used n) := by
      simp only [index]; split_ifs <;> omega
    rw [last] at spread
    exact spread
  · simp [Fifo.push, last]

theorem popContents (h : f.Valid n) (some : f.rd ≠ f.wr) :
    f.contents n = f.cells f.rd :: (f.pop n).contents n := by
  have rd := h.rd
  have wr := h.wr
  have used : f.used n = (f.pop n).used n + 1 := by
    simp only [Fifo.used, Fifo.pop, next]; split_ifs <;> omega
  have bound := usedBound h
  rw [Fifo.contents, used, List.range_succ_eq_map, List.map_cons, List.map_map]
  congr 1
  · simp [index, rd]
  · refine List.map_congr_left (fun k small => ?_)
    have small := List.mem_range.mp small
    simp only [Function.comp, Fifo.pop]
    congr 1
    simp only [index, next]
    split_ifs <;> omega

end

end ScEthernet.Lib.CircularFifo
