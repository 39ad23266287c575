/-
# Chicago95.Lib.Extended — arrays of bytes that extend themselves with zeros.

Storing beyond the end of an array makes it longer, and what lies between the old end and the new bytes is zero. Fetching
gives what there is. Two arrays are the same if they are as long and agree in each place (`ext_getD`).
-/
import Mathlib.Data.List.GetD

namespace Chicago95.Lib.Extended

variable {α : Type} [Zero α]

/-- The elements of `f` below `n`. -/
def tabulate (f : Nat → α) (n : Nat) : List α := (List.range n).map f

/-- The array with `data` in it from `off` on. -/
def overlay (c : List α) (off : Nat) (data : List α) : List α :=
  tabulate (fun i => if off ≤ i ∧ i < off + data.length then data.getD (i - off) 0 else c.getD i 0)
    (max c.length (off + data.length))

/-- At most `n` elements from `off` on. -/
def slice (c : List α) (off n : Nat) : List α := (c.drop off).take n

omit [Zero α] in
@[simp] theorem length_tabulate (f : Nat → α) (n : Nat) : (tabulate f n).length = n := by
  unfold tabulate
  rw [List.length_map, List.length_range]

theorem getD_tabulate (f : Nat → α) {n i : Nat} (h : i < n) : (tabulate f n).getD i 0 = f i := by
  unfold tabulate
  rw [List.getD_eq_getElem?_getD, List.getElem?_map, List.getElem?_range h]
  rfl

omit [Zero α] in
theorem tabulate_congr {f g : Nat → α} {n : Nat} (h : ∀ i < n, f i = g i) : tabulate f n = tabulate g n :=
  List.map_congr_left fun i hi => h i (List.mem_range.mp hi)

theorem ext_getD {c d : List α} (hlen : c.length = d.length) (h : ∀ i < c.length, c.getD i 0 = d.getD i 0) : c = d := by
  refine List.ext_getElem hlen fun i hc hd => ?_
  have := h i hc
  rwa [List.getD_eq_getElem _ _ hc, List.getD_eq_getElem _ _ hd] at this

@[simp] theorem length_overlay (c : List α) (off : Nat) (data : List α) :
    (overlay c off data).length = max c.length (off + data.length) := length_tabulate _ _

omit [Zero α] in
@[simp] theorem length_slice (c : List α) (off n : Nat) : (slice c off n).length = min n (c.length - off) := by
  unfold slice
  rw [List.length_take, List.length_drop]

omit [Zero α] in
theorem slice_tabulate (f : Nat → α) (len off n : Nat) :
    slice (tabulate f len) off n = tabulate (fun i => f (off + i)) (min n (len - off)) := by
  unfold slice tabulate
  rw [← List.map_drop, ← List.map_take]
  refine List.ext_getElem (by simp) fun i h₁ h₂ => ?_
  simp

end Chicago95.Lib.Extended
