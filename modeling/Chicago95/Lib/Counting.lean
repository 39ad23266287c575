/-
# Chicago95.Lib.Counting — counters kept next to a table of flags.

Programs keep the number of set flags of a table in a counter of its own. That the two stay in step
comes down to one fact, `countP_single`: predicates that agree on a duplicate-free list except at one
element have counts that differ by what they say there.
-/
import Mathlib.Data.List.Basic
import Mathlib.Data.List.Nodup
import Mathlib.Logic.Function.Basic

namespace Chicago95.Lib.Counting

variable {α : Type*}

/-- **Changing one flag.** -/
theorem countP_single {l : List α} (hl : l.Nodup) {i : α} (hi : i ∈ l) {p q : α → Bool} (h : ∀ j, j ≠ i → p j = q j) :
    l.countP p + (q i).toNat = l.countP q + (p i).toNat := by
  induction l with
  | nil => cases hi
  | cons a l ih =>
    obtain ⟨ha, hl⟩ := List.nodup_cons.mp hl
    simp only [List.countP_cons]
    rcases List.mem_cons.mp hi with rfl | hil
    · -- the rest of the list does not contain the changed element
      have hrest : l.countP p = l.countP q :=
        List.countP_congr fun j hj => by rw [h j fun heq => ha (heq ▸ hj)]
      rcases p i with _ | _ <;> rcases q i with _ | _ <;> simp [hrest]
    · have hai : a ≠ i := fun heq => ha (heq ▸ hil)
      have hind := ih hl hil
      rw [h a hai]
      omega

/-- The number of indices below `n` whose flag is set. -/
def countBelow (n : Nat) (flag : Nat → Bool) : Nat := (List.range n).countP flag

theorem countBelow_update (flag : Nat → Bool) {i n : Nat} (hi : i < n) (b : Bool) :
    countBelow n (Function.update flag i b) + (flag i).toNat = countBelow n flag + b.toNat := by
  have h := countP_single (List.nodup_range (n := n)) (List.mem_range.mpr hi)
    (p := Function.update flag i b) (q := flag) fun j hj => Function.update_of_ne hj _ _
  rwa [Function.update_self] at h

theorem countBelow_update_entry {α : Type*} (g : α → Bool) (f : Nat → α) {i n : Nat} (hi : i < n) (a : α) :
    countBelow n (fun j => g (Function.update f i a j)) + (g (f i)).toNat =
      countBelow n (fun j => g (f j)) + (g a).toNat := by
  have hflag : (fun j => g (Function.update f i a j)) = Function.update (fun j => g (f j)) i (g a) :=
    Function.comp_update g f i a
  rw [hflag]
  exact countBelow_update (fun j => g (f j)) hi (g a)

theorem countBelow_le (flag : Nat → Bool) (n : Nat) : countBelow n flag ≤ n := by
  unfold countBelow
  simpa using List.countP_le_length (p := flag) (l := List.range n)

theorem countBelow_add_not (flag : Nat → Bool) (n : Nat) : countBelow n flag + countBelow n (fun i => !flag i) = n := by
  have h := List.length_eq_countP_add_countP (p := flag) (l := List.range n)
  rw [List.length_range] at h
  simp only [Bool.not_eq_true, Bool.decide_eq_false] at h
  exact h.symm

theorem countBelow_eq_iff (flag : Nat → Bool) (n : Nat) : countBelow n flag = n ↔ ∀ i, i < n → flag i = true := by
  have h := List.countP_eq_length (p := flag) (l := List.range n)
  rw [List.length_range] at h
  exact h.trans ⟨fun hall i hi => hall i (List.mem_range.mpr hi),
    fun hall i hi => hall i (List.mem_range.mp hi)⟩

theorem countBelow_of_clear {flag : Nat → Bool} {m n : Nat} (hmn : m ≤ n)
    (h : ∀ i, m ≤ i → flag i = false) : countBelow n flag = countBelow m flag := by
  induction n with
  | zero => rw [Nat.le_zero.mp hmn]
  | succ n ih =>
    rcases Nat.lt_or_ge n m with hlt | hge
    · rw [show m = n + 1 by omega]
    · have hlast : flag n = false := h n hge
      have hind := ih hge
      unfold countBelow at hind ⊢
      rw [List.range_succ, List.countP_append, hind]
      simp [hlast]

end Chicago95.Lib.Counting
