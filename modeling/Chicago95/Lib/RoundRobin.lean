/-
# Chicago95.Lib.RoundRobin — picking round a circle.

`pick P start` is the first of the `N` places behind `start`, counted round the circle with `start` itself last, that
satisfies `P`. `gap start p` is how many places are looked at before `p`. A pick that is not `p`, while `P p` holds,
starts the next round nearer to `p` (`gap_pick_lt`): nobody who keeps waiting is passed over more than `N - 1` times.
-/
import Mathlib.Algebra.Ring.Nat
import Mathlib.Data.Fin.Basic
import Mathlib.Data.List.Basic
import Mathlib.Tactic.Common

namespace Chicago95.Lib.RoundRobin

variable {N : Nat} [NeZero N]

/-- The first of the places behind `start` that satisfies `P`. -/
def pick (P : Fin N → Bool) (start : Nat) : Option (Fin N) :=
  ((List.range N).map fun i => Fin.ofNat N (start + 1 + i)).find? P

/-- How many places are looked at before `p`. -/
def gap (start : Nat) (p : Fin N) : Nat := (p.val + N - (start + 1) % N) % N

theorem gap_lt (start : Nat) (p : Fin N) : gap start p < N := Nat.mod_lt _ (Nat.pos_of_neZero N)

theorem ofNat_gap (start : Nat) (p : Fin N) : Fin.ofNat N (start + 1 + gap start p) = p := by
  apply Fin.ext
  have hs := Nat.mod_lt (start + 1) (Nat.pos_of_neZero N)
  have hp := p.isLt
  simp only [Fin.val_ofNat, gap]
  rw [Nat.add_mod, Nat.mod_mod, Nat.add_mod_mod, show (start + 1) % N + (p.val + N - (start + 1) % N) = p.val + N by omega,
    Nat.add_mod_right, Nat.mod_eq_of_lt hp]

theorem gap_eq_of_ofNat {start g : Nat} {p : Fin N} (hg : g < N) (h : Fin.ofNat N (start + 1 + g) = p) :
    gap start p = g := by
  have hs := Nat.mod_lt (start + 1) (Nat.pos_of_neZero N)
  have hval : ((start + 1) % N + g) % N = p.val := by rw [Nat.mod_add_mod, ← h, Fin.val_ofNat]
  unfold gap
  rw [← hval]
  by_cases hlt : (start + 1) % N + g < N
  · rw [Nat.mod_eq_of_lt hlt, show (start + 1) % N + g + N - (start + 1) % N = g + N by omega, Nat.add_mod_right,
      Nat.mod_eq_of_lt hg]
  · rw [Nat.mod_eq_sub_mod (Nat.not_lt.1 hlt), Nat.mod_eq_of_lt (show (start + 1) % N + g - N < N by omega),
      show (start + 1) % N + g - N + N - (start + 1) % N = g by omega, Nat.mod_eq_of_lt hg]

theorem gap_pick_lt {P : Fin N → Bool} {start : Nat} {n p : Fin N} (h : pick P start = some n) (hp : P p = true)
    (hne : n ≠ p) : gap n.val p < gap start p := by
  rw [pick, List.find?_map, Option.map_eq_some_iff] at h
  obtain ⟨j, hj, rfl⟩ := h
  obtain ⟨_, hrange, hbefore⟩ := List.find?_range_eq_some.1 hj
  have hg := gap_lt start p
  have hle : j ≤ gap start p := by
    by_contra hlt
    have hnot := hbefore (gap start p) (Nat.not_le.1 hlt)
    rw [Function.comp_apply, ofNat_gap, hp] at hnot
    cases hnot
  have hneq : j ≠ gap start p := fun he => hne (by rw [he, ofNat_gap])
  -- from the place picked, what is left of the way
  have hrest : gap (Fin.ofNat N (start + 1 + j)).val p = gap start p - j - 1 := by
    refine gap_eq_of_ofNat (by omega) ?_
    refine (Fin.ext ?_ : _ = Fin.ofNat N (start + 1 + gap start p)).trans (ofNat_gap start p)
    simp only [Fin.val_ofNat]
    rw [show ∀ a b : Nat, a % N + 1 + b = a % N + (1 + b) from fun a b => Nat.add_assoc _ _ _, Nat.mod_add_mod]
    congr 1
    omega
  omega

end Chicago95.Lib.RoundRobin
