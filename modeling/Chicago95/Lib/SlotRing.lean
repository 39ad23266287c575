/-
# Chicago95.Lib.SlotRing — slots handed out round and round.

A family of rings, each with a number of slots, a counter for each ring that is only ever read modulo that number, and a
list of requests, each for a slot of one ring. The slots of the requests are distinct exactly as long as no ring is
asked for more of them than it has.
-/
import Mathlib.Data.List.Count
import Mathlib.Data.Fintype.Card
import Mathlib.Algebra.Group.Pi.Basic
import Mathlib.Algebra.Ring.Nat

namespace Chicago95.Lib.SlotRing

variable {κ : Type*} {size : κ → Nat}

/-- A slot of one of the rings. -/
abbrev Slot (size : κ → Nat) := (k : κ) × Fin (size k)

section Issue

variable [∀ k, NeZero (size k)]

/-- The slot ring `k` hands out next. -/
def next (used : κ → Nat) (k : κ) : Slot size := ⟨k, Fin.ofNat (size k) (used k)⟩

@[simp] theorem next_ring (used : κ → Nat) (k : κ) : (next used k : Slot size).1 = k := rfl

variable [DecidableEq κ]

/-- The counters after one more request. -/
def bump (used : κ → Nat) (k : κ) : κ → Nat := Function.update used k (used k + 1)

/-- The slots handed out for a list of requests. -/
def issue (used : κ → Nat) : List κ → List (Slot size)
  | [] => []
  | k :: ks => next used k :: issue (bump used k) ks

theorem bump_eq_add (used : κ → Nat) (k : κ) : bump used k = used + fun j => [k].count j := by
  funext j
  by_cases h : j = k
  · simp [bump, h]
  · simp [bump, h, Ne.symm h]

theorem issue_append (used : κ → Nat) (ks js : List κ) :
    (issue used (ks ++ js) : List (Slot size)) = issue used ks ++ issue (used + fun k => ks.count k) js := by
  induction ks generalizing used with
  | nil => simp [issue, Pi.add_def]
  | cons k ks ih =>
    have h : (bump used k + fun j => ks.count j) = used + fun j => (k :: ks).count j := by
      funext j
      simp only [bump_eq_add, Pi.add_apply, List.count_cons, List.count_nil]
      omega
    simp [issue, ih, h]

@[simp] theorem issue_map_ring (used : κ → Nat) (ks : List κ) : (issue used ks : List (Slot size)).map (·.1) = ks := by
  induction ks generalizing used with
  | nil => rfl
  | cons k ks ih => simp [issue, ih]

theorem index_of_mem_issue {used : κ → Nat} {ks : List κ} {p : Slot size} (hp : p ∈ issue used ks) :
    ∃ n, used p.1 ≤ n ∧ n < used p.1 + ks.count p.1 ∧ p.2.val = n % size p.1 := by
  induction ks generalizing used with
  | nil => simp [issue] at hp
  | cons k ks ih =>
    rcases List.mem_cons.mp hp with rfl | hp
    · exact ⟨used k, le_rfl, by simp, by simp [next, Fin.ofNat]⟩
    · obtain ⟨n, hlo, hhi, hn⟩ := ih hp
      have hb := congrFun (bump_eq_add used k) p.1
      simp only [Pi.add_apply, List.count_cons, List.count_nil] at hb
      refine ⟨n, by omega, ?_, hn⟩
      rw [List.count_cons]
      omega

theorem mod_ne_of_lt {m n a : Nat} (hlo : n < a) (hhi : a < n + m) : a % m ≠ n % m := by
  intro h
  have hd : (a - n) % m = 0 := Nat.sub_mod_eq_zero_of_mod_eq h
  rw [Nat.mod_eq_of_lt (by omega)] at hd
  omega

theorem nodup_issue (used : κ → Nat) (ks : List κ) (h : ∀ k, ks.count k ≤ size k) :
    (issue used ks : List (Slot size)).Nodup := by
  induction ks generalizing used with
  | nil => exact List.nodup_nil
  | cons k ks ih =>
    have hcount : ks.count k + 1 ≤ size k := by simpa using h k
    refine List.nodup_cons.mpr ⟨fun hmem => ?_, ih _ fun j => le_trans List.count_le_count_cons (h j)⟩
    obtain ⟨n, hlo, hhi, hn⟩ := index_of_mem_issue hmem
    have hb : bump used k k = used k + 1 := by simp [bump]
    simp only [next_ring, hb] at hlo hhi hn
    have hnext : used k % size k = n % size k := by simpa [next] using hn
    exact mod_ne_of_lt (by omega) (by omega) hnext.symm

end Issue

theorem count_le_of_nodup [DecidableEq κ] {ps : List (Slot size)} (h : ps.Nodup) (k : κ) : (ps.map (·.1)).count k ≤ size k := by
  have hfilter : (ps.map (·.1)).count k = (ps.filter fun p => p.1 = k).length := by
    rw [List.count_eq_countP, List.countP_map, List.countP_eq_length_filter]
    congr 1
  let index (p : Slot size) : Nat := p.2.val
  have hinj : ((ps.filter fun p => p.1 = k).map index).Nodup := by
    refine (h.filter _).map_on fun p hp q hq hpq => ?_
    obtain ⟨j, a⟩ := p
    obtain ⟨l, b⟩ := q
    obtain rfl : j = k := by simpa using (List.mem_filter.mp hp).2
    obtain rfl : l = j := by simpa using (List.mem_filter.mp hq).2
    exact congrArg (Sigma.mk l) (Fin.ext hpq)
  have hsub : (ps.filter fun p => p.1 = k).map index ⊆ List.range (size k) := by
    intro n hn
    obtain ⟨⟨j, a⟩, hp, rfl⟩ := List.mem_map.mp hn
    obtain rfl : j = k := by simpa using (List.mem_filter.mp hp).2
    exact List.mem_range.mpr a.isLt
  have hlen := (List.subperm_of_subset hinj hsub).length_le
  rw [hfilter]
  simpa using hlen

end Chicago95.Lib.SlotRing
