/-
# Chicago95.Lib.Bitmap — allocation bitmaps: lowest clear runs, ranges of bits, counts.

A bitmap is a function from bit numbers to `Bool`, `true` for a taken bit; its first `total` bits
matter. `scanRun` is the usual linear search for `count` clear bits in a row, which keeps the length of
the current run of clear bits and where it began. Its specification is `scanRun_eq`: it finds the lowest
such run below `total`, and nothing exactly when there is none.
-/
import Chicago95.Lib.Counting
import Chicago95.Lib.Loop

namespace Chicago95.Lib.Bitmap

open Chicago95.Lib.Counting Chicago95.Lib.Loop

variable {bm : Nat → Bool} {total count s t i : Nat}

/-! ## Runs of clear bits -/

/-- The `count` bits from `s` on are clear and below `total`. -/
def ClearRun (bm : Nat → Bool) (total count s : Nat) : Prop :=
  s + count ≤ total ∧ ∀ j, s ≤ j → j < s + count → bm j = false

/-- The lowest run of `count` clear bits begins at `s`. -/
def LowestRun (bm : Nat → Bool) (total count s : Nat) : Prop :=
  ClearRun bm total count s ∧ ∀ t, t < s → ¬ ClearRun bm total count t

theorem LowestRun.unique (hs : LowestRun bm total count s) (ht : LowestRun bm total count t) : s = t := by
  rcases Nat.lt_trichotomy s t with h | h | h
  · exact absurd hs.1 (ht.2 s h)
  · exact h
  · exact absurd ht.1 (hs.2 t h)

/-- The search from bit `i` on, `left` bits before the end: `run` clear bits end at `i`, the first of
them `start`. -/
def scanRun (bm : Nat → Bool) (count : Nat) : Nat → Nat → Nat → Nat → Option Nat
  | 0, _, _, _ => none
  | left + 1, i, run, start =>
    if bm i then scanRun bm count left (i + 1) 0 start
    else
      let first := if run = 0 then i else start
      if count ≤ run + 1 then some first else scanRun bm count left (i + 1) (run + 1) first

/-- Where the search stands at bit `i`: the current run is maximal, too short, and no run of the length
wanted ends at or before `i`. -/
structure Scanned (bm : Nat → Bool) (total count i run start : Nat) : Prop where
  run_le : run ≤ i
  short : run < count
  start_eq : run ≠ 0 → start = i - run
  clear : ∀ j, i - run ≤ j → j < i → bm j = false
  before : ∀ t, t + count ≤ i → ¬ ClearRun bm total count t
  maximal : ∀ t, t < i - run → i < t + count → ¬ ClearRun bm total count t

theorem scanned_zero (hc : 0 < count) : Scanned bm total count 0 0 0 where
  run_le := Nat.le_refl 0
  short := hc
  start_eq h := absurd rfl h
  clear j _ hj := absurd hj (Nat.not_lt_zero j)
  before t ht := by omega
  maximal t ht := absurd ht (Nat.not_lt_zero t)

theorem Scanned.taken {run start : Nat} (h : Scanned bm total count i run start) (hi : bm i = true) :
    Scanned bm total count (i + 1) 0 start where
  run_le := Nat.zero_le _
  short := Nat.lt_of_le_of_lt (Nat.zero_le _) h.short
  start_eq h0 := absurd rfl h0
  clear j hj hj' := absurd hj (by omega)
  before t ht := by
    rcases Nat.lt_or_ge i (t + count) with hlt | hle
    · intro hrun
      have hshort := h.short
      have hbit := hrun.2 i (by omega) hlt
      rw [hi] at hbit
      cases hbit
    · exact h.before t hle
  maximal t ht ht' hrun := by
    have hbit := hrun.2 i (by omega) (by omega)
    rw [hi] at hbit
    cases hbit

theorem Scanned.clear_bit {run start : Nat} (h : Scanned bm total count i run start)
    (hi : bm i = false) (hshort : ¬ count ≤ run + 1) :
    Scanned bm total count (i + 1) (run + 1) (if run = 0 then i else start) where
  run_le := Nat.succ_le_succ h.run_le
  short := Nat.lt_of_not_le hshort
  start_eq _ := by
    by_cases hr : run = 0
    · rw [if_pos hr]
      omega
    · rw [if_neg hr, h.start_eq hr]
      omega
  clear j hj hj' := by
    rcases Nat.lt_or_ge j i with hlt | hge
    · exact h.clear j (by omega) hlt
    · obtain rfl : j = i := by omega
      exact hi
  before t ht := by
    rcases Nat.lt_or_ge i (t + count) with hlt | hle
    · -- such a run would begin before the current one, which is shorter
      have := h.run_le
      exact h.maximal t (by omega) hlt
    · exact h.before t hle
  maximal t ht ht' := h.maximal t (by omega) (by omega)

/-- **The search finds the lowest run.** -/
theorem scanRun_spec : ∀ {left i run start : Nat}, i + left = total → Scanned bm total count i run start →
    (∃ s, LowestRun bm total count s ∧ scanRun bm count left i run start = some s) ∨
    ((∀ s, ¬ ClearRun bm total count s) ∧ scanRun bm count left i run start = none) := by
  intro left
  induction left with
  | zero =>
    intro i run start htotal h
    refine Or.inr ⟨fun s hs => ?_, rfl⟩
    exact h.before s (by have := hs.1; omega) hs
  | succ left ih =>
    intro i run start htotal h
    rcases hi : bm i with _ | _
    · by_cases hc : count ≤ run + 1
      · -- the run is long enough with this bit
        have hrun := h.run_le
        have hcount : count = run + 1 := by have := h.short; omega
        have hfirst : (if run = 0 then i else start) = i - run := by
          by_cases hr : run = 0
          · rw [if_pos hr, hr]
            rfl
          · rw [if_neg hr, h.start_eq hr]
        refine Or.inl ⟨i - run, ⟨⟨by omega, fun j hj hj' => ?_⟩, fun t ht hrun' => ?_⟩, ?_⟩
        · rcases Nat.lt_or_ge j i with hlt | hge
          · exact h.clear j hj hlt
          · obtain rfl : j = i := by omega
            exact hi
        · rcases Nat.lt_or_ge i (t + count) with hlt | hle
          · exact h.maximal t ht hlt hrun'
          · exact h.before t hle hrun'
        · simp only [scanRun, hi, Bool.false_eq_true, if_false, if_pos hc, hfirst]
      · simp only [scanRun, hi, Bool.false_eq_true, if_false, if_neg hc]
        exact ih (by omega) (h.clear_bit hi hc)
    · simp only [scanRun, hi, if_true]
      exact ih (by omega) (h.taken hi)

theorem scanRun_taken : ∀ {n : Nat}, 0 < n → ∀ (left run start i : Nat), (∀ j, j < n → bm (i + j) = true) →
    scanRun bm count left i run start = scanRun bm count (left - n) (i + n) 0 start := by
  intro n hn
  induction n with
  | zero => exact absurd hn (Nat.lt_irrefl 0)
  | succ n ih =>
    intro left run start i h
    cases left with
    | zero => simp only [Nat.zero_sub, scanRun]
    | succ left =>
      have hi : bm i = true := h 0 (Nat.succ_pos n)
      rw [Nat.succ_sub_succ]
      simp only [scanRun, hi, if_true]
      rcases Nat.eq_zero_or_pos n with rfl | hn'
      · rfl
      · have hrest := ih hn' left 0 start (i + 1) fun j hj => by
          rw [Nat.add_assoc, Nat.add_comm 1 j]
          exact h (j + 1) (Nat.succ_lt_succ hj)
        rw [hrest, Nat.add_assoc, Nat.add_comm 1 n]

theorem clearRun_congr {used : Nat → Bool} (h : ∀ i, i < total → used i = bm i) (s : Nat) :
    ClearRun used total count s ↔ ClearRun bm total count s := by
  unfold ClearRun
  refine and_congr_right fun hle => forall_congr' fun j => ?_
  refine imp_congr_right fun _ => imp_congr_right fun hj => ?_
  rw [h j (Nat.lt_of_lt_of_le hj hle)]

theorem lowestRun_congr {used : Nat → Bool} (h : ∀ i, i < total → used i = bm i) (s : Nat) :
    LowestRun used total count s ↔ LowestRun bm total count s := by
  unfold LowestRun
  simp only [clearRun_congr h]

/-! ## Ranges of bits -/

/-- The bits from `s` to `s + n - 1` set to `b`. -/
def fill (bm : Nat → Bool) (s n : Nat) (b : Bool) : Nat → Bool := fun i =>
  if s ≤ i ∧ i < s + n then b else bm i

theorem fill_of_mem {n : Nat} {b : Bool} (h : s ≤ i ∧ i < s + n) : fill bm s n b i = b := if_pos h

theorem fill_of_not_mem {n : Nat} {b : Bool} (h : ¬(s ≤ i ∧ i < s + n)) : fill bm s n b i = bm i :=
  if_neg h

@[simp] theorem fill_zero (bm : Nat → Bool) (s : Nat) (b : Bool) : fill bm s 0 b = bm := by
  funext i
  exact fill_of_not_mem (by omega)

theorem fill_succ (bm : Nat → Bool) (s n : Nat) (b : Bool) :
    fill bm s (n + 1) b = Function.update (fill bm s n b) (s + n) b := by
  funext i
  by_cases hi : i = s + n
  · subst hi
    rw [Function.update_self, fill_of_mem (by omega)]
  · rw [Function.update_of_ne hi]
    simp only [fill]
    by_cases h : s ≤ i ∧ i < s + n
    · rw [if_pos h, if_pos (by omega)]
    · rw [if_neg h, if_neg (by omega)]

theorem countBelow_fill_true {n : Nat} (h : ClearRun bm total n s) :
    countBelow total (fill bm s n true) = countBelow total bm + n := by
  induction n with
  | zero => simp
  | succ n ih =>
    obtain ⟨hle, hclear⟩ := h
    have hprev := ih ⟨by omega, fun j hj hj' => hclear j hj (by omega)⟩
    have hbit : fill bm s n true (s + n) = false := by
      rw [fill_of_not_mem (by omega)]
      exact hclear _ (by omega) (by omega)
    have hcount := countBelow_update (fill bm s n true) (show s + n < total by omega) true
    rw [fill_succ]
    rw [hbit] at hcount
    simp only [Bool.toNat_false, Bool.toNat_true] at hcount
    omega

theorem countBelow_fill_false {n : Nat} (hle : s + n ≤ total) (h : ∀ j, s ≤ j → j < s + n → bm j = true) :
    countBelow total (fill bm s n false) + n = countBelow total bm := by
  induction n with
  | zero => simp
  | succ n ih =>
    have hprev := ih (by omega) fun j hj hj' => h j hj (by omega)
    have hbit : fill bm s n false (s + n) = true := by
      rw [fill_of_not_mem (by omega)]
      exact h _ (by omega) (by omega)
    have hcount := countBelow_update (fill bm s n false) (show s + n < total by omega) false
    rw [fill_succ]
    rw [hbit] at hcount
    simp only [Bool.toNat_false, Bool.toNat_true] at hcount
    omega

end Chicago95.Lib.Bitmap
