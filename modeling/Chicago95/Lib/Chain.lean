/-
# Chicago95.Lib.Chain — chains of indices linked by a successor table.

A table keeps a list of indices by storing at each one the next; `0` ends the list. `follow` walks the
table from an index, `Visits next l` says that the table links `l` in order and ends it. The two are the
same (`visits_iff_follow`), so a walk can be specified by `Visits` and proved about with its small lemmas:
only the entries of `l` matter (`Visits.congr`), and writing two entries lengthens a chain by one
(`Visits.snoc`).
-/
import Mathlib.Data.List.Basic
import Mathlib.Data.List.Nodup
import Mathlib.Tactic.Common

namespace Chicago95.Lib.Chain

variable {next next' : Nat → Nat}

/-- The walk from `c`, at most `fuel` indices of it. -/
def follow (next : Nat → Nat) : Nat → Nat → List Nat
  | 0, _ => []
  | fuel + 1, c => if c = 0 then [] else c :: follow next fuel (next c)

/-- The table links `l` in order, and nothing after it. -/
def Visits (next : Nat → Nat) : List Nat → Prop
  | [] => True
  | [c] => next c = 0
  | c :: d :: rest => next c = d ∧ Visits next (d :: rest)

theorem Visits.tail {c : Nat} {l : List Nat} (h : Visits next (c :: l)) : Visits next l := by
  cases l with
  | nil => trivial
  | cons d rest => exact h.2

theorem Visits.next_eq {l : List Nat} (h : Visits next l) {i c : Nat} (hi : l[i]? = some c) :
    next c = (l[i + 1]?).getD 0 := by
  induction l generalizing i with
  | nil => cases hi
  | cons a rest ih =>
    cases i with
    | zero =>
      obtain rfl : a = c := by simpa using hi
      cases rest with
      | nil => exact h
      | cons d rest => exact h.1
    | succ i => exact ih h.tail (by simpa using hi)

theorem Visits.follow_eq : ∀ {l : List Nat}, Visits next l → (∀ c ∈ l, c ≠ 0) →
    ∀ {fuel : Nat}, l.length ≤ fuel → follow next fuel (l.headD 0) = l := by
  intro l
  induction l with
  | nil =>
    intro _ _ fuel _
    cases fuel with
    | zero => rfl
    | succ fuel => rfl
  | cons c rest ih =>
    intro h hne fuel hfuel
    cases fuel with
    | zero => simp at hfuel
    | succ fuel =>
      have hc : c ≠ 0 := hne c List.mem_cons_self
      have hnext : next c = rest.headD 0 := by
        cases rest with
        | nil => exact h
        | cons d rest => exact h.1
      have hrest := ih h.tail (fun d hd => hne d (List.mem_cons_of_mem _ hd))
        (Nat.le_of_succ_le_succ hfuel)
      show (if c = 0 then [] else c :: follow next fuel (next c)) = c :: rest
      rw [if_neg hc, hnext, hrest]

theorem visits_of_follow : ∀ {l : List Nat}, (∀ c ∈ l, c ≠ 0) →
    (∀ fuel, l.length ≤ fuel → follow next fuel (l.headD 0) = l) → Visits next l := by
  intro l
  induction l with
  | nil => intro _ _; trivial
  | cons c rest ih =>
    intro hne h
    have hc : c ≠ 0 := hne c List.mem_cons_self
    have htail : ∀ fuel, rest.length ≤ fuel → follow next fuel (next c) = rest := fun fuel hf => by
      have hcons := h (fuel + 1) (Nat.succ_le_succ hf)
      change (if c = 0 then [] else c :: follow next fuel (next c)) = c :: rest at hcons
      rw [if_neg hc] at hcons
      exact (List.cons.inj hcons).2
    -- with fuel to spare the walk shows where it goes on
    have hstep := htail (rest.length + 1) (Nat.le_succ _)
    unfold follow at hstep
    cases rest with
    | nil =>
      by_cases h0 : next c = 0
      · exact h0
      · rw [if_neg h0] at hstep
        cases hstep
    | cons d rest =>
      by_cases h0 : next c = 0
      · rw [if_pos h0] at hstep
        cases hstep
      · rw [if_neg h0] at hstep
        have hd : next c = d := (List.cons.inj hstep).1
        refine ⟨hd, ih (fun e he => hne e (List.mem_cons_of_mem _ he)) fun fuel hf => ?_⟩
        have hwalk := htail fuel hf
        rw [hd] at hwalk
        exact hwalk

/-- **Walking and linking agree.** -/
theorem visits_iff_follow {l : List Nat} (hne : ∀ c ∈ l, c ≠ 0) :
    Visits next l ↔ ∀ fuel, l.length ≤ fuel → follow next fuel (l.headD 0) = l :=
  ⟨fun h _ hf => h.follow_eq hne hf, visits_of_follow hne⟩

theorem Visits.congr {l : List Nat} (h : Visits next l) (heq : ∀ c ∈ l, next' c = next c) : Visits next' l := by
  induction l with
  | nil => trivial
  | cons c rest ih =>
    have hrest := ih h.tail fun d hd => heq d (List.mem_cons_of_mem _ hd)
    cases rest with
    | nil => exact (heq c List.mem_cons_self).trans h
    | cons d rest => exact ⟨(heq c List.mem_cons_self).trans h.1, hrest⟩

/-- **One more element**: the old end now leads to the new one, which ends the chain. -/
theorem Visits.snoc {l : List Nat} {last c : Nat} (h : Visits next (l ++ [last]))
    (heq : ∀ d ∈ l, next' d = next d) (hlast : next' last = c) (hc : next' c = 0) :
    Visits next' (l ++ [last] ++ [c]) := by
  induction l with
  | nil => exact ⟨hlast, hc⟩
  | cons a rest ih =>
    have hrest := ih h.tail fun d hd => heq d (List.mem_cons_of_mem _ hd)
    have ha : next' a = next a := heq a List.mem_cons_self
    cases rest with
    | nil => exact ⟨ha.trans h.1, hrest⟩
    | cons d rest => exact ⟨ha.trans h.1, hrest⟩

theorem Visits.of_snoc {l : List Nat} {last c : Nat} (h : Visits next (l ++ [last] ++ [c])) :
    next last = c ∧ next c = 0 := by
  induction l with
  | nil => exact h
  | cons a rest ih => exact ih h.tail

end Chicago95.Lib.Chain
