/-
# Chicago95.Lib.Ring — a queue in a circle of cells, one of them kept free.

`Holds M tail head cell q` says that the queue `q` lies in the cells from `tail` on, counted round a
circle of `M`, and that `head` is the cell after its last element. Because one cell stays free, `tail` and
`head` alone tell how many elements there are: the queue is empty when they meet, and full when `head` is
right behind `tail`.
-/
import Mathlib.Data.Nat.ModEq
import Mathlib.Tactic.Common

namespace Chicago95.Lib.Ring

variable {β : Type*} {M tail head : Nat} {cell : Nat → β} {q : List β}

/-- The queue `q` lies in the cells from `tail` to before `head`. -/
structure Holds (M tail head : Nat) (cell : Nat → β) (q : List β) : Prop where
  tail_lt : tail < M
  head_eq : head = (tail + q.length) % M
  room : q.length < M
  cells : ∀ i (hi : i < q.length), cell ((tail + i) % M) = q[i]

theorem wrap_eq {a b : Nat} (ha : a < M) (hb : b ≤ M) : (a + b) % M = if a + b < M then a + b else a + b - M := by
  by_cases hlt : a + b < M
  · rw [if_pos hlt, Nat.mod_eq_of_lt hlt]
  · rw [if_neg hlt, Nat.mod_eq_sub_mod (by omega), Nat.mod_eq_of_lt (by omega)]

theorem Holds.nil (h : tail < M) (cell : Nat → β) : Holds M tail tail cell [] :=
  ⟨h, (Nat.mod_eq_of_lt h).symm, Nat.lt_of_le_of_lt (Nat.zero_le _) h, fun i hi => absurd hi (Nat.not_lt_zero i)⟩

theorem Holds.head_lt (h : Holds M tail head cell q) : head < M := by
  rw [h.head_eq]
  exact Nat.mod_lt _ (Nat.lt_of_le_of_lt (Nat.zero_le _) h.tail_lt)

theorem Holds.head_cases (h : Holds M tail head cell q) :
    head = if tail + q.length < M then tail + q.length else tail + q.length - M :=
  h.head_eq.trans (wrap_eq h.tail_lt h.room.le)

theorem Holds.empty_iff (h : Holds M tail head cell q) : tail = head ↔ q.length = 0 := by
  have hhead := h.head_cases
  have htail := h.tail_lt
  have hroom := h.room
  split at hhead <;> omega

theorem Holds.full_iff (h : Holds M tail head cell q) : (head + 1) % M = tail ↔ q.length + 1 = M := by
  have hhead := h.head_cases
  have htail := h.tail_lt
  have hroom := h.room
  rw [wrap_eq h.head_lt (by omega)]
  split at hhead <;> split <;> omega

theorem Holds.count (h : Holds M tail head cell q) : (head + (M - tail)) % M = q.length := by
  have hhead := h.head_cases
  have htail := h.tail_lt
  have hroom := h.room
  rw [wrap_eq h.head_lt (by omega)]
  split at hhead <;> split <;> omega

theorem Holds.ne_head (h : Holds M tail head cell q) {i : Nat} (hi : i < q.length) : (tail + i) % M ≠ head := by
  have hhead := h.head_cases
  have htail := h.tail_lt
  have hroom := h.room
  rw [wrap_eq h.tail_lt (by omega)]
  split at hhead <;> split <;> omega

theorem Holds.push (h : Holds M tail head cell q) {cell' : Nat → β} {x : β} (hroom : q.length + 1 < M)
    (hold : ∀ i, i < q.length → cell' ((tail + i) % M) = cell ((tail + i) % M))
    (hnew : cell' head = x) : Holds M tail ((head + 1) % M) cell' (q ++ [x]) := by
  refine ⟨h.tail_lt, ?_, by simpa using hroom, fun i hi => ?_⟩
  · rw [h.head_eq, Nat.mod_add_mod, List.length_append, List.length_singleton, Nat.add_assoc]
  · rw [List.length_append, List.length_singleton] at hi
    by_cases hlt : i < q.length
    · rw [List.getElem_append_left hlt, ← h.cells i hlt]
      exact hold i hlt
    · obtain rfl : i = q.length := by omega
      rw [← h.head_eq, hnew]
      simp

theorem Holds.pop {x : β} (h : Holds M tail head cell (x :: q)) :
    cell tail = x ∧ Holds M ((tail + 1) % M) head cell q := by
  have hpos : 0 < M := Nat.lt_of_le_of_lt (Nat.zero_le _) h.tail_lt
  have hroom := h.room
  rw [List.length_cons] at hroom
  constructor
  · have h0 := h.cells 0 (by simp)
    rwa [Nat.add_zero, Nat.mod_eq_of_lt h.tail_lt] at h0
  · refine ⟨Nat.mod_lt _ hpos, ?_, by omega, fun i hi => ?_⟩
    · rw [Nat.mod_add_mod, Nat.add_right_comm, Nat.add_assoc]
      exact h.head_eq
    · have hi' := h.cells (i + 1) (by simpa using hi)
      rw [Nat.mod_add_mod, Nat.add_assoc, Nat.add_comm 1 i, hi', List.getElem_cons_succ]

end Chicago95.Lib.Ring
