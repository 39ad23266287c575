/-
# Chicago95.Lib.Absorb — functions that take a stream block by block.

An element that comes in is put into a buffer of `size` places; when the buffer is full, `process` takes
it into the chaining value, and the next element goes to its beginning again. What is left of a stream in
the buffer, and what of it has been processed, does not depend on how the stream was cut:

* `absorb_flatten` — pieces one after the other are absorbed like the whole;
* `absorb_map` — what a function of the chaining value goes through, when `process` respects it;
* `absorb_blocks` — the rule for what each processed block changes;
* `absorb_agree`, `absorb_untouched` — which places of the buffer the stream determines;
* `chain_absorb`, `getElem_absorb` — the chaining value is `process` over the whole `blocks` of the stream,
  and what is left of it is in the buffer.
-/
import Mathlib.Data.List.Induction
import Mathlib.Tactic.Common

namespace Chicago95.Lib.Absorb

variable {σ τ α : Type*} {size : Nat}

/-- The chaining value, the buffer, and how many of its places are filled. -/
structure Absorber (σ α : Type*) (size : Nat) where
  chain : σ
  buffer : Vector α size
  fill : Nat

/-- Another chaining value. -/
def Absorber.map (f : σ → τ) (s : Absorber σ α size) : Absorber τ α size :=
  { chain := f s.chain, buffer := s.buffer, fill := s.fill }

/-- One element. -/
def push (process : σ → Vector α size → σ) (s : Absorber σ α size) (x : α) : Absorber σ α size :=
  let buffer := s.buffer.setIfInBounds s.fill x
  if s.fill + 1 = size then { chain := process s.chain buffer, buffer := buffer, fill := 0 }
  else { chain := s.chain, buffer := buffer, fill := s.fill + 1 }

/-- A piece of the stream. -/
def absorb (process : σ → Vector α size → σ) (s : Absorber σ α size) (xs : List α) : Absorber σ α size :=
  xs.foldl (push process) s

variable {process : σ → Vector α size → σ} {s t : Absorber σ α size}

@[simp] theorem absorb_nil : absorb process s [] = s := rfl

theorem absorb_append (xs ys : List α) : absorb process s (xs ++ ys) = absorb process (absorb process s xs) ys :=
  List.foldl_append

theorem absorb_concat (xs : List α) (x : α) : absorb process s (xs ++ [x]) = push process (absorb process s xs) x :=
  absorb_append xs [x]

/-- **The cut does not matter.** -/
theorem absorb_flatten (pieces : List (List α)) :
    pieces.foldl (absorb process) s = absorb process s pieces.flatten := by
  induction pieces generalizing s with
  | nil => rfl
  | cons xs pieces ih => rw [List.foldl_cons, ih, List.flatten_cons, absorb_append]

theorem absorb_map {process' : τ → Vector α size → τ} {f : σ → τ}
    (h : ∀ c b, f (process c b) = process' (f c) b) (xs : List α) :
    (absorb process s xs).map f = absorb process' (s.map f) xs := by
  induction xs using List.reverseRecOn with
  | nil => rfl
  | append_singleton xs x ih =>
    rw [absorb_concat, absorb_concat, ← ih]
    unfold push Absorber.map
    dsimp only
    split
    · rw [h]
    · rfl

theorem fill_absorb (hsize : 0 < size) (hfill : s.fill < size) (xs : List α) :
    (absorb process s xs).fill = (s.fill + xs.length) % size := by
  induction xs using List.reverseRecOn with
  | nil => exact (Nat.mod_eq_of_lt hfill).symm
  | append_singleton xs x ih =>
    have hlt := Nat.mod_lt (s.fill + xs.length) hsize
    rw [absorb_concat, List.length_append, List.length_singleton, ← Nat.add_assoc, Nat.add_mod, ← ih]
    rw [← ih] at hlt
    unfold push
    dsimp only
    split
    · rename_i hfull
      -- blocks of one element are full at once
      rcases Nat.lt_or_ge 1 size with h1 | h1
      · rw [Nat.mod_eq_of_lt h1, hfull, Nat.mod_self]
      · have : size = 1 := by omega
        subst this
        exact (Nat.mod_one _).symm
    · rw [Nat.mod_eq_of_lt (show 1 < size by omega), Nat.mod_eq_of_lt (by omega)]

/-- **What each processed block changes.** -/
theorem absorb_blocks {P : Nat → σ → Prop} (hsize : 0 < size) (hfill : s.fill < size)
    (h0 : P 0 s.chain) (hstep : ∀ k c b, P k c → P (k + 1) (process c b)) (xs : List α) :
    P ((s.fill + xs.length) / size) (absorb process s xs).chain := by
  induction xs using List.reverseRecOn with
  | nil =>
    rw [absorb_nil, List.length_nil, Nat.add_zero, Nat.div_eq_of_lt hfill]
    exact h0
  | append_singleton xs x ih =>
    have hmod : (absorb process s xs).fill = (s.fill + xs.length) % size := fill_absorb hsize hfill xs
    have hdiv := Nat.div_add_mod (s.fill + xs.length) size
    rw [absorb_concat, List.length_append, List.length_singleton, ← Nat.add_assoc]
    unfold push
    dsimp only
    split
    · rename_i hfull
      -- the element that fills the buffer makes one block more
      have hnext : (s.fill + xs.length + 1) / size = (s.fill + xs.length) / size + 1 := by
        have : s.fill + xs.length + 1 = size * ((s.fill + xs.length) / size + 1) := by
          rw [Nat.mul_add]
          omega
        rw [this, Nat.mul_div_cancel_left _ hsize]
      rw [hnext]
      exact hstep _ _ _ ih
    · rename_i hfull
      have hlt := Nat.mod_lt (s.fill + xs.length) hsize
      have hsame : (s.fill + xs.length + 1) / size = (s.fill + xs.length) / size := by
        have : s.fill + xs.length + 1 =
            size * ((s.fill + xs.length) / size) + ((s.fill + xs.length) % size + 1) := by omega
        rw [this, Nat.mul_add_div hsize,
          Nat.div_eq_of_lt (show (s.fill + xs.length) % size + 1 < size by omega), Nat.add_zero]
      rw [hsame]
      exact ih

/-- **The stream determines** the chaining value and the places it has come to, whatever the buffer held
before. -/
theorem absorb_agree (hsize : 0 < size) (hchain : s.chain = t.chain) (hs : s.fill = 0) (ht : t.fill = 0) (xs : List α) :
    (absorb process s xs).chain = (absorb process t xs).chain ∧ ∀ i (hi : i < size), i < xs.length →
        (absorb process s xs).buffer[i] = (absorb process t xs).buffer[i] := by
  induction xs using List.reverseRecOn with
  | nil => exact ⟨hchain, fun i _ hlt => absurd hlt (Nat.not_lt_zero i)⟩
  | append_singleton xs x ih =>
    obtain ⟨hc, hb⟩ := ih
    have hfs : (absorb process s xs).fill = (s.fill + xs.length) % size := fill_absorb hsize (hs ▸ hsize) xs
    have hft : (absorb process t xs).fill = (t.fill + xs.length) % size := fill_absorb hsize (ht ▸ hsize) xs
    rw [hs, Nat.zero_add] at hfs
    rw [ht, Nat.zero_add] at hft
    -- both write the same place
    have hset : ∀ i (hi : i < size), i < xs.length + 1 →
        ((absorb process s xs).buffer.setIfInBounds (xs.length % size) x)[i] =
          ((absorb process t xs).buffer.setIfInBounds (xs.length % size) x)[i] := by
      intro i hi hlt
      rw [Vector.getElem_setIfInBounds, Vector.getElem_setIfInBounds]
      split
      · rfl
      · rename_i hne
        -- place `xs.length` has just been written
        refine hb i hi ?_
        by_contra hge
        have : i = xs.length := by omega
        exact hne (by rw [← this, Nat.mod_eq_of_lt hi])
    rw [absorb_concat, absorb_concat, List.length_append, List.length_singleton]
    unfold push
    dsimp only
    rw [hfs, hft]
    split
    · rename_i hfull
      have hmod := Nat.mod_le xs.length size
      have heq : (absorb process s xs).buffer.setIfInBounds (xs.length % size) x =
          (absorb process t xs).buffer.setIfInBounds (xs.length % size) x :=
        Vector.ext fun i hi => hset i hi (by omega)
      exact ⟨by rw [hc, heq], fun i hi _ => by rw [heq]⟩
    · exact ⟨hc, hset⟩

theorem absorb_untouched (hsize : 0 < size) (hs : s.fill = 0) (xs : List α) :
    ∀ i (hi : i < size), xs.length ≤ i → (absorb process s xs).buffer[i] = s.buffer[i] := by
  induction xs using List.reverseRecOn with
  | nil => exact fun i _ _ => rfl
  | append_singleton xs x ih =>
    intro i hi hle
    rw [List.length_append, List.length_singleton] at hle
    have hf : (absorb process s xs).fill = (s.fill + xs.length) % size := fill_absorb hsize (hs ▸ hsize) xs
    rw [hs, Nat.zero_add, Nat.mod_eq_of_lt (by omega)] at hf
    have hset : ((absorb process s xs).buffer.setIfInBounds xs.length x)[i] = s.buffer[i] := by
      rw [Vector.getElem_setIfInBounds, if_neg (by omega)]
      exact ih i hi (by omega)
    rw [absorb_concat]
    unfold push
    dsimp only
    rw [hf]
    split
    · exact hset
    · exact hset

/-! ## The blocks of a stream -/

section Blocks

variable [Inhabited α]

/-- The block from place `n` on. -/
def blockAt (size : Nat) (xs : List α) (n : Nat) : Vector α size := Vector.ofFn fun j => xs.getD (n + j) default

/-- The whole blocks of a stream. -/
def blocks (size : Nat) (xs : List α) : List (Vector α size) :=
  (List.range (xs.length / size)).map fun k => blockAt size xs (size * k)

@[simp] theorem getElem_blockAt (xs : List α) (n j : Nat) (hj : j < size) :
    (blockAt size xs n)[j] = xs.getD (n + j) default := by
  unfold blockAt
  rw [Vector.getElem_ofFn]

@[simp] theorem blocks_nil (size : Nat) : blocks size ([] : List α) = [] := by
  unfold blocks
  rw [List.length_nil, Nat.zero_div]
  rfl

theorem map_blockAt_append (xs ys : List α) {n : Nat} (hn : size * n ≤ xs.length) :
    ((List.range n).map fun k => blockAt size (xs ++ ys) (size * k)) =
      (List.range n).map fun k => blockAt size xs (size * k) := by
  refine List.map_congr_left fun k hk => Vector.ext fun j hj => ?_
  have hle := Nat.mul_le_mul_left size (List.mem_range.mp hk)
  rw [Nat.mul_succ] at hle
  rw [getElem_blockAt, getElem_blockAt, List.getD_eq_getElem?_getD, List.getD_eq_getElem?_getD,
    List.getElem?_append_left (by omega)]

/-- **Where a stream is cut**: its whole blocks, and those that begin behind them. -/
theorem blocks_append (hsize : 0 < size) (xs ys : List α) : blocks size (xs ++ ys) = blocks size xs ++
      (List.range ((xs.length % size + ys.length) / size)).map fun k =>
        blockAt size (xs ++ ys) (size * (xs.length / size + k)) := by
  have hlen : (xs ++ ys).length / size = xs.length / size + (xs.length % size + ys.length) / size := by
    have hdiv := Nat.div_add_mod xs.length size
    rw [List.length_append, show xs.length + ys.length =
      size * (xs.length / size) + (xs.length % size + ys.length) by omega, Nat.mul_add_div hsize]
  unfold blocks
  rw [hlen, List.range_add, List.map_append, map_blockAt_append xs ys (Nat.mul_div_le _ _), List.map_map]
  rfl

/-- **What is left of the stream** is in the buffer. -/
theorem getElem_absorb (hsize : 0 < size) (hs : s.fill = 0) (xs : List α) : ∀ i (hi : i < size), i < xs.length % size →
      (absorb process s xs).buffer[i] = xs.getD (size * (xs.length / size) + i) default := by
  induction xs using List.reverseRecOn with
  | nil => exact fun i _ hlt => absurd hlt (by simp)
  | append_singleton xs x ih =>
    intro i hi hlt
    have hfill : (absorb process s xs).fill = (s.fill + xs.length) % size := fill_absorb hsize (hs ▸ hsize) xs
    have hdiv := Nat.div_add_mod xs.length size
    have hmod := Nat.mod_lt xs.length hsize
    rw [hs, Nat.zero_add] at hfill
    rw [List.length_append, List.length_singleton] at hlt ⊢
    -- the buffer was not full, or nothing would be left
    have hroom : xs.length % size + 1 < size := by
      by_contra hfull
      have hwhole : (xs.length + 1) % size = 0 := by
        rw [show xs.length + 1 = size * (xs.length / size + 1) by rw [Nat.mul_succ]; omega]
        exact Nat.mul_mod_right _ _
      omega
    have hnext : (xs.length + 1) / size = xs.length / size := by
      rw [show xs.length + 1 = size * (xs.length / size) + (xs.length % size + 1) by omega,
        Nat.mul_add_div hsize, Nat.div_eq_of_lt hroom, Nat.add_zero]
    have hrest : (xs.length + 1) % size = xs.length % size + 1 := by
      rw [show xs.length + 1 = size * (xs.length / size) + (xs.length % size + 1) by omega,
        Nat.mul_add_mod, Nat.mod_eq_of_lt hroom]
    rw [absorb_concat, hnext]
    unfold push
    dsimp only
    rw [hfill, if_neg (by omega), List.getD_eq_getElem?_getD]
    dsimp only
    rw [Vector.getElem_setIfInBounds]
    split
    · rename_i heq
      rw [List.getElem?_append_right (by omega),
        show size * (xs.length / size) + i - xs.length = 0 by omega]
      rfl
    · rename_i hne
      rw [ih i hi (by omega), List.getElem?_append_left (by omega), List.getD_eq_getElem?_getD]

/-- **The chaining value** is that of the whole blocks. -/
theorem chain_absorb (hsize : 0 < size) (hs : s.fill = 0) (xs : List α) :
    (absorb process s xs).chain = (blocks size xs).foldl process s.chain := by
  induction xs using List.reverseRecOn with
  | nil => rw [absorb_nil, blocks_nil, List.foldl_nil]
  | append_singleton xs x ih =>
    have hfill : (absorb process s xs).fill = (s.fill + xs.length) % size := fill_absorb hsize (hs ▸ hsize) xs
    have hdiv := Nat.div_add_mod xs.length size
    have hmod := Nat.mod_lt xs.length hsize
    rw [hs, Nat.zero_add] at hfill
    rw [absorb_concat, blocks_append hsize, List.length_singleton, List.foldl_append, ← ih]
    unfold push
    dsimp only
    rw [hfill]
    split
    · rename_i hfull
      -- the element that fills the buffer makes a block of it
      rw [hfull, Nat.div_self hsize, List.range_one, List.map_singleton, List.foldl_cons, List.foldl_nil,
        Nat.add_zero]
      refine congrArg (process _) ?_
      refine Vector.ext fun i hi => ?_
      rw [Vector.getElem_setIfInBounds, getElem_blockAt, List.getD_eq_getElem?_getD]
      split
      · rename_i heq
        rw [List.getElem?_append_right (by omega),
          show size * (xs.length / size) + i - xs.length = 0 by omega]
        rfl
      · rename_i hne
        rw [getElem_absorb hsize hs xs i hi (by omega), List.getElem?_append_left (by omega),
          List.getD_eq_getElem?_getD]
    · rename_i hroom
      rw [Nat.div_eq_of_lt (show xs.length % size + 1 < size by omega)]
      rfl

end Blocks

end Chicago95.Lib.Absorb
