/-
# Chicago95.Lib.Cells — lines of text in arrays of fixed size, and the loops that edit them in place.

An array is a function of the index; each access is checked against the size of the array, and `none` is an access
outside it. `slideUp` makes room in a line and `slideDown` closes a gap, one element after the other. Their spec lemmas
say what every cell holds afterwards; `Holds` says that an array starts with a line, and how that changes when a piece is
put in (`Holds.insert`) or taken out (`Holds.remove`).
-/
import Chicago95.Lib.Loop
import Mathlib.Logic.Function.Basic

namespace Chicago95.Lib.Cells

open Chicago95.Lib.Loop

variable {α : Type*}

/-- Element `i` of an array of `size` elements. -/
def get (size : Nat) (a : Nat → α) (i : Nat) : Option α := if i < size then some (a i) else none

/-- `a[i] = x` -/
def put (size : Nat) (a : Nat → α) (i : Nat) (x : α) : Option (Nat → α) :=
  if i < size then some (Function.update a i x) else none

/-- `for (i = lo + n; i > lo; i--) a[i - 1 + d] = a[i - 1]` -/
def slideUp (size : Nat) (a : Nat → α) (lo n d : Nat) : Option (Nat → α) :=
  forEachM n (fun k a => (get size a (lo + (n - 1 - k))).bind fun x => put size a (lo + (n - 1 - k) + d) x) a

/-- `for (i = lo; i < lo + n; i++) a[i] = a[i + d]` -/
def slideDown (size : Nat) (a : Nat → α) (lo n d : Nat) : Option (Nat → α) :=
  forEachM n (fun k a => (get size a (lo + k + d)).bind fun x => put size a (lo + k) x) a

/-- `for (i = 0; i < n; i++) a[dst + i] = b[src + i]`, from one array into another. -/
def copy (sizeA sizeB : Nat) (a : Nat → α) (dst : Nat) (b : Nat → α) (src n : Nat) : Option (Nat → α) :=
  forEachM n (fun k a => (get sizeB b (src + k)).bind fun x => put sizeA a (dst + k) x) a

theorem get_of_lt {size : Nat} {a : Nat → α} {i : Nat} (h : i < size) : get size a i = some (a i) := if_pos h

theorem put_of_lt {size : Nat} {a : Nat → α} {i : Nat} (h : i < size) (x : α) :
    put size a i x = some (Function.update a i x) := if_pos h

/-! ## What the loops leave -/

theorem slideUp_spec {size : Nat} {a : Nat → α} {lo n d : Nat} (h : lo + n + d ≤ size) :
    ∃ b, slideUp size a lo n d = some b ∧ ∀ i, b i = if lo + d ≤ i ∧ i < lo + n + d then a (i - d) else a i := by
  -- after `k` passes the last `k` elements have been moved
  let sliding (k : Nat) (b : Nat → α) : Prop :=
    ∀ i, b i = if lo + (n - k) + d ≤ i ∧ i < lo + n + d then a (i - d) else a i
  obtain ⟨b, hrun, hb⟩ : ∃ b, slideUp size a lo n d = some b ∧ sliding n b := forEachM_induction (P := sliding)
    (fun i => (if_neg (by omega)).symm) (fun k b hk hb => by
      have hsrc : b (lo + (n - 1 - k)) = a (lo + (n - 1 - k)) := by
        rw [hb]
        exact if_neg (by omega)
      rw [get_of_lt (by omega), Option.bind_some, put_of_lt (by omega)]
      refine ⟨_, rfl, fun i => ?_⟩
      rw [Function.update_apply, hsrc, hb i]
      by_cases hi : i = lo + (n - 1 - k) + d
      · rw [if_pos hi, if_pos (by omega), hi, Nat.add_sub_cancel]
      · rw [if_neg hi]
        by_cases hin : lo + (n - k) + d ≤ i ∧ i < lo + n + d
        · rw [if_pos hin, if_pos (by omega)]
        · rw [if_neg hin, if_neg (by omega)])
  refine ⟨b, hrun, fun i => ?_⟩
  rw [hb i, Nat.sub_self, Nat.add_zero]

theorem slideDown_spec {size : Nat} {a : Nat → α} {lo n d : Nat} (h : lo + n + d ≤ size) :
    ∃ b, slideDown size a lo n d = some b ∧ ∀ i, b i = if lo ≤ i ∧ i < lo + n then a (i + d) else a i :=
  forEachM_induction (n := n) (s := a)
    (P := fun k (b : Nat → α) => ∀ i, b i = if lo ≤ i ∧ i < lo + k then a (i + d) else a i)
    (fun i => (if_neg (by omega)).symm) (fun k b hk hb => by
      have hsrc : b (lo + k + d) = a (lo + k + d) := by
        rw [hb]
        exact if_neg (by omega)
      rw [get_of_lt (by omega), Option.bind_some, put_of_lt (by omega)]
      refine ⟨_, rfl, fun i => ?_⟩
      rw [Function.update_apply, hsrc, hb i]
      by_cases hi : i = lo + k
      · rw [if_pos hi, if_pos (by omega), hi]
      · rw [if_neg hi]
        by_cases hin : lo ≤ i ∧ i < lo + k
        · rw [if_pos hin, if_pos (by omega)]
        · rw [if_neg hin, if_neg (by omega)])

theorem copy_spec {sizeA sizeB : Nat} {a b : Nat → α} {dst src n : Nat} (ha : dst + n ≤ sizeA) (hb : src + n ≤ sizeB) :
    ∃ c, copy sizeA sizeB a dst b src n = some c ∧
      ∀ i, c i = if dst ≤ i ∧ i < dst + n then b (src + (i - dst)) else a i :=
  forEachM_induction (n := n) (s := a)
    (P := fun k (c : Nat → α) => ∀ i, c i = if dst ≤ i ∧ i < dst + k then b (src + (i - dst)) else a i)
    (fun i => (if_neg (by omega)).symm) (fun k c hk hc => by
      rw [get_of_lt (by omega), Option.bind_some, put_of_lt (by omega)]
      refine ⟨_, rfl, fun i => ?_⟩
      rw [Function.update_apply, hc i]
      by_cases hi : i = dst + k
      · rw [if_pos hi, if_pos (by omega), hi, Nat.add_sub_cancel_left]
      · rw [if_neg hi]
        by_cases hin : dst ≤ i ∧ i < dst + k
        · rw [if_pos hin, if_pos (by omega)]
        · rw [if_neg hin, if_neg (by omega)])

/-! ## Lines -/

/-- An array that starts with a line. -/
def Holds (a : Nat → α) (w : List α) : Prop := ∀ i x, w[i]? = some x → a i = x

theorem Holds.left {a : Nat → α} {v w : List α} (h : Holds a (v ++ w)) : Holds a v := fun i x hx =>
  h i x (by rw [List.getElem?_append_left (List.getElem?_eq_some_iff.mp hx).1, hx])

theorem Holds.right {a : Nat → α} {v w : List α} (h : Holds a (v ++ w)) : Holds (fun i => a (v.length + i)) w :=
  fun i x hx => h _ x (by rw [List.getElem?_append_right (Nat.le_add_right _ _), Nat.add_sub_cancel_left, hx])

theorem Holds.append {a : Nat → α} {v w : List α} (hv : Holds a v) (hw : Holds (fun i => a (v.length + i)) w) :
    Holds a (v ++ w) := by
  intro i x hx
  rw [List.getElem?_append] at hx
  split at hx
  · exact hv i x hx
  · rename_i hi
    have hat : a (v.length + (i - v.length)) = x := hw _ x hx
    rwa [Nat.add_sub_cancel' (Nat.not_lt.mp hi)] at hat

theorem Holds.congr {a b : Nat → α} {w : List α} (h : Holds a w) (hab : ∀ i < w.length, b i = a i) : Holds b w :=
  fun i x hx => (hab i (List.getElem?_eq_some_iff.mp hx).1).trans (h i x hx)

theorem Holds.map_range {a : Nat → α} {w : List α} (h : Holds a w) : (List.range w.length).map a = w := by
  refine List.ext_getElem (by rw [List.length_map, List.length_range]) fun i hi hw => ?_
  rw [List.getElem_map, List.getElem_range]
  exact h i _ (List.getElem?_eq_getElem hw)

theorem holds_nil (a : Nat → α) : Holds a [] := fun i x hx => by
  rw [List.getElem?_nil] at hx
  cases hx

theorem holds_singleton {a : Nat → α} {x : α} (h : a 0 = x) : Holds a [x] := by
  rintro (_ | i) y hy
  · exact h.trans (Option.some.inj hy)
  · cases hy

theorem Holds.insert {a b : Nat → α} {v piece w : List α} (h : Holds a (v ++ w))
    (hbefore : ∀ i < v.length, b i = a i) (hpiece : Holds (fun i => b (v.length + i)) piece)
    (hafter : ∀ i < w.length, b (v.length + piece.length + i) = a (v.length + i)) : Holds b (v ++ piece ++ w) := by
  refine ((h.left.congr hbefore).append hpiece).append (h.right.congr fun i hi => ?_)
  rw [List.length_append]
  exact hafter i hi

theorem Holds.remove {a b : Nat → α} {v piece w : List α} (h : Holds a (v ++ piece ++ w))
    (hbefore : ∀ i < v.length, b i = a i)
    (hafter : ∀ i < w.length, b (v.length + i) = a (v.length + piece.length + i)) : Holds b (v ++ w) := by
  refine (h.left.left.congr hbefore).append (h.right.congr fun i hi => ?_)
  rw [List.length_append]
  exact hafter i hi

theorem insertOne_spec {size m : Nat} {a : Nat → α} {v w : List α} (h : Holds a (v ++ w)) (hm : w.length ≤ m)
    (hsize : v.length + m + 1 ≤ size) (x : α) :
    ∃ b, ((slideUp size a v.length m 1).bind fun b => put size b v.length x) = some b ∧ Holds b (v ++ [x] ++ w) := by
  obtain ⟨b, hslide, hb⟩ := slideUp_spec (a := a) hsize
  rw [hslide, Option.bind_some, put_of_lt (by omega)]
  refine ⟨_, rfl, h.insert (fun i hi => ?_) (holds_singleton (Function.update_self _ _ _)) fun i hi => ?_⟩
  · rw [Function.update_of_ne (Nat.ne_of_lt hi), hb, if_neg (by omega)]
  · rw [List.length_singleton, Function.update_of_ne (by omega), hb, if_pos (by omega)]
    exact congrArg a (by omega)

theorem removePiece_spec {size m : Nat} {a : Nat → α} {v piece w : List α} (h : Holds a (v ++ piece ++ w))
    (hm : w.length ≤ m) (hsize : v.length + m + piece.length ≤ size) :
    ∃ b, slideDown size a v.length m piece.length = some b ∧ Holds b (v ++ w) := by
  obtain ⟨b, hslide, hb⟩ := slideDown_spec (a := a) hsize
  refine ⟨b, hslide, h.remove (fun i hi => ?_) fun i hi => ?_⟩
  · rw [hb, if_neg (by omega)]
  · rw [hb, if_pos (by omega)]
    exact congrArg a (by omega)

end Chicago95.Lib.Cells
