/-
# Chicago95.Lib.Extents — lists of address ranges, and replacing a stretch of one.

Items of any type with a first address `lo` and an end `hi`. A list *spans* `[a, z)` when its items lie
there end to end (`Spans`). Cutting an item in two, joining two neighbours, or changing what an item
says about itself all replace a stretch of a list by another one that spans the same range; the rules
here say that such a replacement keeps the items pairwise apart (`pairwise_replace`) and keeps
neighbours of one class contiguous (`contiguous_replace`).
-/
import Mathlib.Algebra.Ring.Nat
import Mathlib.Data.List.Chain
import Mathlib.Order.Interval.Finset.Nat
import Mathlib.Tactic.Common

namespace Chicago95.Lib.Extents

variable {α β : Type*}

/-! ## Chains -/

theorem isChain_replace {R : α → α → Prop} {pre l k post : List α}
    (h : List.IsChain R (pre ++ (l ++ post))) (hxs : l ≠ []) (hys : k ≠ []) (hin : List.IsChain R k)
    (hhead : ∀ p, ∀ x ∈ l.head?, ∀ y ∈ k.head?, R p x → R p y)
    (hlast : ∀ q, ∀ x ∈ l.getLast?, ∀ y ∈ k.getLast?, R x q → R y q) : List.IsChain R (pre ++ (k ++ post)) := by
  obtain ⟨x, l, rfl⟩ := List.exists_cons_of_ne_nil hxs
  obtain ⟨y, k, rfl⟩ := List.exists_cons_of_ne_nil hys
  rw [List.isChain_append, List.isChain_append] at h ⊢
  obtain ⟨hpre, ⟨_, hpost, hjoin⟩, hjoin'⟩ := h
  refine ⟨hpre, ⟨hin, hpost, fun y' hy' q hq => ?_⟩, fun p hp y' hy' => ?_⟩
  · have hx' := List.getLast?_eq_some_getLast (List.cons_ne_nil x l)
    exact hlast q _ hx' y' hy' (hjoin _ hx' q hq)
  · exact hhead p x rfl y' hy' (hjoin' p hp x rfl)

/-! ## Spans -/

variable (lo hi : α → Nat)

/-- Two ranges have no address in common. -/
def Apart (x y : α) : Prop := hi x ≤ lo y ∨ hi y ≤ lo x

instance : Std.Symm (Apart lo hi) := ⟨fun _ _ h => Or.symm h⟩

/-- The items lie end to end from `a` up to `z`. -/
def Spans : Nat → Nat → List α → Prop
  | a, z, [] => a = z
  | a, z, x :: l => lo x = a ∧ a < hi x ∧ Spans (hi x) z l

variable {lo hi}

theorem Spans.le : ∀ {l : List α} {a z : Nat}, Spans lo hi a z l → a ≤ z
  | [], _, _, h => Nat.le_of_eq h
  | _ :: _, _, _, ⟨_, hlt, h⟩ => Nat.le_of_lt (Nat.lt_of_lt_of_le hlt h.le)

theorem Spans.bounds {l : List α} : ∀ {a z : Nat}, Spans lo hi a z l → ∀ x ∈ l, a ≤ lo x ∧ hi x ≤ z := by
  induction l with
  | nil => intro _ _ _ x hx; cases hx
  | cons y k ih =>
    rintro a z ⟨hlo, hlt, h⟩ x hx
    rcases List.mem_cons.mp hx with rfl | hx
    · exact ⟨Nat.le_of_eq hlo.symm, h.le⟩
    · obtain ⟨h1, h2⟩ := ih h x hx
      exact ⟨by omega, h2⟩

theorem Spans.pairwise {l : List α} : ∀ {a z : Nat}, Spans lo hi a z l → l.Pairwise (Apart lo hi) := by
  induction l with
  | nil => intro _ _ _; exact .nil
  | cons y k ih =>
    rintro a z ⟨_, _, h⟩
    exact .cons (fun x hx => Or.inl (h.bounds x hx).1) (ih h)

theorem Spans.apart {y : α} (hy : lo y < hi y) {l : List α} :
    ∀ {a z : Nat}, l ≠ [] → Spans lo hi a z l → (∀ x ∈ l, Apart lo hi y x) → hi y ≤ a ∨ z ≤ lo y := by
  induction l with
  | nil => intro _ _ hne; exact absurd rfl hne
  | cons x l ih =>
    rintro a z _ ⟨hlo, hlt, h⟩ hap
    rcases hap x List.mem_cons_self with hle | hle
    · exact Or.inl (by omega)
    · rcases l with _ | ⟨x', l⟩
      · exact Or.inr (by rw [← (show hi x = z from h)]; exact hle)
      · rcases ih (List.cons_ne_nil x' l) h fun w hw => hap w (List.mem_cons_of_mem x hw) with
          hle' | hle'
        · omega
        · exact Or.inr hle'

theorem Spans.head {l : List α} {a z : Nat} (h : Spans lo hi a z l) {x : α} (hx : x ∈ l.head?) : lo x = a := by
  cases l with
  | nil => cases hx
  | cons y k =>
    obtain rfl : y = x := Option.some.inj hx
    exact h.1

theorem Spans.last {l : List α} : ∀ {a z : Nat}, Spans lo hi a z l → ∀ x ∈ l.getLast?, hi x = z := by
  induction l with
  | nil => intro _ _ _ x hx; cases hx
  | cons y k ih =>
    rintro a z ⟨_, _, h⟩ x hx
    rcases k with _ | ⟨y', k⟩
    · obtain rfl : y = x := by simpa using hx
      exact h
    · exact ih h x (by simpa using hx)

/-- **Replacing a stretch keeps the items apart.** -/
theorem pairwise_replace {pre l k post : List α} {a z : Nat}
    (h : (pre ++ (l ++ post)).Pairwise (Apart lo hi)) (hne : l ≠ []) (hxs : Spans lo hi a z l) (hys : Spans lo hi a z k)
    (hpos : ∀ y ∈ pre ++ post, lo y < hi y) : (pre ++ (k ++ post)).Pairwise (Apart lo hi) := by
  rw [List.pairwise_append, List.pairwise_append] at h ⊢
  obtain ⟨hpre, ⟨_, hpost, hxpost⟩, hprex⟩ := h
  refine ⟨hpre, ⟨hys.pairwise, hpost, fun y hy q hq => ?_⟩, fun p hp y hy => ?_⟩
  · obtain ⟨hy1, hy2⟩ := hys.bounds y hy
    rcases hxs.apart (hpos q (List.mem_append_right _ hq)) hne
      (fun x hx => (hxpost x hx q hq).symm) with hle | hle
    · exact Or.inr (by omega)
    · exact Or.inl (by omega)
  · rcases List.mem_append.mp hy with hy | hy
    · obtain ⟨hy1, hy2⟩ := hys.bounds y hy
      rcases hxs.apart (hpos p (List.mem_append_left _ hp)) hne
        (fun x hx => hprex p hp x (List.mem_append_left _ hx)) with hle | hle
      · exact Or.inl (by omega)
      · exact Or.inr (by omega)
    · exact hprex p hp y (List.mem_append_right _ hy)

variable (lo hi) in
/-- Neighbours of one class lie end to end. -/
def Contiguous (cls : α → β) : List α → Prop :=
  List.IsChain fun x y => cls x = cls y → hi x = lo y

theorem Spans.contiguous {cls : α → β} {l : List α} : ∀ {a z : Nat}, Spans lo hi a z l → Contiguous lo hi cls l := by
  induction l with
  | nil => intro _ _ _; exact .nil
  | cons x l ih =>
    rintro a z ⟨_, _, h⟩
    cases l with
    | nil => exact .singleton x
    | cons y k => exact .cons_cons (fun _ => h.1.symm) (ih h)

/-- **Replacing a stretch keeps neighbours contiguous.** -/
theorem contiguous_replace {cls : α → β} {r : β} {pre l k post : List α} {a z : Nat}
    (h : Contiguous lo hi cls (pre ++ (l ++ post))) (hxs : l ≠ []) (hys : k ≠ [])
    (hsx : Spans lo hi a z l) (hsy : Spans lo hi a z k) (hcx : ∀ x ∈ l, cls x = r) (hcy : ∀ y ∈ k, cls y = r) :
    Contiguous lo hi cls (pre ++ (k ++ post)) := by
  refine isChain_replace h hxs hys hsy.contiguous ?_ ?_
  · intro p x hx y hy hpx hcls
    rw [hsy.head hy, ← hsx.head hx]
    refine hpx (hcls.trans ?_)
    rw [hcy y (List.mem_of_mem_head? hy), hcx x (List.mem_of_mem_head? hx)]
  · intro q x hx y hy hxq hcls
    rw [hsy.last y hy, ← hsx.last x hx]
    refine hxq (Eq.trans ?_ hcls)
    rw [hcy y (List.mem_of_getLast? hy), hcx x (List.mem_of_getLast? hx)]

/-! ## Lengths -/

theorem exists_covered {l : List α} (h : l.Pairwise (Apart lo hi)) :
    ∃ S : Finset Nat, (∀ w, w ∈ S ↔ ∃ x ∈ l, lo x ≤ w ∧ w < hi x) ∧ S.card = (l.map fun x => hi x - lo x).sum := by
  induction l with
  | nil => exact ⟨∅, by simp, rfl⟩
  | cons x l ih =>
    obtain ⟨hx, hl⟩ := List.pairwise_cons.mp h
    obtain ⟨S, hS, hcard⟩ := ih hl
    have hdisj : Disjoint (Finset.Ico (lo x) (hi x)) S := by
      refine Finset.disjoint_left.mpr fun w hw hwS => ?_
      obtain ⟨h1, h2⟩ := Finset.mem_Ico.mp hw
      obtain ⟨y, hy, h3, h4⟩ := (hS w).mp hwS
      rcases hx y hy with hle | hle <;> omega
    refine ⟨Finset.Ico (lo x) (hi x) ∪ S, fun w => ?_, ?_⟩
    · simp only [Finset.mem_union, Finset.mem_Ico, hS, List.mem_cons, exists_eq_or_imp]
    · rw [Finset.card_union_of_disjoint hdisj, Nat.card_Ico, hcard, List.map_cons, List.sum_cons]

/-- **Apart items inside a range** are together no longer than it. -/
theorem sum_length_le {l : List α} {a z : Nat} (h : l.Pairwise (Apart lo hi))
    (hin : ∀ x ∈ l, a ≤ lo x ∧ hi x ≤ z) : (l.map fun x => hi x - lo x).sum ≤ z - a := by
  obtain ⟨S, hS, hcard⟩ := exists_covered h
  rw [← hcard, ← Nat.card_Ico]
  refine Finset.card_le_card fun w hw => ?_
  obtain ⟨x, hx, h1, h2⟩ := (hS w).mp hw
  obtain ⟨h3, h4⟩ := hin x hx
  exact Finset.mem_Ico.mpr ⟨by omega, by omega⟩

end Chicago95.Lib.Extents
