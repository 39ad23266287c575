/-
# Chicago95.Lib.Layers — a partial memory, filled layer by layer.

A layer says of each cell whether it covers it, and of a cell it covers whether it has text for it. No cell it covers
stays without a value: one with text holds the text, another what it held before, or else the blank.
-/
import Mathlib.Data.List.Basic
import Mathlib.Data.Option.Basic

namespace Chicago95.Lib.Layers

variable {α β : Type*}

/-- `none` for a cell that is not covered, `some none` for one without text. -/
abbrev Layer (α β : Type*) := α → Option (Option β)

/-- The memory under a layer. -/
def Layer.on (f : Layer α β) (blank : β) (m : α → Option β) : α → Option β := fun a =>
  (f a).elim (m a) fun text => some (text.getD ((m a).getD blank))

/-- The memory under layers, the first put on first. -/
def lay (blank : β) : (α → Option β) → List (Layer α β) → α → Option β
  | m, [] => m
  | m, f :: l => lay blank (f.on blank m) l

section

variable {blank b : β} {m m' : α → Option β} {f : Layer α β} {l : List (Layer α β)} {a : α}

@[simp] theorem lay_nil : lay blank m [] = m := rfl

@[simp] theorem lay_cons : lay blank m (f :: l) = lay blank (f.on blank m) l := rfl

theorem on_of_off (h : f a = none) : f.on blank m a = m a := by
  rw [Layer.on, h]
  rfl

theorem on_of_blank (h : f a = some none) : f.on blank m a = some ((m a).getD blank) := by
  rw [Layer.on, h]
  rfl

theorem on_of_text (h : f a = some (some b)) : f.on blank m a = some b := by
  rw [Layer.on, h]
  rfl

theorem lay_congr (h : m a = m' a) : lay blank m l a = lay blank m' l a := by
  induction l generalizing m m' with
  | nil => exact h
  | cons f l ih =>
    rw [lay_cons, lay_cons]
    refine ih ?_
    unfold Layer.on
    rw [h]

theorem lay_of_off (h : ∀ f ∈ l, f a = none) : lay blank m l a = m a := by
  induction l generalizing m with
  | nil => rfl
  | cons f l ih =>
    rw [lay_cons, ih fun g hg => h g (List.mem_cons_of_mem f hg), on_of_off (h f List.mem_cons_self)]

theorem lay_of_eq (hm : m a = some b) (h : ∀ f ∈ l, ∀ c, f a = some (some c) → c = b) : lay blank m l a = some b := by
  induction l generalizing m with
  | nil => exact hm
  | cons f l ih =>
    rw [lay_cons]
    refine ih ?_ fun g hg => h g (List.mem_cons_of_mem f hg)
    rcases hf : f a with _ | _ | c
    · rw [on_of_off hf, hm]
    · rw [on_of_blank hf, hm]
      rfl
    · rw [on_of_text hf, h f List.mem_cons_self c hf]

/-- **A cell that some layer has text for** holds it, if they all have the same. -/
theorem lay_of_text (h : ∀ f ∈ l, ∀ c, f a = some (some c) → c = b) (htext : ∃ f ∈ l, f a = some (some b)) :
    lay blank m l a = some b := by
  induction l generalizing m with
  | nil =>
    obtain ⟨f, hf, -⟩ := htext
    exact absurd hf List.not_mem_nil
  | cons f l ih =>
    obtain ⟨g, hg, hga⟩ := htext
    have hrest : ∀ f ∈ l, ∀ c, f a = some (some c) → c = b := fun g hg => h g (List.mem_cons_of_mem f hg)
    rcases List.mem_cons.mp hg with rfl | hg
    · rw [lay_cons]
      exact lay_of_eq (on_of_text hga) hrest
    · exact ih hrest ⟨g, hg, hga⟩

/-- **A cell that is covered and has no text** keeps what it holds, or is blank. -/
theorem lay_of_covered (h : ∀ f ∈ l, ∀ c, f a ≠ some (some c)) (hcovered : ∃ f ∈ l, f a ≠ none) :
    lay blank m l a = some ((m a).getD blank) := by
  induction l generalizing m with
  | nil =>
    obtain ⟨f, hf, -⟩ := hcovered
    exact absurd hf List.not_mem_nil
  | cons f l ih =>
    have hrest : ∀ f ∈ l, ∀ c, f a ≠ some (some c) := fun g hg => h g (List.mem_cons_of_mem f hg)
    rcases hf : f a with _ | _ | c
    · obtain ⟨g, hg, hga⟩ := hcovered
      rcases List.mem_cons.mp hg with rfl | hg
      · exact absurd hf hga
      · rw [lay_cons, ih hrest ⟨g, hg, hga⟩, on_of_off hf]
    · rw [lay_cons]
      exact lay_of_eq (on_of_blank hf) fun g hg c hc => absurd hc (hrest g hg c)
    · exact absurd hf (h f List.mem_cons_self c)

end

end Chicago95.Lib.Layers
