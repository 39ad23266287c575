/-
# Chicago95.Lib.Feistel — a Feistel network over any mixing of halves.

A round swaps the halves and mixes one of them with a function of the other. Whatever the functions of the rounds are,
a mixing that loses nothing makes a network that loses nothing (`rounds_injective`); what is closed under the mixing
holds of both halves at the end (`rounds_closed`). A mixing that undoes itself makes a network that the same rounds undo,
the last one first (`roundsBack_rounds`, `rounds_roundsBack`).
-/
import Chicago95.Lib.Loop

namespace Chicago95.Lib.Feistel

open Chicago95.Lib.Loop

variable {α : Type*} (mix : α → α → α) (F : Nat → α → α)

/-- `n` rounds on the two halves. -/
def rounds (n : Nat) : α × α → α × α := forEach n fun i half => (half.2, mix half.1 (F i half.2))

variable {mix F}

theorem rounds_injective (hmix : ∀ b, Function.Injective fun a => mix a b) (n : Nat) :
    Function.Injective (rounds mix F n) := by
  apply forEach_injective
  rintro i _ ⟨a, b⟩ ⟨a', b'⟩ heq
  obtain ⟨hright, hleft⟩ := Prod.mk.inj heq
  change b = b' at hright
  subst hright
  exact Prod.ext (hmix _ hleft) rfl

theorem rounds_closed {P : α → Prop} (hmix : ∀ i a b, P a → P b → P (mix a (F i b))) {n : Nat} {half : α × α}
    (hleft : P half.1) (hright : P half.2) : P (rounds mix F n half).1 ∧ P (rounds mix F n half).2 := by
  apply forEach_preserves (P := fun half : α × α => P half.1 ∧ P half.2) ⟨hleft, hright⟩
  rintro i ⟨a, b⟩ _ ⟨ha, hb⟩
  exact ⟨hb, hmix i a b ha hb⟩

/-- `n` rounds undone. -/
def roundsBack (mix : α → α → α) (F : Nat → α → α) : Nat → α × α → α × α
  | 0, half => half
  | n + 1, half => roundsBack mix F n (mix half.2 (F n half.1), half.1)

theorem rounds_succ (n : Nat) (half : α × α) : rounds mix F (n + 1) half =
      ((rounds mix F n half).2, mix (rounds mix F n half).1 (F n (rounds mix F n half).2)) :=
  forEach_succ n _ half

theorem roundsBack_rounds (hmix : ∀ a b, mix (mix a b) b = a) (n : Nat) (half : α × α) :
    roundsBack mix F n (rounds mix F n half) = half := by
  induction n with
  | zero => rfl
  | succ n ih =>
    rw [rounds_succ, roundsBack, hmix]
    exact ih

theorem rounds_roundsBack (hmix : ∀ a b, mix (mix a b) b = a) (n : Nat) (half : α × α) :
    rounds mix F n (roundsBack mix F n half) = half := by
  induction n generalizing half with
  | zero => rfl
  | succ n ih =>
    rw [roundsBack, rounds_succ, ih, hmix]

end Chicago95.Lib.Feistel
