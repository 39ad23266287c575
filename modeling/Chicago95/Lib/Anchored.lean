/-
# Chicago95.Lib.Anchored — what a sequence of languages and anchors matches inside a text.

A pattern is a list of steps: a language, or an anchor that holds at the start or at the end of the text only. `Reads`
says which word of a text, between what stands before and behind it, a pattern takes; `Starts` where in a text such a
word begins.
-/
import Mathlib.Computability.Language
import Mathlib.Data.List.Forall2

namespace Chicago95.Lib.Anchored

open Computability

variable {α : Type*}

/-! ## Languages of one step -/

/-- The words of one letter of `A`. -/
def letters (A : Set α) : Language α := {w | ∃ c ∈ A, w = [c]}

@[simp] theorem mem_letters {A : Set α} {w : List α} : w ∈ letters A ↔ ∃ c ∈ A, w = [c] := Iff.rfl

/-- A language that has a word has one of at most one letter. -/
def Short (L : Language α) : Prop := ∀ w ∈ L, [] ∈ L ∨ ∃ c, [c] ∈ L

theorem short_letters (A : Set α) : Short (letters A) := by
  rintro w ⟨c, hc, rfl⟩
  exact .inr ⟨c, c, hc, rfl⟩

theorem short_of_nil_mem {L : Language α} (h : [] ∈ L) : Short L := fun _ _ => .inl h

theorem Short.mul_kstar {L : Language α} (h : Short L) : Short (L * L∗) := by
  rintro w ⟨u, hu, v, _, rfl⟩
  rcases h u hu with hnil | ⟨c, hc⟩
  · exact .inl ⟨[], hnil, [], Language.nil_mem_kstar L, rfl⟩
  · exact .inr ⟨c, [c], hc, [], Language.nil_mem_kstar L, rfl⟩

/-! ## Patterns -/

/-- A language to take a word of, or an anchor. -/
inductive Step (α : Type*)
  | start
  | stop
  | word (L : Language α)

/-- A pattern takes the word between `before` and `after`. -/
def Reads : List (Step α) → List α → List α → List α → Prop
  | [], _, w, _ => w = []
  | .start :: ps, before, w, after => before = [] ∧ Reads ps before w after
  | .stop :: ps, before, w, after => w ++ after = [] ∧ Reads ps before w after
  | .word L :: ps, before, w, after => ∃ u v, w = u ++ v ∧ u ∈ L ∧ Reads ps (before ++ u) v after

/-- Where in a text a word of the pattern begins. -/
def Starts (ps : List (Step α)) (text : List α) : Set Nat :=
  {i | ∃ before w after, text = before ++ w ++ after ∧ before.length = i ∧ Reads ps before w after}

theorem le_length_of_mem_starts {ps : List (Step α)} {text : List α} {i : Nat} (h : i ∈ Starts ps text) :
    i ≤ text.length := by
  obtain ⟨before, w, after, rfl, rfl, _⟩ := h
  simp only [List.length_append]
  omega

/-- Some text has a word of the pattern. -/
def Satisfiable (ps : List (Step α)) : Prop := ∃ before w after, Reads ps before w after

theorem satisfiable_of_mem_starts {ps : List (Step α)} {text : List α} {i : Nat} (h : i ∈ Starts ps text) :
    Satisfiable ps := by
  obtain ⟨before, w, after, _, _, h⟩ := h
  exact ⟨before, w, after, h⟩

/-! ## Short words -/

open Classical in
/-- The languages without the empty word. -/
noncomputable def demand : List (Step α) → Nat
  | [] => 0
  | .word L :: ps => (if [] ∈ L then 0 else 1) + demand ps
  | _ :: ps => demand ps

theorem Reads.short {ps : List (Step α)} (hps : ∀ L, .word L ∈ ps → Short L) {before w after : List α}
    (h : Reads ps before w after) {before' : List α} (hb : before = [] → before' = []) :
    ∃ w', w'.length = demand ps ∧ w'.length ≤ w.length ∧ Reads ps before' w' [] := by
  induction ps generalizing before before' w with
  | nil => exact ⟨[], rfl, Nat.zero_le _, rfl⟩
  | cons p ps ih =>
    have ih' := @ih fun L hL => hps L (.tail _ hL)
    cases p with
    | start =>
      obtain ⟨rfl, h⟩ := h
      obtain ⟨w', hd, hle, hr⟩ := ih' h hb
      exact ⟨w', hd, hle, hb rfl, hr⟩
    | stop =>
      obtain ⟨hend, h⟩ := h
      obtain ⟨w', hd, hle, hr⟩ := ih' h hb
      obtain ⟨rfl, -⟩ := List.append_eq_nil_iff.1 hend
      obtain rfl : w' = [] := List.eq_nil_of_length_eq_zero (Nat.le_zero.1 hle)
      exact ⟨[], hd, hle, rfl, hr⟩
    | word L =>
      obtain ⟨u, v, rfl, hu, h⟩ := h
      by_cases hnil : [] ∈ L
      · have hb' : before ++ u = [] → before' = [] := fun he => hb (List.append_eq_nil_iff.1 he).1
        obtain ⟨w', hd, hle, hr⟩ := ih' h hb'
        refine ⟨w', by simp [demand, hnil, hd], by simp only [List.length_append]; omega, [], w', rfl, hnil, ?_⟩
        rwa [List.append_nil]
      · obtain ⟨c, hc⟩ := (hps L (.head _) u hu).resolve_left hnil
        have hune : u ≠ [] := fun he => hnil (he ▸ hu)
        have hb' : before ++ u = [] → before' ++ [c] = [] := fun he =>
          absurd (List.append_eq_nil_iff.1 he).2 hune
        obtain ⟨w', hd, hle, hr⟩ := ih' h hb'
        have hpos : 0 < u.length := List.length_pos_of_ne_nil hune
        refine ⟨c :: w', by simp [demand, hnil, hd, Nat.add_comm], ?_, [c], w', rfl, hc, hr⟩
        simp only [List.length_cons, List.length_append]
        omega

theorem Satisfiable.short {ps : List (Step α)} (hps : ∀ L, .word L ∈ ps → Short L) (h : Satisfiable ps) :
    ∃ w, w.length = demand ps ∧ Reads ps [] w [] := by
  obtain ⟨before, _, _, h⟩ := h
  have hb : before = [] → ([] : List α) = [] := fun _ => rfl
  obtain ⟨w, hd, _, hr⟩ := h.short hps hb
  exact ⟨w, hd, hr⟩

/-! ## Letters behind start anchors -/

/-- A pattern of `n` start anchors and one letter of each of `As`. -/
def lettersFrom (n : Nat) (As : List (Set α)) : List (Step α) :=
  List.replicate n .start ++ As.map fun A => .word (letters A)

theorem reads_letters {As : List (Set α)} {before w after : List α} :
    Reads (As.map fun A => .word (letters A)) before w after ↔ List.Forall₂ (fun A c => c ∈ A) As w := by
  induction As generalizing before w with
  | nil => exact ⟨fun h => h ▸ .nil, fun h => by cases h; rfl⟩
  | cons A As ih =>
    constructor
    · rintro ⟨u, v, rfl, ⟨c, hc, rfl⟩, h⟩
      exact .cons hc (ih.1 h)
    · rintro (_ | ⟨hc, h⟩)
      exact ⟨[_], _, rfl, ⟨_, hc, rfl⟩, ih.2 h⟩

theorem reads_lettersFrom {n : Nat} {As : List (Set α)} {before w after : List α} :
    Reads (lettersFrom n As) before w after ↔ (n ≠ 0 → before = []) ∧ List.Forall₂ (fun A c => c ∈ A) As w := by
  induction n with
  | zero => simpa [lettersFrom] using reads_letters
  | succ n ih =>
    have hcons : lettersFrom (n + 1) As = .start :: lettersFrom n As := by
      simp only [lettersFrom, List.replicate_succ, List.cons_append]
    rw [hcons]
    refine ⟨fun h => ⟨fun _ => h.1, (ih.1 h.2).2⟩, fun h => ⟨h.1 (by omega), ih.2 ⟨fun _ => h.1 (by omega), h.2⟩⟩⟩

theorem mem_starts_lettersFrom {n : Nat} {As : List (Set α)} {text : List α} {i : Nat} :
    i ∈ Starts (lettersFrom n As) text ↔ i ≤ text.length ∧ (n ≠ 0 → i = 0) ∧
      ∃ w after, text.drop i = w ++ after ∧ List.Forall₂ (fun A c => c ∈ A) As w := by
  constructor
  · rintro ⟨before, w, after, rfl, rfl, h⟩
    obtain ⟨hn, hw⟩ := reads_lettersFrom.1 h
    refine ⟨by simp only [List.length_append]; omega, fun h0 => by rw [hn h0]; rfl, w, after, ?_, hw⟩
    rw [List.append_assoc, List.drop_left]
  · rintro ⟨hi, hn, w, after, hdrop, hw⟩
    refine ⟨text.take i, w, after, ?_, List.length_take_of_le hi, reads_lettersFrom.2 ⟨fun h0 => ?_, hw⟩⟩
    · rw [List.append_assoc, ← hdrop, List.take_append_drop]
    · rw [hn h0, List.take_zero]

theorem nonempty_starts_lettersFrom {n : Nat} {As : List (Set α)} {text : List α} (hlen : text.length = As.length) :
    (Starts (lettersFrom n As) text).Nonempty ↔ List.Forall₂ (fun A c => c ∈ A) As text := by
  constructor
  · rintro ⟨i, hi⟩
    obtain ⟨hi, _, w, after, hdrop, hw⟩ := mem_starts_lettersFrom.1 hi
    have hsize := congrArg List.length hdrop
    simp only [List.length_drop, List.length_append] at hsize
    have hwlen := hw.length_eq
    obtain rfl : i = 0 := by omega
    obtain rfl : after = [] := List.eq_nil_of_length_eq_zero (by omega)
    rw [List.drop_zero, List.append_nil] at hdrop
    rwa [hdrop]
  · intro h
    exact ⟨0, mem_starts_lettersFrom.2 ⟨Nat.zero_le _, fun _ => rfl, text, [], by simp, h⟩⟩

theorem eq_of_forall₂_iff {As Bs : List (Set α)} (hlen : As.length = Bs.length) {w₀ : List α}
    (hw₀ : List.Forall₂ (fun A c => c ∈ A) As w₀) (h : ∀ w, w.length = As.length →
      (List.Forall₂ (fun A c => c ∈ A) As w ↔ List.Forall₂ (fun B c => c ∈ B) Bs w)) : As = Bs := by
  induction hw₀ generalizing Bs with
  | nil => exact (List.eq_nil_of_length_eq_zero hlen.symm).symm
  | @cons A c As w₀ hc hw₀ ih =>
    cases Bs with
    | nil => cases hlen
    | cons B Bs =>
      have hw₀len := hw₀.length_eq
      obtain ⟨hcB, hw₀B⟩ := List.forall₂_cons.1 ((h (c :: w₀) (by simp [hw₀len])).1 (.cons hc hw₀))
      congr 1
      · ext d
        have hd := h (d :: w₀) (by simp [hw₀len])
        simpa only [List.forall₂_cons, hw₀, hw₀B, and_true] using hd
      · refine ih (Nat.succ.inj hlen) fun w hw => ?_
        have hcw := h (c :: w) (by simp [hw])
        simpa only [List.forall₂_cons, hc, hcB, true_and] using hcw

end Chicago95.Lib.Anchored
