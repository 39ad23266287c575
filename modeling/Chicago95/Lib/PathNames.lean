/-
# Chicago95.Lib.PathNames — what a path comes to: its names, with the current and the parent directory taken out.

A path is cut at its separators. A component that is empty or a dot leaves the names read so far, two dots take the last
of them away, and any other component is one more (`push`). The absolute path of a list of names cuts into these names
again (`splitOn_absolute`), so it has no dots and no separator after another. `foldUntil` reads a list until what has been
read meets a condition; it says nothing about a list whose beginnings never do.
-/
import Mathlib.Data.List.Infix

namespace Chicago95.Lib.PathNames

/-! ## Reading until -/

section Until

variable {σ β : Type*} (f : σ → β → σ) (stop : σ → Bool)

/-- What a list has come to when it first meets `stop`. -/
def foldUntil : σ → List β → Option σ
  | s, [] => if stop s then some s else none
  | s, b :: bs => if stop s then some s else foldUntil (f s b) bs

variable {f stop}

theorem foldUntil_of_stop {s : σ} (h : stop s = true) (bs : List β) : foldUntil f stop s bs = some s := by
  cases bs <;> exact if_pos h

theorem foldUntil_cons {s : σ} (h : stop s = false) (b : β) (bs : List β) :
    foldUntil f stop s (b :: bs) = foldUntil f stop (f s b) bs := if_neg (by rw [h]; exact Bool.false_ne_true)

theorem foldUntil_nil_eq_none {s : σ} (h : stop s = false) : foldUntil f stop s [] = none :=
  if_neg (by rw [h]; exact Bool.false_ne_true)

theorem foldUntil_cons_self {s : σ} {b : β} (h : f s b = s) (bs : List β) :
    foldUntil f stop s (b :: bs) = foldUntil f stop s bs := by
  by_cases hs : stop s = true
  · rw [foldUntil_of_stop hs, foldUntil_of_stop hs]
  · rw [foldUntil_cons (Bool.not_eq_true _ ▸ hs), h]

theorem foldUntil_eq_some_iff {s t : σ} {bs : List β} : foldUntil f stop s bs = some t ↔
      ∃ k, t = (bs.take k).foldl f s ∧ stop t = true ∧ ∀ j < k, stop ((bs.take j).foldl f s) = false := by
  induction bs generalizing s with
  | nil =>
    rw [foldUntil]
    simp only [List.take_nil, List.foldl_nil]
    constructor
    · intro h
      split at h
      · rename_i hs
        cases h
        exact ⟨0, rfl, hs, fun j hj => absurd hj (Nat.not_lt_zero j)⟩
      · cases h
    · rintro ⟨-, rfl, hs, -⟩
      exact if_pos hs
  | cons b bs ih =>
    by_cases hs : stop s = true
    · rw [foldUntil_of_stop hs]
      constructor
      · intro h
        cases h
        exact ⟨0, rfl, hs, fun j hj => absurd hj (Nat.not_lt_zero j)⟩
      · rintro ⟨k, rfl, -, hfirst⟩
        cases k with
        | zero => rfl
        | succ k => exact absurd (hs.symm.trans (hfirst 0 (Nat.succ_pos k))) (by decide)
    · have hgo : stop s = false := Bool.not_eq_true _ ▸ hs
      rw [foldUntil_cons hgo, ih]
      constructor
      · rintro ⟨k, ht, hstop, hfirst⟩
        refine ⟨k + 1, ht, hstop, fun j hj => ?_⟩
        cases j with
        | zero => exact hgo
        | succ j => exact hfirst j (Nat.lt_of_succ_lt_succ hj)
      · rintro ⟨k, ht, hstop, hfirst⟩
        cases k with
        | zero =>
          rw [ht] at hstop
          exact absurd hstop hs
        | succ k => exact ⟨k, ht, hstop, fun j hj => hfirst (j + 1) (Nat.succ_lt_succ hj)⟩

end Until

variable {α : Type*} [DecidableEq α] (sep dot : α)

/-! ## Names -/

/-- One more component. -/
def push (stack : List (List α)) (c : List α) : List (List α) :=
  if c = [] ∨ c = [dot] then stack
  else if c = [dot, dot] then stack.dropLast
  else stack ++ [c]

/-- The names that a list of components comes to. -/
def namesOf (cs : List (List α)) : List (List α) := cs.foldl (push dot) []

def names (path : List α) : List (List α) := namesOf dot (path.splitOn sep)

/-- The path from the root through a list of names. -/
def absolute (ns : List (List α)) : List α := if ns = [] then [sep] else ns.flatMap fun n => sep :: n

/-- A component that stays in a path. -/
structure IsName (n : List α) : Prop where
  ne_nil : n ≠ []
  ne_dot : n ≠ [dot]
  ne_dots : n ≠ [dot, dot]
  single : sep ∉ n

variable {sep dot}

theorem push_nil (stack : List (List α)) : push dot stack [] = stack := if_pos (Or.inl rfl)

theorem IsName.push {n : List α} (h : IsName sep dot n) (stack : List (List α)) : push dot stack n = stack ++ [n] := by
  rw [PathNames.push, if_neg (fun hor => hor.elim h.ne_nil h.ne_dot), if_neg h.ne_dots]

theorem push_isName {stack : List (List α)} {c : List α} (hstack : ∀ n ∈ stack, IsName sep dot n) (hc : sep ∉ c) :
    ∀ n ∈ push dot stack c, IsName sep dot n := by
  rw [push]
  split
  · exact hstack
  · rename_i hskip
    rw [not_or] at hskip
    split
    · exact fun n hn => hstack n (List.mem_of_mem_dropLast hn)
    · rename_i hdots
      intro m hm
      rcases List.mem_append.mp hm with hm | hm
      · exact hstack m hm
      · rw [List.mem_singleton.mp hm]
        exact ⟨hskip.1, hskip.2, hdots, hc⟩

theorem foldl_push_forall {p : List α → Prop} {cs stack : List (List α)} (hstack : ∀ n ∈ stack, p n) (hcs : ∀ c ∈ cs, p c) :
    ∀ n ∈ cs.foldl (push dot) stack, p n := by
  induction cs generalizing stack with
  | nil => exact hstack
  | cons c cs ih =>
    refine ih (fun n hn => ?_) fun c' hc' => hcs c' (List.mem_cons_of_mem c hc')
    rw [push] at hn
    split at hn
    · exact hstack n hn
    · split at hn
      · exact hstack n (List.mem_of_mem_dropLast hn)
      · rcases List.mem_append.mp hn with hn | hn
        · exact hstack n hn
        · exact List.mem_singleton.mp hn ▸ hcs c List.mem_cons_self

theorem foldl_push_isName {cs stack : List (List α)} (hstack : ∀ n ∈ stack, IsName sep dot n) (hcs : ∀ c ∈ cs, sep ∉ c) :
    ∀ n ∈ cs.foldl (push dot) stack, IsName sep dot n := by
  induction cs generalizing stack with
  | nil => exact hstack
  | cons c cs ih =>
    exact ih (push_isName hstack (hcs c List.mem_cons_self)) fun c' hc' => hcs c' (List.mem_cons_of_mem c hc')

theorem foldl_push_length_le (cs stack : List (List α)) : (cs.foldl (push dot) stack).length ≤ stack.length + cs.length := by
  induction cs generalizing stack with
  | nil => exact Nat.le_refl _
  | cons c cs ih =>
    have hpush : (push dot stack c).length ≤ stack.length + 1 := by
      rw [push]
      split
      · exact Nat.le_succ _
      · split
        · rw [List.length_dropLast]
          omega
        · exact Nat.le_of_eq List.length_append
    have hrest := ih (push dot stack c)
    rw [List.foldl_cons, List.length_cons]
    omega

theorem of_mem_splitOn {path c : List α} (h : c ∈ path.splitOn sep) : sep ∉ c ∧ c ⊆ path := by
  induction path generalizing c with
  | nil =>
    rw [List.splitOn_nil, List.mem_singleton] at h
    rw [h]
    exact ⟨List.not_mem_nil, List.nil_subset _⟩
  | cons x xs ih =>
    rw [List.splitOn_cons_eq_if_modifyHead] at h
    obtain ⟨v, vs, hsplit⟩ := List.exists_cons_of_ne_nil (List.splitOn_ne_nil sep xs)
    split at h
    · rcases List.mem_cons.mp h with rfl | hc
      · exact ⟨List.not_mem_nil, List.nil_subset _⟩
      · exact ⟨(ih hc).1, List.subset_cons_of_subset x (ih hc).2⟩
    · rename_i hx
      rw [hsplit, List.modifyHead_cons] at h
      rcases List.mem_cons.mp h with rfl | hc
      · have hv : v ∈ xs.splitOn sep := by
          rw [hsplit]
          exact List.mem_cons_self
        refine ⟨fun hmem => ?_, List.cons_subset_cons x (ih hv).2⟩
        rcases List.mem_cons.mp hmem with heq | hmem
        · exact hx (beq_iff_eq.mpr heq.symm)
        · exact (ih hv).1 hmem
      · have hxs := ih (hsplit ▸ List.mem_cons_of_mem v hc)
        exact ⟨hxs.1, List.subset_cons_of_subset x hxs.2⟩

theorem names_isName (path : List α) : ∀ n ∈ names sep dot path, IsName sep dot n :=
  foldl_push_isName (fun _ hn => absurd hn List.not_mem_nil) fun _ hc => (of_mem_splitOn hc).1

theorem foldl_push_names {ns : List (List α)} (h : ∀ n ∈ ns, IsName sep dot n) (stack : List (List α)) :
    ns.foldl (push dot) stack = stack ++ ns := by
  induction ns generalizing stack with
  | nil => exact (List.append_nil stack).symm
  | cons n ns ih =>
    rw [List.foldl_cons, (h n List.mem_cons_self).push, ih fun m hm => h m (List.mem_cons_of_mem n hm), List.append_assoc]
    rfl

/-! ## Absolute paths -/

theorem flatMap_splitOn {ns : List (List α)} (h : ∀ n ∈ ns, sep ∉ n) :
    (ns.flatMap fun n => sep :: n).splitOn sep = [] :: ns := by
  induction ns with
  | nil => exact List.splitOn_nil sep
  | cons n ns ih =>
    have hrest := ih fun m hm => h m (List.mem_cons_of_mem n hm)
    rw [List.flatMap_cons, List.cons_append, List.splitOn_cons_eq_if_modifyHead, if_pos (beq_self_eq_true sep)]
    cases ns with
    | nil => rw [List.flatMap_nil, List.append_nil, List.splitOn_eq_singleton (h n List.mem_cons_self)]
    | cons m ms =>
      rw [List.flatMap_cons, List.cons_append, List.splitOn_append_cons_self_of_not_mem (h n List.mem_cons_self)]
      rw [List.flatMap_cons, List.cons_append, List.splitOn_cons_eq_if_modifyHead,
        if_pos (beq_self_eq_true sep)] at hrest
      rw [(List.cons.inj hrest).2]

theorem splitOn_absolute {ns : List (List α)} (hne : ns ≠ []) (h : ∀ n ∈ ns, sep ∉ n) :
    (absolute sep ns).splitOn sep = [] :: ns := by
  rw [absolute, if_neg hne]
  exact flatMap_splitOn h

theorem absolute_single {ns : List (List α)} (h : ∀ n ∈ ns, IsName sep dot n) : ¬[sep, sep] <:+: absolute sep ns := by
  rintro ⟨u, v, huv⟩
  by_cases hne : ns = []
  · rw [absolute, if_pos hne] at huv
    have hlength := congrArg List.length huv
    simp only [List.length_append, List.length_cons, List.length_nil] at hlength
    omega
  · have hcut := splitOn_absolute hne fun n hn => (h n hn).single
    obtain ⟨w, ws, hu⟩ := List.exists_cons_of_ne_nil (List.splitOn_ne_nil sep u)
    have htwo : u ++ [sep, sep] ++ v = u ++ sep :: sep :: v := by rw [List.append_assoc]; rfl
    rw [← huv, htwo, List.splitOn_append_cons_self, hu, List.splitOn_cons_eq_if_modifyHead,
      if_pos (beq_self_eq_true sep), List.cons_append] at hcut
    have hmem : [] ∈ ns := by
      rw [← (List.cons.inj hcut).2]
      exact List.mem_append_right ws List.mem_cons_self
    exact (h [] hmem).ne_nil rfl

theorem absolute_noDots {ns : List (List α)} (h : ∀ n ∈ ns, IsName sep dot n) :
    ∀ c ∈ (absolute sep ns).splitOn sep, c ≠ [dot] ∧ c ≠ [dot, dot] := by
  intro c hc
  by_cases hne : ns = []
  · rw [absolute, if_pos hne, List.splitOn_cons_eq_if_modifyHead, if_pos (beq_self_eq_true sep), List.splitOn_nil] at hc
    have hempty : c = [] := by simpa using hc
    rw [hempty]
    exact ⟨(List.cons_ne_nil _ _).symm, (List.cons_ne_nil _ _).symm⟩
  · rw [splitOn_absolute hne fun n hn => (h n hn).single] at hc
    rcases List.mem_cons.mp hc with rfl | hc
    · exact ⟨(List.cons_ne_nil _ _).symm, (List.cons_ne_nil _ _).symm⟩
    · exact ⟨(h c hc).ne_dot, (h c hc).ne_dots⟩

/-- The components of a beginning of a path are no longer than those of the path: the first begins the first, and each
other has one as long among the others. -/
theorem splitOn_append_long (sep : α) (v u : List α) :
    ∃ c cs c' cs', v.splitOn sep = c :: cs ∧ (v ++ u).splitOn sep = c' :: cs' ∧ c.length ≤ c'.length ∧
      ∀ d ∈ cs, ∃ d' ∈ cs', d.length ≤ d'.length := by
  induction v with
  | nil =>
    obtain ⟨c', cs', hsplit⟩ := List.exists_cons_of_ne_nil (List.splitOn_ne_nil sep u)
    exact ⟨[], [], c', cs', List.splitOn_nil sep, hsplit, Nat.zero_le _, fun d hd => absurd hd List.not_mem_nil⟩
  | cons x v ih =>
    obtain ⟨c, cs, c', cs', hv, hw, hhead, htail⟩ := ih
    rw [List.cons_append, List.splitOn_cons_eq_if_modifyHead, List.splitOn_cons_eq_if_modifyHead, hv, hw]
    by_cases hx : (x == sep) = true
    · rw [if_pos hx, if_pos hx]
      refine ⟨_, _, _, _, rfl, rfl, Nat.le_refl _, fun d hd => ?_⟩
      rcases List.mem_cons.mp hd with rfl | hd
      · exact ⟨c', List.mem_cons_self, hhead⟩
      · obtain ⟨d', hd', hle⟩ := htail d hd
        exact ⟨d', List.mem_cons_of_mem c' hd', hle⟩
    · rw [if_neg hx, if_neg hx]
      exact ⟨_, _, _, _, rfl, rfl, Nat.succ_le_succ hhead, htail⟩

theorem splitOn_length_le {v w : List α} {m : Nat} (hvw : v <+: w) (hw : ∀ c ∈ w.splitOn sep, c.length ≤ m) :
    ∀ c ∈ v.splitOn sep, c.length ≤ m := by
  obtain ⟨u, rfl⟩ := hvw
  obtain ⟨c, cs, c', cs', hv, hw', hhead, htail⟩ := splitOn_append_long sep v u
  rw [hv]
  rw [hw'] at hw
  intro d hd
  rcases List.mem_cons.mp hd with rfl | hd
  · exact Nat.le_trans hhead (hw c' List.mem_cons_self)
  · obtain ⟨d', hd', hle⟩ := htail d hd
    exact Nat.le_trans hle (hw d' (List.mem_cons_of_mem c' hd'))

theorem count_absolute {ns : List (List α)} (hne : ns ≠ []) (h : ∀ n ∈ ns, sep ∉ n) :
    (absolute sep ns).count sep = ns.length := by
  rw [absolute, if_neg hne]
  clear hne
  induction ns with
  | nil => rfl
  | cons n ns ih =>
    rw [List.flatMap_cons, List.count_append, List.count_cons_self,
      List.count_eq_zero_of_not_mem (h n List.mem_cons_self), ih fun m hm => h m (List.mem_cons_of_mem n hm),
      List.length_cons, Nat.zero_add, Nat.add_comm]

end Chicago95.Lib.PathNames
