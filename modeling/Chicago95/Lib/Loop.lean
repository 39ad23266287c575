/-
# Chicago95.Lib.Loop — counted loops over a state, and their invariant rules.

`forEach n body s` is `for (i = 0; i < n; i++) body(i)` run on `s`. A proof about such a loop never
unfolds it: it goes through `forEach_induction` (an invariant indexed by the counter),
`forEach_preserves` (one that does not mention it), or `forEach_eq_self` (a loop whose body does
nothing). A loop whose passes check what they do is taken back to one without checks by
`forEachM_eq_some`.
-/
import Mathlib.Data.List.Basic
import Mathlib.Tactic.Common

namespace Chicago95.Lib.Loop

variable {σ α : Type*}

/-- `for (i = 0; i < n; i++) body(i)`, threading the state. -/
def forEach (n : Nat) (body : Nat → σ → σ) (s : σ) : σ :=
  (List.range n).foldl (fun s i => body i s) s

@[simp] theorem forEach_zero (body : Nat → σ → σ) (s : σ) : forEach 0 body s = s := rfl

theorem forEach_succ (n : Nat) (body : Nat → σ → σ) (s : σ) : forEach (n + 1) body s = body n (forEach n body s) := by
  simp [forEach, List.range_succ]

theorem forEach_add (m n : Nat) (body : Nat → σ → σ) (s : σ) :
    forEach (m + n) body s = forEach n (fun i => body (m + i)) (forEach m body s) := by
  induction n with
  | zero => rfl
  | succ n ih => rw [← Nat.add_assoc, forEach_succ, forEach_succ, ih]

theorem forEach_induction {P : Nat → σ → Prop} {f : Nat → σ → σ} :
    ∀ {n : Nat} {s : σ}, P 0 s → (∀ i s, i < n → P i s → P (i + 1) (f i s)) → P n (forEach n f s) := by
  intro n
  induction n with
  | zero => intro s h0 _; exact h0
  | succ n ih =>
    intro s h0 hstep
    rw [forEach_succ]
    exact hstep n _ (Nat.lt_succ_self n) (ih h0 fun i s hi => hstep i s (by omega))

theorem forEach_preserves {P : σ → Prop} {body : Nat → σ → σ} {n : Nat} {s : σ}
    (h0 : P s) (hstep : ∀ i s, i < n → P s → P (body i s)) : P (forEach n body s) :=
  forEach_induction (P := fun _ => P) h0 hstep

theorem forEach_congr {f g : Nat → σ → σ} {n : Nat} {s : σ} (h : ∀ i, i < n → ∀ t, f i t = g i t) :
    forEach n f s = forEach n g s :=
  forEach_induction (P := fun i t => t = forEach i g s) rfl fun i t hi ht => by
    rw [forEach_succ, h i hi, ht]

theorem forEach_eq_self {body : Nat → σ → σ} {n : Nat} {s : σ} (h : ∀ i, i < n → body i s = s) : forEach n body s = s :=
  forEach_preserves (P := fun t => t = s) rfl fun i t hi ht => by rw [ht, h i hi]

theorem forEach_injective {body : Nat → σ → σ} {n : Nat}
    (h : ∀ i, i < n → Function.Injective (body i)) : Function.Injective (forEach n body) := by
  induction n with
  | zero =>
    intro s t hst
    exact hst
  | succ n ih =>
    intro s t hst
    rw [forEach_succ, forEach_succ] at hst
    exact ih (fun i hi => h i (by omega)) (h n (by omega) hst)

/-! ## Loops that check what they do -/

/-- `forEach` with passes that may refuse. -/
def forEachM (n : Nat) (body : Nat → σ → Option σ) (s : σ) : Option σ :=
  forEach n (fun i st => st.bind (body i)) (some s)

theorem forEachM_induction {P : Nat → σ → Prop} {body : Nat → σ → Option σ} {n : Nat} {s : σ} (h0 : P 0 s)
    (hstep : ∀ i s, i < n → P i s → ∃ t, body i s = some t ∧ P (i + 1) t) :
    ∃ t, forEachM n body s = some t ∧ P n t := by
  induction n with
  | zero => exact ⟨s, rfl, h0⟩
  | succ n ih =>
    obtain ⟨t, hrun, hinv⟩ := ih fun i s hi => hstep i s (by omega)
    obtain ⟨u, hbody, hnext⟩ := hstep n t (Nat.lt_succ_self n) hinv
    unfold forEachM at hrun ⊢
    rw [forEach_succ, hrun, Option.bind_some]
    exact ⟨u, hbody, hnext⟩

theorem forEachM_eq_some {P : Nat → σ → Prop} {body : Nat → σ → Option σ} {f : Nat → σ → σ} {n : Nat} {s : σ}
    (h0 : P 0 s) (hstep : ∀ i s, i < n → P i s → body i s = some (f i s) ∧ P (i + 1) (f i s)) :
    forEachM n body s = some (forEach n f s) ∧ P n (forEach n f s) := by
  induction n with
  | zero => exact ⟨rfl, h0⟩
  | succ n ih =>
    obtain ⟨heq, hinv⟩ := ih fun i s hi => hstep i s (by omega)
    obtain ⟨hbody, hnext⟩ := hstep n _ (Nat.lt_succ_self n) hinv
    unfold forEachM at heq ⊢
    rw [forEach_succ, heq, Option.bind_some, hbody, forEach_succ]
    exact ⟨rfl, hnext⟩

/-! ## The best candidate -/

/-- `for (i = 0; i < n; i++) if (ok(i) && score(i) >= best) { best = score(i); at = i; }` -/
def lastBest (ok : Nat → Bool) (score : Nat → Nat) (n : Nat) : Option Nat × Nat :=
  forEach n (fun i best => if ok i = true ∧ best.2 ≤ score i then (some i, score i) else best) (none, 0)

theorem lastBest_spec (ok : Nat → Bool) (score : Nat → Nat) (n : Nat) :
    ((lastBest ok score n).1 = none ∧ (lastBest ok score n).2 = 0 ∧ ∀ k, k < n → ok k = false) ∨
    ∃ i, (lastBest ok score n).1 = some i ∧ (lastBest ok score n).2 = score i ∧ i < n ∧ ok i = true ∧
      ∀ k, k < n → ok k = true → score k < score i ∨ score k = score i ∧ k ≤ i := by
  unfold lastBest
  induction n with
  | zero => exact Or.inl ⟨rfl, rfl, fun k hk => absurd hk (Nat.not_lt_zero k)⟩
  | succ n ih =>
    rw [forEach_succ]
    rcases hn : ok n with _ | _
    · -- no candidate: everything stays
      rw [if_neg fun h => Bool.false_ne_true h.1]
      rcases ih with ⟨hnone, hzero, hall⟩ | ⟨i, hsome, hscore, hi, hok, hall⟩
      · refine Or.inl ⟨hnone, hzero, fun k hk => ?_⟩
        rcases Nat.lt_succ_iff_lt_or_eq.mp hk with hlt | rfl
        · exact hall k hlt
        · exact hn
      · refine Or.inr ⟨i, hsome, hscore, by omega, hok, fun k hk hkok => ?_⟩
        rcases Nat.lt_succ_iff_lt_or_eq.mp hk with hlt | rfl
        · exact hall k hlt hkok
        · rw [hn] at hkok
          cases hkok
    · rcases ih with ⟨hnone, hzero, hall⟩ | ⟨i, hsome, hscore, hi, hok, hall⟩
      · rw [if_pos ⟨rfl, by omega⟩]
        refine Or.inr ⟨n, rfl, rfl, by omega, hn, fun k hk hkok => ?_⟩
        rcases Nat.lt_succ_iff_lt_or_eq.mp hk with hlt | rfl
        · rw [hall k hlt] at hkok
          cases hkok
        · exact Or.inr ⟨rfl, Nat.le_refl _⟩
      · by_cases hbest : score i ≤ score n
        · rw [if_pos ⟨rfl, by rw [hscore]; exact hbest⟩]
          refine Or.inr ⟨n, rfl, rfl, by omega, hn, fun k hk hkok => ?_⟩
          rcases Nat.lt_succ_iff_lt_or_eq.mp hk with hlt | rfl
          · have := hall k hlt hkok
            omega
          · exact Or.inr ⟨rfl, Nat.le_refl _⟩
        · rw [if_neg fun h => hbest (by rw [← hscore]; exact h.2)]
          refine Or.inr ⟨i, hsome, hscore, by omega, hok, fun k hk hkok => ?_⟩
          rcases Nat.lt_succ_iff_lt_or_eq.mp hk with hlt | rfl
          · exact hall k hlt hkok
          · exact Or.inl (Nat.lt_of_not_le hbest)

/-- **The best candidate**, and the last of those equally good. -/
theorem lastBest_iff (ok : Nat → Bool) (score : Nat → Nat) (n i : Nat) : (lastBest ok score n).1 = some i ↔
      i < n ∧ ok i = true ∧ ∀ k, k < n → ok k = true → score k < score i ∨ score k = score i ∧ k ≤ i := by
  rcases lastBest_spec ok score n with ⟨hnone, _, hall⟩ | ⟨j, hsome, _, hj, hok, hall⟩
  · rw [hnone]
    refine iff_of_false (fun h => by cases h) fun ⟨hi, hiok, _⟩ => ?_
    rw [hall i hi] at hiok
    cases hiok
  · rw [hsome]
    constructor
    · intro h
      obtain rfl := Option.some.inj h
      exact ⟨hj, hok, hall⟩
    · rintro ⟨hi, hiok, hbest⟩
      have hij := hall i hi hiok
      have hji := hbest j hj hok
      have heq : j = i := by omega
      rw [heq]

/-! ## The best element of a list -/

/-- Where the best element of a list is, the last of those equally good. -/
def bestPos (ok : α → Bool) (score : α → Nat) (l : List α) : Option Nat :=
  (lastBest (fun i => (l[i]?).any ok) (fun i => (l[i]?).elim 0 score) l.length).1

/-- The list split at its best element. -/
structure BestSplit (ok : α → Bool) (score : α → Nat) (pre : List α) (e : α) (post : List α) : Prop where
  chosen : ok e = true
  before : ∀ q ∈ pre, ok q = true → score q ≤ score e
  after : ∀ q ∈ post, ok q = true → score q < score e

theorem bestPos_eq_none {ok : α → Bool} {score : α → Nat} {l : List α} :
    bestPos ok score l = none ↔ ∀ q ∈ l, ok q = false := by
  rcases lastBest_spec (fun i => (l[i]?).any ok) (fun i => (l[i]?).elim 0 score) l.length with
    ⟨hnone, _, hall⟩ | ⟨i, hsome, _, hi, hok, _⟩
  · refine iff_of_true hnone fun q hq => ?_
    obtain ⟨k, hk, rfl⟩ := List.getElem_of_mem hq
    simpa [hk] using hall k hk
  · refine iff_of_false (by simp [bestPos, hsome]) fun h => ?_
    have hbad := h l[i] (List.getElem_mem hi)
    simp [hi, hbad] at hok

theorem bestPos_eq_some {ok : α → Bool} {score : α → Nat} {l : List α} {n : Nat} : bestPos ok score l = some n ↔
      ∃ pre e post, l = pre ++ e :: post ∧ pre.length = n ∧ BestSplit ok score pre e post := by
  unfold bestPos
  rw [lastBest_iff]
  constructor
  · rintro ⟨hn, hok, hbest⟩
    refine ⟨l.take n, l[n], l.drop (n + 1), ?_, by simp; omega, ?_⟩
    · rw [List.getElem_cons_drop, List.take_append_drop]
    · refine ⟨by simpa [hn] using hok, fun q hq hqok => ?_, fun q hq hqok => ?_⟩
      · obtain ⟨k, hk, rfl⟩ := List.getElem_of_mem hq
        have hk' : k < n ∧ k < l.length := by simpa [Nat.lt_min] using hk
        have := hbest k hk'.2 (by simpa [hk'.2] using hqok)
        simp only [hk'.2, hn, List.getElem?_eq_getElem, Option.elim_some, List.getElem_take] at this ⊢
        omega
      · obtain ⟨k, hk, rfl⟩ := List.getElem_of_mem hq
        have hk' : n + 1 + k < l.length := by
          simp only [List.length_drop] at hk
          omega
        have := hbest (n + 1 + k) hk' (by simpa [hk'] using hqok)
        simp only [hk', hn, List.getElem?_eq_getElem, Option.elim_some, List.getElem_drop] at this ⊢
        omega
  · rintro ⟨pre, e, post, rfl, rfl, hsplit⟩
    refine ⟨by simp, by simpa using hsplit.chosen, fun k hk hkok => ?_⟩
    rcases Nat.lt_trichotomy k pre.length with hlt | rfl | hgt
    · have hget : (pre ++ e :: post)[k]? = some pre[k] := by
        rw [List.getElem?_append_left hlt, List.getElem?_eq_getElem hlt]
      rw [hget] at hkok ⊢
      have := hsplit.before _ (List.getElem_mem hlt) hkok
      simp only [List.getElem?_append_right, Nat.le_refl, Nat.sub_self,
        List.getElem?_cons_zero, Option.elim_some]
      omega
    · exact Or.inr ⟨rfl, Nat.le_refl _⟩
    · obtain ⟨j, rfl⟩ : ∃ j, k = pre.length + (j + 1) := ⟨k - pre.length - 1, by omega⟩
      have hj : j < post.length := by
        simp only [List.length_append, List.length_cons] at hk
        omega
      have hget : (pre ++ e :: post)[pre.length + (j + 1)]? = some post[j] := by
        rw [List.getElem?_append_right (by omega), Nat.add_sub_cancel_left, List.getElem?_cons_succ,
          List.getElem?_eq_getElem hj]
      rw [hget] at hkok ⊢
      have := hsplit.after _ (List.getElem_mem hj) hkok
      simp only [List.getElem?_append_right, Nat.le_refl, Nat.sub_self, List.getElem?_cons_zero,
        Option.elim_some]
      exact Or.inl this

theorem BestSplit.bestPos {ok : α → Bool} {score : α → Nat} {pre post : List α} {e : α}
    (h : BestSplit ok score pre e post) : bestPos ok score (pre ++ e :: post) = some pre.length :=
  bestPos_eq_some.mpr ⟨pre, e, post, rfl, rfl, h⟩

theorem BestSplit.of_filter_eq {ok : α → Bool} {score : α → Nat} {pre post l : List α} {e : α}
    (h : BestSplit ok score pre e post)
    (heq : ∀ p, l.filter (score · == p) = (pre ++ e :: post).filter (score · == p)) :
    ∃ pre' post', l = pre' ++ e :: post' ∧ BestSplit ok score pre' e post' := by
  have hmem : ∀ q, q ∈ l → q ∈ pre ++ e :: post := by
    intro q hq
    have hin : q ∈ l.filter (score · == score q) := List.mem_filter.mpr ⟨hq, beq_self_eq_true _⟩
    rw [heq] at hin
    exact (List.mem_filter.mp hin).1
  -- among the elements of its own score it stands where it stood
  have hat := heq (score e)
  rw [List.filter_append, List.filter_cons_of_pos (by simp)] at hat
  obtain ⟨pre', rest, rfl, hpre, hrest⟩ := List.filter_eq_append_iff.mp hat
  obtain ⟨skip, post', rfl, hskip, _, hpost⟩ := List.filter_eq_cons_iff.mp hrest
  refine ⟨pre' ++ skip, post', by rw [List.append_assoc], h.chosen, fun q hq hqok => ?_, fun q hq hqok => ?_⟩
  · have hq' := hmem q (by
      rcases List.mem_append.mp hq with hq | hq <;> simp [hq])
    rcases List.mem_append.mp hq' with hin | hin
    · exact h.before q hin hqok
    · rcases List.mem_cons.mp hin with rfl | hin
      · exact Nat.le_refl _
      · exact Nat.le_of_lt (h.after q hin hqok)
  · have hq' := hmem q (by simp [hq])
    by_cases hsame : score q = score e
    · have hin : q ∈ post := by
        have hin : q ∈ post'.filter (score · == score e) :=
          List.mem_filter.mpr ⟨hq, by simp only [hsame, beq_self_eq_true]⟩
        rw [hpost] at hin
        exact (List.mem_filter.mp hin).1
      exact h.after q hin hqok
    · rcases List.mem_append.mp hq' with hin | hin
      · exact Nat.lt_of_le_of_ne (h.before q hin hqok) hsame
      · rcases List.mem_cons.mp hin with rfl | hin
        · exact absurd rfl hsame
        · exact h.after q hin hqok

end Chicago95.Lib.Loop
