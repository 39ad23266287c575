/-
# Chicago95.Lib.Odometer — words over a list of symbols in the order an odometer shows them.

An odometer has one wheel for each place of a word, and the last wheel turns fastest. The digits are kept last place
first, so that a carry runs along the list. What an odometer still has to show (`ahead`) starts with what it shows now
and goes on with what it shows after a turn (`ahead_eq`); from all zeros it shows every word of its length (`ahead_zeros`).
-/
import Mathlib.Data.List.GetD
import Mathlib.Data.List.Range
import Mathlib.Data.List.Nodup

namespace Chicago95.Lib.Odometer

variable {α : Type}

/-! ## Words in order -/

/-- The words of a length, in odometer order: every word one shorter, with each symbol in turn as its last. -/
def words (symbols : List α) : Nat → List (List α)
  | 0 => [[]]
  | n + 1 => (words symbols n).flatMap fun w => symbols.map fun c => w ++ [c]

/-- The words of the lengths from `min` to `max`, the shorter ones first. -/
def wordsBetween (symbols : List α) (min max : Nat) : List (List α) :=
  (List.range' min (max + 1 - min)).flatMap (words symbols)

theorem mem_words {symbols : List α} {n : Nat} {w : List α} :
    w ∈ words symbols n ↔ w.length = n ∧ ∀ c ∈ w, c ∈ symbols := by
  induction n generalizing w with
  | zero =>
    rw [words, List.mem_singleton, List.length_eq_zero_iff]
    constructor
    · rintro rfl
      exact ⟨rfl, List.forall_mem_nil _⟩
    · exact fun h => h.1
  | succ n ih =>
    simp only [words, List.mem_flatMap, List.mem_map, ih]
    constructor
    · rintro ⟨v, ⟨hlen, hv⟩, c, hc, rfl⟩
      refine ⟨by rw [List.length_append, hlen, List.length_singleton], ?_⟩
      intro a ha
      rcases List.mem_append.mp ha with h | h
      · exact hv a h
      · rw [List.mem_singleton.mp h]
        exact hc
    · rintro ⟨hlen, hw⟩
      have hne : w ≠ [] := List.ne_nil_of_length_eq_add_one hlen
      refine ⟨w.dropLast, ⟨?_, fun c hc => hw c (List.dropLast_subset w hc)⟩, w.getLast hne,
        hw _ (List.getLast_mem hne), List.dropLast_append_getLast hne⟩
      rw [List.length_dropLast, hlen]
      rfl

theorem nodup_words {symbols : List α} (h : symbols.Nodup) (n : Nat) : (words symbols n).Nodup := by
  induction n with
  | zero => exact List.nodup_singleton []
  | succ n ih =>
    refine List.nodup_flatMap.mpr ⟨fun w _ => h.map fun a b hab => ?_, ih.imp fun {v w} hne => ?_⟩
    · exact List.singleton_inj.mp (List.append_cancel_left hab)
    · -- two words that differ in their last symbol only come from the same shorter word
      intro x hv hw
      obtain ⟨a, -, rfl⟩ := List.mem_map.mp hv
      obtain ⟨b, -, hb⟩ := List.mem_map.mp hw
      exact hne (List.append_inj_left' hb rfl).symm

theorem mem_wordsBetween {symbols : List α} {min max : Nat} {w : List α} :
    w ∈ wordsBetween symbols min max ↔ min ≤ w.length ∧ w.length ≤ max ∧ ∀ c ∈ w, c ∈ symbols := by
  simp only [wordsBetween, List.mem_flatMap, mem_words, List.mem_range'_1]
  constructor
  · rintro ⟨n, ⟨hmin, hmax⟩, rfl, hw⟩
    exact ⟨hmin, by omega, hw⟩
  · rintro ⟨hmin, hmax, hw⟩
    exact ⟨w.length, ⟨hmin, by omega⟩, rfl, hw⟩

theorem nodup_wordsBetween {symbols : List α} (h : symbols.Nodup) (min max : Nat) :
    (wordsBetween symbols min max).Nodup := by
  refine List.nodup_flatMap.mpr ⟨fun n _ => nodup_words h n, (List.nodup_range' _).imp fun {m n} hne => ?_⟩
  intro w hm hn
  exact hne ((mem_words.mp hm).1.symm.trans (mem_words.mp hn).1)

theorem words_eq_concat {symbols : List α} (h : symbols ≠ []) (n : Nat) :
    ∃ ws, words symbols n = ws ++ [List.replicate n (symbols.getLast h)] := by
  induction n with
  | zero => exact ⟨[], rfl⟩
  | succ n ih =>
    obtain ⟨ws, hws⟩ := ih
    refine ⟨ws.flatMap (fun w => symbols.map fun c => w ++ [c]) ++
      symbols.dropLast.map fun c => List.replicate n (symbols.getLast h) ++ [c], ?_⟩
    rw [words, hws, List.flatMap_append, List.flatMap_singleton, List.append_assoc, List.replicate_succ']
    have hsplit (f : α → List α) : symbols.map f = symbols.dropLast.map f ++ [f (symbols.getLast h)] := by
      conv_lhs => rw [← List.dropLast_append_getLast h]
      exact List.map_append
    rw [hsplit]

theorem wordsBetween_eq_concat {symbols : List α} (h : symbols ≠ []) {min max : Nat} (hle : min ≤ max) :
    ∃ ws, wordsBetween symbols min max = ws ++ [List.replicate max (symbols.getLast h)] := by
  obtain ⟨ws, hws⟩ := words_eq_concat h max
  refine ⟨(List.range' min (max - min)).flatMap (words symbols) ++ ws, ?_⟩
  rw [wordsBetween, Nat.sub_add_comm hle, List.range'_concat, List.flatMap_append, List.flatMap_singleton,
    Nat.one_mul, Nat.add_sub_cancel' hle, hws, List.append_assoc]

/-! ## Turning the wheels -/

variable [Inhabited α]

/-- The setting after one turn of the last wheel, with its carries; no setting comes after the last. -/
def advance (base : Nat) : List Nat → Option (List Nat)
  | [] => none
  | d :: ds => if d + 1 < base then some ((d + 1) :: ds) else (advance base ds).map (0 :: ·)

/-- The word a setting shows. -/
def shown (symbols : List α) (ds : List Nat) : List α := (ds.map fun d => symbols.getD d default).reverse

/-- What is still to be shown, from a setting on. -/
def ahead (symbols : List α) : List Nat → List (List α)
  | [] => [[]]
  | d :: ds => ((symbols.drop d).map fun c => shown symbols ds ++ [c]) ++
      (ahead symbols ds).tail.flatMap fun w => symbols.map fun c => w ++ [c]

theorem shown_cons (symbols : List α) (d : Nat) (ds : List Nat) :
    shown symbols (d :: ds) = shown symbols ds ++ [symbols.getD d default] := by
  rw [shown, List.map_cons, List.reverse_cons]
  rfl

theorem lt_of_advance {base : Nat} {ds es : List Nat} (h : ∀ d ∈ ds, d < base) (hes : advance base ds = some es) :
    ∀ e ∈ es, e < base := by
  induction ds generalizing es with
  | nil => cases hes
  | cons d ds ih =>
    have hd := h d List.mem_cons_self
    have hds : ∀ d ∈ ds, d < base := fun d hd => h d (List.mem_cons_of_mem _ hd)
    rw [advance] at hes
    split at hes
    · rename_i hlt
      cases hes
      exact List.forall_mem_cons.mpr ⟨hlt, hds⟩
    · obtain ⟨fs, hfs, rfl⟩ := Option.map_eq_some_iff.mp hes
      exact List.forall_mem_cons.mpr ⟨Nat.zero_lt_of_lt hd, ih hds hfs⟩

theorem ahead_eq {symbols : List α} {ds : List Nat} (h : ∀ d ∈ ds, d < symbols.length) :
    ahead symbols ds = shown symbols ds :: ((advance symbols.length ds).map (ahead symbols)).getD [] := by
  induction ds with
  | nil => rfl
  | cons d ds ih =>
    have hd := h d List.mem_cons_self
    have hdrop : symbols.drop d = symbols.getD d default :: symbols.drop (d + 1) := by
      rw [List.drop_eq_getElem_cons hd, List.getD_eq_getElem _ _ hd]
    have ih := ih fun d hd => h d (List.mem_cons_of_mem _ hd)
    rw [advance, ahead, hdrop, List.map_cons, List.cons_append, shown_cons]
    congr 1
    split
    · rfl
    · rename_i hlast
      -- the wheel is at its last symbol, so the word goes on with the next setting of the others
      rw [List.drop_eq_nil_of_le (Nat.not_lt.mp hlast), List.map_nil, List.nil_append, ih, List.tail_cons]
      cases hadv : advance symbols.length ds with
      | none => rfl
      | some es =>
        have hes : ahead symbols es = shown symbols es :: (ahead symbols es).tail := by
          cases es with
          | nil => rfl
          | cons e es =>
            have hlt : e < symbols.length :=
              lt_of_advance (fun d hd => h d (List.mem_cons_of_mem _ hd)) hadv e List.mem_cons_self
            rw [ahead, List.drop_eq_getElem_cons hlt, List.map_cons, List.cons_append, List.tail_cons, shown_cons,
              List.getD_eq_getElem _ _ hlt]
        change (ahead symbols es).flatMap _ = ahead symbols (0 :: es)
        rw [ahead, List.drop_zero, hes, List.flatMap_cons, List.tail_cons]

theorem ahead_zeros {symbols : List α} (h : symbols ≠ []) (n : Nat) :
    ahead symbols (List.replicate n 0) = words symbols n := by
  induction n with
  | zero => rfl
  | succ n ih =>
    have hpos := List.length_pos_iff.mpr h
    have hzeros : ∀ d ∈ List.replicate n 0, d < symbols.length := fun d hd => by
      rw [List.eq_of_mem_replicate hd]
      exact hpos
    have hcons := ahead_eq hzeros
    rw [List.replicate_succ, ahead, words, ← ih, List.drop_zero, hcons, List.tail_cons, List.flatMap_cons]

/-! ## The first word wanted -/

variable {β : Type}

/-- A list up to and with its first element that is wanted. -/
def upTo (wanted : β → Bool) : List β → List β
  | [] => []
  | x :: xs => if wanted x then [x] else x :: upTo wanted xs

theorem upTo_append {wanted : β → Bool} {xs : List β} (h : ∃ x ∈ xs, wanted x) (ys : List β) :
    upTo wanted (xs ++ ys) = upTo wanted xs := by
  induction xs with
  | nil =>
    obtain ⟨x, hx, -⟩ := h
    exact absurd hx List.not_mem_nil
  | cons x xs ih =>
    rw [List.cons_append, upTo, upTo]
    split
    · rfl
    · rename_i hx
      rw [ih]
      obtain ⟨y, hy, hwanted⟩ := h
      rcases List.mem_cons.mp hy with rfl | hy
      · exact absurd hwanted hx
      · exact ⟨y, hy, hwanted⟩

theorem upTo_append_of_none {wanted : β → Bool} {xs : List β} (h : ¬∃ x ∈ xs, wanted x) (ys : List β) :
    upTo wanted (xs ++ ys) = xs ++ upTo wanted ys := by
  induction xs with
  | nil => rfl
  | cons x xs ih =>
    have hx : ¬wanted x = true := fun hx => h ⟨x, List.mem_cons_self, hx⟩
    rw [List.cons_append, upTo, if_neg hx, ih fun ⟨y, hy, hwanted⟩ => h ⟨y, List.mem_cons_of_mem _ hy, hwanted⟩]
    rfl

theorem upTo_sublist (wanted : β → Bool) (xs : List β) : (upTo wanted xs).Sublist xs := by
  induction xs with
  | nil => exact List.Sublist.refl []
  | cons x xs ih =>
    rw [upTo]
    split
    · exact (List.nil_sublist xs).cons_cons x
    · exact ih.cons_cons x

theorem upTo_concat_eq_iff {wanted : β → Bool} {xs : List β} {y : β} :
    upTo wanted (xs ++ [y]) = upTo wanted xs ↔ ∃ x ∈ xs, wanted x := by
  refine ⟨fun h => ?_, fun h => upTo_append h [y]⟩
  by_contra hnone
  have hall := upTo_append_of_none hnone []
  have hone : (upTo wanted [y]).length = 1 := by
    rw [upTo]
    split
    · rfl
    · rfl
  have hlen := congrArg List.length h
  rw [List.append_nil] at hall
  rw [upTo_append_of_none hnone, hall, upTo, List.append_nil, List.length_append, hone] at hlen
  exact absurd hlen (Nat.succ_ne_self _)

end Chicago95.Lib.Odometer
