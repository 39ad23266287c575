/-
# Chicago95.Stage2.FishPath — the shell's `fish_normalize_path`.

The loop over a path reads a component at a time, and at the end of the path it reads the empty one for ever: it ends
only when sixteen names are on its stack (`scanPath_iff`). Components are cut into pieces of 63 characters, with a
character dropped after each. What is then written to the buffer is the path through these names, as far as the buffer
goes (`writeNames_spec`).
-/
import Chicago95.Lib.Cells
import Chicago95.Lib.PathNames

namespace Chicago95.Stage2.FishPath

open Chicago95.Lib.Cells Chicago95.Lib.Loop Chicago95.Lib.PathNames

def slash : UInt8 := 0x2f

def dot : UInt8 := 0x2e

/-! ## Strings -/

/-- `while (s[n]) n++`, in an array of `size` characters. -/
def fishStrlen (size : Nat) (s : Nat → UInt8) : Nat → Nat → Option Nat
  | 0, _ => none
  | fuel + 1, n => (get size s n).bind fun c => if c = 0 then some n else fishStrlen size s fuel (n + 1)

/-- `fish_strcpy`: what it leaves before the terminator. -/
def fishStrcpy (src : List UInt8) (max : Nat) : List UInt8 := src.take (max - 1)

/-- `fish_strcat` into a buffer of `max` characters. -/
def fishStrcat (dst : Nat → UInt8) (src : List UInt8) (max : UInt32) : Option (Nat → UInt8) :=
  (fishStrlen max.toNat dst (max.toNat + 1) 0).bind fun dl =>
    let n := min src.length ((max - 1).toNat - dl)
    (forEachM n (fun i (dst : Nat → UInt8) => put max.toNat dst (dl + i) (src.getD i 0)) dst).bind fun dst =>
      put max.toNat dst (dl + n) 0

/-! ## The loop over the path -/

/-- `while (i < len && in[i] != '/' && ci < 63) comp[ci++] = in[i++];` with room for `63 - ci` more. -/
def readComp (path : List UInt8) : Nat → Nat → List UInt8 → List UInt8 × Nat
  | 0, i, comp => (comp, i)
  | room + 1, i, comp =>
    match path[i]? with
    | some c => if c ≠ slash then readComp path room (i + 1) (comp ++ [c]) else (comp, i)
    | none => (comp, i)

/-- A component onto the stack of names, or off it. -/
def stackComp (stack : List (List UInt8)) (comp : List UInt8) : List (List UInt8) :=
  if 0 < comp.length then
    if comp = [dot] then stack
    else if comp = [dot, dot] then (if 0 < stack.length then stack.dropLast else stack)
    else stack ++ [fishStrcpy comp 64]
  else stack

def scanPath (path : List UInt8) : Nat → Nat → List (List UInt8) → Option (List (List UInt8))
  | 0, _, _ => none
  | fuel + 1, i, stack =>
    if i ≤ path.length ∧ stack.length < 16 then
      let read := readComp path 63 i []
      scanPath path fuel (if read.2 < path.length then read.2 + 1 else read.2) (stackComp stack read.1)
    else some stack

/-- The stack written out, each name after a slash. -/
def writeNames (stack : List (List UInt8)) (outMax : UInt32) (out : Nat → UInt8) : Option (Nat → UInt8) :=
  stack.foldlM (fun out name => (fishStrcat out [slash] outMax).bind fun out => fishStrcat out name outMax) out

/-- `fish_normalize_path`; `none` is a write outside the buffer, or the fuel run out. -/
def fishNormalizePath (fuel : Nat) (path : List UInt8) (outMax : UInt32) (out : Nat → UInt8) : Option (Nat → UInt8) :=
  (scanPath path fuel (if 0 < path.length ∧ path[0]? = some slash then 1 else 0) []).bind fun stack =>
    (put outMax.toNat out 0 0).bind fun out =>
      if stack.length = 0 then (put outMax.toNat out 0 slash).bind fun out => put outMax.toNat out 1 0
      else writeNames stack outMax out

/-! ## The components that the loop reads -/

/-- A component in pieces of 63 characters. -/
def cut (c : List UInt8) : List (List UInt8) :=
  (List.range (c.length / 64 + 1)).map fun k => (c.drop (64 * k)).take 63

def pieces (path : List UInt8) : List (List UInt8) := (path.splitOn slash).flatMap cut

/-- Sixteen names. -/
def full (stack : List (List UInt8)) : Bool := decide (stack.length = 16)

theorem cut_short {c : List UInt8} (h : c.length ≤ 63) : cut c = [c] := by
  rw [cut, Nat.div_eq_of_lt (by omega)]
  change [(c.drop 0).take 63] = [c]
  rw [List.drop_zero, List.take_of_length_le h]

theorem cut_long {c : List UInt8} (h : 64 ≤ c.length) : cut c = c.take 63 :: cut (c.drop 64) := by
  have hlength : c.length / 64 = (c.drop 64).length / 64 + 1 := by
    rw [List.length_drop]
    omega
  rw [cut, cut, hlength, List.range_succ_eq_map, List.map_cons, List.map_map]
  refine congrArg₂ _ rfl (List.map_congr_left fun k _ => ?_)
  change (c.drop (64 * (k + 1))).take 63 = ((c.drop 64).drop (64 * k)).take 63
  rw [List.drop_drop, Nat.mul_succ, Nat.add_comm]

theorem pieces_nil : pieces [] = [[]] := rfl

theorem pieces_of_clean {w : List UInt8} (h : slash ∉ w) : pieces w = cut w := by
  rw [pieces, List.splitOn_eq_singleton h, List.flatMap_singleton]

theorem pieces_append {w : List UInt8} (h : slash ∉ w) (r : List UInt8) :
    pieces (w ++ slash :: r) = cut w ++ pieces r := by
  rw [pieces, List.splitOn_append_cons_self_of_not_mem h, List.flatMap_cons]
  rfl

theorem exists_component (rest : List UInt8) :
    ∃ w tail, rest = w ++ tail ∧ slash ∉ w ∧ (tail = [] ∨ ∃ r, tail = slash :: r) := by
  induction rest with
  | nil => exact ⟨[], [], rfl, List.not_mem_nil, Or.inl rfl⟩
  | cons c rest ih =>
    by_cases hc : c = slash
    · exact ⟨[], c :: rest, rfl, List.not_mem_nil, Or.inr ⟨rest, hc ▸ rfl⟩⟩
    · obtain ⟨w, tail, hrest, hclean, htail⟩ := ih
      refine ⟨c :: w, tail, congrArg _ hrest, fun hmem => ?_, htail⟩
      rcases List.mem_cons.mp hmem with heq | hmem
      · exact hc heq.symm
      · exact hclean hmem

theorem readComp_spec {path w tail comp : List UInt8} {room i : Nat} (hat : path.drop i = w ++ tail) (hclean : slash ∉ w)
    (htail : tail = [] ∨ ∃ r, tail = slash :: r) :
    readComp path room i comp = (comp ++ w.take room, i + (w.take room).length) := by
  induction room generalizing i w comp with
  | zero =>
    rw [readComp, List.take_zero, List.append_nil]
    rfl
  | succ room ih =>
    have hhead : path[i]? = (w ++ tail)[0]? := by rw [← hat, List.getElem?_drop, Nat.add_zero]
    rw [readComp, hhead]
    cases w with
    | nil =>
      rw [List.nil_append, List.take_nil, List.append_nil]
      rcases htail with rfl | ⟨r, rfl⟩
      · rfl
      · exact if_neg fun hne => hne rfl
    | cons c w =>
      have hc : c ≠ slash := fun heq => hclean (heq ▸ List.mem_cons_self)
      have hnext : path.drop (i + 1) = w ++ tail := by rw [← List.drop_drop, hat]; rfl
      have hrun := @ih w (comp ++ [c]) (i + 1) hnext fun hmem => hclean (List.mem_cons_of_mem c hmem)
      change (if c ≠ slash then readComp path room (i + 1) (comp ++ [c]) else (comp, i)) = _
      rw [if_pos hc, hrun, List.take_succ_cons, List.append_assoc, List.length_cons]
      exact Prod.ext rfl (by dsimp only; omega)

theorem stackComp_eq_push {comp : List UInt8} (h : comp.length ≤ 63) (stack : List (List UInt8)) :
    stackComp stack comp = push dot stack comp := by
  rw [stackComp, push]
  by_cases hnil : comp = []
  · rw [if_pos (Or.inl hnil), hnil]
    rfl
  · rw [if_pos (List.length_pos_iff.mpr hnil), fishStrcpy, List.take_of_length_le h]
    by_cases hdot : comp = [dot]
    · rw [if_pos hdot, if_pos (Or.inr hdot)]
    · rw [if_neg hdot, if_neg (not_or.mpr ⟨hnil, hdot⟩)]
      by_cases hdots : comp = [dot, dot]
      · rw [if_pos hdots, if_pos hdots]
        cases stack <;> rfl
      · rw [if_neg hdots, if_neg hdots]

/-! ## When the loop ends -/

/-- The position after a component and what follows it. -/
def after (path : List UInt8) (i : Nat) : Nat := if i < path.length then i + 1 else i

theorem scan_step {path : List UInt8} {i : Nat} (hi : i ≤ path.length) {stack : List (List UInt8)}
    (hroom : full stack = false) : foldUntil (push dot) full stack (pieces (path.drop i)) =
        foldUntil (push dot) full (stackComp stack (readComp path 63 i []).1)
          (pieces (path.drop (after path (readComp path 63 i []).2))) ∧
      after path (readComp path 63 i []).2 ≤ path.length ∧
      (i < path.length → i < after path (readComp path 63 i []).2) := by
  obtain ⟨w, tail, hat, hclean, htail⟩ := exists_component (path.drop i)
  have hlength : path.length = i + (w.length + tail.length) := by
    have h := congrArg List.length hat
    rw [List.length_drop, List.length_append] at h
    omega
  rw [readComp_spec hat hclean htail, List.nil_append]
  dsimp only
  rw [stackComp_eq_push (by rw [List.length_take]; exact Nat.min_le_left _ _), hat]
  by_cases hshort : w.length ≤ 63
  · rw [List.take_of_length_le hshort]
    rcases htail with rfl | ⟨r, rfl⟩
    · -- the path ends with the component
      have hend : after path (i + w.length) = path.length := by
        rw [List.length_nil] at hlength
        rw [after, if_neg (by omega)]
        omega
      rw [hend, List.drop_length, List.append_nil, pieces_of_clean hclean, cut_short hshort, foldUntil_cons hroom,
        pieces_nil, foldUntil_cons_self (push_nil _)]
      exact ⟨rfl, Nat.le_refl _, fun h => h⟩
    · have hgo : after path (i + w.length) = i + w.length + 1 := by
        rw [List.length_cons] at hlength
        rw [after, if_pos (by omega)]
      have hdrop : path.drop (i + w.length + 1) = r := by
        rw [Nat.add_assoc, ← List.drop_drop, hat, List.drop_append, List.drop_of_length_le (Nat.le_succ _),
          List.nil_append, Nat.add_sub_cancel_left]
        rfl
      rw [hgo, hdrop, pieces_append hclean, cut_short hshort]
      rw [List.length_cons] at hlength
      exact ⟨foldUntil_cons hroom _ _, by omega, fun _ => by omega⟩
  · -- the component is cut, and the character after the cut is dropped
    have htake : (w.take 63).length = 63 := by
      rw [List.length_take]
      omega
    have hgo : after path (i + 63) = i + 64 := if_pos (by omega)
    have hdrop : path.drop (i + 64) = w.drop 64 ++ tail := by
      rw [← List.drop_drop, hat, List.drop_append_of_le_length (by omega)]
    have hrest : slash ∉ w.drop 64 := fun hmem => hclean (List.mem_of_mem_drop hmem)
    have hpieces : pieces (w ++ tail) = w.take 63 :: pieces (w.drop 64 ++ tail) := by
      rcases htail with rfl | ⟨r, rfl⟩
      · rw [List.append_nil, List.append_nil, pieces_of_clean hclean, pieces_of_clean hrest, cut_long (by omega)]
      · rw [pieces_append hclean, pieces_append hrest, cut_long (by omega), List.cons_append]
    rw [htake, hgo, hdrop, hpieces]
    exact ⟨foldUntil_cons hroom _ _, by omega, fun _ => by omega⟩

theorem scanPath_stop {path : List UInt8} {fuel i : Nat} {stack : List (List UInt8)} (h : ¬stack.length < 16) :
    scanPath path (fuel + 1) i stack = some stack := if_neg fun hand => h hand.2

theorem scanPath_go {path : List UInt8} {fuel i : Nat} {stack : List (List UInt8)} (hi : i ≤ path.length)
    (h : stack.length < 16) : scanPath path (fuel + 1) i stack =
      scanPath path fuel (after path (readComp path 63 i []).2) (stackComp stack (readComp path 63 i []).1) :=
  if_pos ⟨hi, h⟩

theorem push_length_le {stack : List (List UInt8)} (h : stack.length < 16) (c : List UInt8) :
    (push dot stack c).length ≤ 16 := by
  rw [push]
  split
  · exact Nat.le_of_lt h
  · split
    · rw [List.length_dropLast]
      omega
    · rw [List.length_append]
      exact h

theorem readComp_length (path : List UInt8) (i : Nat) : (readComp path 63 i []).1.length ≤ 63 := by
  obtain ⟨w, tail, hat, hclean, htail⟩ := exists_component (path.drop i)
  rw [readComp_spec hat hclean htail, List.nil_append, List.length_take]
  exact Nat.min_le_left _ _

theorem scanPath_iff {path : List UInt8} {i : Nat} (hi : i ≤ path.length) {stack st : List (List UInt8)}
    (hstack : stack.length ≤ 16) : (∃ fuel, scanPath path fuel i stack = some st) ↔
      foldUntil (push dot) full stack (pieces (path.drop i)) = some st := by
  have hnext {i : Nat} {stack : List (List UInt8)} (h : stack.length < 16) :
      (stackComp stack (readComp path 63 i []).1).length ≤ 16 := by
    rw [stackComp_eq_push (readComp_length path i)]
    exact push_length_le h _
  have hroom {stack : List (List UInt8)} (h : stack.length < 16) : full stack = false :=
    decide_eq_false (Nat.ne_of_lt h)
  have hfull {stack : List (List UInt8)} (hle : stack.length ≤ 16) (h : ¬stack.length < 16) : full stack = true :=
    decide_eq_true (Nat.le_antisymm hle (Nat.not_lt.mp h))
  constructor
  · rintro ⟨fuel, hrun⟩
    induction fuel generalizing i stack with
    | zero => cases hrun
    | succ fuel ih =>
      by_cases hlt : stack.length < 16
      · obtain ⟨hfold, hle, -⟩ := scan_step hi (hroom hlt)
        rw [scanPath_go hi hlt] at hrun
        rw [hfold]
        exact ih hle (hnext hlt) hrun
      · rw [scanPath_stop hlt] at hrun
        rw [foldUntil_of_stop (hfull hstack hlt)]
        exact hrun
  · intro hfold
    induction hn : path.length - i using Nat.strong_induction_on generalizing i stack with
    | _ n ih =>
      by_cases hlt : stack.length < 16
      · obtain ⟨hstep, hle, hmoves⟩ := scan_step hi (hroom hlt)
        by_cases hend : i < path.length
        · rw [hstep] at hfold
          obtain ⟨fuel, hrun⟩ := ih _ (by have := hmoves hend; omega) hle (hnext hlt) hfold rfl
          exact ⟨fuel + 1, (scanPath_go hi hlt).trans hrun⟩
        · -- at the end of the path the loop reads nothing, again and again
          rw [List.drop_of_length_le (Nat.not_lt.mp hend), pieces_nil, foldUntil_cons_self (push_nil _),
            foldUntil_nil_eq_none (hroom hlt)] at hfold
          cases hfold
      · rw [foldUntil_of_stop (hfull hstack hlt)] at hfold
        exact ⟨1, (scanPath_stop hlt).trans hfold⟩

/-! ## The buffer -/

/-- A buffer of `size` characters with a text and its terminator. -/
structure Shows (size : Nat) (a : Nat → UInt8) (t : List UInt8) : Prop where
  chars : Holds a t
  stop : a t.length = 0
  fits : t.length < size
  clean : 0 ∉ t

theorem Shows.unique {size : Nat} {a : Nat → UInt8} {t u : List UInt8} (ht : Shows size a t) (hu : Shows size a u) :
    t = u := by
  have hcell {v w : List UInt8} (hv : Shows size a v) (hw : Shows size a w) : ¬v.length < w.length := fun hlt => by
    have hat := List.getElem?_eq_getElem hlt
    have hzero := (hw.chars v.length _ hat).symm.trans hv.stop
    exact hw.clean (hzero ▸ List.getElem_mem hlt)
  have hlength := Nat.le_antisymm (Nat.not_lt.mp (hcell hu ht)) (Nat.not_lt.mp (hcell ht hu))
  rw [← ht.chars.map_range, ← hu.chars.map_range, hlength]

theorem Shows.strlen {size : Nat} {a : Nat → UInt8} {t : List UInt8} (h : Shows size a t) {fuel n : Nat}
    (hn : n ≤ t.length) (hfuel : t.length < n + fuel) : fishStrlen size a fuel n = some t.length := by
  induction fuel generalizing n with
  | zero => omega
  | succ fuel ih =>
    rw [fishStrlen, get_of_lt (Nat.lt_of_le_of_lt hn h.fits), Option.bind_some]
    rcases Nat.lt_or_eq_of_le hn with hlt | rfl
    · have hat := List.getElem?_eq_getElem hlt
      have hne : a n ≠ 0 := fun hzero => h.clean (by
        rw [← hzero, h.chars n _ hat]
        exact List.getElem_mem hlt)
      rw [if_neg hne]
      exact ih hlt (by omega)
    · exact if_pos h.stop

theorem Shows.strcat {max : UInt32} {a : Nat → UInt8} {t : List UInt8} (h : Shows max.toNat a t) {src : List UInt8}
    (hsrc : 0 ∉ src) : ∃ b, fishStrcat a src max = some b ∧ Shows max.toNat b ((t ++ src).take (max.toNat - 1)) := by
  have hpos := h.fits
  have hlimit : (max - 1).toNat = max.toNat - 1 := UInt32.toNat_sub_of_le max 1 (UInt32.le_iff_toNat_le.mpr (by
    change 1 ≤ max.toNat
    omega))
  let n := min src.length (max.toNat - 1 - t.length)
  have hn : n ≤ src.length ∧ t.length + n < max.toNat := by
    simp only [n]
    omega
  have htext : (t ++ src).take (max.toNat - 1) = t ++ src.take n := by
    rw [List.take_append, List.take_of_length_le (by omega)]
    exact congrArg _ (List.take_eq_take_iff.mpr (by simp only [n]; omega))
  let written (k : Nat) (b : Nat → UInt8) : Prop :=
    ∀ i, b i = if t.length ≤ i ∧ i < t.length + k then src.getD (i - t.length) 0 else a i
  obtain ⟨b, hloop, hb⟩ : ∃ b, forEachM n (fun i (dst : Nat → UInt8) =>
      put max.toNat dst (t.length + i) (src.getD i 0)) a = some b ∧ written n b :=
    forEachM_induction (P := written) (fun i => (if_neg (by omega)).symm) fun k b hk hb => by
      refine ⟨_, put_of_lt (by omega) _, fun i => ?_⟩
      rw [Function.update_apply, hb i]
      by_cases hi : i = t.length + k
      · rw [if_pos hi, if_pos (by omega), hi, Nat.add_sub_cancel_left]
      · rw [if_neg hi]
        by_cases hin : t.length ≤ i ∧ i < t.length + k
        · rw [if_pos hin, if_pos (by omega)]
        · rw [if_neg hin, if_neg (by omega)]
  have hlength : (src.take n).length = n := List.length_take_of_le hn.1
  refine ⟨Function.update b (t.length + n) 0, ?_, ?_⟩
  · rw [fishStrcat, h.strlen (Nat.zero_le _) (by omega), Option.bind_some, hlimit]
    change (forEachM n _ a).bind _ = _
    rw [hloop, Option.bind_some]
    exact put_of_lt hn.2 0
  · rw [htext]
    refine ⟨Holds.append ?_ ?_, ?_, ?_, ?_⟩
    · refine h.chars.congr fun i hi => ?_
      rw [Function.update_of_ne (by omega), hb i, if_neg (by omega)]
    · intro i x hx
      have hi := (List.getElem?_eq_some_iff.mp hx).1
      rw [hlength] at hi
      rw [List.getElem?_take, if_pos hi] at hx
      dsimp only
      rw [Function.update_of_ne (by omega), hb, if_pos (by omega), Nat.add_sub_cancel_left,
        List.getD_eq_getElem?_getD, hx]
      rfl
    · rw [List.length_append, hlength]
      exact Function.update_self _ _ _
    · rw [List.length_append, hlength]
      exact hn.2
    · intro hmem
      rcases List.mem_append.mp hmem with hmem | hmem
      · exact h.clean hmem
      · exact hsrc (List.mem_of_mem_take hmem)

theorem take_take_append (t u : List UInt8) (m : Nat) : (t.take m ++ u).take m = (t ++ u).take m := by
  rw [List.take_append, List.take_append, List.take_take, Nat.min_self, List.length_take]
  by_cases h : t.length ≤ m
  · rw [Nat.min_eq_right h]
  · rw [Nat.min_eq_left (Nat.le_of_not_le h), Nat.sub_self, Nat.sub_eq_zero_of_le (Nat.le_of_not_le h)]

theorem writeNames_spec {max : UInt32} {a : Nat → UInt8} {t : List UInt8}
    (h : Shows max.toNat a (t.take (max.toNat - 1))) {ns : List (List UInt8)} (hns : ∀ n ∈ ns, 0 ∉ n) :
    ∃ b, writeNames ns max a = some b ∧
      Shows max.toNat b ((t ++ ns.flatMap fun n => slash :: n).take (max.toNat - 1)) := by
  induction ns generalizing t a with
  | nil =>
    refine ⟨a, rfl, ?_⟩
    rw [List.flatMap_nil, List.append_nil]
    exact h
  | cons n ns ih =>
    obtain ⟨b, hslash, hb⟩ := @Shows.strcat max a _ h [slash] (by decide)
    rw [take_take_append] at hb
    obtain ⟨c, hname, hc⟩ := hb.strcat (hns n List.mem_cons_self)
    rw [take_take_append] at hc
    obtain ⟨d, hrun, hd⟩ := ih hc fun m hm => hns m (List.mem_cons_of_mem n hm)
    refine ⟨d, ?_, ?_⟩
    · rw [writeNames, List.foldlM_cons, hslash]
      change (fishStrcat b n max).bind _ = _
      rw [hname]
      exact hrun
    · have htext : t ++ ((n :: ns).flatMap fun n => slash :: n) = t ++ [slash] ++ n ++ ns.flatMap fun n => slash :: n := by
        rw [List.flatMap_cons, List.append_assoc, List.append_assoc]
        rfl
      rw [htext]
      exact hd

/-! ## The whole function -/

theorem foldUntil_start (path : List UInt8) :
    foldUntil (push dot) full [] (pieces (path.drop (if 0 < path.length ∧ path[0]? = some slash then 1 else 0))) =
      foldUntil (push dot) full [] (pieces path) := by
  cases path with
  | nil => rfl
  | cons c r =>
    by_cases hc : c = slash
    · have hpieces : pieces (slash :: r) = [] :: pieces r := pieces_append (w := []) List.not_mem_nil r
      rw [hc, if_pos ⟨Nat.succ_pos _, rfl⟩, List.drop_succ_cons, List.drop_zero, hpieces,
        foldUntil_cons_self (push_nil _)]
    · rw [if_neg fun hand => hc (Option.some.inj hand.2), List.drop_zero]

theorem of_mem_pieces {path w : List UInt8} (h : w ∈ pieces path) : w ⊆ path ∧ slash ∉ w ∧ w.length ≤ 63 := by
  obtain ⟨c, hc, hw⟩ := List.mem_flatMap.mp h
  obtain ⟨k, -, rfl⟩ := List.mem_map.mp hw
  have hsub : (c.drop (64 * k)).take 63 ⊆ c := List.Subset.trans (List.take_subset _ _) (List.drop_subset _ _)
  obtain ⟨hclean, hpath⟩ := of_mem_splitOn hc
  refine ⟨List.Subset.trans hsub hpath, fun hmem => hclean (hsub hmem), ?_⟩
  rw [List.length_take]
  exact Nat.min_le_left _ _

theorem pieces_absolute {ns : List (List UInt8)} (hne : ns ≠ []) (hns : ∀ n ∈ ns, slash ∉ n ∧ n.length ≤ 63) :
    pieces (absolute slash ns) = [] :: ns := by
  rw [pieces, splitOn_absolute hne fun n hn => (hns n hn).1, List.flatMap_cons]
  refine congrArg ([[]] ++ ·) ?_
  clear hne
  induction ns with
  | nil => rfl
  | cons n ns ih =>
    rw [List.flatMap_cons, cut_short (hns n List.mem_cons_self).2, ih fun m hm => hns m (List.mem_cons_of_mem n hm)]
    rfl

/-- The shortest beginning of a path that comes to sixteen names. -/
structure Beginning (path : List UInt8) (k : Nat) : Prop where
  sixteen : (namesOf dot ((pieces path).take k)).length = 16
  shortest : ∀ j < k, (namesOf dot ((pieces path).take j)).length ≠ 16

theorem foldUntil_eq_some {path : List UInt8} {st : List (List UInt8)} :
    foldUntil (push dot) full [] (pieces path) = some st ↔
      ∃ k, Beginning path k ∧ st = namesOf dot ((pieces path).take k) := by
  rw [foldUntil_eq_some_iff]
  constructor
  · rintro ⟨k, rfl, hstop, hfirst⟩
    exact ⟨k, ⟨of_decide_eq_true hstop, fun j hj => of_decide_eq_false (hfirst j hj)⟩, rfl⟩
  · rintro ⟨k, ⟨hsixteen, hshortest⟩, rfl⟩
    exact ⟨k, rfl, decide_eq_true hsixteen, fun j hj => decide_eq_false (hshortest j hj)⟩

theorem scan_iff {path : List UInt8} {st : List (List UInt8)} :
    (∃ fuel, scanPath path fuel (if 0 < path.length ∧ path[0]? = some slash then 1 else 0) [] = some st) ↔
      ∃ k, Beginning path k ∧ st = namesOf dot ((pieces path).take k) := by
  have hstart : (if 0 < path.length ∧ path[0]? = some slash then 1 else 0) ≤ path.length := by
    split
    · rename_i hand
      exact hand.1
    · exact Nat.zero_le _
  rw [scanPath_iff hstart (Nat.zero_le _), foldUntil_start, foldUntil_eq_some]

theorem normalizePath_spec {path : List UInt8} (hpath : 0 ∉ path) {outMax : UInt32} (hmax : 0 < outMax.toNat)
    (out : Nat → UInt8) {k fuel : Nat} (hk : Beginning path k)
    (hscan : scanPath path fuel (if 0 < path.length ∧ path[0]? = some slash then 1 else 0) [] =
      some (namesOf dot ((pieces path).take k))) : ∃ out', fishNormalizePath fuel path outMax out = some out' ∧
      Shows outMax.toNat out' ((absolute slash (namesOf dot ((pieces path).take k))).take (outMax.toNat - 1)) := by
  have hne : (namesOf dot ((pieces path).take k)).length ≠ 0 := by
    rw [hk.sixteen]
    decide
  have hzero : ∀ n ∈ namesOf dot ((pieces path).take k), 0 ∉ n := foldl_push_forall
    (fun n hn => absurd hn List.not_mem_nil)
    fun c hc hmem => hpath ((of_mem_pieces (List.mem_of_mem_take hc)).1 hmem)
  have hempty : Shows outMax.toNat (Function.update out 0 0) (([] : List UInt8).take (outMax.toNat - 1)) := by
    rw [List.take_nil]
    exact ⟨holds_nil _, Function.update_self _ _ _, hmax, List.not_mem_nil⟩
  obtain ⟨out', hwrite, hshows⟩ := writeNames_spec hempty hzero
  refine ⟨out', ?_, ?_⟩
  · rw [fishNormalizePath, hscan, Option.bind_some, put_of_lt hmax, Option.bind_some, if_neg hne]
    exact hwrite
  · rw [absolute, if_neg (List.length_pos_iff.mp (Nat.pos_of_ne_zero hne))]
    exact hshows

theorem scan_of_normalizePath {path : List UInt8} {fuel : Nat} {outMax : UInt32} {out out' : Nat → UInt8}
    (h : fishNormalizePath fuel path outMax out = some out') :
    0 < outMax.toNat ∧ ∃ st, scanPath path fuel (if 0 < path.length ∧ path[0]? = some slash then 1 else 0) [] = some st := by
  rw [fishNormalizePath] at h
  obtain ⟨st, hscan, h⟩ := Option.bind_eq_some_iff.mp h
  obtain ⟨a, hput, -⟩ := Option.bind_eq_some_iff.mp h
  refine ⟨Nat.pos_of_ne_zero fun hzero => ?_, st, hscan⟩
  rw [put, hzero] at hput
  cases hput

theorem normalizePath_shows_iff {path : List UInt8} (hpath : 0 ∉ path) {outMax : UInt32} (out : Nat → UInt8)
    {t : List UInt8} : (∃ fuel out', fishNormalizePath fuel path outMax out = some out' ∧ Shows outMax.toNat out' t) ↔
      0 < outMax.toNat ∧ ∃ k, Beginning path k ∧
        (absolute slash (namesOf dot ((pieces path).take k))).take (outMax.toNat - 1) = t := by
  constructor
  · rintro ⟨fuel, out', hrun, ht⟩
    obtain ⟨hmax, st, hscan⟩ := scan_of_normalizePath hrun
    obtain ⟨k, hk, rfl⟩ := scan_iff.mp ⟨fuel, hscan⟩
    obtain ⟨out'', hrun', hshows⟩ := normalizePath_spec hpath hmax out hk hscan
    rw [hrun] at hrun'
    cases hrun'
    exact ⟨hmax, k, hk, hshows.unique ht⟩
  · rintro ⟨hmax, k, hk, rfl⟩
    obtain ⟨fuel, hscan⟩ := scan_iff.mpr ⟨k, hk, rfl⟩
    obtain ⟨out', hrun, hshows⟩ := normalizePath_spec hpath hmax out hk hscan
    exact ⟨fuel, out', hrun, hshows⟩

/-! ## When the function does what its name says -/

/-- The path that another comes to. -/
def normalPath (path : List UInt8) : List UInt8 := absolute slash (names slash dot path)

/-- The function ends, has written nothing outside its buffer, and leaves the normal path there; that has no dots and no
slash after another, and is left again when it is normalized. -/
structure Normalizes (path : List UInt8) (outMax : UInt32) (out : Nat → UInt8) : Prop where
  result : ∃ fuel out', fishNormalizePath fuel path outMax out = some out' ∧ Shows outMax.toNat out' (normalPath path)
  noDots : ∀ c ∈ (normalPath path).splitOn slash, c ≠ [dot] ∧ c ≠ [dot, dot]
  single : ¬[slash, slash] <:+: normalPath path
  again : ∃ fuel out', fishNormalizePath fuel (normalPath path) outMax out = some out' ∧
    Shows outMax.toNat out' (normalPath path)

/-- A path that comes to sixteen names, as its shortest beginning of sixteen names does, as far as the buffer goes. -/
structure Sixteen (path : List UInt8) (outMax : UInt32) : Prop where
  count : (names slash dot path).length = 16
  beginning : ∃ k, Beginning path k ∧
    (absolute slash (namesOf dot ((pieces path).take k))).take (outMax.toNat - 1) = normalPath path

theorem absolute_clean {ns : List (List UInt8)} (h : ∀ n ∈ ns, 0 ∉ n) : 0 ∉ absolute slash ns := by
  rw [absolute]
  split
  · decide
  · intro hmem
    obtain ⟨n, hn, hmem⟩ := List.mem_flatMap.mp hmem
    rcases List.mem_cons.mp hmem with heq | hmem
    · exact absurd heq (by decide)
    · exact h n hn hmem

theorem normalPath_clean {path : List UInt8} (hpath : 0 ∉ path) : 0 ∉ normalPath path :=
  absolute_clean (foldl_push_forall (fun _ hn => absurd hn List.not_mem_nil)
    fun _ hc hmem => hpath ((of_mem_splitOn hc).2 hmem))

theorem beginning_names (path : List UInt8) (k : Nat) :
    ∀ n ∈ namesOf dot ((pieces path).take k), slash ∉ n ∧ n.length ≤ 63 :=
  foldl_push_forall (fun _ hn => absurd hn List.not_mem_nil)
    fun _ hc => (of_mem_pieces (List.mem_of_mem_take hc)).2

theorem Beginning.ne_nil {path : List UInt8} {k : Nat} (hk : Beginning path k) :
    namesOf dot ((pieces path).take k) ≠ [] :=
  List.length_pos_iff.mp (by rw [hk.sixteen]; decide)

theorem names_of_beginning {path : List UInt8} {k m : Nat} (hk : Beginning path k) {ns : List (List UInt8)}
    (hne : ns ≠ []) (hns : ∀ n ∈ ns, slash ∉ n)
    (hcut : (absolute slash (namesOf dot ((pieces path).take k))).take m = absolute slash ns) :
    (∀ n ∈ ns, n.length ≤ 63) ∧ ns.length ≤ 16 := by
  have hprefix : absolute slash ns <+: absolute slash (namesOf dot ((pieces path).take k)) :=
    hcut ▸ List.take_prefix m _
  have hbeginning := beginning_names path k
  have hsingle : ∀ n ∈ namesOf dot ((pieces path).take k), slash ∉ n := fun n hn => (hbeginning n hn).1
  constructor
  · have hshort : ∀ c ∈ (absolute slash (namesOf dot ((pieces path).take k))).splitOn slash, c.length ≤ 63 := by
      rw [splitOn_absolute hk.ne_nil hsingle]
      intro c hc
      rcases List.mem_cons.mp hc with rfl | hc
      · exact Nat.zero_le _
      · exact (hbeginning c hc).2
    intro n hn
    refine splitOn_length_le hprefix hshort n ?_
    rw [splitOn_absolute hne hns]
    exact List.mem_cons_of_mem _ hn
  · rw [← count_absolute hne hns, ← hk.sixteen, ← count_absolute hk.ne_nil hsingle]
    exact hprefix.sublist.count_le slash

theorem namesOf_normal {ns : List (List UInt8)} (h : ∀ n ∈ ns, IsName slash dot n) (k : Nat) :
    namesOf dot (([] :: ns).take k) = ns.take (k - 1) := by
  cases k with
  | zero => rfl
  | succ k =>
    rw [namesOf, List.take_succ_cons, List.foldl_cons, push_nil,
      foldl_push_names fun n hn => h n (List.mem_of_mem_take hn), List.nil_append, Nat.add_sub_cancel]

theorem not_beginning_root (k : Nat) : ¬Beginning [slash] k := fun hk => by
  have hpieces : pieces [slash] = [[], []] := rfl
  have hnone : namesOf dot ((pieces [slash]).take k) = [] := by
    rw [hpieces]
    rcases k with _ | _ | k
    · rfl
    · rfl
    · rw [List.take_of_length_le (Nat.le_add_left 2 k)]
      rfl
  exact hk.ne_nil hnone

theorem Normalizes.sixteen {path : List UInt8} (hpath : 0 ∉ path) {outMax : UInt32} {out : Nat → UInt8}
    (h : Normalizes path outMax out) : Sixteen path outMax := by
  obtain ⟨-, k, hk, hcut⟩ := (normalizePath_shows_iff hpath out).mp h.result
  obtain ⟨-, j, hj, -⟩ := (normalizePath_shows_iff (normalPath_clean hpath) out).mp h.again
  refine ⟨?_, k, hk, hcut⟩
  have hnames := @names_isName UInt8 _ slash dot path
  by_cases hne : names slash dot path = []
  · -- the normal path is the root, and that does not end
    rw [normalPath, hne] at hj
    exact absurd hj (not_beginning_root j)
  · obtain ⟨hshort, hle⟩ := names_of_beginning hk hne (fun n hn => (hnames n hn).single) hcut
    have hsixteen := hj.sixteen
    rw [normalPath, pieces_absolute hne fun n hn => ⟨(hnames n hn).single, hshort n hn⟩, namesOf_normal hnames,
      List.length_take] at hsixteen
    omega

theorem Sixteen.normalizes {path : List UInt8} (hpath : 0 ∉ path) {outMax : UInt32} (h : Sixteen path outMax)
    (out : Nat → UInt8) : Normalizes path outMax out := by
  obtain ⟨hsixteen, k, hk, hcut⟩ := h
  have hnames := @names_isName UInt8 _ slash dot path
  have hne : names slash dot path ≠ [] := List.length_pos_iff.mp (by rw [hsixteen]; decide)
  obtain ⟨hshort, -⟩ := names_of_beginning hk hne (fun n hn => (hnames n hn).single) hcut
  have hpieces := pieces_absolute hne fun n hn => ⟨(hnames n hn).single, hshort n hn⟩
  have hlength : (normalPath path).length ≤ outMax.toNat - 1 := by
    rw [← hcut, List.length_take]
    exact Nat.min_le_left _ _
  have hmax : 0 < outMax.toNat := by
    have hpos : (normalPath path).count slash ≤ (normalPath path).length := List.count_le_length
    rw [normalPath, count_absolute hne fun n hn => (hnames n hn).single] at hpos
    rw [normalPath] at hlength
    omega
  refine ⟨(normalizePath_shows_iff hpath out).mpr ⟨hmax, k, hk, hcut⟩, absolute_noDots hnames, absolute_single hnames,
    (normalizePath_shows_iff (normalPath_clean hpath) out).mpr ⟨hmax, 17, ⟨?_, fun j hj => ?_⟩, ?_⟩⟩
  · rw [normalPath, hpieces, namesOf_normal hnames, List.take_of_length_le (Nat.le_of_eq hsixteen)]
    exact hsixteen
  · rw [normalPath, hpieces, namesOf_normal hnames, List.length_take]
    omega
  · rw [normalPath, hpieces, namesOf_normal hnames, List.take_of_length_le (Nat.le_of_eq hsixteen)]
    exact List.take_of_length_le hlength

theorem normalizePath_of_few {path : List UInt8} (h : (pieces path).length < 16) (fuel : Nat) (outMax : UInt32)
    (out : Nat → UInt8) : fishNormalizePath fuel path outMax out = none := by
  refine Option.eq_none_iff_forall_ne_some.mpr fun out' hrun => ?_
  obtain ⟨-, st, hscan⟩ := scan_of_normalizePath hrun
  obtain ⟨k, hk, -⟩ := scan_iff.mp ⟨fuel, hscan⟩
  have hle : (namesOf dot ((pieces path).take k)).length ≤ ([] : List (List UInt8)).length + ((pieces path).take k).length :=
    foldl_push_length_le _ _
  rw [hk.sixteen, List.length_nil, List.length_take] at hle
  omega

/-- The function normalizes a path exactly when sixteen names end its loop and the rest of the path changes nothing. -/
theorem fishNormalizePath_normalizes_iff (path : List UInt8) (outMax : UInt32) (out : Nat → UInt8) (hpath : 0 ∉ path) :
    Normalizes path outMax out ↔ Sixteen path outMax :=
  ⟨fun h => h.sixteen hpath, fun h => h.normalizes hpath out⟩

namespace SixteenNames

/-- `/a/b/c/d/e/f/g/h/i/j/k/l/m/n/o/p` -/
def path : List UInt8 := (List.range 16).flatMap fun n => [slash, 0x61 + UInt8.ofNat n]

theorem path_normalizes : Normalizes path 256 fun _ => 0 :=
  (fishNormalizePath_normalizes_iff path 256 (fun _ => 0) (by decide)).mpr
    ⟨by decide, 17, ⟨by decide, by decide⟩, by decide⟩

/-- `/a` is not normalized: the loop over it does not end. -/
theorem one_never_ends :
    (∀ fuel, fishNormalizePath fuel [slash, 0x61] 256 (fun _ => 0) = none) ∧ ¬Normalizes [slash, 0x61] 256 fun _ => 0 :=
  ⟨fun fuel => normalizePath_of_few (by decide) fuel 256 _,
    fun h => absurd (h.sixteen (by decide)).count (by decide)⟩

end SixteenNames

end Chicago95.Stage2.FishPath
