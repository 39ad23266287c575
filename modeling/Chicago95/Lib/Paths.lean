/-
# Chicago95.Lib.Paths — paths cut into components of bounded length.

A path is a list of letters; `sep` separates its components, and a reader with a buffer of `limit` letters
takes a component up to the next separator or until the buffer is full, so that a longer name comes out in
pieces. What is needed of all this: a last name that fits the buffer is a component of its own, after the
components of what stands before it (`components_snoc`), and a path whose names all fit is read as the names between its
separators (`components_eq_names`).
-/
import Mathlib.Data.List.TakeWhile
import Mathlib.Tactic.Common

namespace Chicago95.Lib.Paths

variable {α : Type*} [DecidableEq α]

/-! ## Reading a path -/

/-- The path without the separators at its front. -/
def skip (sep : α) (p : List α) : List α := p.dropWhile fun a => decide (a = sep)

/-- The component at the front of a path, as much of it as the buffer holds. -/
def component (sep : α) (limit : Nat) (p : List α) : List α :=
  (p.takeWhile fun a => decide (a ≠ sep)).take limit

/-- What is left of a path after its first component and the separators behind that. -/
def rest (sep : α) (limit : Nat) (p : List α) : List α :=
  skip sep (p.drop (component sep limit p).length)

/-- The components read one after the other, at most `fuel` of them. -/
def split (sep : α) (limit : Nat) : Nat → List α → List (List α)
  | 0, _ => []
  | fuel + 1, p => if p = [] then [] else component sep limit p :: split sep limit fuel (rest sep limit p)

/-- The components of a path. -/
def components (sep : α) (limit : Nat) (path : List α) : List (List α) :=
  split sep limit path.length (skip sep path)

/-- The names between the separators of a path, the empty ones left out. -/
def names (sep : α) (path : List α) : List (List α) :=
  (path.splitOn sep).filter fun name => decide (name ≠ [])

/-- The letters behind the last separator. -/
def lastName (sep : α) (path : List α) : List α :=
  (path.reverse.takeWhile fun a => decide (a ≠ sep)).reverse

/-- The letters before the last separator. -/
def front (sep : α) (path : List α) : List α :=
  (path.reverse.dropWhile fun a => decide (a ≠ sep)).tail.reverse

/-! ## Separators at the front -/

variable {sep : α} {limit : Nat}

theorem length_skip_le (sep : α) (p : List α) : (skip sep p).length ≤ p.length :=
  List.length_dropWhile_le _ _

theorem skip_head (p : List α) : ∀ a ∈ (skip sep p).head?, a ≠ sep := by
  intro a ha
  have h := List.head?_dropWhile_not (fun a => decide (a = sep)) p
  rw [skip] at ha
  rw [Option.mem_def.mp ha] at h
  simpa using h

theorem skip_eq_self {p : List α} (h : ∀ a ∈ p.head?, a ≠ sep) : skip sep p = p := by
  cases p with
  | nil => rfl
  | cons a p =>
    have ha : a ≠ sep := h a rfl
    simp [skip, ha]

theorem skip_cons_sep (p : List α) : skip sep (sep :: p) = skip sep p := by
  simp [skip]

/-! ## One component -/

theorem component_ne_nil {p : List α} (hlimit : 0 < limit) (hne : p ≠ []) (h : ∀ a ∈ p.head?, a ≠ sep) :
    component sep limit p ≠ [] := by
  cases p with
  | nil => exact absurd rfl hne
  | cons a p =>
    have ha : a ≠ sep := h a rfl
    obtain ⟨n, rfl⟩ : ∃ n, limit = n + 1 := ⟨limit - 1, by omega⟩
    simp [component, ha]

theorem length_component_le (p : List α) : (component sep limit p).length ≤ p.length := by
  have h := (List.takeWhile_sublist (l := p) fun a => decide (a ≠ sep)).length_le
  rw [component, List.length_take]
  omega

theorem component_append (p q : List α) : component sep limit (p ++ sep :: q) = component sep limit p := by
  unfold component
  rw [List.takeWhile_append]
  split
  · next hfull =>
      have hp : (p.takeWhile fun a => decide (a ≠ sep)) = p :=
        (List.takeWhile_prefix _).eq_of_length hfull
      rw [hp, List.takeWhile_cons, if_neg (by simp), List.append_nil]
  · rfl

theorem component_eq_self {name : List α} (hlen : name.length ≤ limit) (hsep : sep ∉ name) :
    component sep limit name = name := by
  have htake : (name.takeWhile fun a => decide (a ≠ sep)) = name :=
    List.takeWhile_eq_self_iff.mpr fun a ha => by simpa using fun h : a = sep => hsep (h ▸ ha)
  rw [component, htake, List.take_of_length_le hlen]

theorem length_rest_lt {p : List α} (hlimit : 0 < limit) (hne : p ≠ [])
    (h : ∀ a ∈ p.head?, a ≠ sep) : (rest sep limit p).length < p.length := by
  have hpos : 0 < (component sep limit p).length :=
    List.length_pos_iff.mpr (component_ne_nil hlimit hne h)
  have hle : (component sep limit p).length ≤ p.length := length_component_le p
  have hskip := length_skip_le sep (p.drop (component sep limit p).length)
  rw [List.length_drop] at hskip
  rw [rest]
  omega

theorem rest_head (p : List α) : ∀ a ∈ (rest sep limit p).head?, a ≠ sep := skip_head _

/-! ## All components -/

theorem split_fuel (hlimit : 0 < limit) : ∀ {fuel fuel' : Nat} {p : List α},
    p.length ≤ fuel → p.length ≤ fuel' → (∀ a ∈ p.head?, a ≠ sep) →
      split sep limit fuel p = split sep limit fuel' p := by
  intro fuel
  induction fuel with
  | zero =>
    intro fuel' p hf _ _
    obtain rfl : p = [] := List.length_eq_zero_iff.mp (by omega)
    cases fuel' with
    | zero => rfl
    | succ fuel' => simp [split]
  | succ fuel ih =>
    intro fuel' p hf hf' hhead
    by_cases hp : p = []
    · subst hp
      cases fuel' with
      | zero => simp [split]
      | succ fuel' => simp [split]
    · have hpos : 0 < p.length := List.length_pos_iff.mpr hp
      obtain ⟨m, rfl⟩ : ∃ m, fuel' = m + 1 := ⟨fuel' - 1, by omega⟩
      have hlt := length_rest_lt hlimit hp hhead
      rw [split, split, if_neg hp, if_neg hp,
        ih (by omega) (by omega : (rest sep limit p).length ≤ m) (rest_head p)]

theorem components_eq (hlimit : 0 < limit) (path : List α) :
    components sep limit path = if skip sep path = [] then [] else
      component sep limit (skip sep path) :: components sep limit (rest sep limit (skip sep path)) := by
  by_cases hp : skip sep path = []
  · rw [if_pos hp, components, hp]
    cases path.length with
    | zero => rfl
    | succ n => simp [split]
  · have hle := length_skip_le sep path
    have hpos : 0 < (skip sep path).length := List.length_pos_iff.mpr hp
    obtain ⟨m, hm⟩ : ∃ m, path.length = m + 1 := ⟨path.length - 1, by omega⟩
    have hlt := length_rest_lt hlimit hp (skip_head path)
    rw [if_neg hp, components, hm, split, if_neg hp, components,
      skip_eq_self (rest_head (skip sep path)),
      split_fuel hlimit (by omega) (Nat.le_refl _) (rest_head _)]

theorem components_skip (hlimit : 0 < limit) (path : List α) :
    components sep limit (skip sep path) = components sep limit path := by
  rw [components_eq hlimit, components_eq hlimit path, skip_eq_self (skip_head path)]

/-! ## Names that fit -/

theorem names_cons_sep (p : List α) : names sep (sep :: p) = names sep p := by
  unfold names
  rw [List.splitOn_cons_eq_if_modifyHead, if_pos (beq_self_eq_true sep), List.filter_cons_of_neg (by simp)]

theorem names_skip (p : List α) : names sep (skip sep p) = names sep p := by
  induction p with
  | nil => rfl
  | cons a p ih =>
    by_cases ha : a = sep
    · rw [ha, skip_cons_sep, ih, names_cons_sep]
    · rw [skip_eq_self (by simpa using ha)]

theorem beq_sep_of_not_mem {name : List α} (hsep : sep ∉ name) : ∀ a ∈ name, (a == sep) = false :=
  fun a ha => by simpa using fun h : a = sep => hsep (h ▸ ha)

theorem names_self {name : List α} (hne : name ≠ []) (hsep : sep ∉ name) : names sep name = [name] := by
  unfold names
  rw [List.splitOn_eq_splitOnP, List.splitOnP_eq_singleton (beq_sep_of_not_mem hsep)]
  simp [hne]

theorem names_append {name : List α} (hne : name ≠ []) (hsep : sep ∉ name) (p : List α) :
    names sep (name ++ sep :: p) = name :: names sep p := by
  unfold names
  rw [List.splitOn_eq_splitOnP, List.splitOnP_append_cons_of_forall_mem (beq_sep_of_not_mem hsep) sep (by simp),
    List.filter_cons_of_pos (by simpa using hne), List.splitOn_eq_splitOnP]

theorem name_at_front {p : List α} (hne : p ≠ []) (hhead : ∀ a ∈ p.head?, a ≠ sep) :
    ∃ name, name ≠ [] ∧ sep ∉ name ∧ (p = name ∨ ∃ q, p = name ++ sep :: q) := by
  refine ⟨p.takeWhile fun a => decide (a ≠ sep), ?_, fun hmem => ?_, ?_⟩
  · cases p with
    | nil => exact absurd rfl hne
    | cons a p =>
      have ha : a ≠ sep := hhead a rfl
      simp [ha]
  · simpa using List.mem_takeWhile_imp hmem
  · have hsplit := List.takeWhile_append_dropWhile (p := fun a => decide (a ≠ sep)) (l := p)
    cases hrest : p.dropWhile fun a => decide (a ≠ sep) with
    | nil =>
      rw [hrest, List.append_nil] at hsplit
      exact Or.inl hsplit.symm
    | cons b q =>
      have hb : b = sep := by
        have hlast := List.head?_dropWhile_not (fun a => decide (a ≠ sep)) p
        rw [hrest] at hlast
        simpa using hlast
      rw [hrest, hb] at hsplit
      exact Or.inr ⟨q, hsplit.symm⟩

/-- **Names that fit are the components.** -/
theorem components_eq_names (hlimit : 0 < limit) (path : List α) (hfit : ∀ name ∈ names sep path, name.length ≤ limit) :
    components sep limit path = names sep path := by
  induction hn : path.length using Nat.strong_induction_on generalizing path with
  | _ n ih =>
    rw [components_eq hlimit]
    rw [← names_skip] at hfit ⊢
    have hle := length_skip_le sep path
    have hhead : ∀ a ∈ (skip sep path).head?, a ≠ sep := skip_head path
    generalize skip sep path = p at hfit hle hhead ⊢
    by_cases hp : p = []
    · rw [if_pos hp, hp]
      rfl
    · rw [if_neg hp]
      obtain ⟨name, hne, hsep, rfl | ⟨q, rfl⟩⟩ := name_at_front hp hhead
      · rw [names_self hne hsep] at hfit ⊢
        have hcomp : component sep limit p = p := component_eq_self (hfit _ List.mem_cons_self) hsep
        rw [rest, hcomp, List.drop_length]
        rfl
      · rw [names_append hne hsep] at hfit ⊢
        have hcomp : component sep limit name = name := component_eq_self (hfit _ List.mem_cons_self) hsep
        rw [List.length_append, List.length_cons] at hle
        rw [rest, component_append, hcomp, List.drop_left, skip_cons_sep, components_skip hlimit,
          ih q.length (by omega) q (fun m hm => hfit m (List.mem_cons_of_mem _ hm)) rfl]

/-! ## The last name and what stands before it -/

theorem sep_not_mem_lastName (path : List α) : sep ∉ lastName sep path := by
  intro h
  have hp := List.mem_takeWhile_imp (List.mem_reverse.mp h)
  simp at hp

theorem lastName_eq_self {path : List α} (h : sep ∉ path) : lastName sep path = path := by
  have htake : (path.reverse.takeWhile fun a => decide (a ≠ sep)) = path.reverse :=
    List.takeWhile_eq_self_iff.mpr fun a ha => by
      simpa using fun he : a = sep => h (he ▸ List.mem_reverse.mp ha)
  rw [lastName, htake, List.reverse_reverse]

theorem front_append_lastName {path : List α} (h : sep ∈ path) : front sep path ++ sep :: lastName sep path = path := by
  set stop := path.reverse.dropWhile fun a => decide (a ≠ sep) with hstop
  have hcut : (path.reverse.takeWhile fun a => decide (a ≠ sep)) ++ stop = path.reverse :=
    List.takeWhile_append_dropWhile
  cases hs : stop with
  | nil =>
    rw [hs, List.append_nil] at hcut
    have hmem : sep ∈ path.reverse := List.mem_reverse.mpr h
    rw [← hcut] at hmem
    simpa using List.mem_takeWhile_imp hmem
  | cons a tail =>
    have ha : a = sep := by
      have hhead := List.head?_dropWhile_not (fun a => decide (a ≠ sep)) path.reverse
      rw [← hstop, hs] at hhead
      simpa using hhead
    subst ha
    have hback : (path.reverse.takeWhile fun x => decide (x ≠ a)) ++ a :: tail = path.reverse := by
      rw [← hs]
      exact hcut
    rw [lastName, front, ← hstop, hs, List.tail_cons]
    calc tail.reverse ++ a :: (path.reverse.takeWhile fun x => decide (x ≠ a)).reverse
        = ((path.reverse.takeWhile fun x => decide (x ≠ a)) ++ a :: tail).reverse := by simp
      _ = path := by rw [hback, List.reverse_reverse]

/-! ## Names of a path that goes on -/

@[simp] theorem names_nil : names sep ([] : List α) = [] := by
  unfold names
  simp [List.splitOn_nil]

theorem names_append_sep (p q : List α) : names sep (p ++ sep :: q) = names sep p ++ names sep q := by
  unfold names
  rw [List.splitOn_eq_splitOnP, List.splitOnP_append_cons p q (by simp), List.filter_append,
    List.splitOn_eq_splitOnP, List.splitOn_eq_splitOnP]

theorem flatten_names (path : List α) : (names sep path).flatten = path.filter fun a => decide (a ≠ sep) := by
  induction hn : path.length using Nat.strong_induction_on generalizing path with
  | _ n ih =>
    by_cases hp : path = []
    · subst hp
      simp
    by_cases hhead : ∀ a ∈ path.head?, a ≠ sep
    · obtain ⟨name, hne, hsep, rfl | ⟨q, rfl⟩⟩ := name_at_front hp hhead
      · rw [names_self hne hsep, List.flatten_singleton, List.filter_eq_self.mpr]
        exact fun a ha => by simpa using fun h : a = sep => hsep (h ▸ ha)
      · have hname : name.filter (fun a => decide (a ≠ sep)) = name :=
          List.filter_eq_self.mpr fun a ha => by simpa using fun h : a = sep => hsep (h ▸ ha)
        rw [names_append hne hsep, List.flatten_cons, List.filter_append, List.filter_cons_of_neg (by simp),
          ih q.length (by rw [← hn]; simp; omega) q rfl, hname]
    · obtain ⟨a, q, rfl⟩ := List.exists_cons_of_ne_nil hp
      obtain rfl : a = sep := by simpa using hhead
      rw [names_cons_sep, List.filter_cons_of_neg (by simp), ih q.length (by rw [← hn]; simp) q rfl]

theorem names_spec {name path : List α} (h : name ∈ names sep path) : name ≠ [] ∧ sep ∉ name := by
  refine ⟨by simpa using (List.mem_filter.mp h).2, fun hsep => ?_⟩
  have hmem : sep ∈ (names sep path).flatten := List.mem_flatten.mpr ⟨name, h, hsep⟩
  rw [flatten_names] at hmem
  simpa using (List.mem_filter.mp hmem).2

theorem names_append_eq_iff (p q : List α) : names sep (p ++ q) = names sep p ↔ ∀ a ∈ q, a = sep := by
  constructor
  · intro h
    have hletters := congrArg List.flatten h
    rw [flatten_names, flatten_names, List.filter_append, List.append_right_eq_self, List.filter_eq_nil_iff] at hletters
    exact fun a ha => by simpa using hletters a ha
  · intro h
    induction q generalizing p with
    | nil => rw [List.append_nil]
    | cons a q ih =>
      obtain rfl : a = sep := h a List.mem_cons_self
      have hq := ih [] fun b hb => h b (List.mem_cons_of_mem _ hb)
      rw [List.nil_append, names_nil] at hq
      rw [names_append_sep, hq, List.append_nil]

theorem names_longer_ne {name r : List α} (hsep : sep ∉ name) (hr : r ≠ [])
    (hhead : ∀ a ∈ r.head?, a ≠ sep) (l t : List (List α)) : l ++ name :: t ≠ l ++ names sep (name ++ r) := by
  obtain ⟨more, hne, hmore, hcase⟩ := name_at_front hr hhead
  have hlong : sep ∉ name ++ more := by
    rw [List.mem_append, not_or]
    exact ⟨hsep, hmore⟩
  intro h
  have hnames := List.append_cancel_left h
  rcases hcase with rfl | ⟨q, rfl⟩
  · rw [names_self (by simp [hne]) hlong] at hnames
    simpa [hne] using (List.cons.inj hnames).1
  · rw [← List.append_assoc, names_append (by simp [hne]) hlong] at hnames
    simpa [hne] using (List.cons.inj hnames).1

/-- **Where whole names go on**, what follows has the names that are left. -/
theorem names_go_on {p r : List α} (h : names sep p <+: names sep (p ++ r)) :
    names sep (p ++ r) = names sep p ++ names sep r := by
  cases r with
  | nil => rw [List.append_nil, names_nil, List.append_nil]
  | cons a r =>
    by_cases ha : a = sep
    · subst ha
      rw [names_append_sep, names_cons_sep]
    by_cases hlast : lastName sep p = []
    -- nothing stands between the last separator and what follows
    · by_cases hmem : sep ∈ p
      · have hcut := front_append_lastName hmem
        rw [hlast] at hcut
        rw [← hcut, List.append_assoc, List.cons_append, List.nil_append, names_append_sep, names_append_sep,
          names_nil, List.append_nil]
      · rw [lastName_eq_self hmem] at hlast
        rw [hlast, List.nil_append, names_nil, List.nil_append]
    -- a name that is cut in two is none of the names
    · exfalso
      have hself := names_self hlast (sep_not_mem_lastName p)
      have hne := names_longer_ne (r := a :: r) (sep_not_mem_lastName p) (List.cons_ne_nil a r) (by simpa using ha)
      obtain ⟨t, ht⟩ := h
      by_cases hmem : sep ∈ p
      · have hcut := front_append_lastName hmem
        rw [← hcut, List.append_assoc, List.cons_append, names_append_sep, names_append_sep, hself,
          List.append_assoc, List.singleton_append] at ht
        exact hne _ _ ht
      · rw [lastName_eq_self hmem] at hself hne
        rw [hself, List.singleton_append] at ht
        exact hne [] t ht

end Chicago95.Lib.Paths
