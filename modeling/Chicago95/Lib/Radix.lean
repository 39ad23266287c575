/-
# Chicago95.Lib.Radix — trees of tables in memory.

A table is an address, its entries are `mem t i`, and an entry of a table at depth `d` may lead to a
table one deeper, `child d e`. `walk` follows a path of indices from the root; paths are written with the
last index first, so that the tables on the way to a table are the suffixes of its path.
-/
import Mathlib.Data.List.Basic
import Mathlib.Logic.Function.Basic

namespace Chicago95.Lib.Radix

variable {Addr Idx Entry : Type*} {child : Nat → Entry → Option Addr} {mem mem' : Addr → Idx → Entry}
  {root t : Addr} {p q : List Idx} {i : Idx} {place : Addr → Option (List Idx)}

/-- The table a path leads to. -/
def walk (child : Nat → Entry → Option Addr) (mem : Addr → Idx → Entry) (root : Addr) :
    List Idx → Option Addr
  | [] => some root
  | i :: p => (walk child mem root p).bind fun t => child p.length (mem t i)

@[simp] theorem walk_nil : walk child mem root [] = some root := rfl

theorem walk_cons (i : Idx) (p : List Idx) : walk child mem root (i :: p) =
      (walk child mem root p).bind fun t => child p.length (mem t i) := rfl

theorem walk_step (h : walk child mem root p = some t) (i : Idx) :
    walk child mem root (i :: p) = child p.length (mem t i) := by
  rw [walk_cons, h]
  rfl

theorem of_walk_cons (h : walk child mem root (i :: p) = some t) :
    ∃ u, walk child mem root p = some u ∧ child p.length (mem u i) = some t :=
  Option.bind_eq_some_iff.mp h

theorem walk_unique (h : walk child mem root p = some t) : ∀ u, walk child mem root p = some u → u = t :=
  fun _ hu => Option.some.inj (hu.symm.trans h)

theorem walk_none_of_suffix (h : walk child mem root p = none) :
    ∀ {q : List Idx}, p <:+ q → walk child mem root q = none := by
  intro q
  induction q with
  | nil =>
    intro hpq
    rwa [List.suffix_nil.mp hpq] at h
  | cons i q ih =>
    intro hpq
    rcases List.suffix_cons_iff.mp hpq with rfl | hpq
    · exact h
    · rw [walk_cons, ih hpq]
      rfl

/-- **The tables form a tree**, with `place` for the path of each. -/
structure Placed (child : Nat → Entry → Option Addr) (mem : Addr → Idx → Entry) (root : Addr)
    (place : Addr → Option (List Idx)) : Prop where
  root_eq : place root = some []
  next : ∀ {t : Addr} {p : List Idx} {i : Idx} {t' : Addr}, place t = some p →
    child p.length (mem t i) = some t' → place t' = some (i :: p)

namespace Placed

theorem place_of_walk (h : Placed child mem root place) : ∀ {p : List Idx} {t : Addr},
    walk child mem root p = some t → place t = some p := by
  intro p
  induction p with
  | nil =>
    intro t ht
    rw [← Option.some.inj ht]
    exact h.root_eq
  | cons i p ih =>
    intro t ht
    obtain ⟨u, hu, hchild⟩ := of_walk_cons ht
    exact h.next (ih hu) hchild

theorem walk_inj (h : Placed child mem root place) (hp : walk child mem root p = some t)
    (hq : walk child mem root q = some t) : p = q :=
  Option.some.inj ((h.place_of_walk hp).symm.trans (h.place_of_walk hq))

/-- **A walk reads only the entries on its path.** -/
theorem walk_congr (h : Placed child mem root place) : ∀ {q : List Idx},
    (∀ t p i, place t = some p → i :: p <:+ q → mem' t i = mem t i) →
    walk child mem' root q = walk child mem root q := by
  intro q
  induction q with
  | nil => intro _; rfl
  | cons i q ih =>
    intro hsame
    have hrest := ih fun t p j hp hj => hsame t p j hp (hj.trans (List.suffix_cons i q))
    rw [walk_cons, walk_cons, hrest]
    rcases hwalk : walk child mem root q with _ | t
    · rfl
    · show child q.length (mem' t i) = child q.length (mem t i)
      rw [hsame t q i (h.place_of_walk hwalk) (List.suffix_refl _)]

theorem of_walk_inj (h : ∀ p q t, walk child mem root p = some t → walk child mem root q = some t → p = q) :
    ∃ place, Placed child mem root place ∧ ∀ t p, place t = some p ↔ walk child mem root p = some t := by
  classical
  have hiff : ∀ t p, (if hp : ∃ q, walk child mem root q = some t then some hp.choose else none) = some p ↔
      walk child mem root p = some t := by
    intro t p
    constructor
    · intro ht
      split at ht
      · rename_i hreach
        obtain rfl := Option.some.inj ht
        exact hreach.choose_spec
      · cases ht
    · intro hp
      have hreach : ∃ q, walk child mem root q = some t := ⟨p, hp⟩
      rw [dif_pos hreach, h _ _ _ hreach.choose_spec hp]
  refine ⟨_, ⟨(hiff root []).mpr rfl, fun {t p i t'} ht hchild => ?_⟩, hiff⟩
  rw [hiff] at ht ⊢
  rw [walk_cons, ht]
  exact hchild

theorem exists_reached (h : Placed child mem root place) : ∃ place', Placed child mem root place' ∧
      ∀ t p, place' t = some p ↔ walk child mem root p = some t :=
  of_walk_inj fun _ _ _ hp hq => h.walk_inj hp hq

theorem congr (h : Placed child mem root place)
    (hsame : ∀ t p i, place t = some p → child p.length (mem' t i) = child p.length (mem t i) ∨
      child p.length (mem' t i) = none) : Placed child mem' root place where
  root_eq := h.root_eq
  next {t p i t'} hp hchild := by
    rcases hsame t p i hp with heq | hnone
    · exact h.next hp (heq ▸ hchild)
    · rw [hnone] at hchild
      cases hchild

/-- **Nothing else moves**: with a new table `n` under entry `i` of the table at `p`, every other path
leads where it led. -/
theorem walk_link_of_ne (h : Placed child mem root place) {n : Addr}
    (hp : ∀ u, walk child mem root p = some u → u = t) (hplace : place t = some p)
    (hn : place n = none) (hold : child p.length (mem t i) = none)
    (hsame : ∀ u j, u ≠ n → ¬(u = t ∧ j = i) → mem' u j = mem u j)
    (hleads : ∀ u, child p.length (mem' t i) = some u → u = n)
    (hempty : ∀ j, child (p.length + 1) (mem' n j) = none) {q : List Idx} (hq : q ≠ i :: p) :
    walk child mem' root q = walk child mem root q := by
  -- A path that does not pass the written entry reads the same entries.
  have haway : ∀ {r : List Idx}, ¬ i :: p <:+ r → walk child mem' root r = walk child mem root r := by
    intro r hr
    refine h.walk_congr fun u a j hu hsuffix => hsame u j ?_ ?_
    · rintro rfl
      rw [hn] at hu
      cases hu
    · rintro ⟨rfl, rfl⟩
      obtain rfl := Option.some.inj (hplace.symm.trans hu)
      exact hr hsuffix
  by_cases hsuffix : i :: p <:+ q
  · -- A path through it and on led nowhere, and the new table is empty.
    have hself : walk child mem root (i :: p) = none := by
      rw [walk_cons]
      rcases hwalk : walk child mem root p with _ | u
      · rfl
      · obtain rfl := hp u hwalk
        exact hold
    obtain ⟨a, rfl⟩ := hsuffix
    obtain rfl | ⟨a, j, rfl⟩ := List.eq_nil_or_concat a
    · exact absurd rfl hq
    · have hnone : walk child mem' root (j :: i :: p) = none := by
        rw [walk_cons, walk_cons, haway fun hs => absurd hs.length_le (by simp)]
        rcases hwalk : walk child mem root p with _ | u
        · rfl
        · obtain rfl := hp u hwalk
          rcases hchild : child p.length (mem' u i) with _ | u'
          · simp only [Option.bind_some, hchild, Option.bind_none]
          · obtain rfl := hleads u' hchild
            simpa only [Option.bind_some, hchild, List.length_cons] using hempty j
      have hmore : j :: i :: p <:+ a.concat j ++ i :: p := ⟨a, by simp⟩
      rw [walk_none_of_suffix hnone hmore,
        walk_none_of_suffix hself ((List.suffix_cons j _).trans hmore)]
  · exact haway hsuffix

variable [DecidableEq Addr]

/-- **A new table.** Entry `i` of the table at `p` is written, the rest of the tree's entries stay, and
the table `n`, which had no place, leads nowhere. -/
theorem link (h : Placed child mem root place) {n : Addr} (hp : place t = some p)
    (hn : place n = none)
    (hsame : ∀ u j, u ≠ n → ¬(u = t ∧ j = i) → mem' u j = mem u j)
    (hleads : ∀ u, child p.length (mem' t i) = some u → u = n)
    (hempty : ∀ j, child (p.length + 1) (mem' n j) = none) :
    Placed child mem' root (Function.update place n (some (i :: p))) where
  root_eq := by
    have hne : root ≠ n := by
      rintro rfl
      rw [h.root_eq] at hn
      cases hn
    rw [Function.update_of_ne hne]
    exact h.root_eq
  next {u r j u'} hr hchild := by
    by_cases hu : u = n
    · -- the new table leads nowhere
      subst hu
      rw [Function.update_self] at hr
      obtain rfl := Option.some.inj hr
      rw [show (i :: p).length = p.length + 1 from rfl, hempty j] at hchild
      cases hchild
    · rw [Function.update_of_ne hu] at hr
      by_cases hentry : u = t ∧ j = i
      · obtain ⟨rfl, rfl⟩ := hentry
        obtain rfl := Option.some.inj (hp.symm.trans hr)
        rw [hleads u' hchild, Function.update_self]
      · rw [hsame u j hu hentry] at hchild
        have hplace := h.next hr hchild
        have hne : u' ≠ n := by
          rintro rfl
          rw [hn] at hplace
          cases hplace
        rw [Function.update_of_ne hne]
        exact hplace

end Placed

end Chicago95.Lib.Radix
