/-
# Chicago95.Stage2.Vmm — the loader's page tables, `stage2/memory/vmm.c`.

Memory is pages of 512 entries. Four levels of tables hang from the PML4 at `0x1000`; each function walks
them with `vmm_get_pdpt`, `vmm_get_pd` and `vmm_get_pt`, which make the missing table when they are asked
to. The contents of a page that `pmm_alloc_page` returns are whatever was there before, and a new table
has only its `present` and `frame` fields cleared.
-/
import Chicago95.Lib.Radix
import Chicago95.Stage2.Pmm

namespace Chicago95.Stage2

open Chicago95.Lib.Radix
open Function (update_of_ne update_self update_eq_self update)

/-! ## Entries -/

def pageFlagPresent : UInt64 := (1 : UInt64) <<< 0
def pageFlagRw : UInt64 := (1 : UInt64) <<< 1
def pageFlagUser : UInt64 := (1 : UInt64) <<< 2
def pageFlagWriteThr : UInt64 := (1 : UInt64) <<< 3
def pageFlagCacheDis : UInt64 := (1 : UInt64) <<< 4
def pageFlagGlobal : UInt64 := (1 : UInt64) <<< 8
def pageFlagNoExec : UInt64 := (1 : UInt64) <<< 63

/-- `page_entry_t`, the fields that something here writes or reads. -/
structure PageEntry where
  present : Bool
  rw : Bool
  user : Bool
  writeThr : Bool
  cacheDis : Bool
  huge : Bool
  global : Bool
  frame : Nat
  nx : Bool
  deriving DecidableEq

namespace PageEntry

/-- An entry with no bit set. -/
def zero : PageEntry :=
  { present := false, rw := false, user := false, writeThr := false, cacheDis := false, huge := false,
    global := false, frame := 0, nx := false }

/-- `pte_set_frame` -/
def setFrame (e : PageEntry) (phys : Nat) : PageEntry :=
  { e with frame := phys / pageSize % 2 ^ 36 }

/-- `frame << PAGE_SHIFT` -/
def address (e : PageEntry) : Nat := e.frame * pageSize % 2 ^ 40

/-- `(page_entry_t *)((uint64_t)frame << PAGE_SHIFT)`: the number of the page, `none` for a null
pointer. -/
def table (e : PageEntry) : Option Nat :=
  if e.frame % 2 ^ 20 = 0 then none else some (e.frame % 2 ^ 20)

/-- An entry that is made to lead to a new table. -/
def link (e : PageEntry) (table : Nat) : PageEntry :=
  { e with present := true, rw := true, user := false }.setFrame
    (ofPointer (toPointer (table * pageSize)))

end PageEntry

/-! ## Tables -/

/-- The page tables: memory by page number, and the pages that `pmm_alloc_page` will return, in order,
`0` for a null pointer. -/
structure Vmm where
  mem : Nat → Fin 512 → PageEntry
  supply : List Nat

def clusterMapMax : Nat := 2 ^ 20

def vmmPml4 : Nat := 1

/-- `(virtual >> shift) & 0x1FF` -/
def index (shift : Nat) (virtual : UInt64) : Fin 512 := Fin.ofNat 512 (virtual.toNat / 2 ^ shift)

namespace Vmm

/-- An entry of a table is written. -/
def setEntry (s : Vmm) (table : Nat) (i : Fin 512) (e : PageEntry) : Vmm :=
  { s with mem := update s.mem table (update (s.mem table) i e) }

def pmmAllocPage (s : Vmm) : Option Nat × Vmm :=
  match s.supply with
  | [] => (none, s)
  | page :: rest => (if page = 0 then none else some page, { s with supply := rest })

/-- The loop of `vmm_alloc_table`. -/
def clearTable (s : Vmm) (table : Nat) : Vmm :=
  { s with mem := update s.mem table fun i =>
      { s.mem table i with present := false, frame := 0 } }

def vmmAllocTable (s : Vmm) : Option Nat × Vmm :=
  match s.pmmAllocPage with
  | (none, s) => (none, s)
  | (some table, s) => (some table, s.clearTable table)

/-- The body of the three functions below. -/
def getTable (checksHuge : Bool) (s : Vmm) (table : Nat) (i : Fin 512) (create : Bool) :
    Option Nat × Vmm :=
  if (s.mem table i).present then
    if checksHuge && (s.mem table i).huge then (none, s) else ((s.mem table i).table, s)
  else if create then
    match s.vmmAllocTable with
    | (none, s) => (none, s)
    | (some next, s) => (some next, s.setEntry table i ((s.mem table i).link next))
  else (none, s)

/-- `vmm_get_pdpt`, which does not look at `huge`. -/
def vmmGetPdpt (s : Vmm) (pml4 : Nat) (virtual : UInt64) (create : Bool) : Option Nat × Vmm :=
  getTable false s pml4 (index 39 virtual) create

def vmmGetPd (s : Vmm) (pdpt : Nat) (virtual : UInt64) (create : Bool) : Option Nat × Vmm :=
  getTable true s pdpt (index 30 virtual) create

def vmmGetPt (s : Vmm) (pd : Nat) (virtual : UInt64) (create : Bool) : Option Nat × Vmm :=
  getTable true s pd (index 21 virtual) create

/-! ## Mapping and unmapping -/

def vmmMapPage (s : Vmm) (virtual physical flags : UInt64) : Int × Vmm :=
  match s.vmmGetPdpt vmmPml4 virtual true with
  | (none, s) => (-1, s)
  | (some pdpt, s) =>
    match s.vmmGetPd pdpt virtual true with
    | (none, s) => (-1, s)
    | (some pd, s) =>
      match s.vmmGetPt pd virtual true with
      | (none, s) => (-1, s)
      | (some pt, s) =>
        let i := index 12 virtual
        if (s.mem pt i).present then (-2, s)
        else
          (0, s.setEntry pt i ({ s.mem pt i with
            present := flags &&& pageFlagPresent != 0
            rw := flags &&& pageFlagRw != 0
            user := flags &&& pageFlagUser != 0
            writeThr := flags &&& pageFlagWriteThr != 0
            cacheDis := flags &&& pageFlagCacheDis != 0
            global := flags &&& pageFlagGlobal != 0
            nx := flags &&& pageFlagNoExec != 0 }.setFrame physical.toNat))

/-- `vmm_get_page_entry`: the table and the index of the entry. -/
def vmmGetPageEntry (s : Vmm) (virtual : UInt64) : Option (Nat × Fin 512) :=
  match (s.vmmGetPdpt vmmPml4 virtual false).1 with
  | none => none
  | some pdpt =>
    match (s.vmmGetPd pdpt virtual false).1 with
    | none => none
    | some pd =>
      match (s.vmmGetPt pd virtual false).1 with
      | none => none
      | some pt => some (pt, index 12 virtual)

def vmmUnmapPage (s : Vmm) (virtual : UInt64) : Int × Vmm :=
  match (s.vmmGetPdpt vmmPml4 virtual false).1 with
  | none => (-1, s)
  | some pdpt =>
    match (s.vmmGetPd pdpt virtual false).1 with
    | none => (-1, s)
    | some pd =>
      match (s.vmmGetPt pd virtual false).1 with
      | none => (-1, s)
      | some pt =>
        let i := index 12 virtual
        (0, s.setEntry pt i { s.mem pt i with present := false, frame := 0 })

def vmmIsMapped (s : Vmm) (virtual : UInt64) : Bool :=
  match s.vmmGetPageEntry virtual with
  | none => false
  | some (pt, i) => (s.mem pt i).present

def vmmGetPhysical (s : Vmm) (virtual : UInt64) : Nat :=
  match (s.vmmGetPdpt vmmPml4 virtual false).1 with
  | none => 0
  | some pdpt =>
    let pdptEntry := s.mem pdpt (index 39 virtual)
    if pdptEntry.huge then pdptEntry.address ||| virtual.toNat % 2 ^ 30
    else
      match (s.vmmGetPd pdpt virtual false).1 with
      | none => 0
      | some pd =>
        let pdEntry := s.mem pd (index 30 virtual)
        if pdEntry.huge then pdEntry.address ||| virtual.toNat % 2 ^ 21
        else
          match (s.vmmGetPt pd virtual false).1 with
          | none => 0
          | some pt => (s.mem pt (index 12 virtual)).address ||| virtual.toNat % 2 ^ 12

/-! ## The tree -/

/-- Where an entry of a table at a depth leads: nothing hangs below a page table. -/
def child : Nat → PageEntry → Option Nat
  | 0, e => if e.present then e.table else none
  | 1, e | 2, e => if e.present && !e.huge then e.table else none
  | _ + 3, _ => none

theorem child_of_not_present {d : Nat} {e : PageEntry} (h : e.present = false) : child d e = none := by
  match d with
  | 0 | 1 | 2 => simp [child, h]
  | _ + 3 => rfl

theorem of_child {d : Nat} {e : PageEntry} {t : Nat} (h : child d e = some t) :
    e.present = true ∧ e.table = some t ∧ (d ≠ 0 → e.huge = false) := by
  match d with
  | 0 =>
    simp only [child] at h
    split at h <;> simp_all
  | 1 | 2 =>
    simp only [child] at h
    split at h <;> simp_all
  | _ + 3 => cases h

theorem child_of_huge {d : Nat} {e : PageEntry} (hd : d ≠ 0) (h : e.huge = true) : child d e = none := by
  match d with
  | 1 | 2 => simp [child, h]
  | _ + 3 => rfl

/-- The table a path of indices leads to. -/
abbrev walk (s : Vmm) (p : List (Fin 512)) : Option Nat := Lib.Radix.walk child s.mem vmmPml4 p

theorem walk_step {s : Vmm} {p : List (Fin 512)} {t : Nat} (h : s.walk p = some t) (i : Fin 512) :
    s.walk (i :: p) = child p.length (s.mem t i) :=
  Lib.Radix.walk_step h i

theorem of_walk_cons {s : Vmm} {p : List (Fin 512)} {i : Fin 512} {u : Nat}
    (h : s.walk (i :: p) = some u) : ∃ t, s.walk p = some t ∧ child p.length (s.mem t i) = some u :=
  Lib.Radix.of_walk_cons h

theorem walk_cons_of_none {s : Vmm} {p : List (Fin 512)} (h : s.walk p = none) (i : Fin 512) : s.walk (i :: p) = none :=
  walk_none_of_suffix h (List.suffix_cons i p)

/-- **The tables form a tree** in which each has its `place`, and the pages that will be handed out are
different pages below 4 GB and none of the tables. -/
structure Ready (s : Vmm) (place : Nat → Option (List (Fin 512))) : Prop where
  placed : Placed child s.mem vmmPml4 place
  small : ∀ n ∈ s.supply, n < 2 ^ 20
  fresh : ∀ n ∈ s.supply, n ≠ 0 → place n = none
  distinct : s.supply.Pairwise fun a b => a = b → a = 0

theorem table_setFrame (e : PageEntry) {n : Nat} (hn : n < 2 ^ 20) (hzero : n ≠ 0) :
    (e.setFrame (ofPointer (toPointer (n * pageSize)))).table = some n := by
  have hpointer : (toPointer (n * pageSize)).toNat = n * 4096 :=
    toNat_toPointer (by unfold pageSize; omega)
  have hframe : (e.setFrame (ofPointer (toPointer (n * pageSize)))).frame % 2 ^ 20 = n := by
    show ofPointer (toPointer (n * pageSize)) / 4096 % 2 ^ 36 % 2 ^ 20 = n
    unfold ofPointer
    rw [hpointer]
    split <;> omega
  unfold PageEntry.table
  rw [hframe, if_neg hzero]

theorem table_link {e : PageEntry} {n : Nat} (hn : n < 2 ^ 20) (hzero : n ≠ 0) : (e.link n).table = some n :=
  table_setFrame _ hn hzero

theorem child_link {d : Nat} {e : PageEntry} {n : Nat} (hd : d ≤ 2) (hn : n < 2 ^ 20) (hzero : n ≠ 0) :
    child d (e.link n) = if d ≠ 0 ∧ e.huge = true then none else some n := by
  have hhuge : (e.link n).huge = e.huge := rfl
  have hpresent : (e.link n).present = true := rfl
  match d with
  | 0 => simp [child, hpresent, table_link hn hzero]
  | 1 | 2 => rcases he : e.huge <;> simp [child, hpresent, hhuge, he, table_link hn hzero]

/-! ## What `vmm_get_*` does -/

/-- A page is taken for a new table, which entry `i` of the table `t` is made to lead to. -/
def linked (s : Vmm) (t : Nat) (i : Fin 512) (n : Nat) (rest : List Nat) : Vmm :=
  let s := ({ s with supply := rest } : Vmm).clearTable n
  s.setEntry t i ((s.mem t i).link n)

theorem getTable_lookup (s : Vmm) {d : Nat} (hd : d ≤ 2) (t : Nat) (i : Fin 512) :
    getTable (d != 0) s t i false = (child d (s.mem t i), s) := by
  unfold getTable
  match d with
  | 0 => rcases hp : (s.mem t i).present <;> simp [child, hp]
  | 1 | 2 =>
    rcases hp : (s.mem t i).present <;> rcases hh : (s.mem t i).huge <;> simp [child, hp, hh]

theorem vmmAllocTable_none {s s' : Vmm} (h : s.vmmAllocTable = (none, s')) :
    s'.mem = s.mem ∧ s'.supply <:+ s.supply := by
  unfold vmmAllocTable pmmAllocPage at h
  rcases hsupply : s.supply with _ | ⟨page, rest⟩
  · simp only [hsupply, Prod.mk.injEq, true_and] at h
    subst h
    exact ⟨rfl, hsupply ▸ List.suffix_refl _⟩
  · by_cases hzero : page = 0
    · simp only [hsupply, hzero, if_true, Prod.mk.injEq, true_and] at h
      subst h
      exact ⟨rfl, List.suffix_cons _ _⟩
    · simp [hsupply, hzero] at h

theorem vmmAllocTable_some {s s' : Vmm} {n : Nat} (h : s.vmmAllocTable = (some n, s')) :
    ∃ rest, s.supply = n :: rest ∧ n ≠ 0 ∧ s' = ({ s with supply := rest } : Vmm).clearTable n := by
  unfold vmmAllocTable pmmAllocPage at h
  rcases hsupply : s.supply with _ | ⟨page, rest⟩
  · simp [hsupply] at h
  · by_cases hzero : page = 0
    · simp [hsupply, hzero] at h
    · simp only [hsupply, hzero, if_false, Prod.mk.injEq, Option.some.injEq] at h
      obtain ⟨rfl, rfl⟩ := h
      exact ⟨rest, rfl, hzero, rfl⟩

theorem getTable_some {s s' : Vmm} {d t n : Nat} {i : Fin 512} (hd : d ≤ 2)
    (h : getTable (d != 0) s t i true = (some n, s')) : (s' = s ∧ child d (s.mem t i) = some n) ∨
      (∃ rest, s.supply = n :: rest ∧ n ≠ 0 ∧ (s.mem t i).present = false ∧ s' = s.linked t i n rest) := by
  rcases hp : (s.mem t i).present with _ | _
  · refine Or.inr ?_
    unfold getTable at h
    simp only [hp, Bool.false_eq_true, if_false, if_true] at h
    rcases halloc : s.vmmAllocTable with ⟨_ | m, s₁⟩
    · simp [halloc] at h
    · rw [halloc] at h
      obtain ⟨hm, rfl⟩ := Prod.mk.inj h
      obtain rfl := Option.some.inj hm
      obtain ⟨rest, hsupply, hzero, rfl⟩ := vmmAllocTable_some halloc
      exact ⟨rest, hsupply, hzero, rfl, rfl⟩
  · refine Or.inl ?_
    have hsame : getTable (d != 0) s t i true = getTable (d != 0) s t i false := by
      unfold getTable
      rw [hp]
      rfl
    rw [hsame, getTable_lookup s hd t i] at h
    obtain ⟨hchild, rfl⟩ := Prod.mk.inj h
    exact ⟨rfl, hchild⟩

theorem getTable_none {s s' : Vmm} {b : Bool} {t : Nat} {i : Fin 512}
    (h : getTable b s t i true = (none, s')) : s'.mem = s.mem ∧ s'.supply <:+ s.supply := by
  unfold getTable at h
  split at h
  · split at h <;> obtain ⟨-, rfl⟩ := Prod.mk.inj h <;> exact ⟨rfl, List.suffix_refl _⟩
  · rw [if_pos rfl] at h
    rcases halloc : s.vmmAllocTable with ⟨_ | n, s₁⟩
    · rw [halloc] at h
      obtain ⟨-, rfl⟩ := Prod.mk.inj h
      exact vmmAllocTable_none halloc
    · simp [halloc] at h

section

variable {s : Vmm} {place : Nat → Option (List (Fin 512))} {t n : Nat} {i : Fin 512}
  {p q : List (Fin 512)} {rest : List Nat}

theorem Ready.of_suffix {s' : Vmm} (h : Ready s place) (hmem : s'.mem = s.mem)
    (hsupply : s'.supply <:+ s.supply) : Ready s' place where
  placed := by
    rw [hmem]
    exact h.placed
  small n hn := h.small n (hsupply.subset hn)
  fresh n hn := h.fresh n (hsupply.subset hn)
  distinct := h.distinct.sublist hsupply.sublist

theorem Ready.take {s' : Vmm} (h : Ready s place) (hsupply : s.supply = n :: s'.supply) (hzero : n ≠ 0)
    (hplaced : Placed child s'.mem vmmPml4 (update place n (some p))) :
    Ready s' (update place n (some p)) := by
  have hrest : s'.supply <:+ s.supply := hsupply ▸ List.suffix_cons n _
  have hdistinct := h.distinct
  rw [hsupply, List.pairwise_cons] at hdistinct
  refine ⟨hplaced, fun m hm => h.small m (hrest.subset hm), fun m hm hm0 => ?_, hdistinct.2⟩
  rw [update_of_ne]
  · exact h.fresh m (hrest.subset hm) hm0
  · rintro rfl
    exact hzero (hdistinct.1 m hm rfl)

theorem linked_mem_of_ne {u : Nat} {j : Fin 512} (hu : u ≠ n) (hentry : ¬(u = t ∧ j = i)) :
    (s.linked t i n rest).mem u j = s.mem u j := by
  by_cases hut : u = t
  · subst hut
    have hj : j ≠ i := fun hj => hentry ⟨rfl, hj⟩
    simp [linked, setEntry, clearTable, update_of_ne hj, update_of_ne hu]
  · simp [linked, setEntry, clearTable, update_of_ne hut, update_of_ne hu]

theorem linked_mem_self (htn : t ≠ n) : (s.linked t i n rest).mem t i = (s.mem t i).link n := by
  simp [linked, setEntry, clearTable, update_of_ne htn]

theorem linked_mem_new (htn : t ≠ n) (j : Fin 512) :
    (s.linked t i n rest).mem n j = { s.mem n j with present := false, frame := 0 } := by
  simp [linked, setEntry, clearTable, update_of_ne htn.symm]

theorem linked_huge (htn : t ≠ n) (u : Nat) (j : Fin 512) :
    ((s.linked t i n rest).mem u j).huge = (s.mem u j).huge := by
  by_cases hu : u = n
  · subst hu
    rw [linked_mem_new htn]
  · by_cases hentry : u = t ∧ j = i
    · obtain ⟨rfl, rfl⟩ := hentry
      rw [linked_mem_self htn]
      rfl
    · rw [linked_mem_of_ne hu hentry]

end

/-- **What `vmm_get_*` leaves** when it returns `n` for entry `i` of the table `t` at place `p`. -/
structure Obtains (s s' : Vmm) (place place' : Nat → Option (List (Fin 512))) (t n : Nat) (i : Fin 512)
    (p : List (Fin 512)) : Prop where
  ready : Ready s' place'
  place_self : place' n = some (i :: p)
  place_of : ∀ u r, place u = some r → place' u = some r
  /-- Among the tables there were, only the entry asked for is written, and only if it was absent. -/
  kept : ∀ u j, place u ≠ none → ¬(u = t ∧ j = i) ∨ (s.mem u j).present = true →
    s'.mem u j = s.mem u j
  huge : ∀ u j, (s'.mem u j).huge = (s.mem u j).huge
  walk_ne : ∀ q, q ≠ i :: p → s'.walk q = s.walk q
  walk_self : s.walk p = some t →
    s'.walk (i :: p) = if p.length ≠ 0 ∧ (s.mem t i).huge = true then none else some n
  /-- A table that was reached before is used as it is. -/
  same : ∀ u, s.walk p = some t → s.walk (i :: p) = some u → s' = s ∧ n = u
  /-- A new one is empty. -/
  empty : s.walk p = some t → s.walk (i :: p) = none → ∀ j, (s'.mem n j).present = false
  named : n = (child p.length (s.mem t i)).getD (s.supply.headD 0)
  supply : s'.supply <:+ s.supply

theorem obtains_of_getTable {s s' : Vmm} {place : Nat → Option (List (Fin 512))} {t n : Nat}
    {i : Fin 512} {p : List (Fin 512)} (h : Ready s place) (hp : p.length ≤ 2)
    (hplace : place t = some p) (hwalk : ∀ u, s.walk p = some u → u = t)
    (hget : getTable (p.length != 0) s t i true = (some n, s')) :
    Obtains s s' place (update place n (some (i :: p))) t n i p := by
  rcases getTable_some hp hget with ⟨rfl, hchild⟩ | ⟨rest, hsupply, hzero, habsent, rfl⟩
  · -- the table is there
    have hn : place n = some (i :: p) := h.placed.next hplace hchild
    have hsame : update place n (some (i :: p)) = place := by
      rw [← hn]
      exact update_eq_self n place
    have hself : s'.walk p = some t → s'.walk (i :: p) = some n := by
      intro hw
      rw [walk_step hw]
      exact hchild
    refine ⟨by rwa [hsame], update_self .., fun _ _ hu => by rwa [hsame],
      fun _ _ _ _ => rfl, fun _ _ => rfl, fun _ _ => rfl, ?_, ?_, ?_,
      by rw [hchild]; rfl, List.suffix_refl _⟩
    · intro hw
      rw [hself hw, if_neg]
      rintro ⟨hlen, hhuge⟩
      rw [(of_child hchild).2.2 hlen] at hhuge
      cases hhuge
    · intro u hw hu
      exact ⟨rfl, Option.some.inj ((hself hw).symm.trans hu)⟩
    · intro hw hnone
      rw [hself hw] at hnone
      cases hnone
  · -- a new one
    have hmem : n ∈ s.supply := by rw [hsupply]; exact List.mem_cons_self
    have hfresh : place n = none := h.fresh n hmem hzero
    have hsmall : n < 2 ^ 20 := h.small n hmem
    have hplaced : ∀ {u}, place u ≠ none → u ≠ n := fun hu hun => hu (hun ▸ hfresh)
    have htn : t ≠ n := hplaced (by rw [hplace]; simp)
    have hold : child p.length (s.mem t i) = none := child_of_not_present habsent
    have hnew : child p.length ((s.linked t i n rest).mem t i) =
        if p.length ≠ 0 ∧ (s.mem t i).huge = true then none else some n := by
      rw [linked_mem_self htn, child_link hp hsmall hzero]
    have hleads : ∀ u, child p.length ((s.linked t i n rest).mem t i) = some u → u = n := by
      intro u hu
      rw [hnew] at hu
      split at hu
      · cases hu
      · exact (Option.some.inj hu).symm
    have hempty : ∀ j, child (p.length + 1) ((s.linked t i n rest).mem n j) = none := by
      intro j
      rw [linked_mem_new htn]
      exact child_of_not_present rfl
    have hne : ∀ q, q ≠ i :: p → (s.linked t i n rest).walk q = s.walk q := fun q hq =>
      h.placed.walk_link_of_ne hwalk hplace hfresh hold (fun _ _ hu he => linked_mem_of_ne hu he)
        hleads hempty hq
    have hrest : rest <:+ s.supply := hsupply ▸ List.suffix_cons n rest
    refine ⟨h.take hsupply hzero (h.placed.link hplace hfresh (fun _ _ hu he => linked_mem_of_ne hu he)
        hleads hempty), update_self .., fun u r hu => ?_, ?_, linked_huge htn, hne, ?_, ?_, ?_,
      by rw [hold, hsupply]; rfl, hrest⟩
    · rw [update_of_ne (hplaced (by rw [hu]; simp))]
      exact hu
    · rintro u j hu (hentry | hpresent)
      · exact linked_mem_of_ne (hplaced hu) hentry
      · refine linked_mem_of_ne (hplaced hu) ?_
        rintro ⟨rfl, rfl⟩
        rw [habsent] at hpresent
        cases hpresent
    · intro hw
      rw [walk_step ((hne p (by simp)).trans hw)]
      exact hnew
    · intro u hw hu
      rw [walk_step hw, hold] at hu
      cases hu
    · intro _ _ j
      rw [linked_mem_new htn]

theorem Obtains.walk_unique {s s' : Vmm} {place place' : Nat → Option (List (Fin 512))} {t n : Nat}
    {i : Fin 512} {p : List (Fin 512)} (h : Obtains s s' place place' t n i p) (hwalk : s.walk p = some t) :
    ∀ u, s'.walk (i :: p) = some u → u = n := by
  intro u hu
  rw [h.walk_self hwalk] at hu
  split at hu
  · cases hu
  · exact (Option.some.inj hu).symm

/-! ## Lookups as walks -/

/-- The place of the PDPT of an address. -/
abbrev pdptPath (v : UInt64) : List (Fin 512) := [index 39 v]
/-- The place of its PD. -/
abbrev pdPath (v : UInt64) : List (Fin 512) := [index 30 v, index 39 v]
/-- The place of its page table. -/
abbrev ptPath (v : UInt64) : List (Fin 512) := [index 21 v, index 30 v, index 39 v]

theorem vmmGetPdpt_false (s : Vmm) (v : UInt64) : s.vmmGetPdpt vmmPml4 v false = (s.walk (pdptPath v), s) :=
  getTable_lookup s (d := 0) (by omega) vmmPml4 (index 39 v)

theorem vmmGetPd_false {s : Vmm} {v : UInt64} {pdpt : Nat} (h : s.walk (pdptPath v) = some pdpt) :
    s.vmmGetPd pdpt v false = (s.walk (pdPath v), s) := by
  rw [walk_step h]
  exact getTable_lookup s (d := 1) (by omega) pdpt (index 30 v)

theorem vmmGetPt_false {s : Vmm} {v : UInt64} {pd : Nat} (h : s.walk (pdPath v) = some pd) :
    s.vmmGetPt pd v false = (s.walk (ptPath v), s) := by
  rw [walk_step h]
  exact getTable_lookup s (d := 2) (by omega) pd (index 21 v)

theorem walk_pd_of_none {s : Vmm} {v : UInt64} (h : s.walk (pdptPath v) = none) : s.walk (pdPath v) = none :=
  walk_cons_of_none h _

theorem walk_pt_of_none {s : Vmm} {v : UInt64} (h : s.walk (pdPath v) = none) : s.walk (ptPath v) = none :=
  walk_cons_of_none h _

theorem vmmGetPageEntry_eq (s : Vmm) (v : UInt64) :
    s.vmmGetPageEntry v = (s.walk (ptPath v)).map fun pt => (pt, index 12 v) := by
  unfold vmmGetPageEntry
  rw [vmmGetPdpt_false]
  rcases h3 : s.walk (pdptPath v) with _ | pdpt
  · rw [walk_pt_of_none (walk_pd_of_none h3)]
    rfl
  · simp only [vmmGetPd_false h3]
    rcases h2 : s.walk (pdPath v) with _ | pd
    · rw [walk_pt_of_none h2]
      rfl
    · simp only [vmmGetPt_false h2]
      rcases s.walk (ptPath v) with _ | pt <;> rfl

theorem vmmIsMapped_eq (s : Vmm) (v : UInt64) :
    s.vmmIsMapped v = ((s.walk (ptPath v)).map fun pt => (s.mem pt (index 12 v)).present).getD false := by
  unfold vmmIsMapped
  rw [vmmGetPageEntry_eq]
  rcases s.walk (ptPath v) with _ | pt <;> rfl

theorem vmmUnmapPage_eq (s : Vmm) (v : UInt64) :
    s.vmmUnmapPage v = match s.walk (ptPath v) with
      | none => (-1, s)
      | some pt => (0, s.setEntry pt (index 12 v)
          { s.mem pt (index 12 v) with present := false, frame := 0 }) := by
  unfold vmmUnmapPage
  rw [vmmGetPdpt_false]
  rcases h3 : s.walk (pdptPath v) with _ | pdpt
  · rw [walk_pt_of_none (walk_pd_of_none h3)]
  · simp only [vmmGetPd_false h3]
    rcases h2 : s.walk (pdPath v) with _ | pd
    · rw [walk_pt_of_none h2]
    · simp only [vmmGetPt_false h2]

/-! ## Where a translation comes from -/

/-- What `vmm_get_physical` takes the frame from: an entry of the PDPT or of the PD that is marked huge,
or the entry of the page in its page table. -/
inductive Source where
  | gigabyte (e : PageEntry)
  | megabytes (e : PageEntry)
  | page (pt : Nat)

/-- The source of an address, `none` where the lookup ends before it. -/
def source (s : Vmm) (v : UInt64) : Option Source :=
  match s.walk (pdptPath v) with
  | none => none
  | some pdpt =>
    if (s.mem pdpt (index 39 v)).huge then some (.gigabyte (s.mem pdpt (index 39 v)))
    else
      match s.walk (pdPath v) with
      | none => none
      | some pd =>
        if (s.mem pd (index 30 v)).huge then some (.megabytes (s.mem pd (index 30 v)))
        else (s.walk (ptPath v)).map .page

/-- The address that a source gives. -/
def physicalFrom (s : Vmm) (v : UInt64) : Source → Nat
  | .gigabyte e => e.address ||| v.toNat % 2 ^ 30
  | .megabytes e => e.address ||| v.toNat % 2 ^ 21
  | .page pt => (s.mem pt (index 12 v)).address ||| v.toNat % 2 ^ 12

theorem vmmGetPhysical_eq (s : Vmm) (v : UInt64) :
    s.vmmGetPhysical v = ((s.source v).map (s.physicalFrom v)).getD 0 := by
  unfold vmmGetPhysical source
  rw [vmmGetPdpt_false]
  rcases h3 : s.walk (pdptPath v) with _ | pdpt
  · rfl
  · simp only [vmmGetPd_false h3]
    rcases hg : (s.mem pdpt (index 39 v)).huge with _ | _
    · rcases h2 : s.walk (pdPath v) with _ | pd
      · rfl
      · simp only [vmmGetPt_false h2]
        rcases hm : (s.mem pd (index 30 v)).huge with _ | _
        · rcases s.walk (ptPath v) with _ | pt <;> rfl
        · rfl
    · rfl

theorem physicalFrom_odd (s : Vmm) {v : UInt64} (hv : v.toNat % 2 = 1) (src : Source) : s.physicalFrom v src ≠ 0 := by
  have hor : ∀ {a b : Nat}, b % 2 = 1 → a ||| b ≠ 0 := by
    intro a b hb hab
    have := (Nat.or_eq_zero_iff.mp hab).2
    omega
  cases src with
  | gigabyte e => exact hor (by omega)
  | megabytes e => exact hor (by omega)
  | page pt => exact hor (by omega)

end Vmm

end Chicago95.Stage2
