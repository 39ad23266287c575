/-
# Chicago95.Kernel.Slab — the slab allocator of `kmalloc.c`.

Objects of up to 256 bytes come from pages of equal slots, one list of pages for each of five slot
sizes. A page begins with a 32-byte header (`slab_page_t`): the slot count, the number of slots in use
and a bitmap of them. `slab_alloc` takes the first clear slot of the first page that has one, or of a
new page; `slab_free` finds the page by address, over all classes.
-/
import Chicago95.Lib.Bitmap
import Chicago95.Lib.Transition
import Chicago95.Kernel.Pmm
import Mathlib.Data.List.Pairwise

namespace Chicago95.Kernel

open Chicago95.Lib.Counting Chicago95.Lib.Transition
open Function (update_of_ne update_self update)

namespace Slab

/-! ## Slab pages -/

/-- An index into `slab_sizes`. -/
abbrev SlabClass := Fin 5

def slabSizes : List Nat := [16, 32, 64, 128, 256]

/-- `slab_sizes[c]` -/
def slotSize (c : SlabClass) : Nat := slabSizes.getD c.val 0

def slabPageObjects : Nat := 64

/-- `sizeof(slab_page_t)`, the offset of `objects`. -/
def slabHeader : Nat := 32

/-- `slab_page_t` at `addr`; a page has at most 64 slots, so its bitmap is one word. -/
structure SlabPage where
  addr : Nat
  slabClass : SlabClass
  total : Nat
  used : Nat
  bitmap : Nat → Bool

namespace SlabPage

/-- `&page->objects[idx * slab_sizes[c]]` -/
def slot (p : SlabPage) (c : SlabClass) (idx : Nat) : Nat := p.addr + slabHeader + idx * slotSize c

/-- `page->bitmap[w] |= mask; page->used++` -/
def take (p : SlabPage) (idx : Nat) : SlabPage :=
  { p with bitmap := update p.bitmap idx true, used := p.used + 1 }

/-- `page->bitmap[w] &= ~(1ULL << b); page->used--` -/
def drop (p : SlabPage) (idx : Nat) : SlabPage :=
  { p with bitmap := update p.bitmap idx false, used := p.used - 1 }

/-- `ptr` lies among the page's slots. -/
def holds (p : SlabPage) (c : SlabClass) (ptr : Nat) : Bool :=
  decide (p.slot c 0 ≤ ptr) && decide (ptr < p.slot c 0 + p.total * slotSize c)

/-- The search for the first free bit, among the slots there are. -/
def freeSlot (p : SlabPage) : Option Nat := (List.range p.total).find? fun b => !p.bitmap b

end SlabPage

abbrev SlabPages := SlabClass → List SlabPage

def slabInit : SlabPages := fun _ => []

/-- The slots that fit a page of the class, at most 64. -/
def slotCount (c : SlabClass) : Nat := min ((pageSize - slabHeader) / slotSize c) slabPageObjects

/-- `slab_new_page`, on the page `addr` that `pmm_alloc_page` returned. -/
def slabNewPage (c : SlabClass) (addr : Nat) : SlabPage :=
  { addr := addr, slabClass := c, total := slotCount c, used := 0, bitmap := fun _ => false }

/-- The smallest class that fits; `none` is for requests that `slab_alloc` hands on to `kmalloc`. -/
def slabClassOf (size : Nat) : Option SlabClass :=
  (List.finRange 5).find? fun c => decide (size ≤ slotSize c)

/-- Take the first free slot of a page, if there is one. -/
def takeFirst (c : SlabClass) (p : SlabPage) : Nat × SlabPage :=
  match p.freeSlot with
  | some idx => (p.slot c idx, p.take idx)
  | none => (0, p)

/-- The walk over the pages of a class: the first with `used < total` serves the request. -/
def allocIn (c : SlabClass) : List SlabPage → Option (Nat × List SlabPage)
  | [] => none
  | p :: rest =>
    if p.used < p.total then some ((takeFirst c p).1, (takeFirst c p).2 :: rest)
    else (allocIn c rest).map fun r => (r.1, p :: r.2)

/-- `slab_alloc`; `kmalloc` serves the larger requests. -/
def slabAlloc (kmalloc : Pmm → Nat → Nat × Pmm) (pmm : Pmm) (s : SlabPages) (size : Nat) :
    Nat × Pmm × SlabPages :=
  match slabClassOf size with
  | none =>
    let r := kmalloc pmm size
    (r.1, r.2, s)
  | some c =>
    match allocIn c (s c) with
    | some (ptr, pages) => (ptr, pmm, update s c pages)
    | none =>
      let r := pmm.pmmAllocPage
      if r.1 = 0 then (0, r.2, s)
      else
        let p := takeFirst c (slabNewPage c r.1)
        (p.1, r.2, update s c (p.2 :: s c))

/-- The walk of `slab_free` over the pages of a class. -/
def freeIn (c : SlabClass) (ptr : Nat) : List SlabPage → Option (List SlabPage)
  | [] => none
  | p :: rest =>
    if p.holds c ptr then some (p.drop ((ptr - p.slot c 0) / slotSize c) :: rest)
    else (freeIn c ptr rest).map (p :: ·)

/-- The classes `slab_free` has still to look at. -/
def freeAmong (s : SlabPages) (ptr : Nat) : List SlabClass → SlabPages
  | [] => s                       -- not in any slab: `kfree`
  | c :: rest =>
    match freeIn c ptr (s c) with
    | some pages => update s c pages
    | none => freeAmong s ptr rest

def slabFree (s : SlabPages) (ptr : Nat) : SlabPages :=
  if ptr = 0 then s else freeAmong s ptr (List.finRange 5)

/-! ## The classes -/

theorem slotSize_pos (c : SlabClass) : 0 < slotSize c := by
  revert c
  decide

theorem slotCount_fits (c : SlabClass) :
    slabHeader + slotCount c * slotSize c ≤ pageSize ∧ slotCount c ≤ 64 ∧ 0 < slotCount c := by
  revert c
  decide

theorem slabClassOf_some {size : Nat} {c : SlabClass} (h : slabClassOf size = some c) : size ≤ slotSize c := by
  simpa using List.find?_some h

theorem slabClassOf_isSome {size : Nat} (h : size ≤ 256) : ∃ c, slabClassOf size = some c := by
  rcases Option.eq_none_or_eq_some (slabClassOf size) with hn | ⟨c, hc⟩
  · have hlast := List.find?_eq_none.mp hn ⟨4, by decide⟩ (List.mem_finRange _)
    simp only [decide_eq_true_eq] at hlast
    exact absurd h hlast
  · exact ⟨c, hc⟩

theorem freeSlot_spec {p : SlabPage} {idx : Nat} (h : p.freeSlot = some idx) :
    idx < p.total ∧ p.bitmap idx = false := by
  refine ⟨List.mem_range.mp (List.mem_of_find?_eq_some h), ?_⟩
  simpa using List.find?_some h

theorem freeSlot_eq_none {p : SlabPage} (h : p.freeSlot = none) (idx : Nat) (hi : idx < p.total) :
    p.bitmap idx = true := by
  simpa using List.find?_eq_none.mp h idx (List.mem_range.mpr hi)

theorem allocIn_cases (c : SlabClass) (l : List SlabPage) : ((∀ p ∈ l, p.total ≤ p.used) ∧ allocIn c l = none) ∨
    ∃ before p after, l = before ++ p :: after ∧ p.used < p.total ∧
      allocIn c l = some ((takeFirst c p).1, before ++ (takeFirst c p).2 :: after) := by
  induction l with
  | nil => exact Or.inl ⟨fun p hp => (List.not_mem_nil hp).elim, rfl⟩
  | cons p rest ih =>
    by_cases hp : p.used < p.total
    · exact Or.inr ⟨[], p, rest, rfl, hp, by simp only [allocIn, if_pos hp]; rfl⟩
    · rcases ih with ⟨hall, hnone⟩ | ⟨before, q, after, rfl, hq, hsome⟩
      · refine Or.inl ⟨fun q hq => ?_, by simp only [allocIn, if_neg hp, hnone, Option.map_none]⟩
        rcases List.mem_cons.mp hq with rfl | hq
        · exact Nat.le_of_not_lt hp
        · exact hall q hq
      · exact Or.inr ⟨p :: before, q, after, rfl, hq, by
          simp only [allocIn, if_neg hp, hsome, Option.map_some]; rfl⟩

theorem freeIn_cases (c : SlabClass) (ptr : Nat) (l : List SlabPage) :
    ((∀ p ∈ l, p.holds c ptr = false) ∧ freeIn c ptr l = none) ∨
    ∃ before p after, l = before ++ p :: after ∧ p.holds c ptr = true ∧ freeIn c ptr l =
        some (before ++ p.drop ((ptr - p.slot c 0) / slotSize c) :: after) := by
  induction l with
  | nil => exact Or.inl ⟨fun p hp => (List.not_mem_nil hp).elim, rfl⟩
  | cons p rest ih =>
    rcases hp : p.holds c ptr with _ | _
    · rcases ih with ⟨hall, hnone⟩ | ⟨before, q, after, rfl, hq, hsome⟩
      · refine Or.inl ⟨fun q hq => ?_, by simp [freeIn, hp, hnone]⟩
        rcases List.mem_cons.mp hq with rfl | hq
        · exact hp
        · exact hall q hq
      · exact Or.inr ⟨p :: before, q, after, rfl, hq, by simp [freeIn, hp, hsome]⟩
    · exact Or.inr ⟨[], p, rest, rfl, hp, by simp [freeIn, hp]⟩

/-! ## Histories -/

/-- An object handed out and not freed: where it is, the size asked for, the size of its slot. -/
structure SlabObject where
  ptr : Nat
  size : Nat
  room : Nat

/-- The allocator over the page manager, with the objects that are live. -/
structure SlabRuns where
  pmm : Pmm
  pages : SlabPages
  live : List SlabObject

/-- A request, a release, or what the rest of the kernel does to the page manager in between. -/
inductive SlabCall where
  | alloc (size : Nat)
  | free (ptr : Nat)
  | other (pmm : Pmm)

/-- The size of the slot a request is served from. -/
def roomOf (size : Nat) : Nat := ((slabClassOf size).map slotSize).getD 0

namespace SlabRuns

/-- From `slab_init`. -/
def start (pmm : Pmm) : SlabRuns := { pmm := pmm, pages := slabInit, live := [] }

/-- One call. -/
def next (kmalloc : Pmm → Nat → Nat × Pmm) (s : SlabRuns) : SlabCall → SlabRuns
  | .alloc size =>
    let r := slabAlloc kmalloc s.pmm s.pages size
    { pmm := r.2.1, pages := r.2.2,
      live := if r.1 = 0 then s.live else ⟨r.1, size, roomOf size⟩ :: s.live }
  | .free ptr =>
    { s with pages := slabFree s.pages ptr,
             live := s.live.filter fun o => decide (o.ptr ≠ ptr) }
  | .other pmm => { s with pmm := pmm }

/-- Requests of up to 256 bytes, releases of live objects; nobody else releases the allocator's pages or
the null page. -/
def Allowed (s : SlabRuns) : SlabCall → Prop
  | .alloc size => size ≤ 256
  | .free ptr => ∃ o ∈ s.live, o.ptr = ptr
  | .other pmm => ¬ pmm.Free 0 ∧ ∀ c, ∀ p ∈ s.pages c, ¬ pmm.Free p.addr

/-- One step of a history. -/
def Step (kmalloc : Pmm → Nat → Nat × Pmm) (s : SlabRuns) (call : SlabCall) (t : SlabRuns) : Prop :=
  s.Allowed call ∧ t = s.next kmalloc call

/-- The two objects have no byte in common. -/
def Apart (a b : SlabObject) : Prop := a.ptr + a.room ≤ b.ptr ∨ b.ptr + b.room ≤ a.ptr

/-- **The state of the allocator.** Every page's counter counts its set bits and is at most its slot
count; the live objects are pairwise disjoint, and each lies among the slots of one page and is as large
as asked for. -/
structure SlabSound (s : SlabRuns) : Prop where
  counted : ∀ c, ∀ p ∈ s.pages c, p.used = countBelow 64 p.bitmap ∧ p.used ≤ p.total
  apart : s.live.Pairwise Apart
  placed : ∀ o ∈ s.live, o.size ≤ o.room ∧
    ∃ c, ∃ p ∈ s.pages c, p.slot c 0 ≤ o.ptr ∧ o.ptr + o.room ≤ p.slot c 0 + p.total * slotSize c ∧
      p.slot c 0 + p.total * slotSize c ≤ p.addr + pageSize

/-- **What a request does**: while the class has a clear slot no page is taken, and null is the answer
only when `pmm_alloc_page` was asked, with every slot in use, and returned it. -/
def AllocExact (s : SlabRuns) (size ptr : Nat) (t : SlabRuns) : Prop :=
  ∀ c, slabClassOf size = some c →
    ((∃ p ∈ s.pages c, ∃ idx, idx < p.total ∧ p.bitmap idx = false) →
      t.pmm = s.pmm ∧ (t.pages c).map SlabPage.addr = (s.pages c).map SlabPage.addr) ∧
    (ptr = 0 → s.pmm.pmmAllocPage.1 = 0 ∧
      ∀ p ∈ s.pages c, ∀ idx, idx < p.total → p.bitmap idx = true)

/-- What one step of a history shows. -/
def SlabStep (kmalloc : Pmm → Nat → Nat × Pmm) (s : SlabRuns) : SlabCall → SlabRuns → Prop
  | .alloc size, t => t.SlabSound ∧
      AllocExact s size (slabAlloc kmalloc s.pmm s.pages size).1 t
  | .free _, t => t.SlabSound
  | .other _, t => t.SlabSound

/-! ## The invariant -/

/-- A page as its class has it: aligned, with the class's slots, the counter counting the bits, no bit
beyond the slots. -/
structure PageOk (c : SlabClass) (p : SlabPage) : Prop where
  aligned : pageSize ∣ p.addr
  total_eq : p.total = slotCount c
  counted : p.used = countBelow 64 p.bitmap
  clear : ∀ idx, p.total ≤ idx → p.bitmap idx = false

/-- The pages are taken and all at different addresses; a slot's bit is set exactly for a live object,
and every live object has a slot. -/
structure Inv (s : SlabRuns) : Prop where
  null : ¬ s.pmm.Free 0
  page : ∀ c, ∀ p ∈ s.pages c, PageOk c p
  taken : ∀ c, ∀ p ∈ s.pages c, ¬ s.pmm.Free p.addr
  nodup : ∀ c, ((s.pages c).map SlabPage.addr).Nodup
  distinct : ∀ c d, ∀ p ∈ s.pages c, ∀ q ∈ s.pages d, p.addr = q.addr → c = d
  live_nodup : (s.live.map SlabObject.ptr).Nodup
  bit_iff : ∀ c, ∀ p ∈ s.pages c, ∀ idx, idx < p.total →
    (p.bitmap idx = true ↔ ∃ o ∈ s.live, o.ptr = p.slot c idx)
  object : ∀ o ∈ s.live, ∃ c, ∃ p ∈ s.pages c, ∃ idx, idx < p.total ∧
    o.ptr = p.slot c idx ∧ o.room = slotSize c ∧ o.size ≤ o.room

/-! ## Pages and slots -/

namespace PageOk

variable {c d : SlabClass} {p q : SlabPage} {idx : Nat}

theorem used_eq (h : PageOk c p) : p.used = countBelow p.total p.bitmap := by
  rw [h.counted]
  exact countBelow_of_clear (by rw [h.total_eq]; exact (slotCount_fits c).2.1) h.clear

theorem used_le (h : PageOk c p) : p.used ≤ p.total := by
  rw [h.used_eq]
  exact countBelow_le _ _

theorem full_iff (h : PageOk c p) : p.total ≤ p.used ↔ ∀ idx, idx < p.total → p.bitmap idx = true := by
  rw [← countBelow_eq_iff, ← h.used_eq]
  have hle := h.used_le
  omega

theorem takeFirst_eq (h : PageOk c p) (hlt : p.used < p.total) :
    ∃ idx, idx < p.total ∧ p.bitmap idx = false ∧ takeFirst c p = (p.slot c idx, p.take idx) := by
  rcases Option.eq_none_or_eq_some p.freeSlot with hnone | ⟨idx, hidx⟩
  · have hfull := h.full_iff.mpr (freeSlot_eq_none hnone)
    omega
  · obtain ⟨hi, hb⟩ := freeSlot_spec hidx
    exact ⟨idx, hi, hb, by simp only [takeFirst, hidx]⟩

theorem take (h : PageOk c p) (hi : idx < p.total) (hb : p.bitmap idx = false) :
    PageOk c (p.take idx) where
  aligned := h.aligned
  total_eq := h.total_eq
  counted := by
    have hfits := (slotCount_fits c).2.1
    have htotal := h.total_eq
    have hcount := countBelow_update p.bitmap (show idx < 64 by omega) true
    have hused := h.counted
    rw [hb] at hcount
    simp only [SlabPage.take, Bool.toNat_false, Bool.toNat_true] at hcount ⊢
    omega
  clear j hj := by
    have hne : j ≠ idx := by
      have : p.total ≤ j := hj
      omega
    exact (update_of_ne hne _ _).trans (h.clear j hj)

theorem drop (h : PageOk c p) (hi : idx < p.total) (hb : p.bitmap idx = true) :
    PageOk c (p.drop idx) where
  aligned := h.aligned
  total_eq := h.total_eq
  counted := by
    have hfits := (slotCount_fits c).2.1
    have htotal := h.total_eq
    have hcount := countBelow_update p.bitmap (show idx < 64 by omega) false
    have hused := h.counted
    rw [hb] at hcount
    simp only [SlabPage.drop, Bool.toNat_false, Bool.toNat_true] at hcount ⊢
    omega
  clear j hj := by
    have hne : j ≠ idx := by
      have : p.total ≤ j := hj
      omega
    exact (update_of_ne hne _ _).trans (h.clear j hj)

theorem new {addr : Nat} (h : pageSize ∣ addr) : PageOk c (slabNewPage c addr) where
  aligned := h
  total_eq := rfl
  counted := by simp [slabNewPage, countBelow]
  clear _ _ := rfl

theorem slots_end (h : PageOk c p) : p.slot c 0 + p.total * slotSize c ≤ p.addr + pageSize := by
  have hfits := (slotCount_fits c).1
  rw [h.total_eq]
  unfold SlabPage.slot
  omega

theorem slot_end (hi : idx < p.total) : p.slot c idx + slotSize c ≤ p.slot c 0 + p.total * slotSize c := by
  have hmul : (idx + 1) * slotSize c ≤ p.total * slotSize c := Nat.mul_le_mul_right _ hi
  rw [Nat.add_mul] at hmul
  unfold SlabPage.slot
  omega

theorem slot_zero_le (p : SlabPage) (c : SlabClass) (idx : Nat) : p.slot c 0 ≤ p.slot c idx := by
  unfold SlabPage.slot
  omega

theorem addr_eq (hp : PageOk c p) (hq : PageOk d q) {x : Nat} (hpx : p.slot c 0 ≤ x)
    (hpx' : x < p.slot c 0 + p.total * slotSize c) (hqx : q.slot d 0 ≤ x)
    (hqx' : x < q.slot d 0 + q.total * slotSize d) : p.addr = q.addr := by
  obtain ⟨a, ha⟩ := hp.aligned
  obtain ⟨b, hb⟩ := hq.aligned
  have hpe := hp.slots_end
  have hqe := hq.slots_end
  unfold SlabPage.slot at hpx hqx
  simp only [pageSize] at ha hb hpe hqe
  omega

theorem slot_lt (hi : idx < p.total) : p.slot c idx < p.slot c 0 + p.total * slotSize c := by
  have hend := slot_end (c := c) hi
  have hpos := slotSize_pos c
  omega

theorem slot_inj {i j : Nat} (h : p.slot c i = p.slot c j) : i = j := by
  have hmul : i * slotSize c = j * slotSize c := by
    unfold SlabPage.slot at h
    omega
  exact Nat.eq_of_mul_eq_mul_right (slotSize_pos c) hmul

theorem index_slot (p : SlabPage) (c : SlabClass) (idx : Nat) : (p.slot c idx - p.slot c 0) / slotSize c = idx := by
  have hsub : p.slot c idx - p.slot c 0 = idx * slotSize c := by
    unfold SlabPage.slot
    omega
  rw [hsub, Nat.mul_div_cancel _ (slotSize_pos c)]

theorem holds_iff {x : Nat} : p.holds c x = true ↔ p.slot c 0 ≤ x ∧ x < p.slot c 0 + p.total * slotSize c := by
  simp [SlabPage.holds]

end PageOk

/-! ## Writing one page -/

/-- The page lists `after` are `before` with page `p` of class `c` written: it is new there, or takes the
place of the page at its address. -/
structure Put (before : SlabPages) (c : SlabClass) (p : SlabPage) (after : SlabPages) : Prop where
  mem : ∀ d, ∀ q ∈ after d, (d = c ∧ q = p) ∨ (q ∈ before d ∧ q.addr ≠ p.addr)
  self : p ∈ after c
  keeps : ∀ d, ∀ q ∈ before d, ∃ r ∈ after d, r.addr = q.addr ∧ r.total = q.total
  nodup : ∀ d, ((after d).map SlabPage.addr).Nodup

variable {s : SlabRuns}

theorem Inv.put_replace (h : s.Inv) {c : SlabClass} {before after : List SlabPage} {p p' : SlabPage}
    (hsplit : s.pages c = before ++ p :: after) (haddr : p'.addr = p.addr) (htotal : p'.total = p.total) :
    Put s.pages c p' (update s.pages c (before ++ p' :: after)) := by
  have hnodup := h.nodup c
  have hmap : (before ++ p' :: after).map SlabPage.addr = (s.pages c).map SlabPage.addr := by
    rw [hsplit]
    simp only [List.map_append, List.map_cons, haddr]
  have hother : ∀ q, q ∈ before ∨ q ∈ after → q.addr ≠ p.addr := by
    rw [hsplit, List.map_append, List.map_cons] at hnodup
    have hmid := List.nodup_middle.mp hnodup
    intro q hq heq
    refine (List.nodup_cons.mp hmid).1 ?_
    rw [← heq, ← List.map_append]
    exact List.mem_map_of_mem (List.mem_append.mpr hq)
  have hpc : p ∈ s.pages c := by
    rw [hsplit]
    exact List.mem_append_right _ List.mem_cons_self
  refine ⟨fun d q hq => ?_, ?_, fun d q hq => ?_, fun d => ?_⟩
  · by_cases hd : d = c
    · subst hd
      rw [update_self, List.mem_append, List.mem_cons] at hq
      have hin : q ∈ before ∨ q ∈ after → q ∈ s.pages d ∧ q.addr ≠ p'.addr := fun hqba => by
        refine ⟨?_, haddr ▸ hother q hqba⟩
        rw [hsplit, List.mem_append, List.mem_cons]
        exact hqba.imp id Or.inr
      rcases hq with hq | rfl | hq
      · exact Or.inr (hin (Or.inl hq))
      · exact Or.inl ⟨rfl, rfl⟩
      · exact Or.inr (hin (Or.inr hq))
    · rw [update_of_ne hd] at hq
      exact Or.inr ⟨hq, fun heq => hd (h.distinct d c q hq p hpc (heq.trans haddr))⟩
  · rw [update_self]
    exact List.mem_append_right _ List.mem_cons_self
  · by_cases hd : d = c
    · subst hd
      rw [update_self]
      rw [hsplit, List.mem_append, List.mem_cons] at hq
      rcases hq with hq | rfl | hq
      · exact ⟨q, List.mem_append_left _ hq, rfl, rfl⟩
      · exact ⟨p', List.mem_append_right _ List.mem_cons_self, haddr, htotal⟩
      · exact ⟨q, List.mem_append_right _ (List.mem_cons_of_mem _ hq), rfl, rfl⟩
    · rw [update_of_ne hd]
      exact ⟨q, hq, rfl, rfl⟩
  · by_cases hd : d = c
    · subst hd
      rw [update_self, hmap]
      exact hnodup
    · rw [update_of_ne hd]
      exact h.nodup d

theorem Inv.put_new (h : s.Inv) (c : SlabClass) {p : SlabPage} (hfresh : ∀ d, ∀ q ∈ s.pages d, q.addr ≠ p.addr) :
    Put s.pages c p (update s.pages c (p :: s.pages c)) := by
  refine ⟨fun d q hq => ?_, ?_, fun d q hq => ⟨q, ?_, rfl, rfl⟩, fun d => ?_⟩
  · by_cases hd : d = c
    · subst hd
      rw [update_self, List.mem_cons] at hq
      rcases hq with rfl | hq
      · exact Or.inl ⟨rfl, rfl⟩
      · exact Or.inr ⟨hq, hfresh d q hq⟩
    · rw [update_of_ne hd] at hq
      exact Or.inr ⟨hq, hfresh d q hq⟩
  · rw [update_self]
    exact List.mem_cons_self
  · by_cases hd : d = c
    · subst hd
      rw [update_self]
      exact List.mem_cons_of_mem _ hq
    · rwa [update_of_ne hd]
  · by_cases hd : d = c
    · subst hd
      rw [update_self, List.map_cons, List.nodup_cons]
      refine ⟨fun hmem => ?_, h.nodup d⟩
      obtain ⟨q, hq, heq⟩ := List.mem_map.mp hmem
      exact hfresh d q hq heq
    · rw [update_of_ne hd]
      exact h.nodup d

theorem Inv.slabAlloc_cases (h : s.Inv) (kmalloc : Pmm → Nat → Nat × Pmm) {size : Nat} {c : SlabClass}
    (hc : slabClassOf size = some c) : ((∀ p ∈ s.pages c, p.total ≤ p.used) ∧ s.pmm.pmmAllocPage.1 = 0 ∧
      slabAlloc kmalloc s.pmm s.pages size = (0, s.pmm.pmmAllocPage.2, s.pages)) ∨
    ∃ p idx pmm after, idx < p.total ∧ p.bitmap idx = false ∧ PageOk c p ∧ Put s.pages c (p.take idx) after ∧
      (∀ j, j < p.total → (p.bitmap j = true ↔ ∃ o ∈ s.live, o.ptr = p.slot c j)) ∧
      slabAlloc kmalloc s.pmm s.pages size = (p.slot c idx, pmm, after) ∧ ((pmm = s.pmm ∧ ¬ s.pmm.Free p.addr ∧
          (after c).map SlabPage.addr = (s.pages c).map SlabPage.addr) ∨
        (pmm = s.pmm.pmmAllocPage.2 ∧ p.addr = s.pmm.pmmAllocPage.1 ∧ ∀ q ∈ s.pages c, q.total ≤ q.used)) := by
  unfold slabAlloc
  simp only [hc]
  rcases allocIn_cases c (s.pages c) with ⟨hall, hnone⟩ | ⟨before, p, after, hsplit, hlt, hsome⟩
  · simp only [hnone]
    by_cases h0 : s.pmm.pmmAllocPage.1 = 0
    · exact Or.inl ⟨hall, h0, by rw [if_pos h0]⟩
    · -- a new page: it was free, so it is none of the pages here and holds no live object
      have hfree := Pmm.free_of_pmmAllocPage h0
      have hok : PageOk c (slabNewPage c s.pmm.pmmAllocPage.1) := PageOk.new hfree.dvd
      have hpos : (slabNewPage c s.pmm.pmmAllocPage.1).used
          < (slabNewPage c s.pmm.pmmAllocPage.1).total := (slotCount_fits c).2.2
      obtain ⟨idx, hi, hb, htake⟩ := hok.takeFirst_eq hpos
      have hfresh : ∀ d, ∀ q ∈ s.pages d, q.addr ≠ s.pmm.pmmAllocPage.1 := fun d q hq heq =>
        h.taken d q hq (heq ▸ hfree)
      refine Or.inr ⟨_, idx, _, _, hi, hb, hok, h.put_new c hfresh, fun j hj => ?_, ?_,
        Or.inr ⟨rfl, rfl, hall⟩⟩
      · refine ⟨fun hbit => absurd hbit Bool.false_ne_true, fun ⟨o, ho, hptr⟩ => ?_⟩
        obtain ⟨d, q, hq, k, hk, hqk, _⟩ := h.object o ho
        have heq := hptr ▸ hqk
        refine absurd (PageOk.addr_eq (h.page d q hq) hok (PageOk.slot_zero_le q d k)
          (PageOk.slot_lt hk) ?_ ?_) (hfresh d q hq)
        · rw [← heq]
          exact PageOk.slot_zero_le _ c j
        · rw [← heq]
          exact PageOk.slot_lt hj
      · rw [if_neg h0, htake]
  · have hpc : p ∈ s.pages c := by
      rw [hsplit]
      exact List.mem_append_right _ List.mem_cons_self
    obtain ⟨idx, hi, hb, htake⟩ := (h.page c p hpc).takeFirst_eq hlt
    refine Or.inr ⟨p, idx, s.pmm, _, hi, hb, h.page c p hpc,
      h.put_replace hsplit rfl rfl, h.bit_iff c p hpc, ?_,
      Or.inl ⟨rfl, h.taken c p hpc, ?_⟩⟩
    · simp only [hsome, htake]
    · rw [update_self, hsplit]
      simp only [List.map_append, List.map_cons]
      rfl

theorem Inv.put (h : s.Inv) {c : SlabClass} {p : SlabPage} {t : SlabRuns}
    (hput : Put s.pages c p t.pages) (hok : PageOk c p) (hnull : ¬ t.pmm.Free 0)
    (htaken : ∀ d, ∀ q ∈ t.pages d, ¬ t.pmm.Free q.addr) (hnodup : (t.live.map SlabObject.ptr).Nodup)
    (hself : ∀ j, j < p.total → (p.bitmap j = true ↔ ∃ o ∈ t.live, o.ptr = p.slot c j))
    (hother : ∀ o : SlabObject, (∀ j, j < p.total → o.ptr ≠ p.slot c j) →
      (o ∈ t.live ↔ o ∈ s.live))
    (hobject : ∀ o ∈ t.live, o ∈ s.live ∨ ∃ j, j < p.total ∧ o.ptr = p.slot c j ∧
      o.room = slotSize c ∧ o.size ≤ o.room) : t.Inv where
  null := hnull
  page d q hq := by
    rcases hput.mem d q hq with ⟨rfl, rfl⟩ | ⟨hq, _⟩
    · exact hok
    · exact h.page d q hq
  taken := htaken
  nodup := hput.nodup
  distinct d e q hq r hr heq := by
    rcases hput.mem d q hq with ⟨rfl, rfl⟩ | ⟨hq, hqp⟩ <;>
      rcases hput.mem e r hr with ⟨rfl, rfl⟩ | ⟨hr, hrp⟩
    · rfl
    · exact absurd heq.symm hrp
    · exact absurd heq hqp
    · exact h.distinct d e q hq r hr heq
  live_nodup := hnodup
  bit_iff d q hq j hj := by
    rcases hput.mem d q hq with ⟨rfl, rfl⟩ | ⟨hq, hqp⟩
    · exact hself j hj
    · rw [h.bit_iff d q hq j hj]
      -- an object in a slot of `q` is in none of `p`
      have hsame : ∀ o : SlabObject, o.ptr = q.slot d j → (o ∈ t.live ↔ o ∈ s.live) := by
        intro o ho
        refine hother o fun k hk heq => hqp ?_
        have hx : q.slot d j = p.slot c k := ho.symm.trans heq
        refine PageOk.addr_eq (h.page d q hq) hok (PageOk.slot_zero_le q d j) (PageOk.slot_lt hj) ?_ ?_
        · rw [hx]
          exact PageOk.slot_zero_le p c k
        · rw [hx]
          exact PageOk.slot_lt hk
      constructor
      · rintro ⟨o, ho, hptr⟩
        exact ⟨o, (hsame o hptr).mpr ho, hptr⟩
      · rintro ⟨o, ho, hptr⟩
        exact ⟨o, (hsame o hptr).mp ho, hptr⟩
  object o ho := by
    rcases hobject o ho with hold | ⟨j, hj, hptr, hroom, hsize⟩
    · obtain ⟨d, q, hq, j, hj, hptr, hroom, hsize⟩ := h.object o hold
      obtain ⟨r, hr, haddr, htotal⟩ := hput.keeps d q hq
      refine ⟨d, r, hr, j, htotal ▸ hj, ?_, hroom, hsize⟩
      rw [hptr]
      unfold SlabPage.slot
      rw [haddr]
    · exact ⟨c, p, hput.self, j, hj, hptr, hroom, hsize⟩

theorem slot_ne_zero (p : SlabPage) (c : SlabClass) (idx : Nat) : p.slot c idx ≠ 0 := by
  simp only [SlabPage.slot, slabHeader]
  omega

theorem Inv.null_pmmAllocPage (h : s.Inv) : ¬ s.pmm.pmmAllocPage.2.Free 0 := fun hfree =>
  h.null ((Pmm.free_pmmAllocPage_iff s.pmm 0).mp hfree).1

theorem Inv.alloc (h : s.Inv) (kmalloc : Pmm → Nat → Nat × Pmm) {size : Nat} (hsize : size ≤ 256) :
    (s.next kmalloc (.alloc size)).Inv := by
  obtain ⟨c, hc⟩ := slabClassOf_isSome hsize
  rcases h.slabAlloc_cases kmalloc hc with
    ⟨_, _, heq⟩ | ⟨p, idx, pmm, after, hi, hb, hok, hput, hbits, heq, hpmm⟩
  · simp only [next, heq, if_true]
    exact { h with
      null := h.null_pmmAllocPage
      taken := fun d q hq hfree =>
        h.taken d q hq ((Pmm.free_pmmAllocPage_iff s.pmm _).mp hfree).1 }
  · simp only [next, heq, if_neg (slot_ne_zero p c idx)]
    have hroom : roomOf size = slotSize c := by simp only [roomOf, hc, Option.map_some, Option.getD_some]
    have hfresh : ∀ o ∈ s.live, o.ptr ≠ p.slot c idx := fun o ho hptr => by
      have hbit := (hbits idx hi).mpr ⟨o, ho, hptr⟩
      rw [hb] at hbit
      cases hbit
    have htaken : ∀ d, ∀ q ∈ s.pages d, ¬ pmm.Free q.addr := fun d q hq => by
      rcases hpmm with ⟨rfl, _⟩ | ⟨rfl, _⟩
      · exact h.taken d q hq
      · exact fun hfree => h.taken d q hq ((Pmm.free_pmmAllocPage_iff s.pmm _).mp hfree).1
    refine h.put hput (hok.take hi hb) ?_ (fun d q hq => ?_) ?_ (fun j hj => ?_) (fun o ho => ?_)
      fun o ho => ?_
    · rcases hpmm with ⟨rfl, _⟩ | ⟨rfl, _⟩
      · exact h.null
      · exact h.null_pmmAllocPage
    · rcases hput.mem d q hq with ⟨_, rfl⟩ | ⟨hq, _⟩
      · rcases hpmm with ⟨rfl, hfree, _⟩ | ⟨rfl, haddr, _⟩
        · exact hfree
        · exact fun hfree => ((Pmm.free_pmmAllocPage_iff s.pmm _).mp hfree).2 haddr
      · exact htaken d q hq
    · simp only [List.map_cons, List.nodup_cons]
      refine ⟨fun hmem => ?_, h.live_nodup⟩
      obtain ⟨o, ho, hptr⟩ := List.mem_map.mp hmem
      exact hfresh o ho hptr
    · -- the bit taken is the new object's, the others are as before
      rcases eq_or_ne j idx with rfl | hne
      · refine ⟨fun _ => ⟨_, List.mem_cons_self, rfl⟩, fun _ => update_self _ _ _⟩
      · rw [show (p.take idx).bitmap j = p.bitmap j from update_of_ne hne _ _, hbits j hj]
        constructor
        · rintro ⟨o, ho, hptr⟩
          exact ⟨o, List.mem_cons_of_mem _ ho, hptr⟩
        · rintro ⟨o, ho, hptr⟩
          rcases List.mem_cons.mp ho with rfl | ho
          · exact absurd (PageOk.slot_inj (p := p) hptr).symm hne
          · exact ⟨o, ho, hptr⟩
    · rw [List.mem_cons]
      exact ⟨fun hmem => hmem.resolve_left fun heq => ho idx hi (heq ▸ rfl), Or.inr⟩
    · rcases List.mem_cons.mp ho with rfl | ho
      · exact Or.inr ⟨idx, hi, rfl, hroom, by rw [hroom]; exact slabClassOf_some hc⟩
      · exact Or.inl ho

/-! ## Releases -/

theorem freeAmong_cases (pages : SlabPages) (ptr : Nat) (classes : List SlabClass) :
    ((∀ c ∈ classes, ∀ p ∈ pages c, p.holds c ptr = false) ∧ freeAmong pages ptr classes = pages) ∨
    ∃ c before p after, c ∈ classes ∧ pages c = before ++ p :: after ∧ p.holds c ptr = true ∧
      freeAmong pages ptr classes = update pages c
        (before ++ p.drop ((ptr - p.slot c 0) / slotSize c) :: after) := by
  induction classes with
  | nil => exact Or.inl ⟨fun c hc => (List.not_mem_nil hc).elim, rfl⟩
  | cons c rest ih =>
    rcases freeIn_cases c ptr (pages c) with ⟨hall, hnone⟩ | ⟨before, p, after, hsplit, hp, hsome⟩
    · rcases ih with ⟨hrest, heq⟩ | ⟨d, before, p, after, hd, hsplit, hp, heq⟩
      · refine Or.inl ⟨fun d hd => ?_, by simp only [freeAmong, hnone, heq]⟩
        rcases List.mem_cons.mp hd with rfl | hd
        · exact hall
        · exact hrest d hd
      · exact Or.inr ⟨d, before, p, after, List.mem_cons_of_mem _ hd, hsplit, hp, by
          simp only [freeAmong, hnone, heq]⟩
    · exact Or.inr ⟨c, before, p, after, List.mem_cons_self, hsplit, hp, by
        simp only [freeAmong, hsome]⟩

theorem Inv.slabFree_eq (h : s.Inv) {o : SlabObject} (ho : o ∈ s.live) :
    ∃ c p idx, p ∈ s.pages c ∧ idx < p.total ∧ o.ptr = p.slot c idx ∧
      Put s.pages c (p.drop idx) (slabFree s.pages o.ptr) := by
  obtain ⟨c, p, hp, idx, hi, hptr, _, _⟩ := h.object o ho
  have hholds : p.holds c o.ptr = true :=
    PageOk.holds_iff.mpr ⟨hptr ▸ PageOk.slot_zero_le p c idx, hptr ▸ PageOk.slot_lt hi⟩
  have hne : o.ptr ≠ 0 := hptr ▸ slot_ne_zero p c idx
  unfold slabFree
  rw [if_neg hne]
  rcases freeAmong_cases s.pages o.ptr (List.finRange 5) with
    ⟨hall, _⟩ | ⟨d, before, q, after, _, hsplit, hq, heq⟩
  · rw [hall c (List.mem_finRange c) p hp] at hholds
    cases hholds
  · have hqd : q ∈ s.pages d := by
      rw [hsplit]
      exact List.mem_append_right _ List.mem_cons_self
    obtain ⟨hp0, hp1⟩ := PageOk.holds_iff.mp hholds
    obtain ⟨hq0, hq1⟩ := PageOk.holds_iff.mp hq
    have haddr := PageOk.addr_eq (h.page c p hp) (h.page d q hqd) hp0 hp1 hq0 hq1
    obtain rfl : c = d := h.distinct c d p hp q hqd haddr
    have hslot : o.ptr = q.slot c idx := by
      rw [hptr]
      unfold SlabPage.slot
      rw [haddr]
    have htotal : idx < q.total := by
      rw [(h.page c q hqd).total_eq, ← (h.page c p hp).total_eq]
      exact hi
    refine ⟨c, q, idx, hqd, htotal, hslot, ?_⟩
    rw [heq, hslot, PageOk.index_slot]
    exact h.put_replace hsplit rfl rfl

theorem Inv.free (h : s.Inv) (kmalloc : Pmm → Nat → Nat × Pmm) {o : SlabObject} (ho : o ∈ s.live) :
    (s.next kmalloc (.free o.ptr)).Inv := by
  obtain ⟨c, p, idx, hp, hi, hptr, hput⟩ := h.slabFree_eq ho
  have hbit : p.bitmap idx = true := (h.bit_iff c p hp idx hi).mpr ⟨o, ho, hptr⟩
  have hmem : ∀ a : SlabObject, a ∈ (s.live.filter fun a => decide (a.ptr ≠ o.ptr)) ↔
      a ∈ s.live ∧ a.ptr ≠ o.ptr := fun a => by simp
  refine h.put (t := s.next kmalloc (.free o.ptr)) hput ((h.page c p hp).drop hi hbit) h.null
    (fun d q hq => ?_) ?_ (fun j hj => ?_) (fun a ha => ?_) fun a ha => ?_
  · rcases hput.mem d q hq with ⟨rfl, rfl⟩ | ⟨hq, _⟩
    · exact h.taken d p hp
    · exact h.taken d q hq
  · exact h.live_nodup.sublist (List.filter_sublist.map _)
  · have hslots := h.bit_iff c p hp j hj
    rcases eq_or_ne j idx with rfl | hne
    · rw [show (p.drop j).bitmap j = false from update_self _ _ _]
      refine ⟨fun hf => (Bool.false_ne_true hf).elim, ?_⟩
      rintro ⟨a, ha, haptr⟩
      exact absurd (haptr.trans hptr.symm) ((hmem a).mp ha).2
    · rw [show (p.drop idx).bitmap j = p.bitmap j from update_of_ne hne _ _, hslots]
      constructor
      · rintro ⟨a, ha, haptr⟩
        refine ⟨a, (hmem a).mpr ⟨ha, fun heq => hne ?_⟩, haptr⟩
        exact PageOk.slot_inj (haptr.symm.trans (heq.trans hptr))
      · rintro ⟨a, ha, haptr⟩
        exact ⟨a, ((hmem a).mp ha).1, haptr⟩
  · exact (hmem a).trans ⟨And.left, fun hlive => ⟨hlive, fun heq => ha idx hi (heq.trans hptr)⟩⟩
  · exact Or.inl ((hmem a).mp ha).1

/-! ## What holds in every history -/

theorem Inv.apart (h : s.Inv) {a b : SlabObject} (ha : a ∈ s.live) (hb : b ∈ s.live)
    (hne : a.ptr ≠ b.ptr) : Apart a b := by
  obtain ⟨c, p, hp, i, hi, haptr, haroom, _⟩ := h.object a ha
  obtain ⟨d, q, hq, j, hj, hbptr, hbroom, _⟩ := h.object b hb
  have hpe := (h.page c p hp).slots_end
  have hqe := (h.page d q hq).slots_end
  have hae := PageOk.slot_end (p := p) (c := c) hi
  have hbe := PageOk.slot_end (p := q) (c := d) hj
  unfold Apart
  rw [haptr, haroom, hbptr, hbroom]
  by_cases haddr : p.addr = q.addr
  · -- the same page: different slots of the same size
    obtain rfl : c = d := h.distinct c d p hp q hq haddr
    have hij : i ≠ j := by
      rintro rfl
      refine hne ?_
      rw [haptr, hbptr]
      unfold SlabPage.slot
      rw [haddr]
    unfold SlabPage.slot
    rw [haddr]
    rcases Nat.lt_or_gt_of_ne hij with hlt | hgt
    · have hmul : (i + 1) * slotSize c ≤ j * slotSize c := Nat.mul_le_mul_right _ hlt
      rw [Nat.add_mul] at hmul
      omega
    · have hmul : (j + 1) * slotSize c ≤ i * slotSize c := Nat.mul_le_mul_right _ hgt
      rw [Nat.add_mul] at hmul
      omega
  · -- different pages
    obtain ⟨k, hk⟩ := (h.page c p hp).aligned
    obtain ⟨l, hl⟩ := (h.page d q hq).aligned
    unfold SlabPage.slot at *
    simp only [pageSize] at hk hl hpe hqe
    omega

theorem Inv.sound (h : s.Inv) : s.SlabSound where
  counted c p hp := ⟨(h.page c p hp).counted, (h.page c p hp).used_le⟩
  apart := by
    have hptrs := List.pairwise_map.mp h.live_nodup
    exact hptrs.imp_of_mem fun ha hb hne => h.apart ha hb hne
  placed o ho := by
    obtain ⟨c, p, hp, idx, hi, hptr, hroom, hsize⟩ := h.object o ho
    refine ⟨hsize, c, p, hp, ?_, ?_, (h.page c p hp).slots_end⟩
    · rw [hptr]
      exact PageOk.slot_zero_le p c idx
    · rw [hptr, hroom]
      exact PageOk.slot_end hi

theorem Inv.allocExact (h : s.Inv) (kmalloc : Pmm → Nat → Nat × Pmm) (size : Nat) :
    AllocExact s size (slabAlloc kmalloc s.pmm s.pages size).1 (s.next kmalloc (.alloc size)) := by
  intro c hc
  have hfull : (∀ p ∈ s.pages c, p.total ≤ p.used) →
      ∀ p ∈ s.pages c, ∀ idx, idx < p.total → p.bitmap idx = true := fun hall p hp =>
    (h.page c p hp).full_iff.mp (hall p hp)
  have hnone : (∀ p ∈ s.pages c, p.total ≤ p.used) →
      ¬ ∃ p ∈ s.pages c, ∃ idx, idx < p.total ∧ p.bitmap idx = false := by
    rintro hall ⟨p, hp, idx, hi, hb⟩
    rw [hfull hall p hp idx hi] at hb
    cases hb
  rcases h.slabAlloc_cases kmalloc hc with
    ⟨hall, hnull, _⟩ | ⟨p, idx, pmm, after, _, _, _, _, _, heq, hpmm⟩
  · exact ⟨fun hfree => absurd hfree (hnone hall), fun _ => ⟨hnull, hfull hall⟩⟩
  · refine ⟨fun hfree => ?_, fun hzero => ?_⟩
    · rcases hpmm with ⟨rfl, _, haddr⟩ | ⟨_, _, hall⟩
      · simp only [next, heq]
        exact ⟨trivial, haddr⟩
      · exact absurd hfree (hnone hall)
    · rw [heq] at hzero
      exact absurd hzero (slot_ne_zero p c idx)

theorem inv_start {pmm : Pmm} (h : ¬ pmm.Free 0) : (start pmm).Inv where
  null := h
  page _ _ hp := (List.not_mem_nil hp).elim
  taken _ _ hp := (List.not_mem_nil hp).elim
  nodup _ := List.nodup_nil
  distinct _ _ _ hp := (List.not_mem_nil hp).elim
  live_nodup := List.nodup_nil
  bit_iff _ _ hp := (List.not_mem_nil hp).elim
  object _ ho := (List.not_mem_nil ho).elim

theorem Inv.step (kmalloc : Pmm → Nat → Nat × Pmm) {call : SlabCall} {t : SlabRuns} (h : s.Inv)
    (hst : s.Step kmalloc call t) : t.Inv ∧ SlabStep kmalloc s call t := by
  obtain ⟨hok, rfl⟩ := hst
  cases call with
  | alloc size =>
    have hinv := h.alloc kmalloc hok
    exact ⟨hinv, hinv.sound, h.allocExact kmalloc size⟩
  | free ptr =>
    obtain ⟨o, ho, rfl⟩ := hok
    have hinv := h.free kmalloc ho
    exact ⟨hinv, hinv.sound⟩
  | other pmm =>
    have hinv : (s.next kmalloc (.other pmm)).Inv := { h with null := hok.1, taken := hok.2 }
    exact ⟨hinv, hinv.sound⟩

/-- Three pages, the first taken. -/
def threePages : Pmm := { bitmap := fun i => decide (i = 0), totalPages := 3, usedPages := 1 }

/-- A `kmalloc` with nothing left; the slab sizes never come to it. -/
def noHeap (pmm : Pmm) (_size : Nat) : Nat × Pmm := (0, pmm)

end SlabRuns

end Slab

end Chicago95.Kernel
