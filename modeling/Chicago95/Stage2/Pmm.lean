/-
# Chicago95.Stage2.Pmm — the loader's physical page manager, `stage2/memory/pmm.c`.

A bitmap bit for each page (`true` for a page in use), the number of pages, and the number of free ones.
`pmm_init` marks every page used, applies the entries of the memory map in order (a usable entry frees the
whole pages inside it, any other reserves the pages it touches), and reserves what the BIOS and the loader
occupy. The scanner reads the bitmap a word of 64 pages at a time and answers `0` for "not found".
-/
import Chicago95.Lib.Bitmap
import Mathlib.Algebra.Group.Nat.Defs

namespace Chicago95.Stage2

open Chicago95.Lib.Counting Chicago95.Lib.Loop Chicago95.Lib.Bitmap
open Function (update_of_ne update_self update_eq_self update)

/-! ## The state -/

def pageSize : Nat := 4096
def pmmMaxPages : Nat := 1024 * 1024 * 16
def pmmDmaLimit : Nat := 16 * 1024 * 1024

/-- `(void *)addr` -/
def toPointer (addr : Nat) : UInt32 := UInt32.ofNat addr

/-- `(uint64_t)pointer` -/
def ofPointer (pointer : UInt32) : Nat :=
  if pointer.toNat < 2 ^ 31 then pointer.toNat else pointer.toNat + (2 ^ 64 - 2 ^ 32)

theorem toNat_toPointer {addr : Nat} (h : addr < 2 ^ 32) : (toPointer addr).toNat = addr :=
  UInt32.toNat_ofNat_of_lt h

/-- `mem_e820_entry_t` -/
structure MemE820Entry where
  base : UInt64
  len : UInt64
  type : UInt32
  deriving DecidableEq

def e820TypeUsable : UInt32 := 1

/-- `pmm_bitmap`, `pmm_total_pages`, `pmm_free_count` and `pmm_reserved_pages`. -/
structure Pmm where
  bitmap : Nat → Bool
  totalPages : Nat
  freeCount : Nat
  reservedPages : Nat

namespace Pmm

/-! ## Ranges -/

/-- A page is reserved unless it is already. -/
def reservePage (p : Pmm) (page : Nat) : Pmm :=
  if p.bitmap page = true then p
  else
    { p with bitmap := update p.bitmap page true
             freeCount := p.freeCount - 1
             reservedPages := p.reservedPages + 1 }

/-- A page is given back unless it is free already. -/
def releasePage (p : Pmm) (page : Nat) : Pmm :=
  if p.bitmap page = true then
    { p with bitmap := update p.bitmap page false, freeCount := p.freeCount + 1 }
  else p

/-- `start_page` of `pmm_reserve_range` -/
def reserveStart (base : Nat) : Nat := base / pageSize
/-- `end_page` of `pmm_reserve_range`, before it is cut off at `pmm_total_pages`. -/
def reserveEnd (base length : Nat) : Nat := (base + length + pageSize - 1) % 2 ^ 64 / pageSize
/-- `start_page` of `pmm_free_range` -/
def freeStart (base : Nat) : Nat := (base + pageSize - 1) % 2 ^ 64 / pageSize
/-- `end_page` of `pmm_free_range`, before it is cut off at `pmm_total_pages`. -/
def freeEnd (base length : Nat) : Nat := (base + length) % 2 ^ 64 / pageSize

def pmmReserveRange (p : Pmm) (base length : Nat) : Pmm :=
  let endPage := min (reserveEnd base length) p.totalPages
  forEach (endPage - reserveStart base) (fun i p => p.reservePage (reserveStart base + i)) p

def pmmFreeRange (p : Pmm) (base length : Nat) : Pmm :=
  let endPage := min (freeEnd base length) p.totalPages
  forEach (endPage - freeStart base) (fun i p => p.releasePage (freeStart base + i)) p

/-! ## Initialisation -/

def highestAddr (e820 : List MemE820Entry) : Nat :=
  e820.foldl (fun highest e =>
    let stop := (e.base.toNat + e.len.toNat) % 2 ^ 64
    if highest < stop then stop else highest) 0

def pmmTotalPages (e820 : List MemE820Entry) : Nat :=
  if pmmMaxPages < highestAddr e820 / pageSize then pmmMaxPages else highestAddr e820 / pageSize

/-- One entry of the map. The types other than the usable one differ in the statistics alone. -/
def applyEntry (p : Pmm) (e : MemE820Entry) : Pmm :=
  if e.type = e820TypeUsable then p.pmmFreeRange e.base.toNat e.len.toNat
  else p.pmmReserveRange e.base.toNat e.len.toNat

/-- What the BIOS occupies: vectors, data area, extended data area, display memory and ROMs, each with
its first byte and the byte after its last. -/
def biosRegions : List (Nat × Nat) :=
  [(0x00000, 0x00400), (0x00400, 0x00500), (0x00500, 0x00600), (0xA0000, 0xC0000),
   (0xC0000, 0x100000)]

/-- What the loader occupies: its first stage, the disk packet, the memory map (256 entries of 24 bytes)
and its second stage. -/
def loaderRegions : List (Nat × Nat) :=
  [(0x7C00, 0x7E00), (0x9000, 0x9200), (0x8000, 0x8000 + 256 * 24), (0x0600, 0x7C00)]

def pmmInit (e820 : List MemE820Entry) : Pmm :=
  let p : Pmm :=
    { bitmap := fun _ => true
      totalPages := pmmTotalPages e820
      freeCount := 0
      reservedPages := 0 }
  let p := e820.foldl applyEntry p
  let p := (biosRegions ++ loaderRegions).foldl (fun p r => p.pmmReserveRange r.1 (r.2 - r.1)) p
  p.reservePage 0

/-! ## The scanner -/

/-- The pages of a word, from page `page` on, `left` of them to go: a page number to return, or the run
(its first page and its length) at the end of the word. -/
def scanBits (used : Nat → Bool) (limit count : Nat) : Nat → Nat → Nat → Nat → Nat ⊕ (Nat × Nat)
  | 0, _, runStart, runLen => .inr (runStart, runLen)
  | left + 1, page, runStart, runLen =>
    if limit ≤ page then .inl (if count ≤ runLen then runStart else 0)
    else if used page then scanBits used limit count left (page + 1) runStart 0
    else
      let runStart := if runLen = 0 then page else runStart
      if runLen + 1 = count then .inl runStart
      else scanBits used limit count left (page + 1) runStart (runLen + 1)

/-- The words from `word` on, `left` of them to go. A word with no page free is passed over whole. -/
def scanWords (used : Nat → Bool) (limit count : Nat) : Nat → Nat → Nat → Nat → Nat
  | 0, _, _, _ => 0
  | left + 1, word, runStart, runLen =>
    if (List.range 64).all fun bit => used (word * 64 + bit) then
      scanWords used limit count left (word + 1) runStart 0
    else
      match scanBits used limit count 64 (word * 64) runStart runLen with
      | .inl page => page
      | .inr run => scanWords used limit count left (word + 1) run.1 run.2

/-- The body of both scanners: the lowest run of `count` free pages below `limit`, or `0`. -/
def findRun (used : Nat → Bool) (limit count : Nat) : Nat :=
  if count = 0 then 0 else scanWords used limit count ((limit + 63) / 64) 0 0 0

/-- `pmm_find_free_pages`. Past the end of the bitmap pages read as used. -/
def pmmFindFreePages (p : Pmm) (count : Nat) : Nat :=
  findRun (fun page => if page < pmmMaxPages then p.bitmap page else true) p.totalPages count

def dmaLimit (p : Pmm) : Nat := min (pmmDmaLimit / pageSize) p.totalPages

/-- `pmm_find_free_pages_dma`. Past the end of the bitmap pages would read as free. -/
def pmmFindFreePagesDma (p : Pmm) (count : Nat) : Nat :=
  findRun (fun page => if page < pmmMaxPages then p.bitmap page else false) p.dmaLimit count

/-! ## Allocation and release -/

/-- The marking loop, `left` pages to go: whether every page was free, and the bitmap. -/
def markRun (page : Nat) : Nat → Nat → (Nat → Bool) → Bool × (Nat → Bool)
  | 0, _, bm => (true, bm)
  | left + 1, i, bm =>
    if bm (page + i) = true then
      (false, forEach i (fun j bm => update bm (page + j) false) bm)
    else markRun page left (i + 1) (update bm (page + i) true)

/-- What `pmm_alloc_pages` and `pmm_alloc_dma` do with the page the scanner found; `limit` bounds the
address that is returned. -/
def takeFound (p : Pmm) (page count : Nat) (limit : Option Nat) : UInt32 × Pmm :=
  if page = 0 then (0, p)
  else if p.bitmap page = true then (0, p)
  else
    let marked := markRun page count 0 p.bitmap
    if marked.1 = false then (0, { p with bitmap := marked.2 })
    else
      let p := { p with bitmap := marked.2, freeCount := p.freeCount - count }
      let addr := page * pageSize
      if addr % pageSize ≠ 0 then (0, p)
      else if (limit.any fun l => l ≤ addr) = true then (0, p)
      else (toPointer addr, p)

def pmmAllocPage (p : Pmm) : UInt32 × Pmm :=
  let page := p.pmmFindFreePages 1
  if page = 0 then (0, p)
  else if p.bitmap page = true then (0, p)
  else
    let p := { p with bitmap := update p.bitmap page true, freeCount := p.freeCount - 1 }
    let addr := page * pageSize
    if addr % pageSize ≠ 0 then (0, p) else (toPointer addr, p)

def pmmAllocPages (p : Pmm) (count : UInt32) : UInt32 × Pmm :=
  if count = 0 then (0, p)
  else p.takeFound (p.pmmFindFreePages count.toNat) count.toNat none

/-- The number of pages of `pmm_alloc_dma`, in 32 bits. -/
def dmaCount (size : UInt32) : Nat := (size.toNat + pageSize - 1) % 2 ^ 32 / pageSize

def pmmAllocDma (p : Pmm) (size : UInt32) : UInt32 × Pmm :=
  p.takeFound (p.pmmFindFreePagesDma (dmaCount size)) (dmaCount size) (some pmmDmaLimit)

def pmmFreePage (p : Pmm) (pointer : UInt32) : Pmm :=
  let addr := ofPointer pointer
  let page := addr / pageSize
  if addr % pageSize ≠ 0 then p
  else if page = 0 then p
  else if p.totalPages ≤ page then p
  else p.releasePage page

/-- The loop of `pmm_free_pages`, `left` pages to go. -/
def releaseFrom (page : Nat) : Nat → Nat → Pmm → Pmm
  | 0, _, p => p
  | left + 1, i, p =>
    if p.totalPages ≤ page + i then p else releaseFrom page left (i + 1) (p.releasePage (page + i))

/-- `pmm_free_pages`, and `pmm_free_dma` with it. -/
def pmmFreePages (p : Pmm) (pointer : UInt32) (count : UInt32) : Pmm :=
  let addr := ofPointer pointer
  let page := addr / pageSize
  if addr % pageSize ≠ 0 then p
  else if page = 0 then p
  else releaseFrom page count.toNat 0 p

/-! ## What a range leaves -/

/-- Every page is counted once, as used or as free. -/
def Accounted (p : Pmm) : Prop := p.freeCount + countBelow p.totalPages p.bitmap = p.totalPages

theorem Accounted.freeCount_eq {p : Pmm} (h : p.Accounted) :
    p.freeCount = countBelow p.totalPages fun i => !p.bitmap i := by
  have hsum := countBelow_add_not p.bitmap p.totalPages
  unfold Accounted at h
  omega

@[simp] theorem reservePage_totalPages (p : Pmm) (page : Nat) : (p.reservePage page).totalPages = p.totalPages := by
  unfold reservePage
  split <;> rfl

@[simp] theorem releasePage_totalPages (p : Pmm) (page : Nat) : (p.releasePage page).totalPages = p.totalPages := by
  unfold releasePage
  split <;> rfl

@[simp] theorem reservePage_bitmap (p : Pmm) (page : Nat) :
    (p.reservePage page).bitmap = update p.bitmap page true := by
  unfold reservePage
  split
  · rename_i h
    rw [← h, update_eq_self]
  · rfl

@[simp] theorem releasePage_bitmap (p : Pmm) (page : Nat) :
    (p.releasePage page).bitmap = update p.bitmap page false := by
  unfold releasePage
  split
  · rfl
  · rename_i h
    rw [← Bool.eq_false_iff.mpr h, update_eq_self]

theorem Accounted.reservePage {p : Pmm} (h : p.Accounted) {page : Nat} (hpage : page < p.totalPages) :
    (p.reservePage page).Accounted := by
  unfold Pmm.reservePage
  split
  · exact h
  · rename_i hbit
    have hcount := countBelow_update p.bitmap hpage true
    have hle := countBelow_le (update p.bitmap page true) p.totalPages
    rw [Bool.eq_false_iff.mpr hbit] at hcount
    simp only [Accounted, Bool.toNat_false, Bool.toNat_true] at h hcount ⊢
    omega

theorem Accounted.releasePage {p : Pmm} (h : p.Accounted) {page : Nat} (hpage : page < p.totalPages) :
    (p.releasePage page).Accounted := by
  unfold Pmm.releasePage
  split
  · rename_i hbit
    have hcount := countBelow_update p.bitmap hpage false
    rw [hbit] at hcount
    simp only [Accounted, Bool.toNat_false, Bool.toNat_true] at h hcount ⊢
    omega
  · exact h

theorem range_loop {body : Pmm → Nat → Pmm} {b : Bool}
    (hbody : ∀ p page, (body p page).bitmap = update p.bitmap page b) (p : Pmm) (s n : Nat) :
    (forEach n (fun i p => body p (s + i)) p).bitmap = fill p.bitmap s n b := by
  induction n with
  | zero => rw [forEach_zero, fill_zero]
  | succ n ih => rw [forEach_succ, hbody, ih, fill_succ]

theorem range_preserves {P : Pmm → Prop} {body : Pmm → Nat → Pmm} {p : Pmm} {stop s : Nat}
    (hbody : ∀ q page, q.totalPages = p.totalPages → page < p.totalPages → P q →
      P (body q page) ∧ (body q page).totalPages = p.totalPages) (hp : P p) :
    P (forEach (min stop p.totalPages - s) (fun i q => body q (s + i)) p) ∧
      (forEach (min stop p.totalPages - s) (fun i q => body q (s + i)) p).totalPages = p.totalPages := by
  refine forEach_preserves (P := fun q => P q ∧ q.totalPages = p.totalPages) ⟨hp, rfl⟩ ?_
  intro i q hi hq
  exact hbody q (s + i) hq.2 (by omega) hq.1

theorem pmmReserveRange_bitmap (p : Pmm) (base length : Nat) : (p.pmmReserveRange base length).bitmap =
      fill p.bitmap (reserveStart base) (min (reserveEnd base length) p.totalPages - reserveStart base) true :=
  range_loop reservePage_bitmap p _ _

theorem pmmFreeRange_bitmap (p : Pmm) (base length : Nat) : (p.pmmFreeRange base length).bitmap =
      fill p.bitmap (freeStart base) (min (freeEnd base length) p.totalPages - freeStart base) false :=
  range_loop releasePage_bitmap p _ _

@[simp] theorem pmmReserveRange_totalPages (p : Pmm) (base length : Nat) :
    (p.pmmReserveRange base length).totalPages = p.totalPages :=
  (range_preserves (P := fun _ => True) (fun q page hq _ _ =>
    ⟨trivial, (reservePage_totalPages q page).trans hq⟩) trivial).2

@[simp] theorem pmmFreeRange_totalPages (p : Pmm) (base length : Nat) :
    (p.pmmFreeRange base length).totalPages = p.totalPages :=
  (range_preserves (P := fun _ => True) (fun q page hq _ _ =>
    ⟨trivial, (releasePage_totalPages q page).trans hq⟩) trivial).2

theorem Accounted.pmmReserveRange {p : Pmm} (h : p.Accounted) (base length : Nat) :
    (p.pmmReserveRange base length).Accounted :=
  (range_preserves (P := Accounted) (fun q page hq hpage hacc =>
    ⟨hacc.reservePage (hq ▸ hpage), (reservePage_totalPages q page).trans hq⟩) h).1

theorem Accounted.pmmFreeRange {p : Pmm} (h : p.Accounted) (base length : Nat) :
    (p.pmmFreeRange base length).Accounted :=
  (range_preserves (P := Accounted) (fun q page hq hpage hacc =>
    ⟨hacc.releasePage (hq ▸ hpage), (releasePage_totalPages q page).trans hq⟩) h).1

/-! ## What `pmm_init` leaves -/

/-- The bookkeeping of a manager of `total` pages: the counter is right, and no page past the end is
free. -/
structure Ready (total : Nat) (p : Pmm) : Prop where
  total_eq : p.totalPages = total
  accounted : p.Accounted
  past_end : ∀ i, total ≤ i → p.bitmap i = true

theorem Ready.fill_past_end {total : Nat} {p : Pmm} (h : Ready total p) (s stop : Nat) (b : Bool) :
    ∀ i, total ≤ i → fill p.bitmap s (min stop p.totalPages - s) b i = true := by
  intro i hi
  rw [fill_of_not_mem (by rw [h.total_eq]; omega)]
  exact h.past_end i hi

theorem Ready.pmmReserveRange {total : Nat} {p : Pmm} (h : Ready total p) (base length : Nat) :
    Ready total (p.pmmReserveRange base length) where
  total_eq := by rw [pmmReserveRange_totalPages, h.total_eq]
  accounted := h.accounted.pmmReserveRange base length
  past_end := by
    rw [pmmReserveRange_bitmap]
    exact h.fill_past_end _ _ _

theorem Ready.pmmFreeRange {total : Nat} {p : Pmm} (h : Ready total p) (base length : Nat) :
    Ready total (p.pmmFreeRange base length) where
  total_eq := by rw [pmmFreeRange_totalPages, h.total_eq]
  accounted := h.accounted.pmmFreeRange base length
  past_end := by
    rw [pmmFreeRange_bitmap]
    exact h.fill_past_end _ _ _

theorem Ready.applyEntry {total : Nat} {p : Pmm} (h : Ready total p) (e : MemE820Entry) :
    Ready total (p.applyEntry e) := by
  unfold Pmm.applyEntry
  split
  · exact h.pmmFreeRange _ _
  · exact h.pmmReserveRange _ _

theorem foldl_preserves {α : Type} {P : Pmm → Prop} {step : Pmm → α → Pmm}
    (hstep : ∀ p a, P p → P (step p a)) : ∀ (l : List α) {p : Pmm}, P p → P (l.foldl step p)
  | [], _, h => h
  | a :: l, p, h => foldl_preserves hstep l (hstep p a h)

theorem Ready.reservePage_zero {total : Nat} {p : Pmm} (h : Ready total p) :
    Ready total (p.reservePage 0) where
  total_eq := by rw [reservePage_totalPages, h.total_eq]
  accounted := by
    rcases Nat.eq_zero_or_pos total with hz | hpos
    · -- with no pages at all the bit is set already
      have hbit : p.bitmap 0 = true := h.past_end 0 (Nat.le_of_eq hz)
      have heq : p.reservePage 0 = p := by unfold Pmm.reservePage; rw [if_pos hbit]
      rw [heq]
      exact h.accounted
    · exact h.accounted.reservePage (by rw [h.total_eq]; exact hpos)
  past_end i hi := by
    rw [reservePage_bitmap]
    by_cases hi0 : i = 0
    · rw [hi0, update_self]
    · rw [update_of_ne hi0]
      exact h.past_end i hi

theorem ready_allUsed (total : Nat) :
    Ready total { bitmap := fun _ => true, totalPages := total, freeCount := 0, reservedPages := 0 } where
  total_eq := rfl
  accounted := (Nat.zero_add _).trans ((countBelow_eq_iff _ _).mpr fun _ _ => rfl)
  past_end _ _ := rfl

theorem ready_pmmInit (e820 : List MemE820Entry) : Ready (pmmTotalPages e820) (pmmInit e820) := by
  refine Ready.reservePage_zero ?_
  refine foldl_preserves (fun p r hp => hp.pmmReserveRange r.1 (r.2 - r.1)) _ ?_
  exact foldl_preserves (fun p e hp => hp.applyEntry e) _ (ready_allUsed _)

theorem pmmInit_zero (e820 : List MemE820Entry) : (pmmInit e820).bitmap 0 = true := by
  unfold pmmInit
  rw [reservePage_bitmap, update_self]

theorem pmmTotalPages_le (e820 : List MemE820Entry) : pmmTotalPages e820 ≤ pmmMaxPages := by
  unfold pmmTotalPages
  split
  · exact Nat.le_refl _
  · rename_i h
    exact Nat.le_of_not_lt h

/-! ## What the scanner finds -/

section

variable {used : Nat → Bool} {limit count : Nat}

theorem scanBits_eq : ∀ (left page runStart runLen : Nat), runLen < count →
    match scanBits used limit count left page runStart runLen with
    | .inl result => (scanRun used count (limit - page) page runLen runStart).getD 0 = result
    | .inr run => run.2 < count ∧
        scanRun used count (limit - page) page runLen runStart =
          scanRun used count (limit - (page + left)) (page + left) run.2 run.1 := by
  intro left
  induction left with
  | zero => intro page runStart runLen hlen; exact ⟨hlen, rfl⟩
  | succ left ih =>
    intro page runStart runLen hlen
    unfold scanBits
    by_cases hend : limit ≤ page
    · rw [if_pos hend, if_neg (Nat.not_le_of_lt hlen), Nat.sub_eq_zero_of_le hend]
      rfl
    · rw [if_neg hend]
      have hsub : limit - page = (limit - (page + 1)) + 1 := by omega
      have hnext : page + (left + 1) = page + 1 + left := by omega
      rw [hsub, hnext]
      rcases hbit : used page with _ | _
      · simp only [Bool.false_eq_true, if_false, scanRun, hbit]
        by_cases hfull : runLen + 1 = count
        · rw [if_pos hfull, if_pos (Nat.le_of_eq hfull.symm)]
          rfl
        · have hshort : runLen + 1 < count := by omega
          rw [if_neg hfull, if_neg (Nat.not_le_of_lt hshort)]
          exact ih (page + 1) _ (runLen + 1) hshort
      · simp only [if_true, scanRun, hbit]
        exact ih (page + 1) runStart 0 (Nat.lt_of_le_of_lt (Nat.zero_le _) hlen)

theorem scanWords_eq : ∀ (left word runStart runLen : Nat), runLen < count → limit ≤ (word + left) * 64 →
    scanWords used limit count left word runStart runLen =
      (scanRun used count (limit - word * 64) (word * 64) runLen runStart).getD 0 := by
  intro left
  induction left with
  | zero =>
    intro word runStart runLen hlen hlimit
    have hend : limit - word * 64 = 0 := Nat.sub_eq_zero_of_le hlimit
    rw [hend]
    rfl
  | succ left ih =>
    intro word runStart runLen hlen hlimit
    have hword : word * 64 + 64 = (word + 1) * 64 := by omega
    unfold scanWords
    split
    · -- a word with no page free
      rename_i hfull
      have htaken : ∀ j, j < 64 → used (word * 64 + j) = true := fun j hj =>
        List.all_eq_true.mp hfull j (List.mem_range.mpr hj)
      rw [scanRun_taken (by decide) _ _ _ _ htaken, ih (word + 1) runStart 0 (by omega) (by omega),
        hword, Nat.sub_sub, hword]
    · have hbits := @scanBits_eq used limit count 64 (word * 64) runStart runLen hlen
      split
      · rename_i page hpage
        rw [hpage] at hbits
        exact hbits.symm
      · rename_i run hrun
        rw [hrun] at hbits
        rw [hbits.2, hword]
        exact ih (word + 1) run.1 run.2 hbits.1 (by omega)

theorem findRun_cases (hcount : 0 < count) : (∃ s, LowestRun used limit count s ∧ findRun used limit count = s) ∨
      ((∀ s, ¬ ClearRun used limit count s) ∧ findRun used limit count = 0) := by
  have hscan : findRun used limit count = (scanRun used count limit 0 0 0).getD 0 := by
    unfold findRun
    rw [if_neg (Nat.pos_iff_ne_zero.mp hcount), scanWords_eq _ 0 0 0 hcount (by omega)]
    rfl
  rw [hscan]
  rcases scanRun_spec (Nat.zero_add limit) (scanned_zero hcount : Scanned used limit count 0 0 0) with
    ⟨s, hs, h⟩ | ⟨hnone, h⟩
  · exact Or.inl ⟨s, hs, by rw [h]; rfl⟩
  · exact Or.inr ⟨hnone, by rw [h]; rfl⟩

end

/-! ## What allocation and release do -/

/-- The manager with `n` pages from `s` on taken. -/
def take (p : Pmm) (s n : Nat) : Pmm :=
  { p with bitmap := fill p.bitmap s n true, freeCount := p.freeCount - n }

/-- The manager with `n` pages from `s` on given back. -/
def release (p : Pmm) (s n : Nat) : Pmm :=
  { p with bitmap := fill p.bitmap s n false, freeCount := p.freeCount + n }

theorem markRun_clear {page : Nat} : ∀ (left i : Nat) {bm : Nat → Bool},
    (∀ j, page + i ≤ j → j < page + i + left → bm j = false) →
    markRun page left i (fill bm page i true) = (true, fill bm page (i + left) true) := by
  intro left
  induction left with
  | zero => intro i bm _; rfl
  | succ left ih =>
    intro i bm h
    have hbit : fill bm page i true (page + i) = false := by
      rw [fill_of_not_mem (by omega)]
      exact h _ (Nat.le_refl _) (by omega)
    unfold markRun
    rw [if_neg (by rw [hbit]; exact Bool.false_ne_true), ← fill_succ,
      ih (i + 1) fun j hj hj' => h j (by omega) (by omega)]
    rw [Nat.add_assoc, Nat.add_comm 1 left]

theorem takeFound_cases {p : Pmm} (hnull : p.bitmap 0 = true) {lim n : Nat} (hn : 0 < n)
    {used : Nat → Bool} (hused : ∀ i, i < lim → used i = p.bitmap i)
    {limit : Option Nat} (hlimit : ∀ l ∈ limit, lim * pageSize ≤ l) : (∃ s, 0 < s ∧ LowestRun p.bitmap lim n s ∧
      p.takeFound (findRun used lim n) n limit = (toPointer (s * pageSize), p.take s n)) ∨
    ((∀ s, ¬ ClearRun p.bitmap lim n s) ∧ p.takeFound (findRun used lim n) n limit = (0, p)) := by
  rcases @findRun_cases used lim n hn with ⟨s, hs, h⟩ | ⟨hnone, h⟩
  · have hrun := (lowestRun_congr hused s).mp hs
    obtain ⟨hle, hclear⟩ := hrun.1
    have hbit : p.bitmap s = false := hclear s (Nat.le_refl s) (by omega)
    have hs0 : s ≠ 0 := by
      rintro rfl
      rw [hnull] at hbit
      cases hbit
    have hmark : markRun s n 0 p.bitmap = (true, fill p.bitmap s n true) := by
      have hall := @markRun_clear s n 0 p.bitmap hclear
      rwa [fill_zero, Nat.zero_add] at hall
    have hbound : (limit.any fun l => l ≤ s * pageSize) = false := by
      cases limit with
      | none => rfl
      | some l =>
        have hlt : s * pageSize < lim * pageSize :=
          Nat.mul_lt_mul_of_pos_right (by omega) (by decide)
        have hl := hlimit l rfl
        simp only [Option.any_some, decide_eq_false_iff_not]
        omega
    refine Or.inl ⟨s, Nat.pos_of_ne_zero hs0, hrun, ?_⟩
    unfold takeFound
    rw [h, if_neg hs0, if_neg (by rw [hbit]; exact Bool.false_ne_true)]
    simp only [hmark, Bool.true_eq_false, if_false, Nat.mul_mod_left, ne_eq, not_true_eq_false, hbound,
      Bool.false_eq_true]
    rfl
  · refine Or.inr ⟨fun s hs => hnone s ((clearRun_congr hused s).mpr hs), ?_⟩
    rw [h]
    rfl

theorem pmmAllocPage_eq (p : Pmm) : p.pmmAllocPage = p.takeFound (p.pmmFindFreePages 1) 1 none := by
  unfold pmmAllocPage takeFound
  by_cases hpage : p.pmmFindFreePages 1 = 0
  · simp only [hpage, if_true]
  · simp only [if_neg hpage]
    rcases hbit : p.bitmap (p.pmmFindFreePages 1) with _ | _
    · simp only [Bool.false_eq_true, if_false, markRun, Nat.add_zero, hbit, Bool.true_eq_false,
        Option.any_none]
    · simp only [if_true]

section

variable {p : Pmm}

theorem used_of_lt (hmax : p.totalPages ≤ pmmMaxPages) (past : Bool) {lim : Nat} (hlim : lim ≤ p.totalPages) :
    ∀ i, i < lim → (if i < pmmMaxPages then p.bitmap i else past) = p.bitmap i := fun i hi =>
  if_pos (by omega)

theorem pmmAllocPages_cases (hnull : p.bitmap 0 = true) (hmax : p.totalPages ≤ pmmMaxPages)
    (count : UInt32) (hcount : 0 < count.toNat) : (∃ s, 0 < s ∧ LowestRun p.bitmap p.totalPages count.toNat s ∧
      p.pmmAllocPages count = (toPointer (s * pageSize), p.take s count.toNat)) ∨
    ((∀ s, ¬ ClearRun p.bitmap p.totalPages count.toNat s) ∧ p.pmmAllocPages count = (0, p)) := by
  have hne : count ≠ 0 := by
    rintro rfl
    exact Nat.lt_irrefl 0 hcount
  unfold pmmAllocPages pmmFindFreePages
  rw [if_neg hne]
  refine takeFound_cases hnull hcount (used_of_lt hmax true (Nat.le_refl _)) fun l hl => ?_
  cases hl

theorem pmmAllocPage_cases (hnull : p.bitmap 0 = true) (hmax : p.totalPages ≤ pmmMaxPages) :
    (∃ s, 0 < s ∧ LowestRun p.bitmap p.totalPages 1 s ∧ p.pmmAllocPage = (toPointer (s * pageSize), p.take s 1)) ∨
    ((∀ s, ¬ ClearRun p.bitmap p.totalPages 1 s) ∧ p.pmmAllocPage = (0, p)) := by
  rw [pmmAllocPage_eq]
  refine takeFound_cases hnull Nat.one_pos (used_of_lt hmax true (Nat.le_refl _)) fun l hl => ?_
  cases hl

theorem pmmAllocDma_cases (hnull : p.bitmap 0 = true) (hmax : p.totalPages ≤ pmmMaxPages)
    {size : UInt32} (hcount : 0 < dmaCount size) : (∃ s, 0 < s ∧ LowestRun p.bitmap p.dmaLimit (dmaCount size) s ∧
      p.pmmAllocDma size = (toPointer (s * pageSize), p.take s (dmaCount size))) ∨
    ((∀ s, ¬ ClearRun p.bitmap p.dmaLimit (dmaCount size) s) ∧ p.pmmAllocDma size = (0, p)) := by
  refine takeFound_cases hnull hcount (used_of_lt hmax false (Nat.min_le_right _ _)) fun l hl => ?_
  cases hl
  have hle := Nat.mul_le_mul_right pageSize (Nat.min_le_left (pmmDmaLimit / pageSize) p.totalPages)
  exact Nat.le_trans hle (Nat.div_mul_le_self _ _)

end

theorem releaseFrom_taken {page : Nat} {p : Pmm} : ∀ (left i : Nat), page + i + left ≤ p.totalPages →
    (∀ j, page + i ≤ j → j < page + i + left → p.bitmap j = true) →
    releaseFrom page left i (p.release page i) = p.release page (i + left) := by
  intro left
  induction left with
  | zero => intro i _ _; rfl
  | succ left ih =>
    intro i hle h
    have hbit : (p.release page i).bitmap (page + i) = true := by
      show fill p.bitmap page i false (page + i) = true
      rw [fill_of_not_mem (by omega)]
      exact h _ (Nat.le_refl _) (by omega)
    have hone : (p.release page i).releasePage (page + i) = p.release page (i + 1) := by
      unfold Pmm.releasePage
      rw [if_pos hbit]
      simp only [release, fill_succ, Nat.add_assoc]
    have hlt : ¬ (p.release page i).totalPages ≤ page + i := by
      show ¬ p.totalPages ≤ page + i
      omega
    unfold releaseFrom
    rw [if_neg hlt, hone, ih (i + 1) (by omega) fun j hj hj' => h j (by omega) (by omega)]
    rw [Nat.add_assoc, Nat.add_comm 1 left]

theorem pmmFreePages_eq {p : Pmm} {pointer count : UInt32} (hlow : pointer.toNat < 2 ^ 31)
    (haligned : pointer.toNat % pageSize = 0) (hpos : 0 < pointer.toNat / pageSize)
    (hle : pointer.toNat / pageSize + count.toNat ≤ p.totalPages)
    (h : ∀ j, pointer.toNat / pageSize ≤ j → j < pointer.toNat / pageSize + count.toNat → p.bitmap j = true) :
    p.pmmFreePages pointer count = p.release (pointer.toNat / pageSize) count.toNat := by
  have hall : releaseFrom (pointer.toNat / pageSize) count.toNat 0
      (p.release (pointer.toNat / pageSize) 0) =
        p.release (pointer.toNat / pageSize) (0 + count.toNat) := releaseFrom_taken count.toNat 0 hle h
  have hzero : p.release (pointer.toNat / pageSize) 0 = p := by
    simp only [release, fill_zero, Nat.add_zero]
  rw [hzero, Nat.zero_add] at hall
  unfold pmmFreePages ofPointer
  simp only [if_pos hlow, haligned, ne_eq, not_true_eq_false, if_false,
    if_neg (Nat.pos_iff_ne_zero.mp hpos)]
  exact hall

theorem pmmFreePage_eq {p : Pmm} {pointer : UInt32} (hlow : pointer.toNat < 2 ^ 31)
    (haligned : pointer.toNat % pageSize = 0) (hpos : 0 < pointer.toNat / pageSize)
    (hlt : pointer.toNat / pageSize < p.totalPages) (h : p.bitmap (pointer.toNat / pageSize) = true) :
    p.pmmFreePage pointer = p.release (pointer.toNat / pageSize) 1 := by
  unfold pmmFreePage Pmm.releasePage ofPointer
  simp only [if_pos hlow, haligned, ne_eq, not_true_eq_false, if_false,
    if_neg (Nat.pos_iff_ne_zero.mp hpos), if_neg (Nat.not_le_of_lt hlt), if_pos h, release, fill_succ,
    fill_zero, Nat.add_zero]

theorem ofPointer_high {pointer : UInt32} (hhigh : ¬ pointer.toNat < 2 ^ 31) :
    pmmMaxPages ≤ ofPointer pointer / pageSize := by
  unfold ofPointer pmmMaxPages pageSize
  rw [if_neg hhigh]
  omega

theorem pmmFreePage_high {p : Pmm} {pointer : UInt32} (hhigh : ¬ pointer.toNat < 2 ^ 31)
    (hmax : p.totalPages ≤ pmmMaxPages) : p.pmmFreePage pointer = p := by
  have hpast := ofPointer_high hhigh
  unfold pmmFreePage
  simp only [if_pos (Nat.le_trans hmax hpast), ite_self]

theorem pmmFreePages_high {p : Pmm} {pointer : UInt32} (hhigh : ¬ pointer.toNat < 2 ^ 31)
    (hmax : p.totalPages ≤ pmmMaxPages) (count : UInt32) : p.pmmFreePages pointer count = p := by
  have hpast := ofPointer_high hhigh
  have hnone : ∀ n, releaseFrom (ofPointer pointer / pageSize) n 0 p = p := fun n => by
    cases n with
    | zero => rfl
    | succ n =>
      unfold releaseFrom
      rw [if_pos (show p.totalPages ≤ ofPointer pointer / pageSize + 0 by omega)]
  unfold pmmFreePages
  simp only [hnone, ite_self]

end Pmm

end Chicago95.Stage2
