/-
# Chicago95.Kernel.Vmm — the page-table management of `process.c`.

Physical memory is a page-indexed word store: `mem t i` is the 64-bit word `i` of the page at physical
address `t`. The kernel reaches every page through its identity map, so a C expression `table[idx]` on
a page-aligned `table` is `mem table idx`; each table has 512 words.
-/
import Chicago95.Lib.Loop
import Chicago95.Kernel.Pmm

namespace Chicago95.Kernel

open Chicago95.Lib.Loop

/-! ## Page-table words -/

def pml4Present : Nat := 0x01
def pml4Rw : Nat := 0x02
def pml4User : Nat := 0x04

/-- `e & PML4_PRESENT` -/
def isPresent (e : Nat) : Bool := e.testBit 0

/-- `e & 0x80`, the page-size bit of a PDPT or PD entry. -/
def isHuge (e : Nat) : Bool := e.testBit 7

/-- `e & ~0xFFFULL` -/
def pageOf (e : Nat) : Nat := e / pageSize * pageSize

/-- `e & 0xFFFULL` -/
def offsetOf (e : Nat) : Nat := e % pageSize

/-- The entry that links a table: its address with present, writable and user set. -/
def tableEntry (page : Nat) : Nat := page ||| pml4Present ||| pml4Rw ||| pml4User

/-- `(virt >> 39) & 0x1FF` -/
def pml4Idx (virt : Nat) : Nat := virt / 2 ^ 39 % 512
/-- `(virt >> 30) & 0x1FF` -/
def pdptIdx (virt : Nat) : Nat := virt / 2 ^ 30 % 512
/-- `(virt >> 21) & 0x1FF` -/
def pdIdx (virt : Nat) : Nat := virt / 2 ^ 21 % 512
/-- `(virt >> 12) & 0x1FF` -/
def ptIdx (virt : Nat) : Nat := virt / 2 ^ 12 % 512

theorem pageOf_or {p f : Nat} (hp : pageSize ∣ p) (hf : f < pageSize) : pageOf (p ||| f) = p := by
  obtain ⟨k, rfl⟩ := hp
  have hdiv : (pageSize * k ||| f) / pageSize = k := by
    have h := Nat.shiftRight_or_distrib (a := pageSize * k) (b := f) (i := 12)
    simp only [Nat.shiftRight_eq_div_pow] at h
    rw [show (2 : Nat) ^ 12 = pageSize from rfl] at h
    rw [h, Nat.mul_div_cancel_left k (by decide), Nat.div_eq_of_lt hf, Nat.or_zero]
  rw [pageOf, hdiv, Nat.mul_comm]

theorem dvd_pageOf (e : Nat) : pageSize ∣ pageOf e := Nat.dvd_mul_left _ _

theorem pageOf_of_dvd {t : Nat} (h : pageSize ∣ t) : pageOf t = t := Nat.div_mul_cancel h

theorem offsetOf_lt (e : Nat) : offsetOf e < pageSize := Nat.mod_lt _ (by decide)

theorem testBit_of_dvd {p i : Nat} (hp : pageSize ∣ p) (hi : i < 12) : p.testBit i = false := by
  obtain ⟨k, rfl⟩ := hp
  rw [show pageSize = 2 ^ 12 from rfl, Nat.testBit_two_pow_mul]
  simp [Nat.not_le.mpr hi]

@[simp] theorem isPresent_zero : isPresent 0 = false := rfl

@[simp] theorem isPresent_tableEntry (p : Nat) : isPresent (tableEntry p) = true := by
  simp [isPresent, tableEntry, pml4Present]

theorem pageOf_tableEntry {p : Nat} (hp : pageSize ∣ p) : pageOf (tableEntry p) = p := by
  have h : tableEntry p = p ||| 7 := by
    simp only [tableEntry, pml4Present, pml4Rw, pml4User, Nat.or_assoc]
    rfl
  rw [h, pageOf_or hp (by decide)]

theorem isHuge_tableEntry {p : Nat} (hp : pageSize ∣ p) : isHuge (tableEntry p) = false := by
  simp only [isHuge, tableEntry, pml4Present, pml4Rw, pml4User, Nat.testBit_or,
    testBit_of_dvd hp (show 7 < 12 by decide)]
  decide

/-! ## Memory and its elementary writes -/

/-- Word `i` of the page at physical address `t`. -/
abbrev PhysMem := Nat → Nat → Nat

/-- Physical memory and the page manager. -/
structure Vm where
  mem : PhysMem
  pmm : Pmm

namespace Vm

/-- `table[idx] = v` -/
def setEntry (s : Vm) (table idx v : Nat) : Vm :=
  { s with mem := Function.update s.mem table (Function.update (s.mem table) idx v) }

/-- `memset(page, 0, PAGE_SIZE)` -/
def zeroPage (s : Vm) (page : Nat) : Vm :=
  { s with mem := Function.update s.mem page fun _ => 0 }

/-- `memcpy(dst, src, PAGE_SIZE)` -/
def copyPage (s : Vm) (dst src : Nat) : Vm :=
  { s with mem := Function.update s.mem dst (s.mem src) }

/-- `pmm_alloc_page()` -/
def allocPage (s : Vm) : Nat × Vm := (s.pmm.pmmAllocPage.1, { s with pmm := s.pmm.pmmAllocPage.2 })

/-- `pmm_free_page(addr)` -/
def freePage (s : Vm) (addr : Nat) : Vm := { s with pmm := s.pmm.pmmFreePage addr }

@[simp] theorem setEntry_pmm (s : Vm) (t i v : Nat) : (s.setEntry t i v).pmm = s.pmm := rfl
@[simp] theorem zeroPage_pmm (s : Vm) (t : Nat) : (s.zeroPage t).pmm = s.pmm := rfl
@[simp] theorem copyPage_pmm (s : Vm) (d t : Nat) : (s.copyPage d t).pmm = s.pmm := rfl
@[simp] theorem allocPage_fst (s : Vm) : s.allocPage.1 = s.pmm.pmmAllocPage.1 := rfl
@[simp] theorem allocPage_mem (s : Vm) : s.allocPage.2.mem = s.mem := rfl
@[simp] theorem allocPage_pmm (s : Vm) : s.allocPage.2.pmm = s.pmm.pmmAllocPage.2 := rfl
@[simp] theorem freePage_mem (s : Vm) (a : Nat) : (s.freePage a).mem = s.mem := rfl
@[simp] theorem freePage_pmm (s : Vm) (a : Nat) : (s.freePage a).pmm = s.pmm.pmmFreePage a := rfl

@[simp] theorem setEntry_mem_self (s : Vm) (t i v : Nat) : (s.setEntry t i v).mem t i = v := by
  simp [setEntry]

theorem setEntry_mem_of_ne (s : Vm) {t i v t' i' : Nat} (h : ¬(t' = t ∧ i' = i)) :
    (s.setEntry t i v).mem t' i' = s.mem t' i' := by
  by_cases ht : t' = t
  · subst ht
    have hi : i' ≠ i := fun hi => h ⟨rfl, hi⟩
    simp [setEntry, hi]
  · simp [setEntry, ht]

theorem setEntry_mem_page_of_ne (s : Vm) {t i v t' : Nat} (h : t' ≠ t) : (s.setEntry t i v).mem t' = s.mem t' := by
  simp [setEntry, h]

@[simp] theorem zeroPage_mem_self (s : Vm) (t i : Nat) : (s.zeroPage t).mem t i = 0 := by
  simp [zeroPage]

@[simp] theorem zeroPage_mem_of_ne (s : Vm) {t t' : Nat} (h : t' ≠ t) : (s.zeroPage t).mem t' = s.mem t' := by
  simp [zeroPage, h]

@[simp] theorem copyPage_mem_of_ne (s : Vm) {d t t' : Nat} (h : t' ≠ d) : (s.copyPage d t).mem t' = s.mem t' := by
  simp [copyPage, h]

end Vm

/-! ## Creating and destroying an address space -/

/-- `vmm_create_address_space`; `cr3` is the register's value. -/
def vmmCreateAddressSpace (s : Vm) (cr3 : Nat) : Nat × Vm :=
  let (pml4, s) := s.allocPage
  if pml4 = 0 then (0, s)
  else
    let s := s.zeroPage pml4
    (pml4, forEach 256 (fun j s => s.setEntry pml4 (256 + j) (s.mem cr3 (256 + j))) s)

/-- Free the 4 KB pages of a PT, then the PT. -/
def vmmDestroyPt (pt : Nat) (s : Vm) : Vm :=
  (forEach 512 (fun l s =>
    if isPresent (s.mem pt l) then s.freePage (pageOf (s.mem pt l)) else s) s).freePage pt

/-- Free what a PD links (2 MB pages are skipped), then the PD. -/
def vmmDestroyPd (pd : Nat) (s : Vm) : Vm :=
  (forEach 512 (fun k s =>
    if !isPresent (s.mem pd k) then s
    else if isHuge (s.mem pd k) then s
    else vmmDestroyPt (pageOf (s.mem pd k)) s) s).freePage pd

/-- Free what a PDPT links (1 GB pages are skipped), then the PDPT. -/
def vmmDestroyPdpt (pdpt : Nat) (s : Vm) : Vm :=
  (forEach 512 (fun j s =>
    if !isPresent (s.mem pdpt j) then s
    else if isHuge (s.mem pdpt j) then s
    else vmmDestroyPd (pageOf (s.mem pdpt j)) s) s).freePage pdpt

/-- `vmm_destroy_address_space`: entries 0–255 and the PML4 itself. -/
def vmmDestroyAddressSpace (s : Vm) (cr3 : Nat) : Vm :=
  if cr3 = 0 then s
  else
    (forEach 256 (fun i s =>
      if !isPresent (s.mem cr3 i) then s
      else vmmDestroyPdpt (pageOf (s.mem cr3 i)) s) s).freePage cr3

/-! ## Cloning an address space -/

/-- The part of a clone level after the present and huge-page checks: allocate and zero a table, write
the copy's entry, and run the next level down with the source's table and the new one. -/
def cloneTable (inner : Nat → Nat → Vm → Vm) (src dst idx : Nat) (s : Vm) : Vm :=
  let (page, s) := s.allocPage
  if page = 0 then s
  else
    let s := s.zeroPage page
    let s := s.setEntry dst idx (tableEntry (pageOf (s.mem src idx)))
    inner (pageOf (s.mem src idx)) page s

/-- Copy one 4 KB page of a PT. -/
def clonePtEntry (srcPt dstPt l : Nat) (s : Vm) : Vm :=
  if !isPresent (s.mem srcPt l) then s
  else
    let (page, s) := s.allocPage
    if page = 0 then s
    else
      let s := s.copyPage page (pageOf (s.mem srcPt l))
      s.setEntry dstPt l (page ||| offsetOf (s.mem srcPt l))

/-- The loop over a PT. -/
def clonePt (srcPt dstPt : Nat) (s : Vm) : Vm := forEach 512 (clonePtEntry srcPt dstPt) s

/-- One PD entry: 2 MB pages are shared, tables are cloned. -/
def clonePdEntry (srcPd dstPd k : Nat) (s : Vm) : Vm :=
  if !isPresent (s.mem srcPd k) then s
  else if isHuge (s.mem srcPd k) then s.setEntry dstPd k (s.mem srcPd k)
  else cloneTable clonePt srcPd dstPd k s

/-- The loop over a PD. -/
def clonePd (srcPd dstPd : Nat) (s : Vm) : Vm := forEach 512 (clonePdEntry srcPd dstPd) s

/-- One PDPT entry: 1 GB pages are shared, tables are cloned. -/
def clonePdptEntry (srcPdpt dstPdpt j : Nat) (s : Vm) : Vm :=
  if !isPresent (s.mem srcPdpt j) then s
  else if isHuge (s.mem srcPdpt j) then s.setEntry dstPdpt j (s.mem srcPdpt j)
  else cloneTable clonePd srcPdpt dstPdpt j s

/-- The loop over a PDPT. -/
def clonePdpt (srcPdpt dstPdpt : Nat) (s : Vm) : Vm :=
  forEach 512 (clonePdptEntry srcPdpt dstPdpt) s

/-- One PML4 entry. -/
def clonePml4Entry (src dst i : Nat) (s : Vm) : Vm :=
  if !isPresent (s.mem src i) then s
  else cloneTable clonePdpt src dst i s

def vmmCloneAddressSpace (s : Vm) (dstCr3 srcCr3 : Nat) : Vm :=
  if dstCr3 = 0 ∨ srcCr3 = 0 then s
  else forEach 256 (clonePml4Entry srcCr3 dstCr3) s

/-! ## Mapping, unmapping, translating -/

/-- One `PML4 -> PDPT`-style step of `vmm_map_page`: the table behind the entry, allocated and linked
if the entry is not present; `none` when there is no page left. -/
def vmmNextTable (s : Vm) (table idx : Nat) : Option Nat × Vm :=
  if isPresent (s.mem table idx) then (some (pageOf (s.mem table idx)), s)
  else
    let (page, s) := s.allocPage
    if page = 0 then (none, s)
    else
      let s := s.zeroPage page
      let s := s.setEntry table idx (tableEntry page)
      (some (pageOf (s.mem table idx)), s)

def vmmMapPage (s : Vm) (cr3 virt phys flags : Nat) : Vm :=
  if cr3 = 0 then s
  else
    match vmmNextTable s cr3 (pml4Idx virt) with
    | (none, s) => s
    | (some pdpt, s) =>
      match vmmNextTable s pdpt (pdptIdx virt) with
      | (none, s) => s
      | (some pd, s) =>
        match vmmNextTable s pd (pdIdx virt) with
        | (none, s) => s
        | (some pt, s) =>
          s.setEntry pt (ptIdx virt) (pageOf phys ||| offsetOf flags ||| pml4Present)

def vmmUnmapPage (s : Vm) (cr3 virt : Nat) : Vm :=
  if cr3 = 0 then s
  else if !isPresent (s.mem cr3 (pml4Idx virt)) then s
  else
    let pdpt := pageOf (s.mem cr3 (pml4Idx virt))
    if !isPresent (s.mem pdpt (pdptIdx virt)) then s
    else
      let pd := pageOf (s.mem pdpt (pdptIdx virt))
      if !isPresent (s.mem pd (pdIdx virt)) then s
      else s.setEntry (pageOf (s.mem pd (pdIdx virt))) (ptIdx virt) 0

/-- The walk of `vmm_translate` from the table at `root`: the physical address, or `0` when unmapped. -/
def pageWalk (mem : PhysMem) (root virt : Nat) : Nat :=
  if !isPresent (mem root (pml4Idx virt)) then 0
  else
    let pdpt := pageOf (mem root (pml4Idx virt))
    let pdpte := mem pdpt (pdptIdx virt)
    if !isPresent pdpte then 0
    else if isHuge pdpte then pdpte / 2 ^ 29 * 2 ^ 29 ||| virt % 2 ^ 30
    else
      let pde := mem (pageOf pdpte) (pdIdx virt)
      if !isPresent pde then 0
      else if isHuge pde then pde / 2 ^ 21 * 2 ^ 21 ||| virt % 2 ^ 21
      else
        let pte := mem (pageOf pde) (ptIdx virt)
        if !isPresent pte then 0
        else pageOf pte ||| virt % pageSize

def vmmTranslate (mem : PhysMem) (cr3 virt : Nat) : Nat :=
  if cr3 = 0 then virt else pageWalk mem cr3 virt

end Chicago95.Kernel
