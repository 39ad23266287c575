/-
# Chicago95.Kernel.UserMemory — the memory system calls of `syscall.c`.

`sys_brk`, `sys_sbrk`, `sys_mmap` and `sys_munmap` compute page addresses from 64-bit arguments and hand
them to the functions of `Kernel.Vmm`. Their loops all have the form `for (a = from; a < stop; a += 0x1000)`;
where it runs, `stop` is a multiple of the page size or `from` a multiple away, so that `a` does not wrap
and the addresses visited are those of `pagesFrom`.
-/
import Chicago95.Kernel.Process
import Mathlib.Algebra.Group.Int.Defs

namespace Chicago95.Kernel

/-! ## Addresses -/

/-- `(int64_t)n` -/
def toInt64 (n : Nat) : Int := if n < 2 ^ 63 then (n : Int) else (n : Int) - 2 ^ 64

/-- `(n + 0xFFF) & ~0xFFFULL` -/
def pageUp (n : Nat) : Nat := (n + 0xFFF) % 2 ^ 64 / pageSize * pageSize

/-- The addresses of a loop `for (a = start; a < stop; a += 0x1000)`. -/
def pagesFrom (start stop : Nat) : List Nat :=
  (List.range ((stop - start + 0xFFF) / pageSize)).map fun i => start + i * pageSize

/-! ## The loops -/

/-- Map a zeroed page at each address in turn, until no page is left: the addresses not mapped. -/
def mapZeroed (cr3 flags : Nat) : List Nat → Vm → List Nat × Vm
  | [], s => ([], s)
  | a :: rest, s =>
    let (page, s) := s.allocPage
    if page = 0 then (a :: rest, s)
    else mapZeroed cr3 flags rest (vmmMapPage (s.zeroPage page) cr3 a page flags)

/-- Unmap each address that is mapped and free its page. -/
def unmapPages (cr3 : Nat) : List Nat → Vm → Vm
  | [], s => s
  | a :: rest, s =>
    let phys := vmmTranslate s.mem cr3 a
    if phys = 0 then unmapPages cr3 rest s
    else unmapPages cr3 rest ((vmmUnmapPage s cr3 a).freePage (pageOf phys))

/-! ## The system calls -/

/-- The flags every user page is mapped with: present, writable, user. -/
def userPage : Nat := 0x07

/-- The most `sys_brk` lets the heap grow to. -/
def brkLimit : Nat := 64 * 1024 * 1024

def sysBrk (k : KState) (addr : Nat) : Int × KState :=
  match k.currentProcess with
  | none => (-1, k)
  | some c =>
    let p := k.processes c
    if addr = 0 then (toInt64 p.brk, k)
    else if addr < p.userHeap then (-1, k)
    else if brkLimit < addr - p.userHeap then (-1, k)
    else if p.userHeapEnd < addr then
      -- a page that cannot be had ends the loop, but not the call
      let vm := (mapZeroed p.cr3 userPage (pagesFrom p.userHeapEnd (pageUp addr)) k.vm).2
      (toInt64 addr,
        { k with vm := vm }.setProcess c { p with brk := addr, userHeapEnd := pageUp addr })
    else (toInt64 addr, k.setProcess c { p with brk := addr })

def sysSbrk (k : KState) (increment : Nat) : Int × KState :=
  match k.currentProcess with
  | none => (-1, k)
  | some c =>
    let p := k.processes c
    if increment = 0 then (toInt64 p.brk, k)
    else
      let newBrk := pageUp ((p.brk + increment) % 2 ^ 64)
      match mapZeroed p.cr3 userPage (pagesFrom (pageUp p.brk) newBrk) k.vm with
      | ([], vm) =>
        (toInt64 p.brk,
          { k with vm := vm }.setProcess c { p with
            brk := newBrk
            userHeapEnd := if p.userHeapEnd < newBrk then newBrk else p.userHeapEnd })
      | (_ :: _, vm) => (toInt64 p.brk, { k with vm := vm })

/-- `sys_mmap`. `prot` only goes into flags that are not used. -/
def sysMmap (k : KState) (addr length : Nat) : Int × KState :=
  match k.currentProcess with
  | none => (-1, k)
  | some c =>
    let p := k.processes c
    if p.cr3 = 0 then (-1, k)
    else if length = 0 then (-1, k)
    else
      let size := (length + 0xFFF) % 2 ^ 64 / pageSize * pageSize
      let addr := if addr = 0 then (p.userHeapEnd + 0x100000) % 2 ^ 64 else addr
      match mapZeroed p.cr3 userPage (pagesFrom addr ((addr + size) % 2 ^ 64)) k.vm with
      | ([], vm) => (toInt64 addr, { k with vm := vm })
      | (a :: _, vm) => (-1, { k with vm := unmapPages p.cr3 (pagesFrom addr a) vm })

def sysMunmap (k : KState) (addr length : Nat) : Int × KState :=
  match k.currentProcess with
  | none => (-1, k)
  | some c =>
    let p := k.processes c
    if p.cr3 = 0 then (-1, k)
    else
      let size := (length + 0xFFF) % 2 ^ 64 / pageSize * pageSize
      (0, { k with vm := unmapPages p.cr3 (pagesFrom addr ((addr + size) % 2 ^ 64)) k.vm })

/-! ## Rounding -/

theorem dvd_pageUp (n : Nat) : pageSize ∣ pageUp n := Nat.dvd_mul_left _ _

theorem pageUp_lt (n : Nat) : pageUp n < 2 ^ 64 := by
  simp only [pageUp, pageSize]
  omega

theorem pageUp_bounds {n : Nat} (h : n + 0xFFF < 2 ^ 64) : n ≤ pageUp n ∧ pageUp n < n + pageSize := by
  simp only [pageUp, pageSize]
  omega

theorem pageUp_of_dvd {n : Nat} (h : pageSize ∣ n) (hlt : n < 2 ^ 64) : pageUp n = n := by
  simp only [pageUp, pageSize] at h ⊢
  omega

theorem pagesFrom_of_le {start stop : Nat} (h : stop ≤ start) : pagesFrom start stop = [] := by
  have hzero : (stop - start + 0xFFF) / pageSize = 0 := by
    simp only [pageSize]
    omega
  rw [pagesFrom, hzero]
  rfl

/-! ## Loops that find no page -/

theorem mapZeroed_of_null {s : Vm} (h : s.pmm.pmmAllocPage.1 = 0) (cr3 flags : Nat) (l : List Nat) :
    (mapZeroed cr3 flags l s).1 = l ∧ (mapZeroed cr3 flags l s).2.mem = s.mem ∧
      (∀ t, s.pmm.Free t → t ≠ 0 → (mapZeroed cr3 flags l s).2.pmm.Free t) := by
  cases l with
  | nil => exact ⟨rfl, rfl, fun t ht _ => ht⟩
  | cons a rest =>
    simp only [mapZeroed, Vm.allocPage_fst, h, if_true]
    refine ⟨trivial, rfl, fun t ht ht0 => ?_⟩
    rw [Vm.allocPage_pmm, Pmm.free_pmmAllocPage_iff, h]
    exact ⟨ht, ht0⟩

end Chicago95.Kernel
