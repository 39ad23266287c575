/-
# Chicago95.Kernel.Heap — the kernel heap of `kmalloc.c`, pointer by pointer.

Memory is the quadword at each address; a `block_header_t` is five fields in it (`sizeof` is 48, of
which the last eight bytes are padding). Addresses and sizes are 64-bit, so every sum and difference
that C computes is taken modulo `2 ^ 64`, also where it cannot wrap on a sound heap.
-/
import Chicago95.Lib.Loop
import Chicago95.Kernel.Pmm

namespace Chicago95.Kernel

open Chicago95.Lib.Loop

namespace Heap

/-- `sizeof(block_header_t)` -/
def headerSize : Nat := 48

def heapMagic : Nat := 0xDEADBEEFCAFE0000

/-- A 64-bit result. -/
def wrap (x : Nat) : Nat := x % 2 ^ 64

/-- `a - b` on 64 bits. -/
def sub64 (a b : Nat) : Nat := (a + 2 ^ 64 - b % 2 ^ 64) % 2 ^ 64

theorem wrap_of_lt {x : Nat} (h : x < 2 ^ 64) : wrap x = x := Nat.mod_eq_of_lt h

theorem sub64_of_le {a b : Nat} (ha : a < 2 ^ 64) (h : b ≤ a) : sub64 a b = a - b := by
  have hb : b % 2 ^ 64 = b := Nat.mod_eq_of_lt (by omega)
  rw [sub64, hb, show a + 2 ^ 64 - b = a - b + 2 ^ 64 by omega, Nat.add_mod_right,
    Nat.mod_eq_of_lt (by omega)]

theorem sub64_add {a b : Nat} (ha : a < 2 ^ 64) (hb : b < 2 ^ 64) : sub64 (a + b) b = a := by
  rw [sub64, Nat.mod_eq_of_lt hb, show a + b + 2 ^ 64 - b = a + 2 ^ 64 by omega, Nat.add_mod_right,
    Nat.mod_eq_of_lt ha]

/-! ## Header fields -/

/-- The quadword at each address. -/
abbrev HeapMem := Nat → Nat

/-- `block->magic` -/
def magicOf (m : HeapMem) (a : Nat) : Nat := m a
/-- `block->size` -/
def sizeOf (m : HeapMem) (a : Nat) : Nat := m (a + 8)
/-- `block->free`, an `int`: the low half of its quadword. -/
def freeOf (m : HeapMem) (a : Nat) : Nat := m (a + 16) % 2 ^ 32
/-- `block->next` -/
def nextOf (m : HeapMem) (a : Nat) : Nat := m (a + 24)

/-- `block->magic = v` -/
def setMagic (m : HeapMem) (a v : Nat) : HeapMem := Function.update m a v
/-- `block->size = v` -/
def setSize (m : HeapMem) (a v : Nat) : HeapMem := Function.update m (a + 8) v
/-- `block->free = v`; the padding after the `int` stays. -/
def setFree (m : HeapMem) (a v : Nat) : HeapMem :=
  Function.update m (a + 16) (m (a + 16) / 2 ^ 32 * 2 ^ 32 + v)
/-- `block->next = v` -/
def setNext (m : HeapMem) (a v : Nat) : HeapMem := Function.update m (a + 24) v
/-- `block->prev = v` -/
def setPrev (m : HeapMem) (a v : Nat) : HeapMem := Function.update m (a + 32) v

/-- `*p = 0` for one byte: the quadword around it loses that byte. -/
def zeroByte (m : HeapMem) (p : Nat) : HeapMem :=
  let word := p / 8 * 8
  let low := 2 ^ (8 * (p % 8))
  Function.update m word (m word / (low * 2 ^ 8) * (low * 2 ^ 8) + m word % low)

/-! ## The heap -/

/-- A run of pages obtained from `pmm_alloc_pages`. -/
structure Run where
  base : Nat
  pages : Nat
  deriving DecidableEq

/-- The address after a run. -/
def Run.stop (r : Run) : Nat := r.base + r.pages * pageSize

end Heap

open Heap

/-- `heap_head`, `heap_used`, `heap_total` over memory, with the page runs obtained so far. -/
structure KHeap where
  mem : HeapMem
  heapHead : Nat
  heapUsed : Nat
  heapTotal : Nat
  runs : List Run

namespace KHeap

def kmallocInit (mem : HeapMem) : KHeap :=
  { mem := mem, heapHead := 0, heapUsed := 0, heapTotal := 0, runs := [] }

/-- The page count `heap_grow` asks for. -/
def pagesFor (size : Nat) : Nat := wrap (size + headerSize + pageSize - 1) / pageSize

/-- `heap_grow`; `base` is the answer of `pmm_alloc_pages`, which is null for a count of zero. -/
def heapGrow (h : KHeap) (size base : Nat) : Nat × KHeap :=
  let pages := pagesFor size
  let block := if pages = 0 then 0 else base
  if block = 0 then (0, h)
  else
    let m := setMagic h.mem block heapMagic
    let m := setSize m block (sub64 (wrap (pages * pageSize)) headerSize)
    let m := setFree m block 1
    let m := setNext m block h.heapHead
    let m := setPrev m block 0
    let m := if h.heapHead = 0 then m else setPrev m h.heapHead block
    (block,
      { mem := m
        heapHead := block
        heapUsed := h.heapUsed
        heapTotal := wrap (h.heapTotal + pages * pageSize)
        runs := { base := block, pages := pages } :: h.runs })

/-- The first-fit walk: the address of the block taken, or `0` where the walk ends without one. -/
def firstFit (m : HeapMem) (size : Nat) : Nat → Nat → Option Nat
  | 0, _ => none
  | fuel + 1, cur =>
    if cur = 0 then some 0
    else if magicOf m cur ≠ heapMagic then some 0
    else if freeOf m cur ≠ 0 ∧ size ≤ sizeOf m cur then some cur
    else firstFit m size fuel (nextOf m cur)

/-- The block behind `cur`, cut off at `size` bytes. -/
def splitBlock (m : HeapMem) (cur size : Nat) : HeapMem :=
  let split := wrap (cur + headerSize + size)
  let m := setMagic m split heapMagic
  let m := setSize m split (sub64 (sub64 (sizeOf m cur) size) headerSize)
  let m := setFree m split 1
  let m := setNext m split (nextOf m cur)
  let m := setPrev m split cur
  let m := if nextOf m cur = 0 then m else setPrev m (nextOf m cur) split
  let m := setNext m cur split
  setSize m cur size

/-- What `kmalloc` does with the block its walk stopped at. -/
def takeBlock (h : KHeap) (cur size : Nat) : KHeap :=
  let m := if wrap (size + headerSize + 32) ≤ sizeOf h.mem cur then splitBlock h.mem cur size
    else h.mem
  { h with mem := setFree m cur 0, heapUsed := wrap (h.heapUsed + size) }

/-- What `kmalloc` does when nothing fits. -/
def growFor (h : KHeap) (size base : Nat) : Nat × KHeap :=
  let (block, h) := h.heapGrow size base
  if block = 0 then (0, h)
  else
    (wrap (block + headerSize),
      { h with mem := setFree h.mem block 0, heapUsed := wrap (h.heapUsed + size) })

/-- `(size + 15) & ~15` -/
def alignUp (n : Nat) : Nat := wrap (n + 15) / 16 * 16

def kmalloc (fuel : Nat) (h : KHeap) (n base : Nat) : Option (Nat × KHeap) :=
  if n = 0 then some (0, h)
  else
    (firstFit h.mem (alignUp n) fuel h.heapHead).map fun cur =>
      if cur = 0 then h.growFor (alignUp n) base
      else (wrap (cur + headerSize), h.takeBlock cur (alignUp n))

/-- `p[i] = 0` for `i < n` -/
def zeroBytes (m : HeapMem) (p n : Nat) : HeapMem :=
  forEach n (fun i m => zeroByte m (wrap (p + i))) m

def kmallocZero (fuel : Nat) (h : KHeap) (n base : Nat) : Option (Nat × KHeap) :=
  (h.kmalloc fuel n base).map fun r =>
    if r.1 = 0 then r else (r.1, { r.2 with mem := zeroBytes r.2.mem r.1 n })

/-- `(p + PAGE_SIZE - 1) & ~(PAGE_SIZE - 1)` -/
def pageUp (p : Nat) : Nat := wrap (p + pageSize - 1) / pageSize * pageSize

def kmallocAligned (fuel : Nat) (h : KHeap) (n base : Nat) : Option (Nat × KHeap) :=
  (h.kmalloc fuel (wrap (n + pageSize + headerSize)) base).map fun r =>
    if r.1 = 0 then r else (pageUp r.1, r.2)

/-- One merge of `kfree`'s pass: `cur` takes in the block its `next` points to. -/
def mergeNext (m : HeapMem) (cur : Nat) : HeapMem :=
  let m := setSize m cur (wrap (sizeOf m cur + (headerSize + sizeOf m (nextOf m cur))))
  let m := setNext m cur (nextOf m (nextOf m cur))
  if nextOf m cur = 0 then m else setPrev m (nextOf m cur) cur

/-- The pass of `kfree` over the list. -/
def coalesce : Nat → Nat → HeapMem → Option HeapMem
  | 0, _, _ => none
  | fuel + 1, cur, m =>
    if cur = 0 then some m
    else if magicOf m cur ≠ heapMagic then some m
    else if freeOf m cur ≠ 0 ∧ nextOf m cur ≠ 0 ∧ freeOf m (nextOf m cur) ≠ 0 then
      coalesce fuel cur (mergeNext m cur)
    else coalesce fuel (nextOf m cur) m

def kfree (fuel : Nat) (h : KHeap) (ptr : Nat) : Option KHeap :=
  if ptr = 0 then some h
  else
    let block := sub64 ptr headerSize
    if magicOf h.mem block ≠ heapMagic then some h
    else if freeOf h.mem block ≠ 0 then some h
    else
      (coalesce fuel h.heapHead (setFree h.mem block 1)).map fun m =>
        { h with mem := m, heapUsed := sub64 h.heapUsed (sizeOf h.mem block) }

end KHeap

end Chicago95.Kernel
