/-
# Chicago95.Kernel.Exec — the ELF loader of `sys_exec`.

The file arrives in two reads: the header into `hdr`, and the whole of it into a buffer from `kmalloc`.
What the reads deliver is an input here, byte by byte, and nothing is assumed of it. Program headers are
read where the file says they are, also beyond the buffer, and every sum is a 64-bit one, as in the source.
-/
import Chicago95.Kernel.UserMemory
import Chicago95.Kernel.Heap
import Chicago95.Kernel.PmmRuns

namespace Chicago95.Kernel

/-! ## ELF headers -/

/-- The field of `n` bytes at `off` of a packed structure, lowest byte first. -/
def field (bytes : Nat → UInt8) (off n : Nat) : Nat :=
  (List.range n).foldr (fun i acc => (bytes ((off + i) % 2 ^ 64)).toNat + 256 * acc) 0

/-- `elf64_header_t`, the fields that are read. -/
structure Elf64Header where
  eIdent : Nat → Nat
  eType : Nat
  eMachine : Nat
  eEntry : Nat
  ePhoff : Nat
  ePhentsize : Nat
  ePhnum : Nat

def elfHeader (bytes : Nat → UInt8) : Elf64Header where
  eIdent i := field bytes i 1
  eType := field bytes 16 2
  eMachine := field bytes 18 2
  eEntry := field bytes 24 8
  ePhoff := field bytes 32 8
  ePhentsize := field bytes 54 2
  ePhnum := field bytes 56 2

/-- `elf64_phdr_t`, the fields that are read. -/
structure Elf64Phdr where
  pType : Nat
  pOffset : Nat
  pVaddr : Nat
  pFilesz : Nat
  pMemsz : Nat

/-- `sizeof(elf64_phdr_t)` -/
def phdrSize : Nat := 56

/-- `phdr[i]`, where `phdr` is at `off`. -/
def elfPhdr (bytes : Nat → UInt8) (off i : Nat) : Elf64Phdr where
  pType := field bytes (off + i * phdrSize) 4
  pOffset := field bytes (off + i * phdrSize + 8) 8
  pVaddr := field bytes (off + i * phdrSize + 16) 8
  pFilesz := field bytes (off + i * phdrSize + 32) 8
  pMemsz := field bytes (off + i * phdrSize + 40) 8

def elfValidate (hdr : Elf64Header) : Bool :=
  if hdr.eIdent 0 ≠ 0x7F then false
  else if hdr.eIdent 1 ≠ 0x45 then false
  else if hdr.eIdent 2 ≠ 0x4C then false
  else if hdr.eIdent 3 ≠ 0x46 then false
  else if hdr.eIdent 4 ≠ 2 then false
  else if hdr.eIdent 5 ≠ 1 then false
  else if hdr.eType ≠ 2 then false
  else if hdr.eMachine ≠ 0x3E then false
  else true

def ptLoad : Nat := 1

/-- The segment is loaded: the others are passed over. -/
def Elf64Phdr.loaded (ph : Elf64Phdr) (fileSize : Nat) : Bool :=
  decide (ph.pType = ptLoad) && !decide (fileSize < (ph.pOffset + ph.pFilesz) % 2 ^ 64)

/-- The pages of a segment, from `p_vaddr & ~0xFFF` on. -/
def Elf64Phdr.pages (ph : Elf64Phdr) : List Nat :=
  pagesFrom (pageOf ph.pVaddr) (pageUp ((ph.pVaddr + ph.pMemsz) % 2 ^ 64))

/-- Every pass of the two loops: a segment and one of its pages. -/
def Elf64Header.passes (hdr : Elf64Header) (image : Nat → UInt8) (fileSize : Nat) :
    List (Elf64Phdr × Nat) :=
  (((List.range hdr.ePhnum).map (elfPhdr image hdr.ePhoff)).filter (·.loaded fileSize)).flatMap
    fun ph => ph.pages.map fun page => (ph, page)

/-! ## Loading a page -/

/-- Byte `b` of a word. -/
def byteOf (w b : Nat) : UInt8 := UInt8.ofNat (w / 2 ^ (8 * b))

/-- Byte `off + i` of a page becomes `f i`, for `i < n`. -/
def Vm.writeBytes (s : Vm) (page off n : Nat) (f : Nat → UInt8) : Vm :=
  { s with mem := Function.update s.mem page fun i =>
      field (fun b => if off ≤ 8 * i + b ∧ 8 * i + b < off + n then f (8 * i + b - off)
        else byteOf (s.mem page i) b) 0 8 }

/-- The bytes the file has for the page at `phys`, whose first byte is byte `segOff` of the segment. -/
def copyFile (image : Nat → UInt8) (ph : Elf64Phdr) (segOff phys : Nat) (s : Vm) : Vm :=
  if segOff < ph.pFilesz then
    s.writeBytes (pageOf phys) 0 (min (ph.pFilesz - segOff) pageSize)
      fun i => image ((ph.pOffset + segOff + i) % 2 ^ 64)
  else s

/-- Zeros in the rest of the page, as far as the segment goes. -/
def zeroRest (ph : Elf64Phdr) (segOff phys : Nat) (s : Vm) : Vm :=
  let pageEndOff := min ((segOff + pageSize) % 2 ^ 64) ph.pMemsz
  let zstart := max segOff ph.pFilesz
  if ph.pFilesz < pageEndOff ∧ zstart < pageEndOff then
    s.writeBytes (pageOf phys) (zstart - segOff) (pageEndOff - zstart) fun _ => 0
  else s

/-- What goes into the page at `phys`, to which page `page` of segment `ph` is mapped. -/
def copySegment (image : Nat → UInt8) (ph : Elf64Phdr) (page phys : Nat) (s : Vm) : Vm :=
  let segOff := Heap.sub64 page ph.pVaddr
  zeroRest ph segOff phys (copyFile image ph segOff phys s)

/-- One pass: `false` when there is no page to be had. -/
def loadPage (cr3 : Nat) (image : Nat → UInt8) (ph : Elf64Phdr) (page : Nat) (s : Vm) : Bool × Vm :=
  let phys := vmmTranslate s.mem cr3 page
  if phys = 0 then
    let (pg, s) := s.allocPage
    if pg = 0 then (false, s)
    else
      let s := vmmMapPage (s.zeroPage pg) cr3 page pg (pml4Rw ||| pml4User)
      (true, copySegment image ph page pg s)
  else (true, copySegment image ph page phys s)

/-- The loops; they end at the first pass that finds no page. -/
def loadPages (cr3 : Nat) (image : Nat → UInt8) : List (Elf64Phdr × Nat) → Vm → Bool × Vm
  | [], s => (true, s)
  | (ph, page) :: rest, s =>
    match loadPage cr3 image ph page s with
    | (false, s) => (false, s)
    | (true, s) => loadPages cr3 image rest s

/-! ## The system call -/

/-- `kmalloc` on the page manager; `fits` when the free list of the heap serves the request. -/
def kmallocPages (fits : Bool) (size : Nat) (p : Pmm) : Bool × Pmm :=
  if size = 0 then (false, p)
  else if fits then (true, p)
  else
    let (base, p) := p.pmmAllocPages (KHeap.pagesFor (KHeap.alignUp size))
    (base != 0, p)

/-- A file that could be opened: its length, what the read of the header delivers, and the memory from the
buffer on after the second read; `none` for a read that comes out short. -/
structure ExecFile where
  length : Nat
  header : Option (Nat → UInt8)
  image : Option (Nat → UInt8)

/-- The header is one `sys_exec` goes on with. -/
def ExecFile.Accepted (file : ExecFile) : Prop :=
  ∃ bytes, file.header = some bytes ∧ elfValidate (elfHeader bytes) = true

/-- The passes of the loader over a file that both reads deliver. -/
def ExecFile.passes (file : ExecFile) : List (Elf64Phdr × Nat) :=
  match file.header, file.image with
  | some bytes, some image =>
    let hdr := elfHeader bytes
    if file.length < (hdr.ePhoff + hdr.ePhnum * hdr.ePhentsize) % 2 ^ 64 then []
    else hdr.passes image file.length
  | _, _ => []

/-- The entry of a process that goes on in a new image. -/
def Process.reloaded (p : Process) (entry : Nat) : Process :=
  { p with
    ring := .ring3
    entryPoint := entry
    context := { p.context with
      rip := entry, rflags := 0x202, cs := userCs, ss := userDs, rsp := p.userStack } }

/-- `sys_exec`. -/
def sysExec (k : KState) (file : Option ExecFile) (fits : Bool) : Int × KState :=
  match k.currentProcess with
  | none => (-1, k)
  | some c =>
    if (k.processes c).pid = 0 then (-1, k)       -- init cannot exec
    else
      match file with
      | none => (-1, k)
      | some file =>
        match file.header with
        | none => (-1, k)
        | some bytes =>
          let hdr := elfHeader bytes
          if elfValidate hdr then
            let (ok, pmm) := kmallocPages fits file.length k.vm.pmm
            let k := { k with vm := { k.vm with pmm := pmm } }
            if !ok then (-1, k)
            else
              match file.image with
              | none => (-1, k)
              | some image =>
                if file.length < (hdr.ePhoff + hdr.ePhnum * hdr.ePhentsize) % 2 ^ 64 then (-1, k)
                else
                  let (ok, vm) := loadPages (k.processes c).cr3 image
                    (hdr.passes image file.length) k.vm
                  if !ok then (-1, { k with vm := vm })
                  else
                    (0, { k with vm := vm }.setProcess c
                      ((k.processes c).reloaded hdr.eEntry))
          else (-1, k)

/-! ## What the loader writes -/

section

variable (ph : Elf64Phdr) (image : Nat → UInt8) (s : Vm) (segOff page phys : Nat)

theorem writeBytes_mem_of_ne {t : Nat} (off n : Nat) (f : Nat → UInt8) (h : t ≠ page) :
    (s.writeBytes page off n f).mem t = s.mem t := Function.update_of_ne h _ _

theorem copyFile_writes : (copyFile image ph segOff phys s).pmm = s.pmm ∧
    ∀ t, t ≠ pageOf phys → (copyFile image ph segOff phys s).mem t = s.mem t := by
  unfold copyFile
  split
  · exact ⟨rfl, fun t => writeBytes_mem_of_ne s _ _ _ _⟩
  · exact ⟨rfl, fun _ _ => rfl⟩

theorem zeroRest_writes : (zeroRest ph segOff phys s).pmm = s.pmm ∧
    ∀ t, t ≠ pageOf phys → (zeroRest ph segOff phys s).mem t = s.mem t := by
  unfold zeroRest
  dsimp only
  split
  · exact ⟨rfl, fun t => writeBytes_mem_of_ne s _ _ _ _⟩
  · exact ⟨rfl, fun _ _ => rfl⟩

theorem copySegment_writes : (copySegment image ph page phys s).pmm = s.pmm ∧
      ∀ t, t ≠ pageOf phys → (copySegment image ph page phys s).mem t = s.mem t := by
  rw [copySegment]
  generalize Heap.sub64 page ph.pVaddr = segOff
  obtain ⟨hpmm, hmem⟩ := copyFile_writes ph image s segOff phys
  obtain ⟨hpmm', hmem'⟩ := zeroRest_writes ph (copyFile image ph segOff phys s) segOff phys
  exact ⟨hpmm'.trans hpmm, fun t h => (hmem' t h).trans (hmem t h)⟩

end

end Chicago95.Kernel
