/-
# Chicago95.Kernel.ExecLoads — what `sys_exec` promises of the file it loads.

`ExecSound` is the promise for one call: no read of the buffer leaves it; after a return of 0 each segment that is in the
file is in memory; after -1 no translation of the process has changed. Program headers are taken where the format has
them, `e_phentsize` apart, while the loader goes by its own `sizeof`.
-/
import Chicago95.Kernel.MmapRuns
import Chicago95.Kernel.SegmentBytes

namespace Chicago95.Kernel

open Chicago95.Lib.Layers

/-! ## Reads of the buffer -/

/-- A read of `r.2` bytes at `r.1`, counted from the start of the buffer, stays in its first `length` bytes. -/
def InBuffer (length : Nat) (r : Nat × Nat) : Prop := ∀ b < r.2, (r.1 + b) % 2 ^ 64 < length

/-- What is read of `phdr[i]`. -/
def headerReads (image : Nat → UInt8) (off length i : Nat) : List (Nat × Nat) :=
  let start := off + i * phdrSize
  (start, 4) ::
    if (elfPhdr image off i).pType = ptLoad then
      (start + 8, 8) :: (start + 32, 8) ::
        if (elfPhdr image off i).loaded length then [(start + 16, 8), (start + 40, 8)] else []
    else []

/-- What a pass copies from. -/
def passReads (x : Elf64Phdr × Nat) : List (Nat × Nat) :=
  let segOff := Heap.sub64 x.2 x.1.pVaddr
  if segOff < x.1.pFilesz then [((x.1.pOffset + segOff) % 2 ^ 64, min (x.1.pFilesz - segOff) pageSize)] else []

/-- The passes over the pages of a segment, up to one that finds no page. -/
def segmentReads (cr3 : Nat) (image : Nat → UInt8) : List (Elf64Phdr × Nat) → Vm → List (Nat × Nat)
  | [], _ => []
  | x :: rest, s =>
    match loadPage cr3 image x.1 x.2 s with
    | (false, _) => []
    | (true, s) => passReads x ++ segmentReads cr3 image rest s

/-- The loop over the program headers with these indices. -/
def loaderReads (cr3 : Nat) (image : Nat → UInt8) (off length : Nat) : List Nat → Vm → List (Nat × Nat)
  | [], _ => []
  | i :: rest, s =>
    let ph := elfPhdr image off i
    headerReads image off length i ++
      if ph.loaded length then
        let passes := ph.pages.map fun page => (ph, page)
        segmentReads cr3 image passes s ++
          match loadPages cr3 image passes s with
          | (false, _) => []
          | (true, s) => loaderReads cr3 image off length rest s
      else loaderReads cr3 image off length rest s

/-! ## A call that gets to its loops -/

/-- All the checks before the loops are passed. -/
structure Loading (k : KState) (file : Option ExecFile) (fits : Bool) where
  c : Slot
  f : ExecFile
  bytes : Nat → UInt8
  image : Nat → UInt8
  current : k.currentProcess = some c
  user : (k.processes c).pid ≠ 0
  file_eq : file = some f
  header_eq : f.header = some bytes
  valid : elfValidate (elfHeader bytes) = true
  buffer : (kmallocPages fits f.length k.vm.pmm).1 = true
  image_eq : f.image = some image
  table : ((elfHeader bytes).ePhoff + (elfHeader bytes).ePhnum * (elfHeader bytes).ePhentsize) % 2 ^ 64 ≤ f.length

namespace Loading

variable {k : KState} {file : Option ExecFile} {fits : Bool} (l : Loading k file fits)

def hdr : Elf64Header := elfHeader l.bytes

def root : Nat := k.roots l.c

/-- The buffer is there. -/
def start : Vm := { k.vm with pmm := (kmallocPages fits l.f.length k.vm.pmm).2 }

/-- The segments that are loaded. -/
def segments : List Elf64Phdr :=
  ((List.range l.hdr.ePhnum).map (elfPhdr l.image l.hdr.ePhoff)).filter (·.loaded l.f.length)

def passes : List (Elf64Phdr × Nat) := l.hdr.passes l.image l.f.length

def reads : List (Nat × Nat) :=
  loaderReads l.root l.image l.hdr.ePhoff l.f.length (List.range l.hdr.ePhnum) l.start

/-- Program header `i` of the file. -/
def header (i : Nat) : Elf64Phdr := elfPhdr l.image (l.hdr.ePhoff + i * l.hdr.ePhentsize) 0

/-- There are as many pages as the passes need. -/
def HasPages : Prop := pagesNeeded l.start.mem l.root (l.passes.map Prod.snd) ≤ l.start.pmm.freeCount

end Loading

/-- **The promise of `sys_exec`.** -/
structure ExecSound (k : KState) (file : Option ExecFile) (fits : Bool) : Prop where
  reads : ∀ l : Loading k file fits, ∀ r ∈ l.reads, InBuffer l.f.length r
  loaded : (sysExec k file fits).1 = 0 → ∀ l : Loading k file fits, ∀ i < l.hdr.ePhnum,
    (l.header i).pType = ptLoad → (l.header i).pOffset + (l.header i).pFilesz ≤ l.f.length →
      ∀ n < (l.header i).extent, userByte (sysExec k file fits).2.vm l.root ((l.header i).pVaddr + n) =
        some ((l.header i).content l.image n)
  failed : (sysExec k file fits).1 = -1 → ∀ c, k.currentProcess = some c → ∀ v,
    vmmTranslate (sysExec k file fits).2.vm.mem (k.roots c) v = vmmTranslate k.vm.mem (k.roots c) v

/-! ## The condition -/

namespace Loading

variable {k : KState} {file : Option ExecFile} {fits : Bool} (l : Loading k file fits)

/-- **Headers and segments lie where they should.** The process has an address space. -/
structure Fits : Prop where
  space : l.root ≠ 0
  entries : l.hdr.ePhentsize = phdrSize ∨ l.hdr.ePhnum ≤ 1
  headers : ∀ i < l.hdr.ePhnum, ∀ r ∈ headerReads l.image l.hdr.ePhoff l.f.length i, InBuffer l.f.length r
  inFile : ∀ ph ∈ l.segments, ph.pOffset + ph.pFilesz ≤ l.f.length
  low : ∀ ph ∈ l.segments, (∀ page ∈ ph.pages, page < 2 ^ 47) ∧ ∀ n < ph.extent, ph.pVaddr + n < 2 ^ 47
  pages : l.HasPages ∨ l.start.pmm.freeCount = 0

/-- Some pass writes byte `v`. -/
def Writes (v : Nat) : Prop := ∃ x ∈ l.passes, pageOf v = x.2 ∧ x.1.pVaddr ≤ x.2 ∧ v < x.1.pVaddr + x.1.extent

/-- What there is at `v` in the end if none does: a page that was not mapped is mapped, and zero. -/
def before (v : Nat) : Option UInt8 :=
  if ∃ x ∈ l.passes, pageOf v = x.2 then some ((userByte k.vm l.root v).getD 0) else userByte k.vm l.root v

/-- **Segments agree, and what is not written is right.** -/
structure Right : Prop where
  agree : ∀ ph ∈ l.segments, ∀ ph' ∈ l.segments, ∀ n < ph.extent, ∀ n' < ph'.extent,
    ph.pVaddr + n = ph'.pVaddr + n' → ph.content l.image n = ph'.content l.image n'
  unwritten : ∀ ph ∈ l.segments, ∀ n < ph.extent,
    l.Writes (ph.pVaddr + n) ∨ l.before (ph.pVaddr + n) = some (ph.content l.image n)

variable {l} {x : Elf64Phdr × Nat} {ph : Elf64Phdr}

theorem mem_passes : x ∈ l.passes ↔ x.1 ∈ l.segments ∧ x.2 ∈ x.1.pages := by
  unfold passes Elf64Header.passes
  rw [List.mem_flatMap]
  constructor
  · rintro ⟨ph, hph, hx⟩
    obtain ⟨page, hpage, rfl⟩ := List.mem_map.mp hx
    exact ⟨hph, hpage⟩
  · rintro ⟨hph, hpage⟩
    exact ⟨x.1, hph, List.mem_map.mpr ⟨x.2, hpage, rfl⟩⟩

theorem mem_segments : ph ∈ l.segments ↔
    ∃ i < l.hdr.ePhnum, elfPhdr l.image l.hdr.ePhoff i = ph ∧ ph.loaded l.f.length = true := by
  unfold segments
  rw [List.mem_filter, List.mem_map]
  constructor
  · rintro ⟨⟨i, hi, rfl⟩, hload⟩
    exact ⟨i, List.mem_range.mp hi, rfl, hload⟩
  · rintro ⟨i, hi, rfl, hload⟩
    exact ⟨⟨i, List.mem_range.mpr hi, rfl⟩, hload⟩

theorem Fits.passFits (h : l.Fits) (hx : x ∈ l.passes) : PassFits x := by
  obtain ⟨hph, hpage⟩ := mem_passes.mp hx
  obtain ⟨hlow, hbytes⟩ := h.low x.1 hph
  have hext : x.1.extent ≤ 2 ^ 47 := by
    by_cases hz : x.1.extent = 0
    · omega
    · have hlast := hbytes (x.1.extent - 1) (by omega)
      omega
  obtain ⟨i, -, hi⟩ := List.mem_map.mp hpage
  refine ⟨?_, hlow x.2 hpage, ?_, hext⟩
  · rw [← hi]
    exact Nat.dvd_add (dvd_pageOf _) (Nat.dvd_mul_left _ _)
  · rw [← hi]
    simp only [pageOf, pageSize]
    omega

theorem Fits.header_eq (h : l.Fits) {i : Nat} (hi : i < l.hdr.ePhnum) :
    l.header i = elfPhdr l.image l.hdr.ePhoff i := by
  have hoff : l.hdr.ePhoff + i * l.hdr.ePhentsize = l.hdr.ePhoff + i * phdrSize := by
    rcases h.entries with hsize | hone
    · rw [hsize]
    · obtain rfl : i = 0 := by omega
      rw [Nat.zero_mul, Nat.zero_mul]
  unfold header elfPhdr
  rw [hoff, Nat.zero_mul, Nat.add_zero]

/-! ## The reads -/

theorem mem_segmentReads {cr3 : Nat} {image : Nat → UInt8} {passes : List (Elf64Phdr × Nat)} {s : Vm} {r : Nat × Nat}
    (hr : r ∈ segmentReads cr3 image passes s) : ∃ x ∈ passes, r ∈ passReads x := by
  induction passes generalizing s with
  | nil => exact absurd hr List.not_mem_nil
  | cons x rest ih =>
    rw [segmentReads] at hr
    generalize loadPage cr3 image x.1 x.2 s = pass at hr
    obtain ⟨_ | _, s₁⟩ := pass
    · exact absurd hr List.not_mem_nil
    · rcases List.mem_append.mp hr with hr | hr
      · exact ⟨x, List.mem_cons_self, hr⟩
      · obtain ⟨y, hy, hr⟩ := ih hr
        exact ⟨y, List.mem_cons_of_mem x hy, hr⟩

theorem mem_loaderReads {cr3 : Nat} {image : Nat → UInt8} {off length : Nat} {is : List Nat} {s : Vm} {r : Nat × Nat}
    (hr : r ∈ loaderReads cr3 image off length is s) : ∃ i ∈ is, r ∈ headerReads image off length i ∨
      (elfPhdr image off i).loaded length = true ∧
        ∃ page ∈ (elfPhdr image off i).pages, r ∈ passReads (elfPhdr image off i, page) := by
  induction is generalizing s with
  | nil => exact absurd hr List.not_mem_nil
  | cons i rest ih =>
    rw [loaderReads] at hr
    dsimp only at hr
    rcases List.mem_append.mp hr with hr | hr
    · exact ⟨i, List.mem_cons_self, Or.inl hr⟩
    split at hr
    · rename_i hload
      rcases List.mem_append.mp hr with hr | hr
      · obtain ⟨x, hx, hr⟩ := mem_segmentReads hr
        obtain ⟨page, hpage, rfl⟩ := List.mem_map.mp hx
        exact ⟨i, List.mem_cons_self, Or.inr ⟨hload, page, hpage, hr⟩⟩
      · split at hr
        · exact absurd hr List.not_mem_nil
        · exact List.exists_mem_cons_of_exists (ih hr)
    · exact List.exists_mem_cons_of_exists (ih hr)

theorem inside_passReads {length : Nat} (hin : x.1.pOffset + x.1.pFilesz ≤ length) {r : Nat × Nat}
    (hr : r ∈ passReads x) : InBuffer length r := by
  unfold passReads at hr
  dsimp only at hr
  split at hr
  · obtain rfl := List.mem_singleton.mp hr
    intro b hb
    dsimp only at hb ⊢
    have hmod := Nat.mod_le (x.1.pOffset + Heap.sub64 x.2 x.1.pVaddr) (2 ^ 64)
    have hmod' := Nat.mod_le ((x.1.pOffset + Heap.sub64 x.2 x.1.pVaddr) % 2 ^ 64 + b) (2 ^ 64)
    omega
  · exact absurd hr List.not_mem_nil

theorem Fits.inside (h : l.Fits) {r : Nat × Nat} (hr : r ∈ l.reads) : InBuffer l.f.length r := by
  obtain ⟨i, hi, hr⟩ := mem_loaderReads hr
  have hi' := List.mem_range.mp hi
  rcases hr with hr | ⟨hload, page, hpage, hr⟩
  · exact h.headers i hi' r hr
  · exact inside_passReads (h.inFile _ (mem_segments.mpr ⟨i, hi', rfl, hload⟩)) hr

/-! ## What is in memory in the end -/

theorem passLayer_eq_some {image : Nat → UInt8} {v : Nat} {b : UInt8} :
    passLayer image x v = some (some b) ↔ (pageOf v = x.2 ∧ x.1.pVaddr ≤ x.2 ∧ v < x.1.pVaddr + x.1.extent) ∧
      x.1.content image (v - x.1.pVaddr) = b := by
  unfold passLayer
  by_cases hpage : pageOf v = x.2
  · by_cases htext : x.1.pVaddr ≤ x.2 ∧ v < x.1.pVaddr + x.1.extent
    · simp [hpage, htext]
    · simp only [hpage, htext, if_true, if_false, true_and, false_and, iff_false, Option.some.injEq]
      exact Option.some_ne_none b |>.symm
  · simp [hpage]

theorem passLayer_ne_none {image : Nat → UInt8} {v : Nat} : passLayer image x v ≠ none ↔ pageOf v = x.2 := by
  unfold passLayer
  by_cases hpage : pageOf v = x.2
  · simp [hpage]
  · simp [hpage]

/-- The memory under the layers of all passes. -/
def final (l : Loading k file fits) (v : Nat) : Option UInt8 :=
  lay 0 (userByte k.vm l.root) (l.passes.map (passLayer l.image)) v

theorem final_of_writes (hagree : ∀ ph ∈ l.segments, ∀ ph' ∈ l.segments, ∀ n < ph.extent, ∀ n' < ph'.extent,
      ph.pVaddr + n = ph'.pVaddr + n' → ph.content l.image n = ph'.content l.image n')
    (hph : ph ∈ l.segments) {n : Nat} (hn : n < ph.extent) (hw : l.Writes (ph.pVaddr + n)) :
    l.final (ph.pVaddr + n) = some (ph.content l.image n) := by
  have hsame : ∀ x ∈ l.passes, x.1.pVaddr ≤ x.2 → pageOf (ph.pVaddr + n) = x.2 →
      ph.pVaddr + n < x.1.pVaddr + x.1.extent →
        x.1.content l.image (ph.pVaddr + n - x.1.pVaddr) = ph.content l.image n := fun x hx hle hpage hlt => by
    have hge : pageOf (ph.pVaddr + n) ≤ ph.pVaddr + n := Nat.div_mul_le_self _ _
    exact hagree x.1 (mem_passes.mp hx).1 ph hph _ (by omega) n hn (by omega)
  refine lay_of_text (fun f hf b hb => ?_) ?_
  · obtain ⟨x, hx, rfl⟩ := List.mem_map.mp hf
    obtain ⟨⟨hpage, hle, hlt⟩, rfl⟩ := passLayer_eq_some.mp hb
    exact hsame x hx hle hpage hlt
  · obtain ⟨x, hx, hpage, hle, hlt⟩ := hw
    exact ⟨_, List.mem_map.mpr ⟨x, hx, rfl⟩, passLayer_eq_some.mpr ⟨⟨hpage, hle, hlt⟩, hsame x hx hle hpage hlt⟩⟩

theorem final_of_not_writes {v : Nat} (hw : ¬ l.Writes v) : l.final v = l.before v := by
  unfold before
  split
  · rename_i hcovered
    obtain ⟨x, hx, hpage⟩ := hcovered
    refine lay_of_covered (fun f hf b hb => ?_) ⟨_, List.mem_map.mpr ⟨x, hx, rfl⟩, passLayer_ne_none.mpr hpage⟩
    obtain ⟨y, hy, rfl⟩ := List.mem_map.mp hf
    exact hw ⟨y, hy, (passLayer_eq_some.mp hb).1⟩
  · rename_i hoff
    refine lay_of_off fun f hf => ?_
    obtain ⟨y, hy, rfl⟩ := List.mem_map.mp hf
    by_contra hne
    exact hoff ⟨y, hy, passLayer_ne_none.mp hne⟩

theorem right_iff_final : l.Right ↔ ∀ ph ∈ l.segments, ∀ n < ph.extent,
    l.final (ph.pVaddr + n) = some (ph.content l.image n) := by
  constructor
  · rintro ⟨hagree, hunwritten⟩ ph hph n hn
    by_cases hw : l.Writes (ph.pVaddr + n)
    · exact final_of_writes hagree hph hn hw
    · rw [final_of_not_writes hw]
      exact (hunwritten ph hph n hn).resolve_left hw
  · intro hfinal
    refine ⟨fun ph hph ph' hph' n hn n' hn' heq => ?_, fun ph hph n hn => ?_⟩
    · have h := hfinal ph hph n hn
      rw [heq, hfinal ph' hph' n' hn'] at h
      exact (Option.some.inj h).symm
    · by_cases hw : l.Writes (ph.pVaddr + n)
      · exact Or.inl hw
      · rw [← final_of_not_writes hw]
        exact Or.inr (hfinal ph hph n hn)

/-! ## The call -/

theorem sysExec_run {c : Slot} {f : ExecFile} {bytes image : Nat → UInt8} (hc : k.currentProcess = some c)
    (hpid : (k.processes c).pid ≠ 0) (hheader : f.header = some bytes) (hvalid : elfValidate (elfHeader bytes) = true)
    (hbuffer : (kmallocPages fits f.length k.vm.pmm).1 = true) (himage : f.image = some image)
    (htable : ((elfHeader bytes).ePhoff + (elfHeader bytes).ePhnum * (elfHeader bytes).ePhentsize) % 2 ^ 64 ≤ f.length)
    {done : Bool} {vm : Vm} (hrun : loadPages (k.roots c) image ((elfHeader bytes).passes image f.length)
      { k.vm with pmm := (kmallocPages fits f.length k.vm.pmm).2 } = (done, vm)) :
    (sysExec k (some f) fits).1 = (if done then 0 else -1) ∧ (sysExec k (some f) fits).2.vm = vm := by
  have hroot : k.roots c = (k.processes c).cr3 := rfl
  rw [hroot] at hrun
  unfold sysExec
  rw [hc]
  dsimp only
  rw [if_neg hpid, hheader]
  dsimp only
  rw [if_pos hvalid]
  generalize kmallocPages fits f.length k.vm.pmm = alloc at hbuffer hrun ⊢
  obtain ⟨ok, pmm⟩ := alloc
  obtain rfl : ok = true := hbuffer
  dsimp only at hrun ⊢
  rw [if_neg (by decide), himage]
  dsimp only
  rw [if_neg (Nat.not_lt.mpr htable), hrun]
  cases done
  · exact ⟨rfl, rfl⟩
  · exact ⟨rfl, rfl⟩

theorem sysExec_eq (l : Loading k file fits) {done : Bool} {vm : Vm}
    (hrun : loadPages l.root l.image l.passes l.start = (done, vm)) :
    (sysExec k file fits).1 = (if done then 0 else -1) ∧ (sysExec k file fits).2.vm = vm := by
  obtain ⟨c, f, bytes, image, hc, hpid, rfl, hheader, hvalid, hbuffer, himage, htable⟩ := l
  exact sysExec_run hc hpid hheader hvalid hbuffer himage htable hrun

theorem sysExec_of_isEmpty (h : IsEmpty (Loading k file fits)) :
    (sysExec k file fits).1 = -1 ∧ (sysExec k file fits).2.vm.mem = k.vm.mem := by
  unfold sysExec
  rcases hc : k.currentProcess with _ | c
  · exact ⟨rfl, rfl⟩
  dsimp only
  by_cases hpid : (k.processes c).pid = 0
  · rw [if_pos hpid]
    exact ⟨rfl, rfl⟩
  rw [if_neg hpid]
  rcases file with _ | f
  · exact ⟨rfl, rfl⟩
  dsimp only
  rcases hheader : f.header with _ | bytes
  · exact ⟨rfl, rfl⟩
  dsimp only
  by_cases hvalid : elfValidate (elfHeader bytes) = true
  · rw [if_pos hvalid]
    generalize hbuffer : kmallocPages fits f.length k.vm.pmm = alloc
    obtain ⟨ok, pmm⟩ := alloc
    dsimp only
    cases ok with
    | false => exact ⟨rfl, rfl⟩
    | true =>
      rw [if_neg (by decide)]
      rcases himage : f.image with _ | image
      · exact ⟨rfl, rfl⟩
      dsimp only
      by_cases htable :
          f.length < ((elfHeader bytes).ePhoff + (elfHeader bytes).ePhnum * (elfHeader bytes).ePhentsize) % 2 ^ 64
      · rw [if_pos htable]
        exact ⟨rfl, rfl⟩
      · exact h.elim ⟨c, f, bytes, image, hc, hpid, rfl, hheader, hvalid, by rw [hbuffer], himage, Nat.not_lt.mp htable⟩
  · rw [if_neg hvalid]
    exact ⟨rfl, rfl⟩

variable {roles : Nat → Option Role}

theorem Fits.run_of_hasPages (h : l.Fits) (ho : Owned roles k.vm k.cr3 k.roots) (hreg : ¬ k.vm.pmm.Free k.cr3)
    (hpages : l.HasPages) : (sysExec k file fits).1 = 0 ∧
      ∀ v, v < 2 ^ 47 → userByte (sysExec k file fits).2.vm l.root v = l.final v := by
  have hbuffer := ho.kmallocPages hreg fits l.f.length
  obtain ⟨_, s', hrun, hlaid⟩ := hbuffer.owned.loadPages_laid (hbuffer.not_free hreg) h.space
    (fun x hx => h.passFits hx) hpages
  obtain ⟨hret, hvm⟩ := sysExec_eq l hrun
  refine ⟨hret, fun v hv => ?_⟩
  rw [hvm]
  exact hlaid.bytes v hv

theorem Fits.run_of_none (h : l.Fits) (ho : Owned roles k.vm k.cr3 k.roots) (hreg : ¬ k.vm.pmm.Free k.cr3)
    (hpages : ¬ l.HasPages) : (sysExec k file fits).1 = -1 ∧
      ∀ v, pageWalk (sysExec k file fits).2.vm.mem l.root v = pageWalk k.vm.mem l.root v := by
  have hbuffer := ho.kmallocPages hreg fits l.f.length
  have hnone := h.pages.resolve_left hpages
  obtain ⟨hwalk, hall⟩ := hbuffer.owned.loadPages_none h.space hnone fun x hx => h.passFits hx
  obtain ⟨done, s', hrun⟩ : ∃ done s', loadPages l.root l.image l.passes l.start = (done, s') := ⟨_, _, rfl⟩
  change ∀ v, pageWalk (loadPages l.root l.image l.passes l.start).2.mem l.root v = _ at hwalk
  change (loadPages l.root l.image l.passes l.start).1 = true → _ at hall
  rw [hrun] at hwalk hall
  obtain ⟨hret, hvm⟩ := sysExec_eq l hrun
  cases done with
  | false =>
    refine ⟨hret, fun v => ?_⟩
    rw [hvm]
    exact hwalk v
  | true =>
    refine absurd ?_ hpages
    have hzero : pagesNeeded l.start.mem l.root (l.passes.map Prod.snd) = 0 := by
      refine hbuffer.owned.pagesNeeded_eq_zero h.space (fun b hb => ?_) fun b hb => ?_
      · obtain ⟨x, hx, rfl⟩ := List.mem_map.mp hb
        exact (h.passFits hx).low
      · obtain ⟨x, hx, rfl⟩ := List.mem_map.mp hb
        exact hall rfl x hx
    rw [HasPages, hzero]
    exact Nat.zero_le _

theorem Fits.header_loaded (h : l.Fits) {i : Nat} (hi : i < l.hdr.ePhnum) (htype : (l.header i).pType = ptLoad)
    (hin : (l.header i).pOffset + (l.header i).pFilesz ≤ l.f.length) : l.header i ∈ l.segments := by
  refine mem_segments.mpr ⟨i, hi, (h.header_eq hi).symm, ?_⟩
  have hmod := Nat.mod_le ((l.header i).pOffset + (l.header i).pFilesz) (2 ^ 64)
  rw [Elf64Phdr.loaded, Bool.and_eq_true, Bool.not_eq_true', decide_eq_true_eq, decide_eq_false_iff_not]
  exact ⟨htype, by omega⟩

end Loading

theorem Loading.Fits.writes {k : KState} {file : Option ExecFile} {fits : Bool} {l : Loading k file fits} (h : l.Fits)
    {ph : Elf64Phdr} (hph : ph ∈ l.segments) (haligned : pageSize ∣ ph.pVaddr) (hsize : ph.pFilesz ≤ ph.pMemsz) {n : Nat}
    (hn : n < ph.extent) : l.Writes (ph.pVaddr + n) := by
  have hlow := (h.low ph hph).2
  have hext : ph.extent = ph.pMemsz := Nat.max_eq_right hsize
  have hlast := hlow (ph.extent - 1) (by omega)
  have hend : ph.pVaddr + ph.pMemsz ≤ 2 ^ 47 := by omega
  obtain ⟨m, hm⟩ := haligned
  refine ⟨(ph, pageOf (ph.pVaddr + n)), Loading.mem_passes.mpr ⟨hph, ?_⟩, rfl, ?_, by dsimp only; omega⟩
  · refine List.mem_map.mpr ⟨n / pageSize, List.mem_range.mpr ?_, ?_⟩
    · have hwrap : (ph.pVaddr + ph.pMemsz) % 2 ^ 64 = ph.pVaddr + ph.pMemsz := Nat.mod_eq_of_lt (by omega)
      rw [hwrap]
      simp only [pageUp, pageOf, pageSize] at *
      omega
    · dsimp only
      simp only [pageOf, pageSize] at *
      omega
  · simp only [pageOf, pageSize] at *
    omega

/-- A program of one segment, a byte of the file and a zero, at `0x400000` or in the middle of that page. -/
def smallImage (middle : Bool) : Nat → UInt8
  | 0 => 0x7F | 1 => 0x45 | 2 => 0x4C | 3 => 0x46 | 4 => 2 | 5 => 1 | 16 => 2 | 18 => 0x3E
  | 32 => 64 | 54 => 56 | 56 => 1
  | 64 => 1 | 72 => 120 | 81 => if middle then 8 else 0 | 82 => 0x40 | 96 => 1 | 104 => 2
  | 120 => 7
  | _ => 0

def smallFile (middle : Bool) : ExecFile where
  length := 121
  header := some (smallImage middle)
  image := some (smallImage middle)

/-- It gets to the loops. -/
def smallLoading (middle : Bool) : Loading (userMachine 8) (some (smallFile middle)) true where
  c := secondSlot
  f := smallFile middle
  bytes := smallImage middle
  image := smallImage middle
  current := rfl
  user := by decide
  file_eq := rfl
  header_eq := rfl
  valid := rfl
  buffer := rfl
  image_eq := rfl
  table := by cases middle <;> decide

theorem smallLoading_eq (middle : Bool) (l : Loading (userMachine 8) (some (smallFile middle)) true) :
    l = smallLoading middle := by
  obtain ⟨c, f, bytes, image, hc, _, hf, hheader, _, _, himage, _⟩ := l
  obtain rfl : secondSlot = c := Option.some.inj hc
  obtain rfl : smallFile middle = f := Option.some.inj hf
  obtain rfl : smallImage middle = bytes := Option.some.inj hheader
  obtain rfl : smallImage middle = image := Option.some.inj himage
  rfl

instance (length : Nat) (r : Nat × Nat) : Decidable (InBuffer length r) :=
  inferInstanceAs (Decidable (∀ b < r.2, (r.1 + b) % 2 ^ 64 < length))

theorem not_free_userMachine (n : Nat) : ¬ (userMachine n).vm.pmm.Free (userMachine n).cr3 := by
  rintro ⟨i, _, hb, hi⟩
  obtain rfl : 1 = i := Pmm.mul_pageSize_inj (i := 1) hi
  exact absurd (show decide (1 < 2) = false from hb) (by decide)

end Chicago95.Kernel
