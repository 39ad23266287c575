/-
# Chicago95.Kernel.SegmentBytes — what the loader leaves in the memory of a process.

A process sees bytes, and some addresses without one (`userByte`). A pass of the loader puts a layer on that memory
(`passLayer`), which covers the page of the pass and has for text what the segment holds there. Where the page starts
below `p_vaddr` there is no text: its `seg_off` wrapped around.
-/
import Chicago95.Lib.Digits
import Chicago95.Lib.Layers
import Chicago95.Kernel.KernelHalf
import Chicago95.Kernel.UserPages

namespace Chicago95.Kernel

open Chicago95.Lib Chicago95.Lib.Layers Chicago95.Lib.Radix Chicago95.Kernel.Paging

/-! ## Bytes of memory -/

/-- The byte at a physical address. -/
def Vm.byte (s : Vm) (phys : Nat) : UInt8 := byteOf (s.mem (pageOf phys) (offsetOf phys / 8)) (phys % 8)

/-- The byte the process at `root` finds at `v`. -/
def userByte (s : Vm) (root v : Nat) : Option UInt8 :=
  let phys := vmmTranslate s.mem root v
  if phys = 0 then none else some (s.byte phys)

/-- How many bytes of memory a segment speaks of. -/
def Elf64Phdr.extent (ph : Elf64Phdr) : Nat := max ph.pFilesz ph.pMemsz

/-- Byte `n` of a segment: those of the file, then zeros. -/
def Elf64Phdr.content (ph : Elf64Phdr) (image : Nat → UInt8) (n : Nat) : UInt8 :=
  if n < ph.pFilesz then image ((ph.pOffset + n) % 2 ^ 64) else 0

/-- What a pass over page `page` of segment `ph` puts on the memory of the process. -/
def passLayer (image : Nat → UInt8) (x : Elf64Phdr × Nat) : Layer Nat UInt8 := fun v =>
  if pageOf v = x.2 then
    some (if x.1.pVaddr ≤ x.2 ∧ v < x.1.pVaddr + x.1.extent then some (x.1.content image (v - x.1.pVaddr)) else none)
  else none

/-- A page in the lower half, the first of the segment or a later one, and a segment that could lie there. -/
structure PassFits (x : Elf64Phdr × Nat) : Prop where
  page : pageSize ∣ x.2
  low : x.2 < 2 ^ 47
  start : x.1.pVaddr < x.2 + pageSize
  size : x.1.extent ≤ 2 ^ 47

theorem byteOf_field (g : Nat → UInt8) {b : Nat} (hb : b < 8) : byteOf (field g 0 8) b = g b := by
  have hvalue : field g 0 8 = Digits.value 256 (fun i => (g i).toNat) 8 := by
    simp only [field, Digits.value_succ, Digits.value_zero, List.range_succ, List.range_zero, List.nil_append,
      List.cons_append, List.foldr_cons, List.foldr_nil]
    norm_num
    ring
  have hdigit := Digits.digit_of_value (B := 256) (f := fun i => (g i).toNat) (fun i _ => UInt8.toNat_lt (g i)) hb
  rw [byteOf, hvalue]
  refine UInt8.toNat_inj.mp ?_
  rw [UInt8.toNat_ofNat', Nat.pow_mul]
  exact hdigit

/-! ## What a pass writes -/

section

variable {s : Vm} {page phys p segOff off n : Nat} {f : Nat → UInt8} {image : Nat → UInt8} {ph : Elf64Phdr}

theorem byte_writeBytes : (s.writeBytes page off n f).byte p =
    if pageOf p = page ∧ off ≤ offsetOf p ∧ offsetOf p < off + n then f (offsetOf p - off) else s.byte p := by
  by_cases hp : pageOf p = page
  · have hword : 8 * (offsetOf p / 8) + p % 8 = offsetOf p := by
      unfold offsetOf pageSize
      omega
    rw [Vm.byte, Vm.byte, Vm.writeBytes, hp]
    dsimp only
    rw [Function.update_self, byteOf_field _ (Nat.mod_lt _ (by decide)), hword]
    simp only [true_and]
  · rw [if_neg fun h => hp h.1, Vm.byte, writeBytes_mem_of_ne _ _ _ _ _ hp]
    rfl

theorem byte_copyFile : (copyFile image ph segOff phys s).byte p =
    if pageOf p = pageOf phys ∧ segOff + offsetOf p < ph.pFilesz then
      image ((ph.pOffset + segOff + offsetOf p) % 2 ^ 64) else s.byte p := by
  have hoff : offsetOf p < pageSize := Nat.mod_lt _ (by decide)
  unfold copyFile
  by_cases hfile : segOff < ph.pFilesz
  · rw [if_pos hfile, byte_writeBytes, Nat.sub_zero]
    refine if_congr (and_congr_right fun _ => ?_) rfl rfl
    omega
  · rw [if_neg hfile, if_neg fun h => hfile (by omega)]

theorem byte_zeroRest (hsmall : segOff + pageSize < 2 ^ 64) : (zeroRest ph segOff phys s).byte p =
    if pageOf p = pageOf phys ∧ ph.pFilesz ≤ segOff + offsetOf p ∧ segOff + offsetOf p < ph.pMemsz then 0
    else s.byte p := by
  have hoff : offsetOf p < pageSize := Nat.mod_lt _ (by decide)
  unfold zeroRest
  rw [Nat.mod_eq_of_lt hsmall]
  dsimp only
  by_cases hrest : ph.pFilesz < min (segOff + pageSize) ph.pMemsz ∧
      max segOff ph.pFilesz < min (segOff + pageSize) ph.pMemsz
  · rw [if_pos hrest, byte_writeBytes]
    refine if_congr (and_congr_right fun _ => ?_) rfl rfl
    omega
  · rw [if_neg hrest, if_neg fun h => hrest (by omega)]

theorem copySegment_first {x : Elf64Phdr × Nat} (hx : PassFits x) (hbelow : x.2 < x.1.pVaddr) :
    copySegment image x.1 x.2 phys s = s := by
  obtain ⟨-, hlow, hstart, hsize⟩ := hx
  have hfile : x.1.pFilesz ≤ 2 ^ 47 := (Nat.le_max_left _ _).trans hsize
  have hsub : Heap.sub64 x.2 x.1.pVaddr = 2 ^ 64 - (x.1.pVaddr - x.2) := by
    unfold Heap.sub64
    simp only [pageSize] at hstart
    omega
  simp only [pageSize] at hstart
  unfold copySegment
  rw [hsub]
  dsimp only
  rw [copyFile, if_neg (by omega), zeroRest]
  rw [if_neg (by simp only [pageSize]; omega)]

theorem byte_copySegment {x : Elf64Phdr × Nat} (hx : PassFits x) : (copySegment image x.1 x.2 phys s).byte p =
      if pageOf p = pageOf phys ∧ x.1.pVaddr ≤ x.2 ∧ x.2 + offsetOf p < x.1.pVaddr + x.1.extent then
        x.1.content image (x.2 + offsetOf p - x.1.pVaddr) else s.byte p := by
  rcases Nat.lt_or_ge x.2 x.1.pVaddr with hbelow | habove
  · rw [copySegment_first hx hbelow, if_neg fun h => absurd h.2.1 (Nat.not_le.mpr hbelow)]
  have hlow := hx.low
  have hsub : Heap.sub64 x.2 x.1.pVaddr = x.2 - x.1.pVaddr := by
    unfold Heap.sub64
    omega
  have hk : x.2 + offsetOf p - x.1.pVaddr = x.2 - x.1.pVaddr + offsetOf p := by omega
  unfold copySegment
  rw [hsub, hk]
  generalize hseg : x.2 - x.1.pVaddr = segOff
  dsimp only
  rw [byte_zeroRest (by simp only [pageSize]; omega), byte_copyFile, Elf64Phdr.content, Elf64Phdr.extent]
  by_cases hp : pageOf p = pageOf phys
  · simp only [hp, true_and, habove]
    by_cases hfile : segOff + offsetOf p < x.1.pFilesz
    · rw [if_neg (by omega), if_pos hfile, if_pos (by omega), if_pos hfile, Nat.add_assoc]
    · by_cases hmem : segOff + offsetOf p < x.1.pMemsz
      · rw [if_pos ⟨by omega, hmem⟩, if_pos (by omega), if_neg hfile]
      · rw [if_neg (by omega), if_neg hfile, if_neg (by omega)]
  · simp only [hp, false_and, if_false]

end

/-! ## Addresses of the lower half -/

theorem offsetOf_or {p f : Nat} (hp : pageSize ∣ p) (hf : f < pageSize) : offsetOf (p ||| f) = f := by
  unfold offsetOf
  have hmod : (p ||| f) % pageSize = p % pageSize ||| f % pageSize :=
    Nat.or_mod_two_pow (n := 12)
  rw [hmod, Nat.mod_eq_zero_of_dvd hp, Nat.zero_or, Nat.mod_eq_of_lt hf]

theorem pml4Idx_of_low {v : Nat} (hv : v < 2 ^ 47) : pml4Idx v < halfEntries := by
  simp only [pml4Idx, halfEntries]
  omega

theorem pageNumber_eq_of_low {v a : Nat} (ha : pageSize ∣ a) (hlow : a < 2 ^ 47) (hv : v < 2 ^ 47) :
    pageNumber v = pageNumber a ↔ pageOf v = a := by
  obtain ⟨n, rfl⟩ := ha
  simp only [pageNumber, pageOf, pageSize] at *
  omega

theorem userByte_of_root {s : Vm} {root v : Nat} (hroot : root ≠ 0) :
    userByte s root v = if pageWalk s.mem root v = 0 then none else some (s.byte (pageWalk s.mem root v)) := by
  rw [userByte, vmmTranslate, if_neg hroot]

namespace Owned

variable {roles roles' : Nat → Option Role} {s s' : Vm} {reg r v w : Nat} {roots : Slot → Nat} {c : Slot}

theorem offsetOf_pageWalk (ho : Owned roles s reg roots) (hr : roles r = some (.top r)) (hv : pml4Idx v < halfEntries)
    (hw : pageWalk s.mem r v ≠ 0) : offsetOf (pageWalk s.mem r v) = offsetOf v := by
  obtain ⟨pt, hpt⟩ := ho.exists_table hr hv hw
  rw [pageWalk_of_walk hpt] at hw ⊢
  split at hw
  · rename_i hpr
    rw [if_pos hpr]
    exact offsetOf_or (dvd_pageOf _) (Nat.mod_lt _ (by decide))
  · exact absurd rfl hw

theorem pageOf_pageWalk (ho : Owned roles s reg roots) (hr : roles r = some (.top r)) (hv : pml4Idx v < halfEntries)
    (hw : pageWalk s.mem r v ≠ 0) (hvw : pageNumber w = pageNumber v) :
    pageWalk s.mem r w ≠ 0 ∧ pageOf (pageWalk s.mem r w) = pageOf (pageWalk s.mem r v) := by
  have hlow : pml4Idx w < halfEntries := by
    rw [pml4Idx_of_pageNumber hvw]
    exact hv
  have hw' : pageWalk s.mem r w ≠ 0 := fun hz => hw (ho.pageWalk_eq_zero hr hlow hvw.symm hz)
  refine ⟨hw', ?_⟩
  obtain ⟨hidx, hpath⟩ := List.cons.inj (pagePath_eq_iff.2 hvw)
  have hidx' : ptIdx w = ptIdx v := congrArg Fin.val hidx
  obtain ⟨pt, hpt⟩ := ho.exists_table hr hv hw
  rw [pageWalk_of_walk (hpath ▸ hpt), hidx'] at hw' ⊢
  rw [pageWalk_of_walk hpt]
  split at hw'
  · rename_i hpr
    rw [if_pos hpr, if_pos hpr, pageOf_or (dvd_pageOf _) (Nat.mod_lt _ (by decide)),
      pageOf_or (dvd_pageOf _) (Nat.mod_lt _ (by decide))]
  · exact absurd rfl hw'

theorem tableAt_of_mapped (ho : Owned roles s reg roots) (hr : roles r = some (.top r)) (hv : pml4Idx v < halfEntries)
    (hw : pageWalk s.mem r v ≠ 0) {q : List (Fin 512)} (hq : q ∈ tablePaths v) : tableAt s.mem r q ≠ none := by
  obtain ⟨pt, hpt⟩ := ho.exists_table hr hv hw
  intro hnone
  have hstop : tableAt s.mem r (ptPath v) = none := walk_none_of_suffix hnone (suffix_of_mem_tablePaths hq)
  rw [hpt] at hstop
  cases hstop

theorem missing_of_mapped (ho : Owned roles s reg roots) (hr : roles r = some (.top r)) (hv : pml4Idx v < halfEntries)
    (hw : pageWalk s.mem r v ≠ 0) : missing s.mem r v = 0 := by
  rw [← card_filter_tablePaths]
  exact Finset.card_eq_zero.2 (Finset.filter_eq_empty_iff.2 fun q hq => ho.tableAt_of_mapped hr hv hw hq)

end Owned

/-! ## One pass -/

/-- `s'` is `s` with the layers put on the memory of the process in slot `c`. -/
structure Laid (roles roles' : Nat → Option Role) (reg : Nat) (roots : Slot → Nat) (c : Slot) (s s' : Vm)
    (l : List (Layer Nat UInt8)) : Prop where
  grown : Grown reg roots roles roles' s s'
  bytes : ∀ v, v < 2 ^ 47 → userByte s' (roots c) v = lay 0 (userByte s (roots c)) l v

/-- The pages that a walk over the addresses `l` takes: one for each that is not mapped, and the missing tables. -/
def pagesNeeded (mem : PhysMem) (root : Nat) (l : List Nat) : Nat :=
  (l.toFinset.filter fun a => pageWalk mem root a = 0).card + tablesMissing mem root l

theorem Laid.nil {roles : Nat → Option Role} {s : Vm} {reg : Nat} {roots : Slot → Nat} (ho : Owned roles s reg roots)
    (c : Slot) : Laid roles roles reg roots c s s [] := ⟨.refl ho, fun _ _ => rfl⟩

theorem Laid.cons {roles roles₁ roles₂ : Nat → Option Role} {s s₁ s₂ : Vm} {reg : Nat} {roots : Slot → Nat} {c : Slot}
    {f : Layer Nat UInt8} {l : List (Layer Nat UInt8)} (h : Laid roles roles₁ reg roots c s s₁ [f])
    (h' : Laid roles₁ roles₂ reg roots c s₁ s₂ l) : Laid roles roles₂ reg roots c s s₂ (f :: l) where
  grown := h.grown.trans h'.grown
  bytes v hv := by
    rw [h'.bytes v hv, lay_cons]
    exact lay_congr (h.bytes v hv)

namespace Owned

variable {roles : Nat → Option Role} {s s' : Vm} {reg a : Nat} {roots : Slot → Nat} {c : Slot} {x : Elf64Phdr × Nat}
  {image : Nat → UInt8} {l : List Nat}

theorem grown_copySegment (image : Nat → UInt8) (ho : Owned roles s reg roots) (hc : roots c ≠ 0)
    (ha : pml4Idx x.2 < halfEntries) (hmapped : pageWalk s.mem (roots c) x.2 ≠ 0) :
    Grown reg roots roles roles s (Kernel.copySegment image x.1 x.2 (pageWalk s.mem (roots c) x.2) s) ∧
      ∀ t h p i, roles t = some (.node (roots c) (h + 1) p i) →
        (Kernel.copySegment image x.1 x.2 (pageWalk s.mem (roots c) x.2) s).mem t = s.mem t := by
  obtain ⟨p, i, hrole⟩ := ho.frame_role (ho.top c hc) ha hmapped
  have hframe : IsFrame (roles (pageOf (pageWalk s.mem (roots c) x.2))) := by
    rw [hrole]
    exact .node _ _ _
  refine ⟨ho.copySegment image x.1 x.2 hframe.not_table (ho.offHalf hframe (ho.not_free hrole)), fun t h q j ht => ?_⟩
  refine (copySegment_writes x.1 image s x.2 _).2 t fun heq => ?_
  rw [heq, hrole] at ht
  cases ht

theorem laid_copySegment (image : Nat → UInt8) (ho : Owned roles s reg roots) (hc : roots c ≠ 0) (hx : PassFits x)
    (hmapped : pageWalk s.mem (roots c) x.2 ≠ 0) :
    Laid roles roles reg roots c s (Kernel.copySegment image x.1 x.2 (pageWalk s.mem (roots c) x.2) s)
      [passLayer image x] := by
  have htop := ho.top c hc
  have ha := pml4Idx_of_low hx.low
  obtain ⟨hg, htables⟩ := ho.grown_copySegment image hc ha hmapped
  refine ⟨hg, fun v hv => ?_⟩
  have hlow := pml4Idx_of_low hv
  rw [userByte_of_root hc, ho.pageWalk_same htop hlow fun t h p i => htables t h p i, lay_cons, lay_nil]
  by_cases hpage : pageOf v = x.2
  · -- the page of the pass
    have hnum := (pageNumber_eq_of_low hx.page hx.low hv).mpr hpage
    obtain ⟨hw, hframe⟩ := ho.pageOf_pageWalk htop ha hmapped hnum
    have hsum : x.2 + offsetOf v = v := by
      rw [← hpage]
      exact Nat.div_add_mod' v pageSize
    rw [if_neg hw, byte_copySegment hx, hframe, ho.offsetOf_pageWalk htop hlow hw, hsum]
    by_cases htext : x.1.pVaddr ≤ x.2 ∧ v < x.1.pVaddr + x.1.extent
    · rw [if_pos ⟨rfl, htext⟩, on_of_text (by rw [passLayer, if_pos hpage, if_pos htext])]
    · rw [if_neg fun h => htext h.2, on_of_blank (by rw [passLayer, if_pos hpage, if_neg htext]), userByte_of_root hc,
        if_neg hw]
      rfl
  · rw [on_of_off (by rw [passLayer, if_neg hpage]), userByte_of_root hc]
    by_cases hw : pageWalk s.mem (roots c) v = 0
    · rw [if_pos hw, if_pos hw]
    · rw [if_neg hw, if_neg hw, byte_copySegment hx, if_neg fun h => hpage ?_]
      exact (pageNumber_eq_of_low hx.page hx.low hv).mp (ho.frame_unique hc hc hlow hw hmapped h.1).2

theorem userByte_mapped {roles' : Nat → Option Role} (ho : Owned roles s reg roots) (hc : roots c ≠ 0)
    (ha : pageSize ∣ a) (hlow : a < 2 ^ 47) (h : RangeMapped roles roles' reg roots c s s' [a]) {v : Nat}
    (hv : v < 2 ^ 47) : userByte s' (roots c) v = if pageOf v = a then some 0 else userByte s (roots c) v := by
  rw [userByte_of_root hc]
  by_cases hpage : pageOf v = a
  · obtain ⟨f, hfree, -, hzero, hwalk⟩ := h.fresh a List.mem_cons_self
    have hf0 : f ≠ 0 := fun h0 => ho.nullTaken (h0 ▸ hfree)
    rw [if_pos hpage, hwalk v ((pageNumber_eq_of_low ha hlow hv).mpr hpage), if_neg (frame_ne_zero hf0 v), Vm.byte,
      pageOf_frame hfree.dvd, hzero, byteOf, Nat.zero_div]
    rfl
  · have hnum : pageNumber v ≠ pageNumber a := fun he => hpage ((pageNumber_eq_of_low ha hlow hv).mp he)
    rw [if_neg hpage, userByte_of_root hc, h.others c hc v fun _ b hb => List.mem_singleton.mp hb ▸ hnum]
    by_cases hw : pageWalk s.mem (roots c) v = 0
    · rw [if_pos hw, if_pos hw]
    · obtain ⟨p, i, hrole⟩ := ho.frame_role (ho.top c hc) (pml4Idx_of_low hv) hw
      rw [if_neg hw, if_neg hw, Vm.byte, Vm.byte, h.tables.mem _ (ho.not_free hrole) fun d q j he => ?_]
      rw [hrole] at he
      cases he

end Owned

/-! ## The pages that are needed -/

theorem pagesNeeded_congr {mem mem' : PhysMem} {root : Nat} {l : List Nat}
    (hwalk : ∀ b ∈ l, pageWalk mem' root b = pageWalk mem root b)
    (htables : ∀ b ∈ l, ∀ q ∈ tablePaths b, tableAt mem' root q = tableAt mem root q) :
    pagesNeeded mem' root l = pagesNeeded mem root l := by
  unfold pagesNeeded tablesMissing
  congr 2
  · refine Finset.filter_congr fun b hb => ?_
    rw [hwalk b (List.mem_toFinset.mp hb)]
  · refine Finset.filter_congr fun q hq => ?_
    obtain ⟨b, hb, hqb⟩ := Finset.mem_biUnion.mp hq
    rw [htables b (List.mem_toFinset.mp hb) q hqb]

theorem loadPage_of_mapped {s : Vm} {root : Nat} {image : Nat → UInt8} {x : Elf64Phdr × Nat} (hroot : root ≠ 0)
    (hmapped : pageWalk s.mem root x.2 ≠ 0) :
    loadPage root image x.1 x.2 s = (true, copySegment image x.1 x.2 (pageWalk s.mem root x.2) s) := by
  have htranslate : vmmTranslate s.mem root x.2 = pageWalk s.mem root x.2 := if_neg hroot
  unfold loadPage
  rw [htranslate]
  dsimp only
  rw [if_neg hmapped]

theorem missing_lt_pagesNeeded {mem : PhysMem} {root a : Nat} {l : List Nat} (hz : pageWalk mem root a = 0) :
    missing mem root a < pagesNeeded mem root (a :: l) := by
  have hle : missing mem root a ≤ tablesMissing mem root (a :: l) := missing_le_tablesMissing List.mem_cons_self
  have hmem : a ∈ (a :: l).toFinset.filter fun a => pageWalk mem root a = 0 :=
    Finset.mem_filter.mpr ⟨List.mem_toFinset.mpr List.mem_cons_self, hz⟩
  have hpos := Finset.card_pos.mpr ⟨a, hmem⟩
  unfold pagesNeeded
  omega

namespace Owned

variable {roles roles' : Nat → Option Role} {s s' : Vm} {reg a : Nat} {roots : Slot → Nat} {c : Slot}
  {x : Elf64Phdr × Nat} {image : Nat → UInt8} {l : List Nat}

theorem pagesNeeded_mapped (ho : Owned roles s reg roots) (hc : roots c ≠ 0) (ha : pml4Idx a < halfEntries)
    (hmapped : pageWalk s.mem (roots c) a ≠ 0) :
    pagesNeeded s.mem (roots c) (a :: l) = pagesNeeded s.mem (roots c) l := by
  have htop := ho.top c hc
  have htables : tablesMissing s.mem (roots c) (a :: l) = missing s.mem (roots c) a + tablesMissing s.mem (roots c) l :=
    tablesMissing_cons fun _ _ q _ =>
      (and_iff_left_of_imp fun hnone hq => ho.tableAt_of_mapped htop ha hmapped hq hnone).symm
  unfold pagesNeeded
  rw [htables, ho.missing_of_mapped htop ha hmapped, Nat.zero_add, List.toFinset_cons, Finset.filter_insert,
    if_neg hmapped]

theorem pagesNeeded_eq_zero (ho : Owned roles s reg roots) (hc : roots c ≠ 0) (hl : ∀ b ∈ l, b < 2 ^ 47)
    (hmapped : ∀ b ∈ l, pageWalk s.mem (roots c) b ≠ 0) : pagesNeeded s.mem (roots c) l = 0 := by
  induction l with
  | nil => rfl
  | cons a l ih =>
    rw [ho.pagesNeeded_mapped hc (pml4Idx_of_low (hl a List.mem_cons_self)) (hmapped a List.mem_cons_self)]
    exact ih (fun b hb => hl b (List.mem_cons_of_mem a hb)) fun b hb => hmapped b (List.mem_cons_of_mem a hb)

theorem pagesNeeded_cons (hc : roots c ≠ 0) (hl : ∀ b ∈ a :: l, pageSize ∣ b ∧ b < 2 ^ 47)
    (hz : pageWalk s.mem (roots c) a = 0) (h : RangeMapped roles roles' reg roots c s s' [a])
    (hmapped : pageWalk s'.mem (roots c) a ≠ 0)
    (hpaths : ∀ b, pml4Idx b < halfEntries → ∀ q ∈ tablePaths b, (tableAt s'.mem (roots c) q = none ↔
      tableAt s.mem (roots c) q = none ∧ q ∉ tablePaths a)) :
    pagesNeeded s.mem (roots c) (a :: l) = 1 + missing s.mem (roots c) a + pagesNeeded s'.mem (roots c) l := by
  have hlow : ∀ b ∈ l, pml4Idx b < halfEntries := fun b hb => pml4Idx_of_low (hl b (List.mem_cons_of_mem a hb)).2
  have htables : tablesMissing s.mem (roots c) (a :: l) =
      missing s.mem (roots c) a + tablesMissing s'.mem (roots c) l := tablesMissing_cons fun b hb => hpaths b (hlow b hb)
  -- the other pages are mapped or not as before
  have hpages : (a :: l).toFinset.filter (fun b => pageWalk s.mem (roots c) b = 0) =
      insert a (l.toFinset.filter fun b => pageWalk s'.mem (roots c) b = 0) := by
    ext b
    simp only [List.toFinset_cons, Finset.mem_filter, Finset.mem_insert, List.mem_toFinset]
    by_cases hba : b = a
    · subst hba
      simp only [true_or, true_and, hz]
    · simp only [hba, false_or]
      refine and_congr_right fun hb => ?_
      obtain ⟨ha, halow⟩ := hl a List.mem_cons_self
      obtain ⟨hdvd, hblow⟩ := hl b (List.mem_cons_of_mem a hb)
      rw [h.others c hc b fun _ d hd he => hba ?_]
      rw [← pageOf_of_dvd hdvd]
      exact (pageNumber_eq_of_low ha halow hblow).mp (List.mem_singleton.mp hd ▸ he)
  have hcard := Finset.card_insert_of_notMem (s := l.toFinset.filter fun b => pageWalk s'.mem (roots c) b = 0)
    fun h => hmapped (Finset.mem_filter.mp h).2
  unfold pagesNeeded
  rw [hpages, hcard, htables]
  omega

theorem pagesNeeded_copySegment (ho : Owned roles s reg roots) (hc : roots c ≠ 0) (ha : pml4Idx x.2 < halfEntries)
    (hmapped : pageWalk s.mem (roots c) x.2 ≠ 0) (hl : ∀ b ∈ l, b < 2 ^ 47) :
    pagesNeeded (Kernel.copySegment image x.1 x.2 (pageWalk s.mem (roots c) x.2) s).mem (roots c) l =
      pagesNeeded s.mem (roots c) l := by
  obtain ⟨-, htables⟩ := ho.grown_copySegment image hc ha hmapped
  have htop := ho.top c hc
  refine pagesNeeded_congr (fun b hb => ho.pageWalk_same htop (pml4Idx_of_low (hl b hb)) fun t h p i => htables t h p i)
    fun b hb q hq => ?_
  exact ho.tableAt_congr htop (pml4Idx_of_low (hl b hb)) (fun t h p i => htables t h p i) (suffix_of_mem_tablePaths hq)

/-! ## The loops -/

theorem loadPage_laid (image : Nat → UInt8) (ho : Owned roles s reg roots) (hreg : ¬ s.pmm.Free reg)
    (hc : roots c ≠ 0) (hx : PassFits x) (hl : ∀ b ∈ l, pageSize ∣ b ∧ b < 2 ^ 47)
    (hroom : pagesNeeded s.mem (roots c) (x.2 :: l) ≤ s.pmm.freeCount) :
    ∃ roles' s', Kernel.loadPage (roots c) image x.1 x.2 s = (true, s') ∧
      Laid roles roles' reg roots c s s' [passLayer image x] ∧ pagesNeeded s'.mem (roots c) l ≤ s'.pmm.freeCount := by
  have ha := pml4Idx_of_low hx.low
  have hlow : ∀ b ∈ l, b < 2 ^ 47 := fun b hb => (hl b hb).2
  by_cases hmapped : pageWalk s.mem (roots c) x.2 = 0
  · have hmissing := missing_lt_pagesNeeded (l := l) hmapped
    obtain ⟨hpage, roles₁, s₁, hrun, hone, hpaths, hframe⟩ := ho.mapOne hreg hc ha (by omega) (pml4Rw ||| pml4User)
    have hphys : pageWalk s₁.mem (roots c) x.2 = s.pmm.pmmAllocPage.1 := by
      rw [hframe x.2 rfl, Nat.mod_eq_zero_of_dvd hx.page, Nat.or_zero]
    have hmapped₁ : pageWalk s₁.mem (roots c) x.2 ≠ 0 := by rwa [hphys]
    have hall : ∀ b ∈ x.2 :: l, pageSize ∣ b ∧ b < 2 ^ 47 := by
      rintro b (_ | ⟨_, hb⟩)
      · exact ⟨hx.page, hx.low⟩
      · exact hl b hb
    have hneeded := pagesNeeded_cons hc hall hmapped hone hmapped₁ hpaths
    have hspent := hone.spent
    rw [tablesMissing_singleton, List.length_singleton] at hspent
    have ho₁ := hone.grown.owned
    have hlaid := ho₁.laid_copySegment image hc hx hmapped₁
    refine ⟨roles₁, _, ?_, ⟨hone.grown.trans hlaid.grown, fun v hv => ?_⟩, ?_⟩
    · have htranslate : vmmTranslate s.mem (roots c) x.2 = 0 := (if_neg hc).trans hmapped
      unfold Kernel.loadPage
      rw [htranslate]
      dsimp only
      rw [if_pos rfl, Vm.allocPage_fst, if_neg hpage, hrun, hphys]
    · -- a fresh page is as good as none
      rw [hlaid.bytes v hv, lay_cons, lay_cons, lay_nil, lay_nil, Layer.on, Layer.on,
        ho.userByte_mapped hc hx.page hx.low hone hv]
      by_cases hpage : pageOf v = x.2
      · have hnone : userByte s (roots c) v = none := by
          have hnum := (pageNumber_eq_of_low hx.page hx.low hv).mpr hpage
          rw [userByte_of_root hc, if_pos (ho.pageWalk_eq_zero (ho.top c hc) ha hnum hmapped)]
        rw [if_pos hpage, hnone, passLayer, if_pos hpage]
        rfl
      · rw [if_neg hpage]
    · rw [ho₁.pagesNeeded_copySegment hc ha hmapped₁ hlow, (copySegment_writes _ _ _ _ _).1]
      omega
  · refine ⟨roles, _, loadPage_of_mapped hc hmapped, ho.laid_copySegment image hc hx hmapped, ?_⟩
    rw [ho.pagesNeeded_copySegment hc ha hmapped hlow, (copySegment_writes _ _ _ _ _).1]
    rwa [ho.pagesNeeded_mapped hc ha hmapped] at hroom

theorem loadPages_laid {l : List (Elf64Phdr × Nat)} (ho : Owned roles s reg roots) (hreg : ¬ s.pmm.Free reg)
    (hc : roots c ≠ 0) (hl : ∀ x ∈ l, PassFits x)
    (hroom : pagesNeeded s.mem (roots c) (l.map Prod.snd) ≤ s.pmm.freeCount) :
    ∃ roles' s', Kernel.loadPages (roots c) image l s = (true, s') ∧
      Laid roles roles' reg roots c s s' (l.map (passLayer image)) := by
  induction l generalizing s roles with
  | nil => exact ⟨roles, s, rfl, .nil ho c⟩
  | cons x l ih =>
    have hl' : ∀ y ∈ l, PassFits y := fun y hy => hl y (List.mem_cons_of_mem x hy)
    obtain ⟨roles₁, s₁, hrun, hlaid, hroom₁⟩ := ho.loadPage_laid image hreg hc (hl x List.mem_cons_self)
      (fun b hb => by
        obtain ⟨y, hy, rfl⟩ := List.mem_map.mp hb
        exact ⟨(hl' y hy).page, (hl' y hy).low⟩) hroom
    obtain ⟨roles₂, s₂, hrest, hlaid₂⟩ := ih hlaid.grown.owned (hlaid.grown.not_free hreg) hl' hroom₁
    refine ⟨roles₂, s₂, ?_, hlaid.cons hlaid₂⟩
    rw [Kernel.loadPages, hrun]
    exact hrest

theorem loadPages_none {l : List (Elf64Phdr × Nat)} (ho : Owned roles s reg roots) (hc : roots c ≠ 0)
    (hnone : s.pmm.freeCount = 0) (hl : ∀ x ∈ l, PassFits x) :
    (∀ v, pageWalk (Kernel.loadPages (roots c) image l s).2.mem (roots c) v = pageWalk s.mem (roots c) v) ∧
      ((Kernel.loadPages (roots c) image l s).1 = true → ∀ x ∈ l, pageWalk s.mem (roots c) x.2 ≠ 0) := by
  induction l generalizing s with
  | nil => exact ⟨fun _ => rfl, fun _ x hx => absurd hx List.not_mem_nil⟩
  | cons x l ih =>
    by_cases hmapped : pageWalk s.mem (roots c) x.2 = 0
    · have hnull : s.pmm.pmmAllocPage.1 = 0 := by
        rcases s.pmm.pmmAllocPage_freeCount ho.nullTaken with ⟨hz, -⟩ | ⟨-, hcount, -⟩
        · rw [hz]
        · omega
      have hfail : Kernel.loadPage (roots c) image x.1 x.2 s = (false, s.allocPage.2) := by
        have htranslate : vmmTranslate s.mem (roots c) x.2 = 0 := (if_neg hc).trans hmapped
        unfold Kernel.loadPage
        rw [htranslate]
        dsimp only
        rw [if_pos rfl, Vm.allocPage_fst, if_pos hnull]
      rw [Kernel.loadPages, hfail]
      exact ⟨fun _ => rfl, fun h => absurd h Bool.false_ne_true⟩
    · have ha := pml4Idx_of_low (hl x List.mem_cons_self).low
      obtain ⟨hg, htables⟩ := ho.grown_copySegment image hc ha hmapped
      have hwalk : ∀ v, pageWalk (Kernel.copySegment image x.1 x.2 (pageWalk s.mem (roots c) x.2) s).mem (roots c) v =
          pageWalk s.mem (roots c) v := fun v => by
        rcases Nat.lt_or_ge (pml4Idx v) halfEntries with hv | hv
        · exact ho.pageWalk_same (ho.top c hc) hv fun t h p i => htables t h p i
        · exact hg.half.pageWalk (Or.inr ⟨c, hc, rfl⟩) hv
      have hpmm := (copySegment_writes x.1 image s x.2 (pageWalk s.mem (roots c) x.2)).1
      obtain ⟨hsame, hall⟩ := ih hg.owned ((congrArg Pmm.freeCount hpmm).trans hnone)
        fun y hy => hl y (List.mem_cons_of_mem x hy)
      rw [Kernel.loadPages, loadPage_of_mapped hc hmapped]
      refine ⟨fun v => (hsame v).trans (hwalk v), fun htrue y hy => ?_⟩
      rcases List.mem_cons.mp hy with rfl | hy
      · exact hmapped
      · rw [← hwalk y.2]
        exact hall htrue y hy

end Owned

end Chicago95.Kernel
