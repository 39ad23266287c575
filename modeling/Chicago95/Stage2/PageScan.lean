/-
# Chicago95.Stage2.PageScan — the scanners of `stage2/memory/pmm.c` on the bytes of the bitmap.

`Pmm` has a bit for each page. Here the bitmap is the bytes that the code reads, eight of them put together to a word of
64 pages, and the scanners have the code's integers. Run by run they answer as those of `Pmm` do
(`findFreePages_refines`, `findFreePagesDma_refines`), and so with the first pages that fit (`firstFit`).
-/
import Chicago95.Stage2.Pmm
import Mathlib.Data.UInt
import Mathlib.Tactic.IntervalCases

namespace Chicago95.Stage2.PageScan

open Chicago95.Lib.Bitmap Chicago95.Lib.Loop

/-! ## The code -/

/-- `pmm_bitmap`: its bytes, of which there are `PMM_BITMAP_SIZE`. -/
abbrev PmmBitmap := Nat → UInt8

def pmmBitmapSize : UInt64 := (1024 * 1024 * 16 + 7) / 8

def pmmBitmapTest (bm : PmmBitmap) (page : Nat) : Bool :=
  (bm (page >>> 3) >>> UInt8.ofNat (page &&& 7)) &&& 1 != 0

/-- Byte `b` of a word put in its place. -/
def putByte (bm : PmmBitmap) (byteOffset : UInt64) (b : Nat) (word : UInt64) : UInt64 :=
  word ||| (bm (byteOffset + UInt64.ofNat b).toNat).toUInt64 <<< UInt64.ofNat (b * 8)

/-- The pages of byte `b` taken for used. -/
def padByte (b : Nat) (word : UInt64) : UInt64 := word ||| 0xFF <<< UInt64.ofNat (b * 8)

/-- `word` of `pmm_find_free_pages` -/
def loadWord (bm : PmmBitmap) (wordIdx : UInt64) : UInt64 :=
  let byteOffset := wordIdx * 8
  if byteOffset < pmmBitmapSize then
    let bytesLeft := pmmBitmapSize - byteOffset
    if 8 ≤ bytesLeft then forEach 8 (putByte bm byteOffset) 0
    else
      forEach 8 (fun b word => if UInt64.ofNat b < bytesLeft then putByte bm byteOffset b word else padByte b word) 0
  else ~~~0

/-- `word` of `pmm_find_free_pages_dma` -/
def loadWordDma (bm : PmmBitmap) (wordIdx : UInt64) : UInt64 :=
  let byteOffset := wordIdx * 8
  if byteOffset < pmmBitmapSize then
    let bytesLeft := pmmBitmapSize - byteOffset
    let bytesToRead : UInt32 := if 8 ≤ bytesLeft then 8 else bytesLeft.toUInt32
    let word := forEach bytesToRead.toNat (putByte bm byteOffset) 0
    forEach (8 - bytesToRead.toNat) (fun i => padByte (bytesToRead.toNat + i)) word
  else 0

/-- The loop over the bits of a word from `bit` on, `left` of them to go: the page to return, or `run_start` and
`run_len` at the end. -/
def scanWord (word wordIdx total : UInt64) (count : UInt32) : Nat → Nat → UInt64 → UInt32 → UInt64 ⊕ (UInt64 × UInt32)
  | 0, _, runStart, runLen => .inr (runStart, runLen)
  | left + 1, bit, runStart, runLen =>
    let pageIdx := wordIdx * 64 + UInt64.ofNat bit
    if total ≤ pageIdx then .inl (if count ≤ runLen then runStart else 0)
    else if word &&& (1 <<< UInt64.ofNat bit) ≠ 0 then scanWord word wordIdx total count left (bit + 1) runStart 0
    else
      let runStart := if runLen = 0 then pageIdx else runStart
      let runLen := runLen + 1
      if runLen = count then .inl runStart else scanWord word wordIdx total count left (bit + 1) runStart runLen

/-- The loop over the words, `left` of them to go. -/
def scanFrom (load : UInt64 → UInt64) (total : UInt64) (count : UInt32) : Nat → UInt64 → UInt64 → UInt32 → UInt64
  | 0, _, _, _ => 0
  | left + 1, wordIdx, runStart, runLen =>
    if load wordIdx = ~~~0 then scanFrom load total count left (wordIdx + 1) runStart 0
    else
      match scanWord (load wordIdx) wordIdx total count 64 0 runStart runLen with
      | .inl page => page
      | .inr (runStart, runLen) => scanFrom load total count left (wordIdx + 1) runStart runLen

/-- What both scanners do, with the words they load and the page they end at. -/
def scanPages (load : UInt64 → UInt64) (total : UInt64) (count : UInt32) : UInt64 :=
  if count = 0 then 0 else scanFrom load total count ((total + 63) / 64).toNat 0 0 0

/-- `pmm_find_free_pages`, with `pmm_total_pages`. -/
def findFreePages (bm : PmmBitmap) (totalPages : UInt64) (count : UInt32) : UInt64 :=
  scanPages (loadWord bm) totalPages count

def dmaLimit (totalPages : UInt64) : UInt64 :=
  let limit : UInt64 := 16 * 1024 * 1024 / 4096
  if totalPages < limit then totalPages else limit

/-- `pmm_find_free_pages_dma` -/
def findFreePagesDma (bm : PmmBitmap) (totalPages : UInt64) (count : UInt32) : UInt64 :=
  scanPages (loadWordDma bm) (dmaLimit totalPages) count

/-! ## Words -/

/-- Bit `i` of a word. -/
def wordBit (word : UInt64) (i : Nat) : Bool := word.toBitVec.getLsbD i

theorem wordBit_shift (x : UInt64) {b : Nat} (hb : b < 8) {i : Nat} (hi : i < 64) :
    wordBit (x <<< UInt64.ofNat (b * 8)) i = (decide (8 * b ≤ i) && wordBit x (i - 8 * b)) := by
  have hshift : ((UInt64.ofNat (b * 8)).toBitVec % 64).toNat = 8 * b := by
    interval_cases b <;> rfl
  unfold wordBit
  rw [UInt64.toBitVec_shiftLeft, BitVec.shiftLeft_eq', BitVec.getLsbD_shiftLeft, hshift, decide_eq_true hi,
    Bool.true_and, ← decide_not, decide_eq_decide.mpr Nat.not_lt]

theorem wordBit_byte (v : UInt8) {b : Nat} (hb : b < 8) {i : Nat} (hi : i < 64) :
    wordBit (v.toUInt64 <<< UInt64.ofNat (b * 8)) i = (decide (i / 8 = b) && v.toBitVec.getLsbD (i % 8)) := by
  rw [wordBit_shift _ hb hi]
  unfold wordBit
  rw [UInt8.toBitVec_toUInt64, BitVec.getLsbD_setWidth]
  by_cases hle : 8 * b ≤ i
  · by_cases hin : i / 8 = b
    · rw [show i - 8 * b = i % 8 by omega, decide_eq_true hle, decide_eq_true hin,
        decide_eq_true (show i % 8 < 64 by omega)]
      rfl
    · rw [decide_eq_false hin, BitVec.getLsbD_of_ge _ (i - 8 * b) (by omega), Bool.and_false, Bool.and_false,
        Bool.false_and]
  · rw [decide_eq_false hle, decide_eq_false (show ¬ i / 8 = b by omega)]
    rfl

theorem wordBit_bytes (bm : PmmBitmap) (byteOffset : UInt64) {n : Nat} (hn : n ≤ 8) {i : Nat} (hi : i < 8 * n) :
    wordBit (forEach n (putByte bm byteOffset) 0) i =
      (bm (byteOffset + UInt64.ofNat (i / 8)).toNat).toBitVec.getLsbD (i % 8) := by
  have hall : ∀ j < 64, wordBit (forEach n (putByte bm byteOffset) 0) j = (decide (j / 8 < n) &&
      (bm (byteOffset + UInt64.ofNat (j / 8)).toNat).toBitVec.getLsbD (j % 8)) := by
    refine forEach_induction (P := fun n word => ∀ j < 64, wordBit word j = (decide (j / 8 < n) &&
      (bm (byteOffset + UInt64.ofNat (j / 8)).toNat).toBitVec.getLsbD (j % 8))) ?_ ?_
    · intro j _
      rw [decide_eq_false (Nat.not_lt_zero _), Bool.false_and]
      exact BitVec.getLsbD_zero
    · intro b word hb hword j hj
      have hor : wordBit (putByte bm byteOffset b word) j = (wordBit word j ||
          wordBit ((bm (byteOffset + UInt64.ofNat b).toNat).toUInt64 <<< UInt64.ofNat (b * 8)) j) :=
        BitVec.getLsbD_or
      rw [hor, hword j hj, wordBit_byte _ (by omega) hj]
      by_cases heq : j / 8 = b
      · subst heq
        rw [decide_eq_false (Nat.lt_irrefl _), decide_eq_true (Nat.lt_succ_self _), decide_eq_true rfl, Bool.false_and,
          Bool.false_or]
      · rw [decide_eq_false heq, decide_eq_decide.mpr (show j / 8 < b ↔ j / 8 < b + 1 by omega), Bool.false_and,
          Bool.or_false]
  rw [hall i (by omega), decide_eq_true (show i / 8 < n by omega), Bool.true_and]

theorem pmmBitmapTest_eq (bm : PmmBitmap) (page : Nat) :
    pmmBitmapTest bm page = (bm (page / 8)).toBitVec.getLsbD (page % 8) := by
  have hbyte : page >>> 3 = page / 8 := Nat.shiftRight_eq_div_pow page 3
  have hbit : page &&& 7 = page % 8 := Nat.and_two_pow_sub_one_eq_mod page 3
  have hmod : (UInt8.ofNat (page % 8)).toNat % 8 = page % 8 := by
    rw [UInt8.toNat_ofNat_of_lt' (show page % 8 < 256 by omega), Nat.mod_mod]
  unfold pmmBitmapTest
  rw [hbyte, hbit]
  show _ = (bm (page / 8)).toNat.testBit (page % 8)
  rw [Nat.testBit, Bool.eq_iff_iff, bne_iff_ne, bne_iff_ne, ne_eq, ← UInt8.toNat_inj, UInt8.toNat_and,
    UInt8.toNat_shiftRight, hmod, Nat.and_comm]
  rfl

theorem and_bit_ne_zero (word : UInt64) {bit : Nat} (h : bit < 64) :
    word &&& (1 <<< UInt64.ofNat bit) ≠ 0 ↔ wordBit word bit = true := by
  have hshift : ((UInt64.ofNat bit).toBitVec % 64).toNat = bit := by
    interval_cases bit <;> rfl
  have hmask : (1 <<< UInt64.ofNat bit : UInt64).toBitVec = BitVec.twoPow 64 bit := by
    rw [UInt64.toBitVec_shiftLeft, BitVec.shiftLeft_eq', hshift, BitVec.twoPow_eq]
    rfl
  rw [ne_eq, ← UInt64.toBitVec_inj, UInt64.toBitVec_and, hmask, BitVec.and_twoPow]
  unfold wordBit
  split
  · rename_i hbit
    refine iff_of_true (fun hzero => ?_) hbit
    have hget := congrArg (BitVec.getLsbD · bit) hzero
    simp [h] at hget
  · rename_i hbit
    exact iff_of_false (not_not.mpr rfl) hbit

theorem eq_allOnes_iff (word : UInt64) : word = ~~~0 ↔ ∀ i < 64, wordBit word i = true := by
  have hones : (~~~0 : UInt64).toBitVec = BitVec.allOnes 64 := by decide
  rw [← UInt64.toBitVec_inj, hones]
  unfold wordBit
  constructor
  · intro hword i hi
    rw [hword, BitVec.getLsbD_allOnes, decide_eq_true hi]
  · intro hall
    refine BitVec.eq_of_getLsbD_eq fun i hi => ?_
    rw [hall i hi, BitVec.getLsbD_allOnes, decide_eq_true hi]

theorem byteOffset_lt {wordIdx : UInt64} (hword : wordIdx.toNat * 64 < pmmMaxPages) :
    (wordIdx * 8).toNat = wordIdx.toNat * 8 ∧ wordIdx * 8 < pmmBitmapSize ∧ 8 ≤ pmmBitmapSize - wordIdx * 8 := by
  have hmax : pmmMaxPages = 16777216 := rfl
  have hsize : pmmBitmapSize.toNat = 2097152 := rfl
  have hmul : (wordIdx * 8).toNat = wordIdx.toNat * 8 := by
    rw [UInt64.toNat_mul]
    exact Nat.mod_eq_of_lt (show wordIdx.toNat * 8 < 2 ^ 64 by omega)
  have hlt : wordIdx * 8 < pmmBitmapSize := by
    rw [UInt64.lt_iff_toNat_lt]
    omega
  refine ⟨hmul, hlt, ?_⟩
  rw [UInt64.le_iff_toNat_le, UInt64.toNat_sub_of_le _ _ (UInt64.le_of_lt hlt)]
  show 8 ≤ _
  omega

theorem loadWord_eq (bm : PmmBitmap) {wordIdx : UInt64} (hword : wordIdx.toNat * 64 < pmmMaxPages) :
    loadWord bm wordIdx = forEach 8 (putByte bm (wordIdx * 8)) 0 := by
  obtain ⟨-, hlt, hleft⟩ := byteOffset_lt hword
  unfold loadWord
  dsimp only
  rw [if_pos hlt, if_pos hleft]

theorem loadWordDma_eq (bm : PmmBitmap) {wordIdx : UInt64} (hword : wordIdx.toNat * 64 < pmmMaxPages) :
    loadWordDma bm wordIdx = forEach 8 (putByte bm (wordIdx * 8)) 0 := by
  obtain ⟨-, hlt, hleft⟩ := byteOffset_lt hword
  unfold loadWordDma
  dsimp only
  rw [if_pos hlt, if_pos hleft]
  rfl

theorem bits_of_word (bm : PmmBitmap) {wordIdx : UInt64} (hword : wordIdx.toNat * 64 < pmmMaxPages) {i : Nat}
    (hi : i < 64) : wordBit (forEach 8 (putByte bm (wordIdx * 8)) 0) i = pmmBitmapTest bm (wordIdx.toNat * 64 + i) := by
  have hmax : pmmMaxPages = 16777216 := rfl
  obtain ⟨hoffset, -, -⟩ := byteOffset_lt hword
  have hbyte : (wordIdx * 8 + UInt64.ofNat (i / 8)).toNat = (wordIdx.toNat * 64 + i) / 8 := by
    rw [UInt64.toNat_add, hoffset, UInt64.toNat_ofNat_of_lt' (show i / 8 < 2 ^ 64 by omega)]
    omega
  rw [wordBit_bytes bm _ (Nat.le_refl 8) (by omega), hbyte, pmmBitmapTest_eq,
    show (wordIdx.toNat * 64 + i) % 8 = i % 8 by omega]

/-! ## The scan -/

section

variable {used : Nat → Bool} {total : UInt64} {count : UInt32}

theorem scanWord_refines {word wordIdx : UInt64} (hsmall : wordIdx.toNat * 64 < pmmMaxPages)
    (hword : ∀ i < 64, wordBit word i = used (wordIdx.toNat * 64 + i)) :
    ∀ (left bit : Nat) (runStart : UInt64) (runLen : UInt32), bit + left = 64 → runLen < count →
      Sum.map UInt64.toNat (Prod.map UInt64.toNat UInt32.toNat)
          (scanWord word wordIdx total count left bit runStart runLen) =
        Pmm.scanBits used total.toNat count.toNat left (wordIdx.toNat * 64 + bit) runStart.toNat runLen.toNat := by
  have hmax : pmmMaxPages = 16777216 := rfl
  intro left
  induction left with
  | zero => intro bit runStart runLen _ _; rfl
  | succ left ih =>
    intro bit runStart runLen hbit hlen
    have hpage : (wordIdx * 64 + UInt64.ofNat bit).toNat = wordIdx.toNat * 64 + bit := by
      rw [UInt64.toNat_add, UInt64.toNat_mul, UInt64.toNat_ofNat_of_lt' (show bit < 2 ^ 64 by omega)]
      show (wordIdx.toNat * 64 % 2 ^ 64 + bit) % 2 ^ 64 = _
      omega
    have hend : total ≤ wordIdx * 64 + UInt64.ofNat bit ↔ total.toNat ≤ wordIdx.toNat * 64 + bit := by
      rw [UInt64.le_iff_toNat_le, hpage]
    have hfull : ¬ count ≤ runLen := UInt32.not_le.mpr hlen
    rw [UInt32.lt_iff_toNat_lt] at hlen
    unfold scanWord Pmm.scanBits
    dsimp only
    by_cases hlimit : total.toNat ≤ wordIdx.toNat * 64 + bit
    · rw [if_pos (hend.mpr hlimit), if_pos hlimit, if_neg hfull, if_neg (Nat.not_le_of_lt hlen)]
      rfl
    rw [if_neg (mt hend.mp hlimit), if_neg hlimit]
    simp only [and_bit_ne_zero word (show bit < 64 by omega), hword bit (by omega)]
    have hcount := count.toNat_lt
    by_cases hused : used (wordIdx.toNat * 64 + bit) = true
    · rw [if_pos hused, if_pos hused]
      exact ih (bit + 1) runStart 0 (by omega) (by rw [UInt32.lt_iff_toNat_lt]; show 0 < _; omega)
    rw [if_neg hused, if_neg hused]
    have hnext : (runLen + 1).toNat = runLen.toNat + 1 := by
      rw [UInt32.toNat_add]
      exact Nat.mod_eq_of_lt (show runLen.toNat + 1 < 2 ^ 32 by omega)
    have hdone : runLen + 1 = count ↔ runLen.toNat + 1 = count.toNat := by
      rw [← UInt32.toNat_inj, hnext]
    have hempty : runLen = 0 ↔ runLen.toNat = 0 := by
      rw [← UInt32.toNat_inj]
      rfl
    have hstart : (if runLen = 0 then wordIdx * 64 + UInt64.ofNat bit else runStart).toNat =
        if runLen.toNat = 0 then wordIdx.toNat * 64 + bit else runStart.toNat := by
      rw [apply_ite UInt64.toNat, hpage]
      simp only [hempty]
    by_cases hfound : runLen.toNat + 1 = count.toNat
    · rw [if_pos (hdone.mpr hfound), if_pos hfound, ← hstart]
      rfl
    · rw [if_neg (mt hdone.mp hfound), if_neg hfound, ← hstart, ← hnext]
      exact ih (bit + 1) _ (runLen + 1) (by omega) (by rw [UInt32.lt_iff_toNat_lt]; omega)

variable {load : UInt64 → UInt64}

theorem scanFrom_refines (htotal : total.toNat ≤ pmmMaxPages)
    (hload : ∀ w : UInt64, w.toNat * 64 < pmmMaxPages → ∀ i < 64, wordBit (load w) i = used (w.toNat * 64 + i)) :
    ∀ (left : Nat) (wordIdx runStart : UInt64) (runLen : UInt32), runLen < count →
      (wordIdx.toNat + left) * 64 < total.toNat + 64 → (scanFrom load total count left wordIdx runStart runLen).toNat =
        Pmm.scanWords used total.toNat count.toNat left wordIdx.toNat runStart.toNat runLen.toNat := by
  have hmax : pmmMaxPages = 16777216 := rfl
  intro left
  induction left with
  | zero => intro wordIdx runStart runLen _ _; rfl
  | succ left ih =>
    intro wordIdx runStart runLen hlen hleft
    have hsmall : wordIdx.toNat * 64 < pmmMaxPages := by omega
    have hnext : (wordIdx + 1).toNat = wordIdx.toNat + 1 := by
      rw [UInt64.toNat_add]
      exact Nat.mod_eq_of_lt (show wordIdx.toNat + 1 < 2 ^ 64 by omega)
    have hall : load wordIdx = ~~~0 ↔
        ((List.range 64).all fun bit => used (wordIdx.toNat * 64 + bit)) = true := by
      rw [eq_allOnes_iff, List.all_eq_true]
      refine forall_congr' fun i => ?_
      rw [List.mem_range]
      exact imp_congr_right fun hi => by rw [hload wordIdx hsmall i hi]
    have hlenNat := UInt32.lt_iff_toNat_lt.mp hlen
    unfold scanFrom Pmm.scanWords
    by_cases hused : load wordIdx = ~~~0
    · rw [if_pos hused, if_pos (hall.mp hused), ← hnext]
      exact ih _ _ 0 (by rw [UInt32.lt_iff_toNat_lt]; show 0 < _; omega) (by rw [hnext]; omega)
    rw [if_neg hused, if_neg (mt hall.mpr hused)]
    have hword : Sum.map UInt64.toNat (Prod.map UInt64.toNat UInt32.toNat)
        (scanWord (load wordIdx) wordIdx total count 64 0 runStart runLen) = _ :=
      scanWord_refines hsmall (hload wordIdx hsmall) 64 0 runStart runLen rfl hlen
    have hbits := @Pmm.scanBits_eq used total.toNat count.toNat 64 (wordIdx.toNat * 64) runStart.toNat runLen.toNat
      hlenNat
    rw [Nat.add_zero] at hword
    rw [← hword] at hbits ⊢
    cases hscan : scanWord (load wordIdx) wordIdx total count 64 0 runStart runLen with
    | inl page => rfl
    | inr run =>
      rw [hscan] at hbits
      dsimp only [Sum.map_inr, Prod.map]
      rw [← hnext]
      exact ih _ run.1 run.2 (UInt32.lt_iff_toNat_lt.mpr hbits.1) (by rw [hnext]; omega)

theorem scanPages_refines (htotal : total.toNat ≤ pmmMaxPages)
    (hload : ∀ w : UInt64, w.toNat * 64 < pmmMaxPages → ∀ i < 64, wordBit (load w) i = used (w.toNat * 64 + i)) :
    (scanPages load total count).toNat = Pmm.findRun used total.toNat count.toNat := by
  have hmax : pmmMaxPages = 16777216 := rfl
  unfold scanPages Pmm.findRun
  by_cases hcount : count = 0
  · rw [if_pos hcount, if_pos (by rw [hcount]; rfl)]
    rfl
  have hpos : count.toNat ≠ 0 := fun h => hcount (UInt32.toNat_inj.mp h)
  have hwords : ((total + 63) / 64).toNat = (total.toNat + 63) / 64 := by
    rw [UInt64.toNat_div, UInt64.toNat_add]
    show (total.toNat + 63) % 2 ^ 64 / 64 = _
    omega
  rw [if_neg hcount, if_neg hpos, hwords]
  refine scanFrom_refines htotal hload _ 0 0 0 ?_ ?_
  · rw [UInt32.lt_iff_toNat_lt]
    exact Nat.pos_of_ne_zero hpos
  · show (0 + (total.toNat + 63) / 64) * 64 < _
    omega

end

/-! ## The scanners -/

section

variable {bm : PmmBitmap} {totalPages : UInt64} {count : UInt32}

theorem toNat_dmaLimit (totalPages : UInt64) :
    (dmaLimit totalPages).toNat = min (pmmDmaLimit / pageSize) totalPages.toNat := by
  have hlimit : pmmDmaLimit / pageSize = 4096 := rfl
  have hlt : totalPages < 16 * 1024 * 1024 / 4096 ↔ totalPages.toNat < 4096 := UInt64.lt_iff_toNat_lt
  unfold dmaLimit
  dsimp only
  rw [hlimit]
  split
  · rename_i h
    rw [hlt] at h
    omega
  · rename_i h
    rw [hlt] at h
    show 4096 = _
    omega

theorem findFreePages_refines {p : Pmm} (hbits : p.bitmap = pmmBitmapTest bm) (hpages : p.totalPages = totalPages.toNat)
    (hmax : totalPages.toNat ≤ pmmMaxPages) (count : UInt32) :
    (findFreePages bm totalPages count).toNat = p.pmmFindFreePages count.toNat := by
  unfold Pmm.pmmFindFreePages
  rw [hpages, hbits]
  refine scanPages_refines hmax fun w hw i hi => ?_
  have hin : w.toNat * 64 + i < pmmMaxPages := by
    have hmax : pmmMaxPages = 16777216 := rfl
    omega
  rw [if_pos hin, loadWord_eq bm hw, bits_of_word bm hw hi]

theorem findFreePagesDma_refines {p : Pmm} (hbits : p.bitmap = pmmBitmapTest bm)
    (hpages : p.totalPages = totalPages.toNat) (count : UInt32) :
    (findFreePagesDma bm totalPages count).toNat = p.pmmFindFreePagesDma count.toNat := by
  have hlimit := toNat_dmaLimit totalPages
  unfold Pmm.pmmFindFreePagesDma Pmm.dmaLimit
  rw [hpages, hbits, ← hlimit]
  have hmax : pmmMaxPages = 16777216 := rfl
  have hdma : pmmDmaLimit / pageSize = 4096 := rfl
  refine scanPages_refines (by omega) fun w hw i hi => ?_
  rw [if_pos (by omega), loadWordDma_eq bm hw, bits_of_word bm hw hi]

/-- **First fit**: the answer is the first of the lowest `count` pages in a row that are free and below `limit`; it is
0 when there are none. -/
structure FirstFit (bm : PmmBitmap) (limit count page : Nat) : Prop where
  lowest : page ≠ 0 → LowestRun (pmmBitmapTest bm) limit count page
  none : page = 0 → ∀ s, ¬ ClearRun (pmmBitmapTest bm) limit count s

theorem firstFit_of_findRun {used : Nat → Bool} {limit count : Nat} (hzero : pmmBitmapTest bm 0 = true)
    (hused : ∀ i, i < limit → used i = pmmBitmapTest bm i) (hcount : 0 < count) :
    FirstFit bm limit count (Pmm.findRun used limit count) := by
  rcases @Pmm.findRun_cases used limit count hcount with ⟨s, hs, hfound⟩ | ⟨hnone, hfound⟩
  · rw [hfound]
    have hlowest := (lowestRun_congr hused s).mp hs
    refine ⟨fun _ => hlowest, ?_⟩
    rintro rfl
    -- page 0 is in no run of free pages
    have hfree := hlowest.1.2 0 (Nat.le_refl 0) (by omega)
    rw [hzero] at hfree
    cases hfree
  · rw [hfound]
    exact ⟨fun h => absurd rfl h, fun _ s hs => hnone s ((clearRun_congr hused s).mpr hs)⟩

/-- **Both scanners are first fit**, the one over all pages, the other over those below 16 MB. -/
theorem firstFit (hzero : pmmBitmapTest bm 0 = true) (hmax : totalPages.toNat ≤ pmmMaxPages) (hcount : 0 < count) :
    FirstFit bm totalPages.toNat count.toNat (findFreePages bm totalPages count).toNat ∧
      FirstFit bm (min (pmmDmaLimit / pageSize) totalPages.toNat) count.toNat
        (findFreePagesDma bm totalPages count).toNat := by
  let p : Pmm := { bitmap := pmmBitmapTest bm, totalPages := totalPages.toNat, freeCount := 0, reservedPages := 0 }
  have hpos : 0 < count.toNat := UInt32.lt_iff_toNat_lt.mp hcount
  rw [findFreePages_refines (p := p) rfl rfl hmax, findFreePagesDma_refines (p := p) rfl rfl]
  constructor
  · exact firstFit_of_findRun hzero (fun i hi => if_pos (by omega)) hpos
  · exact firstFit_of_findRun hzero (fun i hi => if_pos (by omega)) hpos

/-- Two pages free at the end of the first word and two at the front of the next. -/
def acrossWords : PmmBitmap := fun i => if i = 7 then 0x3F else if i = 8 then 0xFC else 0xFF

theorem acrossWords_firstFit : findFreePages acrossWords 128 4 = 62 ∧
      FirstFit acrossWords 128 4 (findFreePages acrossWords 128 4).toNat ∧
      FirstFit acrossWords 128 4 (findFreePagesDma acrossWords 128 4).toNat :=
  ⟨by decide, @firstFit acrossWords 128 4 (by decide) (by decide) (by decide)⟩

end

end Chicago95.Stage2.PageScan
