/-
# Chicago95.Stage2.Truncate — `brainfs_file_truncate`.

The clusters a size needs are counted, the chain is followed for all of them but one, and what comes after the
cluster reached is freed (`OpenFile.cutChain_freed`).
-/
import Chicago95.Stage2.FreeChain
import Mathlib.Data.List.Perm.Subperm

namespace Chicago95.Stage2

open Chicago95.Lib.Chain

/-! ## The code -/

/-- The end-of-chain value `brainfs_file_truncate` writes. -/
def truncateEoc (width : Nat) : Nat :=
  match width with
  | 32 => 0x0FFFFFF8
  | 16 => 0xFFF8
  | 12 => 0xFF8
  | 8 => 0xFF
  | 4 => 15
  | 2 => 3
  | _ => 1

/-- `while (current && count < clusters_needed - 1)`, with that many passes to go. -/
def Mount.skipClusters (m : Mount) : Nat → Nat → Nat
  | 0, current => current
  | n + 1, current => if current = 0 then 0 else m.skipClusters n (m.fatNextCluster current)

/-- `clusters_needed - 1` -/
def Mount.cutLimit (m : Mount) (size : Nat) : Nat :=
  ((size + m.clusterSize - 1) % 2 ^ 32 / m.clusterSize + (2 ^ 32 - 1)) % 2 ^ 32

namespace Fs

/-- What `brainfs_file_truncate` does to the chain of a file that gets shorter. -/
def cutChain (fs : Fs) (firstCluster size : Nat) : Fs :=
  let current := fs.mount.skipClusters (fs.mount.cutLimit size) firstCluster
  if current = 0 then fs
  else
    let next := fs.mount.fatNextCluster current
    if next = 0 then fs
    else
      let fs := fs.fatFreeChain next
      { fs with mount := fs.mount.fatWriteEntry current (truncateEoc fs.mount.fatWidth) }

/-- `brainfs_file_truncate`: the status, the volume, and the file. -/
def fileTruncate (fs : Fs) (file : File) (size : Nat) : Int × Fs × File :=
  if file.isOpen = false then (-2, fs, file)
  else if fs.findMount = false then (-2, fs, file)
  else
    (0, if size < file.fileSize then fs.cutChain file.firstCluster size else fs,
      { file with fileSize := size, position := if size < file.position then size else file.position })

end Fs

/-! ## What it is to do -/

/-- The clusters that hold `size` bytes. -/
def Mount.clustersFor (m : Mount) (size : Nat) : Nat := (size + m.clusterSize - 1) / m.clusterSize

/-- **An open file with a well-formed chain** on the volume that is mounted: distinct clusters of the volume,
each leading to the next and the last marked as the end, with room for the bytes. -/
structure OpenFile (fs : Fs) (file : File) (chain : List Nat) : Prop where
  isOpen : file.isOpen = true
  found : fs.findMount = true
  sectors : 0 < fs.mount.sectorsPerCluster ∧ fs.mount.sectorsPerCluster < 2 ^ 8
  total : fs.mount.totalClusters < 2 ^ 32
  size : file.fileSize < 2 ^ 32
  first : file.firstCluster = chain.headD 0
  range : ∀ c ∈ chain, 2 ≤ c ∧ c < fs.mount.totalClusters
  nodup : chain.Nodup
  visits : Visits fs.mount.fatNextCluster chain
  last : ∀ c ∈ chain, fs.mount.fatNextCluster c = 0 →
    fatIsEocValue fs.mount.fatWidth (fs.mount.entry c) = true
  holds : file.fileSize ≤ fs.mount.clusterSize * chain.length

/-- The file has been cut to `size`: its chain is the clusters that hold it, the others are free, and nothing
else has changed. -/
structure Truncated (fs : Fs) (file : File) (chain : List Nat) (size : Nat) (r : Int × Fs × File) : Prop where
  status : r.1 = 0
  kept : OpenFile r.2.1 r.2.2 (chain.take (fs.mount.clustersFor size))
  freed : ∀ c ∈ chain.drop (fs.mount.clustersFor size), r.2.1.mount.entry c = 0
  others : ∀ c, c ∉ chain → r.2.1.mount.entry c = fs.mount.entry c
  fileSize : r.2.2.fileSize = size
  position : r.2.2.position ≤ size
  cursor : r.2.2.currentCluster ∈ chain.take (fs.mount.clustersFor size) ∨
    fs.mount.clustersFor size = 0 ∧ r.2.2.currentCluster = 0
  bytes : ∀ p c, p < size → chain[p / fs.mount.clusterSize]? = some c →
    r.2.1.byteAt c (p % fs.mount.clusterSize) = fs.byteAt c (p % fs.mount.clusterSize)

/-- **Where it does**: the cursor is in a cluster that is kept, and either every cluster is kept, or the file
gets shorter but not empty, the count does not wrap, and the width has the mark that is written. -/
def CutsRight (fs : Fs) (file : File) (chain : List Nat) (size : Nat) : Prop :=
  (file.currentCluster ∈ chain.take (fs.mount.clustersFor size) ∨
    fs.mount.clustersFor size = 0 ∧ file.currentCluster = 0) ∧
  (fs.mount.clustersFor size = chain.length ∨
    0 < size ∧ size < file.fileSize ∧ size + fs.mount.clusterSize ≤ 2 ^ 32 ∧
      fatIsEocValue fs.mount.fatWidth (truncateEoc fs.mount.fatWidth) = true)

/-! ## Freeing a chain -/

/-- The clusters of the list are free and have no pages, and nothing else has changed. -/
structure Freed (fs : Fs) (l : List Nat) (fs' : Fs) : Prop where
  mount : ∃ t, fs'.mount = { fs.mount with table := t }
  entry_mem : ∀ d ∈ l, fs'.mount.entry d = 0
  entry_of_not_mem : ∀ d, d ∉ l → fs'.mount.entry d = fs.mount.entry d
  space : ∀ d, d ∉ l → fs'.space d = fs.space d

theorem Freed.refl (fs : Fs) : Freed fs [] fs :=
  ⟨⟨fs.mount.table, rfl⟩, fun _ h => absurd h List.not_mem_nil, fun _ _ => rfl, fun _ _ => rfl⟩

theorem Mount.fatWriteEntry_table (m : Mount) (c v : Nat) :
    ∃ t, m.fatWriteEntry c v = { m with table := t } := by
  unfold fatWriteEntry
  split
  · exact ⟨m.table, rfl⟩
  · split
    · exact ⟨_, rfl⟩
    · exact ⟨m.table, rfl⟩

theorem Fs.freeLoop_visits : ∀ {l : List Nat} {fuel : Nat} {fs : Fs}, Visits fs.mount.fatNextCluster l →
    (∀ c ∈ l, 2 ≤ c ∧ c < fs.mount.totalClusters) → l.Nodup → l.length < fuel →
      Freed fs l (Fs.freeLoop fuel fs (l.headD 0)) := by
  intro l
  induction l with
  | nil =>
    intro fuel fs _ _ _ hfuel
    obtain ⟨fuel, rfl⟩ := Nat.exists_eq_succ_of_ne_zero (Nat.ne_of_gt (Nat.zero_lt_of_lt hfuel))
    rw [Fs.freeLoop, List.headD_nil, if_neg (by omega)]
    exact Freed.refl fs
  | cons c rest ih =>
    intro fuel fs hvisits hrange hnodup hfuel
    obtain ⟨fuel, rfl⟩ := Nat.exists_eq_succ_of_ne_zero (Nat.ne_of_gt (Nat.zero_lt_of_lt hfuel))
    obtain ⟨hc, hnodup⟩ := List.nodup_cons.mp hnodup
    have hnext : fs.mount.fatNextCluster c = rest.headD 0 := by
      cases rest with
      | nil => exact hvisits
      | cons d rest => exact hvisits.1
    have hstep : Fs.freeLoop (fuel + 1) fs c = Fs.freeLoop fuel
        { fs with mount := fs.mount.fatWriteEntry c 0, space := Function.update fs.space c none }
        (rest.headD 0) := by
      rw [Fs.freeLoop, if_pos (hrange c List.mem_cons_self)]
      dsimp only
      rw [← hnext]
      unfold Mount.fatNextCluster
      split
      -- the mark ends the walk, as cluster 0 would
      · have hfuel := Nat.lt_of_succ_lt_succ hfuel
        obtain ⟨fuel, rfl⟩ := Nat.exists_eq_succ_of_ne_zero (Nat.ne_of_gt (Nat.zero_lt_of_lt hfuel))
        rw [Fs.freeLoop, if_neg (by omega)]
      · rfl
    rw [List.headD_cons, hstep]
    have hvisits' : Visits (fs.mount.fatWriteEntry c 0).fatNextCluster rest :=
      hvisits.tail.congr fun d hd => Mount.fatNextCluster_congr (Mount.fatWriteEntry_fatWidth _ _ _)
        (Mount.entry_write_of_ne _ (ne_of_mem_of_not_mem hd hc) 0)
    have hrange' : ∀ d ∈ rest, 2 ≤ d ∧ d < (fs.mount.fatWriteEntry c 0).totalClusters := fun d hd => by
      rw [Mount.fatWriteEntry_totalClusters]
      exact hrange d (List.mem_cons_of_mem _ hd)
    have hrest : Freed { fs with mount := fs.mount.fatWriteEntry c 0, space := Function.update fs.space c none }
        rest (Fs.freeLoop fuel _ (rest.headD 0)) := ih hvisits' hrange' hnodup (Nat.lt_of_succ_lt_succ hfuel)
    obtain ⟨⟨t, hmount⟩, hmem, hnot, hspace⟩ := hrest
    obtain ⟨t', hmount'⟩ := fs.mount.fatWriteEntry_table c 0
    refine ⟨⟨t, by rw [hmount, hmount']⟩, fun d hd => ?_, fun d hd => ?_, fun d hd => ?_⟩
    · rcases List.mem_cons.mp hd with rfl | hd
      · rw [hnot d hc, Mount.entry_write_zero]
      · exact hmem d hd
    · rw [List.mem_cons, not_or] at hd
      rw [hnot d hd.2, Mount.entry_write_of_ne _ hd.1]
    · rw [List.mem_cons, not_or] at hd
      exact (hspace d hd.2).trans (Function.update_of_ne hd.1 _ _)

/-! ## Chains -/

theorem Mount.skipClusters_visits {m : Mount} : ∀ {l : List Nat}, Visits m.fatNextCluster l → (∀ c ∈ l, c ≠ 0) →
    ∀ n, m.skipClusters n (l.headD 0) = (l.drop n).headD 0 := by
  intro l
  induction l with
  | nil =>
    intro _ _ n
    cases n with
    | zero => rfl
    | succ n => exact if_pos rfl
  | cons c rest ih =>
    intro hvisits hne n
    cases n with
    | zero => rfl
    | succ n =>
      have hnext : m.fatNextCluster c = rest.headD 0 := by
        cases rest with
        | nil => exact hvisits
        | cons d rest => exact hvisits.1
      rw [List.headD_cons, skipClusters, if_neg (hne c List.mem_cons_self), hnext, List.drop_succ_cons]
      exact ih hvisits.tail (fun d hd => hne d (List.mem_cons_of_mem _ hd)) n

theorem visits_drop {next : Nat → Nat} {l : List Nat} (h : Visits next l) (n : Nat) : Visits next (l.drop n) := by
  induction n generalizing l with
  | zero => exact h
  | succ n ih =>
    cases l with
    | nil => trivial
    | cons c rest => exact ih h.tail

theorem visits_take {next next' : Nat → Nat} : ∀ {l : List Nat} (n : Nat), Visits next l →
    (∀ i c, i < n → l[i]? = some c → next' c = next c) → (∀ c, l[n]? = some c → next' c = 0) →
      Visits next' (l.take (n + 1)) := by
  intro l
  induction l with
  | nil => intro n _ _ _; trivial
  | cons c rest ih =>
    intro n h hsame hlast
    cases n with
    | zero => exact hlast c rfl
    | succ n =>
      have hrest : Visits next' (rest.take (n + 1)) := ih n h.tail
        (fun i d hi hd => hsame (i + 1) d (Nat.succ_lt_succ hi) hd) hlast
      have hc := hsame 0 c (Nat.zero_lt_succ n) rfl
      cases rest with
      | nil => exact hc.trans h
      | cons d rest => exact ⟨hc.trans h.1, hrest⟩

/-! ## The cut -/

namespace OpenFile

variable {fs : Fs} {file : File} {chain : List Nat} {size : Nat}

theorem clusterSize_pos (h : OpenFile fs file chain) : 0 < fs.mount.clusterSize :=
  Nat.mul_pos (by decide) h.sectors.1

theorem ne_zero (h : OpenFile fs file chain) {c : Nat} (hc : c ∈ chain) : c ≠ 0 := by
  have := h.range c hc
  omega

theorem length_le (h : OpenFile fs file chain) : chain.length ≤ fs.mount.totalClusters := by
  have hnodup : chain.Nodup := h.nodup
  have hsub : chain ⊆ List.range fs.mount.totalClusters := fun c hc => List.mem_range.mpr (h.range c hc).2
  have := (hnodup.subperm hsub).length_le
  rwa [List.length_range] at this

theorem entry_ne_zero (h : OpenFile fs file chain) {c : Nat} (hc : c ∈ chain) : fs.mount.entry c ≠ 0 := by
  intro hzero
  have heoc := h.last c hc (Mount.fatNextCluster_of_zero hzero)
  rw [hzero, Mount.eoc_zero] at heoc
  exact Bool.false_ne_true heoc

theorem clustersFor_le (h : OpenFile fs file chain) (hsize : size ≤ file.fileSize) :
    fs.mount.clustersFor size ≤ chain.length := by
  have hpos := h.clusterSize_pos
  have hholds := h.holds
  unfold Mount.clustersFor
  rw [Nat.div_le_iff_le_mul hpos]
  have : chain.length * fs.mount.clusterSize = fs.mount.clusterSize * chain.length := Nat.mul_comm _ _
  omega

theorem clustersFor_pos (h : OpenFile fs file chain) (hsize : 0 < size) : 0 < fs.mount.clustersFor size := by
  have hpos := h.clusterSize_pos
  exact Nat.div_pos (by omega) hpos

theorem le_clustersFor (h : OpenFile fs file chain) (size : Nat) :
    size ≤ fs.mount.clusterSize * fs.mount.clustersFor size := by
  have hpos := h.clusterSize_pos
  have hdiv := Nat.div_add_mod (size + fs.mount.clusterSize - 1) fs.mount.clusterSize
  have hmod := Nat.mod_lt (size + fs.mount.clusterSize - 1) hpos
  unfold Mount.clustersFor
  omega

theorem cutLimit_wrapped (h : OpenFile fs file chain) (hsize : size < 2 ^ 32)
    (hwrap : size = 0 ∨ 2 ^ 32 < size + fs.mount.clusterSize) : fs.mount.cutLimit size = 2 ^ 32 - 1 := by
  have hpos := h.clusterSize_pos
  have hmax : fs.mount.clusterSize < 2 ^ 17 := by
    have := h.sectors.2
    unfold Mount.clusterSize
    omega
  have hcount : (size + fs.mount.clusterSize - 1) % 2 ^ 32 / fs.mount.clusterSize = 0 := by
    apply Nat.div_eq_of_lt
    omega
  unfold Mount.cutLimit
  rw [hcount, Nat.zero_add, Nat.mod_eq_of_lt (by omega)]

theorem cutLimit_eq (h : OpenFile fs file chain) (hsize : 0 < size)
    (hfits : size + fs.mount.clusterSize ≤ 2 ^ 32) : fs.mount.cutLimit size + 1 = fs.mount.clustersFor size := by
  have hpos := h.clusterSize_pos
  have hk := h.clustersFor_pos hsize
  have hle : fs.mount.clustersFor size ≤ size + fs.mount.clusterSize - 1 := Nat.div_le_self _ _
  have hcount : (size + fs.mount.clusterSize - 1) % 2 ^ 32 / fs.mount.clusterSize =
      fs.mount.clustersFor size := by
    rw [Nat.mod_eq_of_lt (by omega)]
    rfl
  unfold Mount.cutLimit
  rw [hcount]
  omega

theorem current_eq (h : OpenFile fs file chain) (size : Nat) :
    fs.mount.skipClusters (fs.mount.cutLimit size) file.firstCluster =
      (chain.drop (fs.mount.cutLimit size)).headD 0 := by
  rw [h.first]
  exact Mount.skipClusters_visits h.visits (fun c hc => h.ne_zero hc) _

theorem next_eq (h : OpenFile fs file chain) {i c : Nat} (hi : chain[i]? = some c) :
    fs.mount.fatNextCluster c = (chain.drop (i + 1)).headD 0 := by
  rw [h.visits.next_eq hi, List.headD_eq_head?_getD, List.head?_drop]

theorem cutChain_same (h : OpenFile fs file chain) (hend : chain.length ≤ fs.mount.cutLimit size + 1) :
    fs.cutChain file.firstCluster size = fs := by
  unfold Fs.cutChain
  dsimp only
  rw [h.current_eq]
  split
  · rfl
  · rename_i hcurrent
    rcases hi : chain[fs.mount.cutLimit size]? with _ | c
    · rw [List.headD_eq_head?_getD, List.head?_drop, hi] at hcurrent
      exact absurd rfl hcurrent
    · have hhead : (chain.drop (fs.mount.cutLimit size)).headD 0 = c := by
        rw [List.headD_eq_head?_getD, List.head?_drop, hi, Option.getD_some]
      rw [hhead, h.next_eq hi, List.drop_eq_nil_of_le hend, List.headD_nil, if_pos rfl]

end OpenFile

/-- What a cut leaves when cluster `n` of the chain is the last one kept. -/
structure CutAfter (fs : Fs) (chain : List Nat) (n : Nat) (fs' : Fs) : Prop where
  mount : ∃ t, fs'.mount = { fs.mount with table := t }
  mark : ∀ c, chain[n]? = some c → fs'.mount.entry c = truncateEoc fs.mount.fatWidth
  freed : ∀ c ∈ chain.drop (n + 1), fs'.mount.entry c = 0
  others : ∀ c, c ∉ chain.drop n → fs'.mount.entry c = fs.mount.entry c
  space : ∀ c, c ∉ chain.drop (n + 1) → fs'.space c = fs.space c

namespace OpenFile

variable {fs fs' : Fs} {file : File} {chain : List Nat} {size n : Nat}

theorem cutChain_after (h : OpenFile fs file chain) (hmore : fs.mount.cutLimit size + 1 < chain.length) :
    CutAfter fs chain (fs.mount.cutLimit size) (fs.cutChain file.firstCluster size) := by
  have hnodup : chain.Nodup := h.nodup
  obtain ⟨n, hn⟩ : ∃ n, fs.mount.cutLimit size = n := ⟨_, rfl⟩
  rw [hn] at hmore ⊢
  have hlt : n < chain.length := by omega
  have hhead : ∀ {i : Nat} (hi : i < chain.length), (chain.drop i).headD 0 = chain[i] := fun hi => by
    rw [List.headD_eq_head?_getD, List.head?_drop, List.getElem?_eq_getElem hi, Option.getD_some]
  have hfreed : Freed fs (chain.drop (n + 1)) (fs.fatFreeChain ((chain.drop (n + 1)).headD 0)) :=
    Fs.freeLoop_visits (visits_drop h.visits (n + 1)) (fun d hd => h.range d (List.mem_of_mem_drop hd))
      (hnodup.sublist (List.drop_sublist _ _)) (by
        have := h.length_le
        rw [List.length_drop]
        omega)
  obtain ⟨⟨t, hmount⟩, hmem, hnot, hspace⟩ := hfreed
  have hcut : fs.cutChain file.firstCluster size =
      { fs.fatFreeChain ((chain.drop (n + 1)).headD 0) with
        mount := (fs.fatFreeChain ((chain.drop (n + 1)).headD 0)).mount.fatWriteEntry chain[n]
          (truncateEoc (fs.fatFreeChain ((chain.drop (n + 1)).headD 0)).mount.fatWidth) } := by
    unfold Fs.cutChain
    dsimp only
    rw [h.current_eq, hn, hhead hlt, if_neg (h.ne_zero (List.getElem_mem hlt)),
      h.next_eq (List.getElem?_eq_getElem hlt), if_neg (by
        rw [hhead hmore]
        exact h.ne_zero (List.getElem_mem hmore))]
  have hc : chain[n] ∉ chain.drop (n + 1) := fun hmem =>
    List.disjoint_take_drop hnodup (Nat.le_refl (n + 1))
      (List.mem_of_getElem? ((List.getElem?_take_of_lt (Nat.lt_succ_self n)).trans (List.getElem?_eq_getElem hlt)))
      hmem
  have hdrop : chain.drop n = chain[n] :: chain.drop (n + 1) := List.drop_eq_getElem_cons hlt
  rw [hcut]
  refine ⟨?_, fun c hi => ?_, fun d hd => ?_, fun d hd => ?_, hspace⟩
  · obtain ⟨t', hmount'⟩ := Mount.fatWriteEntry_table
      (fs.fatFreeChain ((chain.drop (n + 1)).headD 0)).mount chain[n]
      (truncateEoc fs.mount.fatWidth)
    refine ⟨t', ?_⟩
    dsimp only
    rw [hmount] at hmount' ⊢
    exact hmount'
  · obtain rfl : chain[n] = c := Option.some.inj ((List.getElem?_eq_getElem hlt).symm.trans hi)
    dsimp only
    rw [Mount.entry_write_self, hmount]
    · rw [Option.isSome_iff_ne_none]
      intro hnone
      exact h.entry_ne_zero (List.getElem_mem hlt) ((hnot _ hc).symm.trans (Mount.entry_of_none hnone _))
    · rw [hmount]
      exact (h.range _ (List.getElem_mem hlt)).2
  · dsimp only
    rw [Mount.entry_write_of_ne _ (ne_of_mem_of_not_mem hd hc), hmem d hd]
  · rw [hdrop, List.mem_cons, not_or] at hd
    dsimp only
    rw [Mount.entry_write_of_ne _ hd.1, hnot d hd.2]

theorem kept (h : OpenFile fs file chain) (hcut : CutAfter fs chain n fs')
    (heoc : fatIsEocValue fs.mount.fatWidth (truncateEoc fs.mount.fatWidth) = true) (file' : File)
    (hopen : file'.isOpen = true) (hfirst : file'.firstCluster = file.firstCluster) (hmax : file'.fileSize < 2 ^ 32)
    (hholds : file'.fileSize ≤ fs.mount.clusterSize * (chain.take (n + 1)).length) :
    OpenFile fs' file' (chain.take (n + 1)) := by
  have hnodup : chain.Nodup := h.nodup
  obtain ⟨t, hmount⟩ := hcut.mount
  have hwidth : fs'.mount.fatWidth = fs.mount.fatWidth := by rw [hmount]
  have htotal : fs'.mount.totalClusters = fs.mount.totalClusters := by rw [hmount]
  have hsectors : fs'.mount.sectorsPerCluster = fs.mount.sectorsPerCluster := by rw [hmount]
  have hbefore : ∀ i c, i < n → chain[i]? = some c → fs'.mount.entry c = fs.mount.entry c := fun i c hi hc =>
    hcut.others c fun hmem => List.disjoint_take_drop hnodup (Nat.le_refl n)
      (List.mem_of_getElem? ((List.getElem?_take_of_lt hi).trans hc)) hmem
  have hend : ∀ c, chain[n]? = some c → fatIsEocValue fs'.mount.fatWidth (fs'.mount.entry c) = true :=
    fun c hc => by rw [hwidth, hcut.mark c hc]; exact heoc
  refine ⟨hopen, ?_, ?_, ?_, hmax, ?_, ?_, hnodup.sublist (List.take_sublist _ _), ?_, ?_, ?_⟩
  · have := h.found
    unfold Fs.findMount at this ⊢
    rw [hmount]
    exact this
  · rw [hsectors]
    exact h.sectors
  · rw [htotal]
    exact h.total
  · rw [hfirst, h.first]
    cases chain with
    | nil => rfl
    | cons a rest => rfl
  · intro c hc
    rw [htotal]
    exact h.range c (List.mem_of_mem_take hc)
  · exact visits_take n h.visits
      (fun i c hi hc => Mount.fatNextCluster_congr hwidth (hbefore i c hi hc))
      (fun c hc => Mount.fatNextCluster_of_eoc (hend c hc))
  · intro c hc hzero
    obtain ⟨i, hi⟩ := List.mem_iff_getElem?.mp hc
    rw [List.getElem?_take] at hi
    split at hi
    · rename_i hlt
      rcases Nat.lt_or_eq_of_le (Nat.le_of_lt_succ hlt) with hin | rfl
      · rw [hwidth, hbefore i c hin hi]
        rw [Mount.fatNextCluster_congr hwidth (hbefore i c hin hi)] at hzero
        exact h.last c (List.mem_of_getElem? hi) hzero
      · exact hend c hi
    · cases hi
  · unfold Mount.clusterSize at hholds ⊢
    rw [hsectors]
    exact hholds

end OpenFile

theorem CutAfter.mark_ends {fs fs' : Fs} {file' : File} {chain : List Nat} {n : Nat}
    (h : CutAfter fs chain n fs') (hn : n < chain.length) (hkept : OpenFile fs' file' (chain.take (n + 1))) :
    fatIsEocValue fs.mount.fatWidth (truncateEoc fs.mount.fatWidth) = true := by
  have hlast : chain[n]? = some chain[n] := List.getElem?_eq_getElem hn
  have hi : (chain.take (n + 1))[n]? = some chain[n] :=
    (List.getElem?_take_of_lt (Nat.lt_succ_self n)).trans hlast
  have hzero := hkept.visits.next_eq hi
  rw [List.getElem?_eq_none (by rw [List.length_take]; exact Nat.min_le_left _ _), Option.getD_none] at hzero
  have heoc := hkept.last _ (List.mem_of_getElem? hi) hzero
  obtain ⟨t, hmount⟩ := h.mount
  rwa [h.mark _ hlast, hmount] at heoc

/-! ## Where the file comes out right -/

section

variable {fs : Fs} {file : File} {chain : List Nat} {size : Nat}

theorem Fs.fileTruncate_eq (h : OpenFile fs file chain) (size : Nat) :
    fs.fileTruncate file size =
      (0, if size < file.fileSize then fs.cutChain file.firstCluster size else fs,
        { file with fileSize := size, position := if size < file.position then size else file.position }) := by
  unfold Fs.fileTruncate
  rw [if_neg (by rw [h.isOpen]; exact Bool.noConfusion), if_neg (by rw [h.found]; exact Bool.noConfusion)]

theorem cut_position_le (file : File) (size : Nat) : (if size < file.position then size else file.position) ≤ size := by
  split <;> omega

theorem OpenFile.truncated_whole (h : OpenFile fs file chain) (hsize : size ≤ file.fileSize)
    (hall : fs.mount.clustersFor size = chain.length)
    (hcursor : file.currentCluster ∈ chain.take (fs.mount.clustersFor size) ∨
      fs.mount.clustersFor size = 0 ∧ file.currentCluster = 0) :
    Truncated fs file chain size (fs.fileTruncate file size) := by
  have hmax : size < 2 ^ 32 := Nat.lt_of_le_of_lt hsize h.size
  have hsame : (if size < file.fileSize then fs.cutChain file.firstCluster size else fs) = fs := by
    split
    · refine h.cutChain_same ?_
      by_cases hwrap : size = 0 ∨ 2 ^ 32 < size + fs.mount.clusterSize
      · have hlen := h.length_le
        have htotal := h.total
        rw [h.cutLimit_wrapped hmax hwrap]
        omega
      · exact Nat.le_of_eq (hall.symm.trans (h.cutLimit_eq (by omega) (by omega)).symm)
    · rfl
  rw [Fs.fileTruncate_eq h, hsame]
  refine ⟨rfl, ?_, ?_, fun _ _ => rfl, rfl, cut_position_le file size, hcursor, fun _ _ _ _ => rfl⟩
  · rw [hall, List.take_length]
    exact { h with size := hmax, holds := Nat.le_trans hsize h.holds }
  · rw [hall, List.drop_length]
    exact fun c hc => absurd hc List.not_mem_nil

theorem OpenFile.truncated_part (h : OpenFile fs file chain) (hpos : 0 < size) (hless : size < file.fileSize)
    (hfits : size + fs.mount.clusterSize ≤ 2 ^ 32) (hmore : fs.mount.clustersFor size < chain.length)
    (heoc : fatIsEocValue fs.mount.fatWidth (truncateEoc fs.mount.fatWidth) = true)
    (hcursor : file.currentCluster ∈ chain.take (fs.mount.clustersFor size)) :
    Truncated fs file chain size (fs.fileTruncate file size) := by
  have hlimit := h.cutLimit_eq hpos hfits
  have hcut : CutAfter fs chain (fs.mount.cutLimit size) (fs.cutChain file.firstCluster size) :=
    h.cutChain_after (by rw [hlimit]; exact hmore)
  have hmax : size < 2 ^ 32 := Nat.lt_trans hless h.size
  have hholds : size ≤ fs.mount.clusterSize * (chain.take (fs.mount.cutLimit size + 1)).length := by
    rw [List.length_take, hlimit, Nat.min_eq_left (Nat.le_of_lt hmore)]
    exact h.le_clustersFor size
  have hkept := h.kept hcut heoc
    { file with fileSize := size, position := if size < file.position then size else file.position }
    h.isOpen rfl hmax hholds
  rw [Fs.fileTruncate_eq h, if_pos hless]
  rw [hlimit] at hkept
  refine ⟨rfl, ?_, ?_, fun c hc => hcut.others c fun hmem => hc (List.mem_of_mem_drop hmem), rfl,
    cut_position_le file size, Or.inl hcursor, fun p c hp hc => ?_⟩
  · dsimp only
    exact hkept
  · rw [← hlimit]
    exact hcut.freed
  · have hlt : p / fs.mount.clusterSize < fs.mount.cutLimit size + 1 := by
      rw [hlimit, Nat.div_lt_iff_lt_mul h.clusterSize_pos, Nat.mul_comm]
      exact Nat.lt_of_lt_of_le hp (h.le_clustersFor size)
    unfold Fs.byteAt
    rw [hcut.space c fun hmem => List.disjoint_take_drop h.nodup (Nat.le_refl _)
      (List.mem_of_getElem? ((List.getElem?_take_of_lt hlt).trans hc)) hmem]

/-- **Where truncating comes out right.** -/
theorem truncated_iff (h : OpenFile fs file chain) (hsize : size ≤ file.fileSize) :
    Truncated fs file chain size (fs.fileTruncate file size) ↔ CutsRight fs file chain size := by
  have hle := h.clustersFor_le hsize
  have hmax : size < 2 ^ 32 := Nat.lt_of_le_of_lt hsize h.size
  constructor
  · intro ht
    rw [Fs.fileTruncate_eq h] at ht
    refine ⟨ht.cursor, or_iff_not_imp_left.mpr fun hne => ?_⟩
    have hlt : fs.mount.clustersFor size < chain.length := by omega
    -- the first cluster that is not kept is in use, so that something has been done
    have hfreed := ht.freed chain[fs.mount.clustersFor size] (by
      rw [List.drop_eq_getElem_cons hlt]
      exact List.mem_cons_self)
    have hcut : size < file.fileSize ∧ ¬ chain.length ≤ fs.mount.cutLimit size + 1 := by
      by_contra hsame
      have hfs : (if size < file.fileSize then fs.cutChain file.firstCluster size else fs) = fs := by
        split
        · rename_i hless
          exact h.cutChain_same (by omega)
        · rfl
      dsimp only at hfreed
      rw [hfs] at hfreed
      exact h.entry_ne_zero (List.getElem_mem hlt) hfreed
    have hwrap : ¬ (size = 0 ∨ 2 ^ 32 < size + fs.mount.clusterSize) := fun hwrap => by
      have hlen := h.length_le
      have htotal := h.total
      rw [h.cutLimit_wrapped hmax hwrap] at hcut
      omega
    have hlimit : fs.mount.cutLimit size + 1 = fs.mount.clustersFor size := h.cutLimit_eq (by omega) (by omega)
    refine ⟨by omega, hcut.1, by omega, ?_⟩
    -- the last cluster that is kept has the mark
    have hafter : CutAfter fs chain (fs.mount.cutLimit size) (fs.cutChain file.firstCluster size) :=
      h.cutChain_after (by omega)
    have hkept := ht.kept
    rw [if_pos hcut.1, ← hlimit] at hkept
    dsimp only at hkept
    exact hafter.mark_ends (by omega) hkept
  · rintro ⟨hcursor, hcase⟩
    by_cases hall : fs.mount.clustersFor size = chain.length
    · exact h.truncated_whole hsize hall hcursor
    · obtain ⟨hpos, hless, hfits, heoc⟩ := hcase.resolve_left hall
      have hk := h.clustersFor_pos hpos
      exact h.truncated_part hpos hless hfits (by omega) heoc (hcursor.resolve_right fun hzero => by omega)

end

/-! ## A file of three clusters -/

/-- A volume with 16-bit entries, clusters 2, 3 and 4 chained. -/
def threeClusters : Fs where
  mount := (brainfsMount 0 16).withTable fun c => [0, 0, 3, 4, 0xFFF8].getD c 0
  space := fun _ => none
  supply := fun _ => true

/-- An open file of 1100 bytes there, at its beginning. -/
def threeFile : File :=
  { firstCluster := 2, currentCluster := 2, fileSize := 1100, position := 0, mode := 1, isOpen := true }

theorem threeFile_open : OpenFile threeClusters threeFile [2, 3, 4] where
  isOpen := rfl
  found := rfl
  sectors := by decide
  total := by decide
  size := by decide
  first := rfl
  range := by decide
  nodup := by decide
  visits := ⟨by decide, by decide, show threeClusters.mount.fatNextCluster 4 = 0 by decide⟩
  last := by decide
  holds := by decide

/-- Cut to 600 bytes it keeps two clusters. -/
theorem threeFile_cut : Truncated threeClusters threeFile [2, 3, 4] 600 (threeClusters.fileTruncate threeFile 600) :=
  (truncated_iff threeFile_open (by decide)).mpr ⟨by decide, Or.inr (by decide)⟩

/-- Cut to nothing it keeps all three. -/
theorem threeFile_emptied :
    ¬ Truncated threeClusters threeFile [2, 3, 4] 0 (threeClusters.fileTruncate threeFile 0) := by
  intro h
  have hfreed := h.freed 2 (by decide)
  have hlimit : threeClusters.mount.cutLimit 0 = 2 ^ 32 - 1 :=
    threeFile_open.cutLimit_wrapped (by decide) (Or.inl rfl)
  have hsame : threeClusters.cutChain threeFile.firstCluster 0 = threeClusters :=
    threeFile_open.cutChain_same (by rw [hlimit]; decide)
  rw [Fs.fileTruncate_eq threeFile_open, if_pos (by decide)] at hfreed
  dsimp only at hfreed
  rw [hsame] at hfreed
  exact absurd hfreed (by decide)

end Chicago95.Stage2
