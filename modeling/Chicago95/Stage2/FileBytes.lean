/-
# Chicago95.Stage2.FileBytes — what one pass of a read or write does to a file's bytes.

With a table in memory of a width that tells links from marks, a file is a chain of clusters, and byte `p`
of it is byte `p % 512` of cluster `p / 512` (`Stored`). A pass of `brainfs_file_read` from the cluster of
the position copies the bytes up to the end of the cluster and goes on to the next one; a pass of
`brainfs_file_write` there replaces them. These are the lemmas `readLoop_spec` and `writeLoop_spec` put
together.
-/
import Chicago95.Stage2.FatRuns
import Mathlib.Data.List.Perm.Subperm

namespace Chicago95.Stage2

/-! ## Volumes and chains -/

/-- The widths in which every cluster number of a volume can be a link. -/
def wideWidths : List Nat := [12, 16, 32, 64, 128]

theorem wide_is_chain {width : Nat} (h : width ∈ wideWidths) : width ∈ chainWidths := by
  revert width
  decide

theorem wide_not_eoc {width : Nat} (h : width ∈ wideWidths) {c : Nat} (hc : 2 ≤ c ∧ c < 1024) :
    fatIsEocValue width c = false := by
  simp only [wideWidths, List.mem_cons, List.not_mem_nil, or_false] at h
  unfold fatIsEocValue
  rcases h with rfl | rfl | rfl | rfl | rfl <;> simp <;> omega

theorem wide_zero {width : Nat} (h : width ∈ wideWidths) : fatIsEocValue width 0 = false := by
  revert width
  decide

/-- Each entry of the chain is the next cluster, and the last one's is an end of chain. -/
structure Linked (m : Mount) (chain : List Nat) : Prop where
  link : ∀ i c d, chain[i]? = some c → chain[i + 1]? = some d → m.entry c = d
  last : ∀ i c, chain[i]? = some c → i + 1 = chain.length → fatIsEocValue m.fatWidth (m.entry c) = true

/-- A volume as it is mounted on drive 0, with a table of a wide width in memory, and a chain on it. -/
structure OnVolume (fs : Fs) (chain : List Nat) : Prop where
  clusterSize : fs.mount.clusterSize = 512
  total : fs.mount.totalClusters = 1024
  table : fs.mount.table.isSome = true
  width : fs.mount.fatWidth ∈ wideWidths
  found : fs.findMount = true
  range : ∀ c ∈ chain, 2 ≤ c ∧ c < 1024
  nodup : chain.Nodup
  linked : Linked fs.mount chain

/-- **The file's bytes** are in its clusters: byte `p` in cluster `p / 512`. -/
def Stored (fs : Fs) (chain : List Nat) (bytes : Nat → UInt8) (size : Nat) : Prop :=
  size ≤ 512 * chain.length ∧
    ∀ p c, p < size → chain[p / 512]? = some c → fs.byteAt c (p % 512) = bytes p

/-- Every attempt to get a page for a cluster will succeed. -/
def Fs.Ready (fs : Fs) : Prop := ∀ n, fs.supply n = true

namespace OnVolume

variable {fs : Fs} {chain : List Nat}

theorem of_mount {fs' : Fs} (h : OnVolume fs chain) (hm : fs'.mount = fs.mount) : OnVolume fs' chain := by
  obtain ⟨hsize, htotal, htable, hwidth, hfound, hrange, hnodup, hlinked⟩ := h
  rw [← hm] at hsize htotal htable hwidth hlinked
  refine ⟨hsize, htotal, htable, hwidth, ?_, hrange, hnodup, hlinked⟩
  unfold Fs.findMount at hfound ⊢
  rw [hm]
  exact hfound

theorem length_le (h : OnVolume fs chain) : chain.length ≤ 1024 := by
  have hsub : chain ⊆ List.range 1024 := fun c hc => List.mem_range.mpr (h.range c hc).2
  simpa using (h.nodup.subperm hsub).length_le

theorem next_eq (h : OnVolume fs chain) {i c : Nat} (hi : chain[i]? = some c) :
    fs.mount.fatNextCluster c = (chain[i + 1]?).getD 0 := by
  rcases Option.eq_none_or_eq_some chain[i + 1]? with hnone | ⟨d, hd⟩
  · rw [hnone]
    refine Mount.fatNextCluster_of_eoc (h.linked.last i c hi ?_)
    have hlt := (List.getElem?_eq_some_iff.mp hi).1
    have hge := List.getElem?_eq_none_iff.mp hnone
    omega
  · rw [hd, Option.getD_some]
    have hrange := h.range d (List.mem_of_getElem? hd)
    exact Mount.fatNextCluster_of_link (h.linked.link i c d hi hd) (wide_not_eoc h.width hrange)
      (by omega)

theorem entry_ne_zero (h : OnVolume fs chain) {c : Nat} (hc : c ∈ chain) : fs.mount.entry c ≠ 0 := by
  obtain ⟨i, hi⟩ := List.mem_iff_getElem?.mp hc
  rcases Option.eq_none_or_eq_some chain[i + 1]? with hnone | ⟨d, hd⟩
  · intro h0
    have hlt := (List.getElem?_eq_some_iff.mp hi).1
    have hge := List.getElem?_eq_none_iff.mp hnone
    have heoc := h.linked.last i c hi (by omega)
    rw [h0, wide_zero h.width] at heoc
    exact Bool.false_ne_true heoc
  · have hrange := h.range d (List.mem_of_getElem? hd)
    rw [h.linked.link i c d hi hd]
    omega

end OnVolume

/-! ## Cluster reads and writes -/

/-- Two states with the same volume and the same bytes; clusters may have got pages. -/
structure SameBytes (fs fs' : Fs) : Prop where
  mount : fs'.mount = fs.mount
  byteAt : ∀ c o, fs'.byteAt c o = fs.byteAt c o
  ready : fs.Ready → fs'.Ready

namespace SameBytes

variable {fs fs' fs'' : Fs} {chain : List Nat} {bytes : Nat → UInt8} {size : Nat}

theorem refl (fs : Fs) : SameBytes fs fs := ⟨rfl, fun _ _ => rfl, id⟩

theorem trans (h : SameBytes fs fs') (h' : SameBytes fs' fs'') : SameBytes fs fs'' :=
  ⟨h'.mount.trans h.mount, fun c o => (h'.byteAt c o).trans (h.byteAt c o), fun hr => h'.ready (h.ready hr)⟩

theorem onVolume (h : SameBytes fs fs') (hv : OnVolume fs chain) : OnVolume fs' chain :=
  hv.of_mount h.mount

theorem stored (h : SameBytes fs fs') (hs : Stored fs chain bytes size) : Stored fs' chain bytes size :=
  ⟨hs.1, fun p c hp hc => (h.byteAt c _).trans (hs.2 p c hp hc)⟩

end SameBytes

namespace Fs

variable {fs : Fs} {c : Nat}

theorem resolve_sameBytes (fs : Fs) (c : Nat) : SameBytes fs (fs.resolve c).2 := by
  unfold resolve
  split
  · exact SameBytes.refl fs
  · next hnone =>
    unfold back
    split
    · refine ⟨rfl, fun d o => ?_, fun hr n => hr (n + 1)⟩
      simp only [byteAt]
      rcases eq_or_ne d c with rfl | hne
      · rw [Function.update_self, Option.not_isSome_iff_eq_none.mp hnone]
        rfl
      · rw [Function.update_of_ne hne]
    · exact ⟨rfl, fun _ _ => rfl, fun hr n => hr (n + 1)⟩

theorem resolve_ok (hr : fs.Ready) (hc : c < 1024) : (fs.resolve c).1 = true := by
  unfold resolve
  split
  · rfl
  · unfold back
    rw [if_pos ⟨hr 0, by simp only [clusterMapMax]; omega⟩]

theorem clusterRead_spec (hsize : fs.mount.clusterSize = 512) (hr : fs.Ready) (hc : c < 1024)
    (buf : Nat → UInt8) (dst : Nat) {offset n : Nat} (ho : offset < 512) (hn : offset + n ≤ 512) :
    SameBytes fs (fs.clusterRead c buf dst offset n).2 ∧ ∀ i, (fs.clusterRead c buf dst offset n).1 i =
      if dst ≤ i ∧ i < dst + n then fs.byteAt c (offset + (i - dst)) else buf i := by
  have hsame := fs.resolve_sameBytes c
  have hfit : ¬ 512 < (offset + n) % 2 ^ 32 := by omega
  unfold clusterRead
  simp only [hsize, if_neg (Nat.not_le.mpr ho), if_neg hfit, resolve_ok hr hc, Bool.true_eq_false,
    if_false, hsame.byteAt]
  exact ⟨hsame, fun _ => trivial⟩

theorem clusterWrite_spec (hsize : fs.mount.clusterSize = 512) (hr : fs.Ready) (hc : c < 1024)
    (buf : Nat → UInt8) (src : Nat) {offset n : Nat} (ho : offset < 512) (hn : offset + n ≤ 512) :
    (fs.clusterWrite c buf src offset n).Ready ∧ ∀ d i, (fs.clusterWrite c buf src offset n).byteAt d i =
      if d = c ∧ offset ≤ i ∧ i < offset + n then buf (src + (i - offset)) else fs.byteAt d i := by
  have hsame := fs.resolve_sameBytes c
  have hfit : ¬ 512 < (offset + n) % 2 ^ 32 := by omega
  unfold clusterWrite
  simp only [hsize, if_neg (Nat.not_le.mpr ho), if_neg hfit, resolve_ok hr hc, Bool.true_eq_false,
    if_false]
  refine ⟨hsame.ready hr, fun d i => ?_⟩
  rcases eq_or_ne d c with rfl | hne
  · simp only [byteAt, Function.update_self, Option.getD_some, true_and]
    split
    · rfl
    · exact hsame.byteAt d i
  · rw [if_neg fun h => hne h.1]
    simp only [byteAt, Function.update_of_ne hne]
    exact hsame.byteAt d i

end Fs

/-! ## Reading -/

/-- The file's current cluster is the one its position is in. -/
def File.AtCursor (file : File) (chain : List Nat) : Prop :=
  chain[file.position / 512]? = some file.currentCluster

/-- What a read leaves after `n` more bytes: they are in the buffer, and the rest of the file is as it was. -/
structure ReadTo (bytes : Nat → UInt8) (s : Transfer) (n : Nat) (t : Transfer) : Prop where
  done : t.done = s.done + n
  file : ∃ c, t.file = { s.file with position := s.file.position + n, currentCluster := c }
  fs : SameBytes s.fs t.fs
  buf : ∀ i, t.buf i =
    if s.done ≤ i ∧ i < s.done + n then bytes (s.file.position + (i - s.done)) else s.buf i

theorem ReadTo.trans {bytes : Nat → UInt8} {s t u : Transfer} {n m : Nat} (h : ReadTo bytes s n t)
    (h' : ReadTo bytes t m u) : ReadTo bytes s (n + m) u := by
  obtain ⟨c, hfile⟩ := h.file
  obtain ⟨d, hfile'⟩ := h'.file
  refine ⟨by rw [h'.done, h.done, Nat.add_assoc], ⟨d, ?_⟩, h.fs.trans h'.fs, fun i => ?_⟩
  · rw [hfile', hfile]
    simp only [Nat.add_assoc]
  · have hposition : t.file.position = s.file.position + n := by rw [hfile]
    rw [h'.buf, h.buf, h.done, hposition]
    by_cases hfirst : s.done ≤ i ∧ i < s.done + n
    · rw [if_pos hfirst, if_neg (by omega), if_pos (by omega)]
    · rw [if_neg hfirst]
      by_cases hsecond : s.done + n ≤ i ∧ i < s.done + n + m
      · rw [if_pos hsecond, if_pos (by omega)]
        congr 1
        omega
      · rw [if_neg hsecond, if_neg (by omega)]

namespace Transfer

variable {s : Transfer} {chain : List Nat} {bytes : Nat → UInt8} {len : Nat}

theorem readPass_spec (hv : OnVolume s.fs chain) (hst : Stored s.fs chain bytes s.file.fileSize)
    (hr : s.fs.Ready) (hlen : len < 2 ^ 32) (hd : s.done < len)
    (hp : s.file.position < s.file.fileSize) (hc : s.file.AtCursor chain) :
    ∃ n t, s.readPass len = (true, t) ∧ 0 < n ∧ n ≤ len - s.done ∧
      n ≤ s.file.fileSize - s.file.position ∧ ReadTo bytes s n t ∧
      (s.file.position + n < s.file.fileSize → t.file.AtCursor chain) := by
  have hlength := hv.length_le
  have hfit := hst.1
  have hcl := hv.range _ (List.mem_of_getElem? hc)
  -- how much this pass reads
  generalize hmost : min (512 - s.file.position % 512) (len - s.done) = most
  have hmod : (s.file.position + most) % 2 ^ 32 = s.file.position + most := Nat.mod_eq_of_lt (by omega)
  generalize hn : (if s.file.fileSize < s.file.position + most
    then s.file.fileSize - s.file.position else most) = n
  have hbounds : 0 < n ∧ n ≤ len - s.done ∧ n ≤ s.file.fileSize - s.file.position ∧
      s.file.position % 512 + n ≤ 512 := by
    rw [← hn]
    split <;> omega
  obtain ⟨hpos, hnlen, hnsize, hncl⟩ := hbounds
  have hmod' : (s.file.position + n) % 2 ^ 32 = s.file.position + n := Nat.mod_eq_of_lt (by omega)
  obtain ⟨hsame, hread⟩ := Fs.clusterRead_spec hv.clusterSize hr hcl.2 s.buf s.done
    (Nat.mod_lt s.file.position (by decide)) hncl
  have hbuf : ∀ i, (s.fs.clusterRead s.file.currentCluster s.buf s.done (s.file.position % 512) n).1 i
      = if s.done ≤ i ∧ i < s.done + n then bytes (s.file.position + (i - s.done)) else s.buf i :=
    fun i => by
      rw [hread]
      split
      · next hi =>
        have hbyte := hst.2 (s.file.position + (i - s.done)) s.file.currentCluster (by omega)
          (by rw [show (s.file.position + (i - s.done)) / 512 = s.file.position / 512 by omega]
              exact hc)
        rw [← hbyte]
        congr 1
        omega
      · rfl
  unfold readPass
  simp only [hv.clusterSize, hmost, hmod, hn, hmod']
  have hnext : (s.fs.clusterRead s.file.currentCluster s.buf s.done
      (s.file.position % 512) n).2.mount.fatNextCluster s.file.currentCluster
      = (chain[s.file.position / 512 + 1]?).getD 0 := by
    rw [hsame.mount]
    exact hv.next_eq hc
  rw [hnext]
  split
  · next hend =>
    -- the end of a cluster, and more of the file to come: the chain goes on
    have hlt : s.file.position / 512 + 1 < chain.length := by omega
    have hget : chain[s.file.position / 512 + 1]? = some chain[s.file.position / 512 + 1] :=
      List.getElem?_eq_getElem hlt
    have hrange := hv.range _ (List.getElem_mem hlt)
    rw [hget, Option.getD_some, if_neg (by omega)]
    refine ⟨n, _, rfl, hpos, hnlen, hnsize,
      ⟨rfl, ⟨_, rfl⟩, hsame.trans (Fs.resolve_sameBytes _ _), hbuf⟩, fun _ => ?_⟩
    show chain[(s.file.position + n) / 512]? = _
    rw [show (s.file.position + n) / 512 = s.file.position / 512 + 1 by omega]
    exact hget
  · next hend =>
    refine ⟨n, _, rfl, hpos, hnlen, hnsize, ⟨rfl, ⟨_, rfl⟩, hsame, hbuf⟩, fun hmore => ?_⟩
    show chain[(s.file.position + n) / 512]? = some s.file.currentCluster
    rw [show (s.file.position + n) / 512 = s.file.position / 512 by omega]
    exact hc

theorem readTo_zero (s : Transfer) : ReadTo bytes s 0 s :=
  ⟨rfl, ⟨s.file.currentCluster, rfl⟩, SameBytes.refl _, fun i => by rw [if_neg (by omega)]⟩

theorem readLoop_spec (hlen : len < 2 ^ 32) : ∀ {fuel : Nat} {s : Transfer}, OnVolume s.fs chain →
    Stored s.fs chain bytes s.file.fileSize → s.fs.Ready → len - s.done ≤ fuel →
    (s.done < len → s.file.position < s.file.fileSize → s.file.AtCursor chain) →
    ReadTo bytes s (min (len - s.done) (s.file.fileSize - s.file.position)) (s.readLoop len fuel) := by
  intro fuel
  induction fuel with
  | zero =>
    intro s _ _ _ hfuel _
    rw [show min (len - s.done) (s.file.fileSize - s.file.position) = 0 by omega]
    exact readTo_zero s
  | succ fuel ih =>
    intro s hv hst hr hfuel hc
    unfold readLoop
    by_cases hgo : s.done < len ∧ s.file.position < s.file.fileSize
    · obtain ⟨n, t, hpass, hpos, hnlen, hnsize, hto, hcursor⟩ :=
        readPass_spec hv hst hr hlen hgo.1 hgo.2 (hc hgo.1 hgo.2)
      obtain ⟨c, hfile⟩ := hto.file
      have hposition : t.file.position = s.file.position + n := by rw [hfile]
      have hfileSize : t.file.fileSize = s.file.fileSize := by rw [hfile]
      have hrest := ih (hto.fs.onVolume hv) (hfileSize ▸ hto.fs.stored hst) (hto.fs.ready hr)
        (by rw [hto.done]; omega) fun _ hmore => hcursor (by omega)
      rw [if_pos hgo, hpass]
      have hboth := hto.trans hrest
      rw [hto.done, hfileSize, hposition] at hboth
      rwa [show n + min (len - (s.done + n)) (s.file.fileSize - (s.file.position + n))
        = min (len - s.done) (s.file.fileSize - s.file.position) by omega] at hboth
    · rw [if_neg hgo, show min (len - s.done) (s.file.fileSize - s.file.position) = 0 by omega]
      exact readTo_zero s

end Transfer

/-! ## Writing in place -/

/-- The bytes with `n` of them from `pos` on replaced by those of `buf` from `src` on. -/
def overlay (bytes : Nat → UInt8) (pos : Nat) (buf : Nat → UInt8) (src n : Nat) : Nat → UInt8 := fun p =>
  if pos ≤ p ∧ p < pos + n then buf (src + (p - pos)) else bytes p

theorem overlay_zero (bytes : Nat → UInt8) (pos : Nat) (buf : Nat → UInt8) (src : Nat) :
    overlay bytes pos buf src 0 = bytes := by
  funext p
  exact if_neg (by omega)

theorem overlay_add (bytes : Nat → UInt8) (pos : Nat) (buf : Nat → UInt8) (src n m : Nat) :
    overlay (overlay bytes pos buf src n) (pos + n) buf (src + n) m = overlay bytes pos buf src (n + m) := by
  funext p
  simp only [overlay]
  by_cases hsecond : pos + n ≤ p ∧ p < pos + n + m
  · rw [if_pos hsecond, if_pos (by omega)]
    congr 1
    omega
  · rw [if_neg hsecond]
    by_cases hfirst : pos ≤ p ∧ p < pos + n
    · rw [if_pos hfirst, if_pos (by omega)]
    · rw [if_neg hfirst, if_neg (by omega)]

theorem Stored.write {fs fs' : Fs} {chain : List Nat} {bytes : Nat → UInt8} {size pos n src : Nat}
    {buf : Nat → UInt8} {c : Nat} (h : Stored fs chain bytes size) (hnodup : chain.Nodup)
    (hc : chain[pos / 512]? = some c) (hn : pos % 512 + n ≤ 512) (hpos : pos ≤ size) (hn0 : 0 < n)
    (hbytes : ∀ d i, fs'.byteAt d i = if d = c ∧ pos % 512 ≤ i ∧ i < pos % 512 + n
      then buf (src + (i - pos % 512)) else fs.byteAt d i) :
    Stored fs' chain (overlay bytes pos buf src n) (max size (pos + n)) := by
  have hlt := (List.getElem?_eq_some_iff.mp hc).1
  refine ⟨by have := h.1; omega, fun p d hp hd => ?_⟩
  rw [hbytes]
  simp only [overlay]
  by_cases hin : pos ≤ p ∧ p < pos + n
  · have hblock : p / 512 = pos / 512 := by omega
    rw [hblock, hc] at hd
    rw [if_pos ⟨(Option.some.inj hd).symm, by omega, by omega⟩, if_pos hin]
    congr 1
    omega
  · rw [if_neg hin, if_neg ?_]
    · exact h.2 p d (by omega) hd
    · rintro ⟨rfl, hlow, hhigh⟩
      -- the same cluster is the same stretch of the file
      have hblock : pos / 512 = p / 512 := (List.getElem?_inj hlt hnodup).mp (hc.trans hd.symm)
      omega

/-- What a write in place leaves after `n` more bytes. -/
structure WriteTo (chain : List Nat) (bytes : Nat → UInt8) (s : Transfer) (n : Nat) (t : Transfer) :
    Prop where
  done : t.done = s.done + n
  file : ∃ c, t.file = { s.file with position := s.file.position + n, currentCluster := c,
                                     fileSize := max s.file.fileSize (s.file.position + n) }
  mount : t.fs.mount = s.fs.mount
  ready : t.fs.Ready
  buf : t.buf = s.buf
  taken : t.taken = s.taken
  stored : Stored t.fs chain (overlay bytes s.file.position s.buf s.done n)
    (max s.file.fileSize (s.file.position + n))

theorem WriteTo.trans {s t u : Transfer} {chain : List Nat} {bytes : Nat → UInt8} {n m : Nat}
    (h : WriteTo chain bytes s n t) (h' : WriteTo chain (overlay bytes s.file.position s.buf s.done n) t m u) :
    WriteTo chain bytes s (n + m) u := by
  obtain ⟨c, hfile⟩ := h.file
  obtain ⟨d, hfile'⟩ := h'.file
  have hposition : t.file.position = s.file.position + n := by rw [hfile]
  have hfileSize : t.file.fileSize = max s.file.fileSize (s.file.position + n) := by rw [hfile]
  have hstored := h'.stored
  rw [hposition, hfileSize, h.buf, h.done, overlay_add] at hstored
  have hsize : max (max s.file.fileSize (s.file.position + n)) (s.file.position + n + m)
      = max s.file.fileSize (s.file.position + (n + m)) := by omega
  rw [hsize] at hstored
  refine ⟨by rw [h'.done, h.done, Nat.add_assoc], ⟨d, ?_⟩, h'.mount.trans h.mount, h'.ready,
    h'.buf.trans h.buf, h'.taken.trans h.taken, hstored⟩
  rw [hfile', hposition, hfileSize, hsize, hfile, Nat.add_assoc]

namespace Transfer

variable {s : Transfer} {chain : List Nat} {bytes : Nat → UInt8} {len : Nat}

theorem writePass_inside (hv : OnVolume s.fs chain) (hst : Stored s.fs chain bytes s.file.fileSize)
    (hr : s.fs.Ready) (hd : s.done < len) (hp : s.file.position < s.file.fileSize) (hc : s.file.AtCursor chain)
    (hreach : (s.file.position + (len - s.done) - 1) / 512 ≤ (s.file.fileSize - 1) / 512) :
    ∃ go n t, s.writePass len = (go, t) ∧ 0 < n ∧ n ≤ len - s.done ∧ WriteTo chain bytes s n t ∧
      (s.done + n < len → go = true ∧ s.file.position + n < s.file.fileSize ∧ t.file.AtCursor chain) := by
  have hlength := hv.length_le
  have hfit := hst.1
  have hcl := hv.range _ (List.mem_of_getElem? hc)
  generalize hn : min (512 - s.file.position % 512) (len - s.done) = n
  have hmod : (s.file.position + n) % 2 ^ 32 = s.file.position + n := Nat.mod_eq_of_lt (by omega)
  have hroom : s.room = some s := by
    unfold room
    rw [if_neg (by omega)]
  obtain ⟨hready, hbytes⟩ := Fs.clusterWrite_spec hv.clusterSize hr hcl.2 s.buf s.done
    (Nat.mod_lt s.file.position (by decide)) (n := n) (by omega)
  have hstored := hst.write hv.nodup hc (by omega) (Nat.le_of_lt hp) (by omega) hbytes
  have hnext : (s.fs.clusterWrite s.file.currentCluster s.buf s.done
      (s.file.position % 512) n).mount.fatNextCluster s.file.currentCluster
      = (chain[s.file.position / 512 + 1]?).getD 0 := by
    rw [Fs.clusterWrite_mount]
    exact hv.next_eq hc
  have hmount := Fs.clusterWrite_mount s.fs s.file.currentCluster s.buf s.done
    (s.file.position % 512) n
  unfold writePass
  simp only [hroom, hv.clusterSize, hn, hmod, hnext]
  split
  · next hend =>
    by_cases hmore : s.done + n < len
    · -- the file goes on in the next cluster
      have hlt : s.file.position / 512 + 1 < chain.length := by omega
      have hget : chain[s.file.position / 512 + 1]? = some chain[s.file.position / 512 + 1] :=
        List.getElem?_eq_getElem hlt
      have hrange := hv.range _ (List.getElem_mem hlt)
      rw [hget, Option.getD_some, if_neg (by omega)]
      refine ⟨true, n, _, rfl, by omega, by omega,
        ⟨rfl, ⟨_, rfl⟩, hmount, hready, rfl, rfl, hstored⟩, fun _ => ⟨rfl, by omega, ?_⟩⟩
      show chain[(s.file.position + n) / 512]? = _
      rw [show (s.file.position + n) / 512 = s.file.position / 512 + 1 by omega]
      exact hget
    · split
      · exact ⟨false, n, _, rfl, by omega, by omega,
          ⟨rfl, ⟨_, rfl⟩, hmount, hready, rfl, rfl, hstored⟩, fun h => absurd h hmore⟩
      · exact ⟨true, n, _, rfl, by omega, by omega,
          ⟨rfl, ⟨_, rfl⟩, hmount, hready, rfl, rfl, hstored⟩, fun h => absurd h hmore⟩
  · exact ⟨true, n, _, rfl, by omega, by omega,
      ⟨rfl, ⟨_, rfl⟩, hmount, hready, rfl, rfl, hstored⟩, fun h => absurd h (by omega)⟩

theorem writeLoop_done (h : ¬ s.done < len) (fuel : Nat) : s.writeLoop len fuel = s := by
  cases fuel with
  | zero => rfl
  | succ fuel =>
    unfold writeLoop
    rw [if_neg h]

theorem writeLoop_inside : ∀ {fuel : Nat} {s : Transfer} {bytes : Nat → UInt8}, OnVolume s.fs chain →
    Stored s.fs chain bytes s.file.fileSize → s.fs.Ready → s.done < len → len - s.done ≤ fuel →
    s.file.position < s.file.fileSize → s.file.AtCursor chain →
    (s.file.position + (len - s.done) - 1) / 512 ≤ (s.file.fileSize - 1) / 512 →
    WriteTo chain bytes s (len - s.done) (s.writeLoop len fuel) := by
  intro fuel
  induction fuel with
  | zero => intro s _ _ _ _ hd hfuel; omega
  | succ fuel ih =>
    intro s bytes hv hst hr hd hfuel hp hc hreach
    obtain ⟨go, n, t, hpass, hpos, hnlen, hto, hgoes⟩ := writePass_inside hv hst hr hd hp hc hreach
    unfold writeLoop
    rw [if_pos hd, hpass]
    dsimp only
    by_cases hmore : s.done + n < len
    · obtain ⟨rfl, hbelow, hcursor⟩ := hgoes hmore
      obtain ⟨c, hfile⟩ := hto.file
      have hposition : t.file.position = s.file.position + n := by rw [hfile]
      have hfileSize : t.file.fileSize = max s.file.fileSize (s.file.position + n) := by rw [hfile]
      have hrest := ih (hv.of_mount hto.mount) (hfileSize ▸ hto.stored) hto.ready
        (by rw [hto.done]; exact hmore) (by rw [hto.done]; omega) (by omega) hcursor
        (by rw [hto.done, hposition, hfileSize]; omega)
      have hboth := hto.trans hrest
      rw [hto.done] at hboth
      rw [if_pos rfl]
      rwa [show n + (len - (s.done + n)) = len - s.done by omega] at hboth
    · obtain rfl : n = len - s.done := by omega
      split
      · rw [writeLoop_done (by rw [hto.done]; omega)]
        exact hto
      · exact hto

end Transfer

/-! ## Writing at the end -/

theorem Mount.fatWriteEntry_eq (m : Mount) (c v : Nat) :
    ∃ t, m.fatWriteEntry c v = { m with table := t } := by
  unfold fatWriteEntry
  split
  · exact ⟨m.table, rfl⟩
  · split
    · exact ⟨_, rfl⟩
    · exact ⟨m.table, rfl⟩

theorem Linked.append {m m' : Mount} {chain : List Nat} {c : Nat} (h : Linked m chain)
    (hnodup : chain.Nodup) (hw : m'.fatWidth = m.fatWidth)
    (hsame : ∀ d ∈ chain, d ≠ chain.getLastD 0 → m'.entry d = m.entry d)
    (hlast : chain ≠ [] → m'.entry (chain.getLastD 0) = c)
    (hc : fatIsEocValue m.fatWidth (m'.entry c) = true) : Linked m' (chain ++ [c]) := by
  have hgetLast : chain ≠ [] → chain[chain.length - 1]? = some (chain.getLastD 0) := fun hne => by
    rw [List.getLastD_eq_getLast?, List.getLast?_eq_getElem?]
    have hlt : chain.length - 1 < chain.length :=
      Nat.sub_lt (List.length_pos_iff.mpr hne) Nat.one_pos
    rw [List.getElem?_eq_getElem hlt, Option.getD_some]
  refine ⟨fun i a b ha hb => ?_, fun i a ha hi => ?_⟩
  · have hlt : i + 1 < (chain ++ [c]).length := (List.getElem?_eq_some_iff.mp hb).1
    rw [List.length_append, List.length_singleton] at hlt
    rw [List.getElem?_append_left (by omega)] at ha
    rcases Nat.lt_or_ge (i + 1) chain.length with hin | hend
    · rw [List.getElem?_append_left hin] at hb
      refine (hsame a (List.mem_of_getElem? ha) ?_).trans (h.link i a b ha hb)
      rintro rfl
      have hne : chain ≠ [] := List.ne_nil_of_mem (List.mem_of_getElem? ha)
      have hindex := (List.getElem?_inj (by omega) hnodup).mp (ha.trans (hgetLast hne).symm)
      omega
    · obtain hi : i = chain.length - 1 := by omega
      have hne : chain ≠ [] := List.ne_nil_of_mem (List.mem_of_getElem? ha)
      rw [List.getElem?_append_right hend, show i + 1 - chain.length = 0 by omega] at hb
      rw [hi, hgetLast hne] at ha
      rw [← Option.some.inj ha, hlast hne]
      exact Option.some.inj hb
  · rw [List.length_append, List.length_singleton] at hi
    rw [List.getElem?_append_right (by omega), show i - chain.length = 0 by omega] at ha
    rw [hw, ← Option.some.inj ha]
    exact hc

theorem Fs.fatAllocCluster_spec {fs : Fs}
    (h : ∃ c, 2 ≤ c ∧ c < fs.mount.totalClusters ∧ fs.mount.entry c = 0) :
    ∃ c, 2 ≤ c ∧ c < fs.mount.totalClusters ∧ fs.mount.entry c = 0 ∧
      fs.fatAllocCluster = (some c, ({ fs with mount := fs.mount.startChain c }.back c).2) := by
  obtain ⟨c, hc2, hc, hfree⟩ := h
  rcases hfind : (List.range fs.mount.totalClusters).find?
      (fun c => decide (2 ≤ c) && fs.mount.fatIsFree c) with _ | d
  · have hnone := List.find?_eq_none.mp hfind c (List.mem_range.mpr hc)
    simp [Mount.fatIsFree, hc2, hfree] at hnone
  · have hd := List.find?_some hfind
    simp only [Mount.fatIsFree, Bool.and_eq_true, decide_eq_true_eq] at hd
    refine ⟨d, hd.1, List.mem_range.mp (List.mem_of_find?_eq_some hfind), hd.2, ?_⟩
    unfold fatAllocCluster
    rw [hfind]

theorem Fs.back_spec {fs : Fs} (hr : fs.Ready) (c : Nat) :
    (fs.back c).2.Ready ∧ ∀ d o, d ≠ c → (fs.back c).2.byteAt d o = fs.byteAt d o := by
  unfold back
  split
  · refine ⟨fun n => hr (n + 1), fun d o hne => ?_⟩
    simp only [byteAt, Function.update_of_ne hne]
  · exact ⟨fun n => hr (n + 1), fun _ _ _ => rfl⟩

namespace OnVolume

variable {fs fs' : Fs} {chain : List Nat} {c : Nat}

theorem append (h : OnVolume fs chain) (hc : 2 ≤ c ∧ c < 1024) (hfree : c ∉ chain)
    (htable : fs'.mount.table.isSome = true)
    (hmount : ∃ t, fs'.mount = { fs.mount with table := t })
    (hlinked : Linked fs'.mount (chain ++ [c])) : OnVolume fs' (chain ++ [c]) := by
  obtain ⟨t, hmount⟩ := hmount
  have hfound := h.found
  refine ⟨?_, ?_, htable, ?_, ?_, fun d hd => ?_, ?_, hlinked⟩
  · rw [hmount]
    exact h.clusterSize
  · rw [hmount]
    exact h.total
  · rw [hmount]
    exact h.width
  · unfold Fs.findMount at hfound ⊢
    rw [hmount]
    exact hfound
  · rcases List.mem_append.mp hd with hd | hd
    · exact h.range d hd
    · exact List.mem_singleton.mp hd ▸ hc
  · rw [List.nodup_middle, List.append_nil]
    exact List.nodup_cons.mpr ⟨hfree, h.nodup⟩

end OnVolume

namespace Transfer

variable {s : Transfer} {chain : List Nat} {bytes : Nat → UInt8} {len : Nat}

theorem room_append (hv : OnVolume s.fs chain) (hr : s.fs.Ready)
    (hp : s.file.fileSize ≤ s.file.position) (hcur : s.file.currentCluster = chain.getLastD 0)
    (hfirst : s.file.firstCluster = chain.headD 0)
    (hfree : ∃ c, 2 ≤ c ∧ c < s.fs.mount.totalClusters ∧ s.fs.mount.entry c = 0) :
    ∃ c t, s.room = some t ∧ c ∉ chain ∧ OnVolume t.fs (chain ++ [c]) ∧ t.fs.Ready ∧
      (∀ d o, d ≠ c → t.fs.byteAt d o = s.fs.byteAt d o) ∧
      t.file = { s.file with firstCluster := (chain ++ [c]).headD 0, currentCluster := c } ∧
      t.buf = s.buf ∧ t.done = s.done ∧ t.taken = s.taken ++ [c] := by
  obtain ⟨c, hc2, hc, hentry, halloc⟩ := Fs.fatAllocCluster_spec hfree
  have hnot : c ∉ chain := fun hmem => hv.entry_ne_zero hmem hentry
  have hrange : 2 ≤ c ∧ c < 1024 := ⟨hc2, hv.total ▸ hc⟩
  have hwide := wide_is_chain hv.width
  have hr' : ({ s.fs with mount := s.fs.mount.startChain c } : Fs).Ready := hr
  obtain ⟨hready, hbytes⟩ := Fs.back_spec hr' c
  have hmount := Fs.back_mount { s.fs with mount := s.fs.mount.startChain c } c
  unfold room
  rw [if_pos (Or.inr hp), halloc]
  dsimp only
  rw [hmount]
  dsimp only
  rcases eq_or_ne chain [] with rfl | hne
  · -- the file's first cluster
    rw [if_pos (show s.file.firstCluster = 0 from hfirst)]
    refine ⟨c, _, rfl, hnot, hv.append hrange hnot ?_ ?_ ?_, hready, hbytes, rfl, rfl, rfl, rfl⟩
    · rw [hmount]
      exact Mount.startChain_isSome.trans hv.table
    · rw [hmount]
      exact Mount.fatWriteEntry_eq _ _ _
    · rw [hmount]
      refine hv.linked.append hv.nodup Mount.startChain_fatWidth
        (fun d hd => absurd hd List.not_mem_nil) (fun h => absurd rfl h) ?_
      show fatIsEocValue _ ((s.fs.mount.startChain c).entry c) = true
      rw [Mount.startChain, Mount.entry_write_self hv.table hc]
      exact (eoc_written hwide).1
  · -- linked after the last one
    obtain ⟨front, last, rfl⟩ : ∃ front last, chain = front ++ [last] :=
      ⟨chain.dropLast, chain.getLast hne, (List.dropLast_append_getLast _).symm⟩
    rw [List.getLastD_concat] at hcur
    have hlast := hv.range last (by simp)
    have hhead := hv.range ((front ++ [last]).headD 0) (by cases front <;> simp)
    have hlc : last ≠ c := fun heq => hnot (heq ▸ by simp)
    have hsame : (((s.fs.mount.startChain c).fatWriteEntry s.file.currentCluster c).fatWriteEntry c
        (linkEoc (s.fs.mount.startChain c).fatWidth)) = s.fs.mount.appendCluster last c := by
      rw [Mount.startChain_fatWidth, hcur]
      rfl
    rw [hsame, if_neg (by rw [hfirst]; omega)]
    refine ⟨c, _, rfl, hnot, hv.append hrange hnot ?_ ?_ ?_, hready, hbytes, ?_, rfl, rfl, rfl⟩
    · exact Mount.appendCluster_isSome.trans hv.table
    · obtain ⟨t₁, h₁⟩ := s.fs.mount.fatWriteEntry_eq c (allocEoc s.fs.mount.fatWidth)
      obtain ⟨t₂, h₂⟩ := (s.fs.mount.startChain c).fatWriteEntry_eq last c
      obtain ⟨t₃, h₃⟩ := ((s.fs.mount.startChain c).fatWriteEntry last c).fatWriteEntry_eq c
        (linkEoc s.fs.mount.fatWidth)
      refine ⟨t₃, ?_⟩
      show s.fs.mount.appendCluster last c = _
      rw [Mount.appendCluster, h₃, h₂, Mount.startChain, h₁]
    · refine hv.linked.append hv.nodup Mount.appendCluster_fatWidth (fun d hd hd' => ?_)
        (fun _ => ?_) ?_
      · rw [List.getLastD_concat] at hd'
        exact Mount.entry_appendCluster (fun heq => hnot (heq ▸ hd)) hd'
      · rw [List.getLastD_concat]
        exact Mount.entry_appendCluster_last hv.table (by have := hv.total; omega) hlc
      · show fatIsEocValue _ ((s.fs.mount.appendCluster last c).entry c) = true
        rw [Mount.appendCluster, Mount.entry_write_self]
        · exact (eoc_written hwide).2.1
        · rw [Mount.fatWriteEntry_isSome, Mount.startChain_isSome, hv.table]
        · rw [Mount.fatWriteEntry_totalClusters, Mount.startChain_totalClusters]
          exact hc
    · rw [hfirst]
      cases front <;> rfl

/-- What a write at the end leaves, when it took the cluster `c`. -/
structure AppendTo (chain : List Nat) (bytes : Nat → UInt8) (s : Transfer) (len c : Nat) (t : Transfer) :
    Prop where
  done : t.done = len
  file : t.file = { s.file with firstCluster := (chain ++ [c]).headD 0, currentCluster := c,
                                position := s.file.position + (len - s.done),
                                fileSize := s.file.position + (len - s.done) }
  volume : OnVolume t.fs (chain ++ [c])
  ready : t.fs.Ready
  taken : t.taken = s.taken ++ [c]
  stored : Stored t.fs (chain ++ [c]) (overlay bytes s.file.position s.buf s.done (len - s.done))
    (s.file.position + (len - s.done))

theorem writePass_append (hv : OnVolume s.fs chain) (hst : Stored s.fs chain bytes s.file.fileSize)
    (hr : s.fs.Ready) (hd : s.done < len) (hfits : len - s.done ≤ 512)
    (hp : s.file.position = s.file.fileSize) (hfull : s.file.fileSize = 512 * chain.length)
    (hcur : s.file.currentCluster = chain.getLastD 0) (hfirst : s.file.firstCluster = chain.headD 0)
    (hfree : ∃ c, 2 ≤ c ∧ c < s.fs.mount.totalClusters ∧ s.fs.mount.entry c = 0) :
    ∃ go c t, s.writePass len = (go, t) ∧ AppendTo chain bytes s len c t := by
  obtain ⟨c, t, hroom, hnot, hv', hr', hbytes, hfile, hbuf, hdone, htaken⟩ :=
    room_append hv hr (by omega) hcur hfirst hfree
  have hlength := hv'.length_le
  rw [List.length_append, List.length_singleton] at hlength
  have hindex : (chain ++ [c])[s.file.position / 512]? = some c := by
    rw [hp, hfull, Nat.mul_div_cancel_left _ (by decide : 0 < 512)]
    simp
  have hcl := hv'.range c (by simp)
  have hoffset : s.file.position % 512 = 0 := by omega
  have hn : min (512 - s.file.position % 512) (len - s.done) = len - s.done := by omega
  have hmod : (s.file.position + (len - s.done)) % 2 ^ 32 = s.file.position + (len - s.done) :=
    Nat.mod_eq_of_lt (by omega)
  -- the new cluster does not touch the bytes there were
  have hbase : Stored t.fs (chain ++ [c]) bytes s.file.position := by
    refine ⟨by rw [List.length_append, List.length_singleton]; omega, fun p d hpos hd => ?_⟩
    rw [List.getElem?_append_left (by omega)] at hd
    rw [hbytes d _ fun heq => hnot (heq ▸ List.mem_of_getElem? hd)]
    exact hst.2 p d (by omega) hd
  obtain ⟨hready, hwrite⟩ := Fs.clusterWrite_spec hv'.clusterSize hr' hcl.2 s.buf s.done
    (Nat.mod_lt s.file.position (by decide)) (n := len - s.done) (by omega)
  have hstored := hbase.write hv'.nodup hindex (by omega) (Nat.le_refl _) (by omega) hwrite
  rw [Nat.max_eq_right (Nat.le_add_right _ _)] at hstored
  have hmount := Fs.clusterWrite_mount t.fs c s.buf s.done (s.file.position % 512) (len - s.done)
  have hnext : (t.fs.clusterWrite c s.buf s.done (s.file.position % 512)
      (len - s.done)).mount.fatNextCluster c = 0 := by
    rw [hmount, hv'.next_eq hindex, hp, hfull, Nat.mul_div_cancel_left _ (by decide : 0 < 512)]
    simp
  have hmax : max s.file.fileSize (s.file.position + (len - s.done))
      = s.file.position + (len - s.done) := by omega
  unfold writePass
  simp only [hroom, hv.clusterSize, hn, hfile, hbuf, hdone, hmod, hnext, hmax, if_true]
  have hto : ∀ u : Transfer, u.fs = t.fs.clusterWrite c s.buf s.done (s.file.position % 512)
      (len - s.done) → u.done = s.done + (len - s.done) → u.taken = t.taken →
      u.file = { s.file with firstCluster := (chain ++ [c]).headD 0, currentCluster := c,
                             position := s.file.position + (len - s.done),
                             fileSize := s.file.position + (len - s.done) } →
      AppendTo chain bytes s len c u := fun u hfs hdone' htaken' hfile' => by
    refine ⟨by omega, hfile', ?_, ?_, htaken'.trans htaken, ?_⟩
    · rw [hfs]
      exact hv'.of_mount hmount
    · rw [hfs]
      exact hready
    · rw [hfs]
      exact hstored
  split
  · exact ⟨false, c, _, rfl, hto _ rfl rfl rfl rfl⟩
  · exact ⟨true, c, _, rfl, hto _ rfl rfl rfl rfl⟩

theorem writeLoop_append (hv : OnVolume s.fs chain) (hst : Stored s.fs chain bytes s.file.fileSize)
    (hr : s.fs.Ready) (hd : s.done < len) (hfits : len - s.done ≤ 512)
    (hp : s.file.position = s.file.fileSize) (hfull : s.file.fileSize = 512 * chain.length)
    (hcur : s.file.currentCluster = chain.getLastD 0) (hfirst : s.file.firstCluster = chain.headD 0)
    (hfree : ∃ c, 2 ≤ c ∧ c < s.fs.mount.totalClusters ∧ s.fs.mount.entry c = 0) (fuel : Nat) :
    ∃ c, AppendTo chain bytes s len c (s.writeLoop len (fuel + 1)) := by
  obtain ⟨go, c, t, hpass, hto⟩ := writePass_append hv hst hr hd hfits hp hfull hcur hfirst hfree
  refine ⟨c, ?_⟩
  unfold writeLoop
  rw [if_pos hd, hpass]
  dsimp only
  split
  · rw [writeLoop_done (by rw [hto.done]; exact Nat.lt_irrefl len)]
    exact hto
  · exact hto

end Transfer

end Chicago95.Stage2
