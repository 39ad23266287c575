/-
# Chicago95.Stage2.DirWalks — the walks of `brainfs_dir_find` and `brainfs_dir_read` over any table.

Both go from cluster to cluster of a directory until the entries end it or the table gives cluster 0. What
they come to on a walk that ends in the range of the volume are the entries in use of the directory
(`Lists`): the one finds the first of its name, the other copies as many as there is room for
(`Lists.dirFind`, `Lists.dirRead`).
-/
import Chicago95.Stage2.Mounts

namespace Chicago95.Stage2

/-! ## The code -/

/-- The loop of `brainfs_dir_read` over the entries of a cluster: whether the directory has ended, and what
has been copied. -/
def copyEntries (maxEntries : Nat) : List DirEntry → List DirEntry → Bool × List DirEntry
  | out, [] => (false, out)
  | out, e :: rest =>
    if out.length < maxEntries then
      if e.first = 0 then (true, out)
      else if e.first = 0xE5 then copyEntries maxEntries out rest
      else copyEntries maxEntries (out ++ [e]) rest
    else (false, out)

namespace Fs

section

variable (stack : Nat → UInt8)

/-- The entries in `cluster_buf` once the cluster has been read into it. -/
def dirEntries (fs : Fs) (cluster : Nat) : List DirEntry :=
  (List.range fs.mount.entriesPerCluster).map
    (entryAt (fs.clusterRead cluster stack 0 0 brainfsClusterSize).1)

/-- What reading the cluster leaves. -/
def afterRead (fs : Fs) (cluster : Nat) : Fs := (fs.clusterRead cluster stack 0 0 brainfsClusterSize).2

/-- The loop of `brainfs_dir_read` from a cluster on, for at most `fuel` clusters. -/
def dirReadLoop (maxEntries : Nat) : Nat → Fs → Nat → List DirEntry → Option (List DirEntry × Fs)
  | 0, _, _, _ => none
  | fuel + 1, fs, cluster, out =>
    if cluster ≠ 0 ∧ out.length < maxEntries then
      let fs' := fs.afterRead stack cluster
      match copyEntries maxEntries out (fs.dirEntries stack cluster) with
      | (true, out) => some (out, fs')
      | (false, out) => dirReadLoop maxEntries fuel fs' (fs'.mount.fatNextCluster cluster) out
    else some (out, fs)

/-- `brainfs_dir_read`: the entries it copies, and what it leaves; `none` where it has not returned. -/
def dirRead (fuel : Nat) (fs : Fs) (dirCluster maxEntries : Nat) : Option (List DirEntry × Fs) :=
  dirReadLoop stack maxEntries fuel fs dirCluster []

/-- The clusters that the loop of `brainfs_dir_find` hands to `brainfs_cluster_read`. -/
def dirFindReads (shortName : List UInt8) : Nat → Fs → Nat → List Nat
  | 0, _, _ => []
  | fuel + 1, fs, cluster =>
    if cluster = 0 then []
    else
      let fs' := fs.afterRead stack cluster
      cluster :: match scan shortName (fs.dirEntries stack cluster) with
        | some _ => []
        | none => dirFindReads shortName fuel fs' (fs'.mount.fatNextCluster cluster)

/-- The clusters that the loop of `brainfs_dir_read` hands to `brainfs_cluster_read`. -/
def dirReadReads (maxEntries : Nat) : Nat → Fs → Nat → List DirEntry → List Nat
  | 0, _, _, _ => []
  | fuel + 1, fs, cluster, out =>
    if cluster ≠ 0 ∧ out.length < maxEntries then
      let fs' := fs.afterRead stack cluster
      cluster :: match copyEntries maxEntries out (fs.dirEntries stack cluster) with
        | (true, _) => []
        | (false, out) => dirReadReads maxEntries fuel fs' (fs'.mount.fatNextCluster cluster) out
    else []

end

end Fs

/-! ## A cluster's entries -/

/-- An entry that ends the directory is among them. -/
def Marked (es : List DirEntry) : Prop := ∃ e ∈ es, e.first = 0

theorem not_marked_cons {e : DirEntry} {es : List DirEntry} : ¬ Marked (e :: es) ↔ e.first ≠ 0 ∧ ¬ Marked es := by
  unfold Marked
  simp only [List.exists_mem_cons_iff, not_or, ne_eq]

theorem live_cons_zero {e : DirEntry} (h : e.first = 0) (es : List DirEntry) : live (e :: es) = [] := by
  unfold live
  rw [List.takeWhile_cons_of_neg (by simpa using h)]
  rfl

theorem live_cons_skip {e : DirEntry} (h : e.first = 0xE5) (es : List DirEntry) : live (e :: es) = live es := by
  unfold live
  rw [List.takeWhile_cons_of_pos (by simp [h]), List.filter_cons_of_neg (by simpa using h)]

theorem live_cons {e : DirEntry} (h : e.first ≠ 0) (hskip : e.first ≠ 0xE5) (es : List DirEntry) :
    live (e :: es) = e :: live es := by
  unfold live
  rw [List.takeWhile_cons_of_pos (by simpa using h), List.filter_cons_of_pos (by simpa using hskip)]

theorem scan_eq_none_iff (shortName : List UInt8) (es : List DirEntry) :
    scan shortName es = none ↔ ¬ Marked es ∧ (live es).find? (fun e => decide (e.name = shortName)) = none := by
  induction es with
  | nil => simp [scan, Marked, live]
  | cons e rest ih =>
    rw [scan, not_marked_cons]
    by_cases hend : e.first = 0
    · simp [hend]
    · by_cases hskip : e.first = 0xE5
      · rw [if_neg hend, if_pos hskip, ih, live_cons_skip hskip]
        simp [hend]
      · rw [if_neg hend, if_neg hskip, live_cons hend hskip, List.find?_cons]
        by_cases hname : e.name = shortName
        · simp [hname]
        · simp [hname, hend, ih]

theorem take_take_append {α : Type*} (n : Nat) (a b : List α) : (a.take n ++ b).take n = (a ++ b).take n := by
  rcases Nat.le_total n a.length with h | h
  · rw [List.take_append_of_le_length (by rw [List.length_take]; omega), List.take_take, Nat.min_self,
      List.take_append_of_le_length h]
  · rw [List.take_of_length_le h]

theorem copyEntries_eq (maxEntries : Nat) (es : List DirEntry) : ∀ {out : List DirEntry}, out.length ≤ maxEntries →
      (copyEntries maxEntries out es).2 = (out ++ live es).take maxEntries ∧
        ((copyEntries maxEntries out es).1 = true ↔ Marked es ∧ (out ++ live es).length < maxEntries) := by
  induction es with
  | nil =>
    intro out hout
    refine ⟨?_, by simp [copyEntries, Marked]⟩
    show out = (out ++ []).take maxEntries
    rw [List.append_nil, List.take_of_length_le hout]
  | cons e rest ih =>
    intro out hout
    rw [copyEntries]
    by_cases hroom : out.length < maxEntries
    · rw [if_pos hroom]
      by_cases hend : e.first = 0
      · rw [if_pos hend, live_cons_zero hend, List.append_nil, List.take_of_length_le hout]
        exact ⟨rfl, fun _ => ⟨⟨e, List.mem_cons_self, hend⟩, hroom⟩, fun _ => rfl⟩
      · have hmarked : Marked (e :: rest) ↔ Marked rest := by
          rw [← not_iff_not, not_marked_cons]
          simp [hend]
        rw [if_neg hend, hmarked]
        by_cases hskip : e.first = 0xE5
        · rw [if_pos hskip, live_cons_skip hskip]
          exact ih hout
        · have hsplit : out ++ e :: live rest = (out ++ [e]) ++ live rest := by simp
          rw [if_neg hskip, live_cons hend hskip, hsplit]
          exact ih (by simpa [Nat.succ_le_iff] using hroom)
    · have hfull : out.length = maxEntries := by omega
      rw [if_neg hroom, List.take_append_of_le_length (by omega), List.take_of_length_le hout]
      refine ⟨rfl, fun h => absurd h Bool.false_ne_true, fun h => absurd h.2 ?_⟩
      rw [List.length_append]
      omega

/-! ## Walks that end in range -/

/-- **A chain that ends**: its clusters are clusters of the volume, and the last leads to cluster 0. -/
inductive ChainEnds (m : Mount) : Nat → Prop
  | zero : ChainEnds m 0
  | next {c : Nat} : 2 ≤ c → c < m.totalClusters → ChainEnds m (m.fatNextCluster c) → ChainEnds m c

/-- The walk from a cluster comes to an end in range, at an entry that ends the directory or at cluster 0, and
the entries in use up to there are these. -/
inductive Lists (stack : Nat → UInt8) : Fs → Nat → List DirEntry → Prop
  | zero {fs : Fs} : Lists stack fs 0 []
  | last {fs : Fs} {c : Nat} : 2 ≤ c → c < fs.mount.totalClusters → Marked (fs.dirEntries stack c) →
      Lists stack fs c (live (fs.dirEntries stack c))
  | more {fs : Fs} {c : Nat} {l : List DirEntry} : 2 ≤ c → c < fs.mount.totalClusters →
      ¬ Marked (fs.dirEntries stack c) → Lists stack (fs.afterRead stack c) (fs.mount.fatNextCluster c) l →
      Lists stack fs c (live (fs.dirEntries stack c) ++ l)

@[simp] theorem Fs.afterRead_mount (stack : Nat → UInt8) (fs : Fs) (c : Nat) :
    (fs.afterRead stack c).mount = fs.mount := fs.clusterRead_mount c stack 0 0 brainfsClusterSize

theorem ChainEnds.lists {m : Mount} {c : Nat} (h : ChainEnds m c) (stack : Nat → UInt8) :
    ∀ {fs : Fs}, fs.mount = m → ∃ l, Lists stack fs c l := by
  induction h with
  | zero => exact fun _ => ⟨[], .zero⟩
  | @next c hlo hhi _ ih =>
    intro fs hm
    subst hm
    by_cases hmark : Marked (fs.dirEntries stack c)
    · exact ⟨_, .last hlo hhi hmark⟩
    · obtain ⟨l, hl⟩ := ih (fs.afterRead_mount stack c)
      exact ⟨_, .more hlo hhi hmark hl⟩

theorem ChainEnds.ne_self {m : Mount} {c : Nat} (h : ChainEnds m c) (hc : c ≠ 0) : m.fatNextCluster c ≠ c := by
  induction h with
  | zero => exact absurd rfl hc
  | @next c hlo hhi _ ih =>
    intro hself
    rw [hself] at ih
    exact ih hc hself

/-! ## One cluster of a walk -/

namespace Fs

variable {stack : Nat → UInt8} {fs : Fs} {c : Nat} {shortName : List UInt8} {found : Option DirEntry}
  {maxEntries : Nat} {out out' : List DirEntry}

theorem dirFindLoop_some (hc : c ≠ 0) (h : scan shortName (fs.dirEntries stack c) = some found) (fuel : Nat) :
    dirFindLoop stack shortName (fuel + 1) fs c = some (found, fs.afterRead stack c) ∧
      dirFindReads stack shortName (fuel + 1) fs c = [c] := by
  constructor
  · rw [dirFindLoop, if_neg hc]
    change (match scan shortName (fs.dirEntries stack c) with
      | some found => some (found, fs.afterRead stack c)
      | none => dirFindLoop stack shortName fuel (fs.afterRead stack c) _) = _
    rw [h]
  · rw [dirFindReads, if_neg hc, h]

theorem dirFindLoop_none (hc : c ≠ 0) (h : scan shortName (fs.dirEntries stack c) = none) (fuel : Nat) :
    dirFindLoop stack shortName (fuel + 1) fs c =
        dirFindLoop stack shortName fuel (fs.afterRead stack c) (fs.mount.fatNextCluster c) ∧
      dirFindReads stack shortName (fuel + 1) fs c =
        c :: dirFindReads stack shortName fuel (fs.afterRead stack c) (fs.mount.fatNextCluster c) := by
  constructor
  · rw [dirFindLoop, if_neg hc]
    change (match scan shortName (fs.dirEntries stack c) with
      | some found => some (found, fs.afterRead stack c)
      | none => dirFindLoop stack shortName fuel (fs.afterRead stack c)
          ((fs.afterRead stack c).mount.fatNextCluster c)) = _
    rw [h, afterRead_mount]
  · rw [dirFindReads, if_neg hc, h]
    dsimp only
    rw [afterRead_mount]

theorem dirReadLoop_true (hc : c ≠ 0) (hroom : out.length < maxEntries)
    (h : copyEntries maxEntries out (fs.dirEntries stack c) = (true, out')) (fuel : Nat) :
    dirReadLoop stack maxEntries (fuel + 1) fs c out = some (out', fs.afterRead stack c) ∧
      dirReadReads stack maxEntries (fuel + 1) fs c out = [c] := by
  constructor
  · rw [dirReadLoop, if_pos ⟨hc, hroom⟩, h]
  · rw [dirReadReads, if_pos ⟨hc, hroom⟩, h]

theorem dirReadLoop_false (hc : c ≠ 0) (hroom : out.length < maxEntries)
    (h : copyEntries maxEntries out (fs.dirEntries stack c) = (false, out')) (fuel : Nat) :
    dirReadLoop stack maxEntries (fuel + 1) fs c out =
        dirReadLoop stack maxEntries fuel (fs.afterRead stack c) (fs.mount.fatNextCluster c) out' ∧
      dirReadReads stack maxEntries (fuel + 1) fs c out =
        c :: dirReadReads stack maxEntries fuel (fs.afterRead stack c) (fs.mount.fatNextCluster c) out' := by
  constructor
  · rw [dirReadLoop, if_pos ⟨hc, hroom⟩, h]
    dsimp only
    rw [afterRead_mount]
  · rw [dirReadReads, if_pos ⟨hc, hroom⟩, h]
    dsimp only
    rw [afterRead_mount]

theorem dirReadLoop_stop (stack : Nat → UInt8) (fs : Fs) {c maxEntries : Nat} (out : List DirEntry)
    (h : c = 0 ∨ maxEntries ≤ out.length) (fuel : Nat) :
    dirReadLoop stack maxEntries (fuel + 1) fs c out = some (out, fs) ∧
      dirReadReads stack maxEntries (fuel + 1) fs c out = [] := by
  have hstop : ¬ (c ≠ 0 ∧ out.length < maxEntries) := by omega
  constructor
  · rw [dirReadLoop, if_neg hstop]
  · rw [dirReadReads, if_neg hstop]

end Fs

/-! ## What the walks come to -/

/-- A cluster of the volume. -/
def InRange (m : Mount) (c : Nat) : Prop := 2 ≤ c ∧ c < m.totalClusters

namespace Lists

variable {stack : Nat → UInt8} {fs : Fs} {c : Nat} {l : List DirEntry}

theorem dirFind (h : Lists stack fs c l) (shortName : List UInt8) :
    ∃ fuel fs', Fs.dirFindLoop stack shortName fuel fs c = some (l.find? fun e => decide (e.name = shortName), fs') ∧
      ∀ d ∈ Fs.dirFindReads stack shortName fuel fs c, InRange fs.mount d := by
  induction h with
  | @zero fs =>
    refine ⟨1, fs, rfl, fun d hd => ?_⟩
    rw [Fs.dirFindReads, if_pos rfl] at hd
    exact absurd hd List.not_mem_nil
  | @last fs c hlo hhi hmark =>
    have hscan := scan_getD shortName (fs.dirEntries stack c)
    cases hs : scan shortName (fs.dirEntries stack c) with
    | none => exact absurd hmark ((scan_eq_none_iff _ _).mp hs).1
    | some found =>
      obtain ⟨hrun, hlog⟩ := Fs.dirFindLoop_some (by omega) hs 0
      rw [hs, Option.getD_some] at hscan
      refine ⟨1, fs.afterRead stack c, by rw [← hscan]; exact hrun, fun d hd => ?_⟩
      rw [hlog, List.mem_singleton] at hd
      exact hd ▸ ⟨hlo, hhi⟩
  | @more fs c l hlo hhi hmark _ ih =>
    have hscan := scan_getD shortName (fs.dirEntries stack c)
    rw [List.find?_append, ← hscan]
    cases hs : scan shortName (fs.dirEntries stack c) with
    | some found =>
      obtain ⟨hrun, hlog⟩ := Fs.dirFindLoop_some (by omega) hs 0
      cases found with
      | some e =>
        refine ⟨1, fs.afterRead stack c, hrun, fun d hd => ?_⟩
        rw [hlog, List.mem_singleton] at hd
        exact hd ▸ ⟨hlo, hhi⟩
      | none =>
        -- no entry ends the directory here, so that an answer is an entry
        rw [hs, Option.getD_some] at hscan
        have := (scan_eq_none_iff shortName _).mpr ⟨hmark, hscan.symm⟩
        rw [hs] at this
        cases this
    | none =>
      obtain ⟨fuel, fs', hrun, hreads⟩ := ih
      obtain ⟨hstep, hlog⟩ := Fs.dirFindLoop_none (by omega) hs fuel
      refine ⟨fuel + 1, fs', hstep.trans hrun, fun d hd => ?_⟩
      rw [hlog] at hd
      rcases List.mem_cons.mp hd with rfl | hd
      · exact ⟨hlo, hhi⟩
      · have := hreads d hd
        rwa [fs.afterRead_mount] at this

theorem of_dirFind {shortName : List UInt8} : ∀ {fuel : Nat} {fs fs' : Fs} {c : Nat},
    Fs.dirFindLoop stack shortName fuel fs c = some (none, fs') →
      (∀ d ∈ Fs.dirFindReads stack shortName fuel fs c, InRange fs.mount d) →
      ∃ l, Lists stack fs c l ∧ ∀ e ∈ l, e.name ≠ shortName := by
  intro fuel
  induction fuel with
  | zero => intro fs fs' c h; cases h
  | succ fuel ih =>
    intro fs fs' c h hreads
    by_cases hc : c = 0
    · subst hc
      exact ⟨[], .zero, by simp⟩
    have hscan := scan_getD shortName (fs.dirEntries stack c)
    cases hs : scan shortName (fs.dirEntries stack c) with
    | some found =>
      obtain ⟨hrun, hlog⟩ := Fs.dirFindLoop_some hc hs fuel
      rw [hrun, Option.some.injEq, Prod.mk.injEq] at h
      rw [hlog] at hreads
      rw [hs, h.1, Option.getD_some, eq_comm, List.find?_eq_none] at hscan
      have hmark : Marked (fs.dirEntries stack c) := by
        by_contra hmark
        have := (scan_eq_none_iff shortName _).mpr ⟨hmark, List.find?_eq_none.mpr hscan⟩
        rw [hs] at this
        cases this
      have hrange := hreads c (List.mem_singleton_self c)
      exact ⟨_, .last hrange.1 hrange.2 hmark, fun e he => by simpa using hscan e he⟩
    | none =>
      obtain ⟨hstep, hlog⟩ := Fs.dirFindLoop_none hc hs fuel
      obtain ⟨hmark, hnone⟩ := (scan_eq_none_iff _ _).mp hs
      rw [List.find?_eq_none] at hnone
      rw [hlog] at hreads
      obtain ⟨l, hl, hname⟩ := ih (hstep ▸ h) fun d hd => by
        rw [fs.afterRead_mount]
        exact hreads d (List.mem_cons_of_mem _ hd)
      have hrange := hreads c List.mem_cons_self
      refine ⟨_, .more hrange.1 hrange.2 hmark hl, fun e he => ?_⟩
      rcases List.mem_append.mp he with he | he
      · simpa using hnone e he
      · exact hname e he

theorem dirRead_full (stack : Nat → UInt8) {maxEntries : Nat} {out : List DirEntry}
    (hout : out.length = maxEntries) (fs : Fs) (c : Nat) (l : List DirEntry) :
    Fs.dirReadLoop stack maxEntries 1 fs c out = some ((out ++ l).take maxEntries, fs) ∧
      Fs.dirReadReads stack maxEntries 1 fs c out = [] := by
  obtain ⟨hrun, hlog⟩ := Fs.dirReadLoop_stop stack fs out
    (show c = 0 ∨ maxEntries ≤ out.length from Or.inr (Nat.le_of_eq hout.symm)) 0
  refine ⟨?_, hlog⟩
  rw [List.take_append_of_le_length (Nat.le_of_eq hout.symm), List.take_of_length_le (Nat.le_of_eq hout)]
  exact hrun

theorem dirRead (h : Lists stack fs c l) (maxEntries : Nat) : ∀ {out : List DirEntry}, out.length ≤ maxEntries →
      ∃ fuel fs', Fs.dirReadLoop stack maxEntries fuel fs c out = some ((out ++ l).take maxEntries, fs') ∧
        ∀ d ∈ Fs.dirReadReads stack maxEntries fuel fs c out, InRange fs.mount d := by
  induction h with
  | @zero fs =>
    intro out hout
    obtain ⟨hrun, hlog⟩ := Fs.dirReadLoop_stop stack fs out
      (show 0 = 0 ∨ maxEntries ≤ out.length from Or.inl rfl) 0
    refine ⟨1, fs, ?_, by rw [hlog]; simp⟩
    rw [List.append_nil, List.take_of_length_le hout]
    exact hrun
  | @last fs c hlo hhi hmark =>
    intro out hout
    by_cases hfull : out.length = maxEntries
    · obtain ⟨hrun, hlog⟩ := dirRead_full stack hfull fs c (live (fs.dirEntries stack c))
      exact ⟨1, fs, hrun, by rw [hlog]; simp⟩
    obtain ⟨hcopied, hended⟩ := copyEntries_eq maxEntries (fs.dirEntries stack c) hout
    rcases hcopy : copyEntries maxEntries out (fs.dirEntries stack c) with ⟨ended, out'⟩
    rw [hcopy] at hcopied hended
    dsimp only at hcopied hended
    cases ended with
    | true =>
      obtain ⟨hrun, hlog⟩ := Fs.dirReadLoop_true (by omega) (by omega) hcopy 0
      refine ⟨1, _, hcopied ▸ hrun, fun d hd => ?_⟩
      rw [hlog, List.mem_singleton] at hd
      exact hd ▸ ⟨hlo, hhi⟩
    | false =>
      -- there is no room left where the directory ends
      have hlen : out'.length = maxEntries := by
        have hroom : ¬ (out ++ live (fs.dirEntries stack c)).length < maxEntries := fun hlt =>
          Bool.false_ne_true (hended.mpr ⟨hmark, hlt⟩)
        rw [hcopied, List.length_take]
        omega
      obtain ⟨hrun, hlog⟩ := Fs.dirReadLoop_false (by omega) (by omega) hcopy 1
      obtain ⟨hrun', hlog'⟩ := dirRead_full stack hlen (fs.afterRead stack c)
        (fs.mount.fatNextCluster c) []
      rw [List.append_nil, List.take_of_length_le (Nat.le_of_eq hlen)] at hrun'
      refine ⟨2, _, by rw [hrun, hrun', hcopied], fun d hd => ?_⟩
      rw [hlog, hlog', List.mem_singleton] at hd
      exact hd ▸ ⟨hlo, hhi⟩
  | @more fs c l hlo hhi hmark _ ih =>
    intro out hout
    by_cases hfull : out.length = maxEntries
    · obtain ⟨hrun, hlog⟩ := dirRead_full stack hfull fs c (live (fs.dirEntries stack c) ++ l)
      exact ⟨1, fs, hrun, by rw [hlog]; simp⟩
    obtain ⟨hcopied, hended⟩ := copyEntries_eq maxEntries (fs.dirEntries stack c) hout
    rcases hcopy : copyEntries maxEntries out (fs.dirEntries stack c) with ⟨ended, out'⟩
    rw [hcopy] at hcopied hended
    dsimp only at hcopied hended
    cases ended with
    | true => exact absurd (hended.mp rfl).1 hmark
    | false =>
      have hlen : out'.length ≤ maxEntries := by
        rw [hcopied, List.length_take]
        exact Nat.min_le_left _ _
      obtain ⟨fuel, fs', hrun, hreads⟩ := ih hlen
      obtain ⟨hstep, hlog⟩ := Fs.dirReadLoop_false (by omega) (by omega) hcopy fuel
      have htake : (out' ++ l).take maxEntries =
          (out ++ (live (fs.dirEntries stack c) ++ l)).take maxEntries := by
        rw [hcopied, ← List.append_assoc, take_take_append]
      refine ⟨fuel + 1, fs', hstep.trans (htake ▸ hrun), fun d hd => ?_⟩
      rw [hlog] at hd
      rcases List.mem_cons.mp hd with rfl | hd
      · exact ⟨hlo, hhi⟩
      · have := hreads d hd
        rwa [fs.afterRead_mount] at this

theorem of_dirRead {maxEntries : Nat} : ∀ {fuel : Nat} {fs fs' : Fs} {c : Nat} {out out' : List DirEntry},
    Fs.dirReadLoop stack maxEntries fuel fs c out = some (out', fs') → out'.length < maxEntries →
      out.length ≤ maxEntries → (∀ d ∈ Fs.dirReadReads stack maxEntries fuel fs c out, InRange fs.mount d) →
        ∃ l, Lists stack fs c l ∧ out' = out ++ l := by
  intro fuel
  induction fuel with
  | zero => intro fs fs' c out out' h; cases h
  | succ fuel ih =>
    intro fs fs' c out out' h hshort hout hreads
    by_cases hstop : c = 0 ∨ maxEntries ≤ out.length
    · obtain ⟨hrun, -⟩ := Fs.dirReadLoop_stop stack fs out hstop fuel
      rw [hrun, Option.some.injEq, Prod.mk.injEq] at h
      obtain ⟨rfl, -⟩ := h
      rcases hstop with rfl | hfull
      · exact ⟨[], .zero, (List.append_nil _).symm⟩
      · omega
    rw [not_or, Nat.not_le] at hstop
    obtain ⟨hcopied, hended⟩ := copyEntries_eq maxEntries (fs.dirEntries stack c) hout
    rcases hcopy : copyEntries maxEntries out (fs.dirEntries stack c) with ⟨ended, copied⟩
    rw [hcopy] at hcopied hended
    dsimp only at hcopied hended
    cases ended with
    | true =>
      obtain ⟨hmark, hroom⟩ := hended.mp rfl
      obtain ⟨hrun, hlog⟩ := Fs.dirReadLoop_true hstop.1 hstop.2 hcopy fuel
      rw [hrun, Option.some.injEq, Prod.mk.injEq] at h
      have hrange := hreads c (by rw [hlog]; exact List.mem_singleton_self c)
      refine ⟨_, .last hrange.1 hrange.2 hmark, ?_⟩
      rw [← h.1, hcopied, List.take_of_length_le (Nat.le_of_lt hroom)]
    | false =>
      obtain ⟨hstep, hlog⟩ := Fs.dirReadLoop_false hstop.1 hstop.2 hcopy fuel
      rw [hlog] at hreads
      obtain ⟨l, hl, rfl⟩ := ih (hstep ▸ h) hshort
        (by rw [hcopied, List.length_take]; exact Nat.min_le_left _ _)
        (fun d hd => by
          rw [fs.afterRead_mount]
          exact hreads d (List.mem_cons_of_mem _ hd))
      -- what has room left has not been cut
      have hroom : (out ++ live (fs.dirEntries stack c)).length < maxEntries := by
        by_contra hge
        rw [hcopied, List.length_append, List.length_take] at hshort
        omega
      have hrange := hreads c List.mem_cons_self
      have hmark : ¬ Marked (fs.dirEntries stack c) := fun hmark =>
        Bool.false_ne_true (hended.mpr ⟨hmark, hroom⟩)
      refine ⟨_, .more hrange.1 hrange.2 hmark hl, ?_⟩
      rw [hcopied, List.take_of_length_le (Nat.le_of_lt hroom), List.append_assoc]

end Lists

/-! ## Safe walks -/

/-- `brainfs_dir_find` returns, hands clusters of the volume to `brainfs_cluster_read`, and finds nothing in a
chain that does not end. -/
def DirFindSafe (stack : Nat → UInt8) (fs : Fs) (start : Nat) (name : Name) : Prop :=
  ∃ fuel found fs', fs.dirFind fuel stack start name = some (found, fs') ∧
    (∀ c ∈ Fs.dirFindReads stack (makeShortName name) fuel fs start, InRange fs.mount c) ∧
    (¬ ChainEnds fs.mount start → found = none)

/-- `brainfs_dir_read` returns, hands clusters of the volume to `brainfs_cluster_read`, and returns less than it
was asked for from a chain that does not end. -/
def DirReadSafe (stack : Nat → UInt8) (fs : Fs) (start maxEntries : Nat) : Prop :=
  ∃ fuel out fs', fs.dirRead stack fuel start maxEntries = some (out, fs') ∧
    (∀ c ∈ Fs.dirReadReads stack maxEntries fuel fs start [], InRange fs.mount c) ∧
    (¬ ChainEnds fs.mount start → out.length < maxEntries ∨ maxEntries = 0)

section

variable {stack : Nat → UInt8} {fs : Fs} {start : Nat}

theorem Lists.findSafe {l : List DirEntry} {name : Name} (h : Lists stack fs start l)
    (hname : ¬ ChainEnds fs.mount start → ∀ e ∈ l, e.name ≠ makeShortName name) : DirFindSafe stack fs start name := by
  obtain ⟨fuel, fs', hrun, hreads⟩ := h.dirFind (makeShortName name)
  refine ⟨fuel, _, fs', hrun, hreads, fun hends => List.find?_eq_none.mpr fun e he => ?_⟩
  simpa using hname hends e he

theorem Lists.readSafe {l : List DirEntry} {maxEntries : Nat} (h : Lists stack fs start l)
    (hshort : ¬ ChainEnds fs.mount start → l.length < maxEntries) : DirReadSafe stack fs start maxEntries := by
  obtain ⟨fuel, fs', hrun, hreads⟩ := h.dirRead maxEntries
    (show ([] : List DirEntry).length ≤ maxEntries from Nat.zero_le _)
  refine ⟨fuel, _, fs', hrun, hreads, fun hends => Or.inl ?_⟩
  rw [List.nil_append, List.length_take]
  exact Nat.lt_of_le_of_lt (Nat.min_le_right _ _) (hshort hends)

theorem DirFindSafe.lists {name : Name} (h : DirFindSafe stack fs start name) (hends : ¬ ChainEnds fs.mount start) :
    ∃ l, Lists stack fs start l ∧ ∀ e ∈ l, e.name ≠ makeShortName name := by
  obtain ⟨fuel, found, fs', hrun, hreads, hnone⟩ := h
  rw [hnone hends] at hrun
  exact Lists.of_dirFind hrun hreads

/-- A volume with `E5` in every byte of every cluster. -/
def skippedVolume (m : Mount) : Fs := { mount := m, space := fun _ => some fun _ => 0xE5, supply := fun _ => true }

theorem entryAt_first (buf : Nat → UInt8) (i : Nat) : (entryAt buf i).first = buf (32 * i) := rfl

theorem skipped_not_marked {fs : Fs} (hspace : fs.space = fun _ => some fun _ => 0xE5) (c : Nat) :
    ¬ Marked (fs.dirEntries (fun _ => 0xE5) c) := by
  rintro ⟨e, he, hfirst⟩
  obtain ⟨i, -, rfl⟩ := List.mem_map.mp he
  have hbyte : (fs.clusterRead c (fun _ => 0xE5) 0 0 Fs.brainfsClusterSize).1 = fun _ => 0xE5 := by
    funext o
    unfold Fs.clusterRead
    dsimp only
    rw [Fs.resolve_of_backed (by rw [hspace]; rfl)]
    split
    · rfl
    · simp [Fs.byteAt, hspace]
  rw [hbyte, entryAt_first] at hfirst
  exact absurd hfirst (by decide)

theorem afterRead_space {stack : Nat → UInt8} {fs : Fs} {c : Nat} (hback : (fs.space c).isSome = true) :
    (fs.afterRead stack c).space = fs.space := by
  unfold Fs.afterRead Fs.clusterRead
  rw [Fs.resolve_of_backed hback]
  dsimp only
  split
  · rfl
  · rfl

theorem Lists.chainEnds {fs : Fs} {c : Nat} {l : List DirEntry} (h : Lists (fun _ => 0xE5) fs c l) :
    (fs.space = fun _ => some fun _ => 0xE5) → ChainEnds fs.mount c := by
  induction h with
  | zero => exact fun _ => .zero
  | last _ _ hmark => exact fun hspace => absurd hmark (skipped_not_marked hspace _)
  | @more fs c l hlo hhi _ _ ih =>
    intro hspace
    rw [fs.afterRead_mount, afterRead_space (by rw [hspace]; rfl)] at ih
    exact .next hlo hhi (ih hspace)

theorem DirFindSafe.chainEnds {m : Mount} {start : Nat} {name : Name}
    (h : DirFindSafe (fun _ => 0xE5) (skippedVolume m) start name) : ChainEnds m start := by
  by_contra hends
  obtain ⟨l, hl, -⟩ := h.lists hends
  exact hends (hl.chainEnds rfl)

/-- **Over every content** of the clusters the walks are safe where the chain ends. -/
theorem dirWalks_every_content (m : Mount) (start : Nat) : (∀ stack fs name maxEntries, fs.mount = m →
      DirFindSafe stack fs start name ∧ DirReadSafe stack fs start maxEntries) ↔ ChainEnds m start := by
  constructor
  · exact fun h => (h (fun _ => 0xE5) (skippedVolume m) [] 0 rfl).1.chainEnds
  · rintro hends stack fs name maxEntries rfl
    obtain ⟨l, hl⟩ := hends.lists stack rfl
    exact ⟨hl.findSafe fun hn => absurd hends hn, hl.readSafe fun hn => absurd hends hn⟩

end

/-- A volume whose cluster 2 leads to itself. -/
def cyclicMount : Mount := (brainfsMount 0 16).withTable fun c => if c = 2 then 2 else 0

theorem cyclicMount_next : cyclicMount.fatNextCluster 2 = 2 := by decide

end Chicago95.Stage2
