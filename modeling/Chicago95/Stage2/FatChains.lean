/-
# Chicago95.Stage2.FatChains — chains of clusters in tables of every width.

A file's clusters are linked by their entries in the table: `brainfs_fat_alloc_cluster` marks a new cluster
as the end of a chain, `brainfs_file_write` writes its number into the entry of the last one and marks it
again. `brainfs_fat_next_cluster` reads the entry back and takes some values for the end. Numbers and marks
share one range of values, and in the narrow widths they overlap for the clusters a volume has.
-/
import Chicago95.Lib.Chain
import Chicago95.Lib.Transition
import Chicago95.Stage2.Fat

namespace Chicago95.Stage2

open Chicago95.Lib.Chain Chicago95.Lib.Transition

/-! ## Links that are no marks -/

/-- **The cluster numbers that a table of the width can hold as links.** -/
def LinkFits (width c : Nat) : Prop :=
  (width = 2 → 4 ≤ c) ∧ (width = 4 → c ≠ 14 ∧ c ≠ 15) ∧ (width = 8 → c < 255) ∧ (width = 128 → c ≠ 2)

theorem linkFits_iff {width : Nat} (hw : width ∈ chainWidths) {c : Nat} (hc : 2 ≤ c ∧ c < 1024) :
    LinkFits width c ↔ fatIsEocValue width c = false ∧ fatIsBadValue width c = false := by
  simp only [chainWidths, List.mem_cons, List.not_mem_nil, or_false] at hw
  unfold LinkFits fatIsEocValue fatIsBadValue
  rcases hw with rfl | rfl | rfl | rfl | rfl | rfl | rfl | rfl <;>
    simp <;> omega

/-! ## Appending -/

namespace Mount

/-- The new cluster's entry when it is allocated. -/
def startChain (m : Mount) (c : Nat) : Mount := m.fatWriteEntry c (allocEoc m.fatWidth)

/-- A cluster allocated and linked after `last`, as in `brainfs_file_write`. -/
def appendCluster (m : Mount) (last c : Nat) : Mount :=
  ((m.startChain c).fatWriteEntry last c).fatWriteEntry c (linkEoc m.fatWidth)

variable {m : Mount} {c d last : Nat}

@[simp] theorem startChain_fatWidth : (m.startChain c).fatWidth = m.fatWidth :=
  fatWriteEntry_fatWidth _ _ _

@[simp] theorem startChain_totalClusters : (m.startChain c).totalClusters = m.totalClusters :=
  fatWriteEntry_totalClusters _ _ _

@[simp] theorem appendCluster_fatWidth : (m.appendCluster last c).fatWidth = m.fatWidth := by
  simp only [appendCluster, fatWriteEntry_fatWidth, startChain_fatWidth]

@[simp] theorem appendCluster_totalClusters : (m.appendCluster last c).totalClusters = m.totalClusters := by
  simp only [appendCluster, fatWriteEntry_totalClusters, startChain_totalClusters]

theorem startChain_isSome : (m.startChain c).table.isSome = m.table.isSome :=
  fatWriteEntry_isSome _ _ _

theorem appendCluster_isSome : (m.appendCluster last c).table.isSome = m.table.isSome := by
  simp only [appendCluster, fatWriteEntry_isSome, startChain_isSome]

theorem entry_startChain (hd : d ≠ c) : (m.startChain c).entry d = m.entry d :=
  entry_write_of_ne m hd _

theorem entry_appendCluster (hd : d ≠ c) (hl : d ≠ last) : (m.appendCluster last c).entry d = m.entry d := by
  simp only [appendCluster, entry_write_of_ne _ hd, entry_write_of_ne _ hl, entry_startChain hd]

theorem entry_appendCluster_last (h : m.table.isSome = true) (hl : last < m.totalClusters)
    (hne : last ≠ c) : (m.appendCluster last c).entry last = c := by
  unfold appendCluster
  rw [entry_write_of_ne _ hne, entry_write_self (by rw [startChain_isSome]; exact h)
    (by rw [startChain_totalClusters]; exact hl)]

theorem next_startChain (hw : m.fatWidth ∈ chainWidths) (hc : c < m.totalClusters) :
    (m.startChain c).fatNextCluster c = 0 := by
  rcases ht : m.table.isSome with _ | _
  · refine fatNextCluster_of_none ?_ c
    rw [← Option.not_isSome_iff_eq_none, startChain_isSome, ht]
    exact Bool.false_ne_true
  · refine fatNextCluster_of_eoc ?_
    rw [startChain_fatWidth, startChain, entry_write_self ht hc]
    exact (eoc_written hw).1

theorem next_appendCluster_new (hw : m.fatWidth ∈ chainWidths) (hc : c < m.totalClusters) :
    (m.appendCluster last c).fatNextCluster c = 0 := by
  rcases ht : m.table.isSome with _ | _
  · refine fatNextCluster_of_none ?_ c
    rw [← Option.not_isSome_iff_eq_none, appendCluster_isSome, ht]
    exact Bool.false_ne_true
  · refine fatNextCluster_of_eoc ?_
    rw [appendCluster_fatWidth, appendCluster, entry_write_self]
    · exact (eoc_written hw).2.1
    · rw [fatWriteEntry_isSome, startChain_isSome, ht]
    · rw [fatWriteEntry_totalClusters, startChain_totalClusters]
      exact hc

theorem next_appendCluster_last_iff (hl : last < m.totalClusters) (hne : last ≠ c) (hpos : c ≠ 0) (hlt : c < 2 ^ 32) :
    (m.appendCluster last c).fatNextCluster last = c ↔ m.table.isSome = true ∧ fatIsEocValue m.fatWidth c = false := by
  rcases ht : m.table.isSome with _ | _
  · have hnone : (m.appendCluster last c).table = none := by
      rw [← Option.not_isSome_iff_eq_none, appendCluster_isSome, ht]
      exact Bool.false_ne_true
    rw [fatNextCluster_of_none hnone]
    exact ⟨fun h => absurd h.symm hpos, fun h => absurd h.1 Bool.false_ne_true⟩
  · have hentry := entry_appendCluster_last ht hl hne
    rcases he : fatIsEocValue m.fatWidth c with _ | _
    · refine iff_of_true (fatNextCluster_of_link hentry ?_ hlt) ⟨rfl, rfl⟩
      rw [appendCluster_fatWidth, he]
    · refine iff_of_false (fun h => hpos ?_) fun h => absurd h.2.symm Bool.false_ne_true
      rw [← h]
      refine fatNextCluster_of_eoc ?_
      rw [hentry, appendCluster_fatWidth, he]

end Mount

/-! ## Histories -/

/-- A volume with the chains linked on it. -/
structure FatChains where
  mount : Mount
  chains : List (List Nat)

/-- A cluster that starts a chain, or is appended to the `k`-th one. -/
inductive FatAppend where
  | start (c : Nat)
  | append (k c : Nat)

namespace FatChains

/-- A mounted volume, with a table in memory or without. -/
def start (drive width : Nat) (table : Option (Nat → Nat)) : FatChains :=
  { mount := { brainfsMount drive width with table := table }, chains := [] }

/-- The clusters of the `k`-th chain. -/
def chain (s : FatChains) (k : Nat) : List Nat := s.chains.getD k []

/-- One append. -/
def next (s : FatChains) : FatAppend → FatChains
  | .start c => { mount := s.mount.startChain c, chains := s.chains ++ [[c]] }
  | .append k c =>
    { mount := s.mount.appendCluster ((s.chain k).getLastD 0) c,
      chains := s.chains.set k (s.chain k ++ [c]) }

/-- A cluster of the volume that is in no chain. -/
def Fresh (s : FatChains) (c : Nat) : Prop :=
  2 ≤ c ∧ c < s.mount.totalClusters ∧ ∀ l ∈ s.chains, c ∉ l

/-- Appends are of fresh clusters, to chains there are. -/
def Allowed (s : FatChains) : FatAppend → Prop
  | .start c => s.Fresh c
  | .append k c => k < s.chains.length ∧ s.Fresh c

/-- One step of a history. -/
def Step (s : FatChains) (a : FatAppend) (t : FatChains) : Prop := s.Allowed a ∧ t = s.next a

/-- **The table has the chains.** From its first cluster each is walked in order and to its end, and no
link reads as an end of chain, as bad or as free. -/
def Encoded (s : FatChains) : Prop := ∀ l ∈ s.chains,
  (∀ fuel, l.length ≤ fuel → follow s.mount.fatNextCluster fuel (l.headD 0) = l) ∧
  ∀ v ∈ l.tail, fatIsEocValue s.mount.fatWidth v = false ∧
    fatIsBadValue s.mount.fatWidth v = false ∧ v ≠ fatFreeValue s.mount.fatWidth

/-- **The condition on an append**: the table is in memory and can hold the cluster as a link. -/
def Holds (s : FatChains) : FatAppend → Prop
  | .start _ => True
  | .append _ c => s.mount.table.isSome = true ∧ LinkFits s.mount.fatWidth c

/-! ## The invariant -/

/-- What every history keeps: chains of the volume's clusters, with no cluster twice. -/
structure Inv (s : FatChains) : Prop where
  width : s.mount.fatWidth ∈ chainWidths
  total : s.mount.totalClusters = 1024
  range : ∀ l ∈ s.chains, ∀ c ∈ l, 2 ≤ c ∧ c < 1024
  nonempty : ∀ l ∈ s.chains, l ≠ []
  nodup : s.chains.flatten.Nodup

variable {s : FatChains}

theorem inv_start (drive : Nat) {width : Nat} (hw : width ∈ chainWidths)
    (table : Option (Nat → Nat)) : (start drive width table).Inv where
  width := hw
  total := rfl
  range _ hl := absurd hl List.not_mem_nil
  nonempty _ hl := absurd hl List.not_mem_nil
  nodup := List.nodup_nil

theorem encoded_start (drive width : Nat) (table : Option (Nat → Nat)) :
    (start drive width table).Encoded := fun _ hl => absurd hl List.not_mem_nil

theorem Fresh.not_mem {c : Nat} (h : s.Fresh c) : c ∉ s.chains.flatten := fun hmem => by
  obtain ⟨l, hl, hc⟩ := List.mem_flatten.mp hmem
  exact h.2.2 l hl hc

theorem append_split (s : FatChains) {k : Nat} (hk : k < s.chains.length) (c : Nat) :
    ∃ pre l post, s.chains = pre ++ l :: post ∧ s.chain k = l ∧
      (s.next (.append k c)).chains = pre ++ (l ++ [c]) :: post := by
  obtain ⟨pre, post, hsplit, _, hset⟩ : ∃ pre post, s.chains = pre ++ s.chains[k] :: post ∧
      pre.length = k ∧ s.chains.set k (s.chain k ++ [c]) = pre ++ (s.chain k ++ [c]) :: post :=
    List.exists_of_set hk
  have hchain : s.chain k = s.chains[k] := by simp [chain, List.getD, hk]
  exact ⟨pre, s.chains[k], post, hsplit, hchain, hset.trans (by rw [hchain])⟩

theorem Inv.next (h : s.Inv) {a : FatAppend} (hok : s.Allowed a) : (s.next a).Inv := by
  cases a with
  | start c =>
    have hfresh : s.Fresh c := hok
    refine ⟨?_, ?_, fun l hl => ?_, fun l hl => ?_, ?_⟩
    · simpa only [FatChains.next, Mount.startChain_fatWidth] using h.width
    · simpa only [FatChains.next, Mount.startChain_totalClusters] using h.total
    · rcases List.mem_append.mp hl with hl | hl
      · exact h.range l hl
      · obtain rfl := List.mem_singleton.mp hl
        intro d hd
        obtain rfl := List.mem_singleton.mp hd
        exact ⟨hfresh.1, h.total ▸ hfresh.2.1⟩
    · rcases List.mem_append.mp hl with hl | hl
      · exact h.nonempty l hl
      · obtain rfl := List.mem_singleton.mp hl
        exact List.cons_ne_nil _ _
    · simp only [FatChains.next, List.flatten_append, List.flatten_cons, List.flatten_nil,
        List.append_nil]
      rw [List.nodup_middle, List.append_nil]
      exact List.nodup_cons.mpr ⟨hfresh.not_mem, h.nodup⟩
  | append k c =>
    obtain ⟨hk, hfresh⟩ := hok
    obtain ⟨pre, l, post, hsplit, _, hnew⟩ := s.append_split hk c
    have hl : l ∈ s.chains := by
      rw [hsplit]
      exact List.mem_append_right _ List.mem_cons_self
    have hmem : ∀ r ∈ (s.next (.append k c)).chains, r = l ++ [c] ∨ r ∈ s.chains := fun r hr => by
      rw [hnew, List.mem_append, List.mem_cons] at hr
      rw [hsplit, List.mem_append, List.mem_cons]
      rcases hr with hr | rfl | hr
      · exact Or.inr (Or.inl hr)
      · exact Or.inl rfl
      · exact Or.inr (Or.inr (Or.inr hr))
    refine ⟨?_, ?_, fun r hr => ?_, fun r hr => ?_, ?_⟩
    · simpa only [FatChains.next, Mount.appendCluster_fatWidth] using h.width
    · simpa only [FatChains.next, Mount.appendCluster_totalClusters] using h.total
    · rcases hmem r hr with rfl | hr
      · intro d hd
        rcases List.mem_append.mp hd with hd | hd
        · exact h.range l hl d hd
        · obtain rfl := List.mem_singleton.mp hd
          exact ⟨hfresh.1, h.total ▸ hfresh.2.1⟩
      · exact h.range r hr
    · rcases hmem r hr with rfl | hr
      · exact List.append_ne_nil_of_right_ne_nil _ (List.cons_ne_nil _ _)
      · exact h.nonempty r hr
    · have hold := h.nodup
      have hnot := hfresh.not_mem
      rw [hsplit] at hold hnot
      simp only [List.flatten_append, List.flatten_cons] at hold hnot
      rw [hnew]
      simp only [List.flatten_append, List.flatten_cons, List.append_assoc, List.singleton_append]
      rw [← List.append_assoc, List.nodup_middle, List.append_assoc]
      exact List.nodup_cons.mpr ⟨hnot, hold⟩

theorem Inv.encoded_iff (h : s.Inv) : s.Encoded ↔ ∀ l ∈ s.chains,
    Visits s.mount.fatNextCluster l ∧ ∀ v ∈ l.tail, LinkFits s.mount.fatWidth v := by
  refine forall_congr' fun l => forall_congr' fun hl => and_congr ?_ ?_
  · refine (visits_iff_follow fun c hc => ?_).symm
    have hrange := h.range l hl c hc
    omega
  · refine forall_congr' fun v => forall_congr' fun hv => ?_
    have hrange := h.range l hl v (List.mem_of_mem_tail hv)
    rw [linkFits_iff h.width hrange]
    refine ⟨fun hv => ⟨hv.1, hv.2.1⟩, fun hv => ⟨hv.1, hv.2, ?_⟩⟩
    show v ≠ 0
    omega

/-! ## One step -/

theorem start_encoded (h : s.Inv) (he : s.Encoded) {c : Nat} (hok : s.Allowed (.start c)) :
    (s.next (.start c)).Encoded := by
  have hfresh : s.Fresh c := hok
  rw [(h.next hok).encoded_iff]
  rw [h.encoded_iff] at he
  intro l hl
  rcases List.mem_append.mp hl with hl | hl
  · refine ⟨(he l hl).1.congr fun d hd => ?_, fun v hv => ?_⟩
    · have hne : d ≠ c := fun heq => hfresh.2.2 l hl (heq ▸ hd)
      exact Mount.fatNextCluster_congr Mount.startChain_fatWidth (Mount.entry_startChain hne)
    · simpa only [FatChains.next, Mount.startChain_fatWidth] using (he l hl).2 v hv
  · obtain rfl := List.mem_singleton.mp hl
    exact ⟨Mount.next_startChain h.width hfresh.2.1, fun v hv => absurd hv List.not_mem_nil⟩

theorem append_iff (h : s.Inv) (he : s.Encoded) {k c : Nat} (hok : s.Allowed (.append k c)) :
    (s.next (.append k c)).Encoded ↔ s.Holds (.append k c) := by
  have hk : k < s.chains.length := hok.1
  have hfresh : s.Fresh c := hok.2
  obtain ⟨pre, l, post, hsplit, hchain, hnew⟩ := s.append_split hk c
  have hl : l ∈ s.chains := by
    rw [hsplit]
    exact List.mem_append_right _ List.mem_cons_self
  obtain ⟨front, last, rfl⟩ : ∃ front last, l = front ++ [last] :=
    ⟨l.dropLast, l.getLast (h.nonempty l hl), (List.dropLast_append_getLast _).symm⟩
  have hmount : (s.next (.append k c)).mount = s.mount.appendCluster last c := by
    simp only [FatChains.next, hchain, List.getLastD_concat]
  have hlast := h.range _ hl last (by simp)
  have hc : 2 ≤ c ∧ c < 1024 := ⟨hfresh.1, h.total ▸ hfresh.2.1⟩
  have hlc : last ≠ c := fun heq => hfresh.2.2 _ hl (heq ▸ by simp)
  have hnext := Mount.next_appendCluster_last_iff
    (show last < s.mount.totalClusters by have := h.total; omega) hlc (by omega) (by omega)
  rw [(h.next hok).encoded_iff, hnew, hmount]
  rw [h.encoded_iff] at he
  rw [Mount.appendCluster_fatWidth]
  constructor
  · intro ht
    obtain ⟨hvisits, hfits⟩ := ht (front ++ [last] ++ [c])
      (List.mem_append_right _ List.mem_cons_self)
    refine ⟨(hnext.mp hvisits.of_snoc.1).1, hfits c ?_⟩
    rw [List.tail_append_of_ne_nil (List.append_ne_nil_of_right_ne_nil _ (List.cons_ne_nil _ _))]
    exact List.mem_append_right _ List.mem_cons_self
  · rintro ⟨htable, hfits⟩ r hr
    -- entries of elements other than the old end and the new cluster are as before
    have hsame : ∀ d, d ≠ c → d ≠ last →
        (s.mount.appendCluster last c).fatNextCluster d = s.mount.fatNextCluster d := fun d hd hd' =>
      Mount.fatNextCluster_congr Mount.appendCluster_fatWidth (Mount.entry_appendCluster hd hd')
    have hnodup := h.nodup
    rw [hsplit] at hnodup
    simp only [List.flatten_append, List.flatten_cons] at hnodup
    rw [List.append_assoc, List.singleton_append, ← List.append_assoc] at hnodup
    have honly := (List.nodup_cons.mp (List.nodup_middle.mp hnodup)).1
    simp only [List.mem_append, not_or] at honly
    have hother : r ∈ pre ∨ r ∈ post →
        Visits (s.mount.appendCluster last c).fatNextCluster r ∧
          ∀ v ∈ r.tail, LinkFits s.mount.fatWidth v := fun hrest => by
      have hmem : r ∈ s.chains := by
        rw [hsplit, List.mem_append, List.mem_cons]
        exact hrest.imp id Or.inr
      refine ⟨(he r hmem).1.congr fun d hd => hsame d ?_ ?_, (he r hmem).2⟩
      · exact fun heq => hfresh.2.2 r hmem (heq ▸ hd)
      · rintro rfl
        rcases hrest with hpre | hpost
        · exact honly.1.1 (List.mem_flatten.mpr ⟨r, hpre, hd⟩)
        · exact honly.2 (List.mem_flatten.mpr ⟨r, hpost, hd⟩)
    rw [List.mem_append, List.mem_cons] at hr
    rcases hr with hr | rfl | hr
    · exact hother (Or.inl hr)
    · refine ⟨(he _ hl).1.snoc (fun d hd => hsame d ?_ ?_) (hnext.mpr ⟨htable, ?_⟩)
        (Mount.next_appendCluster_new h.width hfresh.2.1), fun v hv => ?_⟩
      · exact fun heq => hfresh.2.2 _ hl (heq ▸ List.mem_append_left _ hd)
      · rintro rfl
        exact honly.1.2 hd
      · exact ((linkFits_iff h.width hc).mp hfits).1
      · rw [List.tail_append_of_ne_nil
          (List.append_ne_nil_of_right_ne_nil _ (List.cons_ne_nil _ _)), List.mem_append,
          List.mem_singleton] at hv
        rcases hv with hv | rfl
        · exact (he _ hl).2 v hv
        · exact hfits
    · exact hother (Or.inr hr)

theorem step_iff (h : s.Inv) (he : s.Encoded) {a : FatAppend} {t : FatChains} (hst : s.Step a t) :
    t.Encoded ↔ s.Holds a := by
  obtain ⟨hok, rfl⟩ := hst
  cases a with
  | start c => exact iff_of_true (start_encoded h he hok) trivial
  | append k c => exact append_iff h he hok

/-- **Chains over whole histories.** After every append the table has all chains exactly when every append
was of a link that a table in memory can hold. -/
theorem encoded_run_iff (drive : Nat) {width : Nat} (hw : width ∈ chainWidths)
    (table : Option (Nat → Nat)) {tr : List (FatAppend × FatChains)} (htr : Trace Step (start drive width table) tr) :
    AllStates Encoded (start drive width table) tr ↔ Guarded Holds (start drive width table) tr :=
  htr.allSteps_iff_guarded (J := fun (s : FatChains) => s.Inv ∧ s.Encoded)
    (fun _ _ _ hs hst => step_iff hs.1 hs.2 hst)
    (fun s a t hs hst ht => ⟨by rw [hst.2]; exact hs.1.next hst.1, ht⟩)
    ⟨inv_start drive hw table, encoded_start drive width table⟩

/-! ## Two clusters -/

/-- A table of free entries. -/
def freeTable : Nat → Nat := fun _ => 0

/-- The appends of a file of two clusters. -/
def twoClusters : List FatAppend := [.start 2, .append 0 3]

theorem twoClusters_trace (drive width : Nat) (table : Option (Nat → Nat)) :
    Trace Step (start drive width table) (traceOf next (start drive width table) twoClusters) := by
  refine .cons ⟨⟨Nat.le_refl 2, show 2 < 1024 by decide, fun l hl => absurd hl List.not_mem_nil⟩, rfl⟩
    (.cons ⟨⟨Nat.zero_lt_one, by decide, ?_, fun l hl => ?_⟩, rfl⟩ (.nil _))
  · show 3 < (Mount.startChain _ 2).totalClusters
    rw [Mount.startChain_totalClusters]
    exact show 3 < 1024 by decide
  · obtain rfl : l = [2] := List.mem_singleton.mp hl
    decide

/-- In a 16-bit table they are a chain. -/
theorem twoClusters_encoded : AllStates Encoded (start 0 16 (some freeTable))
      (traceOf next (start 0 16 (some freeTable)) twoClusters) :=
  (encoded_run_iff 0 (show 16 ∈ chainWidths by decide) (some freeTable)
    (twoClusters_trace 0 16 (some freeTable))).mpr
    ⟨trivial, ⟨rfl, by unfold LinkFits; decide⟩, trivial⟩

/-- On a volume as it is mounted the link is dropped, and a 2-bit table in memory takes it for the end. -/
theorem twoClusters_lost : ¬ AllStates Encoded (start 0 16 none) (traceOf next (start 0 16 none) twoClusters) ∧
    ¬ AllStates Encoded (start 0 2 (some freeTable)) (traceOf next (start 0 2 (some freeTable)) twoClusters) := by
  constructor
  · intro h
    have hfollow := (h.2.1 [2, 3] (by decide)).1 2 (by decide)
    exact absurd hfollow (by decide)
  · intro h
    have hfollow := (h.2.1 [2, 3] (by decide)).1 2 (by decide)
    exact absurd hfollow (by decide)

end FatChains

end Chicago95.Stage2
