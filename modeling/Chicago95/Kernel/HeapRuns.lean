/-
# Chicago95.Kernel.HeapRuns — the heap over any sequence of calls.

A run starts from `kmalloc_init` and makes calls of `kmalloc`, `kmalloc_zero` and `kfree`, the last on a
pointer still live; between calls the owners of live pointers write into the bytes they asked for.
`pmm_alloc_pages` answers as it likes, with fresh page runs.
-/
import Chicago95.Lib.Transition
import Chicago95.Kernel.HeapCalls

namespace Chicago95.Kernel.Heap

open Chicago95.Lib.Extents Chicago95.Lib.Transition

/-! ## Runs -/

/-- The heap, and the pointers returned and not yet freed with the bytes requested for each. -/
structure HeapState where
  heap : KHeap
  live : List (Nat × Nat)

/-- A call with the answer of `pmm_alloc_pages`, or the owners' writes between two calls. -/
inductive HeapCall where
  | kmalloc (n base : Nat)
  | kmallocZero (n base : Nat)
  | kfree (ptr : Nat)
  | write (mem : HeapMem)

namespace HeapState

/-- `kmalloc_init` -/
def start (mem : HeapMem) : HeapState := { heap := KHeap.kmallocInit mem, live := [] }

/-- The caller of `kmalloc` keeps what it got. -/
def received (s : HeapState) (n : Nat) (r : Nat × KHeap) : HeapState :=
  { heap := r.2, live := if r.1 = 0 then s.live else (r.1, n) :: s.live }

/-- The state after a call that takes at most `fuel` steps through the list. -/
def exec (fuel : Nat) (s : HeapState) : HeapCall → Option HeapState
  | .kmalloc n base => (s.heap.kmalloc fuel n base).map (s.received n)
  | .kmallocZero n base => (s.heap.kmallocZero fuel n base).map (s.received n)
  | .kfree ptr => (s.heap.kfree fuel ptr).map fun h =>
    { heap := h, live := s.live.filter fun e => decide (e.1 ≠ ptr) }
  | .write mem => some { s with heap := { s.heap with mem := mem } }

/-- What callers and the page manager may do. -/
def Allowed (s : HeapState) : HeapCall → Prop
  | .kmalloc n base => Answers s.heap.runs n base
  | .kmallocZero n base => Answers s.heap.runs n base
  | .kfree ptr => ∃ n, (ptr, n) ∈ s.live
  | .write mem => ∀ w, (∃ r ∈ s.heap.runs, r.base ≤ w ∧ w < r.stop) →
      (∀ e ∈ s.live, ¬(e.1 ≤ w ∧ w < e.1 + e.2)) → mem w = s.heap.mem w

end HeapState

/-- One step of a run. -/
def HeapStep (s : HeapState) (c : HeapCall) (t : HeapState) : Prop :=
  s.Allowed c ∧ ∃ fuel, s.exec fuel c = some t

/-- The headers the `next` pointers lead to from `heap_head`. -/
inductive Reach (h : KHeap) : Nat → Prop
  | head : h.heapHead ≠ 0 → Reach h h.heapHead
  | next {a : Nat} : Reach h a → nextOf h.mem a ≠ 0 → Reach h (nextOf h.mem a)

/-- **Heap well-formedness.** -/
structure HeapSound (s : HeapState) : Prop where
  disjoint : ∀ a b, Reach s.heap a → Reach s.heap b → a ≠ b →
    a + headerSize + sizeOf s.heap.mem a ≤ b ∨ b + headerSize + sizeOf s.heap.mem b ≤ a
  inRun : ∀ a, Reach s.heap a →
    ∃ r ∈ s.heap.runs, r.base ≤ a ∧ a + headerSize + sizeOf s.heap.mem a ≤ r.stop
  liveApart : s.live.Pairwise fun e f => e.1 + e.2 ≤ f.1 ∨ f.1 + f.2 ≤ e.1

/-- Both addresses are in one page run. -/
def SameRun (runs : List Run) (a b : Nat) : Prop :=
  ∃ r ∈ runs, (r.base ≤ a ∧ a < r.stop) ∧ (r.base ≤ b ∧ b < r.stop)

/-- The header at `a` is free once the block of `ptr` is marked. -/
def FreeWith (h : KHeap) (ptr a : Nat) : Prop := freeOf h.mem a ≠ 0 ∨ a + headerSize = ptr

/-- The condition on a call: the request does not wrap, and a merge joins blocks of one page run. -/
def HeapGuard (s : HeapState) : HeapCall → Prop
  | .kmalloc n _ => n ≤ 2 ^ 64 - 48
  | .kmallocZero n _ => n ≤ 2 ^ 64 - 48
  | .kfree ptr => ∀ a, Reach s.heap a → nextOf s.heap.mem a ≠ 0 → FreeWith s.heap ptr a →
      FreeWith s.heap ptr (nextOf s.heap.mem a) → SameRun s.heap.runs a (nextOf s.heap.mem a)
  | .write _ => True

/-! ## The invariant -/

/-- Every live pointer has its own block in use, large enough for the bytes requested. -/
structure LiveIn (bs : List Block) (live : List (Nat × Nat)) : Prop where
  block : ∀ e ∈ live, ∃ b ∈ bs, b.addr + headerSize = e.1 ∧ b.free = false ∧ e.2 ≤ b.size
  distinct : live.Pairwise fun e f => e.1 ≠ f.1

/-- The heap lists sound blocks, and the live pointers have theirs among them. -/
def Inv (s : HeapState) : Prop := ∃ bs, HeapInv s.heap bs ∧ LiveIn bs s.live

theorem heapInv_start (mem : HeapMem) : HeapInv (KHeap.kmallocInit mem) [] := by
  refine ⟨⟨?_, ?_, ?_, .nil⟩, ⟨.nil, ?_, ?_, .nil⟩, rfl⟩
  all_goals
    intro x hx
    cases hx

theorem liveIn_nil (bs : List Block) : LiveIn bs [] :=
  ⟨fun _ he => (List.not_mem_nil he).elim, .nil⟩

theorem inv_start (mem : HeapMem) : Inv (HeapState.start mem) :=
  ⟨[], heapInv_start mem, liveIn_nil []⟩

theorem HeapInv.reach {h : KHeap} {bs : List Block} (hinv : HeapInv h bs) {a : Nat}
    (ha : Reach h a) : ∃ b ∈ bs, b.addr = a ∧ sizeOf h.mem a = b.size := by
  have hsize : ∀ b ∈ bs, sizeOf h.mem b.addr = b.size := by
    intro b hb
    obtain ⟨pre, post, rfl⟩ := List.append_of_mem hb
    obtain ⟨_, _, _, hholds, _⟩ := seg_append.mp hinv.seg
    exact hholds.size
  have hmem : ∃ b ∈ bs, b.addr = a := by
    induction ha with
    | head hne =>
      cases bs with
      | nil => exact absurd hinv.seg hne
      | cons b bs => exact ⟨b, List.mem_cons_self, hinv.seg.1.symm⟩
    | next _ hne ih =>
      obtain ⟨b, hb, rfl⟩ := ih
      obtain ⟨pre, post, rfl⟩ := List.append_of_mem hb
      rcases hinv.seg.next_mem with h0 | ⟨z, hz, hzaddr⟩
      · exact absurd h0 hne
      · exact ⟨z, by simp [hz], hzaddr⟩
  obtain ⟨b, hb, rfl⟩ := hmem
  exact ⟨b, hb, rfl, hsize b hb⟩

theorem HeapInv.reach_mem {h : KHeap} {bs : List Block} (hinv : HeapInv h bs) : ∀ b ∈ bs, Reach h b.addr := by
  have hwalk : ∀ (l : List Block) {a : Nat}, (∀ x ∈ l, 0 < x.addr) → Seg h.mem a l 0 →
      (a ≠ 0 → Reach h a) → ∀ b ∈ l, Reach h b.addr := by
    intro l
    induction l with
    | nil => intro _ _ _ _ b hb; cases hb
    | cons x l ih =>
      rintro a hpos ⟨rfl, _, hrest⟩ hreach b hb
      have hx := hreach (Nat.ne_of_gt (hpos x List.mem_cons_self))
      rcases List.mem_cons.mp hb with rfl | hb
      · exact hx
      · exact ih (fun y hy => hpos y (List.mem_cons_of_mem x hy)) hrest (.next hx) b hb
  exact hwalk bs (fun b hb => hinv.good.nonzero hinv.runs hb) hinv.seg .head

theorem Inv.sound {s : HeapState} (h : Inv s) : HeapSound s := by
  obtain ⟨bs, hinv, hlive⟩ := h
  refine ⟨fun a b ha hb hne => ?_, fun a ha => ?_, ?_⟩
  · obtain ⟨x, hx, rfl, hxs⟩ := hinv.reach ha
    obtain ⟨y, hy, rfl, hys⟩ := hinv.reach hb
    rw [hxs, hys]
    rcases hinv.good.eq_or_apart hx hy with rfl | hap
    · exact absurd rfl hne
    · exact hap
  · obtain ⟨x, hx, rfl, hxs⟩ := hinv.reach ha
    obtain ⟨hrun, hbase, hstop⟩ := hinv.good.inside x hx
    rw [hxs]
    exact ⟨x.run, hrun, hbase, hstop⟩
  · refine hlive.distinct.imp_of_mem fun {e f} he hf hne => ?_
    obtain ⟨x, hx, hxe, _, hxs⟩ := hlive.block e he
    obtain ⟨y, hy, hyf, _, hys⟩ := hlive.block f hf
    rcases hinv.good.eq_or_apart hx hy with rfl | hap
    · exact absurd (hxe.symm.trans hyf) hne
    · simp only [Apart, Block.stop] at hap
      omega

/-! ## Steps -/

theorem Allocated.liveIn_received {s : HeapState} {bs bs' : List Block} {n : Nat} {r : Nat × KHeap}
    (h : Allocated bs n r.1 r.2 bs') (hlive : LiveIn bs s.live) : LiveIn bs' (s.received n r).live := by
  have hkept : ∀ e ∈ s.live, ∃ b ∈ bs', b.addr + headerSize = e.1 ∧ b.free = false ∧ e.2 ≤ b.size := by
    intro e he
    obtain ⟨b, hb, hptr, hfree, hsize⟩ := hlive.block e he
    exact ⟨b, h.kept b hb hfree, hptr, hfree, hsize⟩
  unfold HeapState.received
  dsimp only
  by_cases hnull : r.1 = 0
  · rw [if_pos hnull]
    exact ⟨hkept, hlive.distinct⟩
  · rw [if_neg hnull]
    obtain ⟨b, hb, hptr, hfree, hsize, hnew⟩ := h.block hnull
    refine ⟨fun e he => ?_, .cons (fun e he heq => ?_) hlive.distinct⟩
    · rcases List.mem_cons.mp he with rfl | he
      · exact ⟨b, hb, hptr, hfree, hsize⟩
      · exact hkept e he
    · obtain ⟨x, hx, hxptr, hxfree, _⟩ := hlive.block e he
      have heq' : r.1 = e.1 := heq
      refine hnew x hx hxfree ?_
      omega

theorem mergesWithin_of_guard {s : HeapState} {pre post : List Block} {b : Block} {ptr : Nat}
    (hinv : HeapInv s.heap (pre ++ b :: post)) (hptr : b.addr + headerSize = ptr)
    (hguard : HeapGuard s (.kfree ptr)) : MergesWithin (pre ++ b.mark true :: post) := by
  have hrun : ∀ x ∈ pre ++ b :: post, ∀ r ∈ s.heap.runs, r.base ≤ x.addr ∧ x.addr < r.stop →
      x.run = r := by
    intro x hx r hr hin
    obtain ⟨hmem, hbase, hstop⟩ := hinv.good.inside x hx
    by_contra hne
    have hap := hinv.runs.apart.forall hmem hr hne
    have hlt := x.addr_lt_stop
    simp only [Apart] at hap
    omega
  -- neighbours in the list, both free or about to be, share a run
  have hchain : ∀ (l : List Block) {a : Nat}, (∀ x ∈ l, x ∈ pre ++ b :: post) →
      Seg s.heap.mem a l 0 →
      List.IsChain (fun x y => (x.free = true ∨ x.addr = b.addr) →
        (y.free = true ∨ y.addr = b.addr) → x.run = y.run) l := by
    intro l
    induction l with
    | nil => intro _ _ _; exact .nil
    | cons x l ih =>
      rintro a hsub ⟨rfl, hx, hrest⟩
      have hx' := hsub x List.mem_cons_self
      refine (ih (fun y hy => hsub y (List.mem_cons_of_mem x hy)) hrest).cons fun y hy => ?_
      obtain ⟨k, rfl⟩ : ∃ k, l = y :: k := by
        cases l with
        | nil => cases hy
        | cons z zs => exact ⟨zs, by rw [Option.some.inj hy]⟩
      obtain ⟨hnext, hyh, _⟩ := hrest
      have hy' := hsub y (by simp)
      have hmark : ∀ z, Holds s.heap.mem z → z.free = true ∨ z.addr = b.addr →
          FreeWith s.heap ptr z.addr := by
        rintro z hz (hzf | hza)
        · exact Or.inl (hz.free.mpr hzf)
        · exact Or.inr (by rw [hza, hptr])
      intro hxf hyf
      have hne : nextOf s.heap.mem x.addr ≠ 0 := by
        rw [hnext]
        exact Nat.ne_of_gt (hinv.good.nonzero hinv.runs hy')
      obtain ⟨r, hr, hinx, hiny⟩ := hguard x.addr (hinv.reach_mem x hx') hne (hmark x hx hxf)
        (by rw [hnext]; exact hmark y hyh hyf)
      rw [hnext] at hiny
      rw [hrun x hx' r hr hinx, hrun y hy' r hr hiny]
  have hmarked := isChain_replace (l := [b]) (k := [b.mark true])
    (hchain _ (fun x hx => hx) hinv.seg) (List.cons_ne_nil _ _) (List.cons_ne_nil _ _) (.singleton _)
    (by
      rintro p x hx y hy hpx hp _
      obtain rfl : b = x := Option.some.inj hx
      obtain rfl : b.mark true = y := Option.some.inj hy
      exact hpx hp (Or.inr rfl))
    (by
      rintro q x hx y hy hxq _ hq
      obtain rfl : b = x := Option.some.inj hx
      obtain rfl : b.mark true = y := Option.some.inj hy
      exact hxq (Or.inr rfl) hq)
  exact List.IsChain.imp (fun x y hxy hx hy => hxy (Or.inl hx) (Or.inl hy)) hmarked

theorem LiveIn.split {bs : List Block} {live : List (Nat × Nat)} (h : LiveIn bs live) {ptr n : Nat}
    (hmem : (ptr, n) ∈ live) : ∃ pre b post, bs = pre ++ b :: post ∧ b.addr + headerSize = ptr ∧ b.free = false := by
  obtain ⟨b, hb, hptr, hfree, _⟩ := h.block _ hmem
  obtain ⟨pre, post, rfl⟩ := List.append_of_mem hb
  exact ⟨pre, b, post, rfl, hptr, hfree⟩

theorem Freed.liveIn {h h' : KHeap} {pre post bs' : List Block} {b : Block} {ptr : Nat}
    {live : List (Nat × Nat)} (hfreed : Freed h pre b post h' bs') (hptr : b.addr + headerSize = ptr)
    (hlive : LiveIn (pre ++ b :: post) live) : LiveIn bs' (live.filter fun e => decide (e.1 ≠ ptr)) := by
  refine ⟨fun e he => ?_, hlive.distinct.filter _⟩
  obtain ⟨he, hne⟩ := List.mem_filter.mp he
  obtain ⟨x, hx, hxptr, hxfree, hxsize⟩ := hlive.block e he
  refine ⟨x, hfreed.kept hx hxfree ?_, hxptr, hxfree, hxsize⟩
  rintro rfl
  exact of_decide_eq_true hne (hxptr.symm.trans hptr)

theorem HeapInv.written {s : HeapState} {bs : List Block} {mem : HeapMem} (hheap : HeapInv s.heap bs)
    (hlive : LiveIn bs s.live) (hallowed : s.Allowed (.write mem)) :
    HeapInv { s.heap with mem := mem } bs := by
  refine hheap.congr fun x hx w h1 h2 => ?_
  obtain ⟨hrun, hbase, hstop⟩ := hheap.good.inside x hx
  refine hallowed w ⟨x.run, hrun, by omega, ?_⟩ fun e he hin => ?_
  · simp only [Block.stop, headerSize] at hstop
    omega
  · -- a header is not among the bytes of a live pointer
    obtain ⟨b, hb, hptr, _, hsize⟩ := hlive.block e he
    have hout := hheap.payload hb hx h1 h2
    simp only [Block.stop] at hout
    omega

theorem inv_step {s t : HeapState} {c : HeapCall} (hinv : Inv s) (hstep : HeapStep s c t)
    (hguard : HeapGuard s c) : Inv t := by
  obtain ⟨bs, hheap, hlive⟩ := hinv
  obtain ⟨hallowed, fuel, hexec⟩ := hstep
  cases c with
  | kmalloc n base =>
    obtain ⟨r, hr, rfl⟩ := Option.map_eq_some_iff.mp hexec
    obtain ⟨bs', halloc⟩ := kmalloc_spec hheap hguard hallowed hr
    exact ⟨bs', halloc.inv, halloc.liveIn_received hlive⟩
  | kmallocZero n base =>
    obtain ⟨r, hr, rfl⟩ := Option.map_eq_some_iff.mp hexec
    obtain ⟨bs', halloc⟩ := kmallocZero_spec hheap hguard hallowed hr
    exact ⟨bs', halloc.inv, halloc.liveIn_received hlive⟩
  | kfree ptr =>
    obtain ⟨h', hh', rfl⟩ := Option.map_eq_some_iff.mp hexec
    obtain ⟨n, hmem⟩ := hallowed
    obtain ⟨pre, b, post, rfl, hptr, hfree⟩ := hlive.split hmem
    have hmerge := mergesWithin_of_guard hheap hptr hguard
    rw [← hptr] at hh'
    obtain ⟨bs', hfreed⟩ := (kfree_spec hheap hfree hmerge).1 h' hh'
    exact ⟨bs', hfreed.inv, hfreed.liveIn hptr hlive⟩
  | write mem =>
    obtain rfl := Option.some.inj hexec
    exact ⟨bs, hheap.written hlive hallowed, hlive⟩

/-- **The heap stays well formed** along every run whose requests do not wrap and whose `kfree` calls
merge within page runs. -/
theorem heapSound_run {mem : HeapMem} {tr : List (HeapCall × HeapState)} (htr : Trace HeapStep (HeapState.start mem) tr)
    (hguard : Guarded HeapGuard (HeapState.start mem) tr) : AllStates HeapSound (HeapState.start mem) tr := by
  refine htr.allSteps_of_guarded (I := Inv) (Q := fun _ _ t => HeapSound t) ?_ (inv_start mem) hguard
  intro s c t hs hst hg
  have ht := inv_step hs hst hg
  exact ⟨ht, ht.sound⟩

/-- Under the same conditions every call returns. -/
theorem heapCall_returns {mem : HeapMem} {tr : List (HeapCall × HeapState)}
    (htr : Trace HeapStep (HeapState.start mem) tr) (hguard : Guarded HeapGuard (HeapState.start mem) tr) {c : HeapCall}
    (hallowed : (lastState (HeapState.start mem) tr).Allowed c)
    (hc : HeapGuard (lastState (HeapState.start mem) tr) c) :
    ∃ t, HeapStep (lastState (HeapState.start mem) tr) c t := by
  obtain ⟨bs, hheap, hlive⟩ := htr.lastState_of_guarded (I := Inv)
    (fun s c t hs hst (hg : HeapGuard s c) => inv_step hs hst hg) (inv_start mem) hguard
  have hreturn : ∀ fuel, ((lastState (HeapState.start mem) tr).exec fuel c).isSome = true →
      ∃ t, HeapStep (lastState (HeapState.start mem) tr) c t := by
    intro fuel hsome
    obtain ⟨t, ht⟩ := Option.isSome_iff_exists.mp hsome
    exact ⟨t, hallowed, fuel, ht⟩
  cases c with
  | kmalloc n base =>
    refine hreturn (bs.length + 1) ?_
    rw [HeapState.exec, Option.isSome_map]
    exact kmalloc_returns hheap (Nat.lt_succ_self _) n base
  | kmallocZero n base =>
    refine hreturn (bs.length + 1) ?_
    rw [HeapState.exec, Option.isSome_map, KHeap.kmallocZero, Option.isSome_map]
    exact kmalloc_returns hheap (Nat.lt_succ_self _) n base
  | kfree ptr =>
    obtain ⟨n, hmem⟩ := hallowed
    obtain ⟨pre, b, post, rfl, hptr, hfree⟩ := hlive.split hmem
    refine hreturn (2 * (pre ++ b :: post).length + 1) ?_
    rw [HeapState.exec, Option.isSome_map, ← hptr]
    exact (kfree_spec hheap hfree (mergesWithin_of_guard hheap hptr hc)).2 (Nat.lt_succ_self _)
  | write mem' => exact ⟨_, hallowed, 0, rfl⟩

/-! ## Two page runs -/

/-- The state after a call, for runs computed below. -/
def HeapState.next (s : HeapState) (c : HeapCall) : HeapState := (s.exec 8 c).getD s

theorem HeapStep.next {s : HeapState} {c : HeapCall} (hallowed : s.Allowed c)
    (hsome : (s.exec 8 c).isSome = true) : HeapStep s c (s.next c) := by
  obtain ⟨t, ht⟩ := Option.isSome_iff_exists.mp hsome
  exact ⟨hallowed, 8, by rw [HeapState.next, ht]; rfl⟩

/-- A first request, in a page run of its own. -/
def oneRun : HeapState := (HeapState.start fun _ => 0).next (.kmalloc 4000 0x100000)

/-- A second one likewise. -/
def twoRuns : HeapState := oneRun.next (.kmalloc 4000 0x101000)

/-- The first block is freed, then the second. -/
def oneFreed : HeapState := twoRuns.next (.kfree 0x100030)

def bothFreed : HeapState := oneFreed.next (.kfree 0x101030)

theorem answers_of_empty {n : Nat} {base : Nat} (hal : base % pageSize = 0)
    (hbound : base + KHeap.pagesFor (KHeap.alignUp n) * pageSize ≤ 2 ^ 64) : Answers [] n base :=
  Or.inr ⟨hal, hbound, fun _ hs => by cases hs⟩

/-- `kfree` joins two blocks of different page runs: the block at `0x101000` now claims 8192 bytes,
though its run ends at `0x102000` and the other one lies below it. -/
theorem merged_across_runs : ∃ tr, Trace HeapStep (HeapState.start fun _ => 0) tr ∧
      ¬ AllStates HeapSound (HeapState.start fun _ => 0) tr := by
  have hfirst : HeapStep (HeapState.start fun _ => 0) (.kmalloc 4000 0x100000) oneRun :=
    .next (answers_of_empty (by decide) (by decide)) (by decide)
  have hruns : oneRun.heap.runs = [{ base := 0x100000, pages := 1 }] := by decide
  have hsecond : HeapStep oneRun (.kmalloc 4000 0x101000) twoRuns := by
    refine .next (Or.inr ⟨by decide, by decide, ?_⟩) (by decide)
    rw [hruns]
    intro r hr
    rw [List.mem_singleton.mp hr]
    exact Or.inr (by decide)
  have hlive : twoRuns.live = [(0x101030, 4000), (0x100030, 4000)] := by decide
  have hthird : HeapStep twoRuns (.kfree 0x100030) oneFreed :=
    .next ⟨4000, by rw [hlive]; decide⟩ (by decide)
  have hlive' : oneFreed.live = [(0x101030, 4000)] := by decide
  have hfourth : HeapStep oneFreed (.kfree 0x101030) bothFreed :=
    .next ⟨4000, by rw [hlive']; decide⟩ (by decide)
  refine ⟨_, .cons hfirst (.cons hsecond (.cons hthird (.cons hfourth (.nil _)))), ?_⟩
  rintro ⟨_, _, _, hsound, _⟩
  have hhead : bothFreed.heap.heapHead = 0x101000 := by decide
  have hreach : Reach bothFreed.heap 0x101000 := by
    rw [← hhead]
    exact .head (by rw [hhead]; decide)
  have hsize : sizeOf bothFreed.heap.mem 0x101000 = 8144 := by decide
  have hruns' : bothFreed.heap.runs =
      [{ base := 0x101000, pages := 1 }, { base := 0x100000, pages := 1 }] := by decide
  obtain ⟨r, hr, _, hstop⟩ := hsound.inRun 0x101000 hreach
  rw [hsize] at hstop
  rw [hruns'] at hr
  rcases List.mem_cons.mp hr with rfl | hr
  · exact absurd hstop (by decide)
  · rw [List.mem_singleton.mp hr] at hstop
    exact absurd hstop (by decide)

theorem reach_single {h : KHeap} {a b : Nat} (hhead : h.heapHead = a) (hnext : nextOf h.mem a = 0)
    (hb : Reach h b) : b = a := by
  induction hb with
  | head _ => exact hhead
  | next _ hne ih =>
    rw [ih] at hne
    exact absurd hnext hne

theorem heapGuard_kfree_single {s : HeapState} {a : Nat} (hhead : s.heap.heapHead = a)
    (hnext : nextOf s.heap.mem a = 0) (ptr : Nat) : HeapGuard s (.kfree ptr) := by
  intro b hb hne
  rw [reach_single hhead hnext hb] at hne
  exact absurd hnext hne

/-- One block is freed, cut for the next request, and its rest cut again. -/
theorem reused_block_sound : AllStates HeapSound (HeapState.start fun _ => 0)
      (traceOf HeapState.next (HeapState.start fun _ => 0)
        [.kmalloc 64 0x100000, .kfree 0x100030, .kmalloc 32 0, .kmallocZero 16 0]) := by
  have hfirst : HeapStep (HeapState.start fun _ => 0) (.kmalloc 64 0x100000) _ :=
    .next (answers_of_empty (by decide) (by decide)) (by decide)
  have hlive : ((HeapState.start fun _ => 0).next (.kmalloc 64 0x100000)).live =
      [(0x100030, 64)] := by decide
  have hhead : ((HeapState.start fun _ => 0).next (.kmalloc 64 0x100000)).heap.heapHead =
      0x100000 := by decide
  have hnext : nextOf ((HeapState.start fun _ => 0).next (.kmalloc 64 0x100000)).heap.mem 0x100000 =
      0 := by decide
  refine heapSound_run (.cons hfirst (.cons (.next ⟨64, by rw [hlive]; decide⟩ (by decide))
    (.cons (.next (Or.inl rfl) (by decide)) (.cons (.next (Or.inl rfl) (by decide))
      (.nil _))))) ⟨?_, ?_, ?_, ?_, trivial⟩
  · show (64 : Nat) ≤ 2 ^ 64 - 48
    decide
  · exact heapGuard_kfree_single hhead hnext 0x100030
  · show (32 : Nat) ≤ 2 ^ 64 - 48
    decide
  · show (16 : Nat) ≤ 2 ^ 64 - 48
    decide

end Chicago95.Kernel.Heap
