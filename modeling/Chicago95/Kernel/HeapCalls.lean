/-
# Chicago95.Kernel.HeapCalls — what `kmalloc`, `kmalloc_zero` and `kfree` make of a sound heap.

`HeapInv h bs`: the heap `h` lists the blocks `bs`, soundly. For each call, what it returns and that the
invariant survives:

* `firstFit_spec`, `takeBlock_spec`, `heapGrow_spec` — the three parts of `kmalloc`, together
  `kmalloc_spec`: blocks in use stay, the result points behind the header of a new one.
* `coalesce_spec` — the pass of `kfree`. It needs `MergesWithin`: two neighbours that are both free come
  from one page run. ⚠ The code does not check this.
-/
import Chicago95.Kernel.HeapList

namespace Chicago95.Kernel.Heap

open Chicago95.Lib.Extents Chicago95.Lib.Loop

/-- The heap over `bs`. -/
structure HeapInv (h : KHeap) (bs : List Block) : Prop where
  runs : GoodRuns h.runs
  good : Good h.runs bs
  seg : Seg h.mem h.heapHead bs 0

theorem HeapInv.congr {h : KHeap} {bs : List Block} {m : HeapMem} (hinv : HeapInv h bs)
    (hag : ∀ b ∈ bs, Agree h.mem m b) : HeapInv { h with mem := m } bs :=
  ⟨hinv.runs, hinv.good, hinv.seg.congr hag⟩

/-! ## `kmalloc` -/

theorem firstFit_spec {m : HeapMem} {size : Nat} :
    ∀ (fuel : Nat) {cur : Nat} {bs : List Block}, (∀ b ∈ bs, 0 < b.addr) → Seg m cur bs 0 →
      (∀ r, KHeap.firstFit m size fuel cur = some r → (r = 0 ∧ ∀ b ∈ bs, ¬b.Fits size) ∨
        ∃ pre b post, bs = pre ++ b :: post ∧ r = b.addr ∧ b.Fits size ∧ ∀ x ∈ pre, ¬x.Fits size) ∧
      (bs.length < fuel → (KHeap.firstFit m size fuel cur).isSome = true) := by
  intro fuel
  induction fuel with
  | zero =>
    intro cur bs _ _
    exact ⟨by rintro r ⟨⟩, fun h => absurd h (Nat.not_lt_zero _)⟩
  | succ fuel ih =>
    intro cur bs hpos hseg
    unfold KHeap.firstFit
    cases bs with
    | nil =>
      rw [if_pos (show cur = 0 from hseg)]
      exact ⟨fun r hr => Or.inl ⟨(Option.some.inj hr).symm, by simp⟩, fun _ => rfl⟩
    | cons b bs =>
      obtain ⟨rfl, hb, hrest⟩ := hseg
      have hne : b.addr ≠ 0 := Nat.ne_of_gt (hpos b List.mem_cons_self)
      have hfits : (freeOf m b.addr ≠ 0 ∧ size ≤ sizeOf m b.addr) ↔ b.Fits size := by
        rw [Block.Fits, hb.free, hb.size]
      rw [if_neg hne, if_neg (not_not_intro hb.magic)]
      split
      · rename_i hfit
        exact ⟨fun r hr => Or.inr ⟨[], b, bs, rfl, (Option.some.inj hr).symm, hfits.mp hfit, by simp⟩,
          fun _ => rfl⟩
      · rename_i hfit
        rw [hfits] at hfit
        obtain ⟨hspec, hsome⟩ := ih (fun x hx => hpos x (List.mem_cons_of_mem b hx)) hrest
        refine ⟨fun r hr => ?_, fun hlen => hsome (by simpa using hlen)⟩
        rcases hspec r hr with ⟨h0, hnone⟩ | ⟨pre, x, post, rfl, hx, hxfits, hnone⟩
        · exact Or.inl ⟨h0, List.forall_mem_cons.mpr ⟨hfit, hnone⟩⟩
        · exact Or.inr ⟨b :: pre, x, post, rfl, hx, hxfits, List.forall_mem_cons.mpr ⟨hfit, hnone⟩⟩

theorem Good.size_lt {runs : List Run} {bs : List Block} (h : Good runs bs) (hr : GoodRuns runs)
    {b : Block} (hb : b ∈ bs) : b.size + headerSize + pageSize ≤ 2 ^ 64 := by
  obtain ⟨hrun, hbase, hstop⟩ := h.inside b hb
  have h1 := hr.page_le hrun
  have h2 := hr.bounded _ hrun
  simp only [Block.stop] at hstop
  omega

theorem takeBlock_spec {h : KHeap} {pre post : List Block} {b : Block} {size : Nat}
    (hinv : HeapInv h (pre ++ b :: post)) (hsize : size ≤ b.size) (hal : size % 16 = 0) :
    HeapInv (h.takeBlock b.addr size) (pre ++ (b.taken size ++ post)) := by
  have hroom := hinv.good.size_lt hinv.runs (b := b) (by simp)
  have hwrap : wrap (size + headerSize + 32) = size + headerSize + 32 := by
    simp only [headerSize, pageSize] at hroom ⊢
    exact wrap_of_lt (by omega)
  have hseg := hinv.seg
  have hbs : sizeOf h.mem b.addr = b.size := by
    obtain ⟨_, _, _, hholds, _⟩ := seg_append.mp hseg
    exact hholds.size
  unfold KHeap.takeBlock Block.taken
  rw [hwrap, hbs]
  split
  · rename_i hsplit
    -- the first half is taken, the second half is a new free block
    have hgood' := hinv.good.split hsplit hal
    have hseg' := seg_splitBlock hinv.runs hinv.good hseg hsplit
    exact ⟨hinv.runs, hgood'.mark false, seg_setFree hgood' hseg' (by decide) (by decide)⟩
  · exact ⟨hinv.runs, hinv.good.mark false, seg_setFree hinv.good hseg (by decide) (by decide)⟩

/-! ## Growing -/

/-- A page run as `pmm_alloc_pages` may return it: page aligned, in the address space, and apart from
the ones returned before. -/
structure Fresh (runs : List Run) (r : Run) : Prop where
  aligned : r.base % pageSize = 0
  bounded : r.stop ≤ 2 ^ 64
  apart : ∀ s ∈ runs, Apart Run.base Run.stop r s

theorem GoodRuns.cons {runs : List Run} {r : Run} (h : GoodRuns runs) (hpos : 0 < r.base)
    (hr : Fresh runs r) : GoodRuns (r :: runs) where
  pos s hs := by
    rcases List.mem_cons.mp hs with rfl | hs
    · exact hpos
    · exact h.pos s hs
  aligned s hs := by
    rcases List.mem_cons.mp hs with rfl | hs
    · exact hr.aligned
    · exact h.aligned s hs
  bounded s hs := by
    rcases List.mem_cons.mp hs with rfl | hs
    · exact hr.bounded
    · exact h.bounded s hs
  apart := .cons hr.apart h.apart

/-- The block `heap_grow` makes of a page run. -/
def Run.whole (r : Run) : Block where
  addr := r.base
  size := r.pages * pageSize - headerSize
  free := true
  run := r

theorem Run.whole_stop {r : Run} (hpages : r.pages ≠ 0) : r.whole.stop = r.stop := by
  have : headerSize ≤ r.pages * pageSize := by
    simp only [headerSize, pageSize]
    omega
  simp only [Block.stop, Run.whole, Run.stop]
  omega

theorem Good.grow {runs : List Run} {bs : List Block} {r : Run} (h : Good runs bs)
    (hr : Fresh runs r) (hpages : r.pages ≠ 0) : Good (r :: runs) (r.whole :: bs) := by
  have hstop := Run.whole_stop hpages
  have hpos : r.base < r.stop := by
    simp only [Run.stop, pageSize]
    omega
  have hap : ∀ b ∈ bs, Apart Block.addr Block.stop r.whole b := by
    intro b hb
    obtain ⟨hrun, hbase, hbstop⟩ := h.inside b hb
    have := hr.apart _ hrun
    simp only [Apart, hstop] at this ⊢
    simp only [Run.whole]
    omega
  refine ⟨.cons hap h.apart, ?_, ?_, ?_⟩
  · intro b hb
    rcases List.mem_cons.mp hb with rfl | hb
    · exact ⟨List.mem_cons_self, Nat.le_refl _, Nat.le_of_eq hstop⟩
    · obtain ⟨hrun, hin⟩ := h.inside b hb
      exact ⟨List.mem_cons_of_mem r hrun, hin⟩
  · intro b hb
    rcases List.mem_cons.mp hb with rfl | hb
    · have := hr.aligned
      simp only [Run.whole, pageSize, headerSize] at this ⊢
      omega
    · exact h.aligned b hb
  · -- the old first block is in another run
    refine List.IsChain.cons h.contiguous fun b hb hrun => ?_
    obtain ⟨hmem, hbase, hbstop⟩ := h.inside b (List.mem_of_mem_head? hb)
    have := hr.apart _ hmem
    have hlt := b.addr_lt_stop
    rw [← show r = b.run from hrun] at this
    simp only [Apart] at this
    omega

theorem KHeap.pagesFor_cases {size : Nat} (h : size ≤ 2 ^ 64 - 48) :
    KHeap.pagesFor size = 0 ∨ size + headerSize ≤ KHeap.pagesFor size * pageSize := by
  simp only [KHeap.pagesFor, wrap, headerSize, pageSize]
  rcases Nat.lt_or_ge (size + 48 + 4096 - 1) (2 ^ 64) with hlt | hge
  · rw [Nat.mod_eq_of_lt hlt]
    omega
  · omega

theorem heapGrow_words {h : KHeap} {size base : Nat} (hbase : base ≠ 0)
    (hpages : KHeap.pagesFor size ≠ 0)
    (hhead : h.heapHead = 0 ∨ h.heapHead + headerSize ≤ base ∨ base + headerSize ≤ h.heapHead) :
    let m' := (h.heapGrow size base).2.mem
    (magicOf m' base = heapMagic ∧
      sizeOf m' base = sub64 (wrap (KHeap.pagesFor size * pageSize)) headerSize ∧
      freeOf m' base = 1 ∧ nextOf m' base = h.heapHead) ∧
    ∀ w, w < base ∨ base + headerSize ≤ w → h.heapHead = 0 ∨ w ≠ h.heapHead + 32 →
      m' w = h.mem w := by
  simp only [headerSize] at *
  simp only [KHeap.heapGrow, if_neg hpages, if_neg hbase, headerSize]
  by_cases h0 : h.heapHead = 0
  · rw [if_pos h0]
    simp only [magicOf, sizeOf, freeOf, nextOf, setPrev, setNext, setFree, setSize, setMagic]
    refine ⟨⟨?_, ?_, ?_, ?_⟩, fun w hw _ => ?_⟩
    all_goals
      simp (disch := omega) only [Function.update_of_ne, Function.update_self]
    omega
  · rw [if_neg h0]
    replace hhead := hhead.resolve_left h0
    simp only [magicOf, sizeOf, freeOf, nextOf, setPrev, setNext, setFree, setSize, setMagic]
    refine ⟨⟨?_, ?_, ?_, ?_⟩, fun w hw hne => ?_⟩
    case refine_5 =>
      replace hne := hne.resolve_left h0
      simp (disch := omega) only [Function.update_of_ne]
    all_goals
      simp (disch := omega) only [Function.update_of_ne, Function.update_self]
    omega

theorem heapGrow_spec {h : KHeap} {bs : List Block} {size base : Nat} {r : Run}
    (hinv : HeapInv h bs) (hbase : base ≠ 0) (hpages : KHeap.pagesFor size ≠ 0)
    (hr : r = { base := base, pages := KHeap.pagesFor size }) (hfresh : Fresh h.runs r) :
    (h.heapGrow size base).1 = base ∧ HeapInv (h.heapGrow size base).2 (r.whole :: bs) := by
  have hrbase : r.base = base := by rw [hr]
  have hrpages : r.pages = KHeap.pagesFor size := by rw [hr]
  have hpos : 0 < base := Nat.pos_of_ne_zero hbase
  have hsize : sub64 (wrap (KHeap.pagesFor size * pageSize)) headerSize = r.whole.size := by
    have hbound := hfresh.bounded
    simp only [Run.stop, hrbase, hrpages] at hbound
    have hlt : KHeap.pagesFor size * pageSize < 2 ^ 64 := by omega
    have hle : headerSize ≤ KHeap.pagesFor size * pageSize := by
      simp only [headerSize, pageSize]
      omega
    rw [wrap_of_lt hlt, sub64_of_le hlt hle, Run.whole, hrpages]
  have hgood := hinv.good.grow hfresh (by rw [hrpages]; exact hpages)
  have hstop := Run.whole_stop (r := r) (by rw [hrpages]; exact hpages)
  have hfst : (h.heapGrow size base).1 = base := by
    simp only [KHeap.heapGrow, if_neg hpages, if_neg hbase]
  have hruns : (h.heapGrow size base).2.runs = r :: h.runs := by
    simp only [KHeap.heapGrow, if_neg hpages, if_neg hbase, hr]
  have hheap : (h.heapGrow size base).2.heapHead = base := by
    simp only [KHeap.heapGrow, if_neg hpages, if_neg hbase]
  -- the old first block, if there is one, lies apart from the new one
  have hap : ∀ y ∈ bs, Apart Block.addr Block.stop r.whole y :=
    (List.pairwise_cons.mp hgood.apart).1
  have hwaddr : r.whole.addr = base := hrbase
  have hhead : h.heapHead = 0 ∨ ∃ z ∈ bs, z.addr = h.heapHead := by
    cases bs with
    | nil => exact Or.inl hinv.seg
    | cons z zs => exact Or.inr ⟨z, List.mem_cons_self, hinv.seg.1.symm⟩
  have hout : h.heapHead = 0 ∨ h.heapHead + headerSize ≤ base ∨ base + headerSize ≤ h.heapHead := by
    rcases hhead with h0 | ⟨z, hz, hzaddr⟩
    · exact Or.inl h0
    · have := hap z hz
      simp only [Apart, Block.stop, hwaddr, headerSize] at this ⊢
      omega
  obtain ⟨⟨hm, hs, hf, hn⟩, hrest⟩ := heapGrow_words hbase hpages hout
  refine ⟨hfst, ⟨?_, ?_, ?_⟩⟩
  · rw [hruns]
    exact hinv.runs.cons (by rw [hrbase]; exact hpos) hfresh
  · rw [hruns]
    exact hgood
  · rw [hheap]
    refine ⟨hwaddr.symm, ⟨?_, ?_, ?_⟩, ?_⟩
    · rw [hwaddr]
      exact hm
    · rw [hwaddr, hs, hsize]
    · rw [hwaddr, hf]
      exact ⟨fun _ => rfl, fun _ => Nat.one_ne_zero⟩
    · rw [hwaddr, hn]
      refine hinv.seg.congr fun y hy w h1 h2 => hrest w ?_ ?_
      · have := hap y hy
        simp only [Apart, Block.stop, hwaddr, headerSize] at this ⊢
        omega
      · rcases hhead with h0 | ⟨z, hz, hzaddr⟩
        · exact Or.inl h0
        · rw [← hzaddr]
          exact Or.inr (hinv.good.prev_outside hy hz h1 h2)

/-! ## The calls -/

/-- The answer of `pmm_alloc_pages` to a request of `n` bytes: null, or a fresh run. -/
def Answers (runs : List Run) (n base : Nat) : Prop :=
  base = 0 ∨ Fresh runs { base := base, pages := KHeap.pagesFor (KHeap.alignUp n) }

theorem KHeap.alignUp_spec {n : Nat} (h : n ≤ 2 ^ 64 - 48) :
    n ≤ KHeap.alignUp n ∧ KHeap.alignUp n ≤ 2 ^ 64 - 48 ∧ KHeap.alignUp n % 16 = 0 := by
  unfold KHeap.alignUp wrap
  rw [Nat.mod_eq_of_lt (by omega)]
  omega

/-- **What `kmalloc` does** with a request rounded up to `size`: nothing, or the first block with room is
taken, or a fresh run is put in front and taken whole. -/
inductive Took (h : KHeap) (size base : Nat) : List Block → Nat → KHeap → List Block → Prop
  | refused {bs : List Block} : (∀ x ∈ bs, ¬x.Fits size) → base = 0 ∨ KHeap.pagesFor size = 0 →
      Took h size base bs 0 h bs
  | found {pre post : List Block} {b : Block} : (∀ x ∈ pre, ¬x.Fits size) → b.Fits size →
      Took h size base (pre ++ b :: post) (wrap (b.addr + headerSize)) (h.takeBlock b.addr size)
        (pre ++ (b.taken size ++ post))
  | grown {bs : List Block} {r : Run} : (∀ x ∈ bs, ¬x.Fits size) →
      r = { base := base, pages := KHeap.pagesFor size } → base ≠ 0 → KHeap.pagesFor size ≠ 0 →
      Fresh h.runs r →
      Took h size base bs (wrap (r.base + headerSize)) (h.growFor size base).2 (r.whole.mark false :: bs)

theorem growFor_spec {h : KHeap} {bs : List Block} {size base : Nat} (hinv : HeapInv h bs)
    (hnone : ∀ x ∈ bs, ¬x.Fits size)
    (hans : base = 0 ∨ Fresh h.runs { base := base, pages := KHeap.pagesFor size }) :
    ∃ bs', HeapInv (h.growFor size base).2 bs' ∧
      Took h size base bs (h.growFor size base).1 (h.growFor size base).2 bs' := by
  by_cases hnull : (if KHeap.pagesFor size = 0 then 0 else base) = 0
  · -- no page run: the heap is as it was
    have hgrow : h.heapGrow size base = (0, h) := by
      simp only [KHeap.heapGrow, hnull, if_true]
    have hres : h.growFor size base = (0, h) := by
      simp only [KHeap.growFor, hgrow, if_true]
    have hwhy : base = 0 ∨ KHeap.pagesFor size = 0 := by
      by_cases hpages : KHeap.pagesFor size = 0
      · exact Or.inr hpages
      · rw [if_neg hpages] at hnull
        exact Or.inl hnull
    rw [hres]
    exact ⟨bs, hinv, .refused hnone hwhy⟩
  · have hpages : KHeap.pagesFor size ≠ 0 := by
      intro h0
      rw [if_pos h0] at hnull
      exact hnull rfl
    rw [if_neg hpages] at hnull
    obtain ⟨r, hr⟩ : ∃ r : Run, r = { base := base, pages := KHeap.pagesFor size } := ⟨_, rfl⟩
    have hfresh := hans.resolve_left hnull
    rw [← hr] at hfresh
    obtain ⟨hfst, hinv'⟩ := heapGrow_spec hinv hnull hpages hr hfresh
    have hwhole : r.whole.addr = base := by rw [hr]; rfl
    have hptr : (h.growFor size base).1 = wrap (r.base + headerSize) := by
      rw [show r.base = base from hwhole]
      simp only [KHeap.growFor, hfst, if_neg hnull]
    have hsegm : Seg (setFree _ r.whole.addr 0) _ ([] ++ r.whole.mark false :: bs) 0 :=
      seg_setFree hinv'.good hinv'.seg (by decide) (by decide)
    rw [hwhole] at hsegm
    have hmarked : Good _ ([] ++ r.whole.mark false :: bs) := Good.mark false hinv'.good
    refine ⟨r.whole.mark false :: bs, ⟨?_, ?_, ?_⟩, ?_⟩
    · simp only [KHeap.growFor, hfst, if_neg hnull]
      exact hinv'.runs
    · simp only [KHeap.growFor, hfst, if_neg hnull]
      exact hmarked
    · simp only [KHeap.growFor, hfst, if_neg hnull]
      exact hsegm
    · rw [hptr]
      exact .grown hnone hr hnull hpages hfresh

theorem KHeap.alignUp_mod (n : Nat) : KHeap.alignUp n % 16 = 0 := by
  simp only [KHeap.alignUp]
  omega

theorem kmalloc_cases {h h' : KHeap} {bs : List Block} {fuel n base p : Nat} (hinv : HeapInv h bs)
    (hn : n ≠ 0) (hans : Answers h.runs n base) (hcall : h.kmalloc fuel n base = some (p, h')) :
    ∃ bs', HeapInv h' bs' ∧ Took h (KHeap.alignUp n) base bs p h' bs' := by
  unfold KHeap.kmalloc at hcall
  rw [if_neg hn] at hcall
  obtain ⟨r, hwalk, hres⟩ := Option.map_eq_some_iff.mp hcall
  have hpos : ∀ b ∈ bs, 0 < b.addr := fun b hb => hinv.good.nonzero hinv.runs hb
  rcases (firstFit_spec fuel hpos hinv.seg).1 r hwalk with
    ⟨rfl, hnone⟩ | ⟨pre, b, post, rfl, rfl, hfits, hnone⟩
  · rw [if_pos rfl] at hres
    have hgrow := growFor_spec hinv hnone hans
    rw [hres] at hgrow
    exact hgrow
  · have hb : b ∈ pre ++ b :: post := by simp
    rw [if_neg (Nat.ne_of_gt (hpos b hb))] at hres
    obtain ⟨rfl, rfl⟩ := Prod.mk.inj hres
    exact ⟨_, takeBlock_spec hinv hfits.2 (KHeap.alignUp_mod n), .found hnone hfits⟩

theorem Took.inserted {h h' : KHeap} {bs bs' : List Block} {size base p : Nat} (htook : Took h size base bs p h' bs') :
    (p = 0 ∧ h' = h ∧ bs' = bs) ∨
    ∃ l k c, inUse bs = l ++ k ∧ inUse bs' = l ++ c :: k ∧ p = wrap (c.addr + headerSize) ∧
      (size ≤ 2 ^ 64 - 48 → size ≤ c.size) := by
  cases htook with
  | refused _ _ => exact Or.inl ⟨rfl, rfl, rfl⟩
  | @found pre post b _ hfits =>
    refine Or.inr ⟨inUse pre, inUse post, b.served size, ?_, ?_, by rw [Block.served_addr], fun _ =>
      hfits.served⟩
    · rw [inUse_append, inUse_cons_free hfits.1]
    · rw [inUse_append, inUse_append, inUse_taken, List.singleton_append]
  | @grown _ r _ hr _ hpages _ =>
    refine Or.inr ⟨[], inUse bs, r.whole.mark false, rfl, inUse_cons_used rfl bs, rfl, fun hsize => ?_⟩
    have := (KHeap.pagesFor_cases hsize).resolve_left hpages
    simp only [Block.mark_size, Run.whole, hr]
    omega

/-- What an allocation leaves: the blocks in use are still there, and a non-null result points behind
the header of a new one that is large enough. -/
structure Allocated (bs : List Block) (n p : Nat) (h' : KHeap) (bs' : List Block) : Prop where
  inv : HeapInv h' bs'
  kept : ∀ x ∈ bs, x.free = false → x ∈ bs'
  block : p ≠ 0 → ∃ b ∈ bs', b.addr + headerSize = p ∧ b.free = false ∧ n ≤ b.size ∧
    ∀ x ∈ bs, x.free = false → x.addr ≠ b.addr

theorem mem_of_insert {bs bs' l k : List Block} {c x : Block} (hold : inUse bs = l ++ k)
    (hnew : inUse bs' = l ++ c :: k) (hx : x ∈ bs) (hxf : x.free = false) : x ∈ bs' := by
  have hmem : x ∈ l ++ k := hold ▸ mem_inUse.mpr ⟨hx, hxf⟩
  refine (mem_inUse.mp (?_ : x ∈ inUse bs')).1
  rw [hnew]
  simp only [List.mem_append, List.mem_cons] at hmem ⊢
  tauto

theorem HeapInv.allocated {h' : KHeap} {bs bs' l k : List Block} {c : Block} {n p : Nat}
    (hinv : HeapInv h' bs') (hold : inUse bs = l ++ k) (hnew : inUse bs' = l ++ c :: k)
    (hptr : c.addr + headerSize = p) (hn : n ≤ c.size) : Allocated bs n p h' bs' := by
  obtain ⟨hc, hcused⟩ := mem_inUse.mp (hnew ▸ by simp : c ∈ inUse bs')
  -- the blocks in use lie apart from each other
  have hapart : (l ++ c :: k).Pairwise (Apart Block.addr Block.stop) := by
    rw [← hnew]
    exact hinv.good.apart.filter _
  obtain ⟨_, hck, hlc⟩ := List.pairwise_append.mp hapart
  refine ⟨hinv, fun x hx hxf => mem_of_insert hold hnew hx hxf, fun _ => ⟨c, hc, hptr, hcused, hn,
    fun x hx hxf heq => ?_⟩⟩
  have hxc : Apart Block.addr Block.stop x c := by
    have hx' : x ∈ l ++ k := hold ▸ mem_inUse.mpr ⟨hx, hxf⟩
    rcases List.mem_append.mp hx' with hx | hx
    · exact hlc x hx c List.mem_cons_self
    · exact (List.rel_of_pairwise_cons hck hx).symm
  have h1 := x.addr_lt_stop
  have h2 := c.addr_lt_stop
  simp only [Apart] at hxc
  omega

theorem Allocated.nothing {h : KHeap} {bs : List Block} (hinv : HeapInv h bs) (n : Nat) : Allocated bs n 0 h bs :=
  ⟨hinv, fun _ hx _ => hx, fun hne => absurd rfl hne⟩

theorem Allocated.mono {h : KHeap} {bs bs' : List Block} {n k p : Nat} (halloc : Allocated bs k p h bs')
    (hle : n ≤ k) : Allocated bs n p h bs' := by
  refine ⟨halloc.inv, halloc.kept, fun hp => ?_⟩
  obtain ⟨b, hb, hptr, hused, hk, hnew⟩ := halloc.block hp
  exact ⟨b, hb, hptr, hused, Nat.le_trans hle hk, hnew⟩

theorem HeapInv.wrap_ptr {h : KHeap} {bs : List Block} (hinv : HeapInv h bs) {b : Block} (hb : b ∈ bs)
    (hsize : b.size ≠ 0) : wrap (b.addr + headerSize) = b.addr + headerSize := by
  have hstop := hinv.good.stop_le hinv.runs hb
  simp only [Block.stop] at hstop
  exact wrap_of_lt (by omega)

theorem Took.kept {h h' : KHeap} {bs bs' : List Block} {size base p : Nat}
    (htook : Took h size base bs p h' bs') : ∀ x ∈ bs, x.free = false → x ∈ bs' := by
  intro x hx hxf
  rcases htook.inserted with ⟨_, _, rfl⟩ | ⟨l, k, c, hold, hnew, _⟩
  · exact hx
  · exact mem_of_insert hold hnew hx hxf

theorem Took.allocated {h h' : KHeap} {bs bs' : List Block} {n base p : Nat} (hn : n ≠ 0)
    (hbound : n ≤ 2 ^ 64 - 48) (hinv : HeapInv h bs) (hinv' : HeapInv h' bs')
    (htook : Took h (KHeap.alignUp n) base bs p h' bs') : Allocated bs n p h' bs' := by
  obtain ⟨hle, hsize, _⟩ := KHeap.alignUp_spec hbound
  rcases htook.inserted with ⟨rfl, rfl, rfl⟩ | ⟨l, k, c, hold, hnew, rfl, hfits⟩
  · exact .nothing hinv n
  · have hc : c ∈ bs' := (mem_inUse.mp (hnew ▸ by simp : c ∈ inUse bs')).1
    replace hfits := hfits hsize
    exact hinv'.allocated hold hnew (hinv'.wrap_ptr hc (by omega)).symm (by omega)

theorem kmalloc_spec {h h' : KHeap} {bs : List Block} {fuel n base p : Nat} (hinv : HeapInv h bs)
    (hn : n ≤ 2 ^ 64 - 48) (hans : Answers h.runs n base)
    (hcall : h.kmalloc fuel n base = some (p, h')) : ∃ bs', Allocated bs n p h' bs' := by
  by_cases hn0 : n = 0
  · rw [KHeap.kmalloc, if_pos hn0] at hcall
    obtain ⟨rfl, rfl⟩ := Prod.mk.inj (Option.some.inj hcall)
    exact ⟨bs, .nothing hinv n⟩
  · obtain ⟨bs', hinv', htook⟩ := kmalloc_cases hinv hn0 hans hcall
    exact ⟨bs', htook.allocated hn0 hn hinv hinv'⟩

theorem kmalloc_returns {h : KHeap} {bs : List Block} {fuel : Nat} (hinv : HeapInv h bs)
    (hfuel : bs.length < fuel) (n base : Nat) : (h.kmalloc fuel n base).isSome = true := by
  unfold KHeap.kmalloc
  split
  · rfl
  · rw [Option.isSome_map]
    exact (firstFit_spec fuel (fun b hb => hinv.good.nonzero hinv.runs hb) hinv.seg).2 hfuel

theorem zeroByte_of_ne {m : HeapMem} {p w : Nat} (h : w ≠ p / 8 * 8) : zeroByte m p w = m w :=
  Function.update_of_ne h ..

theorem zeroBytes_outside {m : HeapMem} {p n w : Nat} (hp : p % 16 = 0) (hbound : p + n ≤ 2 ^ 64)
    (hw : w < p ∨ p + n ≤ w) : KHeap.zeroBytes m p n w = m w := by
  unfold KHeap.zeroBytes
  refine forEach_preserves (P := fun m' : HeapMem => m' w = m w) rfl fun i m' hi hm' => ?_
  rw [wrap_of_lt (by omega), zeroByte_of_ne (by omega), hm']

theorem HeapInv.payload {h : KHeap} {bs : List Block} (hinv : HeapInv h bs) {b x : Block}
    (hb : b ∈ bs) (hx : x ∈ bs) {w : Nat} (h1 : x.addr ≤ w) (h2 : w < x.addr + 32) :
    w < b.addr + headerSize ∨ b.stop ≤ w := by
  rcases hinv.good.eq_or_apart hx hb with rfl | hap
  · simp only [headerSize]
    omega
  · simp only [Apart, Block.stop, headerSize] at hap ⊢
    omega

theorem Allocated.zeroed {bs bs' : List Block} {h : KHeap} {n p : Nat} (halloc : Allocated bs n p h bs') :
    Allocated bs n p { h with mem := if p = 0 then h.mem else KHeap.zeroBytes h.mem p n } bs' := by
  refine ⟨?_, halloc.kept, halloc.block⟩
  by_cases hp : p = 0
  · rw [if_pos hp]
    exact halloc.inv
  rw [if_neg hp]
  obtain ⟨b, hb, hptr, _, hfits, _⟩ := halloc.block hp
  refine halloc.inv.congr fun x hx w h1 h2 => ?_
  have hal := (halloc.inv.good.aligned b hb).1
  have hstop := halloc.inv.good.stop_le halloc.inv.runs hb
  have hout := halloc.inv.payload hb hx h1 h2
  simp only [Block.stop] at hstop hout
  refine zeroBytes_outside ?_ ?_ ?_
  · simp only [headerSize] at hptr
    omega
  · omega
  · omega

theorem kmallocZero_cases {h h' : KHeap} {fuel n base p : Nat}
    (hcall : h.kmallocZero fuel n base = some (p, h')) :
    ∃ h₁, h.kmalloc fuel n base = some (p, h₁) ∧
      h' = { h₁ with mem := if p = 0 then h₁.mem else KHeap.zeroBytes h₁.mem p n } := by
  obtain ⟨⟨q, h₁⟩, hmalloc, hres⟩ := Option.map_eq_some_iff.mp hcall
  split at hres
  · rename_i hq0
    obtain ⟨rfl, rfl⟩ := Prod.mk.inj hres
    exact ⟨_, hmalloc, by rw [if_pos hq0]⟩
  · rename_i hq0
    obtain ⟨rfl, rfl⟩ := Prod.mk.inj hres
    exact ⟨_, hmalloc, by rw [if_neg hq0]⟩

theorem kmallocZero_spec {h h' : KHeap} {bs : List Block} {fuel n base p : Nat}
    (hinv : HeapInv h bs) (hn : n ≤ 2 ^ 64 - 48) (hans : Answers h.runs n base)
    (hcall : h.kmallocZero fuel n base = some (p, h')) : ∃ bs', Allocated bs n p h' bs' := by
  obtain ⟨h₁, hmalloc, rfl⟩ := kmallocZero_cases hcall
  obtain ⟨bs', halloc⟩ := kmalloc_spec hinv hn hans hmalloc
  exact ⟨bs', halloc.zeroed⟩

/-! ## `kfree` -/

/-- Neighbours that are both free come from one page run. -/
def MergesWithin (bs : List Block) : Prop :=
  List.IsChain (fun b c => b.free = true → c.free = true → b.run = c.run) bs

theorem MergesWithin.join {pre post : List Block} {b c : Block}
    (h : MergesWithin (pre ++ b :: c :: post)) (hb : b.free = true) (hc : c.free = true) :
    MergesWithin (pre ++ ([b.join c] ++ post)) := by
  have hbc : b.run = c.run := (List.isChain_append_cons_cons.mp h).2.1 hb hc
  refine isChain_replace (l := [b, c]) h (List.cons_ne_nil _ _) (List.cons_ne_nil _ _)
    (.singleton _) ?_ ?_
  · rintro p x hx y hy hpx hpf _
    obtain rfl : b = x := Option.some.inj hx
    obtain rfl : b.join c = y := Option.some.inj hy
    exact hpx hpf hb
  · rintro q x hx y hy hxq _ hqf
    obtain rfl : c = x := Option.some.inj hx
    obtain rfl : b.join c = y := Option.some.inj hy
    rw [Block.join_run, hbc]
    exact hxq hc hqf

/-- What the pass of `kfree` leaves of the blocks `bs`: a sound list with the same blocks in use, which
takes up the same bytes. -/
structure Merged (runs : List Run) (head : Nat) (bs : List Block) (m : HeapMem)
    (bs' : List Block) : Prop where
  good : Good runs bs'
  seg : Seg m head bs' 0
  inUse : inUse bs' = inUse bs
  covered : covered bs' = covered bs

theorem coalesce_spec {runs : List Run} {head : Nat} (hruns : GoodRuns runs) :
    ∀ (fuel : Nat) (pre bs : List Block) {cur : Nat} {m : HeapMem}, Good runs (pre ++ bs) →
      Seg m head pre cur → Seg m cur bs 0 → MergesWithin (pre ++ bs) →
      (∀ m', KHeap.coalesce fuel cur m = some m' → ∃ bs', Merged runs head (pre ++ bs) m' bs') ∧
      (2 * bs.length < fuel → (KHeap.coalesce fuel cur m).isSome = true) := by
  intro fuel
  induction fuel with
  | zero =>
    intro pre bs cur m _ _ _ _
    exact ⟨by rintro m' ⟨⟩, fun h => absurd h (Nat.not_lt_zero _)⟩
  | succ fuel ih =>
    intro pre bs cur m hgood hpre hseg hmerge
    unfold KHeap.coalesce
    cases bs with
    | nil =>
      obtain rfl : cur = 0 := hseg
      rw [if_pos rfl]
      refine ⟨fun m' hm' => ⟨pre, ?_⟩, fun _ => rfl⟩
      obtain rfl : m = m' := Option.some.inj hm'
      rw [List.append_nil] at hgood ⊢
      exact ⟨hgood, hpre, rfl, rfl⟩
    | cons b bs =>
      have hfull : Seg m head (pre ++ b :: bs) 0 := seg_append.mpr ⟨cur, hpre, hseg⟩
      obtain ⟨rfl, hb, hrest⟩ := hseg
      have hne : b.addr ≠ 0 := Nat.ne_of_gt (hgood.nonzero hruns (b := b) (by simp))
      rw [if_neg hne, if_neg (not_not_intro hb.magic)]
      split
      · -- the next block is free too: it is taken in, and the walk stays where it is
        rename_i hcond
        obtain ⟨hbfree, hnext, hcfree⟩ := hcond
        cases bs with
        | nil => exact absurd hrest hnext
        | cons c bs =>
          have hbf := hb.free.mp hbfree
          have hcaddr : nextOf m b.addr = c.addr := hrest.1
          have hcf : c.free = true := by
            rw [hcaddr] at hcfree
            exact hrest.2.1.free.mp hcfree
          have hrun : b.run = c.run := (List.isChain_append_cons_cons.mp hmerge).2.1 hbf hcf
          obtain ⟨d, hpre', hseg'⟩ := seg_append.mp (seg_mergeNext hgood hfull)
          obtain rfl : d = b.addr := hseg'.1
          obtain ⟨hspec, hsome⟩ := ih pre _ (hgood.join hruns hrun) hpre' hseg'
            (hmerge.join hbf hcf)
          refine ⟨fun m' hm' => ?_, fun hlen => hsome ?_⟩
          · obtain ⟨bs', hmerged⟩ := hspec m' hm'
            refine ⟨bs', hmerged.good, hmerged.seg, ?_, ?_⟩
            · rw [hmerged.inUse, inUse_append, inUse_append, inUse_append, inUse_cons_free hbf,
                inUse_cons_free hcf, inUse_cons_free (b := b.join c) hbf]
              rfl
            · rw [hmerged.covered]
              simp only [covered_append, covered_cons, covered_nil, hgood.join_size hruns hrun]
              omega
          · simp only [List.length_append, List.length_cons, List.length_nil] at hlen ⊢
            omega
      · -- the walk goes on behind `b`
        have happ : pre ++ b :: bs = (pre ++ [b]) ++ bs := by simp
        rw [happ] at hgood hmerge
        have hpre' : Seg m head (pre ++ [b]) (nextOf m b.addr) :=
          seg_append.mpr ⟨b.addr, hpre, rfl, hb, rfl⟩
        obtain ⟨hspec, hsome⟩ := ih _ bs hgood hpre' hrest hmerge
        rw [happ]
        refine ⟨hspec, fun hlen => hsome ?_⟩
        simp only [List.length_cons] at hlen
        omega

/-- What `kfree` of the block `b` between `pre` and `post` leaves. -/
structure Freed (h : KHeap) (pre : List Block) (b : Block) (post : List Block) (h' : KHeap)
    (bs' : List Block) : Prop where
  inv : HeapInv h' bs'
  inUse : inUse bs' = inUse pre ++ inUse post
  covered : covered bs' = covered (pre ++ b :: post)
  heapUsed : h'.heapUsed = sub64 h.heapUsed b.size
  heapTotal : h'.heapTotal = h.heapTotal

theorem Freed.kept {h h' : KHeap} {pre post bs' : List Block} {b : Block}
    (hfreed : Freed h pre b post h' bs') {x : Block} (hx : x ∈ pre ++ b :: post)
    (hused : x.free = false) (hne : x ≠ b) : x ∈ bs' := by
  have hx' : x ∈ pre ∨ x ∈ post := by simpa [hne] using hx
  refine (mem_inUse.mp (?_ : x ∈ Heap.inUse bs')).1
  rw [hfreed.inUse, List.mem_append, mem_inUse, mem_inUse]
  exact hx'.imp (fun h => ⟨h, hused⟩) fun h => ⟨h, hused⟩

theorem kfree_spec {h : KHeap} {pre post : List Block} {b : Block} {fuel : Nat}
    (hinv : HeapInv h (pre ++ b :: post)) (hused : b.free = false)
    (hmerge : MergesWithin (pre ++ b.mark true :: post)) :
    (∀ h', h.kfree fuel (b.addr + headerSize) = some h' → ∃ bs', Freed h pre b post h' bs') ∧
    (2 * (pre ++ b :: post).length < fuel → (h.kfree fuel (b.addr + headerSize)).isSome = true) := by
  have hb : b ∈ pre ++ b :: post := by simp
  have hstop := hinv.good.stop_le hinv.runs hb
  have hlt := b.addr_lt_stop
  obtain ⟨_, _, _, hholds, _⟩ := seg_append.mp hinv.seg
  have hblock : sub64 (b.addr + headerSize) headerSize = b.addr :=
    sub64_add (by omega) (by decide)
  have hfree : freeOf h.mem b.addr = 0 := by
    by_contra hne
    rw [hholds.free.mp hne] at hused
    cases hused
  have hcall : h.kfree fuel (b.addr + headerSize) =
      (KHeap.coalesce fuel h.heapHead (setFree h.mem b.addr 1)).map fun m =>
        { h with mem := m, heapUsed := sub64 h.heapUsed (sizeOf h.mem b.addr) } := by
    unfold KHeap.kfree
    rw [if_neg (by simp only [headerSize]; omega)]
    simp only [hblock]
    rw [if_neg (not_not_intro hholds.magic), if_neg (not_not_intro hfree)]
  -- the list with the block marked, from its head
  have hseg : Seg (setFree h.mem b.addr 1) h.heapHead (pre ++ b.mark true :: post) 0 :=
    seg_setFree hinv.good hinv.seg (by decide) (by decide)
  obtain ⟨hspec, hsome⟩ := coalesce_spec hinv.runs fuel [] (pre ++ b.mark true :: post)
    (hinv.good.mark true) rfl hseg hmerge
  rw [hcall]
  refine ⟨fun h' hh' => ?_, fun hlen => ?_⟩
  · obtain ⟨m, hm, rfl⟩ := Option.map_eq_some_iff.mp hh'
    obtain ⟨bs', hmerged⟩ := hspec m hm
    refine ⟨bs', ⟨hinv.runs, hmerged.good, hmerged.seg⟩, ?_, ?_, by rw [hholds.size], rfl⟩
    · rw [hmerged.inUse, List.nil_append, inUse_append, inUse_cons_free rfl]
    · rw [hmerged.covered]
      simp
  · rw [Option.isSome_map]
    refine hsome ?_
    simpa using hlen

end Chicago95.Kernel.Heap
