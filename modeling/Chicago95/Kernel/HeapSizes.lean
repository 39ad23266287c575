/-
# Chicago95.Kernel.HeapSizes — what `kmalloc`, `kmalloc_zero` and `kmalloc_aligned` hand out.

A non-null result is to point to at least the bytes asked for, inside one block in use (`Serves`); the
result of `kmalloc_aligned` is to start on a page boundary; and `kfree` of it is to make that block free
(`FreedBy`).
-/
import Chicago95.Kernel.HeapAccounts

namespace Chicago95.Kernel.Heap

open Chicago95.Lib.Extents Chicago95.Lib.Transition

/-! ## What `kfree` does to one header

For lists of headers alone: a merge may join blocks of different page runs here. -/

/-- Headers do not overlap. -/
def HeadersApart (as : List Nat) : Prop :=
  ∀ x ∈ as, ∀ y ∈ as, x = y ∨ x + headerSize ≤ y ∨ y + headerSize ≤ x

theorem HeapInv.headersApart {h : KHeap} {bs : List Block} (hinv : HeapInv h bs) :
    HeadersApart (bs.map Block.addr) := by
  intro x hx y hy
  obtain ⟨b, hb, rfl⟩ := List.mem_map.mp hx
  obtain ⟨c, hc, rfl⟩ := List.mem_map.mp hy
  rcases hinv.good.eq_or_apart hb hc with rfl | hap
  · exact Or.inl rfl
  · simp only [Apart, Block.stop] at hap
    omega

theorem HeapInv.nodup {h : KHeap} {bs : List Block} (hinv : HeapInv h bs) : (bs.map Block.addr).Nodup := by
  refine List.pairwise_map.mpr (hinv.good.apart.imp fun {x y} hap => ?_)
  simp only [Apart, Block.stop, headerSize] at hap
  omega

theorem Listed.congr {m m' : HeapMem} : ∀ {as : List Nat} {a : Nat}, Listed m a as →
    (∀ x ∈ as, nextOf m' x = nextOf m x) → Listed m' a as
  | [], _, h, _ => h
  | x :: _, _, ⟨ha, hne, h⟩, hnext => by
      refine ⟨ha, hne, ?_⟩
      rw [hnext x List.mem_cons_self]
      exact h.congr fun y hy => hnext y (List.mem_cons_of_mem x hy)

theorem listed_mergeNext {m : HeapMem} {cur c : Nat} {as all : List Nat} (hall : HeadersApart all)
    (hsub : ∀ x ∈ cur :: c :: as, x ∈ all) (hnodup : (cur :: c :: as).Nodup) (hlist : Listed m cur (cur :: c :: as)) :
    Listed (KHeap.mergeNext m cur) cur (cur :: as) ∧ ∀ a ∈ all, freeOf (KHeap.mergeNext m cur) a = freeOf m a := by
  obtain ⟨_, hcur, hnext, _, hrest⟩ := hlist
  have hcurall := hsub cur List.mem_cons_self
  have hasall : ∀ x ∈ as, x ∈ all := fun x hx => hsub x (by simp [hx])
  have hne : cur ≠ c ∧ cur ∉ as := by
    obtain ⟨h, _⟩ := List.nodup_cons.mp hnodup
    simpa using h
  have hcap := (hall cur hcurall c (hsub c (by simp))).resolve_left hne.1
  -- the successor of the block taken in is null or another header
  have hback : nextOf m c = 0 ∨ nextOf m c ∈ all ∧ nextOf m c ≠ cur := by
    cases as with
    | nil => exact Or.inl hrest
    | cons z zs =>
      rw [hrest.1]
      exact Or.inr ⟨hasall z List.mem_cons_self, fun heq => hne.2 (by simp [← heq])⟩
  have hbackap : nextOf m c = 0 ∨ nextOf m c + headerSize ≤ cur ∨ cur + headerSize ≤ nextOf m c :=
    hback.imp_right fun h => ((hall cur hcurall _ h.1).resolve_left (Ne.symm h.2)).symm
  rw [← hnext] at hcap hbackap
  obtain ⟨⟨_, _, hf, hn⟩, hout⟩ := mergeNext_words hcap.symm hbackap
  rw [hnext] at hn hout
  -- words of the other headers, the link back of one of them apart
  have hword : ∀ x ∈ all, x ≠ cur → ∀ k, k = 16 ∨ k = 24 →
      KHeap.mergeNext m cur (x + k) = m (x + k) := by
    intro x hx hxcur k hk
    have hap := (hall cur hcurall x hx).resolve_left (Ne.symm hxcur)
    simp only [headerSize] at hap
    refine hout _ (by simp only [headerSize]; omega) (hback.imp_right fun hb => ?_)
    rcases hall x hx _ hb.1 with heq | hap
    · omega
    · simp only [headerSize] at hap
      omega
  refine ⟨⟨rfl, hcur, ?_⟩, fun a ha => ?_⟩
  · rw [hn]
    exact hrest.congr fun x hx =>
      hword x (hasall x hx) (fun heq => hne.2 (heq ▸ hx)) 24 (Or.inr rfl)
  · by_cases hacur : a = cur
    · rw [hacur]
      exact hf
    · rw [freeOf, freeOf, hword a ha hacur 16 (Or.inl rfl)]

theorem coalesce_free {all : List Nat} (hall : HeadersApart all) :
    ∀ (fuel : Nat) (as : List Nat) {cur : Nat} {m : HeapMem}, (∀ x ∈ as, x ∈ all) → as.Nodup → Listed m cur as →
      (∀ m', KHeap.coalesce fuel cur m = some m' → ∀ a ∈ all, freeOf m' a = freeOf m a) ∧
      (2 * as.length < fuel → (KHeap.coalesce fuel cur m).isSome = true) := by
  intro fuel
  induction fuel with
  | zero =>
    intro as cur m _ _ _
    exact ⟨by rintro m' ⟨⟩, fun h => absurd h (Nat.not_lt_zero _)⟩
  | succ fuel ih =>
    intro as cur m hsub hnodup hlist
    unfold KHeap.coalesce
    have hstay : ∀ m', some m = some m' → ∀ a ∈ all, freeOf m' a = freeOf m a := by
      rintro m' hm' a _
      rw [Option.some.inj hm']
    cases as with
    | nil =>
      rw [if_pos (show cur = 0 from hlist)]
      exact ⟨hstay, fun _ => rfl⟩
    | cons x as =>
      obtain ⟨rfl, hne, hrest⟩ := hlist
      rw [if_neg hne]
      split
      · exact ⟨hstay, fun _ => rfl⟩
      · split
        · rename_i hcond
          cases as with
          | nil => exact absurd hrest hcond.2.1
          | cons c as =>
            obtain ⟨hlist', hfree⟩ := listed_mergeNext hall hsub hnodup ⟨rfl, hne, hrest⟩
            obtain ⟨hspec, hsome⟩ := ih (cur :: as)
              (fun y hy => hsub y (by
                rcases List.mem_cons.mp hy with rfl | hy <;> simp_all))
              (hnodup.sublist (by simp)) hlist'
            refine ⟨fun m' hm' a ha => (hspec m' hm' a ha).trans (hfree a ha), fun hlen =>
              hsome ?_⟩
            simp only [List.length_cons] at hlen ⊢
            omega
        · obtain ⟨hspec, hsome⟩ := ih as (fun y hy => hsub y (List.mem_cons_of_mem cur hy))
            (List.nodup_cons.mp hnodup).2 hrest
          refine ⟨hspec, fun hlen => hsome ?_⟩
          simp only [List.length_cons] at hlen
          omega

theorem kfree_used {h : KHeap} {fuel p : Nat} (hp : p ≠ 0)
    (hmagic : magicOf h.mem (sub64 p headerSize) = heapMagic)
    (hfree : freeOf h.mem (sub64 p headerSize) = 0) :
    h.kfree fuel p = (KHeap.coalesce fuel h.heapHead (setFree h.mem (sub64 p headerSize) 1)).map
      fun m => { h with mem := m, heapUsed := sub64 h.heapUsed (sizeOf h.mem (sub64 p headerSize)) } := by
  unfold KHeap.kfree
  rw [if_neg hp]
  simp only
  rw [if_neg (not_not_intro hmagic), if_neg (not_not_intro hfree)]

theorem HeapInv.listed_setFree {h : KHeap} {bs : List Block} (hinv : HeapInv h bs) {a v : Nat}
    (hout : ∀ b ∈ bs, b.addr + 24 ≠ a + 16) : Listed (setFree h.mem a v) h.heapHead (bs.map Block.addr) := by
  refine hinv.listed.congr fun x hx => ?_
  obtain ⟨b, hb, rfl⟩ := List.mem_map.mp hx
  exact Function.update_of_ne (hout b hb) ..

theorem kfree_frees {h : KHeap} {bs : List Block} (hinv : HeapInv h bs) {b : Block} (hb : b ∈ bs)
    (hused : b.free = false) : (∃ fuel, (h.kfree fuel (b.addr + headerSize)).isSome = true) ∧
      ∀ fuel h', h.kfree fuel (b.addr + headerSize) = some h' → freeOf h'.mem b.addr ≠ 0 := by
  have hholds := hinv.holds hb
  have hstop := hinv.good.stop_le hinv.runs hb
  have hlt := b.addr_lt_stop
  have hblock : sub64 (b.addr + headerSize) headerSize = b.addr := sub64_add (by omega) (by decide)
  have hfree : freeOf h.mem b.addr = 0 := by
    by_contra hne
    rw [hholds.free.mp hne] at hused
    cases hused
  have hcall : ∀ fuel, h.kfree fuel (b.addr + headerSize) = _ := fun fuel =>
    kfree_used (by simp only [headerSize]; omega) (by rw [hblock]; exact hholds.magic)
      (by rw [hblock]; exact hfree)
  simp only [hblock] at hcall
  have hlist : Listed (setFree h.mem b.addr 1) h.heapHead (bs.map Block.addr) := by
    refine hinv.listed_setFree fun c hc => ?_
    rcases hinv.good.eq_or_apart hc hb with rfl | hap
    · omega
    · simp only [Apart, Block.stop, headerSize] at hap
      omega
  have hspec := fun fuel => coalesce_free hinv.headersApart fuel _ (fun _ hx => hx) hinv.nodup hlist
  refine ⟨⟨2 * (bs.map Block.addr).length + 1, ?_⟩, fun fuel h' hh' => ?_⟩
  · rw [hcall, Option.isSome_map]
    exact (hspec _).2 (Nat.lt_succ_self _)
  · rw [hcall] at hh'
    obtain ⟨m, hm, rfl⟩ := Option.map_eq_some_iff.mp hh'
    show freeOf m b.addr ≠ 0
    rw [(hspec fuel).1 m hm b.addr (List.mem_map_of_mem hb)]
    simp only [freeOf, setFree, Function.update_self]
    omega

theorem kfree_inside {h h' : KHeap} {bs : List Block} (hinv : HeapInv h bs) {b : Block} (hb : b ∈ bs)
    (hused : b.free = false) {p fuel : Nat} (hstart : b.addr + headerSize + 16 ≤ p) (hend : p < b.stop)
    (hcall : h.kfree fuel p = some h') : freeOf h'.mem b.addr = 0 := by
  have hholds := hinv.holds hb
  have hstop := hinv.good.stop_le hinv.runs hb
  simp only [headerSize] at hstart
  have hblock : sub64 p headerSize = p - headerSize :=
    sub64_of_le (by omega) (by simp only [headerSize]; omega)
  have hfree : freeOf h.mem b.addr = 0 := by
    by_contra hne
    rw [hholds.free.mp hne] at hused
    cases hused
  by_cases hmagic : magicOf h.mem (sub64 p headerSize) = heapMagic
  · by_cases hset : freeOf h.mem (sub64 p headerSize) = 0
    · rw [kfree_used (by omega) hmagic hset, hblock] at hcall
      obtain ⟨m, hm, rfl⟩ := Option.map_eq_some_iff.mp hcall
      -- what is written looks like a header, but lies behind the `free` and `next` of the block
      have hlist : Listed (setFree h.mem (p - headerSize) 1) h.heapHead (bs.map Block.addr) := by
        refine hinv.listed_setFree fun c hc => ?_
        rcases hinv.good.eq_or_apart hc hb with rfl | hap
        · simp only [headerSize]
          omega
        · simp only [Apart, Block.stop, headerSize] at hap hend ⊢
          omega
      show freeOf m b.addr = 0
      rw [(coalesce_free hinv.headersApart fuel _ (fun _ hx => hx) hinv.nodup hlist).1 m hm b.addr
        (List.mem_map_of_mem hb), ← hfree, freeOf, freeOf]
      refine congrArg (· % 2 ^ 32) (Function.update_of_ne ?_ ..)
      simp only [headerSize]
      omega
    · rw [KHeap.kfree, if_neg (by omega)] at hcall
      simp only at hcall
      rw [if_neg (not_not_intro hmagic), if_pos hset] at hcall
      obtain rfl := Option.some.inj hcall
      exact hfree
  · rw [KHeap.kfree, if_neg (by omega)] at hcall
    simp only at hcall
    rw [if_pos hmagic] at hcall
    obtain rfl := Option.some.inj hcall
    exact hfree

/-! ## The property -/

/-- The block in use with its header at `a`, inside a page run, holds the `n` bytes from `p` on. -/
structure Serves (h : KHeap) (n p a : Nat) : Prop where
  listed : Reach h a
  used : freeOf h.mem a = 0
  inRun : ∃ r ∈ h.runs, r.base ≤ a ∧ a + headerSize + sizeOf h.mem a ≤ r.stop
  starts : a + headerSize ≤ p
  ends : p + n ≤ a + headerSize + sizeOf h.mem a

/-- `kfree` of `p` returns, and leaves the block at `a` free. -/
def FreedBy (h : KHeap) (p a : Nat) : Prop :=
  (∃ fuel, (h.kfree fuel p).isSome = true) ∧
    ∀ fuel h', h.kfree fuel p = some h' → freeOf h'.mem a ≠ 0

/-- `p` is good for `n` bytes and for `kfree`. -/
def Granted (h : KHeap) (n p : Nat) : Prop := ∃ a, Serves h n p a ∧ FreedBy h p a

/-- A call of before, or one of `kmalloc_aligned`. -/
inductive AllocCall where
  | call (c : HeapCall)
  | aligned (n base : Nat)

/-- One step of a run with `kmalloc_aligned` in it. -/
def AllocStep (s : HeapState) (c : AllocCall) (t : HeapState) : Prop :=
  match c with
  | .call c => HeapStep s c t
  | .aligned n base => Answers s.heap.runs (wrap (n + pageSize + headerSize)) base ∧
      ∃ fuel, (s.heap.kmallocAligned fuel n base).map (s.received n) = some t

/-- **The property of a step**: what is returned is granted, and a live pointer is freed with its block. -/
def AllocLaw (s : HeapState) (c : AllocCall) (t : HeapState) : Prop :=
  match c with
  | .call (.kmalloc n base) => ∀ fuel p h', s.heap.kmalloc fuel n base = some (p, h') → p ≠ 0 →
      Granted h' n p
  | .call (.kmallocZero n base) => ∀ fuel p h', s.heap.kmallocZero fuel n base = some (p, h') →
      p ≠ 0 → Granted h' n p
  | .aligned n base => ∀ fuel p h', s.heap.kmallocAligned fuel n base = some (p, h') → p ≠ 0 →
      p % pageSize = 0 ∧ Granted h' n p
  | .call (.kfree ptr) => ∃ n a, (ptr, n) ∈ s.live ∧ Serves s.heap n ptr a ∧ freeOf t.heap.mem a ≠ 0
  | .call (.write _) => True

/-- Nothing is found for a request: no block with room and no page run, or it would start past `limit`,
where the pointer wraps to null. -/
def NoAnswer (size base limit : Nat) : Option Nat → Prop
  | some a => limit < a + headerSize
  | none => base = 0 ∨ KHeap.pagesFor size = 0 ∨ limit < base + headerSize

/-- The payload of the block found starts on a page boundary. -/
def OnPage : Option Nat → Prop
  | some a => (a + headerSize) % pageSize = 0
  | none => False

/-- What a request of `kmalloc` or `kmalloc_zero` needs. -/
def SizeFits (h : KHeap) (n base : Nat) : Prop :=
  n ≤ 2 ^ 64 - 48 ∨ ∀ as, Listed h.mem h.heapHead as →
    NoAnswer (KHeap.alignUp n) base (2 ^ 64 - 1) (firstRoom h.mem (KHeap.alignUp n) as)

/-- What a request of `kmalloc_aligned` needs, `size` being what it passes on. -/
def AlignedFits (h : KHeap) (n base size : Nat) : Prop :=
  size = 0 ∨ ∀ as, Listed h.mem h.heapHead as →
    NoAnswer (KHeap.alignUp size) base (2 ^ 64 - pageSize) (firstRoom h.mem (KHeap.alignUp size) as) ∨
    n + pageSize + headerSize ≤ 2 ^ 64 - 48 ∧ OnPage (firstRoom h.mem (KHeap.alignUp size) as)

/-- The condition on a request. -/
def SizeGuard (s : HeapState) : AllocCall → Prop
  | .call (.kmalloc n base) => SizeFits s.heap n base
  | .call (.kmallocZero n base) => SizeFits s.heap n base
  | .aligned n base => AlignedFits s.heap n base (wrap (n + pageSize + headerSize))
  | _ => True

/-- `kfree` merges within page runs. -/
def MergeGuard (s : HeapState) : AllocCall → Prop
  | .call (.kfree ptr) => HeapGuard s (.kfree ptr)
  | _ => True

/-! ## What is handed out -/

theorem HeapInv.serves {h : KHeap} {bs : List Block} (hinv : HeapInv h bs) {b : Block} (hb : b ∈ bs)
    (hused : b.free = false) {n p : Nat} (hstart : b.addr + headerSize ≤ p) (hend : p + n ≤ b.stop) :
    Serves h n p b.addr := by
  have hholds := hinv.holds hb
  obtain ⟨hrun, hbase, hstop⟩ := hinv.good.inside b hb
  refine ⟨hinv.reach_mem b hb, ?_, ⟨b.run, hrun, hbase, ?_⟩, hstart, ?_⟩
  · by_contra hne
    rw [hholds.free.mp hne] at hused
    cases hused
  · rw [hholds.size]
    exact hstop
  · rw [hholds.size]
    exact hend

theorem Allocated.granted {h' : KHeap} {bs bs' : List Block} {n p : Nat}
    (halloc : Allocated bs n p h' bs') (hp : p ≠ 0) : Granted h' n p := by
  obtain ⟨b, hb, rfl, hused, hn, _⟩ := halloc.block hp
  refine ⟨b.addr, halloc.inv.serves hb hused (Nat.le_refl _) ?_, kfree_frees halloc.inv hb hused⟩
  simp only [Block.stop]
  omega

theorem Granted.bounds {h : KHeap} {n p : Nat} (hgrant : Granted h n p) (hruns : GoodRuns h.runs) :
    pageSize + headerSize ≤ p ∧ p + n ≤ 2 ^ 64 := by
  obtain ⟨a, hserves, _⟩ := hgrant
  obtain ⟨r, hr, hbase, hstop⟩ := hserves.inRun
  have hpage := hruns.page_le hr
  have hbound := hruns.bounded r hr
  have hstarts := hserves.starts
  have hends := hserves.ends
  omega

theorem Serves.unique {h : KHeap} {bs : List Block} {n p a : Nat} (hserves : Serves h n p a)
    (hinv : HeapInv h bs) {b : Block} (hb : b ∈ bs) (hstart : b.addr + headerSize ≤ p)
    (hend : p < b.stop) : a = b.addr := by
  obtain ⟨x, hx, rfl, hsize⟩ := hinv.reach hserves.listed
  have hstarts := hserves.starts
  have hends := hserves.ends
  rw [hsize] at hends
  rcases hinv.good.eq_or_apart hx hb with rfl | hap
  · rfl
  · have hlt := b.addr_lt_stop
    simp only [Apart, Block.stop, headerSize] at hap hend hstart hlt hstarts hends
    omega

/-! ## Where a request is served from -/

theorem pageUp_of_le {x : Nat} (h : x ≤ 2 ^ 64 - pageSize) :
    KHeap.pageUp x % pageSize = 0 ∧ x ≤ KHeap.pageUp x ∧ KHeap.pageUp x < x + pageSize := by
  simp only [pageSize] at h
  rw [KHeap.pageUp, wrap_of_lt (by simp only [pageSize]; omega)]
  simp only [pageSize]
  omega

theorem pageUp_wrap_eq_zero_iff {x : Nat} (hpos : 0 < x) (hx : x ≤ 2 ^ 64) :
    KHeap.pageUp (wrap x) = 0 ↔ 2 ^ 64 - pageSize < x := by
  rcases Nat.lt_or_ge (2 ^ 64 - pageSize) x with hlt | hle
  · refine ⟨fun _ => hlt, fun _ => ?_⟩
    simp only [KHeap.pageUp, wrap, pageSize] at hlt ⊢
    omega
  · have hw : wrap x = x := wrap_of_lt (by simp only [pageSize] at hle; omega)
    have := (pageUp_of_le hle).2.1
    rw [hw]
    constructor
    · intro h0
      omega
    · intro h0
      omega

theorem wrap_eq_zero_iff {x : Nat} (hpos : 0 < x) (hx : x ≤ 2 ^ 64) : wrap x = 0 ↔ 2 ^ 64 - 1 < x := by
  simp only [wrap]
  omega

theorem Took.source {h h' : KHeap} {bs bs' : List Block} {size base p : Nat} (hinv : HeapInv h bs)
    (htook : Took h size base bs p h' bs') :
    (firstRoom h.mem size (bs.map Block.addr) = none ∧ (base = 0 ∨ KHeap.pagesFor size = 0) ∧ p = 0) ∨
    (firstRoom h.mem size (bs.map Block.addr) = none ∧ (base ≠ 0 ∧ KHeap.pagesFor size ≠ 0) ∧
      base % pageSize = 0 ∧ base + headerSize ≤ 2 ^ 64 ∧ p = wrap (base + headerSize)) ∨
    ∃ a, firstRoom h.mem size (bs.map Block.addr) = some a ∧ a + headerSize ≤ 2 ^ 64 ∧ p = wrap (a + headerSize) := by
  cases htook with
  | refused hnone hwhy =>
    exact Or.inl ⟨hinv.firstRoom_none (fun x hx => hx) hnone, hwhy, rfl⟩
  | @found pre post b hnone hfits =>
    have hstop := hinv.good.stop_le hinv.runs (b := b) (by simp)
    simp only [Block.stop] at hstop
    exact Or.inr (Or.inr ⟨b.addr, hinv.firstRoom_some hnone hfits, by omega, rfl⟩)
  | @grown _ r hnone hr hbase hpages hfresh =>
    have hal := hfresh.aligned
    have hbound := hfresh.bounded
    rw [hr] at hal hbound ⊢
    refine Or.inr (Or.inl ⟨hinv.firstRoom_none (fun x hx => hx) hnone, ⟨hbase, hpages⟩, hal, ?_, rfl⟩)
    simp only [Run.stop, headerSize, pageSize] at hbound ⊢
    omega

theorem Took.null_iff {h h' : KHeap} {bs bs' : List Block} {size base p : Nat} (hinv : HeapInv h bs)
    (htook : Took h size base bs p h' bs') :
    (p = 0 ↔ NoAnswer size base (2 ^ 64 - 1) (firstRoom h.mem size (bs.map Block.addr))) ∧ (KHeap.pageUp p = 0 ↔
      NoAnswer size base (2 ^ 64 - pageSize) (firstRoom h.mem size (bs.map Block.addr))) := by
  have hpos : ∀ x, 0 < x + headerSize := fun x => by simp [headerSize]
  rcases htook.source hinv with ⟨ho, hwhy, rfl⟩ | ⟨ho, ⟨hbase, hpages⟩, _, hle, rfl⟩ | ⟨a, ho, hle, rfl⟩
  · rw [ho]
    have hnull : ∀ limit, NoAnswer size base limit none := fun limit => hwhy.imp_right Or.inl
    exact ⟨iff_of_true rfl (hnull _), iff_of_true (by decide) (hnull _)⟩
  · rw [ho, NoAnswer, NoAnswer, or_iff_right hbase, or_iff_right hpages, or_iff_right hbase,
      or_iff_right hpages]
    exact ⟨wrap_eq_zero_iff (hpos base) hle, pageUp_wrap_eq_zero_iff (hpos base) hle⟩
  · rw [ho]
    exact ⟨wrap_eq_zero_iff (hpos a) hle, pageUp_wrap_eq_zero_iff (hpos a) hle⟩

/-! ## Each call -/

theorem Took.granted_iff {h h₁ h' : KHeap} {bs bs' : List Block} {n base p : Nat} (hn : n ≠ 0)
    (hinv : HeapInv h bs) (hinv₁ : HeapInv h₁ bs') (htook : Took h (KHeap.alignUp n) base bs p h₁ bs')
    (hzero : Allocated bs n p h₁ bs' → Allocated bs n p h' bs') (hruns : h'.runs = h₁.runs) :
    ((p ≠ 0 → Granted h' n p) ↔ SizeFits h n base) ∧ ((p ≠ 0 → Granted h' n p) → Allocated bs n p h' bs') := by
  rw [SizeFits, hinv.forall_listed, ← (htook.null_iff hinv).1]
  by_cases hbound : n ≤ 2 ^ 64 - 48
  · have halloc := hzero (htook.allocated hn hbound hinv hinv₁)
    exact ⟨iff_of_true halloc.granted (Or.inl hbound), fun _ => halloc⟩
  · have hnull : (p ≠ 0 → Granted h' n p) → p = 0 := by
      intro hgrant
      by_contra hp
      have := (hgrant hp).bounds (by rw [hruns]; exact hinv₁.runs)
      simp only [pageSize, headerSize] at this
      omega
    refine ⟨⟨fun hgrant => Or.inr (hnull hgrant), fun hfit hp => absurd (hfit.resolve_left hbound) hp⟩,
      fun hgrant => hzero ⟨hinv₁, htook.kept, fun hp => absurd (hnull hgrant) hp⟩⟩

theorem kmalloc_granted {h h' : KHeap} {bs : List Block} {fuel n base p : Nat} (hinv : HeapInv h bs)
    (hans : Answers h.runs n base) (hcall : h.kmalloc fuel n base = some (p, h')) :
    ((p ≠ 0 → Granted h' n p) ↔ SizeFits h n base) ∧ ((p ≠ 0 → Granted h' n p) → ∃ bs', Allocated bs n p h' bs') := by
  by_cases hn : n = 0
  · rw [KHeap.kmalloc, if_pos hn] at hcall
    obtain ⟨rfl, rfl⟩ := Prod.mk.inj (Option.some.inj hcall)
    exact ⟨iff_of_true (fun hp => absurd rfl hp) (Or.inl (by omega)), fun _ => ⟨bs, .nothing hinv n⟩⟩
  · obtain ⟨bs', hinv', htook⟩ := kmalloc_cases hinv hn hans hcall
    obtain ⟨hiff, hkeep⟩ := htook.granted_iff hn hinv hinv' id rfl
    exact ⟨hiff, fun h => ⟨bs', hkeep h⟩⟩

theorem kmallocZero_granted {h h' : KHeap} {bs : List Block} {fuel n base p : Nat}
    (hinv : HeapInv h bs) (hans : Answers h.runs n base) (hcall : h.kmallocZero fuel n base = some (p, h')) :
    ((p ≠ 0 → Granted h' n p) ↔ SizeFits h n base) ∧ ((p ≠ 0 → Granted h' n p) → ∃ bs', Allocated bs n p h' bs') := by
  obtain ⟨h₁, hmalloc, rfl⟩ := kmallocZero_cases hcall
  by_cases hn : n = 0
  · rw [KHeap.kmalloc, if_pos hn] at hmalloc
    obtain ⟨rfl, rfl⟩ := Prod.mk.inj (Option.some.inj hmalloc)
    exact ⟨iff_of_true (fun hp => absurd rfl hp) (Or.inl (by omega)), fun _ => ⟨bs, .nothing hinv n⟩⟩
  · obtain ⟨bs', hinv', htook⟩ := kmalloc_cases hinv hn hans hmalloc
    obtain ⟨hiff, hkeep⟩ := htook.granted_iff hn hinv hinv' Allocated.zeroed rfl
    exact ⟨hiff, fun h => ⟨bs', hkeep h⟩⟩

theorem not_granted_moved {h : KHeap} {bs : List Block} (hinv : HeapInv h bs) {b : Block} (hb : b ∈ bs)
    (hused : b.free = false) {n raw : Nat} (hptr : b.addr + headerSize = raw)
    (hmoved : raw % pageSize ≠ 0) (hroom : raw + pageSize ≤ b.stop) : ¬Granted h n (KHeap.pageUp raw) := by
  have hstop := hinv.good.stop_le hinv.runs hb
  have hal := (hinv.good.aligned b hb).1
  obtain ⟨hpage, hle, hlt⟩ := pageUp_of_le (x := raw) (by omega)
  -- both are multiples of 16, so it moved by 16 at least
  have hstart : b.addr + headerSize + 16 ≤ KHeap.pageUp raw := by
    simp only [pageSize, headerSize] at hpage hmoved hptr ⊢
    omega
  rintro ⟨a, hserves, ⟨fuel, hsome⟩, hfreed⟩
  obtain ⟨h', hh'⟩ := Option.isSome_iff_exists.mp hsome
  obtain rfl := hserves.unique hinv hb (by omega) (by omega)
  exact hfreed fuel h' hh' (kfree_inside hinv hb hused hstart (by omega) hh')

theorem Took.onPage {h h' : KHeap} {bs bs' : List Block} {n size base raw : Nat} (hn : size ≠ 0)
    (hsize : wrap (n + pageSize + headerSize) = size) (hinv : HeapInv h bs) (hinv' : HeapInv h' bs')
    (htook : Took h (KHeap.alignUp size) base bs raw h' bs') (hraw : raw ≠ 0)
    (hgrant : Granted h' n (KHeap.pageUp raw)) : n + pageSize + headerSize ≤ 2 ^ 64 - 48 ∧
      OnPage (firstRoom h.mem (KHeap.alignUp size) (bs.map Block.addr)) := by
  have hpage : KHeap.pageUp raw % pageSize = 0 := Nat.mul_mod_left ..
  have hbounds := hgrant.bounds hinv'.runs
  have hle : n + pageSize + headerSize ≤ 2 ^ 64 - 48 := by
    simp only [pageSize, headerSize] at hpage hbounds ⊢
    omega
  have hsum : n + pageSize + headerSize = size := by
    rw [← hsize, wrap_of_lt (by omega)]
  refine ⟨hle, ?_⟩
  obtain ⟨b, hb, hptr, hused, hfits, _⟩ := (htook.allocated hn (by omega) hinv hinv').block hraw
  have hmod : raw % pageSize = 0 := by
    by_contra hmoved
    refine not_granted_moved hinv' hb hused hptr hmoved ?_ hgrant
    simp only [Block.stop]
    omega
  rcases htook.source hinv with ⟨_, _, h0⟩ | ⟨_, _, hal, hlt, hnew⟩ | ⟨a, ho, hlt, hold⟩
  · exact absurd h0 hraw
  · -- a page run begins on a boundary, its payload does not
    rw [hnew] at hmod
    simp only [wrap, pageSize, headerSize] at hmod hal hlt
    omega
  · rw [ho]
    show (a + headerSize) % pageSize = 0
    rw [hold] at hmod
    simp only [wrap, pageSize, headerSize] at hmod hlt ⊢
    omega

theorem Took.unmoved {h h' : KHeap} {bs bs' : List Block} {n size base raw : Nat} (hn : size ≠ 0)
    (hsize : wrap (n + pageSize + headerSize) = size) (hinv : HeapInv h bs) (hinv' : HeapInv h' bs')
    (htook : Took h (KHeap.alignUp size) base bs raw h' bs') (hle : n + pageSize + headerSize ≤ 2 ^ 64 - 48)
    (honpage : OnPage (firstRoom h.mem (KHeap.alignUp size) (bs.map Block.addr))) :
    KHeap.pageUp raw = raw ∧ Allocated bs n raw h' bs' := by
  have hsum : n + pageSize + headerSize = size := by
    rw [← hsize, wrap_of_lt (by omega)]
  refine ⟨?_, (htook.allocated hn (by omega) hinv hinv').mono (by omega)⟩
  rcases htook.source hinv with ⟨ho, _⟩ | ⟨ho, _⟩ | ⟨a, ho, hlt, hold⟩
  · rw [ho] at honpage
    exact honpage.elim
  · rw [ho] at honpage
    exact honpage.elim
  · rw [ho] at honpage
    have hmod : (a + headerSize) % pageSize = 0 := honpage
    have hraw' : raw % pageSize = 0 ∧ raw ≤ 2 ^ 64 - pageSize := by
      rw [hold]
      simp only [wrap, pageSize, headerSize] at hmod hlt ⊢
      omega
    obtain ⟨hpage, h1, h2⟩ := pageUp_of_le hraw'.2
    simp only [pageSize] at hpage h2 hraw'
    omega

theorem kmallocAligned_granted {h h' : KHeap} {bs : List Block} {fuel n base p : Nat}
    (hinv : HeapInv h bs) (hans : Answers h.runs (wrap (n + pageSize + headerSize)) base)
    (hcall : h.kmallocAligned fuel n base = some (p, h')) : ((p ≠ 0 → p % pageSize = 0 ∧ Granted h' n p) ↔
        AlignedFits h n base (wrap (n + pageSize + headerSize))) ∧
      ((p ≠ 0 → p % pageSize = 0 ∧ Granted h' n p) → ∃ bs', Allocated bs n p h' bs') := by
  obtain ⟨⟨raw, h₁⟩, hmalloc, hres⟩ := Option.map_eq_some_iff.mp hcall
  have hp : p = KHeap.pageUp raw ∧ h' = h₁ := by
    split at hres
    · rename_i hraw
      obtain ⟨rfl, rfl⟩ := Prod.mk.inj hres
      exact ⟨by rw [show raw = 0 from hraw]; decide, rfl⟩
    · obtain ⟨rfl, rfl⟩ := Prod.mk.inj hres
      exact ⟨rfl, rfl⟩
  obtain ⟨rfl, rfl⟩ := hp
  obtain ⟨size, hsize⟩ : ∃ size, wrap (n + pageSize + headerSize) = size := ⟨_, rfl⟩
  rw [hsize] at hmalloc hans ⊢
  by_cases hn : size = 0
  · rw [KHeap.kmalloc, if_pos hn] at hmalloc
    obtain ⟨rfl, rfl⟩ := Prod.mk.inj (Option.some.inj hmalloc)
    have h0 : KHeap.pageUp 0 = 0 := by decide
    rw [h0]
    exact ⟨iff_of_true (fun hp => absurd rfl hp) (Or.inl hn), fun _ => ⟨bs, .nothing hinv n⟩⟩
  obtain ⟨bs', hinv', htook⟩ := kmalloc_cases hinv hn hans hmalloc
  rw [AlignedFits, or_iff_right hn, hinv.forall_listed, ← (htook.null_iff hinv).2]
  by_cases hp : KHeap.pageUp raw = 0
  · exact ⟨iff_of_true (fun hne => absurd hp hne) (Or.inl hp), fun _ =>
      ⟨bs', hinv', htook.kept, fun hne => absurd hp hne⟩⟩
  · have hraw : raw ≠ 0 := by
      rintro rfl
      exact hp (by decide)
    refine ⟨⟨fun h => Or.inr (htook.onPage hn hsize hinv hinv' hraw (h hp).2), fun hfit _ => ?_⟩,
      fun h => ⟨bs', ?_⟩⟩
    · obtain ⟨hle, honpage⟩ := hfit.resolve_left hp
      obtain ⟨heq, halloc⟩ := htook.unmoved hn hsize hinv hinv' hle honpage
      refine ⟨Nat.mul_mod_left .., ?_⟩
      rw [heq]
      exact halloc.granted hraw
    · obtain ⟨hle, honpage⟩ := htook.onPage hn hsize hinv hinv' hraw (h hp).2
      obtain ⟨heq, halloc⟩ := htook.unmoved hn hsize hinv hinv' hle honpage
      rw [heq]
      exact halloc

/-! ## Runs -/

theorem outcomes_iff {call : Nat → Option (Nat × KHeap)} {Q : Nat → KHeap → Prop} {G : Prop}
    {fuel₀ : Nat} {r : Nat × KHeap} (hr : call fuel₀ = some r)
    (h : ∀ fuel p h', call fuel = some (p, h') → (Q p h' ↔ G)) : (∀ fuel p h', call fuel = some (p, h') → Q p h') ↔ G :=
  ⟨fun hall => (h _ _ _ hr).mp (hall _ _ _ hr), fun hG _ _ _ hcall => (h _ _ _ hcall).mpr hG⟩

theorem allocLaw_step {s t : HeapState} {c : AllocCall} (hinv : Inv s) (hstep : AllocStep s c t)
    (hmerge : MergeGuard s c) : (AllocLaw s c t ↔ SizeGuard s c) ∧ (AllocLaw s c t → Inv t) := by
  obtain ⟨bs, hheap, hlive⟩ := hinv
  cases c with
  | aligned n base =>
    obtain ⟨hans, fuel, hexec⟩ := hstep
    obtain ⟨r, hr, rfl⟩ := Option.map_eq_some_iff.mp hexec
    refine ⟨outcomes_iff hr fun fuel p h' hcall => (kmallocAligned_granted hheap hans hcall).1,
      fun hlaw => ?_⟩
    obtain ⟨bs', halloc⟩ := (kmallocAligned_granted hheap hans hr).2 (hlaw _ _ _ hr)
    exact ⟨bs', halloc.inv, halloc.liveIn_received hlive⟩
  | call c =>
    have hstep' : HeapStep s c t := hstep
    obtain ⟨hallowed, fuel, hexec⟩ := hstep
    cases c with
    | kmalloc n base =>
      obtain ⟨r, hr, rfl⟩ := Option.map_eq_some_iff.mp hexec
      refine ⟨outcomes_iff hr fun fuel p h' hcall => (kmalloc_granted hheap hallowed hcall).1,
        fun hlaw => ?_⟩
      obtain ⟨bs', halloc⟩ := (kmalloc_granted hheap hallowed hr).2 (hlaw _ _ _ hr)
      exact ⟨bs', halloc.inv, halloc.liveIn_received hlive⟩
    | kmallocZero n base =>
      obtain ⟨r, hr, rfl⟩ := Option.map_eq_some_iff.mp hexec
      refine ⟨outcomes_iff hr fun fuel p h' hcall => (kmallocZero_granted hheap hallowed hcall).1,
        fun hlaw => ?_⟩
      obtain ⟨bs', halloc⟩ := (kmallocZero_granted hheap hallowed hr).2 (hlaw _ _ _ hr)
      exact ⟨bs', halloc.inv, halloc.liveIn_received hlive⟩
    | kfree ptr =>
      refine ⟨iff_of_true ?_ trivial, fun _ => inv_step ⟨bs, hheap, hlive⟩ hstep' hmerge⟩
      obtain ⟨h', hh', rfl⟩ := Option.map_eq_some_iff.mp hexec
      obtain ⟨n, hmem⟩ := hallowed
      obtain ⟨b, hb, hptr, hused, hn⟩ := hlive.block _ hmem
      obtain rfl : b.addr + headerSize = ptr := hptr
      refine ⟨n, b.addr, hmem, hheap.serves hb hused (Nat.le_refl _) ?_,
        (kfree_frees hheap hb hused).2 fuel h' hh'⟩
      have hn' : n ≤ b.size := hn
      simp only [Block.stop]
      omega
    | write mem =>
      exact ⟨iff_of_true trivial trivial, fun _ => inv_step ⟨bs, hheap, hlive⟩ hstep' trivial⟩

/-- **Allocation size safety**: along a run whose `kfree` calls merge within page runs, every pointer handed
out is granted and every live pointer is freed with its block, exactly when every request fits. -/
theorem allocLaw_iff {mem : HeapMem} {tr : List (AllocCall × HeapState)}
    (htr : Trace AllocStep (HeapState.start mem) tr) (hmerge : Guarded MergeGuard (HeapState.start mem) tr) :
    AllSteps AllocLaw (HeapState.start mem) tr ↔ Guarded SizeGuard (HeapState.start mem) tr := by
  refine (htr.restrict hmerge).allSteps_iff_guarded (J := Inv) ?_ ?_ (inv_start mem)
  · rintro s c t hinv ⟨hstep, hg⟩
    exact (allocLaw_step hinv hstep hg).1
  · rintro s c t hinv ⟨hstep, hg⟩
    exact (allocLaw_step hinv hstep hg).2

/-! ## A pointer moved away from its header -/

/-- The answer of `kmalloc_aligned`, for runs computed below. -/
def HeapState.alignedAnswer (s : HeapState) (n base : Nat) : Nat × KHeap :=
  (s.heap.kmallocAligned 8 n base).getD (0, s.heap)

theorem HeapState.alignedAnswer_eq {s : HeapState} {n base : Nat}
    (hsome : (s.heap.kmallocAligned 8 n base).isSome = true) :
    s.heap.kmallocAligned 8 n base = some (s.alignedAnswer n base) := by
  obtain ⟨r, hr⟩ := Option.isSome_iff_exists.mp hsome
  rw [HeapState.alignedAnswer, hr]
  rfl

theorem AllocStep.aligned {s : HeapState} {n base : Nat}
    (hans : Answers s.heap.runs (wrap (n + pageSize + headerSize)) base)
    (hsome : (s.heap.kmallocAligned 8 n base).isSome = true) :
    AllocStep s (.aligned n base) (s.received n (s.alignedAnswer n base)) :=
  ⟨hans, 8, by rw [HeapState.alignedAnswer_eq hsome]; rfl⟩

/-- `kmalloc_aligned(100)` on an empty heap. -/
def movedAway : Nat × KHeap := (HeapState.start fun _ => 0).alignedAnswer 100 0x100000

/-- What `kfree` makes of it. -/
def movedFreed : KHeap := (movedAway.2.kfree 8 0x101000).getD movedAway.2

/-- `kmalloc(2 ^ 64 - 16)` on an empty heap. -/
def tooLarge : HeapState := (HeapState.start fun _ => 0).next (.kmalloc (2 ^ 64 - 16) 0x100000)

/-- `kfree` never frees the block of `kmalloc_aligned(100)`; and a request of all but 16 bytes of the address
space is granted one page. -/
theorem not_granted : (∃ tr, Trace AllocStep (HeapState.start fun _ => 0) tr ∧
      ¬AllSteps AllocLaw (HeapState.start fun _ => 0) tr) ∧ ∃ tr, Trace AllocStep (HeapState.start fun _ => 0) tr ∧
      tr.map Prod.fst = [.call (.kmalloc (2 ^ 64 - 16) 0x100000)] ∧
      ¬AllSteps AllocLaw (HeapState.start fun _ => 0) tr := by
  constructor
  · have hsome : ((HeapState.start fun _ => 0).heap.kmallocAligned 8 100 0x100000).isSome = true := by
      decide
    refine ⟨_, .cons (.aligned (answers_of_empty (by decide) (by decide)) hsome) (.nil _), ?_⟩
    rintro ⟨hlaw, _⟩
    have hptr : movedAway.1 = 0x101000 := by decide
    obtain ⟨_, a, hserves, _, hfreed⟩ := hlaw 8 movedAway.1 movedAway.2
      (HeapState.alignedAnswer_eq hsome) (by rw [hptr]; decide)
    rw [hptr] at hfreed
    -- there is one block, and it stays in use
    have hhead : movedAway.2.heapHead = 0x100000 := by decide
    have hnext : nextOf movedAway.2.mem 0x100000 = 0 := by decide
    obtain rfl := reach_single hhead hnext hserves.listed
    have hreturn : (movedAway.2.kfree 8 0x101000).isSome = true := by decide
    obtain ⟨h', hh'⟩ := Option.isSome_iff_exists.mp hreturn
    have hstays : freeOf movedFreed.mem 0x100000 = 0 := by decide
    rw [movedFreed, hh'] at hstays
    exact hfreed 8 h' hh' hstays
  · have hstep : HeapStep (HeapState.start fun _ => 0) (.kmalloc (2 ^ 64 - 16) 0x100000) tooLarge :=
      .next (answers_of_empty (by decide) (by decide)) (by decide)
    refine ⟨[(.call (.kmalloc (2 ^ 64 - 16) 0x100000), tooLarge)], .cons hstep (.nil _), rfl, ?_⟩
    rintro ⟨hlaw, _⟩
    obtain ⟨_, fuel, hexec⟩ := hstep
    obtain ⟨r, hr, hrs⟩ := Option.map_eq_some_iff.mp hexec
    have hheap : r.2 = tooLarge.heap := by rw [← hrs]; rfl
    have hruns : tooLarge.heap.runs = [{ base := 0x100000, pages := 1 }] := by decide
    have hlive : tooLarge.live = [(0x100030, 2 ^ 64 - 16)] := by decide
    have hne : r.1 ≠ 0 := by
      intro h0
      rw [← hrs, HeapState.received, if_pos h0] at hlive
      cases hlive
    obtain ⟨a, hserves, _⟩ := hlaw fuel r.1 r.2 hr hne
    obtain ⟨run, hrun, _, hstop⟩ := hserves.inRun
    have hends := hserves.ends
    rw [hheap, hruns] at hrun
    rw [List.mem_singleton.mp hrun] at hstop
    simp only [Run.stop, pageSize] at hstop
    omega

/-- Three pages, freed again, of which the next request leaves a payload on a page boundary. -/
def threePages : HeapState := (HeapState.start fun _ => 0).next (.kmalloc 12000 0x100000)

def threeFreed : HeapState := threePages.next (.kfree 0x100030)

def boundaryFree : HeapState := threeFreed.next (.kmalloc 4000 0)

def boundaryRun : List (AllocCall × HeapState) :=
  [(.call (.kmalloc 12000 0x100000), threePages), (.call (.kfree 0x100030), threeFreed),
    (.call (.kmalloc 4000 0), boundaryFree),
    (.aligned 100 0, boundaryFree.received 100 (boundaryFree.alignedAnswer 100 0))]

/-- There `kmalloc_aligned` moves nothing. -/
theorem boundary_granted : AllSteps AllocLaw (HeapState.start fun _ => 0) boundaryRun := by
  have hfirst : HeapStep (HeapState.start fun _ => 0) (.kmalloc 12000 0x100000) threePages :=
    .next (answers_of_empty (by decide) (by decide)) (by decide)
  have hlive : threePages.live = [(0x100030, 12000)] := by decide
  have hhead : threePages.heap.heapHead = 0x100000 := by decide
  have hnext : nextOf threePages.heap.mem 0x100000 = 0 := by decide
  have hsecond : HeapStep threePages (.kfree 0x100030) threeFreed :=
    .next ⟨12000, by rw [hlive]; decide⟩ (by decide)
  have hthird : HeapStep threeFreed (.kmalloc 4000 0) boundaryFree :=
    .next (Or.inl rfl) (by decide)
  have hlist : Listed boundaryFree.heap.mem boundaryFree.heap.heapHead [0x100000, 0x100fd0] := by
    decide
  have hroom : firstRoom boundaryFree.heap.mem (KHeap.alignUp (wrap (100 + pageSize + headerSize)))
      [0x100000, 0x100fd0] = some 0x100fd0 := by decide
  have htr : Trace AllocStep (HeapState.start fun _ => 0) boundaryRun :=
    .cons hfirst (.cons hsecond (.cons hthird
      (.cons (.aligned (Or.inl rfl) (by decide)) (.nil _))))
  have hmerge : Guarded MergeGuard (HeapState.start fun _ => 0) boundaryRun :=
    ⟨trivial, heapGuard_kfree_single hhead hnext _, trivial, trivial, trivial⟩
  refine (allocLaw_iff htr hmerge).mpr ⟨Or.inl (by decide), trivial, Or.inl (by decide),
    Or.inr fun as has => Or.inr ⟨by decide, ?_⟩, trivial⟩
  rw [has.unique hlist, hroom]
  show (0x100fd0 + headerSize) % pageSize = 0
  decide

end Chicago95.Kernel.Heap
