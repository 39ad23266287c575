/-
# Chicago95.Kernel.HeapAccounts — `heap_used` and `heap_total` against the block list.

`kheap_used` reports `heap_used`: it is to be the sum of `block->size` over the blocks in use, to fall
back to zero when everything is freed, and never to exceed `heap_total` (`Accounts`); and `kfree` is never
to take more off it than is on it (`NoBorrow`).
-/
import Chicago95.Kernel.HeapRuns

namespace Chicago95.Kernel.Heap

open Chicago95.Lib.Extents Chicago95.Lib.Transition

/-! ## The property -/

/-- The `next` pointers lead from `a` through the headers `as` to null. -/
def Listed (m : HeapMem) : Nat → List Nat → Prop
  | a, [] => a = 0
  | a, x :: as => a = x ∧ x ≠ 0 ∧ Listed m (nextOf m x) as

instance Listed.instDecidable (m : HeapMem) : ∀ (a : Nat) (as : List Nat), Decidable (Listed m a as)
  | a, [] => inferInstanceAs (Decidable (a = 0))
  | a, x :: as =>
    haveI := Listed.instDecidable m (nextOf m x) as
    inferInstanceAs (Decidable (a = x ∧ x ≠ 0 ∧ Listed m (nextOf m x) as))

/-- `block->size`, summed over the headers of `as` in use. -/
def usedBytes (m : HeapMem) (as : List Nat) : Nat :=
  ((as.filter fun a => decide (freeOf m a = 0)).map (sizeOf m)).sum

/-- **The accounts are right.** -/
structure Accounts (s : HeapState) : Prop where
  used : ∃ as, Listed s.heap.mem s.heap.heapHead as ∧ s.heap.heapUsed = usedBytes s.heap.mem as
  empty : s.live = [] → s.heap.heapUsed = 0
  bounded : s.heap.heapUsed ≤ s.heap.heapTotal

/-- `kfree` takes off `heap_used` no more than is on it. -/
def NoBorrow (s : HeapState) : HeapCall → Prop
  | .kfree ptr => sizeOf s.heap.mem (sub64 ptr headerSize) ≤ s.heap.heapUsed
  | _ => True

/-- The first header of `as` that is free and has room for `size` bytes. -/
def firstRoom (m : HeapMem) (size : Nat) (as : List Nat) : Option Nat :=
  as.find? fun a => decide (freeOf m a ≠ 0 ∧ size ≤ sizeOf m a)

/-- `size` bytes fill what they are served from: a block that is cut or of just that size, or a page run of
just that size; or there is no run. -/
def Fills (m : HeapMem) (size base : Nat) : Option Nat → Prop
  | some a => sizeOf m a = size ∨ size + headerSize + 32 ≤ sizeOf m a
  | none => base = 0 ∨ KHeap.pagesFor size = 0 ∨ KHeap.pagesFor size * pageSize = size + headerSize

instance Fills.instDecidable (m : HeapMem) (size base : Nat) :
    ∀ o, Decidable (Fills m size base o)
  | some _ => inferInstanceAs (Decidable (_ ∨ _))
  | none => inferInstanceAs (Decidable (_ ∨ _ ∨ _))

/-- A request of `n` bytes fills what it is served from. -/
def ExactFit (h : KHeap) (n base : Nat) : Prop :=
  n = 0 ∨ ∀ as, Listed h.mem h.heapHead as →
    Fills h.mem (KHeap.alignUp n) base (firstRoom h.mem (KHeap.alignUp n) as)

/-- The condition on a call: an allocation is served exactly. -/
def ExactGuard (s : HeapState) : HeapCall → Prop
  | .kmalloc n base => ExactFit s.heap n base
  | .kmallocZero n base => ExactFit s.heap n base
  | _ => True

/-! ## The list and its sums -/

theorem Listed.unique {m : HeapMem} : ∀ {as cs : List Nat} {a : Nat}, Listed m a as → Listed m a cs →
    as = cs
  | [], [], _, _, _ => rfl
  | [], _ :: _, _, h, ⟨rfl, hne, _⟩ => absurd h hne
  | _ :: _, [], _, ⟨rfl, hne, _⟩, h => absurd h hne
  | _ :: _, _ :: _, _, ⟨rfl, _, h⟩, ⟨rfl, _, k⟩ => by rw [Listed.unique h k]

/-- The bytes of the blocks in use. -/
def heldBytes (bs : List Block) : Nat := ((inUse bs).map Block.size).sum

theorem heldBytes_cons_free {b : Block} (h : b.free = true) (bs : List Block) : heldBytes (b :: bs) = heldBytes bs := by
  rw [heldBytes, inUse_cons_free h, heldBytes]

theorem heldBytes_cons_used {b : Block} (h : b.free = false) (bs : List Block) :
    heldBytes (b :: bs) = b.size + heldBytes bs := by
  rw [heldBytes, inUse_cons_used h, heldBytes, List.map_cons, List.sum_cons]

theorem heldBytes_insert {bs bs' l k : List Block} {c : Block} (hold : inUse bs = l ++ k)
    (hnew : inUse bs' = l ++ c :: k) : heldBytes bs' = heldBytes bs + c.size := by
  simp only [heldBytes, hold, hnew, List.map_append, List.map_cons, List.sum_append, List.sum_cons]
  omega

theorem heldBytes_le (bs : List Block) : heldBytes bs ≤ covered bs := by
  induction bs with
  | nil => exact Nat.le_refl _
  | cons b bs ih =>
    rw [covered_cons]
    cases hb : b.free with
    | true =>
      rw [heldBytes_cons_free hb]
      omega
    | false =>
      rw [heldBytes_cons_used hb]
      omega

theorem HeapInv.covered_le {h : KHeap} {bs : List Block} (hinv : HeapInv h bs) : covered bs ≤ 2 ^ 64 - pageSize := by
  refine sum_length_le hinv.good.apart fun b hb => ⟨?_, hinv.good.stop_le hinv.runs hb⟩
  obtain ⟨hrun, hbase, _⟩ := hinv.good.inside b hb
  exact Nat.le_trans (hinv.runs.page_le hrun) hbase

theorem HeapInv.holds {h : KHeap} {bs : List Block} (hinv : HeapInv h bs) {b : Block} (hb : b ∈ bs) :
    Holds h.mem b := by
  obtain ⟨pre, post, rfl⟩ := List.append_of_mem hb
  obtain ⟨_, _, _, hholds, _⟩ := seg_append.mp hinv.seg
  exact hholds

theorem HeapInv.listed {h : KHeap} {bs : List Block} (hinv : HeapInv h bs) :
    Listed h.mem h.heapHead (bs.map Block.addr) := by
  have hwalk : ∀ (l : List Block) {a : Nat}, (∀ x ∈ l, 0 < x.addr) → Seg h.mem a l 0 →
      Listed h.mem a (l.map Block.addr) := by
    intro l
    induction l with
    | nil => intro a _ hseg; exact hseg
    | cons x l ih =>
      rintro a hpos ⟨rfl, _, hrest⟩
      exact ⟨rfl, Nat.ne_of_gt (hpos x List.mem_cons_self),
        ih (fun y hy => hpos y (List.mem_cons_of_mem x hy)) hrest⟩
  exact hwalk bs (fun b hb => hinv.good.nonzero hinv.runs hb) hinv.seg

theorem usedBytes_eq {m : HeapMem} {bs : List Block} (h : ∀ b ∈ bs, Holds m b) :
    usedBytes m (bs.map Block.addr) = heldBytes bs := by
  induction bs with
  | nil => rfl
  | cons b bs ih =>
    have hb := h b List.mem_cons_self
    have hbs := ih fun x hx => h x (List.mem_cons_of_mem b hx)
    have hfree : freeOf m b.addr = 0 ↔ b.free = false := by
      rw [← Bool.not_eq_true, ← hb.free, not_not]
    cases hbf : b.free with
    | true =>
      rw [heldBytes_cons_free hbf, ← hbs]
      simp [usedBytes, hfree, hbf]
    | false =>
      rw [heldBytes_cons_used hbf, ← hbs]
      simp [usedBytes, hfree, hbf, hb.size]

theorem HeapInv.used_iff {h : KHeap} {bs : List Block} (hinv : HeapInv h bs) :
    (∃ as, Listed h.mem h.heapHead as ∧ h.heapUsed = usedBytes h.mem as) ↔ h.heapUsed = heldBytes bs := by
  rw [← usedBytes_eq fun b hb => hinv.holds hb]
  refine ⟨?_, fun hused => ⟨_, hinv.listed, hused⟩⟩
  rintro ⟨as, has, hused⟩
  rw [hused, has.unique hinv.listed]

/-! ## What a request is charged -/

theorem HeapInv.fits_iff {h : KHeap} {bs : List Block} (hinv : HeapInv h bs) {b : Block} (hb : b ∈ bs)
    (size : Nat) : (freeOf h.mem b.addr ≠ 0 ∧ size ≤ sizeOf h.mem b.addr) ↔ b.Fits size := by
  rw [Block.Fits, (hinv.holds hb).free, (hinv.holds hb).size]

theorem HeapInv.firstRoom_none {h : KHeap} {bs cs : List Block} (hinv : HeapInv h bs) {size : Nat}
    (hsub : ∀ x ∈ cs, x ∈ bs) (hnone : ∀ x ∈ cs, ¬x.Fits size) : firstRoom h.mem size (cs.map Block.addr) = none := by
  rw [firstRoom, List.find?_eq_none]
  intro a ha
  obtain ⟨x, hx, rfl⟩ := List.mem_map.mp ha
  rw [decide_eq_true_iff, hinv.fits_iff (hsub x hx)]
  exact hnone x hx

theorem HeapInv.firstRoom_some {h : KHeap} {pre post : List Block} {b : Block}
    (hinv : HeapInv h (pre ++ b :: post)) {size : Nat} (hnone : ∀ x ∈ pre, ¬x.Fits size) (hfits : b.Fits size) :
    firstRoom h.mem size ((pre ++ b :: post).map Block.addr) = some b.addr := by
  have hpre := hinv.firstRoom_none (fun x hx => by simp [hx]) hnone
  rw [firstRoom] at hpre ⊢
  rw [List.map_append, List.find?_append, hpre, Option.none_or, List.map_cons, List.find?_cons_of_pos]
  rw [decide_eq_true_iff, hinv.fits_iff (by simp)]
  exact hfits

theorem HeapInv.forall_listed {h : KHeap} {bs : List Block} (hinv : HeapInv h bs) {P : List Nat → Prop} :
    (∀ as, Listed h.mem h.heapHead as → P as) ↔ P (bs.map Block.addr) := by
  refine ⟨fun hall => hall _ hinv.listed, fun hone as has => ?_⟩
  rw [has.unique hinv.listed]
  exact hone

theorem Listed.exactFit {h : KHeap} {n base : Nat} (as : List Nat) (has : Listed h.mem h.heapHead as)
    (hfills : Fills h.mem (KHeap.alignUp n) base (firstRoom h.mem (KHeap.alignUp n) as)) : ExactFit h n base := by
  refine Or.inr fun cs hcs => ?_
  rw [hcs.unique has]
  exact hfills

theorem HeapInv.exactFit_iff {h : KHeap} {bs : List Block} (hinv : HeapInv h bs) {n base : Nat}
    (hn : n ≠ 0) : ExactFit h n base ↔
      Fills h.mem (KHeap.alignUp n) base (firstRoom h.mem (KHeap.alignUp n) (bs.map Block.addr)) := by
  rw [ExactFit, or_iff_right hn]
  exact hinv.forall_listed

theorem Block.served_size_iff (b : Block) (size : Nat) :
    (b.size = size ∨ size + headerSize + 32 ≤ b.size) ↔ (b.served size).size = size := by
  unfold Block.served
  split
  · rename_i hcut
    simp [hcut]
  · rename_i hcut
    simp [hcut]

theorem Took.charged {h h' : KHeap} {bs bs' : List Block} {n base p : Nat} (hinv : HeapInv h bs)
    (hn : n ≠ 0) (hbound : n ≤ 2 ^ 64 - 48) (htook : Took h (KHeap.alignUp n) base bs p h' bs') :
    (h' = h ∧ bs' = bs ∧ ExactFit h n base) ∨ h'.heapUsed = wrap (h.heapUsed + KHeap.alignUp n) ∧
      ∃ d, heldBytes bs' = heldBytes bs + d ∧ KHeap.alignUp n ≤ d ∧ (ExactFit h n base ↔ d = KHeap.alignUp n) := by
  obtain ⟨_, hsize, _⟩ := KHeap.alignUp_spec hbound
  rw [hinv.exactFit_iff hn]
  cases htook with
  | refused hnone hwhy =>
    refine Or.inl ⟨rfl, rfl, ?_⟩
    rw [hinv.firstRoom_none (fun x hx => hx) hnone]
    exact hwhy.imp_right Or.inl
  | @found pre post b hnone hfits =>
    refine Or.inr ⟨rfl, (b.served (KHeap.alignUp n)).size, ?_, hfits.served, ?_⟩
    · refine heldBytes_insert (l := inUse pre) (k := inUse post) ?_ ?_
      · rw [inUse_append, inUse_cons_free hfits.1]
      · rw [inUse_append, inUse_append, inUse_taken, List.singleton_append]
    · rw [hinv.firstRoom_some hnone hfits, Fills, (hinv.holds (by simp)).size]
      exact b.served_size_iff _
  | @grown _ r hnone hr hbase hpages _ =>
    have hfits := (KHeap.pagesFor_cases hsize).resolve_left hpages
    have hheld : r.whole.size = KHeap.pagesFor (KHeap.alignUp n) * pageSize - headerSize := by
      rw [hr]
      rfl
    have hinsert : heldBytes (r.whole.mark false :: bs) = heldBytes bs + r.whole.size :=
      heldBytes_insert (l := []) (c := r.whole.mark false) rfl (inUse_cons_used rfl bs)
    refine Or.inr ⟨?_, r.whole.size, hinsert, by omega, ?_⟩
    · simp only [KHeap.growFor, KHeap.heapGrow, if_neg hpages, if_neg hbase]
    · rw [hinv.firstRoom_none (fun x hx => hx) hnone, Fills, or_iff_right hbase, or_iff_right hpages]
      omega

theorem Took.total {h h' : KHeap} {bs bs' : List Block} {size base p : Nat}
    (htook : Took h size base bs p h' bs') (htotal : h.heapTotal = covered bs)
    (hroom : covered bs' < 2 ^ 64) : h'.heapTotal = covered bs' := by
  cases htook with
  | refused _ _ => exact htotal
  | @found pre post b _ _ =>
    simp only [KHeap.takeBlock, htotal, covered_append, covered_taken, covered_cons, covered_nil,
      Nat.add_zero]
  | @grown _ r _ hr hbase hpages _ =>
    have hwhole : headerSize + r.whole.size = KHeap.pagesFor size * pageSize := by
      rw [hr]
      simp only [Run.whole, headerSize, pageSize]
      omega
    rw [covered_cons, Block.mark_size, hwhole, ← htotal, Nat.add_comm] at hroom
    rw [covered_cons, Block.mark_size, hwhole, ← htotal]
    simp only [KHeap.growFor, KHeap.heapGrow, if_neg hpages, if_neg hbase]
    rw [wrap_of_lt hroom, Nat.add_comm]

/-! ## Steps -/

/-- **The books**: the heap over `bs`, a live pointer for each block in use, and both counters right. -/
structure Booked (s : HeapState) (bs : List Block) : Prop where
  heap : HeapInv s.heap bs
  live : LiveIn bs s.live
  owned : ∀ b ∈ bs, b.free = false → ∃ e ∈ s.live, e.1 = b.addr + headerSize
  used : s.heap.heapUsed = heldBytes bs
  total : s.heap.heapTotal = covered bs

theorem Booked.start (mem : HeapMem) : Booked (HeapState.start mem) [] :=
  ⟨heapInv_start mem, liveIn_nil [], fun _ hb => (List.not_mem_nil hb).elim, rfl, rfl⟩

theorem Booked.accounts {s : HeapState} {bs : List Block} (h : Booked s bs) : Accounts s where
  used := h.heap.used_iff.mpr h.used
  empty hlive := by
    have hnone : inUse bs = [] := by
      refine List.eq_nil_iff_forall_not_mem.mpr fun b hb => ?_
      obtain ⟨hmem, hfree⟩ := mem_inUse.mp hb
      obtain ⟨e, he, _⟩ := h.owned b hmem hfree
      rw [hlive] at he
      cases he
    rw [h.used, heldBytes, hnone]
    rfl
  bounded := by
    rw [h.used, h.total]
    exact heldBytes_le bs

theorem Accounts.held {s : HeapState} {bs : List Block} (h : Accounts s) (hinv : HeapInv s.heap bs) :
    s.heap.heapUsed = heldBytes bs :=
  hinv.used_iff.mp h.used

theorem Took.owned {s : HeapState} {bs bs' : List Block} {n base : Nat} {r : Nat × KHeap} {h₁ : KHeap}
    (hn : n ≠ 0) (hbound : n ≤ 2 ^ 64 - 48) (hinv : HeapInv r.2 bs')
    (htook : Took s.heap (KHeap.alignUp n) base bs r.1 h₁ bs')
    (howned : ∀ b ∈ bs, b.free = false → ∃ e ∈ s.live, e.1 = b.addr + headerSize) {b : Block}
    (hb : b ∈ bs') (hfree : b.free = false) : ∃ e ∈ (s.received n r).live, e.1 = b.addr + headerSize := by
  have hkept : ∀ e ∈ s.live, e ∈ (s.received n r).live := by
    intro e he
    unfold HeapState.received
    dsimp only
    split
    · exact he
    · exact List.mem_cons_of_mem _ he
  obtain ⟨_, hsize, _⟩ := KHeap.alignUp_spec hbound
  rcases htook.inserted with ⟨_, _, rfl⟩ | ⟨l, k, c, hold, hnew, hptr, hfits⟩
  · obtain ⟨e, he, heq⟩ := howned b hb hfree
    exact ⟨e, hkept e he, heq⟩
  · have hbs : b ∈ inUse bs ∨ b = c := by
      have : b ∈ l ++ c :: k := hnew ▸ mem_inUse.mpr ⟨hb, hfree⟩
      rw [hold, List.mem_append]
      simp only [List.mem_append, List.mem_cons] at this
      tauto
    rcases hbs with hb | rfl
    · obtain ⟨hmem, hfree⟩ := mem_inUse.mp hb
      obtain ⟨e, he, heq⟩ := howned b hmem hfree
      exact ⟨e, hkept e he, heq⟩
    · replace hfits := hfits hsize
      rw [hinv.wrap_ptr hb (by omega)] at hptr
      refine ⟨(r.1, n), ?_, hptr⟩
      have hne : r.1 ≠ 0 := by
        rw [hptr, headerSize]
        omega
      rw [HeapState.received, if_neg hne]
      exact List.mem_cons_self

theorem Booked.received {s : HeapState} {bs bs' : List Block} {n base : Nat} {r : Nat × KHeap}
    {h₁ : KHeap} (hbook : Booked s bs) (hn : n ≠ 0) (hbound : n ≤ 2 ^ 64 - 48)
    (htook : Took s.heap (KHeap.alignUp n) base bs r.1 h₁ bs') (halloc : Allocated bs n r.1 r.2 bs')
    (hused : r.2.heapUsed = h₁.heapUsed) (htotal : r.2.heapTotal = h₁.heapTotal) :
    (Accounts (s.received n r) ↔ ExactFit s.heap n base) ∧
      (Accounts (s.received n r) → ∃ bs, Booked (s.received n r) bs) := by
  have hroom := halloc.inv.covered_le
  have hheld := heldBytes_le bs'
  have hheld' := heldBytes_le bs
  have hbook' : r.2.heapUsed = heldBytes bs' → Booked (s.received n r) bs' := by
    intro heq
    refine ⟨halloc.inv, halloc.liveIn_received hbook.live, fun b hb hfree =>
      htook.owned hn hbound halloc.inv hbook.owned hb hfree, heq, ?_⟩
    refine htotal.trans (htook.total hbook.total ?_)
    simp only [pageSize] at hroom
    omega
  have hexact : r.2.heapUsed = heldBytes bs' ↔ ExactFit s.heap n base := by
    rcases htook.charged hbook.heap hn hbound with ⟨rfl, rfl, hfit⟩ | ⟨hcharge, d, hd, hle, hfit⟩
    · exact ⟨fun _ => hfit, fun _ => hused.trans hbook.used⟩
    · rw [hfit, hused, hcharge, hbook.used, hd, wrap_of_lt]
      · omega
      · simp only [pageSize] at hroom
        omega
  refine ⟨⟨fun hacc => hexact.mp (hacc.held halloc.inv), fun hfit =>
    (hbook' (hexact.mpr hfit)).accounts⟩, fun hacc => ⟨bs', hbook' (hacc.held halloc.inv)⟩⟩

theorem Booked.freed {s : HeapState} {pre post bs' : List Block} {b : Block} {h' : KHeap} {ptr : Nat}
    (hbook : Booked s (pre ++ b :: post)) (hptr : b.addr + headerSize = ptr) (hused : b.free = false)
    (hfreed : Freed s.heap pre b post h' bs') :
    NoBorrow s (.kfree ptr) ∧
      Booked { heap := h', live := s.live.filter fun e => decide (e.1 ≠ ptr) } bs' := by
  have hb : b ∈ pre ++ b :: post := by simp
  have hsum : heldBytes (pre ++ b :: post) = heldBytes bs' + b.size := by
    refine heldBytes_insert hfreed.inUse ?_
    rw [inUse_append, inUse_cons_used hused]
  have hroom := hbook.heap.covered_le
  have hheld := heldBytes_le (pre ++ b :: post)
  have hstop := hbook.heap.good.stop_le hbook.heap.runs hb
  have hlt := b.addr_lt_stop
  simp only [pageSize] at hroom
  have hblock : sub64 ptr headerSize = b.addr := by
    rw [← hptr]
    exact sub64_add (by omega) (by decide)
  refine ⟨?_, hfreed.inv, hfreed.liveIn hptr hbook.live, fun x hx hxfree => ?_, ?_, ?_⟩
  · rw [NoBorrow, hblock, (hbook.heap.holds hb).size, hbook.used]
    omega
  · -- the block of a pointer that is left is another one
    have hx' : x ∈ pre ∨ x ∈ post := by
      have := mem_inUse.mpr ⟨hx, hxfree⟩
      rw [hfreed.inUse, List.mem_append, mem_inUse, mem_inUse] at this
      exact this.imp And.left And.left
    have hmem : x ∈ pre ++ b :: post := by
      rcases hx' with hx' | hx' <;> simp [hx']
    obtain ⟨e, he, heq⟩ := hbook.owned x hmem hxfree
    have hap := Good.others (l := [b]) hbook.heap.good (y := x) (List.mem_append.mpr hx')
      List.mem_cons_self
    have hxlt := x.addr_lt_stop
    refine ⟨e, List.mem_filter.mpr ⟨he, decide_eq_true ?_⟩, heq⟩
    simp only [Apart] at hap
    omega
  · rw [hfreed.heapUsed, hbook.used, sub64_of_le (by omega) (by omega)]
    omega
  · rw [hfreed.heapTotal, hbook.total, hfreed.covered]

theorem Booked.nothing {s : HeapState} {bs : List Block} (hbook : Booked s bs) (n : Nat) :
    Booked (s.received n (0, s.heap)) bs := hbook

theorem booked_step {s t : HeapState} {c : HeapCall} (hbook : ∃ bs, Booked s bs)
    (hstep : HeapStep s c t) (hguard : HeapGuard s c) :
    (NoBorrow s c ∧ Accounts t ↔ ExactGuard s c) ∧ (NoBorrow s c ∧ Accounts t → ∃ bs, Booked t bs) := by
  obtain ⟨bs, hbook⟩ := hbook
  obtain ⟨hallowed, fuel, hexec⟩ := hstep
  cases c with
  | kmalloc n base =>
    obtain ⟨r, hr, rfl⟩ := Option.map_eq_some_iff.mp hexec
    by_cases hn : n = 0
    · subst hn
      obtain rfl : (0, s.heap) = r := Option.some.inj hr
      have hbook' := hbook.nothing 0
      exact ⟨⟨fun _ => Or.inl rfl, fun _ => ⟨trivial, hbook'.accounts⟩⟩, fun _ => ⟨bs, hbook'⟩⟩
    · obtain ⟨bs', hinv', htook⟩ := kmalloc_cases hbook.heap hn hallowed hr
      obtain ⟨hiff, hkeep⟩ := hbook.received hn hguard htook
        (htook.allocated hn hguard hbook.heap hinv') rfl rfl
      exact ⟨⟨fun h => hiff.mp h.2, fun h => ⟨trivial, hiff.mpr h⟩⟩, fun h => hkeep h.2⟩
  | kmallocZero n base =>
    obtain ⟨r, hr, rfl⟩ := Option.map_eq_some_iff.mp hexec
    by_cases hn : n = 0
    · subst hn
      obtain rfl : (0, s.heap) = r := Option.some.inj hr
      have hbook' := hbook.nothing 0
      exact ⟨⟨fun _ => Or.inl rfl, fun _ => ⟨trivial, hbook'.accounts⟩⟩, fun _ => ⟨bs, hbook'⟩⟩
    · obtain ⟨p, h'⟩ := r
      obtain ⟨h₁, hr₁, rfl⟩ := kmallocZero_cases hr
      obtain ⟨bs', hinv', htook⟩ := kmalloc_cases hbook.heap hn hallowed hr₁
      have halloc := htook.allocated hn hguard hbook.heap hinv'
      obtain ⟨hiff, hkeep⟩ := hbook.received (r := (p, _)) hn hguard htook halloc.zeroed rfl rfl
      exact ⟨⟨fun h => hiff.mp h.2, fun h => ⟨trivial, hiff.mpr h⟩⟩, fun h => hkeep h.2⟩
  | kfree ptr =>
    obtain ⟨h', hh', rfl⟩ := Option.map_eq_some_iff.mp hexec
    obtain ⟨n, hmem⟩ := hallowed
    obtain ⟨pre, b, post, rfl, hptr, hfree⟩ := hbook.live.split hmem
    have hmerge := mergesWithin_of_guard hbook.heap hptr hguard
    rw [← hptr] at hh'
    obtain ⟨bs', hfreed⟩ := (kfree_spec hbook.heap hfree hmerge).1 h' hh'
    obtain ⟨hborrow, hbook'⟩ := hbook.freed hptr hfree hfreed
    exact ⟨⟨fun _ => trivial, fun _ => ⟨hborrow, hbook'.accounts⟩⟩, fun _ => ⟨bs', hbook'⟩⟩
  | write mem =>
    obtain rfl := Option.some.inj hexec
    have hbook' : Booked { s with heap := { s.heap with mem := mem } } bs :=
      ⟨hbook.heap.written hbook.live hallowed, hbook.live, hbook.owned, hbook.used, hbook.total⟩
    exact ⟨⟨fun _ => trivial, fun _ => ⟨trivial, hbook'.accounts⟩⟩, fun _ => ⟨bs, hbook'⟩⟩

/-- **Heap accounting**: along a run whose requests do not wrap and whose `kfree` calls merge within page
runs, nothing is borrowed and the accounts are right throughout exactly when every allocation fills what it
is served from. -/
theorem accounts_iff {mem : HeapMem} {tr : List (HeapCall × HeapState)} (htr : Trace HeapStep (HeapState.start mem) tr)
    (hguard : Guarded HeapGuard (HeapState.start mem) tr) :
    AllSteps (fun s c t => NoBorrow s c ∧ Accounts t) (HeapState.start mem) tr ↔
      Guarded ExactGuard (HeapState.start mem) tr := by
  refine (htr.restrict hguard).allSteps_iff_guarded (J := fun s => ∃ bs, Booked s bs) ?_ ?_
    ⟨[], .start mem⟩
  · rintro s c t hbook ⟨hstep, hg⟩
    exact (booked_step hbook hstep hg).1
  · rintro s c t hbook ⟨hstep, hg⟩
    exact (booked_step hbook hstep hg).2

/-! ## A page run that is not cut -/

/-- The first allocation freed again. -/
def slackFreed : HeapState := oneRun.next (.kfree 0x100030)

/-- A request of 4000 bytes is served from a page run of 4048: `kfree` takes 4048 off a counter of 4000. -/
theorem slack_wraps : ∃ tr, Trace HeapStep (HeapState.start fun _ => 0) tr ∧
      ¬AllSteps (fun s c t => NoBorrow s c ∧ Accounts t) (HeapState.start fun _ => 0) tr := by
  have hfirst : HeapStep (HeapState.start fun _ => 0) (.kmalloc 4000 0x100000) oneRun :=
    .next (answers_of_empty (by decide) (by decide)) (by decide)
  have hlive : oneRun.live = [(0x100030, 4000)] := by decide
  have hsecond : HeapStep oneRun (.kfree 0x100030) slackFreed :=
    .next ⟨4000, by rw [hlive]; decide⟩ (by decide)
  refine ⟨_, .cons hfirst (.cons hsecond (.nil _)), ?_⟩
  rintro ⟨_, ⟨hborrow, hacc⟩, _⟩
  have hempty : slackFreed.live = [] := by decide
  have hused : slackFreed.heap.heapUsed = 2 ^ 64 - 48 := by decide
  exact absurd (hused.symm.trans (hacc.empty hempty)) (by decide)

/-- A request that fills its page run. -/
def filled : HeapState := (HeapState.start fun _ => 0).next (.kmalloc 4048 0x100000)

def filledFreed : HeapState := filled.next (.kfree 0x100030)

def filledCut : HeapState := filledFreed.next (.kmalloc 32 0)

/-- It is freed, and its block cut for the next two. -/
theorem cut_accounts : AllSteps (fun s c t => NoBorrow s c ∧ Accounts t) (HeapState.start fun _ => 0)
      (traceOf HeapState.next (HeapState.start fun _ => 0)
        [.kmalloc 4048 0x100000, .kfree 0x100030, .kmalloc 32 0, .kmallocZero 16 0]) := by
  have hfirst : HeapStep (HeapState.start fun _ => 0) (.kmalloc 4048 0x100000) filled :=
    .next (answers_of_empty (by decide) (by decide)) (by decide)
  have hlive : filled.live = [(0x100030, 4048)] := by decide
  have hhead : filled.heap.heapHead = 0x100000 := by decide
  have hnext : nextOf filled.heap.mem 0x100000 = 0 := by decide
  have hsecond : HeapStep filled (.kfree 0x100030) filledFreed :=
    .next ⟨4048, by rw [hlive]; decide⟩ (by decide)
  have hthird : HeapStep filledFreed (.kmalloc 32 0) filledCut :=
    .next (Or.inl rfl) (by decide)
  have hfourth : HeapStep filledCut (.kmallocZero 16 0) _ := .next (Or.inl rfl) (by decide)
  refine (accounts_iff (.cons hfirst (.cons hsecond (.cons hthird (.cons hfourth (.nil _)))))
    ⟨?_, ?_, ?_, ?_, trivial⟩).mpr ⟨?_, trivial, ?_, ?_, trivial⟩
  · show (4048 : Nat) ≤ 2 ^ 64 - 48
    decide
  · exact heapGuard_kfree_single hhead hnext _
  · show (32 : Nat) ≤ 2 ^ 64 - 48
    decide
  · show (16 : Nat) ≤ 2 ^ 64 - 48
    decide
  · exact Listed.exactFit [] rfl (by decide)
  · exact Listed.exactFit [0x100000] (by decide) (by decide)
  · exact Listed.exactFit [0x100000, 0x100050] (by decide) (by decide)

end Chicago95.Kernel.Heap
