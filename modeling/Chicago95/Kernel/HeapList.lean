/-
# Chicago95.Kernel.HeapList — the block list of the heap, and what each operation makes of it.

`Seg mem a bs b` says that the pointers from `a` on lead through headers holding the blocks `bs` and
end at `b`; the heap is `Seg mem heap_head bs 0`. `Good` is what keeps such a list sound: blocks apart
from each other, each inside the page run it was cut from, and **list neighbours of one run contiguous**.
That last clause relates list order to addresses: `heap_grow` prepends, so it says nothing about
neighbours of different runs.
-/
import Chicago95.Lib.Extents
import Chicago95.Kernel.Heap

namespace Chicago95.Kernel.Heap

open Chicago95.Lib.Extents
open Function (update_of_ne update_self)

/-! ## Blocks -/

/-- A block of the list, with the page run it was cut from. -/
structure Block where
  addr : Nat
  size : Nat
  free : Bool
  run : Run
  deriving DecidableEq

/-- The address after a block. -/
def Block.stop (b : Block) : Nat := b.addr + headerSize + b.size

theorem Block.addr_lt_stop (b : Block) : b.addr < b.stop := by
  unfold Block.stop headerSize
  omega

/-- The block with its `free` written. -/
def Block.mark (b : Block) (free : Bool) : Block := { b with free := free }

/-- The first `size` bytes of a block. -/
def Block.front (b : Block) (size : Nat) : Block := { b with size := size }

/-- The free block behind the first `size` bytes. -/
def Block.back (b : Block) (size : Nat) : Block where
  addr := b.addr + headerSize + size
  size := b.size - size - headerSize
  free := true
  run := b.run

/-- A block with the next one taken in. -/
def Block.join (b c : Block) : Block := { b with size := wrap (b.size + (headerSize + c.size)) }

@[simp] theorem Block.mark_addr (b : Block) (f : Bool) : (b.mark f).addr = b.addr := rfl
@[simp] theorem Block.mark_size (b : Block) (f : Bool) : (b.mark f).size = b.size := rfl
@[simp] theorem Block.mark_free (b : Block) (f : Bool) : (b.mark f).free = f := rfl
@[simp] theorem Block.mark_run (b : Block) (f : Bool) : (b.mark f).run = b.run := rfl
@[simp] theorem Block.mark_stop (b : Block) (f : Bool) : (b.mark f).stop = b.stop := rfl
@[simp] theorem Block.front_addr (b : Block) (n : Nat) : (b.front n).addr = b.addr := rfl
@[simp] theorem Block.front_size (b : Block) (n : Nat) : (b.front n).size = n := rfl
@[simp] theorem Block.front_run (b : Block) (n : Nat) : (b.front n).run = b.run := rfl
@[simp] theorem Block.back_addr (b : Block) (n : Nat) : (b.back n).addr = (b.front n).stop := rfl
@[simp] theorem Block.back_run (b : Block) (n : Nat) : (b.back n).run = b.run := rfl
@[simp] theorem Block.join_addr (b c : Block) : (b.join c).addr = b.addr := rfl
@[simp] theorem Block.join_free (b c : Block) : (b.join c).free = b.free := rfl
@[simp] theorem Block.join_run (b c : Block) : (b.join c).run = b.run := rfl

/-- A free block with room for `size` bytes. -/
def Block.Fits (b : Block) (size : Nat) : Prop := b.free = true ∧ size ≤ b.size

/-- What taking a block for `size` bytes makes of it: the block, cut off where the rest is worth it. -/
def Block.taken (b : Block) (size : Nat) : List Block :=
  if size + headerSize + 32 ≤ b.size then [(b.front size).mark false, b.back size]
  else [b.mark false]

/-- The part of a taken block that is in use. -/
def Block.served (b : Block) (size : Nat) : Block :=
  if size + headerSize + 32 ≤ b.size then (b.front size).mark false else b.mark false

/-- The blocks in use, in list order. -/
def inUse (bs : List Block) : List Block := bs.filter fun b => !b.free

/-- The bytes the blocks take up, headers included. -/
def covered (bs : List Block) : Nat := (bs.map fun b => b.stop - b.addr).sum

@[simp] theorem mem_inUse {b : Block} {bs : List Block} : b ∈ inUse bs ↔ b ∈ bs ∧ b.free = false := by
  simp [inUse]

@[simp] theorem inUse_append (bs cs : List Block) : inUse (bs ++ cs) = inUse bs ++ inUse cs :=
  List.filter_append ..

@[simp] theorem Block.served_addr (b : Block) (size : Nat) : (b.served size).addr = b.addr := by
  unfold Block.served
  split <;> rfl

@[simp] theorem Block.served_free (b : Block) (size : Nat) : (b.served size).free = false := by
  unfold Block.served
  split <;> rfl

theorem Block.Fits.served {b : Block} {size : Nat} (h : b.Fits size) : size ≤ (b.served size).size := by
  unfold Block.served
  split
  · exact Nat.le_refl _
  · exact h.2

theorem inUse_cons_free {b : Block} (h : b.free = true) (bs : List Block) : inUse (b :: bs) = inUse bs := by
  simp [inUse, h]

theorem inUse_cons_used {b : Block} (h : b.free = false) (bs : List Block) : inUse (b :: bs) = b :: inUse bs := by
  simp [inUse, h]

@[simp] theorem covered_nil : covered [] = 0 := rfl

@[simp] theorem covered_cons (b : Block) (bs : List Block) : covered (b :: bs) = headerSize + b.size + covered bs := by
  have : b.stop - b.addr = headerSize + b.size := by
    simp only [Block.stop]
    omega
  rw [covered, List.map_cons, List.sum_cons, this]
  rfl

theorem inUse_taken (b : Block) (size : Nat) : inUse (b.taken size) = [b.served size] := by
  unfold Block.taken Block.served
  split
  · rw [inUse_cons_used rfl, inUse_cons_free rfl]
    rfl
  · rw [inUse_cons_used rfl]
    rfl

theorem covered_taken (b : Block) (size : Nat) : covered (b.taken size) = covered [b] := by
  unfold Block.taken
  split
  · rename_i hcut
    simp only [covered_cons, covered_nil, Block.mark_size, Block.front_size, Block.back, headerSize]
      at hcut ⊢
    omega
  · simp only [covered_cons, Block.mark_size]

@[simp] theorem covered_append (bs cs : List Block) : covered (bs ++ cs) = covered bs + covered cs := by
  simp [covered]

/-- The header at `b.addr` says what `b` says. -/
structure Holds (m : HeapMem) (b : Block) : Prop where
  magic : magicOf m b.addr = heapMagic
  size : sizeOf m b.addr = b.size
  free : freeOf m b.addr ≠ 0 ↔ b.free = true

/-- The `next` pointers lead from `a` through the blocks to `b`. -/
def Seg (m : HeapMem) : Nat → List Block → Nat → Prop
  | a, [], b => a = b
  | a, x :: l, b => a = x.addr ∧ Holds m x ∧ Seg m (nextOf m x.addr) l b

theorem seg_cons {m : HeapMem} {a b : Nat} {x : Block} {l : List Block} :
    Seg m a (x :: l) b ↔ a = x.addr ∧ Holds m x ∧ Seg m (nextOf m x.addr) l b := Iff.rfl

theorem seg_append {m : HeapMem} {b : Nat} {l k : List Block} :
    ∀ {a : Nat}, Seg m a (l ++ k) b ↔ ∃ c, Seg m a l c ∧ Seg m c k b := by
  induction l with
  | nil => intro a; exact ⟨fun h => ⟨a, rfl, h⟩, by rintro ⟨c, rfl, h⟩; exact h⟩
  | cons x l ih =>
    intro a
    simp only [List.cons_append, seg_cons, ih]
    constructor
    · rintro ⟨ha, hx, c, hxs, hys⟩
      exact ⟨c, ⟨ha, hx, hxs⟩, hys⟩
    · rintro ⟨c, ⟨ha, hx, hxs⟩, hys⟩
      exact ⟨ha, hx, c, hxs, hys⟩

/-- The memory a segment is read from: four words of each header. -/
def Agree (m m' : HeapMem) (b : Block) : Prop :=
  ∀ w, b.addr ≤ w → w < b.addr + 32 → m' w = m w

theorem Agree.holds {m m' : HeapMem} {b : Block} (h : Agree m m' b) (hb : Holds m b) :
    Holds m' b where
  magic := (h b.addr (Nat.le_refl _) (by omega)).trans hb.magic
  size := (h (b.addr + 8) (by omega) (by omega)).trans hb.size
  free := by
    rw [← hb.free, freeOf, freeOf, h (b.addr + 16) (by omega) (by omega)]

theorem Agree.next {m m' : HeapMem} {b : Block} (h : Agree m m' b) :
    nextOf m' b.addr = nextOf m b.addr := h (b.addr + 24) (by omega) (by omega)

theorem Seg.congr {m m' : HeapMem} {b : Nat} {l : List Block} :
    ∀ {a : Nat}, Seg m a l b → (∀ x ∈ l, Agree m m' x) → Seg m' a l b := by
  induction l with
  | nil => intro a h _; exact h
  | cons x l ih =>
    rintro a ⟨ha, hx, hxs⟩ hag
    have hagx := hag x List.mem_cons_self
    refine ⟨ha, hagx.holds hx, ?_⟩
    rw [hagx.next]
    exact ih hxs fun y hy => hag y (List.mem_cons_of_mem x hy)

/-! ## Sound lists -/

/-- The blocks are pairwise apart, inside their runs, 16-byte aligned, and contiguous with a list
neighbour of the same run. -/
structure Good (runs : List Run) (bs : List Block) : Prop where
  apart : bs.Pairwise (Apart Block.addr Block.stop)
  inside : ∀ b ∈ bs, b.run ∈ runs ∧ b.run.base ≤ b.addr ∧ b.stop ≤ b.run.stop
  aligned : ∀ b ∈ bs, b.addr % 16 = 0 ∧ b.size % 16 = 0
  contiguous : Contiguous Block.addr Block.stop Block.run bs

/-- Page runs: not at null, page aligned, below `2 ^ 64`, apart from each other. -/
structure GoodRuns (runs : List Run) : Prop where
  pos : ∀ r ∈ runs, 0 < r.base
  aligned : ∀ r ∈ runs, r.base % pageSize = 0
  bounded : ∀ r ∈ runs, r.stop ≤ 2 ^ 64
  apart : runs.Pairwise (Apart Run.base Run.stop)

theorem Good.replace {runs : List Run} {pre l k post : List Block} {r : Run} {a z : Nat}
    (h : Good runs (pre ++ (l ++ post))) (hxs : l ≠ []) (hys : k ≠ [])
    (hsx : Spans Block.addr Block.stop a z l) (hsy : Spans Block.addr Block.stop a z k)
    (hrx : ∀ x ∈ l, x.run = r) (hry : ∀ y ∈ k, y.run = r)
    (hal : ∀ y ∈ k, y.addr % 16 = 0 ∧ y.size % 16 = 0) :
    Good runs (pre ++ (k ++ post)) where
  apart := pairwise_replace h.apart hxs hsx hsy fun y _ => y.addr_lt_stop
  inside y hy := by
    rcases List.mem_append.mp hy with hy' | hy'
    · exact h.inside y (List.mem_append_left _ hy')
    rcases List.mem_append.mp hy' with hy' | hy'
    · -- the run of the stretch contains all of its range
      obtain ⟨x, l', rfl⟩ := List.exists_cons_of_ne_nil hxs
      have hlast := List.getLast?_eq_some_getLast (List.cons_ne_nil x l')
      have hlastmem := List.mem_of_getLast? hlast
      obtain ⟨hrun, hbase, _⟩ := h.inside x (by simp)
      obtain ⟨_, _, hstop⟩ := h.inside _
        (List.mem_append_right pre (List.mem_append_left post hlastmem))
      rw [hrx _ hlastmem, hsx.last _ hlast] at hstop
      rw [hrx x List.mem_cons_self] at hrun hbase
      rw [hsx.1] at hbase
      obtain ⟨h1, h2⟩ := hsy.bounds y hy'
      rw [hry y hy']
      exact ⟨hrun, by omega, by omega⟩
    · exact h.inside y (List.mem_append_right pre (List.mem_append_right l hy'))
  aligned y hy := by
    rcases List.mem_append.mp hy with hy' | hy'
    · exact h.aligned y (List.mem_append_left _ hy')
    rcases List.mem_append.mp hy' with hy' | hy'
    · exact hal y hy'
    · exact h.aligned y (List.mem_append_right pre (List.mem_append_right l hy'))
  contiguous := contiguous_replace h.contiguous hxs hys hsx hsy hrx hry

theorem spans_single (b : Block) : Spans Block.addr Block.stop b.addr b.stop [b] :=
  ⟨rfl, b.addr_lt_stop, rfl⟩

theorem spans_pair {b c : Block} (h : b.stop = c.addr) : Spans Block.addr Block.stop b.addr c.stop [b, c] :=
  ⟨rfl, b.addr_lt_stop, h.symm, by rw [h]; exact c.addr_lt_stop, rfl⟩

theorem Good.others {runs : List Run} {pre l post : List Block}
    (h : Good runs (pre ++ (l ++ post))) {y x : Block} (hy : y ∈ pre ++ post) (hx : x ∈ l) :
    Apart Block.addr Block.stop y x := by
  have hap := h.apart
  rw [List.pairwise_append, List.pairwise_append] at hap
  obtain ⟨_, ⟨_, _, hpost⟩, hpre⟩ := hap
  rcases List.mem_append.mp hy with hy | hy
  · exact hpre y hy x (List.mem_append_left _ hx)
  · exact (hpost x hx y hy).symm

theorem Good.nonzero {runs : List Run} {bs : List Block} (h : Good runs bs) (hr : GoodRuns runs)
    {b : Block} (hb : b ∈ bs) : 0 < b.addr := by
  obtain ⟨hrun, hbase, _⟩ := h.inside b hb
  have := hr.pos _ hrun
  omega

theorem Good.stop_le {runs : List Run} {bs : List Block} (h : Good runs bs) (hr : GoodRuns runs)
    {b : Block} (hb : b ∈ bs) : b.stop ≤ 2 ^ 64 := by
  obtain ⟨hrun, _, hstop⟩ := h.inside b hb
  have := hr.bounded _ hrun
  omega

theorem Good.eq_or_apart {runs : List Run} {bs : List Block} (h : Good runs bs) {y z : Block}
    (hy : y ∈ bs) (hz : z ∈ bs) : y = z ∨ Apart Block.addr Block.stop y z := by
  by_cases hyz : y = z
  · exact Or.inl hyz
  · exact Or.inr (h.apart.forall hy hz hyz)

/-! ## Segments under the heap's writes -/

theorem Seg.replace {m m' : HeapMem} {a e : Nat} {pre l k post : List Block}
    (h : Seg m a (pre ++ (l ++ post)) e) (hmid : ∀ c d, Seg m c l d → Seg m' c k d)
    (hoth : ∀ y ∈ pre ++ post, Agree m m' y) : Seg m' a (pre ++ (k ++ post)) e := by
  rw [seg_append] at h ⊢
  obtain ⟨c, hpre, h⟩ := h
  rw [seg_append] at h
  obtain ⟨d, hxs, hpost⟩ := h
  refine ⟨c, hpre.congr fun y hy => hoth y (List.mem_append_left _ hy), ?_⟩
  rw [seg_append]
  exact ⟨d, hmid c d hxs, hpost.congr fun y hy => hoth y (List.mem_append_right _ hy)⟩

theorem Seg.next_mem {m : HeapMem} {a : Nat} {pre post : List Block} {b : Block} (h : Seg m a (pre ++ b :: post) 0) :
    nextOf m b.addr = 0 ∨ ∃ z ∈ post, z.addr = nextOf m b.addr := by
  rw [seg_append] at h
  obtain ⟨c, _, _, _, hpost⟩ := h
  cases post with
  | nil => exact Or.inl hpost
  | cons z zs => exact Or.inr ⟨z, List.mem_cons_self, hpost.1.symm⟩

theorem seg_setFree {runs : List Run} {m : HeapMem} {a v : Nat} {pre post : List Block} {b : Block}
    {free : Bool} (hgood : Good runs (pre ++ b :: post)) (h : Seg m a (pre ++ b :: post) 0)
    (hv : v < 2 ^ 32) (hfree : v ≠ 0 ↔ free = true) : Seg (setFree m b.addr v) a (pre ++ b.mark free :: post) 0 := by
  refine Seg.replace (l := [b]) (k := [b.mark free]) h ?_ ?_
  · rintro c d ⟨rfl, hb, hd⟩
    refine ⟨rfl, ⟨?_, ?_, ?_⟩, ?_⟩
    · rw [← hb.magic]
      exact update_of_ne (by simp) ..
    · rw [Block.mark_size, ← hb.size]
      exact update_of_ne (by simp) ..
    · rw [Block.mark_free, ← hfree]
      simp only [freeOf, setFree, Block.mark_addr, update_self]
      omega
    · rw [← hd]
      exact update_of_ne (by simp) ..
  · intro y hy w h1 h2
    refine update_of_ne ?_ ..
    have hap := Good.others (l := [b]) hgood hy List.mem_cons_self
    simp only [Apart, Block.stop, headerSize] at hap
    omega

theorem Good.prev_outside {runs : List Run} {bs : List Block} (h : Good runs bs) {y z : Block}
    (hy : y ∈ bs) (hz : z ∈ bs) {w : Nat} (h1 : y.addr ≤ w) (h2 : w < y.addr + 32) : w ≠ z.addr + 32 := by
  rcases h.eq_or_apart hy hz with rfl | hap
  · omega
  · simp only [Apart, Block.stop, headerSize] at hap
    omega

theorem splitBlock_words {m : HeapMem} {a size z : Nat} (hz : size + headerSize + 32 ≤ z)
    (hstop : a + headerSize + z ≤ 2 ^ 64)
    (hnext : nextOf m a = 0 ∨ nextOf m a + headerSize ≤ a ∨ a + headerSize + z ≤ nextOf m a) :
    let m' := KHeap.splitBlock m a size
    let s := a + headerSize + size
    (magicOf m' a = magicOf m a ∧ sizeOf m' a = size ∧ freeOf m' a = freeOf m a ∧ nextOf m' a = s) ∧
    (magicOf m' s = heapMagic ∧ sizeOf m' s = sub64 (sub64 (sizeOf m a) size) headerSize ∧
      freeOf m' s = 1 ∧ nextOf m' s = nextOf m a) ∧
    ∀ w, w < a ∨ a + headerSize + z ≤ w → nextOf m a = 0 ∨ w ≠ nextOf m a + 32 → m' w = m w := by
  simp only [headerSize] at *
  have hs : wrap (a + 48 + size) = a + 48 + size := wrap_of_lt (by omega)
  -- the successor is read again after the new header is written, and is the same
  have hread : ∀ v1 v2 v3 v4 v5, nextOf (setPrev (setNext (setFree (setSize (setMagic m
      (a + 48 + size) v1) (a + 48 + size) v2) (a + 48 + size) v3) (a + 48 + size) v4)
      (a + 48 + size) v5) a = nextOf m a := by
    intro v1 v2 v3 v4 v5
    simp (disch := omega) only [nextOf, setPrev, setNext, setFree, setSize, setMagic,
      update_of_ne]
  simp only [KHeap.splitBlock, headerSize, hs, hread]
  by_cases h0 : nextOf m a = 0
  · rw [if_pos h0]
    simp only [magicOf, sizeOf, freeOf, nextOf, setPrev, setNext, setFree, setSize, setMagic] at *
    refine ⟨⟨?_, ?_, ?_, ?_⟩, ⟨?_, ?_, ?_, ?_⟩, fun w hw _ => ?_⟩
    all_goals
      simp (disch := omega) only [update_of_ne, update_self]
    omega
  · rw [if_neg h0]
    replace hnext := hnext.resolve_left h0
    simp only [magicOf, sizeOf, freeOf, nextOf, setPrev, setNext, setFree, setSize, setMagic] at *
    refine ⟨⟨?_, ?_, ?_, ?_⟩, ⟨?_, ?_, ?_, ?_⟩, fun w hw hne => ?_⟩
    case refine_9 =>
      replace hne := hne.resolve_left h0
      simp (disch := omega) only [update_of_ne]
    all_goals
      simp (disch := omega) only [update_of_ne, update_self]
    omega

theorem Good.next_apart {runs : List Run} {m : HeapMem} {a : Nat} {pre post : List Block} {b : Block}
    (hgood : Good runs (pre ++ b :: post)) (h : Seg m a (pre ++ b :: post) 0) :
    nextOf m b.addr = 0 ∨ nextOf m b.addr + headerSize ≤ b.addr ∨ b.stop ≤ nextOf m b.addr := by
  rcases h.next_mem with h0 | ⟨z, hz, hzaddr⟩
  · exact Or.inl h0
  · have hap := Good.others (l := [b]) hgood (List.mem_append_right pre hz) List.mem_cons_self
    have := z.addr_lt_stop
    simp only [Apart, Block.stop, headerSize] at *
    omega

theorem Good.back_outside {runs : List Run} {m : HeapMem} {a : Nat} {pre post : List Block}
    {b : Block} (hgood : Good runs (pre ++ b :: post)) (h : Seg m a (pre ++ b :: post) 0) {y : Block}
    (hy : y ∈ pre ++ post) {w : Nat} (h1 : y.addr ≤ w) (h2 : w < y.addr + 32) :
    nextOf m b.addr = 0 ∨ w ≠ nextOf m b.addr + 32 := by
  rcases h.next_mem with h0 | ⟨z, hz, hzaddr⟩
  · exact Or.inl h0
  · rw [← hzaddr]
    refine Or.inr (hgood.prev_outside (y := y) (z := z) ?_ ?_ h1 h2)
    · rcases List.mem_append.mp hy with hy | hy
      · exact List.mem_append_left _ hy
      · exact List.mem_append_right _ (List.mem_cons_of_mem b hy)
    · exact List.mem_append_right _ (List.mem_cons_of_mem b hz)

theorem seg_splitBlock {runs : List Run} {m : HeapMem} {a size : Nat} {pre post : List Block}
    {b : Block} (hruns : GoodRuns runs) (hgood : Good runs (pre ++ b :: post))
    (h : Seg m a (pre ++ b :: post) 0) (hsize : size + headerSize + 32 ≤ b.size) :
    Seg (KHeap.splitBlock m b.addr size) a (pre ++ ([b.front size, b.back size] ++ post)) 0 := by
  have hstop := hgood.stop_le hruns (b := b) (by simp)
  obtain ⟨⟨hm1, hs1, hf1, hn1⟩, ⟨hm2, hs2, hf2, hn2⟩, hout⟩ :=
    splitBlock_words hsize hstop (hgood.next_apart h)
  refine Seg.replace (l := [b]) h ?_ ?_
  · rintro c d ⟨rfl, hb, hd⟩
    refine ⟨rfl, ⟨hm1.trans hb.magic, hs1, by rw [Block.front_addr, hf1]; exact hb.free⟩, hn1,
      ⟨hm2, ?_, ?_⟩, ?_⟩
    · simp only [Block.stop, headerSize] at hsize hstop
      have hrest : sub64 b.size size = b.size - size := sub64_of_le (by omega) (by omega)
      have hle : headerSize ≤ b.size - size := by
        simp only [headerSize]
        omega
      show sizeOf _ (b.addr + headerSize + size) = b.size - size - headerSize
      rw [hs2, hb.size, hrest, sub64_of_le (by omega) hle]
    · show freeOf _ (b.addr + headerSize + size) ≠ 0 ↔ _
      rw [hf2]
      exact ⟨fun _ => rfl, fun _ => Nat.one_ne_zero⟩
    · rw [← hd]
      exact hn2
  · intro y hy w h1 h2
    refine hout w ?_ (hgood.back_outside h hy h1 h2)
    have hap := Good.others (l := [b]) hgood hy List.mem_cons_self
    simp only [Apart, Block.stop, headerSize] at hap ⊢
    omega

theorem mergeNext_words {m : HeapMem} {a : Nat}
    (hnext : nextOf m a + headerSize ≤ a ∨ a + headerSize ≤ nextOf m a)
    (hback : nextOf m (nextOf m a) = 0 ∨ nextOf m (nextOf m a) + headerSize ≤ a ∨
      a + headerSize ≤ nextOf m (nextOf m a)) :
    let m' := KHeap.mergeNext m a
    (magicOf m' a = magicOf m a ∧
      sizeOf m' a = wrap (sizeOf m a + (headerSize + sizeOf m (nextOf m a))) ∧
      freeOf m' a = freeOf m a ∧ nextOf m' a = nextOf m (nextOf m a)) ∧
    ∀ w, w < a ∨ a + headerSize ≤ w →
      nextOf m (nextOf m a) = 0 ∨ w ≠ nextOf m (nextOf m a) + 32 → m' w = m w := by
  simp only [headerSize] at *
  have hread : ∀ v, nextOf (setSize m a v) a = nextOf m a := by
    intro v
    simp (disch := omega) only [nextOf, setSize, update_of_ne]
  have hread' : ∀ v, nextOf (setSize m a v) (nextOf m a) = nextOf m (nextOf m a) := by
    intro v
    simp only [nextOf, setSize] at *
    simp (disch := omega) only [update_of_ne]
  have hself : ∀ m' v, nextOf (setNext m' a v) a = v := by
    intro m' v
    simp only [nextOf, setNext, update_self]
  simp only [KHeap.mergeNext, headerSize, hread, hread', hself]
  by_cases h0 : nextOf m (nextOf m a) = 0
  · rw [if_pos h0]
    simp only [magicOf, sizeOf, freeOf, nextOf, setNext, setSize] at *
    refine ⟨⟨?_, ?_, ?_, ?_⟩, fun w hw _ => ?_⟩
    all_goals
      simp (disch := omega) only [update_of_ne, update_self]
  · rw [if_neg h0]
    replace hback := hback.resolve_left h0
    simp only [magicOf, sizeOf, freeOf, nextOf, setPrev, setNext, setSize] at *
    refine ⟨⟨?_, ?_, ?_, ?_⟩, fun w hw hne => ?_⟩
    case refine_5 =>
      replace hne := hne.resolve_left h0
      simp (disch := omega) only [update_of_ne]
    all_goals
      simp (disch := omega) only [update_of_ne, update_self]

theorem seg_mergeNext {runs : List Run} {m : HeapMem} {a : Nat} {pre post : List Block}
    {b c : Block} (hgood : Good runs (pre ++ b :: c :: post)) (h : Seg m a (pre ++ b :: c :: post) 0) :
    Seg (KHeap.mergeNext m b.addr) a (pre ++ ([b.join c] ++ post)) 0 := by
  have hgood' : Good runs ((pre ++ [b]) ++ c :: post) := by simpa using hgood
  have h' : Seg m a ((pre ++ [b]) ++ c :: post) 0 := by simpa using h
  obtain ⟨_, hpre, hbc⟩ := seg_append.mp h
  obtain ⟨-, hb, hcaddr, hc, -⟩ := hbc
  have hbcap := Good.others (l := [c]) hgood' (y := b) (by simp) List.mem_cons_self
  have hnext : nextOf m b.addr + headerSize ≤ b.addr ∨ b.addr + headerSize ≤ nextOf m b.addr := by
    simp only [Apart, Block.stop, headerSize] at hbcap ⊢
    omega
  have hback : nextOf m (nextOf m b.addr) = 0 ∨ nextOf m (nextOf m b.addr) + headerSize ≤ b.addr ∨
      b.addr + headerSize ≤ nextOf m (nextOf m b.addr) := by
    rw [hcaddr]
    rcases h'.next_mem with h0 | ⟨z, hz, hzaddr⟩
    · exact Or.inl h0
    · have hap := Good.others (l := [b]) hgood (y := z) (by simp [hz]) List.mem_cons_self
      simp only [Apart, Block.stop, headerSize] at hap ⊢
      omega
  obtain ⟨⟨hm, hs, hf, hn⟩, hout⟩ := mergeNext_words hnext hback
  rw [hcaddr] at hs hn hout
  refine Seg.replace (l := [b, c]) h ?_ ?_
  · rintro e d ⟨rfl, hb, _, hc, hd⟩
    refine ⟨rfl, ⟨hm.trans hb.magic, ?_, by rw [Block.join_addr, hf]; exact hb.free⟩, ?_⟩
    · rw [Block.join_addr, hs, hb.size, hc.size]
      rfl
    · exact hn.trans hd
  · intro y hy w h1 h2
    have hy' : y ∈ (pre ++ [b]) ++ post := by
      rcases List.mem_append.mp hy with hy | hy
      · exact List.mem_append_left _ (List.mem_append_left _ hy)
      · exact List.mem_append_right _ hy
    refine hout w ?_ (hgood'.back_outside h' hy' h1 h2)
    have hyb : Apart Block.addr Block.stop y b := by
      refine Good.others (l := [b]) hgood ?_ List.mem_cons_self
      rcases List.mem_append.mp hy with hy | hy
      · exact List.mem_append_left _ hy
      · exact List.mem_append_right _ (List.mem_cons_of_mem c hy)
    simp only [Apart, Block.stop, headerSize] at hyb ⊢
    omega

/-! ## Cutting and joining keep the list sound -/

theorem GoodRuns.page_le {runs : List Run} (h : GoodRuns runs) {r : Run} (hr : r ∈ runs) : pageSize ≤ r.base := by
  have h1 := h.pos r hr
  have h2 := h.aligned r hr
  exact Nat.le_of_dvd h1 (Nat.dvd_of_mod_eq_zero h2)

theorem Good.mark {runs : List Run} {pre post : List Block} {b : Block} (free : Bool)
    (h : Good runs (pre ++ b :: post)) : Good runs (pre ++ b.mark free :: post) := by
  refine Good.replace (l := [b]) (k := [b.mark free]) (r := b.run) h (List.cons_ne_nil _ _)
    (List.cons_ne_nil _ _) (spans_single b) (spans_single (b.mark free)) ?_ ?_ ?_
  · intro x hx
    rw [List.mem_singleton.mp hx]
  · intro y hy
    rw [List.mem_singleton.mp hy, Block.mark_run]
  · intro y hy
    rw [List.mem_singleton.mp hy, Block.mark_addr, Block.mark_size]
    exact h.aligned b (by simp)

theorem Good.split {runs : List Run} {pre post : List Block} {b : Block} {size : Nat}
    (h : Good runs (pre ++ b :: post)) (hsize : size + headerSize + 32 ≤ b.size)
    (hal : size % 16 = 0) : Good runs (pre ++ ([b.front size, b.back size] ++ post)) := by
  obtain ⟨hba, hbs⟩ := h.aligned b (by simp)
  have hstop : (b.back size).stop = b.stop := by
    simp only [Block.stop, Block.back, headerSize] at hsize ⊢
    omega
  have hpair : Spans Block.addr Block.stop b.addr b.stop [b.front size, b.back size] := by
    rw [← hstop]
    exact spans_pair (Block.back_addr b size).symm
  refine Good.replace (l := [b]) (r := b.run) h (List.cons_ne_nil _ _) (List.cons_ne_nil _ _)
    (spans_single b) hpair ?_ ?_ ?_
  · intro x hx
    rw [List.mem_singleton.mp hx]
  · intro y hy
    rcases List.mem_cons.mp hy with rfl | hy
    · rfl
    · rw [List.mem_singleton.mp hy, Block.back_run]
  · intro y hy
    rcases List.mem_cons.mp hy with rfl | hy
    · exact ⟨hba, hal⟩
    · rw [List.mem_singleton.mp hy]
      simp only [Block.back, headerSize] at hsize ⊢
      omega

theorem Good.join_size {runs : List Run} {pre post : List Block} {b c : Block}
    (hruns : GoodRuns runs) (h : Good runs (pre ++ b :: c :: post)) (hrun : b.run = c.run) :
    (b.join c).size = b.size + (headerSize + c.size) := by
  have hcont : b.stop = c.addr := (List.isChain_append_cons_cons.mp h.contiguous).2.1 hrun
  have hcstop := h.stop_le hruns (b := c) (by simp)
  simp only [Block.stop, headerSize] at hcont hcstop
  exact wrap_of_lt (by simp only [headerSize]; omega)

theorem Good.join {runs : List Run} {pre post : List Block} {b c : Block}
    (hruns : GoodRuns runs) (h : Good runs (pre ++ b :: c :: post)) (hrun : b.run = c.run) :
    Good runs (pre ++ ([b.join c] ++ post)) := by
  obtain ⟨hba, hbs⟩ := h.aligned b (by simp)
  obtain ⟨_, hcs⟩ := h.aligned c (by simp)
  have hcont : b.stop = c.addr := (List.isChain_append_cons_cons.mp h.contiguous).2.1 hrun
  have hsize := h.join_size hruns hrun
  have hstop : (b.join c).stop = c.stop := by
    rw [Block.stop, hsize, Block.join_addr]
    simp only [Block.stop] at hcont ⊢
    omega
  have hsingle : Spans Block.addr Block.stop b.addr c.stop [b.join c] := by
    rw [← hstop]
    exact spans_single (b.join c)
  refine Good.replace (l := [b, c]) (r := b.run) h (List.cons_ne_nil _ _) (List.cons_ne_nil _ _)
    (spans_pair hcont) hsingle ?_ ?_ ?_
  · intro x hx
    rcases List.mem_cons.mp hx with rfl | hx
    · rfl
    · rw [List.mem_singleton.mp hx, hrun]
  · intro y hy
    rw [List.mem_singleton.mp hy, Block.join_run]
  · intro y hy
    rw [List.mem_singleton.mp hy, Block.join_addr, hsize]
    simp only [headerSize]
    omega

end Chicago95.Kernel.Heap
