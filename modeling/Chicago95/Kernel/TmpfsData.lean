/-
# Chicago95.Kernel.TmpfsData — the bytes of the files of `tmpfs`.

A file's bytes are in one buffer, whose size is not stored. A write past the length takes a new buffer, copies as many
bytes as the file is long, and frees the old one; any other write goes into the buffer that is there. So what a buffer
holds behind the length is never read again, and a gap reads as zeros.
-/
import Chicago95.Kernel.VfsHandles
import Chicago95.Lib.Extended
import Mathlib.Data.UInt

namespace Chicago95.Kernel

open Chicago95.Lib.Extended Chicago95.Lib.Transition
open Function (update_of_ne update_self update_idem update)

/-- The tree, with the size and the bytes of each data buffer. -/
structure Files where
  vfs : Vfs
  size : Nat → Nat
  bytes : Nat → Nat → UInt8

namespace Files

/-! ## Memory -/

/-- `memcpy` out of a buffer, `none` where it would read what is not in it. -/
def load (f : Files) (b off len : Nat) : Option (List UInt8) :=
  if f.vfs.freedData b = false ∧ off + len ≤ f.size b then some (tabulate (fun i => f.bytes b (off + i)) len) else none

/-- `memcpy` into a buffer, `none` where it would write beside it. -/
def store (f : Files) (b off : Nat) (data : List UInt8) : Option Files :=
  if f.vfs.freedData b = false ∧ off + data.length ≤ f.size b then
    some
      { f with
        bytes := update f.bytes b fun i =>
          if off ≤ i ∧ i < off + data.length then data.getD (i - off) 0 else f.bytes b i }
  else none

/-- `memcpy((void *)(n->impl_data + off), buf, len)`; without a buffer that is low memory. -/
def memcpyTo (f : Files) (n off : Nat) (data : List UInt8) : Option Files :=
  match (f.vfs.nodes n).implData with
  | none => if data = [] then some f else none
  | some b => f.store b off data

/-! ## The code -/

/-- `(n + PAGE_SIZE - 1) & ~(PAGE_SIZE - 1)`, in `w` bits. -/
def roundUp (w n : Nat) : Nat := (n + pageSize - 1) % 2 ^ w / pageSize * pageSize

def tmpfsRead (f : Files) (n off len : Nat) : Option (List UInt8) :=
  match (f.vfs.nodes n).implData with
  | none => some []
  | some b =>
    if (f.vfs.nodes n).length ≤ off then some []
    else
      let avail := (f.vfs.nodes n).length - off
      f.load b off (if len < avail then len else avail)

/-- What `tmpfs_write` copies into a new buffer of `newSize` zeros. -/
def oldBytes (f : Files) (n newSize : Nat) : Option (Nat → UInt8) :=
  match (f.vfs.nodes n).implData with
  | none => some fun _ => 0
  | some b =>
    let length := (f.vfs.nodes n).length
    let oldCap := if roundUp 32 length = 0 then pageSize else roundUp 32 length
    let copy := if length < oldCap then length else oldCap
    if copy ≤ newSize then (f.load b 0 copy).map fun old i => old.getD i 0 else none

/-- The new buffer of `tmpfs_write`, the old one freed. -/
def regrown (f : Files) (n needed : Nat) : Option Files :=
  let newSize := roundUp 64 needed
  (f.oldBytes n newSize).map fun old =>
    { vfs := f.vfs.regrow n (f.vfs.nodes n).length
      size := update f.size f.vfs.nextData newSize
      bytes := update f.bytes f.vfs.nextData old }

/-- `n->length = length` -/
def setLength (f : Files) (n length : Nat) : Files :=
  { f with vfs := f.vfs.set n { f.vfs.nodes n with length := length } }

/-- `tmpfs_write`: what it returns, `none` for -1, and the state after it. -/
def tmpfsWrite (f : Files) (n off : Nat) (data : List UInt8) (granted : Bool) : Option (Option Nat × Files) :=
  let needed := (off + data.length) % 2 ^ 64
  if (f.vfs.nodes n).length < needed then
    if granted = true then
      (f.regrown n needed).bind fun g =>
        (g.memcpyTo n off data).map fun h => (some data.length, h.setLength n (needed % 2 ^ 32))
    else some (none, f)
  else (f.memcpyTo n off data).map fun g => (some data.length, g)

/-- `vfs_read` of a file or of the directory of `tmpfs`: `default_read` reads nothing. -/
def vfsRead (f : Files) (n off len : Nat) : Option (List UInt8) :=
  if (f.vfs.nodes n).type = .file ∧ (f.vfs.nodes n).implData.isSome = true then f.tmpfsRead n off len
  else
    match (f.vfs.nodes n).ops with
    | .dev => some []
    | .tmp => f.tmpfsRead n off len

/-- `vfs_write`: `default_write` writes nothing and returns 0. -/
def vfsWrite (f : Files) (n off : Nat) (data : List UInt8) (granted : Bool) : Option (Option Nat × Files) :=
  if (f.vfs.nodes n).type = .file ∧ (f.vfs.nodes n).implData.isSome = true then f.tmpfsWrite n off data granted
  else
    match (f.vfs.nodes n).ops with
    | .dev => some (some 0, f)
    | .tmp => f.tmpfsWrite n off data granted

/-! ## Files as arrays -/

/-- What a node's buffer holds. -/
def bytesOf (f : Files) (n : Nat) : Nat → UInt8 :=
  match (f.vfs.nodes n).implData with
  | none => fun _ => 0
  | some b => f.bytes b

/-- A file's bytes. -/
def contents (f : Files) (n : Nat) : List UInt8 := tabulate (f.bytesOf n) (f.vfs.nodes n).length

@[simp] theorem length_contents (f : Files) (n : Nat) : (f.contents n).length = (f.vfs.nodes n).length :=
  length_tabulate _ _

/-- The calls of a history. -/
inductive Call
  | read (n off len : Nat)
  | write (n off : Nat) (data : List UInt8) (granted : Bool)

/-- The state after a call. -/
def next (f : Files) : Call → Files
  | .read .. => f
  | .write n off data granted =>
    match f.vfsWrite n off data granted with
    | none => f
    | some (_, g) => g

/-- No end of a call lies above this. -/
def maxEnd : Nat := 0xFFFFF000

/-- The calls are on the files `S`, and end in bounds. -/
def Allowed (S : Nat → Prop) : Call → Prop
  | .read n off len => S n ∧ off + len ≤ maxEnd
  | .write n off data _ => S n ∧ off + data.length ≤ maxEnd

/-- One call. -/
def Step (S : Nat → Prop) (f : Files) (call : Call) (g : Files) : Prop := Allowed S call ∧ g = f.next call

/-- What a call owes: a read gives the bytes there are, a write that returns a number has replaced its bytes in this file
and in no other, and one that returns -1 nothing. -/
def Right (S : Nat → Prop) (f : Files) (call : Call) (_ : Files) : Prop :=
  match call with
  | .read n off len => f.vfsRead n off len = some (slice (f.contents n) off len)
  | .write n off data granted =>
    ∃ r g, f.vfsWrite n off data granted = some (r, g) ∧ (∀ m, S m → m ≠ n → g.contents m = f.contents m) ∧
      match r with
      | none => g.contents n = f.contents n
      | some k => k = data.length ∧ g.contents n = overlay (f.contents n) off data

/-- The file has a buffer, or there is nothing to write. -/
def Fits (f : Files) : Call → Prop
  | .read .. => True
  | .write n off data _ => (f.vfs.nodes n).implData.isSome = true ∨ off + data.length = 0

/-! ## The invariant -/

/-- The nodes `S` are files of `tmpfs`, each with a buffer of its own that holds it, or without one and empty. -/
structure Sound (S : Nat → Prop) (f : Files) : Prop where
  file : ∀ n, S n → (f.vfs.nodes n).type = .file ∧ (f.vfs.nodes n).ops = .dev
  live : ∀ n b, S n → (f.vfs.nodes n).implData = some b →
    b < f.vfs.nextData ∧ f.vfs.freedData b = false ∧ (f.vfs.nodes n).length ≤ f.size b
  own : ∀ n m b, S n → S m → (f.vfs.nodes n).implData = some b → (f.vfs.nodes m).implData = some b → m = n
  empty : ∀ n, S n → (f.vfs.nodes n).implData = none → (f.vfs.nodes n).length = 0
  limit : ∀ n, S n → (f.vfs.nodes n).length ≤ maxEnd
  fresh : ∀ b, f.vfs.nextData ≤ b → f.vfs.freedData b = false

variable {S : Nat → Prop} {f : Files}

theorem getD_contents (f : Files) {n i : Nat} (h : i < (f.vfs.nodes n).length) : (f.contents n).getD i 0 = f.bytesOf n i :=
  getD_tabulate _ h

theorem getD_contents_of_le (f : Files) {n i : Nat} (h : (f.vfs.nodes n).length ≤ i) : (f.contents n).getD i 0 = 0 :=
  List.getD_eq_default _ _ (by rwa [length_contents])

/-! ## Reading -/

theorem tmpfsRead_eq (h : f.Sound S) {n : Nat} (hn : S n) (off len : Nat) :
    f.tmpfsRead n off len = some (slice (f.contents n) off len) := by
  unfold tmpfsRead
  rw [contents, slice_tabulate]
  cases himpl : (f.vfs.nodes n).implData with
  | none =>
    rw [h.empty n hn himpl, Nat.zero_sub, Nat.min_zero]
    rfl
  | some b =>
    obtain ⟨-, hfreed, hsize⟩ := h.live n b hn himpl
    have hbytes : f.bytesOf n = f.bytes b := by
      unfold bytesOf
      rw [himpl]
    rw [hbytes]
    dsimp only
    split
    · rename_i hend
      rw [Nat.sub_eq_zero_of_le hend, Nat.min_zero]
      rfl
    · have hcopy : (if len < (f.vfs.nodes n).length - off then len else (f.vfs.nodes n).length - off) =
          min len ((f.vfs.nodes n).length - off) := by
        split <;> omega
      rw [hcopy, load, if_pos ⟨hfreed, by omega⟩]

theorem vfsRead_eq (h : f.Sound S) {n : Nat} (hn : S n) (off len : Nat) :
    f.vfsRead n off len = some (slice (f.contents n) off len) := by
  unfold vfsRead
  split
  · exact tmpfsRead_eq h hn off len
  · rename_i hnot
    have himpl : (f.vfs.nodes n).implData = none := by
      rw [← Option.not_isSome_iff_eq_none]
      exact fun hsome => hnot ⟨(h.file n hn).1, hsome⟩
    rw [(h.file n hn).2, ← tmpfsRead_eq h hn off len, tmpfsRead, himpl]

/-! ## Writing in place -/

/-- The state with `data` stored in the buffer `b`. -/
def stored (f : Files) (b off : Nat) (data : List UInt8) : Files :=
  { f with
    bytes := update f.bytes b fun i =>
      if off ≤ i ∧ i < off + data.length then data.getD (i - off) 0 else f.bytes b i }

theorem Sound.stored (h : f.Sound S) (b off : Nat) (data : List UInt8) : (f.stored b off data).Sound S :=
  ⟨h.file, h.live, h.own, h.empty, h.limit, h.fresh⟩

theorem contents_stored_of_ne {b off m : Nat} {data : List UInt8} (hm : (f.vfs.nodes m).implData ≠ some b) :
    (f.stored b off data).contents m = f.contents m := by
  have hbytes : (f.stored b off data).bytesOf m = f.bytesOf m := by
    unfold bytesOf stored
    dsimp only
    cases himpl : (f.vfs.nodes m).implData with
    | none => rfl
    | some c => exact update_of_ne (fun heq => hm (himpl.trans (congrArg some heq))) _ _
  unfold contents
  rw [hbytes]
  rfl

theorem contents_stored {b off n : Nat} {data : List UInt8} (himpl : (f.vfs.nodes n).implData = some b)
    (hle : off + data.length ≤ (f.vfs.nodes n).length) :
    (f.stored b off data).contents n = overlay (f.contents n) off data := by
  have hbytes : (f.stored b off data).bytesOf n = fun i =>
      if off ≤ i ∧ i < off + data.length then data.getD (i - off) 0 else f.bytes b i := by
    unfold bytesOf stored
    dsimp only
    rw [himpl]
    exact update_self ..
  have hold : f.bytesOf n = f.bytes b := by
    unfold bytesOf
    rw [himpl]
  unfold overlay
  rw [length_contents, Nat.max_eq_left hle, contents, hbytes]
  refine tabulate_congr fun i hi => ?_
  rw [getD_contents f hi, hold]

/-! ## Growing -/

theorem le_roundUp {n : Nat} (h : n ≤ maxEnd) : n ≤ roundUp 64 n ∧ n ≤ roundUp 32 n := by
  unfold roundUp pageSize
  unfold maxEnd at h
  omega

theorem oldBytes_eq (h : f.Sound S) {n newSize : Nat} (hn : S n) (hsize : (f.vfs.nodes n).length ≤ newSize) :
    f.oldBytes n newSize = some fun i => (f.contents n).getD i 0 := by
  unfold oldBytes
  cases himpl : (f.vfs.nodes n).implData with
  | none =>
    have hlen := h.empty n hn himpl
    dsimp only
    congr 1
    funext i
    rw [getD_contents_of_le f (by omega)]
  | some b =>
    obtain ⟨-, hfreed, hroom⟩ := h.live n b hn himpl
    have hround := (le_roundUp (h.limit n hn)).2
    have hcopy : (if (f.vfs.nodes n).length < (if roundUp 32 (f.vfs.nodes n).length = 0 then pageSize
        else roundUp 32 (f.vfs.nodes n).length) then (f.vfs.nodes n).length
        else if roundUp 32 (f.vfs.nodes n).length = 0 then pageSize else roundUp 32 (f.vfs.nodes n).length) =
        (f.vfs.nodes n).length := by
      have hpage : 0 < pageSize := by decide
      split <;> split <;> omega
    have hbytes : f.bytesOf n = f.bytes b := by
      unfold bytesOf
      rw [himpl]
    dsimp only
    rw [hcopy, if_pos hsize, load, if_pos ⟨hfreed, by omega⟩, Option.map_some, contents, hbytes]
    simp only [Nat.zero_add]

/-- The state with a new buffer of `needed` bytes that holds the file with `data` in it. -/
def extended (f : Files) (n off : Nat) (data : List UInt8) : Files :=
  { vfs := (f.vfs.regrow n (f.vfs.nodes n).length).set n
      { (f.vfs.regrow n (f.vfs.nodes n).length).nodes n with length := off + data.length }
    size := update f.size f.vfs.nextData (roundUp 64 (off + data.length))
    bytes := update f.bytes f.vfs.nextData fun i =>
      if off ≤ i ∧ i < off + data.length then data.getD (i - off) 0 else (f.contents n).getD i 0 }

theorem extended_node (f : Files) (n off : Nat) (data : List UInt8) (m : Nat) :
    (f.extended n off data).vfs.nodes m =
      if m = n then { f.vfs.nodes n with implData := some f.vfs.nextData, length := off + data.length }
      else f.vfs.nodes m := by
  unfold extended Vfs.regrow Vfs.set
  dsimp only
  split
  · rename_i heq
    rw [heq, update_self, update_self]
  · rename_i hne
    rw [update_of_ne hne, update_of_ne hne]

theorem extended_freed (f : Files) (n off : Nat) (data : List UInt8) {c : Nat}
    (hc : (f.vfs.nodes n).implData ≠ some c) : (f.extended n off data).vfs.freedData c = f.vfs.freedData c := by
  unfold extended Vfs.regrow Vfs.set
  dsimp only
  cases himpl : (f.vfs.nodes n).implData with
  | none => rfl
  | some b => exact update_of_ne (fun heq => hc (himpl.trans (congrArg some heq.symm))) _ _

theorem Sound.nextData_ne (h : f.Sound S) {n : Nat} (hn : S n) : (f.vfs.nodes n).implData ≠ some f.vfs.nextData :=
  fun himpl => absurd (h.live n _ hn himpl).1 (Nat.lt_irrefl _)

theorem tmpfsWrite_extended (h : f.Sound S) {n off : Nat} {data : List UInt8} (hn : S n)
    (hend : off + data.length ≤ maxEnd) (hlt : (f.vfs.nodes n).length < off + data.length) :
    f.tmpfsWrite n off data true = some (some data.length, f.extended n off data) := by
  have hmax : maxEnd < 2 ^ 32 := by decide
  have hround := (le_roundUp hend).1
  have hneeded : (off + data.length) % 2 ^ 64 = off + data.length := Nat.mod_eq_of_lt (by omega)
  have hfreed := extended_freed f n off data (h.nextData_ne hn)
  unfold tmpfsWrite
  dsimp only
  rw [hneeded, if_pos hlt, if_pos rfl, regrown]
  rw [oldBytes_eq h hn (by omega), Option.map_some, Option.bind_some, memcpyTo]
  have himpl : ((f.vfs.regrow n (f.vfs.nodes n).length).nodes n).implData = some f.vfs.nextData := by
    unfold Vfs.regrow Vfs.set
    dsimp only
    rw [update_self]
  rw [himpl]
  dsimp only
  have hroom : off + data.length ≤ (update f.size f.vfs.nextData (roundUp 64 (off + data.length)))
      f.vfs.nextData := by
    rw [update_self]
    exact hround
  have hlive : (f.vfs.regrow n (f.vfs.nodes n).length).freedData f.vfs.nextData = false :=
    hfreed.trans (h.fresh _ (Nat.le_refl _))
  rw [store, if_pos ⟨hlive, hroom⟩, Option.map_some, Nat.mod_eq_of_lt (show off + data.length < 2 ^ 32 by omega)]
  unfold setLength extended
  dsimp only
  rw [update_self, update_idem]

theorem Sound.extended (h : f.Sound S) {n off : Nat} {data : List UInt8} (hend : off + data.length ≤ maxEnd)
    (hn : S n) : (f.extended n off data).Sound S where
  file m hm := by
    rw [extended_node]
    split
    · exact h.file n hn
    · exact h.file m hm
  live m b hm himpl := by
    have hnext : (f.extended n off data).vfs.nextData = f.vfs.nextData + 1 := rfl
    rw [extended_node] at himpl
    rw [extended_node, hnext]
    split at himpl
    · rename_i heq
      obtain rfl := Option.some.inj himpl
      rw [if_pos heq, extended_freed f n off data (h.nextData_ne hn)]
      refine ⟨Nat.lt_succ_self _, h.fresh _ (Nat.le_refl _), ?_⟩
      show _ ≤ update f.size f.vfs.nextData _ f.vfs.nextData
      rw [update_self]
      exact (le_roundUp hend).1
    · rename_i hne
      obtain ⟨hlt, hfreed, hroom⟩ := h.live m b hm himpl
      have hother : (f.vfs.nodes n).implData ≠ some b := fun heq => hne (h.own n m b hn hm heq himpl)
      rw [if_neg hne, extended_freed f n off data hother]
      refine ⟨Nat.lt_succ_of_lt hlt, hfreed, ?_⟩
      show _ ≤ update f.size f.vfs.nextData _ b
      rw [update_of_ne (Nat.ne_of_lt hlt)]
      exact hroom
  own m k b hm hk hmb hkb := by
    rw [extended_node] at hmb hkb
    split at hmb
    · rename_i hmn
      obtain rfl := Option.some.inj hmb
      split at hkb
      · rename_i hkn
        rw [hkn, hmn]
      · exact absurd hkb (h.nextData_ne hk)
    · split at hkb
      · obtain rfl := Option.some.inj hkb
        exact absurd hmb (h.nextData_ne hm)
      · exact h.own m k b hm hk hmb hkb
  empty m hm himpl := by
    rw [extended_node] at himpl ⊢
    split at himpl
    · cases himpl
    · rename_i hne
      rw [if_neg hne]
      exact h.empty m hm himpl
  limit m hm := by
    rw [extended_node]
    split
    · exact hend
    · exact h.limit m hm
  fresh b hb := by
    have hle : f.vfs.nextData + 1 ≤ b := hb
    have hother : (f.vfs.nodes n).implData ≠ some b := fun himpl => by
      have := (h.live n b hn himpl).1
      omega
    rw [extended_freed f n off data hother]
    exact h.fresh b (by omega)

theorem contents_extended (f : Files) {n off : Nat} {data : List UInt8}
    (hlt : (f.vfs.nodes n).length < off + data.length) :
    (f.extended n off data).contents n = overlay (f.contents n) off data := by
  have hnode := extended_node f n off data n
  rw [if_pos rfl] at hnode
  have hbytes : (f.extended n off data).bytesOf n = fun i =>
      if off ≤ i ∧ i < off + data.length then data.getD (i - off) 0 else (f.contents n).getD i 0 := by
    unfold bytesOf
    rw [hnode]
    exact update_self ..
  unfold overlay
  rw [length_contents, Nat.max_eq_right (Nat.le_of_lt hlt), contents, hbytes, hnode]

theorem contents_extended_of_ne (h : f.Sound S) {n off m : Nat} {data : List UInt8} (hm : S m) (hne : m ≠ n) :
    (f.extended n off data).contents m = f.contents m := by
  have hnode := extended_node f n off data m
  rw [if_neg hne] at hnode
  have hbytes : (f.extended n off data).bytesOf m = f.bytesOf m := by
    unfold bytesOf
    rw [hnode]
    cases himpl : (f.vfs.nodes m).implData with
    | none => rfl
    | some c => exact update_of_ne (Nat.ne_of_lt (h.live m c hm himpl).1) _ _
  unfold contents
  rw [hbytes, hnode]

/-! ## One call -/

theorem tmpfsWrite_spec (h : f.Sound S) {n off : Nat} {data : List UInt8} (hn : S n)
    (hend : off + data.length ≤ maxEnd) {b : Nat} (himpl : (f.vfs.nodes n).implData = some b) (granted : Bool) :
    ∃ r g, f.tmpfsWrite n off data granted = some (r, g) ∧ g.Sound S ∧
      (∀ m, S m → m ≠ n → g.contents m = f.contents m) ∧
      match r with
      | none => g = f
      | some k => k = data.length ∧ g.contents n = overlay (f.contents n) off data := by
  have hmax : maxEnd < 2 ^ 32 := by decide
  have hneeded : (off + data.length) % 2 ^ 64 = off + data.length := Nat.mod_eq_of_lt (by omega)
  obtain ⟨hlt, hfreed, hroom⟩ := h.live n b hn himpl
  by_cases hgrow : (f.vfs.nodes n).length < off + data.length
  · cases granted with
    | true =>
      exact ⟨_, _, tmpfsWrite_extended h hn hend hgrow, h.extended hend hn,
        fun m hm hne => contents_extended_of_ne h hm hne, rfl, contents_extended f hgrow⟩
    | false =>
      refine ⟨none, f, ?_, h, fun _ _ _ => rfl, rfl⟩
      unfold tmpfsWrite
      dsimp only
      rw [hneeded, if_pos hgrow, if_neg (by decide)]
  · refine ⟨some data.length, f.stored b off data, ?_, h.stored b off data, fun m hm hne => ?_, rfl, ?_⟩
    · unfold tmpfsWrite memcpyTo store
      dsimp only
      rw [hneeded, if_neg hgrow, himpl]
      dsimp only
      rw [if_pos ⟨hfreed, by omega⟩, Option.map_some]
      rfl
    · exact contents_stored_of_ne fun hmb => hne (h.own n m b hn hm himpl hmb)
    · exact contents_stored himpl (Nat.not_lt.mp hgrow)

theorem vfsWrite_none (h : f.Sound S) {n off : Nat} {data : List UInt8} (hn : S n)
    (himpl : (f.vfs.nodes n).implData = none) (granted : Bool) : f.vfsWrite n off data granted = some (some 0, f) := by
  unfold vfsWrite
  rw [if_neg (by rw [himpl]; simp), (h.file n hn).2]

theorem vfsWrite_some (h : f.Sound S) {n off : Nat} {data : List UInt8} (hn : S n) {b : Nat}
    (himpl : (f.vfs.nodes n).implData = some b) (granted : Bool) :
    f.vfsWrite n off data granted = f.tmpfsWrite n off data granted := by
  unfold vfsWrite
  rw [if_pos ⟨(h.file n hn).1, by rw [himpl]; rfl⟩]

theorem Sound.step (h : f.Sound S) {call : Call} {g : Files} (hst : Step S f call g) : g.Sound S := by
  obtain ⟨hallowed, rfl⟩ := hst
  cases call with
  | read n off len => exact h
  | write n off data granted =>
    obtain ⟨hn, hend⟩ := hallowed
    unfold next
    dsimp only
    cases himpl : (f.vfs.nodes n).implData with
    | none =>
      rw [vfsWrite_none h hn himpl granted]
      exact h
    | some b =>
      obtain ⟨r, g, hwrite, hsound, -⟩ := tmpfsWrite_spec h hn hend himpl granted
      rw [vfsWrite_some h hn himpl granted, hwrite]
      exact hsound

theorem right_iff (h : f.Sound S) {call : Call} {g : Files} (hst : Step S f call g) : Right S f call g ↔ f.Fits call := by
  obtain ⟨hallowed, -⟩ := hst
  cases call with
  | read n off len => exact iff_of_true (vfsRead_eq h hallowed.1 off len) trivial
  | write n off data granted =>
    obtain ⟨hn, hend⟩ := hallowed
    unfold Right Fits
    dsimp only
    cases himpl : (f.vfs.nodes n).implData with
    | some b =>
      obtain ⟨r, g, hwrite, -, hothers, hr⟩ := tmpfsWrite_spec h hn hend himpl granted
      refine iff_of_true ⟨r, g, (vfsWrite_some h hn himpl granted).trans hwrite, hothers, ?_⟩ (Or.inl rfl)
      cases r with
      | none => exact congrArg (contents · n) hr
      | some k => exact hr
    | none =>
      have hempty : (f.contents n).length = 0 := by rw [length_contents, h.empty n hn himpl]
      rw [vfsWrite_none h hn himpl granted]
      constructor
      · rintro ⟨r, g, heq, -, hr⟩
        obtain ⟨rfl, rfl⟩ := Prod.mk.inj (Option.some.inj heq)
        have hlen := congrArg List.length hr.2
        rw [length_overlay, hempty] at hlen
        exact Or.inr (by omega)
      · rintro (hsome | hzero)
        · cases hsome
        · refine ⟨some 0, f, rfl, fun _ _ _ => rfl, by omega, ?_⟩
          refine ext_getD (by rw [length_overlay, hempty]; omega) fun i hi => ?_
          rw [hempty] at hi
          exact absurd hi (Nat.not_lt_zero i)

/-! ## New files -/

/-- `tmpfs_create_node`, with its buffer of zeros. -/
def tmpfsCreateNode (f : Files) (name : Name) (type : VfsType) (g : Grant) : Option Nat × Files :=
  ((f.vfs.tmpfsCreateNode name type g).1,
    { vfs := (f.vfs.tmpfsCreateNode name type g).2
      size := update f.size f.vfs.nextData pageSize
      bytes := update f.bytes f.vfs.nextData fun _ => 0 })

theorem tmpfsCreateNode_file (v : Vfs) (name : Name) (g : Grant) (hg : g.node = true) :
    v.tmpfsCreateNode name .file g =
      (some v.nextNode,
        v.grown
          { name := name.take (vfsNameLen - 1), type := .file
            implData := if g.data = true then some v.nextData else none }
          (if g.data = true then v.nextData + 1 else v.nextData)) := by
  unfold Vfs.tmpfsCreateNode Vfs.vfsNewNode
  simp only [hg, if_true, true_and]
  split
  · simp only [Vfs.set, Vfs.grown, update_self, update_idem]
  · rfl

theorem Sound.created (h : f.Sound S) (hnew : ∀ n, S n → n ≠ f.vfs.nextNode) (name : Name) {g : Grant}
    (hg : g.node = true) : (f.tmpfsCreateNode name .file g).1 = some f.vfs.nextNode ∧
      (f.tmpfsCreateNode name .file g).2.Sound fun n => S n ∨ n = f.vfs.nextNode := by
  unfold tmpfsCreateNode
  rw [tmpfsCreateNode_file f.vfs name g hg]
  refine ⟨rfl, ?_⟩
  dsimp only
  generalize hv : f.vfs.grown _ _ = v
  have hnode : v.nodes f.vfs.nextNode =
      { name := name.take (vfsNameLen - 1), type := .file
        implData := if g.data = true then some f.vfs.nextData else none } := by
    rw [← hv]
    exact update_self ..
  have hold : ∀ n, S n → v.nodes n = f.vfs.nodes n := fun n hn => by
    rw [← hv]
    exact update_of_ne (hnew n hn) ..
  have hfreed : v.freedData = f.vfs.freedData := by
    rw [← hv]
    rfl
  have hdata : v.nextData = if g.data = true then f.vfs.nextData + 1 else f.vfs.nextData := by
    rw [← hv]
    rfl
  -- the new file's buffer is the next one, if it has one
  have hbuf : ∀ b, (v.nodes f.vfs.nextNode).implData = some b → b = f.vfs.nextData ∧ g.data = true := fun b himpl => by
    rw [hnode] at himpl
    dsimp only at himpl
    split at himpl
    · rename_i hd
      exact ⟨(Option.some.inj himpl).symm, hd⟩
    · cases himpl
  refine ⟨?_, ?_, ?_, ?_, ?_, fun b hb => ?_⟩
  · rintro n (hn | rfl)
    · rw [hold n hn]
      exact h.file n hn
    · rw [hnode]
      exact ⟨rfl, rfl⟩
  · rintro n b (hn | rfl) himpl
    · rw [hold n hn] at himpl ⊢
      obtain ⟨hlt, hlive, hroom⟩ := h.live n b hn himpl
      dsimp only
      rw [hdata, hfreed, update_of_ne (Nat.ne_of_lt hlt)]
      exact ⟨by split <;> omega, hlive, hroom⟩
    · obtain ⟨rfl, hd⟩ := hbuf b himpl
      dsimp only
      rw [hdata, if_pos hd, hfreed, hnode]
      exact ⟨Nat.lt_succ_self _, h.fresh _ (Nat.le_refl _), Nat.zero_le _⟩
  · rintro n m b (hn | rfl) (hm | rfl) hnb hmb
    · rw [hold n hn] at hnb
      rw [hold m hm] at hmb
      exact h.own n m b hn hm hnb hmb
    · rw [hold n hn] at hnb
      exact absurd ((hbuf b hmb).1 ▸ hnb) (h.nextData_ne hn)
    · rw [hold m hm] at hmb
      exact absurd ((hbuf b hnb).1 ▸ hmb) (h.nextData_ne hm)
    · rfl
  · rintro n (hn | rfl) himpl
    · rw [hold n hn] at himpl ⊢
      exact h.empty n hn himpl
    · rw [hnode]
  · rintro n (hn | rfl)
    · rw [hold n hn]
      exact h.limit n hn
    · rw [hnode]
      exact Nat.zero_le _
  · show v.freedData b = false
    have hle : v.nextData ≤ b := hb
    rw [hfreed]
    refine h.fresh b ?_
    rw [hdata] at hle
    split at hle <;> omega

/-! ## Histories -/

/-- **The files of `tmpfs` as arrays of bytes**, over every history of reads and writes: right throughout exactly if no
file without a buffer is written to. -/
theorem tmpfs_run_iff (h : f.Sound S) {tr : List (Call × Files)} (htr : Trace (Step S) f tr) :
    AllSteps (Right S) f tr ↔ Guarded Fits f tr :=
  htr.allSteps_iff_guarded (J := Sound S) (Q := Right S) (fun _ _ _ hs hst => right_iff hs hst) (fun _ _ _ hs hst _ => hs.step hst) h

/-- The tree of `vfs_init`, and no buffer. -/
def noFiles : Files := { vfs := .vfsInit, size := fun _ => 0, bytes := fun _ _ => 0 }

theorem sound_noFiles : noFiles.Sound fun _ => False :=
  ⟨fun _ h => h.elim, fun _ _ h => h.elim, fun _ _ _ h => h.elim, fun _ h => h.elim, fun _ h => h.elim, fun _ _ => rfl⟩

/-- One file made. -/
def oneFile (g : Grant) : Files := (noFiles.tmpfsCreateNode ['a'] .file g).2

theorem sound_oneFile (data : Bool) : (oneFile { node := true, data := data }).Sound fun n => False ∨ n = 2 :=
  (sound_noFiles.created (fun _ h => h.elim) ['a'] rfl).2

/-- A byte written behind a gap and read with it. -/
theorem oneFile_gap : AllSteps (Right fun n => False ∨ n = 2) (oneFile plenty)
      (traceOf next (oneFile plenty) [.write 2 1 [7] true, .read 2 0 2]) := by
  refine (tmpfs_run_iff (sound_oneFile true) ?_).mpr ⟨Or.inl (by decide), trivial, trivial⟩
  exact .cons ⟨⟨Or.inr rfl, by decide⟩, rfl⟩ (.cons ⟨⟨Or.inr rfl, by decide⟩, rfl⟩ (.nil _))

/-- ⚠ A file made without a buffer: a byte is written, 0 is returned, and the file stays empty. -/
theorem oneFile_without_buffer :
    (oneFile { node := true, data := false }).vfsWrite 2 0 [7] true =
        some (some 0, oneFile { node := true, data := false }) ∧
      ¬ ∀ tr, Trace (Step fun n => False ∨ n = 2) (oneFile { node := true, data := false }) tr →
        AllSteps (Right fun n => False ∨ n = 2) (oneFile { node := true, data := false }) tr := by
  have himpl : ((oneFile { node := true, data := false }).vfs.nodes 2).implData = none := by decide
  have hwrite : (oneFile { node := true, data := false }).vfsWrite 2 0 [7] true =
      some (some 0, oneFile { node := true, data := false }) :=
    vfsWrite_none (sound_oneFile false) (Or.inr rfl) himpl true
  refine ⟨hwrite, fun h => ?_⟩
  have htr : Trace (Step fun n => False ∨ n = 2) (oneFile { node := true, data := false })
      (traceOf next (oneFile { node := true, data := false }) [.write 2 0 [7] true]) :=
    .cons ⟨⟨Or.inr rfl, by decide⟩, rfl⟩ (.nil _)
  obtain ⟨⟨r, g, heq, -, hr⟩, -⟩ := h _ htr
  obtain ⟨rfl, -⟩ := Prod.mk.inj (Option.some.inj (hwrite.symm.trans heq))
  exact absurd hr.1 (by decide)

end Files

end Chicago95.Kernel
