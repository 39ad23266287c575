/-
# Chicago95.Kernel.FdIo — `sys_read` and `sys_write`.

Numbers 0 to 2 are the keyboard and the screen, whatever a process's table has there. Any other number goes through the
table to a global entry, and through its node to the file system, which is a parameter here: `vfs_read` and `vfs_write`
with what they do to it. `Files.fileSystem` is the one of `tmpfs`.
-/
import Chicago95.Kernel.TmpfsData

namespace Chicago95.Kernel

/-! ## Entries -/

theorem toNat_lt_of_fd (fd : Int) (h : 0 ≤ fd ∧ fd < 1024) : fd.toNat < 1024 := by omega

/-- `vfs_fd_get`: the node, 0 for `NULL`. -/
def vfsFdGet (g : FdTable) (fd : Int) : Nat :=
  if h : 0 ≤ fd ∧ fd < 1024 then
    let i : Fin 1024 := ⟨fd.toNat, toNat_lt_of_fd fd h⟩
    if (g i).inUse then (g i).node else 0
  else 0

/-- `vfs_fd_offset`: the entry whose offset it points to. -/
def vfsFdOffset (g : FdTable) (fd : Int) : Option (Fin 1024) :=
  if h : 0 ≤ fd ∧ fd < 1024 then
    let i : Fin 1024 := ⟨fd.toNat, toNat_lt_of_fd fd h⟩
    if (g i).inUse then some i else none
  else none

/-- `*offset = off` -/
def KState.setOffset (k : KState) (i : Fin 1024) (off : Nat) : KState :=
  k.setGlobalFds (Function.update k.globalFdTable i { k.globalFdTable i with offset := off })

theorem vfsFdGet_of_inUse {g : FdTable} {i : Fin 1024} (h : (g i).inUse = true) :
    vfsFdGet g (i.val : Int) = (g i).node := by
  unfold vfsFdGet
  rw [dif_pos ⟨by omega, by omega⟩]
  exact if_pos h

theorem vfsFdOffset_of_inUse {g : FdTable} {i : Fin 1024} (h : (g i).inUse = true) :
    vfsFdOffset g (i.val : Int) = some i := by
  unfold vfsFdOffset
  rw [dif_pos ⟨by omega, by omega⟩]
  exact if_pos h

/-! ## The system calls -/

/-- What `sys_read` and `sys_write` use of the file system. -/
structure FileSystem (σ : Type*) where
  read : σ → Nat → Nat → Nat → Bool → Option (Int × List UInt8 × σ)
  write : σ → Nat → Nat → List UInt8 → Bool → Option (Int × σ)
  /-- `node->flags` -/
  flags : σ → Nat → Nat
  /-- `node->length` -/
  length : σ → Nat → Nat

/-- The file system and the kernel. -/
structure Io (σ : Type*) where
  fs : σ
  kernel : KState

def oAppend : Nat := 0x400

variable {σ : Type*}

/-- `sys_read`, with what `keyboard_getchar` has: what is returned, what is stored in the buffer, the state. -/
def sysRead (F : FileSystem σ) (s : Io σ) (fd buf len : Nat) (key : Option UInt8) (granted : Bool) :
    Option (Int × List UInt8 × Io σ) :=
  match s.kernel.currentProcess with
  | none => some (-1, [], s)
  | some c =>
    if syscallValidateUserPtr s.kernel buf len = false then some (-1, [], s)
    else if fd = 0 then
      match key with
      | none => some (0, [], s)
      | some ch => some (1, [ch], s)
    else if fd = 1 ∨ fd = 2 then some (-1, [], s)
    else if h : fd < 16 then
      let vfsFd := (s.kernel.processes c).fdTable ⟨fd, h⟩
      let node := vfsFdGet s.kernel.globalFdTable vfsFd
      if vfsFd < 0 ∨ node = 0 then some (-1, [], s)
      else
        match vfsFdOffset s.kernel.globalFdTable vfsFd with
        | none => some (-1, [], s)
        | some i =>
          let offset := (s.kernel.globalFdTable i).offset
          (F.read s.fs node offset len granted).map fun (result, bytes, fs) =>
            (result, bytes,
              { fs := fs
                kernel :=
                  if 0 < result then s.kernel.setOffset i ((offset + result.toNat) % 2 ^ 64) else s.kernel })
    else some (-1, [], s)

def sysWrite (F : FileSystem σ) (s : Io σ) (fd buf : Nat) (data : List UInt8) (granted : Bool) : Option (Int × Io σ) :=
  match s.kernel.currentProcess with
  | none => some (-1, s)
  | some c =>
    if syscallValidateUserPtr s.kernel buf data.length = false then some (-1, s)
    else if fd = 0 then some (-1, s)
    else if fd = 1 ∨ fd = 2 then some (data.length, s)
    else if h : fd < 16 then
      let vfsFd := (s.kernel.processes c).fdTable ⟨fd, h⟩
      let node := vfsFdGet s.kernel.globalFdTable vfsFd
      if vfsFd < 0 ∨ node = 0 then some (-1, s)
      else
        match vfsFdOffset s.kernel.globalFdTable vfsFd with
        | none => some (-1, s)
        | some i =>
          let off :=
            if F.flags s.fs node &&& oAppend ≠ 0 then F.length s.fs node
            else (s.kernel.globalFdTable i).offset
          (F.write s.fs node off data granted).map fun (result, fs) =>
            (result,
              { fs := fs
                kernel :=
                  if 0 < result then s.kernel.setOffset i ((off + result.toNat) % 2 ^ 64) else s.kernel })
    else some (-1, s)

/-! ## Through the table -/

/-- Descriptor `fd` of process `c` names the entry `i`, which is in use. -/
def KState.Names (k : KState) (c : Slot) (fd : Fin 16) (i : Fin 1024) : Prop :=
  (k.processes c).fdTable fd = (i.val : Int) ∧ (k.globalFdTable i).inUse = true

variable {F : FileSystem σ} {s : Io σ} {c : Slot} {fd : Fin 16} {i : Fin 1024}

theorem sysRead_of_names (hc : s.kernel.currentProcess = some c) (h3 : 3 ≤ fd.val) (hi : s.kernel.Names c fd i)
    (hnode : (s.kernel.globalFdTable i).node ≠ 0) {buf len : Nat} (hbuf : syscallValidateUserPtr s.kernel buf len = true)
    (key : Option UInt8) (granted : Bool) :
    sysRead F s fd.val buf len key granted =
      (F.read s.fs (s.kernel.globalFdTable i).node (s.kernel.globalFdTable i).offset len granted).map
        fun (result, bytes, fs) =>
          (result, bytes,
            { fs := fs
              kernel :=
                if 0 < result then
                  s.kernel.setOffset i (((s.kernel.globalFdTable i).offset + result.toNat) % 2 ^ 64)
                else s.kernel }) := by
  obtain ⟨hfd, huse⟩ := hi
  unfold sysRead
  simp only [hc]
  rw [if_neg (by rw [hbuf]; decide), if_neg (by omega), if_neg (by omega), dif_pos fd.isLt]
  simp only [hfd, vfsFdGet_of_inUse huse, vfsFdOffset_of_inUse huse]
  rw [if_neg (by omega)]

theorem sysWrite_of_names (hc : s.kernel.currentProcess = some c) (h3 : 3 ≤ fd.val) (hi : s.kernel.Names c fd i)
    (hnode : (s.kernel.globalFdTable i).node ≠ 0) {buf : Nat} {data : List UInt8}
    (hbuf : syscallValidateUserPtr s.kernel buf data.length = true) (granted : Bool) {off : Nat}
    (hoff : (if F.flags s.fs (s.kernel.globalFdTable i).node &&& oAppend ≠ 0 then
      F.length s.fs (s.kernel.globalFdTable i).node else (s.kernel.globalFdTable i).offset) = off) :
    sysWrite F s fd.val buf data granted =
      (F.write s.fs (s.kernel.globalFdTable i).node off data granted).map fun (result, fs) =>
        (result,
          { fs := fs
            kernel := if 0 < result then s.kernel.setOffset i ((off + result.toNat) % 2 ^ 64) else s.kernel }) := by
  obtain ⟨hfd, huse⟩ := hi
  unfold sysWrite
  simp only [hc]
  rw [if_neg (by rw [hbuf]; decide), if_neg (by omega), if_neg (by omega), dif_pos fd.isLt]
  simp only [hfd, vfsFdGet_of_inUse huse, vfsFdOffset_of_inUse huse, hoff]
  rw [if_neg (by omega)]

/-- What a call does to the descriptors: nothing, or it moves the offset of the entry its number names. -/
inductive KState.Moved (k : KState) (fd : Nat) : KState → Prop
  | same : Moved k fd k
  | moved {c : Slot} {h : fd < 16} {i : Fin 1024} (off : Nat) : k.currentProcess = some c → 3 ≤ fd →
      k.Names c ⟨fd, h⟩ i → Moved k fd (k.setOffset i off)

theorem vfsFdOffset_eq {g : FdTable} {v : Int} (h : vfsFdOffset g v = some i) : v = i.val ∧ (g i).inUse = true := by
  unfold vfsFdOffset at h
  split at h
  · dsimp only at h
    split at h
    · rename_i huse
      obtain rfl := Option.some.inj h
      exact ⟨by dsimp only; omega, huse⟩
    · cases h
  · cases h

theorem moved_sysRead {buf len fd : Nat} {key : Option UInt8} {granted : Bool} {r : Int} {bytes : List UInt8}
    {t : Io σ} (h : sysRead F s fd buf len key granted = some (r, bytes, t)) : s.kernel.Moved fd t.kernel := by
  have hsame : ∀ {r' : Int} {bytes' : List UInt8}, some (r', bytes', s) = some (r, bytes, t) →
      s.kernel.Moved fd t.kernel := fun heq => by
    obtain rfl := (Prod.mk.inj (Prod.mk.inj (Option.some.inj heq)).2).2
    exact .same
  unfold sysRead at h
  split at h
  · exact hsame h
  · rename_i c hc
    split at h
    · exact hsame h
    · split at h
      · split at h <;> exact hsame h
      · split at h
        · exact hsame h
        · split at h
          · rename_i hlt
            dsimp only at h
            split at h
            · exact hsame h
            · split at h
              · exact hsame h
              · rename_i i hoff
                obtain ⟨⟨result, bytes', fs⟩, -, heq⟩ := Option.map_eq_some_iff.mp h
                obtain ⟨-, heq⟩ := Prod.mk.inj heq
                obtain ⟨-, rfl⟩ := Prod.mk.inj heq
                dsimp only
                split
                · exact .moved (h := hlt) _ hc (by omega) (vfsFdOffset_eq hoff)
                · exact .same
          · exact hsame h

theorem moved_sysWrite {buf fd : Nat} {data : List UInt8} {granted : Bool} {r : Int} {t : Io σ}
    (h : sysWrite F s fd buf data granted = some (r, t)) : s.kernel.Moved fd t.kernel := by
  have hsame : ∀ {r' : Int}, some (r', s) = some (r, t) → s.kernel.Moved fd t.kernel := fun heq => by
    obtain rfl := (Prod.mk.inj (Option.some.inj heq)).2
    exact .same
  unfold sysWrite at h
  split at h
  · exact hsame h
  · rename_i c hc
    split at h
    · exact hsame h
    · split at h
      · exact hsame h
      · split at h
        · exact hsame h
        · split at h
          · rename_i hlt
            dsimp only at h
            split at h
            · exact hsame h
            · split at h
              · exact hsame h
              · rename_i i hoff
                obtain ⟨⟨result, fs⟩, -, heq⟩ := Option.map_eq_some_iff.mp h
                obtain ⟨-, rfl⟩ := Prod.mk.inj heq
                dsimp only
                split
                · exact .moved (h := hlt) _ hc (by omega) (vfsFdOffset_eq hoff)
                · exact .same
          · exact hsame h

/-! ## The file system of `tmpfs` -/

/-- Nodes are numbered from 1 here: 0 is `NULL`. The second part of the state is `node->flags`. -/
def Files.fileSystem : FileSystem (Files × (Nat → Nat)) where
  read s node off len _ := (s.1.vfsRead (node - 1) off len).map fun bytes => (bytes.length, bytes, s)
  write s node off data granted :=
    (s.1.vfsWrite (node - 1) off data granted).map fun (r, f) => (r.elim (-1) Nat.cast, (f, s.2))
  flags s node := s.2 node
  length s node := (s.1.vfs.nodes (node - 1)).length

end Chicago95.Kernel
