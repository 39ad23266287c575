/-
# Chicago95.Kernel.Dispatch — what a number that `sys_open` returned reads and writes.

The state is extended with what each number of each process was opened as: the node, the flags, and the offset, which
only reads and writes through that very number move. `Right` holds `sys_read` and `sys_write` to it.
-/
import Chicago95.Kernel.DescriptorOwnership
import Chicago95.Kernel.FdIo

namespace Chicago95.Kernel

open Chicago95.Lib.Transition

/-- What a number was opened as. -/
structure Opened where
  node : Nat
  flags : Nat
  offset : Nat

/-- The global entry of a descriptor. -/
def Opened.entry (o : Opened) : FdEntry := { inUse := true, node := o.node, flags := o.flags, offset := o.offset }

/-- The state, with what the numbers were opened as. -/
structure Dispatch (σ : Type*) where
  io : Io σ
  opened : Slot → Fin 16 → Option Opened

/-- The calls: those on the tables, after which the file system may be any other, and reads and writes. -/
inductive IoCall (σ : Type*)
  | fd (call : FdCall) (fs : σ)
  | read (fd buf len : Nat) (key : Option UInt8) (granted : Bool)
  | write (fd buf : Nat) (data : List UInt8) (granted : Bool)

namespace Dispatch

variable {σ : Type*} {F : FileSystem σ} {L : Layout}

/-- What the numbers are opened as after a call on the tables. -/
def after (s : Dispatch σ) (call : FdCall) (j : Slot) (d : Fin 16) : Option Opened :=
  let k := s.io.kernel
  match call with
  | .process call => if call.filledSlot k = some j then none else s.opened j d
  | .open opened flags =>
    if k.currentProcess = some j ∧ (d.val : Int) = (sysOpen k opened flags).1 then
      opened.map fun node => { node := node, flags := flags % 2 ^ 32, offset := 0 }
    else s.opened j d
  | .dup oldfd =>
    if k.currentProcess = some j ∧ (d.val : Int) = (sysDup k oldfd).1 then
      if h : oldfd < 16 then s.opened j ⟨oldfd, h⟩ else none
    else s.opened j d
  | .pipe _ _ => s.opened j d
  | .close fd => if k.currentProcess = some j ∧ d.val = fd then none else s.opened j d
  | .exit _ => if k.currentProcess = some j then none else s.opened j d

/-- `n` bytes on from `off`, through number `fd` of the current process. -/
def advanced (s : Dispatch σ) (fd : Nat) (off : Opened → Nat) (n : Int) (j : Slot) (d : Fin 16) : Option Opened :=
  if s.io.kernel.currentProcess = some j ∧ d.val = fd ∧ 0 < n then
    (s.opened j d).map fun o => { o with offset := (off o + n.toNat) % 2 ^ 64 }
  else s.opened j d

/-- Where a write through a descriptor goes: to its offset, or to the end of the file if it was opened so. -/
def position (F : FileSystem σ) (fs : σ) (o : Opened) : Nat :=
  if o.flags &&& oAppend ≠ 0 then F.length fs o.node else o.offset

/-- The state after a call, `none` where it touches memory that is not its own. -/
def next (F : FileSystem σ) (L : Layout) (s : Dispatch σ) : IoCall σ → Option (Dispatch σ)
  | .fd call fs => some { io := { fs := fs, kernel := call.exec L s.io.kernel }, opened := s.after call }
  | .read fd buf len key granted =>
    (sysRead F s.io fd buf len key granted).map fun (n, _, io) =>
      { io := io, opened := s.advanced fd Opened.offset n }
  | .write fd buf data granted =>
    (sysWrite F s.io fd buf data granted).map fun (n, io) =>
      { io := io, opened := s.advanced fd (position F s.io.fs) n }

/-- `vfs_open` returns `NULL` or a node. -/
def Allowed : IoCall σ → Prop
  | .fd (.open opened _) _ => opened ≠ some 0
  | _ => True

/-- One call. -/
def Step (F : FileSystem σ) (L : Layout) (s : Dispatch σ) (call : IoCall σ) (t : Dispatch σ) : Prop :=
  Allowed call ∧ s.next F L call = some t

/-- What a call owes: no number of the console is handed out, and reads and writes through a number that was opened are
those of its node, at its own offset. -/
def Right (F : FileSystem σ) (s : Dispatch σ) : IoCall σ → Dispatch σ → Prop
  | .fd (.open opened flags) _, _ =>
    (sysOpen s.io.kernel opened flags).1 < 0 ∨ 3 ≤ (sysOpen s.io.kernel opened flags).1
  | .fd (.dup oldfd) _, _ => (sysDup s.io.kernel oldfd).1 < 0 ∨ 3 ≤ (sysDup s.io.kernel oldfd).1
  | .fd _ _, _ => True
  | .read fd buf len key granted, t =>
    ∀ c d o, s.io.kernel.currentProcess = some c → d.val = fd → s.opened c d = some o →
      syscallValidateUserPtr s.io.kernel buf len = true →
      ∃ n bytes, sysRead F s.io fd buf len key granted = some (n, bytes, t.io) ∧
        F.read s.io.fs o.node o.offset len granted = some (n, bytes, t.io.fs)
  | .write fd buf data granted, t =>
    ∀ c d o, s.io.kernel.currentProcess = some c → d.val = fd → s.opened c d = some o →
      syscallValidateUserPtr s.io.kernel buf data.length = true →
      ∃ n, sysWrite F s.io fd buf data granted = some (n, t.io) ∧
        F.write s.io.fs o.node (position F s.io.fs o) data granted = some (n, t.io.fs)

/-- No other number that was opened goes through the entry that `v` is. -/
def Unshared (s : Dispatch σ) (c : Slot) (fd : Nat) (v : Int) : Prop :=
  ∀ j d o, s.opened j d = some o → (s.io.kernel.processes j).fdTable d = v → j = c ∧ d.val = fd

/-- Numbers 0 to 2 of the current process are taken. -/
def ConsoleTaken (k : KState) : Prop :=
  ∀ c, k.currentProcess = some c → ∀ d : Fin 16, d.val < 3 → (k.processes c).fdTable d ≠ -1

/-- The condition on a call. -/
def Guard (F : FileSystem σ) (s : Dispatch σ) : IoCall σ → Prop
  | .fd (.open opened _) _ => opened = none ∨ ConsoleTaken s.io.kernel
  | .fd (.dup oldfd) _ =>
    (∀ c (h : oldfd < 16), s.io.kernel.currentProcess = some c → (s.io.kernel.processes c).fdTable ⟨oldfd, h⟩ < 0) ∨
      ConsoleTaken s.io.kernel
  | .fd (.close fd) _ =>
    ∀ c (h : fd < 16), s.io.kernel.currentProcess = some c →
      s.Unshared c fd ((s.io.kernel.processes c).fdTable ⟨fd, h⟩)
  | .fd (.exit _) _ =>
    ∀ c d, s.io.kernel.currentProcess = some c → ∀ j e o, s.opened j e = some o →
      (s.io.kernel.processes j).fdTable e = (s.io.kernel.processes c).fdTable d → j = c
  | .fd _ _ => True
  | .read fd _ _ _ _ =>
    ∀ c (h : fd < 16), s.io.kernel.currentProcess = some c → 3 ≤ fd →
      s.Unshared c fd ((s.io.kernel.processes c).fdTable ⟨fd, h⟩)
  | .write fd _ _ _ =>
    ∀ c (h : fd < 16), s.io.kernel.currentProcess = some c → 3 ≤ fd →
      s.Unshared c fd ((s.io.kernel.processes c).fdTable ⟨fd, h⟩) ∧
        ∀ o, s.opened c ⟨fd, h⟩ = some o →
          ((F.flags s.io.fs o.node &&& oAppend ≠ 0 ↔ o.flags &&& oAppend ≠ 0) ∨ o.offset = F.length s.io.fs o.node)

/-! ## What the calls do -/

theorem sysOpen_cases (k : KState) (opened : Option Nat) (flags : Nat) : sysOpen k opened flags = (-1, k) ∨
      ∃ c node slot i, k.currentProcess = some c ∧ opened = some node ∧ (k.processes c).fdTable slot = -1 ∧
        (k.globalFdTable i).inUse = false ∧ sysOpen k opened flags = ((slot.val : Int),
            (k.setGlobalFds (Function.update k.globalFdTable i (takenEntry node (flags % 2 ^ 32)))).setFd c slot i) := by
  unfold sysOpen
  cases hc : k.currentProcess with
  | none => exact Or.inl rfl
  | some c =>
    cases opened with
    | none => exact Or.inl rfl
    | some node =>
      dsimp only
      cases hslot : findFreeFd (k.processes c).fdTable with
      | none => exact Or.inl rfl
      | some slot =>
        dsimp only
        rcases vfsFdAlloc_cases k.globalFdTable node (flags % 2 ^ 32) with ha | ⟨i, hi, ha⟩
        · rw [ha]
          exact Or.inl rfl
        · rw [ha]
          exact Or.inr ⟨c, node, slot, i, rfl, rfl, findFreeFd_eq hslot, hi, rfl⟩

theorem sysDup_cases (k : KState) (oldfd : Nat) : sysDup k oldfd = (-1, k) ∨
      ∃ c old slot i, ∃ h : oldfd < 16, k.currentProcess = some c ∧ k.Names c ⟨oldfd, h⟩ old ∧
        (k.processes c).fdTable slot = -1 ∧ (k.globalFdTable i).inUse = false ∧ sysDup k oldfd = ((slot.val : Int),
            (k.setGlobalFds (Function.update k.globalFdTable i (k.globalFdTable old))).setFd c slot i) := by
  unfold sysDup
  cases hc : k.currentProcess with
  | none => exact Or.inl rfl
  | some c =>
    dsimp only
    split
    · rename_i hlt
      split
      · exact Or.inl rfl
      · cases hslot : findFreeFd (k.processes c).fdTable with
        | none => exact Or.inl rfl
        | some slot =>
          unfold vfsFdDup
          by_cases hrange : 0 ≤ (k.processes c).fdTable ⟨oldfd, hlt⟩ ∧ (k.processes c).fdTable ⟨oldfd, hlt⟩ < 1024
          · obtain ⟨old, hold⟩ : ∃ old : Fin 1024, (k.processes c).fdTable ⟨oldfd, hlt⟩ = (old.val : Int) :=
              ⟨⟨((k.processes c).fdTable ⟨oldfd, hlt⟩).toNat, by omega⟩, by dsimp only; omega⟩
            have hfin : ∀ hb, (⟨((k.processes c).fdTable ⟨oldfd, hlt⟩).toNat, hb⟩ : Fin 1024) = old := fun hb =>
              Fin.ext (by dsimp only; omega)
            simp only [dif_pos hrange, hfin]
            cases huse : (k.globalFdTable old).inUse with
            | false => exact Or.inl rfl
            | true =>
              rw [if_pos rfl]
              rcases vfsFdAlloc_cases k.globalFdTable (k.globalFdTable old).node (k.globalFdTable old).flags with
                ha | ⟨i, hi, ha⟩
              · rw [ha]
                exact Or.inl rfl
              · have hne : old ≠ i := fun heq => by rw [heq, hi] at huse; cases huse
                have hcopy : ({ takenEntry (k.globalFdTable old).node (k.globalFdTable old).flags with
                    offset := (k.globalFdTable old).offset } : FdEntry) = k.globalFdTable old := by
                  unfold takenEntry
                  rw [← huse]
                simp only [ha, Function.update_self, Function.update_of_ne hne, Function.update_idem, hcopy]
                exact Or.inr ⟨c, old, slot, i, hlt, rfl, ⟨hold, huse⟩, findFreeFd_eq hslot, hi, rfl⟩
          · rw [dif_neg hrange]
            exact Or.inl rfl
    · exact Or.inl rfl

theorem sysPipe_fd (k : KState) (ptr : Nat) (nodes : Option (Nat × Nat)) (j : Slot) {d : Fin 16}
    (h : (k.processes j).fdTable d ≠ -1) :
    ((sysPipe k ptr nodes).2.processes j).fdTable d = (k.processes j).fdTable d := by
  unfold sysPipe
  cases hc : k.currentProcess with
  | none => rfl
  | some c =>
    dsimp only
    split
    · rfl
    · cases nodes with
      | none => rfl
      | some nodes =>
        dsimp only
        cases hfds : findTwoFreeFds (k.processes c).fdTable with
        | none => rfl
        | some fds =>
          obtain ⟨hr, hw, -⟩ := findTwoFreeFds_eq hfds
          dsimp only
          split
          · rfl
          · split
            · rfl
            · by_cases hj : j = c
              · subst hj
                have hdr : d ≠ fds.1 := fun heq => h (heq ▸ hr)
                have hdw : d ≠ fds.2 := fun heq => h (heq ▸ hw)
                simp [hdr, hdw]
              · rw [KState.setFd_processes_of_ne _ _ _ hj, KState.setFd_processes_of_ne _ _ _ hj]
                rfl

/-! ## The invariant -/

/-- A number that is opened is not the console's, and names an entry of its own that is as it was opened. -/
structure Sound (s : Dispatch σ) : Prop where
  numbered : WellNumbered s.io.kernel
  entry : ∀ c d o, s.opened c d = some o → 3 ≤ d.val ∧ o.node ≠ 0 ∧
    ∃ i : Fin 1024, (s.io.kernel.processes c).fdTable d = i.val ∧ s.io.kernel.globalFdTable i = o.entry
  own : ∀ c d j e o p, s.opened c d = some o → s.opened j e = some p →
    (s.io.kernel.processes j).fdTable e = (s.io.kernel.processes c).fdTable d → j = c ∧ e = d

variable {s t : Dispatch σ}

theorem Sound.names (h : s.Sound) {c : Slot} {d : Fin 16} {o : Opened} (ho : s.opened c d = some o) :
    ∃ i, s.io.kernel.Names c d i ∧ s.io.kernel.globalFdTable i = o.entry := by
  obtain ⟨-, -, i, hi, hentry⟩ := h.entry c d o ho
  exact ⟨i, ⟨hi, by rw [hentry]; rfl⟩, hentry⟩

theorem Sound.of_kept (h : s.Sound) (hnum : WellNumbered t.io.kernel)
    (hkept : ∀ c d o, t.opened c d = some o → s.opened c d = some o ∧
      (t.io.kernel.processes c).fdTable d = (s.io.kernel.processes c).fdTable d ∧
      ∀ i : Fin 1024, (s.io.kernel.processes c).fdTable d = i.val →
        t.io.kernel.globalFdTable i = s.io.kernel.globalFdTable i) : t.Sound where
  numbered := hnum
  entry c d o ho := by
    obtain ⟨hs, hfd, hglobal⟩ := hkept c d o ho
    obtain ⟨h3, hnode, i, hi, hentry⟩ := h.entry c d o hs
    exact ⟨h3, hnode, i, hfd.trans hi, (hglobal i hi).trans hentry⟩
  own c d j e o p ho hp heq := by
    obtain ⟨ho, hd, -⟩ := hkept c d o ho
    obtain ⟨hp, he, -⟩ := hkept j e p hp
    rw [hd, he] at heq
    exact h.own c d j e o p ho hp heq

theorem Sound.kept_of_grown (h : s.Sound) {k' : KState} (hk : Holdings.Grown s.io.kernel k') {c : Slot} {d : Fin 16}
    {o : Opened} (ho : s.opened c d = some o) {i : Fin 1024} (hi : (s.io.kernel.processes c).fdTable d = i.val) :
    k'.globalFdTable i = s.io.kernel.globalFdTable i := by
  obtain ⟨-, -, i', hi', hentry⟩ := h.entry c d o ho
  obtain rfl : i = i' := Fin.ext (by omega)
  exact hk.global_eq i (by rw [hentry]; rfl)

theorem Sound.taken_ne (h : s.Sound) {c : Slot} {d : Fin 16} {o : Opened} (ho : s.opened c d = some o) :
    (s.io.kernel.processes c).fdTable d ≠ -1 := by
  obtain ⟨-, -, i, hi, -⟩ := h.entry c d o ho
  omega

theorem Sound.take (h : s.Sound) {c : Slot} {slot : Fin 16} {i : Fin 1024}
    (hc : s.io.kernel.currentProcess = some c) (hfree : (s.io.kernel.globalFdTable i).inUse = false)
    (hslot : (s.io.kernel.processes c).fdTable slot = -1) {e : FdEntry} (huse : e.inUse = true)
    (hk : t.io.kernel = (s.io.kernel.setGlobalFds (Function.update s.io.kernel.globalFdTable i e)).setFd c slot i)
    (hnew : ∀ o, t.opened c slot = some o → 3 ≤ slot.val ∧ o.node ≠ 0 ∧ e = o.entry)
    (hold : ∀ j d, ¬ (j = c ∧ d = slot) → t.opened j d = s.opened j d) : t.Sound := by
  have hgrown := Holdings.grown_take hc slot hfree huse
  rw [← hk] at hgrown
  -- a number other than the new one is as it was, and its entry is another
  have hkept : ∀ j d p, ¬ (j = c ∧ d = slot) → t.opened j d = some p → s.opened j d = some p ∧
      (t.io.kernel.processes j).fdTable d = (s.io.kernel.processes j).fdTable d ∧
      (s.io.kernel.processes j).fdTable d ≠ i.val := fun j d p hne hp => by
    rw [hold j d hne] at hp
    refine ⟨hp, ?_, fun heq => ?_⟩
    · rw [hk]
      by_cases hj : j = c
      · subst hj
        have hd : d ≠ slot := fun heq => hne ⟨rfl, heq⟩
        simp [hd]
      · rw [KState.setFd_processes_of_ne _ _ _ hj]
        rfl
    · obtain ⟨-, -, i', hi', hentry⟩ := h.entry j d p hp
      obtain rfl : i = i' := Fin.ext (by omega)
      rw [hentry] at hfree
      cases hfree
  have hname : (t.io.kernel.processes c).fdTable slot = i.val := by
    rw [hk]
    simp
  refine ⟨hgrown.wellNumbered h.numbered, fun j d p hp => ?_, fun j d j' d' p p' hp hp' heq => ?_⟩
  · by_cases hne : j = c ∧ d = slot
    · obtain ⟨rfl, rfl⟩ := hne
      obtain ⟨h3, hnode, hentry⟩ := hnew p hp
      refine ⟨h3, hnode, i, hname, ?_⟩
      rw [hk, ← hentry]
      simp
    · obtain ⟨hs, hfd, -⟩ := hkept j d p hne hp
      obtain ⟨h3, hnode, i', hi', hentry⟩ := h.entry j d p hs
      exact ⟨h3, hnode, i', hfd.trans hi', (h.kept_of_grown hgrown hs hi').trans hentry⟩
  · by_cases hne : j = c ∧ d = slot
    · obtain ⟨rfl, rfl⟩ := hne
      by_contra hne'
      obtain ⟨-, hfd', hother⟩ := hkept j' d' p' hne' hp'
      exact hother (by rw [← hfd', heq, hname])
    · obtain ⟨hs, hfd, hother⟩ := hkept j d p hne hp
      by_cases hne' : j' = c ∧ d' = slot
      · obtain ⟨rfl, rfl⟩ := hne'
        exact absurd (by rw [← hfd, ← heq, hname]) hother
      · obtain ⟨hs', hfd', -⟩ := hkept j' d' p' hne' hp'
        rw [hfd, hfd'] at heq
        exact h.own j d j' d' p p' hs hs' heq

/-! ## One call -/

theorem Sound.open (h : s.Sound) {opened : Option Nat} {flags : Nat} {fs : σ} (hopened : opened ≠ some 0)
    (hguard : opened = none ∨ ConsoleTaken s.io.kernel) :
    Dispatch.Sound
        { io := { fs := fs, kernel := (sysOpen s.io.kernel opened flags).2 }, opened := s.after (.open opened flags) } ∧
      ((sysOpen s.io.kernel opened flags).1 < 0 ∨ 3 ≤ (sysOpen s.io.kernel opened flags).1) := by
  rcases sysOpen_cases s.io.kernel opened flags with heq | ⟨c, node, slot, i, hc, rfl, hslot, hfree, heq⟩
  · refine ⟨h.of_kept (by rw [heq]; exact h.numbered) fun c d o ho => ?_, Or.inl (by rw [heq]; exact Int.negSucc_lt_zero 0)⟩
    unfold after at ho
    dsimp only at ho
    rw [heq] at ho ⊢
    rw [if_neg (by rintro ⟨-, hd⟩; dsimp only at hd; omega)] at ho
    exact ⟨ho, rfl, fun _ _ => rfl⟩
  · have h3 : 3 ≤ slot.val := by
      by_contra hlt
      rcases hguard with hnone | htaken
      · cases hnone
      · exact htaken c hc slot (by omega) hslot
    refine ⟨h.take hc hfree hslot (e := takenEntry node (flags % 2 ^ 32)) rfl (by rw [heq]) (fun o ho => ?_)
      fun j d hne => ?_, Or.inr (by rw [heq]; dsimp only; omega)⟩
    · unfold after at ho
      dsimp only at ho
      rw [heq, if_pos ⟨hc, rfl⟩] at ho
      obtain rfl := Option.some.inj ho
      exact ⟨h3, fun hzero => hopened (congrArg some hzero), rfl⟩
    · unfold after
      dsimp only
      rw [heq, if_neg]
      rintro ⟨hj, hd⟩
      exact hne ⟨Option.some.inj (hj.symm.trans hc), Fin.ext (by dsimp only at hd; omega)⟩

theorem Sound.dup (h : s.Sound) {oldfd : Nat} {fs : σ}
    (hguard : (∀ c (h : oldfd < 16), s.io.kernel.currentProcess = some c →
      (s.io.kernel.processes c).fdTable ⟨oldfd, h⟩ < 0) ∨ ConsoleTaken s.io.kernel) :
    Dispatch.Sound { io := { fs := fs, kernel := (sysDup s.io.kernel oldfd).2 }, opened := s.after (.dup oldfd) } ∧
      ((sysDup s.io.kernel oldfd).1 < 0 ∨ 3 ≤ (sysDup s.io.kernel oldfd).1) := by
  rcases sysDup_cases s.io.kernel oldfd with heq | ⟨c, old, slot, i, hlt, hc, ⟨hold, huse⟩, hslot, hfree, heq⟩
  · refine ⟨h.of_kept (by rw [heq]; exact h.numbered) fun c d o ho => ?_, Or.inl (by rw [heq]; exact Int.negSucc_lt_zero 0)⟩
    unfold after at ho
    dsimp only at ho
    rw [heq] at ho ⊢
    rw [if_neg (by rintro ⟨-, hd⟩; dsimp only at hd; omega)] at ho
    exact ⟨ho, rfl, fun _ _ => rfl⟩
  · have h3 : 3 ≤ slot.val := by
      by_contra hsmall
      rcases hguard with hneg | htaken
      · have := hneg c hlt hc
        omega
      · exact htaken c hc slot (by omega) hslot
    refine ⟨h.take hc hfree hslot huse (by rw [heq]) (fun o ho => ?_) fun j d hne => ?_,
      Or.inr (by rw [heq]; dsimp only; omega)⟩
    · unfold after at ho
      dsimp only at ho
      rw [heq, if_pos ⟨hc, rfl⟩, dif_pos hlt] at ho
      obtain ⟨-, hnode, i', hi', hentry⟩ := h.entry c _ o ho
      obtain rfl : old = i' := Fin.ext (by omega)
      exact ⟨h3, hnode, hentry⟩
    · unfold after
      dsimp only
      rw [heq, if_neg]
      rintro ⟨hj, hd⟩
      exact hne ⟨Option.some.inj (hj.symm.trans hc), Fin.ext (by dsimp only at hd; omega)⟩

theorem Sound.process (h : s.Sound) (call : Call) (fs : σ) :
    Dispatch.Sound { io := { fs := fs, kernel := (call.exec L s.io.kernel).2 }, opened := s.after (.process call) } := by
  obtain ⟨hglobal, hfds⟩ := Call.exec_descriptors (L := L) h.numbered call
  refine h.of_kept (Call.exec_wellNumbered (L := L) h.numbered call) fun c d o ho => ?_
  unfold after at ho
  dsimp only at ho
  split at ho
  · cases ho
  · rename_i hfilled
    exact ⟨ho, by rw [(hfds c hfilled).1], fun i _ => by rw [hglobal]⟩

theorem Sound.pipe (h : s.Sound) (ptr : Nat) (nodes : Option (Nat × Nat)) (fs : σ) :
    Dispatch.Sound
      { io := { fs := fs, kernel := (sysPipe s.io.kernel ptr nodes).2 }, opened := s.after (.pipe ptr nodes) } := by
  have hgrown := Holdings.grown_sysPipe s.io.kernel ptr nodes
  exact h.of_kept (hgrown.wellNumbered h.numbered) fun c d o ho =>
    ⟨ho, sysPipe_fd s.io.kernel ptr nodes c (h.taken_ne ho), fun i hi => h.kept_of_grown hgrown ho hi⟩

theorem Sound.close (h : s.Sound) {fd : Nat} {fs : σ}
    (hguard : ∀ c (h : fd < 16), s.io.kernel.currentProcess = some c →
      s.Unshared c fd ((s.io.kernel.processes c).fdTable ⟨fd, h⟩)) :
    Dispatch.Sound { io := { fs := fs, kernel := (sysClose s.io.kernel fd).2 }, opened := s.after (.close fd) } := by
  have hsame : (sysClose s.io.kernel fd).2 = s.io.kernel →
      Dispatch.Sound { io := { fs := fs, kernel := (sysClose s.io.kernel fd).2 }, opened := s.after (.close fd) } := by
    intro heq
    rw [heq]
    refine h.of_kept h.numbered fun c d o ho => ?_
    unfold after at ho
    dsimp only at ho
    split at ho
    · cases ho
    · exact ⟨ho, rfl, fun _ _ => rfl⟩
  rcases Option.eq_none_or_eq_some s.io.kernel.currentProcess with hc | ⟨c, hc⟩
  · exact hsame (by simp only [sysClose, hc])
  · by_cases hlt : fd < 16
    · by_cases hneg : (s.io.kernel.processes c).fdTable ⟨fd, hlt⟩ < 0
      · exact hsame (by simp only [sysClose, hc, dif_pos hlt, hneg, if_true])
      · have hexec : (sysClose s.io.kernel fd).2 =
            (s.io.kernel.setGlobalFds (vfsFdClose s.io.kernel.globalFdTable
              ((s.io.kernel.processes c).fdTable ⟨fd, hlt⟩)).2).setFd c ⟨fd, hlt⟩ (-1) := by
          simp only [sysClose, hc, dif_pos hlt, hneg, if_false]
        have hclosed := Holdings.closed_setFd s.io.kernel c ⟨fd, hlt⟩ ((s.io.kernel.processes c).fdTable ⟨fd, hlt⟩)
        rw [hexec]
        refine h.of_kept (hclosed.wellNumbered h.numbered) fun j d o ho => ?_
        unfold after at ho
        dsimp only at ho
        split at ho
        · cases ho
        · rename_i hother
          refine ⟨ho, ?_, fun i hi => hclosed.global_eq i fun hshared => ?_⟩
          · by_cases hj : j = c
            · subst hj
              have hd : d ≠ ⟨fd, hlt⟩ := fun heq => hother ⟨hc, congrArg Fin.val heq⟩
              simp [hd]
            · rw [hclosed.other_fd j hj]
          · obtain ⟨rfl, hd⟩ := hguard c hlt hc j d o ho (hi.trans hshared)
            exact hother ⟨hc, hd⟩
    · exact hsame (by simp only [sysClose, hc, dif_neg hlt])

theorem Sound.exit (h : s.Sound) {code : Int} {fs : σ}
    (hguard : ∀ c d, s.io.kernel.currentProcess = some c → ∀ j e o, s.opened j e = some o →
      (s.io.kernel.processes j).fdTable e = (s.io.kernel.processes c).fdTable d → j = c) :
    Dispatch.Sound { io := { fs := fs, kernel := (sysExit L s.io.kernel code).2 }, opened := s.after (.exit code) } := by
  rcases Option.eq_none_or_eq_some s.io.kernel.currentProcess with hc | ⟨c, hc⟩
  · have hexec : (sysExit L s.io.kernel code).2 = ((Call.exit code).exec L s.io.kernel).2 := by
      simp only [sysExit, hc]
      rfl
    obtain ⟨hglobal, hfds⟩ := Call.exec_descriptors (L := L) h.numbered (.exit code)
    rw [hexec]
    refine h.of_kept (Call.exec_wellNumbered (L := L) h.numbered (.exit code)) fun j d o ho => ?_
    unfold after at ho
    dsimp only at ho
    have hnone : (none : Option Slot) ≠ some j := Option.some_ne_none j |>.symm
    rw [hc, if_neg hnone] at ho
    exact ⟨ho, by rw [(hfds j hnone).1], fun i _ => by rw [hglobal]⟩
  · obtain ⟨hclosed, -⟩ := Holdings.closeFd_loop s.io.kernel c
    have hexec : (sysExit L s.io.kernel code).2 =
        ((Call.exit code).exec L (Lib.Loop.forEach 16 (closeFd c) s.io.kernel)).2 := by
      simp only [sysExit, hc]
      rfl
    have hnum := hclosed.wellNumbered h.numbered
    obtain ⟨hglobal, hfds⟩ := Call.exec_descriptors (L := L) hnum (.exit code)
    rw [hexec]
    refine h.of_kept (Call.exec_wellNumbered (L := L) hnum (.exit code)) fun j d o ho => ?_
    unfold after at ho
    dsimp only at ho
    split at ho
    · cases ho
    · rename_i hother
      have hj : j ≠ c := fun heq => hother (heq ▸ hc)
      have hnone : (none : Option Slot) ≠ some j := Option.some_ne_none j |>.symm
      refine ⟨ho, by rw [(hfds j hnone).1, hclosed.other_fd j hj], fun i hi => ?_⟩
      rw [hglobal]
      refine hclosed.global_eq i ?_
      rintro ⟨-, e, he⟩
      exact hj (hguard c e hc j d o ho (hi.trans he.symm))

/-! ## Reading and writing -/

theorem advanced_of_none {fd : Nat} (hnone : ∀ c d, s.io.kernel.currentProcess = some c → d.val = fd →
    s.opened c d = none) (off : Opened → Nat) (n : Int) : s.advanced fd off n = s.opened := by
  funext c d
  unfold advanced
  split
  · rename_i hthis
    rw [hnone c d hthis.1 hthis.2.1]
    rfl
  · rfl

theorem Sound.elsewhere (h : s.Sound) {fd : Nat} {io : Io σ} (hmoved : s.io.kernel.Moved fd io.kernel)
    (hguard : ∀ c (h : fd < 16), s.io.kernel.currentProcess = some c → 3 ≤ fd →
      s.Unshared c fd ((s.io.kernel.processes c).fdTable ⟨fd, h⟩))
    (hnone : ∀ c d, s.io.kernel.currentProcess = some c → d.val = fd → s.opened c d = none) :
    Dispatch.Sound { io := io, opened := s.opened } := by
  generalize hk : io.kernel = k at hmoved
  cases hmoved with
  | same => exact h.of_kept (by rw [hk]; exact h.numbered) fun c d o ho => ⟨ho, by rw [hk], fun _ _ => by rw [hk]⟩
  | @moved c hlt i off hc h3 hnames =>
    refine h.of_kept (by rw [hk]; exact ⟨h.numbered.1, h.numbered.2, h.numbered.3⟩) fun j d o ho =>
      ⟨ho, by rw [hk]; rfl, fun i' hi' => ?_⟩
    rw [hk]
    refine Function.update_of_ne (fun heq => ?_) _ _
    -- the moved entry would be one that is opened
    obtain ⟨rfl, hd⟩ := hguard c hlt hc h3 j d o ho (by rw [hi', heq, hnames.1])
    rw [hnone j d hc hd] at ho
    cases ho

theorem Sound.advance (h : s.Sound) {c : Slot} {d : Fin 16} {o : Opened} {i : Fin 1024} {io : Io σ}
    {off : Opened → Nat} {n : Int} (hc : s.io.kernel.currentProcess = some c) (ho : s.opened c d = some o)
    (hi : s.io.kernel.Names c d i)
    (hk : io.kernel = if 0 < n then s.io.kernel.setOffset i ((off o + n.toNat) % 2 ^ 64) else s.io.kernel) :
    Dispatch.Sound { io := io, opened := s.advanced d.val off n } := by
  obtain ⟨h3, hnode, i', hi', hentry⟩ := h.entry c d o ho
  obtain rfl : i = i' := Fin.ext (by have := hi.1; omega)
  by_cases hn : 0 < n
  · rw [if_pos hn] at hk
    have hprocs : io.kernel.processes = s.io.kernel.processes := by rw [hk]; rfl
    have hown : ∀ j e p, s.advanced d.val off n j e = some p →
        ∃ q, s.opened j e = some q ∧ q.node = p.node ∧ (¬ (j = c ∧ e = d) → p = q) := fun j e p hp => by
      unfold advanced at hp
      split at hp
      · rename_i hthis
        obtain ⟨q, hq, rfl⟩ := Option.map_eq_some_iff.mp hp
        exact ⟨q, hq, rfl, fun hne => absurd ⟨Option.some.inj (hthis.1.symm.trans hc), Fin.ext hthis.2.1⟩ hne⟩
      · exact ⟨p, hp, rfl, fun _ => rfl⟩
    refine ⟨by dsimp only; rw [hk]; exact ⟨h.numbered.1, h.numbered.2, h.numbered.3⟩, fun j e p hp => ?_,
      fun j e j' e' p p' hp hp' heq => ?_⟩
    · dsimp only at hp ⊢
      obtain ⟨q, hq, hqnode, hother⟩ := hown j e p hp
      obtain ⟨h3', hnode', i', hi', hentry'⟩ := h.entry j e q hq
      refine ⟨h3', hqnode ▸ hnode', i', by rw [hprocs]; exact hi', ?_⟩
      rw [hk]
      by_cases hthis : j = c ∧ e = d
      · obtain ⟨rfl, rfl⟩ := hthis
        obtain rfl : i = i' := Fin.ext (by have := hi.1; omega)
        obtain rfl := Option.some.inj (hq.symm.trans ho)
        unfold advanced at hp
        rw [if_pos ⟨hc, rfl, hn⟩, ho] at hp
        obtain rfl := Option.some.inj hp
        refine (Function.update_self ..).trans ?_
        rw [hentry]
        rfl
      · refine (Function.update_of_ne (fun heq => hthis ?_) _ _).trans (by rw [hentry', hother hthis])
        exact h.own c d j e o q ho hq (by rw [hi', heq, hi.1])
    · dsimp only at hp hp' heq
      obtain ⟨q, hq, -⟩ := hown j e p hp
      obtain ⟨q', hq', -⟩ := hown j' e' p' hp'
      rw [hprocs] at heq
      exact h.own j e j' e' q q' hq hq' heq
  · rw [if_neg hn] at hk
    have hsame : s.advanced d.val off n = s.opened := by
      funext j e
      unfold advanced
      exact if_neg fun hthis => hn hthis.2.2
    rw [hsame]
    exact h.of_kept (by rw [hk]; exact h.numbered) fun j e p hp => ⟨hp, by rw [hk], fun _ _ => by rw [hk]⟩

theorem opened_or_none (s : Dispatch σ) (fd : Nat) :
    (∃ c d o, s.io.kernel.currentProcess = some c ∧ d.val = fd ∧ s.opened c d = some o) ∨
      ∀ c d, s.io.kernel.currentProcess = some c → d.val = fd → s.opened c d = none := by
  by_cases h : ∃ c d o, s.io.kernel.currentProcess = some c ∧ d.val = fd ∧ s.opened c d = some o
  · exact Or.inl h
  · refine Or.inr fun c d hc hd => Option.eq_none_iff_forall_not_mem.mpr fun o ho => h ⟨c, d, o, hc, hd, ho⟩

theorem sysRead_invalid {fd buf len : Nat} (key : Option UInt8) (granted : Bool) (s : Io σ)
    (h : syscallValidateUserPtr s.kernel buf len = false) : sysRead F s fd buf len key granted = some (-1, [], s) := by
  unfold sysRead
  split
  · rfl
  · exact if_pos h

theorem sysWrite_invalid {fd buf : Nat} {data : List UInt8} (granted : Bool) (s : Io σ)
    (h : syscallValidateUserPtr s.kernel buf data.length = false) :
    sysWrite F s fd buf data granted = some (-1, s) := by
  unfold sysWrite
  split
  · rfl
  · exact if_pos h

theorem step_read {fd buf len : Nat} {key : Option UInt8} {granted : Bool}
    (h : Step F L s (.read fd buf len key granted) t) :
    ∃ n bytes io, sysRead F s.io fd buf len key granted = some (n, bytes, io) ∧
      t = { io := io, opened := s.advanced fd Opened.offset n } := by
  obtain ⟨⟨n, bytes, io⟩, hread, heq⟩ := Option.map_eq_some_iff.mp h.2
  exact ⟨n, bytes, io, hread, heq.symm⟩

theorem step_write {fd buf : Nat} {data : List UInt8} {granted : Bool} (h : Step F L s (.write fd buf data granted) t) :
    ∃ n io, sysWrite F s.io fd buf data granted = some (n, io) ∧
      t = { io := io, opened := s.advanced fd (position F s.io.fs) n } := by
  obtain ⟨⟨n, io⟩, hwrite, heq⟩ := Option.map_eq_some_iff.mp h.2
  exact ⟨n, io, hwrite, heq.symm⟩

theorem Sound.read (h : s.Sound) {fd buf len : Nat} {key : Option UInt8} {granted : Bool}
    (hst : Step F L s (.read fd buf len key granted) t) (hguard : Guard F s (.read fd buf len key granted)) :
    t.Sound ∧ Right F s (.read fd buf len key granted) t := by
  obtain ⟨n, bytes, io, hread, rfl⟩ := step_read hst
  rcases s.opened_or_none fd with ⟨c, d, o, hc, rfl, ho⟩ | hnone
  · obtain ⟨h3, hnode, -⟩ := h.entry c d o ho
    obtain ⟨i, hi, hentry⟩ := h.names ho
    cases hbuf : syscallValidateUserPtr s.io.kernel buf len with
    | false =>
      have hres : sysRead F s.io d.val buf len key granted = some (-1, [], s.io) := sysRead_invalid key granted s.io hbuf
      obtain ⟨rfl, hrest⟩ := Prod.mk.inj (Option.some.inj (hres.symm.trans hread))
      obtain ⟨rfl, rfl⟩ := Prod.mk.inj hrest
      refine ⟨h.advance hc ho hi (by rw [if_neg (by decide)]), fun c' d' o' _ _ _ hvalid => ?_⟩
      rw [hbuf] at hvalid
      cases hvalid
    | true =>
      have hres := sysRead_of_names (F := F) hc h3 hi (by rw [hentry]; exact hnode) hbuf key granted
      rw [hentry] at hres
      obtain ⟨⟨n', bytes', fs⟩, hfs, heq⟩ := Option.map_eq_some_iff.mp (hres.symm.trans hread)
      cases heq
      refine ⟨h.advance hc ho hi rfl, fun c' d' o' hc' hd' ho' _ => ?_⟩
      obtain rfl := Option.some.inj (hc.symm.trans hc')
      obtain rfl := Fin.ext hd'
      obtain rfl := Option.some.inj (ho.symm.trans ho')
      exact ⟨n, bytes, hread, hfs⟩
  · rw [advanced_of_none hnone]
    refine ⟨h.elsewhere (moved_sysRead hread) hguard hnone, fun c d o hc hd ho => ?_⟩
    rw [hnone c d hc hd] at ho
    cases ho

theorem Sound.write (h : s.Sound) {fd buf : Nat} {data : List UInt8} {granted : Bool}
    (hst : Step F L s (.write fd buf data granted) t) (hguard : Guard F s (.write fd buf data granted)) :
    t.Sound ∧ Right F s (.write fd buf data granted) t := by
  obtain ⟨n, io, hwrite, rfl⟩ := step_write hst
  rcases s.opened_or_none fd with ⟨c, d, o, hc, rfl, ho⟩ | hnone
  · obtain ⟨h3, hnode, -⟩ := h.entry c d o ho
    obtain ⟨i, hi, hentry⟩ := h.names ho
    cases hbuf : syscallValidateUserPtr s.io.kernel buf data.length with
    | false =>
      have hres : sysWrite F s.io d.val buf data granted = some (-1, s.io) := sysWrite_invalid granted s.io hbuf
      obtain ⟨rfl, rfl⟩ := Prod.mk.inj (Option.some.inj (hres.symm.trans hwrite))
      refine ⟨h.advance hc ho hi (by rw [if_neg (by decide)]), fun c' d' o' _ _ _ hvalid => ?_⟩
      rw [hbuf] at hvalid
      cases hvalid
    | true =>
      -- the node's flags and the descriptor's say the same, or it does not matter
      have hoff : (if F.flags s.io.fs (s.io.kernel.globalFdTable i).node &&& oAppend ≠ 0 then
          F.length s.io.fs (s.io.kernel.globalFdTable i).node else (s.io.kernel.globalFdTable i).offset) =
          position F s.io.fs o := by
        rw [hentry]
        unfold position Opened.entry
        dsimp only
        rcases (hguard c d.isLt hc h3).2 o ho with hflags | hend
        · simp only [hflags]
        · rw [hend, ite_self, ite_self]
      have hres := sysWrite_of_names (F := F) hc h3 hi (by rw [hentry]; exact hnode) hbuf granted hoff
      rw [hentry] at hres
      obtain ⟨⟨n', fs⟩, hfs, heq⟩ := Option.map_eq_some_iff.mp (hres.symm.trans hwrite)
      obtain ⟨rfl, rfl⟩ := Prod.mk.inj heq
      refine ⟨h.advance hc ho hi rfl, fun c' d' o' hc' hd' ho' _ => ?_⟩
      obtain rfl := Option.some.inj (hc.symm.trans hc')
      obtain rfl := Fin.ext hd'
      obtain rfl := Option.some.inj (ho.symm.trans ho')
      exact ⟨n', hwrite, hfs⟩
  · rw [advanced_of_none hnone]
    refine ⟨h.elsewhere (moved_sysWrite hwrite) (fun c hlt hc h3 => (hguard c hlt hc h3).1) hnone,
      fun c d o hc hd ho => ?_⟩
    rw [hnone c d hc hd] at ho
    cases ho

theorem Sound.step (h : s.Sound) {call : IoCall σ} (hst : Step F L s call t) (hguard : Guard F s call) :
    t.Sound ∧ Right F s call t := by
  cases call with
  | read fd buf len key granted => exact h.read hst hguard
  | write fd buf data granted => exact h.write hst hguard
  | fd call fs =>
    obtain ⟨hallowed, hnext⟩ := hst
    obtain rfl := Option.some.inj hnext
    cases call with
    | «open» opened flags => exact h.open hallowed hguard
    | dup oldfd => exact h.dup hguard
    | process call => exact ⟨h.process call fs, trivial⟩
    | pipe ptr nodes => exact ⟨h.pipe ptr nodes fs, trivial⟩
    | close fd => exact ⟨h.close hguard, trivial⟩
    | exit code => exact ⟨h.exit hguard, trivial⟩

/-- **Descriptors over any run** of calls by any processes: no number of the console is handed out, and whatever was
opened is read and written at its own offset until it is closed, while the condition holds. -/
theorem run_right (L : Layout) (h : s.Sound) {tr : List (IoCall σ × Dispatch σ)} (htr : Trace (Step F L) s tr)
    (hguard : Guarded (Guard F) s tr) : AllSteps (Right F) s tr :=
  htr.allSteps_of_guarded (fun _ _ _ hs hst hg => hs.step hst hg) h hguard

theorem sound_start {io : Io σ} (h : WellNumbered io.kernel) : Dispatch.Sound { io := io, opened := fun _ _ => none } :=
  ⟨h, nofun, nofun⟩

theorem wellNumbered_setProcess {k : KState} (h : WellNumbered k) {c : Slot} {p : Process}
    (hstate : p.state = (k.processes c).state) (hpid : p.pid = (k.processes c).pid)
    (hppid : p.ppid = (k.processes c).ppid) : WellNumbered (k.setProcess c p) := by
  have hsame : ∀ j, ((k.setProcess c p).processes j).state = (k.processes j).state ∧
      ((k.setProcess c p).processes j).pid = (k.processes j).pid ∧
      ((k.setProcess c p).processes j).ppid = (k.processes j).ppid := fun j => by
    by_cases hj : j = c
    · subst hj
      simp [hstate, hpid, hppid]
    · simp [hj]
  refine ⟨fun j hj => ?_, fun j hj => ?_, fun j hj => ?_⟩
  · rw [(hsame j).1]
    exact h.current_live j hj
  · rw [(hsame j).1] at hj
    rw [(hsame j).2.1]
    exact h.pid_eq j hj
  · rw [(hsame j).1] at hj
    rw [(hsame j).2.2]
    exact h.ppid_ne j hj

/-- One process, the console's numbers set to `v`, and one file. -/
def oneProcess (v : Int) : Dispatch (Files × (Nat → Nat)) :=
  { io :=
      { fs := (Files.oneFile plenty, fun _ => 0)
        kernel := Holdings.oneProcess.kernel.setProcess firstSlot
          { Holdings.oneProcess.kernel.processes firstSlot with fdTable := fun d => if d.val < 3 then v else -1 } }
    opened := fun _ _ => none }

theorem sound_oneProcess (v : Int) : (oneProcess v).Sound :=
  sound_start (wellNumbered_setProcess Holdings.inv_oneProcess.numbered rfl rfl rfl)

/-- The file opened. -/
def fileOpened (v : Int) : Dispatch (Files × (Nat → Nat)) :=
  { io :=
      { fs := (oneProcess v).io.fs
        kernel := (sysOpen (oneProcess v).io.kernel (some 3) 0).2 }
    opened := (oneProcess v).after (.open (some 3) 0) }

theorem step_fileOpened (v : Int) :
    Step Files.fileSystem sampleLayout (oneProcess v) (.fd (.open (some 3) 0) (oneProcess v).io.fs) (fileOpened v) :=
  ⟨fun h => absurd (Option.some.inj h) (by decide), rfl⟩

/-- With the console's numbers taken the file is 3, and a byte written to it is in the file. -/
theorem oneProcess_write : ∃ t, AllSteps (Right Files.fileSystem) (oneProcess 0)
      [(.fd (.open (some 3) 0) (oneProcess 0).io.fs, fileOpened 0), (.write 3 0x1000 [7] true, t)] := by
  have hnext : ((fileOpened 0).next Files.fileSystem sampleLayout (.write 3 0x1000 [7] true)).isSome = true := by
    decide +kernel
  have hopened : ∀ j d o, (fileOpened 0).opened j d = some o → j = firstSlot ∧ d.val = 3 ∧ o.flags = 0 :=
    fun j d o ho => by
      have hthree : (sysOpen (oneProcess 0).io.kernel (some 3) 0).1 = 3 := by decide +kernel
      unfold fileOpened after at ho
      dsimp only at ho
      split at ho
      · rename_i hthis
        rw [hthree] at hthis
        obtain rfl := Option.some.inj ho
        exact ⟨(Option.some.inj hthis.1).symm, by omega, rfl⟩
      · cases ho
  refine ⟨_, run_right sampleLayout (sound_oneProcess 0)
    (.cons (step_fileOpened 0) (.cons ⟨trivial, (Option.some_get hnext).symm⟩ (.nil _)))
    ⟨Or.inr fun c hc => ?_, fun c hlt hc _ => ⟨fun j e o ho _ => ?_, fun o ho => ?_⟩, trivial⟩⟩
  · obtain rfl : firstSlot = c := Option.some.inj hc
    decide
  · have hcur : (fileOpened 0).io.kernel.currentProcess = some firstSlot := by decide +kernel
    obtain rfl : firstSlot = c := Option.some.inj (hcur.symm.trans hc)
    exact ⟨(hopened j e o ho).1, (hopened j e o ho).2.1⟩
  · rw [(hopened c _ o ho).2.2]
    exact Or.inl Iff.rfl

/-- ⚠ With every number free the file is 0, and what is read from 0 is typed on the keyboard. -/
theorem fileOpened_keyboard : (sysOpen (oneProcess (-1)).io.kernel (some 3) 0).1 = 0 ∧
      ¬ ∀ tr, Trace (Step Files.fileSystem sampleLayout) (oneProcess (-1)) tr →
        AllSteps (Right Files.fileSystem) (oneProcess (-1)) tr := by
  have hzero : (sysOpen (oneProcess (-1)).io.kernel (some 3) 0).1 = 0 := by decide +kernel
  refine ⟨hzero, fun h => ?_⟩
  have hright := (h _ (.cons (step_fileOpened (-1)) (.nil _))).1
  have hright' : (sysOpen (oneProcess (-1)).io.kernel (some 3) 0).1 < 0 ∨
      3 ≤ (sysOpen (oneProcess (-1)).io.kernel (some 3) 0).1 := hright
  omega

end Dispatch

end Chicago95.Kernel
