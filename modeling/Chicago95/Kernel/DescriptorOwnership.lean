/-
# Chicago95.Kernel.DescriptorOwnership — whose open files a descriptor names.

Every descriptor of a live process should name a global entry that is in use and that this very process
opened, duplicated or inherited by fork. Global entries are recycled, so the state is extended with the
processes that acquired each entry *since it was last taken* (`owners`).

From any state in which this holds, a run keeps it **exactly when**
-/
import Chicago95.Lib.Transition
import Chicago95.Kernel.Descriptors

namespace Chicago95.Kernel

open Chicago95.Lib.Transition Chicago95.Lib.Loop

/-- The calls that use the descriptor tables. -/
inductive FdCall where
  | process (call : Call)
  | open (opened : Option Nat) (flags : Nat)
  | dup (oldfd : Nat)
  | pipe (pipefdPtr : Nat) (nodes : Option (Nat × Nat))
  | close (fd : Nat)
  /-- `sys_exit` -/
  | exit (code : Int)

/-- The state after a call. -/
def FdCall.exec (L : Layout) (k : KState) : FdCall → KState
  | .process call => (call.exec L k).2
  | .open opened flags => (sysOpen k opened flags).2
  | .dup oldfd => (sysDup k oldfd).2
  | .pipe pipefdPtr nodes => (sysPipe k pipefdPtr nodes).2
  | .close fd => (sysClose k fd).2
  | .exit code => (sysExit L k code).2

/-- The kernel state, with the processes that acquired each global entry since it was taken. -/
structure Holdings where
  kernel : KState
  owners : Fin 1024 → Slot → Bool

namespace Holdings

/-- Owners after a call of the current process: an entry just taken is the caller's, one no longer in use
is nobody's. -/
def recorded (s : Holdings) (k' : KState) (g : Fin 1024) (i : Slot) : Bool :=
  (k'.globalFdTable g).inUse &&
    if (s.kernel.globalFdTable g).inUse then s.owners g i
    else decide (s.kernel.currentProcess = some i)

/-- The process whose entries a new process inherits. -/
def inheritsFrom (k : KState) : Call → Option Slot
  | .fork => k.currentProcess
  | _ => none

/-- A call, with what it means for the owners. -/
def next (L : Layout) (s : Holdings) (l : FdCall) : Holdings :=
  let k' := l.exec L s.kernel
  match l with
  | .process call =>
    match call.filledSlot s.kernel with
    | some i =>
      { kernel := k'
        owners := fun g j =>
          if j = i then (inheritsFrom s.kernel call).elim false (s.owners g) else s.owners g j }
    | none => { s with kernel := k' }
  | _ => { kernel := k', owners := s.recorded k' }

/-- Every descriptor of a live process names an entry in use that the process acquired. -/
def DescriptorsOwned (s : Holdings) : Prop :=
  ∀ i, Live s.kernel i → ∀ d, 0 ≤ (s.kernel.processes i).fdTable d →
    ∃ g : Fin 1024, (s.kernel.processes i).fdTable d = g.val ∧
      (s.kernel.globalFdTable g).inUse = true ∧ s.owners g i = true

/-- The call closes descriptors. -/
def closes : FdCall → Prop
  | .close _ => True
  | .exit _ => True
  | _ => False

/-- What a call should do: descriptors stay owned, a created process starts with none open, and a closing
call leaves the entries that other live processes hold as they are. -/
structure KeepsDescriptors (s : Holdings) (l : FdCall) (t : Holdings) : Prop where
  owned : DescriptorsOwned t
  created_closed : ∀ entry name ring i, l = .process (.create entry name ring) →
    (Call.create entry name ring).filledSlot s.kernel = some i →
    ∀ d, (t.kernel.processes i).fdTable d < 0
  closes_own : closes l → ∀ j, s.kernel.currentProcess ≠ some j → Live t.kernel j →
    ∀ d (g : Fin 1024), (t.kernel.processes j).fdTable d = g.val →
      t.kernel.globalFdTable g = s.kernel.globalFdTable g

/-- The condition on a call: no process is created, and no other live descriptor names what the call
closes. -/
def ClosesUnshared (s : Holdings) : FdCall → Prop
  | .process (.create entry name ring) => (Call.create entry name ring).filledSlot s.kernel = none
  | .close fd => ∀ c (hfd : fd < 16), s.kernel.currentProcess = some c →
      0 ≤ (s.kernel.processes c).fdTable ⟨fd, hfd⟩ →
      ∀ j, Live s.kernel j → ∀ d, ¬ (j = c ∧ d = ⟨fd, hfd⟩) →
        (s.kernel.processes j).fdTable d ≠ (s.kernel.processes c).fdTable ⟨fd, hfd⟩
  | .exit _ => ∀ c, s.kernel.currentProcess = some c → ∀ j, Live s.kernel j → j ≠ c →
      ∀ d d', 0 ≤ (s.kernel.processes c).fdTable d' →
        (s.kernel.processes j).fdTable d ≠ (s.kernel.processes c).fdTable d'
  | _ => True

/-- The invariant of the steps. -/
structure Inv (s : Holdings) : Prop where
  numbered : WellNumbered s.kernel
  owned : DescriptorsOwned s

/-! ## Calls of the process manager -/

theorem process_owned {L : Layout} {s : Holdings} (h : Inv s) {call : Call}
    (hnc : ∀ entry name ring, call = .create entry name ring → call.filledSlot s.kernel = none) :
    DescriptorsOwned (s.next L (.process call)) := by
  obtain ⟨hglobal, hentry⟩ := Call.exec_descriptors (L := L) h.numbered call
  rcases Option.eq_none_or_eq_some (call.filledSlot s.kernel) with hf | ⟨i, hf⟩
  · simp only [next, hf, FdCall.exec]
    intro j hj d hd
    obtain ⟨hfd, hlive, _⟩ := hentry j (by rw [hf]; nofun)
    simp only [hfd] at hd ⊢
    simp only [hglobal]
    exact h.owned j (hlive hj) d hd
  · -- a child has its parent's table and its parent's entries
    cases call with
    | create entry name ring =>
      rw [hnc entry name ring rfl] at hf
      cases hf
    | fork =>
      obtain ⟨c, hc, hfree⟩ := Option.bind_eq_some_iff.mp hf
      have hchild : ((Call.fork.exec L s.kernel).2.processes i).fdTable =
          (s.kernel.processes c).fdTable := by
        rcases processFork_cases s.kernel with ⟨hno, _⟩ | ⟨c', pid, hc', hpid, hx⟩
        · rcases hno with hno | hno
          · rw [hno] at hc; cases hc
          · rw [hno] at hfree; cases hfree
        · obtain rfl : pid = i := Option.some.inj (hpid.symm.trans hfree)
          obtain rfl : c' = c := Option.some.inj (hc'.symm.trans hc)
          simp [Call.exec, hx, forkedProcess]
      simp only [next, hf, FdCall.exec]
      intro j hj d hd
      by_cases hji : j = i
      · subst hji
        simp only [hchild] at hd ⊢
        obtain ⟨g, hg, hu, ho⟩ := h.owned c (Or.inl hc) d hd
        exact ⟨g, hg, by rw [hglobal]; exact hu, by simp [inheritsFrom, hc, ho]⟩
      · obtain ⟨hfd, hlive, _⟩ := hentry j fun heq => hji (Option.some.inj (hf.symm.trans heq)).symm
        simp only [hfd] at hd ⊢
        obtain ⟨g, hg, hu, ho⟩ := h.owned j (hlive hj) d hd
        exact ⟨g, hg, by rw [hglobal]; exact hu, by simp [hji, ho]⟩
    | _ => cases hf

theorem create_not_owned {L : Layout} {s : Holdings} {entry : Nat} {name : List UInt8} {ring : Ring}
    {i : Slot} (hf : (Call.create entry name ring).filledSlot s.kernel = some i) :
    ¬ DescriptorsOwned (s.next L (.process (.create entry name ring))) := by
  intro howned
  rcases processCreate_cases L s.kernel entry name ring with ⟨hno, _⟩ | ⟨pid, hpid, hx⟩
  · rw [Call.filledSlot, hno] at hf; cases hf
  · obtain rfl : pid = i := Option.some.inj (hpid.symm.trans hf)
    simp only [next, hf, FdCall.exec, Call.exec, hx] at howned
    have hlive : Live (s.next L (.process (.create entry name ring))).kernel pid := by
      right
      simp [next, hf, FdCall.exec, Call.exec, hx, Process.Alive, freshProcess]
    simp only [next, hf, FdCall.exec, Call.exec, hx] at hlive
    obtain ⟨g, _, _, ho⟩ := howned pid hlive 0 (by simp [freshProcess])
    simp [inheritsFrom] at ho

theorem process_step {L : Layout} {s : Holdings} (h : Inv s) (call : Call) :
    DescriptorsOwned (s.next L (.process call)) ↔ ClosesUnshared s (.process call) := by
  cases call with
  | create entry name ring =>
    rcases Option.eq_none_or_eq_some ((Call.create entry name ring).filledSlot s.kernel) with
      hf | ⟨i, hf⟩
    · exact iff_of_true (process_owned h fun _ _ _ _ => hf) hf
    · refine iff_of_false (create_not_owned hf) fun hg => ?_
      have hg' : (Call.create entry name ring).filledSlot s.kernel = none := hg
      rw [hf] at hg'
      cases hg'
  | _ => exact iff_of_true (process_owned h fun _ _ _ hcall => nomatch hcall) trivial

/-! ## Opening, duplicating, piping -/

/-- The tables have only grown: the entries in use are as they were, and a descriptor of the caller that
changed names an entry just taken. -/
structure Grown (k k' : KState) : Prop where
  current_eq : k'.currentProcess = k.currentProcess
  state_eq : ∀ j, (k'.processes j).state = (k.processes j).state
  number_eq : ∀ j, (k'.processes j).pid = (k.processes j).pid ∧
    (k'.processes j).ppid = (k.processes j).ppid
  global_eq : ∀ g, (k.globalFdTable g).inUse = true → k'.globalFdTable g = k.globalFdTable g
  fd : ∀ j d, (k'.processes j).fdTable d = (k.processes j).fdTable d ∨
    (k.currentProcess = some j ∧ ∃ g : Fin 1024, (k'.processes j).fdTable d = g.val ∧
      (k.globalFdTable g).inUse = false ∧ (k'.globalFdTable g).inUse = true)

theorem Grown.refl (k : KState) : Grown k k :=
  ⟨rfl, fun _ => rfl, fun _ => ⟨rfl, rfl⟩, fun _ _ => rfl, fun _ _ => Or.inl rfl⟩

theorem Grown.trans {k k' k'' : KState} (h : Grown k k') (h' : Grown k' k'') : Grown k k'' where
  current_eq := h'.current_eq.trans h.current_eq
  state_eq := fun j => (h'.state_eq j).trans (h.state_eq j)
  number_eq := fun j =>
    ⟨(h'.number_eq j).1.trans (h.number_eq j).1, (h'.number_eq j).2.trans (h.number_eq j).2⟩
  global_eq := fun g hu => by
    have hg := h.global_eq g hu
    rw [h'.global_eq g (by rw [hg]; exact hu), hg]
  fd := fun j d => by
    -- an entry taken first and still taken afterwards was free at the start
    have hfree : ∀ g : Fin 1024, (k'.globalFdTable g).inUse = false →
        (k.globalFdTable g).inUse = false := fun g hg => by
      cases hu : (k.globalFdTable g).inUse
      · rfl
      · rw [h.global_eq g hu, hu] at hg
        cases hg
    rcases h'.fd j d with heq' | ⟨hc, g, hfd, hfr, hu⟩
    · rcases h.fd j d with heq | ⟨hc, g, hfd, hfr, hu⟩
      · exact Or.inl (heq'.trans heq)
      · exact Or.inr ⟨hc, g, heq'.trans hfd, hfr, by rw [h'.global_eq g hu]; exact hu⟩
    · exact Or.inr ⟨h.current_eq ▸ hc, g, hfd, hfree g hfr, hu⟩

theorem grown_take {k : KState} {c : Slot} (hc : k.currentProcess = some c) (slot : Fin 16)
    {i : Fin 1024} {e : FdEntry} (hfree : (k.globalFdTable i).inUse = false) (he : e.inUse = true) :
    Grown k ((k.setGlobalFds (Function.update k.globalFdTable i e)).setFd c slot (i.val : Int)) where
  current_eq := rfl
  state_eq := fun j => by simp
  number_eq := fun j => by
    by_cases hj : j = c
    · subst hj; simp [KState.setFd]
    · rw [KState.setFd_processes_of_ne _ _ _ hj]; exact ⟨rfl, rfl⟩
  global_eq := fun g hu => by
    have hgi : g ≠ i := fun heq => by rw [heq, hfree] at hu; cases hu
    simp [hgi]
  fd := fun j d => by
    by_cases hj : j = c
    · subst hj
      by_cases hd : d = slot
      · subst hd
        exact Or.inr ⟨hc, i, by simp, hfree, by simp [he]⟩
      · exact Or.inl (by simp [hd])
    · exact Or.inl (by rw [KState.setFd_processes_of_ne _ _ _ hj]; rfl)

theorem grown_leak {k : KState} {i : Fin 1024} {e : FdEntry}
    (hfree : (k.globalFdTable i).inUse = false) :
    Grown k (k.setGlobalFds (Function.update k.globalFdTable i e)) where
  current_eq := rfl
  state_eq := fun _ => rfl
  number_eq := fun _ => ⟨rfl, rfl⟩
  global_eq := fun g hu => by
    have hgi : g ≠ i := fun heq => by rw [heq, hfree] at hu; cases hu
    simp [hgi]
  fd := fun _ _ => Or.inl rfl

theorem grown_sysOpen (k : KState) (opened : Option Nat) (flags : Nat) : Grown k (sysOpen k opened flags).2 := by
  unfold sysOpen
  rcases Option.eq_none_or_eq_some k.currentProcess with hc | ⟨c, hc⟩
  · simp only [hc]; exact .refl k
  · simp only [hc]
    cases opened with
    | none => exact .refl k
    | some node =>
      simp only
      cases findFreeFd (k.processes c).fdTable with
      | none => exact .refl k
      | some slot =>
        simp only
        rcases vfsFdAlloc_cases k.globalFdTable node (flags % 2 ^ 32) with ha | ⟨i, hi, ha⟩
        · simp only [ha]; exact .refl k
        · simp only [ha]; exact grown_take hc slot hi rfl

theorem grown_sysDup (k : KState) (oldfd : Nat) : Grown k (sysDup k oldfd).2 := by
  unfold sysDup
  rcases Option.eq_none_or_eq_some k.currentProcess with hc | ⟨c, hc⟩
  · simp only [hc]; exact .refl k
  · simp only [hc]
    split
    · split
      · exact .refl k
      · cases findFreeFd (k.processes c).fdTable with
        | none => exact .refl k
        | some slot =>
          simp only
          rename_i hlt _
          rcases vfsFdDup_cases k.globalFdTable ((k.processes c).fdTable ⟨oldfd, hlt⟩) with
            ha | ⟨i, e, hi, he, ha⟩
          · split
            · exact .refl k
            · rename_i heq
              rw [heq] at ha
              cases ha
          · simp only [ha]; exact grown_take hc slot hi he
    · exact .refl k

theorem grown_sysPipe (k : KState) (pipefdPtr : Nat) (nodes : Option (Nat × Nat)) :
    Grown k (sysPipe k pipefdPtr nodes).2 := by
  unfold sysPipe
  rcases Option.eq_none_or_eq_some k.currentProcess with hc | ⟨c, hc⟩
  · simp only [hc]; exact .refl k
  · simp only [hc]
    split
    · exact .refl k
    · cases nodes with
      | none => exact .refl k
      | some nodes =>
        simp only
        cases findTwoFreeFds (k.processes c).fdTable with
        | none => exact .refl k
        | some fds =>
          simp only
          rcases vfsFdAlloc_cases k.globalFdTable nodes.1 oRdonly with ha | ⟨i, hi, ha⟩
          · simp only [ha]; exact .refl k
          · simp only [ha]
            -- the read end is named first; writing both names at the end comes to the same
            have hread := grown_take (e := takenEntry nodes.1 oRdonly) hc fds.1 hi rfl
            rcases vfsFdAlloc_cases (Function.update k.globalFdTable i
                (takenEntry nodes.1 oRdonly)) nodes.2 oWronly with hb | ⟨i', hi', hb⟩
            · simp only [hb]; exact grown_leak hi
            · simp only [hb]
              have hwrite := grown_take (e := takenEntry nodes.2 oWronly)
                (k := (k.setGlobalFds (Function.update k.globalFdTable i
                  (takenEntry nodes.1 oRdonly))).setFd c fds.1 (i.val : Int)) hc fds.2 hi' rfl
              exact hread.trans hwrite

theorem grown_owned {s : Holdings} (h : Inv s) {k' : KState} (hk' : Grown s.kernel k') :
    DescriptorsOwned { kernel := k', owners := s.recorded k' } := by
  intro j hj d hd
  have hlive : Live s.kernel j := by
    simpa [Live, Process.Alive, hk'.current_eq, hk'.state_eq j] using hj
  rcases hk'.fd j d with heq | ⟨hc, g, hfd, hfree, hu⟩
  · rw [heq] at hd
    obtain ⟨g, hg, hu, ho⟩ := h.owned j hlive d hd
    have hsame := hk'.global_eq g hu
    exact ⟨g, heq.trans hg, by rw [hsame]; exact hu, by simp [recorded, hsame, hu, ho]⟩
  · exact ⟨g, hfd, hu, by simp [recorded, hu, hfree, hc]⟩

theorem Grown.wellNumbered {k k' : KState} (hk' : Grown k k') (h : WellNumbered k) :
    WellNumbered k' where
  current_live := fun c hc => by
    rw [hk'.state_eq c]
    exact h.current_live c (hk'.current_eq ▸ hc)
  pid_eq := fun i hi => by
    rw [hk'.state_eq i] at hi
    exact (hk'.number_eq i).1.trans (h.pid_eq i hi)
  ppid_ne := fun i hi => by
    rw [hk'.state_eq i] at hi
    rw [(hk'.number_eq i).2]
    exact h.ppid_ne i hi

/-! ## Closing -/

/-- The current process `c` has closed the global entries in `C` and given up its names of them. -/
structure Closed (k k' : KState) (c : Slot) (C : Int → Prop) : Prop where
  current_eq : k'.currentProcess = k.currentProcess
  state_eq : ∀ j, (k'.processes j).state = (k.processes j).state
  number_eq : ∀ j, (k'.processes j).pid = (k.processes j).pid ∧
    (k'.processes j).ppid = (k.processes j).ppid
  closed : ∀ g : Fin 1024, C g.val → (k'.globalFdTable g).inUse = false
  global_eq : ∀ g : Fin 1024, ¬ C g.val → k'.globalFdTable g = k.globalFdTable g
  other_fd : ∀ j, j ≠ c → (k'.processes j).fdTable = (k.processes j).fdTable
  own_fd : ∀ d, (k'.processes c).fdTable d < 0 ∨
    (k'.processes c).fdTable d = (k.processes c).fdTable d

theorem closed_owned_iff {s : Holdings} (h : Inv s) {k' : KState} {c : Slot} {C : Int → Prop}
    (hk' : Closed s.kernel k' c C) :
    DescriptorsOwned { kernel := k', owners := s.recorded k' } ↔
      ∀ j, Live s.kernel j → ∀ d, 0 ≤ (k'.processes j).fdTable d →
        ¬ C ((k'.processes j).fdTable d) := by
  have hlive : ∀ j, Live k' j ↔ Live s.kernel j := fun j => by
    simp [Live, Process.Alive, hk'.current_eq, hk'.state_eq j]
  have hsame : ∀ j d, 0 ≤ (k'.processes j).fdTable d →
      (k'.processes j).fdTable d = (s.kernel.processes j).fdTable d := by
    intro j d hd
    by_cases hj : j = c
    · subst hj
      rcases hk'.own_fd d with hneg | heq
      · omega
      · exact heq
    · rw [hk'.other_fd j hj]
  constructor
  · intro howned j hj d hd hC
    obtain ⟨g, hg, hu, _⟩ := howned j ((hlive j).mpr hj) d hd
    rw [hg] at hC
    rw [hk'.closed g hC] at hu
    cases hu
  · intro hfree j hj d hd
    have heq := hsame j d hd
    obtain ⟨g, hg, hu, ho⟩ := h.owned j ((hlive j).mp hj) d (heq ▸ hd)
    have hnC : ¬ C g.val := by
      rw [← hg, ← heq]
      exact hfree j ((hlive j).mp hj) d hd
    have hglob := hk'.global_eq g hnC
    exact ⟨g, heq.trans hg, by rw [hglob]; exact hu, by simp [recorded, hglob, hu, ho]⟩

theorem Closed.wellNumbered {k k' : KState} {c : Slot} {C : Int → Prop} (hk' : Closed k k' c C)
    (h : WellNumbered k) : WellNumbered k' where
  current_live := fun c hc => by
    rw [hk'.state_eq c]
    exact h.current_live c (hk'.current_eq ▸ hc)
  pid_eq := fun i hi => by
    rw [hk'.state_eq i] at hi
    exact (hk'.number_eq i).1.trans (h.pid_eq i hi)
  ppid_ne := fun i hi => by
    rw [hk'.state_eq i] at hi
    rw [(hk'.number_eq i).2]
    exact h.ppid_ne i hi

theorem Closed.refl (k : KState) (c : Slot) : Closed k k c fun _ => False where
  current_eq := rfl
  state_eq := fun _ => rfl
  number_eq := fun _ => ⟨rfl, rfl⟩
  closed := fun _ hg => hg.elim
  global_eq := fun _ _ => rfl
  other_fd := fun _ _ => rfl
  own_fd := fun _ => Or.inr rfl

theorem Closed.trans {k k₁ k₂ : KState} {c : Slot} {C C' : Int → Prop} (h₁ : Closed k k₁ c C)
    (h₂ : Closed k₁ k₂ c C') : Closed k k₂ c fun x => C x ∨ C' x where
  current_eq := h₂.current_eq.trans h₁.current_eq
  state_eq := fun j => (h₂.state_eq j).trans (h₁.state_eq j)
  number_eq := fun j => ⟨(h₂.number_eq j).1.trans (h₁.number_eq j).1,
    (h₂.number_eq j).2.trans (h₁.number_eq j).2⟩
  closed := fun g hg => by
    by_cases hg' : C' g.val
    · exact h₂.closed g hg'
    · rw [h₂.global_eq g hg']
      exact h₁.closed g (hg.resolve_right hg')
  global_eq := fun g hg => by
    rw [h₂.global_eq g fun hg' => hg (Or.inr hg')]
    exact h₁.global_eq g fun hg' => hg (Or.inl hg')
  other_fd := fun j hj => (h₂.other_fd j hj).trans (h₁.other_fd j hj)
  own_fd := fun d => by
    rcases h₂.own_fd d with hneg | heq
    · exact Or.inl hneg
    · rw [heq]
      exact h₁.own_fd d

theorem Closed.congr {k k' : KState} {c : Slot} {C C' : Int → Prop} (h : Closed k k' c C)
    (hC : ∀ x, C x ↔ C' x) : Closed k k' c C' := by
  rwa [show C = C' from funext fun x => propext (hC x)] at h

theorem closed_setFd (k : KState) (c : Slot) (fd : Fin 16) (v : Int) :
    Closed k ((k.setGlobalFds (vfsFdClose k.globalFdTable v).2).setFd c fd (-1)) c
      fun x => x = v where
  current_eq := rfl
  state_eq := fun j => by simp
  number_eq := fun j => by
    by_cases hj : j = c
    · subst hj; simp [KState.setFd]
    · rw [KState.setFd_processes_of_ne _ _ _ hj]; exact ⟨rfl, rfl⟩
  closed := fun g hg => (vfsFdClose_entry k.globalFdTable v g).1 hg
  global_eq := fun g hg => (vfsFdClose_entry k.globalFdTable v g).2 hg
  other_fd := fun j hj => by rw [KState.setFd_processes_of_ne _ _ _ hj]; rfl
  own_fd := fun d => by
    by_cases hd : d = fd
    · subst hd; left; simp
    · right; simp [hd]

theorem close_step {L : Layout} {s : Holdings} (h : Inv s) (fd : Nat) :
    (DescriptorsOwned (s.next L (.close fd)) ↔ ClosesUnshared s (.close fd)) ∧
    WellNumbered (s.next L (.close fd)).kernel ∧ ∃ c C, Closed s.kernel (s.next L (.close fd)).kernel c C := by
  have hrefused : (sysClose s.kernel fd).2 = s.kernel →
      (∀ c (hfd : fd < 16), s.kernel.currentProcess = some c →
        ¬ 0 ≤ (s.kernel.processes c).fdTable ⟨fd, hfd⟩) →
      (DescriptorsOwned (s.next L (.close fd)) ↔ ClosesUnshared s (.close fd)) ∧
      WellNumbered (s.next L (.close fd)).kernel ∧
      ∃ c C, Closed s.kernel (s.next L (.close fd)).kernel c C := by
    intro hsame hnone
    have howned := grown_owned h (.refl s.kernel)
    simp only [next, FdCall.exec, hsame]
    exact ⟨iff_of_true howned fun c hfd hc hnn => absurd hnn (hnone c hfd hc), h.numbered,
      0, fun _ => False, Closed.refl s.kernel 0⟩
  rcases Option.eq_none_or_eq_some s.kernel.currentProcess with hc | ⟨c, hc⟩
  · refine hrefused (by simp only [sysClose, hc]) fun c _ hc' => ?_
    rw [hc] at hc'
    cases hc'
  · by_cases hfd : fd < 16
    · by_cases hneg : (s.kernel.processes c).fdTable ⟨fd, hfd⟩ < 0
      · refine hrefused (by simp only [sysClose, hc, dif_pos hfd, hneg, if_true]) ?_
        intro c' _ hc'
        obtain rfl : c = c' := Option.some.inj (hc.symm.trans hc')
        omega
      · have hexec : (sysClose s.kernel fd).2 =
            (s.kernel.setGlobalFds (vfsFdClose s.kernel.globalFdTable
              ((s.kernel.processes c).fdTable ⟨fd, hfd⟩)).2).setFd c ⟨fd, hfd⟩ (-1) := by
          simp only [sysClose, hc, dif_pos hfd, hneg, if_false]
        have hclosed := closed_setFd s.kernel c ⟨fd, hfd⟩
          ((s.kernel.processes c).fdTable ⟨fd, hfd⟩)
        simp only [next, FdCall.exec, hexec]
        refine ⟨?_, hclosed.wellNumbered h.numbered, c, _, hclosed⟩
        rw [closed_owned_iff h hclosed]
        -- the caller's other descriptors and everybody else's are as they were
        have hfds : ∀ j d, ¬ (j = c ∧ d = ⟨fd, hfd⟩) →
            (((s.kernel.setGlobalFds (vfsFdClose s.kernel.globalFdTable
              ((s.kernel.processes c).fdTable ⟨fd, hfd⟩)).2).setFd c ⟨fd, hfd⟩ (-1)).processes
                j).fdTable d = (s.kernel.processes j).fdTable d := by
          intro j d hne
          by_cases hj : j = c
          · subst hj
            have hd : d ≠ ⟨fd, hfd⟩ := fun heq => hne ⟨rfl, heq⟩
            simp [hd]
          · rw [KState.setFd_processes_of_ne _ _ _ hj]
            rfl
        constructor
        · intro hall c' _ hc' hnn j hj d hne
          obtain rfl : c = c' := Option.some.inj (hc.symm.trans hc')
          intro heq
          have h' := hall j hj d
          rw [hfds j d hne] at h'
          exact h' (by rw [heq]; exact hnn) heq
        · intro hg j hj d hnn heq
          by_cases hne : j = c ∧ d = ⟨fd, hfd⟩
          · obtain ⟨rfl, rfl⟩ := hne
            simp at hnn
          · rw [hfds j d hne] at heq
            exact hg c hfd hc (by omega) j hj d hne heq
    · refine hrefused (by simp only [sysClose, hc, dif_neg hfd]) fun c hfd' => absurd hfd' hfd

/-! ## Exiting -/

theorem exists_fd_succ {i : Nat} (hi : i < 16) (fd : Fin 16 → Int) (x : Int) :
    (∃ d : Fin 16, d.val < i + 1 ∧ fd d = x) ↔ (∃ d : Fin 16, d.val < i ∧ fd d = x) ∨ fd ⟨i, hi⟩ = x := by
  constructor
  · rintro ⟨d, hd, rfl⟩
    by_cases hdi : d = ⟨i, hi⟩
    · rw [hdi]
      exact Or.inr rfl
    · have hne : d.val ≠ i := fun heq => hdi (Fin.ext heq)
      exact Or.inl ⟨d, by omega, rfl⟩
  · rintro (⟨d, hd, rfl⟩ | rfl)
    · exact ⟨d, by omega, rfl⟩
    · exact ⟨⟨i, hi⟩, Nat.lt_succ_self i, rfl⟩

theorem closeFd_loop (k : KState) (c : Slot) : Closed k (forEach 16 (closeFd c) k) c
      (fun x => 0 ≤ x ∧ ∃ d, (k.processes c).fdTable d = x) ∧
    ∀ d, ((forEach 16 (closeFd c) k).processes c).fdTable d < 0 := by
  -- before pass `i`, the first `i` descriptors are done and the others untouched
  have hinv := forEach_induction (n := 16) (f := closeFd c) (s := k)
    (P := fun i k' => i ≤ 16 ∧
      Closed k k' c (fun x => 0 ≤ x ∧ ∃ d : Fin 16, d.val < i ∧ (k.processes c).fdTable d = x) ∧
      (∀ d : Fin 16, d.val < i → (k'.processes c).fdTable d < 0) ∧
      ∀ d : Fin 16, i ≤ d.val → (k'.processes c).fdTable d = (k.processes c).fdTable d)
  have hend := hinv ?_ ?_
  · obtain ⟨_, hclosed, hdone, _⟩ := hend
    refine ⟨hclosed.congr fun x => and_congr_right fun _ => exists_congr fun d => ?_,
      fun d => hdone d d.isLt⟩
    exact and_iff_right d.isLt
  · refine ⟨by omega, (Closed.refl k c).congr fun x => ?_, fun d hd => absurd hd (Nat.not_lt_zero _),
      fun _ _ => rfl⟩
    simp
  · rintro i k' hi ⟨_, hclosed, hdone, htodo⟩
    have hkeep := htodo ⟨i, hi⟩ (Nat.le_refl i)
    unfold closeFd
    rw [dif_pos hi]
    simp only [hkeep]
    by_cases hnn : 0 ≤ (k.processes c).fdTable ⟨i, hi⟩
    · rw [if_pos hnn]
      have hone := closed_setFd k' c ⟨i, hi⟩ ((k.processes c).fdTable ⟨i, hi⟩)
      refine ⟨by omega, (hclosed.trans hone).congr fun x => ?_, fun d hd => ?_, fun d hd => ?_⟩
      · rw [exists_fd_succ hi, and_or_left]
        refine or_congr_right ⟨?_, fun h => h.2.symm⟩
        rintro rfl
        exact ⟨hnn, rfl⟩
      · by_cases hdi : d = ⟨i, hi⟩
        · subst hdi; simp
        · have hne : d.val ≠ i := fun heq => hdi (Fin.ext heq)
          simpa [hdi] using hdone d (by omega)
      · have hdi : d ≠ ⟨i, hi⟩ := fun heq => by rw [heq] at hd; simp only at hd; omega
        simpa [hdi] using htodo d (by omega)
    · rw [if_neg hnn]
      refine ⟨by omega, hclosed.congr fun x => ?_, fun d hd => ?_, fun d hd => htodo d (by omega)⟩
      · rw [exists_fd_succ hi, and_or_left, or_iff_left]
        rintro ⟨hx, rfl⟩
        exact hnn hx
      · by_cases hdi : d = ⟨i, hi⟩
        · rw [hdi, hkeep]
          omega
        · have hne : d.val ≠ i := fun heq => hdi (Fin.ext heq)
          exact hdone d (by omega)

theorem exit_step {L : Layout} {s : Holdings} (h : Inv s) (code : Int) :
    (DescriptorsOwned (s.next L (.exit code)) ↔ ClosesUnshared s (.exit code)) ∧
    WellNumbered (s.next L (.exit code)).kernel ∧ ∀ g, ((s.next L (.exit code)).kernel.globalFdTable g).inUse = true →
      (s.next L (.exit code)).kernel.globalFdTable g = s.kernel.globalFdTable g := by
  rcases Option.eq_none_or_eq_some s.kernel.currentProcess with hc | ⟨c, hc⟩
  · have hexec : (sysExit L s.kernel code).2 = s.kernel := by
      rcases processExit_cases L s.kernel code with ⟨_, hx⟩ | ⟨c, hc', _, _⟩
      · simp only [sysExit, hc, hx]
      · rw [hc] at hc'; cases hc'
    simp only [next, FdCall.exec, hexec]
    refine ⟨iff_of_true (grown_owned h (.refl _)) fun c hc' => ?_, h.numbered, by simp⟩
    rw [hc] at hc'
    cases hc'
  · obtain ⟨hclosed, hneg⟩ := closeFd_loop s.kernel c
    have hnum := hclosed.wellNumbered h.numbered
    have hcur := hclosed.current_eq.trans hc
    have hexec : (sysExit L s.kernel code).2 =
        ((Call.exit code).exec L (forEach 16 (closeFd c) s.kernel)).2 := by
      simp only [sysExit, hc]
      rfl
    have hiff := closed_owned_iff h hclosed
    have hnum' := Call.exec_wellNumbered (L := L) hnum (.exit code)
    obtain ⟨hglobal, hentry⟩ := Call.exec_descriptors (L := L) hnum (.exit code)
    have hnone : ∀ j, (Call.exit code).filledSlot (forEach 16 (closeFd c) s.kernel) ≠ some j :=
      fun j => nofun
    generalize forEach 16 (closeFd c) s.kernel = k₁ at *
    simp only [next, FdCall.exec, hexec]
    refine ⟨?_, hnum', fun g hu => ?_⟩
    · -- the exit itself moves no descriptor, and whoever it kills has none left
      have hkeep : DescriptorsOwned ⟨((Call.exit code).exec L k₁).2,
            s.recorded ((Call.exit code).exec L k₁).2⟩ ↔
          DescriptorsOwned ⟨k₁, s.recorded k₁⟩ := by
        have hrec : s.recorded ((Call.exit code).exec L k₁).2 = s.recorded k₁ := by
          funext g i
          simp only [recorded, hglobal]
        simp only [DescriptorsOwned, hrec, hglobal]
        refine ⟨fun ho j hj d hd => ?_, fun ho j hj d hd => ?_⟩
        · by_cases hjc : j = c
          · subst hjc
            have hd' := hneg d
            omega
          · obtain ⟨hfd, _, hlive⟩ := hentry j (hnone j)
            have hnc : k₁.currentProcess ≠ some j := fun heq =>
              hjc (Option.some.inj (heq.symm.trans hcur))
            rw [← hfd] at hd ⊢
            exact ho j (hlive hnc hj) d hd
        · obtain ⟨hfd, hlive, _⟩ := hentry j (hnone j)
          rw [hfd] at hd ⊢
          exact ho j (hlive hj) d hd
      rw [hkeep, hiff]
      constructor
      · intro hall c' hc' j hj hjc d d' hnn heq
        obtain rfl : c = c' := Option.some.inj (hc.symm.trans hc')
        refine hall j hj d ?_ ⟨?_, d', ?_⟩ <;> rw [hclosed.other_fd j hjc] <;> omega
      · rintro hg j hj d hnn ⟨_, d', hd'⟩
        by_cases hjc : j = c
        · subst hjc
          have hd := hneg d
          omega
        · rw [hclosed.other_fd j hjc] at hd' hnn
          exact hg c hc j hj hjc d d' (by omega) hd'.symm
    · rw [hglobal] at hu ⊢
      by_cases hC : 0 ≤ (g.val : Int) ∧ ∃ d, (s.kernel.processes c).fdTable d = g.val
      · rw [hclosed.closed g hC] at hu
        cases hu
      · exact hclosed.global_eq g hC

/-! ## One call -/

theorem closes_own_of {s t : Holdings} (howned : DescriptorsOwned t)
    (hglob : ∀ g, (t.kernel.globalFdTable g).inUse = true → t.kernel.globalFdTable g = s.kernel.globalFdTable g)
    {j : Slot} (hj : Live t.kernel j) {d : Fin 16} {g : Fin 1024} (hd : (t.kernel.processes j).fdTable d = g.val) :
    t.kernel.globalFdTable g = s.kernel.globalFdTable g := by
  obtain ⟨g', hg', hu, _⟩ := howned j hj d (by omega)
  obtain rfl : g' = g := Fin.ext (by omega)
  exact hglob g' hu

theorem keepsDescriptors_iff {L : Layout} {s : Holdings} (h : Inv s) (l : FdCall) :
    KeepsDescriptors s l (s.next L l) ↔ DescriptorsOwned (s.next L l) := by
  refine ⟨fun hk => hk.owned, fun howned => ⟨howned, ?_, fun hcl j _ hj d g hd => ?_⟩⟩
  · rintro entry name ring i rfl hf
    exact absurd howned (create_not_owned hf)
  · refine closes_own_of howned (fun g hu => ?_) hj hd
    cases l with
    | close fd =>
      obtain ⟨_, _, c, C, hclosed⟩ := close_step (L := L) h fd
      by_cases hC : C g.val
      · rw [hclosed.closed g hC] at hu
        cases hu
      · exact hclosed.global_eq g hC
    | exit code => exact (exit_step h code).2.2 g hu
    | _ => exact hcl.elim

theorem next_step {L : Layout} {s : Holdings} (h : Inv s) (l : FdCall) :
    (DescriptorsOwned (s.next L l) ↔ ClosesUnshared s l) ∧ (DescriptorsOwned (s.next L l) → Inv (s.next L l)) := by
  cases l with
  | process call =>
    refine ⟨process_step h call, fun ho => ⟨?_, ho⟩⟩
    have hnum := Call.exec_wellNumbered (L := L) h.numbered call
    simp only [next, FdCall.exec]
    split <;> exact hnum
  | close fd => exact ⟨(close_step h fd).1, fun ho => ⟨(close_step h fd).2.1, ho⟩⟩
  | exit code => exact ⟨(exit_step h code).1, fun ho => ⟨(exit_step h code).2.1, ho⟩⟩
  | «open» opened flags =>
    have hg := grown_sysOpen s.kernel opened flags
    exact ⟨iff_of_true (grown_owned h hg) trivial, fun ho => ⟨hg.wellNumbered h.numbered, ho⟩⟩
  | dup oldfd =>
    have hg := grown_sysDup s.kernel oldfd
    exact ⟨iff_of_true (grown_owned h hg) trivial, fun ho => ⟨hg.wellNumbered h.numbered, ho⟩⟩
  | pipe pipefdPtr nodes =>
    have hg := grown_sysPipe s.kernel pipefdPtr nodes
    exact ⟨iff_of_true (grown_owned h hg) trivial, fun ho => ⟨hg.wellNumbered h.numbered, ho⟩⟩

/-! ## Runs -/

/-- **Descriptor ownership, over whole runs.** From any state in which every descriptor is owned (in
particular from `process_init`, see `inv_boot`), a run keeps every descriptor owned, creates processes
with none open and closes nobody else's, if and only if it creates no process and closes no entry that
another live descriptor names. -/
theorem keepsDescriptors_run_iff (L : Layout) {s : Holdings} (h : Inv s) (calls : List FdCall) :
    AllSteps KeepsDescriptors s (traceOf (next L) s calls) ↔ Guarded ClosesUnshared s (traceOf (next L) s calls) := by
  refine Trace.allSteps_iff_guarded (J := Inv) ?_ ?_ (trace_traceOf (next L) s calls) h
  · rintro s l _ hs rfl
    rw [keepsDescriptors_iff hs]
    exact (next_step hs l).1
  · rintro s l _ hs rfl hq
    exact (next_step hs l).2 hq.owned

/-- Right after `process_init`: no process, hence no descriptor. -/
def boot (k : KState) : Holdings := ⟨processInit k, fun _ _ => false⟩

theorem inv_boot (k : KState) : Inv (boot k) where
  numbered := wellNumbered_processInit k
  owned := fun i hi => by
    rcases hi with hc | ha
    · cases hc
    · exact absurd rfl ha.1

/-- One process with every descriptor closed. -/
def oneProcess : Holdings :=
  { kernel :=
      { KState.bare with
        processes := fun i =>
          if i.val = 0 then { pid := 0, ppid := -1, state := .running, fdTable := fun _ => -1 } else {}
        currentProcess := some firstSlot }
    owners := fun _ _ => false }

theorem oneProcess_unused {i : Slot} (h : i.val ≠ 0) : (oneProcess.kernel.processes i).state = .unused := by
  have hi : oneProcess.kernel.processes i = {} := if_neg h
  rw [hi]

theorem inv_oneProcess : Inv oneProcess where
  numbered :=
    { current_live := fun c hc => by
        obtain rfl : 0 = c := Option.some.inj hc
        decide
      pid_eq := fun i hi => by
        by_cases h0 : i.val = 0
        · obtain rfl : i = 0 := Fin.ext h0
          rfl
        · exact absurd (oneProcess_unused h0) hi
      ppid_ne := fun i hi => by
        by_cases h0 : i.val = 0
        · obtain rfl : i = 0 := Fin.ext h0
          decide
        · exact absurd (oneProcess_unused h0) hi }
  owned := fun i hi d hd => by
    by_cases h0 : i.val = 0
    · obtain rfl : i = 0 := Fin.ext h0
      simp [oneProcess] at hd
    · rcases hi with hc | ha
      · exact absurd (congrArg Fin.val (Option.some.inj hc)).symm h0
      · exact absurd (oneProcess_unused h0) ha.1

/-- A process opens a file, duplicates the descriptor and forks: all three descriptors of both processes
are theirs. -/
theorem open_dup_fork_owned : AllSteps KeepsDescriptors oneProcess
      (traceOf (next sampleLayout) oneProcess [.open (some 0x5000) 0, .dup 0, .process .fork]) :=
  (keepsDescriptors_run_iff sampleLayout inv_oneProcess _).mpr ⟨trivial, trivial, trivial, trivial⟩

/-- The first process created has all sixteen descriptors open, naming global entry 0. -/
theorem created_descriptors_open : ¬ ∀ (L : Layout) (k : KState) (calls : List FdCall),
      AllSteps KeepsDescriptors (boot k) (traceOf (next L) (boot k) calls) := by
  intro hall
  have h := AllSteps.traceOf_at [] (hall sampleLayout KState.bare
    ([] ++ [.process (.create 0x400000 [] .ring0)]))
  have hopen := h.created_closed 0x400000 [] .ring0 0 rfl (by decide) 0
  exact absurd hopen (by decide)

end Holdings

end Chicago95.Kernel
