/-
# Chicago95.Kernel.WaitOwnership — whose zombies `sys_wait` reaps.

`sys_wait` recognises the caller's children by a slot number (`ppid`), and slot numbers are recycled.
To say which *process* a number meant, the state is extended with a history the code does not have:
every process gets a fresh birth number, and the one that created it is remembered by its own.
-/
import Chicago95.Lib.Transition
import Chicago95.Kernel.ProcessTable

namespace Chicago95.Kernel

open Chicago95.Lib.Transition
open Function (update_of_ne update_self update)

/-- The kernel state with the births of the processes. -/
structure Family where
  kernel : KState
  /-- The birth number of the process that occupies slot `i`, or did last. -/
  born : Slot → Nat
  /-- The birth number of its creator (`none` for the boot code). -/
  creator : Slot → Option Nat
  /-- The next birth number. -/
  births : Nat
  /-- The birth numbers reaped so far. -/
  reaped : List Nat

namespace Family

/-- Right after `process_init`. -/
def boot (k : KState) : Family :=
  { kernel := processInit k, born := fun _ => 0, creator := fun _ => none, births := 0, reaped := [] }

/-- A birth in slot `i`. -/
def birth (s : Family) (i : Slot) (k : KState) : Family :=
  { s with
    kernel := k
    born := update s.born i s.births
    creator := update s.creator i (s.kernel.currentProcess.map s.born)
    births := s.births + 1 }

/-- A call, with what it means for the births. -/
def next (L : Layout) (s : Family) (call : Call) : Family :=
  let k := (call.exec L s.kernel).2
  match call.filledSlot s.kernel with
  | some i => s.birth i k
  | none =>
    match call.reapedSlot s.kernel with
    | some i => { s with kernel := k, reaped := s.born i :: s.reaped }
    | none => { s with kernel := k }

/-- If the step reaps, it reaps a process that the caller itself created. -/
def ReapsOwnChild (s : Family) (call : Call) : Prop :=
  ∀ i c, call.reapedSlot s.kernel = some i → s.kernel.currentProcess = some c →
    s.creator i = some (s.born c)

/-- If the call fills a slot, no process still names that slot as its parent's. -/
def FillsForgottenSlot (s : Family) (call : Call) : Prop :=
  ∀ i, call.filledSlot s.kernel = some i →
    ∀ j : Slot, (s.kernel.processes j).state ≠ .unused → (s.kernel.processes j).ppid ≠ i.val

instance (s : Family) (call : Call) : Decidable (FillsForgottenSlot s call) :=
  inferInstanceAs (Decidable (∀ _ : Slot, _ → ∀ _ : Slot, _ → _))

/-! ## At most once -/

/-- Birth numbers in use are below the counter, distinct, and not reaped yet. -/
structure BirthsDistinct (s : Family) : Prop where
  numbered : WellNumbered s.kernel
  born_lt : ∀ i : Slot, (s.kernel.processes i).state ≠ .unused → s.born i < s.births
  born_inj : ∀ i j : Slot, (s.kernel.processes i).state ≠ .unused →
    (s.kernel.processes j).state ≠ .unused → s.born i = s.born j → i = j
  reaped_lt : ∀ b ∈ s.reaped, b < s.births
  reaped_dead : ∀ i : Slot, (s.kernel.processes i).state ≠ .unused → s.born i ∉ s.reaped
  nodup : s.reaped.Nodup

theorem birthsDistinct_boot (k : KState) : BirthsDistinct (boot k) where
  numbered := wellNumbered_processInit k
  born_lt := fun _ h => absurd rfl h
  born_inj := fun _ _ h => absurd rfl h
  reaped_lt := fun _ h => nomatch h
  reaped_dead := fun _ h => absurd rfl h
  nodup := List.nodup_nil

theorem BirthsDistinct.next {L : Layout} {s : Family} (h : BirthsDistinct s) (call : Call) :
    BirthsDistinct (s.next L call) := by
  have hnum := Call.exec_wellNumbered (L := L) h.numbered call
  unfold Family.next
  rcases Option.eq_none_or_eq_some (call.filledSlot s.kernel) with hf | ⟨i, hf⟩
  · rcases Option.eq_none_or_eq_some (call.reapedSlot s.kernel) with hr | ⟨i, hr⟩
    · simp only [hf, hr]
      obtain ⟨hid, _⟩ := Call.exec_sameIdentity (L := L) h.numbered.current_live hf hr
      have hold : ∀ j, ((call.exec L s.kernel).2.processes j).state ≠ .unused →
          (s.kernel.processes j).state ≠ .unused :=
        fun j hj hun => hj ((hid j).unused_iff.mpr hun)
      exact
        { numbered := hnum
          born_lt := fun j hj => h.born_lt j (hold j hj)
          born_inj := fun j j' hj hj' => h.born_inj j j' (hold j hj) (hold j' hj')
          reaped_lt := h.reaped_lt
          reaped_dead := fun j hj => h.reaped_dead j (hold j hj)
          nodup := h.nodup }
    · simp only [hf, hr]
      obtain ⟨c, hc, _, hz, hx⟩ := Call.exec_of_reaped (L := L) hr
      have hun : (s.kernel.processes i).state ≠ .unused := by rw [hz]; decide
      have hold : ∀ j, ((call.exec L s.kernel).2.processes j).state ≠ .unused →
          j ≠ i ∧ (s.kernel.processes j).state ≠ .unused := by
        intro j hj
        rw [hx] at hj
        by_cases hji : j = i
        · subst hji; simp at hj
        · exact ⟨hji, by simpa [hji] using hj⟩
      exact
        { numbered := hnum
          born_lt := fun j hj => h.born_lt j (hold j hj).2
          born_inj := fun j j' hj hj' => h.born_inj j j' (hold j hj).2 (hold j' hj').2
          reaped_lt := by
            intro b hb
            rcases List.mem_cons.mp hb with rfl | hb
            · exact h.born_lt i hun
            · exact h.reaped_lt b hb
          reaped_dead := by
            intro j hj hmem
            rcases List.mem_cons.mp hmem with heq | hmem
            · exact (hold j hj).1 (h.born_inj j i (hold j hj).2 hun heq)
            · exact h.reaped_dead j (hold j hj).2 hmem
          nodup := List.nodup_cons.mpr ⟨h.reaped_dead i hun, h.nodup⟩ }
  · simp only [hf, birth]
    obtain ⟨_, p, hprocs, _, _, _, _⟩ := Call.exec_of_filled (L := L) hf
    have hold : ∀ j, j ≠ i → ((call.exec L s.kernel).2.processes j).state ≠ .unused →
        (s.kernel.processes j).state ≠ .unused := by
      intro j hji hj
      rwa [hprocs, update_of_ne hji] at hj
    refine
      { numbered := hnum
        born_lt := fun j hj => ?_
        born_inj := fun j j' hj hj' heq => ?_
        reaped_lt := fun b hb => Nat.lt_succ_of_lt (h.reaped_lt b hb)
        reaped_dead := fun j hj hmem => ?_
        nodup := h.nodup }
    · by_cases hji : j = i
      · subst hji; simp
      · simpa [hji] using Nat.lt_succ_of_lt (h.born_lt j (hold j hji hj))
    · by_cases hji : j = i <;> by_cases hji' : j' = i
      · rw [hji, hji']
      · subst hji
        simp only [update_self, update_of_ne hji'] at heq
        exact absurd heq.symm (Nat.ne_of_lt (h.born_lt j' (hold j' hji' hj')))
      · subst hji'
        simp only [update_self, update_of_ne hji] at heq
        exact absurd heq (Nat.ne_of_lt (h.born_lt j (hold j hji hj)))
      · simp only [update_of_ne hji, update_of_ne hji'] at heq
        exact h.born_inj j j' (hold j hji hj) (hold j' hji' hj') heq
    · by_cases hji : j = i
      · subst hji
        simp only [update_self] at hmem
        exact Nat.lt_irrefl _ (h.reaped_lt _ hmem)
      · simp only [update_of_ne hji] at hmem
        exact h.reaped_dead j (hold j hji hj) hmem

/-! ## Only one's own -/

/-- The slot a process names as its parent's was last occupied by its creator. -/
structure ParentsTracked (s : Family) : Prop where
  numbered : WellNumbered s.kernel
  creator_eq : ∀ i p : Slot, (s.kernel.processes i).state ≠ .unused →
    (s.kernel.processes i).ppid = p.val → s.creator i = some (s.born p)

theorem parentsTracked_boot (k : KState) : ParentsTracked (boot k) where
  numbered := wellNumbered_processInit k
  creator_eq := fun _ _ h => absurd rfl h

theorem ParentsTracked.reapsOwnChild {s : Family} (h : ParentsTracked s) (call : Call) : ReapsOwnChild s call := by
  intro i c hr hc
  obtain ⟨c', hc', hpp, hz, _⟩ := Call.exec_of_reaped (L := sampleLayout) hr
  obtain rfl : c' = c := Option.some.inj (hc'.symm.trans hc)
  have hun : (s.kernel.processes i).state ≠ .unused := by rw [hz]; decide
  exact h.creator_eq i c' hun (hpp.trans (h.numbered.pid_eq c' (h.numbered.current_live c' hc)))

theorem ParentsTracked.next {L : Layout} {s : Family} (h : ParentsTracked s) {call : Call}
    (hfill : FillsForgottenSlot s call) : ParentsTracked (s.next L call) := by
  have hnum := Call.exec_wellNumbered (L := L) h.numbered call
  unfold Family.next
  rcases Option.eq_none_or_eq_some (call.filledSlot s.kernel) with hf | ⟨i, hf⟩
  · rcases Option.eq_none_or_eq_some (call.reapedSlot s.kernel) with hr | ⟨i, hr⟩
    · simp only [hf, hr]
      obtain ⟨hid, _⟩ := Call.exec_sameIdentity (L := L) h.numbered.current_live hf hr
      refine ⟨hnum, fun j p hj hpp => ?_⟩
      rw [(hid j).ppid_eq] at hpp
      exact h.creator_eq j p (fun hun => hj ((hid j).unused_iff.mpr hun)) hpp
    · simp only [hf, hr]
      obtain ⟨c, _, _, _, hx⟩ := Call.exec_of_reaped (L := L) hr
      refine ⟨hnum, fun j p hj hpp => ?_⟩
      simp only [hx] at hj hpp
      by_cases hji : j = i
      · subst hji; simp at hj
      · rw [KState.setProcess_processes_of_ne _ _ hji] at hj hpp
        exact h.creator_eq j p hj hpp
  · simp only [hf, birth]
    obtain ⟨hun, q, hprocs, _, hppid, _, _⟩ := Call.exec_of_filled (L := L) hf
    refine ⟨hnum, fun j p hj hpp => ?_⟩
    simp only [hprocs] at hj hpp
    by_cases hji : j = i
    · -- the new process: its creator is the current process, which stays in its own slot
      subst hji
      rw [update_self, hppid] at hpp
      rcases Option.eq_none_or_eq_some s.kernel.currentProcess with hc | ⟨c, hc⟩
      · simp only [KState.currentPid, hc] at hpp; omega
      · simp only [KState.currentPid, hc] at hpp
        obtain rfl : c = p := Fin.ext (by exact_mod_cast hpp)
        have hcj : c ≠ j := fun heq => h.numbered.current_live c hc (heq ▸ hun)
        simp [hc, hcj]
    · -- anybody else: the slot it names is not the one that was filled
      rw [update_of_ne hji] at hj hpp
      have hpi : p ≠ i := fun heq => hfill i hf j hj (heq ▸ hpp)
      simpa [hji, hpi] using h.creator_eq j p hj hpp

/-! ## Runs -/

/-- **Wait ownership, over whole runs.** From `process_init`, no process is reaped twice in any run; and
in every run that never fills a slot still named as a parent's, every process reaped by `sys_wait`
was created by the very process that reaps it. -/
theorem sysWait_reaps_own (L : Layout) (k : KState) (calls : List Call) :
    AllStates (fun s => s.reaped.Nodup) (boot k) (traceOf (next L) (boot k) calls) ∧
    (Guarded FillsForgottenSlot (boot k) (traceOf (next L) (boot k) calls) →
      AllSteps (fun s call _ => ReapsOwnChild s call) (boot k) (traceOf (next L) (boot k) calls)) := by
  have htr := trace_traceOf (next L) (boot k) calls
  refine ⟨?_, fun hguard => ?_⟩
  · refine htr.allSteps_of_invariant (I := BirthsDistinct) ?_ (birthsDistinct_boot k)
    rintro s call _ hs rfl
    exact ⟨hs.next call, (hs.next (L := L) call).nodup⟩
  · refine htr.allSteps_of_guarded (I := ParentsTracked) ?_ (parentsTracked_boot k) hguard
    rintro s call _ hs rfl hfill
    exact ⟨hs.next hfill, hs.reapsOwnChild call⟩

/-- A child exits and its creator reaps it: the run meets the condition, so the reaping is its own. -/
theorem sysWait_reaps_own_child :
    let calls : List Call := [.create 0x400000 [] .ring0, .scheduler, .create 0x400000 [] .ring0,
      .yield, .exit 3, .wait 0]
    AllSteps (fun s call _ => ReapsOwnChild s call) (boot KState.bare)
      (traceOf (next sampleLayout) (boot KState.bare) calls) :=
  (sysWait_reaps_own sampleLayout KState.bare _).2 (by decide)

/-- **An orphan reaped by a stranger.** Process 0 creates process 1, which creates process 2 and exits;
process 2 exits; process 0 reaps process 1 and creates another process in slot 1, whose `sys_wait`
then reaps process 2. -/
theorem orphan_reaped_by_stranger : ¬ ∀ (L : Layout) (k : KState) (calls : List Call),
      AllSteps (fun s call t => ReapsOwnChild s call ∧ t.reaped.Nodup) (boot k) (traceOf (next L) (boot k) calls) := by
  intro hall
  let create : Call := .create 0x400000 [] .ring0
  have h := AllSteps.traceOf_at [create, .scheduler, create, .yield, create, .exit 0, .exit 0,
    .wait 0, create, .yield] (hall sampleLayout KState.bare (_ ++ [.wait 0]))
  have howner := h.1 2 1 (by decide) (by decide)
  exact absurd howner (by decide)

end Family

end Chicago95.Kernel
