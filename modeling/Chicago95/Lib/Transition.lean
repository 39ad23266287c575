/-
# Chicago95.Lib.Transition — traces of a labelled step relation and the guarded-run rules.

A system is given by nothing but its step relation `State → Label → State → Prop`. A *trace* records
the labels taken together with the state each one led to, so a property of every state reached and a
condition on every step taken are both read off the same object (`AllSteps`).

Two rules carry all run results of this development:

* `Trace.allSteps_of_guarded` — an invariant that a step keeps **when its guard holds** is kept along
  every trace whose steps all meet the guard, together with whatever the step shows about itself;
* `Trace.allSteps_iff_guarded` — when the guard of a step is exactly what decides the property of that
  step, a trace has the property throughout **iff** all its guards hold.
-/
import Mathlib.Tactic.Common

namespace Chicago95.Lib.Transition

variable {State Label : Type*} {step : State → Label → State → Prop}

/-- `Trace step s tr`: from `s` the labels of `tr` are taken in order, each leading to the state
recorded with it. -/
inductive Trace (step : State → Label → State → Prop) : State → List (Label × State) → Prop
  | nil (s : State) : Trace step s []
  | cons {s t : State} {l : Label} {tr : List (Label × State)} :
      step s l t → Trace step t tr → Trace step s ((l, t) :: tr)

/-- `Q` holds of every step of the trace (source state, label, target state). -/
def AllSteps (Q : State → Label → State → Prop) : State → List (Label × State) → Prop
  | _, [] => True
  | s, (l, t) :: tr => Q s l t ∧ AllSteps Q t tr

/-- Every state the trace reaches satisfies `P`. -/
abbrev AllStates (P : State → Prop) : State → List (Label × State) → Prop :=
  AllSteps fun _ _ t => P t

/-- Every step of the trace meets `guard`, a condition on the state before it and its label. -/
abbrev Guarded (guard : State → Label → Prop) : State → List (Label × State) → Prop :=
  AllSteps fun s l _ => guard s l

/-- The state a trace ends in. -/
def lastState : State → List (Label × State) → State
  | s, [] => s
  | _, (_, t) :: tr => lastState t tr

@[simp] theorem allSteps_nil (Q : State → Label → State → Prop) (s : State) : AllSteps Q s [] := trivial

@[simp] theorem allSteps_cons (Q : State → Label → State → Prop) (s t : State) (l : Label) (tr : List (Label × State)) :
    AllSteps Q s ((l, t) :: tr) ↔ Q s l t ∧ AllSteps Q t tr := Iff.rfl

@[simp] theorem lastState_nil (s : State) : lastState s ([] : List (Label × State)) = s := rfl

@[simp] theorem lastState_cons (s t : State) (l : Label) (tr : List (Label × State)) :
    lastState s ((l, t) :: tr) = lastState t tr := rfl

instance AllSteps.instDecidable (Q : State → Label → State → Prop) [∀ s l t, Decidable (Q s l t)] :
    ∀ (s : State) (tr : List (Label × State)), Decidable (AllSteps Q s tr)
  | _, [] => .isTrue trivial
  | s, (l, t) :: tr =>
    haveI := AllSteps.instDecidable Q t tr
    inferInstanceAs (Decidable (Q s l t ∧ AllSteps Q t tr))

/-- **The guarded-invariant rule.** If a step from a state in `I` whose guard holds lands in `I` and
shows `Q`, then along every trace from `I` whose steps all meet the guard, every step shows `Q`. -/
theorem Trace.allSteps_of_guarded {I : State → Prop} {guard : State → Label → Prop} {Q : State → Label → State → Prop}
    (hstep : ∀ s l t, I s → step s l t → guard s l → I t ∧ Q s l t) : ∀ {s : State} {tr : List (Label × State)},
      Trace step s tr → I s → Guarded guard s tr → AllSteps Q s tr := by
  intro s tr htr
  induction htr with
  | nil s => intro _ _; trivial
  | cons hst _ ih =>
    rintro hI ⟨hg, hrest⟩
    obtain ⟨hIt, hQ⟩ := hstep _ _ _ hI hst hg
    exact ⟨hQ, ih hIt hrest⟩

theorem Trace.lastState_of_guarded {I : State → Prop} {guard : State → Label → Prop}
    (hstep : ∀ s l t, I s → step s l t → guard s l → I t) : ∀ {s : State} {tr : List (Label × State)},
      Trace step s tr → I s → Guarded guard s tr → I (lastState s tr) := by
  intro s tr htr
  induction htr with
  | nil s => intro hI _; exact hI
  | cons hst _ ih =>
    rintro hI ⟨hg, hrest⟩
    exact ih (hstep _ _ _ hI hst hg) hrest

theorem Trace.restrict {guard : State → Label → Prop} {s : State} {tr : List (Label × State)}
    (htr : Trace step s tr) (hguard : Guarded guard s tr) : Trace (fun s l t => step s l t ∧ guard s l) s tr := by
  induction htr with
  | nil s => exact .nil s
  | cons hst _ ih => exact .cons ⟨hst, hguard.1⟩ (ih hguard.2)

theorem Trace.allSteps_of_invariant {I : State → Prop} {Q : State → Label → State → Prop}
    (hstep : ∀ s l t, I s → step s l t → I t ∧ Q s l t)
    {s : State} {tr : List (Label × State)} (htr : Trace step s tr) (hI : I s) : AllSteps Q s tr := by
  have hguard : Guarded (fun (_ : State) (_ : Label) => True) s tr := by
    clear hI
    induction htr with
    | nil s => trivial
    | cons _ _ ih => exact ⟨trivial, ih⟩
  exact htr.allSteps_of_guarded (fun s l t hs hst _ => hstep s l t hs hst) hI hguard

/-- **The exact-guard rule.** `J` collects what holds as long as every step shows `Q`. -/
theorem Trace.allSteps_iff_guarded {J : State → Prop} {guard : State → Label → Prop} {Q : State → Label → State → Prop}
    (hiff : ∀ s l t, J s → step s l t → (Q s l t ↔ guard s l)) (hJ : ∀ s l t, J s → step s l t → Q s l t → J t) :
    ∀ {s : State} {tr : List (Label × State)}, Trace step s tr → J s → (AllSteps Q s tr ↔ Guarded guard s tr) := by
  intro s tr htr
  induction htr with
  | nil s => intro _; simp
  | cons hst _ ih =>
    intro hs
    have hhead := hiff _ _ _ hs hst
    simp only [allSteps_cons]
    constructor
    · rintro ⟨hQ, hrest⟩
      exact ⟨hhead.mp hQ, (ih (hJ _ _ _ hs hst hQ)).mp hrest⟩
    · rintro ⟨hg, hrest⟩
      have hQ := hhead.mpr hg
      exact ⟨hQ, (ih (hJ _ _ _ hs hst hQ)).mpr hrest⟩

/-! ## Deterministic systems

When a label has one outcome, the states of a trace are computed from its labels. -/

/-- The trace a label sequence produces under a next-state function. -/
def traceOf (next : State → Label → State) : State → List Label → List (Label × State)
  | _, [] => []
  | s, l :: ls => (l, next s l) :: traceOf next (next s l) ls

theorem trace_traceOf (next : State → Label → State) :
    ∀ (s : State) (ls : List Label), Trace (fun s l t => t = next s l) s (traceOf next s ls)
  | s, [] => .nil s
  | s, l :: ls => .cons rfl (trace_traceOf next (next s l) ls)

theorem guarded_traceOf {guard : Label → Prop} {next : State → Label → State} :
    ∀ {ls : List Label} (s : State), (∀ l ∈ ls, guard l) → Guarded (fun _ l => guard l) s (traceOf next s ls)
  | [], _, _ => trivial
  | l :: _, s, h =>
    ⟨h l List.mem_cons_self, guarded_traceOf (next s l) fun k hk => h k (List.mem_cons_of_mem _ hk)⟩

theorem AllSteps.traceOf_at {Q : State → Label → State → Prop} {next : State → Label → State} :
    ∀ (pre : List Label) {s : State} {l : Label} {post : List Label},
      AllSteps Q s (traceOf next s (pre ++ l :: post)) →
        Q (pre.foldl next s) l (next (pre.foldl next s) l)
  | [], _, _, _, h => h.1
  | _ :: pre, _, _, _, h => AllSteps.traceOf_at pre h.2

end Chicago95.Lib.Transition
