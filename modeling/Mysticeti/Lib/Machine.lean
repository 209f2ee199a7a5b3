import Mathlib

/-!
# Machines driven by a schedule

A machine is a partial step function: an action that is not enabled in a state has no
successor. A schedule is a list of actions; every interleaving of concurrent parties is a
schedule. `Heeds` says that each action of a schedule meets a condition in the state
before it, and `invariant` is the rule by which a property of one step becomes a property
of every run that heeds the condition.
-/

namespace Lib.Machine

open List Option

variable {σ α : Type}

def run (step : σ → α → Option σ) (start : σ) (sched : List α) : Option σ := sched.foldlM step start

/-- Each action of the schedule meets the condition in the state before it. -/
def Heeds (step : σ → α → Option σ) (condition : σ → α → Prop) : σ → List α → Prop
  | _, [] => True
  | st, act :: rest =>
    condition st act ∧ ∀ next, step st act = some next → Heeds step condition next rest

section Run

variable {step : σ → α → Option σ} {condition : σ → α → Prop} {start finish : σ}
  {sched : List α} {act : α}

@[simp] lemma run_nil : run step start [] = some start := rfl

lemma run_cons_eq_some : run step start (act :: sched) = some finish ↔
    ∃ next, step start act = some next ∧ run step next sched = some finish := by
  simp [run, foldlM_cons, bind_eq_some_iff]

lemma run_append_eq_some {later : List α} : run step start (sched ++ later) = some finish ↔
    ∃ mid, run step start sched = some mid ∧ run step mid later = some finish := by
  simp [run, foldlM_append, bind_eq_some_iff]

lemma exists_observed {candidate : Option σ} {property : σ → Prop} [DecidablePred property]
    (observed : candidate.any (fun st => decide (property st)) = true) :
    ∃ st, candidate = some st ∧ property st := by
  cases candidate with
  | none => cases observed
  | some st => exact ⟨st, rfl, of_decide_eq_true observed⟩

lemma exists_reached {property : σ → Prop} [DecidablePred property]
    (observed : (run step start sched).any (fun st => decide (property st)) = true) :
    ∃ final, run step start sched = some final ∧ property final :=
  exists_observed observed

lemma invariant {holds : σ → Prop}
    (kept : ∀ st act next, holds st → condition st act →
      step st act = some next → holds next)
    (initially : holds start) (heeds : Heeds step condition start sched)
    (ran : run step start sched = some finish) : holds finish := by
  induction sched generalizing start with
  | nil => exact some.inj ran ▸ initially
  | cons act rest ih =>
    obtain ⟨next, taken, ran⟩ := run_cons_eq_some.mp ran
    exact ih (kept start act next initially heeds.1 taken)
      (heeds.2 next taken) ran

lemma progress {holds : σ → Prop}
    (advances : ∀ st act, holds st → condition st act →
      ∃ next, step st act = some next ∧ holds next)
    (initially : holds start) (heeds : Heeds step condition start sched) :
    ∃ finish, run step start sched = some finish ∧ holds finish := by
  induction sched generalizing start with
  | nil => exact ⟨start, rfl, initially⟩
  | cons act rest ih =>
    obtain ⟨next, taken, kept⟩ := advances start act initially heeds.1
    obtain ⟨finish, ran, final⟩ := ih kept (heeds.2 next taken)
    exact ⟨finish, run_cons_eq_some.mpr ⟨next, taken, ran⟩, final⟩

lemma related_of_run {related : σ → σ → Prop} (refl : ∀ st, related st st)
    (trans : ∀ {first second third}, related first second → related second third →
      related first third)
    (moves : ∀ {pre act post}, step pre act = some post → related pre post)
    (ran : run step start sched = some finish) : related start finish := by
  induction sched generalizing start with
  | nil => exact some.inj ran ▸ refl start
  | cons act rest ih =>
    obtain ⟨next, taken, ran⟩ := run_cons_eq_some.mp ran
    exact trans (moves taken) (ih ran)

lemma performed_of_run {related : σ → σ → Prop} (refl : ∀ st, related st st)
    (trans : ∀ {first second third}, related first second → related second third →
      related first third)
    (moves : ∀ {pre act post}, step pre act = some post → related pre post)
    (ran : run step start sched = some finish) (scheduled : act ∈ sched) :
    ∃ pre post, step pre act = some post ∧ related post finish := by
  obtain ⟨prev, later, rfl⟩ := append_of_mem scheduled
  obtain ⟨pre, -, ran⟩ := run_append_eq_some.mp ran
  obtain ⟨post, taken, ran⟩ := run_cons_eq_some.mp ran
  exact ⟨pre, post, taken, related_of_run refl trans moves ran⟩

lemma Heeds.imp {weaker : σ → α → Prop}
    (implies : ∀ st act, condition st act → weaker st act)
    (heeds : Heeds step condition start sched) : Heeds step weaker start sched := by
  induction sched generalizing start with
  | nil => trivial
  | cons act rest ih =>
    exact ⟨implies start act heeds.1, fun next taken => ih (heeds.2 next taken)⟩

lemma heeds_of_forall {allowed : α → Prop} (each : ∀ act ∈ sched, allowed act) :
    Heeds step (fun _ act => allowed act) start sched := by
  induction sched generalizing start with
  | nil => trivial
  | cons act rest ih =>
    exact ⟨each act mem_cons_self, fun _ _ =>
      ih fun other later => each other (mem_cons_of_mem act later)⟩

/-- The property holds in every state that the schedule passes through. -/
def Throughout (step : σ → α → Option σ) (holds : σ → Prop) : σ → List α → Prop
  | st, [] => holds st
  | st, act :: rest =>
    holds st ∧ ∀ next, step st act = some next → Throughout step holds next rest

/-- A property that a step from a valid state keeps exactly when it meets the condition holds
throughout a run exactly when the run heeds it. -/
lemma throughout_iff_heeds {valid holds : σ → Prop}
    (kept : ∀ st act next, valid st → step st act = some next → valid next)
    (exact_step : ∀ st act next, valid st → holds st →
      step st act = some next → (holds next ↔ condition st act))
    (validStart : valid start) (initially : holds start)
    (ran : run step start sched = some finish) :
    Throughout step holds start sched ↔ Heeds step condition start sched := by
  induction sched generalizing start with
  | nil => exact iff_of_true initially trivial
  | cons act rest ih =>
    obtain ⟨next, taken, ran⟩ := run_cons_eq_some.mp ran
    have exact_here := exact_step start act next validStart initially taken
    have validNext := kept start act next validStart taken
    constructor
    · rintro ⟨-, later⟩
      have holdsNext : holds next := by
        have head := later next taken
        cases rest with
        | nil => exact head
        | cons _ _ => exact head.1
      refine ⟨exact_here.mp holdsNext, fun other same => ?_⟩
      obtain rfl : next = other := some.inj (taken.symm.trans same)
      exact (ih validNext holdsNext ran).mp (later next taken)
    · rintro ⟨met, later⟩
      refine ⟨initially, fun other same => ?_⟩
      obtain rfl : next = other := some.inj (taken.symm.trans same)
      exact (ih validNext (exact_here.mpr met) ran).mpr (later next taken)

/-- A test of each action in the state before it, along a schedule. -/
def checks (step : σ → α → Option σ) (check : σ → α → Bool) : σ → List α → Bool
  | _, [] => true
  | st, act :: rest =>
    check st act && match step st act with
      | none => true
      | some next => checks step check next rest

lemma heeds_of_checks {check : σ → α → Bool}
    (sound : ∀ st act, check st act = true → condition st act)
    (passed : checks step check start sched = true) : Heeds step condition start sched := by
  induction sched generalizing start with
  | nil => trivial
  | cons act rest ih =>
    rw [checks, Bool.and_eq_true] at passed
    refine ⟨sound start act passed.1, fun next taken => ?_⟩
    apply ih
    simpa [taken] using passed.2

end Run

end Lib.Machine
