import Mysticeti.Lib.Machine
import Mysticeti.Types

/-!
# When a lagging node proposes again

A node that is more than a hundred commits behind the quorum skips its proposals and catches up
first. To prevent oscillation it is meant to resume only once the lag has dropped to eighty
percent of that threshold. The lower threshold is computed, but it only selects a log line: the
decision has no memory of an earlier refusal.

A run is the sequence of moments at which the values that the decision reads are observed; at
some of them the decision is asked for.
-/

namespace Mysticeti

open Lib.Machine

inductive SkippedProposal where
  | severeLagPrioritizeSync
  | moderateLagPrioritizeSync
  | highPropagationDelay
  | noLastKnownProposedRound
  | higherLastKnownProposedRound
deriving DecidableEq, Repr

structure ProposalInputs where
  clockRound : Round
  localCommitIndex : CommitIndex
  quorumCommitIndex : CommitIndex
  propagationDelay : Round
  propagationDelayStopProposalThreshold : Round
  lastKnownProposedRound : Option Round
deriving DecidableEq, Repr

namespace ProposalInputs

def MODERATE_LAG_THRESHOLD : Nat := 100
def SEVERE_LAG_THRESHOLD : Nat := 200
def MODERATE_LAG_PERCENTAGE : Nat := 10
def SEVERE_LAG_PERCENTAGE : Nat := 15

def HYSTERESIS_PERCENTAGE : Nat := 80

variable (inputs : ProposalInputs)

def lag : CommitIndex := inputs.quorumCommitIndex - inputs.localCommitIndex

/-- The lag is more than a share of the quorum index. The quotient of two 32-bit numbers and a
whole percentage are too far apart for the rounding of floats to matter. -/
def lagExceeds (percentage : Nat) : Prop := percentage * inputs.quorumCommitIndex < 100 * inputs.lag
deriving Decidable

def moderateLagThresholdWithHysteresis : Nat := MODERATE_LAG_THRESHOLD * HYSTERESIS_PERCENTAGE / 100

def skipReason : Option SkippedProposal :=
  if MODERATE_LAG_THRESHOLD < inputs.lag ∨ inputs.lagExceeds MODERATE_LAG_PERCENTAGE then
    some (if SEVERE_LAG_THRESHOLD < inputs.lag ∨ inputs.lagExceeds SEVERE_LAG_PERCENTAGE then
      .severeLagPrioritizeSync else .moderateLagPrioritizeSync)
  else if inputs.propagationDelayStopProposalThreshold < inputs.propagationDelay then
    some .highPropagationDelay
  else
    match inputs.lastKnownProposedRound with
    | none => some .noLastKnownProposedRound
    | some lastKnownProposedRound =>
      if inputs.clockRound ≤ lastKnownProposedRound then some .higherLastKnownProposedRound
      else none

def shouldPropose : Bool := inputs.skipReason.isNone

/-- Another check than the one of the absolute lag refuses to propose. -/
def OtherwiseRefused : Prop :=
  inputs.lagExceeds MODERATE_LAG_PERCENTAGE ∨
    inputs.propagationDelayStopProposalThreshold < inputs.propagationDelay ∨
    ∀ lastKnown ∈ inputs.lastKnownProposedRound, inputs.clockRound ≤ lastKnown

lemma shouldPropose_eq_false_iff {inputs : ProposalInputs} : inputs.shouldPropose = false ↔
    MODERATE_LAG_THRESHOLD < inputs.lag ∨ inputs.OtherwiseRefused := by
  unfold shouldPropose skipReason OtherwiseRefused
  rw [← or_assoc]
  split
  · rename_i lagging
    exact iff_of_true rfl (.inl lagging)
  · rename_i close
    rw [or_iff_right close]
    split
    · rename_i slow
      exact iff_of_true rfl (.inl slow)
    · rename_i quick
      rw [or_iff_right quick]
      cases inputs.lastKnownProposedRound with
      | none => exact iff_of_true rfl nofun
      | some lastKnown =>
        dsimp only
        split
        · rename_i early
          refine iff_of_true rfl ?_
          rintro other ⟨⟩
          exact early
        · rename_i late
          exact iff_of_false Bool.noConfusion fun each => late (each lastKnown rfl)

end ProposalInputs

structure ProposalMoment extends ProposalInputs where
  asked : Bool
deriving DecidableEq, Repr

namespace ProposalMoment

open ProposalInputs

/-- No call returns true until the lag has dropped to the lower threshold. -/
def HeldBack : List ProposalMoment → Prop
  | [] => True
  | moment :: rest => moment.lag ≤ moderateLagThresholdWithHysteresis ∨
    ((moment.asked = true → moment.shouldPropose = false) ∧ HeldBack rest)

/-- After each call that refuses because of the absolute lag, calls are held back. -/
def Hysteresis : List ProposalMoment → Prop
  | [] => True
  | moment :: rest =>
    (moment.asked = true → moment.shouldPropose = false →
      MODERATE_LAG_THRESHOLD < moment.lag → HeldBack rest) ∧ Hysteresis rest

variable (syncing : Bool)

/-- Follow whether a node that refused because of its lag is still to catch up. -/
def observe (moment : ProposalMoment) : Option Bool :=
  some (decide (moderateLagThresholdWithHysteresis < moment.lag) &&
    (syncing || (moment.asked && decide (MODERATE_LAG_THRESHOLD < moment.lag))))

/-- A call between the two thresholds, by a node that is still to catch up, is refused by
another check. -/
def Waits (moment : ProposalMoment) : Prop :=
  syncing = true → moment.asked = true → moderateLagThresholdWithHysteresis < moment.lag →
    moment.lag ≤ MODERATE_LAG_THRESHOLD → moment.OtherwiseRefused

lemma heeds_waits_iff (moments : List ProposalMoment) :
    Heeds observe Waits syncing moments ↔
      Hysteresis moments ∧ (syncing = true → HeldBack moments) := by
  induction moments generalizing syncing with
  | nil => exact iff_of_true trivial ⟨trivial, fun _ => trivial⟩
  | cons moment rest ih =>
    have refused := @shouldPropose_eq_false_iff moment.toProposalInputs
    simp only [Heeds, observe, Option.some.injEq, forall_eq', ih, Hysteresis, HeldBack]
    by_cases caughtUp : moment.lag ≤ moderateLagThresholdWithHysteresis
    · have notAbove := Nat.not_lt_of_le caughtUp
      have waits : Waits syncing moment := fun _ _ above => absurd above notAbove
      have close : ¬ MODERATE_LAG_THRESHOLD < moment.lag := fun lagging =>
        notAbove (Nat.lt_trans (by decide) lagging)
      simp [waits, notAbove, close, caughtUp]
    · have above := Nat.lt_of_not_le caughtUp
      have waits : Waits syncing moment ↔
          (syncing = true → moment.asked = true → moment.shouldPropose = false) := by
        rw [refused]
        constructor
        · intro waits behind asked
          by_cases lagging : MODERATE_LAG_THRESHOLD < moment.lag
          · exact .inl lagging
          · exact .inr (waits behind asked above (Nat.le_of_not_lt lagging))
        · intro ans behind asked _ close
          exact (ans behind asked).resolve_left (Nat.not_lt_of_le close)
      have known : MODERATE_LAG_THRESHOLD < moment.lag → moment.shouldPropose = false :=
        fun lagging => refused.mpr (.inl lagging)
      simp only [waits, caughtUp, above, decide_true, Bool.true_and, Bool.or_eq_true,
        Bool.and_eq_true, decide_eq_true_eq, false_or]
      tauto

/-- In a run the lower threshold for resuming is kept to exactly when every call between the
thresholds, by a node that is still to catch up, is refused by another check. -/
theorem hysteresis_iff (moments : List ProposalMoment) :
    Hysteresis moments ↔ Heeds observe Waits false moments := by
  rw [heeds_waits_iff]
  simp

/-- A node that lags by 101 commits refuses to propose; when it has caught up by 11 of them, it
proposes. -/
theorem proposes_before_recovery :
    let lagging : ProposalMoment := ⟨⟨9, 1000, 1101, 0, 5, some 0⟩, true⟩
    let recovering : ProposalMoment := ⟨⟨9, 1011, 1101, 0, 5, some 0⟩, true⟩
    lagging.shouldPropose = false ∧ lagging.lag = 101 ∧ recovering.shouldPropose = true ∧
      recovering.lag = 90 ∧ ¬ Hysteresis [lagging, recovering] := by
  intro lagging recovering
  have refuses : lagging.shouldPropose = false := by decide
  have proposes : recovering.shouldPropose = true := by decide
  have behind : ¬ recovering.lag ≤ moderateLagThresholdWithHysteresis := by decide
  have far : MODERATE_LAG_THRESHOLD < lagging.lag := by decide
  refine ⟨refuses, by decide, proposes, by decide, fun hysteresis => ?_⟩
  rw [Hysteresis, HeldBack] at hysteresis
  have held := (hysteresis.1 rfl refuses far).resolve_left behind
  exact absurd (proposes.symm.trans (held.1 rfl)) Bool.noConfusion

end ProposalMoment

end Mysticeti
