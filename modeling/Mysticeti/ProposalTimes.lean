import Mysticeti.EpochQuorum

/-!
# Times of proposals and the start of the epoch

The check of a proposal compares two clocks as signed numbers. A proposal that seems long
past makes the manager take over its start of the epoch, and it does so before the proposer
and the signature are checked. A refused proposal therefore may leave a trace. Starts beyond
the signed range seem long past, and are taken over as well.

The clock of a node does not go back here; time passes in an action of its own.
-/

namespace Mysticeti

open Option Lib.Machine

namespace EpochChangeManager

section Refusal

variable {crypto : EpochCrypto} {mgr : EpochChangeManager} {nowMs : Nat}
  {prop : EpochChangeProposal}

def timestampDifference (nowMs : Nat) (prop : EpochChangeProposal) : Int :=
  Int.bmod (toSigned nowMs - toSigned prop.newEpochTimestampMs) (2 ^ 64)

/-- The check takes over the start of a proposal for the next epoch that seems long past. -/
def TakesOver (mgr : EpochChangeManager) (nowMs : Nat) (prop : EpochChangeProposal) : Prop :=
  prop.newEpoch = mgr.currentEpoch + 1 ∧ maxPastMsNormal < timestampDifference nowMs prop
deriving Decidable

lemma validateProposal_eq : mgr.validateProposal crypto nowMs prop =
    if prop.newEpoch ≠ mgr.currentEpoch + 1 then
      (mgr, .error .epochMustIncrementByOne)
    else if maxPastMsNormal < timestampDifference nowMs prop then
      let synced := { mgr with epochStartTimestampMs := prop.newEpochTimestampMs }
      if -maxFutureMs ≤ timestampDifference nowMs prop then
        (synced, synced.validateProposer crypto prop)
      else (synced, .error (.syncedTimestampTooFarInFuture (timestampDifference nowMs prop)))
    else if timestampDifference nowMs prop ≤ maxPastMsNormal ∧
        -maxFutureMs ≤ timestampDifference nowMs prop then
      (mgr, mgr.validateProposer crypto prop)
    else (mgr, .error (.timestampOutOfRange (timestampDifference nowMs prop))) := by
  unfold validateProposal timestampDifference
  generalize Int.bmod _ _ = difference
  rfl

lemma validateProposal_manager : (mgr.validateProposal crypto nowMs prop).1 =
    if mgr.TakesOver nowMs prop then
      { mgr with epochStartTimestampMs := prop.newEpochTimestampMs }
    else mgr := by
  rw [validateProposal_eq]
  by_cases next : prop.newEpoch = mgr.currentEpoch + 1
  · by_cases past : maxPastMsNormal < timestampDifference nowMs prop
    · have takes : mgr.TakesOver nowMs prop := ⟨next, past⟩
      simp only [if_pos takes, if_neg (not_not_intro next), if_pos past, apply_ite Prod.fst,
        ite_self]
    · have stays : ¬ mgr.TakesOver nowMs prop := fun takes => past takes.2
      simp only [if_neg stays, if_neg (not_not_intro next), if_neg past, apply_ite Prod.fst,
        ite_self]
  · have stays : ¬ mgr.TakesOver nowMs prop := fun takes => next takes.1
    rw [if_pos next, if_neg stays]

lemma difference_of_validateProposal
    (valid : (mgr.validateProposal crypto nowMs prop).2 = .ok ()) :
    -maxFutureMs ≤ timestampDifference nowMs prop := by
  by_contra future
  have outOfRange : ¬ (timestampDifference nowMs prop ≤ maxPastMsNormal ∧
      -maxFutureMs ≤ timestampDifference nowMs prop) := fun within => future within.2
  simp only [validateProposal_eq, if_neg future, if_neg outOfRange] at valid
  split at valid
  · cases valid
  · split at valid <;> cases valid

lemma processProposal_refused {err : EpochChangeRefusal}
    (refused : (mgr.processProposal crypto nowMs prop).2 = .error err) :
    (mgr.processProposal crypto nowMs prop).1 = (mgr.validateProposal crypto nowMs prop).1 := by
  unfold processProposal at refused ⊢
  split at refused
  · cases refused
  · rename_i fresh
    rw [if_neg fresh]
    cases checked : mgr.validateProposal crypto nowMs prop with
    | mk validated verdict =>
      rw [checked] at refused
      cases verdict with
      | error reason => rfl
      | ok _ => cases refused

lemma voteOnProposal_refused {voter : AuthorityIndex} {keyPair : ProtocolKeyPair}
    {err : EpochChangeRefusal}
    (refused : (mgr.voteOnProposal crypto nowMs prop voter keyPair).2 = .error err) :
    (mgr.voteOnProposal crypto nowMs prop voter keyPair).1 =
      (mgr.validateProposal crypto nowMs prop).1 := by
  unfold voteOnProposal at refused ⊢
  cases checked : mgr.validateProposal crypto nowMs prop with
  | mk validated verdict =>
    rw [checked] at refused
    cases verdict with
    | error reason => rfl
    | ok _ =>
      dsimp only at refused ⊢
      split at refused
      · rfl
      · cases refused

/-- The check changes the manager: it takes over a start that is not the manager's own. -/
def Overwrites (mgr : EpochChangeManager) (nowMs : Nat) (prop : EpochChangeProposal) : Prop :=
  mgr.TakesOver nowMs prop ∧ mgr.epochStartTimestampMs ≠ prop.newEpochTimestampMs

lemma validateProposal_unchanged_iff :
    (mgr.validateProposal crypto nowMs prop).1 = mgr ↔ ¬ mgr.Overwrites nowMs prop := by
  rw [validateProposal_manager]
  split
  · rename_i takes
    constructor
    · intro unchanged overwrites
      exact overwrites.2 (congrArg epochStartTimestampMs unchanged).symm
    · intro kept
      have same : mgr.epochStartTimestampMs = prop.newEpochTimestampMs := by
        by_contra ne
        exact kept ⟨takes, ne⟩
      rw [← same]
  · rename_i stays
    exact iff_of_true rfl fun overwrites => stays overwrites.1

/-- A refused proposal leaves the manager as it was, exactly when its check did not take over
the start of the epoch. -/
theorem refusal_unchanged_iff (crypto : EpochCrypto) (mgr : EpochChangeManager)
    (nowMs : Nat) (prop : EpochChangeProposal) :
    (∀ err, (mgr.processProposal crypto nowMs prop).2 = .error err →
      ((mgr.processProposal crypto nowMs prop).1 = mgr ↔ ¬ mgr.Overwrites nowMs prop)) ∧
    ∀ voter keyPair err,
      (mgr.voteOnProposal crypto nowMs prop voter keyPair).2 = .error err →
        ((mgr.voteOnProposal crypto nowMs prop voter keyPair).1 = mgr ↔
          ¬ mgr.Overwrites nowMs prop) := by
  constructor
  · intro err refused
    rw [processProposal_refused refused]
    exact validateProposal_unchanged_iff
  · intro voter keyPair err refused
    rw [voteOnProposal_refused refused]
    exact validateProposal_unchanged_iff

/-- A proposal with a forged signature is refused by both operations, and moves the start of
the epoch to the past. -/
theorem forged_proposal_moves_start :
    let mgr := new 0 Committee.ofFour 7
    let forged := { EpochChangeProposal.ofMember 1 100 0 with signatureBytes := [] }
    let processed := mgr.processProposal .transparent 600000 forged
    let voted := mgr.voteOnProposal .transparent 600000 forged 0 [0]
    processed.2 = .error .invalidProposalSignature ∧
      voted.2 = .error .invalidProposalSignature ∧
      mgr.epochStartTimestampMs = 7 ∧
      processed.1.epochStartTimestampMs = 0 ∧ voted.1.epochStartTimestampMs = 0 :=
  ⟨rfl, rfl, rfl, rfl, rfl⟩

theorem refusal_unchanged_iff_epochAhead :
    let mgr := new 0 Committee.ofFour 7
    let ahead := { EpochChangeProposal.ofMember 1 100 0 with newEpoch := 2 }
    ((mgr.processProposal .transparent 600000 ahead).1 = mgr ↔ ¬ mgr.Overwrites 600000 ahead) ∧
    ((mgr.voteOnProposal .transparent 600000 ahead 0 [0]).1 = mgr ↔
      ¬ mgr.Overwrites 600000 ahead) :=
  have both := refusal_unchanged_iff .transparent (new 0 Committee.ofFour 7) 600000
    { EpochChangeProposal.ofMember 1 100 0 with newEpoch := 2 }
  ⟨both.1 .epochMustIncrementByOne rfl, both.2 0 [0] .epochMustIncrementByOne rfl⟩

end Refusal

section Times

variable {crypto : EpochCrypto} {mgr : EpochChangeManager} {nowMs : Nat}
  {prop : EpochChangeProposal}

/-- The difference that the check computes, by 64-bit clocks. A start beyond the signed range
seems to lie in the past, unless the subtraction wraps around. -/
lemma timestampDifference_eq (clock : nowMs < 2 ^ 62)
    (word : prop.newEpochTimestampMs < 2 ^ 64) :
    timestampDifference nowMs prop =
      if prop.newEpochTimestampMs ≤ nowMs + 2 ^ 63 then
        (nowMs : Int) - prop.newEpochTimestampMs
      else (nowMs : Int) - prop.newEpochTimestampMs + 2 ^ 64 := by
  unfold timestampDifference toSigned
  rw [Int.bmod_sub_bmod, Int.sub_bmod_bmod, Int.bmod_def]
  split <;> split <;> lia

lemma accepted_start_iff (clock : nowMs < 2 ^ 62)
    (word : prop.newEpochTimestampMs < 2 ^ 64)
    (valid : (mgr.validateProposal crypto nowMs prop).2 = .ok ()) :
    prop.newEpochTimestampMs ≤ nowMs + maxFutureMs.toNat ↔ prop.newEpochTimestampMs < 2 ^ 63 := by
  have future := difference_of_validateProposal valid
  rw [timestampDifference_eq clock word] at future
  have day : maxFutureMs = 86400000 := rfl
  rw [day] at future ⊢
  split at future <;> lia

/-- Whether enough of the epoch has passed to propose the next one. There is no answer when
the subtraction underflows: with overflow checks it panics, without them it wraps around. -/
def shouldProposeTimeBased (mgr : EpochChangeManager) (timeBasedEnabled : Bool)
    (epochDurationSeconds : Nat) (nowMs : Nat) : Option Bool :=
  if !timeBasedEnabled then some false
  else if nowMs < mgr.epochStartTimestampMs then none
  else some (epochDurationSeconds ≤ (nowMs - mgr.epochStartTimestampMs) / 1000)

lemma shouldProposeTimeBased_isSome_iff {epochDurationSeconds : Nat} :
    (mgr.shouldProposeTimeBased true epochDurationSeconds nowMs).isSome = true ↔
      mgr.epochStartTimestampMs ≤ nowMs := by
  unfold shouldProposeTimeBased
  by_cases future : nowMs < mgr.epochStartTimestampMs
  · simp [future]
  · simp [future, Nat.le_of_not_lt future]

lemma validateProposal_start :
    (mgr.validateProposal crypto nowMs prop).1.epochStartTimestampMs =
      if mgr.TakesOver nowMs prop then prop.newEpochTimestampMs
      else mgr.epochStartTimestampMs := by
  rw [validateProposal_manager, apply_ite epochStartTimestampMs]

lemma processProposal_start :
    (mgr.processProposal crypto nowMs prop).1.epochStartTimestampMs =
      if hashProposal crypto prop ∉ mgr.pendingProposals ∧
          mgr.TakesOver nowMs prop then prop.newEpochTimestampMs
      else mgr.epochStartTimestampMs := by
  unfold processProposal
  split
  · rename_i pending
    rw [if_neg fun taken => taken.1 pending]
  · rename_i fresh
    simp only [fresh, not_false_eq_true, true_and]
    rw [← @validateProposal_start crypto]
    cases mgr.validateProposal crypto nowMs prop with
    | mk validated verdict => cases verdict <;> rfl

lemma voteOnProposal_start {voter : AuthorityIndex} {keyPair : ProtocolKeyPair} :
    (mgr.voteOnProposal crypto nowMs prop voter keyPair).1.epochStartTimestampMs =
      if mgr.TakesOver nowMs prop then prop.newEpochTimestampMs
      else mgr.epochStartTimestampMs := by
  rw [← @validateProposal_start crypto]
  unfold voteOnProposal
  cases mgr.validateProposal crypto nowMs prop with
  | mk validated verdict =>
    cases verdict with
    | error err => rfl
    | ok _ =>
      dsimp only
      split <;> rfl

end Times

end EpochChangeManager

structure TimedManager where
  manager : EpochChangeManager
  nowMs : Nat
  accepted : List EpochChangeProposal

/-- Time passes, or an operation is called. The manager is reset with the start of a proposal
that it accepted. -/
inductive TimedAction where
  | wait (elapsedMs : Nat)
  | processProposal (prop : EpochChangeProposal)
  | voteOnProposal (prop : EpochChangeProposal) (voter : AuthorityIndex)
      (keyPair : ProtocolKeyPair)
  | resetForNewEpoch (newEpoch : Epoch) (prop : EpochChangeProposal)

namespace TimedManager

open EpochChangeManager

def note {ε : Type} (timed : TimedManager) (prop : EpochChangeProposal)
    (res : EpochChangeManager × Except EpochChangeRefusal ε) : TimedManager :=
  { timed with
    manager := res.1
    accepted := if res.2.isOk then prop :: timed.accepted else timed.accepted }

variable (crypto : EpochCrypto) (timed : TimedManager)

def step : TimedAction → Option TimedManager
  | .wait elapsedMs => some { timed with nowMs := timed.nowMs + elapsedMs }
  | .processProposal prop =>
    some (timed.note prop (timed.manager.processProposal crypto timed.nowMs prop))
  | .voteOnProposal prop voter keyPair =>
    some (timed.note prop
      (timed.manager.voteOnProposal crypto timed.nowMs prop voter keyPair))
  | .resetForNewEpoch newEpoch prop =>
    if prop ∈ timed.accepted then
      some { timed with
        manager := timed.manager.resetForNewEpoch newEpoch prop.newEpochTimestampMs }
    else none

/-- The time since the start of the epoch does not underflow. -/
def Measurable : Prop :=
  ∀ epochDurationSeconds, (timed.manager.shouldProposeTimeBased true epochDurationSeconds
    timed.nowMs).isSome = true

lemma measurable_iff {timed : TimedManager} :
    timed.Measurable ↔ timed.manager.epochStartTimestampMs ≤ timed.nowMs := by
  simp only [Measurable, shouldProposeTimeBased_isSome_iff, forall_const]

/-- The action does not take over a start of the epoch that is still to come. -/
def Timely : TimedAction → Prop
  | .wait _ => True
  | .processProposal prop =>
    hashProposal crypto prop ∉ timed.manager.pendingProposals →
      timed.manager.TakesOver timed.nowMs prop → prop.newEpochTimestampMs ≤ timed.nowMs
  | .voteOnProposal prop _ _ =>
    timed.manager.TakesOver timed.nowMs prop → prop.newEpochTimestampMs ≤ timed.nowMs
  | .resetForNewEpoch _ prop => prop.newEpochTimestampMs ≤ timed.nowMs

lemma measurable_step_iff {crypto : EpochCrypto} {timed next : TimedManager}
    {act : TimedAction} (measurable : timed.Measurable)
    (stepped : timed.step crypto act = some next) :
    next.Measurable ↔ timed.Timely crypto act := by
  rw [measurable_iff] at measurable ⊢
  cases act with
  | wait elapsedMs =>
    obtain rfl := some.inj stepped
    exact iff_of_true (Nat.le_add_right_of_le measurable) trivial
  | processProposal prop =>
    obtain rfl := some.inj stepped
    change EpochChangeManager.epochStartTimestampMs (_ : EpochChangeManager × _).1 ≤ _ ↔ _
    rw [processProposal_start]
    split
    · rename_i taken
      exact ⟨fun past _ _ => past, fun timely => timely taken.1 taken.2⟩
    · rename_i kept
      exact iff_of_true measurable fun fresh takes => absurd ⟨fresh, takes⟩ kept
  | voteOnProposal prop voter keyPair =>
    obtain rfl := some.inj stepped
    change EpochChangeManager.epochStartTimestampMs (_ : EpochChangeManager × _).1 ≤ _ ↔ _
    rw [voteOnProposal_start]
    split
    · rename_i takes
      exact ⟨fun past _ => past, fun timely => timely takes⟩
    · rename_i kept
      exact iff_of_true measurable fun takes => absurd takes kept
  | resetForNewEpoch newEpoch prop =>
    unfold step at stepped
    dsimp only at stepped
    split at stepped
    · obtain rfl := some.inj stepped
      exact Iff.rfl
    · cases stepped

/-- Starts of accepted proposals are at most a day ahead exactly when they are in the signed
range. The time since the start of the epoch is measurable throughout a run exactly when no
action takes over a start that is still to come. -/
theorem epoch_timestamps_bounded_iff :
    (∀ (mgr : EpochChangeManager) (nowMs : Nat) (prop : EpochChangeProposal),
      nowMs < 2 ^ 62 → prop.newEpochTimestampMs < 2 ^ 64 →
      (mgr.validateProposal crypto nowMs prop).2 = .ok () →
        (prop.newEpochTimestampMs ≤ nowMs + maxFutureMs.toNat ↔
          prop.newEpochTimestampMs < 2 ^ 63)) ∧
    ∀ (start : TimedManager) (sched : List TimedAction) (finish : TimedManager),
      start.manager.epochStartTimestampMs ≤ start.nowMs →
      run (step crypto) start sched = some finish →
        (Throughout (step crypto) Measurable start sched ↔
          Heeds (step crypto) (Timely crypto) start sched) := by
  constructor
  · intro mgr nowMs prop clock word valid
    exact accepted_start_iff clock word valid
  · intro start sched finish past ran
    exact @throughout_iff_heeds _ _ _ _ _ _ _ (fun _ => True) _ (fun _ _ _ _ _ => trivial)
      (fun _ _ _ _ => measurable_step_iff) trivial (measurable_iff.mpr past) ran

def proposalStartingAt (newEpochTimestampMs : BlockTimestampMs) : EpochChangeProposal :=
  { EpochChangeProposal.ofMember 1 100 0 with
    newEpochTimestampMs
    signatureBytes := EpochCrypto.transparent.sign [1]
      (proposalMessage 1 newEpochTimestampMs 100 1) }

/-- The last 64-bit start is accepted, though it lies millions of years ahead. A start that
lies one hour ahead is accepted, and the epoch that starts there cannot be timed. -/
theorem accepted_starts_escape :
    let start : TimedManager := ⟨new 0 Committee.ofFour 0, 1700000000000, []⟩
    let distant := proposalStartingAt (2 ^ 64 - 1)
    let nearby := proposalStartingAt 1700003600000
    (start.manager.validateProposal .transparent start.nowMs distant).2 = .ok () ∧
      start.nowMs + maxFutureMs.toNat < distant.newEpochTimestampMs ∧
      ∃ finish, run (step .transparent) start
          [.processProposal nearby, .resetForNewEpoch 1 nearby] = some finish ∧
        finish.manager.shouldProposeTimeBased true 86400 finish.nowMs = none := by
  refine ⟨rfl, by decide, exists_reached ?_⟩
  decide +kernel

theorem epoch_timestamps_bounded_iff_pastStart :
    let start : TimedManager := ⟨new 0 Committee.ofFour 0, 1700000000000, []⟩
    let past := proposalStartingAt 1600000000000
    let sched : List TimedAction := [.processProposal past, .resetForNewEpoch 1 past]
    (past.newEpochTimestampMs ≤ start.nowMs + maxFutureMs.toNat ↔
      past.newEpochTimestampMs < 2 ^ 63) ∧
    ∃ finish, run (step .transparent) start sched = some finish ∧
      (Throughout (step .transparent) Measurable start sched ↔
        Heeds (step .transparent) (Timely .transparent) start sched) := by
  intro start past sched
  have both := epoch_timestamps_bounded_iff .transparent
  have word : past.newEpochTimestampMs < 2 ^ 64 := by
    change 1600000000000 < 2 ^ 64
    norm_num
  have valid : (start.manager.validateProposal .transparent start.nowMs past).2 = .ok () := by
    decide +kernel
  refine ⟨both.1 start.manager start.nowMs past (by decide) word valid, ?_⟩
  have ran : ∃ finish, run (step .transparent) start sched = some finish :=
    isSome_iff_exists.mp (by decide +kernel)
  obtain ⟨finish, ran⟩ := ran
  exact ⟨finish, ran, both.2 start sched finish (Nat.zero_le _) ran⟩

end TimedManager

end Mysticeti
