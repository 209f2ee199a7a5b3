import Mysticeti.EpochQuorum
import Mysticeti.Lib.Tally

/-!
# Counting the votes on a proposal

A manager stores one vote of each voter on a proposal, the last one that it accepted. The
verdict on the proposal is the outcome of the tally of those votes. It does not depend on the
order of arrival as long as no voter signs both an approval and a rejection, or those who do
cannot change the outcome; and an approval lasts until such a voter takes it back.
-/

namespace Mysticeti

open Option Lib.Machine Lib.Quorum Lib.Tally

namespace EpochChangeManager

section Verdicts

variable {crypto : EpochCrypto} {mgr : EpochChangeManager} {prop : EpochChangeProposal}

lemma VotesKeyed.checkProposalQuorum_eq (keyed : VotesKeyed mgr) :
    mgr.checkProposalQuorum crypto prop =
      outcome mgr.committee.stake mgr.committee.everyone
        mgr.committee.quorumThreshold
        (mgr.verdictOf (hashProposal crypto prop)) := by
  rw [EpochChangeManager.checkProposalQuorum_eq, keyed.voteStake_eq, keyed.voteStake_eq]
  rfl

lemma verdictOf_storeVote (vote : EpochChangeVote) (hash : Bytes) :
    (mgr.storeVote vote).verdictOf hash =
      if vote.proposalHash = hash then
        record EpochChangeVote.voterValue EpochChangeVote.approve
          (mgr.verdictOf hash) vote
      else mgr.verdictOf hash := by
  funext voter
  by_cases sameHash : vote.proposalHash = hash
  · subst sameHash
    rw [if_pos rfl, verdictOf, storeVote, AList.lookup_insert, getD_some, record]
    by_cases own : voter = vote.voterValue
    · rw [own, AList.lookup_insert, Function.update_self]
      rfl
    · rw [AList.lookup_insert_ne own, Function.update_of_ne own]
      rfl
  · rw [if_neg sameHash, verdictOf, storeVote, AList.lookup_insert_ne (Ne.symm sameHash)]
    rfl

end Verdicts

section Processing

variable {crypto : EpochCrypto} {mgr : EpochChangeManager} {prop : EpochChangeProposal}

def processEach (crypto : EpochCrypto) (mgr : EpochChangeManager)
    (votes : List EpochChangeVote) : EpochChangeManager :=
  votes.foldl (fun mgr vote => (mgr.processVote crypto vote).1) mgr

lemma validateVote_processVote (vote other : EpochChangeVote) :
    (mgr.processVote crypto vote).1.validateVote crypto other = mgr.validateVote crypto other := by
  rw [processVote_fst]
  split <;> rfl

lemma processEach_spec {hash : Bytes} {votes : List EpochChangeVote}
    (keyed : VotesKeyed mgr)
    (valid : ∀ vote ∈ votes, vote.proposalHash = hash ∧
      mgr.validateVote crypto vote = .ok ()) :
    VotesKeyed (mgr.processEach crypto votes) ∧
      (mgr.processEach crypto votes).committee = mgr.committee ∧
      (mgr.processEach crypto votes).verdictOf hash =
        recordAll EpochChangeVote.voterValue EpochChangeVote.approve
          (mgr.verdictOf hash) votes := by
  induction votes generalizing mgr with
  | nil => exact ⟨keyed, rfl, rfl⟩
  | cons vote rest ih =>
    obtain ⟨onProposal, acc⟩ := valid vote List.mem_cons_self
    obtain ⟨keyedAfter, comm, verdicts⟩ :=
      ih (keyed.processVote vote) fun other later => by
        rw [validateVote_processVote]
        exact valid other (List.mem_cons_of_mem _ later)
    refine ⟨keyedAfter, comm.trans (processVote_committee vote), verdicts.trans ?_⟩
    rw [processVote_fst, if_pos acc, verdictOf_storeVote, if_pos onProposal]
    rfl

/-- The vote is accepted, and takes back the approval by which its proposal has a quorum. -/
def TakesBack (crypto : EpochCrypto) (prop : EpochChangeProposal)
    (mgr : EpochChangeManager) (vote : EpochChangeVote) : Prop :=
  vote.proposalHash = hashProposal crypto prop ∧
    mgr.validateVote crypto vote = .ok () ∧
    Withdraws mgr.committee.stake mgr.committee.everyone
      mgr.committee.quorumThreshold EpochChangeVote.voterValue EpochChangeVote.approve
      (mgr.verdictOf (hashProposal crypto prop)) vote

lemma approved_processVote_iff (keyed : VotesKeyed mgr) {vote : EpochChangeVote}
    (approved : mgr.checkProposalQuorum crypto prop = some true) :
    (mgr.processVote crypto vote).1.checkProposalQuorum crypto prop = some true ↔
      ¬ mgr.TakesBack crypto prop vote := by
  rw [(keyed.processVote vote).checkProposalQuorum_eq, processVote_committee, processVote_fst]
  rw [keyed.checkProposalQuorum_eq] at approved
  unfold TakesBack
  by_cases acc : mgr.validateVote crypto vote = .ok ()
  · rw [if_pos acc, verdictOf_storeVote]
    by_cases onProposal : vote.proposalHash = hashProposal crypto prop
    · rw [if_pos onProposal, outcome_record_iff approved]
      simp only [onProposal, acc, true_and]
    · rw [if_neg onProposal]
      simp only [approved, onProposal, false_and, not_false_eq_true]
  · rw [if_neg acc]
    simp only [approved, acc, false_and, and_false, not_false_eq_true]

end Processing

end EpochChangeManager

open EpochChangeManager

namespace EpochRun

/-- The verdict on a proposal after the same valid votes is the same in every order and with
every repetition, exactly when it is settled. A verdict of approval lasts throughout further
votes, exactly when none of them takes it back. -/
theorem vote_count_order_iff (crypto : EpochCrypto) (epoch : Epoch) (comm : Committee)
    (epochStartTimestampMs : BlockTimestampMs) {sched : List EpochAction} {final : EpochRun}
    (ran : run (step crypto) (new epoch comm epochStartTimestampMs) sched = some final)
    (prop : EpochChangeProposal) :
    (∀ votes : List EpochChangeVote,
      (∀ vote ∈ votes, vote.proposalHash = hashProposal crypto prop ∧
        final.manager.validateVote crypto vote = .ok ()) →
      ((∀ order : List EpochChangeVote, (∀ vote, vote ∈ order ↔ vote ∈ votes) →
          (final.manager.processEach crypto order).checkProposalQuorum crypto prop =
            (final.manager.processEach crypto votes).checkProposalQuorum crypto prop) ↔
        Settled final.manager.committee.stake final.manager.committee.everyone
          final.manager.committee.quorumThreshold EpochChangeVote.voterValue
          EpochChangeVote.approve
          (final.manager.verdictOf (hashProposal crypto prop)) votes)) ∧
    ∀ votes : List EpochChangeVote,
      final.manager.checkProposalQuorum crypto prop = some true →
        (Throughout (fun mgr vote => some (processVote crypto mgr vote).1)
            (fun mgr => mgr.checkProposalQuorum crypto prop = some true)
            final.manager votes ↔
          Heeds (fun mgr vote => some (processVote crypto mgr vote).1)
            (fun mgr vote => ¬ mgr.TakesBack crypto prop vote)
            final.manager votes) := by
  have keyed := (filed_of_run ran).keyed
  constructor
  · intro votes valid
    rw [← outcome_same_iff]
    refine forall_congr' fun order => forall_congr' fun same => ?_
    obtain ⟨keyedVotes, committeeVotes, verdicts⟩ := processEach_spec keyed valid
    obtain ⟨keyedOrder, committeeOrder, orderVerdicts⟩ := @processEach_spec crypto
      final.manager (hashProposal crypto prop) order keyed
      fun vote has => valid vote ((same vote).mp has)
    rw [keyedOrder.checkProposalQuorum_eq, keyedVotes.checkProposalQuorum_eq, committeeOrder,
      committeeVotes, verdicts, orderVerdicts]
  · intro votes approved
    obtain ⟨finish, finished, _⟩ := @progress _ _ (fun mgr vote =>
        some (processVote crypto mgr vote).1) (fun _ _ => True) final.manager votes
      (fun _ => True) (fun _ _ _ _ => ⟨_, rfl, trivial⟩) trivial
      (heeds_of_forall fun _ _ => trivial)
    refine throughout_iff_heeds ?_ ?_ keyed approved finished
    · intro mgr vote next keyed taken
      obtain rfl := some.inj taken
      exact keyed.processVote vote
    · intro mgr vote next keyed approved taken
      obtain rfl := some.inj taken
      exact approved_processVote_iff keyed approved

def voteAgainst (prop : EpochChangeProposal) (voter : AuthorityIndex) : EpochChangeVote :=
  let hash := hashProposal .transparent prop
  { proposalHash := hash
    voterValue := voter
    approve := false
    signatureBytes := EpochCrypto.transparent.sign [UInt8.ofNat voter]
      (voteMessage hash false 1) }

/-- Member 2 of four signs an approval and a rejection. The verdict is an approval if the
approval arrives last, and it is taken back when the rejection arrives. -/
theorem conflicting_votes_change_verdict :
    let prop := EpochChangeProposal.ofMember 0 5 0
    let mgr := ((EpochChangeManager.new 0 .ofFour 0).processProposal .transparent 0 prop).1
    let approvals := [EpochChangeVote.ofMember prop 0, .ofMember prop 1]
    let both := [EpochChangeVote.ofMember prop 2, voteAgainst prop 2]
    (∀ vote ∈ approvals ++ both, vote.proposalHash = hashProposal .transparent prop ∧
      mgr.validateVote .transparent vote = .ok ()) ∧
    (mgr.processEach .transparent (approvals ++ both.reverse)).checkProposalQuorum
      .transparent prop = some true ∧
    (mgr.processEach .transparent (approvals ++ both)).checkProposalQuorum
      .transparent prop = none ∧
    (mgr.processEach .transparent (approvals ++ both.take 1)).checkProposalQuorum
      .transparent prop = some true := by
  decide +kernel

theorem vote_count_order_iff_approved :
    let prop := EpochChangeProposal.ofMember 0 5 0
    let votes := [EpochChangeVote.ofMember prop 3]
    ∃ final, run (step .transparent) (new 0 .ofFour 0)
        [.processProposal 0 prop, .processVote (.ofMember prop 0),
          .processVote (.ofMember prop 1), .processVote (.ofMember prop 2)] =
        some final ∧
      ((∀ order : List EpochChangeVote, (∀ vote, vote ∈ order ↔ vote ∈ votes) →
          (final.manager.processEach .transparent order).checkProposalQuorum .transparent
              prop =
            (final.manager.processEach .transparent votes).checkProposalQuorum .transparent
              prop) ↔
        Settled final.manager.committee.stake final.manager.committee.everyone
          final.manager.committee.quorumThreshold EpochChangeVote.voterValue
          EpochChangeVote.approve
          (final.manager.verdictOf (hashProposal .transparent prop)) votes) ∧
      (Throughout (fun mgr vote => some (processVote .transparent mgr vote).1)
          (fun mgr => mgr.checkProposalQuorum .transparent prop = some true)
          final.manager votes ↔
        Heeds (fun mgr vote => some (processVote .transparent mgr vote).1)
          (fun mgr vote => ¬ mgr.TakesBack .transparent prop vote)
          final.manager votes) := by
  intro prop votes
  obtain ⟨final, ran, valid, approved⟩ := @exists_reached _ _ (step .transparent)
    (new 0 .ofFour 0)
    [.processProposal 0 prop, .processVote (.ofMember prop 0),
      .processVote (.ofMember prop 1), .processVote (.ofMember prop 2)]
    (fun final => (∀ vote ∈ votes, vote.proposalHash = hashProposal .transparent prop ∧
        final.manager.validateVote .transparent vote = .ok ()) ∧
      final.manager.checkProposalQuorum .transparent prop = some true) _
    (by decide +kernel)
  have both := vote_count_order_iff .transparent 0 .ofFour 0 ran prop
  exact ⟨final, ran, both.1 votes valid, both.2 votes approved⟩

end EpochRun

end Mysticeti
