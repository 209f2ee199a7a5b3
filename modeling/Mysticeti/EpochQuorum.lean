import Mysticeti.EpochChange
import Mysticeti.Lib.Machine
import Mysticeti.Lib.Quorum

/-!
# Votes behind a ready proposal

A vote map is keyed by the voters, so that the stake it counts is the stake of distinct
authorities. Every stored vote was cast by this node or carried a signature that verified
under the key of its voter, and a stored proposal is at most two epochs ahead, which leaves
no room for the bypass of a node that is far behind. Hence a proposal that is ready for
transition has a quorum of genuine approvals.
-/

namespace Mysticeti

open List Option Lib.Machine Lib.Quorum

namespace EpochChangeManager

section Reading

variable {crypto : EpochCrypto} {mgr : EpochChangeManager} {prop : EpochChangeProposal}

/-- The vote is stored under a proposal hash and a voter. -/
def Stored (mgr : EpochChangeManager) (hash : Bytes) (voter : AuthorityIndex)
    (vote : EpochChangeVote) : Prop :=
  ∃ votes, mgr.proposalVotes.lookup hash = some votes ∧ votes.lookup voter = some vote

variable {vote : EpochChangeVote} {hash : Bytes} {voter : AuthorityIndex}

lemma stored_iff :
    mgr.Stored hash voter vote ↔
      ((mgr.proposalVotes.lookup hash).getD ∅).lookup voter = some vote := by
  unfold Stored
  cases mgr.proposalVotes.lookup hash with
  | none => simp
  | some votes => simp

lemma mem_votesFor :
    vote ∈ mgr.votesFor hash ↔ ∃ voter, mgr.Stored hash voter vote := by
  simp only [votesFor, stored_iff, List.mem_map, Sigma.exists, exists_eq_right]
  exact exists_congr fun voter => AList.mem_lookup_iff.symm

/-- Every stored vote stands under its proposal and its voter. -/
def VotesKeyed (mgr : EpochChangeManager) : Prop :=
  ∀ hash voter vote, mgr.Stored hash voter vote →
    vote.proposalHash = hash ∧ vote.voterValue = voter

lemma VotesKeyed.voters_nodup (keyed : VotesKeyed mgr) (hash : Bytes) :
    ((mgr.votesFor hash).map EpochChangeVote.voterValue).Nodup := by
  unfold votesFor
  cases got : mgr.proposalVotes.lookup hash with
  | none => simp
  | some votes =>
    have sameKeys : (votes.entries.map Sigma.snd).map EpochChangeVote.voterValue = votes.keys := by
      rw [List.map_map]
      refine map_congr_left fun entry mem => ?_
      exact (keyed hash entry.1 entry.2
        ⟨votes, got, AList.mem_lookup_iff.mpr mem⟩).2
    rw [getD_some, sameKeys]
    exact votes.keys_nodup

lemma stake_of_invalid {comm : Committee} {idx : AuthorityIndex}
    (outside : idx ∉ comm.everyone) : comm.stake idx = 0 := by
  rw [Committee.everyone, Finset.mem_range, Nat.not_lt] at outside
  simp [Committee.stake, getElem?_eq_none outside]

/-- What the stored vote of a voter says. -/
def verdictOf (mgr : EpochChangeManager) (hash : Bytes) (voter : AuthorityIndex) :
    Option Bool :=
  (((mgr.proposalVotes.lookup hash).getD ∅).lookup voter).map EpochChangeVote.approve

lemma verdictOf_eq_some_iff {side : Bool} :
    mgr.verdictOf hash voter = some side ↔
      ∃ vote, mgr.Stored hash voter vote ∧ vote.approve = side := by
  rw [verdictOf, map_eq_some_iff]
  exact exists_congr fun vote => and_congr_left fun _ => stored_iff.symm

lemma VotesKeyed.voteStake_eq (keyed : VotesKeyed mgr) (hash : Bytes)
    (side : Bool) : mgr.voteStake (mgr.votesFor hash) side =
      weigh mgr.committee.stake (mgr.committee.everyone.filter fun voter =>
        mgr.verdictOf hash voter = some side) := by
  let cast := (mgr.votesFor hash).filter fun vote => vote.approve == side
  have nodup : (cast.map EpochChangeVote.voterValue).Nodup :=
    (keyed.voters_nodup hash).sublist (filter_sublist.map _)
  have here : mgr.voteStake (mgr.votesFor hash) side =
      weigh mgr.committee.stake (cast.map EpochChangeVote.voterValue).toFinset := by
    rw [weigh, sum_toFinset _ nodup, List.map_map]
    rfl
  have member_iff : ∀ voter, voter ∈ (cast.map EpochChangeVote.voterValue).toFinset ↔
      mgr.verdictOf hash voter = some side := by
    intro voter
    rw [List.mem_toFinset, List.mem_map, verdictOf_eq_some_iff]
    constructor
    · rintro ⟨vote, kept, rfl⟩
      obtain ⟨has, agrees⟩ := mem_filter.mp kept
      obtain ⟨key, stored⟩ := mem_votesFor.mp has
      have same := (keyed _ _ _ stored).2
      exact ⟨vote, same ▸ stored, by simpa using agrees⟩
    · rintro ⟨vote, stored, agrees⟩
      refine ⟨vote, mem_filter.mpr ⟨mem_votesFor.mpr ⟨voter, stored⟩, ?_⟩, (keyed _ _ _ stored).2⟩
      simp [agrees]
  rw [here]
  -- a voter outside the committee has no stake
  refine (Finset.sum_subset (fun voter mem => ?_) fun voter voted outside => ?_).symm
  · exact (member_iff voter).mpr (Finset.mem_filter.mp mem).2
  · refine stake_of_invalid fun inside => outside ?_
    exact Finset.mem_filter.mpr ⟨inside, (member_iff voter).mp voted⟩

lemma checkProposalQuorum_eq (mgr : EpochChangeManager) :
    mgr.checkProposalQuorum crypto prop =
      if mgr.committee.quorumThreshold ≤
        mgr.voteStake (mgr.votesFor (hashProposal crypto prop)) true then some true
      else if mgr.committee.quorumThreshold ≤
        mgr.voteStake (mgr.votesFor (hashProposal crypto prop)) false then some false
      else none := by
  unfold checkProposalQuorum
  split
  · rename_i absent
    have none : mgr.votesFor (hashProposal crypto prop) = [] := by simp [votesFor, absent]
    have pos := mgr.committee.quorumThreshold_pos
    simp [none, EpochChangeManager.voteStake, Nat.ne_of_gt pos]
  · rfl

lemma approvers_of_quorum (keyed : VotesKeyed mgr)
    (quorum : mgr.checkProposalQuorum crypto prop = some true) :
    ∃ approvers ⊆ mgr.committee.everyone,
      mgr.committee.quorumThreshold ≤ weigh mgr.committee.stake approvers ∧
      ∀ voter ∈ approvers, ∃ vote ∈ mgr.votesFor (hashProposal crypto prop),
        vote.voterValue = voter ∧ vote.approve = true := by
  have final : mgr.committee.quorumThreshold ≤
      mgr.voteStake (mgr.votesFor (hashProposal crypto prop)) true := by
    rw [checkProposalQuorum_eq] at quorum
    split at quorum
    · assumption
    · split at quorum <;> cases quorum
  rw [keyed.voteStake_eq] at final
  refine ⟨_, Finset.filter_subset _ _, final, fun voter approver => ?_⟩
  obtain ⟨vote, stored, approves⟩ := verdictOf_eq_some_iff.mp (Finset.mem_filter.mp approver).2
  exact ⟨vote, mem_votesFor.mpr ⟨voter, stored⟩, (keyed _ _ _ stored).2, approves⟩

lemma quorum_of_shouldTransition {now : Nat} {current : CommitIndex}
    (near : prop.newEpoch ≤ mgr.currentEpoch + 2)
    (ready : mgr.shouldTransition crypto .unset now prop current =
      true) : mgr.checkProposalQuorum crypto prop = some true := by
  have noCatchup : ¬ maxEpochLagForQuorum < prop.newEpoch - mgr.currentEpoch := by
    unfold maxEpochLagForQuorum
    lia
  simp only [shouldTransition, Bypass.unset, Bool.false_eq_true, if_false,
    decide_eq_false noCatchup] at ready
  cases verdict : mgr.checkProposalQuorum crypto prop with
  | none => simp [verdict] at ready
  | some approved =>
    cases approved with
    | true => rfl
    | false => simp [verdict] at ready

lemma getTransitionReadyProposal_spec {bypass : Bypass} {now : Nat}
    {current : CommitIndex}
    (ret : mgr.getTransitionReadyProposal crypto bypass now current =
      some prop) : prop ∈ mgr.allPendingProposals ∧
      mgr.shouldTransition crypto bypass now prop current = true := by
  unfold getTransitionReadyProposal at ret
  dsimp only at ret
  split at ret
  · rename_i chosen got
    cases ret
    have spec := find?_some got
    rw [Bool.and_eq_true] at spec
    exact ⟨mem_of_find?_eq_some got, spec.2⟩
  · have spec := find?_some ret
    exact ⟨mem_of_find?_eq_some ret, spec⟩

end Reading

section Keeping

variable {crypto : EpochCrypto} {mgr : EpochChangeManager}
  {justified : EpochChangeVote → Prop} {prop : EpochChangeProposal}

/-- What the maps of a manager hold: proposals under their hash and at most two epochs
ahead, votes under their proposal and voter and with a justification. -/
structure Sound (crypto : EpochCrypto) (justified : EpochChangeVote → Prop)
    (mgr : EpochChangeManager) : Prop where
  pending : ∀ hash prop,
    mgr.pendingProposals.lookup hash = some prop →
      hash = hashProposal crypto prop ∧ prop.newEpoch ≤ mgr.currentEpoch + 2
  keyed : VotesKeyed mgr
  justified : ∀ hash voter vote, mgr.Stored hash voter vote → justified vote

lemma sound_of_empty (noProposals : mgr.pendingProposals = ∅)
    (noVotes : mgr.proposalVotes = ∅) : Sound crypto justified mgr where
  pending := by simp [noProposals]
  keyed := by simp [VotesKeyed, Stored, noVotes]
  justified := by simp [Stored, noVotes]

lemma Sound.storeProposal (sound : Sound crypto justified mgr)
    (near : prop.newEpoch ≤ mgr.currentEpoch + 2) :
    Sound crypto justified (mgr.storeProposal crypto prop) where
  pending := by
    intro hash got stored
    by_cases same : hash = hashProposal crypto prop
    · subst same
      rw [EpochChangeManager.storeProposal, AList.lookup_insert] at stored
      cases stored
      exact ⟨rfl, near⟩
    · rw [EpochChangeManager.storeProposal, AList.lookup_insert_ne same] at stored
      exact sound.pending hash got stored
  keyed := sound.keyed
  justified := sound.justified

lemma stored_storeVote {hash : Bytes} {voter : AuthorityIndex} {got : EpochChangeVote}
    (stored : (mgr.storeVote vote).Stored hash voter got) :
    (hash = vote.proposalHash ∧ voter = vote.voterValue ∧ got = vote) ∨
      mgr.Stored hash voter got := by
  obtain ⟨votes, underHash, underVoter⟩ := stored
  by_cases sameHash : hash = vote.proposalHash
  · subst sameHash
    rw [storeVote, AList.lookup_insert, some.injEq] at underHash
    subst underHash
    by_cases sameVoter : voter = vote.voterValue
    · subst sameVoter
      rw [AList.lookup_insert, some.injEq] at underVoter
      exact .inl ⟨rfl, rfl, underVoter.symm⟩
    · rw [AList.lookup_insert_ne sameVoter] at underVoter
      cases prev : mgr.proposalVotes.lookup vote.proposalHash with
      | none => simp [prev] at underVoter
      | some votes =>
        rw [prev, getD_some] at underVoter
        exact .inr ⟨votes, prev, underVoter⟩
  · rw [storeVote, AList.lookup_insert_ne sameHash] at underHash
    exact .inr ⟨votes, underHash, underVoter⟩

lemma VotesKeyed.storeVote (keyed : VotesKeyed mgr) (vote : EpochChangeVote) :
    VotesKeyed (mgr.storeVote vote) := by
  intro hash voter got stored
  obtain ⟨rfl, rfl, rfl⟩ | prev := stored_storeVote stored
  · exact ⟨rfl, rfl⟩
  · exact keyed hash voter got prev

lemma Sound.storeVote (sound : Sound crypto justified mgr) (just : justified vote) :
    Sound crypto justified (mgr.storeVote vote) where
  pending := sound.pending
  keyed := sound.keyed.storeVote vote
  justified := by
    intro hash voter got stored
    obtain ⟨_, _, rfl⟩ | prev := stored_storeVote stored
    · exact just
    · exact sound.justified hash voter got prev

lemma Sound.mono (sound : Sound crypto justified mgr) {weaker : EpochChangeVote → Prop}
    (implies : ∀ vote, justified vote → weaker vote) : Sound crypto weaker mgr where
  pending := sound.pending
  keyed := sound.keyed
  justified := fun hash voter vote stored =>
    implies vote (sound.justified hash voter vote stored)

lemma Sound.sync (sound : Sound crypto justified mgr) (start : BlockTimestampMs) :
    Sound crypto justified { mgr with epochStartTimestampMs := start } :=
  ⟨sound.pending, sound.keyed, sound.justified⟩

lemma validateProposal_spec {nowMs : Nat} :
    (∃ start, (mgr.validateProposal crypto nowMs prop).1 =
      { mgr with epochStartTimestampMs := start }) ∧
    ((mgr.validateProposal crypto nowMs prop).2 = .ok () →
      prop.newEpoch = mgr.currentEpoch + 1) := by
  by_cases next : prop.newEpoch = mgr.currentEpoch + 1
  · refine ⟨?_, fun _ => next⟩
    simp only [validateProposal, next, ne_eq, not_true_eq_false, if_false]
    generalize Int.bmod _ _ = difference
    by_cases past : difference > maxPastMsNormal
    · exact ⟨prop.newEpochTimestampMs, by simp only [if_pos past, apply_ite Prod.fst, ite_self]⟩
    · refine ⟨mgr.epochStartTimestampMs, ?_⟩
      simp only [if_neg past, apply_ite Prod.fst, ite_self]
  · simp only [validateProposal, ne_eq, next, not_false_eq_true, if_true, reduceCtorEq,
      false_implies, and_true]
    exact ⟨mgr.epochStartTimestampMs, rfl⟩

/-- What receiving a proposal does: the start of the epoch may change, and a proposal for the
next epoch may be stored. -/
lemma processProposal_spec {nowMs : Nat} :
    ∃ start, let validated := { mgr with epochStartTimestampMs := start }
      (mgr.processProposal crypto nowMs prop).1 = validated ∨
      ((mgr.processProposal crypto nowMs prop).1 = validated.storeProposal crypto prop ∧
        prop.newEpoch = mgr.currentEpoch + 1) := by
  unfold EpochChangeManager.processProposal
  split
  · exact ⟨mgr.epochStartTimestampMs, .inl rfl⟩
  · obtain ⟨⟨start, synced⟩, next⟩ := @validateProposal_spec crypto mgr prop nowMs
    refine ⟨start, ?_⟩
    dsimp only
    split
    · rename_i validated err res
      rw [res] at synced
      exact .inl synced
    · rename_i validated res
      rw [res] at synced next
      exact .inr ⟨congrArg (EpochChangeManager.storeProposal crypto · prop) synced, next rfl⟩

lemma processProposal_committee (nowMs : Nat) (prop : EpochChangeProposal) :
    (mgr.processProposal crypto nowMs prop).1.committee = mgr.committee := by
  obtain ⟨start, same | ⟨stored, _⟩⟩ := @processProposal_spec crypto mgr prop nowMs
  · rw [same]
  · rw [stored]
    rfl

lemma Sound.processProposal (sound : Sound crypto justified mgr) (nowMs : Nat)
    (prop : EpochChangeProposal) :
    Sound crypto justified (mgr.processProposal crypto nowMs prop).1 := by
  obtain ⟨start, same | ⟨stored, next⟩⟩ := @processProposal_spec crypto mgr prop nowMs
  · rw [same]
    exact sound.sync start
  · rw [stored]
    have near : prop.newEpoch ≤ mgr.currentEpoch + 2 := by
      rw [next]
      exact Nat.le_succ _
    exact (sound.sync start).storeProposal near

/-- What casting a vote does: it is refused, or the vote of the voter on the hash of the
proposal is signed and stored. -/
lemma voteOnProposal_spec {nowMs : Nat} {keyPair : ProtocolKeyPair} :
    ∃ start, let validated := { mgr with epochStartTimestampMs := start }
      (∃ err, mgr.voteOnProposal crypto nowMs prop voter keyPair =
        (validated, .error err)) ∨
      ∃ vote, mgr.voteOnProposal crypto nowMs prop voter keyPair =
          (validated.storeVote vote, .ok vote) ∧
        vote.proposalHash = hashProposal crypto prop ∧ vote.voterValue = voter ∧
        vote.approve = true ∧ ∃ mem, mgr.committee.authorities[voter]? = some mem ∧
          vote.signatureBytes = crypto.sign keyPair
            (voteMessage vote.proposalHash vote.approve mem.stake) := by
  obtain ⟨⟨start, synced⟩, _⟩ := @validateProposal_spec crypto mgr prop nowMs
  refine ⟨start, ?_⟩
  dsimp only
  unfold voteOnProposal
  split
  · rename_i validated err res
    rw [res] at synced
    exact .inl ⟨err, by rw [← synced]⟩
  · rename_i validated res
    rw [res] at synced
    dsimp only at synced
    subst synced
    split
    · exact .inl ⟨_, rfl⟩
    · rename_i mem got
      exact .inr ⟨_, rfl, rfl, rfl, rfl, mem, got, rfl⟩

/-- The signature on a vote verifies under the key of its voter, a member. -/
def Verified (crypto : EpochCrypto) (comm : Committee) (vote : EpochChangeVote) : Prop :=
  ∃ mem, comm.authorities[vote.voterValue]? = some mem ∧
    crypto.verify mem.protocolKey (voteMessage vote.proposalHash vote.approve mem.stake)
      vote.signatureBytes = true

lemma processVote_spec :
    (∃ err, mgr.processVote crypto vote = (mgr, .error err)) ∨
      (mgr.processVote crypto vote = (mgr.storeVote vote, .ok ()) ∧
        vote.proposalHash ∈ mgr.pendingProposals ∧
        Verified crypto mgr.committee vote) := by
  unfold processVote validateVote
  split
  · rename_i err res
    exact .inl ⟨err, rfl⟩
  · rename_i res
    split at res
    · rename_i pending
      split at res
      · cases res
      · rename_i mem got
        split at res
        · rename_i verifies
          exact .inr ⟨rfl, pending, mem, got, verifies⟩
        · cases res
    · cases res

lemma processVote_committee (vote : EpochChangeVote) :
    (mgr.processVote crypto vote).1.committee = mgr.committee := by
  obtain ⟨err, refused⟩ | ⟨acc, _⟩ := @processVote_spec crypto mgr vote
  · rw [refused]
  · rw [acc]
    rfl

lemma processVote_fst (vote : EpochChangeVote) : (mgr.processVote crypto vote).1 =
    if mgr.validateVote crypto vote = .ok () then mgr.storeVote vote else mgr := by
  unfold processVote
  cases mgr.validateVote crypto vote with
  | error err => rfl
  | ok _ => rfl

lemma VotesKeyed.processVote (keyed : VotesKeyed mgr) (vote : EpochChangeVote) :
    VotesKeyed (mgr.processVote crypto vote).1 := by
  rw [processVote_fst]
  split
  · exact keyed.storeVote vote
  · exact keyed

lemma Sound.processVote (sound : Sound crypto justified mgr)
    (just : vote.proposalHash ∈ mgr.pendingProposals →
      Verified crypto mgr.committee vote → justified vote) :
    Sound crypto justified (mgr.processVote crypto vote).1 := by
  obtain ⟨err, refused⟩ | ⟨acc, pending, verified⟩ := @processVote_spec crypto mgr vote
  · rw [refused]
    exact sound
  · rw [acc]
    exact sound.storeVote (just pending verified)

/-- Proposals stand under their hash, and votes under their proposal and voter. -/
structure Filed (crypto : EpochCrypto) (mgr : EpochChangeManager) : Prop where
  pending : ∀ hash prop,
    mgr.pendingProposals.lookup hash = some prop → hash = hashProposal crypto prop
  keyed : VotesKeyed mgr

lemma filed_of_empty (noProposals : mgr.pendingProposals = ∅)
    (noVotes : mgr.proposalVotes = ∅) : Filed crypto mgr where
  pending := by simp [noProposals]
  keyed := by simp [VotesKeyed, Stored, noVotes]

variable (filed : Filed crypto mgr)

include filed

lemma Filed.storeProposal (prop : EpochChangeProposal) :
    Filed crypto (mgr.storeProposal crypto prop) where
  pending := by
    intro hash got stored
    by_cases same : hash = hashProposal crypto prop
    · rw [same, EpochChangeManager.storeProposal, AList.lookup_insert] at stored
      rw [same, some.inj stored]
    · rw [EpochChangeManager.storeProposal, AList.lookup_insert_ne same] at stored
      exact filed.pending hash got stored
  keyed := filed.keyed

lemma Filed.storeVote (vote : EpochChangeVote) : Filed crypto (mgr.storeVote vote) :=
  ⟨filed.pending, filed.keyed.storeVote vote⟩

lemma Filed.sync (start : BlockTimestampMs) :
    Filed crypto { mgr with epochStartTimestampMs := start } :=
  ⟨filed.pending, filed.keyed⟩

lemma Filed.processProposal (nowMs : Nat) (prop : EpochChangeProposal) :
    Filed crypto (mgr.processProposal crypto nowMs prop).1 := by
  obtain ⟨start, same | ⟨stored, _⟩⟩ := @processProposal_spec crypto mgr prop nowMs
  · rw [same]
    exact filed.sync start
  · rw [stored]
    exact (filed.sync start).storeProposal prop

lemma Filed.voteOnProposal (nowMs : Nat) (prop : EpochChangeProposal)
    (voter : AuthorityIndex) (keyPair : ProtocolKeyPair) :
    Filed crypto (mgr.voteOnProposal crypto nowMs prop voter keyPair).1 := by
  obtain ⟨start, ⟨err, refused⟩ | ⟨vote, casts, _⟩⟩ :=
    @voteOnProposal_spec crypto mgr prop voter nowMs keyPair
  · rw [refused]
    exact filed.sync start
  · rw [casts]
    exact (filed.sync start).storeVote vote

lemma Filed.processVote (vote : EpochChangeVote) :
    Filed crypto (mgr.processVote crypto vote).1 := by
  rw [processVote_fst]
  split
  · exact filed.storeVote vote
  · exact filed

end Keeping

end EpochChangeManager

open EpochChangeManager

/-- A manager with the votes this node cast. -/
structure EpochRun where
  manager : EpochChangeManager
  cast : List EpochChangeVote

/-- One call of an operation of the manager. -/
inductive EpochAction where
  | processProposal (nowMs : Nat) (prop : EpochChangeProposal)
  | proposeEpochChange (now : Nat) (newEpochTimestampMs : BlockTimestampMs)
      (proposalCommitIndex : CommitIndex) (proposer : AuthorityIndex) (keyPair : ProtocolKeyPair)
  | proposeEpochChangeToTargetEpoch (now : Nat) (targetEpoch : Epoch)
      (newEpochTimestampMs : BlockTimestampMs) (proposalCommitIndex : CommitIndex)
      (proposer : AuthorityIndex) (keyPair : ProtocolKeyPair)
  | voteOnProposal (nowMs : Nat) (prop : EpochChangeProposal) (voter : AuthorityIndex)
      (keyPair : ProtocolKeyPair)
  | processVote (vote : EpochChangeVote)
  | resetForNewEpoch (newEpoch : Epoch) (newEpochStartTimestampMs : BlockTimestampMs)

namespace EpochRun

def new (epoch : Epoch) (comm : Committee) (epochStartTimestampMs : BlockTimestampMs) :
    EpochRun :=
  { manager := .new epoch comm epochStartTimestampMs, cast := [] }

def survive {α : Type} : EpochChangeManager × Except EpochChangeRefusal α →
    Option EpochChangeManager
  | (_, .error (.authorityOutOfBounds _)) => none
  | (mgr, _) => some mgr

def ballot : Except EpochChangeRefusal EpochChangeVote → List EpochChangeVote
  | .ok vote => [vote]
  | .error _ => []

def step (crypto : EpochCrypto) (st : EpochRun) : EpochAction → Option EpochRun
  | .processProposal nowMs prop =>
    (survive (st.manager.processProposal crypto nowMs prop)).map fun mgr =>
      { st with manager := mgr }
  | .proposeEpochChange now newEpochTimestampMs proposalCommitIndex proposer keyPair =>
    (survive (st.manager.proposeEpochChange crypto now newEpochTimestampMs
      proposalCommitIndex proposer keyPair)).map fun mgr => { st with manager := mgr }
  | .proposeEpochChangeToTargetEpoch now targetEpoch newEpochTimestampMs
      proposalCommitIndex proposer keyPair =>
    (survive (st.manager.proposeEpochChangeToTargetEpoch crypto now targetEpoch
      newEpochTimestampMs proposalCommitIndex proposer keyPair)).map fun mgr =>
        { st with manager := mgr }
  | .voteOnProposal nowMs prop voter keyPair =>
    let res := st.manager.voteOnProposal crypto nowMs prop voter keyPair
    (survive res).map fun mgr => { manager := mgr, cast := st.cast ++ ballot res.2 }
  | .processVote vote =>
    (survive (st.manager.processVote crypto vote)).map fun mgr => { st with manager := mgr }
  | .resetForNewEpoch newEpoch newEpochStartTimestampMs =>
    some { st with
      manager := st.manager.resetForNewEpoch newEpoch newEpochStartTimestampMs }

/-- A proposal for a chosen epoch is at most two epochs ahead. -/
def TargetsNear (st : EpochRun) : EpochAction → Prop
  | .proposeEpochChangeToTargetEpoch _ targetEpoch _ _ _ _ =>
    targetEpoch ≤ st.manager.currentEpoch + 2
  | _ => True

instance (st : EpochRun) (act : EpochAction) : Decidable (TargetsNear st act) := by
  unfold TargetsNear
  split <;> infer_instance

/-- What holds in every state: the committee is the first one, and each stored vote was cast
by this node or verified. -/
structure Backed (crypto : EpochCrypto) (comm : Committee) (st : EpochRun) : Prop where
  sameCommittee : st.manager.committee = comm
  sound : Sound crypto (fun vote => vote ∈ st.cast ∨ Verified crypto comm vote)
    st.manager

section Steps

variable {crypto : EpochCrypto} {comm : Committee} {st next : EpochRun}

lemma eq_of_survive {α : Type} {res : EpochChangeManager × Except EpochChangeRefusal α}
    {build : EpochChangeManager → EpochRun} (survived : (survive res).map build = some next) :
    next = build res.1 := by
  obtain ⟨mgr, survived, rfl⟩ := map_eq_some_iff.mp survived
  unfold survive at survived
  split at survived
  · cases survived
  · rw [some.inj survived]

/-- What an operation does: the start of the epoch may move, and a proposal or a vote may be
stored; or all of them are dropped for a new epoch. -/
inductive Update (crypto : EpochCrypto) (near : Prop) (st : EpochRun) : EpochRun → Prop where
  | sync (start : BlockTimestampMs) : Update crypto near st
      { st with manager := { st.manager with epochStartTimestampMs := start } }
  | store (start : BlockTimestampMs) (prop : EpochChangeProposal)
      (inReach : near → prop.newEpoch ≤ st.manager.currentEpoch + 2) :
      Update crypto near st { st with
        manager := storeProposal crypto { st.manager with epochStartTimestampMs := start }
          prop }
  | receive (vote : EpochChangeVote) (verified : Verified crypto st.manager.committee vote) :
      Update crypto near st { st with manager := st.manager.storeVote vote }
  | cast (start : BlockTimestampMs) (vote : EpochChangeVote) : Update crypto near st
      { manager := storeVote { st.manager with epochStartTimestampMs := start } vote
        cast := st.cast ++ [vote] }
  | reset (newEpoch : Epoch) (start : BlockTimestampMs) : Update crypto near st
      { st with manager := st.manager.resetForNewEpoch newEpoch start }

lemma update_of_step {act : EpochAction} (taken : st.step crypto act = some next) :
    Update crypto (TargetsNear st act) st next := by
  have creates : ∀ now newEpoch newEpochTimestampMs proposalCommitIndex proposer keyPair,
      (TargetsNear st act → newEpoch ≤ st.manager.currentEpoch + 2) →
      Update crypto (TargetsNear st act) st { st with
        manager := (st.manager.createProposal crypto now newEpoch newEpochTimestampMs
          proposalCommitIndex proposer keyPair).1 } := by
    intro now newEpoch newEpochTimestampMs proposalCommitIndex proposer keyPair near
    unfold createProposal
    dsimp only
    split
    · exact .sync st.manager.epochStartTimestampMs
    · exact .store st.manager.epochStartTimestampMs _ near
  cases act with
  | processProposal nowMs prop =>
    obtain rfl := eq_of_survive taken
    obtain ⟨start, same | ⟨stored, next⟩⟩ := @processProposal_spec crypto st.manager prop nowMs
    · rw [same]
      exact .sync start
    · rw [stored]
      exact .store start prop fun _ => next.le.trans (Nat.le_succ _)
  | proposeEpochChange now newEpochTimestampMs proposalCommitIndex proposer keyPair =>
    obtain rfl := eq_of_survive taken
    exact creates now _ newEpochTimestampMs proposalCommitIndex proposer keyPair
      fun _ => Nat.le_succ _
  | proposeEpochChangeToTargetEpoch now targetEpoch newEpochTimestampMs
      proposalCommitIndex proposer keyPair =>
    obtain rfl := eq_of_survive taken
    unfold EpochChangeManager.proposeEpochChangeToTargetEpoch
    split
    · exact .sync st.manager.epochStartTimestampMs
    · exact creates now targetEpoch newEpochTimestampMs proposalCommitIndex proposer
        keyPair id
  | voteOnProposal nowMs prop voter keyPair =>
    obtain rfl := eq_of_survive taken
    obtain ⟨start, ⟨err, refused⟩ | ⟨vote, casts, _⟩⟩ :=
      @voteOnProposal_spec crypto st.manager prop voter nowMs keyPair
    · rw [refused, ballot, append_nil]
      exact .sync start
    · rw [casts]
      exact .cast start vote
  | processVote vote =>
    obtain rfl := eq_of_survive taken
    obtain ⟨err, refused⟩ | ⟨acc, -, verified⟩ := @processVote_spec crypto st.manager vote
    · rw [refused]
      exact .sync st.manager.epochStartTimestampMs
    · rw [acc]
      exact .receive vote verified
  | resetForNewEpoch newEpoch newEpochStartTimestampMs =>
    cases taken
    exact .reset newEpoch newEpochStartTimestampMs

lemma Backed.step (backed : Backed crypto comm st) {act : EpochAction}
    (near : TargetsNear st act) (taken : st.step crypto act = some next) :
    Backed crypto comm next := by
  cases update_of_step taken with
  | sync start => exact ⟨backed.sameCommittee, backed.sound.sync start⟩
  | store start prop inReach =>
    exact ⟨backed.sameCommittee, (backed.sound.sync start).storeProposal (inReach near)⟩
  | receive vote verified =>
    exact ⟨backed.sameCommittee, backed.sound.storeVote (.inr (backed.sameCommittee ▸ verified))⟩
  | cast start vote =>
    refine ⟨backed.sameCommittee, Sound.storeVote ?_ (.inl (by simp))⟩
    exact (backed.sound.sync start).mono fun other => Or.imp_left (mem_append_left _)
  | reset newEpoch start => exact ⟨backed.sameCommittee, sound_of_empty rfl rfl⟩

lemma filed_step {act : EpochAction} (filed : Filed crypto st.manager)
    (taken : st.step crypto act = some next) : Filed crypto next.manager := by
  cases update_of_step taken with
  | sync start => exact filed.sync start
  | store start prop inReach => exact (filed.sync start).storeProposal prop
  | receive vote verified => exact filed.storeVote vote
  | cast start vote => exact (filed.sync start).storeVote vote
  | reset newEpoch start => exact filed_of_empty rfl rfl

lemma filed_of_run {epoch : Epoch} {epochStartTimestampMs : BlockTimestampMs}
    {sched : List EpochAction} {final : EpochRun}
    (ran : run (step crypto) (new epoch comm epochStartTimestampMs) sched =
      some final) : Filed crypto final.manager := by
  refine @invariant _ _ (step crypto) (fun _ _ => True) _ _ _
    (fun st => Filed crypto st.manager) ?_ (filed_of_empty rfl rfl)
    (heeds_of_forall fun _ _ => trivial) ran
  intro st act next filed _ taken
  exact filed_step filed taken

end Steps

/-- A proposal that is ready for transition was approved by a quorum of members, each by a
vote that this node cast or whose signature verified under the key of the member. -/
theorem ready_proposal_has_quorum (crypto : EpochCrypto) (epoch : Epoch) (comm : Committee)
    (epochStartTimestampMs : BlockTimestampMs) {sched : List EpochAction} {final : EpochRun}
    (near : Heeds (step crypto) TargetsNear (new epoch comm epochStartTimestampMs) sched)
    (ran : run (step crypto) (new epoch comm epochStartTimestampMs) sched = some final)
    {now : Nat} {current : CommitIndex} {prop : EpochChangeProposal}
    (ret : final.manager.getTransitionReadyProposal crypto .unset now
      current = some prop) :
    ∃ approvers ⊆ comm.everyone,
      comm.quorumThreshold ≤ weigh comm.stake approvers ∧
      ∀ voter ∈ approvers, ∃ vote ∈ final.manager.votesFor (hashProposal crypto prop),
        vote.voterValue = voter ∧ vote.proposalHash = hashProposal crypto prop ∧
        vote.approve = true ∧ (vote ∈ final.cast ∨ Verified crypto comm vote) := by
  have backed : Backed crypto comm final :=
    invariant (fun _ _ _ holds near taken => holds.step near taken)
      ⟨rfl, sound_of_empty rfl rfl⟩ near ran
  obtain ⟨pending, ready⟩ := getTransitionReadyProposal_spec ret
  obtain ⟨entry, mem, rfl⟩ := List.mem_map.mp pending
  have close := (backed.sound.pending entry.1 entry.2 (AList.mem_lookup_iff.mpr mem)).2
  obtain ⟨approvers, members, reaches, approve⟩ :=
    approvers_of_quorum backed.sound.keyed (quorum_of_shouldTransition close ready)
  rw [backed.sameCommittee] at members reaches
  refine ⟨approvers, members, reaches, fun voter approver => ?_⟩
  obtain ⟨vote, stored, voterIs, approves⟩ := approve voter approver
  obtain ⟨key, got⟩ := mem_votesFor.mp stored
  exact ⟨vote, stored, voterIs, (backed.sound.keyed _ _ _ got).1, approves,
    backed.sound.justified _ _ _ got⟩

/-- One member of four votes on a proposal and receives the votes of two others. -/
theorem three_of_four_approve :
    ∃ final, run (step .transparent) (new 0 .ofFour 0)
        [.processProposal 0 (.ofMember 0 5 0), .voteOnProposal 0 (.ofMember 0 5 0) 3 [3],
          .processVote (.ofMember (.ofMember 0 5 0) 1),
          .processVote (.ofMember (.ofMember 0 5 0) 2)] = some final ∧
      final.manager.getTransitionReadyProposal .transparent .unset 0 15 = some (.ofMember 0 5 0) ∧
      ∃ approvers ⊆ Committee.ofFour.everyone,
        Committee.ofFour.quorumThreshold ≤ weigh Committee.ofFour.stake approvers ∧
        ∀ voter ∈ approvers, ∃ vote ∈ final.manager.votesFor
            (hashProposal .transparent (.ofMember 0 5 0)),
          vote.voterValue = voter ∧
          vote.proposalHash = hashProposal .transparent (.ofMember 0 5 0) ∧
          vote.approve = true ∧ (vote ∈ final.cast ∨ Verified .transparent .ofFour vote) := by
  obtain ⟨final, ran, ret⟩ := @exists_reached _ _ (step .transparent) (new 0 .ofFour 0)
    [.processProposal 0 (.ofMember 0 5 0), .voteOnProposal 0 (.ofMember 0 5 0) 3 [3],
      .processVote (.ofMember (.ofMember 0 5 0) 1), .processVote (.ofMember (.ofMember 0 5 0) 2)]
    (fun final => final.manager.getTransitionReadyProposal .transparent .unset 0 15 =
      some (.ofMember 0 5 0)) _ (by decide +kernel)
  refine ⟨final, ran, ret,
    ready_proposal_has_quorum .transparent 0 .ofFour 0 ?_ ran ret⟩
  exact heeds_of_checks (fun _ _ => of_decide_eq_true) (by decide +kernel)

end EpochRun

end Mysticeti
