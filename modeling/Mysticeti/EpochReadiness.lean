import Mysticeti.EpochQuorum

/-!
# The proposal two nodes pick for the transition

Two managers with the same proposals and votes agree on which proposals are ready. Each
picks the first ready one in the order of its own hash map, so that they pick the same one
only if there is one to pick. What is picked is past its barrier, or has a quorum and is old
enough; the age is counted from the creation time, which the hash of a proposal leaves out.
-/

namespace Mysticeti.EpochChangeManager

open List Option

/-- Two managers in the same epoch with the same proposals and the same votes, in whatever
order their maps hold them. -/
structure SameView (left right : EpochChangeManager) : Prop where
  epoch : left.currentEpoch = right.currentEpoch
  committee : left.committee = right.committee
  pending : ∀ hash, left.pendingProposals.lookup hash =
    right.pendingProposals.lookup hash
  votes : ∀ hash voter vote,
    left.Stored hash voter vote ↔ right.Stored hash voter vote

section View

variable {crypto : EpochCrypto} {left right : EpochChangeManager} {now : Nat}
  {current : CommitIndex} {prop : EpochChangeProposal} {mgr : EpochChangeManager}

section

variable (same : SameView left right)

include same

lemma SameView.symm : SameView right left :=
  ⟨same.epoch.symm, same.committee.symm, fun hash => (same.pending hash).symm,
    fun hash voter vote => (same.votes hash voter vote).symm⟩

lemma SameView.mem_pending :
    prop ∈ left.allPendingProposals ↔ prop ∈ right.allPendingProposals := by
  have entries : left.pendingProposals.entries.Perm right.pendingProposals.entries := by
    refine lookup_ext left.pendingProposals.nodupKeys right.pendingProposals.nodupKeys ?_
    intro hash prop
    exact iff_of_eq (congrArg (prop ∈ ·) (same.pending hash))
  exact (entries.map Sigma.snd).mem_iff

lemma SameView.votesFor_perm (hash : Bytes) :
    (left.votesFor hash).Perm (right.votesFor hash) := by
  unfold votesFor
  refine List.Perm.map _ (lookup_ext (AList.nodupKeys _) (AList.nodupKeys _) ?_)
  intro voter vote
  have stored := same.votes hash voter vote
  rw [stored_iff, stored_iff] at stored
  exact stored

lemma SameView.voteStake (hash : Bytes) (approve : Bool) :
    left.voteStake (left.votesFor hash) approve =
      right.voteStake (right.votesFor hash) approve := by
  unfold EpochChangeManager.voteStake
  rw [same.committee]
  exact (((same.votesFor_perm hash).filter _).map _).sum_eq

lemma SameView.shouldTransition (bypass : Bypass) :
    left.shouldTransition crypto bypass now prop current =
      right.shouldTransition crypto bypass now prop current := by
  have quorum : left.checkProposalQuorum crypto prop = right.checkProposalQuorum crypto prop := by
    rw [checkProposalQuorum_eq, checkProposalQuorum_eq, same.voteStake, same.voteStake,
      same.committee]
  unfold EpochChangeManager.shouldTransition
  rw [quorum, same.epoch]

end

/-- A pending proposal that may be picked: it is ready, and for the next epoch when any
ready proposal is. -/
def Candidate (crypto : EpochCrypto) (mgr : EpochChangeManager) (now : Nat)
    (current : CommitIndex) (prop : EpochChangeProposal) : Prop :=
  prop ∈ mgr.allPendingProposals ∧
    mgr.shouldTransition crypto .unset now prop current = true ∧
    (prop.newEpoch = mgr.currentEpoch + 1 ∨
      ∀ other ∈ mgr.allPendingProposals, other.newEpoch = mgr.currentEpoch + 1 →
        mgr.shouldTransition crypto .unset now other current = false)

lemma SameView.candidate (same : SameView left right)
    (candidate : left.Candidate crypto now current prop) :
    right.Candidate crypto now current prop := by
  obtain ⟨pending, ready, preferred⟩ := candidate
  rw [same.shouldTransition] at ready
  refine ⟨same.mem_pending.mp pending, ready, ?_⟩
  rw [← same.epoch]
  refine preferred.imp_right fun none other mem next => ?_
  rw [← same.shouldTransition]
  exact none other (same.mem_pending.mpr mem) next

lemma candidate_of_returned
    (ret : mgr.getTransitionReadyProposal crypto .unset now current =
      some prop) : mgr.Candidate crypto now current prop := by
  obtain ⟨pending, ready⟩ := getTransitionReadyProposal_spec ret
  refine ⟨pending, ready, ?_⟩
  unfold getTransitionReadyProposal at ret
  dsimp only at ret
  split at ret
  · rename_i chosen got
    cases ret
    have spec := find?_some got
    rw [Bool.and_eq_true, beq_iff_eq] at spec
    exact .inl spec.1
  · rename_i absent
    refine .inr fun other mem next => ?_
    have refused := find?_eq_none.mp absent other mem
    simpa [next] using refused

lemma not_ready_of_returned_none
    (ret : mgr.getTransitionReadyProposal crypto .unset now current =
      none) : ¬ mgr.Candidate crypto now current prop := by
  rintro ⟨pending, ready, _⟩
  unfold getTransitionReadyProposal at ret
  dsimp only at ret
  split at ret
  · cases ret
  · exact find?_eq_none.mp ret prop pending ready

lemma SameView.picks (same : SameView left right) :
    (left.getTransitionReadyProposal crypto .unset now current = none ∧
      right.getTransitionReadyProposal crypto .unset now current = none) ∨
    ∃ first second,
      left.getTransitionReadyProposal crypto .unset now current = some first ∧
      right.getTransitionReadyProposal crypto .unset now current = some second ∧
      left.Candidate crypto now current first ∧
      left.Candidate crypto now current second := by
  cases leftPick : left.getTransitionReadyProposal crypto .unset now
    current with
  | none =>
    cases rightPick : right.getTransitionReadyProposal crypto .unset now
      current with
    | none => exact .inl ⟨rfl, rfl⟩
    | some second =>
      have candidate := same.symm.candidate (candidate_of_returned rightPick)
      exact absurd candidate (not_ready_of_returned_none leftPick)
  | some first =>
    have candidate := candidate_of_returned leftPick
    cases rightPick : right.getTransitionReadyProposal crypto .unset now
      current with
    | none => exact absurd (same.candidate candidate) (not_ready_of_returned_none rightPick)
    | some second =>
      exact .inr ⟨first, second, rfl, rfl, candidate,
        same.symm.candidate (candidate_of_returned rightPick)⟩

lemma barrier_or_timeout
    (ready : mgr.shouldTransition crypto .unset now prop current = true) :
    saturatingAdd prop.proposalCommitIndex 10 ≤ current ∨
      (mgr.checkProposalQuorum crypto prop = some true ∧
        timeoutSeconds ≤ now - prop.createdAtSeconds) := by
  unfold EpochChangeManager.shouldTransition at ready
  simp only [Bypass.unset, Bool.false_eq_true, if_false] at ready
  split at ready
  · cases ready
  · simp only [Bool.or_eq_true, Bool.and_eq_true, decide_eq_true_eq] at ready
    obtain (barrier | ⟨timeout, quorum⟩) | ⟨_, barrier⟩ := ready
    · exact .inl barrier
    · refine .inr ⟨?_, timeout⟩
      cases verdict : mgr.checkProposalQuorum crypto prop with
      | none => simp [verdict] at quorum
      | some approved =>
        rw [verdict, getD_some] at quorum
        rw [quorum]
    · exact .inl barrier

end View

/-- Two nodes with the same proposals, creation times included, and the same votes pick a
proposal both or neither, and the same one when there is one candidate. What is picked is
past its barrier, or has a quorum and is old enough. -/
theorem same_view_same_pick (crypto : EpochCrypto) {left right : EpochChangeManager}
    (same : SameView left right) (now : Nat) (current : CommitIndex) :
    ((left.getTransitionReadyProposal crypto .unset now current).isSome =
      (right.getTransitionReadyProposal crypto .unset now current).isSome) ∧
    ((∀ first second, left.Candidate crypto now current first →
        left.Candidate crypto now current second → first = second) →
      left.getTransitionReadyProposal crypto .unset now current =
        right.getTransitionReadyProposal crypto .unset now current) ∧
    ∀ prop,
      left.getTransitionReadyProposal crypto .unset now current = some prop →
      saturatingAdd prop.proposalCommitIndex 10 ≤ current ∨
        (left.checkProposalQuorum crypto prop = some true ∧
          timeoutSeconds ≤ now - prop.createdAtSeconds) := by
  have picks := @SameView.picks crypto left right now current same
  refine ⟨?_, fun single => ?_, fun prop ret => ?_⟩
  · obtain ⟨leftPick, rightPick⟩ | ⟨first, second, leftPick, rightPick, _⟩ := picks
    · rw [leftPick, rightPick]
    · rw [leftPick, rightPick, isSome_some, isSome_some]
  · obtain ⟨leftPick, rightPick⟩ | ⟨first, second, leftPick, rightPick, candidates⟩ := picks
    · rw [leftPick, rightPick]
    · rw [leftPick, rightPick, single first second candidates.1 candidates.2]
  · exact barrier_or_timeout (getTransitionReadyProposal_spec ret).2

/-- A manager of one of four members after proposals arrived in some order, and then the
votes of three members on each of them. -/
def approving (arrived voted : List EpochChangeProposal) : EpochChangeManager :=
  let proposed := arrived.foldl (fun mgr prop =>
    (mgr.processProposal .transparent 0 prop).1) (.new 0 .ofFour 0)
  voted.foldl (fun mgr prop => [0, 1, 2].foldl (fun mgr voter =>
    (mgr.processVote .transparent (.ofMember prop voter)).1) mgr) proposed

lemma approving_committee (arrived voted : List EpochChangeProposal) :
    (approving arrived voted).committee = .ofFour := by
  have keep : ∀ {α : Type} (receive : EpochChangeManager → α → EpochChangeManager),
      (∀ mgr item, (receive mgr item).committee = mgr.committee) →
      ∀ (items : List α) mgr, (items.foldl receive mgr).committee = mgr.committee := by
    intro α receive kept items
    induction items with
    | nil => exact fun _ => rfl
    | cons item rest ih => exact fun mgr => (ih _).trans (kept mgr item)
  unfold approving
  rw [keep _ fun mgr prop => keep _ (fun _ _ => processVote_committee _) _ mgr,
    keep _ fun _ _ => processProposal_committee _ _]
  rfl

lemma proposalVotes_ext {left right : EpochChangeManager}
    (same : left.proposalVotes.entries.map (fun entry => (entry.1, entry.2.entries)) =
      right.proposalVotes.entries.map (fun entry => (entry.1, entry.2.entries))) :
    left.proposalVotes = right.proposalVotes := by
  refine AList.ext (map_injective_iff.mpr ?_ same)
  rintro ⟨leftHash, leftVotes⟩ ⟨rightHash, rightVotes⟩ equal
  obtain ⟨sameHash, sameEntries⟩ := Prod.mk.inj equal
  have sameVotes : leftVotes = rightVotes := AList.ext sameEntries
  exact congrArg₂ Sigma.mk sameHash sameVotes

lemma approving_same_view : SameView
    (approving [.ofMember 0 5 0, .ofMember 1 9 0] [.ofMember 0 5 0])
    (approving [.ofMember 1 9 0, .ofMember 0 5 0] [.ofMember 0 5 0]) where
  epoch := by decide +kernel
  committee := by rw [approving_committee, approving_committee]
  pending := by
    have entries : (approving [.ofMember 0 5 0, .ofMember 1 9 0]
        [.ofMember 0 5 0]).pendingProposals.entries.Perm
      (approving [.ofMember 1 9 0, .ofMember 0 5 0]
        [.ofMember 0 5 0]).pendingProposals.entries := by decide +kernel
    exact fun hash => AList.perm_lookup entries
  votes := by
    have same := @proposalVotes_ext
      (approving [.ofMember 0 5 0, .ofMember 1 9 0] [.ofMember 0 5 0])
      (approving [.ofMember 1 9 0, .ofMember 0 5 0] [.ofMember 0 5 0]) (by decide +kernel)
    exact fun hash voter vote => by rw [Stored, Stored, same]

theorem picks_only_approved :
    SameView (approving [.ofMember 0 5 0, .ofMember 1 9 0] [.ofMember 0 5 0])
      (approving [.ofMember 1 9 0, .ofMember 0 5 0] [.ofMember 0 5 0]) ∧
    (approving [.ofMember 0 5 0, .ofMember 1 9 0] [.ofMember 0 5 0]).getTransitionReadyProposal
        .transparent .unset 0 15 =
      (approving [.ofMember 1 9 0, .ofMember 0 5 0]
        [.ofMember 0 5 0]).getTransitionReadyProposal .transparent .unset 0 15 := by
  have only : ∀ prop ∈ (approving [.ofMember 0 5 0, .ofMember 1 9 0]
        [.ofMember 0 5 0]).allPendingProposals,
      (approving [.ofMember 0 5 0, .ofMember 1 9 0] [.ofMember 0 5 0]).shouldTransition
        .transparent .unset 0 prop 15 = true → prop = .ofMember 0 5 0 := by
    decide +kernel
  refine ⟨approving_same_view, (same_view_same_pick .transparent approving_same_view 0 15).2.1 ?_⟩
  intro first second firstCandidate secondCandidate
  rw [only first firstCandidate.1 firstCandidate.2.1,
    only second secondCandidate.1 secondCandidate.2.1]

/-- Two proposals with a quorum each arrived in different orders: the nodes pick different
ones. One proposal is picked long before its barrier, because it is old. -/
theorem picks_by_order_and_by_age :
    (let first := EpochChangeProposal.ofMember 0 5 0
     let second := EpochChangeProposal.ofMember 1 5 0
     let left := approving [first, second] [first, second]
     let right := approving [second, first] [first, second]
     left.currentEpoch = right.currentEpoch ∧ left.committee = right.committee ∧
      left.pendingProposals.entries.Perm right.pendingProposals.entries ∧
      left.proposalVotes = right.proposalVotes ∧
      left.getTransitionReadyProposal .transparent .unset 0 15 = some second ∧
      right.getTransitionReadyProposal .transparent .unset 0 15 = some first ∧
      first ≠ second) ∧
    (let prop := EpochChangeProposal.ofMember 0 5 0
     (approving [prop] [prop]).getTransitionReadyProposal .transparent .unset 300 0 =
      some prop ∧ 0 < prop.proposalCommitIndex + 10) := by
  refine ⟨⟨by decide +kernel, ?_, by decide +kernel, proposalVotes_ext ?_, by decide +kernel⟩,
    by decide +kernel⟩
  · rw [approving_committee, approving_committee]
  · decide +kernel

end Mysticeti.EpochChangeManager
