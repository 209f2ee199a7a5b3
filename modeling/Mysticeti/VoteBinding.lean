import Mysticeti.EpochAgreement

/-!
# What a signed vote is a vote on

A vote names the full hash of a proposal, and its signature covers the first eight bytes. A
vote cast on one proposal therefore is accepted, with another hash written on it, for every
pending proposal whose hash starts with the same bytes. An accepted approval of an honest
member shows that the member voted on that proposal exactly when no other proposal that the
member voted on starts with the same bytes.
-/

namespace Mysticeti

open List Option Lib.Machine Lib.Quorum EpochChangeManager

namespace EpochNetwork

section Casting

variable {crypto : EpochCrypto} {comm : Committee} {faulty : Finset AuthorityIndex}
  {keyPair : AuthorityIndex → ProtocolKeyPair} {mgr : EpochChangeManager}
  {node : AuthorityIndex} {ballot : EpochChangeVote}

/-- The member voted on the proposal with this hash. -/
def VotedOn (network : EpochNetwork) (voter : AuthorityIndex) (proposalHash : Bytes) : Prop :=
  ∃ ballot ∈ network.cast, ballot.voterValue = voter ∧ ballot.proposalHash = proposalHash
deriving Decidable

/-- The ballot was made by `vote_on_proposal` at its voter: it approves the proposal with its
hash, and the voter signed its text. -/
structure Genuine (crypto : EpochCrypto) (comm : Committee)
    (keyPair : AuthorityIndex → ProtocolKeyPair) (ballot : EpochChangeVote) : Prop where
  ran : ∃ (mgr post : EpochChangeManager) (nowMs : Nat) (prop : EpochChangeProposal),
    mgr.voteOnProposal crypto nowMs prop ballot.voterValue (keyPair ballot.voterValue) =
      (post, .ok ballot) ∧ hashProposal crypto prop = ballot.proposalHash
  approves : ballot.approve = true
  signed : ballot.signatureBytes =
    crypto.sign (keyPair ballot.voterValue) (signedText comm ballot)

lemma genuine_of_voteOnProposal (same : mgr.committee = comm) {nowMs : Nat}
    {prop : EpochChangeProposal} {post : EpochChangeManager}
    (casts : mgr.voteOnProposal crypto nowMs prop node (keyPair node) = (post, .ok ballot)) :
    ballot.voterValue = node ∧ Genuine crypto comm keyPair ballot := by
  obtain ⟨start, ⟨err, refused⟩ |
      ⟨vote, voted, hash, voter, approves, mem, got, signed⟩⟩ :=
    @voteOnProposal_spec crypto mgr prop node nowMs (keyPair node)
  · rw [refused] at casts
    cases casts
  · obtain rfl : vote = ballot := by
      rw [voted] at casts
      exact Except.ok.inj (congrArg Prod.snd casts)
    subst voter
    refine ⟨rfl, ⟨mgr, post, nowMs, prop, casts, hash.symm⟩, approves, ?_⟩
    have stake : comm.stake vote.voterValue = mem.stake := by
      rw [← same, Committee.stake, got]
      rfl
    rw [signed, signedText, stake]

lemma voteOnProposal_of_processBlockProposal {nowMs : Nat} {prop : EpochChangeProposal}
    (casts : (mgr.processBlockProposal crypto nowMs node (keyPair node) prop).2 = some ballot) :
    ∃ processed post : EpochChangeManager, processed.committee = mgr.committee ∧
      processed.voteOnProposal crypto nowMs prop node (keyPair node) = (post, .ok ballot) := by
  have same := @processProposal_committee crypto mgr nowMs prop
  unfold processBlockProposal at casts
  split at casts
  · cases casts
  · split at casts
    · cases casts
    · rename_i processed res
      rw [res] at same
      dsimp only at casts
      split at casts
      · cases casts
      · split at casts
        · cases casts
        · rename_i post vote voted
          obtain rfl := some.inj casts
          exact ⟨processed, post, same, voted⟩

lemma genuine_of_handle (same : mgr.committee = comm) {event : EpochEvent}
    (casts : ballot ∈ (handle crypto keyPair mgr node event).2) :
    ballot.voterValue = node ∧ Genuine crypto comm keyPair ballot := by
  cases event with
  | processBlockEpochChange nowMs prop votes =>
    cases prop with
    | none => cases casts
    | some prop =>
      have cast : (mgr.processBlockProposal crypto nowMs node (keyPair node) prop).2 =
          some ballot := mem_toList.mp casts
      obtain ⟨processed, post, sameCommittee, voted⟩ := voteOnProposal_of_processBlockProposal cast
      exact genuine_of_voteOnProposal (sameCommittee.trans same) voted
  | processProposal nowMs prop => cases casts
  | voteOnProposal nowMs prop =>
    cases res : mgr.voteOnProposal crypto nowMs prop node (keyPair node) with
    | mk post verdict =>
      simp only [handle, res, Prod.map_snd] at casts
      cases verdict with
      | error err => cases casts
      | ok vote =>
        obtain rfl := mem_singleton.mp casts
        exact genuine_of_voteOnProposal same res
  | processVote vote => cases casts

/-- All ballots are genuine and of honest members. -/
def Authentic (crypto : EpochCrypto) (comm : Committee) (faulty : Finset AuthorityIndex)
    (keyPair : AuthorityIndex → ProtocolKeyPair) (network : EpochNetwork) : Prop :=
  ∀ ballot ∈ network.cast, ballot.voterValue ∈ comm.everyone \ faulty ∧
    Genuine crypto comm keyPair ballot

lemma Authentic.step {network next : EpochNetwork} {act : AuthorityIndex × EpochEvent}
    (authentic : Authentic crypto comm faulty keyPair network)
    (same : ∀ node, (network.managers node).committee = comm)
    (taken : network.step crypto comm faulty keyPair act = some next) :
    Authentic crypto comm faulty keyPair next := by
  obtain ⟨node, event⟩ := act
  have acts : node ∈ comm.everyone \ faulty := by
    by_contra outside
    rw [EpochNetwork.step, if_neg outside] at taken
    cases taken
  rw [eq_of_step taken]
  intro ballot has
  rcases mem_append.mp has with prev | casts
  · exact authentic ballot prev
  · obtain ⟨voter, genuine⟩ := genuine_of_handle (same node) casts
    exact ⟨voter ▸ acts, genuine⟩

lemma authentic_of_run {epochs : AuthorityIndex → Epoch}
    {epochStarts : AuthorityIndex → BlockTimestampMs}
    {sched : List (AuthorityIndex × EpochEvent)} {final : EpochNetwork}
    (unforged : Heeds (step crypto comm faulty keyPair) (Unforged crypto comm faulty)
      (start comm epochs epochStarts) sched)
    (ran : run (step crypto comm faulty keyPair) (start comm epochs epochStarts)
      sched = some final) :
    Attested crypto comm faulty final ∧
      Authentic crypto comm faulty keyPair final := by
  refine @invariant _ _ (step crypto comm faulty keyPair) (Unforged crypto comm faulty)
    _ _ _ (fun network => Attested crypto comm faulty network ∧
      Authentic crypto comm faulty keyPair network) ?_ ?_ unforged ran
  · rintro network act next ⟨attested, authentic⟩ unforged taken
    exact ⟨attested.step unforged taken, authentic.step attested.sameCommittee taken⟩
  · refine ⟨⟨fun _ => rfl, fun _ => sound_of_empty rfl rfl, by simp [start]⟩, ?_⟩
    rintro ballot ⟨⟩

end Casting

section Binding

variable {crypto : EpochCrypto} {comm : Committee} {faulty : Finset AuthorityIndex}
  {mgr : EpochChangeManager} {vote : EpochChangeVote}

lemma validateVote_eq_ok_iff : mgr.validateVote crypto vote = .ok () ↔
    vote.proposalHash ∈ mgr.pendingProposals ∧ Verified crypto mgr.committee vote := by
  unfold validateVote Verified
  by_cases pending : vote.proposalHash ∈ mgr.pendingProposals
  · rw [if_pos pending]
    cases got : mgr.committee.authorities[vote.voterValue]? with
    | none => simp
    | some mem => simp [pending]
  · simp [pending]

/-- An accepted approval of an honest member shows that the member voted on the proposal,
exactly when no pending proposal has a hash that starts like the hash of another proposal on
which an honest member voted. -/
theorem approvals_bind_iff (crypto : EpochCrypto) (comm : Committee)
    (faulty : Finset AuthorityIndex) (keyPair : AuthorityIndex → ProtocolKeyPair)
    (correct : ∀ voter ∈ comm.everyone \ faulty, ∀ mem,
      comm.authorities[voter]? = some mem → ∀ text,
        crypto.verify mem.protocolKey text (crypto.sign (keyPair voter) text) = true)
    (epochs : AuthorityIndex → Epoch) (epochStarts : AuthorityIndex → BlockTimestampMs)
    {sched : List (AuthorityIndex × EpochEvent)} {final : EpochNetwork}
    (unforged : Heeds (step crypto comm faulty keyPair) (Unforged crypto comm faulty)
      (start comm epochs epochStarts) sched)
    (ran : run (step crypto comm faulty keyPair) (start comm epochs epochStarts)
      sched = some final) (node : AuthorityIndex) :
    (∀ vote, Unforged crypto comm faulty final (node, .processVote vote) →
      (final.managers node).validateVote crypto vote = .ok () → vote.approve = true →
        vote.voterValue ∉ faulty → final.VotedOn vote.voterValue vote.proposalHash) ↔
      ∀ proposalHash ∈ (final.managers node).pendingProposals, ∀ ballot ∈ final.cast,
        ballot.proposalHash.take 8 = proposalHash.take 8 →
          final.VotedOn ballot.voterValue proposalHash := by
  obtain ⟨attested, authentic⟩ := authentic_of_run unforged ran
  have sameCommittee := attested.sameCommittee node
  constructor
  · intro binds proposalHash pending ballot cast sameHead
    obtain ⟨honest, genuine⟩ := authentic ballot cast
    -- the ballot, with the other hash written on it
    let copied := { ballot with proposalHash }
    have sameText : signedText comm ballot = signedText comm copied := by
      rw [signedText, signedText, voteMessage, voteMessage, sameHead]
    obtain ⟨mem, got⟩ : ∃ mem, comm.authorities[ballot.voterValue]? = some mem := by
      have inside := Finset.mem_range.mp (Finset.mem_sdiff.mp honest).1
      exact ⟨_, getElem?_eq_getElem inside⟩
    have verified : Verified crypto (final.managers node).committee copied := by
      rw [sameCommittee]
      refine ⟨mem, got, ?_⟩
      have stake : comm.stake ballot.voterValue = mem.stake := by
        rw [Committee.stake, got]
        rfl
      have signature := correct ballot.voterValue honest mem got (signedText comm ballot)
      rw [← genuine.signed, sameText, signedText, stake] at signature
      exact signature
    refine binds copied ?_ (validateVote_eq_ok_iff.mpr ⟨pending, verified⟩) genuine.approves
      (Finset.mem_sdiff.mp honest).2
    intro recv here _ _
    obtain rfl := mem_singleton.mp here
    exact ⟨ballot, cast, rfl, sameText⟩
  · intro apart vote genuine acc _ honest
    obtain ⟨pending, verified⟩ := validateVote_eq_ok_iff.mp acc
    rw [sameCommittee] at verified
    obtain ⟨ballot, cast, sameVoter, _, sameHead⟩ := endorsed_of_verified (attested.sound node)
      attested.hashed (genuine vote mem_cons_self) pending verified honest
    rw [← sameVoter]
    exact apart vote.proposalHash pending ballot cast sameHead

/-- Member 2 votes on the proposal of member 0. Member 1 is faulty and proposes the same with
its own name; the hashes differ in the ninth byte. The vote of member 2 with the other hash
on it passes the check. -/
theorem copied_vote_accepted :
    let honest := EpochChangeProposal.ofMember 0 100 0
    let similar := EpochChangeProposal.ofMember 1 100 0
    let copied := EpochChangeVote.ofMember similar 2
    hashProposal .transparent honest ≠ hashProposal .transparent similar ∧
    ∃ final, run (step .transparent .ofFour {1} fun node => [UInt8.ofNat node])
        (start .ofFour 0 0)
        [(2, .processBlockEpochChange 0 (some honest) []), (0, .processProposal 0 similar)] =
        some final ∧
      Unforged .transparent .ofFour {1} final (0, .processVote copied) ∧
      (final.managers 0).validateVote .transparent copied = .ok () ∧
      copied.approve = true ∧ copied.voterValue = 2 ∧
      copied.proposalHash = hashProposal .transparent similar ∧
      ¬ final.VotedOn 2 (hashProposal .transparent similar) := by
  refine ⟨by decide +kernel, exists_reached ?_⟩
  decide +kernel

theorem approvals_bind_iff_ofFour :
    let honest := EpochChangeProposal.ofMember 0 100 0
    let sched : List (AuthorityIndex × EpochEvent) :=
      [(2, .processBlockEpochChange 0 (some honest) []), (0, .processProposal 0 honest),
        (0, .processVote (.ofMember honest 2))]
    ∃ final, run (step .transparent .ofFour {1} fun node => [UInt8.ofNat node])
        (start .ofFour 0 0) sched = some final ∧
      ((∀ vote, Unforged .transparent .ofFour {1} final (0, .processVote vote) →
        (final.managers 0).validateVote .transparent vote = .ok () → vote.approve = true →
          vote.voterValue ∉ ({1} : Finset AuthorityIndex) →
            final.VotedOn vote.voterValue vote.proposalHash) ↔
        ∀ proposalHash ∈ (final.managers 0).pendingProposals, ∀ ballot ∈ final.cast,
          ballot.proposalHash.take 8 = proposalHash.take 8 →
            final.VotedOn ballot.voterValue proposalHash) := by
  intro honest sched
  obtain ⟨final, ran⟩ : ∃ final, run (step .transparent .ofFour {1} fun node =>
      [UInt8.ofNat node]) (start .ofFour 0 0) sched = some final :=
    isSome_iff_exists.mp (by decide +kernel)
  refine ⟨final, ran, approvals_bind_iff .transparent .ofFour {1} _ ?_ 0 0 ?_ ran 0⟩
  · intro voter inside mem got text
    have key : ∀ idx ∈ Committee.ofFour.everyone, ∀ auth ∈
        Committee.ofFour.authorities[idx]?, auth.protocolKey = [UInt8.ofNat idx] := by
      decide
    rw [key voter (Finset.mem_sdiff.mp inside).1 mem got]
    simp [EpochCrypto.transparent]
  · exact heeds_of_checks (fun _ _ => of_decide_eq_true) (by decide +kernel)

end Binding

end EpochNetwork

end Mysticeti
