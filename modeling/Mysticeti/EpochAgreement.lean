import Mysticeti.EpochQuorum

/-!
# Two approved proposals have an honest approver in common

The validators of one committee run their managers; the messages of the faulty ones are
arbitrary, except that nobody forges a vote of an honest validator: a vote that verifies
under its key carries a text this validator signed. The text holds the first eight bytes of
the proposal hash. Two quorums overlap in an honest validator, so that two proposals which
are both approved were both approved by one honest validator. Validators approve every valid
proposal for the next epoch, and two proposals can be approved at once.
-/

namespace Mysticeti

open List Option Lib.Machine Lib.Quorum EpochChangeManager

namespace EpochChangeManager

section Text

lemma digitChar_inj {left right : Nat} (leftSmall : left < 16) (rightSmall : right < 16)
    (same : Nat.digitChar left = Nat.digitChar right) : left = right := by
  have nodup : ∀ left right : Fin 16,
      Nat.digitChar left = Nat.digitChar right → left = right := by decide
  exact Fin.mk.inj_iff.mp (nodup ⟨left, leftSmall⟩ ⟨right, rightSmall⟩ same)

lemma hexByte_inj {left right : UInt8} (same : hexByte left = hexByte right) : left = right := by
  have leftBound := left.toNat_lt
  have rightBound := right.toNat_lt
  simp only [hexByte, List.cons.injEq, and_true] at same
  have high := digitChar_inj (by omega) (by omega) same.1
  have low := digitChar_inj (by omega) (by omega) same.2
  exact UInt8.toNat_inj.mp (by omega)

lemma flatMap_hexByte_inj : ∀ {left right : Bytes}, left.length = right.length →
    left.flatMap hexByte = right.flatMap hexByte → left = right
  | [], [], _, _ => rfl
  | left :: leftRest, right :: rightRest, sameLength, same => by
    rw [flatMap_cons, flatMap_cons] at same
    obtain ⟨head, tail⟩ := append_inj same rfl
    rw [hexByte_inj head, flatMap_hexByte_inj (Nat.succ.inj sameLength) tail]

lemma voteMessage_inj {left right : Bytes} {leftApprove rightApprove : Bool} {stake : Stake}
    (sameLength : left.length = right.length)
    (same : voteMessage left leftApprove stake = voteMessage right rightApprove stake) :
    left.take 8 = right.take 8 ∧ leftApprove = rightApprove := by
  have headLength : (left.take 8).length = (right.take 8).length := by simp [sameLength]
  have digits : ((left.take 8).flatMap hexByte).length =
      ((right.take 8).flatMap hexByte).length := by
    simp [length_flatMap, hexByte, sameLength]
  have text := congrArg String.toList same
  simp only [voteMessage, hexEncode, toString, String.toList_append, String.toList_ofList,
    append_assoc, append_cancel_left_eq] at text
  obtain ⟨hash, verdict⟩ := append_inj text digits
  refine ⟨flatMap_hexByte_inj headLength hash, ?_⟩
  cases leftApprove <;> cases rightApprove <;> simp_all

end Text

end EpochChangeManager

/-- The managers of the validators, with the votes the honest ones cast. -/
structure EpochNetwork where
  managers : AuthorityIndex → EpochChangeManager
  cast : List EpochChangeVote

inductive EpochEvent where
  | processBlockEpochChange (nowMs : Nat) (prop : Option EpochChangeProposal)
      (votes : List EpochChangeVote)
  | processProposal (nowMs : Nat) (prop : EpochChangeProposal)
  | voteOnProposal (nowMs : Nat) (prop : EpochChangeProposal)
  | processVote (vote : EpochChangeVote)

/-- The votes that come from others with an event. -/
def EpochEvent.received : EpochEvent → List EpochChangeVote
  | .processBlockEpochChange _ _ votes => votes
  | .processVote vote => [vote]
  | _ => []

namespace EpochNetwork

section Network

variable (crypto : EpochCrypto) (comm : Committee) (faulty : Finset AuthorityIndex)
  (keyPair : AuthorityIndex → ProtocolKeyPair)

def start (epochs : AuthorityIndex → Epoch)
    (epochStarts : AuthorityIndex → BlockTimestampMs) : EpochNetwork where
  managers node := .new (epochs node) comm (epochStarts node)
  cast := []

/-- The manager of a validator after an event, and the votes it cast. -/
def handle (mgr : EpochChangeManager) (node : AuthorityIndex) :
    EpochEvent → EpochChangeManager × List EpochChangeVote
  | .processBlockEpochChange nowMs prop votes =>
    (mgr.processBlockEpochChange crypto nowMs node (keyPair node) prop votes).map id
      Option.toList
  | .processProposal nowMs prop => ((mgr.processProposal crypto nowMs prop).1, [])
  | .voteOnProposal nowMs prop =>
    (mgr.voteOnProposal crypto nowMs prop node (keyPair node)).map id EpochRun.ballot
  | .processVote vote => ((mgr.processVote crypto vote).1, [])

def step (network : EpochNetwork) (act : AuthorityIndex × EpochEvent) : Option EpochNetwork :=
  if act.1 ∈ comm.everyone \ faulty then
    let (mgr, cast) := handle crypto keyPair (network.managers act.1) act.1 act.2
    some { managers := Function.update network.managers act.1 mgr
           cast := network.cast ++ cast }
  else none

def signedText (vote : EpochChangeVote) : String :=
  voteMessage vote.proposalHash vote.approve (comm.stake vote.voterValue)

/-- A received vote that verifies under the key of an honest member has the text of a vote
this member cast. -/
def Unforged (network : EpochNetwork) (act : AuthorityIndex × EpochEvent) : Prop :=
  ∀ vote ∈ act.2.received, vote.voterValue ∉ faulty → Verified crypto comm vote →
    ∃ ballot ∈ network.cast, ballot.voterValue = vote.voterValue ∧
      signedText comm ballot = signedText comm vote

/-- A vote of an honest member repeats one that the member cast, up to the part of the hash
that votes are signed over. -/
def Endorsed (cast : List EpochChangeVote) (vote : EpochChangeVote) : Prop :=
  vote.voterValue ∉ faulty → ∃ ballot ∈ cast, ballot.voterValue = vote.voterValue ∧
    ballot.approve = vote.approve ∧ ballot.proposalHash.take 8 = vote.proposalHash.take 8

/-- What holds in every state of the network. -/
structure Attested (network : EpochNetwork) : Prop where
  sameCommittee : ∀ node, (network.managers node).committee = comm
  sound : ∀ node, Sound crypto (Endorsed faulty network.cast) (network.managers node)
  hashed : ∀ ballot ∈ network.cast, ballot.proposalHash.length = 32

end Network

section Steps

variable {crypto : EpochCrypto} {comm : Committee} {faulty : Finset AuthorityIndex}
  {keyPair : AuthorityIndex → ProtocolKeyPair} {mgr : EpochChangeManager}
  {cast : List EpochChangeVote} {node : AuthorityIndex}

lemma endorsed_append {more : List EpochChangeVote} {vote : EpochChangeVote}
    (endorsed : Endorsed faulty cast vote) : Endorsed faulty (cast ++ more) vote := by
  intro honest
  obtain ⟨ballot, mem, agrees⟩ := endorsed honest
  exact ⟨ballot, mem_append_left _ mem, agrees⟩

/-- The part of a manager's record that one event has to keep. -/
structure Keeps (crypto : EpochCrypto) (comm : Committee) (faulty : Finset AuthorityIndex)
    (cast : List EpochChangeVote) (res : EpochChangeManager × List EpochChangeVote) : Prop where
  sameCommittee : res.1.committee = comm
  sound : Sound crypto (Endorsed faulty (cast ++ res.2)) res.1
  hashed : ∀ ballot ∈ res.2, ballot.proposalHash.length = 32

/-- A received vote that was not forged is endorsed: the votes for pending proposals carry
hashes of full length, so that equal texts have equal heads of the hash. -/
lemma endorsed_of_verified (sound : Sound crypto (Endorsed faulty cast) mgr)
    (hashed : ∀ ballot ∈ cast, ballot.proposalHash.length = 32) {vote : EpochChangeVote}
    (unforged : vote.voterValue ∉ faulty → Verified crypto comm vote →
      ∃ ballot ∈ cast, ballot.voterValue = vote.voterValue ∧
        signedText comm ballot = signedText comm vote)
    (pending : vote.proposalHash ∈ mgr.pendingProposals)
    (verified : Verified crypto comm vote) : Endorsed faulty cast vote := by
  intro honest
  obtain ⟨ballot, mem, sameVoter, sameText⟩ := unforged honest verified
  obtain ⟨prop, got⟩ := isSome_iff_exists.mp (AList.lookup_isSome.mpr pending)
  have length : vote.proposalHash.length = 32 := by
    rw [(sound.pending _ _ got).1]
    exact crypto.digest_length _
  have sameLength : ballot.proposalHash.length = vote.proposalHash.length := by
    rw [hashed ballot mem, length]
  rw [signedText, signedText, sameVoter] at sameText
  obtain ⟨sameHead, sameVerdict⟩ := voteMessage_inj sameLength sameText
  exact ⟨ballot, mem, sameVoter, sameVerdict, sameHead⟩

lemma Keeps.processVotes (votes : List EpochChangeVote)
    (same : mgr.committee = comm)
    (sound : Sound crypto (Endorsed faulty cast) mgr)
    (hashed : ∀ ballot ∈ cast, ballot.proposalHash.length = 32)
    (unforged : ∀ vote ∈ votes, vote.voterValue ∉ faulty → Verified crypto comm vote →
      ∃ ballot ∈ cast, ballot.voterValue = vote.voterValue ∧
        signedText comm ballot = signedText comm vote) :
    (mgr.processVotes crypto votes).committee = comm ∧
      Sound crypto (Endorsed faulty cast) (mgr.processVotes crypto votes) := by
  induction votes generalizing mgr with
  | nil => exact ⟨same, sound⟩
  | cons vote rest ih =>
    have later := fun other mem => unforged other (mem_cons_of_mem vote mem)
    rw [EpochChangeManager.processVotes, foldl_cons]
    split
    · refine ih ((processVote_committee vote).trans same) ?_ later
      exact sound.processVote fun pending verified =>
        endorsed_of_verified sound hashed (unforged vote mem_cons_self) pending
          (same ▸ verified)
    · exact ih same sound later

lemma Keeps.voteOnProposal (same : mgr.committee = comm)
    (sound : Sound crypto (Endorsed faulty cast) mgr) (nowMs : Nat)
    (prop : EpochChangeProposal) :
    Keeps crypto comm faulty cast
      ((mgr.voteOnProposal crypto nowMs prop node (keyPair node)).map id
        EpochRun.ballot) := by
  obtain ⟨start, ⟨err, refused⟩ | ⟨vote, casts, hash, _⟩⟩ :=
    @voteOnProposal_spec crypto mgr prop node nowMs (keyPair node)
  · rw [refused]
    refine ⟨same, ?_, by simp [EpochRun.ballot]⟩
    simpa [EpochRun.ballot] using sound.sync start
  · rw [casts]
    refine ⟨same, Sound.storeVote ?_ ?_, ?_⟩
    · exact (sound.sync start).mono fun _ => endorsed_append
    · exact fun _ => ⟨vote, by simp [EpochRun.ballot], rfl, rfl, rfl⟩
    · intro ballot mem
      obtain rfl : ballot = vote := by simpa [EpochRun.ballot] using mem
      rw [hash]
      exact crypto.digest_length _

lemma Keeps.processBlockProposal (same : mgr.committee = comm)
    (sound : Sound crypto (Endorsed faulty cast) mgr) (nowMs : Nat)
    (prop : EpochChangeProposal) :
    Keeps crypto comm faulty cast
      ((mgr.processBlockProposal crypto nowMs node (keyPair node) prop).map id
        toList) := by
  have idle : ∀ other : EpochChangeManager, other.committee = comm →
      Sound crypto (Endorsed faulty cast) other → Keeps crypto comm faulty cast (other, []) :=
    fun other same sound => ⟨same, by simpa using sound, by simp⟩
  have processedSound := sound.processProposal nowMs prop
  have processedSame := @processProposal_committee crypto mgr nowMs prop
  unfold EpochChangeManager.processBlockProposal
  split
  · exact idle mgr same sound
  · split
    · rename_i processed err res
      rw [res] at processedSound processedSame
      exact idle processed (processedSame.trans same) processedSound
    · rename_i processed res
      rw [res] at processedSound processedSame
      dsimp only
      split
      · exact idle processed (processedSame.trans same) processedSound
      · have voted := @Keeps.voteOnProposal crypto comm faulty keyPair processed cast node
          (processedSame.trans same) processedSound nowMs prop
        split
        · rename_i post err res
          rwa [res] at voted
        · rename_i post vote res
          rwa [res] at voted

lemma Keeps.handle (same : mgr.committee = comm)
    (sound : Sound crypto (Endorsed faulty cast) mgr)
    (hashed : ∀ ballot ∈ cast, ballot.proposalHash.length = 32) (event : EpochEvent)
    (unforged : ∀ vote ∈ event.received, vote.voterValue ∉ faulty →
      Verified crypto comm vote → ∃ ballot ∈ cast, ballot.voterValue = vote.voterValue ∧
        signedText comm ballot = signedText comm vote) :
    Keeps crypto comm faulty cast (handle crypto keyPair mgr node event) := by
  cases event with
  | processBlockEpochChange nowMs prop votes =>
    cases prop with
    | none =>
      obtain ⟨same, sound⟩ := Keeps.processVotes votes same sound hashed unforged
      exact ⟨same, by simpa [EpochNetwork.handle, processBlockEpochChange] using sound,
        by simp [EpochNetwork.handle, processBlockEpochChange]⟩
    | some prop =>
      obtain ⟨same, sound, hashedMore⟩ := @Keeps.processBlockProposal crypto comm faulty
        keyPair mgr cast node same sound nowMs prop
      obtain ⟨same, sound⟩ := Keeps.processVotes votes same sound
        (fun ballot mem => (mem_append.mp mem).elim (hashed ballot) (hashedMore ballot))
        (fun vote recv honest verified => by
          obtain ⟨ballot, mem, agrees⟩ := unforged vote recv honest verified
          exact ⟨ballot, mem_append_left _ mem, agrees⟩)
      exact ⟨same, sound, hashedMore⟩
  | processProposal nowMs prop =>
    have processed := sound.processProposal nowMs prop
    exact ⟨(processProposal_committee nowMs prop).trans same,
      by simpa [EpochNetwork.handle] using processed, by simp [EpochNetwork.handle]⟩
  | voteOnProposal nowMs prop => exact Keeps.voteOnProposal same sound nowMs prop
  | processVote vote =>
    have processed := sound.processVote fun pending verified =>
      endorsed_of_verified sound hashed (unforged vote mem_cons_self) pending
        (same ▸ verified)
    exact ⟨(processVote_committee vote).trans same,
      by simpa [EpochNetwork.handle] using processed, by simp [EpochNetwork.handle]⟩

lemma eq_of_step {network next : EpochNetwork} {event : EpochEvent}
    (taken : network.step crypto comm faulty keyPair (node, event) = some next) :
    next = { managers := Function.update network.managers node
               (handle crypto keyPair (network.managers node) node event).1
             cast := network.cast ++
               (handle crypto keyPair (network.managers node) node event).2 } := by
  by_cases acts : node ∈ comm.everyone \ faulty
  · rw [EpochNetwork.step, if_pos acts] at taken
    exact (some.inj taken).symm
  · rw [EpochNetwork.step, if_neg acts] at taken
    cases taken

lemma Attested.step {network next : EpochNetwork}
    (attested : Attested crypto comm faulty network)
    {act : AuthorityIndex × EpochEvent}
    (unforged : Unforged crypto comm faulty network act)
    (taken : network.step crypto comm faulty keyPair act = some next) :
    Attested crypto comm faulty next := by
  obtain ⟨node, event⟩ := act
  have keeps := @Keeps.handle crypto comm faulty keyPair _ network.cast node
    (attested.sameCommittee node) (attested.sound node) attested.hashed event unforged
  rw [eq_of_step taken]
  refine ⟨fun other => ?_, fun other => ?_, fun ballot mem => ?_⟩
  · by_cases acts : other = node
    · subst acts
      simpa only [Function.update_self] using keeps.sameCommittee
    · simpa only [Function.update_of_ne acts] using attested.sameCommittee other
  · by_cases acts : other = node
    · subst acts
      simpa only [Function.update_self] using keeps.sound
    · simpa only [Function.update_of_ne acts] using
        (attested.sound other).mono fun _ => endorsed_append
  · exact (mem_append.mp mem).elim (attested.hashed ballot) (keeps.hashed ballot)

end Steps

/-- Whenever two proposals have a quorum at honest validators, some honest member cast
approving votes that match both in the part of the hash that votes are signed over. -/
theorem approved_proposals_share_honest_approver (crypto : EpochCrypto) (comm : Committee)
    (faulty : Finset AuthorityIndex) (keyPair : AuthorityIndex → ProtocolKeyPair)
    (tolerated : weigh comm.stake faulty ≤ comm.faultTolerance)
    (epochs : AuthorityIndex → Epoch) (epochStarts : AuthorityIndex → BlockTimestampMs)
    {sched : List (AuthorityIndex × EpochEvent)} {final : EpochNetwork}
    (unforged : Heeds (step crypto comm faulty keyPair) (Unforged crypto comm faulty)
      (start comm epochs epochStarts) sched)
    (ran : run (step crypto comm faulty keyPair) (start comm epochs epochStarts)
      sched = some final)
    {left right : AuthorityIndex} {leftProposal rightProposal : EpochChangeProposal}
    (leftApproved : (final.managers left).checkProposalQuorum crypto leftProposal = some true)
    (rightApproved :
      (final.managers right).checkProposalQuorum crypto rightProposal = some true) :
    ∃ voter ∈ comm.everyone \ faulty, ∀ prop ∈ [leftProposal, rightProposal],
      ∃ ballot ∈ final.cast, ballot.voterValue = voter ∧ ballot.approve = true ∧
        ballot.proposalHash.take 8 = (hashProposal crypto prop).take 8 := by
  have attested : Attested crypto comm faulty final :=
    invariant (fun _ _ _ holds unforged taken => holds.step unforged taken)
      ⟨fun _ => rfl, fun _ => sound_of_empty rfl rfl, by simp [start]⟩ unforged ran
  -- each approver of a proposal that is honest has cast a matching vote
  have approvers : ∀ node prop,
      (final.managers node).checkProposalQuorum crypto prop = some true →
      ∃ approvers ⊆ comm.everyone,
        comm.quorumThreshold ≤ weigh comm.stake approvers ∧
        ∀ voter ∈ approvers, voter ∉ faulty → ∃ ballot ∈ final.cast,
          ballot.voterValue = voter ∧ ballot.approve = true ∧
            ballot.proposalHash.take 8 = (hashProposal crypto prop).take 8 := by
    intro node prop approved
    obtain ⟨approvers, members, reaches, approve⟩ :=
      approvers_of_quorum (attested.sound node).keyed approved
    rw [attested.sameCommittee] at members reaches
    refine ⟨approvers, members, reaches, fun voter approver honest => ?_⟩
    obtain ⟨vote, stored, rfl, approves⟩ := approve voter approver
    obtain ⟨key, got⟩ := mem_votesFor.mp stored
    obtain ⟨ballot, mem, sameVoter, verdict, head⟩ :=
      (attested.sound node).justified _ _ _ got honest
    rw [((attested.sound node).keyed _ _ _ got).1] at head
    exact ⟨ballot, mem, sameVoter, verdict.trans approves, head⟩
  obtain ⟨leftApprovers, leftMembers, leftReaches, leftCast⟩ :=
    approvers left leftProposal leftApproved
  obtain ⟨rightApprovers, rightMembers, rightReaches, rightCast⟩ :=
    approvers right rightProposal rightApproved
  obtain ⟨voter, inLeft, inRight, honest⟩ := comm.quorums_share_correct leftMembers
    rightMembers leftReaches rightReaches tolerated
  refine ⟨voter, Finset.mem_sdiff.mpr ⟨leftMembers inLeft, honest⟩, ?_⟩
  simp only [mem_cons, not_mem_nil, or_false, forall_eq_or_imp, forall_eq]
  exact ⟨leftCast voter inLeft honest, rightCast voter inRight honest⟩

def voteOnBoth (first second : EpochChangeProposal) : List (AuthorityIndex × EpochEvent) :=
  [0, 1, 2].flatMap fun node => [first, second].map fun prop =>
    (node, .processBlockEpochChange 0 (some prop) [])

def collectVotes (first second : EpochChangeProposal) : List (AuthorityIndex × EpochEvent) :=
  [1, 2].flatMap fun voter => [first, second].map fun prop =>
    (0, .processVote (.ofMember prop voter))

instance (crypto : EpochCrypto) (comm : Committee) (vote : EpochChangeVote) :
    Decidable (Verified crypto comm vote) :=
  decidable_of_iff ((comm.authorities[vote.voterValue]?.any fun mem =>
    crypto.verify mem.protocolKey (voteMessage vote.proposalHash vote.approve mem.stake)
      vote.signatureBytes) = true) (by simp [Verified, Option.any_eq_true])

instance (crypto : EpochCrypto) (comm : Committee) (faulty : Finset AuthorityIndex)
    (network : EpochNetwork) (act : AuthorityIndex × EpochEvent) :
    Decidable (Unforged crypto comm faulty network act) :=
  inferInstanceAs (Decidable (∀ vote ∈ act.2.received, _))

theorem two_proposals_approved :
    ∃ sched final,
      Heeds (step .transparent .ofFour ∅ fun node => [UInt8.ofNat node])
        (Unforged .transparent .ofFour ∅) (start .ofFour 0 0) sched ∧
      run (step .transparent .ofFour ∅ fun node => [UInt8.ofNat node]) (start .ofFour 0 0)
        sched = some final ∧
      (EpochChangeProposal.ofMember 0 5 0).newEpoch =
        (EpochChangeProposal.ofMember 1 5 0).newEpoch ∧
      hashProposal .transparent (.ofMember 0 5 0) ≠ hashProposal .transparent (.ofMember 1 5 0) ∧
      (final.managers 0).checkProposalQuorum .transparent (.ofMember 0 5 0) = some true ∧
      (final.managers 0).checkProposalQuorum .transparent (.ofMember 1 5 0) = some true := by
  refine ⟨voteOnBoth (.ofMember 0 5 0) (.ofMember 1 5 0) ++
    collectVotes (.ofMember 0 5 0) (.ofMember 1 5 0), ?_⟩
  obtain ⟨final, ran, approved⟩ := @exists_reached _ _
    (step .transparent .ofFour ∅ fun node => [UInt8.ofNat node]) (start .ofFour 0 0)
    (voteOnBoth (.ofMember 0 5 0) (.ofMember 1 5 0) ++
      collectVotes (.ofMember 0 5 0) (.ofMember 1 5 0))
    (fun final =>
      (final.managers 0).checkProposalQuorum .transparent (.ofMember 0 5 0) = some true ∧
      (final.managers 0).checkProposalQuorum .transparent (.ofMember 1 5 0) = some true)
    _ (by decide +kernel)
  exact ⟨final, heeds_of_checks (fun _ _ => of_decide_eq_true) (by decide +kernel), ran, rfl,
    by decide +kernel, approved⟩

theorem both_approved_by_honest_member :
    weigh Committee.ofFour.stake ∅ ≤ Committee.ofFour.faultTolerance ∧
    ∃ final, run (step .transparent .ofFour ∅ fun node => [UInt8.ofNat node])
        (start .ofFour 0 0) (voteOnBoth (.ofMember 0 5 0) (.ofMember 1 5 0) ++
          collectVotes (.ofMember 0 5 0) (.ofMember 1 5 0)) = some final ∧
      ∃ voter ∈ Committee.ofFour.everyone \ ∅,
        ∀ prop ∈ [EpochChangeProposal.ofMember 0 5 0, .ofMember 1 5 0],
        ∃ ballot ∈ final.cast, ballot.voterValue = voter ∧ ballot.approve = true ∧
          ballot.proposalHash.take 8 = (hashProposal .transparent prop).take 8 := by
  obtain ⟨final, ran, left, right⟩ := @exists_reached _ _
    (step .transparent .ofFour ∅ fun node => [UInt8.ofNat node]) (start .ofFour 0 0)
    (voteOnBoth (.ofMember 0 5 0) (.ofMember 1 5 0) ++
      collectVotes (.ofMember 0 5 0) (.ofMember 1 5 0))
    (fun final =>
      (final.managers 0).checkProposalQuorum .transparent (.ofMember 0 5 0) = some true ∧
      (final.managers 0).checkProposalQuorum .transparent (.ofMember 1 5 0) = some true)
    _ (by decide +kernel)
  refine ⟨by decide, final, ran, approved_proposals_share_honest_approver .transparent .ofFour ∅
    _ (by decide) 0 0 ?_ ran left right⟩
  exact heeds_of_checks (fun _ _ => of_decide_eq_true) (by decide +kernel)

end EpochNetwork

end Mysticeti
