import Mathlib.Data.List.AList
import Mysticeti.Committee

/-!
# Proposals and votes for the change of the epoch

Each node keeps the proposals for the next epoch and the votes on them. Proposals are known
by the hash of their content, which leaves out the time of creation; a vote is signed over
the first eight bytes of that hash. The hash maps of the implementation are association
lists with distinct keys, in the order in which the map iterates; nothing is assumed about
that order.

Hashing and signing are library code, the parameters `EpochCrypto`. The clock is read by the
caller of each operation. An operation returns the manager also when it is refused, because
the check of a proposal may have changed the start of the epoch before it fails.
-/

namespace Mysticeti

abbrev ProtocolKeyPair := Bytes

/-- The library functions on messages. Digests have 32 bytes. -/
structure EpochCrypto where
  digest : String → Bytes
  digest_length : ∀ text, (digest text).length = 32
  sign : ProtocolKeyPair → String → Bytes
  /-- The bytes are a signature, and it verifies under the protocol key. -/
  verify : Bytes → String → Bytes → Bool

/-- Addition of 32-bit counters, which stops at the largest one. -/
def saturatingAdd (left right : CommitIndex) : CommitIndex := min (left + right) (2 ^ 32 - 1)

def hexByte (byte : UInt8) : List Char :=
  [Nat.digitChar (byte.toNat / 16), Nat.digitChar (byte.toNat % 16)]

def hexEncode (bytes : Bytes) : String := String.ofList (bytes.flatMap hexByte)

structure EpochChangeProposal where
  newEpoch : Epoch
  newEpochTimestampMs : BlockTimestampMs
  proposalCommitIndex : CommitIndex
  proposerValue : AuthorityIndex
  signatureBytes : Bytes
  createdAtSeconds : Nat
deriving DecidableEq, Repr, Inhabited

structure EpochChangeVote where
  proposalHash : Bytes
  voterValue : AuthorityIndex
  approve : Bool
  signatureBytes : Bytes
deriving DecidableEq, Repr, Inhabited

/-- Why an operation is refused: one constructor for each error of the implementation, and
one for the panic of a committee that is asked for an authority it does not have. -/
inductive EpochChangeRefusal where
  | epochMustIncrementByOne
  | syncedTimestampTooFarInFuture (difference : Int)
  | timestampOutOfRange (difference : Int)
  | invalidProposer
  | invalidProposalSignature
  | targetEpochNotGreater (target current : Epoch)
  | duplicateProposal
  | voteForUnknownProposal
  | invalidVoter
  | invalidVoteSignature
  | authorityOutOfBounds (idx : AuthorityIndex)
deriving DecidableEq, Repr

structure EpochChangeManager where
  currentEpoch : Epoch
  committee : Committee
  epochStartTimestampMs : BlockTimestampMs
  pendingProposals : AList (fun _ : Bytes => EpochChangeProposal)
  /-- By proposal hash, then by voter. -/
  proposalVotes : AList (fun _ : Bytes => AList (fun _ : AuthorityIndex => EpochChangeVote))
  seenProposals : Finset Bytes

namespace EpochChangeManager

def new (currentEpoch : Epoch) (comm : Committee)
    (epochStartTimestampMs : BlockTimestampMs) : EpochChangeManager :=
  { currentEpoch, committee := comm, epochStartTimestampMs
    pendingProposals := ∅
    proposalVotes := ∅
    seenProposals := ∅ }

def resetForNewEpoch (mgr : EpochChangeManager) (newEpoch : Epoch)
    (newEpochStartTimestampMs : BlockTimestampMs) : EpochChangeManager :=
  { mgr with
    currentEpoch := newEpoch
    epochStartTimestampMs := newEpochStartTimestampMs
    pendingProposals := ∅
    proposalVotes := ∅
    seenProposals := ∅ }

section Operations

variable (crypto : EpochCrypto)

variable (mgr : EpochChangeManager) (prop : EpochChangeProposal) (nowMs : Nat)
  (vote : EpochChangeVote) (now : Nat)

def hashProposal : Bytes :=
  let ⟨newEpoch, newEpochTimestampMs, proposalCommitIndex, proposerValue, _, _⟩ := prop
  crypto.digest s!"{newEpoch}-{newEpochTimestampMs}-{proposalCommitIndex}-{proposerValue}"

def proposalMessage (newEpoch : Epoch) (newEpochTimestampMs : BlockTimestampMs)
    (proposalCommitIndex : CommitIndex) (proposer : AuthorityIndex) : String :=
  s!"epoch_change:{newEpoch}:{newEpochTimestampMs}:{proposalCommitIndex}:{proposer}"

def voteMessage (hash : Bytes) (approve : Bool) (stake : Stake) : String :=
  s!"epoch_vote:{hexEncode (hash.take 8)}:{approve}:{stake}"

def toSigned (val : Nat) : Int := Int.bmod val (2 ^ 64)

def maxPastMsNormal : Int := 5 * 60 * 1000
def maxFutureMs : Int := 24 * 60 * 60 * 1000

def verifyProposalSignature : Except EpochChangeRefusal Unit :=
  match mgr.committee.authorities[prop.proposerValue]? with
  | none => .error (.authorityOutOfBounds prop.proposerValue)
  | some proposer =>
    if crypto.verify proposer.protocolKey (proposalMessage prop.newEpoch
        prop.newEpochTimestampMs prop.proposalCommitIndex prop.proposerValue)
        prop.signatureBytes then .ok ()
    else .error .invalidProposalSignature

def validateProposer : Except EpochChangeRefusal Unit :=
  if mgr.committee.isValidIndex prop.proposerValue then
    mgr.verifyProposalSignature crypto prop
  else .error .invalidProposer

/-- A proposal is for the next epoch, with a start not too far in the future. One whose
start is long past means that this node is catching up: it takes over the start. -/
def validateProposal
    (prop : EpochChangeProposal) : EpochChangeManager × Except EpochChangeRefusal Unit :=
  if prop.newEpoch ≠ mgr.currentEpoch + 1 then
    (mgr, .error .epochMustIncrementByOne)
  else
    let difference := Int.bmod (toSigned nowMs - toSigned prop.newEpochTimestampMs) (2 ^ 64)
    if difference > maxPastMsNormal then
      let synced := { mgr with epochStartTimestampMs := prop.newEpochTimestampMs }
      if difference ≥ -maxFutureMs then (synced, synced.validateProposer crypto prop)
      else (synced, .error (.syncedTimestampTooFarInFuture difference))
    else if difference ≤ maxPastMsNormal ∧ difference ≥ -maxFutureMs then
      (mgr, mgr.validateProposer crypto prop)
    else (mgr, .error (.timestampOutOfRange difference))

def storeProposal : EpochChangeManager :=
  { mgr with
    pendingProposals := mgr.pendingProposals.insert (hashProposal crypto prop) prop
    seenProposals := insert (hashProposal crypto prop) mgr.seenProposals }

def createProposal (newEpoch : Epoch)
    (newEpochTimestampMs : BlockTimestampMs) (proposalCommitIndex : CommitIndex)
    (proposer : AuthorityIndex) (keyPair : ProtocolKeyPair) :
    EpochChangeManager × Except EpochChangeRefusal EpochChangeProposal :=
  let prop : EpochChangeProposal :=
    { newEpoch, newEpochTimestampMs, proposalCommitIndex
      proposerValue := proposer
      signatureBytes := crypto.sign keyPair
        (proposalMessage newEpoch newEpochTimestampMs proposalCommitIndex proposer)
      createdAtSeconds := now }
  if hashProposal crypto prop ∈ mgr.seenProposals then
    (mgr, .error .duplicateProposal)
  else (mgr.storeProposal crypto prop, .ok prop)

def proposeEpochChange (newEpochTimestampMs : BlockTimestampMs) (proposalCommitIndex : CommitIndex)
    (proposer : AuthorityIndex) (keyPair : ProtocolKeyPair) :
    EpochChangeManager × Except EpochChangeRefusal EpochChangeProposal :=
  mgr.createProposal crypto now (mgr.currentEpoch + 1) newEpochTimestampMs
    proposalCommitIndex proposer keyPair

def proposeEpochChangeToTargetEpoch (targetEpoch : Epoch) (newEpochTimestampMs : BlockTimestampMs)
    (proposalCommitIndex : CommitIndex) (proposer : AuthorityIndex) (keyPair : ProtocolKeyPair) :
    EpochChangeManager × Except EpochChangeRefusal EpochChangeProposal :=
  if targetEpoch ≤ mgr.currentEpoch then
    (mgr, .error (.targetEpochNotGreater targetEpoch mgr.currentEpoch))
  else mgr.createProposal crypto now targetEpoch newEpochTimestampMs
    proposalCommitIndex proposer keyPair

def processProposal
    (prop : EpochChangeProposal) : EpochChangeManager × Except EpochChangeRefusal Unit :=
  if hashProposal crypto prop ∈ mgr.pendingProposals then (mgr, .ok ())
  else
    match mgr.validateProposal crypto nowMs prop with
    | (validated, .error err) => (validated, .error err)
    | (validated, .ok ()) => (validated.storeProposal crypto prop, .ok ())

def shouldApproveProposal (_proposal : EpochChangeProposal) : Bool := true

def storeVote : EpochChangeManager :=
  let votes := (mgr.proposalVotes.lookup vote.proposalHash).getD ∅
  { mgr with
    proposalVotes :=
      mgr.proposalVotes.insert vote.proposalHash (votes.insert vote.voterValue vote) }

def voteOnProposal
    (prop : EpochChangeProposal) (voter : AuthorityIndex) (keyPair : ProtocolKeyPair) :
    EpochChangeManager × Except EpochChangeRefusal EpochChangeVote :=
  match mgr.validateProposal crypto nowMs prop with
  | (validated, .error err) => (validated, .error err)
  | (validated, .ok ()) =>
    match validated.committee.authorities[voter]? with
    | none => (validated, .error (.authorityOutOfBounds voter))
    | some auth =>
      let approve := shouldApproveProposal prop
      let hash := hashProposal crypto prop
      let vote : EpochChangeVote :=
        { proposalHash := hash
          voterValue := voter
          approve
          signatureBytes := crypto.sign keyPair
            (voteMessage hash approve auth.stake) }
      (validated.storeVote vote, .ok vote)

def validateVote : Except EpochChangeRefusal Unit :=
  if vote.proposalHash ∈ mgr.pendingProposals then
    match mgr.committee.authorities[vote.voterValue]? with
    | none => .error .invalidVoter
    | some voter =>
      if crypto.verify voter.protocolKey
          (voteMessage vote.proposalHash vote.approve voter.stake) vote.signatureBytes then
        .ok ()
      else .error .invalidVoteSignature
  else .error .voteForUnknownProposal

def processVote : EpochChangeManager × Except EpochChangeRefusal Unit :=
  match mgr.validateVote crypto vote with
  | .error err => (mgr, .error err)
  | .ok () => (mgr.storeVote vote, .ok ())

def votesFor (hash : Bytes) : List EpochChangeVote :=
  ((mgr.proposalVotes.lookup hash).getD ∅).entries.map Sigma.snd

def voteStake (votes : List EpochChangeVote) (approve : Bool) : Stake :=
  ((votes.filter fun vote => vote.approve == approve).map fun vote =>
    mgr.committee.stake vote.voterValue).sum

def checkProposalQuorum : Option Bool :=
  match mgr.proposalVotes.lookup (hashProposal crypto prop) with
  | none => none
  | some _ =>
    let votes := mgr.votesFor (hashProposal crypto prop)
    if mgr.committee.quorumThreshold ≤ mgr.voteStake votes true then some true
    else if mgr.committee.quorumThreshold ≤ mgr.voteStake votes false then some false
    else none

structure Bypass where
  singleNode : Bool
  localhostTesting : Bool
deriving DecidableEq, Repr

/-- Neither variable is set. -/
def Bypass.unset : Bypass := ⟨false, false⟩

def maxEpochLagForQuorum : Epoch := 2
def timeoutSeconds : Nat := 300

/-- A proposal is ready at its barrier, or when it has a quorum and is old enough. It needs
a quorum unless this node is far behind. -/
def shouldTransition (bypass : Bypass) (now : Nat)
    (prop : EpochChangeProposal) (currentCommitIndex : CommitIndex) : Bool :=
  if bypass.singleNode then true
  else
    let quorumReached := (mgr.checkProposalQuorum crypto prop).getD false
    let isCatchupMode := decide (maxEpochLagForQuorum < prop.newEpoch - mgr.currentEpoch)
    if bypass.localhostTesting then true
    else if !quorumReached && !isCatchupMode then false
    else
      let barrierReached := decide (saturatingAdd prop.proposalCommitIndex 10 ≤ currentCommitIndex)
      let timeoutReached := decide (timeoutSeconds ≤ now - prop.createdAtSeconds)
      barrierReached || (timeoutReached && quorumReached) || (isCatchupMode && barrierReached)

def allPendingProposals : List EpochChangeProposal := mgr.pendingProposals.entries.map Sigma.snd

def getTransitionReadyProposal (bypass : Bypass)
    (now : Nat) (currentCommitIndex : CommitIndex) : Option EpochChangeProposal :=
  let ready := fun prop => mgr.shouldTransition crypto bypass now prop currentCommitIndex
  match mgr.allPendingProposals.find? fun prop =>
      prop.newEpoch == mgr.currentEpoch + 1 && ready prop with
  | some prop => some prop
  | none => mgr.allPendingProposals.find? ready

def processVotes (votes : List EpochChangeVote) : EpochChangeManager :=
  votes.foldl (fun mgr vote =>
    if vote.proposalHash ∈ mgr.pendingProposals then (mgr.processVote crypto vote).1
    else mgr) mgr

/-- The proposal of a block. One for the next epoch is processed, and this node votes on it
unless it did so before; returns the vote it casts. -/
def processBlockProposal (ownIndex : AuthorityIndex)
    (keyPair : ProtocolKeyPair) (prop : EpochChangeProposal) :
    EpochChangeManager × Option EpochChangeVote :=
  if prop.newEpoch ≠ mgr.currentEpoch + 1 then (mgr, none)
  else
    match mgr.processProposal crypto nowMs prop with
    | (processed, .error _) => (processed, none)
    | (processed, .ok ()) =>
      let votes := (processed.proposalVotes.lookup (hashProposal crypto prop)).getD ∅
      if ownIndex ∈ votes then (processed, none)
      else
        match processed.voteOnProposal crypto nowMs prop ownIndex keyPair with
        | (voted, .error _) => (voted, none)
        | (voted, .ok vote) => (voted, some vote)

def processBlockEpochChange (ownIndex : AuthorityIndex) (keyPair : ProtocolKeyPair)
    (prop : Option EpochChangeProposal) (votes : List EpochChangeVote) :
    EpochChangeManager × Option EpochChangeVote :=
  match prop with
  | none => (mgr.processVotes crypto votes, none)
  | some prop =>
    let (processed, cast) := mgr.processBlockProposal crypto nowMs ownIndex keyPair prop
    (processed.processVotes crypto votes, cast)

end Operations

end EpochChangeManager

def textBytes (text : String) : Bytes := text.toList.map fun char => UInt8.ofNat char.toNat

/-- Messages that are their own digest and signature, for runs on fixed inputs. -/
def EpochCrypto.transparent : EpochCrypto where
  digest text := (textBytes text ++ List.replicate 32 0).take 32
  digest_length text := by simp
  sign key text := key ++ textBytes text
  verify key text signature := signature == key ++ textBytes text

def Committee.ofFour : Committee where
  epoch := 0
  authorities := (List.range 4).map fun idx => ⟨1, [], "localhost", [], [UInt8.ofNat idx], []⟩
  nonempty := by decide
  representable := by decide
  staked := by decide

def EpochChangeProposal.ofMember (proposer : AuthorityIndex) (proposalCommitIndex : CommitIndex)
    (createdAtSeconds : Nat) : EpochChangeProposal where
  newEpoch := 1
  newEpochTimestampMs := 0
  proposalCommitIndex := proposalCommitIndex
  proposerValue := proposer
  signatureBytes := EpochCrypto.transparent.sign [UInt8.ofNat proposer]
    (EpochChangeManager.proposalMessage 1 0 proposalCommitIndex proposer)
  createdAtSeconds := createdAtSeconds

def EpochChangeVote.ofMember (prop : EpochChangeProposal) (voter : AuthorityIndex) :
    EpochChangeVote :=
  let hash := EpochChangeManager.hashProposal .transparent prop
  { proposalHash := hash
    voterValue := voter
    approve := true
    signatureBytes := EpochCrypto.transparent.sign [UInt8.ofNat voter]
      (EpochChangeManager.voteMessage hash true 1) }

end Mysticeti
