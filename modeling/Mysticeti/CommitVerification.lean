import Mysticeti.BlockVerifier
import Mysticeti.Storage

/-!
# Commits from a peer

A node that fell behind fetches commits with blocks that vote for the last of them. It accepts the
answer when the commits continue one another from the start of the requested range, and verified
blocks of a quorum vote for the last one. Since each commit carries the digest of the one before,
the vote covers them all.

Decoding and hashing of what a peer sent, and the check of transactions by the application, are
parameters: a peer may send anything.
-/

namespace Mysticeti

open List Option Lib.Outcome Lib.Quorum

structure WireCodec where
  decodeCommit : Bytes → Option Commit
  computeDigest : Bytes → CommitDigest
  decodeBlock : Bytes → Option SignedBlock

structure TransactionVerifier where
  verifyBatch : List Bytes → Bool
  verifyAndVoteBatch : BlockRef → List Bytes → Option (List TransactionIndex)

inductive CommitSyncError where
  | malformedCommit
  | unexpectedStartCommit (peer : AuthorityIndex) (start : CommitIndex) (commit : Commit)
  | unexpectedCommitSequence (peer : AuthorityIndex) (prevCommit currCommit : Commit)
  | noCommitReceived (peer : AuthorityIndex)
  | malformedBlock
  | invalidBlock (error : ConsensusError)
  | invalidTransaction
  | notEnoughCommitVotes (stake : Stake) (peer : AuthorityIndex) (commit : Commit)
deriving DecidableEq, Repr

namespace VerifiedBlock

def commitVotes (verified : VerifiedBlock) : List CommitVote := verified.block.inner.commitVotes

end VerifiedBlock

section Verification

variable (ctx : Context) (codec : WireCodec) (verifier : TransactionVerifier)
  (peer : AuthorityIndex) (commitRange : CommitRange)

def verifyAndVote (signed : SignedBlock) :
    Except CommitSyncError (VerifiedBlock × List TransactionIndex) :=
  match verifyBlock ctx signed with
  | .error err => .error (.invalidBlock err)
  | .ok () =>
    let verified := VerifiedBlock.newVerified ctx signed
    let data := signed.inner.transactions.map Transaction.data
    if ctx.protocolConfig.mysticetiFastpath then do
      let rejected ← expect (verifier.verifyAndVoteBatch verified.reference data)
        .invalidTransaction
      pure (verified, rejected)
    else do
      ensure (verifier.verifyBatch data = true) CommitSyncError.invalidTransaction
      pure (verified, [])

/-- The loop over the commits, with those accepted before. Commits past the end of the range are
not looked at. -/
def checkCommits : List Bytes → List TrustedCommit → Except CommitSyncError (List TrustedCommit)
  | [], commits => .ok commits
  | serialized :: rest, commits => do
    let commit ← expect (codec.decodeCommit serialized) .malformedCommit
    match commits.getLast? with
    | none =>
      ensure (commit.index = commitRange.start)
        (.unexpectedStartCommit peer commitRange.start commit)
    | some last =>
      ensure (commit.index = last.index + 1 ∧ commit.previousDigest = last.digest)
        (.unexpectedCommitSequence peer last.inner commit)
    if commitRange.last < commit.index then pure commits
    else checkCommits rest (commits ++ [⟨commit, codec.computeDigest serialized⟩])

structure VoteTally where
  stakeAggregator : StakeAggregator
  voteBlocks : List VerifiedBlock

def countCommitVotes (endCommit : CommitRef) (blk : VerifiedBlock)
    (agg : StakeAggregator) : StakeAggregator :=
  blk.commitVotes.foldl (fun counted vote =>
    if vote = endCommit then (counted.add blk.author ctx.committee).1 else counted)
    agg

def tallyVote (endCommit : CommitRef) (tally : VoteTally) (serialized : Bytes) :
    Except CommitSyncError VoteTally := do
  let signed ← expect (codec.decodeBlock serialized) .malformedBlock
  let (blk, _) ← verifyAndVote ctx verifier signed
  pure ⟨countCommitVotes ctx endCommit blk tally.stakeAggregator, tally.voteBlocks ++ [blk]⟩

def verifyCommits (serializedCommits serializedVoteBlocks : List Bytes) :
    Except CommitSyncError (List TrustedCommit × List VerifiedBlock) := do
  let commits ← checkCommits codec peer commitRange serializedCommits []
  let endCommit ← expect commits.getLast? (.noCommitReceived peer)
  let tally ← serializedVoteBlocks.foldlM (tallyVote ctx codec verifier endCommit.reference)
    ⟨.new, []⟩
  ensure (ctx.committee.reachedQuorum tally.stakeAggregator.stake)
    (.notEnoughCommitVotes tally.stakeAggregator.stake peer endCommit.inner)
  pure (commits, tally.voteBlocks)

end Verification

/-- The later commit continues the earlier one. -/
def TrustedCommit.Succeeds (prev later : TrustedCommit) : Prop :=
  later.index = prev.index + 1 ∧ later.previousDigest = prev.digest

structure CommitsChained (chain : List TrustedCommit) : Prop where
  first : ∀ commit ∈ chain.head?, commit.index = 1
  linked : chain.IsChain TrustedCommit.Succeeds

section Chains

variable {chain commits : List TrustedCommit}

lemma CommitsChained.predecessor (chained : CommitsChained chain) {commit : TrustedCommit}
    (mem : commit ∈ chain) (later : commit.index ≠ 1) :
    ∃ prev ∈ chain, prev.Succeeds commit := by
  obtain ⟨pre, post, rfl⟩ := append_of_mem mem
  rcases eq_nil_or_concat' pre with rfl | ⟨others, previous, rfl⟩
  · exact absurd (chained.first commit rfl) later
  · have linked := chained.linked
    rw [append_assoc, singleton_append] at linked
    refine ⟨previous, by simp, ?_⟩
    exact (isChain_cons_cons.mp (isChain_append.mp linked).2.1).1

lemma CommitsChained.of_last (chained : CommitsChained chain)
    (linked : commits.IsChain TrustedCommit.Succeeds)
    (collisionFree : ∀ commit ∈ commits, ∀ other ∈ chain,
      commit.digest = other.digest → commit = other)
    (last : ∀ commit ∈ commits.getLast?, commit ∈ chain) :
    ∀ commit ∈ commits, 0 < commit.index → commit ∈ chain := by
  induction commits with
  | nil => simp
  | cons commit rest ih =>
    cases rest with
    | nil =>
      intro other mem _
      rw [mem_singleton.mp mem]
      exact last commit rfl
    | cons next rest =>
      obtain ⟨succeeds, linked⟩ := isChain_cons_cons.mp linked
      have others := ih linked
        (fun other mem => collisionFree other (mem_cons_of_mem _ mem))
        (fun other isLast => last other (by rwa [getLast?_cons_cons]))
      intro other mem pos
      rcases mem_cons.mp mem with rfl | mem
      · have nextIndex := succeeds.1
        obtain ⟨prev, inChain, continued⟩ := chained.predecessor
          (others next mem_cons_self (by lia)) (by lia)
        have same : other = prev := collisionFree other mem_cons_self prev inChain
          (succeeds.2.symm.trans continued.2)
        rw [same]
        exact inChain
      · exact others other mem pos

variable {last : TrustedCommit} {left right : List TrustedCommit}

lemma index_lt_of_chain (linked : (last :: left).IsChain (flip TrustedCommit.Succeeds)) :
    ∀ commit ∈ left, commit.index < last.index := by
  have falling := isChain_iff_pairwise.mp ((isChain_map TrustedCommit.index).mpr
    (linked.imp fun {later commit} succeeds => show later.index > commit.index by
      rw [succeeds.1]
      exact Nat.lt_succ_self _))
  exact fun commit mem => (pairwise_cons.mp falling).1 _ (mem_map_of_mem mem)

/-- Two chains before one commit agree where both have a commit. -/
lemma eq_of_chains (leftLinked : (last :: left).IsChain (flip TrustedCommit.Succeeds))
    (rightLinked : (last :: right).IsChain (flip TrustedCommit.Succeeds))
    (collisionFree : ∀ one ∈ left, ∀ two ∈ right, one.digest = two.digest → one = two) :
    ∀ one ∈ left, ∀ two ∈ right, one.index = two.index → one = two := by
  induction left generalizing last right with
  | nil => simp
  | cons prev pre ih =>
    cases right with
    | nil => simp
    | cons other rest =>
      obtain ⟨leftStep, leftLinked⟩ := isChain_cons_cons.mp leftLinked
      obtain ⟨rightStep, rightLinked⟩ := isChain_cons_cons.mp rightLinked
      obtain rfl := collisionFree prev mem_cons_self other mem_cons_self
        (leftStep.2.symm.trans rightStep.2)
      intro one inLeft two inRight same
      rcases mem_cons.mp inLeft with rfl | oneBefore
      · rcases mem_cons.mp inRight with rfl | twoBefore
        · rfl
        · exact absurd same (index_lt_of_chain rightLinked two twoBefore).ne'
      · rcases mem_cons.mp inRight with rfl | twoBefore
        · exact absurd same (index_lt_of_chain leftLinked one oneBefore).ne
        · exact ih leftLinked rightLinked (fun one mem two inside => collisionFree one
            (mem_cons_of_mem _ mem) two (mem_cons_of_mem _ inside)) one oneBefore two twoBefore same

end Chains

section Soundness

variable {ctx : Context} {codec : WireCodec} {verifier : TransactionVerifier}
  {peer : AuthorityIndex} {commitRange : CommitRange} {commits : List TrustedCommit}

/-- The commits accepted so far. -/
structure Accepts (codec : WireCodec) (commitRange : CommitRange) (serialized : List Bytes)
    (commits : List TrustedCommit) : Prop where
  start : ∀ commit ∈ commits.head?, commit.index = commitRange.start
  linked : commits.IsChain TrustedCommit.Succeeds
  inside : ∀ commit ∈ commits, commit.index ≤ commitRange.last
  decoded : ∀ commit ∈ commits, ∃ bytes ∈ serialized,
    codec.decodeCommit bytes = some commit.inner ∧ codec.computeDigest bytes = commit.digest

lemma accepts_nil (codec : WireCodec) (commitRange : CommitRange) (serialized : List Bytes) :
    Accepts codec commitRange serialized [] :=
  ⟨by simp, .nil, by simp, by simp⟩

lemma Accepts.append {serialized : List Bytes}
    (accepts : Accepts codec commitRange serialized commits) {bytes : Bytes} {commit : Commit}
    (decodes : codec.decodeCommit bytes = some commit)
    (starts : commits = [] → commit.index = commitRange.start)
    (continues : ∀ last ∈ commits.getLast?,
      commit.index = last.index + 1 ∧ commit.previousDigest = last.digest)
    (inside : commit.index ≤ commitRange.last) :
    Accepts codec commitRange (serialized ++ [bytes])
      (commits ++ [⟨commit, codec.computeDigest bytes⟩]) where
  start := by
    rcases eq_nil_or_concat' commits with rfl | ⟨others, last, rfl⟩
    · intro first isFirst
      rw [← some.inj isFirst]
      exact starts rfl
    · intro first isFirst
      rw [head?_append_of_ne_nil _ (by simp)] at isFirst
      exact accepts.start first isFirst
  linked := by
    rw [isChain_append]
    refine ⟨accepts.linked, .singleton _, fun last isLast next isNext => ?_⟩
    rw [← some.inj isNext]
    exact continues last isLast
  inside := by
    intro other mem
    rcases mem_append.mp mem with prev | new
    · exact accepts.inside other prev
    · rw [mem_singleton.mp new]
      exact inside
  decoded := by
    intro other mem
    rcases mem_append.mp mem with prev | new
    · obtain ⟨source, here, same⟩ := accepts.decoded other prev
      exact ⟨source, mem_append_left _ here, same⟩
    · rw [mem_singleton.mp new]
      exact ⟨bytes, by simp, decodes, rfl⟩

lemma Accepts.mono {serialized more : List Bytes}
    (accepts : Accepts codec commitRange serialized commits) :
    Accepts codec commitRange (serialized ++ more) commits := by
  refine ⟨accepts.start, accepts.linked, accepts.inside, fun commit mem => ?_⟩
  obtain ⟨source, here, same⟩ := accepts.decoded commit mem
  exact ⟨source, mem_append_left _ here, same⟩

lemma checkCommits_accepts {serialized prev : List Bytes} {res : List TrustedCommit}
    (accepts : Accepts codec commitRange prev commits)
    (checked : checkCommits codec peer commitRange serialized commits = .ok res) :
    Accepts codec commitRange (prev ++ serialized) res := by
  induction serialized generalizing prev commits with
  | nil =>
    obtain rfl := Except.ok.inj checked
    exact accepts.mono
  | cons bytes rest ih =>
    rw [checkCommits] at checked
    obtain ⟨commit, decodes, checked⟩ := expect_bind_eq_ok.mp checked
    have ends : ∀ (starts : commits = [] → commit.index = commitRange.start)
        (continues : ∀ last ∈ commits.getLast?,
          commit.index = last.index + 1 ∧ commit.previousDigest = last.digest)
        (goesOn : (if commitRange.last < commit.index then pure commits
          else checkCommits codec peer commitRange rest
            (commits ++ [⟨commit, codec.computeDigest bytes⟩])) = .ok res),
        Accepts codec commitRange (prev ++ bytes :: rest) res := by
      intro starts continues goesOn
      split at goesOn
      case isTrue past =>
        obtain rfl := Except.ok.inj goesOn
        exact accepts.mono
      case isFalse inside =>
        rw [← singleton_append, ← append_assoc]
        exact ih
          (accepts.append decodes starts continues (Nat.le_of_not_lt inside)) goesOn
    -- the check depends on whether a commit was accepted before
    cases isLast : commits.getLast? with
    | none =>
      rw [isLast] at checked
      obtain ⟨starts, checked⟩ := ensure_bind_eq_ok.mp checked
      refine ends (fun _ => starts) ?_ checked
      rw [isLast]
      simp
    | some last =>
      rw [isLast] at checked
      obtain ⟨continues, checked⟩ := ensure_bind_eq_ok.mp checked
      refine ends ?_ ?_ checked
      · rintro rfl
        cases isLast
      · intro other isOther
        rw [isLast] at isOther
        exact some.inj isOther ▸ continues

/-- The block votes for the commit. -/
def VerifiedBlock.VotesFor (blk : VerifiedBlock) (commit : CommitRef) : Prop :=
  commit ∈ blk.commitVotes

lemma countCommitVotes_counts {endCommit : CommitRef} {blk : VerifiedBlock}
    {agg : StakeAggregator} {voters : Finset AuthorityIndex}
    (counts : agg.Counts ctx.committee voters) :
    ∃ post, (countCommitVotes ctx endCommit blk agg).Counts ctx.committee post ∧
      ∀ auth, auth ∈ post ↔ auth ∈ voters ∨ (auth = blk.author ∧ blk.VotesFor endCommit) := by
  have each : ∀ votes : List CommitVote, ∀ agg voters,
      StakeAggregator.Counts ctx.committee agg voters →
      ∃ post, StakeAggregator.Counts ctx.committee
        (votes.foldl (fun counted vote => if vote = endCommit then
          (counted.add blk.author ctx.committee).1 else counted) agg) post ∧
        ∀ auth, auth ∈ post ↔ auth ∈ voters ∨ (auth = blk.author ∧ endCommit ∈ votes) := by
    intro votes
    induction votes with
    | nil => exact fun agg voters counts => ⟨voters, counts, by simp⟩
    | cons vote rest ih =>
      intro agg voters counts
      rw [foldl_cons]
      by_cases same : vote = endCommit
      · rw [if_pos same]
        obtain ⟨post, counted, members⟩ := ih _ _
          (StakeAggregator.add_counts counts blk.author).1
        refine ⟨post, counted, fun auth => ?_⟩
        rw [members, Finset.mem_insert, same]
        simp only [mem_cons, true_or, and_true]
        tauto
      · rw [if_neg same]
        obtain ⟨post, counted, members⟩ := ih _ _ counts
        refine ⟨post, counted, fun auth => ?_⟩
        rw [members, mem_cons]
        have other : endCommit ≠ vote := fun equal => same equal.symm
        tauto
  exact each blk.commitVotes agg voters counts

lemma verifyAndVote_ok {signed : SignedBlock} {res : VerifiedBlock × List TransactionIndex}
    (verified : verifyAndVote ctx verifier signed = .ok res) :
    res.1 = VerifiedBlock.newVerified ctx signed ∧ verifyBlock ctx signed = .ok () := by
  unfold verifyAndVote at verified
  split at verified
  case h_1 => cases verified
  case h_2 valid =>
    refine ⟨?_, valid⟩
    split at verified
    · obtain ⟨_, _, verified⟩ := expect_bind_eq_ok.mp verified
      exact (Except.ok.inj verified) ▸ rfl
    · obtain ⟨_, verified⟩ := ensure_bind_eq_ok.mp verified
      exact (Except.ok.inj verified) ▸ rfl

lemma verifyBlock_signature {signed : SignedBlock}
    (acc : verifyBlock ctx signed = .ok ()) :
    ctx.crypto.verifyBlockSignature signed.inner signed.signature
      ((ctx.committee.authorities[signed.inner.author]?.map Authority.protocolKey).getD []) =
        true := by
  simp only [verifyBlock, ensure_bind_eq_ok] at acc
  obtain ⟨_, _, _, signature, _⟩ := acc
  exact signature

/-- The stake counted is that of the authors of verified blocks that vote for the commit. -/
structure Tallied (ctx : Context) (endCommit : CommitRef) (tally : VoteTally) : Prop where
  verified : ∀ blk ∈ tally.voteBlocks, verifyBlock ctx blk.block = .ok ()
  counted : ∃ voters, tally.stakeAggregator.Counts ctx.committee voters ∧
    ∀ auth, auth ∈ voters ↔ ∃ blk ∈ tally.voteBlocks, blk.author = auth ∧ blk.VotesFor endCommit

lemma tallied_new (endCommit : CommitRef) : Tallied ctx endCommit ⟨.new, []⟩ :=
  ⟨by simp, ∅, StakeAggregator.new_counts ctx.committee, by simp⟩

lemma Tallied.vote {endCommit : CommitRef} {tally next : VoteTally} {serialized : Bytes}
    (tallied : Tallied ctx endCommit tally)
    (voted : tallyVote ctx codec verifier endCommit tally serialized = .ok next) :
    Tallied ctx endCommit next := by
  rw [tallyVote] at voted
  obtain ⟨signed, _, voted⟩ := expect_bind_eq_ok.mp voted
  obtain ⟨⟨blk, rejected⟩, verified, voted⟩ := bind_eq_ok.mp voted
  obtain ⟨rfl, valid⟩ := verifyAndVote_ok verified
  obtain rfl := Except.ok.inj voted
  obtain ⟨voters, counts, members⟩ := tallied.counted
  obtain ⟨post, counted, same⟩ := @countCommitVotes_counts ctx endCommit
    (VerifiedBlock.newVerified ctx signed) _ _ counts
  refine ⟨?_, post, counted, fun auth => ?_⟩
  · intro other mem
    rcases mem_append.mp mem with prev | new
    · exact tallied.verified other prev
    · rw [mem_singleton.mp new]
      exact valid
  · rw [same, members]
    simp only [mem_append, mem_singleton, or_and_right, exists_or, exists_eq_left]
    rw [eq_comm]

lemma verifyCommits_ok {serializedCommits serializedVoteBlocks : List Bytes}
    {blocks : List VerifiedBlock}
    (verified : verifyCommits ctx codec verifier peer commitRange serializedCommits
      serializedVoteBlocks = .ok (commits, blocks)) :
    Accepts codec commitRange serializedCommits commits ∧
      ∃ last stakeAggregator, commits.getLast? = some last ∧
        Tallied ctx last.reference ⟨stakeAggregator, blocks⟩ ∧
        ctx.committee.quorumThreshold ≤ stakeAggregator.stake := by
  rw [verifyCommits] at verified
  obtain ⟨checkedCommits, checked, verified⟩ := bind_eq_ok.mp verified
  obtain ⟨last, isLast, verified⟩ := expect_bind_eq_ok.mp verified
  obtain ⟨tally, counted, verified⟩ := bind_eq_ok.mp verified
  obtain ⟨final, verified⟩ := ensure_bind_eq_ok.mp verified
  obtain ⟨rfl, rfl⟩ := Prod.mk.inj (Except.ok.inj verified)
  refine ⟨checkCommits_accepts (accepts_nil codec commitRange []) checked, last,
    tally.stakeAggregator, isLast, ?_, of_decide_eq_true final⟩
  exact foldlM_preserves counted (tallied_new last.reference)
    fun _ _ _ _ tallied voted => tallied.vote voted

/-- An accepted answer has commits from the start of the range on, each continuing the one
before, and a quorum signed votes for the last. If correct authorities vote only for the commits
of a chain, the commits are on it. -/
theorem verified_commits_are_certified {serializedCommits serializedVoteBlocks : List Bytes}
    {commits : List TrustedCommit} {blocks : List VerifiedBlock}
    (verified : verifyCommits ctx codec verifier peer commitRange serializedCommits
      serializedVoteBlocks = .ok (commits, blocks)) :
    Accepts codec commitRange serializedCommits commits ∧
      (∃ last signers, commits.getLast? = some last ∧ signers ⊆ ctx.committee.everyone ∧
        ctx.committee.quorumThreshold ≤ weigh ctx.committee.stake signers ∧
        ∀ auth ∈ signers, ∃ blk ∈ blocks, blk.author = auth ∧
          verifyBlock ctx blk.block = .ok () ∧ blk.VotesFor last.reference) ∧
      ∀ (faulty : Finset AuthorityIndex) (signedByCorrect : Set SignedBlock)
        (chain : List TrustedCommit),
        weigh ctx.committee.stake faulty ≤ ctx.committee.faultTolerance →
        (∀ signed, verifyBlock ctx signed = .ok () → signed.inner.author ∉ faulty →
          signed ∈ signedByCorrect) →
        (∀ signed ∈ signedByCorrect, ∀ vote ∈ signed.inner.commitVotes,
          ∃ commit ∈ chain, commit.reference = vote) →
        CommitsChained chain →
        (∀ commit ∈ commits, ∀ other ∈ chain, commit.digest = other.digest → commit = other) →
        ∀ commit ∈ commits, 0 < commit.index → commit ∈ chain := by
  obtain ⟨accepts, last, agg, isLast, tallied, final⟩ := verifyCommits_ok verified
  obtain ⟨signers, counts, members⟩ := tallied.counted
  rw [counts.total] at final
  have inside : signers ⊆ ctx.committee.everyone := by
    intro auth mem
    obtain ⟨blk, here, rfl, _⟩ := (members auth).mp mem
    exact Finset.mem_range.mpr (validBlock_of_verifyBlock (tallied.verified blk here)).author
  refine ⟨accepts, ⟨last, signers, isLast, inside, final, fun auth mem => ?_⟩, ?_⟩
  · obtain ⟨blk, here, author, votes⟩ := (members auth).mp mem
    exact ⟨blk, here, author, tallied.verified blk here, votes⟩
  · intro faulty signedByCorrect chain tolerated unforgeable honest chained collisionFree
    refine chained.of_last accepts.linked collisionFree fun commit isCommit => ?_
    obtain rfl := some.inj (isLast.symm.trans isCommit)
    -- one of the signers is correct, and its vote is on the chain
    obtain ⟨auth, mem, -, correct⟩ := ctx.committee.quorums_share_correct inside inside
      final final tolerated
    obtain ⟨blk, here, rfl, votes⟩ := (members auth).mp mem
    obtain ⟨other, inChain, same⟩ := honest blk.block
      (unforgeable blk.block (tallied.verified blk here) correct) _ votes
    have digests : last.digest = other.digest := congrArg CommitRef.digest same.symm
    rw [collisionFree last (mem_of_getLast? isLast) other inChain digests]
    exact inChain

/-- The answer of any peer to a request for any range. -/
def Fetched (ctx : Context) (codec : WireCodec) (answer : List TrustedCommit × List VerifiedBlock) :
    Prop :=
  ∃ verifier peer commitRange serializedCommits serializedVoteBlocks,
    verifyCommits ctx codec verifier peer commitRange serializedCommits serializedVoteBlocks =
      .ok answer

lemma Fetched.signed {answer : List TrustedCommit × List VerifiedBlock}
    (fetched : Fetched ctx codec answer) :
    answer.1.IsChain TrustedCommit.Succeeds ∧ ∃ last signers, answer.1.getLast? = some last ∧
      signers ⊆ ctx.committee.everyone ∧
      ctx.committee.quorumThreshold ≤ weigh ctx.committee.stake signers ∧
      ∀ auth ∈ signers, ∃ signed, signed.inner.author = auth ∧ verifyBlock ctx signed = .ok () ∧
        last.reference ∈ signed.inner.commitVotes := by
  obtain ⟨_, _, _, _, _, verified⟩ := fetched
  obtain ⟨accepts, last, agg, isLast, tallied, final⟩ := verifyCommits_ok verified
  obtain ⟨signers, counts, members⟩ := tallied.counted
  have votes : ∀ auth ∈ signers, ∃ signed, signed.inner.author = auth ∧
      verifyBlock ctx signed = .ok () ∧ last.reference ∈ signed.inner.commitVotes := by
    intro auth mem
    obtain ⟨blk, here, author, votes⟩ := (members auth).mp mem
    exact ⟨blk.block, author, tallied.verified blk here, votes⟩
  refine ⟨accepts.linked, last, signers, isLast, fun auth mem => ?_, counts.total ▸ final, votes⟩
  obtain ⟨signed, rfl, valid, -⟩ := votes auth mem
  exact Finset.mem_range.mpr (validBlock_of_verifyBlock valid).author

/-- If correct authorities vote for one commit of an index, two nodes that fetch commits up to the
same index from any peers get the same commits. -/
theorem fetched_commits_agree {left right : List TrustedCommit × List VerifiedBlock}
    (first : Fetched ctx codec left) (second : Fetched ctx codec right)
    (ends : left.1.getLast?.map TrustedCommit.index = right.1.getLast?.map TrustedCommit.index)
    {faulty : Finset AuthorityIndex}
    (tolerated : weigh ctx.committee.stake faulty ≤ ctx.committee.faultTolerance)
    (single : ∀ one two, verifyBlock ctx one = .ok () → verifyBlock ctx two = .ok () →
      one.inner.author = two.inner.author → one.inner.author ∉ faulty →
        ∀ vote ∈ one.inner.commitVotes, ∀ other ∈ two.inner.commitVotes,
          vote.index = other.index → vote = other)
    (collisionFree : ∀ one ∈ left.1, ∀ two ∈ right.1, one.digest = two.digest → one = two) :
    ∀ one ∈ left.1, ∀ two ∈ right.1, one.index = two.index → one = two := by
  obtain ⟨leftLinked, leftLast, leftSigners, leftEnds, leftInside, leftFinal, leftVotes⟩ :=
    first.signed
  obtain ⟨rightLinked, rightLast, rightSigners, rightEnds, rightInside, rightFinal, rightVotes⟩ :=
    second.signed
  obtain ⟨auth, isLeft, isRight, correct⟩ := ctx.committee.quorums_share_correct leftInside
    rightInside leftFinal rightFinal tolerated
  obtain ⟨one, rfl, oneValid, oneVotes⟩ := leftVotes auth isLeft
  obtain ⟨two, author, twoValid, twoVotes⟩ := rightVotes _ isRight
  rw [leftEnds, rightEnds] at ends
  have same := single one two oneValid twoValid author.symm correct _ oneVotes _ twoVotes
    (some.inj ends)
  -- both chains go on with one more commit
  let next : TrustedCommit := ⟨{ leftLast.inner with
    index := leftLast.index + 1, previousDigest := leftLast.digest }, 0⟩
  have chained : ∀ {commits : List TrustedCommit} {last : TrustedCommit},
      commits.IsChain TrustedCommit.Succeeds → commits.getLast? = some last →
      leftLast.reference = last.reference →
      (next :: commits.reverse).IsChain (flip TrustedCommit.Succeeds) := by
    intro commits last linked isLast voted
    have turned := isChain_reverse.mpr linked
    obtain ⟨rest, rfl⟩ := getLast?_eq_some_iff.mp isLast
    rw [reverse_concat'] at turned ⊢
    obtain ⟨index, digest⟩ := CommitRef.mk.inj voted
    exact isChain_cons_cons.mpr ⟨⟨congrArg (· + 1) index, digest⟩, turned⟩
  intro commit inLeft other inRight
  exact eq_of_chains (chained leftLinked leftEnds rfl) (chained rightLinked rightEnds same)
    (by simpa using collisionFree) commit (mem_reverse.mpr inLeft) other (mem_reverse.mpr inRight)

end Soundness

section Testing

def votedCommit : TrustedCommit :=
  ⟨{ index := 1, previousDigest := .MIN, timestampMs := 1, leader := testRef 1 0, blocks := [] }, 7⟩

def commitVotingBlock (author : AuthorityIndex) (vote : CommitVote) : SignedBlock :=
  ⟨{ epoch := 0, round := 1, author, timestampMs := 1
     ancestors := testRef 0 author ::
       (([0, 1, 2, 3] : List AuthorityIndex).filter (· ≠ author)).map (testRef 0)
     transactions := [], commitVotes := [vote], transactionVotes := []
     epochChangeProposal := none, epochChangeVotes := [] }, []⟩

/-- Only blocks with no vote but for the commit are signed. -/
def votingContext : Context :=
  { Context.newForTest firstAuthority with
    crypto :=
      { (Context.newForTest firstAuthority).crypto with
        verifyBlockSignature := fun blk _ _ =>
          blk.commitVotes.all (fun vote => vote = votedCommit.reference) } }

/-- The commit goes by any bytes, the vote of an authority by its index. -/
def votingCodec : WireCodec where
  decodeCommit _ := some votedCommit.inner
  computeDigest _ := votedCommit.digest
  decodeBlock bytes := bytes.head?.map fun author =>
    commitVotingBlock author.toNat votedCommit.reference

def acceptAll : TransactionVerifier := ⟨fun _ => true, fun _ _ => some []⟩

theorem verified_commits_are_certified_three :
    ∃ commits blocks,
      verifyCommits votingContext votingCodec acceptAll 1 (.new 1 1) [[]] [[0], [1], [2]] =
        .ok (commits, blocks) ∧
      (∃ last signers, commits.getLast? = some last ∧
        signers ⊆ votingContext.committee.everyone ∧
        votingContext.committee.quorumThreshold ≤ weigh votingContext.committee.stake signers ∧
        ∀ auth ∈ signers, ∃ blk ∈ blocks, blk.author = auth ∧
          verifyBlock votingContext blk.block = .ok () ∧ blk.VotesFor last.reference) ∧
      ∀ commit ∈ commits, 0 < commit.index → commit ∈ [votedCommit] := by
  have acc : verifyCommits votingContext votingCodec acceptAll 1 (.new 1 1) [[]]
      [[0], [1], [2]] = .ok ([votedCommit], ([0, 1, 2] : List AuthorityIndex).map fun author =>
        .newVerified votingContext (commitVotingBlock author votedCommit.reference)) := rfl
  obtain ⟨-, signed, onChain⟩ := verified_commits_are_certified acc
  refine ⟨_, _, acc, signed, onChain ∅
    (fun signed => ∀ vote ∈ signed.inner.commitVotes, vote = votedCommit.reference)
    [votedCommit] (Nat.zero_le _) ?_ ?_ ⟨by simp [votedCommit, TrustedCommit.index], .singleton _⟩
    (by simp)⟩
  · intro signed valid _ vote here
    have signature := verifyBlock_signature valid
    exact of_decide_eq_true (List.all_eq_true.mp signature vote here)
  · intro signed honest vote here
    exact ⟨votedCommit, by simp, (honest vote here).symm⟩

theorem fetched_commits_agree_three :
    ∃ left right, Fetched votingContext votingCodec left ∧
      Fetched votingContext votingCodec right ∧ left.2 ≠ right.2 ∧
      ∀ one ∈ left.1, ∀ two ∈ right.1, one.index = two.index → one = two := by
  have fetched : ∀ authors ∈ ([[0, 1, 2], [3, 2, 1]] : List (List UInt8)),
      Fetched votingContext votingCodec ([votedCommit], authors.map fun author =>
        .newVerified votingContext (commitVotingBlock author.toNat votedCommit.reference)) := by
    simp only [forall_mem_cons]
    exact ⟨⟨acceptAll, 1, .new 1 1, [[]], [[0], [1], [2]], rfl⟩,
      ⟨acceptAll, 2, .new 1 5, [[]], [[3], [2], [1]], rfl⟩, by simp⟩
  have votes : ∀ signed, verifyBlock votingContext signed = .ok () →
      ∀ vote ∈ signed.inner.commitVotes, vote = votedCommit.reference :=
    fun signed valid vote here =>
      of_decide_eq_true (List.all_eq_true.mp (verifyBlock_signature valid) vote here)
  refine ⟨_, _, fetched [0, 1, 2] (by simp), fetched [3, 2, 1] (by simp), by decide,
    @fetched_commits_agree _ _ _ _ (fetched [0, 1, 2] (by simp)) (fetched [3, 2, 1] (by simp)) rfl
      ∅ (Nat.zero_le _) (fun one two oneValid twoValid _ _ vote inOne other inTwo _ => ?_)
      (by simp)⟩
  rw [votes one oneValid vote inOne, votes two twoValid other inTwo]

end Testing

end Mysticeti
