import Mysticeti.CommitVerification
import Mysticeti.Lib.Log

/-!
# Serving commits to a peer

A node answers a request for a range of commits from its store. It drops commits from the end of
the range until the stored votes for the last one come from a quorum, and sends the blocks with
these votes along. It looks the votes up by the index of the commit, whatever digest they name;
the node that asked counts those for the exact reference.

The table of votes is written together with the blocks and is read off them here.
-/

namespace Mysticeti

open List Option Lib.Outcome Lib.Quorum Lib.OrderedMap Lib.Log Std

/-- The key order of the votes for one index: digest, then block. -/
def CommitVoteKey.precedes (left right : CommitDigest × BlockRef) : Prop :=
  ((compare left.1 right.1).then (compare left.2 right.2)).isLE = true

instance : DecidableRel CommitVoteKey.precedes := fun left right =>
  inferInstanceAs (Decidable (((compare left.1 right.1).then (compare left.2 right.2)).isLE = true))

namespace Store

variable (store : Store)

def commitVoteKeys (commitIndex : CommitIndex) : List (CommitDigest × BlockRef) :=
  ((store.blocks.toList.flatMap fun entry =>
    (entry.2.commitVotes.filter fun vote => vote.index = commitIndex).map fun vote =>
      (vote.digest, entry.2.reference)).dedup).insertionSort CommitVoteKey.precedes

def readCommitVotes (commitIndex : CommitIndex) : List BlockRef :=
  (store.commitVoteKeys commitIndex).map Prod.snd

def voters (commit : CommitRef) : Finset AuthorityIndex :=
  ((store.blocks.toList.filter fun entry => commit ∈ entry.2.commitVotes).map
    fun entry => entry.2.author).toFinset

end Store

section Serving

variable (ctx : Context) (commitSyncBatchSize : Nat) (store : Store)

def reachedByVotes (votes : List BlockRef) : Bool :=
  ctx.committee.reachedQuorum (votes.foldl (fun agg vote =>
    (agg.add vote.author ctx.committee).1) StakeAggregator.new).stake

/-- The loop over the commits from the last one down: the commits left, and the votes for the
last of them. -/
def dropUncertified : List TrustedCommit → List TrustedCommit × List BlockRef
  | [] => ([], [])
  | commit :: rest =>
    let votes := store.readCommitVotes commit.index
    if reachedByVotes ctx votes then ((commit :: rest).reverse, votes)
    else dropUncertified rest

def handleFetchCommits (commitRange : CommitRange) : List TrustedCommit × List VerifiedBlock :=
  let inclusiveEnd := min commitRange.last (commitRange.start + commitSyncBatchSize - 1)
  let commits := store.scanCommits commitRange.start inclusiveEnd
  let certified := dropUncertified ctx store commits.reverse
  (certified.1, certified.2.filterMap store.readBlock)

end Serving

structure WireFormat extends WireCodec where
  encodeCommit : TrustedCommit → Bytes
  encodeBlock : VerifiedBlock → Bytes

/-- The store of a correct node: one chain of commits, and blocks it verified. What it holds is
read back from its serialised form. -/
structure HonestStore (ctx : Context) (format : WireFormat) (verifier : TransactionVerifier)
    (store : Store) : Prop where
  chained : CommitsChained (store.commits.toList.map Prod.snd)
  commitKey : ∀ entry ∈ store.commits.toList, entry.2.reference = entry.1
  commitForm : ∀ entry ∈ store.commits.toList,
    format.decodeCommit (format.encodeCommit entry.2) = some entry.2.inner ∧
      format.computeDigest (format.encodeCommit entry.2) = entry.2.digest
  blockKey : ∀ entry ∈ store.blocks.toList, entry.2.reference = entry.1
  blockForm : ∀ entry ∈ store.blocks.toList,
    format.decodeBlock (format.encodeBlock entry.2) = some entry.2.block
  verified : ∀ entry ∈ store.blocks.toList, ∃ rejected,
    verifyAndVote ctx verifier entry.2.block = .ok (entry.2, rejected)

/-- The request names at least one commit, and none before the first. -/
def CommitRange.Valid (range : CommitRange) : Prop := 0 < range.start ∧ range.start ≤ range.last
deriving Decidable

section Answer

variable {ctx : Context} {format : WireFormat} {verifier : TransactionVerifier}
  {store : Store} {commitSyncBatchSize : Nat} {commitRange : CommitRange}

lemma mem_readCommitVotes {commitIndex : CommitIndex} {ref : BlockRef} :
    ref ∈ store.readCommitVotes commitIndex ↔
      ∃ entry ∈ store.blocks.toList, entry.2.reference = ref ∧
        ∃ vote ∈ entry.2.commitVotes, vote.index = commitIndex := by
  simp only [Store.readCommitVotes, Store.commitVoteKeys, List.mem_map, mem_insertionSort,
    mem_dedup, mem_flatMap, mem_filter, decide_eq_true_eq]
  constructor
  · rintro ⟨_, ⟨entry, here, vote, ⟨voted, idx⟩, rfl⟩, rfl⟩
    exact ⟨entry, here, rfl, vote, voted, idx⟩
  · rintro ⟨entry, here, rfl, vote, voted, idx⟩
    exact ⟨_, ⟨entry, here, vote, ⟨voted, idx⟩, rfl⟩, rfl⟩

lemma mem_voters {commit : CommitRef} {auth : AuthorityIndex} :
    auth ∈ store.voters commit ↔
      ∃ entry ∈ store.blocks.toList, entry.2.author = auth ∧ entry.2.VotesFor commit := by
  simp only [Store.voters, List.mem_toFinset, List.mem_map, mem_filter, decide_eq_true_eq,
    VerifiedBlock.VotesFor]
  constructor
  · rintro ⟨entry, ⟨here, votes⟩, author⟩
    exact ⟨entry, here, author, votes⟩
  · rintro ⟨entry, here, author, votes⟩
    exact ⟨entry, ⟨here, votes⟩, author⟩

lemma dropUncertified_spec (commits : List TrustedCommit) :
    (dropUncertified ctx store commits.reverse).1 <+: commits ∧
      ∀ last ∈ (dropUncertified ctx store commits.reverse).1.getLast?,
        (dropUncertified ctx store commits.reverse).2 = store.readCommitVotes last.index := by
  induction commits using reverseRecOn with
  | nil => exact ⟨prefix_rfl, by simp [dropUncertified]⟩
  | append_singleton commits commit ih =>
    rw [reverse_append, reverse_singleton, singleton_append, dropUncertified]
    split
    case isTrue =>
      rw [reverse_cons, reverse_reverse]
      refine ⟨prefix_rfl, fun last isLast => ?_⟩
      rw [getLast?_concat] at isLast
      rw [← some.inj isLast]
    case isFalse => exact ⟨ih.1.trans (prefix_append _ _), ih.2⟩

lemma scanCommits_eq (honest : HonestStore ctx format verifier store)
    (first last : CommitIndex) :
    store.scanCommits first last =
      between TrustedCommit.index first last (store.commits.toList.map Prod.snd) := by
  rw [Store.scanCommits, scan, ExtTreeMap.toList_filter, between, List.filter_map]
  refine congrArg _ (filter_congr fun entry here => ?_)
  rw [← honest.commitKey entry here]
  rfl

lemma handleFetchCommits_commits (honest : HonestStore ctx format verifier store)
    (valid : commitRange.Valid) :
    let commits := (handleFetchCommits ctx commitSyncBatchSize store commitRange).1
    commits.IsChain TrustedCommit.Succeeds ∧
      (∀ commit ∈ commits.head?, commit.index = commitRange.start) ∧
      (∀ commit ∈ commits, commit.index ≤ commitRange.last) ∧
      ∀ commit ∈ commits, commit ∈ store.commits.toList.map Prod.snd := by
  have consecutive : ∀ prev later, TrustedCommit.Succeeds prev later →
      later.index = prev.index + 1 := fun _ _ succeeds => succeeds.1
  obtain ⟨isPrefix, -⟩ := @dropUncertified_spec ctx store (store.scanCommits commitRange.start
    (min commitRange.last (commitRange.start + commitSyncBatchSize - 1)))
  rw [scanCommits_eq honest] at isPrefix
  rw [handleFetchCommits, scanCommits_eq honest]
  refine ⟨?_, ?_, ?_, ?_⟩
  · have sameStart := isPrefix
    obtain ⟨dropped, whole⟩ := sameStart
    have linked := @isChain_between _ TrustedCommit.index _ _ commitRange.start
      (min commitRange.last (commitRange.start + commitSyncBatchSize - 1)) consecutive
      honest.chained.linked
    rw [← whole] at linked
    exact (isChain_append.mp linked).1
  · intro commit isFirst
    have low : ∀ first ∈ (store.commits.toList.map Prod.snd).head?,
        first.index ≤ commitRange.start := by
      intro first isHead
      rw [honest.chained.first first isHead]
      exact valid.1
    have sameStart := isPrefix
    obtain ⟨dropped, whole⟩ := sameStart
    have started := congrArg head? whole
    rw [head?_append, mem_def.mp isFirst] at started
    exact head_between consecutive honest.chained.linked low commit started.symm
  · intro commit mem
    have bounds := mem_between.mp (isPrefix.subset mem)
    exact bounds.2.2.trans (Nat.min_le_left _ _)
  · intro commit mem
    exact (mem_between.mp (isPrefix.subset mem)).1

lemma mem_handleFetchCommits_blocks (honest : HonestStore ctx format verifier store)
    {last : TrustedCommit}
    (isLast : (handleFetchCommits ctx commitSyncBatchSize store commitRange).1.getLast? =
      some last) {blk : VerifiedBlock} :
    blk ∈ (handleFetchCommits ctx commitSyncBatchSize store commitRange).2 ↔
      (blk.reference, blk) ∈ store.blocks.toList ∧
        ∃ vote ∈ blk.commitVotes, vote.index = last.index := by
  have votes := (@dropUncertified_spec ctx store (store.scanCommits commitRange.start
    (min commitRange.last (commitRange.start + commitSyncBatchSize - 1)))).2 last isLast
  rw [handleFetchCommits, votes, mem_filterMap]
  simp only [mem_readCommitVotes, Store.readBlock]
  constructor
  · rintro ⟨_, ⟨entry, here, rfl, voted⟩, got⟩
    have stored := ExtTreeMap.mem_toList_iff_getElem?_eq_some.mp here
    rw [honest.blockKey entry here, stored] at got
    obtain rfl := some.inj got
    rw [honest.blockKey entry here]
    exact ⟨here, voted⟩
  · rintro ⟨here, voted⟩
    exact ⟨blk.reference, ⟨_, here, rfl, voted⟩,
      ExtTreeMap.mem_toList_iff_getElem?_eq_some.mp here⟩

lemma checkCommits_encoded {peer : AuthorityIndex} {acc commits : List TrustedCommit}
    (linked : (acc ++ commits).IsChain TrustedCommit.Succeeds)
    (starts : ∀ commit ∈ (acc ++ commits).head?, commit.index = commitRange.start)
    (inside : ∀ commit ∈ commits, commit.index ≤ commitRange.last)
    (form : ∀ commit ∈ commits, format.decodeCommit (format.encodeCommit commit) =
      some commit.inner ∧ format.computeDigest (format.encodeCommit commit) = commit.digest) :
    checkCommits format.toWireCodec peer commitRange (commits.map format.encodeCommit) acc =
      .ok (acc ++ commits) := by
  induction commits generalizing acc with
  | nil => simp [checkCommits]
  | cons commit rest ih =>
    obtain ⟨decodes, digest⟩ := form commit mem_cons_self
    have goesOn : (if commitRange.last < commit.inner.index then pure acc
        else checkCommits format.toWireCodec peer commitRange (rest.map format.encodeCommit)
          (acc ++ [⟨commit.inner, format.computeDigest (format.encodeCommit commit)⟩])) =
        .ok (acc ++ commit :: rest) := by
      have within : ¬ commitRange.last < commit.inner.index :=
        Nat.not_lt.mpr (inside commit mem_cons_self)
      rw [if_neg within, digest]
      have moved : acc ++ commit :: rest = acc ++ [commit] ++ rest := by simp
      rw [moved] at linked starts ⊢
      exact ih linked starts
        (fun other mem => inside other (mem_cons_of_mem _ mem))
        (fun other mem => form other (mem_cons_of_mem _ mem))
    rw [map_cons, checkCommits, decodes, expect_some, ok_bind]
    rcases eq_nil_or_concat' acc with rfl | ⟨others, last, rfl⟩
    · have atStart : commit.inner.index = commitRange.start := starts commit rfl
      exact ensure_bind_eq_ok.mpr ⟨atStart, goesOn⟩
    · have succeeds : TrustedCommit.Succeeds last commit :=
        (isChain_append.mp linked).2.2 last (by simp) commit rfl
      rw [getLast?_concat]
      exact ensure_bind_eq_ok.mpr ⟨succeeds, goesOn⟩

lemma tallyVote_encoded {endCommit : CommitRef} {blocks : List VerifiedBlock}
    (form : ∀ blk ∈ blocks, format.decodeBlock (format.encodeBlock blk) = some blk.block)
    (verified : ∀ blk ∈ blocks, ∃ rejected,
      verifyAndVote ctx verifier blk.block = .ok (blk, rejected)) :
    ∃ agg, (blocks.map format.encodeBlock).foldlM
        (tallyVote ctx format.toWireCodec verifier endCommit) ⟨.new, []⟩ =
          .ok ⟨agg, blocks⟩ ∧ Tallied ctx endCommit ⟨agg, blocks⟩ := by
  induction blocks using reverseRecOn with
  | nil => exact ⟨.new, rfl, tallied_new endCommit⟩
  | append_singleton blocks blk ih =>
    obtain ⟨agg, ran, tallied⟩ := ih
      (fun other mem => form other (mem_append_left _ mem))
      (fun other mem => verified other (mem_append_left _ mem))
    obtain ⟨rejected, valid⟩ := verified blk (by simp)
    have voted : tallyVote ctx format.toWireCodec verifier endCommit ⟨agg, blocks⟩
        (format.encodeBlock blk) =
          .ok ⟨countCommitVotes ctx endCommit blk agg, blocks ++ [blk]⟩ := by
      rw [tallyVote, form blk (by simp), expect_some, ok_bind, valid, ok_bind]
      rfl
    refine ⟨countCommitVotes ctx endCommit blk agg, ?_, tallied.vote voted⟩
    rw [map_append, foldlM_append, ran, ok_bind]
    exact foldlM_step voted

/-- A non-empty answer is accepted exactly when stored blocks of a quorum vote for the last
commit sent, by index and digest. -/
theorem served_commits_accepted_iff (honest : HonestStore ctx format verifier store)
    (valid : commitRange.Valid) (peer : AuthorityIndex) {last : TrustedCommit}
    (isLast : (handleFetchCommits ctx commitSyncBatchSize store commitRange).1.getLast? =
      some last) :
    (verifyCommits ctx format.toWireCodec verifier peer commitRange
        ((handleFetchCommits ctx commitSyncBatchSize store commitRange).1.map
          format.encodeCommit)
        ((handleFetchCommits ctx commitSyncBatchSize store commitRange).2.map
          format.encodeBlock)).isOk = true ↔
      ctx.committee.quorumThreshold ≤ weigh ctx.committee.stake (store.voters last.reference) := by
  obtain ⟨linked, starts, inside, stored⟩ := @handleFetchCommits_commits ctx format verifier
    store commitSyncBatchSize commitRange honest valid
  have sent := fun blk => @mem_handleFetchCommits_blocks ctx format verifier store
    commitSyncBatchSize commitRange honest last isLast blk
  generalize handleFetchCommits ctx commitSyncBatchSize store commitRange = answer at *
  obtain ⟨commits, blocks⟩ := answer
  have checked : checkCommits format.toWireCodec peer commitRange
      (commits.map format.encodeCommit) [] = .ok commits := by
    refine checkCommits_encoded linked starts inside fun commit mem => ?_
    obtain ⟨entry, here, rfl⟩ := List.mem_map.mp (stored commit mem)
    exact honest.commitForm entry here
  obtain ⟨agg, counted, tallied⟩ := @tallyVote_encoded ctx format verifier
    last.reference blocks
    (fun blk mem => honest.blockForm _ ((sent blk).mp mem).1)
    (fun blk mem => honest.verified _ ((sent blk).mp mem).1)
  obtain ⟨signers, counts, members⟩ := tallied.counted
  have same : signers = store.voters last.reference := by
    ext auth
    rw [members, mem_voters]
    constructor
    · rintro ⟨blk, mem, author, votes⟩
      exact ⟨_, ((sent blk).mp mem).1, author, votes⟩
    · rintro ⟨entry, here, author, votes⟩
      have key := honest.blockKey entry here
      refine ⟨entry.2, (sent entry.2).mpr ⟨?_, last.reference, votes, rfl⟩, author, votes⟩
      rw [key]
      exact here
  rw [verifyCommits, checked, ok_bind, isLast, expect_some, ok_bind, counted, ok_bind, ← same,
    ← counts.total]
  by_cases quorum : ctx.committee.quorumThreshold ≤ agg.stake
  · have final : ctx.committee.reachedQuorum agg.stake = true := decide_eq_true quorum
    rw [ensure_holds _ final, ok_bind]
    exact iff_of_true rfl quorum
  · have short : ¬ ctx.committee.reachedQuorum agg.stake = true :=
      fun final => quorum (of_decide_eq_true final)
    rw [ensure, if_neg short, error_bind]
    exact iff_of_false (by simp [Except.isOk, Except.toBool]) quorum

end Answer

section Testing

def votedFormat : WireFormat where
  decodeCommit := votingCodec.decodeCommit
  computeDigest := votingCodec.computeDigest
  decodeBlock bytes :=
    match bytes with
    | [author, digest] => some (commitVotingBlock author.toNat ⟨1, digest.toNat⟩)
    | _ => none
  encodeCommit _ := []
  encodeBlock blk :=
    [UInt8.ofNat blk.author, UInt8.ofNat ((blk.commitVotes.head?.map CommitRef.digest).getD 0)]

def votedBlock (vote : Fin 4 × UInt8) : VerifiedBlock :=
  .newVerified (Context.newForTest firstAuthority)
    (commitVotingBlock vote.1.val ⟨1, vote.2.toNat⟩)

def votedStore (votes : List (Fin 4 × UInt8)) : Store :=
  Store.empty.write ⟨votes.map votedBlock, [votedCommit], [], []⟩

lemma votedBlock_verified (vote : Fin 4 × UInt8) :
    verifyAndVote (Context.newForTest firstAuthority) acceptAll (votedBlock vote).block =
      .ok (votedBlock vote, []) := by
  obtain ⟨author, digest⟩ := vote
  fin_cases author <;> rfl

lemma votedBlock_form (vote : Fin 4 × UInt8) :
    votedFormat.decodeBlock (votedFormat.encodeBlock (votedBlock vote)) =
      some (votedBlock vote).block := by
  obtain ⟨author, digest⟩ := vote
  have same : UInt8.ofNat digest.toNat = digest := UInt8.ofNat_toNat
  have decoded : votedFormat.decodeBlock (votedFormat.encodeBlock (votedBlock (author, digest))) =
      some (commitVotingBlock (UInt8.ofNat author.val).toNat
        ⟨1, (UInt8.ofNat digest.toNat).toNat⟩) := rfl
  rw [decoded, same]
  fin_cases author <;> rfl

lemma votedStore_honest (votes : List (Fin 4 × UInt8)) :
    HonestStore (Context.newForTest firstAuthority) votedFormat acceptAll (votedStore votes) := by
  have commits : (votedStore votes).commits.toList = [(votedCommit.reference, votedCommit)] := rfl
  have stored : ∀ entry ∈ (votedStore votes).blocks.toList, ∃ vote, votedBlock vote = entry.2 ∧
      entry.2.reference = entry.1 := by
    rintro ⟨key, blk⟩ here
    rcases getElem?_insertAll_cases (ExtTreeMap.mem_toList_iff_getElem?_eq_some.mp here)
      with ⟨mem, keyed⟩ | absent
    · obtain ⟨vote, _, same⟩ := List.mem_map.mp mem
      exact ⟨vote, same, keyed⟩
    · simp [Store.empty] at absent
  constructor
  · rw [commits]
    exact ⟨by simp [votedCommit, TrustedCommit.index], .singleton _⟩
  · simp [commits]
  · rw [commits]
    intro entry here
    rw [mem_singleton.mp here]
    exact ⟨rfl, rfl⟩
  · intro entry here
    obtain ⟨_, _, keyed⟩ := stored entry here
    exact keyed
  · intro entry here
    obtain ⟨vote, same, _⟩ := stored entry here
    rw [← same]
    exact votedBlock_form vote
  · intro entry here
    obtain ⟨vote, same, _⟩ := stored entry here
    rw [← same]
    exact ⟨[], votedBlock_verified vote⟩

theorem served_commits_accepted_iff_three :
    (verifyCommits (Context.newForTest firstAuthority) votedFormat.toWireCodec acceptAll 1
        (.new 1 1)
        ((handleFetchCommits (Context.newForTest firstAuthority) 100
          (votedStore [(0, 7), (1, 7), (2, 7)]) (.new 1 1)).1.map votedFormat.encodeCommit)
        ((handleFetchCommits (Context.newForTest firstAuthority) 100
          (votedStore [(0, 7), (1, 7), (2, 7)]) (.new 1 1)).2.map
            votedFormat.encodeBlock)).isOk = true ↔
      (Context.newForTest firstAuthority).committee.quorumThreshold ≤
        weigh (Context.newForTest firstAuthority).committee.stake
          ((votedStore [(0, 7), (1, 7), (2, 7)]).voters votedCommit.reference) :=
  served_commits_accepted_iff (votedStore_honest _) (by decide) 1 (by decide +kernel)

/-- Two authorities voted for the commit that is stored and a third, within the faults tolerated,
for another of the same index. The server sends the commit; the client refuses it. -/
theorem served_commit_refused :
    HonestStore (Context.newForTest firstAuthority) votedFormat acceptAll
        (votedStore [(0, 7), (1, 7), (3, 9)]) ∧
      CommitRange.Valid (.new 1 1) ∧
      weigh (Context.newForTest firstAuthority).committee.stake {3} ≤
        (Context.newForTest firstAuthority).committee.faultTolerance ∧
      (handleFetchCommits (Context.newForTest firstAuthority) 100
        (votedStore [(0, 7), (1, 7), (3, 9)]) (.new 1 1)).1 = [votedCommit] ∧
      (verifyCommits (Context.newForTest firstAuthority) votedFormat.toWireCodec acceptAll 1
        (.new 1 1)
        ((handleFetchCommits (Context.newForTest firstAuthority) 100
          (votedStore [(0, 7), (1, 7), (3, 9)]) (.new 1 1)).1.map votedFormat.encodeCommit)
        ((handleFetchCommits (Context.newForTest firstAuthority) 100
          (votedStore [(0, 7), (1, 7), (3, 9)]) (.new 1 1)).2.map
            votedFormat.encodeBlock)).isOk = false := by
  refine ⟨votedStore_honest _, by decide, by decide, by decide +kernel, by decide +kernel⟩

end Testing

end Mysticeti
