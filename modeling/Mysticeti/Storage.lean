import Mysticeti.Context
import Mysticeti.Lib.OrderedMap

/-!
# Persistent storage

The store holds what flush batches wrote: blocks by reference, commits and commit
infos by commit reference, and the rejected transactions of finalized commits. A
batch is written atomically. The implementation also keeps an index of block digests
by author; it is always written together with the blocks, and its order within one
author is the order of references, so scans by author read the block table here.
-/

namespace Mysticeti

open Lib.Outcome Lib.OrderedMap Std

structure CommitRange where
  start : CommitIndex
  stop : CommitIndex
deriving DecidableEq, Repr, Inhabited

namespace CommitRange

/-- The range of the indices from `first` to `last`, both included. -/
def new (first last : CommitIndex) : CommitRange := ⟨first, last + 1⟩

variable (range : CommitRange)

def last : CommitIndex := range.stop - 1

def extendTo (other : CommitIndex) : Except Panic CommitRange := do
  ensure (range.stop ≤ other + 1) .commitRangeShrunk
  pure ⟨range.start, other + 1⟩

def size : Nat := range.stop - range.start

end CommitRange

structure ReputationScores where
  commitRange : CommitRange
  scoresPerAuthority : List Nat
deriving DecidableEq, Repr, Inhabited

structure CommitInfo where
  committedRounds : AuthorityIndex → Round
  reputationScores : ReputationScores

abbrev RejectedTransactions := List (BlockRef × List TransactionIndex)

structure WriteBatch where
  blocks : List VerifiedBlock
  commits : List TrustedCommit
  commitInfo : List (CommitRef × CommitInfo)
  finalizedCommits : List (CommitRef × RejectedTransactions)

structure Store where
  blocks : ExtTreeMap BlockRef VerifiedBlock
  commits : ExtTreeMap CommitRef TrustedCommit
  commitInfo : ExtTreeMap CommitRef (CommitRef × CommitInfo)
  finalizedCommits : ExtTreeMap CommitRef (CommitRef × RejectedTransactions)

namespace Store

def empty : Store := ⟨∅, ∅, ∅, ∅⟩

variable (store : Store)

def write (batch : WriteBatch) : Store where
  blocks := insertAll VerifiedBlock.reference store.blocks batch.blocks
  commits := insertAll TrustedCommit.reference store.commits batch.commits
  commitInfo := insertAll Prod.fst store.commitInfo batch.commitInfo
  finalizedCommits := insertAll Prod.fst store.finalizedCommits batch.finalizedCommits

def readBlock (ref : BlockRef) : Option VerifiedBlock := store.blocks[ref]?

def containsBlock (ref : BlockRef) : Bool := store.blocks.contains ref

def scanBlocksByAuthor (author : AuthorityIndex) (startRound : Round) : List VerifiedBlock :=
  scan store.blocks (fun ref => ref.author = author && startRound ≤ ref.round)

def scanLastBlocksByAuthor (author : AuthorityIndex) (numOfRounds : Nat) : List VerifiedBlock :=
  ((store.scanBlocksByAuthor author 0).reverse.take numOfRounds).reverse

def readLastCommit : Option TrustedCommit :=
  (lastKey store.commits).bind fun last => store.commits[last]?

def scanCommits (first last : CommitIndex) : List TrustedCommit :=
  scan store.commits (fun ref => first ≤ ref.index && ref.index ≤ last)

def readLastCommitInfo : Option (CommitRef × CommitInfo) :=
  (lastKey store.commitInfo).bind fun last => store.commitInfo[last]?

def readRejectedTransactions (commit : CommitRef) : Option RejectedTransactions :=
  store.finalizedCommits[commit]?.map Prod.snd

def loadCommittedSubdag (commit : TrustedCommit) : Except Panic CommittedSubDag := do
  let blocks ← commit.blocks.mapM fun ref => expect (store.readBlock ref) (.blockNotInStorage ref)
  ensure (blocks.any fun blk => blk.reference = commit.leader)
    (.leaderNotInSubDag commit.leader)
  let subDag := CommittedSubDag.new commit.leader blocks commit.timestampMs commit.reference
  pure <| match store.readRejectedTransactions commit.reference with
    | some rejected =>
      { subDag with
        decidedWithLocalBlocks := true
        recoveredRejectedTransactions := true
        rejectedTransactionsByBlock := rejected }
    | none =>
      { subDag with decidedWithLocalBlocks := false, recoveredRejectedTransactions := false }

end Store

end Mysticeti
