import Mysticeti.Lib.Outcome

/-!
# Blocks, references and commits

The records that pass between the components of a node. A block reference is a
position in the DAG (round, author) with the digest that tells equivocating
blocks of one position apart; references are ordered by round, then author, then
digest, which is the order every map and set of the implementation iterates in.

Digests are opaque values. Rounds, indices, stakes and timestamps are natural
numbers: the implementation never wraps them in the runs considered, and where
it saturates the saturating operation is written out.
-/

namespace Mysticeti

abbrev Epoch := Nat
abbrev Round := Nat
abbrev AuthorityIndex := Nat
abbrev Stake := Nat
abbrev BlockTimestampMs := Nat
abbrev TransactionIndex := Nat
abbrev CommitIndex := Nat
abbrev BlockDigest := Nat
abbrev CommitDigest := Nat
abbrev Bytes := List UInt8

/-- A network address, by its binary encoding; addresses compare as their encodings do. -/
abbrev Multiaddr := Bytes

def GENESIS_ROUND : Round := 0
def GENESIS_COMMIT_INDEX : CommitIndex := 0

def DEFAULT_WAVE_LENGTH : Nat := 3

/-- The least commit digest, carried by the first commit as its predecessor. -/
def CommitDigest.MIN : CommitDigest := 0

structure BlockRef where
  round : Round
  author : AuthorityIndex
  digest : BlockDigest
deriving DecidableEq, Repr, Inhabited

namespace BlockRef

def order : BlockRef → BlockRef → Ordering :=
  compareLex (compareOn round) (compareLex (compareOn author) (compareOn digest))

instance : Ord BlockRef := ⟨order⟩

instance : Std.TransOrd BlockRef :=
  inferInstanceAs (Std.TransCmp
    (compareLex (compareOn round) (compareLex (compareOn author) (compareOn digest))))

instance : Std.LawfulEqOrd BlockRef where
  eq_of_compare {left right} same := by
    have parts : compare left.round right.round = .eq ∧
        compare left.author right.author = .eq ∧
        compare left.digest right.digest = .eq := by
      simpa only [compare, order, compareLex, compareOn, Ordering.then_eq_eq] using same
    obtain ⟨rounds, authors, digests⟩ := parts
    cases left
    cases right
    simp only [mk.injEq]
    exact ⟨Std.LawfulEqOrd.eq_of_compare rounds, Std.LawfulEqOrd.eq_of_compare authors,
      Std.LawfulEqOrd.eq_of_compare digests⟩

lemma compare_of_round_lt {left right : BlockRef} (prev : left.round < right.round) :
    compare left right = .lt := by
  have first : compare left.round right.round = .lt := Nat.compare_eq_lt.mpr prev
  simp only [compare, order, compareLex, compareOn] at first ⊢
  simp [first]

lemma round_le_of_isLE {left right : BlockRef} (pre : (compare left right).isLE) :
    left.round ≤ right.round := by
  by_contra later
  have reversed : compare right left = .lt := compare_of_round_lt (Nat.lt_of_not_le later)
  have opposite : compare left right = .gt := Std.OrientedCmp.gt_of_lt reversed
  simp [opposite] at pre

end BlockRef

/-- The position of blocks in the DAG: it may hold none, one or several blocks. -/
structure Slot where
  round : Round
  authority : AuthorityIndex
deriving DecidableEq, Repr, Inhabited

def BlockRef.slot (ref : BlockRef) : Slot := ⟨ref.round, ref.author⟩

structure CommitRef where
  index : CommitIndex
  digest : CommitDigest
deriving DecidableEq, Repr, Inhabited

namespace CommitRef

def order : CommitRef → CommitRef → Ordering := compareLex (compareOn index) (compareOn digest)

instance : Ord CommitRef := ⟨order⟩

instance : Std.TransOrd CommitRef :=
  inferInstanceAs (Std.TransCmp (compareLex (compareOn index) (compareOn digest)))

instance : Std.LawfulEqOrd CommitRef where
  eq_of_compare {left right} same := by
    have parts : compare left.index right.index = .eq ∧ compare left.digest right.digest = .eq := by
      simpa only [compare, order, compareLex, compareOn, Ordering.then_eq_eq] using same
    obtain ⟨indices, digests⟩ := parts
    cases left
    cases right
    simp only [mk.injEq]
    exact ⟨Std.LawfulEqOrd.eq_of_compare indices, Std.LawfulEqOrd.eq_of_compare digests⟩

end CommitRef

abbrev CommitVote := CommitRef

structure Transaction where
  data : Bytes
deriving DecidableEq, Repr, Inhabited

structure BlockTransactionVotes where
  blockRef : BlockRef
  rejects : List TransactionIndex
deriving DecidableEq, Repr, Inhabited

/-- The content of a block. Both versions of the implementation's enumeration
have these fields; the first version has no transaction votes. -/
structure Block where
  epoch : Epoch
  round : Round
  author : AuthorityIndex
  timestampMs : BlockTimestampMs
  ancestors : List BlockRef
  transactions : List Transaction
  commitVotes : List CommitVote
  transactionVotes : List BlockTransactionVotes
  epochChangeProposal : Option Bytes
  epochChangeVotes : List Bytes
deriving DecidableEq, Repr, Inhabited

structure SignedBlock where
  inner : Block
  signature : Bytes
deriving DecidableEq, Repr, Inhabited

structure VerifiedBlock where
  block : SignedBlock
  digest : BlockDigest
deriving DecidableEq, Repr, Inhabited

namespace VerifiedBlock

def round (verified : VerifiedBlock) : Round := verified.block.inner.round
def author (verified : VerifiedBlock) : AuthorityIndex := verified.block.inner.author
def timestampMs (verified : VerifiedBlock) : BlockTimestampMs := verified.block.inner.timestampMs
def ancestors (verified : VerifiedBlock) : List BlockRef := verified.block.inner.ancestors

variable (verified : VerifiedBlock)

def reference : BlockRef := ⟨verified.round, verified.author, verified.digest⟩

def slot : Slot := ⟨verified.round, verified.author⟩

@[simp] lemma reference_round : verified.reference.round = verified.round := rfl

@[simp] lemma reference_author : verified.reference.author = verified.author := rfl

@[simp] lemma reference_slot : verified.reference.slot = verified.slot := rfl

end VerifiedBlock

structure Commit where
  index : CommitIndex
  previousDigest : CommitDigest
  timestampMs : BlockTimestampMs
  leader : BlockRef
  blocks : List BlockRef
deriving DecidableEq, Repr, Inhabited

structure TrustedCommit where
  inner : Commit
  digest : CommitDigest
deriving DecidableEq, Repr, Inhabited

namespace TrustedCommit

def index (commit : TrustedCommit) : CommitIndex := commit.inner.index
def previousDigest (commit : TrustedCommit) : CommitDigest := commit.inner.previousDigest
def timestampMs (commit : TrustedCommit) : BlockTimestampMs := commit.inner.timestampMs
def leader (commit : TrustedCommit) : BlockRef := commit.inner.leader
def round (commit : TrustedCommit) : Round := commit.inner.leader.round
def blocks (commit : TrustedCommit) : List BlockRef := commit.inner.blocks
def reference (commit : TrustedCommit) : CommitRef := ⟨commit.index, commit.digest⟩

end TrustedCommit

structure CommittedSubDag where
  leader : BlockRef
  blocks : List VerifiedBlock
  timestampMs : BlockTimestampMs
  commitRef : CommitRef
  decidedWithLocalBlocks : Bool
  recoveredRejectedTransactions : Bool
  rejectedTransactionsByBlock : List (BlockRef × List TransactionIndex)
deriving DecidableEq, Repr, Inhabited

def CommittedSubDag.new (leader : BlockRef) (blocks : List VerifiedBlock)
    (timestampMs : BlockTimestampMs) (commitRef : CommitRef) : CommittedSubDag :=
  { leader, blocks, timestampMs, commitRef
    decidedWithLocalBlocks := true
    recoveredRejectedTransactions := false
    rejectedTransactionsByBlock := [] }

structure CertifiedCommit where
  commit : TrustedCommit
  blocks : List VerifiedBlock
deriving DecidableEq, Repr, Inhabited

end Mysticeti
