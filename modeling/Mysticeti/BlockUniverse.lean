import Mysticeti.BlockVerifier
import Mysticeti.Lib.AnchorRule

/-!
# The blocks in play

All blocks that correct and faulty authorities ever produced form one universe. They are
valid and closed under ancestors, references identify them, and only faulty authorities,
of tolerated stake, have several blocks in one round. Nodes see parts of the universe;
the notions here do not depend on what a node sees.

`Quorate` says that a quorum of authorities has a block of a round with some property.
Two quorate properties of one round meet in one block, because some correct authority has
both and it has one block only. Votes, certificates, blames and parents are all quorate
properties, so this one law yields the evidence laws of the commit rule.
-/

namespace Mysticeti

open Lib.Quorum Lib.AnchorRule

structure BlockUniverse (ctx : Context) where
  members : Set VerifiedBlock
  faulty : Finset AuthorityIndex
  valid : ∀ blk ∈ members, ValidBlock ctx blk.block.inner
  identified : ∀ first ∈ members, ∀ second ∈ members, first.reference = second.reference →
    first = second
  closed : ∀ blk ∈ members, ∀ anc ∈ blk.ancestors, 0 < anc.round →
    ∃ other ∈ members, other.reference = anc
  tolerated : weigh ctx.committee.stake faulty ≤ ctx.committee.faultTolerance
  unequivocal : ∀ first ∈ members, ∀ second ∈ members, first.author ∉ faulty →
    first.slot = second.slot → first = second

namespace BlockUniverse

variable {ctx : Context} (blocks : BlockUniverse ctx)

/-- A quorum of authorities has a block of the round with the property. -/
def Quorate (round : Round) (property : VerifiedBlock → Prop) : Prop :=
  ∃ authors : Finset AuthorityIndex,
    ctx.committee.quorumThreshold ≤ weigh ctx.committee.stake authors ∧
      ∀ author ∈ authors, ∃ blk ∈ blocks.members, blk.author = author ∧
        blk.round = round ∧ property blk

lemma Quorate.meet {blocks : BlockUniverse ctx} {round : Round}
    {first second : VerifiedBlock → Prop} (left : blocks.Quorate round first)
    (right : blocks.Quorate round second) :
    ∃ blk ∈ blocks.members, blk.round = round ∧ first blk ∧ second blk := by
  obtain ⟨leftAuthors, leftQuorum, leftBlocks⟩ := left
  obtain ⟨rightAuthors, rightQuorum, rightBlocks⟩ := right
  have leftInside : leftAuthors ⊆ ctx.committee.everyone := by
    intro author mem
    obtain ⟨blk, inside, rfl, -⟩ := leftBlocks author mem
    exact Finset.mem_range.mpr (blocks.valid blk inside).author
  have rightInside : rightAuthors ⊆ ctx.committee.everyone := by
    intro author mem
    obtain ⟨blk, inside, rfl, -⟩ := rightBlocks author mem
    exact Finset.mem_range.mpr (blocks.valid blk inside).author
  obtain ⟨author, inLeft, inRight, correct⟩ := ctx.committee.quorums_share_correct leftInside
    rightInside leftQuorum rightQuorum blocks.tolerated
  obtain ⟨blk, inside, rfl, blockRound, holds⟩ := leftBlocks author inLeft
  obtain ⟨other, otherInside, otherAuthor, otherRound, otherHolds⟩ := rightBlocks _ inRight
  have sameSlot : blk.slot = other.slot := by
    rw [VerifiedBlock.slot, VerifiedBlock.slot, otherAuthor, blockRound, otherRound]
  have same := blocks.unequivocal blk inside other otherInside correct sameSlot
  subst same
  exact ⟨blk, inside, blockRound, holds, otherHolds⟩

lemma parents_quorate {blk : VerifiedBlock} (mem : blk ∈ blocks.members)
    (later : 1 < blk.round) :
    blocks.Quorate (blk.round - 1) fun parent => parent.reference ∈ blk.ancestors := by
  have valid := blocks.valid blk mem
  refine ⟨parentAuthors blk.block.inner, valid.parents, ?_⟩
  intro author isParent
  simp only [parentAuthors, List.mem_toFinset, List.mem_map, List.mem_filter,
    decide_eq_true_eq] at isParent
  obtain ⟨anc, ⟨here, previous⟩, rfl⟩ := isParent
  have level : anc.round = blk.round - 1 := previous
  obtain ⟨parent, inside, rfl⟩ := blocks.closed blk mem anc here (by lia)
  exact ⟨parent, inside, rfl, level, here⟩

/-- A block of the decision round with a quorum of ancestors that vote for the leader
block. -/
structure Certifies (cert leader : VerifiedBlock) : Prop where
  member : cert ∈ blocks.members
  round : cert.round = leader.round + 2
  votes : blocks.Quorate (leader.round + 1) fun vote =>
    vote.reference ∈ cert.ancestors ∧ leader.reference ∈ vote.ancestors

/-- A quorum of the decision round certifies the leader block. -/
def Supported (leader : VerifiedBlock) : Prop :=
  blocks.Quorate (leader.round + 2) fun cert => blocks.Certifies cert leader

/-- A quorum of the voting round has no ancestor of the leader's authority. -/
def Blamed (slot : Slot) : Prop :=
  blocks.Quorate (slot.round + 1) fun vote => ∀ anc ∈ vote.ancestors, anc.author ≠ slot.authority

/-- Reached from the later block along ancestor links. -/
def Below (later prev : VerifiedBlock) : Prop :=
  Relation.TransGen (fun blk anc =>
    anc ∈ blocks.members ∧ anc.reference ∈ blk.ancestors) later prev

variable {blocks} {leader : VerifiedBlock}

lemma ancestor_unique {blk : VerifiedBlock} (mem : blk ∈ blocks.members)
    {first second : BlockRef} (inFirst : first ∈ blk.ancestors)
    (inSecond : second ∈ blk.ancestors) (same : first.author = second.author) :
    first = second :=
  List.inj_on_of_nodup_map (blocks.valid blk mem).distinct inFirst inSecond same

lemma Certifies.unique {cert other rival : VerifiedBlock}
    (certifies : blocks.Certifies cert leader) (otherwise : blocks.Certifies other rival)
    (inLeader : leader ∈ blocks.members) (inRival : rival ∈ blocks.members)
    (sameSlot : leader.slot = rival.slot) : leader = rival := by
  have sameRound : leader.round = rival.round := congrArg Slot.round sameSlot
  have votes := otherwise.votes
  rw [← sameRound] at votes
  obtain ⟨vote, mem, -, ⟨-, forLeader⟩, ⟨-, forRival⟩⟩ := certifies.votes.meet votes
  apply blocks.identified leader inLeader rival inRival
  exact ancestor_unique mem forLeader forRival (congrArg Slot.authority sameSlot)

lemma Blamed.not_certifies {cert : VerifiedBlock} {slot : Slot}
    (blamed : blocks.Blamed slot) (inSlot : leader.slot = slot)
    (certifies : blocks.Certifies cert leader) : False := by
  subst inSlot
  obtain ⟨vote, -, -, blame, -, linked⟩ := Quorate.meet blamed certifies.votes
  exact blame leader.reference linked rfl

lemma Supported.certified (supported : blocks.Supported leader) :
    ∃ cert, blocks.Certifies cert leader := by
  obtain ⟨cert, -, -, certifies, -⟩ := Quorate.meet supported supported
  exact ⟨cert, certifies⟩

lemma Supported.persists {later : VerifiedBlock} (supported : blocks.Supported leader)
    (mem : later ∈ blocks.members) (above : leader.round + 3 ≤ later.round) :
    ∃ cert, blocks.Below later cert ∧ blocks.Certifies cert leader := by
  have multiple : 1 < later.round := by lia
  induction distance : later.round - (leader.round + 3) generalizing later with
  | zero =>
    have parents := blocks.parents_quorate mem multiple
    have previous : later.round - 1 = leader.round + 2 := by lia
    rw [previous] at parents
    obtain ⟨cert, inside, -, here, certifies⟩ := parents.meet supported
    exact ⟨cert, .single ⟨inside, here⟩, certifies⟩
  | succ distance ih =>
    have parents := blocks.parents_quorate mem multiple
    obtain ⟨parent, inside, level, here, -⟩ := parents.meet parents
    obtain ⟨cert, below, certifies⟩ := ih inside (by lia) (by lia) (by lia)
    exact ⟨cert, .head ⟨inside, here⟩ below, certifies⟩

def evidence (blocks : BlockUniverse ctx) (elected : Round → AuthorityIndex) :
    Evidence VerifiedBlock where
  wave := 3
  wave_pos := by decide
  Candidate round blk := blk ∈ blocks.members ∧ blk.slot = ⟨round, elected round⟩
  DirectCommit round blk :=
    blk ∈ blocks.members ∧ blk.slot = ⟨round, elected round⟩ ∧ blocks.Supported blk
  DirectSkip round := blocks.Blamed ⟨round, elected round⟩
  Certified round blk := blk ∈ blocks.members ∧ blk.slot = ⟨round, elected round⟩ ∧
    ∃ cert, blocks.Certifies cert blk
  Linked anchor round blk := blk ∈ blocks.members ∧ blk.slot = ⟨round, elected round⟩ ∧
    ∃ cert, blocks.Below anchor cert ∧ blocks.Certifies cert blk
  certified_unique := by
    rintro round first second ⟨inFirst, firstSlot, cert, certifies⟩
      ⟨inSecond, secondSlot, other, otherwise⟩
    exact certifies.unique otherwise inFirst inSecond (firstSlot.trans secondSlot.symm)
  commit_certified := by
    rintro round blk ⟨mem, slot, supported⟩
    exact ⟨mem, slot, supported.certified⟩
  commit_linked := by
    rintro round blk later anchor ⟨mem, slot, supported⟩ ⟨inAnchor, anchorSlot⟩ post
    have blockRound : blk.round = round := congrArg Slot.round slot
    have anchorRound : anchor.round = later := congrArg Slot.round anchorSlot
    exact ⟨mem, slot, supported.persists inAnchor (by lia)⟩
  linked_certified := by
    rintro anchor round blk ⟨mem, slot, cert, -, certifies⟩
    exact ⟨mem, slot, cert, certifies⟩
  skip_excludes := by
    rintro round blk blamed ⟨-, slot, cert, certifies⟩
    exact blamed.not_certifies slot certifies

/-- A finite universe, checked. -/
def ofList {ctx : Context} (faulty : Finset AuthorityIndex)
    (here : List VerifiedBlock)
    (verified : ∀ blk ∈ here, verifyBlock ctx blk.block = .ok ())
    (identified : ∀ first ∈ here, ∀ second ∈ here, first.reference = second.reference →
      first = second)
    (closed : ∀ blk ∈ here, ∀ anc ∈ blk.ancestors, 0 < anc.round →
      ∃ other ∈ here, other.reference = anc)
    (tolerated : weigh ctx.committee.stake faulty ≤ ctx.committee.faultTolerance)
    (unequivocal : ∀ first ∈ here, ∀ second ∈ here, first.author ∉ faulty →
      first.slot = second.slot → first = second) : BlockUniverse ctx where
  members := {blk | blk ∈ here}
  faulty := faulty
  valid blk mem := validBlock_of_verifyBlock (verified blk mem)
  identified := identified
  closed := closed
  tolerated := tolerated
  unequivocal := unequivocal

end BlockUniverse

end Mysticeti
