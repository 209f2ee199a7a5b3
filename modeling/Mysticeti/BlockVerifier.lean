import Mysticeti.Context

/-!
# Block verification

A block from a peer enters the DAG only after `verifyBlock` accepted it: the epoch,
the author and the signature are right, the ancestors are of earlier rounds and of
distinct authors with the author's own chain first, the parents carry a quorum of
stake, and the transactions respect the limits. `ValidBlock` states what acceptance
establishes about the content; every later argument about the DAG starts from it.
-/

namespace Mysticeti

open List Option Lib.Outcome Lib.Quorum

inductive ConsensusError where
  | wrongEpoch (want actual : Epoch)
  | unexpectedGenesisBlock
  | invalidAuthorityIndex (idx : AuthorityIndex) (max : Nat)
  | signatureVerificationFailure
  | tooManyAncestors (count size : Nat)
  | insufficientParentStakes (parentStakes quorum : Stake)
  | invalidAncestorPosition (blockAuthority ancestorAuthority : AuthorityIndex) (pos : Nat)
  | invalidAncestorRound (anc blk : Round)
  | invalidGenesisAncestor (anc : BlockRef)
  | duplicatedAncestorsAuthority (author : AuthorityIndex)
  | transactionTooLarge (size limit : Nat)
  | tooManyTransactions (count limit : Nat)
  | tooManyTransactionBytes (size limit : Nat)
deriving DecidableEq, Repr

/-- The limits on single transactions, on their number and on their total size. A
limit of zero is no limit. The last refusal reports the number of transactions as
their size. -/
def checkTransactions (ctx : Context) (batch : List Bytes) : Except ConsensusError Unit := do
  let sizeLimit := ctx.protocolConfig.maxTransactionSizeBytes
  for data in batch do
    ensure (¬ (sizeLimit < data.length ∧ 0 < sizeLimit))
      (ConsensusError.transactionTooLarge data.length sizeLimit)
  let countLimit := ctx.protocolConfig.maxNumTransactionsInBlock
  ensure (¬ (countLimit < batch.length ∧ 0 < countLimit))
    (.tooManyTransactions batch.length countLimit)
  let totalLimit := ctx.protocolConfig.maxTransactionsInBlockBytes
  ensure (¬ (totalLimit < (batch.map List.length).sum ∧ 0 < totalLimit))
    (.tooManyTransactionBytes batch.length totalLimit)

/-- The loop over the ancestors, from `position` on, with the authors seen before
and the parent stake collected before. Returns the parent stake of the block. -/
def checkAncestors (ctx : Context) (blk : Block) :
    Nat → List BlockRef → Finset AuthorityIndex → Stake → Except ConsensusError Stake
  | _, [], _, parentStakes => .ok parentStakes
  | pos, anc :: rest, seen, parentStakes => do
    ensure (ctx.committee.isValidIndex anc.author)
      (.invalidAuthorityIndex anc.author (ctx.committee.size - 1))
    ensure (¬ ((pos = 0 ∧ anc.author ≠ blk.author) ∨ (0 < pos ∧ anc.author = blk.author)))
      (.invalidAncestorPosition blk.author anc.author pos)
    ensure (¬ blk.round ≤ anc.round) (.invalidAncestorRound anc.round blk.round)
    ensure (¬ (anc.round = GENESIS_ROUND ∧ (genesisGet ctx anc).isNone))
      (.invalidGenesisAncestor anc)
    ensure (anc.author ∉ seen) (.duplicatedAncestorsAuthority anc.author)
    checkAncestors ctx blk (pos + 1) rest (insert anc.author seen)
      (if anc.round = blk.round - 1 then
        parentStakes + ctx.committee.stake anc.author
      else parentStakes)

def verifyBlock (ctx : Context) (signed : SignedBlock) : Except ConsensusError Unit := do
  let comm := ctx.committee
  let blk := signed.inner
  ensure (blk.epoch = comm.epoch) (ConsensusError.wrongEpoch comm.epoch blk.epoch)
  ensure (blk.round ≠ 0) .unexpectedGenesisBlock
  ensure (comm.isValidIndex blk.author)
    (.invalidAuthorityIndex blk.author (comm.size - 1))
  let key := (comm.authorities[blk.author]?.map Authority.protocolKey).getD []
  ensure (ctx.crypto.verifyBlockSignature blk signed.signature key)
    .signatureVerificationFailure
  ensure (blk.ancestors.length ≤ comm.size)
    (.tooManyAncestors blk.ancestors.length comm.size)
  ensure (blk.ancestors ≠ []) (.insufficientParentStakes 0 comm.quorumThreshold)
  let parentStakes ← checkAncestors ctx blk 0 blk.ancestors ∅ 0
  ensure (comm.reachedQuorum parentStakes)
    (.insufficientParentStakes parentStakes comm.quorumThreshold)
  checkTransactions ctx (blk.transactions.map Transaction.data)

def parentAuthors (blk : Block) : Finset AuthorityIndex :=
  ((blk.ancestors.filter (fun anc => anc.round = blk.round - 1)).map
    BlockRef.author).toFinset

/-- What verification establishes about the place of a block in the DAG. -/
structure ValidBlock (ctx : Context) (blk : Block) : Prop where
  epoch : blk.epoch = ctx.committee.epoch
  round_pos : 0 < blk.round
  author : blk.author < ctx.committee.size
  ancestorAuthor : ∀ anc ∈ blk.ancestors, anc.author < ctx.committee.size
  ancestorRound : ∀ anc ∈ blk.ancestors, anc.round < blk.round
  ancestorGenesis : ∀ anc ∈ blk.ancestors, anc.round = 0 → (genesisGet ctx anc).isSome
  distinct : (blk.ancestors.map BlockRef.author).Nodup
  ownFirst : ∃ first rest, blk.ancestors = first :: rest ∧ first.author = blk.author ∧
    ∀ other ∈ rest, other.author ≠ blk.author
  parents : ctx.committee.quorumThreshold ≤ weigh ctx.committee.stake (parentAuthors blk)

namespace ValidBlock

lemma ancestors_nodup {ctx : Context} {blk : Block} (valid : ValidBlock ctx blk) :
    blk.ancestors.Nodup :=
  List.Nodup.of_map _ valid.distinct

end ValidBlock

lemma checkAncestors_ok {ctx : Context} {blk : Block} {pos : Nat}
    {ancestors : List BlockRef} {seen : Finset AuthorityIndex} {pre total : Stake}
    (acc : checkAncestors ctx blk pos ancestors seen pre = .ok total) :
    (∀ anc ∈ ancestors, anc.author < ctx.committee.size ∧
      anc.round < blk.round ∧
      (anc.round = 0 → (genesisGet ctx anc).isSome) ∧ anc.author ∉ seen) ∧
    (ancestors.map BlockRef.author).Nodup ∧
    (0 < pos → ∀ anc ∈ ancestors, anc.author ≠ blk.author) ∧
    (pos = 0 → ∀ first ∈ ancestors.head?, first.author = blk.author) ∧
    total = pre + (((ancestors.filter (fun anc => anc.round = blk.round - 1)).map
      BlockRef.author).map ctx.committee.stake).sum := by
  induction ancestors generalizing pos seen pre with
  | nil =>
    simp only [checkAncestors, Except.ok.injEq] at acc
    simp [acc]
  | cons anc rest ih =>
    simp only [checkAncestors, ensure_bind_eq_ok, Committee.isValidIndex, decide_eq_true_eq]
      at acc
    obtain ⟨inside, placed, prev, genesis, fresh, remaining⟩ := acc
    obtain ⟨each, nodup, others, -, sum⟩ := ih remaining
    have genesisFound : anc.round = 0 → (genesisGet ctx anc).isSome := by
      intro zero
      have has := fun absent => genesis ⟨zero, absent⟩
      simpa [isSome_iff_ne_none] using has
    have unseen : ∀ other ∈ rest, other.author ≠ anc.author ∧ other.author ∉ seen := by
      intro other mem
      have notInserted := (each other mem).2.2.2
      simpa only [Finset.mem_insert, not_or] using notInserted
    refine ⟨?_, ?_, ?_, ?_, ?_⟩
    · intro other mem
      rcases mem_cons.mp mem with rfl | mem
      · exact ⟨inside, Nat.lt_of_not_le prev, genesisFound, fresh⟩
      · obtain ⟨otherInside, otherEarlier, otherGenesis, -⟩ := each other mem
        exact ⟨otherInside, otherEarlier, otherGenesis, (unseen other mem).2⟩
    · rw [map_cons, nodup_cons]
      refine ⟨?_, nodup⟩
      intro repeated
      obtain ⟨other, mem, same⟩ := List.mem_map.mp repeated
      exact (unseen other mem).1 same
    · intro later other mem
      rcases mem_cons.mp mem with rfl | mem
      · exact fun own => placed (.inr ⟨later, own⟩)
      · exact others (Nat.succ_pos _) other mem
    · intro zero first isFirst
      simp only [head?_cons, mem_def, some.injEq] at isFirst
      subst isFirst
      by_contra foreign
      exact placed (.inl ⟨zero, foreign⟩)
    · rw [sum, filter_cons]
      by_cases parent : anc.round = blk.round - 1
      · simp [parent, Nat.add_assoc]
      · simp [parent]

lemma validBlock_of_verifyBlock {ctx : Context} {signed : SignedBlock}
    (acc : verifyBlock ctx signed = .ok ()) : ValidBlock ctx signed.inner := by
  simp only [verifyBlock, ensure_bind_eq_ok, Committee.isValidIndex, decide_eq_true_eq]
    at acc
  obtain ⟨epoch, positive, author, -, -, nonempty, remaining⟩ := acc
  obtain ⟨stakes, scanned, final⟩ := bind_eq_ok.mp remaining
  obtain ⟨quorum, -⟩ := ensure_bind_eq_ok.mp final
  simp only [Committee.reachedQuorum, decide_eq_true_eq] at quorum
  obtain ⟨each, nodup, -, own, sum⟩ := checkAncestors_ok scanned
  obtain ⟨first, rest, split⟩ := exists_cons_of_ne_nil nonempty
  have firstOwn : first.author = signed.inner.author := own rfl first (by simp [split])
  have parentsDistinct : ((signed.inner.ancestors.filter
      (fun anc => anc.round = signed.inner.round - 1)).map BlockRef.author).Nodup :=
    nodup.sublist (filter_sublist.map _)
  refine
    { epoch := epoch
      round_pos := Nat.pos_of_ne_zero positive
      author := author
      ancestorAuthor := fun anc mem => (each anc mem).1
      ancestorRound := fun anc mem => (each anc mem).2.1
      ancestorGenesis := fun anc mem => (each anc mem).2.2.1
      distinct := nodup
      ownFirst := ⟨first, rest, split, firstOwn, ?_⟩
      parents := ?_ }
  · intro other mem own
    rw [split, map_cons, nodup_cons] at nodup
    exact nodup.1 (List.mem_map.mpr ⟨other, mem, own.trans firstOwn.symm⟩)
  · have counted : weigh ctx.committee.stake (parentAuthors signed.inner) = stakes := by
      rw [sum, Nat.zero_add]
      exact sum_toFinset _ parentsDistinct
    rw [counted]
    exact quorum

end Mysticeti
