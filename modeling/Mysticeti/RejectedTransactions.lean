import Mysticeti.CommitFinalizer
import Mysticeti.ConsensusNode
import Mysticeti.Linearizer
import Mysticeti.DagView

/-!
# Rejected transactions at the executor

The finalizer sets the rejected transactions of a sub-dag; the executor is meant to get the
others. The conversion for the executor reads the blocks of the sub-dag and not its rejected
transactions, so it hands over what it should exactly when every rejected transaction fails
the check that it makes itself.
-/

namespace Mysticeti

open List

namespace CommittedSubDag

def isRejected (dag : CommittedSubDag) (blockRef : BlockRef) (idx : TransactionIndex) : Bool :=
  dag.rejectedTransactionsByBlock.any fun entry => entry.1 = blockRef && entry.2.contains idx

def acceptedTransactions (codec : TransactionCodec) (dag : CommittedSubDag)
    (blk : VerifiedBlock) : List Transaction :=
  (blk.transactions.zipIdx.filter fun entry =>
    codec.verifyTransactionProtobuf entry.1.data &&
      !dag.isRejected blk.reference entry.2).map Prod.fst

/-- The executor gets, block for block, the transactions that are to be executed. -/
def ExecutesAccepted (codec : TransactionCodec) (dag : CommittedSubDag)
    (data : CommittedEpochData) : Prop :=
  List.Forall₂ (fun output blk => (output.transactions.map TransactionExe.digest).Perm
    ((dag.acceptedTransactions codec blk).map Transaction.data)) data.blocks dag.blocks

end CommittedSubDag

variable (codec : TransactionCodec) (dag : CommittedSubDag)

lemma digests_convertTransactions (txs : List Transaction) :
    ((convertTransactions codec txs).map TransactionExe.digest).Perm
      ((txs.filter fun transaction =>
        codec.verifyTransactionProtobuf transaction.data).map Transaction.data) := by
  unfold convertTransactions
  rw [List.map_map]
  refine ((perm_insertionSort _ _).map _).trans ?_
  rw [List.map_map]
  exact List.Perm.refl _

lemma blocks_convertToProtobuf (epoch : Epoch) (globalExecIndex : Nat) :
    (convertToProtobuf codec dag epoch globalExecIndex).blocks =
      dag.blocks.map fun blk =>
        ⟨epoch, dag.commitRef.index, convertTransactions codec blk.transactions⟩ := by
  apply List.Pairwise.insertionSort_eq
  rw [pairwise_map]
  exact pairwise_of_forall fun _ _ => Nat.le_refl _

lemma filter_zipIdx (txs : List Transaction) :
    (txs.zipIdx.filter fun entry =>
      codec.verifyTransactionProtobuf entry.1.data).map Prod.fst =
      txs.filter fun transaction => codec.verifyTransactionProtobuf transaction.data := by
  have positions : txs = txs.zipIdx.map Prod.fst := (zipIdx_map_fst 0 txs).symm
  conv_rhs => rw [positions, List.filter_map]
  rfl

lemma digests_perm_accepted_iff (blk : VerifiedBlock) :
    ((convertTransactions codec blk.transactions).map TransactionExe.digest).Perm
        ((dag.acceptedTransactions codec blk).map Transaction.data) ↔
      ∀ idx transaction, blk.transactions[idx]? = some transaction →
        dag.isRejected blk.reference idx = true →
          codec.verifyTransactionProtobuf transaction.data = false := by
  have split : dag.acceptedTransactions codec blk =
      ((blk.transactions.zipIdx.filter fun entry =>
        codec.verifyTransactionProtobuf entry.1.data).filter fun entry =>
          !dag.isRejected blk.reference entry.2).map Prod.fst := by
    rw [CommittedSubDag.acceptedTransactions, List.filter_filter]
    simp only [Bool.and_comm]
  have converted := digests_convertTransactions codec blk.transactions
  rw [← filter_zipIdx] at converted
  constructor
  · -- a rejected transaction that decodes would make the lists differ in length
    intro same idx transaction got rejected
    by_contra decodes
    rw [Bool.not_eq_false] at decodes
    have lengths := (converted.symm.trans same).length_eq
    rw [split, length_map, length_map, length_map, length_map, eq_comm,
      length_filter_eq_length_iff] at lengths
    have here : (transaction, idx) ∈ blk.transactions.zipIdx.filter fun entry =>
        codec.verifyTransactionProtobuf entry.1.data :=
      mem_filter.mpr ⟨mk_mem_zipIdx_iff_getElem?.mpr got, decodes⟩
    have kept := lengths _ here
    rw [rejected] at kept
    cases kept
  · intro failing
    have kept : ∀ entry ∈ blk.transactions.zipIdx.filter fun entry =>
        codec.verifyTransactionProtobuf entry.1.data,
        (!dag.isRejected blk.reference entry.2) = true := by
      intro entry here
      obtain ⟨pos, decodes⟩ := mem_filter.mp here
      have got := mem_zipIdx_iff_getElem?.mp pos
      by_contra rejected
      rw [failing entry.2 entry.1 got (by simpa using rejected)] at decodes
      cases decodes
    rw [split, filter_eq_self.mpr kept]
    exact converted

/-- For every sub-dag, the executor gets the transactions that decode and are not rejected,
and no others, exactly when none of the rejected ones decodes. -/
theorem executes_accepted_iff (epoch : Epoch) (globalExecIndex : Nat) :
    dag.ExecutesAccepted codec (convertToProtobuf codec dag epoch globalExecIndex) ↔
      ∀ blk ∈ dag.blocks, ∀ idx transaction,
        blk.transactions[idx]? = some transaction →
          dag.isRejected blk.reference idx = true →
            codec.verifyTransactionProtobuf transaction.data = false := by
  rw [CommittedSubDag.ExecutesAccepted, blocks_convertToProtobuf, forall₂_map_left_iff,
    forall₂_same]
  exact forall₂_congr fun blk _ => digests_perm_accepted_iff codec dag blk

section Testing

open DagState Linearizer Lib.Machine

/-- A block of round 1 with one transaction, to which no block of the next two rounds
links. -/
def lateSibling : VerifiedBlock :=
  votingBlock 1 3 [testRef 0 3, testRef 0 0, testRef 0 1] [⟨[7]⟩] []

def rejectingRound : List VerifiedBlock :=
  [[0, 1, 2], [1, 0, 2], [2, 0, 1]].map fun parents =>
    votingBlock 4 (parents.headD 0) (parents.map (testRef 3) ++ [testRef 1 3]) []
      [⟨testRef 1 3, [0]⟩]

def sweptSubDag : CommittedSubDag :=
  ((handleCommit (Context.newForTest firstAuthority)
    (testState firstAuthority (threeRounds ++ [lateSibling]))
    [testBlock 1 0 [0, 1, 2]]).toOption.map fun res => res.1.headD default).getD default

def finalizedAfter (recv : List VerifiedBlock) : Except FinalizerPanic (List CommittedSubDag) :=
  (CommitFinalizer.receive (Context.newForTest firstAuthority)
    (.new true .new [[.addVotedBlocks (recv.map fun blk => (blk, []))]])
    sweptSubDag 0).map Prod.fst

/-- A quorum rejects the only transaction of a block, the finalizer sends the sub-dag on with
this transaction as a rejected one, and it is written to the executor all the same. -/
theorem rejected_transaction_is_executed : ∃ finalized final,
    finalizedAfter (threeRounds ++ [lateSibling] ++ rejectingRound) = .ok [finalized] ∧
    finalized.rejectedTransactionsByBlock = [(lateSibling.reference, [0])] ∧
    run (ConsensusNode.step .transparent .plain) (.new ⟨true, true⟩ .ofFour 0)
      ([.receive 0 finalized, .resume 0, .resume 0] ++ NodeAction.deliver 0 0) = some final ∧
    (final.workers.map fun worker => worker.client.written.map fun entry =>
      entry.2.data.blocks.map CommittedBlock.transactions) = [[[[], [], [], [⟨[7], 0⟩]]]] := by
  refine ⟨{ sweptSubDag with rejectedTransactionsByBlock := [(testRef 1 3, [0])] }, ?_⟩
  obtain ⟨final, ran, written⟩ := @exists_reached _ _ (ConsensusNode.step .transparent .plain)
    (.new ⟨true, true⟩ .ofFour 0)
    ([.receive 0 { sweptSubDag with rejectedTransactionsByBlock := [(testRef 1 3, [0])] },
      .resume 0, .resume 0] ++ NodeAction.deliver 0 0)
    (fun final => (final.workers.map fun worker => worker.client.written.map fun entry =>
      entry.2.data.blocks.map CommittedBlock.transactions) = [[[[], [], [], [⟨[7], 0⟩]]]]) _
    (by decide +kernel)
  exact ⟨final, by decide +kernel, rfl, ran, written⟩

end Testing

end Mysticeti
