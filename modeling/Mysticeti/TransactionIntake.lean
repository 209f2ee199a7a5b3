import Mysticeti.Lib.Machine
import Mysticeti.TransactionConsumer

/-!
# Transactions keep their order

Clients and the core use the channel in any order. The bundles of the blocks, the bundle that
was kept and those in the channel are, one after the other, the bundles that were sent: none is
lost, split or overtaken, and each submitter learns the places its transactions have.
-/

namespace Mysticeti

open List Lib.Machine Lib.Outcome

/-- A core and its clients, with what was sent and what was pulled. -/
structure IntakeNode where
  consumer : TransactionConsumer
  submitted : List TransactionsGuard
  batches : List TransactionConsumer.NextTransactions

inductive IntakeAction where
  | submit (txs : List Bytes)
  | next

namespace IntakeNode

def start (consumer : TransactionConsumer) : IntakeNode := ⟨consumer, [], []⟩

/-- A bundle that is refused changes nothing, and a client waits while the channel is full. -/
def step (ctx : Context) (node : IntakeNode) : IntakeAction → Option IntakeNode
  | .submit txs =>
    match TransactionClient.submitNoWait ctx node.submitted.length txs with
    | .error _ => some node
    | .ok guard =>
      if node.consumer.txReceiver.length < MAX_PENDING_TRANSACTIONS then
        some { node with
          consumer := { node.consumer with txReceiver := node.consumer.txReceiver ++ [guard] }
          submitted := node.submitted ++ [guard] }
      else none
  | .next =>
    let (batch, consumer) := node.consumer.next
    some { node with consumer, batches := node.batches ++ [batch] }

section Places

def places : Nat → List TransactionsGuard → Acknowledgements
  | _, [] => []
  | start, guard :: rest =>
    (guard.includedInBlockAck,
      if guard.transactions = [] then [PING_TRANSACTION_INDEX]
      else List.range' start guard.transactions.length) ::
      places (start + guard.transactions.length) rest

def allTransactions (guards : List TransactionsGuard) : List Transaction :=
  guards.flatMap TransactionsGuard.transactions

lemma allTransactions_append (first second : List TransactionsGuard) :
    allTransactions (first ++ second) = allTransactions first ++ allTransactions second :=
  flatMap_append

lemma places_append (start : Nat) (first second : List TransactionsGuard) :
    places start (first ++ second) =
      places start first ++ places (start + (allTransactions first).length) second := by
  induction first generalizing start with
  | nil => rfl
  | cons guard rest ih =>
    have length : (allTransactions (guard :: rest)).length =
        guard.transactions.length + (allTransactions rest).length := by
      simp [allTransactions]
    rw [cons_append, places, places, ih, length, Nat.add_assoc, cons_append]

def totalBytes (txs : List Transaction) : Nat :=
  (txs.map fun transaction => transaction.data.length).sum

end Places

section Pulling

variable {consumer : TransactionConsumer} {pull : Pull} {guards : List TransactionsGuard}
  {guard : TransactionsGuard}

/-- These bundles were taken into the block. -/
structure Packed (consumer : TransactionConsumer) (pull : Pull) (guards : List TransactionsGuard) :
    Prop where
  transactions : pull.transactions = allTransactions guards
  acks : pull.acks = places 0 guards
  bytes : pull.totalBytes = totalBytes pull.transactions
  bytesLimit : pull.totalBytes ≤ consumer.maxTransactionsInBlockBytes
  countLimit : pull.transactions.length ≤ consumer.maxNumTransactionsInBlock

/-- The bundle has a place in an empty block. -/
def Fits (consumer : TransactionConsumer) (guard : TransactionsGuard) : Prop :=
  guard.bytes ≤ consumer.maxTransactionsInBlockBytes ∧
    guard.transactions.length ≤ consumer.maxNumTransactionsInBlock

/-- All places are below the reserved indices. -/
def Indexable (consumer : TransactionConsumer) : Prop := consumer.maxNumTransactionsInBlock < 2 ^ 16

lemma packed_empty : Packed consumer .empty [] where
  transactions := rfl
  acks := rfl
  bytes := rfl
  bytesLimit := Nat.zero_le _
  countLimit := Nat.zero_le _

lemma handleTxs_cases (indexable : Indexable consumer) (packed : Packed consumer pull guards)
    (guard : TransactionsGuard) :
    (∃ post, consumer.handleTxs pull guard = (post, none) ∧
      Packed consumer post (guards ++ [guard])) ∨
    ∃ post, consumer.handleTxs pull guard = (post, some guard) ∧ Packed consumer post guards ∧
      (consumer.maxTransactionsInBlockBytes < pull.totalBytes + guard.bytes ∨
        consumer.maxNumTransactionsInBlock <
          pull.transactions.length + guard.transactions.length) := by
  unfold TransactionConsumer.handleTxs
  split
  case isTrue ping =>
    have nothing := eq_nil_of_length_eq_zero ping
    refine .inl ⟨_, rfl, ?_, ?_, packed.bytes, packed.bytesLimit, packed.countLimit⟩
    · rw [allTransactions_append, packed.transactions]
      simp [allTransactions, nothing]
    · rw [places_append, packed.acks]
      simp [places, nothing]
  case isFalse some =>
    split
    case isTrue excess =>
      exact .inr ⟨_, rfl, ⟨packed.transactions, packed.acks, packed.bytes, packed.bytesLimit,
        packed.countLimit⟩, .inl excess⟩
    case isFalse bytesFit =>
      split
      case isTrue excess =>
        exact .inr ⟨_, rfl, ⟨packed.transactions, packed.acks, packed.bytes, packed.bytesLimit,
          packed.countLimit⟩, .inr excess⟩
      case isFalse countFits =>
        have small : pull.transactions.length + guard.transactions.length < 2 ^ 16 :=
          Nat.lt_of_le_of_lt (Nat.le_of_not_lt countFits) indexable
        have startIdx : asTransactionIndex pull.transactions.length = pull.transactions.length :=
          Nat.mod_eq_of_lt (by omega)
        have count : asTransactionIndex guard.transactions.length = guard.transactions.length :=
          Nat.mod_eq_of_lt (by omega)
        have endIdx : asTransactionIndex (pull.transactions.length + guard.transactions.length) =
            pull.transactions.length + guard.transactions.length := Nat.mod_eq_of_lt small
        have nonempty : guard.transactions ≠ [] := fun nothing => some (by rw [nothing]; rfl)
        refine .inl ⟨_, rfl, ?_, ?_, ?_, Nat.le_of_not_lt bytesFit, ?_⟩
        · rw [allTransactions_append, packed.transactions]
          simp [allTransactions]
        · rw [places_append, ← packed.acks, ← packed.transactions]
          simp [places, nonempty, startIdx, count, endIdx]
        · simp [packed.bytes, totalBytes, TransactionsGuard.bytes]
        · rw [length_append]
          exact Nat.le_of_not_lt countFits

lemma pullFrom_spec (indexable : Indexable consumer) (packed : Packed consumer pull guards)
    (channel : List TransactionsGuard) :
    ∃ post pending rest taken, consumer.pullFrom channel pull = (post, pending, rest) ∧
      channel = taken ++ (pending.toList ++ rest) ∧ Packed consumer post (guards ++ taken) := by
  induction channel generalizing pull guards with
  | nil => exact ⟨pull, none, [], [], rfl, rfl, by rwa [append_nil]⟩
  | cons guard rest ih =>
    rw [TransactionConsumer.pullFrom]
    rcases handleTxs_cases indexable packed guard with
      ⟨post, handled, packed⟩ | ⟨post, handled, packed, -⟩
    · rw [handled]
      obtain ⟨final, pending, left, taken, pulled, split, packed⟩ := ih packed
      refine ⟨final, pending, left, guard :: taken, pulled, by rw [split]; rfl, ?_⟩
      rwa [append_assoc] at packed
    · rw [handled]
      exact ⟨post, some guard, rest, [], rfl, rfl, by rwa [append_nil]⟩

/-- The transactions and places of a block are those of bundles, within the limits, and nothing
was dropped. -/
structure Packs (ctx : Context) (batch : TransactionConsumer.NextTransactions)
    (guards : List TransactionsGuard) : Prop where
  transactions : batch.transactions = allTransactions guards
  acks : batch.acks = places 0 guards
  bytesLimit : totalBytes batch.transactions ≤ ctx.protocolConfig.maxTransactionsInBlockBytes
  countLimit : batch.transactions.length ≤ ctx.protocolConfig.maxNumTransactionsInBlock
  dropped : batch.dropped = none

/-- The consumer has the limits of the protocol. -/
structure Limited (ctx : Context) (consumer : TransactionConsumer) : Prop where
  bytes : consumer.maxTransactionsInBlockBytes = ctx.protocolConfig.maxTransactionsInBlockBytes
  count : consumer.maxNumTransactionsInBlock = ctx.protocolConfig.maxNumTransactionsInBlock
  indexable : Indexable consumer

def waiting (consumer : TransactionConsumer) : List TransactionsGuard :=
  consumer.pendingTransactions.toList ++ consumer.txReceiver

lemma takePending_spec (indexable : Indexable consumer)
    (fits : ∀ guard ∈ consumer.pendingTransactions, Fits consumer guard) :
    ∃ started, consumer.takePending = (started, none) ∧
      Packed consumer started consumer.pendingTransactions.toList := by
  rw [TransactionConsumer.takePending]
  cases pending : consumer.pendingTransactions with
  | none => exact ⟨.empty, rfl, packed_empty⟩
  | some guard =>
    rcases handleTxs_cases indexable packed_empty guard with
      ⟨post, handled, packed⟩ | ⟨_, _, _, excess⟩
    · exact ⟨post, handled, packed⟩
    · have fitting := fits guard pending
      unfold Fits at fitting
      simp only [Pull.empty, length_nil, Nat.zero_add] at excess
      omega

lemma next_spec {ctx : Context} (limited : Limited ctx consumer)
    (fits : ∀ guard ∈ waiting consumer, Fits consumer guard) :
    ∃ batch post taken, consumer.next = (batch, post) ∧
      waiting consumer = taken ++ waiting post ∧ Packs ctx batch taken ∧
      Limited ctx post ∧
      post.maxTransactionsInBlockBytes = consumer.maxTransactionsInBlockBytes ∧
      post.maxNumTransactionsInBlock = consumer.maxNumTransactionsInBlock := by
  obtain ⟨started, takesPending, packed⟩ := takePending_spec limited.indexable fun guard pending =>
    fits guard (mem_append_left _ (Option.mem_toList.mpr pending))
  obtain ⟨pull, pending, rest, taken, pulled, split, packed⟩ :=
    pullFrom_spec limited.indexable packed consumer.txReceiver
  refine ⟨⟨pull.transactions, pull.acks, pull.limitReached, none⟩,
    { consumer with pendingTransactions := pending, txReceiver := rest },
    consumer.pendingTransactions.toList ++ taken, ?_, ?_, ?_,
    ⟨limited.bytes, limited.count, limited.indexable⟩, rfl, rfl⟩
  · rw [TransactionConsumer.next, takesPending]
    dsimp only
    rw [pulled]
  · rw [waiting, waiting, split, append_assoc]
  · refine ⟨packed.transactions, packed.acks, ?_, ?_, rfl⟩
    · rw [← limited.bytes, ← packed.bytes]
      exact packed.bytesLimit
    · rw [← limited.count]
      exact packed.countLimit

end Pulling

section Submitting

variable {ctx : Context}

lemma checkSizes_ok {txs : List Bytes} {pre post : Nat}
    (checked : TransactionClient.checkSizes ctx txs pre = .ok post)
    (below : pre ≤ ctx.protocolConfig.maxTransactionsInBlockBytes) :
    post = pre + (txs.map List.length).sum ∧
      post ≤ ctx.protocolConfig.maxTransactionsInBlockBytes := by
  induction txs generalizing pre with
  | nil =>
    obtain rfl := Except.ok.inj checked
    exact ⟨rfl, below⟩
  | cons transaction rest ih =>
    rw [TransactionClient.checkSizes] at checked
    obtain ⟨_, checked⟩ := ensure_bind_eq_ok.mp checked
    obtain ⟨bytesFit, checked⟩ := ensure_bind_eq_ok.mp checked
    obtain ⟨total, limit⟩ := ih checked (Nat.le_of_not_lt bytesFit)
    rw [map_cons, sum_cons]
    exact ⟨by omega, limit⟩

lemma submitNoWait_fits {consumer : TransactionConsumer} (limited : Limited ctx consumer)
    {submission : SubmissionId} {txs : List Bytes} {guard : TransactionsGuard}
    (submitted : TransactionClient.submitNoWait ctx submission txs = .ok guard) :
    Fits consumer guard ∧ guard = ⟨txs.map Transaction.mk, submission⟩ := by
  rw [TransactionClient.submitNoWait] at submitted
  obtain ⟨countFits, submitted⟩ := ensure_bind_eq_ok.mp submitted
  obtain ⟨size, checked, submitted⟩ := bind_eq_ok.mp submitted
  obtain rfl := Except.ok.inj submitted
  obtain ⟨total, limit⟩ := checkSizes_ok checked (Nat.zero_le _)
  refine ⟨⟨?_, ?_⟩, rfl⟩
  · have bytes : (TransactionsGuard.mk (txs.map Transaction.mk) submission).bytes =
        (txs.map List.length).sum := by
      simp [TransactionsGuard.bytes, Function.comp_def]
    rw [bytes, limited.bytes]
    omega
  · rw [length_map, limited.count]
    exact Nat.le_of_not_lt countFits

end Submitting

section Runs

variable {ctx : Context} {node next : IntakeNode}

/-- What was sent is what the blocks have, followed by what waits. -/
structure Holds (ctx : Context) (node : IntakeNode) : Prop where
  limited : Limited ctx node.consumer
  fits : ∀ guard ∈ waiting node.consumer, Fits node.consumer guard
  numbered : node.submitted.map TransactionsGuard.includedInBlockAck =
    List.range node.submitted.length
  packed : ∃ groups, List.Forall₂ (Packs ctx) node.batches groups ∧
    node.submitted = groups.flatten ++ waiting node.consumer

lemma limited_new {consumer : TransactionConsumer}
    (created : TransactionConsumer.new ctx = some consumer) : Limited ctx consumer := by
  rw [TransactionConsumer.new, Option.ite_none_right_eq_some] at created
  obtain ⟨below, created⟩ := created
  obtain rfl := Option.some.inj created
  refine ⟨rfl, rfl, ?_⟩
  unfold TRANSACTION_INDEX_MAX NUM_RESERVED_TRANSACTION_INDICES at below
  unfold Indexable
  dsimp only
  omega

lemma start_holds {consumer : TransactionConsumer}
    (created : TransactionConsumer.new ctx = some consumer) :
    (start consumer).Holds ctx := by
  have empty : waiting consumer = [] := by
    rw [TransactionConsumer.new, Option.ite_none_right_eq_some] at created
    rw [← Option.some.inj created.2]
    rfl
  refine ⟨limited_new created, ?_, rfl, [], .nil, ?_⟩
  · intro guard here
    rw [start, empty] at here
    cases here
  · rw [start, empty]
    rfl

lemma Holds.submit (holds : node.Holds ctx) {txs : List Bytes}
    {guard : TransactionsGuard}
    (submitted : TransactionClient.submitNoWait ctx node.submitted.length txs = .ok guard) :
    Holds ctx { node with
      consumer := { node.consumer with txReceiver := node.consumer.txReceiver ++ [guard] }
      submitted := node.submitted ++ [guard] } := by
  obtain ⟨fits, rfl⟩ := submitNoWait_fits holds.limited submitted
  obtain ⟨groups, packs, split⟩ := holds.packed
  refine ⟨⟨holds.limited.bytes, holds.limited.count, holds.limited.indexable⟩, ?_, ?_,
    groups, packs, ?_⟩
  · intro other here
    rw [waiting, ← append_assoc] at here
    rcases mem_append.mp here with prev | last
    · exact holds.fits other prev
    · rw [mem_singleton.mp last]
      exact fits
  · rw [map_append, holds.numbered, length_append, length_singleton, range_succ]
    rfl
  · dsimp only
    rw [split, waiting, waiting, append_assoc, append_assoc]

lemma step_holds (node : IntakeNode) (act : IntakeAction) (next : IntakeNode)
    (holds : node.Holds ctx) (stepped : step ctx node act = some next) :
    next.Holds ctx := by
  cases act with
  | submit txs =>
    rw [step] at stepped
    split at stepped
    case h_1 => exact Option.some.inj stepped ▸ holds
    case h_2 guard submitted =>
      rw [Option.ite_none_right_eq_some] at stepped
      exact Option.some.inj stepped.2 ▸ holds.submit submitted
  | next =>
    obtain ⟨batch, post, taken, pulled, split, packs, limited, sameBytes, sameCount⟩ :=
      next_spec holds.limited holds.fits
    obtain ⟨groups, packsEarlier, sent⟩ := holds.packed
    rw [step, pulled] at stepped
    obtain rfl := Option.some.inj stepped
    refine ⟨limited, ?_, holds.numbered, groups ++ [taken],
      rel_append packsEarlier (.cons packs .nil), ?_⟩
    · intro guard here
      have fits := holds.fits guard (by rw [split]; exact mem_append_right taken here)
      unfold Fits at fits ⊢
      rw [sameBytes, sameCount]
      exact fits
    · rw [flatten_append, flatten_singleton, append_assoc, ← split]
      exact sent

lemma transactions_of_packs {batches : List TransactionConsumer.NextTransactions}
    {groups : List (List TransactionsGuard)} (packs : List.Forall₂ (Packs ctx) batches groups) :
    batches.flatMap TransactionConsumer.NextTransactions.transactions =
      allTransactions groups.flatten := by
  induction packs with
  | nil => rfl
  | cons first _ ih =>
    rw [flatMap_cons, flatten_cons, allTransactions_append, ih, first.transactions]

end Runs

section Testing

def smallBlocks : Context :=
  { Context.newForTest firstAuthority with
    protocolConfig := { (Context.newForTest firstAuthority).protocolConfig with
      maxTransactionSizeBytes := 2
      maxNumTransactionsInBlock := 2
      maxTransactionsInBlockBytes := 3 } }

def smallConsumer : TransactionConsumer := ⟨[], 3, 2, none, ∅⟩

end Testing

end IntakeNode

end Mysticeti
