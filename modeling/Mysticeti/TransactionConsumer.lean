import Mysticeti.Context

/-!
# From clients to proposals

A client checks the size of a bundle of transactions and sends it into a bounded channel; the
core takes bundles from the channel when it proposes a block, as long as they fit. The first
bundle that does not fit is kept for the next proposal. Once the block exists, each submitter
learns its reference and the places of the transactions in it, and is subscribed to its status.

A submission is known by its number, which stands for both of its one-shot channels. A bundle
that is sent while the core is pulling is either seen by the pull or left for the next one, so
that a pull is one step.
-/

namespace Mysticeti

open Lib.Outcome

abbrev SubmissionId := Nat

/-- Indices have 16 bits. -/
def asTransactionIndex (val : Nat) : TransactionIndex := val % 2 ^ 16

def TRANSACTION_INDEX_MAX : TransactionIndex := 2 ^ 16 - 1

def NUM_RESERVED_TRANSACTION_INDICES : TransactionIndex := 8

def PING_TRANSACTION_INDEX : TransactionIndex := TRANSACTION_INDEX_MAX

def MAX_PENDING_TRANSACTIONS : Nat := 2000

structure TransactionsGuard where
  transactions : List Transaction
  includedInBlockAck : SubmissionId
deriving DecidableEq, Repr

def TransactionsGuard.bytes (guard : TransactionsGuard) : Nat :=
  (guard.transactions.map fun transaction => transaction.data.length).sum

inductive LimitReached where
  | maxNumOfTransactions
  | maxBytes
  | allTransactionsIncluded
deriving DecidableEq, Repr

inductive BlockStatus where
  | sequenced (blk : BlockRef)
  | garbageCollected (blk : BlockRef)
deriving DecidableEq, Repr

abbrev Acknowledgements := List (SubmissionId × List TransactionIndex)

structure TransactionConsumer where
  txReceiver : List TransactionsGuard
  maxTransactionsInBlockBytes : Nat
  maxNumTransactionsInBlock : Nat
  pendingTransactions : Option TransactionsGuard
  blockStatusSubscribers : Std.ExtTreeMap BlockRef (List SubmissionId)

structure Pull where
  transactions : List Transaction
  acks : Acknowledgements
  totalBytes : Nat
  limitReached : LimitReached
deriving DecidableEq, Repr

def Pull.empty : Pull := ⟨[], [], 0, .allTransactionsIncluded⟩

namespace TransactionConsumer

/-- Fails when the places in a block could reach the reserved indices. -/
def new (ctx : Context) : Option TransactionConsumer :=
  if ctx.protocolConfig.maxNumTransactionsInBlock - 1 <
      TRANSACTION_INDEX_MAX - NUM_RESERVED_TRANSACTION_INDICES then
    some
      { txReceiver := []
        maxTransactionsInBlockBytes := ctx.protocolConfig.maxTransactionsInBlockBytes
        maxNumTransactionsInBlock := ctx.protocolConfig.maxNumTransactionsInBlock
        pendingTransactions := none
        blockStatusSubscribers := ∅ }
  else none

variable (consumer : TransactionConsumer)

/-- Take a bundle into the block, or return it. -/
def handleTxs (pull : Pull) (guard : TransactionsGuard) : Pull × Option TransactionsGuard :=
  if guard.transactions.length = 0 then
    ({ pull with
      acks := pull.acks ++ [(guard.includedInBlockAck, [PING_TRANSACTION_INDEX])] }, none)
  else if pull.totalBytes + guard.bytes > consumer.maxTransactionsInBlockBytes then
    ({ pull with limitReached := .maxBytes }, some guard)
  else if pull.transactions.length + guard.transactions.length >
      consumer.maxNumTransactionsInBlock then
    ({ pull with limitReached := .maxNumOfTransactions }, some guard)
  else
    let startIdx := asTransactionIndex pull.transactions.length
    let endIdx := asTransactionIndex (startIdx + asTransactionIndex guard.transactions.length)
    ({ pull with
      totalBytes := pull.totalBytes + guard.bytes
      acks := pull.acks ++ [(guard.includedInBlockAck, List.range' startIdx (endIdx - startIdx))]
      transactions := pull.transactions ++ guard.transactions }, none)

/-- Take bundles from the channel until one does not fit. -/
def pullFrom (consumer : TransactionConsumer) :
    List TransactionsGuard → Pull → Pull × Option TransactionsGuard × List TransactionsGuard
  | [], pull => (pull, none, [])
  | guard :: rest, pull =>
    match consumer.handleTxs pull guard with
    | (pull, none) => consumer.pullFrom rest pull
    | (pull, some guard) => (pull, some guard, rest)

structure NextTransactions where
  transactions : List Transaction
  acks : Acknowledgements
  limitReached : LimitReached
  dropped : Option TransactionsGuard
deriving DecidableEq, Repr

/-- The bundle that was kept comes first. If it does not fit into an empty block, it is
dropped. -/
def takePending : Pull × Option TransactionsGuard :=
  match consumer.pendingTransactions with
  | none => (.empty, none)
  | some guard => consumer.handleTxs .empty guard

def next : NextTransactions × TransactionConsumer :=
  let (started, dropped) := consumer.takePending
  let (pull, pendingTransactions, txReceiver) := consumer.pullFrom consumer.txReceiver started
  (⟨pull.transactions, pull.acks, pull.limitReached, dropped⟩,
    { consumer with pendingTransactions, txReceiver })

/-- The callback of `next`: each submitter is subscribed to the status of the block. -/
def acknowledge (acks : Acknowledgements) (blockRef : BlockRef) : TransactionConsumer :=
  { consumer with
    blockStatusSubscribers := acks.foldl (fun subscribers ack =>
      subscribers.insert blockRef ((subscribers[blockRef]?).getD [] ++ [ack.1]))
      consumer.blockStatusSubscribers }

def notifyBlock (status : BlockRef → BlockStatus)
    (notified : Std.ExtTreeMap BlockRef (List SubmissionId) × List (SubmissionId × BlockStatus))
    (blockRef : BlockRef) :
    Std.ExtTreeMap BlockRef (List SubmissionId) × List (SubmissionId × BlockStatus) :=
  match notified.1[blockRef]? with
  | none => notified
  | some subscribers =>
    (notified.1.erase blockRef,
      notified.2 ++ subscribers.map fun subscriber => (subscriber, status blockRef))

/-- The subscribers of the committed blocks are told first; then those of the first blocks in
the order of references, as long as their rounds are collected. -/
def notifyOwnBlocksStatus (committedBlocks : List BlockRef)
    (gcRound : Round) : List (SubmissionId × BlockStatus) × TransactionConsumer :=
  let sequenced := committedBlocks.foldl (notifyBlock .sequenced)
    (consumer.blockStatusSubscribers, [])
  let collected := sequenced.1.keys.takeWhile fun blockRef => blockRef.round ≤ gcRound
  let (blockStatusSubscribers, statuses) :=
    collected.foldl (notifyBlock .garbageCollected) sequenced
  (statuses, { consumer with blockStatusSubscribers })

end TransactionConsumer

inductive ClientError where
  | oversizedTransaction (size limit : Nat)
  | oversizedTransactionBundleBytes (size limit : Nat)
  | oversizedTransactionBundleCount (count limit : Nat)
deriving DecidableEq, Repr

namespace TransactionClient

def checkSizes (ctx : Context) : List Bytes → Nat → Except ClientError Nat
  | [], bundleSize => .ok bundleSize
  | transaction :: rest, bundleSize => do
    ensure (¬ transaction.length > ctx.protocolConfig.maxTransactionSizeBytes)
      (.oversizedTransaction transaction.length ctx.protocolConfig.maxTransactionSizeBytes)
    let bundleSize := bundleSize + transaction.length
    ensure (¬ bundleSize > ctx.protocolConfig.maxTransactionsInBlockBytes)
      (.oversizedTransactionBundleBytes bundleSize
        ctx.protocolConfig.maxTransactionsInBlockBytes)
    checkSizes ctx rest bundleSize

def submitNoWait (ctx : Context) (submission : SubmissionId) (txs : List Bytes) :
    Except ClientError TransactionsGuard := do
  ensure (¬ txs.length > ctx.protocolConfig.maxNumTransactionsInBlock)
    (ClientError.oversizedTransactionBundleCount txs.length
      ctx.protocolConfig.maxNumTransactionsInBlock)
  let _ ← checkSizes ctx txs 0
  pure ⟨txs.map Transaction.mk, submission⟩

end TransactionClient

end Mysticeti
