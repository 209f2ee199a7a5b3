import Mysticeti.Types
import Mysticeti.Lib.Machine

/-!
# The executor client

A sub-dag is converted to the message the executor reads, stored in a buffer under its
execution index and sent when its turn comes. `flush_buffer` takes the lock of the counter
or of the buffer only for the access itself, so that a call is suspended between reading
the expected index, taking the block, writing it to the socket and counting it. The model
has one step for each of these; calls interleave with each other and with
`initialize_from_go`, which raises the counter to the block after the last one of the
executor.

The encoding of messages to bytes, the decoding of transactions and the hash function are
library code: they are the parameters `TransactionCodec`, and a message stands for its
encoding.
-/

namespace Mysticeti

structure TransactionCodec where
  Decoded : Type
  decodeTransactions : Bytes → Option (List Decoded)
  decodeTransaction : Bytes → Option Decoded
  encodeHashData : Decoded → Option Bytes
  /-- The `data` field, hashed when the encoding fails. -/
  payload : Decoded → Bytes
  keccak256 : Bytes → Bytes

namespace TransactionCodec

variable (codec : TransactionCodec)

def calculateSingleTransactionHash (transaction : codec.Decoded) : Bytes :=
  match codec.encodeHashData transaction with
  | some encoded => codec.keccak256 encoded
  | none => codec.keccak256 (codec.payload transaction)

def calculateTransactionHash (data : Bytes) : Bytes :=
  match codec.decodeTransactions data with
  | some (first :: _) => codec.calculateSingleTransactionHash first
  | _ =>
    match codec.decodeTransaction data with
    | some transaction => codec.calculateSingleTransactionHash transaction
    | none => codec.keccak256 data

def verifyTransactionProtobuf (data : Bytes) : Bool :=
  (codec.decodeTransactions data).isSome || (codec.decodeTransaction data).isSome

end TransactionCodec

/-- Transactions that are their own decoding, encoding and hash, for runs on fixed inputs;
only single transactions are decoded, and no empty ones. -/
def TransactionCodec.plain : TransactionCodec where
  Decoded := Bytes
  decodeTransactions _ := none
  decodeTransaction data := if data.isEmpty then none else some data
  encodeHashData data := some data
  payload data := data
  keccak256 data := data

structure TransactionExe where
  digest : Bytes
  workerId : Nat
deriving DecidableEq, Repr, Inhabited

structure CommittedBlock where
  epoch : Epoch
  height : Nat
  transactions : List TransactionExe
deriving DecidableEq, Repr, Inhabited

structure CommittedEpochData where
  blocks : List CommittedBlock
  globalExecIndex : Nat
  commitIndex : CommitIndex
deriving DecidableEq, Repr, Inhabited

def convertTransactions (codec : TransactionCodec) (txs : List Transaction) : List TransactionExe :=
  let withHash := (txs.filter fun transaction =>
      codec.verifyTransactionProtobuf transaction.data).map fun transaction =>
    (transaction.data, codec.calculateTransactionHash transaction.data)
  (withHash.insertionSort fun left right => left.2 ≤ right.2).map fun entry =>
    { digest := entry.1, workerId := 0 }

/-- The message for a sub-dag. Every block of the sub-dag has the height of the commit. -/
def convertToProtobuf (codec : TransactionCodec) (dag : CommittedSubDag) (epoch : Epoch)
    (globalExecIndex : Nat) : CommittedEpochData :=
  let blocks := dag.blocks.map fun blk =>
    { epoch
      height := dag.commitRef.index
      transactions := convertTransactions codec blk.block.inner.transactions : CommittedBlock }
  { blocks := blocks.insertionSort fun left right => left.height ≤ right.height
    globalExecIndex
    commitIndex := dag.commitRef.index }

structure BufferedBlock where
  data : CommittedEpochData
  epoch : Epoch
  commitIndex : CommitIndex
deriving DecidableEq, Repr, Inhabited

structure ExecutorClient where
  enabled : Bool
  canCommit : Bool
  sendBuffer : Std.ExtTreeMap Nat BufferedBlock
  nextExpectedIndex : Nat

def ExecutorClient.new (enabled canCommit : Bool) : ExecutorClient :=
  { enabled, canCommit, sendBuffer := ∅, nextExpectedIndex := 1 }

inductive FlushPoint where
  | connecting
  | reading
  | taking (want : Nat)
  | sending (want : Nat) (blk : BufferedBlock)
  | counting (want : Nat)
  | restoring (want : Nat) (blk : BufferedBlock)
  | returned
deriving DecidableEq, Repr

/-- A client with the calls made on it, the blocks written to the executor, and the record
of the blocks passed in and of the answers of the executor. -/
structure ExecutorRun where
  client : ExecutorClient
  calls : List FlushPoint
  written : List (Nat × BufferedBlock)
  submitted : List (Nat × BufferedBlock)
  answers : List Nat

/-- A call begins; the call at a position goes on, with the outcome of the socket where it
waits for one; `initialize_from_go` gets an answer or fails. -/
inductive ExecutorAction where
  | call (globalExecIndex : Nat) (blk : BufferedBlock)
  | advance (pos : Nat) (succeeds : Bool)
  | answer (lastBlockNumber : Option Nat)
deriving DecidableEq, Repr

namespace ExecutorRun

def new (enabled canCommit : Bool) : ExecutorRun :=
  { client := ExecutorClient.new enabled canCommit
    calls := []
    written := []
    submitted := []
    answers := [] }

variable (st : ExecutorRun)

def moveTo (pos : Nat) (point : FlushPoint) : ExecutorRun :=
  { st with calls := st.calls.set pos point }

def withBuffer (sendBuffer : Std.ExtTreeMap Nat BufferedBlock) : ExecutorRun :=
  { st with client := { st.client with sendBuffer } }

def withNextExpected (nextExpectedIndex : Nat) : ExecutorRun :=
  { st with client := { st.client with nextExpectedIndex } }

/-- `send_committed_subdag` up to its first suspension: a client that may not commit returns
at once, another stores the block. -/
def sendCommittedSubdag (globalExecIndex : Nat) (blk : BufferedBlock) : ExecutorRun :=
  if st.client.enabled && st.client.canCommit then
    { st.withBuffer (st.client.sendBuffer.insert globalExecIndex blk) with
      calls := st.calls ++ [.connecting]
      submitted := st.submitted ++ [(globalExecIndex, blk)] }
  else { st with calls := st.calls ++ [.returned] }

def flushBuffer (pos : Nat) (succeeds : Bool) : Option ExecutorRun :=
  match st.calls[pos]? with
  | none => none
  | some .connecting => some (st.moveTo pos (if succeeds then .reading else .returned))
  | some .reading => some (st.moveTo pos (.taking st.client.nextExpectedIndex))
  | some (.taking want) =>
    match st.client.sendBuffer[want]? with
    | none => some (st.moveTo pos .returned)
    | some blk =>
      some ((st.withBuffer (st.client.sendBuffer.erase want)).moveTo pos
        (.sending want blk))
  | some (.sending want blk) =>
    if succeeds then
      some ({ st with written := st.written ++ [(want, blk)] }.moveTo pos
        (.counting want))
    else some (st.moveTo pos (.restoring want blk))
  | some (.counting _) =>
    some ((st.withNextExpected (st.client.nextExpectedIndex + 1)).moveTo pos .reading)
  | some (.restoring want blk) =>
    some ((st.withBuffer (st.client.sendBuffer.insert want blk)).moveTo pos
      .returned)
  | some .returned => none

/-- The counter is raised to the block after the last one of the executor, never lowered. -/
def initializeFromGo (lastBlockNumber : Option Nat) : ExecutorRun :=
  match st.client.enabled, lastBlockNumber with
  | true, some last =>
    { (if st.client.nextExpectedIndex < last + 1 then st.withNextExpected (last + 1)
        else st) with answers := st.answers ++ [last] }
  | _, _ => st

def step : ExecutorAction → Option ExecutorRun
  | .call globalExecIndex blk => some (st.sendCommittedSubdag globalExecIndex blk)
  | .advance pos succeeds => st.flushBuffer pos succeeds
  | .answer lastBlockNumber => some (st.initializeFromGo lastBlockNumber)

end ExecutorRun

end Mysticeti
