import Mysticeti.CommitProcessor
import Mysticeti.ExecutorClient

/-!
# The queue of transactions for the next epoch

Transactions that arrive behind the barrier wait in a queue, with those of the commits a
processor withholds. After the transition `submit_queued_transactions` empties the queue, sorts
what it took by transaction hash, drops what has the hash of its predecessor, and submits the
rest one by one; the answer of the client is only logged. The queue may grow meanwhile.

The machine keeps, beside the queue, what the running submission has still to submit, and a log
of what was ever queued, taken and submitted.
-/

namespace Mysticeti

open List Option Lib.Machine

/-- What `submit_queued_transactions` submits: one transaction for each hash, in the order of
the hashes, the first of the queue where several have one hash. -/
def transactionsToSubmit (codec : TransactionCodec) (queue : List Bytes) : List Bytes :=
  let withHash := queue.map fun data => (data, codec.calculateTransactionHash data)
  let sorted := withHash.insertionSort fun left right => left.2 ≤ right.2
  (sorted.destutter fun left right => left.2 ≠ right.2).map Prod.fst

structure TransactionQueue where
  pending : List Bytes
  submitting : List Bytes
  queued : List Bytes
  taken : List Bytes
  /-- The calls of the transaction client, with whether they succeeded. -/
  submissions : List (Bytes × Bool)

/-- A transaction is queued; a commit processor does something; a submission begins, or
submits the next transaction. -/
inductive QueueAction where
  | queueTransactionForNextEpoch (data : Bytes)
  | processor (effect : CommitEffect)
  | submitQueuedTransactions
  | submit (succeeds : Bool)

namespace TransactionQueue

def new : TransactionQueue := ⟨[], [], [], [], []⟩

def enqueue (queue : TransactionQueue) (txs : List Bytes) : TransactionQueue :=
  { queue with
    pending := queue.pending ++ txs
    queued := queue.queued ++ txs }

/-- The transactions an effect of a commit processor queues. -/
def requeued : CommitEffect → List Bytes
  | .requeue _ txs => txs
  | _ => []

def step (codec : TransactionCodec) (queue : TransactionQueue) :
    QueueAction → Option TransactionQueue
  | .queueTransactionForNextEpoch data => some (queue.enqueue [data])
  | .processor effect => some (queue.enqueue (requeued effect))
  | .submitQueuedTransactions =>
    -- The node is held exclusively, so that one submission runs at a time.
    if queue.submitting = [] then
      some { queue with
        pending := []
        submitting := transactionsToSubmit codec queue.pending
        taken := queue.taken ++ queue.pending }
    else none
  | .submit succeeds =>
    match queue.submitting with
    | [] => none
    | data :: rest =>
      some { queue with
        submitting := rest
        submissions := queue.submissions ++ [(data, succeeds)] }

end TransactionQueue

section Representatives

variable {α β : Type} [DecidableEq β]

lemma exists_kept (key : α → β) {items : List α} {item : α} (mem : item ∈ items) :
    ∃ kept ∈ items.destutter (fun left right => key left ≠ key right), key kept = key item := by
  have kept : ∀ (first : α) (rest : List α), ∀ item ∈ first :: rest,
      ∃ kept ∈ rest.destutter' (fun left right => key left ≠ key right) first,
        key kept = key item := by
    intro first rest
    induction rest generalizing first with
    | nil => simp
    | cons second rest ih =>
      intro item mem
      by_cases ne : key first ≠ key second
      · rw [destutter'_cons_pos rest ne]
        obtain rfl | later := mem_cons.mp mem
        · exact ⟨item, mem_cons_self, rfl⟩
        · obtain ⟨kept, has, same⟩ := ih second item later
          exact ⟨kept, mem_cons_of_mem first has, same⟩
      · rw [destutter'_cons_neg rest ne]
        rw [ne_eq, not_not] at ne
        obtain rfl | later := mem_cons.mp mem
        · exact ih item item mem_cons_self
        · obtain rfl | later := mem_cons.mp later
          · obtain ⟨kept, has, same⟩ := ih first first mem_cons_self
            exact ⟨kept, has, same.trans ne⟩
          · exact ih first item (mem_cons_of_mem first later)
  cases items with
  | nil => cases mem
  | cons first rest => exact kept first rest item mem

end Representatives

section Submission

variable {codec : TransactionCodec} {queue : List Bytes} {data : Bytes}

instance : Std.Total (fun left right : Bytes × Bytes => left.2 ≤ right.2) :=
  ⟨fun left right => List.le_total left.2 right.2⟩

instance : IsTrans (Bytes × Bytes) (fun left right => left.2 ≤ right.2) :=
  ⟨fun _ _ _ pre post => List.le_trans pre post⟩

def HashesDiffer (codec : TransactionCodec) (queue : List Bytes) : Prop :=
  ∀ left ∈ queue, ∀ right ∈ queue,
    codec.calculateTransactionHash left = codec.calculateTransactionHash right → left = right
deriving Decidable

lemma mem_withHash {entry : Bytes × Bytes}
    (mem : entry ∈ (queue.map fun data =>
      (data, codec.calculateTransactionHash data)).insertionSort
        fun left right => left.2 ≤ right.2) :
    entry.1 ∈ queue ∧ entry.2 = codec.calculateTransactionHash entry.1 := by
  rw [(perm_insertionSort _ _).mem_iff, List.mem_map] at mem
  obtain ⟨data, has, rfl⟩ := mem
  exact ⟨has, rfl⟩

lemma pairwise_ne_of_sorted {items : List (Bytes × Bytes)}
    (sorted : items.Pairwise fun left right => left.2 ≤ right.2)
    (apart : items.IsChain fun left right => left.2 ≠ right.2) :
    items.Pairwise fun left right => left.2 ≠ right.2 := by
  induction items with
  | nil => exact .nil
  | cons first rest ih =>
    cases rest with
    | nil => exact pairwise_singleton _ _
    | cons second rest =>
      rw [isChain_cons_cons] at apart
      rw [pairwise_cons] at sorted
      refine pairwise_cons.mpr ⟨fun other mem same => ?_, ih sorted.2 apart.2⟩
      -- The second is between the first and the other, so that it would equal both.
      have fromSecond : second.2 ≤ other.2 := by
        obtain rfl | later := mem_cons.mp mem
        · exact List.le_refl _
        · exact (pairwise_cons.mp sorted.2).1 other later
      rw [← same] at fromSecond
      exact apart.1 (List.le_antisymm (sorted.1 second mem_cons_self) fromSecond)

lemma submits_all_iff : (∀ data ∈ queue, data ∈ transactionsToSubmit codec queue) ↔
    HashesDiffer codec queue := by
  have sorted := pairwise_insertionSort
    (fun left right : Bytes × Bytes => left.2 ≤ right.2)
    (queue.map fun data => (data, codec.calculateTransactionHash data))
  have sublist := destutter_sublist (fun left right : Bytes × Bytes => left.2 ≠ right.2)
    ((queue.map fun data => (data, codec.calculateTransactionHash data)).insertionSort
      fun left right => left.2 ≤ right.2)
  unfold transactionsToSubmit
  dsimp only
  constructor
  · intro submitted left leftMember right rightMember same
    obtain ⟨first, firstKept, rfl⟩ := List.mem_map.mp (submitted left leftMember)
    obtain ⟨second, secondKept, rfl⟩ := List.mem_map.mp (submitted right rightMember)
    rw [← (mem_withHash (sublist.subset firstKept)).2,
      ← (mem_withHash (sublist.subset secondKept)).2] at same
    by_contra ne
    have symmetric : Std.Symm fun left right : Bytes × Bytes => left.2 ≠ right.2 :=
      ⟨fun _ _ apart => apart.symm⟩
    have apart := pairwise_ne_of_sorted (sorted.sublist sublist) (isChain_destutter _ _)
    exact apart.forall firstKept secondKept (fun equal => ne (equal ▸ rfl)) same
  · intro differ data mem
    have has : (data, codec.calculateTransactionHash data) ∈
        (queue.map fun data => (data, codec.calculateTransactionHash data)).insertionSort
          fun left right => left.2 ≤ right.2 :=
      (perm_insertionSort _ _).mem_iff.mpr (List.mem_map_of_mem mem)
    obtain ⟨kept, keptMember, same⟩ := exists_kept Prod.snd has
    have ⟨keptQueued, keptHash⟩ := mem_withHash (sublist.subset keptMember)
    refine List.mem_map.mpr ⟨kept, keptMember, ?_⟩
    exact differ kept.1 keptQueued data mem (keptHash ▸ same)

end Submission

namespace TransactionQueue

/-- A submission finds different hashes for different transactions, and the client accepts
what it is given. -/
def Lossless (codec : TransactionCodec) (queue : TransactionQueue) : QueueAction → Prop
  | .submitQueuedTransactions => HashesDiffer codec queue.pending
  | .submit succeeds => succeeds = true
  | _ => True

instance (codec : TransactionCodec) (queue : TransactionQueue) (act : QueueAction) :
    Decidable (Lossless codec queue act) :=
  match act with
  | .submitQueuedTransactions => inferInstanceAs (Decidable (HashesDiffer codec queue.pending))
  | .submit succeeds => inferInstanceAs (Decidable (succeeds = true))
  | .queueTransactionForNextEpoch _ => inferInstanceAs (Decidable True)
  | .processor _ => inferInstanceAs (Decidable True)

/-- Nothing that was queued is lost: it was accepted, or is in the queue or about to be
submitted. What a submission took is submitted or about to be. -/
structure Kept (queue : TransactionQueue) : Prop where
  accounted : ∀ data ∈ queue.queued, (data, true) ∈ queue.submissions ∨ data ∈ queue.pending ∨
    data ∈ queue.submitting
  submitted : ∀ data ∈ queue.taken, data ∈ queue.submitting ∨
    ∃ res, (data, res) ∈ queue.submissions

section Steps

variable {codec : TransactionCodec} {queue next : TransactionQueue} {act : QueueAction}

lemma Kept.enqueue (kept : Kept queue) (txs : List Bytes) : Kept (queue.enqueue txs) where
  accounted := by
    intro data mem
    obtain pre | added := mem_append.mp mem
    · obtain acc | waiting | underway := kept.accounted data pre
      · exact .inl acc
      · exact .inr (.inl (mem_append_left _ waiting))
      · exact .inr (.inr underway)
    · exact .inr (.inl (mem_append_right _ added))
  submitted := kept.submitted

lemma Kept.take (kept : Kept queue) (differ : HashesDiffer codec queue.pending)
    (finished : queue.submitting = []) :
    Kept { queue with
      pending := []
      submitting := transactionsToSubmit codec queue.pending
      taken := queue.taken ++ queue.pending } where
  accounted := by
    intro data mem
    obtain acc | waiting | underway := kept.accounted data mem
    · exact .inl acc
    · exact .inr (.inr (submits_all_iff.mpr differ data waiting))
    · simp [finished] at underway
  submitted := by
    intro data mem
    obtain pre | taken := mem_append.mp mem
    · obtain underway | done := kept.submitted data pre
      · simp [finished] at underway
      · exact .inr done
    · exact .inl (submits_all_iff.mpr differ data taken)

lemma Kept.submit (kept : Kept queue) {first : Bytes} {rest : List Bytes}
    (underway : queue.submitting = first :: rest) :
    Kept { queue with
      submitting := rest
      submissions := queue.submissions ++ [(first, true)] } where
  accounted := by
    intro data mem
    obtain acc | waiting | submitting := kept.accounted data mem
    · exact .inl (mem_append_left _ acc)
    · exact .inr (.inl waiting)
    · rw [underway] at submitting
      obtain rfl | later := mem_cons.mp submitting
      · exact .inl (by simp)
      · exact .inr (.inr later)
  submitted := by
    intro data mem
    obtain submitting | ⟨res, done⟩ := kept.submitted data mem
    · rw [underway] at submitting
      obtain rfl | later := mem_cons.mp submitting
      · exact .inr ⟨true, by simp⟩
      · exact .inl later
    · exact .inr ⟨res, mem_append_left _ done⟩

lemma Kept.step (kept : Kept queue) (lossless : Lossless codec queue act)
    (stepped : queue.step codec act = some next) : Kept next := by
  cases act with
  | queueTransactionForNextEpoch data =>
    obtain rfl := some.inj stepped
    exact kept.enqueue [data]
  | processor effect =>
    obtain rfl := some.inj stepped
    exact kept.enqueue (requeued effect)
  | submitQueuedTransactions =>
    rw [TransactionQueue.step, ite_none_right_eq_some] at stepped
    obtain ⟨finished, taken⟩ := stepped
    obtain rfl := some.inj taken
    exact kept.take lossless finished
  | submit succeeds =>
    obtain rfl : succeeds = true := lossless
    rw [TransactionQueue.step] at stepped
    split at stepped
    case h_1 => cases stepped
    case h_2 first rest underway =>
      obtain rfl := some.inj stepped
      exact kept.submit underway

end Steps

lemma kept_new : Kept new where
  accounted := by simp [new]
  submitted := by simp [new]

/-- In every run in which submissions find different hashes for different transactions and the
client accepts what it is given, each transaction that was ever queued is accepted or still in
the queue once no submission is under way, and all that submissions took was submitted. -/
theorem queued_transactions_are_kept (codec : TransactionCodec) (sched : List QueueAction)
    (final : TransactionQueue) (lossless : Heeds (step codec) (Lossless codec) new sched)
    (ran : run (step codec) new sched = some final) (finished : final.submitting = []) :
    (∀ data ∈ final.queued, (data, true) ∈ final.submissions ∨ data ∈ final.pending) ∧
    ∀ data ∈ final.taken, ∃ res, (data, res) ∈ final.submissions := by
  have kept : Kept final :=
    invariant (fun _ _ _ kept heeds stepped => kept.step heeds stepped) kept_new lossless ran
  constructor
  · intro data mem
    obtain acc | waiting | underway := kept.accounted data mem
    · exact .inl acc
    · exact .inr waiting
    · simp [finished] at underway
  · intro data mem
    obtain underway | done := kept.submitted data mem
    · simp [finished] at underway
    · exact done

end TransactionQueue

def TransactionCodec.batches : TransactionCodec where
  Decoded := UInt8
  decodeTransactions data := some data
  decodeTransaction _ := none
  encodeHashData byte := some [byte]
  payload byte := [byte]
  keccak256 data := data

namespace TransactionQueue

def submitThree (first second third : Bytes) (succeeds : Bool) : List QueueAction :=
  [.queueTransactionForNextEpoch first, .processor (.requeue default [second, third]),
    .submitQueuedTransactions, .submit true, .submit succeeds]

theorem three_transactions_are_kept :
    ∃ final, run (step .plain) new (submitThree [2] [1] [3] true ++ [.submit true]) =
        some final ∧ final.taken = [[2], [1], [3]] ∧
      ((∀ data ∈ final.queued, (data, true) ∈ final.submissions ∨ data ∈ final.pending) ∧
      ∀ data ∈ final.taken, ∃ res, (data, res) ∈ final.submissions) := by
  have observed : ∃ final,
      run (step .plain) new (submitThree [2] [1] [3] true ++ [.submit true]) = some final ∧
        final.taken = [[2], [1], [3]] ∧ final.submitting = [] :=
    exists_reached (by decide +kernel)
  obtain ⟨final, ran, taken, finished⟩ := observed
  exact ⟨final, ran, taken, queued_transactions_are_kept .plain _ final
    (heeds_of_checks (fun _ _ => of_decide_eq_true) (by decide +kernel)) ran finished⟩

/-- Of two batches with the same first transaction only one is submitted; and a transaction
whose submission fails is gone. -/
theorem batch_and_refused_transaction_are_lost :
    (∃ final, run (step .batches) new (submitThree [1, 2] [1, 3] [4] true) = some final ∧
      final.submitting = [] ∧ [1, 3] ∈ final.taken ∧
      final.submissions = [([1, 2], true), ([4], true)] ∧ final.pending = []) ∧
    (∃ final, run (step .batches) new (submitThree [1] [1] [4] false) = some final ∧
      final.submitting = [] ∧ [4] ∈ final.queued ∧
      final.submissions = [([1], true), ([4], false)] ∧ final.pending = []) :=
  ⟨exists_reached (by decide +kernel), exists_reached (by decide +kernel)⟩

end TransactionQueue

end Mysticeti
