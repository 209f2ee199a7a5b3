import Mysticeti.CheckpointEpochs
import Mysticeti.CommitDelivery

/-!
# Accounting of the commits of an epoch

The execution indices of an epoch count on from a base. In epoch 0 the formula changes once
the indices of the commits have grown to a tenth of the base, and the count starts over.

The commit loop has two copies of the code that processes a commit. The copy for a commit
that arrives when it is expected calls the epoch managers and counts the blocks; the copy for
a commit from the buffer does neither. The accounts of an epoch thus depend on the order of
arrival. An error of a manager ends the loop; the results here are about loops that process
every commit, without a barrier. The clock and the executor answer each commit the same
whenever it is processed, so that only the order differs.
-/

namespace Mysticeti

open List

section Indices

variable {epoch : Epoch} {base : Nat} {idx : CommitIndex}

/-- Epoch 0 changes its formula between a commit and the next one. -/
def SwitchesAfter (epoch : Epoch) (base : Nat) (idx : CommitIndex) : Prop :=
  epoch = 0 ∧ idx * 10 < base ∧ base ≤ (idx + 1) * 10

lemma calculateGlobalExecIndex_succ_iff :
    calculateGlobalExecIndex epoch (idx + 1) base = calculateGlobalExecIndex epoch idx base + 1 ↔
      ¬ SwitchesAfter epoch base idx := by
  unfold calculateGlobalExecIndex SwitchesAfter
  by_cases genesis : epoch = 0
  · simp only [genesis, if_true, true_and]
    split <;> split <;> lia
  · simp only [genesis, if_false, false_and, not_false_eq_true, iff_true]
    lia

lemma calculateGlobalExecIndex_eq_add {count : Nat}
    (stays : ∀ prev, 1 ≤ prev → prev < 1 + count → ¬ SwitchesAfter epoch base prev) :
    calculateGlobalExecIndex epoch (1 + count) base =
      calculateGlobalExecIndex epoch 1 base + count := by
  induction count with
  | zero => rfl
  | succ count ih =>
    have pre := ih fun prev low high => stays prev low (by lia)
    have here := calculateGlobalExecIndex_succ_iff.mpr (stays (1 + count) (by lia) (by lia))
    rw [← Nat.add_assoc, here, pre, Nat.add_assoc]

lemma calculateGlobalExecIndex_repeats (switches : SwitchesAfter epoch base idx)
    (positive : 1 ≤ idx) :
    calculateGlobalExecIndex epoch 1 base = calculateGlobalExecIndex epoch (base + 1) base ∧
      1 ≠ base + 1 := by
  obtain ⟨genesis, above, below⟩ := switches
  unfold calculateGlobalExecIndex
  simp only [genesis, if_true]
  rw [if_pos (by lia), if_neg (by lia)]
  exact ⟨rfl, by lia⟩

lemma calculateGlobalExecIndex_injOn_of_le {total : Nat} (few : total ≤ base) :
    Set.InjOn (fun idx => calculateGlobalExecIndex epoch idx base) (Set.Icc 1 total) := by
  intro left ⟨_, leftHigh⟩ right ⟨_, rightHigh⟩ same
  unfold calculateGlobalExecIndex at same
  dsimp only at same
  by_cases genesis : epoch = 0
  · simp only [genesis, if_true] at same
    split at same <;> split at same <;> lia
  · simp only [genesis, if_false] at same
    lia

/-- The execution indices of an epoch are consecutive exactly where the formula does not
change, and so for its first commits together. They are different from each other also when
there are no more commits than the base. -/
theorem execution_indices_consecutive_iff (epoch : Epoch) (base : Nat) :
    (∀ idx, 1 ≤ idx → (calculateGlobalExecIndex epoch (idx + 1) base =
        calculateGlobalExecIndex epoch idx base + 1 ↔ ¬ SwitchesAfter epoch base idx)) ∧
    ∀ total,
      ((List.range' 1 total).map (fun idx => calculateGlobalExecIndex epoch idx base) =
          List.range' (calculateGlobalExecIndex epoch 1 base) total ↔
        ∀ idx, 1 ≤ idx → idx < total → ¬ SwitchesAfter epoch base idx) ∧
      (Set.InjOn (fun idx => calculateGlobalExecIndex epoch idx base) (Set.Icc 1 total) ↔
        total ≤ base ∨ ∀ idx, 1 ≤ idx → idx < total → ¬ SwitchesAfter epoch base idx) := by
  refine ⟨fun idx _ => calculateGlobalExecIndex_succ_iff, fun total => ⟨?_, ?_⟩⟩
  · constructor
    · intro consecutive idx positive inside
      have entry : ∀ pos, pos < total →
          calculateGlobalExecIndex epoch (1 + pos) base =
            calculateGlobalExecIndex epoch 1 base + pos := by
        intro pos low
        have same := congrArg (fun indices => indices[pos]?) consecutive
        simpa [getElem?_range', low] using same
      have here := entry (idx - 1) (by lia)
      have next := entry idx inside
      rw [Nat.add_sub_cancel' positive] at here
      rw [Nat.add_comm 1] at next
      exact calculateGlobalExecIndex_succ_iff.mp (by lia)
    · intro stays
      apply ext_getElem
      · simp
      · intro pos low _
        simp only [length_map, length_range'] at low
        simp only [getElem_map, getElem_range', Nat.one_mul]
        exact calculateGlobalExecIndex_eq_add fun prev positive high =>
          stays prev positive (by lia)
  · constructor
    · intro injective
      by_contra! both
      obtain ⟨many, idx, positive, inside, switches⟩ := both
      obtain ⟨same, ne⟩ := calculateGlobalExecIndex_repeats switches positive
      exact ne (injective ⟨le_rfl, by lia⟩ ⟨by lia, many⟩ same)
    · rintro (few | stays)
      · exact calculateGlobalExecIndex_injOn_of_le few
      · intro left ⟨leftLow, leftHigh⟩ right ⟨rightLow, rightHigh⟩ same
        have leftIs := @calculateGlobalExecIndex_eq_add epoch base (left - 1)
          fun prev positive high => stays prev positive (by lia)
        have rightIs := @calculateGlobalExecIndex_eq_add epoch base (right - 1)
          fun prev positive high => stays prev positive (by lia)
        rw [Nat.add_sub_cancel' leftLow] at leftIs
        rw [Nat.add_sub_cancel' rightLow] at rightIs
        dsimp only at same
        lia

/-- With base 15, commit 1 of epoch 0 has index 16, commit 2 has index 2, and commit 16 has
index 16 again. -/
theorem execution_indices_start_over :
    [1, 2, 16].map (fun idx => calculateGlobalExecIndex 0 idx 15) = [16, 2, 16] := by
  decide

theorem execution_indices_consecutive_iff_fifteen :
    calculateGlobalExecIndex 0 3 15 = calculateGlobalExecIndex 0 2 15 + 1 ↔
      ¬ SwitchesAfter 0 15 2 :=
  (execution_indices_consecutive_iff 0 15).1 2 (by decide)

end Indices

section Overtaking

variable {arrivals : List CommittedSubDag} {dag : CommittedSubDag}

def inOrder : List CommittedSubDag → List CommittedSubDag
  | [] => []
  | dag :: rest =>
    if rest.all fun later => dag.commitRef.index ≤ later.commitRef.index then
      dag :: inOrder rest
    else inOrder rest

/-- The commit arrives before an earlier one. -/
def Overtakes (arrivals : List CommittedSubDag) (dag : CommittedSubDag) : Prop :=
  ∃ pre post, arrivals = pre ++ dag :: post ∧
    ∃ other ∈ post, other.commitRef.index < dag.commitRef.index

lemma overtakes_cons {first : CommittedSubDag} : Overtakes (first :: arrivals) dag ↔
    (dag = first ∧ ∃ other ∈ arrivals, other.commitRef.index < first.commitRef.index) ∨
      Overtakes arrivals dag := by
  constructor
  · rintro ⟨pre, post, split, late⟩
    cases pre with
    | nil =>
      obtain ⟨rfl, rfl⟩ := List.cons.inj split
      exact .inl ⟨rfl, late⟩
    | cons head pre =>
      obtain ⟨rfl, rfl⟩ := List.cons.inj split
      exact .inr ⟨pre, post, rfl, late⟩
  · rintro (⟨rfl, late⟩ | ⟨pre, post, rfl, late⟩)
    · exact ⟨[], arrivals, rfl, late⟩
    · exact ⟨first :: pre, post, rfl, late⟩

lemma inOrder_sublist (arrivals : List CommittedSubDag) :
    (inOrder arrivals).Sublist arrivals := by
  induction arrivals with
  | nil => exact .slnil
  | cons dag rest ih =>
    rw [inOrder]
    split
    · exact ih.cons_cons dag
    · exact ih.cons dag

lemma inOrder_pairwise (arrivals : List CommittedSubDag) :
    (inOrder arrivals).Pairwise fun left right => left.commitRef.index ≤ right.commitRef.index := by
  induction arrivals with
  | nil => exact .nil
  | cons dag rest ih =>
    rw [inOrder]
    split
    · rename_i first
      refine .cons (fun later kept => ?_) ih
      have bound := List.all_eq_true.mp first later ((inOrder_sublist rest).subset kept)
      exact of_decide_eq_true bound
    · exact ih

/-- A quantity summed over the commits that arrive in order is the sum over all of them,
exactly when the others have none of it. -/
lemma sum_inOrder_eq_iff (quantity : CommittedSubDag → Nat) :
    ((inOrder arrivals).map quantity).sum = (arrivals.map quantity).sum ↔
      ∀ dag, Overtakes arrivals dag → quantity dag = 0 := by
  induction arrivals with
  | nil =>
    refine iff_of_true rfl fun dag => ?_
    rintro ⟨pre, post, split, _⟩
    simp at split
  | cons first rest ih =>
    simp only [overtakes_cons]
    rw [inOrder]
    split
    · rename_i kept
      rw [map_cons, sum_cons, map_cons, sum_cons, Nat.add_left_cancel_iff, ih]
      have never : ¬ ∃ other ∈ rest, other.commitRef.index < first.commitRef.index := by
        rintro ⟨other, later, less⟩
        have bound := of_decide_eq_true (List.all_eq_true.mp kept other later)
        exact absurd less (Nat.not_lt_of_le bound)
      simp only [never, and_false, false_or]
    · rename_i dropped
      have late : ∃ other ∈ rest, other.commitRef.index < first.commitRef.index := by
        simpa using dropped
      have fewer : ((inOrder rest).map quantity).sum ≤ (rest.map quantity).sum :=
        ((inOrder_sublist rest).map quantity).sum_le_sum fun _ _ => Nat.zero_le _
      rw [map_cons, sum_cons]
      constructor
      · rintro same dag (⟨rfl, _⟩ | overtakes)
        · lia
        · exact ih.mp (by lia) dag overtakes
      · intro none
        have firstNone := none first (.inl ⟨rfl, late⟩)
        have restNone := ih.mpr fun dag overtakes => none dag (.inr overtakes)
        lia

lemma inOrder_eq_self_iff :
    inOrder arrivals = arrivals ↔ ∀ dag, ¬ Overtakes arrivals dag := by
  have lengths := @sum_inOrder_eq_iff arrivals fun _ => 1
  simp only [map_const', sum_replicate, smul_eq_mul, mul_one, one_ne_zero] at lengths
  exact ⟨fun same => lengths.mp (congrArg List.length same),
    fun never => (inOrder_sublist arrivals).eq_of_length (lengths.mpr never)⟩

end Overtaking

/-- What a commit loop did for the accounts of the epoch: the blocks it counted, how often it
called each function of an epoch manager, and the manager of checkpoints, if there is one. -/
structure EpochAccounts where
  blocksInCurrentEpoch : Nat
  /-- Calls of `check_and_trigger_epoch_transition`. -/
  transitionChecks : Nat
  /-- Calls of `process_commit_and_check_epoch_transition`. -/
  checkpointChecks : Nat
  /-- Calls of `trigger_block_based_epoch_transition`. -/
  blockTriggers : Nat
  checkpoints : Option CheckpointEpochTransitionManager

structure AccountedLoop where
  delivery : CommitProcessor × List CommitEffect
  accounts : EpochAccounts

namespace AccountedLoop

open CommitProcessor

section Accounts

/- The epoch transition manager, if there is one, with the number of blocks per epoch in its
configuration, and the answers of the surroundings to each commit. -/
variable (transition : Option (Option Nat)) (ans : CommittedSubDag → CheckpointAnswers)

/-- The loop after `process_commit`, in the copy of the code for a commit in order. -/
def account (accounts : EpochAccounts) (dag : CommittedSubDag) : EpochAccounts :=
  let blocksCount := dag.blocks.length
  let currentCount := accounts.blocksInCurrentEpoch + blocksCount
  let final := transition.any fun period =>
    period.any fun limit => limit ≤ currentCount
  { blocksInCurrentEpoch := currentCount
    transitionChecks := accounts.transitionChecks + if transition.isSome then 1 else 0
    checkpointChecks := accounts.checkpointChecks + if accounts.checkpoints.isSome then 1 else 0
    blockTriggers := accounts.blockTriggers + if 0 < blocksCount ∧ final then 1 else 0
    checkpoints := accounts.checkpoints.map fun mgr =>
      mgr.processCommitAndCheckEpochTransition (ans dag) dag
        dag.commitRef.index }

def handle (loop : AccountedLoop) (dag : CommittedSubDag) : AccountedLoop :=
  { delivery := CommitProcessor.handle 0 loop.delivery dag
    accounts :=
      if CheckpointLoop.takesUp 0 loop.delivery.1 dag then
        account transition ans loop.accounts dag
      else loop.accounts }

def new (epoch : Epoch) (lastExec : Nat) (executorClient : Bool)
    (checkpoints : Option CheckpointEpochTransitionManager) : AccountedLoop :=
  ⟨(.new epoch lastExec executorClient, []), ⟨0, 0, 0, 0, checkpoints⟩⟩

def handleAll (loop : AccountedLoop) (arrivals : List CommittedSubDag) : AccountedLoop :=
  arrivals.foldl (handle transition ans) loop

end Accounts

section Orders

variable {transition : Option (Option Nat)} {ans : CommittedSubDag → CheckpointAnswers}
  {commits recv : List CommittedSubDag} {count : Nat} {origin : CommitProcessor}
  {arrivals : List CommittedSubDag}

lemma numbered_pairwise (numbered : Numbered commits) :
    commits.Pairwise fun left right => left.commitRef.index < right.commitRef.index := by
  rw [pairwise_iff_getElem]
  intro i j insideLeft insideRight less
  rw [numbered i insideLeft, numbered j insideRight]
  lia

lemma numbered_nodup (numbered : Numbered commits) : commits.Nodup := by
  refine (numbered_pairwise numbered).imp fun less same => ?_
  rw [same] at less
  exact Nat.lt_irrefl _ less

lemma takesUp_iff {loop : AccountedLoop} {dag : CommittedSubDag}
    (standing : Standing 0 origin commits recv count loop.delivery) :
    CheckpointLoop.takesUp 0 loop.delivery.1 dag = true ↔
      dag.commitRef.index = count + 1 := by
  rw [CheckpointLoop.takesUp, standing.next]
  have unset : (loop.delivery.1.observe 0).barrierSnapshot = 0 := standing.steady rfl
  simp [unset, pastBarrier]

lemma expected_iff (numbered : Numbered commits) {delivery : CommitProcessor × List CommitEffect}
    {dag : CommittedSubDag} {rest : List CommittedSubDag}
    (standing : Standing 0 origin commits recv count delivery)
    (free : ¬ Stuck count recv) (all : (recv ++ dag :: rest).Perm commits) :
    dag.commitRef.index = count + 1 ↔
      ∀ later ∈ rest, dag.commitRef.index ≤ later.commitRef.index := by
  have nodup : (recv ++ dag :: rest).Nodup := all.nodup_iff.mpr (numbered_nodup numbered)
  have known : ∀ other ∈ recv ++ dag :: rest, other ∈ commits :=
    fun other has => all.mem_iff.mp has
  have pending : ∀ other ∈ dag :: rest, count < other.commitRef.index := by
    intro other has
    by_contra low
    have arrived := standing.arrived other (known other (mem_append_right _ has))
      (Nat.le_of_not_lt low)
    exact (nodup_append.mp nodup).2.2 other arrived other has rfl
  constructor
  · intro want later has
    have above := pending later (mem_cons_of_mem _ has)
    lia
  · intro first
    have above := pending dag mem_cons_self
    by_contra unexpected
    -- the commit that is expected is still to come
    obtain ⟨pos, inside, _, idx⟩ := numbered.position (known dag (by simp))
    have within : count < commits.length := by lia
    have number := numbered count within
    rcases mem_append.mp (all.mem_iff.mpr (getElem_mem within)) with early | late
    · exact free ⟨_, early, number⟩
    · rcases mem_cons.mp late with same | later
      · rw [same] at number
        exact unexpected number
      · have bound := first _ later
        lia

lemma accounts_handleAll (numbered : Numbered commits) {loop : AccountedLoop}
    (standing : Standing 0 origin commits recv count loop.delivery)
    (free : ¬ Stuck count recv) (all : (recv ++ arrivals).Perm commits) :
    (loop.handleAll transition ans arrivals).accounts =
      (inOrder arrivals).foldl (account transition ans) loop.accounts := by
  induction arrivals generalizing loop recv count with
  | nil => rfl
  | cons dag rest ih =>
    have nodup := all.nodup_iff.mpr (numbered_nodup numbered)
    have fresh : dag ∉ recv := fun has =>
      (nodup_append.mp nodup).2.2 dag has dag mem_cons_self rfl
    obtain ⟨final, stands, stuck⟩ := standing.arrive numbered (all.mem_iff.mp (by simp))
      (fun other has => all.mem_iff.mp (mem_append_left _ has)) fresh
    have freeOn : ¬ Stuck final (recv ++ [dag]) := by
      rw [stuck]
      rintro (pre | ⟨past, _⟩)
      · exact free pre
      · cases past
    have later := @ih (recv ++ [dag]) final
      (loop.handle transition ans dag) stands freeOn
      (by rwa [append_assoc, singleton_append])
    have taken := (takesUp_iff standing).trans (expected_iff numbered standing free all)
    rw [handleAll, foldl_cons]
    refine later.trans ?_
    rw [inOrder]
    by_cases first : ∀ later ∈ rest, dag.commitRef.index ≤ later.commitRef.index
    · rw [handle, if_pos (taken.mpr first), if_pos (by simpa using first), foldl_cons]
    · rw [handle, if_neg fun takes => first (taken.mp takes), if_neg (by simpa using first)]

lemma foldl_account (accounts : EpochAccounts) (taken : List CommittedSubDag) :
    let post := taken.foldl (account transition ans) accounts
    post.blocksInCurrentEpoch = accounts.blocksInCurrentEpoch +
        (taken.map fun dag => dag.blocks.length).sum ∧
      post.transitionChecks = accounts.transitionChecks +
        (if transition.isSome then taken.length else 0) ∧
      post.checkpointChecks = accounts.checkpointChecks +
        (if accounts.checkpoints.isSome then taken.length else 0) := by
  induction taken generalizing accounts with
  | nil => simp
  | cons dag rest ih =>
    obtain ⟨blocks, transitions, checkpoints⟩ := ih (account transition ans accounts dag)
    have same : (account transition ans accounts dag).checkpoints.isSome =
        accounts.checkpoints.isSome := Option.isSome_map
    rw [same] at checkpoints
    dsimp only [foldl_cons]
    refine ⟨?_, ?_, ?_⟩
    · rw [blocks, map_cons, sum_cons, ← Nat.add_assoc]
      rfl
    · rw [transitions, length_cons]
      simp only [account]
      split <;> lia
    · rw [checkpoints, length_cons]
      simp only [account]
      split <;> lia

lemma foldl_account_unmanaged (accounts : EpochAccounts) (unmanaged : accounts.checkpoints = none)
    (taken : List CommittedSubDag) :
    taken.foldl (account none ans) accounts =
      { accounts with
        blocksInCurrentEpoch := accounts.blocksInCurrentEpoch +
          (taken.map fun dag => dag.blocks.length).sum } := by
  induction taken generalizing accounts with
  | nil => rfl
  | cons dag rest ih =>
    rw [foldl_cons, ih _ (by simp [account, unmanaged])]
    simp [account, unmanaged, Nat.add_assoc]

lemma inOrder_eq_commits (numbered : Numbered commits) (all : arrivals.Perm commits)
    (whole : inOrder arrivals = arrivals) : inOrder arrivals = commits := by
  have sorted := inOrder_pairwise arrivals
  rw [whole] at sorted ⊢
  refine all.eq_of_pairwise (fun left right leftMember rightMember low high => ?_) sorted
    ((numbered_pairwise numbered).imp Nat.le_of_lt)
  exact numbered.unique (all.mem_iff.mp leftMember) rightMember (Nat.le_antisymm low high)

lemma inOrder_eq_self_of_managed {checkpoints : Option CheckpointEpochTransitionManager}
    (all : arrivals.Perm commits) (managed : ¬ (transition = none ∧ checkpoints = none))
    (same : (inOrder arrivals).foldl (account transition ans) ⟨0, 0, 0, 0, checkpoints⟩ =
      commits.foldl (account transition ans) ⟨0, 0, 0, 0, checkpoints⟩) :
    inOrder arrivals = arrivals := by
  obtain ⟨_, left, leftCheckpoints⟩ := @foldl_account transition ans
    ⟨0, 0, 0, 0, checkpoints⟩ (inOrder arrivals)
  obtain ⟨_, right, rightCheckpoints⟩ := @foldl_account transition ans
    ⟨0, 0, 0, 0, checkpoints⟩ commits
  rw [same, right] at left
  rw [same, rightCheckpoints] at leftCheckpoints
  apply (inOrder_sublist arrivals).eq_of_length
  rw [all.length_eq]
  cases transition with
  | some period => simpa using left.symm
  | none =>
    cases checkpoints with
    | some mgr => simpa using leftCheckpoints.symm
    | none => exact absurd ⟨rfl, rfl⟩ managed

/-- The accounts of an epoch are those of the commits in order, exactly when no commit
overtakes an earlier one, or there is no manager and those that do have no blocks. -/
theorem accounts_agree_iff (transition : Option (Option Nat))
    (checkpoints : Option CheckpointEpochTransitionManager)
    (ans : CommittedSubDag → CheckpointAnswers) (epoch : Epoch) (lastExec : Nat)
    (executorClient : Bool) (total : Nat) (commits arrivals : List CommittedSubDag)
    (indices : commits.map (fun dag => dag.commitRef.index) = List.range' 1 total)
    (all : arrivals.Perm commits) :
    ((new epoch lastExec executorClient checkpoints).handleAll transition ans
        arrivals).accounts =
      ((new epoch lastExec executorClient checkpoints).handleAll transition ans
        commits).accounts ↔
      ∀ dag, Overtakes arrivals dag →
        transition = none ∧ checkpoints = none ∧ dag.blocks = [] := by
  have numbered := numbered_of_map indices
  have accounted : ∀ order : List CommittedSubDag, order.Perm commits →
      ((new epoch lastExec executorClient checkpoints).handleAll transition ans
        order).accounts =
      (inOrder order).foldl (account transition ans) ⟨0, 0, 0, 0, checkpoints⟩ := by
    intro order whole
    refine @accounts_handleAll transition ans commits [] 0 _ order numbered
      (new epoch lastExec executorClient checkpoints) (standing_new numbered)
      ?_ whole
    rintro ⟨_, has, _⟩
    cases has
  have ordered : inOrder commits = commits := by
    rw [inOrder_eq_self_iff]
    rintro dag ⟨pre, post, rfl, other, later, less⟩
    have above := (pairwise_cons.mp
      (pairwise_append.mp (numbered_pairwise numbered)).2.1).1 other later
    exact Nat.lt_asymm above less
  rw [accounted arrivals all, accounted commits (.refl _), ordered]
  by_cases unmanaged : transition = none ∧ checkpoints = none
  · obtain ⟨rfl, rfl⟩ := unmanaged
    rw [foldl_account_unmanaged _ rfl, foldl_account_unmanaged _ rfl]
    have blocks := @sum_inOrder_eq_iff arrivals fun dag => dag.blocks.length
    rw [(all.map _).sum_eq] at blocks
    simpa using blocks
  · constructor
    · intro same dag overtakes
      have whole := inOrder_eq_self_of_managed all unmanaged same
      exact absurd overtakes (inOrder_eq_self_iff.mp whole dag)
    · intro condition
      have whole : inOrder arrivals = arrivals := by
        rw [inOrder_eq_self_iff]
        intro dag overtakes
        obtain ⟨noTransition, noCheckpoints, _⟩ := condition dag overtakes
        exact unmanaged ⟨noTransition, noCheckpoints⟩
      rw [inOrder_eq_commits numbered all whole]

/-- Two commits of one block each, with both managers: when commit 2 arrives first, only the
block of commit 1 is counted, one checkpoint is made and no transition is triggered. -/
theorem overtaking_commit_unaccounted :
    let commits : List CommittedSubDag := [.singleTransaction 1, .singleTransaction 2]
    let loop := new 0 0 true (some (.new 100 true 3))
    let ans := fun _ => (⟨0, none⟩ : CheckpointAnswers)
    let ordered := (loop.handleAll (some (some 2)) ans commits).accounts
    let reversed := (loop.handleAll (some (some 2)) ans commits.reverse).accounts
    (ordered.blocksInCurrentEpoch, ordered.transitionChecks, ordered.checkpointChecks,
        ordered.blockTriggers, ordered.checkpoints.map fun mgr =>
          mgr.checkpointManager.checkpoints.size) = (2, 2, 2, 1, some 2) ∧
      (reversed.blocksInCurrentEpoch, reversed.transitionChecks, reversed.checkpointChecks,
        reversed.blockTriggers, reversed.checkpoints.map fun mgr =>
          mgr.checkpointManager.checkpoints.size) = (1, 1, 1, 0, some 1) := by
  decide +kernel

theorem accounts_agree_iff_reversed :
    let commits : List CommittedSubDag := [.singleTransaction 1, .singleTransaction 2]
    let loop := new 0 0 true (some (.new 100 true 3))
    let ans := fun _ => (⟨0, none⟩ : CheckpointAnswers)
    (loop.handleAll (some (some 2)) ans commits.reverse).accounts =
        (loop.handleAll (some (some 2)) ans commits).accounts ↔
      ∀ dag, Overtakes commits.reverse dag →
        some (some 2) = none ∧
          some (CheckpointEpochTransitionManager.new 100 true 3) = none ∧ dag.blocks = [] :=
  accounts_agree_iff (some (some 2)) (some (.new 100 true 3)) (fun _ => ⟨0, none⟩) 0 0 true 2
    [.singleTransaction 1, .singleTransaction 2] _ (by decide +kernel)
    (reverse_perm _)

end Orders

end AccountedLoop

end Mysticeti
