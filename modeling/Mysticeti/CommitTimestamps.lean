import Mysticeti.Commits
import Mysticeti.Lib.WeightedMedian

/-!
# The time of a commit

The timestamp of a commit is the stake-weighted median of the timestamps of the leader's
parents, unless the previous commit was later. The median is where the stake of the parents, in
the order of their timestamps, crosses half of their total stake. Parents with a quorum of the
stake have more than twice the tolerated stake, so that the median lies between the clocks of
two honest ones.
-/

namespace Mysticeti

open List Lib.Outcome Lib.Quorum Lib.WeightedMedian

section Median

variable {ctx : Context} {blocks : List VerifiedBlock}

def authorStake (ctx : Context) (blk : VerifiedBlock) : Stake := ctx.committee.stake blk.author

def totalAuthorStake (ctx : Context) (blocks : List VerifiedBlock) : Stake :=
  (blocks.map (authorStake ctx)).sum

lemma medianTimestampsInner_eq (totalStake added : Stake) (last : BlockTimestampMs)
    (timestamps : List (BlockTimestampMs × Stake)) :
    medianTimestampsInner totalStake added last timestamps =
      firstPast Prod.fst Prod.snd (totalStake / 2) added last timestamps := by
  induction timestamps generalizing added last with
  | nil => rfl
  | cons entry rest ih =>
    rw [medianTimestampsInner, firstPast]
    split
    · rfl
    · exact ih _ _

def timestampEntries (ctx : Context) (blocks : List VerifiedBlock) :
    List (BlockTimestampMs × Stake) :=
  blocks.map fun blk => (blk.timestampMs, authorStake ctx blk)

lemma sum_timestampEntries :
    ((timestampEntries ctx blocks).map Prod.snd).sum = totalAuthorStake ctx blocks := by
  rw [timestampEntries, List.map_map]
  rfl

lemma medianTimestampByStake_crosses
    (quorum : ctx.committee.quorumThreshold ≤ totalAuthorStake ctx blocks) :
    ∃ timestamp, medianTimestampByStake ctx blocks = some timestamp ∧
      Crosses VerifiedBlock.timestampMs (authorStake ctx)
        (totalAuthorStake ctx blocks / 2) blocks timestamp := by
  have pos := ctx.committee.quorumThreshold_pos
  have nonempty : (timestampEntries ctx blocks).isEmpty = false := by
    cases blocks with
    | nil => exact absurd quorum (Nat.not_le_of_lt pos)
    | cons blk rest => rfl
  let sorted := (timestampEntries ctx blocks).insertionSort fun left right => left.1 ≤ right.1
  have same : sorted.Perm (timestampEntries ctx blocks) := perm_insertionSort _ _
  have ordered : sorted.Pairwise fun left right => left.1 ≤ right.1 := pairwise_insertionSort _ _
  have past : totalAuthorStake ctx blocks / 2 < (sorted.map Prod.snd).sum := by
    rw [(same.map Prod.snd).sum_eq, sum_timestampEntries]
    lia
  have crosses := (@firstPast_crosses _ _ _ Prod.fst Prod.snd _ sorted 0 ordered past).perm same
  refine ⟨firstPast Prod.fst Prod.snd (totalAuthorStake ctx blocks / 2) 0 0 sorted, ?_,
    crosses.of_map⟩
  change (if (timestampEntries ctx blocks).isEmpty then none else
    if ((timestampEntries ctx blocks).map Prod.snd).sum < ctx.committee.quorumThreshold then none
    else some (medianTimestampsInner ((timestampEntries ctx blocks).map Prod.snd).sum 0 0
      sorted)) = _
  rw [nonempty, sum_timestampEntries, if_neg (Nat.not_lt_of_le quorum), medianTimestampsInner_eq]
  rfl

lemma weightWhere_le_weigh {faulty : Finset AuthorityIndex}
    (nodup : (blocks.map VerifiedBlock.author).Nodup) :
    weightWhere (authorStake ctx) (fun blk => blk.author ∈ faulty) blocks ≤
      weigh ctx.committee.stake faulty := by
  have authors : (blocks.filter fun blk => blk.author ∈ faulty).map (authorStake ctx) =
      ((blocks.filter fun blk => blk.author ∈ faulty).map VerifiedBlock.author).map
        ctx.committee.stake := by
    rw [List.map_map]
    rfl
  have separate : ((blocks.filter fun blk => blk.author ∈ faulty).map
      VerifiedBlock.author).Nodup := nodup.sublist (filter_sublist.map _)
  rw [weightWhere, authors, ← sum_toFinset _ separate]
  apply weigh_mono
  intro author mem
  rw [List.mem_toFinset, List.mem_map] at mem
  obtain ⟨blk, here, rfl⟩ := mem
  exact of_decide_eq_true (mem_filter.mp here).2

lemma two_faults_lt_quorum (comm : Committee) :
    2 * comm.faultTolerance < comm.quorumThreshold := by
  have pos := comm.totalStake_pos
  unfold Committee.quorumThreshold Committee.faultTolerance
  lia

end Median

def parentBlocks (ctx : Context) (st : DagState) (leader : VerifiedBlock) :
    Except Panic (List VerifiedBlock) :=
  (leader.ancestors.filter fun anc => anc.round = leader.round - 1).mapM fun parent =>
    expect (st.getBlock ctx parent) (.missingParentBlock parent)

/-- A timestamp is between those of two blocks whose authors are outside a set. -/
def BetweenHonest (faulty : Finset AuthorityIndex) (blocks : List VerifiedBlock)
    (timestamp : BlockTimestampMs) : Prop :=
  (∃ early ∈ blocks, early.author ∉ faulty ∧ early.timestampMs ≤ timestamp) ∧
    ∃ late ∈ blocks, late.author ∉ faulty ∧ timestamp ≤ late.timestampMs

/-- The median of blocks of distinct authors with a quorum of stake exists, is the same for
every order of the blocks, has at most half of their stake on either side, and lies between the
timestamps of two honest blocks; the timestamp of a commit with these parents is the median, or
the timestamp of the previous commit when that is later. -/
theorem commit_time_is_stake_median (ctx : Context) (blocks : List VerifiedBlock)
    (nodup : (blocks.map VerifiedBlock.author).Nodup)
    (quorum : ctx.committee.quorumThreshold ≤ totalAuthorStake ctx blocks) :
    ∃ timestamp, (∀ order, order.Perm blocks → medianTimestampByStake ctx order = some timestamp) ∧
      2 * weightWhere (authorStake ctx) (fun blk => blk.timestampMs < timestamp) blocks ≤
        totalAuthorStake ctx blocks ∧
      2 * weightWhere (authorStake ctx) (fun blk => timestamp < blk.timestampMs) blocks ≤
        totalAuthorStake ctx blocks ∧
      (∀ faulty : Finset AuthorityIndex,
        weigh ctx.committee.stake faulty ≤ ctx.committee.faultTolerance →
          BetweenHonest faulty blocks timestamp) ∧
      ∀ (st : DagState) (leader : VerifiedBlock) (last : BlockTimestampMs),
        parentBlocks ctx st leader = .ok blocks →
          ∃ calculated,
            Linearizer.calculateCommitTimestamp ctx st leader last = .ok calculated ∧
            ∀ faulty : Finset AuthorityIndex,
              weigh ctx.committee.stake faulty ≤ ctx.committee.faultTolerance →
                BetweenHonest faulty blocks calculated ∨
                  (timestamp < last ∧ calculated = last) := by
  obtain ⟨timestamp, median, crosses⟩ := medianTimestampByStake_crosses quorum
  have tolerated := two_faults_lt_quorum ctx.committee
  have between : ∀ faulty : Finset AuthorityIndex,
      weigh ctx.committee.stake faulty ≤ ctx.committee.faultTolerance →
        BetweenHonest faulty blocks timestamp := by
    intro faulty few
    have light := (@weightWhere_le_weigh ctx blocks faulty nodup).trans few
    constructor
    · obtain ⟨early, here, honest, below⟩ := crosses.exists_le (light.trans (by lia))
      exact ⟨early, here, of_decide_eq_false honest, below⟩
    · have heavy : weightWhere (authorStake ctx) (fun blk => blk.author ∈ faulty) blocks +
          totalAuthorStake ctx blocks / 2 < (blocks.map (authorStake ctx)).sum := by
        change _ < totalAuthorStake ctx blocks
        lia
      obtain ⟨late, here, honest, above⟩ := crosses.exists_ge heavy
      exact ⟨late, here, of_decide_eq_false honest, above⟩
  refine ⟨timestamp, fun order same => ?_, ?_, ?_, between, fun st leader last parents => ?_⟩
  · have sameStake : totalAuthorStake ctx order = totalAuthorStake ctx blocks :=
      (same.map (authorStake ctx)).sum_eq
    obtain ⟨other, otherMedian, otherCrosses⟩ :=
      @medianTimestampByStake_crosses ctx order (by rw [sameStake]; exact quorum)
    rw [sameStake] at otherCrosses
    rw [otherMedian, (otherCrosses.perm same).unique crosses]
  · have below := crosses.below
    lia
  · have above := crosses.above
    change _ < totalAuthorStake ctx blocks at above
    lia
  · refine ⟨max timestamp last, ?_, fun faulty few => ?_⟩
    · change (parentBlocks ctx st leader >>= fun blocks => _) = _
      rw [parents, ok_bind, median, expect_some, ok_bind, pure_ok]
    · rcases Nat.lt_or_ge timestamp last with later | prev
      · exact .inr ⟨later, Nat.max_eq_right (Nat.le_of_lt later)⟩
      · rw [Nat.max_eq_left prev]
        exact .inl (between faulty few)

theorem commit_time_of_three :
    let blocks := [TestBlock.build 1 0 5 [], TestBlock.build 1 1 9 [], TestBlock.build 1 2 7 []]
    (blocks.map VerifiedBlock.author).Nodup ∧
      (Context.newForTest firstAuthority).committee.quorumThreshold ≤
        totalAuthorStake (Context.newForTest firstAuthority) blocks ∧
      medianTimestampByStake (Context.newForTest firstAuthority) blocks = some 7 ∧
      BetweenHonest {1} blocks 7 := by
  intro blocks
  have nodup : (blocks.map VerifiedBlock.author).Nodup := by decide +kernel
  have quorum : (Context.newForTest firstAuthority).committee.quorumThreshold ≤
      totalAuthorStake (Context.newForTest firstAuthority) blocks := by decide +kernel
  have few : weigh (Context.newForTest firstAuthority).committee.stake {1} ≤
      (Context.newForTest firstAuthority).committee.faultTolerance := by decide +kernel
  have median : medianTimestampByStake (Context.newForTest firstAuthority) blocks = some 7 := by
    decide +kernel
  obtain ⟨timestamp, orders, -, -, between, -⟩ :=
    commit_time_is_stake_median (Context.newForTest firstAuthority) blocks nodup quorum
  obtain rfl : timestamp = 7 := Option.some.inj ((orders blocks (.refl _)).symm.trans median)
  exact ⟨nodup, quorum, median, between {1} few⟩

end Mysticeti
