import Mysticeti.DagState

/-!
# The round of the threshold clock

The clock counts the authors of the blocks of its round, and advances when they are a quorum.
A block above the round takes the clock with it and starts a new count. The round is then
meant to be a function of the blocks that were seen: the highest round among them, and one
more if its authors are a quorum.

It is not when one authority has a quorum of the stake alone. If such a block takes the clock
up, its author is still counted in the round after it, and the first block of that round
advances the clock again. `Overruns` says when this shows in the end: the block's round is
followed by one more round, which has no quorum.
-/

namespace Mysticeti

open List Lib.Quorum

namespace ThresholdClock

variable {ctx : Context} {start round top : Round} {blocks : List BlockRef}
  {blk : BlockRef} {clock : ThresholdClock}

def addBlocks (ctx : Context) (clock : ThresholdClock) (blocks : List BlockRef) : ThresholdClock :=
  blocks.foldl (fun clock blk => (clock.addBlock ctx blk).1) clock

def authorsOf (blocks : List BlockRef) (round : Round) : Finset AuthorityIndex :=
  ((blocks.filter fun blk => blk.round = round).map BlockRef.author).toFinset

def HasQuorum (ctx : Context) (blocks : List BlockRef) (round : Round) : Prop :=
  ctx.committee.quorumThreshold ≤ weigh ctx.committee.stake (authorsOf blocks round)

instance : Decidable (HasQuorum ctx blocks round) := inferInstanceAs (Decidable (_ ≤ _))

def highestFrom (start : Round) (blocks : List BlockRef) : Option Round :=
  ((blocks.map BlockRef.round).filter fun round => start ≤ round).max?

/-- The round the clock is meant to show. -/
def closedForm (ctx : Context) (start : Round) (blocks : List BlockRef) : Round :=
  match highestFrom start blocks with
  | none => start
  | some highest => max start (highest + if HasQuorum ctx blocks highest then 1 else 0)

section Authors

lemma mem_authorsOf {auth : AuthorityIndex} :
    auth ∈ authorsOf blocks round ↔ ∃ blk ∈ blocks, blk.round = round ∧ blk.author = auth := by
  simp [authorsOf, and_assoc]

lemma authorsOf_append_other (other : blk.round ≠ round) :
    authorsOf (blocks ++ [blk]) round = authorsOf blocks round := by
  simp [authorsOf, other]

lemma authorsOf_append_same :
    authorsOf (blocks ++ [blk]) blk.round = insert blk.author (authorsOf blocks blk.round) := by
  ext auth
  simp only [mem_authorsOf, mem_append, mem_singleton, Finset.mem_insert]
  constructor
  · rintro ⟨other, listed | rfl, sameRound, rfl⟩
    · exact .inr ⟨other, listed, sameRound, rfl⟩
    · exact .inl rfl
  · rintro (rfl | ⟨other, listed, sameRound, rfl⟩)
    · exact ⟨blk, .inr rfl, rfl, rfl⟩
    · exact ⟨other, .inl listed, sameRound, rfl⟩

lemma authorsOf_eq_empty (below : ∀ blk ∈ blocks, blk.round < round) :
    authorsOf blocks round = ∅ := by
  rw [Finset.eq_empty_iff_forall_notMem]
  intro auth mem
  obtain ⟨blk, listed, sameRound, -⟩ := mem_authorsOf.mp mem
  exact absurd sameRound (Nat.ne_of_lt (below blk listed))

lemma HasQuorum.append (quorum : HasQuorum ctx blocks round) :
    HasQuorum ctx (blocks ++ [blk]) round := by
  refine quorum.trans (weigh_mono fun auth mem => ?_)
  obtain ⟨other, listed, rest⟩ := mem_authorsOf.mp mem
  exact mem_authorsOf.mpr ⟨other, mem_append_left _ listed, rest⟩

end Authors

/-- The round is the highest of the blocks, and not below the starting round. -/
structure Highest (start : Round) (blocks : List BlockRef) (top : Round) : Prop where
  reached : ∃ blk ∈ blocks, blk.round = top
  start_le : start ≤ top
  bound : ∀ blk ∈ blocks, blk.round ≤ top

section Highest

lemma highestFrom_eq_none (below : ∀ blk ∈ blocks, blk.round < start) :
    highestFrom start blocks = none := by
  rw [highestFrom, max?_eq_none_iff, filter_eq_nil_iff]
  intro round listed
  obtain ⟨blk, mem, rfl⟩ := List.mem_map.mp listed
  simpa using below blk mem

lemma Highest.highestFrom (highest : Highest start blocks top) :
    highestFrom start blocks = some top := by
  obtain ⟨blk, listed, sameRound⟩ := highest.reached
  rw [ThresholdClock.highestFrom, max?_eq_some_iff]
  constructor
  · rw [mem_filter]
    exact ⟨List.mem_map.mpr ⟨blk, listed, sameRound⟩, by simpa using highest.start_le⟩
  · intro round mem
    obtain ⟨other, otherListed, rfl⟩ := List.mem_map.mp (mem_of_mem_filter mem)
    exact highest.bound other otherListed

lemma Highest.append (highest : Highest start blocks top) (below : blk.round ≤ top) :
    Highest start (blocks ++ [blk]) top where
  reached := by
    obtain ⟨other, listed, sameRound⟩ := highest.reached
    exact ⟨other, mem_append_left _ listed, sameRound⟩
  start_le := highest.start_le
  bound := by
    intro other listed
    rcases mem_append.mp listed with prev | last
    · exact highest.bound other prev
    · rw [mem_singleton.mp last]
      exact below

lemma highest_of_last (above : ∀ other ∈ blocks, other.round ≤ blk.round)
    (start_le : start ≤ blk.round) : Highest start (blocks ++ [blk]) blk.round where
  reached := ⟨blk, by simp, rfl⟩
  start_le := start_le
  bound := by
    intro other listed
    rcases mem_append.mp listed with prev | last
    · exact above other prev
    · rw [mem_singleton.mp last]

lemma Highest.unique {other : Round} (highest : Highest start blocks top)
    (otherHighest : Highest start blocks other) : top = other := by
  have same := highest.highestFrom.symm.trans otherHighest.highestFrom
  exact Option.some.inj same

lemma Highest.closedForm (highest : Highest start blocks top) :
    closedForm ctx start blocks = top + if HasQuorum ctx blocks top then 1 else 0 := by
  rw [ThresholdClock.closedForm, highest.highestFrom]
  exact Nat.max_eq_right (highest.start_le.trans (Nat.le_add_right _ _))

end Highest

section Steps

lemma addBlocks_append :
    addBlocks ctx clock (blocks ++ [blk]) = ((addBlocks ctx clock blocks).addBlock ctx blk).1 := by
  simp [addBlocks]

lemma addBlock_below (below : blk.round < clock.round) : (clock.addBlock ctx blk).1 = clock := by
  simp [addBlock, Nat.compare_eq_lt.mpr below]

lemma addBlock_same (same : blk.round = clock.round) :
    (clock.addBlock ctx blk).1 =
      if (clock.aggregator.add blk.author ctx.committee).2 then
        ⟨StakeAggregator.new, blk.round + 1⟩
      else ⟨(clock.aggregator.add blk.author ctx.committee).1, clock.round⟩ := by
  simp only [addBlock, Nat.compare_eq_eq.mpr same]
  split <;> rfl

lemma addBlock_above (above : clock.round < blk.round) :
    (clock.addBlock ctx blk).1 =
      ⟨(StakeAggregator.new.add blk.author ctx.committee).1,
        if (StakeAggregator.new.add blk.author ctx.committee).2 then blk.round + 1
        else blk.round⟩ := by
  simp [addBlock, Nat.compare_eq_gt.mpr above]

lemma round_le_addBlock : clock.round ≤ (clock.addBlock ctx blk).1.round := by
  rcases Nat.lt_trichotomy blk.round clock.round with below | same | above
  · rw [addBlock_below below]
  · rw [addBlock_same same]
    split
    · exact (Nat.le_of_eq same.symm).trans (Nat.le_succ _)
    · exact Nat.le_refl _
  · rw [addBlock_above above]
    dsimp only
    split
    · exact (Nat.le_of_lt above).trans (Nat.le_succ _)
    · exact Nat.le_of_lt above

lemma round_le_addBlocks : clock.round ≤ (addBlocks ctx clock blocks).round := by
  induction blocks using reverseRecOn with
  | nil => exact Nat.le_refl _
  | append_singleton blocks blk ih =>
    rw [addBlocks_append]
    exact ih.trans round_le_addBlock

lemma round_le_of_mem (listed : blk ∈ blocks) :
    blk.round ≤ (addBlocks ctx clock blocks).round := by
  induction blocks using reverseRecOn with
  | nil => cases listed
  | append_singleton blocks last ih =>
    rw [addBlocks_append]
    rcases mem_append.mp listed with prev | here
    · exact (ih prev).trans round_le_addBlock
    · rw [mem_singleton.mp here]
      rcases Nat.lt_or_ge (addBlocks ctx clock blocks).round last.round with above | seen
      · rw [addBlock_above above]
        dsimp only
        split
        · exact Nat.le_succ _
        · exact Nat.le_refl _
      · exact seen.trans round_le_addBlock

lemma reached_of_stale {agg : StakeAggregator} (vote : AuthorityIndex)
    (stale : ctx.committee.quorumThreshold ≤ agg.stake) :
    (agg.add vote ctx.committee).2 = true := by
  unfold StakeAggregator.add
  dsimp only
  rw [Committee.reachedQuorum, decide_eq_true_eq]
  split
  · exact stale
  · exact stale.trans (Nat.le_add_right _ _)

lemma stale_advances (stale : ctx.committee.quorumThreshold ≤ clock.aggregator.stake)
    (next : ∃ blk ∈ blocks, blk.round = clock.round) :
    clock.round < (addBlocks ctx clock blocks).round := by
  induction blocks with
  | nil =>
    obtain ⟨blk, listed, -⟩ := next
    cases listed
  | cons first rest ih =>
    change _ < (addBlocks ctx (clock.addBlock ctx first).1 rest).round
    rcases Nat.lt_trichotomy first.round clock.round with below | same | above
    · rw [addBlock_below below]
      apply ih
      obtain ⟨blk, listed, sameRound⟩ := next
      rcases mem_cons.mp listed with rfl | later
      · exact absurd sameRound (Nat.ne_of_lt below)
      · exact ⟨blk, later, sameRound⟩
    · refine Nat.lt_of_lt_of_le ?_ round_le_addBlocks
      rw [addBlock_same same, if_pos (reached_of_stale first.author stale)]
      exact Nat.lt_succ_of_le (Nat.le_of_eq same.symm)
    · refine Nat.lt_of_lt_of_le ?_ round_le_addBlocks
      rw [addBlock_above above]
      dsimp only
      split
      · exact above.trans (Nat.lt_succ_self _)
      · exact above

end Steps

/-- A block of the round took the clock up from below, and its author has a quorum of the stake
alone. -/
def Jumped (ctx : Context) (start : Round) (blocks : List BlockRef) (round : Round) : Prop :=
  ∃ prev jump later, blocks = prev ++ jump :: later ∧
    (addBlocks ctx (new start) prev).round < jump.round ∧
    ctx.committee.quorumThreshold ≤ ctx.committee.stake jump.author ∧
    jump.round = round

/-- The clock shows a round too many: after such a block there is one more round, the highest
one, without a quorum. -/
def Overruns (ctx : Context) (start : Round) (blocks : List BlockRef) : Prop :=
  ∃ round, Jumped ctx start blocks round ∧ Highest start blocks (round + 1) ∧
    ¬ HasQuorum ctx blocks (round + 1)

lemma Jumped.append (jumped : Jumped ctx start blocks round) :
    Jumped ctx start (blocks ++ [blk]) round := by
  obtain ⟨prev, jump, later, rfl, rest⟩ := jumped
  exact ⟨prev, jump, later ++ [blk], by simp, rest⟩

lemma Jumped.advances (jumped : Jumped ctx start blocks round)
    (next : ∃ blk ∈ blocks, blk.round = round + 1) :
    round + 1 < (addBlocks ctx (new start) blocks).round := by
  obtain ⟨prev, jump, later, rfl, raised, quorum, rfl⟩ := jumped
  have empty := StakeAggregator.new_counts ctx.committee
  obtain ⟨counts, final⟩ := StakeAggregator.add_counts empty jump.author
  have alone : weigh ctx.committee.stake (insert jump.author ∅) =
      ctx.committee.stake jump.author := by simp [weigh]
  rw [alone] at final
  have split : addBlocks ctx (new start) (prev ++ jump :: later) =
      addBlocks ctx ((addBlocks ctx (new start) prev).addBlock ctx jump).1
        later := by
    simp [addBlocks]
  rw [split, addBlock_above raised, if_pos (final.mpr quorum)]
  have stale : ctx.committee.quorumThreshold ≤
      (StakeAggregator.new.add jump.author ctx.committee).1.stake := by
    rw [counts.total, alone]
    exact quorum
  have next : ∃ blk ∈ later, blk.round = jump.round + 1 := by
    -- the block of the next round comes after the jump: before it the clock was below
    obtain ⟨blk, listed, sameRound⟩ := next
    rcases mem_append.mp listed with early | late
    · have seen := @round_le_of_mem ctx prev blk (new start) early
      lia
    · rcases mem_cons.mp late with rfl | late
      · lia
      · exact ⟨blk, late, sameRound⟩
  exact @stale_advances ctx later
    ⟨(StakeAggregator.new.add jump.author ctx.committee).1, jump.round + 1⟩ stale next

/-- How the clock and the blocks it has counted belong together. -/
inductive Shows (ctx : Context) (start : Round) (blocks : List BlockRef)
    (clock : ThresholdClock) : Prop where
  | untouched (below : ∀ blk ∈ blocks, blk.round < start) (same : clock = new start)
  /-- The authors of the highest round are counted, and are not yet a quorum. -/
  | counting (top : Round) (highest : Highest start blocks top)
    (lacking : ¬ HasQuorum ctx blocks top) (round : clock.round = top)
    (counts : clock.aggregator.Counts ctx.committee (authorsOf blocks top))
  | complete (top : Round) (highest : Highest start blocks top)
    (quorum : HasQuorum ctx blocks top) (same : clock = new (top + 1))
  /-- The highest round is complete by one author, who is still counted. -/
  | stale (top : Round) (highest : Highest start blocks top)
    (quorum : HasQuorum ctx blocks top) (round : clock.round = top + 1)
    (counted : ctx.committee.quorumThreshold ≤ clock.aggregator.stake)
    (jumped : Jumped ctx start blocks top)
  | ahead (top : Round) (highest : Highest start blocks (top + 1))
    (lacking : ¬ HasQuorum ctx blocks (top + 1)) (same : clock = new (top + 2))
    (jumped : Jumped ctx start blocks top)

lemma counts_first (below : ∀ other ∈ blocks, other.round < blk.round) :
    StakeAggregator.Counts ctx.committee
        (StakeAggregator.new.add blk.author ctx.committee).1
        (authorsOf (blocks ++ [blk]) blk.round) ∧
      ((StakeAggregator.new.add blk.author ctx.committee).2 = true ↔
        HasQuorum ctx (blocks ++ [blk]) blk.round) := by
  have added := StakeAggregator.add_counts (StakeAggregator.new_counts ctx.committee)
    blk.author
  rw [HasQuorum, authorsOf_append_same, authorsOf_eq_empty below]
  exact added

lemma Shows.first (start_le : start ≤ clock.round)
    (below : ∀ other ∈ blocks, other.round < clock.round)
    (empty : clock.aggregator = StakeAggregator.new) (same : blk.round = clock.round) :
    Shows ctx start (blocks ++ [blk]) (clock.addBlock ctx blk).1 := by
  rw [← same] at start_le below
  obtain ⟨counts, final⟩ := @counts_first ctx blocks blk below
  have highest := highest_of_last (fun other listed => Nat.le_of_lt (below other listed)) start_le
  rw [addBlock_same same, empty]
  split
  · rename_i quorum
    exact .complete blk.round highest (final.mp quorum) rfl
  · rename_i missing
    exact .counting blk.round highest (fun quorum => missing (final.mpr quorum)) same.symm
      counts

lemma Shows.below (relation : Shows ctx start blocks clock)
    (lower : blk.round < clock.round) : Shows ctx start (blocks ++ [blk]) clock := by
  cases relation with
  | untouched below same =>
    subst same
    refine .untouched (fun other listed => ?_) rfl
    rcases mem_append.mp listed with prev | last
    · exact below other prev
    · rw [mem_singleton.mp last]
      exact lower
  | counting top highest lacking round counts =>
    subst round
    have sameAuthors := @authorsOf_append_other clock.round blocks blk (Nat.ne_of_lt lower)
    refine .counting clock.round (highest.append (Nat.le_of_lt lower)) ?_ rfl ?_
    · rw [HasQuorum, sameAuthors]
      exact lacking
    · rw [sameAuthors]
      exact counts
  | complete top highest quorum same =>
    subst same
    exact .complete top (highest.append (Nat.le_of_lt_succ lower)) quorum.append rfl
  | stale top highest quorum round counted jumped =>
    rw [round] at lower
    exact .stale top (highest.append (Nat.le_of_lt_succ lower)) quorum.append round counted
      jumped.append
  | ahead top highest lacking same jumped =>
    subst same
    have extended := highest.append (Nat.le_of_lt_succ lower)
    by_cases quorum : HasQuorum ctx (blocks ++ [blk]) (top + 1)
    · exact .complete (top + 1) extended quorum rfl
    · exact .ahead top extended quorum rfl jumped.append

lemma Shows.same (relation : Shows ctx start blocks clock)
    (here : blk.round = clock.round) :
    Shows ctx start (blocks ++ [blk]) (clock.addBlock ctx blk).1 := by
  cases relation with
  | untouched below same =>
    subst same
    exact .first (Nat.le_refl _) below rfl here
  | counting top highest lacking round counts =>
    obtain ⟨counted, final⟩ := StakeAggregator.add_counts counts blk.author
    rw [← round, ← here] at highest counted final
    rw [← authorsOf_append_same] at counted final
    have extended := @Highest.append start blk.round blocks blk highest (Nat.le_refl _)
    rw [addBlock_same here]
    split
    · rename_i quorum
      exact .complete blk.round extended (final.mp quorum) rfl
    · rename_i missing
      exact .counting blk.round extended (fun quorum => missing (final.mpr quorum))
        here.symm counted
  | complete top highest quorum same =>
    subst same
    exact .first (highest.start_le.trans (Nat.le_succ _))
      (fun other listed => Nat.lt_succ_of_le (highest.bound other listed)) rfl here
  | stale top highest quorum round counted jumped =>
    rw [addBlock_same here, if_pos (reached_of_stale blk.author counted), here, round]
    have extended : Highest start (blocks ++ [blk]) (top + 1) := by
      rw [← round, ← here]
      refine highest_of_last (fun other listed => ?_) ?_
      · rw [here, round]
        exact (highest.bound other listed).trans (Nat.le_succ _)
      · rw [here, round]
        exact highest.start_le.trans (Nat.le_succ _)
    by_cases quorum : HasQuorum ctx (blocks ++ [blk]) (top + 1)
    · exact .complete (top + 1) extended quorum rfl
    · exact .ahead top extended quorum rfl jumped.append
  | ahead top highest lacking same jumped =>
    subst same
    exact .first (highest.start_le.trans (Nat.le_succ _))
      (fun other listed => Nat.lt_succ_of_le (highest.bound other listed)) rfl here

lemma shows_above (above : (addBlocks ctx (new start) blocks).round < blk.round) :
    Shows ctx start (blocks ++ [blk])
      ((addBlocks ctx (new start) blocks).addBlock ctx blk).1 := by
  have below : ∀ other ∈ blocks, other.round < blk.round := fun other listed =>
    Nat.lt_of_le_of_lt (round_le_of_mem listed) above
  have start_le : start ≤ (addBlocks ctx (new start) blocks).round :=
    @round_le_addBlocks ctx blocks (new start)
  obtain ⟨counts, final⟩ := @counts_first ctx blocks blk below
  have highest := highest_of_last (fun other listed => Nat.le_of_lt (below other listed))
    (start_le.trans (Nat.le_of_lt above))
  rw [addBlock_above above]
  split
  · rename_i quorum
    have complete := final.mp quorum
    have alone : weigh ctx.committee.stake (authorsOf (blocks ++ [blk]) blk.round) =
        ctx.committee.stake blk.author := by
      rw [authorsOf_append_same, authorsOf_eq_empty below]
      simp [weigh]
    refine .stale blk.round highest complete rfl ?_ ⟨blocks, blk, [], rfl, above, ?_, rfl⟩
    · rw [counts.total]
      exact complete
    · rw [← alone]
      exact complete
  · rename_i missing
    exact .counting blk.round highest (fun quorum => missing (final.mpr quorum)) rfl counts

lemma shows_addBlocks (ctx : Context) (start : Round) (blocks : List BlockRef) :
    Shows ctx start blocks (addBlocks ctx (new start) blocks) := by
  induction blocks using reverseRecOn with
  | nil => exact .untouched (fun _ listed => absurd listed not_mem_nil) rfl
  | append_singleton blocks blk ih =>
    rw [addBlocks_append]
    rcases Nat.lt_trichotomy blk.round (addBlocks ctx (new start) blocks).round with
      lower | here | above
    · rw [addBlock_below lower]
      exact ih.below lower
    · exact ih.same here
    · exact shows_above above

/-- The round is the closed form of the blocks unless the clock has overrun it. -/
theorem round_eq_closedForm_iff (ctx : Context) (start : Round) (blocks : List BlockRef) :
    (addBlocks ctx (new start) blocks).round = closedForm ctx start blocks ↔
      ¬ Overruns ctx start blocks := by
  have relation := shows_addBlocks ctx start blocks
  cases relation with
  | untouched below same =>
    have form : closedForm ctx start blocks = start := by rw [closedForm, highestFrom_eq_none below]
    refine iff_of_true (by rw [same, form]; rfl) ?_
    rintro ⟨round, -, highest, -⟩
    obtain ⟨blk, listed, sameRound⟩ := highest.reached
    have lower := below blk listed
    have start_le := highest.start_le
    lia
  | counting top highest lacking round counts =>
    refine iff_of_true (by rw [round, highest.closedForm, if_neg lacking]; rfl) ?_
    rintro ⟨prev, jumped, higher, -⟩
    have passed := jumped.advances higher.reached
    rw [round, highest.unique higher] at passed
    exact Nat.lt_irrefl _ passed
  | complete top highest quorum same =>
    refine iff_of_true (by rw [same, highest.closedForm, if_pos quorum]; rfl) ?_
    rintro ⟨prev, -, higher, missing⟩
    rw [higher.unique highest] at missing
    exact missing quorum
  | stale top highest quorum round counted jumped =>
    refine iff_of_true (by rw [round, highest.closedForm, if_pos quorum]) ?_
    rintro ⟨prev, -, higher, missing⟩
    rw [higher.unique highest] at missing
    exact missing quorum
  | ahead top highest lacking same jumped =>
    refine iff_of_false ?_ (not_not_intro ⟨top, jumped, highest, lacking⟩)
    rw [same, highest.closedForm, if_neg lacking]
    exact Nat.ne_of_gt (Nat.lt_succ_self _)

/-- Four authorities of which the first has seven tenths of the stake. -/
def unequalContext : Context := .withStakes [7, 1, 1, 1] (by decide) (by decide) (by decide)

/-- The first authority takes the clock to round three, and one small block of that round takes
it to round four. -/
theorem clock_overruns :
    (addBlocks unequalContext (new 1) [testRef 2 0, testRef 3 1]).round = 4 ∧
      closedForm unequalContext 1 [testRef 2 0, testRef 3 1] = 3 := by
  decide +kernel

end ThresholdClock

end Mysticeti
