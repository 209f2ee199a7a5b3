import Mysticeti.LeaderSchedule

/-!
# The states of ancestors

An authority whose blocks propagate badly can be excluded from the ancestors of new blocks for
some rounds. The reputation scores decide: a score of at most a fifth of the highest one moves
an authority to the excluded state as long as the excluded stake stays within its budget, and
a better score, or a round accepted by a quorum, moves it back. A changed state is locked for a
number of rounds. Over all runs the excluded stake is that of the excluded authorities.

Stakes and scores are 64-bit words without overflow checks.
-/

namespace Mysticeti

open List Lib.Outcome Lib.Word Lib.Quorum

inductive AncestorState where
  | included
  | excluded (score : Nat)
deriving DecidableEq, Repr

structure AncestorInfo where
  state : AncestorState
  lockUntilRound : Round
deriving DecidableEq, Repr

namespace AncestorInfo

def new : AncestorInfo := ⟨.included, 0⟩

def isLocked (info : AncestorInfo) (currentClockRound : Round) : Bool :=
  decide (currentClockRound ≤ info.lockUntilRound)

end AncestorInfo

structure StateTransition where
  authorityId : AuthorityIndex
  score : Nat
  stake : Stake
deriving DecidableEq, Repr

abbrev QuorumRound := Round × Round

structure AncestorStateManager where
  stateMap : List AncestorInfo
  excludedNodesStakeThreshold : Stake
  totalExcludedStake : Stake
  propagationScores : ReputationScores

namespace AncestorStateManager

def STATE_LOCK_CLOCK_ROUNDS : Round := 450

def SCORE_EXCLUSION_THRESHOLD_PERCENTAGE : Nat := 20

/-- The share of the stake that may be excluded is two thirds of the share that the leader
schedule may consider bad. -/
def excludedNodesStakeThresholdPercentage (consensusBadNodesStakeThreshold : Nat) : Nat :=
  wrap 64 (2 * consensusBadNodesStakeThreshold) / 3

def new (ctx : Context) (consensusBadNodesStakeThreshold : Nat) : AncestorStateManager where
  stateMap := List.replicate ctx.committee.size .new
  excludedNodesStakeThreshold := LeaderSwapTable.stakeLimit ctx.committee
    (excludedNodesStakeThresholdPercentage consensusBadNodesStakeThreshold)
  totalExcludedStake := 0
  propagationScores := ⟨⟨0, 0⟩, []⟩

variable (mgr : AncestorStateManager) (ctx : Context)

def setPropagationScores (scores : ReputationScores) : AncestorStateManager :=
  { mgr with propagationScores := scores }

def getAncestorStates : List AncestorState := mgr.stateMap.map AncestorInfo.state

def scoreProduct (scores : ReputationScores) : Nat :=
  wrap 64 (scores.highestScore * SCORE_EXCLUSION_THRESHOLD_PERCENTAGE)

def lowScoreThreshold : Nat := scoreProduct mgr.propagationScores / 100

def firstQuorumRound (comm : Committee) : Stake → List (Round × Stake) → Round
  | _, [] => 0
  | totalStake, (round, stake) :: rest =>
    if comm.quorumThreshold ≤ wrap 64 (totalStake + stake) then round
    else firstQuorumRound comm (wrap 64 (totalStake + stake)) rest

def calculateNetworkHighQuorumRound (acceptedQuorumRounds : List QuorumRound) : Round :=
  firstQuorumRound ctx.committee 0 (((acceptedQuorumRounds.zip
    ctx.committee.authorities).map fun entry => (entry.1.2, entry.2.stake)).insertionSort
      fun left right => left.1 < right.1 ∨ (left.1 = right.1 ∧ left.2 ≤ right.2))

/-- The move of one authority to another state, if it is not locked and its score calls for
one. -/
def transitionOf (mgr : AncestorStateManager) (currentClockRound : Round)
    (acceptedQuorumRounds : List QuorumRound) (score : Nat) (idx : AuthorityIndex) :
    Except Panic (Option (AncestorState × StateTransition)) := do
  let auth ← expect ctx.committee.authorities[idx]? (.authorityOutOfBounds idx)
  let info ← expect mgr.stateMap[idx]? (.authorityOutOfBounds idx)
  let quorumRound ← expect acceptedQuorumRounds[idx]? (.authorityOutOfBounds idx)
  if info.isLocked currentClockRound then pure none
  else
    match info.state with
    | .included =>
      if score ≤ mgr.lowScoreThreshold then
        pure (some (.excluded score, ⟨idx, score, auth.stake⟩))
      else pure none
    | .excluded _ =>
      if mgr.lowScoreThreshold < score ∨
          calculateNetworkHighQuorumRound ctx acceptedQuorumRounds ≤ quorumRound.2 then
        pure (some (.included, ⟨idx, score, auth.stake⟩))
      else pure none

def applyStateChange (currentClockRound : Round) (mgr : AncestorStateManager)
    (newState : AncestorState) (transition : StateTransition) :
    Except Panic AncestorStateManager := do
  let info ← expect mgr.stateMap[transition.authorityId]?
    (.authorityOutOfBounds transition.authorityId)
  let totalExcludedStake ← match info.state, newState with
    | .excluded _, .included => do
      ensure (transition.stake ≤ mgr.totalExcludedStake) .excludedStakeUnderflow
      pure (mgr.totalExcludedStake - transition.stake)
    | .included, .excluded _ => pure (wrap 64 (mgr.totalExcludedStake + transition.stake))
    | _, _ => .error .notAStateTransition
  pure { mgr with
    totalExcludedStake
    stateMap := mgr.stateMap.set transition.authorityId
      ⟨newState, currentClockRound + STATE_LOCK_CLOCK_ROUNDS⟩ }

def tryExclude (currentClockRound : Round) (mgr : AncestorStateManager)
    (transition : StateTransition) : Except Panic AncestorStateManager :=
  if wrap 64 (mgr.totalExcludedStake + transition.stake) ≤ mgr.excludedNodesStakeThreshold then
    applyStateChange currentClockRound mgr (.excluded transition.score) transition
  else .ok mgr

/-- First all moves back to the included state, which free stake, then the exclusions from the
worst score up. -/
def updateAllAncestorsState (mgr : AncestorStateManager)
    (currentClockRound : Round) (acceptedQuorumRounds : List QuorumRound) :
    Except Panic AncestorStateManager := do
  let transitions ← mgr.propagationScores.scoresPerAuthority.zipIdx.mapM fun entry =>
    transitionOf ctx mgr currentClockRound acceptedQuorumRounds entry.1 entry.2
  let moves := transitions.filterMap id
  let excludeToInclude := moves.filter fun move => move.1 = .included
  let includeToExclude := (moves.filter fun move => move.1 ≠ .included).map Prod.snd
  let included ← excludeToInclude.foldlM (fun mgr move =>
    applyStateChange currentClockRound mgr .included move.2) mgr
  (includeToExclude.insertionSort fun left right => left.score ≤ right.score).foldlM
    (tryExclude currentClockRound) included

def excluded : Finset AuthorityIndex :=
  ctx.committee.everyone.filter fun auth => ∃ info ∈ mgr.stateMap[auth]?, info.state ≠ .included

structure Sound (ctx : Context) (mgr : AncestorStateManager) : Prop where
  size : mgr.stateMap.length = ctx.committee.size
  scores : mgr.propagationScores.scoresPerAuthority.length ≤ ctx.committee.size
  counted : mgr.totalExcludedStake = weigh ctx.committee.stake (mgr.excluded ctx)
  bounded : mgr.totalExcludedStake ≤ mgr.excludedNodesStakeThreshold

/-- An unlocked authority is to move, back to the included state or away from it. -/
def Due (clock : Round) (back : Bool) (transition : StateTransition) : Prop :=
  transition.stake = ctx.committee.stake transition.authorityId ∧
    ∃ info, mgr.stateMap[transition.authorityId]? = some info ∧ info.lockUntilRound < clock ∧
      (info.state = .included ↔ back = false)

/-- Only unlocked authorities have changed, and these are locked again. -/
def Moves (clock : Round) (pre post : AncestorStateManager) : Prop :=
  ∀ auth : AuthorityIndex, post.stateMap[auth]? = pre.stateMap[auth]? ∨
    ∃ old new, pre.stateMap[auth]? = some old ∧ post.stateMap[auth]? = some new ∧
      old.lockUntilRound < clock ∧ new.lockUntilRound = clock + STATE_LOCK_CLOCK_ROUNDS

section Upkeep

variable {mgr : AncestorStateManager} {ctx : Context} {clock : Round} {back : Bool}
  {transition : StateTransition}

lemma mem_excluded {auth : AuthorityIndex} :
    auth ∈ mgr.excluded ctx ↔ auth < ctx.committee.size ∧
      ∃ info, mgr.stateMap[auth]? = some info ∧ info.state ≠ .included := by
  rw [excluded, Finset.mem_filter, Committee.everyone, Finset.mem_range]
  rfl

/-- One entry is replaced. -/
lemma mem_excluded_set {next : AncestorStateManager} {info : AncestorInfo} {idx : AuthorityIndex}
    (inside : idx < mgr.stateMap.length) (size : mgr.stateMap.length = ctx.committee.size)
    (replaced : next.stateMap = mgr.stateMap.set idx info) (auth : AuthorityIndex) :
    auth ∈ next.excluded ctx ↔ if auth = idx then info.state ≠ .included
      else auth ∈ mgr.excluded ctx := by
  rw [mem_excluded, mem_excluded, replaced, getElem?_set]
  split
  case isTrue same =>
    subst same
    simp [inside, ← size]
  case isFalse other => rw [if_neg (Ne.symm other)]

lemma applyStateChange_ok (small : ctx.committee.totalStake < 2 ^ 64) (sound : mgr.Sound ctx)
    (due : mgr.Due ctx clock back transition) {newState : AncestorState}
    (target : newState = .included ↔ back = true)
    (fits : back = false → wrap 64 (mgr.totalExcludedStake + transition.stake) ≤
      mgr.excludedNodesStakeThreshold) :
    ∃ next, applyStateChange clock mgr newState transition = .ok next ∧ next.Sound ctx ∧
      next.stateMap = mgr.stateMap.set transition.authorityId
        ⟨newState, clock + STATE_LOCK_CLOCK_ROUNDS⟩ := by
  obtain ⟨stake, info, got, -, state⟩ := due
  have inside := (List.getElem?_eq_some_iff.mp got).1
  have size := sound.size
  have member : transition.authorityId ∈ mgr.excluded ctx ↔ info.state ≠ .included := by
    rw [mem_excluded, got]
    simp [← size, inside]
  rw [applyStateChange, got, expect_some, ok_bind]
  cases was : info.state with
  | included =>
    obtain rfl : back = false := state.mp was
    have absent : transition.authorityId ∉ mgr.excluded ctx := fun mem => member.mp mem was
    have added := @weigh_insert_of_notMem _ ctx.committee.stake _ _ _ absent
    have within : insert transition.authorityId (mgr.excluded ctx) ⊆ ctx.committee.everyone :=
      Finset.insert_subset (Finset.mem_range.mpr (size ▸ inside)) (Finset.filter_subset _ _)
    have below := @weigh_mono _ ctx.committee.stake _ _ within
    rw [added, Committee.weigh_everyone, ← sound.counted, ← stake] at below
    cases newState with
    | included => simp at target
    | excluded score =>
      dsimp only
      rw [wrap_of_lt (below.trans_lt small)] at fits ⊢
      refine ⟨_, rfl, ⟨by rw [length_set, size], sound.scores, ?_, fits rfl⟩, rfl⟩
      have same : mgr.totalExcludedStake + transition.stake =
          weigh ctx.committee.stake (insert transition.authorityId (mgr.excluded ctx)) := by
        rw [added, sound.counted, stake]
      refine same.trans (congrArg _ (Finset.ext fun auth => ?_))
      rw [mem_excluded_set inside size rfl, Finset.mem_insert]
      split <;> simp [*]
  | excluded score =>
    have here := member.mpr (by simp [was])
    have removed := Finset.sum_erase_add (mgr.excluded ctx) ctx.committee.stake here
    rw [← weigh, ← weigh, ← sound.counted, ← stake] at removed
    obtain rfl : newState = .included := target.mpr (by
      cases back
      · exact absurd (state.mpr rfl) (by simp [was])
      · rfl)
    dsimp only
    rw [ensure_holds _ (by lia), ok_bind]
    refine ⟨_, rfl, ⟨by rw [length_set, size], sound.scores, ?_,
      (Nat.sub_le _ _).trans sound.bounded⟩, rfl⟩
    have same : mgr.totalExcludedStake - transition.stake =
        weigh ctx.committee.stake ((mgr.excluded ctx).erase transition.authorityId) := by lia
    refine same.trans (congrArg _ (Finset.ext fun auth => ?_))
    rw [mem_excluded_set inside size rfl, Finset.mem_erase]
    split <;> simp [*]

/-- A loop over due moves of different authorities, each of which is made or left out. -/
lemma foldlM_moves {α : Type} {key : α → StateTransition} {items : List α}
    {body : AncestorStateManager → α → Except Panic AncestorStateManager}
    (each : ∀ mgr item, mgr.Sound ctx → mgr.Due ctx clock back (key item) →
      ∃ next, body mgr item = .ok next ∧ next.Sound ctx ∧ (next = mgr ∨ ∃ newState,
        next.stateMap = mgr.stateMap.set (key item).authorityId
          ⟨newState, clock + STATE_LOCK_CLOCK_ROUNDS⟩))
    (sound : mgr.Sound ctx) (due : ∀ item ∈ items, mgr.Due ctx clock back (key item))
    (nodup : (items.map fun item => (key item).authorityId).Nodup) :
    ∃ final, items.foldlM body mgr = .ok final ∧ final.Sound ctx ∧ Moves clock mgr final ∧
      ∀ auth ∉ items.map fun item => (key item).authorityId,
        final.stateMap[auth]? = mgr.stateMap[auth]? := by
  induction items generalizing mgr with
  | nil => exact ⟨mgr, rfl, sound, fun auth => .inl rfl, fun auth _ => rfl⟩
  | cons item rest ih =>
    rw [map_cons, nodup_cons] at nodup
    have ready := due item mem_cons_self
    obtain ⟨next, taken, nextSound, change⟩ := each mgr item sound ready
    have others : ∀ auth, auth ≠ (key item).authorityId →
        next.stateMap[auth]? = mgr.stateMap[auth]? := by
      intro auth ne
      rcases change with rfl | ⟨newState, replaced⟩
      · rfl
      · rw [replaced, getElem?_set_ne (Ne.symm ne)]
    have nextDue : ∀ other ∈ rest, next.Due ctx clock back (key other) := by
      intro other mem
      obtain ⟨stake, info, got, unlocked⟩ := due other (mem_cons_of_mem _ mem)
      refine ⟨stake, info, ?_, unlocked⟩
      rw [others _ fun same => nodup.1 (same ▸ mem_map_of_mem mem), got]
    obtain ⟨final, ran, finalSound, moves, kept⟩ := ih nextSound nextDue nodup.2
    refine ⟨final, by rw [foldlM_cons, taken, ok_bind, ran], finalSound, fun auth => ?_,
      fun auth absent => ?_⟩
    · by_cases same : auth = (key item).authorityId
      · subst same
        rw [kept _ nodup.1]
        rcases change with rfl | ⟨newState, replaced⟩
        · exact .inl rfl
        · obtain ⟨-, info, got, unlocked, -⟩ := ready
          refine .inr ⟨info, ⟨newState, clock + STATE_LOCK_CLOCK_ROUNDS⟩, got, ?_, unlocked, rfl⟩
          rw [replaced, getElem?_set_self (List.getElem?_eq_some_iff.mp got).1]
      · rw [← others auth same]
        exact moves auth
    · rw [map_cons, mem_cons, not_or] at absent
      rw [kept auth absent.2, others auth absent.1]

lemma transitionOf_ok (sound : mgr.Sound ctx) {rounds : List QuorumRound} {score : Nat}
    {idx : AuthorityIndex} (inside : idx < ctx.committee.size)
    (sized : rounds.length = ctx.committee.size) :
    ∃ answer, transitionOf ctx mgr clock rounds score idx = .ok answer ∧
      ∀ move ∈ answer, move.2.authorityId = idx ∧
        mgr.Due ctx clock (decide (move.1 = .included)) move.2 := by
  have known : idx < ctx.committee.authorities.length := inside
  have stake : ctx.committee.authorities[idx].stake = ctx.committee.stake idx := by
    rw [Committee.stake, getElem?_eq_getElem known]
    rfl
  rw [transitionOf, getElem?_eq_getElem known, getElem?_eq_getElem (sound.size ▸ inside),
    getElem?_eq_getElem (sized ▸ inside)]
  simp only [expect_some, ok_bind]
  split
  · exact ⟨none, rfl, by simp⟩
  case isFalse unlocked =>
    have free := Nat.lt_of_not_le fun locked => unlocked (decide_eq_true locked)
    have got := getElem?_eq_getElem (sound.size ▸ inside : idx < mgr.stateMap.length)
    split
    case h_1 was =>
      split
      · refine ⟨_, rfl, fun move mem => ?_⟩
        cases mem
        exact ⟨rfl, stake, _, got, free, by simp [was]⟩
      · exact ⟨none, rfl, by simp⟩
    case h_2 old was =>
      split
      · refine ⟨_, rfl, fun move mem => ?_⟩
        cases mem
        exact ⟨rfl, stake, _, got, free, by simp [was]⟩
      · exact ⟨none, rfl, by simp⟩

lemma updateAllAncestorsState_ok (small : ctx.committee.totalStake < 2 ^ 64)
    (sound : mgr.Sound ctx) {rounds : List QuorumRound}
    (sized : rounds.length = ctx.committee.size) :
    ∃ next, updateAllAncestorsState ctx mgr clock rounds = .ok next ∧ next.Sound ctx ∧
      Moves clock mgr next := by
  let answer := fun entry : Nat × Nat =>
    ((transitionOf ctx mgr clock rounds entry.1 entry.2).toOption).getD none
  have answered : ∀ entry ∈ mgr.propagationScores.scoresPerAuthority.zipIdx,
      transitionOf ctx mgr clock rounds entry.1 entry.2 = .ok (answer entry) ∧
        ∀ move ∈ answer entry, move.2.authorityId = entry.2 ∧
          mgr.Due ctx clock (decide (move.1 = .included)) move.2 := by
    intro entry mem
    obtain ⟨moves, run, each⟩ := @transitionOf_ok mgr ctx clock sound rounds entry.1 entry.2
      ((snd_lt_of_mem_zipIdx mem).trans_le (by simpa using sound.scores)) sized
    have same : answer entry = moves := by simp [answer, run, Except.toOption]
    exact ⟨same ▸ run, same ▸ each⟩
  rw [updateAllAncestorsState, mapM_ok fun entry mem => (answered entry mem).1, ok_bind]
  dsimp only
  rw [filterMap_map]
  have due : ∀ move ∈ mgr.propagationScores.scoresPerAuthority.zipIdx.filterMap (id ∘ answer),
      mgr.Due ctx clock (decide (move.1 = .included)) move.2 := by
    intro move mem
    obtain ⟨entry, here, got⟩ := mem_filterMap.mp mem
    exact ((answered entry here).2 move got).2
  have nodup : ((mgr.propagationScores.scoresPerAuthority.zipIdx.filterMap
      (id ∘ answer)).map fun move => move.2.authorityId).Nodup := by
    have places : (mgr.propagationScores.scoresPerAuthority.zipIdx.map Prod.snd).Nodup := by
      rw [zipIdx_map_snd]
      exact nodup_range'
    rw [Nodup, pairwise_map] at places
    rw [Nodup, pairwise_map, pairwise_filterMap]
    refine places.imp_of_mem fun {left right} first second ne one got other found => ?_
    rw [((answered left first).2 one got).1, ((answered right second).2 other found).1]
    exact ne
  generalize mgr.propagationScores.scoresPerAuthority.zipIdx.filterMap (id ∘ answer) = moves at *
  obtain ⟨included, ran, includedSound, back, keptBack⟩ := @foldlM_moves mgr ctx clock true _
    Prod.snd (moves.filter fun move => move.1 = .included) _ (fun mgr item sound due => by
      obtain ⟨next, run, sound, map⟩ := @applyStateChange_ok mgr ctx clock true item.2 small sound
        due .included (by simp) (by simp)
      exact ⟨next, run, sound, .inr ⟨_, map⟩⟩) sound (fun item mem => by
        obtain ⟨here, test⟩ := mem_filter.mp mem
        have ready := due item here
        rwa [test] at ready)
    (nodup.sublist ((filter_sublist).map _))
  rw [ran, ok_bind]
  have sorted := perm_insertionSort (fun left right : StateTransition => left.score ≤ right.score)
    ((moves.filter fun move => move.1 ≠ .included).map Prod.snd)
  have away : ∀ item ∈ ((moves.filter fun move => move.1 ≠ .included).map Prod.snd).insertionSort
      fun left right => left.score ≤ right.score, mgr.Due ctx clock false item := by
    intro item mem
    obtain ⟨move, here, rfl⟩ := List.mem_map.mp (sorted.mem_iff.mp mem)
    obtain ⟨inMoves, test⟩ := mem_filter.mp here
    have ready := due move inMoves
    rwa [decide_eq_false (of_decide_eq_true test)] at ready
  -- no authority moves both ways
  have apart : ∀ item, mgr.Due ctx clock false item → item.authorityId ∉
      (moves.filter fun move => move.1 = .included).map fun move => move.2.authorityId := by
    rintro item ⟨-, info, got, -, state⟩ mem
    obtain ⟨move, here, same⟩ := List.mem_map.mp mem
    obtain ⟨inMoves, test⟩ := mem_filter.mp here
    obtain ⟨-, other, found, -, left⟩ := due move inMoves
    rw [same, got] at found
    cases found
    simp [test] at left
    exact left (state.mpr rfl)
  obtain ⟨final, finished, finalSound, out, keptOut⟩ := @foldlM_moves included ctx clock false _ id
    _ (tryExclude clock) (fun mgr item sound due => by
      rw [tryExclude]
      split
      case isTrue fits =>
        obtain ⟨next, run, sound, map⟩ := @applyStateChange_ok mgr ctx clock false item small sound
          due (.excluded item.score) (by simp) fun _ => fits
        exact ⟨next, run, sound, .inr ⟨_, map⟩⟩
      case isFalse => exact ⟨mgr, rfl, sound, .inl rfl⟩) includedSound (fun item mem => by
        obtain ⟨stake, info, got, ready⟩ := away item mem
        exact ⟨stake, info, by rw [id, keptBack _ (apart item (away item mem)), got], ready⟩)
    ((sorted.map _).nodup_iff.mpr (by
      rw [map_map]
      exact nodup.sublist ((filter_sublist).map _)))
  refine ⟨final, finished, finalSound, fun auth => ?_⟩
  by_cases moved : auth ∈ (((moves.filter fun move => move.1 ≠ .included).map
      Prod.snd).insertionSort fun left right => left.score ≤ right.score).map
        fun item => (id item).authorityId
  · obtain ⟨item, here, same⟩ := List.mem_map.mp moved
    rw [← keptBack auth (same ▸ apart item (away item here))]
    exact out auth
  · rw [keptOut auth moved]
    exact back auth

end Upkeep

inductive Call where
  | setPropagationScores (scores : ReputationScores)
  | updateAllAncestorsState (clock : Round) (rounds : List QuorumRound)

def perform (mgr : AncestorStateManager) : Call → Except Panic AncestorStateManager
  | .setPropagationScores scores => pure (mgr.setPropagationScores scores)
  | .updateAllAncestorsState clock rounds => updateAllAncestorsState ctx mgr clock rounds

namespace Call

/-- Scores are there for all authorities or for none, and quorum rounds for all. -/
def Sized (ctx : Context) : Call → Prop
  | .setPropagationScores scores =>
    scores.scoresPerAuthority = [] ∨ scores.scoresPerAuthority.length = ctx.committee.size
  | .updateAllAncestorsState _ rounds => rounds.length = ctx.committee.size

def clock : Call → Round
  | .setPropagationScores _ => 0
  | .updateAllAncestorsState clock _ => clock

end Call

lemma perform_ok {ctx : Context} {mgr : AncestorStateManager} {call : Call}
    (small : ctx.committee.totalStake < 2 ^ 64) (sound : mgr.Sound ctx) (sized : call.Sized ctx) :
    ∃ next, perform ctx mgr call = .ok next ∧ next.Sound ctx ∧ Moves call.clock mgr next := by
  cases call with
  | setPropagationScores scores =>
    refine ⟨_, rfl, ⟨sound.size, ?_, sound.counted, sound.bounded⟩, fun auth => .inl rfl⟩
    rcases sized with none | all
    · simp [setPropagationScores, none]
    · exact all.le
  | updateAllAncestorsState clock rounds => exact updateAllAncestorsState_ok small sound sized

lemma new_sound (ctx : Context) (consensusBadNodesStakeThreshold : Nat) :
    (new ctx consensusBadNodesStakeThreshold).Sound ctx where
  size := length_replicate
  scores := Nat.zero_le _
  counted := by
    have nobody : (new ctx consensusBadNodesStakeThreshold).excluded ctx = ∅ := by
      refine Finset.filter_eq_empty_iff.mpr fun auth _ => ?_
      rintro ⟨info, mem, state⟩
      exact state (eq_of_mem_replicate (mem_of_getElem? mem) ▸ rfl)
    rw [nobody]
    rfl
  bounded := Nat.zero_le _

/-- Whatever is called in whatever order, the excluded stake is that of the excluded authorities
and within its budget, and the next call returns, changes unlocked authorities only and locks
these. -/
theorem exclusion_in_budget (ctx : Context) (consensusBadNodesStakeThreshold : Nat)
    (small : ctx.committee.totalStake < 2 ^ 64) {calls : List Call}
    (sized : ∀ call ∈ calls, call.Sized ctx) :
    ∃ reached, calls.foldlM (perform ctx) (new ctx consensusBadNodesStakeThreshold) = .ok reached ∧
      reached.totalExcludedStake = weigh ctx.committee.stake (reached.excluded ctx) ∧
      reached.totalExcludedStake ≤ reached.excludedNodesStakeThreshold ∧
      ∀ call : Call, call.Sized ctx →
        ∃ next, perform ctx reached call = .ok next ∧ Moves call.clock reached next := by
  obtain ⟨reached, ran, sound⟩ := @foldlM_returns _ _ _ (Sound ctx) (perform ctx) calls _
    (new_sound ctx consensusBadNodesStakeThreshold) fun mgr call mem sound => by
      obtain ⟨next, run, kept, -⟩ := perform_ok small sound (sized call mem)
      exact ⟨next, run, kept⟩
  refine ⟨reached, ran, sound.counted, sound.bounded, fun call sized => ?_⟩
  obtain ⟨next, run, -, moves⟩ := perform_ok small sound sized
  exact ⟨next, run, moves⟩

def Call.lowThenHigh : List Call :=
  [.setPropagationScores ⟨⟨1, 1⟩, [0, 9, 9, 9]⟩, .updateAllAncestorsState 1 (replicate 4 (0, 1)),
    .setPropagationScores ⟨⟨1, 2⟩, [9, 9, 9, 9]⟩, .updateAllAncestorsState 500 (replicate 4 (0, 1))]

theorem exclusion_in_budget_lowThenHigh :
    ∃ reached, Call.lowThenHigh.foldlM (perform (.newForTest firstAuthority))
        (new (.newForTest firstAuthority) 60) = .ok reached ∧
      reached.totalExcludedStake ≤ reached.excludedNodesStakeThreshold := by
  obtain ⟨reached, ran, -, bounded, -⟩ := @exclusion_in_budget (.newForTest firstAuthority) 60
    (by decide) Call.lowThenHigh (by simp [Call.lowThenHigh, Call.Sized]; decide)
  exact ⟨reached, ran, bounded⟩

end AncestorStateManager

end Mysticeti
