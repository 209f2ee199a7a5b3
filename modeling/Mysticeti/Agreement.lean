import Mysticeti.CommitRule
import Mysticeti.Pipelining

/-!
# Agreement of the commit rule

With pipelining every round has one leader slot and one committer that decides it. The
pass from the highest round down leaves verdicts that follow the anchored decision rule
on the evidence of the universe, whatever part of the universe the node sees. Hence two
nodes that start from the same last decided slot with the same leader election never
disagree on a position that both decided.
-/

namespace Mysticeti

open List Lib.Outcome Lib.AnchorRule DagState

/-- The same decision, by whichever rule. -/
def DecidedLeader.Agrees : DecidedLeader → DecidedLeader → Prop
  | .commit left _, .commit right _ => left = right
  | .skip left, .skip right => left = right
  | _, _ => False

/-- What a status says about its round. -/
def LeaderStatus.verdict : LeaderStatus → Verdict VerifiedBlock
  | .commit blk => .commit blk
  | .skip _ => .skip
  | .undecided _ => .undecided

namespace UniversalCommitter

variable {ctx : Context} {election : LeaderElection} {st : DagState} {lastDecided : Slot}

def pipelined : List BaseCommitterOptions :=
  UniversalCommitterBuilder.build DEFAULT_WAVE_LENGTH 1 true

section Pipeline

variable (round : Round)

/-- The committer that is in charge of a round. -/
def stage : BaseCommitterOptions := ⟨3, 0, round % 3⟩

lemma electLeader_stage :
    BaseCommitter.electLeader (stage round) election round = some ⟨round, election round 0⟩ :=
  electLeader_inCharge (by decide) round

lemma decisionRound_stage :
    BaseCommitter.decisionRound (stage round)
      (BaseCommitter.waveNumber (stage round) round) = round + 2 :=
  BaseCommitter.decisionRound_of_elected (Nat.succ_pos 2)
    (@electLeader_stage (fun _ _ => 0) round)

def decideRound (ctx : Context) (election : LeaderElection) (st : DagState)
    (leaders : List (LeaderStatus × Decision)) (round : Round) :
    Except Panic (List (LeaderStatus × Decision)) := do
  let status ← BaseCommitter.tryDirectDecide ctx st (stage round)
    ⟨round, election round 0⟩
  if status.isDecided then .ok ((status, .direct) :: leaders)
  else do
    let status ← BaseCommitter.tryIndirectDecide ctx st (stage round)
      ⟨round, election round 0⟩ (leaders.map Prod.fst)
    .ok ((status, .indirect) :: leaders)

lemma decideSlots_stage {round : Round} (later : lastDecided.round < round)
    (rest : List (Round × BaseCommitterOptions)) (leaders : List (LeaderStatus × Decision)) :
    decideSlots ctx election st lastDecided ((round, stage round) :: rest) leaders =
      decideRound ctx election st leaders round >>=
        decideSlots ctx election st lastDecided rest := by
  have fresh : (⟨round, election round 0⟩ : Slot) ≠ lastDecided := by
    rintro rfl
    exact Nat.lt_irrefl _ later
  rw [decideSlots, electLeader_stage]
  simp only [fresh, if_false, decideRound, bind_assoc]
  cases BaseCommitter.tryDirectDecide ctx st (stage round) ⟨round, election round 0⟩ with
  | error err => rfl
  | ok status =>
    simp only [ok_bind]
    split
    · rfl
    · rw [bind_assoc]
      rfl

lemma decideSlots_pipelined {rounds : List Round}
    (later : ∀ round ∈ rounds, lastDecided.round < round)
    (leaders : List (LeaderStatus × Decision)) :
    decideSlots ctx election st lastDecided
        (rounds.flatMap fun round => pipelined.reverse.map fun options => (round, options))
        leaders =
      rounds.foldlM (decideRound ctx election st) leaders := by
  rw [pipelined, decideSlots_rounds (by decide)]
  induction rounds generalizing leaders with
  | nil => rfl
  | cons round rest ih =>
    change decideSlots ctx election st lastDecided ((round, stage round) :: _) leaders = _
    rw [decideSlots_stage (later round (by simp)), foldlM_cons]
    congr 1
    funext decided
    exact ih (fun other mem => later other (by simp [mem])) decided

end Pipeline

section Pass

def verdictAt : List (LeaderStatus × Decision) → Nat → Verdict VerifiedBlock
  | [], _ => .undecided
  | (status, _) :: rest, round =>
    if status.round = round then status.verdict else verdictAt rest round

/-- The status is about the elected slot of its round, and a committed block is held. -/
def OnSlot (ctx : Context) (election : LeaderElection) (st : DagState) : LeaderStatus → Prop
  | .commit blk => st.Holds ctx blk ∧ blk.slot = ⟨blk.round, election blk.round 0⟩
  | .skip slot => slot = ⟨slot.round, election slot.round 0⟩
  | .undecided slot => slot = ⟨slot.round, election slot.round 0⟩

/-- The pass has reached the lowest round: the statuses are those of consecutive rounds
from there, each about the slot of its round, and they follow the rule. -/
structure Passed (blocks : BlockUniverse ctx) (election : LeaderElection) (st : DagState)
    (lowest : Round) (leaders : List (LeaderStatus × Decision)) : Prop where
  rounds : leaders.map (fun entry => entry.1.round) = List.range' lowest leaders.length
  onSlot : ∀ entry ∈ leaders, OnSlot ctx election st entry.1
  follows : Follows (blocks.evidence fun round => election round 0) (verdictAt leaders)

variable {blocks : BlockUniverse ctx} {lowest : Round}
  {leaders : List (LeaderStatus × Decision)}

namespace Passed

variable (passed : Passed blocks election st lowest leaders)

include passed

lemma bounds {entry : LeaderStatus × Decision} (mem : entry ∈ leaders) :
    lowest ≤ entry.1.round ∧ entry.1.round < lowest + leaders.length := by
  have listed : entry.1.round ∈ leaders.map (fun entry => entry.1.round) := List.mem_map_of_mem mem
  rw [passed.rounds, mem_range'_1] at listed
  exact listed

lemma exists_entry {round : Round} (from_ : lowest ≤ round)
    (below : round < lowest + leaders.length) : ∃ entry ∈ leaders, entry.1.round = round := by
  have listed : round ∈ leaders.map (fun entry => entry.1.round) := by
    rw [passed.rounds, mem_range'_1]
    exact ⟨from_, below⟩
  exact List.mem_map.mp listed

lemma increasing :
    (leaders.map Prod.fst).Pairwise fun first second => first.round < second.round := by
  have sorted : (leaders.map fun entry => entry.1.round).Pairwise (· < ·) := by
    rw [passed.rounds]
    exact pairwise_lt_range' _
  rw [pairwise_map] at sorted ⊢
  exact sorted

end Passed

lemma verdictAt_of_notMem {round : Nat}
    (absent : ∀ entry ∈ leaders, entry.1.round ≠ round) : verdictAt leaders round = .undecided := by
  induction leaders with
  | nil => rfl
  | cons entry rest ih =>
    rw [verdictAt, if_neg (absent entry (by simp))]
    exact ih fun other mem => absent other (by simp [mem])

lemma verdictAt_of_mem
    (increasing : (leaders.map Prod.fst).Pairwise fun first second => first.round < second.round)
    {entry : LeaderStatus × Decision} (mem : entry ∈ leaders) :
    verdictAt leaders entry.1.round = entry.1.verdict := by
  induction leaders with
  | nil => simp at mem
  | cons first rest ih =>
    rw [map_cons, pairwise_cons] at increasing
    rcases mem_cons.mp mem with rfl | later
    · rw [verdictAt, if_pos rfl]
    · have above := increasing.1 entry.1 (List.mem_map_of_mem later)
      rw [verdictAt, if_neg (Nat.ne_of_lt above)]
      exact ih increasing.2 later

lemma decideFromAnchors_cases (options : BaseCommitterOptions) (slot : Slot)
    (statuses : List LeaderStatus) :
    BaseCommitter.decideFromAnchors ctx st options slot statuses = .ok (.undecided slot) ∨
      ∃ skipped anchor rest, statuses = skipped ++ .commit anchor :: rest ∧
        (∀ status ∈ skipped, status.verdict = .skip) ∧
        BaseCommitter.decideFromAnchors ctx st options slot statuses =
          BaseCommitter.decideLeaderFromAnchor ctx st options anchor slot := by
  induction statuses with
  | nil => exact .inl rfl
  | cons status rest ih =>
    cases status with
    | undecided other => exact .inl rfl
    | commit anchor => exact .inr ⟨[], anchor, rest, rfl, by simp, rfl⟩
    | skip other =>
      rcases ih with undecided | ⟨skipped, anchor, later, split, skips, same⟩
      · exact .inl undecided
      · refine .inr ⟨.skip other :: skipped, anchor, later, by rw [split]; rfl, ?_, same⟩
        intro status mem
        rcases mem_cons.mp mem with rfl | inside
        · rfl
        · exact skips status inside

lemma Passed.anchors (passed : Passed blocks election st (lowest + 1) leaders)
    {skipped rest : List LeaderStatus} {anchor : VerifiedBlock}
    (split : (leaders.map Prod.fst).filter (fun status => lowest + 3 ≤ status.round) =
      skipped ++ .commit anchor :: rest)
    (skips : ∀ status ∈ skipped, status.verdict = .skip) :
    st.Holds ctx anchor ∧
      Anchors (blocks.evidence fun round => election round 0) (verdictAt leaders) lowest
        anchor.round anchor := by
  have increasing := passed.increasing
  have verdicts : ∀ status, status ∈ leaders.map Prod.fst →
      verdictAt leaders status.round = status.verdict := by
    intro status mem
    obtain ⟨entry, inside, rfl⟩ := List.mem_map.mp mem
    exact verdictAt_of_mem increasing inside
  have got : LeaderStatus.commit anchor ∈ (leaders.map Prod.fst).filter
      (fun status => lowest + 3 ≤ status.round) := by
    rw [split]
    simp
  obtain ⟨listed, post⟩ := mem_filter.mp got
  obtain ⟨entry, inside, isCommit⟩ := List.mem_map.mp listed
  have entryRound : entry.1.round = anchor.round := by rw [isCommit]; rfl
  refine ⟨?_, ⟨?_, ?_, ?_⟩⟩
  · have onSlot := passed.onSlot entry inside
    rw [isCommit] at onSlot
    exact onSlot.1
  · exact of_decide_eq_true post
  · exact verdicts (.commit anchor) listed
  · intro mid from_ below
    have wave : lowest + 3 ≤ mid := from_
    have first : lowest + 1 ≤ mid := by lia
    have last : mid < lowest + 1 + leaders.length :=
      Nat.lt_trans below (entryRound ▸ (passed.bounds inside).2)
    obtain ⟨other, otherInside, otherRound⟩ := passed.exists_entry first last
    have otherListed : other.1 ∈ (leaders.map Prod.fst).filter
        (fun status => lowest + 3 ≤ status.round) := by
      rw [mem_filter, decide_eq_true_eq, otherRound]
      exact ⟨List.mem_map_of_mem otherInside, from_⟩
    -- The statuses are in round order, so what is before the anchor is skipped.
    have sorted := increasing.filter (fun status => decide (lowest + 3 ≤ status.round))
    rw [split, pairwise_append, pairwise_cons] at sorted
    rw [split, mem_append, mem_cons] at otherListed
    have skippedOther : other.1 ∈ skipped := by
      rcases otherListed with early | isAnchor | late
      · exact early
      · have same : other.1.round = anchor.round := by rw [isAnchor]; rfl
        lia
      · have above : anchor.round < other.1.round := sorted.2.1.1 other.1 late
        lia
    rw [← otherRound, verdictAt_of_mem increasing otherInside]
    exact skips other.1 skippedOther

lemma Passed.cons (sees : Sees blocks lastDecided st)
    (passed : Passed blocks election st (lowest + 1) leaders) {status : LeaderStatus}
    {decision : Decision} (round : status.round = lowest) (positive : 0 < lowest)
    (onSlot : OnSlot ctx election st status)
    (justified : status.verdict ≠ .undecided →
      Justified (blocks.evidence fun round => election round 0) (verdictAt leaders) lowest
        status.verdict) :
    Passed blocks election st lowest ((status, decision) :: leaders) where
  rounds := by rw [map_cons, length_cons, range'_succ, passed.rounds, round]
  onSlot entry mem := by
    rcases mem_cons.mp mem with rfl | later
    · exact onSlot
    · exact passed.onSlot entry later
  follows := by
    have here : verdictAt ((status, decision) :: leaders) lowest = status.verdict := by
      rw [verdictAt, if_pos round]
    refine @Follows.decide _ _ _ _ lowest passed.follows ?_ ?_ ?_ ?_
    · intro later ne
      rw [verdictAt, if_neg (round.symm ▸ ne)]
    · intro prev below
      apply verdictAt_of_notMem
      intro entry mem
      have above := (passed.bounds mem).1
      lia
    · intro blk committed
      rw [here] at committed
      cases status with
      | skip slot => simp [LeaderStatus.verdict] at committed
      | undecided slot => simp [LeaderStatus.verdict] at committed
      | commit leader =>
        simp only [LeaderStatus.verdict, Verdict.commit.injEq] at committed
        subst committed
        have leaderRound : leader.round = lowest := round
        refine ⟨sees.member onSlot.1 (by lia), ?_⟩
        rw [← leaderRound]
        exact onSlot.2
    · rw [here]
      exact justified

lemma Passed.decideRound (sees : Sees blocks lastDecided st)
    (passed : Passed blocks election st (lowest + 1) leaders)
    (later : lastDecided.round < lowest) :
    ∃ next, decideRound ctx election st leaders lowest = .ok next ∧
      Passed blocks election st lowest next := by
  have positive : 0 < lowest := Nat.lt_of_le_of_lt (Nat.zero_le _) later
  obtain ⟨status, run, evidence⟩ := @Sees.tryDirectDecide_ok ctx blocks lastDecided st
    (stage lowest) ⟨lowest, election lowest 0⟩ sees later (decisionRound_stage lowest)
  rw [UniversalCommitter.decideRound, run, ok_bind]
  rcases evidence with ⟨rfl, blamed⟩ | ⟨blk, rfl, held, inSlot, supported⟩ | rfl
  · refine ⟨_, rfl, passed.cons sees rfl positive rfl fun _ => ?_⟩
    exact .directSkip blamed
  · have round : blk.round = lowest := congrArg Slot.round inSlot
    refine ⟨_, rfl, passed.cons sees round positive ⟨held, round.symm ▸ inSlot⟩ fun _ => ?_⟩
    exact .directCommit ⟨sees.member held (by lia), inSlot, supported⟩
  · simp only [LeaderStatus.isDecided, Bool.false_eq_true, if_false]
    rcases @decideFromAnchors_cases ctx st (stage lowest) ⟨lowest, election lowest 0⟩
      ((leaders.map Prod.fst).filter fun status => lowest + 3 ≤ status.round) with
      undecided | ⟨skipped, anchor, rest, split, skips, same⟩
    · have indirect : BaseCommitter.tryIndirectDecide ctx st (stage lowest)
          ⟨lowest, election lowest 0⟩ (leaders.map Prod.fst) =
          .ok (.undecided ⟨lowest, election lowest 0⟩) := undecided
      rw [indirect, ok_bind]
      exact ⟨_, rfl, passed.cons sees rfl positive rfl fun decided => absurd rfl decided⟩
    · obtain ⟨held, anchors⟩ := passed.anchors split skips
      obtain ⟨status, decided, conclusion⟩ := @Sees.decideLeaderFromAnchor_ok ctx blocks
        lastDecided st (stage lowest) ⟨lowest, election lowest 0⟩ sees anchor held later
        (decisionRound_stage lowest)
      have indirect : BaseCommitter.tryIndirectDecide ctx st (stage lowest)
          ⟨lowest, election lowest 0⟩ (leaders.map Prod.fst) = .ok status := same.trans decided
      rw [indirect, ok_bind]
      rcases conclusion with ⟨blk, rfl, blockHeld, inSlot, linked⟩ | ⟨rfl, nothing⟩
      · have round : blk.round = lowest := congrArg Slot.round inSlot
        refine ⟨_, rfl, passed.cons sees round positive ⟨blockHeld, round.symm ▸ inSlot⟩
          fun _ => ?_⟩
        exact .anchored anchors (.commit ⟨sees.member blockHeld (by lia), inSlot, linked⟩)
      · refine ⟨_, rfl, passed.cons sees rfl positive rfl fun _ => ?_⟩
        apply Justified.anchored anchors
        apply Concludes.skip
        rintro blk ⟨inside, inSlot, linked⟩
        exact nothing blk inside inSlot linked

lemma passed_all (sees : Sees blocks lastDecided st) (count : Nat)
    (passed : Passed blocks election st (lowest + count) leaders)
    (later : lastDecided.round < lowest) :
    ∃ final, (range' lowest count).reverse.foldlM
        (UniversalCommitter.decideRound ctx election st) leaders = .ok final ∧
      Passed blocks election st lowest final := by
  induction count generalizing leaders with
  | zero => exact ⟨leaders, rfl, passed⟩
  | succ count ih =>
    have passedAbove : Passed blocks election st (lowest + count + 1) leaders := passed
    obtain ⟨next, taken, passedNext⟩ :=
      passedAbove.decideRound sees (Nat.lt_add_right count later)
    obtain ⟨final, run, passedFinal⟩ := ih passedNext
    refine ⟨final, ?_, passedFinal⟩
    rw [range'_concat, reverse_concat, Nat.one_mul, foldlM_step taken, run]

end Pass

section Sequence

variable {blocks : BlockUniverse ctx} {lowest : Round}
  {leaders : List (LeaderStatus × Decision)}

lemma Passed.at_position (passed : Passed blocks election st lowest leaders)
    {pos : Nat} {status : LeaderStatus} {decision : Decision}
    (got : leaders[pos]? = some (status, decision)) :
    status.round = lowest + pos ∧ OnSlot ctx election st status ∧
      verdictAt leaders (lowest + pos) = status.verdict := by
  have mem : (status, decision) ∈ leaders := List.mem_of_getElem? got
  have round : status.round = lowest + pos := by
    have listed : (leaders.map fun entry => entry.1.round)[pos]? = some status.round := by
      rw [getElem?_map, got]
      rfl
    rw [passed.rounds, getElem?_range'] at listed
    · simpa [eq_comm] using listed
    · exact (List.getElem?_eq_some_iff.mp got).1
  refine ⟨round, passed.onSlot _ mem, ?_⟩
  rw [← round]
  exact verdictAt_of_mem passed.increasing mem

lemma tryDecide_passed (election : LeaderElection)
    (oneLeader : ctx.protocolConfig.mysticetiNumLeadersPerRound = some 1)
    (sees : Sees blocks lastDecided st) :
    ∃ leaders, tryDecide ctx election st pipelined lastDecided = .ok (decidedSequence leaders) ∧
      Passed blocks election st (lastDecided.round + 1) leaders := by
  have first : firstRound ctx lastDecided = lastDecided.round + 1 := by
    simp only [firstRound, oneLeader]
  have nothing : Passed blocks election st (lastDecided.round + 1 +
      (st.highestAcceptedRound - 2 + 1 - (lastDecided.round + 1))) [] :=
    { rounds := rfl
      onSlot := by simp
      follows :=
        { candidate := fun committed => by simp [verdictAt] at committed
          justified := fun round decided => absurd rfl decided
          bounded := ⟨0, fun _ _ => rfl⟩ } }
  obtain ⟨leaders, run, passed⟩ := passed_all sees _ nothing (Nat.lt_succ_self _)
  refine ⟨leaders, ?_, passed⟩
  have later : ∀ round ∈ roundsToDecide ctx st lastDecided, lastDecided.round < round := by
    intro round mem
    rw [roundsToDecide, first, mem_reverse, mem_range'_1] at mem
    exact mem.1
  rw [tryDecide, decideSlots_pipelined later, roundsToDecide, first, run, ok_bind, pure_ok]

end Sequence

/-- Two nodes that see parts of one universe, with the same last decided slot and the same
leader election, decide every position that both decide in the same way, and neither
stops at a check of the rule. -/
theorem tryDecide_agrees {blocks : BlockUniverse ctx} {left right : DagState}
    (election : LeaderElection)
    (oneLeader : ctx.protocolConfig.mysticetiNumLeadersPerRound = some 1)
    (leftSees : Sees blocks lastDecided left) (rightSees : Sees blocks lastDecided right) :
    ∃ leftDecided rightDecided,
      tryDecide ctx election left pipelined lastDecided = .ok leftDecided ∧
      tryDecide ctx election right pipelined lastDecided = .ok rightDecided ∧
      ∀ (pos : Nat) (first second : DecidedLeader), leftDecided[pos]? = some first →
        rightDecided[pos]? = some second → first.Agrees second := by
  obtain ⟨leftLeaders, leftRun, leftPassed⟩ := tryDecide_passed election oneLeader leftSees
  obtain ⟨rightLeaders, rightRun, rightPassed⟩ := tryDecide_passed election oneLeader rightSees
  refine ⟨_, _, leftRun, rightRun, fun pos first second inLeft inRight => ?_⟩
  have positive : ∀ {st : DagState} {leaders : List (LeaderStatus × Decision)},
      Passed blocks election st (lastDecided.round + 1) leaders →
      ∀ entry ∈ leaders, entry.1.round ≠ GENESIS_ROUND := by
    intro st leaders passed entry mem
    exact Nat.ne_of_gt (Nat.lt_of_lt_of_le (Nat.succ_pos _) (passed.bounds mem).1)
  obtain ⟨leftStatus, leftRule, leftFound, leftDecides⟩ :=
    decidedSequence_getElem? (positive leftPassed) inLeft
  obtain ⟨rightStatus, rightRule, rightFound, rightDecides⟩ :=
    decidedSequence_getElem? (positive rightPassed) inRight
  obtain ⟨leftRound, leftSlot, leftVerdict⟩ := leftPassed.at_position leftFound
  obtain ⟨rightRound, rightSlot, rightVerdict⟩ := rightPassed.at_position rightFound
  have agree : leftStatus.verdict = rightStatus.verdict := by
    rw [← leftVerdict, ← rightVerdict]
    apply verdicts_agree leftPassed.follows rightPassed.follows
    · rw [leftVerdict]
      cases leftStatus <;>
        simp [LeaderStatus.verdict, LeaderStatus.intoDecidedLeader] at leftDecides ⊢
    · rw [rightVerdict]
      cases rightStatus <;>
        simp [LeaderStatus.verdict, LeaderStatus.intoDecidedLeader] at rightDecides ⊢
  cases leftStatus with
  | undecided slot => simp [LeaderStatus.intoDecidedLeader] at leftDecides
  | commit blk =>
    simp only [LeaderStatus.intoDecidedLeader, Option.some.injEq] at leftDecides
    cases rightStatus with
    | undecided slot => simp [LeaderStatus.intoDecidedLeader] at rightDecides
    | skip slot => simp [LeaderStatus.verdict] at agree
    | commit other =>
      simp only [LeaderStatus.intoDecidedLeader, Option.some.injEq] at rightDecides
      simp only [LeaderStatus.verdict, Verdict.commit.injEq] at agree
      rw [← leftDecides, ← rightDecides]
      exact agree
  | skip slot =>
    simp only [LeaderStatus.intoDecidedLeader, Option.some.injEq] at leftDecides
    cases rightStatus with
    | undecided slot => simp [LeaderStatus.intoDecidedLeader] at rightDecides
    | commit other => simp [LeaderStatus.verdict] at agree
    | skip other =>
      simp only [LeaderStatus.intoDecidedLeader, Option.some.injEq] at rightDecides
      have sameRound : slot.round = other.round := leftRound.trans rightRound.symm
      have leftElected : slot = ⟨slot.round, election slot.round 0⟩ := leftSlot
      have rightElected : other = ⟨other.round, election other.round 0⟩ := rightSlot
      rw [← leftDecides, ← rightDecides]
      exact leftElected.trans (sameRound ▸ rightElected.symm)

section Views

/-- Two first-round blocks of the fourth authority. -/
def twins : List VerifiedBlock :=
  [testBlock 1 3 [3, 0, 1], TestBlock.build 1 3 7 [testRef 0 3, testRef 0 0, testRef 0 2]]

def equivocating (own : Fin 4) : BlockUniverse (Context.newForTest own) :=
  BlockUniverse.ofList {3} (threeRounds ++ twins) (by revert own; decide +kernel)
    (by decide +kernel) (by decide +kernel) (by revert own; decide +kernel) (by decide +kernel)

lemma sees_received {recv : List VerifiedBlock}
    (verified : ∀ blk ∈ recv, verifyBlock (Context.newForTest 0) blk.block = .ok ())
    (closed : (testState 0 recv).CausallyClosed (Context.newForTest 0))
    (inside : ∀ ref ∈ (testState 0 recv).recentBlocks.keys,
      (testState 0 recv).blockAt ref ∈ threeRounds ++ twins)
    (unwritten : (testState 0 recv).store.blocks.toList = [])
    (uncommitted : (testState 0 recv).lastCommit = none) :
    Sees (equivocating 0) ⟨0, 0⟩ (testState 0 recv) := by
  apply Sees.of_cached (testState_wellFormed verified) closed (backed_of_unwritten unwritten)
  · intro ref blk positive got
    rcases getBlock_cases got with ⟨genesis, -⟩ | ⟨info, cached, rfl⟩ | ⟨-, stored⟩
    · exact absurd genesis (Nat.ne_of_gt positive)
    · have listed := inside ref
        (Std.ExtTreeMap.mem_keys.mpr (mem_recentBlocks.mpr ⟨info, cached⟩))
      rw [blockAt_of_cached cached] at listed
      exact listed
    · rw [← Std.ExtTreeMap.mem_toList_iff_getElem?_eq_some, unwritten] at stored
      exact absurd stored not_mem_nil
  · rw [lastCommitRound, uncommitted]
    exact Nat.le_refl _

lemma sees_twin {twin : VerifiedBlock} (either : twin ∈ twins) :
    Sees (equivocating 0) ⟨0, 0⟩ (testState 0 (threeRounds ++ [twin])) := by
  simp only [twins, mem_cons, not_mem_nil, or_false] at either
  rcases either with rfl | rfl
  · apply sees_received <;> decide +kernel
  · apply sees_received <;> decide +kernel

theorem tryDecide_agrees_twins : ∃ leftDecided rightDecided,
    tryDecide (Context.newForTest 0) (fun round _ => round % 4)
      (testState 0 (threeRounds ++ [testBlock 1 3 [3, 0, 1]])) pipelined ⟨0, 0⟩ = .ok leftDecided ∧
    tryDecide (Context.newForTest 0) (fun round _ => round % 4)
      (testState 0 (threeRounds ++
        [TestBlock.build 1 3 7 [testRef 0 3, testRef 0 0, testRef 0 2]])) pipelined ⟨0, 0⟩ =
        .ok rightDecided ∧
    ∀ (pos : Nat) (first second : DecidedLeader), leftDecided[pos]? = some first →
      rightDecided[pos]? = some second → first.Agrees second :=
  tryDecide_agrees (fun round _ => round % 4) rfl (sees_twin (by simp [twins]))
    (sees_twin (by simp [twins]))

end Views

end UniversalCommitter

end Mysticeti
