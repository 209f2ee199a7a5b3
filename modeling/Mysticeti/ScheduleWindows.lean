import Mysticeti.CertifiedLeaders
import Mysticeti.Lib.Machine
import Mysticeti.ScheduleAssertions
import Mysticeti.StoredCommits

/-!
# The windows of the leader schedule

The commit loop of the core, taken apart into the steps between which another task can flush
the DAG state or the node can stop: an iteration asks how many commits are left in the window
and changes the schedule when there are none; it takes as many certified commits, or locally
decided leaders, as are left; the leaders are committed one by one; then the sub-dags are
scored. Which commits are certified and what is decided locally is arbitrary in every
iteration, and blocks are accepted, histories marked, votes taken and finalized commits
recorded at any time.

The commits of the state form a log. A window is a run of commits of the log of the length of
the schedule, and the tables installed one after the other are calculated from one window after
the other. What carries this over a restart is that the store, too, holds a log with the scores
of its complete windows, whatever was flushed last.
-/

namespace Mysticeti

open List Lib.Outcome Lib.OrderedMap Lib.Machine

namespace ScoringSubdag

variable {ctx : Context} {scoring next : ScoringSubdag} {blk : VerifiedBlock}
  {dag : CommittedSubDag} {subdags : List CommittedSubDag} {first count : Nat}

/-- Sub-dags of as many consecutive commits were scored. -/
def Covers (scoring : ScoringSubdag) (first count : Nat) : Prop :=
  scoring.commitRange = if count = 0 then none else some ⟨first, first + count⟩

lemma new_covers (first : Nat) : new.Covers first 0 := rfl

lemma scoredSubdagsCount_eq (covers : scoring.Covers first count) :
    scoring.scoredSubdagsCount = count := by
  unfold scoredSubdagsCount
  rw [covers]
  split
  · rename_i none
    exact none.symm
  · exact Nat.add_sub_cancel_left first count

lemma calculate_eq (covers : scoring.Covers first count) (pos : 0 < count) :
    scoring.calculateDistributedVoteScores ctx =
      .ok ⟨⟨first, first + count⟩, scoring.distributedVotesScores ctx⟩ := by
  unfold calculateDistributedVoteScores
  rw [covers, if_neg pos.ne']
  rfl

lemma addLink_commitRange {anc : BlockRef}
    (run : addLink ctx blk scoring anc = .ok next) :
    next.commitRange = scoring.commitRange := by
  unfold addLink at run
  split at run
  · cases run
    rfl
  · split at run
    · obtain ⟨-, run⟩ := ensure_bind_eq_ok.mp run
      cases run
      rfl
    · cases run
      rfl

lemma addBlock_commitRange (run : addBlock ctx scoring blk = .ok next) :
    next.commitRange = scoring.commitRange := by
  refine @foldlM_preserves _ _ _ _ _ (fun later : ScoringSubdag =>
    later.commitRange = scoring.commitRange) _ _ run rfl ?_
  intro prev anc later _ same stepped
  exact (addLink_commitRange stepped).trans same

lemma addBlock_within : Within Panic.Elsewhere (addBlock ctx scoring blk) := by
  refine .foldlM fun prev anc => ?_
  unfold addLink
  split
  · exact .ok _
  · split
    · exact .bind (.ensure rfl) fun _ => .ok _
    · exact .ok _

lemma addSubdag_covers (covers : scoring.Covers first count)
    (follows : dag.commitRef.index = first + count) :
    Meets Panic.Elsewhere (Covers · first (count + 1)) (addSubdag ctx scoring dag) := by
  have blocks : ∀ start : ScoringSubdag, start.commitRange = some ⟨first, first + count + 1⟩ →
      Meets Panic.Elsewhere (Covers · first (count + 1))
        (dag.blocks.foldlM (addBlock ctx) start) := by
    intro start range
    have within : Within Panic.Elsewhere (dag.blocks.foldlM (addBlock ctx) start) :=
      .foldlM fun _ _ => addBlock_within
    refine within.meets fun final run => ?_
    have same : final.commitRange = start.commitRange :=
      @foldlM_preserves _ _ _ _ _ (fun later : ScoringSubdag =>
        later.commitRange = start.commitRange) _ _ run rfl
        fun _ _ _ _ prev stepped => (addBlock_commitRange stepped).trans prev
    rw [Covers, same, range, if_neg (Nat.succ_ne_zero count)]
    rfl
  unfold addSubdag
  unfold Covers at covers
  rw [covers]
  by_cases none : count = 0
  · subst none
    rw [if_pos rfl]
    exact blocks _ (by simp [CommitRange.new, follows])
  · rw [if_neg none]
    have extended : CommitRange.extendTo ⟨first, first + count⟩ dag.commitRef.index =
        .ok ⟨first, first + count + 1⟩ := by
      unfold CommitRange.extendTo
      rw [follows, ensure_holds _ (Nat.le_succ _), ok_bind, pure_ok]
    simp only [extended, ok_bind]
    exact blocks _ rfl

lemma addSubdags_covers (covers : scoring.Covers first count)
    (follow : subdags.map (fun dag => dag.commitRef.index) =
      range' (first + count) subdags.length) :
    Meets Panic.Elsewhere (Covers · first (count + subdags.length))
      (scoring.addSubdags ctx subdags) := by
  induction subdags generalizing scoring count with
  | nil => exact covers
  | cons dag rest ih =>
    rw [map_cons, length_cons, range'_succ, List.cons.injEq] at follow
    rw [addSubdags, foldlM_cons]
    refine (addSubdag_covers covers follow.1).bind fun next _ covered => ?_
    have remaining := ih covered (by rw [follow.2, Nat.add_assoc])
    rw [length_cons, Nat.add_comm rest.length, ← Nat.add_assoc]
    exact remaining

lemma addSubdags_append {later : List CommittedSubDag} :
    scoring.addSubdags ctx (subdags ++ later) =
      scoring.addSubdags ctx subdags >>= fun scored => scored.addSubdags ctx later :=
  foldlM_append

end ScoringSubdag

structure ScheduleSettings where
  context : Context
  shuffle : CommitIndex → List (AuthorityIndex × Nat) → List (AuthorityIndex × Nat)
  swapStakeThreshold : Nat
  numCommitsPerSchedule : Nat
  positive : 0 < numCommitsPerSchedule

inductive CommitPhase where
  | idle
  | deciding (limit : Nat)
  | committing (decidedLocally : Bool) (leaders : List VerifiedBlock)
      (subDags : List CommittedSubDag)

namespace CommitPhase

def pending : CommitPhase → List CommittedSubDag
  | idle => []
  | deciding _ => []
  | committing _ _ subDags => subDags

def reserved : CommitPhase → Nat
  | idle => 0
  | deciding limit => limit
  | committing _ leaders _ => leaders.length

end CommitPhase

/-- The parts of the core that the commit loop changes, with the tables that were installed
since the node started. -/
structure ScheduledCore where
  state : DagState
  schedule : LeaderSchedule
  installed : List LeaderSwapTable
  phase : CommitPhase

inductive CoreAction where
  | beginIteration
  | takeCertified (certified : List CertifiedCommit)
  | decideLocally (decided : List DecidedLeader)
  | commitLeader
  | scoreSubDags
  | acceptBlock (blk : VerifiedBlock)
  | linkCausalHistory (root : BlockRef)
  | takeCommitVotes (limit : Nat)
  | addFinalizedCommit (commit : CommitRef) (rejected : RejectedTransactions)
  | recoverCommitsToWrite (first last : CommitIndex)
  | flush
  | restart

namespace ScheduledCore

section Definitions

variable (cfg : ScheduleSettings) (core : ScheduledCore)

def start : ScheduledCore where
  state := DagState.initial
  schedule := ⟨LeaderSwapTable.empty, cfg.numCommitsPerSchedule⟩
  installed := [LeaderSwapTable.empty]
  phase := .idle

def changeSchedule : Except Panic (ScheduledCore × Nat) := do
  let updated ← core.schedule.updateLeaderScheduleV2 cfg.context cfg.shuffle
    cfg.swapStakeThreshold core.state
  let commitsUntilUpdate ← updated.1.commitsUntilLeaderScheduleUpdate updated.2
  pure ({ core with
    state := updated.2
    schedule := updated.1
    installed := core.installed ++ [updated.1.leaderSwapTable] }, commitsUntilUpdate)

def openWindow : Except Panic (ScheduledCore × Nat) := do
  let commitsUntilUpdate ← core.schedule.commitsUntilLeaderScheduleUpdate core.state
  if commitsUntilUpdate = 0 then core.changeSchedule cfg
  else pure (core, commitsUntilUpdate)

def beginIteration : Except Panic ScheduledCore := do
  let prepared ← core.openWindow cfg
  ensure (0 < prepared.2) .noCommitsUntilUpdate
  pure { prepared.1 with phase := .deciding prepared.2 }

def sequence (decidedLocally : Bool) (decided : List DecidedLeader) : ScheduledCore :=
  let sequenced := decided.filterMap DecidedLeader.intoCommittedBlock
  { core with
    phase := if sequenced.isEmpty then .idle else .committing decidedLocally sequenced [] }

def takeCertified (certified : List CertifiedCommit) (limit : Nat) :
    Except Panic ScheduledCore := do
  let selected ← Core.trySelectCertifiedLeaders certified limit
  pure (if selected.isEmpty then core else core.sequence false (selected.map Prod.fst))

def commitLeader (decidedLocally : Bool) (leader : VerifiedBlock) (leaders : List VerifiedBlock)
    (subDags : List CommittedSubDag) : Except Panic ScheduledCore := do
  let committed ← Linearizer.commitLeader cfg.context (subDags, core.state) leader
  pure { core with
    state := committed.2, phase := .committing decidedLocally leaders committed.1 }

/-- The end of `handle_commit`. -/
def scoreSubDags (decidedLocally : Bool) (subDags : List CommittedSubDag) :
    Except Panic ScheduledCore := do
  let st ← core.state.addScoringSubdags cfg.context
    (subDags.map fun subDag => { subDag with decidedWithLocalBlocks := decidedLocally })
  pure { core with state := st, phase := .idle }

def restart : Except Panic ScheduledCore := do
  let st ← DagState.new cfg.context core.state.store
  let sched ← LeaderSchedule.fromStore cfg.context cfg.shuffle
    cfg.swapStakeThreshold cfg.numCommitsPerSchedule st
  pure ⟨st, sched, [sched.leaderSwapTable], .idle⟩

def onState (computed : Except Panic DagState) : Except Panic ScheduledCore := do
  let st ← computed
  pure { core with state := st }

/-- The outcome of an action, where the iteration is at a point that has it. -/
def perform : CoreAction → Option (Except Panic ScheduledCore)
  | .beginIteration =>
    match core.phase with
    | .idle => some (core.beginIteration cfg)
    | _ => none
  | .takeCertified certified =>
    match core.phase with
    | .deciding limit => some (core.takeCertified certified limit)
    | _ => none
  | .decideLocally decided =>
    match core.phase with
    | .deciding limit => some (.ok (core.sequence true (decided.take limit)))
    | _ => none
  | .commitLeader =>
    match core.phase with
    | .committing decidedLocally (leader :: leaders) subDags =>
      some (core.commitLeader cfg decidedLocally leader leaders subDags)
    | _ => none
  | .scoreSubDags =>
    match core.phase with
    | .committing decidedLocally [] subDags => some (core.scoreSubDags cfg decidedLocally subDags)
    | _ => none
  | .acceptBlock blk => some (core.onState (core.state.acceptBlock cfg.context blk))
  | .linkCausalHistory root =>
    some (core.onState (core.state.linkCausalHistory cfg.context root |>.map Prod.snd))
  | .takeCommitVotes limit => some (core.onState (.ok (core.state.takeCommitVotes limit).2))
  | .addFinalizedCommit commit rejected =>
    some (core.onState (.ok (core.state.addFinalizedCommit commit rejected)))
  | .recoverCommitsToWrite first last =>
    some (core.onState (.ok
      (core.state.recoverCommitsToWrite (core.state.store.scanCommits first last))))
  | .flush => some (core.onState (.ok (core.state.flush cfg.context)))
  | .restart => some (core.restart cfg)

def step (act : CoreAction) : Option ScheduledCore :=
  (core.perform cfg act).bind Except.toOption

end Definitions

end ScheduledCore

section Windows

variable (cfg : ScheduleSettings)

/-- The scores of a window of the log. The first window has number zero. -/
def Scored (log : List TrustedCommit) (window : Nat) (scores : ReputationScores) : Prop :=
  ∃ subdags scoring,
    subdags.length = cfg.numCommitsPerSchedule ∧
    subdags.map CommittedSubDag.commitRef =
      ((log.drop (window * cfg.numCommitsPerSchedule)).take
        cfg.numCommitsPerSchedule).map TrustedCommit.reference ∧
    ScoringSubdag.new.addSubdags cfg.context subdags = .ok scoring ∧
    scoring.calculateDistributedVoteScores cfg.context = .ok scores

/-- The table that is in use after a number of windows. -/
def Installed (log : List TrustedCommit) : Nat → LeaderSwapTable → Prop
  | 0, table => table = LeaderSwapTable.empty
  | window + 1, table => ∃ scores, Scored cfg log window scores ∧
    LeaderSwapTable.new cfg.context cfg.shuffle cfg.swapStakeThreshold
      ((window + 1) * cfg.numCommitsPerSchedule) scores = .ok table

/-- A store with the commits of a log and the scores of its windows. -/
structure Persisted (store : Store) (log : List TrustedCommit) (closed : Nat) : Prop where
  commits : store.HoldsCommits log
  scored : ∀ (ref : CommitRef) (entry : CommitRef × CommitInfo),
    store.commitInfo[ref]? = some entry →
    ∃ window < closed, entry.1.index = (window + 1) * cfg.numCommitsPerSchedule ∧
      ref.index = (window + 1) * cfg.numCommitsPerSchedule ∧
      Scored cfg log window entry.2.reputationScores
  present : 0 < closed → ∃ ref ∈ store.commitInfo, ref.index = closed * cfg.numCommitsPerSchedule
  complete : closed * cfg.numCommitsPerSchedule ≤ log.length
  room : log.length ≤ closed * cfg.numCommitsPerSchedule + cfg.numCommitsPerSchedule

/-- The sub-dags of the commits since the last complete window are scored, or about to be, and
what the iteration may still commit fits into the window. -/
structure Tiled (core : ScheduledCore) (log : List TrustedCommit) (closed : Nat) : Prop where
  written : Persisted cfg core.state.written log closed
  stored : ∃ prev flushed, Persisted cfg core.state.store prev flushed ∧ prev <+: log
  lastCommit : core.state.lastCommit = log.getLast?
  size : core.schedule.numCommitsPerSchedule = cfg.numCommitsPerSchedule
  current : core.installed.getLast? = some core.schedule.leaderSwapTable
  installed : ∃ first, first + core.installed.length = closed + 1 ∧
    List.Forall₂ (Installed cfg log) (List.range' first core.installed.length)
      core.installed
  scored : ∃ subdags,
    ScoringSubdag.new.addSubdags cfg.context subdags = .ok core.state.scoringSubdag ∧
    (subdags ++ core.phase.pending).map CommittedSubDag.commitRef =
      (log.drop (closed * cfg.numCommitsPerSchedule)).map TrustedCommit.reference
  room : log.length + core.phase.reserved ≤
    closed * cfg.numCommitsPerSchedule + cfg.numCommitsPerSchedule
  limit : ∀ limit, core.phase = .deciding limit → 0 < limit

/-- The commits of the core are covered by windows, one after the other. -/
def Windowed (core : ScheduledCore) : Prop := ∃ log closed, Tiled cfg core log closed

end Windows

section Facts

variable {cfg : ScheduleSettings} {log later : List TrustedCommit} {window closed : Nat}
  {scores : ReputationScores} {table : LeaderSwapTable} {store other : Store}

lemma Scored.length (scored : Scored cfg log window scores) :
    (window + 1) * cfg.numCommitsPerSchedule ≤ log.length := by
  obtain ⟨subdags, scoring, length, refs, -⟩ := scored
  have taken := congrArg List.length refs
  rw [length_map, length, length_map, length_take, length_drop] at taken
  have pos := cfg.positive
  rw [Nat.succ_mul]
  omega

lemma Scored.append (scored : Scored cfg log window scores) (grown : log <+: later) :
    Scored cfg later window scores := by
  have length := scored.length
  obtain ⟨subdags, scoring, count, refs, added, calculated⟩ := scored
  obtain ⟨rest, rfl⟩ := grown
  refine ⟨subdags, scoring, count, ?_, added, calculated⟩
  rw [Nat.succ_mul] at length
  rw [refs, drop_append_of_le_length (by omega),
    take_append_of_le_length (by rw [length_drop]; omega)]

lemma Installed.append (installed : Installed cfg log window table)
    (grown : log <+: later) : Installed cfg later window table := by
  cases window with
  | zero => exact installed
  | succ window =>
    obtain ⟨scores, scored, built⟩ := installed
    exact ⟨scores, scored.append grown, built⟩

lemma Scored.range (numbered : Numbered log) (scored : Scored cfg log window scores) :
    scores.commitRange = ⟨window * cfg.numCommitsPerSchedule + 1,
        (window + 1) * cfg.numCommitsPerSchedule + 1⟩ ∧
      scores.scoresPerAuthority.length = cfg.context.committee.size := by
  have length := scored.length
  obtain ⟨subdags, scoring, count, refs, added, calculated⟩ := scored
  have follow : subdags.map (fun dag => dag.commitRef.index) =
      range' (window * cfg.numCommitsPerSchedule + 1 + 0) subdags.length := by
    have indices := congrArg (List.map CommitRef.index) refs
    rw [List.map_map, List.map_map] at indices
    refine indices.trans ?_
    rw [count]
    exact numbered.map_index_window (by rw [Nat.succ_mul] at length; exact length)
  have covers := (ScoringSubdag.addSubdags_covers (ScoringSubdag.new_covers _) follow).of_ok added
  rw [count, Nat.zero_add] at covers
  rw [ScoringSubdag.calculate_eq covers cfg.positive] at calculated
  cases calculated
  refine ⟨?_, ?_⟩
  · have stop : window * cfg.numCommitsPerSchedule + 1 + cfg.numCommitsPerSchedule =
        (window + 1) * cfg.numCommitsPerSchedule + 1 := by
      rw [Nat.succ_mul]
      omega
    rw [stop]
  · simp [ScoringSubdag.distributedVotesScores, Committee.indices]

lemma LeaderSwapTable.new_range {commitIndex : CommitIndex}
    (built : LeaderSwapTable.new cfg.context cfg.shuffle cfg.swapStakeThreshold
      commitIndex scores = .ok table) :
    table.reputationScores.commitRange =
      if scores.scoresPerAuthority.length = 0 then ⟨0, 0⟩ else scores.commitRange := by
  unfold LeaderSwapTable.new at built
  obtain ⟨-, built⟩ := ensure_bind_eq_ok.mp built
  split at built
  · rename_i none
    cases built
    rw [if_pos (length_eq_zero_iff.mpr (List.isEmpty_iff.mp none))]
    rfl
  · rename_i some
    obtain ⟨byScore, -, built⟩ := bind_eq_ok.mp built
    obtain ⟨-, built⟩ := ensure_bind_eq_ok.mp built
    obtain ⟨goodNodes, -, built⟩ := bind_eq_ok.mp built
    obtain ⟨badNodes, -, built⟩ := bind_eq_ok.mp built
    cases built
    rw [if_neg fun none => some (List.isEmpty_iff.mpr (length_eq_zero_iff.mp none))]

lemma updateLeaderSwapTable_eq {sched : LeaderSchedule} {next : LeaderSwapTable}
    (numbered : Numbered log)
    (current : Installed cfg log window sched.leaderSwapTable)
    (replaced : Installed cfg log (window + 1) next) :
    sched.updateLeaderSwapTable next = .ok { sched with leaderSwapTable := next } := by
  unfold LeaderSchedule.updateLeaderSwapTable
  dsimp only
  rw [ensure_holds]
  · rfl
  obtain ⟨scores, scored, built⟩ := replaced
  obtain ⟨range, length⟩ := scored.range numbered
  rw [LeaderSwapTable.new_range built, length, range]
  cases window with
  | zero =>
    intro changed
    rw [show sched.leaderSwapTable = LeaderSwapTable.empty from current] at changed
    exact absurd rfl changed
  | succ window =>
    obtain ⟨oldScores, oldScored, oldBuilt⟩ := current
    obtain ⟨oldRange, oldLength⟩ := oldScored.range numbered
    rw [LeaderSwapTable.new_range oldBuilt, oldLength, oldRange]
    intro changed
    have members : cfg.context.committee.size ≠ 0 := by
      intro none
      rw [if_pos none] at changed
      exact changed rfl
    rw [if_neg members, if_neg members]
    simp only [CommitRange.isNextRange, CommitRange.isEqualSize, CommitRange.size,
      Nat.succ_mul, beq_self_eq_true, Bool.true_and, beq_iff_eq]
    omega

namespace Persisted

lemma congr (persisted : Persisted cfg store log closed)
    (commits : other.commits = store.commits) (infos : other.commitInfo = store.commitInfo) :
    Persisted cfg other log closed where
  commits := persisted.commits.congr commits
  scored := by rw [infos]; exact persisted.scored
  present := by rw [infos]; exact persisted.present
  complete := persisted.complete
  room := persisted.room

lemma empty : Persisted cfg Store.empty [] 0 where
  commits := .empty
  scored ref entry got := by simp [Store.empty] at got
  present pos := absurd pos (Nat.lt_irrefl 0)
  complete := by simp
  room := by simp

variable (persisted : Persisted cfg store log closed)

include persisted

lemma append {commit : TrustedCommit} (next : commit.index = log.length + 1)
    (room : log.length + 1 ≤ closed * cfg.numCommitsPerSchedule + cfg.numCommitsPerSchedule)
    (commits : other.commits = store.commits.insert commit.reference commit)
    (infos : other.commitInfo = store.commitInfo) :
    Persisted cfg other (log ++ [commit]) closed where
  commits := persisted.commits.insert next commits
  scored ref entry got := by
    rw [infos] at got
    obtain ⟨window, pre, idx, key, scored⟩ := persisted.scored ref entry got
    exact ⟨window, pre, idx, key, scored.append (prefix_append log [commit])⟩
  present := by rw [infos]; exact persisted.present
  complete := by
    have complete := persisted.complete
    rw [length_append]
    omega
  room := by rw [length_append]; exact room

lemma close {last : CommitRef} {info : CommitInfo}
    (full : log.length = (closed + 1) * cfg.numCommitsPerSchedule)
    (idx : last.index = log.length) (scored : Scored cfg log closed info.reputationScores)
    (commits : other.commits = store.commits)
    (infos : other.commitInfo = store.commitInfo.insert last (last, info)) :
    Persisted cfg other log (closed + 1) where
  commits := persisted.commits.congr commits
  scored ref entry got := by
    rw [infos] at got
    rcases getElem?_insert_cases got with ⟨rfl, rfl⟩ | ⟨-, got⟩
    · exact ⟨closed, Nat.lt_succ_self closed, idx.trans full, idx.trans full, scored⟩
    · obtain ⟨window, pre, rest⟩ := persisted.scored ref entry got
      exact ⟨window, Nat.lt_succ_of_lt pre, rest⟩
  present _ := ⟨last, by rw [infos, mem_insertKey_iff]; exact .inl rfl, idx.trans full⟩
  complete := full.ge
  room := by omega

lemma readLastCommitInfo_eq :
    (closed = 0 ∧ store.readLastCommitInfo = none) ∨
      ∃ window ref info, closed = window + 1 ∧
        store.readLastCommitInfo = some (ref, info) ∧
        ref.index = closed * cfg.numCommitsPerSchedule ∧
        Scored cfg log window info.reputationScores := by
  unfold Store.readLastCommitInfo
  cases last : lastKey store.commitInfo with
  | none =>
    refine .inl ⟨?_, rfl⟩
    by_contra some
    obtain ⟨ref, mem, -⟩ := persisted.present (Nat.pos_of_ne_zero some)
    exact lastKey_eq_none_iff.mp last ref mem
  | some key =>
    right
    obtain ⟨mem, greatest⟩ := lastKey_eq_some_iff.mp last
    obtain ⟨⟨ref, info⟩, got⟩ := getElem?_of_mem mem
    obtain ⟨window, pre, idx, keyIndex, scored⟩ := persisted.scored key _ got
    obtain ⟨final, listed, finalIndex⟩ := persisted.present (Nat.zero_lt_of_lt pre)
    have below : closed * cfg.numCommitsPerSchedule ≤ (window + 1) * cfg.numCommitsPerSchedule := by
      rw [← finalIndex, ← keyIndex]
      exact CommitRef.index_le_of_isLE (greatest final listed)
    have closedEq : closed = window + 1 :=
      Nat.le_antisymm (Nat.le_of_mul_le_mul_right below cfg.positive) pre
    exact ⟨window, ref, info, closedEq, got, by rw [closedEq]; exact idx, scored⟩

end Persisted

end Facts

def DagState.recorded (st : DagState) (last : TrustedCommit) (scores : ReputationScores) :
    DagState :=
  { st with
    scoringSubdag := ScoringSubdag.new
    commitInfoToWrite := st.commitInfoToWrite ++
      [(last.reference, ⟨st.lastCommittedRounds, scores⟩)] }

namespace LeaderSchedule

variable {ctx : Context} {swapStakeThreshold : Nat} {sched : LeaderSchedule}
  {shuffle : CommitIndex → List (AuthorityIndex × Nat) → List (AuthorityIndex × Nat)}
  {st : DagState} {scores : ReputationScores} {range : CommitRange} {last : TrustedCommit}

lemma addCommitInfo_eq (isLast : st.lastCommit = some last) :
    st.clearScoringSubdag.addCommitInfo scores = .ok (st.recorded last scores) := by
  have cleared : st.clearScoringSubdag.scoringSubdag.isEmpty = true := by
    simp [DagState.clearScoringSubdag, ScoringSubdag.new, ScoringSubdag.isEmpty]
  have kept : expect st.clearScoringSubdag.lastCommit Panic.lastCommitUnset = .ok last := by
    rw [show st.clearScoringSubdag.lastCommit = some last from isLast, expect_some]
  unfold DagState.addCommitInfo
  rw [ensure_holds _ cleared, ok_bind, kept, ok_bind]
  rfl

lemma commitsUntil_eq {first count : Nat} (covers : st.scoringSubdag.Covers first count)
    (fits : count ≤ sched.numCommitsPerSchedule) :
    sched.commitsUntilLeaderScheduleUpdate st = .ok (sched.numCommitsPerSchedule - count) := by
  unfold commitsUntilLeaderScheduleUpdate
  rw [ScoringSubdag.scoredSubdagsCount_eq covers, ensure_holds _ fits]
  rfl

lemma updateLeaderScheduleV2_eq
    (calculated : st.scoringSubdag.calculateDistributedVoteScores ctx = .ok scores)
    (ranged : st.scoringSubdag.commitRange = some range)
    (isLast : st.lastCommit = some last) :
    sched.updateLeaderScheduleV2 ctx shuffle swapStakeThreshold st =
      LeaderSwapTable.new ctx shuffle swapStakeThreshold range.last scores >>= fun table =>
        sched.updateLeaderSwapTable table >>= fun updated =>
          .ok (updated, st.recorded last scores) := by
  unfold updateLeaderScheduleV2
  rw [calculated, ok_bind, ranged, expect_some, ok_bind, addCommitInfo_eq isLast, ok_bind]
  rfl

end LeaderSchedule

section Restart

variable {cfg : ScheduleSettings} {ctx : Context} {store : Store}
  {pre post st : DagState} {log : List TrustedCommit} {closed : Nat}

lemma DagState.Flagged.sameLog (flagged : pre.Flagged post) : pre.SameLog post := by
  rw [flagged.frame]
  exact ⟨rfl, rfl, rfl, rfl, rfl⟩

lemma DagState.new_sameLog (run : DagState.new ctx store = .ok st) :
    ∃ rounds subdags scoringSubdag,
      DagState.replayCommits ctx store = .ok (rounds, subdags) ∧
      ScoringSubdag.new.addSubdags ctx subdags = .ok scoringSubdag ∧
      (DagState.unloaded store rounds scoringSubdag).SameLog st := by
  unfold DagState.new at run
  obtain ⟨⟨rounds, subdags⟩, replayed, run⟩ := bind_eq_ok.mp run
  obtain ⟨scoringSubdag, scored, run⟩ := bind_eq_ok.mp run
  obtain ⟨loaded, loading, run⟩ := bind_eq_ok.mp run
  obtain ⟨flagged, flags, run⟩ := bind_eq_ok.mp run
  have loads : (DagState.unloaded store rounds scoringSubdag).SameLog loaded := by
    refine foldlM_preserves loading (.refl _) fun mid auth next _ prev stepped => ?_
    have reread := DagState.reread_of_foldlM stepped
    refine prev.trans ?_
    rw [reread.frame]
    exact ⟨rfl, rfl, rfl, rfl, rfl⟩
  have relinked : flagged.Flagged st :=
    foldlM_preserves run (.refl flagged) fun _ _ _ _ prev stepped =>
      prev.trans (DagState.relinkBlock_flagged stepped)
  have marked := (DagState.recoverCommitted_flagged flags).trans relinked
  exact ⟨rounds, subdags, scoringSubdag, replayed, scored, loads.trans marked.sameLog⟩

lemma replayed_references {commits : List TrustedCommit}
    {replayed res : (AuthorityIndex → Round) × List CommittedSubDag}
    (run : commits.foldlM (DagState.replayCommit ctx store) replayed = .ok res) :
    res.2.map CommittedSubDag.commitRef =
      replayed.2.map CommittedSubDag.commitRef ++ commits.map TrustedCommit.reference := by
  induction commits generalizing replayed with
  | nil =>
    obtain rfl : replayed = res := Except.ok.inj run
    simp
  | cons commit rest ih =>
    rw [foldlM_cons, bind_eq_ok] at run
    obtain ⟨next, stepped, run⟩ := run
    obtain ⟨rounds, -, stepped⟩ := bind_eq_ok.mp stepped
    obtain ⟨dag, loaded, stepped⟩ := bind_eq_ok.mp stepped
    cases stepped
    have ref : dag.commitRef = commit.reference := by
      obtain ⟨blocks, -, loaded⟩ := bind_eq_ok.mp loaded
      obtain ⟨-, loaded⟩ := ensure_bind_eq_ok.mp loaded
      cases loaded
      split
      · rfl
      · rfl
    rw [ih run]
    simp [ref]

lemma Persisted.replayCommits_references (persisted : Persisted cfg store log closed)
    {rounds : AuthorityIndex → Round} {subdags : List CommittedSubDag}
    (run : DagState.replayCommits ctx store = .ok (rounds, subdags)) :
    subdags.map CommittedSubDag.commitRef =
      (log.drop (closed * cfg.numCommitsPerSchedule)).map TrustedCommit.reference := by
  have replayStart : (DagState.replayStart store).2 = closed * cfg.numCommitsPerSchedule + 1 := by
    unfold DagState.replayStart
    obtain ⟨none, read⟩ | ⟨window, ref, info, -, read, idx, -⟩ := persisted.readLastCommitInfo_eq
    · rw [read, none, Nat.zero_mul]
    · rw [read]
      exact congrArg (· + 1) idx
  have lastIndex := persisted.commits.numbered.index_getLast?
  unfold DagState.replayCommits at run
  rw [persisted.commits.readLastCommit_eq, replayStart] at run
  cases last : log.getLast? with
  | none =>
    rw [last] at run
    cases run
    rw [getLast?_eq_none_iff.mp last]
    simp
  | some commit =>
    rw [last] at run lastIndex
    have idx : commit.index = log.length := lastIndex
    simp only [idx, persisted.commits.scanCommits_eq_drop] at run
    exact replayed_references run

lemma Persisted.restart {core : ScheduledCore}
    (persisted : Persisted cfg core.state.store log closed) :
    Meets Panic.Elsewhere (fun next => Tiled cfg next log closed)
      (core.restart cfg) := by
  have complete := persisted.complete
  have recovers : Within Panic.Elsewhere (DagState.new cfg.context core.state.store) := by
    refine DagState.new_within fun rounds subdags replayed => ?_
    have refs := persisted.replayCommits_references replayed
    have indices := congrArg (List.map CommitRef.index) refs
    have length := congrArg List.length refs
    rw [length_map, length_map, length_drop] at length
    have window := @Numbered.map_index_window _ persisted.commits.numbered
      (closed * cfg.numCommitsPerSchedule) subdags.length (by omega)
    rw [take_of_length_le (by rw [length_drop]; omega)] at window
    rw [List.map_map, List.map_map] at indices
    exact (ScoringSubdag.addSubdags_covers (ScoringSubdag.new_covers _)
      (indices.trans window)).within
  refine Meets.bind (recovers.meets fun _ run => run) fun st _ run => ?_
  obtain ⟨rounds, subdags, scoringSubdag, replayed, scored, same⟩ := DagState.new_sameLog run
  have sameStore : st.store = core.state.store := same.store
  have installs : Meets Panic.Elsewhere (fun sched =>
      sched.numCommitsPerSchedule = cfg.numCommitsPerSchedule ∧
        Installed cfg log closed sched.leaderSwapTable)
      (LeaderSchedule.fromStore cfg.context cfg.shuffle cfg.swapStakeThreshold
        cfg.numCommitsPerSchedule st) := by
    unfold LeaderSchedule.fromStore
    rw [sameStore]
    obtain ⟨none, read⟩ | ⟨window, ref, info, rfl, read, idx, scores⟩ :=
      persisted.readLastCommitInfo_eq
    · rw [read, none]
      exact ⟨rfl, rfl⟩
    · rw [read]
      refine Meets.bind (LeaderSwapTable.new_within.meets fun _ built => built)
        fun table _ built => ⟨rfl, info.reputationScores, scores, ?_⟩
      rw [← idx]
      exact built
  refine installs.bind fun sched _ installed => ?_
  have written := persisted.congr same.written_commits same.written_commitInfo
  exact {
    written := written
    stored := ⟨log, closed, by rw [sameStore]; exact persisted, prefix_rfl⟩
    lastCommit := same.lastCommit.trans persisted.commits.readLastCommit_eq
    size := installed.1
    current := rfl
    installed := ⟨closed, rfl, .cons installed.2 .nil⟩
    scored := by
      refine ⟨subdags, ?_, ?_⟩
      · rw [same.scoringSubdag]
        exact scored
      · show (subdags ++ []).map CommittedSubDag.commitRef = _
        rw [append_nil]
        exact persisted.replayCommits_references replayed
    room := persisted.room
    limit := fun _ same => CommitPhase.noConfusion same }

end Restart

namespace Tiled

variable {cfg : ScheduleSettings} {core : ScheduledCore} {log : List TrustedCommit}
  {closed : Nat}

section

variable (tiled : Tiled cfg core log closed)

include tiled

lemma covers :
    ∃ count, core.state.scoringSubdag.Covers
        (closed * cfg.numCommitsPerSchedule + 1) count ∧
      closed * cfg.numCommitsPerSchedule + count + core.phase.pending.length = log.length ∧
      core.phase.pending.map (fun subDag => subDag.commitRef.index) =
        range' (closed * cfg.numCommitsPerSchedule + 1 + count)
          core.phase.pending.length := by
  have numbered := tiled.written.commits.numbered
  have complete := tiled.written.complete
  obtain ⟨subdags, added, refs⟩ := tiled.scored
  have length := congrArg List.length refs
  rw [length_map, length_append, length_map, length_drop] at length
  have indices := congrArg (List.map CommitRef.index) refs
  rw [List.map_map, List.map_map] at indices
  have window := @Numbered.map_index_window _ numbered
    (closed * cfg.numCommitsPerSchedule) (subdags.length + core.phase.pending.length)
    (by omega)
  rw [take_of_length_le (by rw [length_drop]; omega)] at window
  have consecutive := indices.trans window
  rw [map_append, ← range'_append_1] at consecutive
  obtain ⟨first, rest⟩ := append_inj consecutive (by simp)
  have covers := (ScoringSubdag.addSubdags_covers (ScoringSubdag.new_covers _) first).of_ok added
  rw [Nat.zero_add] at covers
  exact ⟨subdags.length, covers, by omega, rest⟩

lemma scoredSubdagsCount_le :
    core.state.scoringSubdag.scoredSubdagsCount ≤ cfg.numCommitsPerSchedule := by
  obtain ⟨count, covers, length, -⟩ := tiled.covers
  have room := tiled.room
  rw [ScoringSubdag.scoredSubdagsCount_eq covers]
  omega

lemma withPhase {phase : CommitPhase} (pending : phase.pending = core.phase.pending)
    (room : log.length + phase.reserved ≤
      closed * cfg.numCommitsPerSchedule + cfg.numCommitsPerSchedule)
    (limit : ∀ limit, phase = .deciding limit → 0 < limit) :
    Tiled cfg { core with phase } log closed :=
  { tiled with
    scored := by rw [pending]; exact tiled.scored
    room := room
    limit := limit }

lemma currentTable : Installed cfg log closed core.schedule.leaderSwapTable := by
  obtain ⟨first, count, tables⟩ := tiled.installed
  have current := tiled.current
  rw [getLast?_eq_getElem?] at current
  have inside : core.installed.length - 1 < core.installed.length := by
    by_contra empty
    rw [getElem?_eq_none (by omega)] at current
    cases current
  have here := List.Forall₂.get tables (i := core.installed.length - 1)
    (by simpa using inside) inside
  rw [getElem?_eq_getElem inside, Option.some.injEq] at current
  simp only [get_eq_getElem, getElem_range'_1] at here
  rw [current, show first + (core.installed.length - 1) = closed by omega] at here
  exact here

lemma windowScores (idle : core.phase = .idle)
    (covers : core.state.scoringSubdag.Covers (closed * cfg.numCommitsPerSchedule + 1)
      cfg.numCommitsPerSchedule) :
    ∃ scores last,
      core.state.scoringSubdag.calculateDistributedVoteScores cfg.context = .ok scores ∧
      core.state.lastCommit = some last ∧ last.index = log.length ∧
      Scored cfg log closed scores := by
  have pos := cfg.positive
  have complete := tiled.written.complete
  obtain ⟨count, covered, length, -⟩ := tiled.covers
  have same : count = cfg.numCommitsPerSchedule := by
    rw [← ScoringSubdag.scoredSubdagsCount_eq covered, ScoringSubdag.scoredSubdagsCount_eq covers]
  rw [idle, show CommitPhase.idle.pending.length = 0 from rfl, Nat.add_zero, same] at length
  have nonempty : log ≠ [] := ne_nil_of_length_pos (by omega)
  have isLast : core.state.lastCommit = some (log.getLast nonempty) := by
    rw [tiled.lastCommit, getLast?_eq_some_getLast nonempty]
  have calculated := @ScoringSubdag.calculate_eq cfg.context _ _ _ covers pos
  refine ⟨_, log.getLast nonempty, calculated, isLast, ?_, ?_⟩
  · rw [← tiled.written.commits.numbered.index_getLast?, ← tiled.lastCommit, isLast]
    rfl
  · obtain ⟨subdags, added, refs⟩ := tiled.scored
    rw [idle, show CommitPhase.idle.pending = [] from rfl, append_nil] at refs
    have whole : (log.drop (closed * cfg.numCommitsPerSchedule)).length =
        cfg.numCommitsPerSchedule := by
      rw [length_drop]
      omega
    refine ⟨subdags, _, ?_, ?_, added, calculated⟩
    · have lengths := congrArg List.length refs
      rw [length_map, length_map, whole] at lengths
      exact lengths
    · rw [take_of_length_le whole.le]
      exact refs

lemma changeSchedule (idle : core.phase = .idle)
    (covers : core.state.scoringSubdag.Covers (closed * cfg.numCommitsPerSchedule + 1)
      cfg.numCommitsPerSchedule)
    (closes : log.length = (closed + 1) * cfg.numCommitsPerSchedule) :
    Meets Panic.Elsewhere (fun prepared => 0 < prepared.2 ∧
      Tiled cfg { prepared.1 with phase := .deciding prepared.2 } log (closed + 1))
      (core.changeSchedule cfg) := by
  have numbered := tiled.written.commits.numbered
  have pos := cfg.positive
  obtain ⟨scores, last, calculated, isLast, lastIndex, scored⟩ := tiled.windowScores idle covers
  have range : core.state.scoringSubdag.commitRange =
      some ⟨closed * cfg.numCommitsPerSchedule + 1,
        (closed + 1) * cfg.numCommitsPerSchedule + 1⟩ := by
    rw [covers, if_neg pos.ne', Nat.succ_mul, Nat.add_right_comm]
  unfold ScheduledCore.changeSchedule
  rw [LeaderSchedule.updateLeaderScheduleV2_eq calculated range isLast, bind_assoc]
  refine Meets.bind (LeaderSwapTable.new_within.meets fun _ built => built) fun table _ built => ?_
  have next : Installed cfg log (closed + 1) table := ⟨scores, scored, built⟩
  rw [updateLeaderSwapTable_eq numbered tiled.currentTable next]
  have emptied : (core.state.recorded last scores).scoringSubdag.Covers 0 0 := rfl
  rw [ok_bind, ok_bind, LeaderSchedule.commitsUntil_eq emptied (Nat.zero_le _), ok_bind]
  refine ⟨by rw [Nat.sub_zero, tiled.size]; exact pos, ?_⟩
  obtain ⟨first, total, tables⟩ := tiled.installed
  exact { tiled with
    written := @Persisted.close cfg log closed _ _ tiled.written
      last.reference ⟨core.state.lastCommittedRounds, scores⟩ closes lastIndex scored rfl
      (by simp [DagState.written, DagState.recorded, Store.write, insertAll])
    current := by simp
    installed := by
      refine ⟨first, by rw [length_append, length_singleton]; omega, ?_⟩
      simp only [length_append, length_singleton, range'_1_concat]
      refine rel_append tables ?_
      rw [show first + core.installed.length = closed + 1 from total]
      exact .cons next .nil
    scored := by
      refine ⟨[], rfl, ?_⟩
      rw [drop_of_length_le closes.le]
      rfl
    room := by
      show log.length + (core.schedule.numCommitsPerSchedule - 0) ≤ _
      rw [closes, tiled.size, Nat.sub_zero]
    limit := by
      rintro limit ⟨⟩
      rw [Nat.sub_zero, tiled.size]
      exact pos }

lemma beginIteration (idle : core.phase = .idle) :
    Meets Panic.Elsewhere (fun next => ∃ windows, Tiled cfg next log windows)
      (core.beginIteration cfg) := by
  obtain ⟨count, covers, length, -⟩ := tiled.covers
  have room := tiled.room
  rw [idle, show CommitPhase.idle.pending.length = 0 from rfl, Nat.add_zero] at length
  have fits : count ≤ core.schedule.numCommitsPerSchedule := by
    rw [tiled.size]
    omega
  have opened : Meets Panic.Elsewhere (fun prepared => 0 < prepared.2 ∧ ∃ windows,
      Tiled cfg { prepared.1 with phase := .deciding prepared.2 } log windows)
      (core.openWindow cfg) := by
    unfold ScheduledCore.openWindow
    rw [LeaderSchedule.commitsUntil_eq covers fits, ok_bind, tiled.size]
    by_cases full : cfg.numCommitsPerSchedule - count = 0
    · rw [if_pos full]
      have whole : count = cfg.numCommitsPerSchedule := by
        rw [tiled.size] at fits
        omega
      rw [whole] at covers length
      refine (tiled.changeSchedule idle covers ?_).imp fun prepared _ kept => ⟨kept.1, _, kept.2⟩
      rw [Nat.succ_mul, length]
    · rw [if_neg full]
      refine ⟨Nat.pos_of_ne_zero full, closed, tiled.withPhase (by rw [idle]; rfl) ?_ ?_⟩
      · show log.length + (cfg.numCommitsPerSchedule - count) ≤ _
        omega
      · rintro limit ⟨⟩
        exact Nat.pos_of_ne_zero full
  refine opened.bind fun prepared _ kept => ?_
  rw [ensure_holds _ kept.1]
  exact kept.2

lemma sequence {limit : Nat} (deciding : core.phase = .deciding limit) {decidedLocally : Bool}
    {decided : List DecidedLeader} (most : decided.length ≤ limit) :
    Tiled cfg (core.sequence decidedLocally decided) log closed := by
  have room := tiled.room
  rw [deciding, show (CommitPhase.deciding limit).reserved = limit from rfl] at room
  have fewer := length_filterMap_le DecidedLeader.intoCommittedBlock decided
  unfold ScheduledCore.sequence
  dsimp only
  split
  · refine tiled.withPhase (by rw [deciding]; rfl) ?_ fun _ same => CommitPhase.noConfusion same
    exact Nat.le_trans (Nat.le_add_right _ limit) room
  · refine tiled.withPhase (by rw [deciding]; rfl) ?_ fun _ same => CommitPhase.noConfusion same
    show log.length + (decided.filterMap DecidedLeader.intoCommittedBlock).length ≤ _
    omega

lemma takeCertified {limit : Nat} (deciding : core.phase = .deciding limit)
    (certified : List CertifiedCommit) :
    Meets Panic.Elsewhere (fun next => Tiled cfg next log closed)
      (core.takeCertified certified limit) := by
  unfold ScheduledCore.takeCertified Core.trySelectCertifiedLeaders
  rw [ensure_holds _ (tiled.limit limit deciding), ok_bind]
  have selects : Within Panic.Elsewhere ((certified.take limit).mapM fun commit => (do
      let leader ← expect commit.blocks.getLast? .certifiedCommitEmpty
      ensure (leader.reference = commit.commit.leader)
        (.certifiedLeaderNotLast commit.commit.leader)
      pure (DecidedLeader.commit leader false, commit))) :=
    .mapM fun _ => .bind (.expect rfl) fun _ => .bind (.ensure rfl) fun _ => .ok _
  refine Meets.bind (selects.meets fun _ run => run) fun selected _ run => ?_
  have length := (mapM_eq_ok.mp run).length_eq
  rw [length_take] at length
  show Tiled cfg (if selected.isEmpty then core else _) log closed
  split
  · exact tiled
  · exact tiled.sequence deciding (by rw [length_map]; omega)

lemma commitLeader {decidedLocally : Bool} {leader : VerifiedBlock}
    {leaders : List VerifiedBlock} {subDags : List CommittedSubDag}
    (committing : core.phase = .committing decidedLocally (leader :: leaders) subDags) :
    Meets Panic.Elsewhere (fun next => ∃ commit, Tiled cfg next (log ++ [commit]) closed)
      (core.commitLeader cfg decidedLocally leader leaders subDags) := by
  have numbered := tiled.written.commits.numbered
  have complete := tiled.written.complete
  have room := tiled.room
  rw [committing, show (CommitPhase.committing decidedLocally (leader :: leaders)
    subDags).reserved = leaders.length + 1 from rfl] at room
  refine Meets.bind (Linearizer.commitLeader_within.meets fun _ run => run) ?_
  rintro ⟨collected, st⟩ _ run
  obtain ⟨subDag, commit, rfl, appended⟩ := Linearizer.commitLeader_appended run
  obtain ⟨lined, rounds, flagged, rfl⟩ := appended.effect
  have next : commit.index = log.length + 1 := by
    rw [appended.index, DagState.lastCommitIndex, tiled.lastCommit, numbered.index_getLast?]
  have grown := prefix_append log [commit]
  obtain ⟨prev, flushed, stored, pre⟩ := tiled.stored
  obtain ⟨first, total, tables⟩ := tiled.installed
  obtain ⟨subdags, added, refs⟩ := tiled.scored
  rw [flagged.frame]
  refine ⟨commit, { tiled with
    written := tiled.written.append next (by omega)
      (by simp [DagState.written, Store.write, insertAll]) rfl
    stored := ⟨prev, flushed, stored, pre.trans grown⟩
    lastCommit := by simp
    installed := ⟨first, total, tables.imp fun _ _ installed => installed.append grown⟩
    scored := ⟨subdags, added, ?_⟩
    room := ?_
    limit := fun _ same => CommitPhase.noConfusion same }⟩
  · show (subdags ++ (subDags ++ [subDag])).map CommittedSubDag.commitRef = _
    rw [committing, show (CommitPhase.committing decidedLocally (leader :: leaders)
      subDags).pending = subDags from rfl] at refs
    rw [← append_assoc, map_append, refs,
      drop_append_of_le_length complete, map_append, map_singleton,
      map_singleton, appended.reference]
  · show (log ++ [commit]).length + leaders.length ≤ _
    rw [length_append, length_singleton]
    omega

lemma scoreSubDags {decidedLocally : Bool} {subDags : List CommittedSubDag}
    (committing : core.phase = .committing decidedLocally [] subDags) :
    Meets Panic.Elsewhere (fun next => Tiled cfg next log closed)
      (core.scoreSubDags cfg decidedLocally subDags) := by
  obtain ⟨count, covers, -, follow⟩ := tiled.covers
  rw [committing, show (CommitPhase.committing decidedLocally [] subDags).pending = subDags
    from rfl] at follow
  have marked : Meets Panic.Elsewhere _ (core.state.scoringSubdag.addSubdags cfg.context
      (subDags.map fun subDag => { subDag with decidedWithLocalBlocks := decidedLocally })) :=
    ScoringSubdag.addSubdags_covers covers (by
      rw [List.map_map, length_map, ← follow]
      rfl)
  unfold ScheduledCore.scoreSubDags DagState.addScoringSubdags
  rw [bind_assoc]
  refine marked.bind fun scoring run _ => ?_
  obtain ⟨subdags, added, refs⟩ := tiled.scored
  have room := tiled.room
  exact { tiled with
    scored := by
      refine ⟨subdags ++ subDags.map fun subDag =>
        { subDag with decidedWithLocalBlocks := decidedLocally }, ?_, ?_⟩
      · rw [ScoringSubdag.addSubdags_append, added, ok_bind]
        exact run
      · rw [committing] at refs
        rw [← refs, CommitPhase.pending, append_nil, map_append, map_append, List.map_map]
        rfl
    room := by
      rw [committing] at room
      exact room
    limit := fun _ same => CommitPhase.noConfusion same }

lemma sameLog {st : DagState} (same : core.state.SameLog st) :
    Tiled cfg { core with state := st } log closed :=
  { tiled with
    written := tiled.written.congr same.written_commits same.written_commitInfo
    stored := by rw [same.store]; exact tiled.stored
    lastCommit := same.lastCommit.trans tiled.lastCommit
    scored := by rw [same.scoringSubdag]; exact tiled.scored }

lemma flush : Tiled cfg { core with state := core.state.flush cfg.context } log closed := by
  have emptied := core.state.flush_emptied cfg.context
  have stored : Persisted cfg (core.state.flush cfg.context).store log closed :=
    tiled.written.congr emptied.commits emptied.commitInfo
  exact { tiled with
    written := stored.congr
      (by simp [DagState.written, Store.write, emptied.noCommits, insertAll])
      (by simp [DagState.written, Store.write, emptied.noCommitInfo, insertAll])
    stored := ⟨log, closed, stored, prefix_rfl⟩
    lastCommit := emptied.lastCommit.trans tiled.lastCommit
    scored := by rw [emptied.scoringSubdag]; exact tiled.scored }

lemma recoverCommitsToWrite (first last : CommitIndex) :
    Tiled cfg { core with
      state := core.state.recoverCommitsToWrite (core.state.store.scanCommits first last) }
      log closed := by
  obtain ⟨prev, flushed, stored, pre⟩ := tiled.stored
  have listed : ∀ commit ∈ core.state.store.scanCommits first last, commit ∈ log := by
    intro commit mem
    rw [stored.commits.scanCommits_eq] at mem
    exact pre.subset (mem_of_mem_filter mem)
  have commits : (core.state.recoverCommitsToWrite
      (core.state.store.scanCommits first last)).written.HoldsCommits log :=
    tiled.written.commits.insertAll listed
      (by simp [DagState.written, DagState.recoverCommitsToWrite, Store.write, insertAll])
  exact { tiled with written := { tiled.written with commits } }

end

lemma start (cfg : ScheduleSettings) : Tiled cfg (ScheduledCore.start cfg) [] 0 where
  written := Persisted.empty.congr rfl rfl
  stored := ⟨[], 0, .empty, prefix_rfl⟩
  lastCommit := rfl
  size := rfl
  current := rfl
  installed := ⟨0, rfl, .cons rfl .nil⟩
  scored := ⟨[], rfl, by simp [ScheduledCore.start, CommitPhase.pending]⟩
  room := by simp [ScheduledCore.start, CommitPhase.reserved]
  limit := fun _ same => CommitPhase.noConfusion same

lemma perform (tiled : Tiled cfg core log closed) {act : CoreAction}
    {outcome : Except Panic ScheduledCore}
    (done : core.perform cfg act = some outcome) :
    Meets Panic.Elsewhere (Windowed cfg) outcome := by
  have unlogged : ∀ computed : Except Panic DagState,
      Meets Panic.Elsewhere (fun st => core.state.SameLog st) computed →
      Meets Panic.Elsewhere (Windowed cfg) (core.onState computed) := fun computed meets =>
    meets.bind fun st _ same => ⟨log, closed, tiled.sameLog same⟩
  cases act with
  | beginIteration =>
    rw [ScheduledCore.perform] at done
    split at done
    · rename_i idle
      cases done
      exact (tiled.beginIteration idle).imp fun _ _ kept => ⟨log, kept⟩
    · cases done
  | takeCertified certified =>
    rw [ScheduledCore.perform] at done
    split at done
    · rename_i limit deciding
      cases done
      exact (tiled.takeCertified deciding certified).imp fun _ _ kept => ⟨log, closed, kept⟩
    · cases done
  | decideLocally decided =>
    rw [ScheduledCore.perform] at done
    split at done
    · rename_i limit deciding
      cases done
      exact ⟨log, closed, tiled.sequence deciding (by rw [length_take]; omega)⟩
    · cases done
  | commitLeader =>
    rw [ScheduledCore.perform] at done
    split at done
    · rename_i decidedLocally leader leaders subDags committing
      cases done
      refine (tiled.commitLeader committing).imp fun next _ kept => ?_
      obtain ⟨commit, kept⟩ := kept
      exact ⟨log ++ [commit], closed, kept⟩
    · cases done
  | scoreSubDags =>
    rw [ScheduledCore.perform] at done
    split at done
    · rename_i decidedLocally subDags committing
      cases done
      exact (tiled.scoreSubDags committing).imp fun _ _ kept => ⟨log, closed, kept⟩
    · cases done
  | acceptBlock blk =>
    cases done
    refine unlogged _ (DagState.acceptBlock_within.meets fun st run => ?_)
    obtain ⟨-, ⟨-, rfl⟩ | ⟨-, -, -, rfl⟩⟩ := DagState.acceptBlock_cases run
    · exact .refl _
    · exact ⟨rfl, rfl, rfl, rfl, rfl⟩
  | linkCausalHistory root =>
    cases done
    refine unlogged _ ?_
    have links : Meets Panic.Elsewhere (fun linked => core.state.SameLog linked.2)
        (core.state.linkCausalHistory cfg.context root) :=
      DagState.linkTargets_within.meets fun linked run =>
        (DagState.linkCausalHistory_flagged run).sameLog
    cases run : core.state.linkCausalHistory cfg.context root with
    | error panic => exact links.of_error run
    | ok linked => exact links.of_ok run
  | takeCommitVotes limit =>
    cases done
    exact unlogged (.ok _) ⟨rfl, rfl, rfl, rfl, rfl⟩
  | addFinalizedCommit commit rejected =>
    cases done
    exact unlogged (.ok _) ⟨rfl, rfl, rfl, rfl, rfl⟩
  | recoverCommitsToWrite first last =>
    cases done
    exact ⟨log, closed, tiled.recoverCommitsToWrite first last⟩
  | flush =>
    cases done
    exact ⟨log, closed, tiled.flush⟩
  | restart =>
    cases done
    obtain ⟨prev, flushed, stored, -⟩ := tiled.stored
    exact stored.restart.imp fun _ _ kept => ⟨prev, flushed, kept⟩

end Tiled

namespace ScheduledCore

variable {cfg : ScheduleSettings} {sched : List CoreAction} {reached : ScheduledCore}

lemma windowed_of_step {core next : ScheduledCore} {act : CoreAction}
    (windowed : Windowed cfg core) (stepped : core.step cfg act = some next) :
    Windowed cfg next := by
  obtain ⟨log, closed, tiled⟩ := windowed
  obtain ⟨outcome, done, ret⟩ := Option.bind_eq_some_iff.mp stepped
  exact (tiled.perform done).of_ok (toOption_eq_some.mp ret)

lemma windowed_of_run (ran : run (step cfg) (start cfg) sched = some reached) :
    Windowed cfg reached :=
  invariant (fun _ _ _ windowed _ => windowed_of_step windowed) ⟨[], 0, .start cfg⟩
    (@heeds_of_forall _ _ _ _ _ (fun _ => True) fun _ _ => trivial) ran

/-- In every state of a run at most as many sub-dags are scored as the schedule has commits; the
tables installed since the node started are those of consecutive windows of the log, the last of
them the one in use; and no action stops at an assertion on the schedule. -/
theorem windows_tile_commits
    (ran : run (step cfg) (start cfg) sched = some reached) :
    reached.state.scoringSubdag.scoredSubdagsCount ≤ cfg.numCommitsPerSchedule ∧
      (∃ log first, reached.state.written.HoldsCommits log ∧
        reached.state.lastCommit = log.getLast? ∧
        reached.installed.getLast? = some reached.schedule.leaderSwapTable ∧
        List.Forall₂ (Installed cfg log) (List.range' first reached.installed.length)
          reached.installed) ∧
      ∀ act panic, reached.perform cfg act = some (.error panic) →
        panic.ofSchedule = false := by
  obtain ⟨log, closed, tiled⟩ := windowed_of_run ran
  obtain ⟨first, -, tables⟩ := tiled.installed
  refine ⟨tiled.scoredSubdagsCount_le, ⟨log, first, tiled.written.commits, tiled.lastCommit,
    tiled.current, tables⟩, fun act panic done => ?_⟩
  exact (tiled.perform done).of_error rfl

def shortSettings : ScheduleSettings where
  context := Context.newForTest firstAuthority
  shuffle := fun _ scored => scored
  swapStakeThreshold := 20
  numCommitsPerSchedule := 2
  positive := by decide

theorem windows_tile_after_restart :
    let sched := DagState.threeRounds.map CoreAction.acceptBlock ++
      [.beginIteration, .decideLocally [.commit (testBlock 1 0 [0, 1, 2]) true,
        .commit (testBlock 2 1 [1, 0, 2]) true, .commit (testBlock 3 2 [2, 0, 1]) true],
        .commitLeader, .flush, .commitLeader, .scoreSubDags, .beginIteration, .flush, .restart]
    ∃ reached, run (step shortSettings) (start shortSettings) sched = some reached ∧
      (reached.state.lastCommitIndex, reached.schedule.leaderSwapTable.reputationScores) =
        (2, ⟨⟨1, 3⟩, [0, 0, 0, 0]⟩) ∧
      ∀ act panic, reached.perform shortSettings act = some (.error panic) →
        panic.ofSchedule = false := by
  intro sched
  have observed : ∃ reached, run (step shortSettings) (start shortSettings) sched =
      some reached ∧
      (reached.state.lastCommitIndex, reached.schedule.leaderSwapTable.reputationScores) =
        (2, ⟨⟨1, 3⟩, [0, 0, 0, 0]⟩) :=
    exists_reached (by decide +kernel)
  obtain ⟨reached, ran, table⟩ := observed
  exact ⟨reached, ran, table, (windows_tile_commits ran).2.2⟩

end ScheduledCore

end Mysticeti
