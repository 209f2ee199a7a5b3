import Mysticeti.CommitProcessor
import Mysticeti.Lib.OrderedMap

/-!
# Withheld commits

One commit processor runs beside tasks that set the shared transition barrier and reset
it. A commit is withheld when it is past the barrier, either at the check of the loop or at
the check inside `process_commit`. Only the first of the two is remembered in the snapshot
of the loop, so that a barrier which is seen by `process_commit` alone and reset before the
loop looks again is forgotten, and so is one that is raised. `Guarded` says that no write
undoes the barrier in this way; in such runs nothing is sent after a commit was withheld.
-/

namespace Mysticeti

open Option Lib.OrderedMap Lib.Machine CommittedSubDag

structure BarrierRun where
  barrier : CommitIndex
  processor : CommitProcessor
  trace : List CommitEffect

inductive BarrierAction where
  | receive (dag : CommittedSubDag)
  | resume
  | write (val : CommitIndex)

namespace BarrierRun

def new (epoch : Epoch) (lastExec : Nat) (client : Bool) : BarrierRun :=
  { barrier := 0
    processor := CommitProcessor.new epoch lastExec client
    trace := [] }

variable (st : BarrierRun)

def record (res : CommitProcessor × List CommitEffect) : BarrierRun :=
  { st with processor := res.1, trace := st.trace ++ res.2 }

def step : BarrierAction → Option BarrierRun
  | .receive dag =>
    if st.processor.point = .receiving then
      some (st.record (st.processor.receive st.barrier dag))
    else none
  | .resume => (st.processor.resume st.barrier).map st.record
  | .write val => some { st with barrier := val }

def Withheld (dag : CommittedSubDag) : Prop := ∃ txs, .requeue dag txs ∈ st.trace

def Sent (dag : CommittedSubDag) : Prop :=
  ∃ epoch globalExecIndex, .send dag epoch globalExecIndex ∈ st.trace

/-- The barrier a write leaves is one under which the next commit is withheld: positive
and below it, or zero when the loop has seen such a barrier. -/
def Closes (proc : CommitProcessor) (val : CommitIndex) : Prop :=
  (0 < val ∧ val < proc.nextExpectedIndex) ∨
    (val = 0 ∧ 0 < proc.barrierSnapshot ∧ proc.barrierSnapshot < proc.nextExpectedIndex)

/-- Once a commit was withheld, every write of the barrier keeps the next commit withheld. -/
def Guarded : BarrierAction → Prop
  | .write val => (∃ dag, st.Withheld dag) → Closes st.processor val
  | _ => True

structure Barred (st : BarrierRun) : Prop where
  keyed : ∀ (idx : CommitIndex) (dag : CommittedSubDag),
    st.processor.pendingCommits[idx]? = some dag → dag.commitRef.index = idx
  expected : ∀ dag, st.processor.point = .processing dag →
    dag.commitRef.index = st.processor.nextExpectedIndex
  sentBefore : ∀ dag, st.Sent dag → dag.commitRef.index < st.processor.nextExpectedIndex
  withheldBefore : ∀ dag, st.Withheld dag →
    dag.commitRef.index < st.processor.nextExpectedIndex
  closed : ∀ dag, st.Withheld dag → Closes st.processor st.barrier ∧
    ∀ processed, st.processor.point ≠ .processing processed
  ordered : ∀ withheld sent, st.Withheld withheld → st.Sent sent →
    ¬ withheld.commitRef.index < sent.commitRef.index

lemma new_barred (epoch : Epoch) (lastExec : Nat) (client : Bool) :
    Barred (new epoch lastExec client) where
  keyed := by simp [new, CommitProcessor.new]
  expected := by simp [new, CommitProcessor.new]
  sentBefore := by simp [new, Sent]
  withheldBefore := by simp [new, Withheld]
  closed := by simp [new, Withheld]
  ordered := by simp [new, Withheld]

section Steps

variable {st next : BarrierRun} {dag : CommittedSubDag}

lemma withheld_append {res : CommitProcessor × List CommitEffect} :
    (st.record res).Withheld dag ↔
      st.Withheld dag ∨ ∃ txs, .requeue dag txs ∈ res.2 := by
  simp [Withheld, record, List.mem_append, exists_or]

lemma sent_append {res : CommitProcessor × List CommitEffect} :
    (st.record res).Sent dag ↔
      st.Sent dag ∨ ∃ epoch globalExecIndex, .send dag epoch globalExecIndex ∈ res.2 := by
  simp [Sent, record, List.mem_append, exists_or]

lemma closes_iff {proc : CommitProcessor} {val : CommitIndex} :
    Closes proc val ↔
      CommitProcessor.pastBarrier (proc.observe val).barrierSnapshot
        proc.nextExpectedIndex = true := by
  unfold Closes CommitProcessor.pastBarrier CommitProcessor.observe
  by_cases pos : 0 < val
  · simp [pos, Nat.ne_of_gt pos]
  · simp [Nat.eq_zero_of_not_pos pos]

variable (barred : Barred st)

include barred

lemma Barred.idle {proc : CommitProcessor}
    (keyed : ∀ (idx : CommitIndex) (other : CommittedSubDag),
      proc.pendingCommits[idx]? = some other → other.commitRef.index = idx)
    (idle : ∀ processed, proc.point ≠ .processing processed)
    (next : proc.nextExpectedIndex = st.processor.nextExpectedIndex)
    (snapshot : proc.barrierSnapshot = st.processor.barrierSnapshot) :
    Barred { st with processor := proc } where
  keyed := keyed
  expected := fun processed point => absurd point (idle processed)
  sentBefore := fun sent isSent => next ▸ barred.sentBefore sent isSent
  withheldBefore := fun withheld isWithheld => next ▸ barred.withheldBefore withheld isWithheld
  closed := by
    intro withheld isWithheld
    have closes := (barred.closed withheld isWithheld).1
    unfold Closes at closes ⊢
    dsimp only
    rw [next, snapshot]
    exact ⟨closes, idle⟩
  ordered := barred.ordered

/-- The expected commit is withheld: everything sent so far stands before it, and the next
commit will be withheld too. -/
lemma Barred.withhold {proc : CommitProcessor} {effects : List CommitEffect}
    (want : dag.commitRef.index = st.processor.nextExpectedIndex)
    (next : proc.nextExpectedIndex = st.processor.nextExpectedIndex + 1)
    (pending : proc.pendingCommits = st.processor.pendingCommits)
    (idle : ∀ processed, proc.point ≠ .processing processed)
    (closes : Closes proc st.barrier)
    (requeued : effects = [.requeue dag dag.transactionData,
      .notify st.processor.nextExpectedIndex]) :
    Barred (st.record (proc, effects)) := by
  subst requeued
  have sameSent : ∀ sent, (st.record (proc, [.requeue dag dag.transactionData,
      .notify st.processor.nextExpectedIndex])).Sent sent → st.Sent sent := by
    intro sent isSent
    simpa [sent_append] using isSent
  have known : ∀ withheld, (st.record (proc, [.requeue dag dag.transactionData,
      .notify st.processor.nextExpectedIndex])).Withheld withheld →
      st.Withheld withheld ∨ withheld = dag := by
    intro withheld isWithheld
    simpa [withheld_append] using isWithheld
  constructor
  · intro idx other got
    exact barred.keyed idx other (pending ▸ got)
  · intro processed point
    exact absurd point (idle processed)
  · intro sent isSent
    have pre := barred.sentBefore sent (sameSent sent isSent)
    change _ < proc.nextExpectedIndex
    lia
  · intro withheld isWithheld
    change _ < proc.nextExpectedIndex
    rcases known withheld isWithheld with prev | rfl
    · have pre := barred.withheldBefore withheld prev
      lia
    · lia
  · exact fun _ _ => ⟨closes, idle⟩
  · intro withheld sent isWithheld isSent
    have pre := barred.sentBefore sent (sameSent sent isSent)
    rcases known withheld isWithheld with prev | rfl
    · exact barred.ordered withheld sent prev (sameSent sent isSent)
    · lia

lemma Barred.takeUp {point : LoopPoint}
    (want : dag.commitRef.index = st.processor.nextExpectedIndex)
    (idle : ∀ processed, point ≠ .processing processed) :
    Barred (st.record (st.processor.takeUp st.barrier point dag)) := by
  have test := @closes_iff st.processor st.barrier
  rw [CommitProcessor.observe_eq] at test
  dsimp only at test
  rw [CommitProcessor.takeUp, CommitProcessor.observe_eq]
  dsimp only
  by_cases closes : Closes st.processor st.barrier
  · rw [if_pos (test.mp closes)]
    refine barred.withhold want rfl rfl idle ?_ rfl
    rcases closes with ⟨pos, low⟩ | ⟨zero, pos, low⟩
    · exact .inl ⟨pos, Nat.lt_succ_of_lt low⟩
    · refine .inr ⟨zero, ?_⟩
      rw [if_neg (by lia)]
      exact ⟨pos, Nat.lt_succ_of_lt low⟩
  · -- A commit that was withheld before would close the barrier for this one.
    have none : ∀ withheld, ¬ st.Withheld withheld :=
      fun withheld isWithheld => closes (barred.closed withheld isWithheld).1
    rw [if_neg (fun past => closes (test.mpr past))]
    constructor
    · exact barred.keyed
    · rintro processed point
      cases point
      exact want
    · intro sent isSent
      exact barred.sentBefore sent (by simpa [sent_append] using isSent)
    · intro withheld isWithheld
      exact absurd (by simpa [withheld_append] using isWithheld) (none withheld)
    · intro withheld isWithheld
      exact absurd (by simpa [withheld_append] using isWithheld) (none withheld)
    · intro withheld sent isWithheld _
      exact absurd (by simpa [withheld_append] using isWithheld) (none withheld)

lemma Barred.processCommit (point : st.processor.point = .processing dag) :
    Barred (st.record ({ st.processor with
        nextExpectedIndex := st.processor.nextExpectedIndex + 1
        point := .draining },
      st.processor.processCommit st.barrier dag ++
        [.notify st.processor.nextExpectedIndex])) := by
  have want := barred.expected dag point
  have none : ∀ withheld, ¬ st.Withheld withheld :=
    fun withheld isWithheld => (barred.closed withheld isWithheld).2 dag point
  by_cases past : CommitProcessor.pastBarrier st.barrier dag.commitRef.index = true
  · rw [CommitProcessor.processCommit, if_pos past]
    refine barred.withhold want rfl rfl (fun processed => by simp) ?_ rfl
    simp only [CommitProcessor.pastBarrier, Bool.and_eq_true, decide_eq_true_eq] at past
    refine .inl ⟨past.1, ?_⟩
    dsimp only
    lia
  · rw [CommitProcessor.processCommit, if_neg past]
    have unheld : ∀ withheld, ¬ (st.record ({ st.processor with
          nextExpectedIndex := st.processor.nextExpectedIndex + 1
          point := .draining },
        (if st.processor.executorClient then [.send dag st.processor.currentEpoch
          (calculateGlobalExecIndex st.processor.currentEpoch
            st.processor.nextExpectedIndex st.processor.lastGlobalExecIndex)] else []) ++
          [.notify st.processor.nextExpectedIndex])).Withheld withheld := by
      intro withheld isWithheld
      rcases withheld_append.mp isWithheld with prev | ⟨txs, here⟩
      · exact none withheld prev
      · split at here <;> simp at here
    constructor
    · exact barred.keyed
    · intro processed impossible
      cases impossible
    · intro sent isSent
      change _ < st.processor.nextExpectedIndex + 1
      rcases sent_append.mp isSent with prev | ⟨epoch, idx, here⟩
      · have pre := barred.sentBefore sent prev
        lia
      · have same : sent = dag := by
          split at here
          · simpa using (show _ ∧ _ from by simpa using here).1
          · simp at here
        lia
    · exact fun withheld isWithheld => absurd isWithheld (unheld withheld)
    · exact fun withheld isWithheld => absurd isWithheld (unheld withheld)
    · exact fun withheld _ isWithheld => absurd isWithheld (unheld withheld)

lemma Barred.step {act : BarrierAction} (guarded : st.Guarded act)
    (taken : st.step act = some next) : Barred next := by
  cases act with
  | receive arrived =>
    simp only [BarrierRun.step] at taken
    split at taken
    case isFalse => cases taken
    case isTrue waits =>
      cases taken
      have idle : ∀ processed, st.processor.point ≠ .processing processed := by simp [waits]
      unfold CommitProcessor.receive
      split
      case isTrue want => exact barred.takeUp want (by simp)
      case isFalse =>
        split
        case isTrue =>
          have kept := @Barred.idle st barred { st.processor with
            pendingCommits := st.processor.pendingCommits.insert arrived.commitRef.index
              arrived } (by
              intro idx other got
              rcases getElem?_insert_cases got with ⟨rfl, rfl⟩ | ⟨-, got⟩
              · rfl
              · exact barred.keyed idx other got) idle rfl rfl
          simpa [record] using kept
        case isFalse => simpa [record] using barred
  | resume =>
    simp only [BarrierRun.step, CommitProcessor.resume, map_eq_some_iff] at taken
    obtain ⟨res, resumed, rfl⟩ := taken
    split at resumed
    case h_1 => cases resumed
    case h_2 processed point =>
      cases resumed
      exact barred.processCommit point
    case h_3 point =>
      have idle : ∀ processed, st.processor.point ≠ .processing processed := by simp [point]
      split at resumed
      case h_1 =>
        cases resumed
        have kept := @Barred.idle st barred { st.processor with point := .receiving }
          barred.keyed (by simp) rfl rfl
        simpa [record] using kept
      case h_2 pending got =>
        cases resumed
        have kept := @Barred.idle st barred { st.processor with
          pendingCommits := st.processor.pendingCommits.erase st.processor.nextExpectedIndex }
          (fun idx other has => barred.keyed idx other (getElem?_of_erase has))
          idle rfl rfl
        exact kept.takeUp (barred.keyed _ _ got) (by simp)
  | write val =>
    simp only [BarrierRun.step] at taken
    cases taken
    exact
      { keyed := barred.keyed
        expected := barred.expected
        sentBefore := barred.sentBefore
        withheldBefore := barred.withheldBefore
        closed := fun withheld isWithheld =>
          ⟨guarded ⟨withheld, isWithheld⟩, (barred.closed withheld isWithheld).2⟩
        ordered := barred.ordered }

end Steps

/-- Once withheld, always withheld: in every run whose writes of the barrier are guarded,
no commit after a withheld one is sent. -/
theorem nothing_sent_past_withheld (epoch : Epoch) (lastExec : Nat) (client : Bool)
    (sched : List BarrierAction) (final : BarrierRun)
    (guarded : Heeds step Guarded (new epoch lastExec client) sched)
    (ran : run step (new epoch lastExec client) sched = some final)
    (withheld sent : CommittedSubDag) (isWithheld : final.Withheld withheld)
    (isSent : final.Sent sent) : ¬ withheld.commitRef.index < sent.commitRef.index := by
  have barred : Barred final :=
    invariant (fun _ _ _ barred guarded taken => barred.step guarded taken)
      (new_barred epoch lastExec client) guarded ran
  exact barred.ordered withheld sent isWithheld isSent

def guards (st : BarrierRun) : BarrierAction → Bool
  | .write val =>
    st.trace.all (fun effect => match effect with | .requeue _ _ => false | _ => true) ||
      (0 < val && val < st.processor.nextExpectedIndex)
  | _ => true

lemma guarded_of_guards (st : BarrierRun) (act : BarrierAction)
    (passed : st.guards act = true) : st.Guarded act := by
  cases act with
  | receive dag => trivial
  | resume => trivial
  | write val =>
    rintro ⟨dag, txs, here⟩
    simp only [guards, Bool.or_eq_true, Bool.and_eq_true, decide_eq_true_eq,
      List.all_eq_true] at passed
    rcases passed with unheld | closes
    · cases unheld _ here
    · exact .inl closes

/-- The barrier is set before commit two is taken up: commit one is sent, commit two is
withheld, and so is commit three after the barrier moved. -/
theorem withheld_behind_early_barrier : ∃ final,
    run step (new 0 0 true) [.receive (singleTransaction 1), .resume, .resume, .write 1,
      .receive (singleTransaction 2), .write 2, .receive (singleTransaction 3)] = some final ∧
    final.Sent (singleTransaction 1) ∧ final.Withheld (singleTransaction 2) ∧
    final.Withheld (singleTransaction 3) ∧
    ¬ (singleTransaction 2).commitRef.index < (singleTransaction 1).commitRef.index := by
  have traced : (run step (new 0 0 true) [.receive (singleTransaction 1), .resume, .resume,
      .write 1, .receive (singleTransaction 2), .write 2,
      .receive (singleTransaction 3)]).map trace =
      some [.process (singleTransaction 1) 1, .send (singleTransaction 1) 0 1, .notify 1,
        .requeue (singleTransaction 2) [[2]], .notify 2,
        .requeue (singleTransaction 3) [[3]], .notify 3] := by decide +kernel
  obtain ⟨final, ran, trace⟩ := map_eq_some_iff.mp traced
  have isSent : final.Sent (singleTransaction 1) := ⟨0, 1, by simp [trace]⟩
  have isWithheld : final.Withheld (singleTransaction 2) := ⟨[[2]], by simp [trace]⟩
  refine ⟨final, ran, isSent, isWithheld, ⟨[[3]], by simp [trace]⟩, ?_⟩
  exact nothing_sent_past_withheld 0 0 true _ final
    (heeds_of_checks guarded_of_guards (by decide +kernel)) ran _ _ isWithheld isSent

/-- The barrier is set after the loop looked and reset before it looks again: commit two is
withheld inside `process_commit`, and commit three is sent. -/
theorem late_barrier_is_forgotten : ∃ final,
    run step (new 0 0 true) [.receive (singleTransaction 1), .resume, .resume,
      .receive (singleTransaction 2), .write 1, .resume, .write 0, .resume,
      .receive (singleTransaction 3), .resume] = some final ∧
    final.Withheld (singleTransaction 2) ∧ final.Sent (singleTransaction 3) ∧
    (singleTransaction 2).commitRef.index < (singleTransaction 3).commitRef.index := by
  have traced : (run step (new 0 0 true) [.receive (singleTransaction 1), .resume, .resume,
      .receive (singleTransaction 2), .write 1, .resume, .write 0, .resume,
      .receive (singleTransaction 3), .resume]).map trace =
      some [.process (singleTransaction 1) 1, .send (singleTransaction 1) 0 1, .notify 1,
        .process (singleTransaction 2) 2, .requeue (singleTransaction 2) [[2]], .notify 2,
        .process (singleTransaction 3) 3, .send (singleTransaction 3) 0 3, .notify 3] := by
    decide +kernel
  obtain ⟨final, ran, trace⟩ := map_eq_some_iff.mp traced
  exact ⟨final, ran, ⟨[[2]], by simp [trace]⟩, ⟨0, 3, by simp [trace]⟩, by decide⟩

end BarrierRun

end Mysticeti
