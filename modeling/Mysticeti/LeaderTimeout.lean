import Mysticeti.Lib.Machine
import Mysticeti.Types

/-!
# Leader timeouts

The core signals each new clock round on a channel that keeps the last value only. The timeout
task takes a signalled round up and starts its two timers anew. When the first one expires it asks
the core for a block of the round, and when the second one does it asks by force. Of the branches
that are ready, the loop may take any. So rounds are asked for in order, each at most once in
either way, and not before its time.
-/

namespace Mysticeti

open List Lib.Machine

structure LeaderTimeouts where
  minRoundDelay : Nat
  leaderTimeout : Nat

def LeaderTimeouts.delay (cfg : LeaderTimeouts) : (force : Bool) → Nat
  | false => cfg.minRoundDelay
  | true => cfg.leaderTimeout

/-- A call of `new_block`, with the time since the round was taken up. -/
structure NewBlockCall where
  round : Round
  force : Bool
  waited : Nat
deriving DecidableEq, Repr

/-- The task beside the clock and the channel. -/
structure LeaderTimeoutTask where
  now : Nat
  /-- The value of the channel. -/
  lastSignaledRound : Round
  /-- The channel has a value that the task has not seen. -/
  unseen : Bool
  leaderRound : Round
  timerStart : Nat
  /-- Whether the first timer, and the one by force, has expired in this round. -/
  timedOut : Bool → Bool
  stopped : Bool
  calls : List NewBlockCall

/-- A call that is not answered, and the stop signal, end the task. -/
inductive TimeoutAction where
  | elapse (time : Nat)
  | trySignalNewRound (newClockRound : Round)
  | timeout (force answered : Bool)
  | changed
  | stop

namespace LeaderTimeoutTask

def start (now : Nat) (round : Round) : LeaderTimeoutTask where
  now := now
  lastSignaledRound := round
  unseen := false
  leaderRound := round
  timerStart := now
  timedOut _ := false
  stopped := false
  calls := []

def step (cfg : LeaderTimeouts) (task : LeaderTimeoutTask) :
    TimeoutAction → Option LeaderTimeoutTask
  | .elapse time => some { task with now := task.now + time }
  | .trySignalNewRound newClockRound =>
    if newClockRound ≤ task.lastSignaledRound then some task
    else some { task with lastSignaledRound := newClockRound, unseen := true }
  | .timeout force answered =>
    if task.stopped = false ∧ task.timedOut force = false ∧
        task.timerStart + cfg.delay force ≤ task.now then
      some { task with
        timedOut := Function.update task.timedOut force true
        stopped := !answered
        calls := task.calls ++ [⟨task.leaderRound, force, task.now - task.timerStart⟩] }
    else none
  | .changed =>
    if task.stopped = false ∧ task.unseen = true then
      some { task with
        leaderRound := task.lastSignaledRound
        unseen := false
        timerStart := task.now
        timedOut := fun _ => false }
    else none
  | .stop => some { task with stopped := true }

structure Orderly (cfg : LeaderTimeouts) (task : LeaderTimeoutTask) : Prop where
  nodup : (task.calls.map fun call => (call.round, call.force)).Nodup
  ordered : task.calls.Pairwise fun first second => first.round ≤ second.round
  patient : ∀ call ∈ task.calls, cfg.delay call.force ≤ call.waited
  bounded : ∀ call ∈ task.calls, call.round ≤ task.leaderRound
  current : ∀ call ∈ task.calls, call.round = task.leaderRound → task.timedOut call.force = true
  signaled : task.leaderRound ≤ task.lastSignaledRound
  newer : task.unseen = true → task.leaderRound < task.lastSignaledRound

lemma Orderly.step {cfg : LeaderTimeouts} {task next : LeaderTimeoutTask} {act : TimeoutAction}
    (orderly : Orderly cfg task) (taken : task.step cfg act = some next) : Orderly cfg next := by
  cases act with
  | elapse time =>
    cases taken
    exact { orderly with }
  | stop =>
    cases taken
    exact { orderly with }
  | trySignalNewRound newClockRound =>
    rw [LeaderTimeoutTask.step] at taken
    split at taken
    · exact Option.some_inj.mp taken ▸ orderly
    case isFalse above =>
      cases taken
      have later : task.leaderRound < newClockRound :=
        orderly.signaled.trans_lt (Nat.lt_of_not_le above)
      exact { orderly with signaled := later.le, newer := fun _ => later }
  | changed =>
    obtain ⟨ready, taken⟩ := Option.ite_none_right_eq_some.mp taken
    cases taken
    have later := orderly.newer ready.2
    exact { orderly with
      bounded := fun call mem => (orderly.bounded call mem).trans later.le
      current := fun call mem same => absurd same ((orderly.bounded call mem).trans_lt later).ne
      signaled := le_rfl
      newer := by simp }
  | timeout force answered =>
    obtain ⟨⟨-, fresh, expired⟩, taken⟩ := Option.ite_none_right_eq_some.mp taken
    cases taken
    -- the flag of the timer says whether this round was asked for in this way
    have first : (task.leaderRound, force) ∉ task.calls.map fun call =>
        (call.round, call.force) := by
      intro mem
      obtain ⟨call, here, same⟩ := List.mem_map.mp mem
      obtain ⟨round, rfl⟩ := Prod.mk.inj same
      exact Bool.false_ne_true (fresh.symm.trans (orderly.current call here round))
    exact { orderly with
      nodup := by
        rw [map_append]
        exact orderly.nodup.append (nodup_singleton _) (by simpa using first)
      ordered := pairwise_append.mpr ⟨orderly.ordered, pairwise_singleton _ _, by
        simpa using orderly.bounded⟩
      patient := forall_mem_append.mpr ⟨orderly.patient, by
        simpa using Nat.le_sub_of_add_le' expired⟩
      bounded := forall_mem_append.mpr ⟨orderly.bounded, by simp⟩
      current := forall_mem_append.mpr ⟨fun call mem round => by
        by_cases same : call.force = force
        · simp [same]
        · simpa [same] using orderly.current call mem round, by simp⟩ }

/-- The task is late: the timer by force comes first, and the round ends meanwhile. -/
def late : List TimeoutAction :=
  [.elapse 250, .timeout true true, .trySignalNewRound 2, .timeout false true, .changed,
    .elapse 60, .timeout false true]

end LeaderTimeoutTask

end Mysticeti
