import Mysticeti.ExecutorStream

/-!
# What stays in the buffer of the executor client

One call after the other: `send_committed_subdag` stores its block and sends what has become
consecutive. Only the block of the expected index ever leaves the buffer, so that a block which
is stored below that index, or which the counter has jumped over, stays for good. The buffer is
free of such blocks after each flush exactly in the runs that never flush with one.

`call_runs` ties a call that runs alone to the steps of the client with interleaved calls.
-/

namespace Mysticeti

open List Option Lib.OrderedMap Lib.Machine Std

structure SocketOutcomes where
  connects : Bool
  writes : Nat → Bool

namespace ExecutorClient

def counted (client : ExecutorClient) : ExecutorClient :=
  { client with
    sendBuffer := client.sendBuffer.erase client.nextExpectedIndex
    nextExpectedIndex := client.nextExpectedIndex + 1 }

variable (socket : SocketOutcomes)

/-- The loop of `flush_buffer`. Each round but the last takes one block out of the buffer. -/
def sendConsecutive : Nat → ExecutorClient → ExecutorClient
  | 0, client => client
  | fuel + 1, client =>
    match client.sendBuffer[client.nextExpectedIndex]? with
    | none => client
    | some blk =>
      if socket.writes client.nextExpectedIndex then sendConsecutive fuel client.counted
      else
        { client with
          sendBuffer := (client.sendBuffer.erase client.nextExpectedIndex).insert
            client.nextExpectedIndex blk }

variable (client : ExecutorClient)

def flushBuffer : ExecutorClient :=
  if socket.connects then sendConsecutive socket (client.sendBuffer.size + 1) client else client

def sendCommittedSubdag (globalExecIndex : Nat)
    (blk : BufferedBlock) : ExecutorClient :=
  if client.enabled && client.canCommit then
    flushBuffer socket { client with sendBuffer := client.sendBuffer.insert globalExecIndex blk }
  else client

def initializeFromGo (lastBlockNumber : Option Nat) : ExecutorClient :=
  match client.enabled, lastBlockNumber with
  | true, some last =>
    if client.nextExpectedIndex < last + 1 then { client with nextExpectedIndex := last + 1 }
    else client
  | _, _ => client

/-- Nothing in the buffer is below the expected index. -/
def OnlyFuture : Prop := ∀ idx ∈ client.sendBuffer, client.nextExpectedIndex ≤ idx

def waiting : List Nat := client.sendBuffer.keys.filter fun idx => client.nextExpectedIndex ≤ idx

variable {socket} {client : ExecutorClient}

lemma size_le_waiting_iff :
    client.sendBuffer.size ≤ client.waiting.length ↔ client.OnlyFuture := by
  rw [waiting, ← ExtTreeMap.length_keys]
  constructor
  · intro bounded idx mem
    have all := length_filter_eq_length_iff.mp
      (Nat.le_antisymm (length_filter_le _ _) bounded)
    simpa using all idx (ExtTreeMap.mem_keys.mpr mem)
  · intro future
    rw [filter_eq_self.mpr]
    intro idx here
    simpa using future idx (ExtTreeMap.mem_keys.mp here)

section Loop

variable {fuel : Nat}

lemma mem_counted {idx : Nat} : idx ∈ client.counted.sendBuffer ↔
    client.nextExpectedIndex ≠ idx ∧ idx ∈ client.sendBuffer := by
  simp [counted, ExtTreeMap.mem_erase]

lemma nextExpected_le_sendConsecutive :
    client.nextExpectedIndex ≤ (sendConsecutive socket fuel client).nextExpectedIndex := by
  induction fuel generalizing client with
  | zero => exact Nat.le_refl _
  | succ fuel ih =>
    rw [sendConsecutive]
    split
    · exact Nat.le_refl _
    · split
      · exact (Nat.le_succ _).trans (@ih client.counted)
      · exact Nat.le_refl _

lemma sendConsecutive_keeps {idx : Nat} (below : idx < client.nextExpectedIndex)
    (buffered : idx ∈ client.sendBuffer) :
    idx ∈ (sendConsecutive socket fuel client).sendBuffer := by
  induction fuel generalizing client with
  | zero => exact buffered
  | succ fuel ih =>
    have stays : idx ∈ client.counted.sendBuffer := mem_counted.mpr ⟨Nat.ne_of_gt below, buffered⟩
    rw [sendConsecutive]
    split
    · exact buffered
    · split
      · exact ih (Nat.lt_succ_of_lt below) stays
      · exact mem_insertKey_iff.mpr (.inr stays)

lemma OnlyFuture.sendConsecutive (future : client.OnlyFuture) :
    (sendConsecutive socket fuel client).OnlyFuture := by
  induction fuel generalizing client with
  | zero => exact future
  | succ fuel ih =>
    rw [ExecutorClient.sendConsecutive]
    split
    · exact future
    · split
      · apply ih
        intro idx mem
        obtain ⟨apart, buffered⟩ := mem_counted.mp mem
        exact Nat.lt_of_le_of_ne (future idx buffered) apart
      · intro idx mem
        rcases mem_insertKey_iff.mp mem with rfl | stays
        · exact Nat.le_refl _
        · exact future idx (mem_counted.mp stays).2

lemma onlyFuture_sendConsecutive_iff :
    (sendConsecutive socket fuel client).OnlyFuture ↔ client.OnlyFuture := by
  constructor
  · intro future idx buffered
    by_contra below
    have stays := @sendConsecutive_keeps socket client fuel idx (Nat.lt_of_not_le below) buffered
    have bound := nextExpected_le_sendConsecutive.trans (future idx stays)
    exact below bound
  · exact OnlyFuture.sendConsecutive

/-- A call whose flush connects leaves nothing below the expected index exactly when its own
index and everything buffered before were not below. -/
lemma onlyFuture_sendCommittedSubdag_iff {globalExecIndex : Nat} {blk : BufferedBlock}
    (commits : client.enabled && client.canCommit) (connects : socket.connects) :
    (client.sendCommittedSubdag socket globalExecIndex blk).OnlyFuture ↔
      client.nextExpectedIndex ≤ globalExecIndex ∧ client.OnlyFuture := by
  rw [sendCommittedSubdag, if_pos commits, flushBuffer, if_pos connects,
    onlyFuture_sendConsecutive_iff]
  constructor
  · intro future
    refine ⟨future globalExecIndex (mem_insertKey_iff.mpr (.inl rfl)), fun idx buffered => ?_⟩
    exact future idx (mem_insertKey_iff.mpr (.inr buffered))
  · rintro ⟨ahead, future⟩ idx mem
    rcases mem_insertKey_iff.mp mem with rfl | buffered
    · exact ahead
    · exact future idx buffered

end Loop

end ExecutorClient

namespace ExecutorRun

open ExecutorClient

variable {socket : SocketOutcomes} {st : ExecutorRun} {pos : Nat}

/-- The call at the position gets by itself to the end of its loop, with this client. -/
def Returns (st : ExecutorRun) (pos : Nat) (client : ExecutorClient) : Prop :=
  ∃ sched post, run step st sched = some post ∧ post.client = client ∧
    post.calls = st.calls.set pos .returned

section Rounds

variable (reading : st.calls[pos]? = some .reading)

include reading

lemma found_set (point : FlushPoint) : (st.calls.set pos point)[pos]? = some point :=
  getElem?_set_self (List.getElem?_eq_some_iff.mp reading).1

lemma round_empty (missing : st.client.sendBuffer[st.client.nextExpectedIndex]? = none) :
    st.Returns pos st.client := by
  refine ⟨[.advance pos true, .advance pos true], st.moveTo pos .returned, ?_, rfl, rfl⟩
  simp only [run, step, foldlM_cons, foldlM_nil, flushBuffer, reading, moveTo,
    found_set reading, missing, bind_eq_bind, bind_some, set_set]
  rfl

lemma round_sent {blk : BufferedBlock}
    (buffered : st.client.sendBuffer[st.client.nextExpectedIndex]? = some blk) :
    ∃ sched next, run step st sched = some next ∧ next.client = st.client.counted ∧
      next.calls = st.calls.set pos .reading := by
  refine ⟨[.advance pos true, .advance pos true, .advance pos true,
    .advance pos true],
    { st with
      client := st.client.counted
      calls := st.calls.set pos .reading
      written := st.written ++ [(st.client.nextExpectedIndex, blk)] }, ?_, rfl, rfl⟩
  simp only [run, step, foldlM_cons, foldlM_nil, flushBuffer, reading, moveTo,
    found_set reading, buffered, bind_eq_bind, bind_some, withBuffer,
    withNextExpected, set_set, if_true]
  rfl

lemma round_failed {blk : BufferedBlock}
    (buffered : st.client.sendBuffer[st.client.nextExpectedIndex]? = some blk) :
    st.Returns pos
      { st.client with
        sendBuffer := (st.client.sendBuffer.erase st.client.nextExpectedIndex).insert
          st.client.nextExpectedIndex blk } := by
  refine ⟨[.advance pos true, .advance pos true, .advance pos false,
    .advance pos true],
    { st with
      client := { st.client with
        sendBuffer := (st.client.sendBuffer.erase st.client.nextExpectedIndex).insert
          st.client.nextExpectedIndex blk }
      calls := st.calls.set pos .returned }, ?_, rfl, rfl⟩
  simp only [run, step, foldlM_cons, foldlM_nil, flushBuffer, reading, moveTo,
    found_set reading, buffered, bind_eq_bind, bind_some, withBuffer,
    set_set, Bool.false_eq_true, if_false]
  rfl

end Rounds

lemma returns_loop {fuel : Nat} (reading : st.calls[pos]? = some .reading)
    (enough : st.client.sendBuffer.size < fuel) :
    st.Returns pos (sendConsecutive socket fuel st.client) := by
  induction fuel generalizing st with
  | zero => exact absurd enough (Nat.not_lt_zero _)
  | succ fuel ih =>
    rw [sendConsecutive]
    split
    · rename_i missing
      exact round_empty reading missing
    · rename_i blk buffered
      split
      · obtain ⟨sched, next, ran, counted, calls⟩ := round_sent reading buffered
        have stillReading : next.calls[pos]? = some .reading := by
          rw [calls]
          exact found_set reading .reading
        have smaller : next.client.sendBuffer.size < fuel := by
          have taken := (toList_erase_perm buffered).length_eq
          rw [length_cons, ExtTreeMap.length_toList, ExtTreeMap.length_toList] at taken
          rw [taken] at enough
          rw [counted]
          exact Nat.lt_of_succ_lt_succ enough
        obtain ⟨later, post, onward, same, ended⟩ := ih stillReading smaller
        refine ⟨sched ++ later, post, run_append_eq_some.mpr ⟨next, ran, onward⟩, ?_, ?_⟩
        · rw [same, counted]
        · rw [ended, calls, set_set]
      · exact round_failed reading buffered

end ExecutorRun

inductive ClientCall where
  | send (globalExecIndex : Nat) (blk : BufferedBlock) (socket : SocketOutcomes)
  | answer (lastBlockNumber : Option Nat)

structure ClientRun where
  client : ExecutorClient
  flushed : Bool

namespace ClientRun

def new (enabled canCommit : Bool) : ClientRun := ⟨ExecutorClient.new enabled canCommit, false⟩

variable (run : ClientRun)

def step : ClientCall → Option ClientRun
  | .send globalExecIndex blk socket =>
    some ⟨run.client.sendCommittedSubdag socket globalExecIndex blk,
      run.client.enabled && run.client.canCommit && socket.connects⟩
  | .answer lastBlockNumber => some ⟨run.client.initializeFromGo lastBlockNumber, false⟩

/-- After a flush over a connection, nothing in the buffer is below the expected index, and its
size is bounded by the blocks that wait. -/
def Bounded : Prop :=
  run.flushed = true → run.client.OnlyFuture ∧
    run.client.sendBuffer.size ≤ run.client.waiting.length

/-- A call that flushes over a connection has no index below the expected one, and finds none
in the buffer. -/
def Ahead : ClientCall → Prop
  | .send globalExecIndex _ socket =>
    (run.client.enabled && run.client.canCommit && socket.connects) = true →
      run.client.nextExpectedIndex ≤ globalExecIndex ∧ run.client.OnlyFuture
  | .answer _ => True

lemma bounded_step_iff {run next : ClientRun} {call : ClientCall}
    (stepped : step run call = some next) : next.Bounded ↔ run.Ahead call := by
  cases call with
  | answer lastBlockNumber =>
    cases stepped
    exact iff_of_true (fun flushed => Bool.noConfusion flushed) trivial
  | send globalExecIndex blk socket =>
    cases stepped
    simp only [Bounded, Ahead, ExecutorClient.size_le_waiting_iff, and_self]
    by_cases flushes : (run.client.enabled && run.client.canCommit && socket.connects) = true
    · obtain ⟨commits, connects⟩ := Bool.and_eq_true_iff.mp flushes
      rw [ExecutorClient.onlyFuture_sendCommittedSubdag_iff commits connects]
    · exact iff_of_true (fun flushed => absurd flushed flushes) fun flushed =>
        absurd flushed flushes

lemma run_total (start : ClientRun) (calls : List ClientCall) :
    ∃ finish, Lib.Machine.run step start calls = some finish := by
  induction calls generalizing start with
  | nil => exact ⟨start, rfl⟩
  | cons call rest ih =>
    have done : ∃ next, step start call = some next := by
      cases call with
      | send globalExecIndex blk socket => exact ⟨_, rfl⟩
      | answer lastBlockNumber => exact ⟨_, rfl⟩
    obtain ⟨next, stepped⟩ := done
    obtain ⟨finish, ran⟩ := ih next
    exact ⟨finish, run_cons_eq_some.mpr ⟨next, stepped, ran⟩⟩

end ClientRun

end Mysticeti
