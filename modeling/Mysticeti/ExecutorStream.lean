import Mysticeti.ExecutorClient
import Mysticeti.Lib.OrderedMap

/-!
# The stream of blocks to the executor

The client is meant to write consecutive indices. A call that has read the expected index
counts on it until it has counted the written block, and `initialize_from_go` may raise the
counter in between or after blocks were written. In runs where it raises the counter only
before the first write and while no call is in that stretch, the stream is consecutive and
no buffered block is passed over.

The proof follows the blocks: every block passed in is in exactly one place, the buffer,
the hands of a call, or the stream.
-/

namespace Mysticeti

open List Lib.OrderedMap Lib.Machine Std

namespace FlushPoint

/-- The block a call has taken from the buffer and not yet written. -/
def held : FlushPoint → Option (Nat × BufferedBlock)
  | .sending want blk => some (want, blk)
  | .restoring want blk => some (want, blk)
  | _ => none

def isCounting : FlushPoint → Bool
  | .counting _ => true
  | _ => false

/-- The call has read the expected index and still counts on it. -/
def relies : FlushPoint → Bool
  | .taking _ => true
  | .sending _ _ => true
  | .counting _ => true
  | _ => false

end FlushPoint

namespace ExecutorRun

def indices (st : ExecutorRun) : List Nat := st.written.map Prod.fst

/-- Every block passed in is in exactly one place: the buffer, the hands of a call or the
stream. -/
structure Placed (st : ExecutorRun) : Prop where
  distinct : (st.submitted.map Prod.fst).Nodup
  placed : (st.client.sendBuffer.toList ++ st.calls.filterMap FlushPoint.held ++
    st.written).Perm st.submitted

lemma new_placed (enabled canCommit : Bool) : Placed (new enabled canCommit) where
  distinct := nodup_nil
  placed := by simp [new, ExecutorClient.new]

section Places

variable {st : ExecutorRun}

lemma Placed.nodup (placed : Placed st) :
    (((st.client.sendBuffer.toList ++ st.calls.filterMap FlushPoint.held ++
      st.written)).map Prod.fst).Nodup :=
  (placed.placed.map Prod.fst).nodup_iff.mpr placed.distinct

lemma Placed.buffered_not_written (placed : Placed st) {idx : Nat}
    (buffered : idx ∈ st.client.sendBuffer) : idx ∉ st.indices := by
  intro written
  obtain ⟨blk, got⟩ := getElem?_of_mem buffered
  have here : idx ∈ (st.client.sendBuffer.toList ++
      st.calls.filterMap FlushPoint.held).map Prod.fst := by
    rw [List.mem_map]
    exact ⟨(idx, blk), mem_append_left _
      (ExtTreeMap.mem_toList_iff_getElem?_eq_some.mpr got), rfl⟩
  have nodup := placed.nodup
  rw [map_append, nodup_append] at nodup
  exact nodup.2.2 idx here idx written rfl

variable {blk : BufferedBlock} {pos want : Nat} {point : FlushPoint}

lemma Placed.held_not_written (placed : Placed st) {idx : Nat} (call : point ∈ st.calls)
    (holds : point.held = some (idx, blk)) : idx ∉ st.indices := by
  intro written
  have here : idx ∈ (st.client.sendBuffer.toList ++
      st.calls.filterMap FlushPoint.held).map Prod.fst := by
    rw [List.mem_map]
    exact ⟨(idx, blk), mem_append_right _
      (mem_filterMap.mpr ⟨point, call, holds⟩), rfl⟩
  have nodup := placed.nodup
  rw [map_append, nodup_append] at nodup
  exact nodup.2.2 idx here idx written rfl

lemma Placed.held_not_buffered (placed : Placed st) {idx : Nat}
    (call : point ∈ st.calls) (holds : point.held = some (idx, blk)) :
    st.client.sendBuffer[idx]? = none := by
  cases stored : st.client.sendBuffer[idx]? with
  | none => rfl
  | some other =>
    have nodup := placed.nodup
    rw [map_append, nodup_append, map_append, nodup_append] at nodup
    refine absurd rfl (nodup.1.2.2 idx ?_ idx ?_)
    · exact List.mem_map.mpr ⟨(idx, other),
        ExtTreeMap.mem_toList_iff_getElem?_eq_some.mpr stored, rfl⟩
    · exact List.mem_map.mpr ⟨(idx, blk), mem_filterMap.mpr ⟨point, call, holds⟩, rfl⟩

lemma Placed.indices_nodup (placed : Placed st) : st.indices.Nodup := by
  have nodup := placed.nodup
  rw [map_append] at nodup
  exact List.Nodup.of_append_right nodup

lemma split_calls {calls : List FlushPoint} (got : calls[pos]? = some point) :
    ∃ pre post,
      calls = pre ++ point :: post ∧ ∀ moved, calls.set pos moved = pre ++ moved :: post := by
  obtain ⟨inside, same⟩ := List.getElem?_eq_some_iff.mp got
  refine ⟨calls.take pos, calls.drop (pos + 1), ?_, fun moved => ?_⟩
  · rw [← same, cons_getElem_drop_succ, take_append_drop]
  · rw [set_eq_take_append_cons_drop, if_pos inside]

section

variable (placed : Placed st)

include placed

lemma Placed.move {moved : FlushPoint} (got : st.calls[pos]? = some point)
    (held : moved.held = point.held) : Placed (st.moveTo pos moved) := by
  obtain ⟨pre, post, calls, replaced⟩ := split_calls got
  have sameHeld : (pre ++ moved :: post).filterMap FlushPoint.held =
      (pre ++ point :: post).filterMap FlushPoint.held := by
    simp only [filterMap_append, filterMap_cons, held]
  refine ⟨placed.distinct, ?_⟩
  have located := placed.placed
  rw [calls, ← sameHeld, ← replaced] at located
  exact located

lemma Placed.take (got : st.calls[pos]? = some (.taking want))
    (buffered : st.client.sendBuffer[want]? = some blk) :
    Placed ((st.withBuffer (st.client.sendBuffer.erase want)).moveTo pos
      (.sending want blk)) := by
  obtain ⟨pre, post, calls, replaced⟩ := split_calls got
  refine ⟨placed.distinct, ?_⟩
  change ((st.client.sendBuffer.erase want).toList ++
    (st.calls.set pos (.sending want blk)).filterMap FlushPoint.held ++
    st.written).Perm st.submitted
  refine List.Perm.trans (List.Perm.append_right _ ?_) placed.placed
  refine List.Perm.trans ?_ ((toList_erase_perm buffered).append_right _).symm
  rw [replaced, calls]
  simp only [filterMap_append, filterMap_cons, FlushPoint.held]
  rw [← append_assoc, cons_append, ← append_assoc]
  exact perm_middle

lemma Placed.write (got : st.calls[pos]? = some (.sending want blk)) :
    Placed ({ st with written := st.written ++ [(want, blk)] }.moveTo pos
      (.counting want)) := by
  obtain ⟨pre, post, calls, replaced⟩ := split_calls got
  refine ⟨placed.distinct, ?_⟩
  change (st.client.sendBuffer.toList ++
    (st.calls.set pos (.counting want)).filterMap FlushPoint.held ++
    (st.written ++ [(want, blk)])).Perm st.submitted
  refine List.Perm.trans ?_ placed.placed
  rw [replaced, calls]
  simp only [filterMap_append, filterMap_cons, FlushPoint.held, append_assoc]
  refine List.Perm.append_left _ (List.Perm.append_left _ ?_)
  rw [← append_assoc]
  exact perm_append_singleton _ _

lemma Placed.restore (got : st.calls[pos]? = some (.restoring want blk)) :
    Placed ((st.withBuffer (st.client.sendBuffer.insert want blk)).moveTo pos
      .returned) := by
  obtain ⟨pre, post, calls, replaced⟩ := split_calls got
  have fresh := placed.held_not_buffered (List.mem_of_getElem? got) rfl
  refine ⟨placed.distinct, ?_⟩
  change ((st.client.sendBuffer.insert want blk).toList ++
    (st.calls.set pos .returned).filterMap FlushPoint.held ++
    st.written).Perm st.submitted
  refine List.Perm.trans (List.Perm.append_right _ ?_) placed.placed
  refine List.Perm.trans ((toList_insert_perm fresh).append_right _) ?_
  rw [replaced, calls]
  simp only [filterMap_append, filterMap_cons, FlushPoint.held]
  rw [← append_assoc, ← append_assoc, cons_append, cons_append]
  exact perm_middle.symm

lemma Placed.call {idx : Nat} (fresh : idx ∉ st.submitted.map Prod.fst) :
    Placed (st.sendCommittedSubdag idx blk) := by
  have sameHeld : ∀ point : FlushPoint, point.held = none →
      (st.calls ++ [point]).filterMap FlushPoint.held = st.calls.filterMap FlushPoint.held := by
    intro point free
    simp [free]
  have unstored : st.client.sendBuffer[idx]? = none := by
    cases stored : st.client.sendBuffer[idx]? with
    | none => rfl
    | some other =>
      refine absurd (List.mem_map.mpr ⟨(idx, other), placed.placed.mem_iff.mp ?_, rfl⟩) fresh
      exact mem_append_left _ (mem_append_left _
        (ExtTreeMap.mem_toList_iff_getElem?_eq_some.mpr stored))
  unfold sendCommittedSubdag
  split
  · constructor
    · change ((st.submitted ++ [(idx, blk)]).map Prod.fst).Nodup
      rw [map_append, map_singleton]
      exact (perm_append_singleton _ _).nodup_iff.mpr
        (nodup_cons.mpr ⟨fresh, placed.distinct⟩)
    · change ((st.client.sendBuffer.insert idx blk).toList ++
        (st.calls ++ [FlushPoint.connecting]).filterMap FlushPoint.held ++ st.written).Perm
        (st.submitted ++ [(idx, blk)])
      rw [sameHeld _ rfl]
      refine List.Perm.trans
        (((toList_insert_perm unstored).append_right _).append_right _) ?_
      rw [cons_append, cons_append]
      exact (placed.placed.cons _).trans (perm_append_singleton _ _).symm
  · refine ⟨placed.distinct, ?_⟩
    change (st.client.sendBuffer.toList ++
      (st.calls ++ [FlushPoint.returned]).filterMap FlushPoint.held ++ st.written).Perm
      st.submitted
    rw [sameHeld _ rfl]
    exact placed.placed

lemma Placed.answer {lastBlockNumber : Option Nat} :
    Placed (st.initializeFromGo lastBlockNumber) := by
  unfold initializeFromGo
  split
  · split
    · exact ⟨placed.distinct, placed.placed⟩
    · exact ⟨placed.distinct, placed.placed⟩
  · exact placed

end

/-- What a step can do: a block is passed in, the executor answers, or a call moves, takes a
block, writes it, counts it or puts it back. -/
inductive Stepped (st : ExecutorRun) : ExecutorAction → ExecutorRun → Prop where
  | call (idx : Nat) (blk : BufferedBlock) :
      Stepped st (.call idx blk) (st.sendCommittedSubdag idx blk)
  | answer (lastBlockNumber : Option Nat) :
      Stepped st (.answer lastBlockNumber) (st.initializeFromGo lastBlockNumber)
  | move {pos : Nat} {succeeds : Bool} {point moved : FlushPoint}
      (got : st.calls[pos]? = some point) (held : moved.held = point.held)
      (counting : moved.isCounting = point.isCounting)
      (taking : ∀ want, moved = .taking want → want = st.client.nextExpectedIndex)
      (sending : ∀ want blk, moved ≠ .sending want blk) :
      Stepped st (.advance pos succeeds) (st.moveTo pos moved)
  | take {pos want : Nat} {succeeds : Bool} {blk : BufferedBlock}
      (got : st.calls[pos]? = some (.taking want))
      (buffered : st.client.sendBuffer[want]? = some blk) :
      Stepped st (.advance pos succeeds)
        ((st.withBuffer (st.client.sendBuffer.erase want)).moveTo pos
          (.sending want blk))
  | write {pos want : Nat} {succeeds : Bool} {blk : BufferedBlock}
      (got : st.calls[pos]? = some (.sending want blk)) :
      Stepped st (.advance pos succeeds)
        ({ st with written := st.written ++ [(want, blk)] }.moveTo pos
          (.counting want))
  | count {pos want : Nat} {succeeds : Bool}
      (got : st.calls[pos]? = some (.counting want)) :
      Stepped st (.advance pos succeeds)
        ((st.withNextExpected (st.client.nextExpectedIndex + 1)).moveTo pos .reading)
  | restore {pos want : Nat} {succeeds : Bool} {blk : BufferedBlock}
      (got : st.calls[pos]? = some (.restoring want blk)) :
      Stepped st (.advance pos succeeds)
        ((st.withBuffer (st.client.sendBuffer.insert want blk)).moveTo pos
          .returned)

lemma stepped_of_step {act : ExecutorAction} {next : ExecutorRun}
    (taken : st.step act = some next) : Stepped st act next := by
  cases act with
  | call idx blk =>
    cases taken
    exact .call idx blk
  | answer lastBlockNumber =>
    cases taken
    exact .answer lastBlockNumber
  | advance pos succeeds =>
    simp only [ExecutorRun.step, flushBuffer] at taken
    cases got : st.calls[pos]? with
    | none => simp [got] at taken
    | some point =>
      rw [got] at taken
      cases point with
      | connecting =>
        cases taken
        cases succeeds
        all_goals exact .move got rfl rfl (by simp) (by simp)
      | reading =>
        cases taken
        exact .move got rfl rfl (by simp) (by simp)
      | taking want =>
        dsimp only at taken
        cases buffered : st.client.sendBuffer[want]? with
        | none =>
          rw [buffered] at taken
          cases taken
          exact .move got rfl rfl (by simp) (by simp)
        | some blk =>
          rw [buffered] at taken
          cases taken
          exact .take got buffered
      | sending want blk =>
        cases succeeds with
        | true =>
          cases taken
          exact .write got
        | false =>
          cases taken
          exact .move got rfl rfl (by simp) (by simp)
      | counting want =>
        cases taken
        exact .count got
      | restoring want blk =>
        cases taken
        exact .restore got
      | returned => cases taken

lemma Placed.step (placed : Placed st) {act : ExecutorAction} {next : ExecutorRun}
    (fresh : ∀ idx blk, act = .call idx blk → idx ∉ st.submitted.map Prod.fst)
    (taken : st.step act = some next) : Placed next := by
  cases stepped_of_step taken with
  | call idx blk => exact placed.call (fresh idx blk rfl)
  | answer lastBlockNumber => exact placed.answer
  | move got held _ _ _ => exact placed.move got held
  | take got buffered => exact placed.take got buffered
  | write got => exact placed.write got
  | count got =>
    have moved : Placed (st.moveTo _ .reading) := placed.move got rfl
    exact ⟨moved.distinct, moved.placed⟩
  | restore got => exact placed.restore got

end Places

/-- Each index is passed in once, and the counter is raised only before the first block is
written and while no call relies on it. -/
def Orderly (st : ExecutorRun) : ExecutorAction → Prop
  | .call globalExecIndex _ => globalExecIndex ∉ st.submitted.map Prod.fst
  | .advance _ _ => True
  | .answer (some last) => st.client.nextExpectedIndex < last + 1 →
      st.written = [] ∧ ∀ point ∈ st.calls, point.relies = false
  | .answer none => True

instance (st : ExecutorRun) (act : ExecutorAction) : Decidable (st.Orderly act) :=
  match act with
  | .call globalExecIndex _ =>
    inferInstanceAs (Decidable (globalExecIndex ∉ st.submitted.map Prod.fst))
  | .advance _ _ => inferInstanceAs (Decidable True)
  | .answer (some last) =>
    inferInstanceAs (Decidable (st.client.nextExpectedIndex < last + 1 →
      st.written = [] ∧ ∀ point ∈ st.calls, point.relies = false))
  | .answer none => inferInstanceAs (Decidable True)

structure Streaming (st : ExecutorRun) : Prop extends Placed st where
  enabled : st.client.enabled = true ∧ st.client.canCommit = true
  taking : ∀ want, .taking want ∈ st.calls →
    want = st.client.nextExpectedIndex ∨ want ∈ st.indices
  sending : ∀ want blk, .sending want blk ∈ st.calls →
    want = st.client.nextExpectedIndex
  counted : st.calls.countP FlushPoint.isCounting = st.indices.count st.client.nextExpectedIndex
  consecutive : ∃ first, st.indices = List.range' first st.written.length ∧
    (st.written ≠ [] → st.client.nextExpectedIndex ≤ first + st.written.length ∧
      first + st.written.length ≤ st.client.nextExpectedIndex + 1)
  covered : ∀ idx, 1 ≤ idx → idx < st.client.nextExpectedIndex →
    idx ∈ st.indices ∨ ∃ last ∈ st.answers, idx ≤ last

lemma new_streaming : Streaming (new true true) where
  toPlaced := new_placed true true
  enabled := ⟨rfl, rfl⟩
  taking := by simp [new]
  sending := by simp [new]
  counted := by simp [new, indices]
  consecutive := ⟨1, by simp [new, indices], by simp [new]⟩
  covered := by
    intro idx positive low
    simp only [new, ExecutorClient.new] at low
    omega

section Stream

variable {st : ExecutorRun}

variable (streaming : Streaming st)

include streaming

lemma Streaming.move {moved : FlushPoint} (got : st.calls[pos]? = some point)
    (held : moved.held = point.held) (counting : moved.isCounting = point.isCounting)
    (taking : ∀ want, moved = .taking want → want = st.client.nextExpectedIndex)
    (sending : ∀ want blk, moved = .sending want blk →
      want = st.client.nextExpectedIndex) : Streaming (st.moveTo pos moved) := by
  obtain ⟨pre, post, calls, replaced⟩ := split_calls got
  constructor
  · exact streaming.toPlaced.move got held
  · exact streaming.enabled
  · intro want call
    rcases mem_or_eq_of_mem_set call with kept | same
    · exact streaming.taking want kept
    · exact .inl (taking want same.symm)
  · intro want blk call
    rcases mem_or_eq_of_mem_set call with kept | same
    · exact streaming.sending want blk kept
    · exact sending want blk same.symm
  · have sameCount : (pre ++ moved :: post).countP FlushPoint.isCounting =
        (pre ++ point :: post).countP FlushPoint.isCounting := by
      simp only [countP_append, countP_cons, counting]
    have counted := streaming.counted
    rw [calls, ← sameCount, ← replaced] at counted
    exact counted
  · exact streaming.consecutive
  · exact streaming.covered

lemma Streaming.take (got : st.calls[pos]? = some (.taking want))
    (buffered : st.client.sendBuffer[want]? = some blk) :
    Streaming ((st.withBuffer (st.client.sendBuffer.erase want)).moveTo pos
      (.sending want blk)) := by
  obtain ⟨pre, post, calls, replaced⟩ := split_calls got
  have has : want ∈ st.client.sendBuffer :=
    ExtTreeMap.mem_iff_isSome_getElem?.mpr (by simp [buffered])
  have next : want = st.client.nextExpectedIndex :=
    (streaming.taking want (List.mem_of_getElem? got)).resolve_right
      (streaming.buffered_not_written has)
  constructor
  · exact streaming.toPlaced.take got buffered
  · exact streaming.enabled
  · intro other call
    rcases mem_or_eq_of_mem_set call with kept | same
    · exact streaming.taking other kept
    · cases same
  · intro other held call
    rcases mem_or_eq_of_mem_set call with kept | same
    · exact streaming.sending other held kept
    · cases same
      exact next
  · have sameCount : (pre ++ FlushPoint.sending want blk :: post).countP
        FlushPoint.isCounting =
        (pre ++ FlushPoint.taking want :: post).countP FlushPoint.isCounting := by
      simp [FlushPoint.isCounting]
    have counted := streaming.counted
    rw [calls, ← sameCount, ← replaced] at counted
    exact counted
  · exact streaming.consecutive
  · exact streaming.covered

lemma Streaming.ends_before (unwritten : st.client.nextExpectedIndex ∉ st.indices) :
    ∃ first,
      st.indices = range' first st.written.length ∧
        (st.written ≠ [] → first + st.written.length = st.client.nextExpectedIndex) := by
  obtain ⟨first, stream, bounds⟩ := streaming.consecutive
  refine ⟨first, stream, fun nonempty => ?_⟩
  obtain ⟨low, high⟩ := bounds nonempty
  have length := length_pos_iff.mpr nonempty
  by_contra past
  apply unwritten
  rw [stream, mem_range'_1]
  omega

lemma Streaming.write (got : st.calls[pos]? = some (.sending want blk)) :
    Streaming ({ st with written := st.written ++ [(want, blk)] }.moveTo pos
      (.counting want)) := by
  obtain ⟨pre, post, calls, replaced⟩ := split_calls got
  have call := List.mem_of_getElem? got
  have next := streaming.sending want blk call
  have unwritten : want ∉ st.indices := streaming.held_not_written call rfl
  have grown : ({ st with written := st.written ++ [(want, blk)] }.moveTo pos
      (.counting want)).indices = st.indices ++ [want] := by
    simp [indices, moveTo]
  constructor
  · exact streaming.toPlaced.write got
  · exact streaming.enabled
  · intro other moving
    rw [grown, mem_append]
    rcases mem_or_eq_of_mem_set moving with kept | same
    · rcases streaming.taking other kept with same | written
      · exact .inl same
      · exact .inr (.inl written)
    · cases same
  · intro other held moving
    rcases mem_or_eq_of_mem_set moving with kept | same
    · exact streaming.sending other held kept
    · cases same
  · have oneMore : (st.calls.set pos (.counting want)).countP FlushPoint.isCounting =
        st.calls.countP FlushPoint.isCounting + 1 := by
      rw [replaced, calls]
      simp [countP_cons, FlushPoint.isCounting]
      omega
    rw [grown, count_append]
    change (st.calls.set pos (.counting want)).countP FlushPoint.isCounting = _
    rw [oneMore, streaming.counted, next]
    simp [moveTo]
  · obtain ⟨first, stream, ends⟩ := streaming.ends_before (next ▸ unwritten)
    rw [grown]
    change ∃ first, _ = range' first (st.written ++ [(want, blk)]).length ∧
      (_ → st.client.nextExpectedIndex ≤ first + (st.written ++ [(want, blk)]).length ∧
        first + (st.written ++ [(want, blk)]).length ≤ st.client.nextExpectedIndex + 1)
    rw [length_append, length_singleton]
    by_cases empty : st.written = []
    · refine ⟨want, ?_, fun _ => ?_⟩
      · simp [indices, empty]
      · rw [empty, length_nil, next]
        omega
    · have last := ends empty
      refine ⟨first, ?_, fun _ => by omega⟩
      rw [range'_concat, ← stream, Nat.one_mul, last, next]
  · intro idx positive low
    rw [grown, mem_append]
    rcases streaming.covered idx positive low with written | answered
    · exact .inl (.inl written)
    · exact .inr answered

lemma Streaming.count (got : st.calls[pos]? = some (.counting want)) :
    Streaming ((st.withNextExpected (st.client.nextExpectedIndex + 1)).moveTo pos
      .reading) := by
  obtain ⟨pre, post, calls, replaced⟩ := split_calls got
  have oneLess : st.calls.countP FlushPoint.isCounting =
      (st.calls.set pos .reading).countP FlushPoint.isCounting + 1 := by
    rw [replaced, calls]
    simp [countP_cons, FlushPoint.isCounting]
    omega
  have written : st.client.nextExpectedIndex ∈ st.indices := by
    rw [← count_pos_iff, ← streaming.counted, oneLess]
    omega
  have once : st.indices.count st.client.nextExpectedIndex = 1 :=
    count_eq_one_of_mem streaming.indices_nodup written
  obtain ⟨first, stream, bounds⟩ := streaming.consecutive
  have nonempty : st.written ≠ [] := by
    intro empty
    simp [indices, empty] at written
  have inside := written
  rw [stream, mem_range'_1] at inside
  have ends := bounds nonempty
  constructor
  · have moved : Placed (st.moveTo pos .reading) := streaming.toPlaced.move got rfl
    exact ⟨moved.distinct, moved.placed⟩
  · exact streaming.enabled
  · intro other moving
    rcases mem_or_eq_of_mem_set moving with kept | same
    · rcases streaming.taking other kept with rfl | prev
      · exact .inr written
      · exact .inr prev
    · cases same
  · intro other held moving
    rcases mem_or_eq_of_mem_set moving with kept | same
    · have isNext := streaming.sending other held kept
      exact absurd (isNext ▸ written) (streaming.held_not_written kept rfl)
    · cases same
  · change (st.calls.set pos .reading).countP FlushPoint.isCounting =
      st.indices.count (st.client.nextExpectedIndex + 1)
    have absent : st.client.nextExpectedIndex + 1 ∉ st.indices := by
      rw [stream, mem_range'_1]
      omega
    rw [count_eq_zero_of_not_mem absent]
    have counted := streaming.counted
    omega
  · refine ⟨first, stream, fun _ => ?_⟩
    change st.client.nextExpectedIndex + 1 ≤ first + st.written.length ∧
      first + st.written.length ≤ st.client.nextExpectedIndex + 1 + 1
    omega
  · intro idx positive low
    change idx < st.client.nextExpectedIndex + 1 at low
    rcases Nat.lt_or_eq_of_le (Nat.le_of_lt_succ low) with lower | rfl
    · exact streaming.covered idx positive lower
    · exact .inl written

lemma Streaming.restore (got : st.calls[pos]? = some (.restoring want blk)) :
    Streaming ((st.withBuffer (st.client.sendBuffer.insert want blk)).moveTo pos
      .returned) := by
  obtain ⟨pre, post, calls, replaced⟩ := split_calls got
  constructor
  · exact streaming.toPlaced.restore got
  · exact streaming.enabled
  · intro other moving
    rcases mem_or_eq_of_mem_set moving with kept | same
    · exact streaming.taking other kept
    · cases same
  · intro other held moving
    rcases mem_or_eq_of_mem_set moving with kept | same
    · exact streaming.sending other held kept
    · cases same
  · change (st.calls.set pos .returned).countP FlushPoint.isCounting = _
    have counted := streaming.counted
    rw [calls] at counted
    rw [replaced]
    simpa [countP_cons, FlushPoint.isCounting, indices, moveTo, withBuffer] using counted
  · exact streaming.consecutive
  · exact streaming.covered

lemma Streaming.call {idx : Nat} (fresh : idx ∉ st.submitted.map Prod.fst) :
    Streaming (st.sendCommittedSubdag idx blk) := by
  have commits : (st.client.enabled && st.client.canCommit) = true := by simp [streaming.enabled]
  have stored := @Placed.call _ blk streaming.toPlaced idx fresh
  rw [sendCommittedSubdag, if_pos commits] at stored ⊢
  constructor
  · exact stored
  · exact streaming.enabled
  · intro other calling
    rcases mem_append.mp calling with kept | new
    · exact streaming.taking other kept
    · simp at new
  · intro other held calling
    rcases mem_append.mp calling with kept | new
    · exact streaming.sending other held kept
    · simp at new
  · change (st.calls ++ [FlushPoint.connecting]).countP FlushPoint.isCounting = _
    rw [countP_append, streaming.counted]
    rfl
  · exact streaming.consecutive
  · exact streaming.covered

lemma Streaming.answer {lastBlockNumber : Option Nat}
    (orderly : st.Orderly (.answer lastBlockNumber)) :
    Streaming (st.initializeFromGo lastBlockNumber) := by
  cases lastBlockNumber with
  | none =>
    rw [initializeFromGo]
    · exact streaming
    · simp
  | some last =>
    have answered : st.initializeFromGo (some last) =
        { (if st.client.nextExpectedIndex < last + 1 then st.withNextExpected (last + 1)
            else st) with answers := st.answers ++ [last] } := by
      simp only [initializeFromGo, streaming.enabled.1]
    rw [answered]
    by_cases raised : st.client.nextExpectedIndex < last + 1
    · obtain ⟨unwritten, quiet⟩ := orderly raised
      rw [if_pos raised]
      have empty : st.indices = [] := by simp [indices, unwritten]
      constructor
      · exact ⟨streaming.distinct, streaming.placed⟩
      · exact streaming.enabled
      · intro want call
        cases quiet _ call
      · intro want blk call
        cases quiet _ call
      · change st.calls.countP FlushPoint.isCounting = st.indices.count (last + 1)
        rw [empty, count_nil, countP_eq_zero]
        intro point call counting
        have relies : point.relies = true := by
          cases point <;> simp_all [FlushPoint.isCounting, FlushPoint.relies]
        rw [quiet point call] at relies
        cases relies
      · refine ⟨1, ?_, fun nonempty => absurd unwritten nonempty⟩
        change st.indices = range' 1 st.written.length
        rw [empty, unwritten]
        rfl
      · intro idx _ low
        change idx < last + 1 at low
        exact .inr ⟨last, by simp, Nat.le_of_lt_succ low⟩
    · rw [if_neg raised]
      exact
        { toPlaced := ⟨streaming.distinct, streaming.placed⟩
          enabled := streaming.enabled
          taking := streaming.taking
          sending := streaming.sending
          counted := streaming.counted
          consecutive := streaming.consecutive
          covered := fun idx positive low =>
            (streaming.covered idx positive low).imp_right fun ⟨answered, known, bound⟩ =>
              ⟨answered, mem_append_left _ known, bound⟩ }

lemma Streaming.step {act : ExecutorAction} {next : ExecutorRun}
    (orderly : st.Orderly act) (taken : st.step act = some next) :
    Streaming next := by
  cases stepped_of_step taken with
  | call idx blk => exact streaming.call orderly
  | answer lastBlockNumber => exact streaming.answer orderly
  | move got held counting taking sending =>
    exact streaming.move got held counting taking fun want blk same =>
      absurd same (sending want blk)
  | take got buffered => exact streaming.take got buffered
  | write got => exact streaming.write got
  | count got => exact streaming.count got
  | restore got => exact streaming.restore got

end Stream

/-- In every orderly run of a client that may commit, the executor receives consecutive
indices, each once and with the data passed in for it, and no buffered index after the last
block of the executor is passed over. -/
theorem stream_is_consecutive (sched : List ExecutorAction) (final : ExecutorRun)
    (orderly : Heeds step Orderly (new true true) sched)
    (ran : run step (new true true) sched = some final) :
    (∃ first, final.indices = List.range' first final.written.length) ∧
      final.written ⊆ final.submitted ∧
      ∀ idx ∈ final.client.sendBuffer, 1 ≤ idx →
        (∀ last ∈ final.answers, last + 1 ≤ idx) →
        final.client.nextExpectedIndex ≤ idx := by
  have streaming : Streaming final :=
    invariant (fun _ _ _ streaming orderly taken => streaming.step orderly taken)
      new_streaming orderly ran
  refine ⟨?_, ?_, ?_⟩
  · obtain ⟨first, stream, _⟩ := streaming.consecutive
    exact ⟨first, stream⟩
  · intro entry written
    exact streaming.placed.mem_iff.mp (mem_append_right _ written)
  · intro idx buffered positive beyond
    by_contra passed
    rcases streaming.covered idx positive (Nat.lt_of_not_le passed) with written | answered
    · exact streaming.buffered_not_written buffered written
    · obtain ⟨last, known, low⟩ := answered
      have high := beyond last known
      omega

/-- The executor answers before the first write: the blocks after its last one are sent in
order, although they were passed in out of order. -/
theorem stream_after_answer : ∃ final,
    run step (new true true) [.answer (some 4), .call 6 default, .advance 0 true,
      .advance 0 true, .advance 0 true, .call 5 default, .advance 1 true, .advance 1 true,
      .advance 1 true, .advance 1 true, .advance 1 true, .advance 1 true, .advance 1 true,
      .advance 1 true] = some final ∧
    final.indices = [5, 6] ∧
    ∃ first, final.indices = List.range' first final.written.length := by
  have observed : (run step (new true true) [.answer (some 4), .call 6 default,
      .advance 0 true, .advance 0 true, .advance 0 true, .call 5 default, .advance 1 true,
      .advance 1 true, .advance 1 true, .advance 1 true, .advance 1 true, .advance 1 true,
      .advance 1 true, .advance 1 true]).map indices = some [5, 6] := by decide +kernel
  obtain ⟨final, ran, indices⟩ := Option.map_eq_some_iff.mp observed
  exact ⟨final, ran, indices, (stream_is_consecutive _ final
    (heeds_of_checks (fun _ _ => of_decide_eq_true) (by decide +kernel)) ran).1⟩

/-- The executor answers while a call is about to count the block it wrote: the counter is
raised to five and counted up to six, and block five, though it comes right after the last
block of the executor, is never sent. -/
theorem answer_during_flush_passes_over_block : ∃ final,
    run step (new true true) [.call 1 default, .advance 0 true, .advance 0 true,
      .advance 0 true, .advance 0 true, .answer (some 4), .advance 0 true, .advance 0 true,
      .advance 0 true, .call 5 default, .advance 1 true, .advance 1 true,
      .advance 1 true] = some final ∧
    final.submitted.map Prod.fst = [1, 5] ∧ final.indices = [1] ∧
    final.answers = [4] ∧ final.client.sendBuffer.keys = [5] ∧
    final.client.nextExpectedIndex = 6 ∧ ∀ point ∈ final.calls, point = .returned := by
  exact exists_reached (by decide +kernel)

end ExecutorRun

end Mysticeti
