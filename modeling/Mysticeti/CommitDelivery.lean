import Mysticeti.CommitProcessor
import Mysticeti.Lib.OrderedMap

/-!
# Delivery in the order of the commits

Under a barrier that does not change, the processor handles every commit once and in
order, whatever the order of arrival, unless a commit past the barrier is overtaken: it
arrives after all earlier commits and after its successor. The loop then goes back to the
channel without looking at the buffer, and no later arrival lets it look again.
-/

namespace Mysticeti

open List Option Lib.OrderedMap CommittedSubDag

namespace CommitProcessor

section Loop

variable {barrier : CommitIndex} {proc : CommitProcessor} {effects : List CommitEffect}

/-- No snapshot is left over from another barrier. -/
def Steady (barrier : CommitIndex) (proc : CommitProcessor) : Prop :=
  barrier = 0 → proc.barrierSnapshot = 0

lemma Steady.effective (steady : Steady barrier proc) :
    (if 0 < barrier then barrier else proc.barrierSnapshot) = barrier := by
  by_cases positive : 0 < barrier
  · rw [if_pos positive]
  · have zero : barrier = 0 := Nat.eq_zero_of_not_pos positive
    rw [if_neg positive, steady zero, zero]

def handling (barrier : CommitIndex) (proc : CommitProcessor) (dag : CommittedSubDag) :
    List CommitEffect :=
  let idx := dag.commitRef.index
  let globalExecIndex := calculateGlobalExecIndex proc.currentEpoch idx proc.lastGlobalExecIndex
  if pastBarrier barrier idx then [.requeue dag dag.transactionData, .notify idx]
  else .process dag globalExecIndex ::
    ((if proc.executorClient then [.send dag proc.currentEpoch globalExecIndex]
      else []) ++ [.notify idx])

/-- The settings of a processor, which no step changes. -/
structure SameSettings (origin proc : CommitProcessor) : Prop where
  currentEpoch : proc.currentEpoch = origin.currentEpoch
  lastGlobalExecIndex : proc.lastGlobalExecIndex = origin.lastGlobalExecIndex
  executorClient : proc.executorClient = origin.executorClient

lemma SameSettings.handling_eq {origin : CommitProcessor}
    (same : SameSettings origin proc) (dag : CommittedSubDag) :
    proc.handling barrier dag = origin.handling barrier dag := by
  simp only [handling, same.currentEpoch, same.lastGlobalExecIndex, same.executorClient]

lemma settle_receiving {fuel : Nat} (waits : proc.point = .receiving) :
    settle barrier fuel (proc, effects) = (proc, effects) := by
  cases fuel with
  | zero => rfl
  | succ fuel => simp [settle, resume, waits]

variable {dag : CommittedSubDag}

@[simp] lemma takeUp_pendingCommits {point : LoopPoint} :
    (proc.takeUp barrier point dag).1.pendingCommits = proc.pendingCommits := by
  unfold takeUp
  rw [observe_eq]
  dsimp only
  cases pastBarrier _ _ <;> rfl

/-- One commit, from the check of the loop to the point after it: past the barrier the
task goes on at `point`, otherwise it runs `process_commit` and looks at the buffer. -/
lemma settle_takeUp {fuel : Nat} {point : LoopPoint} (steady : Steady barrier proc)
    (want : dag.commitRef.index = proc.nextExpectedIndex) :
    ∃ post, SameSettings proc post ∧ Steady barrier post ∧
      post.nextExpectedIndex = proc.nextExpectedIndex + 1 ∧
      post.pendingCommits = proc.pendingCommits ∧
      post.point = (if pastBarrier barrier dag.commitRef.index then point else .draining) ∧
      settle barrier (fuel + 1) ((proc.takeUp barrier point dag).1,
          effects ++ (proc.takeUp barrier point dag).2) =
        settle barrier (if pastBarrier barrier dag.commitRef.index then fuel + 1 else fuel)
          (post, effects ++ proc.handling barrier dag) := by
  rw [want]
  unfold takeUp
  rw [observe_eq]
  dsimp only
  rw [steady.effective]
  by_cases past : pastBarrier barrier proc.nextExpectedIndex = true
  · refine ⟨{ proc with
      nextExpectedIndex := proc.nextExpectedIndex + 1
      barrierSnapshot := barrier
      point := point }, ⟨rfl, rfl, rfl⟩, fun zero => zero, rfl, rfl, ?_, ?_⟩
    · rw [if_pos past]
    · simp only [if_pos past, handling, want]
  · refine ⟨{ proc with
      nextExpectedIndex := proc.nextExpectedIndex + 1
      barrierSnapshot := barrier
      point := .draining }, ⟨rfl, rfl, rfl⟩, fun zero => zero, rfl, rfl, ?_, ?_⟩
    · rw [if_neg past]
    · simp only [if_neg past, settle, resume, processCommit, handling, want,
        append_assoc, singleton_append]

/-- What looking at the buffer does: the buffered commits that follow each other from the
expected one on are handled, and the first missing one is expected next. -/
structure Drained (barrier : CommitIndex) (pre : CommitProcessor)
    (taken : List CommittedSubDag) (post : CommitProcessor) : Prop where
  settings : SameSettings pre post
  steady : Steady barrier post
  waits : post.point = .receiving
  next : post.nextExpectedIndex = pre.nextExpectedIndex + taken.length
  found : ∀ pos (inside : pos < taken.length),
    pre.pendingCommits[pre.nextExpectedIndex + pos]? = some taken[pos]
  missing : post.pendingCommits[post.nextExpectedIndex]? = none
  kept : ∀ idx, ¬ (pre.nextExpectedIndex ≤ idx ∧ idx < post.nextExpectedIndex) →
    post.pendingCommits[idx]? = pre.pendingCommits[idx]?
  removed : ∀ idx, pre.nextExpectedIndex ≤ idx → idx < post.nextExpectedIndex →
    post.pendingCommits[idx]? = none

lemma drained_of_missing (steady : Steady barrier proc)
    (missing : proc.pendingCommits[proc.nextExpectedIndex]? = none) :
    Drained barrier proc [] { proc with point := .receiving } where
  settings := ⟨rfl, rfl, rfl⟩
  steady := steady
  waits := rfl
  next := rfl
  found := fun _ inside => absurd inside (Nat.not_lt_zero _)
  missing := missing
  kept := fun _ _ => rfl
  removed := fun _ low high => absurd high (Nat.not_lt_of_le low)

lemma Drained.cons {mid post : CommitProcessor} {taken : List CommittedSubDag}
    (got : proc.pendingCommits[proc.nextExpectedIndex]? = some dag)
    (cfg : SameSettings proc mid)
    (next : mid.nextExpectedIndex = proc.nextExpectedIndex + 1)
    (erased : mid.pendingCommits = proc.pendingCommits.erase proc.nextExpectedIndex)
    (drained : Drained barrier mid taken post) :
    Drained barrier proc (dag :: taken) post := by
  have other : ∀ idx, idx ≠ proc.nextExpectedIndex →
      mid.pendingCommits[idx]? = proc.pendingCommits[idx]? := by
    intro idx ne
    rw [erased, getElem?_erase_of_ne ne]
  have final := drained.next
  rw [next] at final
  constructor
  · exact ⟨drained.settings.currentEpoch.trans cfg.currentEpoch,
      drained.settings.lastGlobalExecIndex.trans cfg.lastGlobalExecIndex,
      drained.settings.executorClient.trans cfg.executorClient⟩
  · exact drained.steady
  · exact drained.waits
  · rw [final, length_cons, Nat.add_assoc, Nat.add_comm 1]
  · intro pos inside
    cases pos with
    | zero => exact got
    | succ pos =>
      have later := drained.found pos (Nat.lt_of_succ_lt_succ inside)
      rw [next, Nat.add_assoc, Nat.add_comm 1] at later
      rw [other _ (by lia)] at later
      exact later
  · exact drained.missing
  · intro idx outside
    rw [drained.kept idx (by lia), other idx (by lia)]
  · intro idx low high
    by_cases same : idx = proc.nextExpectedIndex
    · rw [drained.kept idx (by lia), erased, same]
      simp
    · exact drained.removed idx (by lia) high

lemma settle_drains {fuel : Nat} (drains : proc.point = .draining)
    (steady : Steady barrier proc)
    (keyed : ∀ (idx : CommitIndex) (dag : CommittedSubDag),
      proc.pendingCommits[idx]? = some dag → dag.commitRef.index = idx)
    (enough : 2 * proc.pendingCommits.size + 1 ≤ fuel) :
    ∃ taken post, Drained barrier proc taken post ∧
      settle barrier fuel (proc, effects) =
        (post, effects ++ taken.flatMap (proc.handling barrier)) := by
  induction fuel using Nat.strong_induction_on generalizing proc effects with
  | _ fuel ih =>
    cases got : proc.pendingCommits[proc.nextExpectedIndex]? with
    | none =>
      obtain ⟨fuel, rfl⟩ : ∃ less, fuel = less + 1 := ⟨fuel - 1, by lia⟩
      refine ⟨[], _, drained_of_missing steady got, ?_⟩
      simp only [settle, resume, drains, got]
      rw [settle_receiving rfl]
      simp
    | some dag =>
      have smaller := size_erase_of_getElem? got
      obtain ⟨fuel, rfl⟩ : ∃ less, fuel = less + 3 := ⟨fuel - 3, by lia⟩
      obtain ⟨mid, cfg, settled, next, erased, point, ran⟩ := @settle_takeUp barrier
        { proc with
          pendingCommits := proc.pendingCommits.erase proc.nextExpectedIndex }
        effects dag (fuel + 1) .draining steady (keyed _ _ got)
      have drainsOn : mid.point = .draining := by
        rw [point]
        split <;> rfl
      have keyedOn : ∀ (idx : CommitIndex) (other : CommittedSubDag),
          mid.pendingCommits[idx]? = some other → other.commitRef.index = idx := by
        intro idx other has
        rw [erased] at has
        exact keyed idx other (getElem?_of_erase has)
      obtain ⟨taken, post, drained, rest⟩ := @ih
        (if pastBarrier barrier dag.commitRef.index then fuel + 2 else fuel + 1)
        (by split <;> lia) mid (effects ++ proc.handling barrier dag) drainsOn
        settled keyedOn (by rw [erased]; dsimp only; split <;> lia)
      refine ⟨dag :: taken, post, drained.cons got ⟨cfg.1, cfg.2, cfg.3⟩
        next erased, ?_⟩
      have sameHandling : mid.handling barrier = proc.handling barrier :=
        funext fun other => cfg.handling_eq other
      rw [sameHandling] at rest
      rw [flatMap_cons, ← append_assoc]
      refine Eq.trans ?_ (ran.trans rest)
      rw [settle]
      simp only [resume, drains, got]

end Loop

section Arrivals

variable {barrier : CommitIndex} {origin : CommitProcessor}
  {commits recv : List CommittedSubDag} {count : Nat}
  {st : CommitProcessor × List CommitEffect}

/-- The commits of an epoch in order: their indices count from one. -/
def Numbered (commits : List CommittedSubDag) : Prop :=
  ∀ pos (inside : pos < commits.length), commits[pos].commitRef.index = pos + 1

lemma numbered_of_map {total : Nat}
    (indices : commits.map (fun dag => dag.commitRef.index) = range' 1 total) :
    Numbered commits := by
  intro pos inside
  have entry := congrArg (fun list => list[pos]?) indices
  have bound : pos < total := by
    have lengths := congrArg List.length indices
    simp only [length_map, length_range'] at lengths
    lia
  simp only [getElem?_map, getElem?_eq_getElem inside, map_some,
    getElem?_range' bound, some.injEq] at entry
  lia

lemma Numbered.position (numbered : Numbered commits) (mem : dag ∈ commits) :
    ∃ pos, ∃ inside : pos < commits.length,
      commits[pos] = dag ∧ dag.commitRef.index = pos + 1 := by
  obtain ⟨pos, inside, rfl⟩ := mem_iff_getElem.mp mem
  exact ⟨pos, inside, rfl, numbered pos inside⟩

lemma Numbered.unique (numbered : Numbered commits) {left right : CommittedSubDag}
    (leftMember : left ∈ commits) (rightMember : right ∈ commits)
    (same : left.commitRef.index = right.commitRef.index) : left = right := by
  obtain ⟨i, insideLeft, rfl, leftIndex⟩ := numbered.position leftMember
  obtain ⟨j, insideRight, rfl, rightIndex⟩ := numbered.position rightMember
  have positions : i = j := by lia
  subst positions
  rfl

/-- The processor after some of the commits arrived: the first `count` commits are handled
in order, and the others that arrived are buffered. -/
structure Standing (barrier : CommitIndex) (origin : CommitProcessor)
    (commits recv : List CommittedSubDag) (count : Nat)
    (st : CommitProcessor × List CommitEffect) : Prop where
  settings : SameSettings origin st.1
  steady : Steady barrier st.1
  waits : st.1.point = .receiving
  next : st.1.nextExpectedIndex = count + 1
  bounded : count ≤ commits.length
  handled : st.2 = (commits.take count).flatMap (origin.handling barrier)
  arrived : ∀ dag ∈ commits, dag.commitRef.index ≤ count → dag ∈ recv
  stored : ∀ (idx : CommitIndex) (dag : CommittedSubDag),
    st.1.pendingCommits[idx]? = some dag ↔
      dag ∈ recv ∧ dag.commitRef.index = idx ∧ count < idx

/-- The expected commit has arrived already: the processor waits for it forever. -/
def Stuck (count : Nat) (recv : List CommittedSubDag) : Prop :=
  ∃ dag ∈ recv, dag.commitRef.index = count + 1

lemma standing_new (numbered : Numbered commits) {epoch : Epoch} {lastExec : Nat}
    {client : Bool} : Standing barrier (new epoch lastExec client) commits [] 0
      (new epoch lastExec client, []) where
  settings := ⟨rfl, rfl, rfl⟩
  steady := fun _ => rfl
  waits := rfl
  next := rfl
  bounded := Nat.zero_le _
  handled := by simp
  arrived := by
    intro dag mem low
    obtain ⟨pos, _, _, idx⟩ := numbered.position mem
    lia
  stored := by simp [new]

lemma handle_eq (barrier : CommitIndex) (st : CommitProcessor × List CommitEffect)
    (dag : CommittedSubDag) : handle barrier st dag =
      settle barrier (2 * (st.1.receive barrier dag).1.pendingCommits.size + 2)
        ((st.1.receive barrier dag).1, st.2 ++ (st.1.receive barrier dag).2) := rfl

lemma Standing.store (standing : Standing barrier origin commits recv count st)
    (later : count + 1 < dag.commitRef.index)
    (fresh : ∀ other ∈ recv, other.commitRef.index ≠ dag.commitRef.index) :
    Standing barrier origin commits (recv ++ [dag]) count
      (handle barrier st dag) := by
  have unexpected : ¬ dag.commitRef.index = st.1.nextExpectedIndex := by
    rw [standing.next]
    lia
  have buffered : st.1.receive barrier dag = ({ st.1 with
      pendingCommits := st.1.pendingCommits.insert dag.commitRef.index dag }, []) := by
    rw [receive, if_neg unexpected, if_pos (by rw [standing.next]; exact later)]
  rw [handle_eq, buffered]
  dsimp only
  rw [settle_receiving (by exact standing.waits)]
  constructor
  · exact ⟨standing.settings.1, standing.settings.2, standing.settings.3⟩
  · exact standing.steady
  · exact standing.waits
  · exact standing.next
  · exact standing.bounded
  · rw [append_nil]
    exact standing.handled
  · intro other mem low
    exact mem_append_left _ (standing.arrived other mem low)
  · intro idx other
    by_cases same : idx = dag.commitRef.index
    · subst same
      simp only [Std.ExtTreeMap.getElem?_insert_self, some.injEq, mem_append, mem_singleton]
      constructor
      · rintro rfl
        exact ⟨.inr rfl, rfl, by lia⟩
      · rintro ⟨mem | rfl, idx, _⟩
        · exact absurd idx (fresh other mem)
        · rfl
    · rw [getElem?_insert_of_ne same, standing.stored]
      simp only [mem_append, mem_singleton]
      constructor
      · rintro ⟨mem, rest⟩
        exact ⟨.inl mem, rest⟩
      · rintro ⟨mem | rfl, idx, high⟩
        · exact ⟨mem, idx, high⟩
        · exact absurd idx.symm same

/-- The expected commit is taken up. What follows depends on the barrier only through the
point at which the task goes on. -/
lemma Standing.handle_expected (standing : Standing barrier origin commits recv count st)
    (want : dag.commitRef.index = count + 1) :
    ∃ post, SameSettings origin post ∧ Steady barrier post ∧
      post.nextExpectedIndex = count + 2 ∧ post.pendingCommits = st.1.pendingCommits ∧
      post.point = (if pastBarrier barrier dag.commitRef.index then .receiving
        else .draining) ∧
      handle barrier st dag = settle barrier
        (if pastBarrier barrier dag.commitRef.index then 2 * st.1.pendingCommits.size + 2
          else 2 * st.1.pendingCommits.size + 1)
        (post, st.2 ++ origin.handling barrier dag) := by
  have next : dag.commitRef.index = st.1.nextExpectedIndex := by rw [want, standing.next]
  have taken : st.1.receive barrier dag = st.1.takeUp barrier .receiving dag := by
    rw [receive, if_pos next]
  obtain ⟨post, cfg, steady, follows, pending, point, ran⟩ := @settle_takeUp barrier
    st.1 st.2 dag (2 * st.1.pendingCommits.size + 1) .receiving standing.steady next
  refine ⟨post, ⟨cfg.1.trans standing.settings.1, cfg.2.trans standing.settings.2,
    cfg.3.trans standing.settings.3⟩, steady, ?_, pending, point, ?_⟩
  · rw [follows, standing.next]
  · rw [handle_eq, taken, takeUp_pendingCommits, ran, standing.settings.handling_eq]

lemma Numbered.take_succ (numbered : Numbered commits) (mem : dag ∈ commits)
    (want : dag.commitRef.index = count + 1) :
    count < commits.length ∧ commits.take (count + 1) = commits.take count ++ [dag] := by
  obtain ⟨pos, inside, same, idx⟩ := numbered.position mem
  have here : pos = count := by lia
  subst here
  exact ⟨inside, by rw [take_succ_eq_append_getElem inside, same]⟩

lemma Numbered.take_append (numbered : Numbered commits) {run : List CommittedSubDag}
    (bounded : count ≤ commits.length)
    (follow : ∀ pos (low : pos < run.length), run[pos] ∈ commits ∧
      run[pos].commitRef.index = count + 1 + pos) :
    count + run.length ≤ commits.length ∧
      commits.take (count + run.length) = commits.take count ++ run := by
  induction run generalizing count with
  | nil => exact ⟨bounded, by simp⟩
  | cons dag rest ih =>
    obtain ⟨mem, idx⟩ := follow 0 (Nat.zero_lt_succ _)
    rw [getElem_cons_zero] at mem idx
    obtain ⟨inside, taken⟩ := numbered.take_succ mem idx
    have later := @ih (count + 1) inside (by
      intro pos low
      obtain ⟨has, idx⟩ := follow (pos + 1) (Nat.succ_lt_succ low)
      rw [getElem_cons_succ] at has idx
      exact ⟨has, by lia⟩)
    rw [length_cons, Nat.add_comm rest.length, ← Nat.add_assoc]
    exact ⟨later.1, by rw [later.2, taken, append_assoc, singleton_append]⟩

section

variable (standing : Standing barrier origin commits recv count st)

include standing

lemma Standing.arrived_succ (numbered : Numbered commits) (mem : dag ∈ commits)
    (want : dag.commitRef.index = count + 1) (other : CommittedSubDag)
    (otherMember : other ∈ commits) (low : other.commitRef.index ≤ count + 1) :
    other ∈ recv ++ [dag] := by
  rcases Nat.lt_or_eq_of_le low with lower | same
  · exact mem_append_left _ (standing.arrived other otherMember (Nat.le_of_lt_succ lower))
  · rw [numbered.unique otherMember mem (same.trans want.symm)]
    simp

lemma Standing.skip (numbered : Numbered commits) (mem : dag ∈ commits)
    (want : dag.commitRef.index = count + 1)
    (fresh : ∀ other ∈ recv, other.commitRef.index ≠ dag.commitRef.index)
    (past : pastBarrier barrier dag.commitRef.index = true) :
    Standing barrier origin commits (recv ++ [dag]) (count + 1)
      (handle barrier st dag) := by
  obtain ⟨post, cfg, steady, follows, pending, point, ran⟩ := standing.handle_expected want
  obtain ⟨inside, taken⟩ := numbered.take_succ mem want
  rw [if_pos past] at point
  rw [ran, settle_receiving point]
  constructor
  · exact cfg
  · exact steady
  · exact point
  · exact follows
  · exact inside
  · rw [standing.handled, taken, flatMap_append, flatMap_singleton]
  · exact standing.arrived_succ numbered mem want
  · intro idx other
    dsimp only
    rw [pending, standing.stored]
    simp only [mem_append, mem_singleton]
    constructor
    · rintro ⟨has, rfl, high⟩
      have ne := fresh other has
      exact ⟨.inl has, rfl, by lia⟩
    · rintro ⟨has | rfl, rfl, high⟩
      · exact ⟨has, rfl, by lia⟩
      · lia

lemma Standing.process (numbered : Numbered commits) (mem : dag ∈ commits)
    (known : ∀ other ∈ recv, other ∈ commits) (want : dag.commitRef.index = count + 1)
    (fresh : ∀ other ∈ recv, other.commitRef.index ≠ dag.commitRef.index)
    (inside : ¬ pastBarrier barrier dag.commitRef.index = true) :
    ∃ final, Standing barrier origin commits (recv ++ [dag]) final
      (handle barrier st dag) ∧ ¬ Stuck final (recv ++ [dag]) := by
  obtain ⟨mid, cfg, steady, follows, pending, point, ran⟩ := standing.handle_expected want
  obtain ⟨bounded, taken⟩ := numbered.take_succ mem want
  rw [if_neg inside] at point ran
  obtain ⟨drainedCommits, post, drained, rest⟩ := @settle_drains barrier mid
    (st.2 ++ origin.handling barrier dag) (2 * st.1.pendingCommits.size + 1) point
    steady (fun idx other got => by
      rw [pending] at got
      exact ((standing.stored idx other).mp got).2.1) (by rw [pending])
  have sameHandling : mid.handling barrier = origin.handling barrier :=
    funext fun other => cfg.handling_eq other
  have drainedMember : ∀ pos (low : pos < drainedCommits.length),
      drainedCommits[pos] ∈ recv ∧ drainedCommits[pos].commitRef.index = count + 2 + pos := by
    intro pos low
    have got := drained.found pos low
    rw [follows, pending, standing.stored] at got
    exact ⟨got.1, got.2.1⟩
  have next : post.nextExpectedIndex = count + 2 + drainedCommits.length := by
    rw [drained.next, follows]
  have together := @Numbered.take_append commits count numbered (dag :: drainedCommits)
    standing.bounded (by
      intro pos low
      cases pos with
      | zero => exact ⟨mem, want⟩
      | succ pos =>
        obtain ⟨has, idx⟩ := drainedMember pos (Nat.lt_of_succ_lt_succ low)
        refine ⟨known _ has, ?_⟩
        rw [getElem_cons_succ, idx]
        lia)
  refine ⟨count + 1 + drainedCommits.length, ?_, ?_⟩
  · rw [ran, rest]
    constructor
    · exact ⟨drained.settings.1.trans cfg.1, drained.settings.2.trans cfg.2,
        drained.settings.3.trans cfg.3⟩
    · exact drained.steady
    · exact drained.waits
    · rw [next]
      lia
    · have length := together.1
      rw [length_cons] at length
      lia
    · dsimp only
      rw [sameHandling, standing.handled, Nat.add_right_comm, Nat.add_assoc, ← length_cons,
        together.2, flatMap_append, flatMap_cons, append_assoc]
    · intro other otherMember low
      by_cases early : other.commitRef.index ≤ count + 1
      · exact standing.arrived_succ numbered mem want other otherMember early
      · have pos : other.commitRef.index - (count + 2) < drainedCommits.length := by lia
        obtain ⟨has, idx⟩ := drainedMember _ pos
        rw [numbered.unique otherMember (known _ has) (by lia)]
        exact mem_append_left _ has
    · intro idx other
      dsimp only
      by_cases gone : count + 2 ≤ idx ∧ idx < count + 2 + drainedCommits.length
      · rw [drained.removed idx (by rw [follows]; exact gone.1) (by rw [next]; exact gone.2)]
        constructor
        · intro impossible
          cases impossible
        · rintro ⟨_, _, high⟩
          lia
      · rw [drained.kept idx (by rw [follows, next]; exact gone), pending, standing.stored]
        constructor
        · rintro ⟨has, rfl, high⟩
          have ne := fresh other has
          exact ⟨mem_append_left _ has, rfl, by lia⟩
        · rintro ⟨has, rfl, high⟩
          rcases mem_append.mp has with has | last
          · exact ⟨has, rfl, by lia⟩
          · rw [mem_singleton.mp last] at high
            lia
  · rintro ⟨other, has, idx⟩
    rcases mem_append.mp has with has | last
    · have got := (standing.stored _ other).mpr ⟨has, rfl, by lia⟩
      rw [← pending, ← drained.kept _ (by lia), idx] at got
      have missing := drained.missing
      rw [next] at missing
      rw [show count + 1 + drainedCommits.length + 1 = count + 2 + drainedCommits.length by lia,
        missing] at got
      cases got
    · rw [mem_singleton.mp last] at idx
      lia

end

/-- A commit past the barrier arrives after all earlier commits and after its successor. -/
def OvertakenAt (barrier : CommitIndex) (prev : List CommittedSubDag)
    (dag : CommittedSubDag) : Prop :=
  pastBarrier barrier dag.commitRef.index = true ∧
    (∀ idx, 1 ≤ idx → idx < dag.commitRef.index →
      ∃ other ∈ prev, other.commitRef.index = idx) ∧
    ∃ other ∈ prev, other.commitRef.index = dag.commitRef.index + 1

def Overtaken (barrier : CommitIndex) (arrivals : List CommittedSubDag) : Prop :=
  ∃ prev dag later, arrivals = prev ++ dag :: later ∧ OvertakenAt barrier prev dag

lemma overtaken_append_singleton :
    Overtaken barrier (recv ++ [dag]) ↔
      Overtaken barrier recv ∨ OvertakenAt barrier recv dag := by
  constructor
  · rintro ⟨prev, other, later, split, overtaken⟩
    induction later using reverseRecOn with
    | nil =>
      obtain ⟨rfl, rfl⟩ := append_singleton_inj.mp split
      exact .inr overtaken
    | append_singleton later last _ =>
      rw [← cons_append, ← append_assoc] at split
      obtain ⟨rfl, rfl⟩ := append_singleton_inj.mp split
      exact .inl ⟨prev, other, later, rfl, overtaken⟩
  · rintro (⟨prev, other, later, rfl, overtaken⟩ | overtaken)
    · exact ⟨prev, other, later ++ [dag], by simp, overtaken⟩
    · exact ⟨recv, dag, [], rfl, overtaken⟩

lemma Standing.arrive (standing : Standing barrier origin commits recv count st)
    (numbered : Numbered commits) (mem : dag ∈ commits)
    (known : ∀ other ∈ recv, other ∈ commits) (fresh : dag ∉ recv) :
    ∃ final, Standing barrier origin commits (recv ++ [dag]) final
        (handle barrier st dag) ∧
      (Stuck final (recv ++ [dag]) ↔
        Stuck count recv ∨ OvertakenAt barrier recv dag) := by
  have nodup : ∀ other ∈ recv, other.commitRef.index ≠ dag.commitRef.index :=
    fun other has same => fresh (numbered.unique (known other has) mem same ▸ has)
  have notHandled : count < dag.commitRef.index := by
    by_contra low
    exact fresh (standing.arrived dag mem (Nat.le_of_not_lt low))
  have mono : Stuck count recv → Stuck count (recv ++ [dag]) := by
    rintro ⟨other, has, idx⟩
    exact ⟨other, mem_append_left _ has, idx⟩
  rcases Nat.lt_or_eq_of_le notHandled with later | want
  · -- The arrival is buffered, and no earlier one completes the prefix before it.
    refine ⟨count, standing.store later nodup, ?_⟩
    constructor
    · rintro ⟨other, has, idx⟩
      rcases mem_append.mp has with has | last
      · exact .inl ⟨other, has, idx⟩
      · rw [mem_singleton.mp last] at idx
        lia
    · rintro (stuck | ⟨_, complete, _⟩)
      · exact mono stuck
      · exact mono (complete (count + 1) (by lia) later)
  · have want : dag.commitRef.index = count + 1 := want.symm
    have free : ¬ Stuck count recv := by
      rintro ⟨other, has, idx⟩
      exact nodup other has (idx.trans want.symm)
    by_cases past : pastBarrier barrier dag.commitRef.index = true
    · refine ⟨count + 1, standing.skip numbered mem want nodup past, ?_⟩
      constructor
      · rintro ⟨other, has, idx⟩
        rcases mem_append.mp has with has | last
        · refine .inr ⟨past, ?_, other, has, by rw [idx, want]⟩
          intro prev positive low
          have inside := (numbered.take_succ mem want).1
          have pos : prev - 1 < commits.length := by lia
          refine ⟨commits[prev - 1], standing.arrived _ (getElem_mem pos) ?_, ?_⟩
          · rw [numbered _ pos]
            lia
          · rw [numbered _ pos]
            lia
        · rw [mem_singleton.mp last] at idx
          lia
      · rintro (stuck | ⟨_, _, other, has, idx⟩)
        · exact absurd stuck free
        · exact ⟨other, mem_append_left _ has, by rw [idx, want]⟩
    · obtain ⟨final, stands, unstuck⟩ :=
        standing.process numbered mem known want nodup past
      refine ⟨final, stands, ?_⟩
      constructor
      · intro stuck
        exact absurd stuck unstuck
      · rintro (stuck | ⟨overtaken, _⟩)
        · exact absurd stuck free
        · exact absurd overtaken past

/-- After any distinct arrivals the processor stands at some count, and it is stuck
exactly when one of them was overtaken. -/
lemma handleAll_standing (numbered : Numbered commits) {epoch : Epoch}
    {lastExec : Nat} {client : Bool} (arrivals : List CommittedSubDag)
    (known : ∀ dag ∈ arrivals, dag ∈ commits) (nodup : arrivals.Nodup) :
    ∃ count, Standing barrier (new epoch lastExec client) commits arrivals count
        (handleAll barrier arrivals (new epoch lastExec client)) ∧
      (Stuck count arrivals ↔ Overtaken barrier arrivals) := by
  induction arrivals using reverseRecOn with
  | nil =>
    refine ⟨0, standing_new numbered, ?_⟩
    constructor
    · rintro ⟨_, has, _⟩
      simp at has
    · rintro ⟨prev, dag, later, split, _⟩
      simp at split
  | append_singleton arrivals dag ih =>
    obtain ⟨count, standing, stuck⟩ := ih
      (fun other has => known other (mem_append_left _ has))
      (List.Nodup.of_append_left nodup)
    obtain ⟨final, stands, stuckNext⟩ := standing.arrive numbered (known dag (by simp))
      (fun other has => known other (mem_append_left _ has))
      (fun has => (nodup_append.mp nodup).2.2 dag has dag (by simp) rfl)
    refine ⟨final, ?_, ?_⟩
    · rw [handleAll, foldl_append]
      exact stands
    · rw [stuckNext, stuck, overtaken_append_singleton]

lemma Standing.complete_iff {arrivals : List CommittedSubDag}
    (standing : Standing barrier origin commits arrivals count st)
    (numbered : Numbered commits) (all : arrivals.Perm commits) :
    (st.2 = commits.flatMap (origin.handling barrier) ∧ st.1.pendingCommits = ∅) ↔
      ¬ Stuck count arrivals := by
  constructor
  · rintro ⟨_, empty⟩ ⟨dag, has, idx⟩
    have got := (standing.stored _ dag).mpr ⟨has, rfl, by lia⟩
    rw [empty] at got
    simp at got
  · intro free
    have finished : count = commits.length := by
      by_contra unfinished
      have inside : count < commits.length := Nat.lt_of_le_of_ne standing.bounded unfinished
      exact free ⟨commits[count], all.mem_iff.mpr (getElem_mem inside), numbered count inside⟩
    refine ⟨?_, ?_⟩
    · rw [standing.handled, finished, take_length]
    · rw [Std.ExtTreeMap.eq_empty_iff_forall_not_mem]
      intro idx stored
      obtain ⟨dag, got⟩ := getElem?_of_mem stored
      obtain ⟨has, same, high⟩ := (standing.stored idx dag).mp got
      obtain ⟨pos, inside, _, number⟩ := numbered.position (all.mem_iff.mp has)
      lia

/-- Every commit of an epoch is handled once and in order, and none is left in the buffer,
exactly when no commit past the barrier arrives after all earlier commits and after its
successor. Up to the barrier (with no barrier, always) a commit is passed to
`process_commit`; past it, its transactions are queued. -/
theorem handles_each_once_in_order_iff (total : Nat) (commits arrivals : List CommittedSubDag)
    (barrier : CommitIndex) (epoch : Epoch) (lastExec : Nat) (client : Bool)
    (indices : commits.map (fun dag => dag.commitRef.index) = List.range' 1 total)
    (all : arrivals.Perm commits) :
    ((handleAll barrier arrivals (new epoch lastExec client)).2 =
          commits.flatMap ((new epoch lastExec client).handling barrier) ∧
        (handleAll barrier arrivals (new epoch lastExec client)).1.pendingCommits = ∅) ↔
      ¬ Overtaken barrier arrivals := by
  have numbered := numbered_of_map indices
  have commitsDistinct : commits.Nodup := by
    apply List.Nodup.of_map (fun dag => dag.commitRef.index)
    rw [indices]
    exact nodup_range'
  obtain ⟨count, standing, stuck⟩ := @handleAll_standing barrier commits numbered epoch
    lastExec client arrivals (fun dag has => all.mem_iff.mp has)
    (all.nodup_iff.mpr commitsDistinct)
  rw [standing.complete_iff numbered all, stuck]

/-- Commit three overtakes commit two, which is past the barrier: commit two is skipped,
and commit three stays in the buffer with its transaction. -/
theorem overtaken_commit_stays_pending :
    let commits := [singleTransaction 1, singleTransaction 2, singleTransaction 3]
    let arrivals := [singleTransaction 1, singleTransaction 3, singleTransaction 2]
    commits.map (fun dag => dag.commitRef.index) = range' 1 3 ∧
      arrivals.Perm commits ∧
      (handleAll 1 arrivals (new 0 0 true)).2 =
        [.process (singleTransaction 1) 1, .send (singleTransaction 1) 0 1, .notify 1,
          .requeue (singleTransaction 2) [[2]], .notify 2] ∧
      (handleAll 1 arrivals (new 0 0 true)).1.pendingCommits.toList = [(3, singleTransaction 3)] ∧
      ¬ ((handleAll 1 arrivals (new 0 0 true)).2 = commits.flatMap ((new 0 0 true).handling 1) ∧
        (handleAll 1 arrivals (new 0 0 true)).1.pendingCommits = ∅) := by
  refine ⟨by decide +kernel, by decide +kernel, by decide +kernel, by decide +kernel, ?_⟩
  rintro ⟨_, empty⟩
  have size := congrArg Std.ExtTreeMap.size empty
  exact absurd size (by decide +kernel)

theorem handles_reversed_arrivals :
    (handleAll 2 [singleTransaction 3, singleTransaction 2, singleTransaction 1]
        (new 0 0 true)).2 =
      [singleTransaction 1, singleTransaction 2, singleTransaction 3].flatMap
        ((new 0 0 true).handling 2) ∧
    (handleAll 2 [singleTransaction 3, singleTransaction 2, singleTransaction 1]
        (new 0 0 true)).1.pendingCommits = ∅ := by
  refine (handles_each_once_in_order_iff 3
    [singleTransaction 1, singleTransaction 2, singleTransaction 3]
    [singleTransaction 3, singleTransaction 2, singleTransaction 1] 2 0 0 true
    (by decide +kernel) (by decide +kernel)).mpr ?_
  rintro ⟨prev, dag, later, split, past, _, other, has, idx⟩
  have members : ∀ listed ∈ prev ++ dag :: later, listed.commitRef.index ≤ 3 := by
    rw [← split]
    decide +kernel
  have high := members other (mem_append_left _ has)
  have third : dag.commitRef.index = 3 := by
    have low := members dag (by simp)
    simp only [pastBarrier, Bool.and_eq_true, decide_eq_true_eq] at past
    lia
  lia

end Arrivals

end CommitProcessor

end Mysticeti
