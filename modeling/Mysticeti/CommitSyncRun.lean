import Mysticeti.CommitSyncer
import Mysticeti.Lib.Log

/-!
# No gap in the commits that are fetched

Every commit index above the synced one and up to the highest scheduled one is in exactly one
range: pending, requested, fetched, or handed to Core. The ranges move between the collections as
a permutation of one list; what changes the list is scheduling, a partial result, and a range that
is synced. A batch handed to Core starts at most one after Core's last commit, so Core finds no
gap.
-/

namespace Mysticeti

open List Option Lib.Machine Lib.OrderedMap Lib.Log Std

namespace CommitRange

lemma contains_iff {range : CommitRange} {idx : CommitIndex} :
    range.contains idx = true ↔ range.start ≤ idx ∧ idx < range.stop := by
  simp [contains]

lemma contains_new {first last idx : CommitIndex} :
    (new first last).contains idx = true ↔ first ≤ idx ∧ idx ≤ last := by
  rw [contains_iff, new, Nat.lt_succ_iff]

end CommitRange

/-- The ranges cover the indices above the synced one up to the highest, none twice. -/
structure Covered (ranges : List CommitRange) (synced highest : CommitIndex) : Prop where
  nonempty : ∀ range ∈ ranges, range.start < range.stop
  bounded : ∀ range ∈ ranges, range.last ≤ highest
  once : ∀ idx, ranges.countP (·.contains idx) ≤ 1
  covers : ∀ idx, synced < idx → idx ≤ highest → 1 ≤ ranges.countP (·.contains idx)

namespace Covered

variable {ranges others : List CommitRange} {range : CommitRange}
  {synced highest : CommitIndex}

lemma perm (covered : Covered ranges synced highest) (same : ranges.Perm others) :
    Covered others synced highest where
  nonempty range mem := covered.nonempty range (same.mem_iff.mpr mem)
  bounded range mem := covered.bounded range (same.mem_iff.mpr mem)
  once idx := by
    rw [← same.countP_eq]
    exact covered.once idx
  covers idx above below := by
    rw [← same.countP_eq]
    exact covered.covers idx above below

lemma raise {later : CommitIndex} (covered : Covered ranges synced highest)
    (raised : synced ≤ later) : Covered ranges later highest :=
  { covered with
    covers := fun idx above below => covered.covers idx (Nat.lt_of_le_of_lt raised above) below }

lemma drop (covered : Covered (range :: others) synced highest) (done : range.last ≤ synced) :
    Covered others synced highest where
  nonempty other mem := covered.nonempty other (mem_cons_of_mem _ mem)
  bounded other mem := covered.bounded other (mem_cons_of_mem _ mem)
  once idx := by
    have counted := covered.once idx
    rw [countP_cons] at counted
    lia
  covers idx above below := by
    have counted := covered.covers idx above below
    have outside : ¬ range.contains idx = true := by
      rw [CommitRange.contains_iff]
      have last : range.last = range.stop - 1 := rfl
      lia
    rwa [countP_cons, if_neg outside] at counted

lemma extend (covered : Covered ranges synced highest) {batchSize : Nat}
    (pos : 0 < batchSize) :
    Covered (.new (max synced highest + 1) (max synced highest + batchSize) :: ranges) synced
      (max synced highest + batchSize) where
  nonempty other mem := by
    rcases mem_cons.mp mem with rfl | mem
    · exact Nat.succ_lt_succ (Nat.lt_add_of_pos_right pos)
    · exact covered.nonempty other mem
  bounded other mem := by
    rcases mem_cons.mp mem with rfl | mem
    · exact Nat.le_refl _
    · have below := covered.bounded other mem
      lia
  once idx := by
    rw [countP_cons]
    by_cases new : (CommitRange.new (max synced highest + 1)
        (max synced highest + batchSize)).contains idx = true
    · -- the scheduled ranges end before the new one
      have absent : ranges.countP (·.contains idx) = 0 := by
        refine countP_eq_zero.mpr fun other mem inside => ?_
        have below := covered.bounded other mem
        have last : other.last = other.stop - 1 := rfl
        rw [CommitRange.contains_new] at new
        rw [CommitRange.contains_iff] at inside
        lia
      rw [absent, if_pos new]
    · rw [if_neg new]
      exact covered.once idx
  covers idx above below := by
    rw [countP_cons]
    by_cases old : idx ≤ highest
    · exact Nat.le_add_right_of_le (covered.covers idx above old)
    · have new : (CommitRange.new (max synced highest + 1)
          (max synced highest + batchSize)).contains idx = true := by
        rw [CommitRange.contains_new]
        lia
      rw [if_pos new]
      exact Nat.le_add_left _ _

lemma extend_fresh (covered : Covered ranges synced highest) {batchSize : Nat}
    (pos : 0 < batchSize) :
    CommitRange.new (max synced highest + 1) (max synced highest + batchSize) ∉ ranges := by
  intro mem
  have below : max synced highest + batchSize ≤ highest := covered.bounded _ mem
  lia

variable (covered : Covered (range :: others) synced highest)

include covered

lemma alone {idx : CommitIndex} (inside : range.contains idx = true) {other : CommitRange}
    (contains : other.contains idx = true) : other ∉ others := by
  intro mem
  have counted := covered.once idx
  rw [countP_cons, if_pos inside] at counted
  have pos : 0 < others.countP (·.contains idx) := countP_pos_iff.mpr ⟨other, mem, contains⟩
  lia

lemma split {cut : CommitIndex} (from_start : range.start ≤ cut) (pre : cut < range.last) :
    Covered (.new (cut + 1) range.last :: .new range.start cut :: others) synced highest := by
  have last : range.last = range.stop - 1 := rfl
  have below := covered.bounded range mem_cons_self
  have count : ∀ idx, (CommitRange.new (cut + 1) range.last :: .new range.start cut ::
      others).countP (·.contains idx) = (range :: others).countP (·.contains idx) := by
    intro idx
    simp only [countP_cons, CommitRange.contains_iff, CommitRange.new]
    split_ifs <;> lia
  refine ⟨fun other mem => ?_, fun other mem => ?_, fun idx => ?_, fun idx above scheduled => ?_⟩
  · rcases mem_cons.mp mem with rfl | mem
    · exact Nat.succ_lt_succ pre
    · rcases mem_cons.mp mem with rfl | mem
      · exact Nat.lt_succ_of_le from_start
      · exact covered.nonempty other (mem_cons_of_mem _ mem)
  · rcases mem_cons.mp mem with rfl | mem
    · exact below
    · rcases mem_cons.mp mem with rfl | mem
      · exact Nat.le_trans (Nat.le_of_lt pre) below
      · exact covered.bounded other (mem_cons_of_mem _ mem)
  · rw [count]
    exact covered.once idx
  · rw [count]
    exact covered.covers idx above scheduled

lemma replace {cut : CommitIndex} (low : range.start ≤ cut) (high : cut ≤ range.last) :
    Covered ((if cut < range.last then [CommitRange.new (cut + 1) range.last] else []) ++
      .new range.start cut :: others) synced highest := by
  split
  case isTrue pre => exact covered.split low pre
  case isFalse whole =>
    have wide := covered.nonempty range mem_cons_self
    have last : range.last = range.stop - 1 := rfl
    have same : CommitRange.new range.start cut = range := by
      have stop : cut + 1 = range.stop := by lia
      rw [CommitRange.new, stop]
    rw [same]
    exact covered

end Covered

/-- The commits of a fetched range, from its first index to its last. -/
structure Batch (range : CommitRange) (commits : List CertifiedCommit) : Prop where
  fetched : FetchedIn range commits
  ends : ∀ last ∈ commits.getLast?, last.commit.index = range.last

section Core

variable {range : CommitRange} {commits : List CertifiedCommit} {lastIdx : CommitIndex}

lemma FetchedIn.linked (fetched : FetchedIn range commits) :
    commits.IsChain fun prev later => later.commit.index = prev.commit.index + 1 :=
  (isChain_map _).mp fetched.2.1

lemma FetchedIn.starts (fetched : FetchedIn range commits) :
    ∃ first rest, commits = first :: rest ∧ first.commit.index = range.start := by
  cases commits with
  | nil => exact absurd fetched.1 (by simp)
  | cons first rest => exact ⟨first, rest, rfl, some.inj fetched.1⟩

/-- Core finds the next commit in a batch that starts at most one after its last commit, and the
commits it keeps reach to the end of the batch. -/
lemma Batch.filterNewCommits_ok (batch : Batch range commits)
    (reaches : range.start ≤ lastIdx + 1) :
    ∃ kept, filterNewCommits lastIdx commits = .ok kept ∧
      range.last ≤ lastIdx + kept.length := by
  have linked := batch.fetched.linked
  have same : commits.filter (fun certified => decide (lastIdx < certified.commit.index)) =
      between (fun certified => certified.commit.index) (lastIdx + 1) range.last
        commits := by
    refine filter_congr fun certified mem => ?_
    have inside := batch.fetched.2.2 certified mem
    have within : decide (certified.commit.index ≤ range.last) = true := decide_eq_true inside
    rw [within, Bool.and_true]
    rfl
  have low : ∀ first ∈ commits.head?, first.commit.index ≤ lastIdx + 1 := by
    obtain ⟨first, rest, rfl, idx⟩ := batch.fetched.starts
    intro other isFirst
    rw [← some.inj isFirst, idx]
    exact reaches
  have next := @head_between _ (fun certified : CertifiedCommit => certified.commit.index) _ _
    (lastIdx + 1) range.last (fun _ _ follows => follows) linked low
  have chain := @isChain_between _ (fun certified : CertifiedCommit => certified.commit.index) _ _
    (lastIdx + 1) range.last (fun _ _ follows => follows) linked
  rw [filterNewCommits, same]
  cases kept : between (fun certified : CertifiedCommit => certified.commit.index)
      (lastIdx + 1) range.last commits with
  | nil =>
    refine ⟨[], rfl, ?_⟩
    by_contra above
    -- the last commit of the batch would have been kept
    obtain ⟨first, rest, rfl, -⟩ := batch.fetched.starts
    obtain ⟨last, isLast⟩ := isSome_iff_exists.mp
      (getLast?_isSome.mpr (cons_ne_nil first rest))
    have idx := batch.ends last isLast
    have here : last ∈ between (fun certified : CertifiedCommit => certified.commit.index)
        (lastIdx + 1) range.last (first :: rest) := by
      refine mem_between.mpr ⟨mem_of_getLast? isLast, ?_, Nat.le_of_eq idx⟩
      simp only [length_nil] at above
      lia
    rw [kept] at here
    cases here
  | cons first rest =>
    rw [kept] at next chain
    have idx := next first rfl
    refine ⟨first :: rest, if_pos idx, ?_⟩
    obtain ⟨final, isFinal⟩ := isSome_iff_exists.mp
      (getLast?_isSome.mpr (cons_ne_nil first rest))
    have height := @rank_last_of_isChain _ (fun certified : CertifiedCommit =>
      certified.commit.index) _ _ (fun _ _ follows => follows) _ chain final isFinal
    -- the last commit of the batch is the last one kept
    have top : range.last ≤ final.commit.index := by
      obtain ⟨begin, tail, whole, -⟩ := batch.fetched.starts
      obtain ⟨last, isLast⟩ := isSome_iff_exists.mp
        (getLast?_isSome.mpr (whole ▸ cons_ne_nil begin tail))
      obtain ⟨init, rfl⟩ := getLast?_eq_some_iff.mp isLast
      have lastIndex := batch.ends last isLast
      have mem : first ∈ init ++ [last] :=
        (mem_between.mp (kept ▸ mem_cons_self : first ∈ between _ _ _ _)).1
      have upTo := batch.fetched.2.2 first mem
      have keeps : (decide (lastIdx + 1 ≤ last.commit.index) &&
          decide (last.commit.index ≤ range.last)) = true := by
        simp only [Bool.and_eq_true, decide_eq_true_eq]
        lia
      rw [between, filter_append, filter_singleton, keeps] at kept
      have lastKept : (first :: rest).getLast? = some last := by
        rw [← kept]
        simp
      rw [mem_def.mp isFinal] at lastKept
      rw [some.inj lastKept, lastIndex]
    rw [length_cons]
    lia

variable {commitsUntilUpdate : CommitIndex → Nat}

lemma commitCertified_ok {bound : Nat} {certified : List CertifiedCommit} {res : CommitIndex}
    (enough : certified.length ≤ bound)
    (ran : commitCertified commitsUntilUpdate bound certified lastIdx = .ok res) :
    res = lastIdx + certified.length := by
  induction bound generalizing certified lastIdx with
  | zero =>
    rw [eq_nil_of_length_eq_zero (Nat.le_zero.mp enough)]
    exact (Except.ok.inj ran).symm
  | succ bound ih =>
    cases certified with
    | nil => exact (Except.ok.inj ran).symm
    | cons first rest =>
      rw [commitCertified] at ran
      split at ran
      case isTrue => cases ran
      case isFalse pos =>
        have taken := ih (by
          simp only [length_drop, length_cons] at enough ⊢
          omega) ran
        simp only [length_take, length_drop] at taken
        lia

end Core


def SyncPhase.ranges : SyncPhase → List CommitRange
  | .handing range _ => [range]
  | _ => []

def SyncNode.ranges (node : SyncNode) : List CommitRange :=
  node.syncer.pendingFetches.toList ++
    (node.syncer.inflightFetches ++ (node.syncer.fetchedRanges.keys ++ node.phase.ranges))

def CommitSyncer.highest (syncer : CommitSyncer) : CommitIndex :=
  syncer.highestScheduledIndex.getD 0

section Schedule

variable {syncer : CommitSyncer} {elsewhere : List CommitRange} {batchSize : Nat}

lemma schedule_covered (pos : 0 < batchSize)
    (covered : Covered (syncer.pendingFetches.toList ++ elsewhere) syncer.syncedCommitIndex
      syncer.highest) :
    Covered ((syncer.schedule batchSize
        (max syncer.syncedCommitIndex syncer.highest)).pendingFetches.toList ++ elsewhere)
      syncer.syncedCommitIndex (max syncer.syncedCommitIndex syncer.highest + batchSize) := by
  have fresh := covered.extend_fresh pos
  refine (covered.extend pos).perm ?_
  have inserted := @toList_insert_perm_set _ _ _ _ syncer.pendingFetches _ fun here =>
    fresh (mem_append_left _ (ExtTreeSet.mem_toList.mpr here))
  exact (inserted.append_right elsewhere).symm

lemma foldl_schedule_frame (ends : List CommitIndex) (syncer : CommitSyncer) :
    (ends.foldl (CommitSyncer.schedule batchSize) syncer).inflightFetches = syncer.inflightFetches ∧
      (ends.foldl (CommitSyncer.schedule batchSize) syncer).fetchedRanges = syncer.fetchedRanges ∧
      (ends.foldl (CommitSyncer.schedule batchSize) syncer).syncedCommitIndex =
        syncer.syncedCommitIndex := by
  induction ends generalizing syncer with
  | nil => exact ⟨rfl, rfl, rfl⟩
  | cons prevEnd rest ih => exact ih (syncer.schedule batchSize prevEnd)

lemma foldl_schedule_covered (pos : 0 < batchSize) (keep : CommitIndex → Bool)
    (count : Nat)
    (covered : Covered (syncer.pendingFetches.toList ++ elsewhere) syncer.syncedCommitIndex
      syncer.highest) :
    Covered ((((range' (max syncer.syncedCommitIndex syncer.highest) count
        batchSize).takeWhile keep).foldl (CommitSyncer.schedule batchSize)
          syncer).pendingFetches.toList ++ elsewhere)
      syncer.syncedCommitIndex
      (((range' (max syncer.syncedCommitIndex syncer.highest) count
        batchSize).takeWhile keep).foldl (CommitSyncer.schedule batchSize) syncer).highest := by
  induction count generalizing syncer with
  | zero => exact covered
  | succ count ih =>
    rw [range'_succ, takeWhile_cons]
    split
    case isFalse => exact covered
    case isTrue =>
      have next := schedule_covered pos covered
      have start : max syncer.syncedCommitIndex syncer.highest + batchSize =
          max (syncer.schedule batchSize
            (max syncer.syncedCommitIndex syncer.highest)).syncedCommitIndex
            (syncer.schedule batchSize
              (max syncer.syncedCommitIndex syncer.highest)).highest := by
        simp only [CommitSyncer.schedule, CommitSyncer.highest, getD_some]
        lia
      rw [foldl_cons, start]
      exact @ih (syncer.schedule batchSize
        (max syncer.syncedCommitIndex syncer.highest)) next

lemma tryStartFetches_perm (params : CommitSyncParameters) (syncer : CommitSyncer)
    (elsewhere : List CommitRange) :
    ((syncer.tryStartFetches params).pendingFetches.toList ++
        ((syncer.tryStartFetches params).inflightFetches ++ elsewhere)).Perm
      (syncer.pendingFetches.toList ++ (syncer.inflightFetches ++ elsewhere)) := by
  have moved := @toList_foldl_erase_perm_set _ _ _ _ syncer.pendingFetches
    (syncer.pendingFetches.toList.take (CommitSyncer.targetParallelFetches params syncer -
      syncer.inflightFetches.length))
    ((nodup_toList_set _).sublist (take_sublist _ _))
    fun item here => ExtTreeSet.mem_toList.mp (mem_of_mem_take here)
  refine perm_iff_count.mpr fun range => ?_
  have counts := moved.count_eq range
  simp only [CommitSyncer.tryStartFetches, count_append] at counts ⊢
  omega

end Schedule

namespace SyncNode

variable {params : CommitSyncParameters} {node next : SyncNode} {commits : List CertifiedCommit}
  {ends : CommitIndex × CommitIndex} {lastIdx : CommitIndex}

structure InSync (node : SyncNode) : Prop where
  covered : Covered node.ranges node.syncer.syncedCommitIndex node.syncer.highest
  behind : node.syncer.syncedCommitIndex ≤ node.lastCommitIndex
  fetched : ∀ range commits, node.syncer.fetchedRanges[range]? = some commits → Batch range commits
  handed : ∀ range commits, node.phase = .handing range commits →
    Batch range commits ∧ range.start ≤ node.syncer.syncedCommitIndex + 1

lemma start_inSync (lastIdx replayAfterCommitIndex : CommitIndex) :
    InSync (start lastIdx replayAfterCommitIndex) where
  covered := by
    have empty : (start lastIdx replayAfterCommitIndex).ranges = [] := rfl
    rw [empty]
    refine ⟨by simp, by simp, by simp, fun idx above below => ?_⟩
    have none : (start lastIdx replayAfterCommitIndex).syncer.highest = 0 := rfl
    lia
  behind := Nat.le_refl _
  fetched range commits got := by simp [start, CommitSyncer.new] at got
  handed range commits phase := nomatch phase

lemma InSync.finish (inSync : InSync node) (nothing : node.phase.ranges = []) :
    InSync (node.finish params) where
  covered := by
    refine inSync.covered.perm ?_
    rw [ranges, ranges, nothing]
    exact (tryStartFetches_perm params node.syncer _).symm
  behind := inSync.behind
  fetched := inSync.fetched
  handed range commits phase := nomatch phase

lemma InSync.tick (inSync : InSync node) (nothing : node.phase.ranges = [])
    {quorum : CommitIndex} {syncer : CommitSyncer}
    (scheduled : node.syncer.tryScheduleOnce params quorum node.lastCommitIndex
      node.highestHandledCommit = .ok syncer) : InSync { node with syncer } := by
  simp only [CommitSyncer.tryScheduleOnce] at scheduled
  split at scheduled
  case isTrue => cases scheduled
  case isFalse size =>
    obtain rfl := Except.ok.inj scheduled
    obtain ⟨inflight, fetched, synced⟩ := @foldl_schedule_frame
      (effectiveBatchSize params quorum node.lastCommitIndex)
      (CommitSyncer.previousEnds
        (effectiveBatchSize params quorum node.lastCommitIndex)
        (max (max node.syncer.syncedCommitIndex node.lastCommitIndex)
          (node.syncer.highestScheduledIndex.getD 0)) quorum
        (node.highestHandledCommit +
          effectiveThreshold params quorum node.lastCommitIndex))
      { node.syncer with
        syncedCommitIndex := max node.syncer.syncedCommitIndex node.lastCommitIndex
        isSyncMode := shouldBeInSyncMode quorum
          (quorum - node.lastCommitIndex) }
    refine ⟨?_, ?_, fun range commits got => ?_, fun range commits phase => ?_⟩
    · have raised := inSync.covered.raise (Nat.le_max_left _ node.lastCommitIndex)
      have extended := @foldl_schedule_covered
        { node.syncer with
          syncedCommitIndex := max node.syncer.syncedCommitIndex node.lastCommitIndex
          isSyncMode := shouldBeInSyncMode quorum
            (quorum - node.lastCommitIndex) } _ _ (Nat.pos_of_ne_zero size)
        (fun prevEnd => decide (prevEnd + effectiveBatchSize params quorum
            node.lastCommitIndex ≤ quorum) &&
          decide (prevEnd + effectiveBatchSize params quorum
            node.lastCommitIndex ≤ node.highestHandledCommit +
              effectiveThreshold params quorum node.lastCommitIndex))
        ((quorum - max (max node.syncer.syncedCommitIndex node.lastCommitIndex)
          (node.syncer.highestScheduledIndex.getD 0)) /
            effectiveBatchSize params quorum node.lastCommitIndex + 1) raised
      rw [ranges]
      simp only [inflight, fetched, synced]
      exact extended
    · simp only [synced]
      exact Nat.max_le.mpr ⟨inSync.behind, Nat.le_refl _⟩
    · simp only [fetched] at got
      exact inSync.fetched range commits got
    · have here : node.phase = .handing range commits := phase
      rw [here] at nothing
      cases nothing

lemma commitEnds_eq_some (got : commitEnds commits = some ends) :
    (∃ first, commits.head? = some first ∧ first.commit.index = ends.1) ∧
      ∃ last, commits.getLast? = some last ∧ last.commit.index = ends.2 := by
  unfold commitEnds at got
  split at got
  case h_1 first last isFirst isLast =>
    obtain rfl := some.inj got
    exact ⟨⟨first, isFirst, rfl⟩, last, isLast, rfl⟩
  case h_2 => cases got

lemma batch_of_fetchedIn {range : CommitRange} (fetched : FetchedIn range commits)
    (got : commitEnds commits = some ends) :
    ends.1 = range.start ∧ range.start ≤ ends.2 ∧ ends.2 ≤ range.last ∧
      Batch (.new range.start ends.2) commits := by
  obtain ⟨⟨first, isFirst, low⟩, last, isLast, high⟩ := commitEnds_eq_some got
  obtain ⟨begin, rest, rfl, idx⟩ := fetched.starts
  obtain rfl := some.inj isFirst
  have upTo := @le_rank_last_of_isChain _ (fun certified : CertifiedCommit =>
    certified.commit.index) _ _ (fun _ _ follows => follows) _ fetched.linked isLast
  have above := upTo begin mem_cons_self
  refine ⟨by lia, by lia, ?_, ⟨fetched.1, fetched.2.1, fun certified mem => ?_⟩, ?_⟩
  · rw [← high]
    exact fetched.2.2 last (mem_of_getLast? isLast)
  · have below := upTo certified mem
    have reached : (CommitRange.new range.start ends.2).last = ends.2 := rfl
    lia
  · intro other isOther
    obtain rfl := some.inj (isLast.symm.trans isOther)
    exact high

lemma InSync.fetched_result (inSync : InSync node) (nothing : node.phase.ranges = [])
    {range : CommitRange} (requested : range ∈ node.syncer.inflightFetches)
    (fetched : FetchedIn range commits) (got : commitEnds commits = some ends) :
    InSync { node with
      syncer := { node.syncer with
        inflightFetches := node.syncer.inflightFetches.erase range }.storeFetchResult range.last
          ends.1 ends.2 node.lastCommitIndex commits
      phase := .processing } := by
  obtain ⟨start, low, high, batch⟩ := batch_of_fetchedIn fetched got
  obtain ⟨first, cut⟩ := ends
  simp only at start low high batch
  subst start
  -- the request first, then everything else
  have taken : Covered (range :: (node.syncer.pendingFetches.toList ++
      (node.syncer.inflightFetches.erase range ++ node.syncer.fetchedRanges.keys)))
      node.syncer.syncedCommitIndex node.syncer.highest := by
    refine inSync.covered.perm ?_
    rw [ranges, nothing, append_nil]
    refine (((perm_cons_erase requested).append_right _).append_left _).trans ?_
    exact perm_middle
  have startInside : range.contains range.start = true :=
    CommitRange.contains_iff.mpr ⟨Nat.le_refl _, taken.nonempty range mem_cons_self⟩
  have frontFresh : CommitRange.new range.start cut ∉ node.syncer.fetchedRanges.keys := by
    intro here
    refine taken.alone startInside (CommitRange.contains_new.mpr ⟨Nat.le_refl _, low⟩) ?_
    simp [here]
  have restFresh : cut < range.last →
      CommitRange.new (cut + 1) range.last ∉ node.syncer.pendingFetches := by
    intro pre here
    have inside : range.contains (cut + 1) = true := by
      have last : range.last = range.stop - 1 := rfl
      rw [CommitRange.contains_iff]
      lia
    refine taken.alone inside (CommitRange.contains_new.mpr ⟨Nat.le_refl _, pre⟩) ?_
    simp [here]
  have replaced := (taken.replace low high).raise
    (Nat.le_max_left node.syncer.syncedCommitIndex node.lastCommitIndex)
  have pending : ((if cut < range.last then
        node.syncer.pendingFetches.insert (.new (cut + 1) range.last)
      else node.syncer.pendingFetches).toList).Perm
      ((if cut < range.last then [CommitRange.new (cut + 1) range.last] else []) ++
        node.syncer.pendingFetches.toList) := by
    split
    case isTrue pre => exact toList_insert_perm_set (restFresh pre)
    case isFalse => exact .rfl
  refine ⟨?_, Nat.max_le.mpr ⟨inSync.behind, Nat.le_refl _⟩, fun other stored entry => ?_,
    fun other stored phase => nomatch phase⟩
  · rw [ranges]
    simp only [CommitSyncer.storeFetchResult, SyncPhase.ranges, append_nil]
    by_cases new : max node.syncer.syncedCommitIndex node.lastCommitIndex < cut
    · have absent : node.syncer.fetchedRanges[CommitRange.new range.start cut]? = none := by
        refine ExtTreeMap.getElem?_eq_none fun mem => frontFresh ?_
        exact ExtTreeMap.mem_keys.mpr mem
      rw [if_pos new]
      refine replaced.perm (perm_iff_count.mpr fun other => ?_)
      have pendingCount := pending.count_eq other
      have keysCount := (@keys_insert_perm _ _ _ _ _ _ _ commits absent).count_eq other
      simp only [count_append, count_cons] at pendingCount keysCount ⊢
      omega
    · rw [if_neg new]
      have done : (CommitRange.new range.start cut).last ≤
          max node.syncer.syncedCommitIndex node.lastCommitIndex := Nat.le_of_not_lt new
      refine ((replaced.perm perm_middle).drop done).perm
        (perm_iff_count.mpr fun other => ?_)
      have pendingCount := pending.count_eq other
      simp only [count_append] at pendingCount ⊢
      omega
  · simp only [CommitSyncer.storeFetchResult] at entry
    split at entry
    case isTrue =>
      rw [ExtTreeMap.getElem?_insert] at entry
      split at entry
      case isTrue same =>
        obtain rfl := some.inj entry
        rw [← LawfulEqCmp.eq_of_compare same]
        exact batch
      case isFalse => exact inSync.fetched other stored entry
    case isFalse => exact inSync.fetched other stored entry

lemma InSync.processFirst (inSync : InSync node) (processing : node.phase = .processing) :
    InSync (node.processFirst params) := by
  have nothing : node.phase.ranges = [] := by
    rw [processing]
    rfl
  unfold SyncNode.processFirst
  split
  case h_1 => exact inSync.finish nothing
  case h_2 range commits rest listing =>
    have got : node.syncer.fetchedRanges[range]? = some commits := by
      rw [← ExtTreeMap.mem_toList_iff_getElem?_eq_some, listing]
      exact mem_cons_self
    split
    case isFalse => exact inSync.finish nothing
    case isTrue reaches =>
      have keys := keys_erase_perm got
      have taken : Covered (range :: (node.syncer.pendingFetches.toList ++
          (node.syncer.inflightFetches ++ (node.syncer.fetchedRanges.erase range).keys)))
          node.syncer.syncedCommitIndex node.syncer.highest := by
        refine inSync.covered.perm (perm_iff_count.mpr fun other => ?_)
        have keysCount := keys.count_eq other
        rw [ranges, nothing]
        simp only [count_append, count_cons, count_nil] at keysCount ⊢
        omega
      refine ⟨?_, inSync.behind, fun other stored entry =>
        inSync.fetched other stored (getElem?_of_erase entry), fun other stored phase => ?_⟩
      · rw [ranges]
        by_cases done : range.last ≤ node.syncer.syncedCommitIndex
        · simp only [if_pos done, SyncPhase.ranges, append_nil]
          exact taken.drop done
        · simp only [if_neg done, SyncPhase.ranges]
          refine taken.perm (perm_iff_count.mpr fun other => ?_)
          simp only [count_append, count_cons, count_nil]
          omega
      · simp only at phase
        split at phase
        · cases phase
        · obtain ⟨rfl, rfl⟩ := SyncPhase.handing.inj phase
          exact ⟨inSync.fetched _ _ got, reaches⟩

lemma addCertifiedCommits_reaches {range : CommitRange} {res : CommitIndex}
    (batch : Batch range commits) (reaches : range.start ≤ lastIdx + 1)
    (added : addCertifiedCommits commitsUntilUpdate lastIdx commits = .ok res) :
    lastIdx ≤ res ∧ range.last ≤ res := by
  obtain ⟨kept, filtered, long⟩ := batch.filterNewCommits_ok reaches
  rw [addCertifiedCommits, filtered, Lib.Outcome.ok_bind] at added
  have length := commitCertified_ok (Nat.le_refl _) added
  exact ⟨by lia, by lia⟩

lemma InSync.coreTakes (inSync : InSync node) {range : CommitRange}
    (handing : node.phase = .handing range commits)
    (added : addCertifiedCommits commitsUntilUpdate node.lastCommitIndex commits =
      .ok lastIdx) :
    InSync { node with
      syncer := { node.syncer with
        syncedCommitIndex := max node.syncer.syncedCommitIndex range.last }
      phase := .processing
      lastCommitIndex := lastIdx } := by
  obtain ⟨batch, starts⟩ := inSync.handed range commits handing
  have behind := inSync.behind
  obtain ⟨grown, reached⟩ := addCertifiedCommits_reaches batch (by lia) added
  refine ⟨?_, Nat.max_le.mpr ⟨Nat.le_trans behind grown, reached⟩, inSync.fetched,
    fun other stored phase => nomatch phase⟩
  have taken : Covered (range :: (node.syncer.pendingFetches.toList ++
      (node.syncer.inflightFetches ++ node.syncer.fetchedRanges.keys)))
      (max node.syncer.syncedCommitIndex range.last) node.syncer.highest := by
    refine (inSync.covered.raise (Nat.le_max_left _ _)).perm
      (perm_iff_count.mpr fun other => ?_)
    rw [ranges, handing]
    simp only [SyncPhase.ranges, count_append, count_cons, count_nil]
    omega
  have dropped := taken.drop (Nat.le_max_right _ _)
  rw [ranges]
  simp only [SyncPhase.ranges, append_nil]
  exact dropped

lemma step_inSync {act : SyncAction} (inSync : InSync node)
    (stepped : step params node act = some next) : InSync next := by
  cases act with
  | tick quorum =>
    simp only [step] at stepped
    split at stepped
    case h_2 => cases stepped
    case h_1 selecting =>
      have nothing : node.phase.ranges = [] := by
        rw [selecting]
        rfl
      split at stepped
      case h_2 => cases stepped
      case h_1 syncer scheduled =>
        obtain rfl := some.inj stepped
        exact (inSync.tick nothing scheduled).finish nothing
  | fetched range commits =>
    simp only [step] at stepped
    split at stepped
    case h_2 => cases stepped
    case h_1 selecting =>
      have nothing : node.phase.ranges = [] := by
        rw [selecting]
        rfl
      obtain ⟨⟨requested, fetched⟩, stepped⟩ := ite_none_right_eq_some.mp stepped
      obtain ⟨ends, got, rfl⟩ := map_eq_some_iff.mp stepped
      exact inSync.fetched_result nothing requested fetched got
  | processFirst =>
    simp only [step] at stepped
    split at stepped
    case h_2 => cases stepped
    case h_1 processing =>
      obtain rfl := some.inj stepped
      exact inSync.processFirst processing
  | coreTakes commitsUntilUpdate =>
    simp only [step] at stepped
    split at stepped
    case h_2 => cases stepped
    case h_1 range commits handing =>
      split at stepped
      case h_2 => cases stepped
      case h_1 lastIdx added =>
        obtain rfl := some.inj stepped
        exact inSync.coreTakes handing added
  | commitLocally count =>
    obtain rfl := some.inj stepped
    exact { inSync with behind := Nat.le_trans inSync.behind (Nat.le_add_right _ _) }
  | consume count =>
    obtain ⟨_, stepped⟩ := ite_none_right_eq_some.mp stepped
    obtain rfl := some.inj stepped
    exact ⟨inSync.covered, inSync.behind, inSync.fetched, inSync.handed⟩
  | setHighestHandledCommit idx =>
    obtain rfl := some.inj stepped
    exact ⟨inSync.covered, inSync.behind, inSync.fetched, inSync.handed⟩

lemma run_inSync {replayAfterCommitIndex : CommitIndex} {sched : List SyncAction}
    (ran : run (step params) (start lastIdx replayAfterCommitIndex) sched =
      some node) : InSync node :=
  @invariant _ _ (step params) (fun _ _ => True) _ _ _ _
    (fun _ _ _ kept _ stepped => step_inSync kept stepped)
    (start_inSync lastIdx replayAfterCommitIndex) (heeds_of_forall fun _ _ => trivial) ran

/-- Along every run, each index that is scheduled and not synced is in exactly one range, and a
batch handed to Core starts at most one after Core's last commit, so that Core accepts it. -/
theorem sync_leaves_no_gap {lastIdx replayAfterCommitIndex : CommitIndex}
    {sched : List SyncAction}
    (ran : run (step params) (start lastIdx replayAfterCommitIndex) sched = some node) :
    (∀ idx, node.syncer.syncedCommitIndex < idx → idx ≤ node.syncer.highest →
      node.ranges.countP (·.contains idx) = 1) ∧
    ∀ range commits, node.phase = .handing range commits →
      (∀ first ∈ commits.head?, first.commit.index ≤ node.lastCommitIndex + 1) ∧
        ∃ kept, filterNewCommits node.lastCommitIndex commits = .ok kept := by
  have inSync := run_inSync ran
  refine ⟨fun idx above below => ?_, fun range commits handing => ?_⟩
  · exact Nat.le_antisymm (inSync.covered.once idx) (inSync.covered.covers idx above below)
  · obtain ⟨batch, starts⟩ := inSync.handed range commits handing
    have behind := inSync.behind
    have reaches : range.start ≤ node.lastCommitIndex + 1 := by lia
    obtain ⟨kept, filtered, -⟩ := batch.filterNewCommits_ok reaches
    refine ⟨fun first isFirst => ?_, kept, filtered⟩
    obtain ⟨begin, rest, rfl, idx⟩ := batch.fetched.starts
    rw [← some.inj isFirst, idx]
    exact reaches

section Testing

def bareCommit (idx : CommitIndex) : CertifiedCommit :=
  ⟨⟨{ index := idx, previousDigest := .MIN, timestampMs := 0, leader := testRef 1 0, blocks := [] },
    idx⟩, []⟩

/-- A request for four commits returns two of them; Core commits one itself before it takes
them. -/
theorem sync_leaves_no_gap_four : ∃ node,
    run (step ⟨2, 2, 4, 4⟩) (start 0 0) [.tick 4, .fetched (.new 1 4) [bareCommit 1, bareCommit 2],
      .processFirst, .commitLocally 1] = some node ∧
    (node.phase.ranges = [.new 1 2] ∧ node.syncer.pendingFetches.toList = [.new 3 4] ∧
      node.syncer.highest = 4 ∧ node.lastCommitIndex = 1) ∧
    (∀ idx, node.syncer.syncedCommitIndex < idx → idx ≤ node.syncer.highest →
      node.ranges.countP (·.contains idx) = 1) ∧
    ∀ range commits, node.phase = .handing range commits →
      (∀ first ∈ commits.head?, first.commit.index ≤ node.lastCommitIndex + 1) ∧
        ∃ kept, filterNewCommits node.lastCommitIndex commits = .ok kept := by
  obtain ⟨node, ran, reached⟩ := @exists_reached _ _ (step ⟨2, 2, 4, 4⟩) (start 0 0)
    [.tick 4, .fetched (.new 1 4) [bareCommit 1, bareCommit 2], .processFirst, .commitLocally 1]
    (fun node => node.phase.ranges = [.new 1 2] ∧
      node.syncer.pendingFetches.toList = [.new 3 4] ∧ node.syncer.highest = 4 ∧
      node.lastCommitIndex = 1) _ (by decide +kernel)
  exact ⟨node, ran, reached, sync_leaves_no_gap ran⟩

end Testing

end SyncNode

end Mysticeti
