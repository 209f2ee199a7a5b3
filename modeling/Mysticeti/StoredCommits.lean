import Mysticeti.DagState

/-!
# The log of stored commits

Commits are appended one after the other, so the stored ones are a log that is numbered from
one. What the readers of the store return is stated here as parts of that log.

Commits are buffered before they are flushed. `DagState.written` is the store as it would be
if the state were flushed now; the commits of the state are a log of that store at any time.
-/

namespace Mysticeti

open List Lib Lib.OrderedMap

lemma CommitRef.index_le_of_isLE {left right : CommitRef} (pre : (compare left right).isLE) :
    left.index ≤ right.index := by
  by_contra above
  have reversed : compare left.index right.index = .gt :=
    Nat.compare_eq_gt.mpr (Nat.lt_of_not_le above)
  have lexicographic : compare left right =
      (compare left.index right.index).then (compare left.digest right.digest) := rfl
  rw [lexicographic, reversed] at pre
  exact Bool.noConfusion pre

def Numbered (log : List TrustedCommit) : Prop :=
  log.map TrustedCommit.index = List.range' 1 log.length

namespace Numbered

variable {log : List TrustedCommit} {commit other : TrustedCommit}

variable (numbered : Numbered log)

include numbered

lemma append_singleton (next : commit.index = log.length + 1) : Numbered (log ++ [commit]) := by
  unfold Numbered at *
  rw [map_append, numbered, length_append, range'_append.symm]
  simp [next, Nat.add_comm]

lemma index_getElem {pos : Nat} (inside : pos < log.length) : log[pos].index = pos + 1 := by
  have same := congrArg (fun indices => indices[pos]?) numbered
  simp only [getElem?_map, getElem?_range' inside, getElem?_eq_getElem inside,
    Option.map_some, Option.some.injEq] at same
  lia

lemma eq_of_index (mem : commit ∈ log) (otherMember : other ∈ log)
    (same : commit.index = other.index) : commit = other := by
  have nodup : (log.map TrustedCommit.index).Nodup := by
    rw [numbered]
    exact nodup_range'
  exact inj_on_of_nodup_map nodup mem otherMember same

lemma increasing :
    log.Pairwise fun left right => compare left.reference right.reference = .lt := by
  have ordered : (log.map TrustedCommit.index).Pairwise (· < ·) := by
    rw [numbered]
    exact pairwise_lt_range'
  refine (pairwise_map.mp ordered).imp fun {left right} pre => ?_
  have indices : compare left.index right.index = .lt := Nat.compare_eq_lt.mpr pre
  have lexicographic : compare left.reference right.reference =
      (compare left.index right.index).then (compare left.digest right.digest) := rfl
  rw [lexicographic, indices]
  rfl

lemma index_getLast? : (log.getLast?.map TrustedCommit.index).getD 0 = log.length := by
  rw [← getLast?_map, numbered]
  cases log.length with
  | zero => rfl
  | succ count => simp [getLast?_range']

lemma filter_eq_drop (first : Nat) :
    log.filter (fun commit => first + 1 ≤ commit.index && commit.index ≤ log.length) =
      log.drop first := by
  conv_lhs => rw [← take_append_drop first log]
  rw [filter_append]
  have early : (log.take first).filter
      (fun commit => first + 1 ≤ commit.index && commit.index ≤ log.length) = [] := by
    refine filter_eq_nil_iff.mpr fun commit mem => ?_
    obtain ⟨pos, inside, rfl⟩ := getElem_of_mem mem
    have bound := inside
    rw [length_take] at bound
    rw [getElem_take, numbered.index_getElem (by omega)]
    simp
    omega
  have late : (log.drop first).filter
      (fun commit => first + 1 ≤ commit.index && commit.index ≤ log.length) = log.drop first := by
    refine filter_eq_self.mpr fun commit mem => ?_
    obtain ⟨pos, inside, rfl⟩ := getElem_of_mem mem
    have bound := inside
    rw [length_drop] at bound
    rw [getElem_drop, numbered.index_getElem (by omega)]
    simp
    omega
  simp only [take_append_drop] at *
  rw [early, late, nil_append]

lemma map_index_window {first count : Nat} (inside : first + count ≤ log.length) :
    ((log.drop first).take count).map TrustedCommit.index = range' (first + 1) count := by
  refine ext_getElem ?_ fun pos here there => ?_
  · rw [length_map, length_take, length_drop, length_range']
    omega
  · have bound : pos < count := by simpa using there
    rw [getElem_map, getElem_take, getElem_drop, getElem_range'_1,
      numbered.index_getElem (by omega)]
    lia

end Numbered

namespace Store

variable {store : Store} {log : List TrustedCommit} {commit : TrustedCommit}

/-- The stored commits are those of the log. -/
structure HoldsCommits (store : Store) (log : List TrustedCommit) : Prop where
  numbered : Numbered log
  found : ∀ ref commit, store.commits[ref]? = some commit → commit ∈ log ∧ commit.reference = ref
  present : ∀ commit ∈ log, commit.reference ∈ store.commits

namespace HoldsCommits

section

variable (holds : store.HoldsCommits log)

include holds

lemma getElem?_iff (ref : CommitRef) (commit : TrustedCommit) :
    store.commits[ref]? = some commit ↔ commit ∈ log ∧ commit.reference = ref := by
  refine ⟨holds.found ref commit, ?_⟩
  rintro ⟨mem, rfl⟩
  have stored := holds.present commit mem
  obtain ⟨other, got⟩ := getElem?_of_mem stored
  obtain ⟨otherMember, same⟩ := holds.found _ other got
  rw [got, holds.numbered.eq_of_index otherMember mem (congrArg CommitRef.index same)]

lemma toList_eq : store.commits.toList = log.map fun commit => (commit.reference, commit) :=
  toList_eq_map holds.numbered.increasing holds.getElem?_iff

lemma scanCommits_eq (first last : CommitIndex) :
    store.scanCommits first last =
      log.filter fun commit => first ≤ commit.index && commit.index ≤ last := by
  rw [scanCommits, scan, Std.ExtTreeMap.toList_filter, holds.toList_eq, List.filter_map,
    List.map_map]
  exact List.map_id _

lemma readLastCommit_eq : store.readLastCommit = log.getLast? := by
  have keys : store.commits.keys = log.map TrustedCommit.reference := by
    rw [← Std.ExtTreeMap.map_fst_toList_eq_keys, holds.toList_eq, List.map_map]
    rfl
  rw [readLastCommit, lastKey, keys, getLast?_map]
  cases last : log.getLast? with
  | none => rfl
  | some commit =>
    exact (holds.getElem?_iff commit.reference commit).mpr ⟨mem_of_getLast? last, rfl⟩

lemma scanCommits_eq_drop (first : Nat) :
    store.scanCommits (first + 1) log.length = log.drop first := by
  rw [holds.scanCommits_eq]
  exact holds.numbered.filter_eq_drop first

end

lemma empty : Store.empty.HoldsCommits [] :=
  ⟨rfl, fun ref commit got => by simp [Store.empty] at got, by simp⟩

lemma congr (holds : store.HoldsCommits log) {later : Store}
    (same : later.commits = store.commits) : later.HoldsCommits log where
  numbered := holds.numbered
  found := by rw [same]; exact holds.found
  present := by rw [same]; exact holds.present

lemma insertAll (holds : store.HoldsCommits log) {commits : List TrustedCommit}
    (listed : ∀ commit ∈ commits, commit ∈ log) {later : Store}
    (written : later.commits = OrderedMap.insertAll TrustedCommit.reference store.commits commits) :
    later.HoldsCommits log := by
  refine ⟨holds.numbered, fun ref other got => ?_, fun other mem => ?_⟩
  · rw [written] at got
    rcases getElem?_insertAll_cases got with ⟨inserted, same⟩ | prev
    · exact ⟨listed other inserted, same⟩
    · exact holds.found ref other prev
  · rw [written, mem_insertAll]
    exact .inr (holds.present other mem)

lemma insert (holds : store.HoldsCommits log) (next : commit.index = log.length + 1)
    {later : Store} (written : later.commits = store.commits.insert commit.reference commit) :
    later.HoldsCommits (log ++ [commit]) := by
  refine ⟨holds.numbered.append_singleton next, fun ref other got => ?_, fun other mem => ?_⟩
  · rw [written] at got
    rcases getElem?_insert_cases got with ⟨rfl, rfl⟩ | ⟨-, got⟩
    · exact ⟨by simp, rfl⟩
    · obtain ⟨mem, same⟩ := holds.found ref other got
      exact ⟨mem_append_left _ mem, same⟩
  · rw [written, mem_insertKey_iff]
    rcases mem_append.mp mem with old | new
    · exact .inr (holds.present other old)
    · exact .inl (by rw [mem_singleton.mp new])

end HoldsCommits

end Store

namespace DagState

variable {ctx : Context} {pre mid post st : DagState}

def written (st : DagState) : Store :=
  st.store.write ⟨st.blocksToWrite, st.commitsToWrite, st.commitInfoToWrite,
    st.finalizedCommitsToWrite⟩

/-- Nothing that the commits and their scores are read from differs. -/
structure SameLog (pre post : DagState) : Prop where
  lastCommit : post.lastCommit = pre.lastCommit
  scoringSubdag : post.scoringSubdag = pre.scoringSubdag
  store : post.store = pre.store
  commitsToWrite : post.commitsToWrite = pre.commitsToWrite
  commitInfoToWrite : post.commitInfoToWrite = pre.commitInfoToWrite

namespace SameLog

lemma refl (st : DagState) : SameLog st st := ⟨rfl, rfl, rfl, rfl, rfl⟩

lemma trans (first : SameLog pre mid) (second : SameLog mid post) : SameLog pre post :=
  ⟨second.lastCommit.trans first.lastCommit, second.scoringSubdag.trans first.scoringSubdag,
    second.store.trans first.store, second.commitsToWrite.trans first.commitsToWrite,
    second.commitInfoToWrite.trans first.commitInfoToWrite⟩

lemma written_commits (same : SameLog pre post) : post.written.commits = pre.written.commits := by
  simp only [written, Store.write, same.store, same.commitsToWrite]

lemma written_commitInfo (same : SameLog pre post) :
    post.written.commitInfo = pre.written.commitInfo := by
  simp only [written, Store.write, same.store, same.commitInfoToWrite]

end SameLog

lemma evictAll_sameLog (auths : List AuthorityIndex) :
    SameLog st (auths.foldl (evict ctx) st) := by
  induction auths generalizing st with
  | nil => exact .refl st
  | cons auth rest ih =>
    have first : SameLog st (st.evict ctx auth) := ⟨rfl, rfl, rfl, rfl, rfl⟩
    exact first.trans ih

/-- A flush stores what was to be written, and changes neither the last commit nor what is
scored. -/
structure Emptied (pre post : DagState) : Prop where
  lastCommit : post.lastCommit = pre.lastCommit
  scoringSubdag : post.scoringSubdag = pre.scoringSubdag
  commits : post.store.commits = pre.written.commits
  commitInfo : post.store.commitInfo = pre.written.commitInfo
  noCommits : post.commitsToWrite = []
  noCommitInfo : post.commitInfoToWrite = []

lemma flush_emptied (ctx : Context) (st : DagState) : Emptied st (st.flush ctx) := by
  unfold flush
  split
  · rename_i empty
    simp only [Bool.and_eq_true, List.isEmpty_iff] at empty
    obtain ⟨⟨⟨-, commits⟩, infos⟩, -⟩ := empty
    refine ⟨rfl, rfl, ?_, ?_, commits, infos⟩
    · simp only [written, Store.write, commits, insertAll, foldl_nil]
    · simp only [written, Store.write, infos, insertAll, foldl_nil]
  · have same := @evictAll_sameLog ctx
      { st with
        blocksToWrite := []
        commitsToWrite := []
        commitInfoToWrite := []
        finalizedCommitsToWrite := []
        store := st.store.write ⟨st.blocksToWrite, st.commitsToWrite,
          st.commitInfoToWrite, st.finalizedCommitsToWrite⟩ } ctx.committee.indices
    exact ⟨same.lastCommit, same.scoringSubdag, congrArg Store.commits same.store,
      congrArg Store.commitInfo same.store, same.commitsToWrite, same.commitInfoToWrite⟩

end DagState

end Mysticeti
