import Mysticeti.CacheUpkeep
import Mysticeti.CommitFrame

/-!
# Restart from the store

A DAG state is rebuilt from what was flushed. The commits after the last recorded commit info
are replayed to find the last committed rounds and the sub-dags to score; for every authority
the blocks above its eviction round are read back into the cache; the commits are followed
backwards, down to the garbage-collection round, to set the commit flags; and the history of
the own blocks is marked as included.

`new_recovered` takes a recovery that returns apart into these phases. The first one is kept
as it is computed, the loading of the blocks is described by `Loaded`, and what follows sets
flags only.
-/

namespace Mysticeti

open List Lib.Outcome Lib.OrderedMap

section Scans

variable {store : Store} {author : AuthorityIndex} {blk : VerifiedBlock}

/-- Every block is stored under its own reference. -/
def Store.Keyed (store : Store) : Prop :=
  ∀ (ref : BlockRef) (blk : VerifiedBlock), store.blocks[ref]? = some blk → blk.reference = ref

lemma Store.Keyed.mem_scanBlocksByAuthor (keyed : store.Keyed) {startRound : Round} :
    blk ∈ store.scanBlocksByAuthor author startRound ↔
      store.blocks[blk.reference]? = some blk ∧ blk.author = author ∧ startRound ≤ blk.round := by
  unfold Store.scanBlocksByAuthor
  rw [mem_scan]
  simp only [Bool.and_eq_true, decide_eq_true_eq]
  constructor
  · rintro ⟨ref, wanted, got⟩
    obtain rfl := keyed ref blk got
    exact ⟨got, wanted⟩
  · rintro ⟨got, wanted⟩
    exact ⟨blk.reference, wanted, got⟩

lemma Store.Keyed.round_le_last (keyed : store.Keyed) {ref : BlockRef}
    (stored : ref ∈ store.blocks) :
    ∃ newest, (store.scanLastBlocksByAuthor ref.author 1).getLast? = some newest ∧
      store.blocks[newest.reference]? = some newest ∧ newest.author = ref.author ∧
      ref.round ≤ newest.round := by
  obtain ⟨blk, got⟩ := getElem?_of_mem stored
  obtain rfl := keyed ref blk got
  have listed : blk ∈ store.scanBlocksByAuthor blk.author 0 :=
    keyed.mem_scanBlocksByAuthor.mpr ⟨got, rfl, Nat.zero_le _⟩
  have increasing := @scan_increasing _ _ _ _ _ store.blocks
    (fun ref => ref.author = blk.author && 0 ≤ ref.round)
    VerifiedBlock.reference fun stored val _ => keyed stored val
  have sameLast : (store.scanLastBlocksByAuthor blk.author 1).getLast? =
      (store.scanBlocksByAuthor blk.author 0).getLast? := by
    rw [Store.scanLastBlocksByAuthor, getLast?_reverse, head?_take]
    simp
  rw [← Store.scanBlocksByAuthor] at increasing
  show ∃ newest, (store.scanLastBlocksByAuthor blk.author 1).getLast? = some newest ∧ _
  rw [sameLast]
  obtain ⟨prev, newest, split⟩ :=
    (eq_nil_or_concat' (store.scanBlocksByAuthor blk.author 0)).resolve_left
      (ne_nil_of_mem listed)
  have newestListed : newest ∈ store.scanBlocksByAuthor blk.author 0 := by simp [split]
  obtain ⟨newestStored, author, -⟩ := keyed.mem_scanBlocksByAuthor.mp newestListed
  refine ⟨newest, by simp [split], newestStored, author, ?_⟩
  rw [split] at listed increasing
  rcases mem_append.mp listed with pre | last
  · have less := (pairwise_append.mp increasing).2.2 blk pre newest (by simp)
    have lessOrEqual : (compare blk.reference newest.reference).isLE := by
      rw [less]
      rfl
    exact BlockRef.round_le_of_isLE lessOrEqual
  · rw [mem_singleton.mp last]
    exact Nat.le_refl _

end Scans

namespace DagState

section Definitions

variable (ctx : Context)

variable (st : DagState) (store : Store)

/-- The last committed rounds that were recorded with the last commit info, and the index of
the commit after it. -/
def replayStart : (AuthorityIndex → Round) × CommitIndex :=
  match store.readLastCommitInfo with
  | some (ref, info) => (info.committedRounds, ref.index + 1)
  | none => (fun _ => 0, 1)

def replayCommit (replayed : (AuthorityIndex → Round) × List CommittedSubDag)
    (commit : TrustedCommit) :
    Except Panic ((AuthorityIndex → Round) × List CommittedSubDag) := do
  let rounds ← raiseCommittedRounds ctx replayed.1 commit.blocks
  let dag ← store.loadCommittedSubdag commit
  pure (rounds, replayed.2 ++ [dag])

def replayCommits : Except Panic ((AuthorityIndex → Round) × List CommittedSubDag) :=
  match store.readLastCommit with
  | none => .ok ((replayStart store).1, [])
  | some last => (store.scanCommits (replayStart store).2 last.index).foldlM
      (replayCommit ctx store) ((replayStart store).1, [])

def storedEvictionRound (auth : AuthorityIndex) : Round :=
  evictionRound (((st.store.scanLastBlocksByAuthor auth 1).getLast?.map
    VerifiedBlock.round).getD GENESIS_ROUND) (st.gcRound ctx) ctx.dagStateCachedRounds

def recoverAuthority (auth : AuthorityIndex) : Except Panic DagState :=
  let round := st.storedEvictionRound ctx auth
  (st.store.scanBlocksByAuthor auth (round + 1)).foldlM (updateBlockMetadata ctx)
    { st with evictedRounds := Function.update st.evictedRounds auth round }

def recommitBlock (ref : BlockRef) : Except Panic DagState := do
  let set ← st.setCommitted ref
  ensure set.1 (.committedTwice ref)
  pure set.2

/-- Set the commit flags from a commit backwards, until a leader is not above the
garbage-collection round or a commit is missing. -/
def recoverCommitted (gcRound : Round) : CommitIndex → DagState → Except Panic DagState
  | 0, st => .ok st
  | idx + 1, st =>
    match (st.store.scanCommits (idx + 1) (idx + 1)).head? with
    | none => .ok st
    | some commit =>
      if 0 < gcRound ∧ commit.leader.round ≤ gcRound then .ok st
      else do
        let flagged ← (commit.blocks.filter fun ref => gcRound < ref.round).foldlM
          recommitBlock st
        recoverCommitted gcRound idx flagged

def relinkBlock (blk : VerifiedBlock) : Except Panic DagState := do
  let linked ← linkCausalHistory ctx st blk.reference
  pure linked.2

def unloaded (lastCommittedRounds : AuthorityIndex → Round)
    (scoringSubdag : ScoringSubdag) : DagState :=
  { initial with lastCommit := store.readLastCommit, lastCommittedRounds, scoringSubdag, store }

def new (store : Store) : Except Panic DagState := do
  let replayed ← replayCommits ctx store
  let scoringSubdag ← ScoringSubdag.new.addSubdags ctx replayed.2
  let loaded ← ctx.committee.indices.foldlM (recoverAuthority ctx)
    (unloaded store replayed.1 scoringSubdag)
  let flagged ← recoverCommitted (loaded.gcRound ctx) loaded.lastCommitIndex loaded
  (store.scanBlocksByAuthor ctx.ownIndex (flagged.gcRound ctx + 1)).foldlM
    (relinkBlock ctx) flagged

def recoverCommitsToWrite (commits : List TrustedCommit) : DagState :=
  { st with commitsToWrite := st.commitsToWrite ++ commits }

end Definitions

variable {ctx : Context} {pre mid post st : DagState} {ref : BlockRef}
  {info : BlockInfo} {auth : AuthorityIndex}

/-- Blocks that were entered into the cache and its index. -/
structure Reread (pre : DagState) (blocks : List VerifiedBlock) (post : DagState) : Prop where
  frame : post = { pre with
    recentBlocks := post.recentBlocks
    recentRefsByAuthority := post.recentRefsByAuthority
    thresholdClock := post.thresholdClock
    highestAcceptedRound := post.highestAcceptedRound }
  indexed : pre.Indexed → post.Indexed
  found : ∀ (ref : BlockRef) (info : BlockInfo),
    post.recentBlocks[ref]? = some info → pre.recentBlocks[ref]? = some info ∨
      ∃ blk ∈ blocks, blk.reference = ref ∧ info = BlockInfo.new blk
  kept : ∀ ref ∈ pre.recentBlocks, ref ∈ post.recentBlocks
  entered : ∀ blk ∈ blocks, blk.reference ∈ post.recentBlocks

namespace Reread

lemma refl (st : DagState) : Reread st [] st :=
  ⟨rfl, id, fun _ _ got => .inl got, fun _ cached => cached, by simp⟩

lemma cons {blk : VerifiedBlock} {blocks : List VerifiedBlock}
    (first : Reread pre [blk] mid) (rest : Reread mid blocks post) :
    Reread pre (blk :: blocks) post where
  frame := by rw [rest.frame, first.frame]
  indexed start := rest.indexed (first.indexed start)
  found ref info got := by
    rcases rest.found ref info got with prev | ⟨other, mem, same⟩
    · rcases first.found ref info prev with old | ⟨other, mem, same⟩
      · exact .inl old
      · obtain rfl := mem_singleton.mp mem
        exact .inr ⟨other, mem_cons_self, same⟩
    · exact .inr ⟨other, mem_cons_of_mem blk mem, same⟩
  kept ref cached := rest.kept ref (first.kept ref cached)
  entered other mem := by
    rcases mem_cons.mp mem with rfl | later
    · exact rest.kept _ (first.entered other (by simp))
    · exact rest.entered other later

end Reread

lemma updateBlockMetadata_reread {blk : VerifiedBlock}
    (run : pre.updateBlockMetadata ctx blk = .ok post) : Reread pre [blk] post := by
  unfold updateBlockMetadata at run
  obtain ⟨-, run⟩ := ensure_bind_eq_ok.mp run
  cases run
  have cached : ∀ ref : BlockRef,
      ref ∈ pre.recentBlocks.insert blk.reference (BlockInfo.new blk) ↔
        ref = blk.reference ∨ ref ∈ pre.recentBlocks :=
    fun ref => mem_insertKey_iff
  refine ⟨rfl, fun indexed => ?_, fun ref info got => ?_, fun ref old =>
    (cached ref).mpr (.inr old), fun other mem => ?_⟩
  · exact @Indexed.accepted ctx pre blk indexed
  · rcases getElem?_insert_cases got with ⟨rfl, rfl⟩ | ⟨-, got⟩
    · exact .inr ⟨blk, by simp, rfl, rfl⟩
    · exact .inl got
  · rw [mem_singleton.mp mem]
    exact (cached _).mpr (.inl rfl)

lemma reread_of_foldlM {blocks : List VerifiedBlock}
    (run : blocks.foldlM (updateBlockMetadata ctx) pre = .ok post) :
    Reread pre blocks post := by
  induction blocks generalizing pre with
  | nil =>
    obtain rfl : pre = post := Except.ok.inj run
    exact .refl pre
  | cons blk rest ih =>
    rw [foldlM_cons, bind_eq_ok] at run
    obtain ⟨mid, taken, run⟩ := run
    exact (updateBlockMetadata_reread taken).cons (ih run)

/-- The blocks of the listed authorities above their eviction rounds are back in the cache. -/
structure Loaded (ctx : Context) (pre : DagState) (auths : List AuthorityIndex)
    (post : DagState) : Prop where
  frame : post = { pre with
    recentBlocks := post.recentBlocks
    recentRefsByAuthority := post.recentRefsByAuthority
    thresholdClock := post.thresholdClock
    highestAcceptedRound := post.highestAcceptedRound
    evictedRounds := post.evictedRounds }
  indexed : pre.Indexed → post.Indexed
  found : ∀ (ref : BlockRef) (info : BlockInfo),
    post.recentBlocks[ref]? = some info → pre.recentBlocks[ref]? = some info ∨
      (ref.author ∈ auths ∧
        pre.storedEvictionRound ctx ref.author < ref.round ∧
        ∃ blk, pre.store.blocks[ref]? = some blk ∧ info = BlockInfo.new blk)
  kept : ∀ ref ∈ pre.recentBlocks, ref ∈ post.recentBlocks
  entered : ∀ ref ∈ pre.store.blocks, ref.author ∈ auths →
    pre.storedEvictionRound ctx ref.author < ref.round → ref ∈ post.recentBlocks
  evicted : ∀ auth, post.evictedRounds auth =
    if auth ∈ auths then pre.storedEvictionRound ctx auth
    else pre.evictedRounds auth

lemma recoverAuthority_loaded (keyed : pre.store.Keyed)
    (run : pre.recoverAuthority ctx auth = .ok post) :
    Loaded ctx pre [auth] post := by
  have reread := reread_of_foldlM run
  have scanned : ∀ blk : VerifiedBlock, blk ∈ pre.store.scanBlocksByAuthor auth
      (pre.storedEvictionRound ctx auth + 1) ↔
      pre.store.blocks[blk.reference]? = some blk ∧ blk.author = auth ∧
        pre.storedEvictionRound ctx auth < blk.round :=
    fun blk => keyed.mem_scanBlocksByAuthor
  constructor
  · rw [reread.frame]
  · exact reread.indexed
  · intro ref info got
    rcases reread.found ref info got with old | ⟨blk, mem, rfl, rfl⟩
    · exact .inl old
    · obtain ⟨stored, rfl, above⟩ := (scanned blk).mp mem
      exact .inr ⟨by simp, above, blk, stored, rfl⟩
  · exact reread.kept
  · intro ref stored author above
    obtain ⟨blk, got⟩ := getElem?_of_mem stored
    obtain rfl := keyed ref blk got
    have written : blk.author = auth := mem_singleton.mp author
    exact reread.entered blk ((scanned blk).mpr ⟨got, written, written ▸ above⟩)
  · intro other
    rw [reread.frame]
    by_cases here : other = auth
    · subst here
      simp
    · simp [here]

lemma loaded_of_foldlM {auths : List AuthorityIndex} (keyed : pre.store.Keyed)
    (run : auths.foldlM (recoverAuthority ctx) pre = .ok post) :
    Loaded ctx pre auths post := by
  induction auths generalizing pre with
  | nil =>
    obtain rfl : pre = post := Except.ok.inj run
    exact ⟨rfl, id, fun _ _ got => .inl got, fun _ cached => cached, by simp, by simp⟩
  | cons auth rest ih =>
    rw [foldlM_cons, bind_eq_ok] at run
    obtain ⟨mid, taken, run⟩ := run
    have first := recoverAuthority_loaded keyed taken
    have sameStore : mid.store = pre.store := by rw [first.frame]
    have sameRounds : mid.storedEvictionRound ctx = pre.storedEvictionRound ctx := by
      rw [first.frame]
      rfl
    have later := ih (by rw [sameStore]; exact keyed) run
    constructor
    · rw [later.frame, first.frame]
    · exact fun indexed => later.indexed (first.indexed indexed)
    · intro ref info got
      rcases later.found ref info got with prev | ⟨author, above, stored⟩
      · rcases first.found ref info prev with old | ⟨author, above⟩
        · exact .inl old
        · exact .inr ⟨by simp [mem_singleton.mp author], above⟩
      · rw [sameRounds] at above
        rw [sameStore] at stored
        exact .inr ⟨mem_cons_of_mem auth author, above, stored⟩
    · exact fun ref cached => later.kept ref (first.kept ref cached)
    · intro ref stored author above
      rcases mem_cons.mp author with here | mem
      · exact later.kept ref (first.entered ref stored (by simp [here]) above)
      · rw [← sameStore] at stored
        rw [← sameRounds] at above
        exact later.entered ref stored mem above
    · intro other
      rw [later.evicted, first.evicted, sameRounds]
      by_cases listed : other ∈ rest
      · simp [listed]
      · simp [listed]

lemma recommitBlock_flagged (run : pre.recommitBlock ref = .ok post) : Flagged pre post := by
  unfold recommitBlock at run
  obtain ⟨⟨newly, marked⟩, set, run⟩ := bind_eq_ok.mp run
  obtain ⟨-, run⟩ := ensure_bind_eq_ok.mp run
  cases run
  exact setCommitted_flagged set

lemma recoverCommitted_flagged {gcRound : Round} {idx : CommitIndex}
    (run : recoverCommitted gcRound idx pre = .ok post) : Flagged pre post := by
  induction idx generalizing pre with
  | zero =>
    cases run
    exact .refl _
  | succ idx ih =>
    unfold recoverCommitted at run
    split at run
    · cases run
      exact .refl _
    · split at run
      · cases run
        exact .refl _
      · obtain ⟨mid, flags, run⟩ := bind_eq_ok.mp run
        have first : Flagged pre mid :=
          foldlM_preserves flags (.refl pre) fun _ _ _ _ flagged taken =>
            flagged.trans (recommitBlock_flagged taken)
        exact first.trans (ih run)

lemma relinkBlock_flagged {blk : VerifiedBlock}
    (run : pre.relinkBlock ctx blk = .ok post) : Flagged pre post := by
  unfold relinkBlock at run
  obtain ⟨⟨seen, linked⟩, marks, run⟩ := bind_eq_ok.mp run
  cases run
  exact linkCausalHistory_flagged marks

/-- The phases of a recovery that returns. -/
structure Recovered (ctx : Context) (store : Store) (st : DagState) : Prop where
  phases : ∃ rounds subdags scoringSubdag loaded,
    replayCommits ctx store = .ok (rounds, subdags) ∧
    ScoringSubdag.new.addSubdags ctx subdags = .ok scoringSubdag ∧
    Loaded ctx (unloaded store rounds scoringSubdag) ctx.committee.indices loaded ∧
    Flagged loaded st

lemma new_recovered {store : Store} (keyed : store.Keyed)
    (run : new ctx store = .ok st) : Recovered ctx store st := by
  unfold new at run
  obtain ⟨⟨rounds, subdags⟩, replayed, run⟩ := bind_eq_ok.mp run
  obtain ⟨scoringSubdag, scored, run⟩ := bind_eq_ok.mp run
  obtain ⟨loaded, loading, run⟩ := bind_eq_ok.mp run
  obtain ⟨flagged, flags, run⟩ := bind_eq_ok.mp run
  have relinked : Flagged flagged st :=
    foldlM_preserves run (.refl flagged) fun _ _ _ _ prev taken =>
      prev.trans (relinkBlock_flagged taken)
  exact ⟨rounds, subdags, scoringSubdag, loaded, replayed, scored,
    @loaded_of_foldlM _ _ _ _ keyed loading, (recoverCommitted_flagged flags).trans relinked⟩

end DagState

end Mysticeti
