import Mysticeti.DagView

/-!
# Keeping the cache

Besides commits, two operations change the cache: accepting a block enters it, and a
flush evicts old blocks after it has written the buffers. `Indexed` says that the
per-authority indices list exactly the cached references, so that a cached block is
known to be there. A flush never evicts a block above the eviction round of its author,
which is at most the garbage-collection round.
-/

namespace Mysticeti

open List Option Lib.Outcome Lib.OrderedMap Std

namespace DagState

variable {ctx : Context} {ref : BlockRef}

def Indexed (st : DagState) : Prop :=
  ∀ (auth : AuthorityIndex) (ref : BlockRef),
    ref ∈ st.recentRefsByAuthority auth ↔ ref ∈ st.recentBlocks ∧ ref.author = auth

lemma initial_indexed : initial.Indexed := by
  intro auth ref
  simp [initial]

lemma Indexed.containsBlock {st : DagState} (indexed : st.Indexed)
    (cached : ref ∈ st.recentBlocks) : st.containsBlock ctx ref = true := by
  have here : ref ∈ st.recentRefsByAuthority ref.author :=
    (indexed ref.author ref).mpr ⟨cached, rfl⟩
  have contained : (st.recentRefsByAuthority ref.author).contains ref = true := by
    rw [← ExtTreeSet.mem_iff_contains]
    exact here
  rw [DagState.containsBlock]
  simp [contained]

section Accept

variable {st post : DagState} {blk : VerifiedBlock}

lemma mem_accepted :
    ref ∈ (st.accepted ctx blk).recentBlocks ↔ ref = blk.reference ∨ ref ∈ st.recentBlocks := by
  rw [accepted, mem_insertKey_iff]

lemma Indexed.accepted (indexed : st.Indexed) : (st.accepted ctx blk).Indexed := by
  intro auth ref
  rw [mem_accepted]
  by_cases author : auth = blk.author
  · subst author
    have entered : (st.accepted ctx blk).recentRefsByAuthority blk.author =
        (st.recentRefsByAuthority blk.author).insert blk.reference := by
      simp [DagState.accepted]
    rw [entered, Lib.OrderedMap.mem_insert_iff, indexed blk.author ref]
    constructor
    · rintro (rfl | ⟨cached, author⟩)
      · exact ⟨.inl rfl, rfl⟩
      · exact ⟨.inr cached, author⟩
    · rintro ⟨rfl | cached, author⟩
      · exact .inl rfl
      · exact .inr ⟨cached, author⟩
  · have same : (st.accepted ctx blk).recentRefsByAuthority auth =
        st.recentRefsByAuthority auth := by
      simp [DagState.accepted, author]
    rw [same, indexed auth ref]
    constructor
    · rintro ⟨cached, rfl⟩
      exact ⟨.inr cached, rfl⟩
    · rintro ⟨rfl | cached, written⟩
      · exact absurd written.symm author
      · exact ⟨cached, written⟩

lemma Indexed.acceptBlock (indexed : st.Indexed)
    (run : st.acceptBlock ctx blk = .ok post) : post.Indexed := by
  obtain ⟨-, ⟨-, rfl⟩ | ⟨-, -, -, rfl⟩⟩ := acceptBlock_cases run
  · exact indexed
  · exact indexed.accepted

lemma acceptBlock_lookup (indexed : st.Indexed)
    (run : st.acceptBlock ctx blk = .ok post) {info : BlockInfo}
    (got : st.recentBlocks[ref]? = some info) :
    post.recentBlocks[ref]? = some info := by
  obtain ⟨-, ⟨-, rfl⟩ | ⟨unknown, -, -, rfl⟩⟩ := acceptBlock_cases run
  · exact got
  · have ne : blk.reference ≠ ref := by
      rintro rfl
      rw [indexed.containsBlock (mem_recentBlocks.mpr ⟨info, got⟩)] at unknown
      exact Bool.noConfusion unknown
    rw [accepted_lookup, if_neg ne, got]

lemma acceptBlock_found (run : st.acceptBlock ctx blk = .ok post) {info : BlockInfo}
    (got : post.recentBlocks[ref]? = some info) :
    st.recentBlocks[ref]? = some info ∨ (ref = blk.reference ∧ info = BlockInfo.new blk) := by
  obtain ⟨-, ⟨-, rfl⟩ | ⟨-, -, -, rfl⟩⟩ := acceptBlock_cases run
  · exact .inl got
  · rw [accepted_lookup] at got
    split at got
    · rename_i same
      exact .inr ⟨same.symm, (some.inj got).symm⟩
    · exact .inl got

lemma acceptBlock_lastCommit (run : st.acceptBlock ctx blk = .ok post) :
    post.lastCommit = st.lastCommit := by
  obtain ⟨-, ⟨-, rfl⟩ | ⟨-, -, -, rfl⟩⟩ := acceptBlock_cases run <;> rfl

lemma acceptBlock_gcRound (run : st.acceptBlock ctx blk = .ok post) :
    post.gcRound ctx = st.gcRound ctx := by
  rw [gcRound, gcRound, lastCommitRound, lastCommitRound, acceptBlock_lastCommit run]

lemma acceptBlock_mem (indexed : st.Indexed)
    (run : st.acceptBlock ctx blk = .ok post) (cached : ref ∈ st.recentBlocks) :
    ref ∈ post.recentBlocks := by
  obtain ⟨info, got⟩ := mem_recentBlocks.mp cached
  exact mem_recentBlocks.mpr ⟨info, acceptBlock_lookup indexed run got⟩

end Accept

section Flush

variable {st : DagState}

lemma mem_evicted {auth : AuthorityIndex} (indexed : st.Indexed) :
    ref ∈ ((st.recentRefsByAuthority auth).toList.filter fun other =>
      other.round ≤ st.calculateAuthorityEvictionRound ctx auth) ↔
      ref ∈ st.recentBlocks ∧ ref.author = auth ∧
        ref.round ≤ st.calculateAuthorityEvictionRound ctx auth := by
  rw [mem_filter, ExtTreeSet.mem_toList, indexed, decide_eq_true_eq, and_assoc]

lemma evict_lookup (indexed : st.Indexed) (auth : AuthorityIndex)
    (ref : BlockRef) :
    (st.evict ctx auth).recentBlocks[ref]? =
      if ref.author = auth ∧ ref.round ≤ st.calculateAuthorityEvictionRound ctx auth then none
      else st.recentBlocks[ref]? := by
  have looked : (st.evict ctx auth).recentBlocks[ref]? =
      if ref ∈ ((st.recentRefsByAuthority auth).toList.filter fun other =>
        other.round ≤ st.calculateAuthorityEvictionRound ctx auth) then none
      else st.recentBlocks[ref]? := by
    rw [evict, getElem?_foldl_erase]
  rw [looked]
  by_cases cached : ref ∈ st.recentBlocks
  · simp only [mem_evicted indexed, cached, true_and]
  · have absent : st.recentBlocks[ref]? = none := ExtTreeMap.getElem?_eq_none cached
    simp only [absent, ite_self]

lemma evict_refs (auth other : AuthorityIndex) :
    (st.evict ctx auth).recentRefsByAuthority other =
      if other = auth then (st.recentRefsByAuthority auth).filter fun ref =>
        st.calculateAuthorityEvictionRound ctx auth < ref.round
      else st.recentRefsByAuthority other := by
  by_cases same : other = auth
  · subst same
    simp [evict]
  · simp [evict, same]

lemma Indexed.evict (indexed : st.Indexed) (auth : AuthorityIndex) :
    (st.evict ctx auth).Indexed := by
  intro other ref
  rw [mem_recentBlocks, evict_lookup indexed, evict_refs]
  by_cases same : other = auth
  · subst same
    simp only [if_true, ExtTreeSet.mem_filter, ExtTreeSet.get_eq, exists_prop,
      indexed other ref, decide_eq_true_eq, mem_recentBlocks]
    by_cases author : ref.author = other
    · by_cases old : ref.round ≤ st.calculateAuthorityEvictionRound ctx other
      · simp [author, old]
      · simp [author, old, Nat.lt_of_not_le old]
    · simp [author]
  · rw [if_neg same, indexed, mem_recentBlocks]
    by_cases author : ref.author = other
    · simp [author, same]
    · simp [author]

lemma evictionRound_evict {auth other : AuthorityIndex} (apart : other ≠ auth) :
    (st.evict ctx auth).calculateAuthorityEvictionRound ctx other =
      st.calculateAuthorityEvictionRound ctx other := by
  rw [calculateAuthorityEvictionRound, evict_refs, if_neg apart]
  rfl

/-- Only the cache, its indices and the evicted rounds differ. -/
def CacheOnly (pre post : DagState) : Prop :=
  post = { pre with
    recentBlocks := post.recentBlocks
    recentRefsByAuthority := post.recentRefsByAuthority
    evictedRounds := post.evictedRounds }

lemma evictAll_spec {auths : List AuthorityIndex} (nodup : auths.Nodup)
    (indexed : st.Indexed) :
    (auths.foldl (evict ctx) st).Indexed ∧
      CacheOnly st (auths.foldl (evict ctx) st) ∧
      ∀ ref : BlockRef, (auths.foldl (evict ctx) st).recentBlocks[ref]? =
        if ref.author ∈ auths ∧ ref.round ≤ st.calculateAuthorityEvictionRound ctx ref.author
        then none else st.recentBlocks[ref]? := by
  induction auths generalizing st with
  | nil => exact ⟨indexed, rfl, fun ref => by simp⟩
  | cons auth rest ih =>
    rw [nodup_cons] at nodup
    obtain ⟨restIndexed, frame, lookups⟩ := ih nodup.2 (@Indexed.evict ctx _ indexed auth)
    rw [foldl_cons]
    refine ⟨restIndexed, ?_, fun ref => ?_⟩
    · rw [CacheOnly, frame]
      rfl
    · rw [lookups, evict_lookup indexed]
      by_cases author : ref.author = auth
      · subst author
        simp [nodup.1]
      · rw [evictionRound_evict author]
        simp [author]

/-- What a flush does to the state. -/
structure Flushed (ctx : Context) (pre post : DagState) : Prop where
  indexed : post.Indexed
  kept : ∀ ref : BlockRef,
    pre.calculateAuthorityEvictionRound ctx ref.author < ref.round →
      post.recentBlocks[ref]? = pre.recentBlocks[ref]?
  found : ∀ (ref : BlockRef) (info : BlockInfo),
    post.recentBlocks[ref]? = some info → pre.recentBlocks[ref]? = some info
  frame : post = { pre with
    recentBlocks := post.recentBlocks
    recentRefsByAuthority := post.recentRefsByAuthority
    evictedRounds := post.evictedRounds
    blocksToWrite := []
    commitsToWrite := []
    commitInfoToWrite := []
    finalizedCommitsToWrite := []
    store := pre.store.write ⟨pre.blocksToWrite, pre.commitsToWrite,
      pre.commitInfoToWrite, pre.finalizedCommitsToWrite⟩ }

lemma flush_flushed (indexed : st.Indexed) : Flushed ctx st (st.flush ctx) := by
  rw [flush]
  split
  · rename_i empty
    simp only [Bool.and_eq_true, List.isEmpty_iff] at empty
    obtain ⟨⟨⟨blocks, commits⟩, infos⟩, finalized⟩ := empty
    refine ⟨indexed, fun _ _ => rfl, fun _ _ got => got, ?_⟩
    cases st
    simp only at blocks commits infos finalized
    subst blocks commits infos finalized
    rfl
  · obtain ⟨post, frame, lookups⟩ := @evictAll_spec ctx
      { st with
        blocksToWrite := []
        commitsToWrite := []
        commitInfoToWrite := []
        finalizedCommitsToWrite := []
        store := st.store.write ⟨st.blocksToWrite, st.commitsToWrite,
          st.commitInfoToWrite, st.finalizedCommitsToWrite⟩ }
      ctx.committee.indices nodup_range indexed
    refine ⟨post, fun ref young => ?_, fun ref info got => ?_, frame⟩
    · rw [lookups]
      exact if_neg fun old => Nat.not_le_of_lt young old.2
    · rw [lookups] at got
      split at got
      · simp at got
      · exact got

namespace Flushed

variable {pre post : DagState}

variable (flushed : Flushed ctx pre post)

include flushed

lemma lastCommit_eq : post.lastCommit = pre.lastCommit := by rw [flushed.frame]

lemma gcRound_eq : post.gcRound ctx = pre.gcRound ctx := by
  rw [gcRound, lastCommitRound, flushed.lastCommit_eq]
  rfl

lemma young (above : pre.gcRound ctx < ref.round) :
    post.recentBlocks[ref]? = pre.recentBlocks[ref]? := by
  apply flushed.kept
  exact Nat.lt_of_le_of_lt (Nat.min_le_left _ _) above

lemma mem_iff (above : pre.gcRound ctx < ref.round) :
    ref ∈ post.recentBlocks ↔ ref ∈ pre.recentBlocks := by
  rw [mem_recentBlocks, mem_recentBlocks, flushed.young above]

lemma wellFormed (wellFormed : pre.WellFormed ctx) : post.WellFormed ctx where
  keyed ref info got := wellFormed.keyed ref info (flushed.found ref info got)
  valid ref info got := wellFormed.valid ref info (flushed.found ref info got)

lemma causallyClosed (closed : pre.CausallyClosed ctx) : post.CausallyClosed ctx := by
  intro ref info got above anc mem ancestorAbove
  rw [flushed.gcRound_eq] at above ancestorAbove
  rw [flushed.mem_iff ancestorAbove]
  exact closed ref info (flushed.found ref info got) above anc mem
    ancestorAbove

end Flushed

end Flush

section Closure

variable {st post : DagState} {blk : VerifiedBlock}

lemma CausallyClosed.acceptBlock (closed : st.CausallyClosed ctx)
    (indexed : st.Indexed)
    (ancestors : ∀ anc ∈ blk.ancestors, st.gcRound ctx < anc.round → anc ∈ st.recentBlocks)
    (run : st.acceptBlock ctx blk = .ok post) : post.CausallyClosed ctx := by
  intro ref info got above anc mem ancestorAbove
  rw [acceptBlock_gcRound run] at above ancestorAbove
  apply acceptBlock_mem indexed run
  rcases acceptBlock_found run got with pre | ⟨-, rfl⟩
  · exact closed ref info pre above anc mem ancestorAbove
  · exact ancestors anc mem ancestorAbove

lemma initial_causallyClosed (ctx : Context) : initial.CausallyClosed ctx := by
  intro ref info got
  simp [initial] at got

end Closure

section Custody

/-- What the state keeps of the blocks it accepted: each of them is admitted, is found
under its own reference, and is cached while it is above the garbage-collection round. -/
structure Kept (ctx : Context) (admitted : Set VerifiedBlock) (st : DagState) : Prop where
  indexed : st.Indexed
  cached : ∀ (ref : BlockRef) (info : BlockInfo),
    st.recentBlocks[ref]? = some info → info.block.reference = ref ∧ info.block ∈ admitted
  buffered : ∀ blk ∈ st.blocksToWrite, blk ∈ admitted ∧
    (st.gcRound ctx < blk.round → blk.reference ∈ st.recentBlocks)
  stored : ∀ (ref : BlockRef) (blk : VerifiedBlock),
    st.store.blocks[ref]? = some blk →
      blk.reference = ref ∧ blk ∈ admitted ∧ (st.gcRound ctx < ref.round → ref ∈ st.recentBlocks)

variable {admitted : Set VerifiedBlock} {st post : DagState} {blk : VerifiedBlock}

lemma initial_kept (ctx : Context) (admitted : Set VerifiedBlock) :
    Kept ctx admitted initial where
  indexed := initial_indexed
  cached ref info got := by simp [initial] at got
  buffered blk mem := by simp [initial] at mem
  stored ref blk got := by simp [initial, Store.empty] at got

section

variable (kept : Kept ctx admitted st)

include kept

lemma Kept.mem_of_contains (above : st.gcRound ctx < ref.round)
    (known : st.containsBlock ctx ref = true) : ref ∈ st.recentBlocks := by
  rw [containsBlock] at known
  split at known
  · rename_i here
    rw [Bool.or_eq_true] at here
    rcases here with indexed | genesis
    · rw [← ExtTreeSet.mem_iff_contains, kept.indexed] at indexed
      exact indexed.1
    · have round := round_of_genesisGet genesis
      lia
  · split at known
    · simp at known
    · split at known
      · simp at known
      · rw [Store.containsBlock, ← ExtTreeMap.mem_iff_contains,
          ← ExtTreeMap.isSome_getElem?_iff_mem, isSome_iff_exists] at known
        obtain ⟨blk, got⟩ := known
        exact (kept.stored ref blk got).2.2 above

lemma Kept.mem_acceptBlock (run : st.acceptBlock ctx blk = .ok post)
    (above : st.gcRound ctx < blk.round) : blk.reference ∈ post.recentBlocks := by
  obtain ⟨-, ⟨known, rfl⟩ | ⟨-, -, -, rfl⟩⟩ := acceptBlock_cases run
  · exact kept.mem_of_contains above known
  · exact mem_accepted.mpr (.inl rfl)

lemma Kept.acceptBlock (mem : blk ∈ admitted)
    (run : st.acceptBlock ctx blk = .ok post) : Kept ctx admitted post := by
  have sameGc := acceptBlock_gcRound run
  have entered := kept.mem_acceptBlock run
  have grown : ∀ ref : BlockRef, ref ∈ st.recentBlocks →
      ref ∈ post.recentBlocks := fun ref => acceptBlock_mem kept.indexed run
  have written : ∀ other ∈ post.blocksToWrite, other ∈ st.blocksToWrite ∨ other = blk := by
    obtain ⟨-, ⟨-, rfl⟩ | ⟨-, -, -, rfl⟩⟩ := acceptBlock_cases run
    · exact fun other inside => .inl inside
    · intro other inside
      simpa [accepted] using inside
  have sameStore : post.store = st.store := by
    obtain ⟨-, ⟨-, rfl⟩ | ⟨-, -, -, rfl⟩⟩ := acceptBlock_cases run <;> rfl
  constructor
  · exact kept.indexed.acceptBlock run
  · intro ref info got
    rcases acceptBlock_found run got with pre | ⟨rfl, rfl⟩
    · exact kept.cached ref info pre
    · exact ⟨rfl, mem⟩
  · intro other inside
    rw [sameGc]
    rcases written other inside with old | rfl
    · exact ⟨(kept.buffered other old).1, fun above => grown _ ((kept.buffered other old).2 above)⟩
    · exact ⟨mem, entered⟩
  · intro ref other got
    rw [sameStore] at got
    rw [sameGc]
    obtain ⟨keyed, inside, young⟩ := kept.stored ref other got
    exact ⟨keyed, inside, fun above => grown _ (young above)⟩

lemma Kept.flush : Kept ctx admitted (st.flush ctx) := by
  have flushed := @flush_flushed ctx st kept.indexed
  have sameGc := flushed.gcRound_eq
  have young : ∀ ref : BlockRef, st.gcRound ctx < ref.round →
      ref ∈ st.recentBlocks → ref ∈ (st.flush ctx).recentBlocks :=
    fun ref above => (flushed.mem_iff above).mpr
  constructor
  · exact flushed.indexed
  · intro ref info got
    exact kept.cached ref info (flushed.found ref info got)
  · intro blk mem
    rw [flushed.frame] at mem
    simp at mem
  · intro ref blk got
    rw [sameGc]
    rw [flushed.frame] at got
    rcases getElem?_insertAll_cases got with ⟨written, rfl⟩ | pre
    · obtain ⟨inside, cached⟩ := kept.buffered blk written
      exact ⟨rfl, inside, fun above => young _ above (cached above)⟩
    · obtain ⟨keyed, inside, cached⟩ := kept.stored ref blk pre
      exact ⟨keyed, inside, fun above => young _ above (cached above)⟩

lemma Kept.of_flags (refs : post.recentRefsByAuthority = st.recentRefsByAuthority)
    (blocks : ∀ ref : BlockRef, (post.recentBlocks[ref]?).map BlockInfo.block =
      (st.recentBlocks[ref]?).map BlockInfo.block)
    (buffer : post.blocksToWrite = st.blocksToWrite) (store : post.store = st.store)
    (raised : st.gcRound ctx ≤ post.gcRound ctx) : Kept ctx admitted post := by
  have members := mem_iff_of_blocks blocks
  constructor
  · intro auth ref
    rw [refs, members]
    exact kept.indexed auth ref
  · intro ref info got
    have same := blocks ref
    rw [got, map_some, eq_comm, map_eq_some_iff] at same
    obtain ⟨old, pre, blk⟩ := same
    rw [← blk]
    exact kept.cached ref old pre
  · intro blk mem
    rw [buffer] at mem
    rw [members]
    exact ⟨(kept.buffered blk mem).1, fun above =>
      (kept.buffered blk mem).2 (Nat.lt_of_le_of_lt raised above)⟩
  · intro ref blk got
    rw [store] at got
    rw [members]
    obtain ⟨keyed, inside, young⟩ := kept.stored ref blk got
    exact ⟨keyed, inside, fun above => young (Nat.lt_of_le_of_lt raised above)⟩

end

/-- The effect of accepting blocks: cached entries stay as they are, a new entry is one of
the blocks with its flags unset, and a block above the garbage-collection round is cached
afterwards. -/
structure Entered (ctx : Context) (pre : DagState) (blocks : List VerifiedBlock)
    (post : DagState) : Prop where
  lastCommit : post.lastCommit = pre.lastCommit
  lookup : ∀ (ref : BlockRef) (info : BlockInfo),
    pre.recentBlocks[ref]? = some info → post.recentBlocks[ref]? = some info
  found : ∀ (ref : BlockRef) (info : BlockInfo),
    post.recentBlocks[ref]? = some info → pre.recentBlocks[ref]? = some info ∨
      ∃ blk ∈ blocks, blk.reference = ref ∧ info = BlockInfo.new blk
  cached : ∀ blk ∈ blocks, pre.gcRound ctx < blk.round → blk.reference ∈ post.recentBlocks

namespace Entered

variable {pre mid : DagState} {first second : List VerifiedBlock}

lemma refl (st : DagState) : Entered ctx st [] st :=
  ⟨rfl, fun _ _ got => got, fun _ _ got => .inl got, by simp⟩

lemma gcRound_eq (entered : Entered ctx pre first post) : post.gcRound ctx = pre.gcRound ctx := by
  rw [gcRound, gcRound, lastCommitRound, lastCommitRound, entered.lastCommit]

lemma mem (entered : Entered ctx pre first post)
    (cached : ref ∈ pre.recentBlocks) : ref ∈ post.recentBlocks := by
  obtain ⟨info, got⟩ := mem_recentBlocks.mp cached
  exact mem_recentBlocks.mpr ⟨info, entered.lookup ref info got⟩

lemma trans (entered : Entered ctx pre first mid)
    (later : Entered ctx mid second post) :
    Entered ctx pre (first ++ second) post where
  lastCommit := later.lastCommit.trans entered.lastCommit
  lookup ref info got := later.lookup ref info (entered.lookup ref info got)
  found ref info got := by
    rcases later.found ref info got with old | ⟨blk, mem, same⟩
    · rcases entered.found ref info old with older | ⟨blk, mem, same⟩
      · exact .inl older
      · exact .inr ⟨blk, mem_append_left _ mem, same⟩
    · exact .inr ⟨blk, mem_append_right _ mem, same⟩
  cached blk mem above := by
    rcases mem_append.mp mem with early | late
    · exact later.mem (entered.cached blk early above)
    · exact later.cached blk late (entered.gcRound_eq ▸ above)

end Entered

lemma Kept.acceptBlock_entered (kept : Kept ctx admitted st)
    (run : st.acceptBlock ctx blk = .ok post) :
    Entered ctx st [blk] post where
  lastCommit := acceptBlock_lastCommit run
  lookup ref info := acceptBlock_lookup kept.indexed run
  found ref info got := by
    rcases acceptBlock_found run got with pre | ⟨rfl, rfl⟩
    · exact .inl pre
    · exact .inr ⟨blk, by simp, rfl, rfl⟩
  cached other mem above := by
    rw [mem_singleton.mp mem] at above ⊢
    exact kept.mem_acceptBlock run above

lemma Kept.acceptBlocks {blocks : List VerifiedBlock} (kept : Kept ctx admitted st)
    (inside : ∀ blk ∈ blocks, blk ∈ admitted)
    (run : st.acceptBlocks ctx blocks = .ok post) :
    Kept ctx admitted post ∧ Entered ctx st blocks post := by
  induction blocks generalizing st with
  | nil =>
    have same : st = post := Except.ok.inj run
    exact same ▸ ⟨kept, .refl st⟩
  | cons blk rest ih =>
    rw [DagState.acceptBlocks, foldlM_cons, bind_eq_ok] at run
    obtain ⟨mid, taken, run⟩ := run
    have keptNow := kept.acceptBlock (inside blk (by simp)) taken
    obtain ⟨keptLater, entered⟩ := ih keptNow (fun other mem => inside other (by simp [mem])) run
    exact ⟨keptLater, (kept.acceptBlock_entered taken).trans entered⟩

end Custody

end DagState

end Mysticeti
