import Mysticeti.BaseCommitter
import Mysticeti.CacheUpkeep

/-!
# What the base committer reads

In a readable state every lookup gives the block of the reference, and the ancestors of a
block above the garbage-collection round can be looked up. There the loops of the base
committer never stop at a missing block, the vote cache is transparent, and each loop is
the counting of a set: `isCertificate_ok`, `countCertificates_ok`, `countBlames_eq`.
`ancestorsAtRound_ok` says that the descent from a block collects exactly the blocks of
the round that lie below it, and that the bound of the model suffices.
-/

namespace Mysticeti

open List Option Lib.Outcome Lib.OrderedMap Lib.Worklist Lib.Quorum Std

namespace DagState

/-- Lookups are keyed, and above genesis they answer with verified blocks. Nothing is said
about the ancestors of these blocks being there. -/
structure Verified (ctx : Context) (st : DagState) : Prop where
  keyed : ∀ ref blk, st.getBlock ctx ref = some blk → blk.reference = ref
  valid : ∀ ref blk, 0 < ref.round → st.getBlock ctx ref = some blk → ValidBlock ctx blk.block.inner

/-- Lookups are keyed and valid, and closed under ancestors above the
garbage-collection round. -/
structure Readable (ctx : Context) (st : DagState) : Prop where
  keyed : ∀ ref blk, st.getBlock ctx ref = some blk → blk.reference = ref
  valid : ∀ ref blk, 0 < ref.round → st.getBlock ctx ref = some blk → ValidBlock ctx blk.block.inner
  closed : ∀ ref blk, st.getBlock ctx ref = some blk →
    ∀ anc ∈ blk.ancestors, st.gcRound ctx < anc.round → ∃ other, st.getBlock ctx anc = some other

def Holds (ctx : Context) (st : DagState) (blk : VerifiedBlock) : Prop :=
  st.getBlock ctx blk.reference = some blk

/-- The store agrees with its keys, and what it has above the garbage-collection round is
cached too. -/
structure Backed (ctx : Context) (st : DagState) : Prop where
  keyed : ∀ (ref : BlockRef) (blk : VerifiedBlock),
    st.store.blocks[ref]? = some blk → blk.reference = ref
  valid : ∀ (ref : BlockRef) (blk : VerifiedBlock),
    st.store.blocks[ref]? = some blk → ValidBlock ctx blk.block.inner
  cached : ∀ (ref : BlockRef) (blk : VerifiedBlock),
    st.store.blocks[ref]? = some blk → st.gcRound ctx < ref.round → ref ∈ st.recentBlocks

variable {ctx : Context} {st : DagState} {ref : BlockRef} {blk : VerifiedBlock}

lemma getBlock_cases (got : st.getBlock ctx ref = some blk) :
    (ref.round = GENESIS_ROUND ∧ genesisGet ctx ref = some blk) ∨
      (∃ info, st.recentBlocks[ref]? = some info ∧ info.block = blk) ∨
      (st.recentBlocks[ref]? = none ∧ st.store.blocks[ref]? = some blk) := by
  rw [getBlock] at got
  split at got
  · exact .inl ⟨by assumption, got⟩
  · cases cached : st.recentBlocks[ref]? with
    | some info =>
      rw [cached] at got
      exact .inr (.inl ⟨info, rfl, some.inj got⟩)
    | none =>
      rw [cached] at got
      exact .inr (.inr ⟨rfl, got⟩)

lemma getBlock_of_cached {info : BlockInfo} (pos : ref.round ≠ 0)
    (cached : st.recentBlocks[ref]? = some info) :
    st.getBlock ctx ref = some info.block := by
  have notGenesis : ¬ ref.round = GENESIS_ROUND := pos
  rw [getBlock, if_neg notGenesis, cached]

lemma WellFormed.verified (wf : st.WellFormed ctx)
    (keyed : ∀ (ref : BlockRef) (blk : VerifiedBlock),
      st.store.blocks[ref]? = some blk → blk.reference = ref)
    (valid : ∀ (ref : BlockRef) (blk : VerifiedBlock),
      st.store.blocks[ref]? = some blk → ValidBlock ctx blk.block.inner) :
    st.Verified ctx where
  keyed ref blk got := by
    rcases getBlock_cases got with ⟨-, genesis⟩ | ⟨info, cached, rfl⟩ | ⟨-, stored⟩
    · exact (genesisGet_eq_some genesis).1
    · exact wf.keyed ref info cached
    · exact keyed ref blk stored
  valid ref blk pos got := by
    rcases getBlock_cases got with ⟨genesis, -⟩ | ⟨info, cached, rfl⟩ | ⟨-, stored⟩
    · exact absurd genesis (Nat.ne_of_gt pos)
    · exact wf.valid ref info cached
    · exact valid ref blk stored

namespace Verified

lemma holds (verified : st.Verified ctx)
    (got : st.getBlock ctx ref = some blk) : st.Holds ctx blk := by
  rw [Holds, verified.keyed ref blk got]
  exact got

lemma ancestors_below (verified : st.Verified ctx)
    (got : st.getBlock ctx ref = some blk) :
    (∀ anc ∈ blk.ancestors, anc.round < ref.round) ∧ (blk.ancestors.map BlockRef.author).Nodup := by
  have keyed := verified.keyed ref blk got
  by_cases genesis : ref.round = GENESIS_ROUND
  · rw [getBlock, if_pos genesis] at got
    obtain ⟨author, -, rfl⟩ := mem_genesisBlocks.mp (genesisGet_eq_some got).2
    simp
  · have valid := verified.valid ref blk (Nat.pos_of_ne_zero genesis) got
    refine ⟨fun anc mem => ?_, valid.distinct⟩
    rw [← keyed]
    exact valid.ancestorRound anc mem

end Verified

lemma Backed.readable (backed : st.Backed ctx) (wf : st.WellFormed ctx)
    (closed : st.CausallyClosed ctx) : st.Readable ctx where
  keyed := (wf.verified backed.keyed backed.valid).keyed
  valid := (wf.verified backed.keyed backed.valid).valid
  closed ref blk got anc mem above := by
    rcases getBlock_cases got with ⟨-, genesis⟩ | ⟨info, cached, rfl⟩ | ⟨absent, stored⟩
    · obtain ⟨author, -, rfl⟩ := mem_genesisBlocks.mp (genesisGet_eq_some genesis).2
      simp at mem
    · have lower : anc.round < ref.round := by
        rw [← wf.round_eq cached]
        exact (wf.valid ref info cached).ancestorRound anc mem
      obtain ⟨other, ancestorCached⟩ := mem_recentBlocks.mp
        (closed ref info cached (Nat.lt_trans above lower) anc mem above)
      exact ⟨other.block, getBlock_of_cached (by lia) ancestorCached⟩
    · have lower : anc.round < blk.round := (backed.valid ref blk stored).ancestorRound anc mem
      rw [← VerifiedBlock.reference_round, backed.keyed ref blk stored] at lower
      have kept := backed.cached ref blk stored (Nat.lt_trans above lower)
      obtain ⟨info, cached⟩ := mem_recentBlocks.mp kept
      simp [absent] at cached

lemma backed_of_unwritten (unwritten : st.store.blocks.toList = []) : st.Backed ctx := by
  have empty : ∀ (ref : BlockRef) (blk : VerifiedBlock), st.store.blocks[ref]? ≠ some blk := by
    intro ref blk stored
    rw [← ExtTreeMap.mem_toList_iff_getElem?_eq_some, unwritten] at stored
    exact absurd stored not_mem_nil
  exact ⟨fun ref blk stored => absurd stored (empty ref blk),
    fun ref blk stored => absurd stored (empty ref blk),
    fun ref blk stored => absurd stored (empty ref blk)⟩

lemma Readable.verified (readable : st.Readable ctx) : st.Verified ctx :=
  ⟨readable.keyed, readable.valid⟩

lemma Readable.holds (readable : st.Readable ctx)
    (got : st.getBlock ctx ref = some blk) : st.Holds ctx blk :=
  readable.verified.holds got

lemma Readable.ancestors_below (readable : st.Readable ctx)
    (got : st.getBlock ctx ref = some blk) :
    (∀ anc ∈ blk.ancestors, anc.round < ref.round) ∧ (blk.ancestors.map BlockRef.author).Nodup :=
  readable.verified.ancestors_below got

end DagState

namespace BaseCommitter

open DagState

variable {ctx : Context} {st : DagState}

section Votes

lemma supportedAmong_low {descend : VerifiedBlock → Except Panic (Option BlockRef)}
    {slot : Slot} {ancestors : List BlockRef}
    (low : ∀ anc ∈ ancestors, anc.round ≤ slot.round) :
    supportedAmong ctx st descend slot ancestors =
      .ok (ancestors.find? fun anc => anc.slot = slot) := by
  induction ancestors with
  | nil => rfl
  | cons anc rest ih =>
    rw [supportedAmong, find?_cons]
    by_cases inSlot : anc.slot = slot
    · simp [inSlot]
    · rw [if_neg inSlot, if_pos (low anc (by simp)), ih fun other mem => low other (by simp [mem])]
      simp [inSlot]

variable {leader : VerifiedBlock} {allVotes : Votes}

lemma isVote_eq {vote : VerifiedBlock}
    (below : ∀ anc ∈ vote.ancestors, anc.round < vote.round)
    (nodup : (vote.ancestors.map BlockRef.author).Nodup) (low : vote.round ≤ leader.round + 1) :
    isVote ctx st vote leader = .ok (decide (leader.reference ∈ vote.ancestors)) := by
  have leaderRound : leader.slot.round = leader.round := rfl
  rw [isVote, findSupportedBlock, leaderRound]
  by_cases early : vote.round < leader.round
  · have absent : leader.reference ∉ vote.ancestors := fun mem => by
      have lower := below leader.reference mem
      rw [VerifiedBlock.reference_round] at lower
      lia
    simp [early, absent]
  · have reached : ∀ anc ∈ vote.ancestors, anc.round ≤ leader.slot.round := by
      intro anc mem
      have lower := below anc mem
      lia
    rw [if_neg early, supportedAmong_low reached, ok_bind, pure_ok, Except.ok.injEq,
      decide_eq_decide]
    constructor
    · exact fun got => mem_of_find?_eq_some got
    · intro mem
      cases got : vote.ancestors.find? fun anc => anc.slot = leader.slot with
      | none =>
        have absent := find?_eq_none.mp got leader.reference mem
        simp at absent
      | some anc =>
        have inSlot : anc.slot = leader.slot := by simpa using find?_some got
        have same : anc = leader.reference :=
          inj_on_of_nodup_map nodup (mem_of_find?_eq_some got) mem
            (congrArg Slot.authority inSlot)
        rw [same]

def votes (ctx : Context) (st : DagState) (leader : VerifiedBlock)
    (ref : BlockRef) : Bool :=
  ((st.getBlock ctx ref).map fun vote => decide (leader.reference ∈ vote.ancestors)).getD false

/-- The cache holds only the right answers. -/
def VotesKnown (supports : BlockRef → Bool) (allVotes : Votes) : Prop :=
  ∀ (ref : BlockRef) (vote : Bool), allVotes[ref]? = some vote → vote = supports ref

variable {supports : BlockRef → Bool}

lemma votesKnown_empty (supports : BlockRef → Bool) : VotesKnown supports ∅ := by
  intro ref vote got
  simp at got

lemma VotesKnown.insert (known : VotesKnown supports allVotes) (ref : BlockRef) :
    VotesKnown supports (allVotes.insert ref (supports ref)) := by
  intro other vote got
  rw [ExtTreeMap.getElem?_insert] at got
  split at got
  · rename_i same
    rw [← LawfulEqCmp.eq_of_compare same]
    exact (some.inj got).symm
  · exact known other vote got

/-- The answer for a reference is the vote of its block, and none for a block missing as
garbage. -/
structure Judged (ctx : Context) (st : DagState) (leader : VerifiedBlock)
    (supports : BlockRef → Bool) (ref : BlockRef) : Prop where
  vote : ∀ blk, st.getBlock ctx ref = some blk → isVote ctx st blk leader = .ok (supports ref)
  garbage : st.getBlock ctx ref = none → ref.round ≤ st.gcRound ctx ∧ supports ref = false

lemma lookupVote_ok (known : VotesKnown supports allVotes)
    (judged : Judged ctx st leader supports ref) :
    ∃ post, lookupVote ctx st leader allVotes ref =
        .ok (supports ref, post) ∧ VotesKnown supports post := by
  rw [lookupVote]
  cases cached : allVotes[ref]? with
  | some vote => exact ⟨allVotes, by rw [known ref vote cached], known⟩
  | none =>
    refine ⟨allVotes.insert ref (supports ref), ?_, known.insert ref⟩
    cases got : st.getBlock ctx ref with
    | none =>
      obtain ⟨old, unvoted⟩ := judged.garbage got
      simp [ensure_holds _ old, unvoted]
    | some vote => simp [judged.vote vote got]

lemma countVotes_ok {refs : List BlockRef} {agg : StakeAggregator}
    (known : VotesKnown supports allVotes)
    (judged : ∀ ref ∈ refs, Judged ctx st leader supports ref) :
    ∃ post, countVotes ctx st leader refs agg allVotes =
        .ok (StakeAggregator.reaches ctx.committee agg
          ((refs.filter supports).map BlockRef.author), post) ∧
      VotesKnown supports post := by
  induction refs generalizing agg allVotes with
  | nil => exact ⟨allVotes, rfl, known⟩
  | cons ref rest ih =>
    obtain ⟨looked, answer, knownNow⟩ := lookupVote_ok known (judged ref (by simp))
    have restJudged : ∀ other ∈ rest, Judged ctx st leader supports other :=
      fun other mem => judged other (by simp [mem])
    rw [countVotes, answer, ok_bind, filter_cons]
    cases voted : supports ref with
    | false => exact ih knownNow restJudged
    | true =>
      simp only [if_true, map_cons, StakeAggregator.reaches]
      cases reached : (agg.add ref.author ctx.committee).2 with
      | true => exact ⟨looked, by simp, knownNow⟩
      | false => exact ih knownNow restJudged

def certifiesBy (ctx : Context) (supports : BlockRef → Bool) (cert : VerifiedBlock) : Bool :=
  StakeAggregator.reaches ctx.committee StakeAggregator.new
    ((cert.ancestors.filter supports).map BlockRef.author)

lemma isCertificate_eq {cert : VerifiedBlock} (known : VotesKnown supports allVotes)
    (judged : ∀ ref ∈ cert.ancestors, Judged ctx st leader supports ref) :
    ∃ post, isCertificate ctx st cert leader allVotes =
        .ok (certifiesBy ctx supports cert, post) ∧ VotesKnown supports post :=
  countVotes_ok known judged

lemma countCertificates_eq {blocks : List VerifiedBlock} {agg : StakeAggregator}
    (known : VotesKnown supports allVotes)
    (judged : ∀ blk ∈ blocks, ∀ ref ∈ blk.ancestors, Judged ctx st leader supports ref) :
    countCertificates ctx st leader blocks agg allVotes =
      .ok (StakeAggregator.reaches ctx.committee agg
        ((blocks.filter (certifiesBy ctx supports)).map VerifiedBlock.author)) := by
  induction blocks generalizing agg allVotes with
  | nil => rfl
  | cons blk rest ih =>
    obtain ⟨post, answer, knownNow⟩ := isCertificate_eq known (judged blk (by simp))
    have restJudged : ∀ other ∈ rest, ∀ ref ∈ other.ancestors, Judged ctx st leader supports ref :=
      fun other mem => judged other (by simp [mem])
    rw [countCertificates, answer, ok_bind, filter_cons]
    cases certified : certifiesBy ctx supports blk with
    | false => exact ih knownNow restJudged
    | true =>
      simp only [if_true, map_cons, StakeAggregator.reaches]
      cases reached : (agg.add blk.author ctx.committee).2 with
      | true => simp
      | false => exact ih knownNow restJudged

lemma ancestor_garbage (readable : st.Readable ctx) {cert : VerifiedBlock}
    (held : st.Holds ctx cert) (mem : ref ∈ cert.ancestors)
    (missing : st.getBlock ctx ref = none) :
    ref.round ≤ st.gcRound ctx := by
  by_contra above
  obtain ⟨other, got⟩ := readable.closed _ cert held ref mem
    (Nat.lt_of_not_le above)
  simp [missing] at got

lemma judged_votes (readable : st.Readable ctx) {cert : VerifiedBlock}
    (held : st.Holds ctx cert) (low : cert.round ≤ leader.round + 2)
    (mem : ref ∈ cert.ancestors) :
    Judged ctx st leader (votes ctx st leader) ref where
  vote vote got := by
    have lower := (readable.ancestors_below held).1 ref mem
    have round : vote.round = ref.round := congrArg BlockRef.round (readable.keyed ref vote got)
    rw [VerifiedBlock.reference_round] at lower
    obtain ⟨below, nodup⟩ := readable.ancestors_below got
    rw [isVote_eq (round ▸ below) nodup (by lia), votes, got]
    rfl
  garbage missing := ⟨ancestor_garbage readable held mem missing, by simp [votes, missing]⟩

def certifies (ctx : Context) (st : DagState) (leader cert : VerifiedBlock) : Bool :=
  StakeAggregator.reaches ctx.committee StakeAggregator.new
    ((cert.ancestors.filter (votes ctx st leader)).map BlockRef.author)

lemma isCertificate_ok (readable : st.Readable ctx) {cert : VerifiedBlock}
    (known : VotesKnown (votes ctx st leader) allVotes)
    (held : st.Holds ctx cert) (low : cert.round ≤ leader.round + 2) :
    ∃ post, isCertificate ctx st cert leader allVotes = .ok (certifies ctx st leader cert, post) ∧
      VotesKnown (votes ctx st leader) post :=
  isCertificate_eq known fun _ mem => judged_votes readable held low mem

lemma anyCertificate_ok (readable : st.Readable ctx) {blocks : List VerifiedBlock}
    (known : VotesKnown (votes ctx st leader) allVotes)
    (held : ∀ blk ∈ blocks, st.Holds ctx blk ∧ blk.round ≤ leader.round + 2) :
    anyCertificate ctx st leader blocks allVotes = .ok (blocks.any (certifies ctx st leader)) := by
  induction blocks generalizing allVotes with
  | nil => rfl
  | cons blk rest ih =>
    obtain ⟨blockHeld, low⟩ := held blk (by simp)
    obtain ⟨post, answer, knownNow⟩ := isCertificate_ok readable known blockHeld low
    rw [anyCertificate, answer, ok_bind, any_cons]
    cases certified : certifies ctx st leader blk with
    | true => simp
    | false => simpa using ih knownNow fun other mem => held other (by simp [mem])

lemma countCertificates_ok (readable : st.Readable ctx) {blocks : List VerifiedBlock}
    {agg : StakeAggregator} (known : VotesKnown (votes ctx st leader) allVotes)
    (held : ∀ blk ∈ blocks, st.Holds ctx blk ∧ blk.round ≤ leader.round + 2) :
    countCertificates ctx st leader blocks agg allVotes =
      .ok (StakeAggregator.reaches ctx.committee agg
        ((blocks.filter (certifies ctx st leader)).map VerifiedBlock.author)) :=
  countCertificates_eq known fun blk mem _ linked =>
    judged_votes readable (held blk mem).1 (held blk mem).2 linked

lemma countBlames_eq (leader : AuthorityIndex) (blocks : List VerifiedBlock)
    (agg : StakeAggregator) :
    countBlames ctx leader blocks agg =
      StakeAggregator.reaches ctx.committee agg
        ((blocks.filter fun blk => blk.ancestors.all fun anc =>
          anc.author ≠ leader).map VerifiedBlock.author) := by
  induction blocks generalizing agg with
  | nil => rfl
  | cons blk rest ih =>
    rw [countBlames, filter_cons]
    split
    · simp only [map_cons, StakeAggregator.reaches, ih]
    · exact ih agg

end Votes

section Support

variable {leader : VerifiedBlock} {slot : Slot} {decisionRound : Round}

lemma supportedAmong_returns {descend : VerifiedBlock → Except Panic (Option BlockRef)}
    {ancestors : List BlockRef}
    (answered : ∀ anc ∈ ancestors, slot.round < anc.round →
      ∃ blk, st.getBlock ctx anc = some blk ∧ ∃ answer, descend blk = .ok answer) :
    ∃ answer, supportedAmong ctx st descend slot ancestors = .ok answer := by
  induction ancestors with
  | nil => exact ⟨none, rfl⟩
  | cons anc rest ih =>
    have later := ih fun other mem => answered other (by simp [mem])
    rw [supportedAmong]
    split
    · exact ⟨_, rfl⟩
    · split
      · exact later
      · rename_i above
        obtain ⟨blk, got, answer, descended⟩ := answered anc (by simp) (Nat.lt_of_not_le above)
        rw [got, expect_some, ok_bind, descended, ok_bind]
        cases answer with
        | some support => exact ⟨_, rfl⟩
        | none => exact later

lemma findSupportedBlock_returns (readable : st.Readable ctx) {fuel : Nat}
    {source : VerifiedBlock} (held : st.Holds ctx source) (enough : source.round < fuel)
    (near : source.round ≤ slot.round + 1 ∨ st.gcRound ctx < slot.round) :
    ∃ answer, findSupportedBlock ctx st slot fuel source = .ok answer := by
  induction fuel generalizing source with
  | zero => exact absurd enough (Nat.not_lt_zero _)
  | succ fuel ih =>
    rw [findSupportedBlock]
    split
    · exact ⟨none, rfl⟩
    · apply supportedAmong_returns
      intro anc mem above
      have lower := (readable.ancestors_below held).1 anc mem
      rw [VerifiedBlock.reference_round] at lower
      obtain ⟨blk, got⟩ := readable.closed _ source held anc mem (by lia)
      have round : blk.round = anc.round := congrArg BlockRef.round (readable.keyed anc blk got)
      exact ⟨blk, got, ih (readable.holds got) (by lia) (by lia)⟩

/-- The block of the reference is there and votes for the leader block. -/
def Supports (ctx : Context) (st : DagState) (leader : VerifiedBlock)
    (ref : BlockRef) : Prop :=
  ∃ vote, st.getBlock ctx ref = some vote ∧ isVote ctx st vote leader = .ok true

open Classical in
/-- The distinct authors of the ancestors that support the leader block are a quorum. -/
def Certificate (ctx : Context) (st : DagState) (leader cert : VerifiedBlock) : Prop :=
  ctx.committee.quorumThreshold ≤ weigh ctx.committee.stake
    ((cert.ancestors.filter (Supports ctx st leader ·)).map
      BlockRef.author).toFinset

open Classical in
lemma certificate_iff {cert : VerifiedBlock} :
    certifiesBy ctx (Supports ctx st leader ·) cert = true ↔ Certificate ctx st leader cert :=
  StakeAggregator.reaches_new_iff _ _

open Classical in
lemma judged_supports (readable : st.Readable ctx) {cert : VerifiedBlock}
    (held : st.Holds ctx cert)
    (near : cert.round ≤ leader.round + 2 ∨ st.gcRound ctx < leader.round)
    {ref : BlockRef} (mem : ref ∈ cert.ancestors) :
    Judged ctx st leader (Supports ctx st leader ·) ref where
  vote vote got := by
    have lower := (readable.ancestors_below held).1 ref mem
    have round : vote.round = ref.round := congrArg BlockRef.round (readable.keyed ref vote got)
    have leaderRound : leader.slot.round = leader.round := rfl
    rw [VerifiedBlock.reference_round] at lower
    obtain ⟨answer, searched⟩ := @findSupportedBlock_returns ctx st leader.slot readable
      (vote.round + 1) vote (readable.holds got) (Nat.lt_succ_self _) (by lia)
    have voted : isVote ctx st vote leader = .ok (decide (answer = some leader.reference)) := by
      rw [isVote, searched, ok_bind, pure_ok]
    have same : Supports ctx st leader ref ↔ answer = some leader.reference := by
      simp [Supports, got, voted]
    rw [voted, Except.ok.injEq, decide_eq_decide]
    exact same.symm
  garbage missing := ⟨ancestor_garbage readable held mem missing, by simp [Supports, missing]⟩

open Classical in
/-- On a causally closed DAG the test for enough support answers whether the authors of the
certificates of the decision round are a quorum, and a cache of right answers changes no
verdict on a certificate. -/
theorem enoughLeaderSupport_exact (wf : st.WellFormed ctx)
    (closed : st.CausallyClosed ctx) (backed : st.Backed ctx)
    (fresh : st.lastCommitRound < decisionRound)
    (near : decisionRound ≤ leader.round + 2 ∨ st.gcRound ctx < leader.round) :
    (∃ answer voters, enoughLeaderSupport ctx st decisionRound leader = .ok answer ∧
      (∀ author, author ∈ voters ↔ ∃ cert, st.Holds ctx cert ∧
        cert.round = decisionRound ∧ Certificate ctx st leader cert ∧ cert.author = author) ∧
      (answer = true ↔ ctx.committee.quorumThreshold ≤ weigh ctx.committee.stake voters)) ∧
    ∀ cert allVotes, st.Holds ctx cert →
      cert.round = decisionRound →
      VotesKnown (Supports ctx st leader ·) allVotes →
      ∃ verdict post, isCertificate ctx st cert leader allVotes =
          .ok (verdict, post) ∧ (verdict = true ↔ Certificate ctx st leader cert) ∧
        VotesKnown (Supports ctx st leader ·) post := by
  have readable := backed.readable wf closed
  have young : st.gcRound ctx < decisionRound := Nat.lt_of_le_of_lt (Nat.sub_le _ _) fresh
  constructor
  · -- The blocks of the decision round in the cache are those of the DAG.
    obtain ⟨got, run⟩ : ∃ got, got =
        (scan st.recentBlocks fun ref => ref.round = decisionRound).map
          BlockInfo.block := ⟨_, rfl⟩
    have members : ∀ blk, blk ∈ got ↔ st.Holds ctx blk ∧ blk.round = decisionRound := by
      intro blk
      rw [run, List.mem_map]
      constructor
      · rintro ⟨info, mem, rfl⟩
        obtain ⟨ref, round, cached⟩ := mem_scan.mp mem
        have same := wf.keyed ref info cached
        rw [decide_eq_true_eq] at round
        refine ⟨?_, ?_⟩
        · rw [Holds, same]
          exact getBlock_of_cached (by lia) cached
        · rw [← VerifiedBlock.reference_round, same, round]
      · rintro ⟨held, round⟩
        have high : blk.reference.round = decisionRound := round
        rcases getBlock_cases held with ⟨genesis, -⟩ | ⟨info, cached, rfl⟩ | ⟨absent, stored⟩
        · exact absurd (high.symm.trans genesis) (by simp only [GENESIS_ROUND]; lia)
        · exact ⟨info, mem_scan.mpr ⟨info.block.reference, decide_eq_true high, cached⟩, rfl⟩
        · obtain ⟨info, cached⟩ := mem_recentBlocks.mp
            (backed.cached _ blk stored (by rw [high]; exact young))
          simp [absent] at cached
    have voters : ∀ author, author ∈ ((got.filter (certifiesBy ctx
        (Supports ctx st leader ·))).map VerifiedBlock.author).toFinset ↔
        ∃ cert, st.Holds ctx cert ∧ cert.round = decisionRound ∧
          Certificate ctx st leader cert ∧ cert.author = author := by
      intro author
      simp only [List.mem_toFinset, List.mem_map, mem_filter, members, certificate_iff, and_assoc]
    refine ⟨_, _, ?_, voters, StakeAggregator.reaches_new_iff _ _⟩
    have gathered : st.getUncommittedBlocksAtRound decisionRound = .ok got := by
      rw [getUncommittedBlocksAtRound, ensure_holds _ fresh, run]
      rfl
    rw [enoughLeaderSupport, gathered, ok_bind]
    dsimp only
    split
    · -- The stake of all blocks, counted with repetition, bounds that of the certificates.
      rename_i short
      rw [eq_comm, Except.ok.injEq, Bool.eq_false_iff, ne_eq, StakeAggregator.reaches_new_iff]
      intro quorum
      have certificates := (filter_sublist (p := certifiesBy ctx
        (Supports ctx st leader ·)) (l := got)).map VerifiedBlock.author
      have bounded := (((dedup_sublist _).trans certificates).map
        ctx.committee.stake).sum_le_sum fun _ _ => Nat.zero_le _
      have nodup : ∀ authors : List AuthorityIndex, authors.dedup.toFinset = authors.toFinset :=
        fun authors => by ext author; simp
      rw [← sum_toFinset _ (nodup_dedup _), nodup, List.map_map] at bounded
      rw [Bool.not_eq_true', Committee.reachedQuorum, decide_eq_false_iff_not] at short
      exact short (quorum.trans bounded)
    · exact countCertificates_eq (votesKnown_empty _) fun blk mem _ linked =>
        judged_supports readable ((members blk).mp mem).1
          (by rw [((members blk).mp mem).2]; exact near) linked
  · intro cert allVotes held round known
    obtain ⟨post, verdict, knownAfter⟩ := isCertificate_eq known fun _ linked =>
      judged_supports readable held (by rw [round]; exact near) linked
    exact ⟨_, post, verdict, certificate_iff, knownAfter⟩

theorem enoughLeaderSupport_exact_threeRounds :
    let ctx := Context.newForTest firstAuthority
    let st := testState firstAuthority threeRounds
    let leader := testBlock 1 0 [0, 1, 2]
    enoughLeaderSupport ctx st 3 leader = .ok true ∧
      ∃ voters, (∀ author, author ∈ voters ↔ ∃ cert, st.Holds ctx cert ∧
        cert.round = 3 ∧ Certificate ctx st leader cert ∧ cert.author = author) ∧
        ctx.committee.quorumThreshold ≤ weigh ctx.committee.stake voters := by
  intro ctx st leader
  have ret : enoughLeaderSupport ctx st 3 leader = .ok true := by decide +kernel
  obtain ⟨⟨answer, voters, run, members, reached⟩, -⟩ :=
    @enoughLeaderSupport_exact ctx st leader 3 (testState_wellFormed (by decide +kernel))
      (by decide +kernel) (backed_of_unwritten (by decide +kernel)) (by decide +kernel)
      (.inl (by decide))
  have holds : answer = true := by
    rw [ret] at run
    exact (Except.ok.inj run).symm
  exact ⟨ret, voters, members, reached.mp holds⟩

end Support

end BaseCommitter

namespace DagState

variable {ctx : Context} {st : DagState} {ref : BlockRef} {blk : VerifiedBlock}

section Descent

def descentLinks (ctx : Context) (st : DagState) (earlierRound : Round)
    (ref : BlockRef) : List BlockRef :=
  if earlierRound < ref.round then
    ((st.getBlock ctx ref).map VerifiedBlock.ancestors).getD []
  else []

/-- The references under which a block other than genesis can be found. -/
def storedRefs (st : DagState) : Finset BlockRef :=
  (st.recentBlocks.keys ++ st.store.blocks.keys).toFinset

lemma storedRefs_card (st : DagState) :
    st.storedRefs.card ≤ st.recentBlocks.size + st.store.blocks.size := by
  refine (toFinset_card_le _).trans ?_
  rw [length_append, ExtTreeMap.length_keys, ExtTreeMap.length_keys]

lemma mem_storedRefs (pos : ref.round ≠ 0)
    (got : st.getBlock ctx ref = some blk) : ref ∈ st.storedRefs := by
  have notGenesis : ¬ ref.round = GENESIS_ROUND := pos
  rw [getBlock, if_neg notGenesis] at got
  rw [storedRefs, List.mem_toFinset, mem_append, ExtTreeMap.mem_keys, ExtTreeMap.mem_keys]
  cases cached : st.recentBlocks[ref]? with
  | some info => exact .inl (mem_recentBlocks.mpr ⟨info, cached⟩)
  | none =>
    rw [cached] at got
    right
    rw [← ExtTreeMap.isSome_getElem?_iff_mem]
    exact isSome_of_eq_some got

/-- What a descent may still pop: stored references above the round, not above the
greatest linked one. -/
noncomputable def poppable (st : DagState) (earlierRound : Round)
    (linked : ExtTreeSet BlockRef) : Finset BlockRef :=
  open Classical in
  st.storedRefs.filter fun stored =>
    earlierRound < stored.round ∧ ∃ ref ∈ linked, (compare stored ref).isLE

variable {earlierRound : Round} {linked : ExtTreeSet BlockRef} {top : BlockRef}

lemma mem_poppable {stored : BlockRef} : stored ∈ st.poppable earlierRound linked ↔
      stored ∈ st.storedRefs ∧ earlierRound < stored.round ∧
        ∃ ref ∈ linked, (compare stored ref).isLE := by
  simp [poppable]

lemma poppable_card (st : DagState) (earlierRound : Round)
    (linked : ExtTreeSet BlockRef) : (st.poppable earlierRound linked).card ≤
      st.recentBlocks.size + st.store.blocks.size :=
  (Finset.card_le_card fun _ mem => (mem_poppable.mp mem).1).trans st.storedRefs_card

lemma mem_popped :
    ref ∈ blk.ancestors.foldl .insert (linked.erase top) ↔
      ref ∈ blk.ancestors ∨ (ref ∈ linked ∧ ref ≠ top) := by
  rw [mem_foldl_insert, ExtTreeSet.mem_erase, ne_eq, LawfulEqCmp.compare_eq_iff_eq]
  tauto

lemma reached_popped {target : BlockRef} (mem : top ∈ linked)
    (above : earlierRound < top.round) (got : st.getBlock ctx top = some blk) :
    Reached (st.descentLinks ctx earlierRound) ∅ linked.toList target ↔
      target = top ∨ Reached (st.descentLinks ctx earlierRound) ∅
        (blk.ancestors.foldl .insert (linked.erase top)).toList target := by
  have links : st.descentLinks ctx earlierRound top = blk.ancestors := by
    simp [descentLinks, above, got]
  constructor
  · intro reached
    refine reached.induct (motive := fun target => target = top ∨ Reached
      (st.descentLinks ctx earlierRound) ∅
        (blk.ancestors.foldl .insert (linked.erase top)).toList target) ?_ ?_
    · intro root inside
      rw [ExtTreeSet.mem_toList] at inside
      by_cases same : root = top
      · exact .inl same
      · right
        apply Reached.root
        rw [ExtTreeSet.mem_toList, mem_popped]
        exact .inr ⟨inside, same⟩
    · rintro source child (rfl | reached) linked entered
      · right
        apply Reached.root
        rw [ExtTreeSet.mem_toList, mem_popped]
        exact .inl (links ▸ linked)
      · exact .inr (reached.next linked entered)
  · rintro (rfl | reached)
    · exact Reached.root (ExtTreeSet.mem_toList.mpr mem)
    · refine reached.mono (Set.Subset.refl _) fun root inside => ?_
      rw [ExtTreeSet.mem_toList, mem_popped] at inside
      rcases inside with anc | ⟨other, -⟩
      · exact (Reached.root (ExtTreeSet.mem_toList.mpr mem)).next (links ▸ anc)
          (Set.notMem_empty _)
      · exact Reached.root (ExtTreeSet.mem_toList.mpr other)

lemma popped_lt (greatest : ∀ other ∈ linked, (compare other top).isLE)
    (falling : ∀ anc ∈ blk.ancestors, anc.round < top.round)
    (mem : ref ∈ blk.ancestors.foldl .insert (linked.erase top)) :
    compare ref top = .lt := by
  rcases mem_popped.mp mem with anc | ⟨other, ne⟩
  · exact BlockRef.compare_of_round_lt (falling ref anc)
  · have below := greatest ref other
    cases order : compare ref top with
    | lt => rfl
    | eq => exact absurd (LawfulEqCmp.eq_of_compare order) ne
    | gt => simp [order] at below

lemma poppable_popped (mem : top ∈ linked)
    (greatest : ∀ other ∈ linked, (compare other top).isLE)
    (above : earlierRound < top.round) (got : st.getBlock ctx top = some blk)
    (falling : ∀ anc ∈ blk.ancestors, anc.round < top.round) :
    (st.poppable earlierRound
      (blk.ancestors.foldl .insert (linked.erase top))).card <
        (st.poppable earlierRound linked).card := by
  have below : ∀ stored ∈ st.poppable earlierRound
      (blk.ancestors.foldl .insert (linked.erase top)), compare stored top = .lt := by
    intro stored inside
    obtain ⟨-, -, ref, popped, order⟩ := mem_poppable.mp inside
    exact TransCmp.lt_of_isLE_of_lt order (popped_lt greatest falling popped)
  apply Finset.card_lt_card
  rw [Finset.ssubset_iff_of_subset]
  · refine ⟨top, ?_, fun inside => ?_⟩
    · rw [mem_poppable]
      exact ⟨mem_storedRefs (by lia) got, above, top, mem, by simp⟩
    · have cycle := below top inside
      simp at cycle
  · intro stored inside
    obtain ⟨kept, young, -⟩ := mem_poppable.mp inside
    rw [mem_poppable]
    exact ⟨kept, young, top, mem, by simp [below stored inside]⟩

lemma reached_low {roots : List BlockRef} {target : BlockRef}
    (low : ∀ ref ∈ roots, ref.round ≤ earlierRound) :
    Reached (st.descentLinks ctx earlierRound) ∅ roots target ↔ target ∈ roots := by
  constructor
  · intro reached
    refine reached.induct (motive := fun target => target ∈ roots) (fun _ mem => mem) ?_
    intro source child inside linked
    simp [descentLinks, Nat.not_lt_of_le (low source inside)] at linked
  · exact Reached.root

lemma descendTo_stop {fuel : Nat}
    (low : ∀ ref : BlockRef, ref ∈ linked → ref.round ≤ earlierRound) :
    st.descendTo ctx earlierRound fuel linked = .ok linked := by
  rw [descendTo.eq_def]
  cases greatest : last linked with
  | none => simp only [greatest]
  | some top => simp only [greatest, low top (last_eq_some_iff.mp greatest).1, if_true]

lemma descendTo_pop {fuel : Nat} (greatest : last linked = some top)
    (above : earlierRound < top.round) (got : st.getBlock ctx top = some blk) :
    st.descendTo ctx earlierRound (fuel + 1) linked =
      st.descendTo ctx earlierRound fuel
        (blk.ancestors.foldl .insert (linked.erase top)) := by
  rw [descendTo.eq_def]
  simp [greatest, Nat.not_le_of_lt above, got]

lemma descendTo_ok (readable : st.Readable ctx) {fuel : Nat}
    (stored : ∀ ref, Reached (st.descentLinks ctx earlierRound) ∅ linked.toList
      ref → earlierRound < ref.round → ∃ blk, st.getBlock ctx ref = some blk)
    (enough : (st.poppable earlierRound linked).card ≤ fuel) :
    ∃ final, st.descendTo ctx earlierRound fuel linked = .ok final ∧
      ∀ ref, ref ∈ final ↔ ref.round ≤ earlierRound ∧
        Reached (st.descentLinks ctx earlierRound) ∅ linked.toList ref := by
  induction fuel generalizing linked with
  | zero =>
    -- Nothing can be popped, so nothing above the round is linked.
    have low : ∀ ref ∈ linked, ref.round ≤ earlierRound := by
      intro ref mem
      by_contra above
      obtain ⟨blk, got⟩ := stored ref
        (Reached.root (ExtTreeSet.mem_toList.mpr mem)) (Nat.lt_of_not_le above)
      have inside : ref ∈ st.poppable earlierRound linked := mem_poppable.mpr
        ⟨mem_storedRefs (by lia) got, Nat.lt_of_not_le above, ref, mem, by simp⟩
      have empty := Finset.card_eq_zero.mp (Nat.le_zero.mp enough)
      simp [empty] at inside
    refine ⟨linked, descendTo_stop low, fun ref => ?_⟩
    rw [reached_low fun other mem => low other (ExtTreeSet.mem_toList.mp mem),
      ExtTreeSet.mem_toList]
    exact ⟨fun mem => ⟨low ref mem, mem⟩, fun both => both.2⟩
  | succ fuel ih =>
    by_cases low : ∀ ref ∈ linked, ref.round ≤ earlierRound
    · refine ⟨linked, descendTo_stop low, fun ref => ?_⟩
      rw [reached_low fun other mem => low other (ExtTreeSet.mem_toList.mp mem),
        ExtTreeSet.mem_toList]
      exact ⟨fun mem => ⟨low ref mem, mem⟩, fun both => both.2⟩
    · push Not at low
      obtain ⟨high, inside, highAbove⟩ := low
      cases greatest : last linked with
      | none => exact absurd inside (last_eq_none_iff.mp greatest high)
      | some top =>
        obtain ⟨mem, order⟩ := last_eq_some_iff.mp greatest
        have above : earlierRound < top.round :=
          Nat.lt_of_lt_of_le highAbove (BlockRef.round_le_of_isLE (order high inside))
        obtain ⟨blk, got⟩ := stored top
          (Reached.root (ExtTreeSet.mem_toList.mpr mem)) above
        have falling := (readable.ancestors_below got).1
        have fewer := poppable_popped mem order above got falling
        obtain ⟨final, run, members⟩ := ih
          (fun ref later => stored ref
            ((reached_popped mem above got).mpr (.inr later)))
          (Nat.le_of_lt_succ (Nat.lt_of_lt_of_le fewer enough))
        refine ⟨final, (descendTo_pop greatest above got).trans run, fun ref => ?_⟩
        rw [members, reached_popped mem above got]
        constructor
        · exact fun both => ⟨both.1, .inr both.2⟩
        · rintro ⟨bounded, rfl | later⟩
          · exact absurd bounded (Nat.not_le_of_lt above)
          · exact ⟨bounded, later⟩

lemma Readable.reached_stored (readable : st.Readable ctx) {later : VerifiedBlock}
    (held : st.Holds ctx later)
    (reached : Reached (st.descentLinks ctx earlierRound) ∅ later.ancestors ref)
    (young : st.gcRound ctx < ref.round) :
    ∃ blk, st.getBlock ctx ref = some blk := by
  refine reached.induct (motive := fun target => st.gcRound ctx < target.round →
    ∃ blk, st.getBlock ctx target = some blk) ?_ ?_ young
  · exact fun root mem => readable.closed _ later held root mem
  · intro source child _ linked _ childYoung
    rw [descentLinks] at linked
    split at linked
    · cases got : st.getBlock ctx source with
      | none => simp [got] at linked
      | some blk =>
        rw [got] at linked
        exact readable.closed source blk got child linked childYoung
    · simp at linked

/-- The block of the first reference has the second as an ancestor. -/
def AncestorLink (ctx : Context) (st : DagState) (source target : BlockRef) : Prop :=
  ∃ blk, st.getBlock ctx source = some blk ∧ target ∈ blk.ancestors

lemma Readable.reached_iff (readable : st.Readable ctx) {later : VerifiedBlock}
    (held : st.Holds ctx later) {target : BlockRef} (high : earlierRound ≤ target.round) :
    Reached (st.descentLinks ctx earlierRound) ∅ later.ancestors target ↔
      Relation.TransGen (AncestorLink ctx st) later.reference target := by
  constructor
  · intro reached
    refine reached.induct (fun root mem => .single ⟨later, held, mem⟩) ?_
    intro source child path linked _
    rw [descentLinks] at linked
    split at linked
    · cases got : st.getBlock ctx source with
      | none => simp [got] at linked
      | some blk =>
        rw [got] at linked
        exact path.tail ⟨blk, got, linked⟩
    · simp at linked
  · intro path
    induction path with
    | single link =>
      obtain ⟨blk, got, linked⟩ := link
      rw [Option.some.inj (got.symm.trans held)] at linked
      exact Reached.root linked
    | @tail source child path link ih =>
      obtain ⟨blk, got, linked⟩ := link
      have lower := (readable.ancestors_below got).1 child linked
      refine (ih (by lia)).next ?_ (Set.notMem_empty _)
      rw [descentLinks, if_pos (by lia), got]
      exact linked

lemma ancestorsAtRound_ok (readable : st.Readable ctx) {later : VerifiedBlock}
    (held : st.Holds ctx later) (young : st.gcRound ctx < earlierRound) :
    ∃ blocks, st.ancestorsAtRound ctx later earlierRound = .ok blocks ∧ blocks.Nodup ∧
      ∀ blk, blk ∈ blocks ↔ st.Holds ctx blk ∧ blk.round = earlierRound ∧
        Reached (st.descentLinks ctx earlierRound) ∅ later.ancestors blk.reference := by
  have sameRoots : ∀ ref,
      Reached (st.descentLinks ctx earlierRound) ∅
        (later.ancestors.foldl .insert (∅ : ExtTreeSet BlockRef)).toList ref ↔
      Reached (st.descentLinks ctx earlierRound) ∅ later.ancestors ref := by
    intro ref
    constructor <;> intro reached <;>
      refine reached.mono (Set.Subset.refl _) fun root mem => Reached.root ?_
    · rw [ExtTreeSet.mem_toList, mem_foldl_insert] at mem
      exact mem.resolve_right (by simp)
    · rw [ExtTreeSet.mem_toList, mem_foldl_insert]
      exact .inl mem
  obtain ⟨final, run, members⟩ := @descendTo_ok ctx st earlierRound
    (later.ancestors.foldl .insert ∅) readable (st.recentBlocks.size + st.store.blocks.size)
    (fun ref reached above => readable.reached_stored held ((sameRoots ref).mp reached)
      (Nat.lt_trans young above))
    (st.poppable_card earlierRound _)
  have inRound : ∀ ref, ref ∈ final.toList.filter
      (fun ref => earlierRound ≤ ref.round) ↔ ref.round = earlierRound ∧
        Reached (st.descentLinks ctx earlierRound) ∅ later.ancestors ref := by
    intro ref
    rw [mem_filter, ExtTreeSet.mem_toList, members, decide_eq_true_eq, sameRoots]
    constructor
    · exact fun ⟨⟨upper, reached⟩, lower⟩ => ⟨Nat.le_antisymm upper lower, reached⟩
    · exact fun ⟨same, reached⟩ => ⟨⟨Nat.le_of_eq same, reached⟩, Nat.le_of_eq same.symm⟩
  have looked : ∀ ref ∈ final.toList.filter
      (fun ref => earlierRound ≤ ref.round), st.getBlock ctx ref =
        some ((st.getBlock ctx ref).getD default) := by
    intro ref mem
    obtain ⟨same, reached⟩ := (inRound ref).mp mem
    obtain ⟨blk, got⟩ := readable.reached_stored held reached (same ▸ young)
    rw [got, getD_some]
  refine ⟨(final.toList.filter fun ref => earlierRound ≤ ref.round).map
    fun ref => (st.getBlock ctx ref).getD default, ?_, ?_, fun blk => ?_⟩
  · rw [ancestorsAtRound, run, ok_bind]
    exact mapM_ok fun ref mem => by rw [looked ref mem]; rfl
  · -- A block found under two references would be keyed by both.
    have here : final.toList.Nodup := final.distinct_toList.imp fun apart same =>
      apart (LawfulEqCmp.compare_eq_iff_eq.mpr same)
    refine (here.filter _).map_on fun left inLeft right inRight same => ?_
    rw [← readable.keyed left _ (looked left inLeft),
      ← readable.keyed right _ (looked right inRight), same]
  · rw [List.mem_map]
    constructor
    · rintro ⟨ref, mem, rfl⟩
      have got := looked ref mem
      have keyed := readable.keyed ref _ got
      obtain ⟨same, reached⟩ := (inRound ref).mp mem
      refine ⟨readable.holds got, ?_, ?_⟩
      · rw [← VerifiedBlock.reference_round, keyed, same]
      · rw [keyed]
        exact reached
    · rintro ⟨got, same, reached⟩
      refine ⟨blk.reference, (inRound _).mpr ⟨same, reached⟩, ?_⟩
      rw [got, getD_some]

/-- The history lookup gives, each once, the blocks of the round that ancestor links lead to,
whether or not the links skip rounds. -/
theorem ancestorsAtRound_exact (readable : st.Readable ctx) {later : VerifiedBlock}
    (held : st.Holds ctx later) (young : st.gcRound ctx < earlierRound) :
    ∃ blocks, st.ancestorsAtRound ctx later earlierRound = .ok blocks ∧ blocks.Nodup ∧
      ∀ blk, blk ∈ blocks ↔ st.Holds ctx blk ∧ blk.round = earlierRound ∧
        Relation.TransGen (AncestorLink ctx st) later.reference blk.reference := by
  obtain ⟨blocks, run, once, members⟩ := ancestorsAtRound_ok readable held young
  refine ⟨blocks, run, once, fun blk => (members blk).trans ?_⟩
  refine and_congr_right fun _ => and_congr_right fun same => readable.reached_iff held ?_
  exact Nat.le_of_eq same.symm

theorem ancestorsAtRound_exact_threeRounds :
    let ctx := Context.newForTest firstAuthority
    let st := testState firstAuthority threeRounds
    let later := testBlock 3 0 [0, 1, 2]
    ∃ blocks, st.ancestorsAtRound ctx later 1 = .ok blocks ∧ blocks.length = 3 ∧
      blocks.Nodup ∧ ∀ blk, blk ∈ blocks ↔ st.Holds ctx blk ∧ blk.round = 1 ∧
        Relation.TransGen (AncestorLink ctx st) later.reference blk.reference := by
  intro ctx st later
  have readable : st.Readable ctx := (backed_of_unwritten (by decide +kernel)).readable
    (testState_wellFormed (by decide +kernel)) (by decide +kernel)
  have counted : (st.ancestorsAtRound ctx later 1).map length = .ok 3 := by decide +kernel
  obtain ⟨blocks, run, exact⟩ :=
    @ancestorsAtRound_exact ctx st 1 readable later (by unfold Holds; decide +kernel)
      (by decide +kernel)
  refine ⟨blocks, run, ?_, exact⟩
  rw [run] at counted
  exact Except.ok.inj counted

end Descent

end DagState

end Mysticeti
