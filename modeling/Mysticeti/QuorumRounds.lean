import Mysticeti.AncestorState
import Mysticeti.CommitVerification
import Mysticeti.Lib.WeightedMedian

/-!
# What a quorum reports

Two components read a position off the reports of all authorities by adding up stake along the
sorted reports until a quorum is reached. The round tracker does so upwards and downwards for
the rounds reported for one authority; the commit vote monitor does so downwards for the highest
commit index each authority voted for.

Such a pass stops where the stake crosses the quorum threshold: downwards, the order of the
reports is reversed. So the result is the extreme report that a quorum is on one side of, and
reports of tolerated stake cannot push it beyond those of the honest authorities.
-/

namespace Mysticeti

open List Lib.Outcome Lib.Quorum Lib.WeightedMedian

def firstAtQuorum {α : Type} (comm : Committee) : Stake → List (α × Stake) → Option α
  | _, [] => none
  | totalStake, (val, stake) :: rest =>
    if comm.quorumThreshold ≤ totalStake + stake then some val
    else firstAtQuorum comm (totalStake + stake) rest

section Scan

variable {α β : Type} {comm : Committee} {report : AuthorityIndex → α}

lemma firstAtQuorum_eq_firstPast {added : Stake} {last : α} {entries : List (α × Stake)}
    (reaches : comm.quorumThreshold ≤ added + (entries.map Prod.snd).sum)
    (below : added < comm.quorumThreshold) :
    firstAtQuorum comm added entries =
      some (firstPast Prod.fst Prod.snd (comm.quorumThreshold - 1) added last entries) := by
  induction entries generalizing added last with
  | nil => exact absurd reaches (Nat.not_le_of_lt below)
  | cons entry rest ih =>
    have pos := comm.quorumThreshold_pos
    rw [firstAtQuorum, firstPast]
    split
    · rw [if_pos (by lia)]
    · rename_i short
      rw [if_neg (by lia)]
      apply ih
      · rw [map_cons, sum_cons, ← Nat.add_assoc] at reaches
        exact reaches
      · lia

lemma zip_authorities {rows : List β} {read : β → α} (each : rows.length = comm.size)
    (reads : ∀ auth < comm.size, rows[auth]?.map read = some (report auth)) :
    ((rows.zip comm.authorities).map fun entry => (read entry.1, entry.2.stake)) =
      comm.indices.map fun auth => (report auth, comm.stake auth) := by
  apply ext_getElem?
  intro auth
  by_cases inside : auth < comm.size
  · obtain ⟨row, got, same⟩ := Option.map_eq_some_iff.mp (reads auth inside)
    have mem : comm.authorities[auth]? =
      some (comm.authorities.get ⟨auth, inside⟩) := getElem?_eq_getElem inside
    have paired : (rows.zip comm.authorities)[auth]? = some (row, _) :=
      getElem?_zip_eq_some.mpr ⟨got, mem⟩
    rw [getElem?_map, paired]
    simp [Committee.indices, Committee.stake, inside, same, mem]
  · have outside := Nat.le_of_not_lt inside
    rw [getElem?_eq_none, getElem?_eq_none]
    · simpa [Committee.indices] using outside
    · rw [length_map, length_zip, each]
      exact (Nat.min_le_left _ _).trans outside

lemma weightWhere_indices (keep : AuthorityIndex → Bool) :
    weightWhere comm.stake keep comm.indices =
      weigh comm.stake (comm.everyone.filter fun auth => keep auth) := by
  have separate : (comm.indices.filter keep).Nodup := nodup_range.filter _
  rw [weightWhere, ← sum_toFinset _ separate, toFinset_filter, Committee.indices, toFinset_range]
  rfl

lemma sum_stakes : (comm.indices.map comm.stake).sum = comm.totalStake := by
  rw [Committee.indices, ← sum_toFinset _ nodup_range, toFinset_range, ← comm.weigh_everyone]
  rfl

section Order

variable [LinearOrder α] {sorted : List (α × Stake)} {crossing : α}

lemma firstAtQuorum_crosses (same : sorted.Perm (comm.indices.map fun auth =>
      (report auth, comm.stake auth)))
    (ordered : sorted.Pairwise fun left right => left.1 ≤ right.1) :
    ∃ crossing, firstAtQuorum comm 0 sorted = some crossing ∧
      Crosses report comm.stake (comm.quorumThreshold - 1) comm.indices
        crossing := by
  have pos := comm.quorumThreshold_pos
  have total : (sorted.map Prod.snd).sum = comm.totalStake := by
    rw [(same.map Prod.snd).sum_eq, map_map, ← sum_stakes]
    rfl
  have reaches : comm.quorumThreshold ≤ (sorted.map Prod.snd).sum := by
    rw [total]
    exact Nat.sub_le _ _
  have past : comm.quorumThreshold - 1 < (sorted.map Prod.snd).sum := by lia
  refine ⟨_, @firstAtQuorum_eq_firstPast _ _ _ (report 0) _ (by rwa [Nat.zero_add]) pos, ?_⟩
  exact ((firstPast_crosses ordered past).perm same).of_map

variable (crosses : Crosses report comm.stake (comm.quorumThreshold - 1)
  comm.indices crossing)

include crosses

lemma isLeast_of_crosses :
    IsLeast {val | comm.quorumThreshold ≤ weigh comm.stake
      (comm.everyone.filter fun auth => report auth ≤ val)} crossing := by
  have pos := comm.quorumThreshold_pos
  have same : {val | comm.quorumThreshold ≤ weigh comm.stake
      (comm.everyone.filter fun auth => report auth ≤ val)} =
      {val | comm.quorumThreshold - 1 < weightWhere comm.stake
        (fun item => report item ≤ val) comm.indices} := by
    ext val
    simp only [weightWhere_indices, decide_eq_true_eq, Set.mem_ofPred_eq]
    lia
  rw [same]
  exact crosses.isLeast

lemma reported_of_crosses : ∃ auth ∈ comm.everyone, report auth = crossing := by
  obtain ⟨auth, listed, same⟩ := crosses.attained
  exact ⟨auth, Finset.mem_range.mpr (mem_range.mp listed), same⟩

lemma honest_around {faulty : Finset AuthorityIndex}
    (tolerated : weigh comm.stake faulty ≤ comm.faultTolerance) :
    (∃ auth ∈ comm.everyone \ faulty, report auth ≤ crossing) ∧
      ∃ auth ∈ comm.everyone \ faulty, crossing ≤ report auth := by
  have light : weightWhere comm.stake (fun auth => auth ∈ faulty)
      comm.indices ≤ comm.faultTolerance := by
    rw [weightWhere_indices]
    refine (weigh_mono fun auth mem => ?_).trans tolerated
    exact of_decide_eq_true (Finset.mem_filter.mp mem).2
  have honest {auth : AuthorityIndex} (listed : auth ∈ comm.indices)
      (other : decide (auth ∈ faulty) = false) : auth ∈ comm.everyone \ faulty :=
    Finset.mem_sdiff.mpr ⟨Finset.mem_range.mpr (mem_range.mp listed), of_decide_eq_false other⟩
  have pos := comm.totalStake_pos
  constructor
  · obtain ⟨auth, listed, other, low⟩ := crosses.exists_le (light.trans (by
      unfold Committee.quorumThreshold Committee.faultTolerance
      lia))
    exact ⟨auth, honest listed other, low⟩
  · obtain ⟨auth, listed, other, high⟩ := crosses.exists_ge
      ((Nat.add_le_add_right light _).trans_lt (by
        rw [sum_stakes]
        unfold Committee.quorumThreshold Committee.faultTolerance
        lia))
    exact ⟨auth, honest listed other, high⟩

end Order

end Scan

/-! ## The round tracker -/

inductive RoundTrackerPanic where
  | outOfBounds (idx : AuthorityIndex)
  | gapUnderflow (rounds : QuorumRound)
deriving DecidableEq, Repr

structure PeerRoundTracker where
  blockAcceptedRounds : List (List Round)
  probedAcceptedRounds : List (List Round)
  probedReceivedRounds : List (List Round)

def computeQuorumRound (comm : Committee) (targetIndex : AuthorityIndex)
    (highestRounds : List (List Round)) : Except RoundTrackerPanic QuorumRound := do
  let roundsWithStake ← (highestRounds.zip comm.authorities).mapM fun entry => do
    let round ← expect entry.1[targetIndex]? (.outOfBounds targetIndex)
    pure (round, entry.2.stake)
  let sorted := roundsWithStake.insertionSort fun left right => toLex left ≤ toLex right
  pure ((firstAtQuorum comm 0 sorted.reverse).getD 0,
    (firstAtQuorum comm 0 sorted).getD 0)

namespace PeerRoundTracker

variable (ctx : Context) (tracker : PeerRoundTracker)

def new : PeerRoundTracker :=
  let rounds := replicate ctx.committee.size (replicate ctx.committee.size 0)
  ⟨rounds, rounds, rounds⟩

def computeAcceptedQuorumRounds : Except RoundTrackerPanic (List QuorumRound) :=
  ctx.committee.indices.mapM fun peer => computeQuorumRound ctx.committee peer
    (zipWith (zipWith max) tracker.probedAcceptedRounds tracker.blockAcceptedRounds)

def computeReceivedQuorumRounds : Except RoundTrackerPanic (List QuorumRound) :=
  ctx.committee.indices.mapM fun peer => computeQuorumRound ctx.committee peer
    tracker.probedReceivedRounds

def quorumRoundGaps (comm : Committee) (rounds : List QuorumRound) :
    Except RoundTrackerPanic (List Round) :=
  (rounds.zip comm.authorities).mapM fun entry => do
    ensure (entry.1.1 ≤ entry.1.2) (.gapUnderflow entry.1)
    pure (entry.1.2 - entry.1.1)

def calculatePropagationDelay (lastProposedRound : Round) : Except RoundTrackerPanic Round := do
  let recv ← tracker.computeReceivedQuorumRounds ctx
  let acc ← tracker.computeAcceptedQuorumRounds ctx
  let _ ← quorumRoundGaps ctx.committee recv
  let _ ← quorumRoundGaps ctx.committee acc
  let ownReceived ← expect recv[ctx.ownIndex]? (.outOfBounds ctx.ownIndex)
  let ownAccepted ← expect acc[ctx.ownIndex]? (.outOfBounds ctx.ownIndex)
  pure (min (lastProposedRound - ownReceived.1) (lastProposedRound - ownAccepted.1))

end PeerRoundTracker

/-- One row for each authority, with one round for each authority. -/
def RoundMatrix (comm : Committee) (rounds : List (List Round)) : Prop :=
  rounds.length = comm.size ∧ ∀ row ∈ rounds, row.length = comm.size

def reportedRound (rounds : List (List Round)) (target auth : AuthorityIndex) : Round :=
  ((rounds[auth]?.bind fun row => row[target]?)).getD 0

section Brackets

variable {comm : Committee} {target : AuthorityIndex} {rounds : List (List Round)}

lemma computeQuorumRound_ok (matrix : RoundMatrix comm rounds)
    (inside : target < comm.size) : ∃ low high,
    computeQuorumRound comm target rounds = .ok (low, high) ∧
    Crosses (fun auth => OrderDual.toDual (reportedRound rounds target auth))
      comm.stake (comm.quorumThreshold - 1) comm.indices (OrderDual.toDual low) ∧
    Crosses (reportedRound rounds target) comm.stake (comm.quorumThreshold - 1)
      comm.indices high := by
  let entries := comm.indices.map fun auth =>
    (reportedRound rounds target auth, comm.stake auth)
  have reads : ∀ auth < comm.size, (rounds[auth]?.map fun row =>
      row[target]?.getD 0) = some (reportedRound rounds target auth) := by
    intro auth mem
    have got := getElem?_eq_getElem (matrix.1 ▸ mem)
    simp [reportedRound, got]
  have listed : ((rounds.zip comm.authorities).mapM fun entry => do
      let round ← expect entry.1[target]? (RoundTrackerPanic.outOfBounds target)
      pure (round, entry.2.stake)) = .ok entries := by
    rw [show entries = _ from (zip_authorities matrix.1 reads).symm]
    apply mapM_ok
    intro entry mem
    have long := matrix.2 entry.1 (of_mem_zip mem).1
    have got := getElem?_eq_getElem (long ▸ inside)
    simp [got]
  let sorted := entries.insertionSort fun left right => toLex left ≤ toLex right
  have same : sorted.Perm entries := perm_insertionSort _ _
  have ordered : sorted.Pairwise fun left right => left.1 ≤ right.1 := by
    apply (pairwise_insertionSort (fun left right => toLex left ≤ toLex right) entries).imp
    intro left right lower
    exact Prod.Lex.monotone_fst _ _ lower
  obtain ⟨high, top, highCrosses⟩ := firstAtQuorum_crosses same ordered
  obtain ⟨low, lowest, lowCrosses⟩ := @firstAtQuorum_crosses Roundᵒᵈ comm
    (fun auth => OrderDual.toDual (reportedRound rounds target auth)) _ sorted.reverse
    ((reverse_perm sorted).trans same) (pairwise_reverse.mpr ordered)
  refine ⟨OrderDual.ofDual low, high, ?_, lowCrosses, highCrosses⟩
  rw [computeQuorumRound, listed]
  change Except.ok ((firstAtQuorum comm 0 sorted.reverse).getD 0,
    (firstAtQuorum comm 0 sorted).getD 0) = _
  rw [top]
  exact congrArg (fun val : Option Round => Except.ok (val.getD 0, high)) lowest

/-- A quorum reports at least the low round, and it is the highest such report; a quorum reports
at most the high round, and it is the lowest such report. -/
structure Brackets (comm : Committee) (report : AuthorityIndex → Round) (low high : Round) :
    Prop where
  greatest : IsGreatest {round | (∃ auth ∈ comm.everyone, report auth = round) ∧
    comm.quorumThreshold ≤ weigh comm.stake
      (comm.everyone.filter fun auth => round ≤ report auth)} low
  least : IsLeast {round | (∃ auth ∈ comm.everyone, report auth = round) ∧
    comm.quorumThreshold ≤ weigh comm.stake
      (comm.everyone.filter fun auth => report auth ≤ round)} high
  ordered : low ≤ high
  honest : ∀ faulty, weigh comm.stake faulty ≤ comm.faultTolerance →
    ∀ round ∈ [low, high],
      (∃ auth ∈ comm.everyone \ faulty, report auth ≤ round) ∧
        ∃ auth ∈ comm.everyone \ faulty, round ≤ report auth

lemma computeQuorumRound_brackets (matrix : RoundMatrix comm rounds)
    (inside : target < comm.size) : ∃ low high,
    computeQuorumRound comm target rounds = .ok (low, high) ∧
      Brackets comm (reportedRound rounds target) low high := by
  obtain ⟨low, high, computed, lowCrosses, highCrosses⟩ := computeQuorumRound_ok matrix inside
  have greatest : IsGreatest {round | comm.quorumThreshold ≤ weigh comm.stake
      (comm.everyone.filter fun auth =>
        round ≤ reportedRound rounds target auth)} low := isLeast_of_crosses lowCrosses
  have least := isLeast_of_crosses highCrosses
  refine ⟨low, high, computed, ?_, ?_, ?_, ?_⟩
  · exact ⟨⟨@reported_of_crosses Roundᵒᵈ _ _ _ _ lowCrosses, greatest.1⟩,
      fun _ other => greatest.2 other.2⟩
  · exact ⟨⟨reported_of_crosses highCrosses, least.1⟩, fun _ other => least.2 other.2⟩
  · obtain ⟨auth, above, below, -⟩ := @Committee.quorums_share_correct comm ∅ _ _
      (Finset.filter_subset _ _) (Finset.filter_subset _ _) greatest.1 least.1 (Nat.zero_le _)
    exact Nat.le_trans (Finset.mem_filter.mp above).2 (Finset.mem_filter.mp below).2
  · intro faulty tolerated round
    rw [mem_pair]
    rintro (rfl | rfl)
    · exact (honest_around lowCrosses tolerated).symm
    · exact honest_around highCrosses tolerated

lemma quorumRounds_ok (matrix : RoundMatrix comm rounds) : ∃ results,
    (comm.indices.mapM fun peer => computeQuorumRound comm peer rounds) = .ok results ∧
      results.length = comm.size ∧ ∀ res ∈ results, res.1 ≤ res.2 := by
  have each : ∀ peer ∈ comm.indices, ∃ res : QuorumRound,
      computeQuorumRound comm peer rounds = .ok res ∧ res.1 ≤ res.2 := by
    intro peer listed
    obtain ⟨low, high, computed, brackets⟩ :=
      computeQuorumRound_brackets matrix (mem_range.mp listed)
    exact ⟨(low, high), computed, brackets.ordered⟩
  choose! val computed ordered using each
  refine ⟨comm.indices.map val, mapM_ok computed, by simp [Committee.indices], ?_⟩
  intro res listed
  obtain ⟨peer, mem, rfl⟩ := mem_map.mp listed
  exact ordered peer mem

lemma quorumRoundGaps_ok {results : List QuorumRound}
    (ordered : ∀ res ∈ results, res.1 ≤ res.2) :
    ∃ gaps, PeerRoundTracker.quorumRoundGaps comm results = .ok gaps := by
  refine ⟨_, @mapM_ok _ _ _ _ _ (fun entry => entry.1.2 - entry.1.1) fun entry mem => ?_⟩
  simp [ensure_holds, ordered entry.1 (of_mem_zip mem).1]

lemma RoundMatrix.zipWith {others : List (List Round)} (combine : Round → Round → Round)
    (matrix : RoundMatrix comm rounds) (other : RoundMatrix comm others) :
    RoundMatrix comm (List.zipWith (List.zipWith combine) rounds others) := by
  constructor
  · rw [length_zipWith, matrix.1, other.1, Nat.min_self]
  · intro row listed
    obtain ⟨auth, inside, rfl⟩ := getElem_of_mem listed
    rw [getElem_zipWith, length_zipWith, matrix.2 _ (getElem_mem _), other.2 _ (getElem_mem _),
      Nat.min_self]

end Brackets

/-- For every matrix of reported rounds the quorum rounds bracket the reports; so the gaps
that the tracker subtracts do not underflow and it computes a delay. -/
theorem quorum_rounds_bracket_reports (ctx : Context) :
    (∀ rounds target, RoundMatrix ctx.committee rounds → target < ctx.committee.size →
      ∃ low high, computeQuorumRound ctx.committee target rounds = .ok (low, high) ∧
        Brackets ctx.committee (reportedRound rounds target) low high) ∧
    ∀ (tracker : PeerRoundTracker) (lastProposedRound : Round),
      RoundMatrix ctx.committee tracker.blockAcceptedRounds →
      RoundMatrix ctx.committee tracker.probedAcceptedRounds →
      RoundMatrix ctx.committee tracker.probedReceivedRounds →
      ∃ delay, tracker.calculatePropagationDelay ctx lastProposedRound = .ok delay := by
  refine ⟨fun rounds target => computeQuorumRound_brackets, ?_⟩
  intro tracker lastProposedRound blk probed recv
  obtain ⟨receivedRounds, computed, receivedLength, receivedOrdered⟩ := quorumRounds_ok recv
  obtain ⟨acceptedRounds, alsoComputed, acceptedLength, acceptedOrdered⟩ :=
    quorumRounds_ok (probed.zipWith max blk)
  obtain ⟨gaps, receivedGaps⟩ := @quorumRoundGaps_ok ctx.committee _ receivedOrdered
  obtain ⟨otherGaps, acceptedGaps⟩ := @quorumRoundGaps_ok ctx.committee _ acceptedOrdered
  obtain ⟨ownReceived, foundReceived⟩ : ∃ own, receivedRounds[ctx.ownIndex]? = some own :=
    ⟨_, getElem?_eq_getElem (receivedLength ▸ ctx.ownIndex_valid)⟩
  obtain ⟨ownAccepted, foundAccepted⟩ : ∃ own, acceptedRounds[ctx.ownIndex]? = some own :=
    ⟨_, getElem?_eq_getElem (acceptedLength ▸ ctx.ownIndex_valid)⟩
  refine ⟨min (lastProposedRound - ownReceived.1) (lastProposedRound - ownAccepted.1), ?_⟩
  simp only [PeerRoundTracker.calculatePropagationDelay,
    PeerRoundTracker.computeReceivedQuorumRounds, computed,
    PeerRoundTracker.computeAcceptedQuorumRounds, alsoComputed, ok_bind, receivedGaps,
    acceptedGaps, foundReceived, foundAccepted, expect_some, pure_ok]

/-- In round 7 the last authority lags behind, and the first one claims too much. -/
theorem quorum_rounds_bracket_reports_lagging :
    let ctx := Context.newForTest firstAuthority
    let rounds := [[9, 7, 7, 2], [7, 7, 7, 2], [6, 7, 7, 2], [3, 7, 7, 2]]
    computeQuorumRound ctx.committee 0 rounds = .ok (6, 7) ∧
      (∃ low high, computeQuorumRound ctx.committee 0 rounds = .ok (low, high) ∧
        Brackets ctx.committee (reportedRound rounds 0) low high) ∧
      ∃ delay, ({ PeerRoundTracker.new ctx with
        probedReceivedRounds := rounds }).calculatePropagationDelay ctx 7 = .ok delay := by
  intro ctx rounds
  have matrix : RoundMatrix ctx.committee rounds := ⟨rfl, by decide⟩
  have initial : RoundMatrix ctx.committee
    (PeerRoundTracker.new ctx).blockAcceptedRounds := ⟨rfl, by decide⟩
  have brackets := quorum_rounds_bracket_reports ctx
  exact ⟨by decide +kernel, brackets.1 rounds 0 matrix (by decide),
    brackets.2 _ 7 initial initial matrix⟩

/-! ## The commit vote monitor -/

structure CommitVoteMonitor where
  highestVotedCommits : List CommitIndex
deriving DecidableEq

namespace CommitVoteMonitor

def new (ctx : Context) : CommitVoteMonitor := ⟨replicate ctx.committee.size 0⟩

def observeVote (author : AuthorityIndex) (monitor : CommitVoteMonitor) (vote : CommitVote) :
    Except Panic CommitVoteMonitor := do
  let top ← expect monitor.highestVotedCommits[author]? (.authorityOutOfBounds author)
  pure (if top < vote.index then ⟨monitor.highestVotedCommits.set author vote.index⟩
    else monitor)

def observeBlock (monitor : CommitVoteMonitor) (blk : VerifiedBlock) :
    Except Panic CommitVoteMonitor :=
  blk.commitVotes.foldlM (observeVote blk.author) monitor

def quorumCommitIndex (ctx : Context) (monitor : CommitVoteMonitor) : CommitIndex :=
  let highestVotedCommits := (monitor.highestVotedCommits.zip ctx.committee.authorities).map
    fun entry => (entry.1, entry.2.stake)
  (firstAtQuorum ctx.committee 0 (highestVotedCommits.insertionSort fun left right =>
    toLex right ≤ toLex left)).getD GENESIS_COMMIT_INDEX

/-- The authorities that voted for the commit index or a later one. The genesis commit needs no
vote. -/
def backers (comm : Committee) (blocks : List VerifiedBlock) (idx : CommitIndex) :
    Finset AuthorityIndex :=
  comm.everyone.filter fun auth => idx = GENESIS_COMMIT_INDEX ∨ ∃ blk ∈ blocks,
    blk.author = auth ∧ ∃ vote ∈ blk.commitVotes, idx ≤ vote.index

/-- The votes of the blocks, with their authors. -/
def ballots (blocks : List VerifiedBlock) : List (AuthorityIndex × CommitIndex) :=
  blocks.flatMap fun blk => blk.commitVotes.flatMap fun vote => [(blk.author, vote.index)]

/-- The monitor holds the highest vote of each authority. -/
structure Records (comm : Committee) (votes : List (AuthorityIndex × CommitIndex))
    (monitor : CommitVoteMonitor) : Prop where
  each : monitor.highestVotedCommits.length = comm.size
  highest : ∀ auth < comm.size, ∀ idx,
    idx ≤ monitor.highestVotedCommits[auth]?.getD 0 ↔
      idx = 0 ∨ ∃ vote ∈ votes, vote.1 = auth ∧ idx ≤ vote.2

variable {ctx : Context} {monitor : CommitVoteMonitor} {blocks : List VerifiedBlock}
  {votes : List (AuthorityIndex × CommitIndex)} {comm : Committee} {author : AuthorityIndex}

lemma Records.observeVote (records : Records comm votes monitor)
    (inside : author < comm.size) (vote : CommitVote) :
    ∃ next, CommitVoteMonitor.observeVote author monitor vote = .ok next ∧
      Records comm (votes ++ [(author, vote.index)]) next := by
  obtain ⟨top, got⟩ : ∃ top, monitor.highestVotedCommits[author]? = some top :=
    ⟨_, getElem?_eq_getElem (records.each ▸ inside)⟩
  have here : author < monitor.highestVotedCommits.length := records.each ▸ inside
  have raised : CommitVoteMonitor.observeVote author monitor vote =
      .ok ⟨monitor.highestVotedCommits.set author (max top vote.index)⟩ := by
    rw [CommitVoteMonitor.observeVote, got, expect_some, ok_bind]
    split
    · rename_i higher
      rw [max_eq_right (Nat.le_of_lt higher), pure_ok]
    · rename_i lower
      obtain ⟨_, rfl⟩ := List.getElem?_eq_some_iff.mp got
      rw [max_eq_left (Nat.le_of_not_lt lower), set_getElem_self, pure_ok]
  refine ⟨_, raised, by rw [length_set, records.each], ?_⟩
  intro auth mem idx
  have own := records.highest auth mem idx
  by_cases same : author = auth
  · subst same
    rw [got, Option.getD_some] at own
    rw [getElem?_set_self here, Option.getD_some, le_max_iff, own]
    simp [or_and_right, exists_or, or_assoc]
  · rw [getElem?_set_ne same, own]
    simp [or_and_right, exists_or, same]

lemma records_new : Records ctx.committee [] (new ctx) where
  each := length_replicate
  highest := by
    intro auth inside idx
    simp [new, inside]

lemma observeBlocks_records (valid : ∀ blk ∈ blocks, blk.author < ctx.committee.size) :
    ∃ monitor, blocks.foldlM observeBlock (new ctx) = .ok monitor ∧
      Records ctx.committee (ballots blocks) monitor := by
  apply foldlM_traces records_new
  intro past st blk listed records
  apply foldlM_traces records
  intro past st vote _ records
  exact records.observeVote (valid blk listed) vote

lemma quorumCommitIndex_isGreatest
    (valid : ∀ blk ∈ blocks, blk.author < ctx.committee.size) :
    ∃ monitor, blocks.foldlM observeBlock (new ctx) = .ok monitor ∧
      IsGreatest {idx | ctx.committee.quorumThreshold ≤
        weigh ctx.committee.stake (backers ctx.committee blocks idx)}
        (monitor.quorumCommitIndex ctx) := by
  obtain ⟨monitor, observed, records⟩ := observeBlocks_records valid
  refine ⟨monitor, observed, ?_⟩
  let report := fun auth : AuthorityIndex => monitor.highestVotedCommits[auth]?.getD 0
  have backing (idx : CommitIndex) : backers ctx.committee blocks idx =
      ctx.committee.everyone.filter fun auth => idx ≤ report auth := by
    apply Finset.filter_congr
    intro auth mem
    rw [records.highest auth (Finset.mem_range.mp mem)]
    apply or_congr_right
    constructor
    · rintro ⟨blk, listed, rfl, vote, cast, low⟩
      refine ⟨(blk.author, vote.index), ?_, rfl, low⟩
      exact mem_flatMap.mpr ⟨blk, listed, mem_flatMap.mpr ⟨vote, cast, mem_singleton_self _⟩⟩
    · rintro ⟨ballot, counted, rfl, low⟩
      obtain ⟨blk, listed, counted⟩ := mem_flatMap.mp counted
      obtain ⟨vote, cast, counted⟩ := mem_flatMap.mp counted
      obtain rfl := mem_singleton.mp counted
      exact ⟨blk, listed, rfl, vote, cast, low⟩
  have reads : ∀ auth < ctx.committee.size,
      monitor.highestVotedCommits[auth]?.map id = some (report auth) := by
    intro auth inside
    simp [report, getElem?_eq_getElem (records.each ▸ inside)]
  let entries := (monitor.highestVotedCommits.zip ctx.committee.authorities).map fun entry =>
    (entry.1, entry.2.stake)
  let sorted := entries.insertionSort fun left right => toLex right ≤ toLex left
  have same : sorted.Perm (ctx.committee.indices.map fun auth =>
      (report auth, ctx.committee.stake auth)) :=
    (perm_insertionSort _ entries).trans (zip_authorities records.each reads ▸ .refl _)
  have ordered : sorted.Pairwise fun left right => right.1 ≤ left.1 := by
    apply (pairwise_insertionSort (fun left right => toLex right ≤ toLex left) entries).imp
    intro left right lower
    exact Prod.Lex.monotone_fst _ _ lower
  obtain ⟨idx, got, crosses⟩ := @firstAtQuorum_crosses CommitIndexᵒᵈ ctx.committee
    (fun auth => OrderDual.toDual (report auth)) _ sorted same ordered
  have greatest := isLeast_of_crosses crosses
  have computed : monitor.quorumCommitIndex ctx = OrderDual.ofDual idx :=
    congrArg (fun val : Option CommitIndex => val.getD 0) got
  simp only [backing, computed]
  exact greatest

/-- After any sequence of observed blocks, the quorum commit index is the highest one that
authorities of quorum stake voted for or went beyond. It does not decrease, is the same for every
order of the blocks, and honest authorities with more than the tolerated stake back it. -/
theorem quorumCommitIndex_exact (ctx : Context) (blocks : List VerifiedBlock)
    (valid : ∀ blk ∈ blocks, blk.author < ctx.committee.size) :
    ∃ monitor, blocks.foldlM observeBlock (new ctx) = .ok monitor ∧
      IsGreatest {idx | ctx.committee.quorumThreshold ≤
        weigh ctx.committee.stake (backers ctx.committee blocks idx)}
        (monitor.quorumCommitIndex ctx) ∧
      (∀ prev later, blocks = prev ++ later → ∃ pre,
        prev.foldlM observeBlock (new ctx) = .ok pre ∧
          pre.quorumCommitIndex ctx ≤ monitor.quorumCommitIndex ctx) ∧
      (∀ order : List VerifiedBlock, order.Perm blocks → ∃ other,
        order.foldlM observeBlock (new ctx) = .ok other ∧
          other.quorumCommitIndex ctx = monitor.quorumCommitIndex ctx) ∧
      ∀ faulty, weigh ctx.committee.stake faulty ≤ ctx.committee.faultTolerance →
        ctx.committee.faultTolerance + 1 ≤ weigh ctx.committee.stake
          (backers ctx.committee blocks (monitor.quorumCommitIndex ctx) \ faulty) := by
  obtain ⟨monitor, observed, greatest⟩ := quorumCommitIndex_isGreatest valid
  refine ⟨monitor, observed, greatest, ?_, ?_, ?_⟩
  · rintro prev later rfl
    obtain ⟨pre, observedBefore, greatestBefore⟩ := @quorumCommitIndex_isGreatest ctx prev
      fun blk listed => valid blk (mem_append_left _ listed)
    refine ⟨pre, observedBefore, greatest.2 (greatestBefore.1.trans (weigh_mono ?_))⟩
    apply Finset.monotone_filter_right
    rintro auth _ (genesis | ⟨blk, listed, voted⟩)
    · exact .inl genesis
    · exact .inr ⟨blk, mem_append_left _ listed, voted⟩
  · intro order same
    obtain ⟨other, observedOther, greatestOther⟩ := @quorumCommitIndex_isGreatest ctx order
      fun blk listed => valid blk (same.mem_iff.mp listed)
    refine ⟨other, observedOther, greatestOther.unique ?_⟩
    simpa only [backers, same.mem_iff] using greatest
  · intro faulty tolerated
    have quorum := greatest.1
    have remaining := @weigh_sub_le_sdiff _ ctx.committee.stake _
      (backers ctx.committee blocks (monitor.quorumCommitIndex ctx)) faulty
    have intersects := ctx.committee.quorum_intersects
    rw [Set.mem_ofPred_eq] at quorum
    unfold Committee.quorumThreshold at *
    lia

def blockVotingFor (author : AuthorityIndex) (idx : CommitIndex) : VerifiedBlock :=
  let signed := (testBlock 10 author []).block
  ⟨⟨{ signed.inner with commitVotes := [⟨idx, 0⟩] }, signed.signature⟩, 0⟩

theorem quorumCommitIndex_exact_fourVotes :
    let ctx := Context.newForTest firstAuthority
    let blocks := [(0, 5), (1, 6), (2, 7), (3, 8)].map fun entry => blockVotingFor entry.1 entry.2
    IsGreatest {idx | ctx.committee.quorumThreshold ≤
      weigh ctx.committee.stake (backers ctx.committee blocks idx)} 6 := by
  intro ctx blocks
  obtain ⟨monitor, observed, greatest, -⟩ := quorumCommitIndex_exact ctx blocks (by decide)
  have computed : (blocks.foldlM observeBlock (new ctx)).map (quorumCommitIndex ctx) =
    .ok 6 := by decide +kernel
  rw [observed] at computed
  exact Except.ok.inj computed ▸ greatest

end CommitVoteMonitor

end Mysticeti
