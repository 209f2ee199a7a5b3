import Mysticeti.BlockUniverse
import Mysticeti.CertifierGrowth

/-!
# What the certifier counts

All stake in an entry of the certifier is backed by blocks: the stake against a transaction
by blocks that reject it, the stake for a block by blocks of the next round that link to it.
When a block's accept vote is counted, its votes against transactions of the accepted block
were counted before; this is why a certified block has, for each transaction that it does not
list as rejected, a quorum of blocks that do not reject it.
-/

namespace Mysticeti

open List Option Lib.OrderedMap Lib.Quorum

/-- The block votes against a transaction of the target. -/
def VerifiedBlock.Rejects (blk : VerifiedBlock) (target : BlockRef)
    (idx : TransactionIndex) : Prop :=
  ∃ votes ∈ blk.block.inner.transactionVotes, votes.blockRef = target ∧ idx ∈ votes.rejects

namespace StakeAggregator

variable {comm : Committee} {agg : StakeAggregator} {vote : AuthorityIndex}

/-- The stake is that of authorities with the property. -/
def Backed (comm : Committee) (agg : StakeAggregator)
    (backs : AuthorityIndex → Prop) : Prop :=
  ∃ voters, Counts comm agg voters ∧ ∀ auth ∈ voters, backs auth

variable {backs : AuthorityIndex → Prop}

lemma new_backed : Backed comm new backs := ⟨∅, new_counts comm, by simp⟩

lemma Backed.imp {weaker : AuthorityIndex → Prop} (backed : Backed comm agg backs)
    (implies : ∀ auth, backs auth → weaker auth) :
    Backed comm agg weaker := by
  obtain ⟨voters, counts, each⟩ := backed
  exact ⟨voters, counts, fun auth mem => implies auth (each auth mem)⟩

lemma Backed.addUnique (backed : Backed comm agg backs) (backing : backs vote) :
    Backed comm (agg.addUnique vote comm).1 backs := by
  obtain ⟨voters, counts, each⟩ := backed
  refine ⟨insert vote voters, addUnique_counts counts vote, ?_⟩
  intro auth mem
  rcases Finset.mem_insert.mp mem with rfl | mem
  · exact backing
  · exact each auth mem

end StakeAggregator

namespace VoteInfo

variable {comm : Committee} {author : AuthorityIndex} {info : VoteInfo}
  {rejects : List TransactionIndex}

lemma backed_reject {backs : TransactionIndex → AuthorityIndex → Prop}
    (backed : ∀ idx, (info.against idx).Backed comm (backs idx))
    (backing : ∀ idx ∈ rejects, backs idx author) (idx : TransactionIndex) :
    ((info.reject comm author rejects).against idx).Backed comm (backs idx) := by
  induction rejects generalizing info with
  | nil => exact backed idx
  | cons first rest ih =>
    rw [reject_cons]
    apply ih
    · intro other
      rw [against_insert]
      split
      case isTrue same =>
        subst same
        exact (backed other).addUnique (backing other mem_cons_self)
      case isFalse => exact backed other
    · exact fun other mem => backing other (mem_cons_of_mem first mem)

end VoteInfo

section Evidence

variable {ctx : Context} (blocks : BlockUniverse ctx)

/-- For each transaction that is not listed as rejected, a quorum of the next round links to
the block and does not reject the transaction. -/
structure BlockUniverse.Certified (certified : CertifiedBlock) : Prop where
  member : certified.block ∈ blocks.members
  accepted : ∀ idx ∉ certified.rejected, blocks.Quorate (certified.block.round + 1) fun voting =>
    certified.block.reference ∈ voting.ancestors ∧ ¬ voting.Rejects certified.block.reference idx

/-- All stake in an entry is backed by blocks, and the blocks that accept the target have their
votes against its transactions counted. -/
structure VoteInfo.Sound (target : BlockRef) (info : VoteInfo) : Prop where
  received : ∀ blk, info.block = some blk → blk ∈ blocks.members ∧ blk.reference = target
  accepted : info.acceptBlockVotes.Backed ctx.committee fun author =>
    ∃ voting ∈ blocks.members, voting.author = author ∧ voting.round = target.round + 1 ∧
      target ∈ voting.ancestors ∧
        ∀ idx, voting.Rejects target idx → author ∈ (info.against idx).votes
  rejected : ∀ idx, (info.against idx).Backed ctx.committee fun author =>
    ∃ voting ∈ blocks.members, voting.author = author ∧ voting.Rejects target idx

variable {blocks} {voting : VerifiedBlock} {votes : BlockTransactionVotes}

namespace VoteInfo.Sound

variable {target : BlockRef} {info : VoteInfo}

lemma empty : VoteInfo.empty.Sound blocks target where
  received := nofun
  accepted := StakeAggregator.new_backed
  rejected _ := by
    simp only [against, VoteInfo.empty, Std.ExtTreeMap.getElem?_empty, getD_none]
    exact StakeAggregator.new_backed

lemma reject (sound : info.Sound blocks target) (mem : voting ∈ blocks.members)
    (cast : votes ∈ voting.block.inner.transactionVotes) (aimed : votes.blockRef = target) :
    (info.reject ctx.committee voting.author votes.rejects).Sound blocks target where
  received := sound.received
  accepted := sound.accepted.imp fun author => by
    rintro ⟨other, inside, rfl, next, linked, counted⟩
    refine ⟨other, inside, rfl, next, linked, ?_⟩
    exact fun idx against => mem_against_reject.mpr (.inr (counted idx against))
  rejected := backed_reject sound.rejected fun idx here =>
    ⟨voting, mem, rfl, votes, cast, aimed, here⟩

lemma accept (sound : info.Sound blocks target) (mem : voting ∈ blocks.members)
    (next : voting.round = target.round + 1) (linked : target ∈ voting.ancestors)
    (counted : ∀ idx, voting.Rejects target idx → voting.author ∈ (info.against idx).votes) :
    ({ info with
      acceptBlockVotes :=
        (info.acceptBlockVotes.addUnique voting.author ctx.committee).1 } : VoteInfo).Sound
      blocks target where
  received := sound.received
  accepted := sound.accepted.addUnique ⟨voting, mem, rfl, next, linked, counted⟩
  rejected := sound.rejected

lemma certified (sound : info.Sound blocks target) {certified : CertifiedBlock}
    (takes : info.Takes ctx.committee certified) : blocks.Certified certified := by
  obtain ⟨mem, rfl⟩ := sound.received _ takes.block
  refine ⟨mem, fun idx unlisted => ?_⟩
  obtain ⟨accepting, accepts, eachAccepts⟩ := sound.accepted
  obtain ⟨rejecting, rejects, -⟩ := sound.rejected idx
  have quorum := takes.left idx unlisted
  rw [accepts.total, rejects.total] at quorum
  refine ⟨accepting \ rejecting, quorum.trans weigh_sub_le_sdiff, ?_⟩
  intro author left
  obtain ⟨counted, notAgainst⟩ := Finset.mem_sdiff.mp left
  obtain ⟨voting, inside, rfl, next, linked, heard⟩ := eachAccepts author counted
  refine ⟨voting, inside, rfl, next, linked, fun against => notAgainst ?_⟩
  exact (rejects.members voting.author).mp (heard idx against)

end VoteInfo.Sound

/-- The votes of an author on a block above the collected rounds are counted. -/
def CertifierState.Heard (st : CertifierState) (author : AuthorityIndex)
    (votes : BlockTransactionVotes) : Prop :=
  st.gcRound < votes.blockRef.round → ∀ idx ∈ votes.rejects,
    author ∈ ((st.info votes.blockRef).against idx).votes

lemma CertifierState.Heard.grows {st grown : CertifierState} {author : AuthorityIndex}
    (heard : st.Heard author votes) (grows : st.Grows grown) : grown.Heard author votes := by
  intro above idx here
  rw [grows.gcRound] at above
  exact (grows.info votes.blockRef).against idx author (heard above idx here)

variable (blocks)

/-- A certifier that counted the votes of the blocks it received, apart from the pending ones,
and that certified the given blocks. -/
structure Tally (pending : List (AuthorityIndex × BlockTransactionVotes))
    (outputs : List CertifiedBlock) (st : CertifierState) : Prop where
  above : ∀ (ref : BlockRef) (info : VoteInfo), st.votes[ref]? = some info → st.gcRound < ref.round
  sound : ∀ (ref : BlockRef) (info : VoteInfo), st.votes[ref]? = some info → info.Sound blocks ref
  heard : ∀ (ref : BlockRef) (info : VoteInfo) (blk : VerifiedBlock),
    st.votes[ref]? = some info → info.block = some blk →
      ∀ votes ∈ blk.block.inner.transactionVotes,
        st.Heard blk.author votes ∨ (blk.author, votes) ∈ pending
  certified : ∀ output ∈ outputs, blocks.Certified output
  marked : ∀ output ∈ outputs, st.gcRound < output.block.round →
    (st.info output.block.reference).isCertified = true
  once : (outputs.map fun output => output.block.reference).Nodup

variable {blocks}

namespace Tally

variable {pending : List (AuthorityIndex × BlockTransactionVotes)}
  {outputs : List CertifiedBlock} {st : CertifierState}

lemma new : Tally blocks [] [] .new where
  above := by simp [CertifierState.new]
  sound := by simp [CertifierState.new]
  heard := by simp [CertifierState.new]
  certified := by simp
  marked := by simp
  once := nodup_nil

lemma info_sound (tally : Tally blocks pending outputs st) (ref : BlockRef) :
    (st.info ref).Sound blocks ref := by
  cases got : st.votes[ref]? with
  | none =>
    rw [CertifierState.info, got]
    exact .empty
  | some info =>
    rw [CertifierState.info_of_entry got]
    exact tally.sound ref info got

lemma settle_pending {author : AuthorityIndex}
    (tally : Tally blocks ((author, votes) :: pending) outputs st)
    (counted : st.Heard author votes) : Tally blocks pending outputs st where
  above := tally.above
  sound := tally.sound
  heard ref info blk got recv votes' cast := by
    rcases tally.heard ref info blk got recv votes' cast with heard | waiting
    · exact .inl heard
    · rcases mem_cons.mp waiting with same | waiting
      · obtain ⟨rfl, rfl⟩ := Prod.mk.inj same
        exact .inl counted
      · exact .inr waiting
  certified := tally.certified
  marked := tally.marked
  once := tally.once

section

variable (tally : Tally blocks pending outputs st)

include tally

lemma info_heard {ref : BlockRef} {blk : VerifiedBlock}
    (recv : (st.info ref).block = some blk) :
    ∀ votes ∈ blk.block.inner.transactionVotes,
      st.Heard blk.author votes ∨ (blk.author, votes) ∈ pending := by
  obtain ⟨info, got, recv⟩ := CertifierState.entry_of_received recv
  exact tally.heard ref info blk got recv

lemma replace {target : BlockRef} {info : VoteInfo} (above : st.gcRound < target.round)
    (grows : (st.info target).Grows info)
    (counted : ∀ blk, info.block = some blk → ∀ votes ∈ blk.block.inner.transactionVotes,
      st.Heard blk.author votes ∨ (blk.author, votes) ∈ pending)
    (sound : info.Sound blocks target) :
    Tally blocks pending outputs
      { st with votes := st.votes.insert target info } := by
  have later : st.Grows { st with votes := st.votes.insert target info } := .insert grows
  refine ⟨?_, ?_, ?_, tally.certified, ?_, tally.once⟩
  · intro ref got stored
    rcases getElem?_insert_cases stored with ⟨rfl, -⟩ | ⟨-, stored⟩
    · exact above
    · exact tally.above ref got stored
  · intro ref got stored
    rcases getElem?_insert_cases stored with ⟨rfl, rfl⟩ | ⟨-, stored⟩
    · exact sound
    · exact tally.sound ref got stored
  · intro ref got blk stored recv votes cast
    have pre : st.Heard blk.author votes ∨ (blk.author, votes) ∈ pending := by
      rcases getElem?_insert_cases stored with ⟨rfl, rfl⟩ | ⟨-, stored⟩
      · exact counted blk recv votes cast
      · exact tally.heard ref got blk stored recv votes cast
    exact pre.imp_left fun heard => heard.grows later
  · intro output here fresh
    exact (later.info output.block.reference).certified (tally.marked output here fresh)

lemma issue {output : CertifiedBlock} (certified : blocks.Certified output)
    (marked : (st.info output.block.reference).isCertified = true)
    (first : ∀ other ∈ outputs, other.block.reference ≠ output.block.reference) :
    Tally blocks pending (outputs ++ [output]) st where
  above := tally.above
  sound := tally.sound
  heard := tally.heard
  certified other here := by
    rcases mem_append.mp here with here | here
    · exact tally.certified other here
    · exact mem_singleton.mp here ▸ certified
  marked other here fresh := by
    rcases mem_append.mp here with here | here
    · exact tally.marked other here fresh
    · exact mem_singleton.mp here ▸ marked
  once := by
    rw [map_append, map_singleton, nodup_append]
    refine ⟨tally.once, nodup_singleton _, ?_⟩
    intro ref here last isLast
    obtain ⟨other, prev, rfl⟩ := List.mem_map.mp here
    rw [mem_singleton.mp isLast]
    exact first other prev

lemma take {target : BlockRef} {info : VoteInfo} (above : st.gcRound < target.round)
    (grows : (st.info target).Grows info) (same : info.block = (st.info target).block)
    (sound : info.Sound blocks target) :
    Tally blocks pending
      (outputs ++ (info.takeCertifiedOutput ctx.committee).2.toList)
      { st with
        votes := st.votes.insert target (info.takeCertifiedOutput ctx.committee).1 } := by
  have counted : ∀ blk, info.block = some blk →
      ∀ votes ∈ blk.block.inner.transactionVotes,
        st.Heard blk.author votes ∨ (blk.author, votes) ∈ pending :=
    fun blk recv => tally.info_heard (same ▸ recv)
  rcases VoteInfo.takeCertifiedOutput_cases ctx.committee info with
    kept | ⟨certified, output, takes⟩
  · rw [kept, toList_none, append_nil]
    exact tally.replace above grows counted sound
  · have marking : info.Grows { info with isCertified := true } :=
      ⟨fun _ => id, fun _ => rfl, fun _ => id, fun _ _ => id⟩
    obtain ⟨-, aimed⟩ := sound.received certified.block takes.block
    rw [output, toList_some]
    apply issue
    · exact tally.replace above (grows.trans marking) counted
        ⟨sound.received, sound.accepted, sound.rejected⟩
    · exact sound.certified takes
    · rw [aimed, CertifierState.info_insert_self]
    · intro other here repeated
      have ref := repeated.trans aimed
      have fresh : st.gcRound < other.block.round := by
        rw [← ref] at above
        exact above
      have pre := tally.marked other here fresh
      rw [ref] at pre
      have again := takes.fresh
      rw [grows.certified pre] at again
      cases again

end

section Steps

variable {sent : List CertifiedBlock} {added : CertifierState × List CertifiedBlock}

lemma addBlockVotes (mem : voting ∈ blocks.members)
    (cast : votes ∈ voting.block.inner.transactionVotes)
    (tally : Tally blocks ((voting.author, votes) :: pending) (sent ++ added.2) added.1) :
    Tally blocks pending
      (sent ++ (CertifierState.addBlockVotes ctx.committee voting.author added votes).2)
      (CertifierState.addBlockVotes ctx.committee voting.author added votes).1 := by
  obtain ⟨st, certifiedBlocks⟩ := added
  unfold CertifierState.addBlockVotes
  dsimp only at tally ⊢
  split
  case isTrue collected =>
    apply tally.settle_pending
    exact fun above => absurd collected (Nat.not_le_of_lt above)
  case isFalse kept =>
    have above := Nat.lt_of_not_le kept
    have sound := (tally.info_sound votes.blockRef).reject mem cast rfl
    have grows := VoteInfo.Grows.reject ctx.committee voting.author
      (st.info votes.blockRef) votes.rejects
    rw [← append_assoc]
    apply settle_pending
    · exact tally.take above grows rfl sound
    · intro _ idx here
      rw [CertifierState.info_insert_self]
      exact (VoteInfo.Grows.takeCertifiedOutput ctx.committee _).against idx voting.author
        (VoteInfo.mem_against_reject.mpr (.inl ⟨rfl, here⟩))

lemma receive (tally : Tally blocks [] outputs st) {voted : VerifiedBlock}
    (mem : voted ∈ blocks.members) (above : st.gcRound < voted.round)
    (unknown : (st.info voted.reference).block = none) {own : List TransactionIndex} :
    Tally blocks (voted.block.inner.transactionVotes.map fun votes => (voted.author, votes))
      outputs
      { st with
        votes := st.votes.insert voted.reference
          { st.info voted.reference with
            block := some voted, ownRejectTxnVotes := own } } := by
  have widened : Tally blocks
      (voted.block.inner.transactionVotes.map fun votes => (voted.author, votes)) outputs st :=
    { tally with
      heard := fun ref info blk got recv votes cast =>
        (tally.heard ref info blk got recv votes cast).imp_right nofun }
  have sound := tally.info_sound voted.reference
  apply widened.replace above
  · refine ⟨fun blk known => ?_, id, fun _ => id, fun _ _ => id⟩
    rw [unknown] at known
    cases known
  · intro blk recv votes cast
    obtain rfl := some.inj recv
    exact .inr (List.mem_map_of_mem cast)
  · refine ⟨fun blk recv => ?_, sound.accepted, sound.rejected⟩
    obtain rfl := some.inj recv
    exact ⟨mem, rfl⟩

lemma foldl_addBlockVotes (mem : voting ∈ blocks.members) {cast : List BlockTransactionVotes}
    (own : ∀ votes ∈ cast, votes ∈ voting.block.inner.transactionVotes)
    (tally : Tally blocks (cast.map fun votes => (voting.author, votes)) (sent ++ added.2)
      added.1) :
    Tally blocks []
      (sent ++ (cast.foldl (CertifierState.addBlockVotes ctx.committee voting.author) added).2)
      (cast.foldl (CertifierState.addBlockVotes ctx.committee voting.author) added).1 := by
  induction cast generalizing added with
  | nil => exact tally
  | cons votes rest ih =>
    apply ih fun other here => own other (mem_cons_of_mem votes here)
    exact addBlockVotes mem (own votes mem_cons_self) tally

lemma addVotedBlock (tally : Tally blocks [] outputs st) {voted : VerifiedBlock}
    (mem : voted ∈ blocks.members) (own : List TransactionIndex) :
    Tally blocks [] (outputs ++ (st.addVotedBlock ctx.committee voted own).2)
      (st.addVotedBlock ctx.committee voted own).1 := by
  unfold CertifierState.addVotedBlock
  split
  · rw [append_nil]
    exact tally
  case isFalse kept =>
    dsimp only
    split
    · rw [append_nil]
      exact tally
    case isFalse unknown =>
      apply foldl_addBlockVotes mem fun votes cast => cast
      rw [append_nil]
      exact tally.receive mem (Nat.lt_of_not_le kept) (by simpa using unknown)

lemma addVotedBlocks (tally : Tally blocks [] outputs st)
    {votedBlocks : List (VerifiedBlock × List TransactionIndex)}
    (members : ∀ voted ∈ votedBlocks, voted.1 ∈ blocks.members) :
    Tally blocks [] (outputs ++ (st.addVotedBlocks ctx.committee votedBlocks).2)
      (st.addVotedBlocks ctx.committee votedBlocks).1 := by
  have start : Tally blocks [] (outputs ++ []) st := by
    rw [append_nil]
    exact tally
  refine foldlRecOn (motive := fun added : CertifierState × List CertifiedBlock =>
    Tally blocks [] (outputs ++ added.2) added.1) votedBlocks _ start ?_
  intro added tally voted here
  have next := tally.addVotedBlock (members voted here) voted.2
  rw [append_assoc] at next
  exact next

lemma acceptTarget (tally : Tally blocks [] (sent ++ added.2) added.1) {ref : BlockRef}
    (known : (added.1.info ref).block = some voting) {target : BlockRef}
    (linked : target ∈ voting.ancestors) :
    Tally blocks []
      (sent ++ (CertifierState.acceptTarget ctx.committee voting added target).2)
      (CertifierState.acceptTarget ctx.committee voting added target).1 := by
  unfold CertifierState.acceptTarget
  split
  · exact tally
  case isFalse next =>
    split
    · exact tally
    next info got =>
      have above := tally.above target info got
      obtain ⟨mem, -⟩ := (tally.info_sound ref).received voting known
      -- Whatever the voting block has against the target is counted.
      have counted : ∀ idx, voting.Rejects target idx →
          voting.author ∈ (info.against idx).votes := by
        rintro idx ⟨votes, cast, rfl, here⟩
        rcases tally.info_heard known votes cast with heard | pending
        · rw [← CertifierState.info_of_entry got]
          exact heard above idx here
        · cases pending
      have same := CertifierState.info_of_entry got
      rw [← append_assoc]
      apply tally.take above
      · rw [same]
        exact ⟨fun _ => id, id, fun _ => id, fun _ _ => id⟩
      · rw [same]
      · exact (tally.sound target info got).accept mem (by lia) linked counted

lemma acceptFrom {proposedBlock : VerifiedBlock}
    (tally : Tally blocks [] (sent ++ added.2) added.1) (anc : BlockRef) :
    Tally blocks []
      (sent ++ (CertifierState.acceptFrom ctx.committee proposedBlock added anc).2)
      (CertifierState.acceptFrom ctx.committee proposedBlock added anc).1 := by
  unfold CertifierState.acceptFrom
  split
  · exact tally
  · split
    · exact tally
    next voting got =>
      obtain ⟨info, has, recv⟩ := bind_eq_some_iff.mp got
      have known : (added.1.info anc).block = some voting := by
        rw [CertifierState.info_of_entry has]
        exact recv
      refine (foldlRecOn (motive := fun later : CertifierState × List CertifiedBlock =>
        Tally blocks [] (sent ++ later.2) later.1 ∧ added.1.Grows later.1) _ _
        ⟨tally, .refl added.1⟩ ?_).1
      rintro later ⟨tally, grows⟩ target linked
      exact ⟨tally.acceptTarget ((grows.info anc).block voting known) linked,
        grows.trans (CertifierState.acceptTarget_grows later target)⟩

lemma addProposedBlock (tally : Tally blocks [] outputs st) (proposedBlock : VerifiedBlock) :
    Tally blocks [] (outputs ++ (st.addProposedBlock ctx.committee proposedBlock).2)
      (st.addProposedBlock ctx.committee proposedBlock).1 := by
  have start : Tally blocks [] (outputs ++ []) st := by
    rw [append_nil]
    exact tally
  unfold CertifierState.addProposedBlock
  split
  · exact start
  · split
    · exact start
    · refine foldlRecOn (motive := fun added : CertifierState × List CertifiedBlock =>
        Tally blocks [] (outputs ++ added.2) added.1) _ _ start ?_
      exact fun added tally anc _ => tally.acceptFrom anc

lemma updateGcRound (tally : Tally blocks [] outputs st) {gcRound : Round}
    (later : st.gcRound ≤ gcRound) :
    Tally blocks [] outputs (st.updateGcRound gcRound) := by
  have entry : ∀ (ref : BlockRef) (info : VoteInfo),
      (st.updateGcRound gcRound).votes[ref]? = some info →
        gcRound < ref.round ∧ st.votes[ref]? = some info := by
    intro ref info got
    rw [CertifierState.getElem?_updateGcRound, ite_none_left_eq_some] at got
    exact ⟨Nat.lt_of_not_le got.1, got.2⟩
  refine ⟨fun ref info got => (entry ref info got).1,
    fun ref info got => tally.sound ref info (entry ref info got).2,
    ?_, tally.certified, ?_, tally.once⟩
  · intro ref info blk got recv votes cast
    rcases tally.heard ref info blk (entry ref info got).2 recv votes cast with
      heard | pending
    · refine .inl fun (above : gcRound < votes.blockRef.round) idx here => ?_
      rw [CertifierState.info_updateGcRound above]
      exact heard (Nat.lt_of_le_of_lt later above) idx here
    · cases pending
  · intro output here (above : gcRound < output.block.reference.round)
    rw [CertifierState.info_updateGcRound above]
    exact tally.marked output here (Nat.lt_of_le_of_lt later above)

end Steps

end Tally

end Evidence

end Mysticeti
