import Mysticeti.Lib.Machine
import Mysticeti.TransactionCertifier

/-!
# The certifier only learns

While blocks are added, an entry of the certifier grows: votes are never taken back, a block
stays known and a certified block stays certified. Entries are lost by collection alone,
which drops those up to its round. A block is certified when, for each transaction that is
not listed as rejected, a quorum is left after the votes against it.
-/

namespace Mysticeti

open List Option Lib.Machine Lib.OrderedMap Std

namespace StakeAggregator

variable {comm : Committee} {agg : StakeAggregator} {vote auth : AuthorityIndex}

lemma mem_addUnique : auth ∈ (agg.addUnique vote comm).1.votes ↔
    auth = vote ∨ auth ∈ agg.votes := by
  unfold addUnique
  split
  case isTrue known =>
    have mem : vote ∈ agg.votes := known
    constructor
    · exact .inr
    · rintro (rfl | counted)
      · exact mem
      · exact counted
  case isFalse => exact mem_insert_iff

end StakeAggregator

namespace VoteInfo

def against (info : VoteInfo) (idx : TransactionIndex) : StakeAggregator :=
  (info.rejectTxnVotes[idx]?).getD .new

section Reject

variable {comm : Committee} {author auth : AuthorityIndex} {info : VoteInfo}
  {rejects : List TransactionIndex} {idx : TransactionIndex}

lemma reject_nil : info.reject comm author [] = info := rfl

lemma reject_cons {first : TransactionIndex} : info.reject comm author (first :: rejects) =
    ({ info with
      rejectTxnVotes := info.rejectTxnVotes.insert first
        ((info.against first).addUnique author comm).1 } : VoteInfo).reject comm author
      rejects := rfl

lemma against_insert {first : TransactionIndex} {agg : StakeAggregator} :
    ({ info with rejectTxnVotes := info.rejectTxnVotes.insert first agg } :
      VoteInfo).against idx = if idx = first then agg else info.against idx := by
  by_cases same : idx = first
  · subst same
    simp [against]
  · rw [if_neg same, against, getElem?_insert_of_ne same, against]

lemma mem_rejectTxnVotes_reject :
    idx ∈ (info.reject comm author rejects).rejectTxnVotes ↔
      idx ∈ rejects ∨ idx ∈ info.rejectTxnVotes := by
  induction rejects generalizing info with
  | nil => simp [reject_nil]
  | cons first rest ih =>
    rw [reject_cons, ih, ExtTreeMap.mem_insert,
      LawfulEqCmp.compare_eq_iff_eq, mem_cons, eq_comm]
    tauto

lemma mem_against_reject :
    auth ∈ ((info.reject comm author rejects).against idx).votes ↔
      (auth = author ∧ idx ∈ rejects) ∨ auth ∈ (info.against idx).votes := by
  induction rejects generalizing info with
  | nil => simp [reject_nil]
  | cons first rest ih =>
    rw [reject_cons, ih, against_insert, mem_cons]
    by_cases same : idx = first
    · subst same
      rw [if_pos rfl, StakeAggregator.mem_addUnique]
      tauto
    · rw [if_neg same]
      tauto

end Reject

section Output

variable {comm : Committee} {info : VoteInfo} {certified : CertifiedBlock}

lemma listed_stays {here later : List TransactionIndex}
    {entry : TransactionIndex × StakeAggregator}
    (checked : (if entry.2.reachedThreshold comm then some (here ++ [entry.1])
      else if info.acceptBlockVotes.stake - entry.2.stake < comm.quorumThreshold then none
      else some here) = some later) : ∀ other ∈ here, other ∈ later := by
  intro other mem
  split at checked
  case isTrue =>
    obtain rfl := some.inj checked
    exact mem_append_left _ mem
  case isFalse =>
    rw [ite_none_left_eq_some] at checked
    obtain rfl := some.inj checked.2
    exact mem

lemma rejectedByQuorum_spec {rejected : List TransactionIndex}
    (got : info.rejectedByQuorum comm = some rejected) {idx : TransactionIndex}
    {agg : StakeAggregator} (voted : info.rejectTxnVotes[idx]? = some agg)
    (unlisted : idx ∉ rejected) :
    comm.quorumThreshold ≤ info.acceptBlockVotes.stake - agg.stake := by
  rw [← ExtTreeMap.mem_toList_iff_getElem?_eq_some] at voted
  -- What is listed stays listed, so it is enough to look at the turn of this transaction.
  obtain ⟨pre, post, checked, kept⟩ := @performed_of_run _ _ _ _ _ _ (idx, agg)
    (fun here later => ∀ other ∈ here, other ∈ later) (fun _ _ => id)
    (fun first second other mem => second other (first other mem)) listed_stays got voted
  split at checked
  case isTrue =>
    obtain rfl := some.inj checked
    exact absurd (kept idx (by simp)) unlisted
  case isFalse =>
    rw [ite_none_left_eq_some] at checked
    exact Nat.le_of_not_lt checked.1

/-- What a block that is certified now has. -/
structure Takes (comm : Committee) (info : VoteInfo) (certified : CertifiedBlock) : Prop where
  fresh : info.isCertified = false
  block : info.block = some certified.block
  left : ∀ idx ∉ certified.rejected,
    comm.quorumThreshold ≤ info.acceptBlockVotes.stake - (info.against idx).stake

lemma takeCertifiedOutput_cases (comm : Committee) (info : VoteInfo) :
    info.takeCertifiedOutput comm = (info, none) ∨
      ∃ certified, info.takeCertifiedOutput comm =
        ({ info with isCertified := true }, some certified) ∧ info.Takes comm certified := by
  unfold takeCertifiedOutput
  split
  · exact .inl rfl
  case isFalse fresh =>
    split
    · exact .inl rfl
    next blk recv =>
      split
      · exact .inl rfl
      case isFalse final =>
        split
        · exact .inl rfl
        next rejected got =>
          refine .inr ⟨⟨blk, rejected⟩, rfl, by simpa using fresh, recv, ?_⟩
          intro idx unlisted
          cases voted : info.rejectTxnVotes[idx]? with
          | none =>
            have quorum : comm.quorumThreshold ≤ info.acceptBlockVotes.stake := by
              simpa [StakeAggregator.reachedThreshold, Committee.reachedQuorum] using final
            rw [against, voted]
            exact quorum
          | some agg =>
            rw [against, voted]
            exact rejectedByQuorum_spec got voted unlisted

end Output

/-- Nothing known is lost. -/
structure Grows (info grown : VoteInfo) : Prop where
  block : ∀ block, info.block = some block → grown.block = some block
  certified : info.isCertified = true → grown.isCertified = true
  rejects : ∀ idx ∈ info.rejectTxnVotes, idx ∈ grown.rejectTxnVotes
  against : ∀ idx, ∀ auth ∈ (info.against idx).votes, auth ∈ (grown.against idx).votes

namespace Grows

lemma refl (info : VoteInfo) : info.Grows info := ⟨fun _ => id, id, fun _ => id, fun _ _ => id⟩

lemma trans {info mid grown : VoteInfo} (first : info.Grows mid)
    (second : mid.Grows grown) : info.Grows grown where
  block blk recv := second.block blk (first.block blk recv)
  certified marked := second.certified (first.certified marked)
  rejects idx voted := second.rejects idx (first.rejects idx voted)
  against idx auth voted := second.against idx auth (first.against idx auth voted)

lemma reject (comm : Committee) (author : AuthorityIndex) (info : VoteInfo)
    (rejects : List TransactionIndex) : info.Grows (info.reject comm author rejects) where
  block _ := id
  certified := id
  rejects _ voted := mem_rejectTxnVotes_reject.mpr (.inr voted)
  against _ _ voted := mem_against_reject.mpr (.inr voted)

lemma takeCertifiedOutput (comm : Committee) (info : VoteInfo) :
    info.Grows (info.takeCertifiedOutput comm).1 := by
  rcases takeCertifiedOutput_cases comm info with same | ⟨certified, taken, -⟩
  · rw [same]
    exact refl info
  · rw [taken]
    exact ⟨fun _ => id, fun _ => rfl, fun _ => id, fun _ _ => id⟩

end Grows

end VoteInfo

namespace CertifierState

/-- No entry is lost, and each grows. -/
structure Grows (st grown : CertifierState) : Prop where
  gcRound : grown.gcRound = st.gcRound
  entries : ∀ (ref : BlockRef) (info : VoteInfo), st.votes[ref]? = some info →
    ∃ later, grown.votes[ref]? = some later ∧ info.Grows later

variable {ref : BlockRef} {gcRound : Round}

variable {st : CertifierState}

lemma info_of_entry {info : VoteInfo}
    (got : st.votes[ref]? = some info) : st.info ref = info := by
  rw [CertifierState.info, got, getD_some]

lemma entry_of_received {blk : VerifiedBlock}
    (recv : (st.info ref).block = some blk) :
    ∃ info, st.votes[ref]? = some info ∧ info.block = some blk := by
  cases got : st.votes[ref]? with
  | none =>
    rw [CertifierState.info, got] at recv
    cases recv
  | some info =>
    rw [info_of_entry got] at recv
    exact ⟨info, rfl, recv⟩

@[simp] lemma info_insert_self {info : VoteInfo} :
    CertifierState.info
      { st with votes := st.votes.insert ref info } ref = info := by
  simp [CertifierState.info]

namespace Grows

variable {comm : Committee} {st mid grown : CertifierState}

lemma refl (st : CertifierState) : st.Grows st :=
  ⟨rfl, fun _ info got => ⟨info, got, .refl info⟩⟩

lemma trans (first : st.Grows mid) (second : mid.Grows grown) : st.Grows grown where
  gcRound := second.gcRound.trans first.gcRound
  entries ref info got := by
    obtain ⟨between, foundBetween, grows⟩ := first.entries ref info got
    obtain ⟨later, foundLater, growsOn⟩ := second.entries ref between foundBetween
    exact ⟨later, foundLater, grows.trans growsOn⟩

lemma insert {info : VoteInfo} (grows : (st.info ref).Grows info) :
    st.Grows { st with votes := st.votes.insert ref info } where
  gcRound := rfl
  entries other known got := by
    by_cases same : other = ref
    · subst same
      rw [info_of_entry got] at grows
      exact ⟨info, by simp, grows⟩
    · exact ⟨known, by rw [getElem?_insert_of_ne same]; exact got, .refl known⟩

lemma info (grows : st.Grows grown) (ref : BlockRef) : (st.info ref).Grows (grown.info ref) := by
  cases got : st.votes[ref]? with
  | none =>
    rw [CertifierState.info, got]
    exact ⟨nofun, nofun, by simp [VoteInfo.empty],
      by simp [VoteInfo.empty, VoteInfo.against, StakeAggregator.new]⟩
  | some known =>
    obtain ⟨later, foundLater, growsOn⟩ := grows.entries ref known got
    rw [info_of_entry got, info_of_entry foundLater]
    exact growsOn

lemma mem (grows : st.Grows grown) (known : ref ∈ st.votes) : ref ∈ grown.votes := by
  obtain ⟨info, got⟩ := getElem?_of_mem known
  obtain ⟨later, got, -⟩ := grows.entries ref info got
  exact ExtTreeMap.mem_iff_isSome_getElem?.mpr (by rw [got]; rfl)

end Grows

/-- There is an entry for each of the blocks above the collected rounds. -/
def Entered (st : CertifierState) (blocks : List VerifiedBlock) : Prop :=
  ∀ blk ∈ blocks, st.gcRound < blk.round → blk.reference ∈ st.votes

lemma Entered.grows {st grown : CertifierState} {blocks : List VerifiedBlock}
    (entered : st.Entered blocks) (grows : st.Grows grown) : grown.Entered blocks := by
  intro blk here above
  rw [grows.gcRound] at above
  exact grows.mem (entered blk here above)

lemma Entered.append {st : CertifierState} {first second : List VerifiedBlock}
    (left : st.Entered first) (right : st.Entered second) :
    st.Entered (first ++ second) := by
  intro blk here
  rcases mem_append.mp here with here | here
  · exact left blk here
  · exact right blk here

section Steps

variable {comm : Committee} {st : CertifierState}

lemma addBlockVotes_grows {author : AuthorityIndex}
    (added : CertifierState × List CertifiedBlock) (blockVotes : BlockTransactionVotes) :
    added.1.Grows (addBlockVotes comm author added blockVotes).1 := by
  obtain ⟨st, certifiedBlocks⟩ := added
  unfold addBlockVotes
  dsimp only
  split
  · exact .refl st
  · exact .insert ((VoteInfo.Grows.reject comm author _ blockVotes.rejects).trans
      (.takeCertifiedOutput comm _))

lemma foldl_addBlockVotes_grows {author : AuthorityIndex} (cast : List BlockTransactionVotes)
    (added : CertifierState × List CertifiedBlock) :
    added.1.Grows (cast.foldl (addBlockVotes comm author) added).1 := by
  induction cast generalizing added with
  | nil => exact .refl added.1
  | cons votes rest ih => exact (addBlockVotes_grows added votes).trans (ih _)

lemma addVotedBlock_learns (st : CertifierState) (votedBlock : VerifiedBlock)
    (rejectTxnVotes : List TransactionIndex) :
    st.Grows (st.addVotedBlock comm votedBlock rejectTxnVotes).1 ∧
      (st.addVotedBlock comm votedBlock rejectTxnVotes).1.Entered [votedBlock] := by
  unfold addVotedBlock
  split
  case isTrue collected =>
    refine ⟨.refl st, fun blk here above => ?_⟩
    rw [mem_singleton.mp here] at above
    exact absurd collected (Nat.not_le_of_lt above)
  case isFalse =>
    dsimp only
    split
    case isTrue known =>
      refine ⟨.refl st, fun blk here _ => ?_⟩
      obtain ⟨other, recv⟩ := isSome_iff_exists.mp known
      obtain ⟨info, got, -⟩ := entry_of_received recv
      rw [mem_singleton.mp here]
      exact ExtTreeMap.mem_iff_isSome_getElem?.mpr (by rw [got]; rfl)
    case isFalse unknown =>
      have recv : st.Grows { st with
          votes := st.votes.insert votedBlock.reference
            { st.info votedBlock.reference with
              block := some votedBlock, ownRejectTxnVotes := rejectTxnVotes } } := by
        refine .insert ⟨?_, id, fun _ => id, fun _ _ => id⟩
        intro blk known
        rw [known] at unknown
        exact absurd rfl unknown
      refine ⟨recv.trans (foldl_addBlockVotes_grows _ (_, [])), fun blk here _ => ?_⟩
      rw [mem_singleton.mp here]
      exact (foldl_addBlockVotes_grows _ (_, [])).mem ExtTreeMap.mem_insert_self

lemma addVotedBlocks_learns (st : CertifierState)
    (votedBlocks : List (VerifiedBlock × List TransactionIndex)) :
    st.Grows (st.addVotedBlocks comm votedBlocks).1 ∧
      (st.addVotedBlocks comm votedBlocks).1.Entered (votedBlocks.map Prod.fst) := by
  unfold addVotedBlocks
  generalize ([] : List CertifiedBlock) = certifiedBlocks
  induction votedBlocks generalizing st certifiedBlocks with
  | nil => exact ⟨.refl st, by simp [Entered]⟩
  | cons voted rest ih =>
    obtain ⟨first, entered⟩ := @addVotedBlock_learns comm st voted.1 voted.2
    obtain ⟨later, enteredRest⟩ := ih
      (st.addVotedBlock comm voted.1 voted.2).1
      (certifiedBlocks ++ (st.addVotedBlock comm voted.1 voted.2).2)
    exact ⟨first.trans later, (entered.grows later).append enteredRest⟩

lemma acceptTarget_grows {votingBlock : VerifiedBlock}
    (added : CertifierState × List CertifiedBlock) (target : BlockRef) :
    added.1.Grows (acceptTarget comm votingBlock added target).1 := by
  unfold acceptTarget
  split
  · exact .refl _
  · split
    · exact .refl _
    next info got =>
      apply Grows.insert
      rw [info_of_entry got]
      refine VoteInfo.Grows.trans ?_ (.takeCertifiedOutput comm _)
      exact ⟨fun _ => id, id, fun _ => id, fun _ _ => id⟩

lemma acceptFrom_grows {proposedBlock : VerifiedBlock}
    (added : CertifierState × List CertifiedBlock) (votingAncestor : BlockRef) :
    added.1.Grows (acceptFrom comm proposedBlock added votingAncestor).1 := by
  unfold acceptFrom
  split
  · exact .refl _
  · split
    · exact .refl _
    · refine foldlRecOn
        (motive := fun later : CertifierState × List CertifiedBlock => added.1.Grows later.1)
        _ _ (.refl _) ?_
      intro later grows target _
      exact grows.trans (acceptTarget_grows later target)

lemma addProposedBlock_grows (st : CertifierState) (proposedBlock : VerifiedBlock) :
    st.Grows (st.addProposedBlock comm proposedBlock).1 := by
  unfold addProposedBlock
  split
  · exact .refl st
  · split
    · exact .refl st
    · refine foldlRecOn
        (motive := fun added : CertifierState × List CertifiedBlock => st.Grows added.1)
        _ _ (.refl st) ?_
      intro added grows anc _
      exact grows.trans (acceptFrom_grows added anc)

end Steps

lemma getElem?_dropCollected {refs : List BlockRef}
    {votes : ExtTreeMap BlockRef VoteInfo}
    (sorted : refs.Pairwise fun first second => first.round ≤ second.round) :
    (dropCollected gcRound refs votes)[ref]? =
      if ref ∈ refs ∧ ref.round ≤ gcRound then none else votes[ref]? := by
  induction refs generalizing votes with
  | nil => simp [dropCollected]
  | cons first rest ih =>
    obtain ⟨lowest, sorted⟩ := pairwise_cons.mp sorted
    unfold dropCollected
    split
    case isTrue collected =>
      rw [ih sorted]
      by_cases same : ref = first
      · subst same
        simp [collected]
      · rw [getElem?_erase_of_ne same]
        simp [same]
    case isFalse kept =>
      rw [if_neg]
      rintro ⟨here, collected⟩
      rcases mem_cons.mp here with rfl | here
      · exact kept collected
      · exact kept (Nat.le_trans (lowest ref here) collected)

variable {st : CertifierState}

lemma getElem?_updateGcRound :
    (st.updateGcRound gcRound).votes[ref]? =
      if ref.round ≤ gcRound then none else st.votes[ref]? := by
  have sorted : st.votes.keys.Pairwise fun first second => first.round ≤ second.round :=
    ExtTreeMap.ordered_keys.imp fun pre => BlockRef.round_le_of_isLE (by rw [pre]; rfl)
  rw [updateGcRound, getElem?_dropCollected sorted]
  simp only [ExtTreeMap.mem_keys]
  by_cases known : ref ∈ st.votes <;> simp [known]

lemma info_updateGcRound (above : gcRound < ref.round) :
    (st.updateGcRound gcRound).info ref = st.info ref := by
  rw [CertifierState.info, getElem?_updateGcRound, if_neg (Nat.not_le_of_lt above),
    CertifierState.info]

lemma mem_updateGcRound (above : gcRound < ref.round)
    (known : ref ∈ st.votes) : ref ∈ (st.updateGcRound gcRound).votes := by
  rw [ExtTreeMap.mem_iff_isSome_getElem?, getElem?_updateGcRound,
    if_neg (Nat.not_le_of_lt above), ← ExtTreeMap.mem_iff_isSome_getElem?]
  exact known

lemma Entered.updateGcRound {blocks : List VerifiedBlock}
    (entered : st.Entered blocks) (later : st.gcRound ≤ gcRound) :
    (st.updateGcRound gcRound).Entered blocks := by
  intro blk here above
  exact mem_updateGcRound above (entered blk here (Nat.lt_of_le_of_lt later above))

end CertifierState

namespace CertifierUpdate

def blocks : CertifierUpdate → List VerifiedBlock
  | .addVotedBlocks votedBlocks => votedBlocks.map Prod.fst
  | .addProposedBlock _ => []

lemma apply_learns {comm : Committee} (st : CertifierState) (update : CertifierUpdate) :
    st.Grows (update.apply comm st).1 ∧
      (update.apply comm st).1.Entered update.blocks := by
  cases update with
  | addVotedBlocks votedBlocks => exact CertifierState.addVotedBlocks_learns st votedBlocks
  | addProposedBlock proposed =>
    exact ⟨CertifierState.addProposedBlock_grows st proposed, by
      simp [CertifierState.Entered, blocks]⟩

def applyAll (comm : Committee) (st : CertifierState) (updates : List CertifierUpdate) :
    CertifierState :=
  updates.foldl (fun st update => (update.apply comm st).1) st

lemma applyAll_learns {comm : Committee} (st : CertifierState)
    (updates : List CertifierUpdate) : st.Grows (applyAll comm st updates) ∧
      (applyAll comm st updates).Entered (updates.flatMap blocks) := by
  induction updates generalizing st with
  | nil => exact ⟨.refl st, by simp [CertifierState.Entered]⟩
  | cons update rest ih =>
    obtain ⟨first, entered⟩ := @apply_learns comm st update
    obtain ⟨later, enteredRest⟩ := ih (update.apply comm st).1
    exact ⟨first.trans later, (entered.grows later).append enteredRest⟩

end CertifierUpdate

end Mysticeti
