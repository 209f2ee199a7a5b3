import Mysticeti.EpochQuorum

/-!
# Epoch-change data of received blocks

A block carries at most one proposal and some votes as byte strings that its author chose. The
hook decodes each, passes what it decodes to the manager and logs. The bytes may decode to a
vote with a hash of any length; the manager looks at the first eight bytes of the hash only when
the proposal is pending, and pending proposals stand under their full hash. The message about a
vote for an unknown proposal looks at them as well. It is formatted only when messages of the
level DEBUG are enabled, and then a vote with a short hash panics.

Decoding is library code. A computation without a result is one that panics. Subtractions of
clocks wrap around, as they do without overflow checks.
-/

namespace Mysticeti

open List Option Lib.Machine EpochChangeManager EpochRun

/-- The decoding of the byte strings in a block. -/
structure EpochCodec where
  decodeProposal : Bytes → Option EpochChangeProposal
  decodeVote : Bytes → Option EpochChangeVote

def hashHead (hash : Bytes) : Option Bytes := if 8 ≤ hash.length then some (hash.take 8) else none

structure EpochChangeHook where
  ownIndex : AuthorityIndex
  protocolKeypair : ProtocolKeyPair
  debugEnabled : Bool

namespace EpochChangeHook

section Operations

variable (crypto : EpochCrypto) (codec : EpochCodec) (hook : EpochChangeHook)

def debugHash (hash : Bytes) : Option Unit :=
  if hook.debugEnabled then (hashHead hash).map fun _ => () else some ()

/-- The proposal of a block, if there is one and it decodes. Text of the other levels is
formatted in any case. -/
def processProposalBytes (nowMs : Nat) (mgr : EpochChangeManager)
    (proposalBytes : Option Bytes) : Option EpochChangeManager :=
  match proposalBytes.bind codec.decodeProposal with
  | none => some mgr
  | some prop =>
    let proposalHash := hashProposal crypto prop
    if prop.newEpoch ≠ mgr.currentEpoch + 1 then do
      hook.debugHash proposalHash
      return mgr
    else do
      let _ ← hashHead proposalHash
      let res := mgr.processProposal crypto nowMs prop
      let processed ← survive res
      let votes := (processed.proposalVotes.lookup proposalHash).getD ∅
      if res.2.isOk && decide (hook.ownIndex ∉ votes) then
        survive (processed.voteOnProposal crypto nowMs prop hook.ownIndex
          hook.protocolKeypair)
      else return processed

def processVote (mgr : EpochChangeManager) (vote : EpochChangeVote) :
    Option (EpochChangeManager × Except EpochChangeRefusal Unit) :=
  if vote.proposalHash ∈ mgr.pendingProposals ∧ mgr.committee.isValidIndex vote.voterValue then do
    let _ ← hashHead vote.proposalHash
    return mgr.processVote crypto vote
  else return mgr.processVote crypto vote

def processVoteBytes (mgr : EpochChangeManager) (bytes : Bytes) : Option EpochChangeManager :=
  match codec.decodeVote bytes with
  | none => some mgr
  | some vote =>
    if vote.proposalHash ∈ mgr.pendingProposals then do
      let res ← processVote crypto mgr vote
      let _ ← if res.2.isOk then hook.debugHash vote.proposalHash else some ()
      return res.1
    else do
      hook.debugHash vote.proposalHash
      return mgr

def processBlockEpochChange (nowMs : Nat) (mgr : EpochChangeManager)
    (proposalBytes : Option Bytes) (votesBytes : List Bytes) : Option EpochChangeManager := do
  let processed ← hook.processProposalBytes crypto codec nowMs mgr proposalBytes
  votesBytes.foldlM (hook.processVoteBytes crypto codec) processed

end Operations

section Panics

variable {crypto : EpochCrypto} {codec : EpochCodec} {hook : EpochChangeHook}
  {mgr : EpochChangeManager}

lemma hashHead_eq_some {hash : Bytes} (long : 8 ≤ hash.length) :
    hashHead hash = some (hash.take 8) := if_pos long

lemma debugHash_eq_some {hash : Bytes} (long : 8 ≤ hash.length) :
    hook.debugHash hash = some () := by
  unfold debugHash
  rw [hashHead_eq_some long]
  split <;> rfl

lemma hashProposal_long (prop : EpochChangeProposal) : 8 ≤ (hashProposal crypto prop).length := by
  have length : (hashProposal crypto prop).length = 32 := crypto.digest_length _
  omega

lemma long_of_pending (filed : Filed crypto mgr) {hash : Bytes}
    (pending : hash ∈ mgr.pendingProposals) : 8 ≤ hash.length := by
  obtain ⟨prop, got⟩ := isSome_iff_exists.mp (AList.lookup_isSome.mpr pending)
  rw [filed.pending hash prop got]
  exact hashProposal_long prop

lemma validateProposer_survives (prop : EpochChangeProposal) (idx : AuthorityIndex) :
    mgr.validateProposer crypto prop ≠ .error (.authorityOutOfBounds idx) := by
  unfold validateProposer
  split
  · rename_i valid
    unfold verifyProposalSignature
    have inside : prop.proposerValue < mgr.committee.authorities.length := of_decide_eq_true valid
    rw [getElem?_eq_getElem inside]
    dsimp only
    split <;> simp
  · simp

lemma validateProposal_survives (nowMs : Nat) (prop : EpochChangeProposal)
    (idx : AuthorityIndex) :
    (mgr.validateProposal crypto nowMs prop).2 ≠ .error (.authorityOutOfBounds idx) := by
  unfold validateProposal
  generalize Int.bmod _ _ = difference
  dsimp only
  split
  · simp
  · split
    · split
      · exact validateProposer_survives prop idx
      · simp
    · split
      · exact validateProposer_survives prop idx
      · simp

lemma survive_eq_some {α : Type} {res : EpochChangeManager × Except EpochChangeRefusal α}
    (survives : ∀ idx, res.2 ≠ .error (.authorityOutOfBounds idx)) :
    survive res = some res.1 := by
  obtain ⟨mgr, verdict⟩ := res
  unfold survive
  split
  · rename_i other idx same
    exact absurd (congrArg Prod.snd same) (survives idx)
  · rename_i same
    cases same
    rfl

lemma processProposal_survives (nowMs : Nat) (prop : EpochChangeProposal) :
    survive (mgr.processProposal crypto nowMs prop) =
      some (mgr.processProposal crypto nowMs prop).1 := by
  refine survive_eq_some fun idx => ?_
  have checked := @validateProposal_survives crypto mgr nowMs prop idx
  unfold EpochChangeManager.processProposal
  split
  · simp
  · cases res : mgr.validateProposal crypto nowMs prop with
    | mk validated verdict =>
      rw [res] at checked
      cases verdict with
      | error err => exact checked
      | ok _ => simp

lemma voteOnProposal_survives {voter : AuthorityIndex}
    (mem : voter ∈ mgr.committee.everyone) (nowMs : Nat) (prop : EpochChangeProposal)
    (keyPair : ProtocolKeyPair) :
    survive (mgr.voteOnProposal crypto nowMs prop voter keyPair) =
      some (mgr.voteOnProposal crypto nowMs prop voter keyPair).1 := by
  refine survive_eq_some fun idx => ?_
  have checked := @validateProposal_survives crypto mgr nowMs prop idx
  have inside : voter < mgr.committee.authorities.length := Finset.mem_range.mp mem
  obtain ⟨⟨start, synced⟩, _⟩ := @validateProposal_spec crypto mgr prop nowMs
  unfold EpochChangeManager.voteOnProposal
  cases res : mgr.validateProposal crypto nowMs prop with
  | mk validated verdict =>
    rw [res] at checked synced
    cases verdict with
    | error err =>
      intro same
      cases same
      exact checked rfl
    | ok _ =>
      dsimp only at synced ⊢
      rw [synced, getElem?_eq_getElem inside]
      simp

lemma processProposalBytes_eq (mem : hook.ownIndex ∈ mgr.committee.everyone)
    (nowMs : Nat) (proposalBytes : Option Bytes) :
    hook.processProposalBytes crypto codec nowMs mgr proposalBytes =
      some (mgr.processBlockEpochChange crypto nowMs hook.ownIndex hook.protocolKeypair
        (proposalBytes.bind codec.decodeProposal) []).1 := by
  unfold processProposalBytes
  cases proposalBytes.bind codec.decodeProposal with
  | none => rfl
  | some prop =>
    have same := @processProposal_committee crypto mgr nowMs prop
    have processed := @processProposal_survives crypto mgr nowMs prop
    change _ = some (mgr.processBlockProposal crypto nowMs hook.ownIndex
      hook.protocolKeypair prop).1
    unfold processBlockProposal
    dsimp only
    split
    · rw [debugHash_eq_some (hashProposal_long prop)]
      rfl
    · rw [hashHead_eq_some (hashProposal_long prop), processed]
      cases res : mgr.processProposal crypto nowMs prop with
      | mk post verdict =>
        rw [res] at same
        cases verdict with
        | error err => rfl
        | ok _ =>
          have votes := @voteOnProposal_survives crypto post hook.ownIndex
            (by rwa [same]) nowMs prop hook.protocolKeypair
          dsimp only at same votes ⊢
          by_cases voted : hook.ownIndex ∈
              (post.proposalVotes.lookup (hashProposal crypto prop)).getD ∅
          · simp [voted, Except.isOk, Except.toBool]
          · simp only [voted, Except.isOk, Except.toBool, not_false_eq_true, decide_true,
              Bool.and_self, if_true, if_false, bind_eq_bind, bind_some, votes]
            split
            · rename_i refused
              rw [refused]
            · rename_i cast
              rw [cast]

/-- A vote does not panic: DEBUG messages are disabled, or what it decodes to has a hash of
eight bytes at least. -/
def Legible (codec : EpochCodec) (hook : EpochChangeHook) (bytes : Bytes) : Prop :=
  hook.debugEnabled = true → ∀ vote ∈ codec.decodeVote bytes, 8 ≤ vote.proposalHash.length
deriving Decidable

lemma processVoteBytes_of_legible (filed : Filed crypto mgr) {bytes : Bytes}
    (legible : hook.Legible codec bytes) :
    hook.processVoteBytes crypto codec mgr bytes =
      some (mgr.processVotes crypto (codec.decodeVote bytes).toList) := by
  unfold processVoteBytes
  cases decoded : codec.decodeVote bytes with
  | none => rfl
  | some vote =>
    simp only [processVotes, toList_some, foldl_cons, foldl_nil]
    split
    · rename_i pending
      have long := long_of_pending filed pending
      have recv : processVote crypto mgr vote = some (mgr.processVote crypto vote) := by
        unfold processVote
        rw [hashHead_eq_some long]
        split <;> rfl
      rw [recv, debugHash_eq_some long]
      simp
    · have logged : hook.debugHash vote.proposalHash = some () := by
        cases enabled : hook.debugEnabled with
        | false => simp [debugHash, enabled]
        | true => exact debugHash_eq_some (legible enabled vote decoded)
      rw [logged]
      rfl

lemma processVoteBytes_of_not_legible (filed : Filed crypto mgr) {bytes : Bytes}
    (illegible : ¬ hook.Legible codec bytes) :
    hook.processVoteBytes crypto codec mgr bytes = none := by
  unfold Legible at illegible
  push Not at illegible
  obtain ⟨enabled, vote, decoded, short⟩ := illegible
  have unknown : vote.proposalHash ∉ mgr.pendingProposals := fun pending =>
    absurd (long_of_pending filed pending) (Nat.not_le_of_lt short)
  have panics : hook.debugHash vote.proposalHash = none := by
    rw [debugHash, if_pos enabled, hashHead, if_neg (Nat.not_le_of_lt short)]
    rfl
  rw [processVoteBytes, mem_def.mp decoded]
  simp only [if_neg unknown, panics]
  rfl

lemma filed_processVotes (filed : Filed crypto mgr) (votes : List EpochChangeVote) :
    Filed crypto (mgr.processVotes crypto votes) := by
  induction votes generalizing mgr with
  | nil => exact filed
  | cons vote rest ih =>
    rw [processVotes, foldl_cons]
    split
    · exact ih (filed.processVote vote)
    · exact ih filed

lemma filed_processBlockProposal (filed : Filed crypto mgr) (nowMs : Nat)
    (voter : AuthorityIndex) (keyPair : ProtocolKeyPair) (prop : EpochChangeProposal) :
    Filed crypto (mgr.processBlockProposal crypto nowMs voter keyPair prop).1 := by
  have recv := filed.processProposal nowMs prop
  unfold processBlockProposal
  split
  · exact filed
  · cases res : mgr.processProposal crypto nowMs prop with
    | mk processed verdict =>
      rw [res] at recv
      cases verdict with
      | error err => exact recv
      | ok _ =>
        have voted := recv.voteOnProposal nowMs prop voter keyPair
        dsimp only at recv ⊢
        split
        · exact recv
        · cases cast : processed.voteOnProposal crypto nowMs prop voter keyPair with
          | mk post verdict =>
            rw [cast] at voted
            cases verdict <;> exact voted

lemma processBlockEpochChange_fst (nowMs : Nat) (voter : AuthorityIndex)
    (keyPair : ProtocolKeyPair) (prop : Option EpochChangeProposal)
    (votes : List EpochChangeVote) :
    (mgr.processBlockEpochChange crypto nowMs voter keyPair prop votes).1 =
      (mgr.processBlockEpochChange crypto nowMs voter keyPair prop []).1.processVotes
        crypto votes := by
  cases prop <;> rfl

lemma foldlM_processVoteBytes (filed : Filed crypto mgr) (votesBytes : List Bytes) :
    ((∃ post, votesBytes.foldlM (hook.processVoteBytes crypto codec) mgr = some post) ↔
      ∀ bytes ∈ votesBytes, hook.Legible codec bytes) ∧
    ∀ post, votesBytes.foldlM (hook.processVoteBytes crypto codec) mgr = some post →
      post = mgr.processVotes crypto (votesBytes.filterMap codec.decodeVote) := by
  induction votesBytes generalizing mgr with
  | nil =>
    refine ⟨iff_of_true ⟨mgr, rfl⟩ (by simp), fun post ret => ?_⟩
    exact (some.inj ret).symm
  | cons bytes rest ih =>
    rw [foldlM_cons]
    by_cases legible : hook.Legible codec bytes
    · obtain ⟨returns, res⟩ := ih
        (filed_processVotes filed (codec.decodeVote bytes).toList)
      rw [processVoteBytes_of_legible filed legible, bind_eq_bind, bind_some]
      refine ⟨?_, fun post ret => ?_⟩
      · rw [returns, forall_mem_cons]
        exact (and_iff_right legible).symm
      · rw [res post ret, processVotes, processVotes, processVotes, ← foldl_append]
        congr 1
        cases decoded : codec.decodeVote bytes <;> simp [decoded]
    · rw [processVoteBytes_of_not_legible filed legible]
      refine ⟨iff_of_false ?_ fun all => legible (all bytes mem_cons_self), ?_⟩
      · rintro ⟨post, ret⟩
        cases ret
      · intro post ret
        cases ret

end Panics

/-- The epoch-change data of a block is processed without a panic, exactly when DEBUG messages
are disabled or every vote that decodes has a hash of eight bytes at least. The proposal and all
votes that decode are then handled one after the other. -/
theorem block_epoch_change_returns_iff (crypto : EpochCrypto) (codec : EpochCodec)
    (hook : EpochChangeHook) (epoch : Epoch) (comm : Committee)
    (epochStartTimestampMs : BlockTimestampMs) {sched : List EpochAction} {final : EpochRun}
    (ran : run (step crypto) (EpochRun.new epoch comm epochStartTimestampMs) sched =
      some final)
    (mem : hook.ownIndex ∈ final.manager.committee.everyone) (nowMs : Nat)
    (proposalBytes : Option Bytes) (votesBytes : List Bytes) :
    ((∃ post, hook.processBlockEpochChange crypto codec nowMs final.manager proposalBytes
        votesBytes = some post) ↔ ∀ bytes ∈ votesBytes, hook.Legible codec bytes) ∧
    ∀ post, hook.processBlockEpochChange crypto codec nowMs final.manager proposalBytes
        votesBytes = some post →
      post = (final.manager.processBlockEpochChange crypto nowMs hook.ownIndex
        hook.protocolKeypair (proposalBytes.bind codec.decodeProposal)
        (votesBytes.filterMap codec.decodeVote)).1 := by
  have filed := filed_of_run ran
  have filedAfter : Filed crypto (final.manager.processBlockEpochChange crypto nowMs
      hook.ownIndex hook.protocolKeypair (proposalBytes.bind codec.decodeProposal) []).1 := by
    cases proposalBytes.bind codec.decodeProposal with
    | none => exact filed
    | some prop => exact filed_processBlockProposal filed nowMs _ _ prop
  rw [processBlockEpochChange_fst]
  unfold processBlockEpochChange
  rw [processProposalBytes_eq mem]
  exact foldlM_processVoteBytes filedAfter votesBytes

def hashCodec : EpochCodec where
  decodeProposal _ := none
  decodeVote bytes := some ⟨bytes, 0, true, []⟩

/-- A vote with an empty hash panics when DEBUG messages are enabled, and only then. -/
theorem empty_hash_panics :
    let mgr := EpochChangeManager.new 0 Committee.ofFour 0
    (processBlockEpochChange .transparent hashCodec ⟨0, [0], true⟩ 0 mgr none [[]]).isSome = false ∧
      (processBlockEpochChange .transparent hashCodec ⟨0, [0], false⟩ 0 mgr none [[]]).isSome =
        true := by
  decide +kernel

theorem block_epoch_change_returns_iff_ofFour :
    let hook : EpochChangeHook := ⟨0, [0], true⟩
    let mgr := EpochChangeManager.new 0 Committee.ofFour 0
    (∃ post, hook.processBlockEpochChange .transparent hashCodec 0 mgr none
        [replicate 32 0] = some post) ↔
      ∀ bytes ∈ [replicate 32 0], hook.Legible hashCodec bytes :=
  (block_epoch_change_returns_iff .transparent hashCodec ⟨0, [0], true⟩ 0 Committee.ofFour 0
    (@rfl _ (run (step .transparent) _ [])) (by decide) 0 none [replicate 32 0]).1

end EpochChangeHook

end Mysticeti
