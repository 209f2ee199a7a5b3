import Mysticeti.Agreement

/-!
# At most one leader block

A faulty leader may have several blocks in its slot. The commit rule stops when two of them
have enough support, or when two of them are certified in the history of an anchor. In a
causally closed view of the universe neither happens, whatever the node has decided before:
two certificates for blocks of one slot rest on the votes of two quorums, which share the one
block of a correct authority, and that block links to at most one block of the slot. For the
same reason a slot with a supported block is not blamed.
-/

namespace Mysticeti

open Lib.Outcome Lib.OrderedMap DagState BaseCommitter Std

namespace DagState

variable {ctx : Context} {st : DagState} {earlierRound : Round}

lemma descendTo_cases (fuel : Nat) (linked : ExtTreeSet BlockRef) :
    (st.descendTo ctx earlierRound fuel linked = .ok linked ∧
      ∀ ref : BlockRef, ref ∈ linked → ref.round ≤ earlierRound) ∨
    (fuel = 0 ∧ st.descendTo ctx earlierRound fuel linked = .error .outOfFuel) ∨
    ∃ less top, fuel = less + 1 ∧ st.descendTo ctx earlierRound fuel linked =
      expect (st.getBlock ctx top) (.blockShouldExist top) >>= fun blk =>
        st.descendTo ctx earlierRound less
          (blk.ancestors.foldl .insert (linked.erase top)) := by
  by_cases low : ∀ ref : BlockRef, ref ∈ linked → ref.round ≤ earlierRound
  · exact .inl ⟨descendTo_stop low, low⟩
  · right
    rw [descendTo.eq_def]
    cases greatest : last linked with
    | none => exact absurd (fun ref mem => absurd mem (last_eq_none_iff.mp greatest ref)) low
    | some top =>
      have above : ¬ top.round ≤ earlierRound := fun lower => low fun ref mem =>
        (BlockRef.round_le_of_isLE ((last_eq_some_iff.mp greatest).2 ref mem)).trans lower
      simp only [greatest, above, if_false]
      cases fuel with
      | zero => exact .inl ⟨rfl, rfl⟩
      | succ less => exact .inr ⟨less, top, rfl, rfl⟩

lemma descendTo_low {fuel : Nat} {linked final : ExtTreeSet BlockRef}
    (run : st.descendTo ctx earlierRound fuel linked = .ok final) :
    ∀ ref : BlockRef, ref ∈ final → ref.round ≤ earlierRound := by
  induction fuel generalizing linked with
  | zero =>
    rcases @descendTo_cases ctx st earlierRound 0 linked with
      ⟨ended, low⟩ | ⟨-, stopped⟩ | ⟨less, top, pos, -⟩
    · cases ended.symm.trans run
      exact low
    · cases stopped.symm.trans run
    · cases pos
  | succ fuel ih =>
    rcases @descendTo_cases ctx st earlierRound (fuel + 1) linked with
      ⟨ended, low⟩ | ⟨zero, -⟩ | ⟨less, top, same, descends⟩
    · cases ended.symm.trans run
      exact low
    · cases zero
    · cases same
      obtain ⟨blk, -, onward⟩ := expect_bind_eq_ok.mp (descends.symm.trans run)
      exact ih onward

lemma ancestorsAtRound_hold (verified : st.Verified ctx) {anchor : VerifiedBlock}
    {got : List VerifiedBlock}
    (run : st.ancestorsAtRound ctx anchor earlierRound = .ok got) :
    ∀ blk ∈ got, st.Holds ctx blk ∧ blk.round = earlierRound := by
  obtain ⟨linked, descended, mapped⟩ := bind_eq_ok.mp run
  obtain ⟨val, want, rfl⟩ := mapM_values mapped
  intro blk mem
  obtain ⟨ref, here, rfl⟩ := List.mem_map.mp mem
  have looked := expect_eq_ok.mp (want ref here)
  rw [List.mem_filter, ExtTreeSet.mem_toList, decide_eq_true_eq] at here
  have low := descendTo_low descended ref here.1
  refine ⟨verified.holds looked, ?_⟩
  rw [← VerifiedBlock.reference_round, verified.keyed ref _ looked]
  exact Nat.le_antisymm low here.2

/-- What a descent can stop at. -/
def DescentRefused (err : Panic) : Prop :=
  err = .outOfFuel ∨ ∃ ref, err = .blockShouldExist ref

lemma descendTo_within (fuel : Nat) (linked : ExtTreeSet BlockRef) :
    Within DescentRefused (st.descendTo ctx earlierRound fuel linked) := by
  induction fuel generalizing linked with
  | zero =>
    rcases @descendTo_cases ctx st earlierRound 0 linked with
      ⟨ended, -⟩ | ⟨-, stopped⟩ | ⟨less, top, pos, -⟩
    · rw [ended]
      exact .ok _
    · rw [stopped]
      exact .error (.inl rfl)
    · cases pos
  | succ fuel ih =>
    rcases @descendTo_cases ctx st earlierRound (fuel + 1) linked with
      ⟨ended, -⟩ | ⟨zero, -⟩ | ⟨less, top, same, descends⟩
    · rw [ended]
      exact .ok _
    · cases zero
    · cases same
      rw [descends]
      exact .bind (.expect (.inr ⟨_, rfl⟩)) fun blk => ih _

lemma ancestorsAtRound_within (anchor : VerifiedBlock) :
    Within DescentRefused (st.ancestorsAtRound ctx anchor earlierRound) :=
  (descendTo_within _ _).bind fun _ => .mapM fun _ => .expect (.inr ⟨_, rfl⟩)

end DagState

namespace Shows

variable {ctx : Context} {blocks : BlockUniverse ctx} {st : DagState}
  {options : BaseCommitterOptions} {slot : Slot}

section

variable (shows : Shows blocks st)

include shows

lemma slotBlocks (wf : st.WellFormed ctx) (slot : Slot) :
    (st.getUncommittedBlocksAtSlot slot).Nodup ∧
      ∀ blk ∈ st.getUncommittedBlocksAtSlot slot, blk ∈ blocks.members ∧ blk.slot = slot := by
  constructor
  · have increasing := @scan_increasing BlockRef BlockInfo _ _ _ st.recentBlocks
      (fun ref => ref.round = slot.round && ref.author = slot.authority)
      (fun info : BlockInfo => info.block.reference)
      fun ref info _ cached => wf.keyed ref info cached
    apply List.Nodup.of_map VerifiedBlock.reference
    rw [getUncommittedBlocksAtSlot, List.map_map]
    exact nodup_of_increasing (List.pairwise_map.mpr increasing)
  · intro blk here
    refine ⟨?_, wf.cacheKeyed.slot_of_listed here⟩
    obtain ⟨info, scanned, rfl⟩ := List.mem_map.mp here
    obtain ⟨ref, -, cached⟩ := mem_scan.mp scanned
    have pos := wf.round_pos (mem_of_getElem? cached)
    exact shows.known ref _ pos (getBlock_of_cached (Nat.ne_of_gt pos) cached)

lemma supported_of_enough {leader : VerifiedBlock}
    (enough : enoughLeaderSupport ctx st (leader.round + 2) leader = .ok true) :
    blocks.Supported leader := by
  obtain ⟨got, run, -⟩ := bind_eq_ok.mp enough
  obtain ⟨answer, answered, sound⟩ := shows.enoughLeaderSupport_answers run
  rw [enough, Except.ok.injEq] at answered
  exact sound answered.symm

lemma certified_of_any {leader : VerifiedBlock} {certificates : List VerifiedBlock}
    (held : ∀ blk ∈ certificates, st.Holds ctx blk ∧ blk.round = leader.round + 2) :
    ∃ answer, anyCertificate ctx st leader certificates ∅ = .ok answer ∧
      (answer = true → ∃ cert, blocks.Certifies cert leader) := by
  refine ⟨_, anyCertificate_ok shows.readable (votesKnown_empty _) fun blk mem =>
    ⟨(held blk mem).1, Nat.le_of_eq (held blk mem).2⟩, fun acc => ?_⟩
  obtain ⟨cert, mem, certified⟩ := List.any_eq_true.mp acc
  obtain ⟨certificateHeld, round⟩ := held cert mem
  exact ⟨cert, shows.certifies_sound certificateHeld round certified⟩

lemma at_most_one (wf : st.WellFormed ctx) {selected : List VerifiedBlock}
    (sublist : selected.Sublist (st.getUncommittedBlocksAtSlot slot))
    (certified : ∀ blk ∈ selected, ∃ cert, blocks.Certifies cert blk) :
    selected.length ≤ 1 := by
  obtain ⟨nodup, members⟩ := shows.slotBlocks wf slot
  have unique : ∀ first ∈ selected, ∀ second ∈ selected, first = second := by
    intro first inFirst second inSecond
    obtain ⟨firstInside, firstSlot⟩ := members first (sublist.subset inFirst)
    obtain ⟨secondInside, secondSlot⟩ := members second (sublist.subset inSecond)
    obtain ⟨cert, certifies⟩ := certified first inFirst
    obtain ⟨other, otherwise⟩ := certified second inSecond
    exact certifies.unique otherwise firstInside secondInside (firstSlot.trans secondSlot.symm)
  rcases Sees.nil_or_singleton (nodup.sublist sublist) unique with rfl | ⟨blk, rfl⟩
  · exact Nat.zero_le 1
  · exact Nat.le_refl 1

lemma supported_at_most_one (wf : st.WellFormed ctx)
    {supported : List VerifiedBlock}
    (run : selectM (enoughLeaderSupport ctx st (slot.round + 2))
      (st.getUncommittedBlocksAtSlot slot) = .ok supported) : supported.length ≤ 1 := by
  obtain ⟨sublist, passed⟩ := selectM_eq_ok run
  apply shows.at_most_one wf sublist
  intro blk mem
  have inSlot := ((shows.slotBlocks wf slot).2 blk (sublist.subset mem)).2
  have round : slot.round = blk.round := (congrArg Slot.round inSlot).symm
  exact (shows.supported_of_enough (round ▸ passed blk mem)).certified

lemma certified_at_most_one (wf : st.WellFormed ctx) {anchor : VerifiedBlock}
    {certificates certified : List VerifiedBlock}
    (collected : st.ancestorsAtRound ctx anchor (slot.round + 2) = .ok certificates)
    (run : selectM (fun leader => anyCertificate ctx st leader certificates ∅)
      (st.getUncommittedBlocksAtSlot slot) = .ok certified) : certified.length ≤ 1 := by
  obtain ⟨sublist, passed⟩ := selectM_eq_ok run
  apply shows.at_most_one wf sublist
  intro blk mem
  have inSlot := ((shows.slotBlocks wf slot).2 blk (sublist.subset mem)).2
  have round : blk.round = slot.round := congrArg Slot.round inSlot
  obtain ⟨answer, answered, sound⟩ := shows.certified_of_any
    (round.symm ▸ ancestorsAtRound_hold shows.readable.verified collected)
  rw [passed blk mem, Except.ok.injEq] at answered
  exact sound answered.symm

end

/-- The committer asked for a round that has committed blocks. -/
def AskedTooLow (err : Panic) : Prop := ∃ round, err = .roundHasCommittedBlocks round

lemma getUncommittedBlocksAtRound_within (st : DagState) (round : Round) :
    Within AskedTooLow (st.getUncommittedBlocksAtRound round) :=
  .bind (.ensure ⟨round, rfl⟩) fun _ => .ok _

lemma enoughLeaderSupport_within (shows : Shows blocks st) (leader : VerifiedBlock) :
    Within AskedTooLow (enoughLeaderSupport ctx st (leader.round + 2) leader) := by
  cases run : st.getUncommittedBlocksAtRound (leader.round + 2) with
  | error err =>
    rw [enoughLeaderSupport, run]
    exact .error (getUncommittedBlocksAtRound_within st _ err run)
  | ok got =>
    obtain ⟨answer, answered, -⟩ := shows.enoughLeaderSupport_answers run
    rw [answered]
    exact .ok answer

lemma tryDirectDecide_within (shows : Shows blocks st) (wf : st.WellFormed ctx)
    (decision : decisionRound options (waveNumber options slot.round) = slot.round + 2) :
    Within AskedTooLow (tryDirectDecide ctx st options slot) := by
  apply Within.bind (.bind (getUncommittedBlocksAtRound_within st _) fun _ => .ok _)
  intro blamed
  cases blamed with
  | true => exact .ok _
  | false =>
    simp only [Bool.false_eq_true, if_false, decision]
    have tested : Within AskedTooLow (selectM
        (enoughLeaderSupport ctx st (slot.round + 2))
        (st.getUncommittedBlocksAtSlot slot)) := by
      apply Within.selectM
      intro leader here
      have inSlot := ((shows.slotBlocks wf slot).2 leader here).2
      have round : leader.round = slot.round := congrArg Slot.round inSlot
      exact round ▸ shows.enoughLeaderSupport_within leader
    cases run : selectM (enoughLeaderSupport ctx st (slot.round + 2))
        (st.getUncommittedBlocksAtSlot slot) with
    | error err => exact .error (tested err run)
    | ok supported =>
      rw [ok_bind, ensure_holds _ (shows.supported_at_most_one wf run), ok_bind]
      exact .ok _

lemma decideLeaderFromAnchor_within (shows : Shows blocks st)
    (wf : st.WellFormed ctx)
    (decision : decisionRound options (waveNumber options slot.round) = slot.round + 2)
    (anchor : VerifiedBlock) :
    Within DescentRefused (decideLeaderFromAnchor ctx st options anchor slot) := by
  rw [decideLeaderFromAnchor]
  simp only [decision]
  cases collected : st.ancestorsAtRound ctx anchor (slot.round + 2) with
  | error err => exact .error (ancestorsAtRound_within anchor err collected)
  | ok certificates =>
    have held := ancestorsAtRound_hold shows.readable.verified collected
    have tested : ∀ leader ∈ st.getUncommittedBlocksAtSlot slot,
        Within DescentRefused (anyCertificate ctx st leader certificates ∅) := by
      intro leader here
      have inSlot := ((shows.slotBlocks wf slot).2 leader here).2
      have round : leader.round = slot.round := congrArg Slot.round inSlot
      obtain ⟨answer, answered, -⟩ := shows.certified_of_any (round.symm ▸ held)
      rw [answered]
      exact .ok answer
    rw [ok_bind]
    cases run : selectM (fun leader => anyCertificate ctx st leader certificates ∅)
        (st.getUncommittedBlocksAtSlot slot) with
    | error err => exact .error (Within.selectM tested err run)
    | ok certified =>
      rw [ok_bind, ensure_holds _ (shows.certified_at_most_one wf collected run), ok_bind]
      exact .ok _

/-- With waves of three rounds, at most one block of a leader slot has enough support, at most
one is certified in the history of any anchor, a slot with a supported block is not blamed,
and neither rule stops at its uniqueness check. -/
theorem leader_block_unique (shows : Shows blocks st) (wf : st.WellFormed ctx)
    (wave : options.waveLength = 3) {election : LeaderElection} {round : Round}
    (elected : electLeader options election round = some slot) :
    (∀ first ∈ st.getUncommittedBlocksAtSlot slot,
      ∀ second ∈ st.getUncommittedBlocksAtSlot slot,
      enoughLeaderSupport ctx st (decisionRound options (waveNumber options round)) first =
        .ok true →
      enoughLeaderSupport ctx st (decisionRound options (waveNumber options round)) second =
        .ok true → first = second) ∧
    (∀ (anchor : VerifiedBlock) (certificates : List VerifiedBlock),
      st.ancestorsAtRound ctx anchor (decisionRound options (waveNumber options round)) =
        .ok certificates →
      ∀ first ∈ st.getUncommittedBlocksAtSlot slot,
      ∀ second ∈ st.getUncommittedBlocksAtSlot slot,
      anyCertificate ctx st first certificates ∅ = .ok true →
      anyCertificate ctx st second certificates ∅ = .ok true → first = second) ∧
    (∀ leader ∈ st.getUncommittedBlocksAtSlot slot,
      enoughLeaderSupport ctx st (decisionRound options (waveNumber options round)) leader =
        .ok true →
      enoughLeaderBlame ctx st (slot.round + 1) slot.authority ≠ .ok true) ∧
    tryDirectDecide ctx st options slot ≠ .error (.moreThanOneCandidate slot) ∧
    ∀ anchor, decideLeaderFromAnchor ctx st options anchor slot ≠
      .error (.moreThanOneCertified slot) := by
  have decision := decisionRound_of_elected (wave.symm ▸ Nat.succ_pos 2) elected
  obtain ⟨-, rfl⟩ := electLeader_eq_some.mp elected
  rw [wave] at decision
  have members := (shows.slotBlocks wf ⟨round, election round options.leaderOffset⟩).2
  have level : ∀ leader ∈ st.getUncommittedBlocksAtSlot
      ⟨round, election round options.leaderOffset⟩,
      decisionRound options (waveNumber options round) = leader.round + 2 := by
    intro leader here
    have same : leader.round = round := congrArg Slot.round (members leader here).2
    rw [decision, same]
    rfl
  refine ⟨?_, ?_, ?_, ?_, ?_⟩
  · intro first inFirst second inSecond firstEnough secondEnough
    rw [level first inFirst] at firstEnough
    rw [level second inSecond] at secondEnough
    obtain ⟨cert, certifies⟩ := (shows.supported_of_enough firstEnough).certified
    obtain ⟨other, otherwise⟩ := (shows.supported_of_enough secondEnough).certified
    exact certifies.unique otherwise (members first inFirst).1 (members second inSecond).1
      ((members first inFirst).2.trans (members second inSecond).2.symm)
  · intro anchor certificates collected first inFirst second inSecond firstAny secondAny
    have held := ancestorsAtRound_hold shows.readable.verified collected
    obtain ⟨firstAnswer, firstRun, firstSound⟩ :=
      shows.certified_of_any (level first inFirst ▸ held)
    obtain ⟨secondAnswer, secondRun, secondSound⟩ :=
      shows.certified_of_any (level second inSecond ▸ held)
    rw [firstAny, Except.ok.injEq] at firstRun
    rw [secondAny, Except.ok.injEq] at secondRun
    obtain ⟨cert, certifies⟩ := firstSound firstRun.symm
    obtain ⟨other, otherwise⟩ := secondSound secondRun.symm
    exact certifies.unique otherwise (members first inFirst).1 (members second inSecond).1
      ((members first inFirst).2.trans (members second inSecond).2.symm)
  · intro leader here enough blame
    rw [level leader here] at enough
    obtain ⟨cert, certifies⟩ := (shows.supported_of_enough enough).certified
    exact (shows.blamed_of_enoughLeaderBlame blame).not_certifies (members leader here).2
      certifies
  · intro stopped
    obtain ⟨other, same⟩ := shows.tryDirectDecide_within wf decision _ stopped
    cases same
  · intro anchor stopped
    rcases shows.decideLeaderFromAnchor_within wf decision anchor _ stopped with
      same | ⟨ref, same⟩
    · cases same
    · cases same

/-- A node that received both blocks of an equivocating leader does not stop. -/
theorem leader_block_unique_twins :
    ((testState 0 (threeRounds ++ UniversalCommitter.twins)).getUncommittedBlocksAtSlot
      ⟨1, 3⟩).length = 2 ∧
    tryDirectDecide (Context.newForTest 0) (testState 0 (threeRounds ++ UniversalCommitter.twins))
      ⟨3, 0, 1⟩ ⟨1, 3⟩ ≠ .error (.moreThanOneCandidate ⟨1, 3⟩) := by
  have sees : Sees (UniversalCommitter.equivocating 0) ⟨0, 0⟩
      (testState 0 (threeRounds ++ UniversalCommitter.twins)) := by
    apply UniversalCommitter.sees_received <;> decide +kernel
  have unique := @leader_block_unique _ _ _ ⟨3, 0, 1⟩ _ sees.shows
    (testState_wellFormed (by decide +kernel)) rfl _ _
    (show electLeader ⟨3, 0, 1⟩ (fun _ _ => 3) 1 = some ⟨1, 3⟩ by decide)
  exact ⟨by decide +kernel, unique.2.2.2.1⟩

end Shows

end Mysticeti
