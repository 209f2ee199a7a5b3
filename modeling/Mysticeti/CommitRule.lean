import Mysticeti.BlockUniverse
import Mysticeti.CommitEvidence

/-!
# The commit rule in a view of the universe

A node sees part of the universe of blocks. Above its last decided slot everything it can
look up is cached, and above its garbage-collection round what it sees is causally
closed. In such a view the direct rule answers only with evidence of the universe, and the
indirect rule decides exactly whether the history of the anchor shows a certificate. No
check of the rule fails, because certificates of one slot are for one block.
-/

namespace Mysticeti

open Lib.Outcome Lib.OrderedMap Lib.Worklist Lib.Quorum Lib.AnchorRule DagState

/-- What can be looked up is a causally closed part of the universe. -/
structure Shows {ctx : Context} (blocks : BlockUniverse ctx) (st : DagState) :
    Prop where
  keyed : ∀ ref blk, st.getBlock ctx ref = some blk → blk.reference = ref
  known : ∀ ref blk, 0 < ref.round → st.getBlock ctx ref = some blk → blk ∈ blocks.members
  closed : ∀ ref blk, st.getBlock ctx ref = some blk →
    ∀ anc ∈ blk.ancestors, st.gcRound ctx < anc.round → ∃ other, st.getBlock ctx anc = some other

namespace Shows

variable {ctx : Context} {blocks : BlockUniverse ctx} {st : DagState}

lemma readable (shows : Shows blocks st) : st.Readable ctx where
  keyed := shows.keyed
  valid ref blk pos got := blocks.valid blk (shows.known ref blk pos got)
  closed := shows.closed

variable {leader blk cert : VerifiedBlock} {got : List VerifiedBlock}

lemma member (shows : Shows blocks st) (held : st.Holds ctx blk)
    (pos : 0 < blk.round) : blk ∈ blocks.members :=
  shows.known blk.reference blk pos held

lemma votes_iff {ref : BlockRef} :
    BaseCommitter.votes ctx st leader ref = true ↔
      ∃ vote, st.getBlock ctx ref = some vote ∧ leader.reference ∈ vote.ancestors := by
  rw [BaseCommitter.votes]
  cases st.getBlock ctx ref <;> simp

lemma certifies_sound (shows : Shows blocks st) (held : st.Holds ctx cert)
    (round : cert.round = leader.round + 2)
    (acc : BaseCommitter.certifies ctx st leader cert = true) :
    blocks.Certifies cert leader := by
  have inside : cert ∈ blocks.members := shows.member held (by lia)
  rw [BaseCommitter.certifies, StakeAggregator.reaches_new_iff] at acc
  refine ⟨inside, round, _, acc, fun author counted => ?_⟩
  rw [List.mem_toFinset, List.mem_map] at counted
  obtain ⟨ref, here, rfl⟩ := counted
  rw [List.mem_filter, votes_iff] at here
  obtain ⟨anc, vote, got, linked⟩ := here
  have keyed := shows.keyed ref vote got
  have lower : ref.round < cert.round := (blocks.valid cert inside).ancestorRound ref anc
  have higher : leader.round < ref.round :=
    (shows.readable.ancestors_below got).1 leader.reference linked
  refine ⟨vote, shows.known ref vote (by lia) got, ?_, ?_, keyed ▸ anc, linked⟩
  · rw [← VerifiedBlock.reference_author, keyed]
  · rw [← VerifiedBlock.reference_round, keyed]
    lia

lemma quorate_of_held (shows : Shows blocks st) {round : Round} {test : VerifiedBlock → Bool}
    {property : VerifiedBlock → Prop} (pos : 0 < round)
    (held : ∀ blk ∈ got, st.Holds ctx blk ∧ blk.round = round)
    (tested : ∀ blk ∈ got, test blk = true → property blk)
    (final : StakeAggregator.reaches ctx.committee StakeAggregator.new
      ((got.filter test).map VerifiedBlock.author) = true) : blocks.Quorate round property := by
  rw [StakeAggregator.reaches_new_iff] at final
  refine ⟨_, final, fun author counted => ?_⟩
  rw [List.mem_toFinset, List.mem_map] at counted
  obtain ⟨blk, here, rfl⟩ := counted
  rw [List.mem_filter] at here
  obtain ⟨blockHeld, blockRound⟩ := held blk here.1
  exact ⟨blk, shows.member blockHeld (by lia), rfl, blockRound, tested blk here.1 here.2⟩

section Rounds

lemma scanned_holds (shows : Shows blocks st) {keep : BlockRef → Bool}
    (pos : ∀ ref, keep ref = true → 0 < ref.round)
    (here : blk ∈ (scan st.recentBlocks keep).map BlockInfo.block) :
    st.Holds ctx blk ∧ keep blk.reference = true := by
  obtain ⟨info, scanned, rfl⟩ := List.mem_map.mp here
  obtain ⟨ref, kept, cached⟩ := mem_scan.mp scanned
  have looked := @getBlock_of_cached ctx st ref info
    (Nat.ne_of_gt (pos ref kept)) cached
  refine ⟨shows.readable.holds looked, ?_⟩
  rw [shows.keyed ref _ looked]
  exact kept

lemma roundBlocks_hold (shows : Shows blocks st) {round : Round} (pos : 0 < round)
    (run : st.getUncommittedBlocksAtRound round = .ok got) :
    ∀ blk ∈ got, st.Holds ctx blk ∧ blk.round = round := by
  obtain ⟨-, ret⟩ := ensure_bind_eq_ok.mp run
  cases ret
  have above : ∀ ref : BlockRef, decide (ref.round = round) = true → 0 < ref.round := by
    intro ref same
    rw [of_decide_eq_true same]
    exact pos
  intro blk here
  obtain ⟨held, kept⟩ := shows.scanned_holds above here
  exact ⟨held, of_decide_eq_true kept⟩

lemma blamed_of_enoughLeaderBlame (shows : Shows blocks st) {slot : Slot}
    (enough : BaseCommitter.enoughLeaderBlame ctx st (slot.round + 1) slot.authority =
      .ok true) : blocks.Blamed slot := by
  obtain ⟨got, run, ret⟩ := bind_eq_ok.mp enough
  rw [BaseCommitter.countBlames_eq, pure_ok, Except.ok.injEq] at ret
  refine shows.quorate_of_held (Nat.succ_pos _) (shows.roundBlocks_hold (Nat.succ_pos _) run) ?_
    ret
  intro blk _ blames
  simpa using blames

lemma enoughLeaderSupport_answers (shows : Shows blocks st)
    (run : st.getUncommittedBlocksAtRound (leader.round + 2) = .ok got) :
    ∃ answer, BaseCommitter.enoughLeaderSupport ctx st (leader.round + 2) leader =
        .ok answer ∧ (answer = true → blocks.Supported leader) := by
  have members := shows.roundBlocks_hold (Nat.succ_pos _) run
  rw [BaseCommitter.enoughLeaderSupport, run, ok_bind]
  dsimp only
  split
  · exact ⟨false, rfl, fun impossible => absurd impossible Bool.false_ne_true⟩
  · rw [BaseCommitter.countCertificates_ok shows.readable
      (BaseCommitter.votesKnown_empty _) fun blk mem =>
        ⟨(members blk mem).1, Nat.le_of_eq (members blk mem).2⟩]
    refine ⟨_, rfl, fun final => ?_⟩
    refine shows.quorate_of_held (Nat.succ_pos _) members ?_ final
    intro blk mem certified
    obtain ⟨held, round⟩ := members blk mem
    exact shows.certifies_sound held round certified

end Rounds

end Shows

/-- What a node with the given last decided slot sees of the universe. -/
structure Sees {ctx : Context} (blocks : BlockUniverse ctx) (lastDecided : Slot)
    (st : DagState) : Prop where
  keyed : ∀ ref blk, st.getBlock ctx ref = some blk → blk.reference = ref
  known : ∀ ref blk, 0 < ref.round → st.getBlock ctx ref = some blk → blk ∈ blocks.members
  closed : ∀ ref blk, st.getBlock ctx ref = some blk →
    ∀ anc ∈ blk.ancestors, st.gcRound ctx < anc.round → ∃ other, st.getBlock ctx anc = some other
  cached : ∀ (ref : BlockRef) (blk : VerifiedBlock),
    lastDecided.round < ref.round → st.getBlock ctx ref = some blk → ref ∈ st.recentBlocks
  last : st.lastCommitRound ≤ lastDecided.round

namespace Sees

variable {ctx : Context} {blocks : BlockUniverse ctx} {lastDecided : Slot}
  {st : DagState}

lemma of_cached (wf : st.WellFormed ctx) (closed : st.CausallyClosed ctx)
    (backed : st.Backed ctx)
    (inside : ∀ ref blk, 0 < ref.round → st.getBlock ctx ref = some blk → blk ∈ blocks.members)
    (last : st.lastCommitRound ≤ lastDecided.round) : Sees blocks lastDecided st where
  keyed := (backed.readable wf closed).keyed
  known := inside
  closed := (backed.readable wf closed).closed
  cached ref blk later got := by
    have young : st.gcRound ctx < ref.round :=
      Nat.lt_of_le_of_lt ((Nat.sub_le _ _).trans last) later
    rcases getBlock_cases got with ⟨genesis, -⟩ | ⟨info, cached, -⟩ | ⟨-, stored⟩
    · have zero : ref.round = 0 := genesis
      lia
    · exact mem_recentBlocks.mpr ⟨info, cached⟩
    · exact backed.cached ref blk stored young
  last := last

section

variable (sees : Sees blocks lastDecided st)

include sees

lemma shows : Shows blocks st := ⟨sees.keyed, sees.known, sees.closed⟩

lemma readable : st.Readable ctx := sees.shows.readable

lemma member (held : st.Holds ctx blk) (pos : 0 < blk.round) : blk ∈ blocks.members :=
  sees.shows.member held pos

lemma young {round : Round} (later : lastDecided.round < round) : st.gcRound ctx < round :=
  Nat.lt_of_le_of_lt ((Nat.sub_le _ _).trans sees.last) later

lemma holds_of_found (inside : blk ∈ blocks.members)
    (got : ∃ other, st.getBlock ctx blk.reference = some other) :
    st.Holds ctx blk := by
  obtain ⟨other, looked⟩ := got
  have pos := (blocks.valid blk inside).round_pos
  have same : other = blk := blocks.identified other
    (sees.known blk.reference other pos looked) blk inside
    (sees.keyed blk.reference other looked)
  exact same ▸ looked

lemma holds_ancestor {anc : VerifiedBlock} (held : st.Holds ctx blk)
    (inside : anc ∈ blocks.members) (linked : anc.reference ∈ blk.ancestors)
    (above : st.gcRound ctx < anc.round) : st.Holds ctx anc :=
  sees.holds_of_found inside (sees.closed _ blk held anc.reference linked above)

end

section Scans

lemma scanned (sees : Sees blocks lastDecided st) {keep : BlockRef → Bool}
    (later : ∀ ref, keep ref = true → lastDecided.round < ref.round) :
    ((scan st.recentBlocks keep).map BlockInfo.block).Nodup ∧
      ∀ blk, blk ∈ (scan st.recentBlocks keep).map BlockInfo.block ↔
        st.Holds ctx blk ∧ keep blk.reference = true := by
  have got : ∀ (ref : BlockRef) (info : BlockInfo), keep ref = true →
      st.recentBlocks[ref]? = some info → st.getBlock ctx ref = some info.block := by
    intro ref info kept cached
    exact getBlock_of_cached (Nat.ne_of_gt (Nat.lt_of_le_of_lt (Nat.zero_le _)
      (later ref kept))) cached
  constructor
  · have increasing := @scan_increasing BlockRef BlockInfo _ _ _ st.recentBlocks keep
      (fun info : BlockInfo => info.block.reference)
      fun ref info kept cached => sees.keyed ref _ (got ref info kept cached)
    apply List.Nodup.of_map VerifiedBlock.reference
    rw [List.map_map]
    exact nodup_of_increasing (List.pairwise_map.mpr increasing)
  · intro blk
    rw [List.mem_map]
    constructor
    · rintro ⟨info, scanned, rfl⟩
      obtain ⟨ref, kept, cached⟩ := mem_scan.mp scanned
      have looked := got ref info kept cached
      refine ⟨sees.readable.holds looked, ?_⟩
      rw [sees.keyed ref _ looked]
      exact kept
    · rintro ⟨held, kept⟩
      obtain ⟨info, cached⟩ := mem_recentBlocks.mp
        (sees.cached blk.reference blk (later _ kept) held)
      have looked := got blk.reference info kept cached
      rw [held, Option.some.injEq] at looked
      exact ⟨info, mem_scan.mpr ⟨blk.reference, kept, cached⟩, looked.symm⟩

lemma roundBlocks (sees : Sees blocks lastDecided st) {round : Round}
    (later : lastDecided.round < round) :
    ∃ got, st.getUncommittedBlocksAtRound round = .ok got ∧
      ∀ blk, blk ∈ got ↔ st.Holds ctx blk ∧ blk.round = round := by
  have fresh : st.lastCommitRound < round := Nat.lt_of_le_of_lt sees.last later
  refine ⟨(scan st.recentBlocks fun ref => ref.round = round).map
    BlockInfo.block, ?_, fun blk => ?_⟩
  · rw [getUncommittedBlocksAtRound, ensure_holds _ fresh, ok_bind]
    rfl
  · rw [(sees.scanned fun ref kept => by simpa using of_decide_eq_true kept ▸ later).2,
      decide_eq_true_eq, VerifiedBlock.reference_round]

lemma slotBlocks (sees : Sees blocks lastDecided st) {slot : Slot}
    (later : lastDecided.round < slot.round) :
    (st.getUncommittedBlocksAtSlot slot).Nodup ∧
      ∀ blk, blk ∈ st.getUncommittedBlocksAtSlot slot ↔ st.Holds ctx blk ∧ blk.slot = slot := by
  have inRound : ∀ ref : BlockRef, (decide (ref.round = slot.round) &&
      decide (ref.author = slot.authority)) = true → lastDecided.round < ref.round := by
    intro ref kept
    rw [Bool.and_eq_true, decide_eq_true_eq] at kept
    exact kept.1 ▸ later
  obtain ⟨nodup, members⟩ := sees.scanned inRound
  refine ⟨nodup, fun blk => ?_⟩
  rw [getUncommittedBlocksAtSlot, members, Bool.and_eq_true, decide_eq_true_eq, decide_eq_true_eq,
    VerifiedBlock.slot, Slot.mk.injEq]
  rfl

end Scans

section Certificates

lemma certifies_iff (sees : Sees blocks lastDecided st)
    (held : st.Holds ctx cert) (round : cert.round = leader.round + 2)
    (later : lastDecided.round < leader.round) :
    BaseCommitter.certifies ctx st leader cert = true ↔ blocks.Certifies cert leader := by
  constructor
  · exact sees.shows.certifies_sound held round
  · rintro ⟨-, -, authors, quorum, voted⟩
    rw [BaseCommitter.certifies, StakeAggregator.reaches_new_iff]
    refine quorum.trans (weigh_mono fun author counted => ?_)
    obtain ⟨vote, voteInside, rfl, voteRound, anc, linked⟩ := voted author counted
    have above : st.gcRound ctx < vote.round := sees.young (by lia)
    have voteHeld := sees.holds_ancestor held voteInside anc above
    rw [List.mem_toFinset, List.mem_map]
    refine ⟨vote.reference, ?_, rfl⟩
    rw [List.mem_filter, Shows.votes_iff]
    exact ⟨anc, vote, voteHeld, linked⟩

lemma enoughLeaderBlame_ok (sees : Sees blocks lastDecided st) {slot : Slot}
    (later : lastDecided.round < slot.round) :
    ∃ answer, BaseCommitter.enoughLeaderBlame ctx st (slot.round + 1) slot.authority =
        .ok answer ∧ (answer = true → blocks.Blamed slot) := by
  obtain ⟨got, run, -⟩ := sees.roundBlocks (Nat.lt_succ_of_lt later)
  have ans : BaseCommitter.enoughLeaderBlame ctx st (slot.round + 1) slot.authority =
      .ok (BaseCommitter.countBlames ctx slot.authority got StakeAggregator.new) := by
    rw [BaseCommitter.enoughLeaderBlame, run, ok_bind, pure_ok]
  refine ⟨_, ans, fun final => ?_⟩
  rw [final] at ans
  exact sees.shows.blamed_of_enoughLeaderBlame ans

lemma enoughLeaderSupport_ok (sees : Sees blocks lastDecided st)
    (later : lastDecided.round < leader.round) :
    ∃ answer, BaseCommitter.enoughLeaderSupport ctx st (leader.round + 2) leader =
        .ok answer ∧ (answer = true → blocks.Supported leader) := by
  have decisionRound : lastDecided.round < leader.round + 2 := by lia
  obtain ⟨got, run, -⟩ := sees.roundBlocks decisionRound
  exact sees.shows.enoughLeaderSupport_answers run

end Certificates

section Anchors

lemma below_iff_reached (sees : Sees blocks lastDecided st) {anchor : VerifiedBlock}
    (held : st.Holds ctx anchor) (young : st.gcRound ctx < cert.round) :
    blocks.Below anchor cert ↔ st.Holds ctx cert ∧
      Reached (st.descentLinks ctx cert.round) ∅ anchor.ancestors
        cert.reference := by
  constructor
  · intro below
    -- Everything on the path is above the certificate, so it is seen.
    have along : ∀ blk, blocks.Below anchor blk → cert.round ≤ blk.round →
        st.Holds ctx blk ∧ Reached (st.descentLinks ctx cert.round) ∅
          anchor.ancestors blk.reference := by
      intro blk path
      induction path with
      | single link =>
        intro above
        exact ⟨sees.holds_ancestor held link.1 link.2 (Nat.lt_of_lt_of_le young above),
          Reached.root link.2⟩
      | @tail mid last path link ih =>
        intro above
        have middleInside : mid ∈ blocks.members := by
          cases path with
          | single first => exact first.1
          | tail _ first => exact first.1
        have higher : last.round < mid.round :=
          (blocks.valid mid middleInside).ancestorRound last.reference link.2
        obtain ⟨middleHeld, final⟩ := ih (by lia)
        have above' : cert.round < mid.reference.round := by
          rw [VerifiedBlock.reference_round]
          lia
        refine ⟨sees.holds_ancestor middleHeld link.1 link.2 (Nat.lt_of_lt_of_le young above),
          final.next ?_ (Set.notMem_empty _)⟩
        rw [descentLinks, if_pos above', middleHeld]
        exact link.2
    exact along cert below (Nat.le_refl _)
  · rintro ⟨certificateHeld, final⟩
    refine final.induct (motive := fun target => 0 < target.round → ∀ blk,
      st.getBlock ctx target = some blk → blocks.Below anchor blk) ?_ ?_
      (Nat.lt_of_le_of_lt (Nat.zero_le _) young) cert certificateHeld
    · intro root mem pos blk got
      have keyed := sees.keyed root blk got
      exact .single ⟨sees.known root blk pos got, keyed.symm ▸ mem⟩
    · intro source child ih linked _ pos blk got
      rw [descentLinks] at linked
      split at linked
      · rename_i above
        cases looked : st.getBlock ctx source with
        | none => simp [looked] at linked
        | some parent =>
          rw [looked] at linked
          have keyed := sees.keyed child blk got
          exact (ih (by lia) parent looked).tail
            ⟨sees.known child blk pos got, keyed.symm ▸ linked⟩
      · simp at linked

lemma holds_certified (sees : Sees blocks lastDecided st)
    (held : st.Holds ctx cert) (inside : leader ∈ blocks.members)
    (later : lastDecided.round < leader.round) (certified : blocks.Certifies cert leader) :
    st.Holds ctx leader := by
  obtain ⟨vote, voteInside, voteRound, ⟨anc, linked⟩, -⟩ := certified.votes.meet certified.votes
  have voteHeld := sees.holds_ancestor held voteInside anc (sees.young (by lia))
  exact sees.holds_ancestor voteHeld inside linked (sees.young later)

end Anchors

section Decisions

variable {options : BaseCommitterOptions} {slot : Slot}

lemma nil_or_singleton {α : Type} {items : List α} (nodup : items.Nodup)
    (same : ∀ first ∈ items, ∀ second ∈ items, first = second) :
    items = [] ∨ ∃ item, items = [item] := by
  match items with
  | [] => exact .inl rfl
  | [item] => exact .inr ⟨item, rfl⟩
  | first :: second :: rest =>
    have equal := same first (by simp) second (by simp)
    simp [equal] at nodup

lemma tryDirectDecide_ok (sees : Sees blocks lastDecided st)
    (later : lastDecided.round < slot.round)
    (wave : BaseCommitter.decisionRound options (BaseCommitter.waveNumber options slot.round) =
      slot.round + 2) :
    ∃ status, BaseCommitter.tryDirectDecide ctx st options slot = .ok status ∧
      ((status = .skip slot ∧ blocks.Blamed slot) ∨
        (∃ blk, status = .commit blk ∧ st.Holds ctx blk ∧ blk.slot = slot ∧ blocks.Supported blk) ∨
        status = .undecided slot) := by
  obtain ⟨blame, blameRun, blamed⟩ := sees.enoughLeaderBlame_ok later
  rw [BaseCommitter.tryDirectDecide, blameRun, ok_bind]
  cases blame with
  | true => exact ⟨.skip slot, rfl, .inl ⟨rfl, blamed rfl⟩⟩
  | false =>
    obtain ⟨nodup, members⟩ := sees.slotBlocks later
    obtain ⟨kept, run, sublist, keptIff⟩ := @selectM_keeps Panic VerifiedBlock
      (st.getUncommittedBlocksAtSlot slot)
      (BaseCommitter.enoughLeaderSupport ctx st (slot.round + 2))
      (fun blk => BaseCommitter.enoughLeaderSupport ctx st (slot.round + 2) blk =
        .ok true) (by
        intro blk mem
        have inSlot := ((members blk).mp mem).2
        have round : blk.round = slot.round := congrArg Slot.round inSlot
        obtain ⟨answer, answered, -⟩ := sees.enoughLeaderSupport_ok (round.symm ▸ later)
        rw [round] at answered
        exact ⟨answer, answered, by rw [answered, Except.ok.injEq]⟩)
    have supported : ∀ blk ∈ kept, st.Holds ctx blk ∧ blk.slot = slot ∧ blocks.Supported blk := by
      intro blk mem
      obtain ⟨here, support⟩ := (keptIff blk).mp mem
      obtain ⟨held, inSlot⟩ := (members blk).mp here
      have round : blk.round = slot.round := congrArg Slot.round inSlot
      obtain ⟨answer, answered, sound⟩ := sees.enoughLeaderSupport_ok (round.symm ▸ later)
      rw [round, support, Except.ok.injEq] at answered
      exact ⟨held, inSlot, sound answered.symm⟩
    have pos : ∀ blk ∈ kept, 0 < blk.round := by
      intro blk mem
      have round : blk.round = slot.round := congrArg Slot.round (supported blk mem).2.1
      lia
    have unique : ∀ first ∈ kept, ∀ second ∈ kept, first = second := by
      intro first inFirst second inSecond
      obtain ⟨firstHeld, firstSlot, firstSupported⟩ := supported first inFirst
      obtain ⟨secondHeld, secondSlot, secondSupported⟩ := supported second inSecond
      obtain ⟨cert, certified⟩ := firstSupported.certified
      obtain ⟨other, otherwise⟩ := secondSupported.certified
      exact certified.unique otherwise (sees.member firstHeld (pos first inFirst))
        (sees.member secondHeld (pos second inSecond)) (firstSlot.trans secondSlot.symm)
    simp only [Bool.false_eq_true, if_false, wave, run, ok_bind]
    rcases nil_or_singleton (nodup.sublist sublist) unique with rfl | ⟨blk, rfl⟩
    · exact ⟨.undecided slot, rfl, .inr (.inr rfl)⟩
    · obtain ⟨held, inSlot, support⟩ := supported blk (by simp)
      exact ⟨.commit blk, rfl, .inr (.inl ⟨blk, rfl, held, inSlot, support⟩)⟩

lemma anyCertificate_iff (sees : Sees blocks lastDecided st) {anchor : VerifiedBlock}
    (held : st.Holds ctx anchor) (later : lastDecided.round < leader.round)
    (potential : ∀ blk, blk ∈ got ↔ st.Holds ctx blk ∧
      blk.round = leader.round + 2 ∧
      Reached (st.descentLinks ctx (leader.round + 2)) ∅ anchor.ancestors
        blk.reference) :
    ∃ answer, BaseCommitter.anyCertificate ctx st leader got ∅ = .ok answer ∧
      (answer = true ↔ ∃ cert, blocks.Below anchor cert ∧ blocks.Certifies cert leader) := by
  refine ⟨_, BaseCommitter.anyCertificate_ok sees.readable
    (BaseCommitter.votesKnown_empty _) fun blk mem => ?_, ?_⟩
  · obtain ⟨blockHeld, round, -⟩ := (potential blk).mp mem
    exact ⟨blockHeld, Nat.le_of_eq round⟩
  rw [List.any_eq_true]
  constructor
  · rintro ⟨cert, mem, certified⟩
    obtain ⟨certificateHeld, round, final⟩ := (potential cert).mp mem
    have young : st.gcRound ctx < cert.round := sees.young (by lia)
    rw [← round] at final
    exact ⟨cert, (sees.below_iff_reached held young).mpr ⟨certificateHeld, final⟩,
      (sees.certifies_iff certificateHeld round later).mp certified⟩
  · rintro ⟨cert, below, certified⟩
    have young : st.gcRound ctx < cert.round := by
      rw [certified.round]
      exact sees.young (by lia)
    obtain ⟨certificateHeld, final⟩ := (sees.below_iff_reached held young).mp below
    rw [certified.round] at final
    exact ⟨cert, (potential cert).mpr ⟨certificateHeld, certified.round, final⟩,
      (sees.certifies_iff certificateHeld certified.round later).mpr certified⟩

lemma decideLeaderFromAnchor_ok (sees : Sees blocks lastDecided st) {anchor : VerifiedBlock}
    (held : st.Holds ctx anchor) (later : lastDecided.round < slot.round)
    (wave : BaseCommitter.decisionRound options (BaseCommitter.waveNumber options slot.round) =
      slot.round + 2) :
    ∃ status, BaseCommitter.decideLeaderFromAnchor ctx st options anchor slot = .ok status ∧
      ((∃ blk, status = .commit blk ∧ st.Holds ctx blk ∧ blk.slot = slot ∧
          ∃ cert, blocks.Below anchor cert ∧ blocks.Certifies cert blk) ∨
        (status = .skip slot ∧ ∀ blk ∈ blocks.members, blk.slot = slot →
          ¬ ∃ cert, blocks.Below anchor cert ∧ blocks.Certifies cert blk)) := by
  have young : st.gcRound ctx < slot.round + 2 := sees.young (by lia)
  obtain ⟨got, foundRun, -, potential⟩ := ancestorsAtRound_ok sees.readable held young
  obtain ⟨nodup, members⟩ := sees.slotBlocks later
  obtain ⟨kept, run, sublist, keptIff⟩ := @selectM_keeps Panic VerifiedBlock
    (st.getUncommittedBlocksAtSlot slot)
    (fun blk => BaseCommitter.anyCertificate ctx st blk got ∅)
    (fun blk => ∃ cert, blocks.Below anchor cert ∧
      blocks.Certifies cert blk) (by
      intro blk mem
      have round : blk.round = slot.round := congrArg Slot.round ((members blk).mp mem).2
      exact sees.anyCertificate_iff held (round.symm ▸ later) (round.symm ▸ potential))
  have certified : ∀ blk ∈ kept, blk ∈ blocks.members ∧ st.Holds ctx blk ∧
      blk.slot = slot ∧ ∃ cert, blocks.Below anchor cert ∧ blocks.Certifies cert blk := by
    intro blk mem
    obtain ⟨here, cert⟩ := (keptIff blk).mp mem
    obtain ⟨blockHeld, inSlot⟩ := (members blk).mp here
    have round : blk.round = slot.round := congrArg Slot.round inSlot
    exact ⟨sees.member blockHeld (by lia), blockHeld, inSlot, cert⟩
  have unique : ∀ first ∈ kept, ∀ second ∈ kept, first = second := by
    intro first inFirst second inSecond
    obtain ⟨firstInside, -, firstSlot, cert, -, firstCertified⟩ := certified first inFirst
    obtain ⟨secondInside, -, secondSlot, other, -, secondCertified⟩ := certified second inSecond
    exact firstCertified.unique secondCertified firstInside secondInside
      (firstSlot.trans secondSlot.symm)
  simp only [BaseCommitter.decideLeaderFromAnchor, wave, foundRun, ok_bind, run]
  rcases nil_or_singleton (nodup.sublist sublist) unique with rfl | ⟨blk, rfl⟩
  · refine ⟨.skip slot, rfl, .inr ⟨rfl, ?_⟩⟩
    rintro blk inside inSlot ⟨cert, below, certifies⟩
    have round : blk.round = slot.round := congrArg Slot.round inSlot
    have certificateYoung : st.gcRound ctx < cert.round := by
      rw [certifies.round, round]
      exact young
    have certificateHeld := ((sees.below_iff_reached held certificateYoung).mp below).1
    have blockHeld := sees.holds_certified certificateHeld inside (round.symm ▸ later) certifies
    have here := (members blk).mpr ⟨blockHeld, inSlot⟩
    exact absurd ((keptIff blk).mpr ⟨here, cert, below, certifies⟩) (by simp)
  · obtain ⟨-, blockHeld, inSlot, cert⟩ := certified blk (by simp)
    exact ⟨.commit blk, rfl, .inl ⟨blk, rfl, blockHeld, inSlot, cert⟩⟩

end Decisions

end Sees

end Mysticeti
