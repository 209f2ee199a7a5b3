import Mysticeti.DagView
import Mysticeti.UniversalCommitter

/-!
# Pipelining

With one leader per round, the builder makes one committer for every round of a wave. In
each round exactly one of them elects a leader, the one whose offset is the round's position
in the wave, and it decides the round at the end of the wave that starts there. The pass over
all rounds and committers is therefore a pass over the rounds, and its result lists the slots
of consecutive rounds.
-/

namespace Mysticeti

open List Option Lib.Outcome Lib.OrderedMap UniversalCommitterBuilder

def LeaderStatus.slot : LeaderStatus → Slot
  | .commit blk => blk.slot
  | .skip slot => slot
  | .undecided slot => slot

lemma LeaderStatus.round_eq (status : LeaderStatus) : status.round = status.slot.round := by
  cases status <;> rfl

lemma LeaderStatus.slot_of_decided {status : LeaderStatus} {direct : Bool}
    {decided : DecidedLeader} (into : status.intoDecidedLeader direct = some decided) :
    decided.slot = status.slot := by
  cases status with
  | commit blk => cases into; rfl
  | skip slot => cases into; rfl
  | undecided slot => cases into

namespace DagState

/-- The cached blocks stand under their own references. -/
def CacheKeyed (st : DagState) : Prop :=
  ∀ (ref : BlockRef) (info : BlockInfo), st.recentBlocks[ref]? = some info →
    info.block.reference = ref

lemma WellFormed.cacheKeyed {ctx : Context} {st : DagState}
    (wf : st.WellFormed ctx) : st.CacheKeyed :=
  wf.keyed

lemma CacheKeyed.slot_of_listed {st : DagState} (keyed : st.CacheKeyed) {slot : Slot}
    {blk : VerifiedBlock} (here : blk ∈ st.getUncommittedBlocksAtSlot slot) :
    blk.slot = slot := by
  obtain ⟨info, scanned, rfl⟩ := List.mem_map.mp here
  obtain ⟨ref, kept, cached⟩ := mem_scan.mp scanned
  rw [Bool.and_eq_true, decide_eq_true_eq, decide_eq_true_eq, ← keyed ref info cached]
    at kept
  exact congrArg₂ Slot.mk kept.1 kept.2

end DagState

namespace BaseCommitter

section Waves

variable {options : BaseCommitterOptions} {election : LeaderElection} {round : Round}
  {slot : Slot}

lemma electLeader_eq_some : electLeader options election round = some slot ↔
    leaderRound options (waveNumber options round) = round ∧
      ⟨round, election round options.leaderOffset⟩ = slot := by
  rw [electLeader]
  split
  · rename_i other
    simp [other]
  · rename_i leads
    simp [not_not.mp leads]

lemma decisionRound_of_elected (positive : 0 < options.waveLength)
    (elected : electLeader options election round = some slot) :
    decisionRound options (waveNumber options round) = round + options.waveLength - 1 := by
  have leads := (electLeader_eq_some.mp elected).1
  rw [leaderRound] at leads
  rw [decisionRound]
  lia

lemma electLeader_isSome_iff (short : options.roundOffset < options.waveLength) :
    (electLeader options election round).isSome = true ↔
      options.roundOffset = round % options.waveLength := by
  have leads : (electLeader options election round).isSome = true ↔
      (round - options.roundOffset) / options.waveLength * options.waveLength +
        options.roundOffset = round := by
    rw [isSome_iff_exists]
    simp only [electLeader_eq_some, exists_and_left, exists_eq', and_true]
    rfl
  rw [leads]
  constructor
  · intro pos
    rw [← pos, Nat.mul_add_mod_self_right, Nat.mod_eq_of_lt short]
  · intro offset
    have positive : 0 < options.waveLength := Nat.zero_lt_of_lt short
    rw [offset, ← Nat.div_mul_self_eq_mod_sub_self, Nat.mul_div_cancel _ positive, Nat.div_add_mod']

end Waves

section Slots

variable {ctx : Context} {st : DagState} {options : BaseCommitterOptions} {slot : Slot}
  {status : LeaderStatus}

lemma slot_of_selected {test : VerifiedBlock → Except Panic Bool} {selected : List VerifiedBlock}
    {otherwise : LeaderStatus} (keyed : st.CacheKeyed)
    (run : selectM test (st.getUncommittedBlocksAtSlot slot) = .ok selected)
    (about : otherwise.slot = slot) :
    ((selected.getLast?.map LeaderStatus.commit).getD otherwise).slot = slot := by
  cases picked : selected.getLast? with
  | none => exact about
  | some blk =>
    have here := (selectM_eq_ok run).1.subset (mem_of_getLast? picked)
    exact keyed.slot_of_listed here

lemma tryDirectDecide_slot (keyed : st.CacheKeyed)
    (run : tryDirectDecide ctx st options slot = .ok status) : status.slot = slot := by
  obtain ⟨blamed, -, decides⟩ := bind_eq_ok.mp run
  cases blamed with
  | true =>
    cases decides
    rfl
  | false =>
    obtain ⟨supported, selected, ret⟩ := bind_eq_ok.mp decides
    obtain ⟨-, same⟩ := ensure_bind_eq_ok.mp ret
    cases same
    exact slot_of_selected keyed selected rfl

lemma decideLeaderFromAnchor_slot (keyed : st.CacheKeyed) {anchor : VerifiedBlock}
    (run : decideLeaderFromAnchor ctx st options anchor slot = .ok status) :
    status.slot = slot := by
  obtain ⟨certificates, -, decides⟩ := bind_eq_ok.mp run
  obtain ⟨certified, selected, ret⟩ := bind_eq_ok.mp decides
  obtain ⟨-, same⟩ := ensure_bind_eq_ok.mp ret
  cases same
  exact slot_of_selected keyed selected rfl

lemma decideFromAnchors_slot (keyed : st.CacheKeyed) {leaders : List LeaderStatus}
    (run : decideFromAnchors ctx st options slot leaders = .ok status) :
    status.slot = slot := by
  induction leaders with
  | nil =>
    cases run
    rfl
  | cons leader rest ih =>
    cases leader with
    | commit anchor => exact decideLeaderFromAnchor_slot keyed run
    | skip other => exact ih run
    | undecided other =>
      cases run
      rfl

end Slots

end BaseCommitter

namespace UniversalCommitter

variable {ctx : Context} {election : LeaderElection} {st : DagState} {lastDecided : Slot}
  {waveLength : Nat}

def inCharge (waveLength : Nat) (round : Round) : BaseCommitterOptions :=
  ⟨waveLength, 0, round % waveLength⟩

lemma build_pipelined (waveLength : Nat) :
    build waveLength 1 true =
      (List.range waveLength).map fun offset => ⟨waveLength, 0, offset⟩ := by
  simp [build, map_eq_flatMap]

lemma electing_committers (positive : 0 < waveLength) (round : Round) :
    ((build waveLength 1 true).filter fun options =>
      (BaseCommitter.electLeader options election round).isSome) = [inCharge waveLength round] := by
  have elects : ∀ offset ∈ List.range waveLength,
      (BaseCommitter.electLeader ⟨waveLength, 0, offset⟩ election round).isSome =
        (offset == round % waveLength) := by
    intro offset mem
    rw [Bool.eq_iff_iff, beq_iff_eq]
    exact BaseCommitter.electLeader_isSome_iff (mem_range.mp mem)
  have counted : (List.range waveLength).count (round % waveLength) = 1 :=
    count_eq_one_of_mem nodup_range
      (mem_range.mpr (Nat.mod_lt round positive))
  rw [build_pipelined, List.filter_map]
  simp only [Function.comp_def]
  rw [filter_congr elects, filter_beq, counted]
  rfl

lemma electLeader_inCharge (positive : 0 < waveLength) (round : Round) :
    BaseCommitter.electLeader (inCharge waveLength round) election round =
      some ⟨round, election round 0⟩ := by
  have elects := (@BaseCommitter.electLeader_isSome_iff (inCharge waveLength round) election round
    (Nat.mod_lt round positive)).mpr rfl
  obtain ⟨slot, elected⟩ := isSome_iff_exists.mp elects
  rw [elected, ← (BaseCommitter.electLeader_eq_some.mp elected).2]
  rfl

section Pass

lemma decideSlots_filter (slots : List (Round × BaseCommitterOptions))
    (leaders : List (LeaderStatus × Decision)) :
    decideSlots ctx election st lastDecided slots leaders =
      decideSlots ctx election st lastDecided
        (slots.filter fun entry =>
          (BaseCommitter.electLeader entry.2 election entry.1).isSome) leaders := by
  induction slots generalizing leaders with
  | nil => rfl
  | cons entry rest ih =>
    obtain ⟨round, options⟩ := entry
    rw [filter_cons, decideSlots]
    cases elected : BaseCommitter.electLeader options election round with
    | none => exact ih leaders
    | some slot =>
      simp only [isSome_some, if_true]
      rw [decideSlots, elected]
      simp only [ih]

lemma decideSlots_rounds (positive : 0 < waveLength) (rounds : List Round)
    (leaders : List (LeaderStatus × Decision)) :
    decideSlots ctx election st lastDecided
        (rounds.flatMap fun round =>
          (build waveLength 1 true).reverse.map fun options => (round, options)) leaders =
      decideSlots ctx election st lastDecided
        (rounds.map fun round => (round, inCharge waveLength round)) leaders := by
  have elects : ∀ round, (((build waveLength 1 true).reverse.map fun options =>
      (round, options)).filter fun entry =>
        (BaseCommitter.electLeader entry.2 election entry.1).isSome) =
      [(round, inCharge waveLength round)] := by
    intro round
    rw [List.filter_map]
    simp only [Function.comp_def]
    rw [filter_reverse, electing_committers positive round]
    rfl
  rw [decideSlots_filter, filter_flatMap]
  simp only [elects]
  rw [← map_eq_flatMap]

lemma decideSlots_inCharge (positive : 0 < waveLength) (keyed : st.CacheKeyed)
    {round : Round} (later : lastDecided.round < round)
    {rest : List (Round × BaseCommitterOptions)} {leaders final : List (LeaderStatus × Decision)}
    (run : decideSlots ctx election st lastDecided
      ((round, inCharge waveLength round) :: rest) leaders = .ok final) :
    ∃ status decision, LeaderStatus.slot status = ⟨round, election round 0⟩ ∧
      decideSlots ctx election st lastDecided rest ((status, decision) :: leaders) = .ok final := by
  have fresh : (⟨round, election round 0⟩ : Slot) ≠ lastDecided := by
    rintro rfl
    exact Nat.lt_irrefl _ later
  rw [decideSlots, electLeader_inCharge positive] at run
  simp only [fresh, if_false] at run
  obtain ⟨status, decided, continued⟩ := bind_eq_ok.mp run
  split at continued
  · exact ⟨status, .direct, BaseCommitter.tryDirectDecide_slot keyed decided, continued⟩
  · obtain ⟨other, indirectly, onward⟩ := bind_eq_ok.mp continued
    exact ⟨other, .indirect, BaseCommitter.decideFromAnchors_slot keyed indirectly, onward⟩

lemma decideSlots_slots (positive : 0 < waveLength) (keyed : st.CacheKeyed) {lowest : Round}
    (later : lastDecided.round < lowest) {count : Nat}
    {leaders final : List (LeaderStatus × Decision)}
    (run : decideSlots ctx election st lastDecided ((range' lowest count).reverse.map
      fun round => (round, inCharge waveLength round)) leaders = .ok final) :
    final.map (fun entry => entry.1.slot) =
      (range' lowest count).map (fun round => ⟨round, election round 0⟩) ++
        leaders.map (fun entry => entry.1.slot) := by
  induction count generalizing leaders with
  | zero =>
    cases run
    rfl
  | succ count ih =>
    rw [range'_concat, reverse_concat, map_cons, Nat.one_mul] at run
    obtain ⟨status, decision, about, onward⟩ :=
      decideSlots_inCharge positive keyed (Nat.lt_add_right count later) run
    rw [ih onward, range'_concat, Nat.one_mul]
    simp [about]

end Pass

section Sequence

variable {leaders : List (LeaderStatus × Decision)}

lemma decidedSequence_getElem? {pos : Nat} {decided : DecidedLeader}
    (positive : ∀ entry ∈ leaders, entry.1.round ≠ GENESIS_ROUND)
    (got : (decidedSequence leaders)[pos]? = some decided) :
    ∃ status decision, leaders[pos]? = some (status, decision) ∧
      status.intoDecidedLeader (decision = .direct) = some decided := by
  induction leaders generalizing pos with
  | nil => simp [decidedSequence] at got
  | cons entry rest ih =>
    obtain ⟨status, decision⟩ := entry
    rw [decidedSequence, if_neg (positive (status, decision) (by simp))] at got
    cases first : status.intoDecidedLeader (decision = .direct) with
    | none => simp [first] at got
    | some leader =>
      rw [first] at got
      cases pos with
      | zero =>
        rw [getElem?_cons_zero, some.injEq] at got
        exact ⟨status, decision, rfl, got ▸ first⟩
      | succ pos =>
        rw [getElem?_cons_succ] at got
        obtain ⟨later, rule, here, decides⟩ := ih
          (fun other mem => positive other (by simp [mem])) got
        exact ⟨later, rule, by rw [getElem?_cons_succ, here], decides⟩

end Sequence

/-- Pipelining covers every round once. In every round exactly one committer elects a leader,
and decides it at the end of the wave that starts there. What a node decides are the slots of
consecutive rounds after its last decided slot, up to the second round below its highest. -/
theorem pipelining_covers_rounds (election : LeaderElection) {waveLength : Nat}
    (long : 3 ≤ waveLength) :
    (∀ round, ∃ options,
      ((build waveLength 1 true).filter fun options =>
        (BaseCommitter.electLeader options election round).isSome) = [options] ∧
      BaseCommitter.electLeader options election round = some ⟨round, election round 0⟩ ∧
      BaseCommitter.decisionRound options (BaseCommitter.waveNumber options round) =
        round + waveLength - 1) ∧
    ∀ (ctx : Context) (st : DagState) (lastDecided : Slot) (decided : List DecidedLeader),
      ctx.protocolConfig.mysticetiNumLeadersPerRound = some 1 → st.CacheKeyed →
      tryDecide ctx election st (build waveLength 1 true) lastDecided = .ok decided →
      ∀ (pos : Nat) (leader : DecidedLeader), decided[pos]? = some leader →
        leader.slot = ⟨lastDecided.round + 1 + pos, election (lastDecided.round + 1 + pos) 0⟩ ∧
        leader.slot.round + 2 ≤ st.highestAcceptedRound := by
  have positive : 0 < waveLength := by lia
  constructor
  · intro round
    have elects := @electLeader_inCharge election waveLength positive round
    exact ⟨inCharge waveLength round, electing_committers positive round, elects,
      BaseCommitter.decisionRound_of_elected positive elects⟩
  · intro ctx st lastDecided decided oneLeader keyed run pos leader here
    have first : firstRound ctx lastDecided = lastDecided.round + 1 := by
      simp only [firstRound, oneLeader]
    obtain ⟨final, passed, ret⟩ := bind_eq_ok.mp run
    cases ret
    rw [decideSlots_rounds positive, roundsToDecide, first] at passed
    have slots := decideSlots_slots positive keyed (Nat.lt_succ_self _) passed
    rw [map_nil, append_nil] at slots
    have above : ∀ entry ∈ final, entry.1.round ≠ GENESIS_ROUND := by
      intro entry mem
      have inside : entry.1.slot ∈ final.map fun entry => entry.1.slot := List.mem_map_of_mem mem
      rw [slots] at inside
      obtain ⟨round, ranged, same⟩ := List.mem_map.mp inside
      rw [LeaderStatus.round_eq, ← same]
      exact Nat.ne_of_gt (Nat.lt_of_lt_of_le (Nat.succ_pos _) (mem_range'_1.mp ranged).1)
    obtain ⟨status, decision, got, into⟩ := decidedSequence_getElem? above here
    have about : (final.map fun entry => entry.1.slot)[pos]? = some status.slot := by
      rw [getElem?_map, got]
      rfl
    rw [slots, getElem?_map, map_eq_some_iff] at about
    obtain ⟨round, ranged, same⟩ := about
    obtain ⟨short, rfl⟩ := List.getElem?_eq_some_iff.mp ranged
    rw [length_range'] at short
    rw [LeaderStatus.slot_of_decided into, ← same]
    simp only [getElem_range', Nat.one_mul, true_and]
    lia

theorem pipelining_covers_first_round :
    ∃ leader, tryDecide (Context.newForTest 0) (fun round _ => round % 4)
        (DagState.testState 0 DagState.threeRounds) (build 3 1 true) ⟨0, 0⟩ = .ok [leader] ∧
      leader.slot = ⟨1, 1⟩ := by
  have decided : tryDecide (Context.newForTest 0) (fun round _ => round % 4)
      (DagState.testState 0 DagState.threeRounds) (build 3 1 true) ⟨0, 0⟩ =
        .ok [.commit (testBlock 1 1 [1, 0, 2]) true] := by
    decide +kernel
  have keyed : (DagState.testState 0 DagState.threeRounds).CacheKeyed :=
    (DagState.testState_wellFormed (by decide +kernel)).cacheKeyed
  have covered := (pipelining_covers_rounds (fun round _ => round % 4) (Nat.le_refl 3)).2
    (Context.newForTest 0) (DagState.testState 0 DagState.threeRounds) ⟨0, 0⟩ _ rfl keyed decided
  exact ⟨_, decided, (covered 0 _ rfl).1⟩

end UniversalCommitter

end Mysticeti
