import Mysticeti.CommitEvidence

/-!
# Support along an author's own chain

The search for the block of a slot that a block supports goes through the ancestors in
order, and a verified block lists its own author's previous block first. So whatever a
block supports, the later blocks of its author's chain support too: the search of a later
block descends along the chain before it looks at any other ancestor.
-/

namespace Mysticeti

open Lib.Outcome DagState

namespace DagState

/-- The earlier block is reached from the later one by following first ancestors. -/
inductive OwnChain (ctx : Context) (st : DagState) :
    VerifiedBlock → VerifiedBlock → Prop
  | refl (blk : VerifiedBlock) : OwnChain ctx st blk blk
  | next {later parent prev : VerifiedBlock} {first : BlockRef} {rest : List BlockRef} :
      later.ancestors = first :: rest → st.getBlock ctx first = some parent →
        OwnChain ctx st parent prev → OwnChain ctx st later prev

end DagState

namespace BaseCommitter

variable {ctx : Context} {st : DagState} {slot : Slot}

section Search

variable {descend : VerifiedBlock → Except Panic (Option BlockRef)} {ancestors : List BlockRef}

lemma supportedAmong_some {support : BlockRef}
    (got : supportedAmong ctx st descend slot ancestors = .ok (some support)) :
    ∃ anc ∈ ancestors, slot.round ≤ anc.round := by
  induction ancestors with
  | nil => cases got
  | cons anc rest ih =>
    rw [supportedAmong] at got
    split at got
    · rename_i inSlot
      exact ⟨anc, by simp, Nat.le_of_eq (congrArg Slot.round inSlot).symm⟩
    · split at got
      · obtain ⟨other, mem, high⟩ := ih got
        exact ⟨other, by simp [mem], high⟩
      · rename_i above
        exact ⟨anc, by simp, Nat.le_of_not_le above⟩

lemma supportedAmong_mono {deeper : VerifiedBlock → Except Panic (Option BlockRef)}
    (kept : ∀ anc ∈ ancestors, ∀ blk, st.getBlock ctx anc = some blk →
      ∀ answer, descend blk = .ok answer → deeper blk = .ok answer)
    {answer : Option BlockRef}
    (got : supportedAmong ctx st descend slot ancestors = .ok answer) :
    supportedAmong ctx st deeper slot ancestors = .ok answer := by
  induction ancestors with
  | nil => exact got
  | cons anc rest ih =>
    have keptRest := ih fun other mem => kept other (by simp [mem])
    rw [supportedAmong] at got ⊢
    split at got
    · rename_i inSlot
      rw [if_pos inSlot]
      exact got
    · rename_i outside
      rw [if_neg outside]
      split at got
      · rename_i low
        rw [if_pos low]
        exact keptRest got
      · rename_i above
        rw [if_neg above]
        obtain ⟨blk, looked, descends⟩ := expect_bind_eq_ok.mp got
        obtain ⟨inner, descended, continued⟩ := bind_eq_ok.mp descends
        rw [looked, expect_some, ok_bind, kept anc (by simp) blk looked inner descended, ok_bind]
        cases inner with
        | some support => exact continued
        | none => exact keptRest continued

end Search

lemma findSupportedBlock_enough (verified : st.Verified ctx) {fuel more : Nat}
    {blk : VerifiedBlock} (held : st.Holds ctx blk) (enough : blk.round < more)
    {answer : Option BlockRef}
    (got : findSupportedBlock ctx st slot fuel blk = .ok answer) :
    findSupportedBlock ctx st slot more blk = .ok answer := by
  induction fuel generalizing more blk answer with
  | zero => cases got
  | succ fuel ih =>
    obtain ⟨more, rfl⟩ := Nat.exists_eq_add_of_lt (Nat.zero_lt_of_lt enough)
    rw [Nat.zero_add, findSupportedBlock]
    rw [findSupportedBlock] at got
    split at got
    · rename_i early
      rw [if_pos early]
      exact got
    · rename_i final
      rw [if_neg final]
      apply supportedAmong_mono _ got
      intro anc mem other looked inner descended
      have level : other.round = anc.round :=
        congrArg BlockRef.round (verified.keyed anc other looked)
      have lower : anc.round < blk.round := (verified.ancestors_below held).1 anc mem
      apply ih (verified.holds looked) _ descended
      lia

lemma round_lt_of_supports (verified : st.Verified ctx) {fuel : Nat}
    {blk : VerifiedBlock} (held : st.Holds ctx blk) {support : BlockRef}
    (got : findSupportedBlock ctx st slot fuel blk = .ok (some support)) :
    slot.round < blk.round := by
  cases fuel with
  | zero => cases got
  | succ fuel =>
    rw [findSupportedBlock] at got
    split at got
    · cases got
    · obtain ⟨anc, mem, high⟩ := supportedAmong_some got
      exact Nat.lt_of_le_of_lt high ((verified.ancestors_below held).1 anc mem)

lemma supports_of_first (verified : st.Verified ctx) {later parent : VerifiedBlock}
    (held : st.Holds ctx later) {first : BlockRef} {rest : List BlockRef}
    (ancestors : later.ancestors = first :: rest)
    (looked : st.getBlock ctx first = some parent) {fuel : Nat} {support : BlockRef}
    (got : findSupportedBlock ctx st slot fuel parent = .ok (some support)) :
    findSupportedBlock ctx st slot (later.round + 1) later = .ok (some support) := by
  have level : parent.round = first.round :=
    congrArg BlockRef.round (verified.keyed first parent looked)
  have lower : first.round < later.round :=
    (verified.ancestors_below held).1 first (by simp [ancestors])
  have above := round_lt_of_supports verified (verified.holds looked) got
  have outside : first.slot ≠ slot := by
    intro inSlot
    have same : first.round = slot.round := congrArg Slot.round inSlot
    lia
  have descended : findSupportedBlock ctx st slot later.round parent = .ok (some support) :=
    findSupportedBlock_enough verified (verified.holds looked) (by lia) got
  rw [findSupportedBlock, if_neg (by lia), ancestors, supportedAmong, if_neg outside,
    if_neg (by lia), looked, expect_some, ok_bind, descended, ok_bind]

/-- Support is stable along an author's own chain: if a later block reaches an earlier one by
following first ancestors and the earlier one supports a block of a slot, so does the later
one. -/
theorem support_stable_along_chain (verified : st.Verified ctx)
    {later prev : VerifiedBlock} (held : st.Holds ctx later)
    (chain : OwnChain ctx st later prev) {fuel : Nat} {support : BlockRef}
    (got : findSupportedBlock ctx st slot fuel prev = .ok (some support)) :
    findSupportedBlock ctx st slot (later.round + 1) later = .ok (some support) := by
  induction chain generalizing fuel with
  | refl blk => exact findSupportedBlock_enough verified held (Nat.lt_succ_self _) got
  | next ancestors looked _ ih =>
    exact supports_of_first verified held ancestors looked
      (ih (verified.holds looked) got)

theorem support_stable_third_round :
    findSupportedBlock (Context.newForTest 0) (testState 0 threeRounds) ⟨1, 1⟩ 4
      (testBlock 3 0 [0, 1, 2]) = .ok (some (testRef 1 1)) := by
  have unwritten : (testState 0 threeRounds).store.blocks.toList = [] := by decide +kernel
  have empty : ∀ (ref : BlockRef) (blk : VerifiedBlock),
      (testState 0 threeRounds).store.blocks[ref]? ≠ some blk := by
    intro ref blk stored
    rw [← Std.ExtTreeMap.mem_toList_iff_getElem?_eq_some, unwritten] at stored
    exact absurd stored List.not_mem_nil
  have verified : (testState 0 threeRounds).Verified (Context.newForTest 0) :=
    (testState_wellFormed (by decide +kernel)).verified
      (fun ref blk stored => absurd stored (empty ref blk))
      (fun ref blk stored => absurd stored (empty ref blk))
  have held : (testState 0 threeRounds).getBlock (Context.newForTest 0) (testRef 3 0) =
      some (testBlock 3 0 [0, 1, 2]) := by decide +kernel
  have chain : OwnChain (Context.newForTest 0) (testState 0 threeRounds)
      (testBlock 3 0 [0, 1, 2]) (testBlock 2 0 [0, 1, 2]) :=
    .next rfl (by decide +kernel) (.refl _)
  exact support_stable_along_chain verified (verified.holds held) chain
    (show findSupportedBlock _ _ ⟨1, 1⟩ 3 _ = .ok (some (testRef 1 1)) by decide +kernel)

end BaseCommitter

end Mysticeti
