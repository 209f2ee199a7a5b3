import Mysticeti.Lib.Quorum
import Mysticeti.Types

/-!
# The committee and its stake thresholds

A committee is a nonempty list of authorities with positive total stake. With
total stake `n` it tolerates `f = (n - 1) / 3` faulty stake, a quorum is `n - f`
and validity is `f + 1`. The quorum threshold intersects: two quorums share more
than `f` stake.

The stake aggregator counts an authority at most once and reports whether the
quorum threshold has been reached. `Counts` says which set an aggregator stands
for; every caller reasons about that set and never about the aggregator's fields.
-/

namespace Mysticeti

open List Option Lib.Quorum

/-- One authority: its voting power, where it is reached, and its public keys. The protocol
key verifies its blocks, its proposals and its votes. -/
structure Authority where
  stake : Stake
  address : Multiaddr
  hostname : String
  authorityKey : Bytes
  protocolKey : Bytes
  networkKey : Bytes
deriving DecidableEq, Repr, Inhabited

/-- The authorities of one epoch. Construction refuses an empty list, more than
the representable number of authorities, and zero total stake. -/
structure Committee where
  epoch : Epoch
  authorities : List Authority
  nonempty : authorities ≠ []
  representable : authorities.length < 2 ^ 32 - 1
  staked : (authorities.map Authority.stake).sum ≠ 0

namespace Committee

/-- The constructor panics where a committee would not be one. -/
def new (epoch : Epoch) (auths : List Authority) : Option Committee :=
  if allowed : auths ≠ [] ∧ auths.length < 2 ^ 32 - 1 ∧
      (auths.map Authority.stake).sum ≠ 0 then
    some ⟨epoch, auths, allowed.1, allowed.2.1, allowed.2.2⟩
  else none

lemma authorities_of_new {epoch : Epoch} {auths : List Authority} {comm : Committee}
    (built : new epoch auths = some comm) : comm.authorities = auths := by
  unfold new at built
  split at built
  · exact some.inj built ▸ rfl
  · cases built

variable (comm : Committee)

def totalStake : Stake := (comm.authorities.map Authority.stake).sum

def faultTolerance : Stake := (comm.totalStake - 1) / 3

def quorumThreshold : Stake := comm.totalStake - comm.faultTolerance

def validityThreshold : Stake := comm.faultTolerance + 1

def size : Nat := comm.authorities.length

def isValidIndex (idx : AuthorityIndex) : Bool := decide (idx < comm.size)

def stake (comm : Committee) (idx : AuthorityIndex) : Stake :=
  (comm.authorities[idx]?.map Authority.stake).getD 0

def reachedQuorum (amount : Stake) : Bool := decide (comm.quorumThreshold ≤ amount)

def reachedValidity (amount : Stake) : Bool := decide (comm.validityThreshold ≤ amount)

def indices : List AuthorityIndex := List.range comm.size

def everyone : Finset AuthorityIndex := Finset.range comm.size

lemma totalStake_pos : 0 < comm.totalStake := Nat.pos_of_ne_zero comm.staked

lemma size_pos : 0 < comm.size := length_pos_iff.mpr comm.nonempty

lemma quorumThreshold_pos : 0 < comm.quorumThreshold := by
  have pos := comm.totalStake_pos
  unfold quorumThreshold faultTolerance
  lia

/-- Two quorums exceed the total stake by more than the tolerated faults. This is
the assertion the constructor makes about its own arithmetic. -/
lemma quorum_intersects :
    comm.totalStake + comm.faultTolerance < 2 * comm.quorumThreshold := by
  have pos := comm.totalStake_pos
  unfold quorumThreshold faultTolerance
  lia

lemma weigh_everyone : weigh comm.stake comm.everyone = comm.totalStake := by
  have lookup : ∀ auths : List Authority,
      (∑ idx ∈ Finset.range auths.length,
        (auths[idx]?.map Authority.stake).getD 0) =
        (auths.map Authority.stake).sum := by
    intro auths
    induction auths with
    | nil => rfl
    | cons auth rest ih =>
      rw [length_cons, Finset.sum_range_succ']
      simp only [getElem?_cons_succ, ih, getElem?_cons_zero,
        map_some, getD_some, map_cons, sum_cons]
      exact Nat.add_comm _ _
  exact lookup comm.authorities

lemma quorums_share_correct
    {faulty left right : Finset AuthorityIndex} (leftInside : left ⊆ comm.everyone)
    (rightInside : right ⊆ comm.everyone)
    (leftReaches : comm.quorumThreshold ≤ weigh comm.stake left)
    (rightReaches : comm.quorumThreshold ≤ weigh comm.stake right)
    (tolerated : weigh comm.stake faulty ≤ comm.faultTolerance) :
    ∃ auth, auth ∈ left ∧ auth ∈ right ∧ auth ∉ faulty := by
  refine exists_common_correct leftInside rightInside leftReaches rightReaches ?_
  have intersects := comm.quorum_intersects
  rw [comm.weigh_everyone]
  lia

end Committee

structure StakeAggregator where
  votes : Std.ExtTreeSet AuthorityIndex
  stake : Stake

namespace StakeAggregator

def new : StakeAggregator := ⟨∅, 0⟩

/-- Count a vote, once for each authority, and report whether the threshold is
reached. -/
def add (agg : StakeAggregator) (vote : AuthorityIndex) (comm : Committee) :
    StakeAggregator × Bool :=
  let counted :=
    if agg.votes.contains vote then agg
    else ⟨agg.votes.insert vote, agg.stake + comm.stake vote⟩
  (counted, comm.reachedQuorum counted.stake)

structure Counts (comm : Committee) (agg : StakeAggregator)
    (voters : Finset AuthorityIndex) : Prop where
  members : ∀ auth, auth ∈ agg.votes ↔ auth ∈ voters
  total : agg.stake = weigh comm.stake voters

lemma new_counts (comm : Committee) : Counts comm new ∅ where
  members := by simp [new]
  total := by simp [new, weigh]

lemma add_counts {comm : Committee} {agg : StakeAggregator}
    {voters : Finset AuthorityIndex} (counts : Counts comm agg voters)
    (vote : AuthorityIndex) :
    Counts comm (agg.add vote comm).1 (insert vote voters) ∧
      ((agg.add vote comm).2 = true ↔
        comm.quorumThreshold ≤ weigh comm.stake (insert vote voters)) := by
  by_cases known : vote ∈ voters
  · have stored : agg.votes.contains vote = true := (counts.members vote).mpr known
    have same : insert vote voters = voters := Finset.insert_eq_of_mem known
    simp only [add, stored, if_true, same, Committee.reachedQuorum, decide_eq_true_eq,
      ← counts.total, and_true]
    exact counts
  · have fresh : agg.votes.contains vote = false :=
      Bool.eq_false_of_not_eq_true fun stored => known ((counts.members vote).mp stored)
    have extended : agg.stake + comm.stake vote =
        weigh comm.stake (insert vote voters) := by
      rw [weigh_insert_of_notMem known, counts.total]
    simp only [add, fresh, Bool.false_eq_true, if_false, Committee.reachedQuorum,
      decide_eq_true_eq, extended, and_true]
    refine ⟨?_, rfl⟩
    intro auth
    rw [Std.ExtTreeSet.mem_insert, Std.LawfulEqCmp.compare_eq_iff_eq, counts.members auth,
      Finset.mem_insert, eq_comm]

def reaches (comm : Committee) : StakeAggregator → List AuthorityIndex → Bool
  | _, [] => false
  | agg, vote :: rest =>
    if (agg.add vote comm).2 then true
    else reaches comm (agg.add vote comm).1 rest

lemma reaches_iff {comm : Committee} {agg : StakeAggregator}
    {voters : Finset AuthorityIndex} (counts : Counts comm agg voters)
    (below : weigh comm.stake voters < comm.quorumThreshold)
    (votes : List AuthorityIndex) :
    reaches comm agg votes = true ↔
      comm.quorumThreshold ≤ weigh comm.stake (voters ∪ votes.toFinset) := by
  induction votes generalizing agg voters with
  | nil => simpa [reaches] using below
  | cons vote rest ih =>
    obtain ⟨counted, answer⟩ := add_counts counts vote
    have union : voters ∪ (vote :: rest).toFinset = insert vote voters ∪ rest.toFinset := by
      rw [toFinset_cons, Finset.union_insert, Finset.insert_union]
    rw [reaches, union]
    by_cases final : (agg.add vote comm).2 = true
    · rw [if_pos final]
      exact iff_of_true rfl ((answer.mp final).trans (weigh_mono Finset.subset_union_left))
    · rw [if_neg final]
      exact ih counted (Nat.lt_of_not_le fun quorum => final (answer.mpr quorum))

lemma reaches_new_iff (comm : Committee) (votes : List AuthorityIndex) :
    reaches comm new votes = true ↔
      comm.quorumThreshold ≤ weigh comm.stake votes.toFinset := by
  have start := reaches_iff (new_counts comm)
    (Nat.lt_of_le_of_lt (Nat.le_of_eq (by simp [weigh])) comm.quorumThreshold_pos) votes
  rwa [Finset.empty_union] at start

end StakeAggregator

end Mysticeti
