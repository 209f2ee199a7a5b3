import Mysticeti.LeaderSchedule
import Mysticeti.Lib.Ends

/-!
# Which leaders are swapped

The authorities are ranked by score, those of equal score in shuffled order. The good nodes are
a front of the ranking and the bad nodes a back of it, each cut off before its stake passes the
limit. Without overflow each of them has at most a third of the stake, so they do not meet and
their scores are extreme.

The front is empty when its first authority alone has more stake than the limit, and so is the
back. So there can be bad nodes without good ones, and then the election of a bad leader finds
no node to swap it for.
-/

namespace Mysticeti

open List Lib.Outcome Lib.OrderedMap Lib.Word Lib.Ends Lib.Quorum

namespace LeaderSwapTable

variable {ctx : Context} {limit : Nat}
  {shuffle : CommitIndex → List (AuthorityIndex × Nat) → List (AuthorityIndex × Nat)}
  {idx : AuthorityIndex}

def good (table : LeaderSwapTable) : Finset AuthorityIndex :=
  (table.goodNodes.map Prod.fst).toFinset

def bad (table : LeaderSwapTable) : Finset AuthorityIndex := table.badNodes.keys.toFinset

lemma mem_good {table : LeaderSwapTable} :
    idx ∈ table.good ↔ ∃ node ∈ table.goodNodes, node.1 = idx := by
  rw [good, List.mem_toFinset, List.mem_map]

lemma mem_bad {table : LeaderSwapTable} : idx ∈ table.bad ↔ idx ∈ table.badNodes := by
  rw [bad, List.mem_toFinset, Std.ExtTreeMap.mem_keys]

section FirstNodes

variable {stake : Stake} {auths : List (AuthorityIndex × Nat)}
  {nodes : List (AuthorityIndex × String × Stake)}

lemma stake_of_found {auth : Authority}
    (got : ctx.committee.authorities[idx]? = some auth) :
    ctx.committee.stake idx = auth.stake := by
  rw [Committee.stake, got]
  rfl

lemma retrieveFirstNodes_cons (inside : idx < ctx.committee.size) (stake : Stake)
    (score : Nat) (rest : List (AuthorityIndex × Nat)) :
    ∃ hostname, retrieveFirstNodes ctx limit stake ((idx, score) :: rest) =
      if stakeLimit ctx.committee limit < wrap 64 (stake + ctx.committee.stake idx) then .ok []
      else retrieveFirstNodes ctx limit
          (wrap 64 (stake + ctx.committee.stake idx)) rest >>= fun others =>
        .ok ((idx, hostname, ctx.committee.stake idx) :: others) := by
  have got : ctx.committee.authorities[idx]? =
      some (ctx.committee.authorities.get ⟨idx, inside⟩) := getElem?_eq_getElem inside
  refine ⟨(ctx.committee.authorities.get ⟨idx, inside⟩).hostname, ?_⟩
  rw [retrieveFirstNodes, got, expect_some, ok_bind, stake_of_found got]
  rfl

lemma retrieveFirstNodes_returns
    (inside : ∀ entry ∈ auths, entry.1 < ctx.committee.size) (stake : Stake) :
    ∃ taken nodes, retrieveFirstNodes ctx limit stake auths = .ok nodes ∧
      taken <+: auths ∧ nodes.map Prod.fst = taken.map Prod.fst := by
  induction auths generalizing stake with
  | nil => exact ⟨[], [], rfl, ⟨[], rfl⟩, rfl⟩
  | cons entry rest ih =>
    obtain ⟨idx, score⟩ := entry
    obtain ⟨hostname, step⟩ := @retrieveFirstNodes_cons ctx limit idx
      (inside (idx, score) mem_cons_self) stake score rest
    rw [step]
    split
    · exact ⟨[], [], rfl, ⟨(idx, score) :: rest, rfl⟩, rfl⟩
    · obtain ⟨taken, nodes, run, ⟨behind, rfl⟩, same⟩ := ih
        (fun other mem => inside other (mem_cons_of_mem _ mem))
        (wrap 64 (stake + ctx.committee.stake idx))
      refine ⟨(idx, score) :: taken, (idx, hostname, ctx.committee.stake idx) :: nodes,
        ?_, ⟨behind, rfl⟩, ?_⟩
      · rw [run]
        rfl
      · rw [map_cons, map_cons, same]

lemma retrieveFirstNodes_eq_nil_iff {score : Nat} (inside : idx < ctx.committee.size)
    (run : retrieveFirstNodes ctx limit 0 ((idx, score) :: auths) = .ok nodes) :
    nodes = [] ↔ stakeLimit ctx.committee limit < wrap 64 (ctx.committee.stake idx) := by
  obtain ⟨hostname, step⟩ := @retrieveFirstNodes_cons ctx limit idx inside 0 score
    auths
  rw [step, Nat.zero_add] at run
  split at run
  · rename_i passed
    cases run
    exact iff_of_true rfl passed
  · rename_i kept
    obtain ⟨others, -, same⟩ := bind_eq_ok.mp run
    cases same
    exact iff_of_false (cons_ne_nil _ _) kept

lemma retrieveFirstNodes_limited
    (inside : ∀ entry ∈ auths, entry.1 < ctx.committee.size)
    (fits : stake + (auths.map fun entry => ctx.committee.stake entry.1).sum < 2 ^ 64)
    (below : stake ≤ stakeLimit ctx.committee limit)
    (run : retrieveFirstNodes ctx limit stake auths = .ok nodes) :
    stake + (nodes.map fun node => ctx.committee.stake node.1).sum ≤
      stakeLimit ctx.committee limit := by
  induction auths generalizing stake nodes with
  | nil =>
    cases run
    exact below
  | cons entry rest ih =>
    obtain ⟨idx, score⟩ := entry
    obtain ⟨hostname, step⟩ := @retrieveFirstNodes_cons ctx limit idx
      (inside (idx, score) mem_cons_self) stake score rest
    rw [map_cons, sum_cons, ← Nat.add_assoc] at fits
    rw [step, wrap_of_lt (Nat.lt_of_le_of_lt (Nat.le_add_right _ _) fits)] at run
    split at run
    · cases run
      exact below
    · rename_i kept
      obtain ⟨others, onward, same⟩ := bind_eq_ok.mp run
      cases same
      have limited := ih
        (fun other mem => inside other (mem_cons_of_mem _ mem)) fits
        (Nat.le_of_not_lt kept) onward
      rw [map_cons, sum_cons, ← Nat.add_assoc]
      exact limited

end FirstNodes

section Ranking

/-- The authorities by score, the highest first. -/
def ranking (shuffle : CommitIndex → List (AuthorityIndex × Nat) → List (AuthorityIndex × Nat))
    (commitIndex : CommitIndex) (scores : ReputationScores) : List (AuthorityIndex × Nat) :=
  (shuffle commitIndex (scores.scoresPerAuthority.zipIdx.map Prod.swap)).insertionSort
    fun left right => right.2 ≤ left.2

/-- For every seed a permutation. -/
def IsShuffle
    (shuffle : CommitIndex → List (AuthorityIndex × Nat) → List (AuthorityIndex × Nat)) : Prop :=
  ∀ commitIndex auths, (shuffle commitIndex auths).Perm auths

/-- The committee with its scores, from the highest down. -/
structure Ranks (ctx : Context) (scores : ReputationScores)
    (ranked : List (AuthorityIndex × Nat)) : Prop where
  everyone : (ranked.map Prod.fst).Perm ctx.committee.indices
  scored : ∀ entry ∈ ranked, scores.scoresPerAuthority[entry.1]? = some entry.2
  descending : ranked.Pairwise fun left right => right.2 ≤ left.2

variable {scores : ReputationScores} {commitIndex : CommitIndex}
  {ranked : List (AuthorityIndex × Nat)}

lemma ranking_perm (shuffled : IsShuffle shuffle) :
    (ranking shuffle commitIndex scores).Perm (scores.scoresPerAuthority.zipIdx.map Prod.swap) :=
  (perm_insertionSort _ _).trans (shuffled commitIndex _)

lemma ranking_ranks (shuffled : IsShuffle shuffle)
    (sized : scores.scoresPerAuthority.length = ctx.committee.size) :
    Ranks ctx scores (ranking shuffle commitIndex scores) where
  everyone := by
    have indices : (scores.scoresPerAuthority.zipIdx.map Prod.swap).map Prod.fst =
        ctx.committee.indices := by
      rw [List.map_map, Committee.indices, ← sized, range_eq_range']
      exact zipIdx_map_snd 0 _
    exact indices ▸ (ranking_perm shuffled).map Prod.fst
  scored entry mem := by
    obtain ⟨pair, listed, rfl⟩ := List.mem_map.mp ((ranking_perm shuffled).mem_iff.mp mem)
    exact mk_mem_zipIdx_iff_getElem?.mp listed
  descending := pairwise_insertionSort _ _

namespace Ranks

variable (ranks : Ranks ctx scores ranked)

include ranks

lemma distinct : (ranked.map Prod.fst).Nodup := ranks.everyone.nodup_iff.mpr nodup_range

lemma inside {entry : AuthorityIndex × Nat} (mem : entry ∈ ranked) :
    entry.1 < ctx.committee.size :=
  mem_range.mp (ranks.everyone.mem_iff.mp (List.mem_map_of_mem mem))

lemma listed (inside : idx < ctx.committee.size) : ∃ score, (idx, score) ∈ ranked := by
  obtain ⟨⟨other, score⟩, mem, rfl⟩ :=
    List.mem_map.mp (ranks.everyone.mem_iff.mpr (mem_range.mpr inside))
  exact ⟨score, mem⟩

lemma total :
    (ranked.map fun entry => ctx.committee.stake entry.1).sum = ctx.committee.totalStake := by
  have weighed : (ranked.map Prod.fst).toFinset = ctx.committee.everyone := by
    ext idx
    rw [List.mem_toFinset, ranks.everyone.mem_iff, Committee.indices, mem_range,
      Committee.everyone, Finset.mem_range]
  rw [← Committee.weigh_everyone, ← weighed, weigh, sum_toFinset _ ranks.distinct, List.map_map]
  rfl

lemma ne_nil : ranked ≠ [] := by
  rintro rfl
  have sized := ranks.everyone.length_eq
  rw [Committee.indices, length_range] at sized
  exact Nat.ne_of_lt ctx.committee.size_pos sized

end Ranks

lemma mem_collected {nodes : List (AuthorityIndex × String × Stake)}
    {collected : Std.ExtTreeMap AuthorityIndex (String × Stake)} :
    idx ∈ nodes.foldl (fun collected node => collected.insert node.1 node.2) collected ↔
      idx ∈ nodes.map Prod.fst ∨ idx ∈ collected := by
  induction nodes generalizing collected with
  | nil => simp
  | cons node rest ih =>
    rw [foldl_cons, ih, mem_insertKey_iff, map_cons, mem_cons, or_left_comm, or_assoc]

/-- The nodes of a table are those of a front and of a back of the ranking. -/
structure Cut (ctx : Context) (limit : Nat) (ranked : List (AuthorityIndex × Nat))
    (table : LeaderSwapTable) (front back : List (AuthorityIndex × Nat))
    (badNodes : List (AuthorityIndex × String × Stake)) : Prop where
  goodRun : retrieveFirstNodes ctx limit 0 ranked = .ok table.goodNodes
  badRun : retrieveFirstNodes ctx limit 0 ranked.reverse = .ok badNodes
  begins : front <+: ranked
  ends : back <:+ ranked
  inFront : table.goodNodes.map Prod.fst = front.map Prod.fst
  inBack : badNodes.map Prod.fst = back.reverse.map Prod.fst
  stored : ∀ idx, idx ∈ table.badNodes ↔ idx ∈ badNodes.map Prod.fst

lemma new_cut (shuffled : IsShuffle shuffle) (small : limit ≤ 33)
    (sized : scores.scoresPerAuthority.length = ctx.committee.size) :
    ∃ table front back badNodes, new ctx shuffle limit commitIndex scores = .ok table ∧
      Cut ctx limit (ranking shuffle commitIndex scores) table front back badNodes := by
  have ranks := @ranking_ranks ctx shuffle scores commitIndex shuffled sized
  obtain ⟨front, goodNodes, goodRun, begins, goodFront⟩ :=
    @retrieveFirstNodes_returns ctx limit (ranking shuffle commitIndex scores)
      (fun entry mem => ranks.inside mem) 0
  obtain ⟨tail, badNodes, badRun, ends, badBack⟩ :=
    @retrieveFirstNodes_returns ctx limit (ranking shuffle commitIndex scores).reverse
      (fun entry mem => ranks.inside (mem_reverse.mp mem)) 0
  have nonempty : scores.scoresPerAuthority ≠ [] := by
    intro empty
    rw [empty] at sized
    exact Nat.ne_of_lt ctx.committee.size_pos sized
  have byScore : scores.authoritiesByScore ctx =
      .ok (scores.scoresPerAuthority.zipIdx.map Prod.swap) := by
    apply mapM_ok
    intro entry mem
    have valid : entry.2 < ctx.committee.size := by
      have bound := (mem_zipIdx mem).2.1
      lia
    rw [ensure_holds _ valid]
    rfl
  have length : (scores.scoresPerAuthority.zipIdx.map Prod.swap).length = ctx.committee.size := by
    rw [length_map, length_zipIdx, sized]
  let table : LeaderSwapTable :=
    { goodNodes
      badNodes := badNodes.foldl (fun nodes node => nodes.insert node.1 node.2) ∅
      reputationScoresDesc := ranking shuffle commitIndex scores
      reputationScores := scores }
  refine ⟨table, front, tail.reverse, badNodes, ?_, goodRun, badRun, begins, ?_, goodFront, ?_, ?_⟩
  · rw [new, ensure_holds _ small, ok_bind, if_neg (by simpa using nonempty), byScore, ok_bind,
      ensure_holds _ length, ok_bind]
    change (retrieveFirstNodes ctx limit 0 (ranking shuffle commitIndex scores) >>= fun _ =>
      retrieveFirstNodes ctx limit 0 (ranking shuffle commitIndex scores).reverse >>= _) = _
    rw [goodRun, ok_bind, badRun]
    rfl
  · obtain ⟨ahead, same⟩ := ends
    exact ⟨ahead.reverse, by rw [← reverse_append, same, reverse_reverse]⟩
  · rw [reverse_reverse, badBack]
  · intro idx
    exact mem_collected.trans (or_iff_left (by simp))

namespace Cut

variable {table : LeaderSwapTable} {front back : List (AuthorityIndex × Nat)}
  {badNodes : List (AuthorityIndex × String × Stake)}

lemma mem_good_iff (cut : Cut ctx limit ranked table front back badNodes) :
    idx ∈ table.good ↔ idx ∈ front.map Prod.fst := by
  rw [good, List.mem_toFinset, cut.inFront]

lemma mem_bad_iff (cut : Cut ctx limit ranked table front back badNodes) :
    idx ∈ table.bad ↔ idx ∈ back.map Prod.fst := by
  rw [mem_bad, cut.stored, cut.inBack, map_reverse, mem_reverse]

end Cut

end Ranking

section Election

variable {scores : ReputationScores} {commitIndex : CommitIndex}
  {ranked : List (AuthorityIndex × Nat)} {table : LeaderSwapTable}
  {front back : List (AuthorityIndex × Nat)} {badNodes : List (AuthorityIndex × String × Stake)}

/-- The stake of the authority alone does not pass the limit. -/
def Admits (ctx : Context) (limit : Nat) (idx : AuthorityIndex) : Prop :=
  wrap 64 (ctx.committee.stake idx) ≤ stakeLimit ctx.committee limit
deriving Decidable

lemma Cut.ends_empty_iff (cut : Cut ctx limit ranked table front back badNodes)
    (ranks : Ranks ctx scores ranked) {first last : AuthorityIndex × Nat}
    (isFirst : ranked.head? = some first) (isLast : ranked.getLast? = some last) :
    (table.goodNodes = [] ↔ ¬ Admits ctx limit first.1) ∧
      (table.bad = ∅ ↔ ¬ Admits ctx limit last.1) := by
  constructor
  · obtain ⟨rest, rfl⟩ : ∃ rest, ranked = first :: rest := head?_eq_some_iff.mp isFirst
    rw [retrieveFirstNodes_eq_nil_iff (ranks.inside mem_cons_self) cut.goodRun, Admits, Nat.not_le]
  · have emptied : table.bad = ∅ ↔ badNodes = [] := by
      rw [Finset.eq_empty_iff_forall_notMem]
      simp only [mem_bad, cut.stored]
      rw [← eq_nil_iff_forall_not_mem, map_eq_nil_iff]
    have isHead : ranked.reverse.head? = some last := by rw [head?_reverse, isLast]
    obtain ⟨rest, reversed⟩ := head?_eq_some_iff.mp isHead
    have badRun := cut.badRun
    rw [reversed] at badRun
    rw [emptied, retrieveFirstNodes_eq_nil_iff (ranks.inside (mem_of_getLast? isLast)) badRun,
      Admits, Nat.not_le]

lemma swap_fails_iff {choose : Round → Nat → Nat → Nat} {leader : AuthorityIndex}
    {round : Round} : table.swap choose leader round 0 = .error .noGoodNode ↔
      leader ∈ table.bad ∧ table.goodNodes = [] := by
  rw [mem_bad, swap]
  split
  · rename_i isBad
    rw [ensure_holds _ rfl, ok_bind]
    cases nodes : table.goodNodes with
    | nil => simpa [expect] using isBad
    | cons node rest =>
      have pos : choose round 0 (node :: rest).length % (node :: rest).length <
          (node :: rest).length := Nat.mod_lt _ (Nat.succ_pos _)
      dsimp only
      rw [getElem?_eq_getElem pos]
      simp [expect]
  · rename_i isGood
    simp [isGood]

/-- A table has good nodes whenever it has bad ones, and a swap with leader offset zero never
fails, exactly when the first authority of the ranking is admitted or the last one is not. -/
theorem swap_available_iff (shuffled : IsShuffle shuffle) (small : limit ≤ 33)
    (commitIndex : CommitIndex)
    (sized : scores.scoresPerAuthority.length = ctx.committee.size) :
    ∃ table first last, new ctx shuffle limit commitIndex scores = .ok table ∧
      (ranking shuffle commitIndex scores).head? = some first ∧
      (ranking shuffle commitIndex scores).getLast? = some last ∧
      ((table.bad ≠ ∅ → table.goodNodes ≠ []) ↔
        (Admits ctx limit last.1 → Admits ctx limit first.1)) ∧
      ((∀ choose leader round, table.swap choose leader round 0 ≠ .error .noGoodNode) ↔
        (Admits ctx limit last.1 → Admits ctx limit first.1)) := by
  have ranks := @ranking_ranks ctx shuffle scores commitIndex shuffled sized
  obtain ⟨table, front, back, badNodes, built, cut⟩ :=
    @new_cut ctx limit shuffle scores commitIndex shuffled small sized
  obtain ⟨first, isFirst⟩ := Option.ne_none_iff_exists'.mp
    (mt head?_eq_none_iff.mp ranks.ne_nil)
  obtain ⟨last, isLast⟩ := Option.ne_none_iff_exists'.mp
    (mt getLast?_eq_none_iff.mp ranks.ne_nil)
  obtain ⟨noGood, noBad⟩ := cut.ends_empty_iff ranks isFirst isLast
  have available : (table.bad ≠ ∅ → table.goodNodes ≠ []) ↔
      (Admits ctx limit last.1 → Admits ctx limit first.1) := by
    rw [ne_eq, ne_eq, noGood, noBad, not_not, not_not]
  refine ⟨table, first, last, built, isFirst, isLast, available, ?_⟩
  rw [← available]
  constructor
  · intro swaps bad empty
    obtain ⟨leader, mem⟩ := Finset.nonempty_iff_ne_empty.mpr bad
    exact swaps (fun _ _ _ => 0) leader 0 (swap_fails_iff.mpr ⟨mem, empty⟩)
  · intro stocked choose leader round failed
    obtain ⟨mem, empty⟩ := swap_fails_iff.mp failed
    exact stocked (Finset.ne_empty_of_mem mem) empty

theorem swap_available_four :
    ∃ table, new (Context.newForTest 0) (fun _ entries => entries) 30 1
        ⟨⟨1, 2⟩, [4, 3, 2, 1]⟩ = .ok table ∧
      ∀ choose leader round, table.swap choose leader round 0 ≠ .error .noGoodNode := by
  obtain ⟨table, first, last, built, isFirst, isLast, -, swaps⟩ :=
    @swap_available_iff (Context.newForTest 0) 30 (fun _ entries => entries)
      ⟨⟨1, 2⟩, [4, 3, 2, 1]⟩ (fun _ entries => .refl entries) (by decide) 1 rfl
  refine ⟨table, built, swaps.mpr fun _ => ?_⟩
  have best : (ranking (fun _ entries => entries) 1 ⟨⟨1, 2⟩, [4, 3, 2, 1]⟩).head? =
      some (0, 4) := by decide
  cases Option.some.inj (isFirst.symm.trans best)
  decide

/-- One authority has seven tenths of the stake and the highest score: none is good enough to
take the place of the last one. -/
theorem bad_leader_without_swap :
    (new (.withStakes [7, 1, 1, 1] (by decide) (by decide) (by decide)) (fun _ entries => entries)
      30 1 ⟨⟨1, 2⟩, [4, 3, 2, 1]⟩).toOption.map (fun table => (table.goodNodes.length,
        table.badNodes.keys, (table.swap (fun _ _ _ => 0) 3 1 0).toOption)) =
      some (0, [1, 2, 3], none) := by
  decide +kernel

end Election

section Fairness

variable {scores : ReputationScores} {commitIndex : CommitIndex}
  {ranked : List (AuthorityIndex × Nat)} {table : LeaderSwapTable}
  {front back : List (AuthorityIndex × Nat)} {badNodes : List (AuthorityIndex × String × Stake)}

lemma swap_eq_ok {choose : Round → Nat → Nat → Nat} {leader : AuthorityIndex} {round : Round}
    {offset : Nat} {answer : Option AuthorityIndex}
    (run : table.swap choose leader round offset = .ok answer) :
    (answer = none ∧ leader ∉ table.bad) ∨ ∃ idx ∈ table.good, answer = some idx := by
  rw [swap] at run
  split at run
  · obtain ⟨-, chosen⟩ := ensure_bind_eq_ok.mp run
    obtain ⟨node, got, same⟩ := expect_bind_eq_ok.mp chosen
    cases same
    exact .inr ⟨node.1, mem_good.mpr ⟨node, List.mem_of_getElem? got, rfl⟩, rfl⟩
  · rename_i isGood
    cases run
    exact .inl ⟨rfl, mt mem_bad.mp isGood⟩

lemma Cut.light (cut : Cut ctx limit ranked table front back badNodes)
    (ranks : Ranks ctx scores ranked) (total : ctx.committee.totalStake < 2 ^ 64)
    (product : limit * ctx.committee.totalStake < 2 ^ 64) :
    (front.map fun entry => ctx.committee.stake entry.1).sum * 100 ≤
        limit * ctx.committee.totalStake ∧
      (back.map fun entry => ctx.committee.stake entry.1).sum * 100 ≤
        limit * ctx.committee.totalStake := by
  have sums : ∀ {nodes : List (AuthorityIndex × String × Stake)}
      {entries : List (AuthorityIndex × Nat)}, nodes.map Prod.fst = entries.map Prod.fst →
      (nodes.map fun node => ctx.committee.stake node.1).sum =
        (entries.map fun entry => ctx.committee.stake entry.1).sum := by
    intro nodes entries same
    have mapped := congrArg (fun indices => (indices.map ctx.committee.stake).sum) same
    simpa only [List.map_map, Function.comp_def] using mapped
  have whole := ranks.total
  have goodLimited := retrieveFirstNodes_limited (fun entry mem => ranks.inside mem)
    (by rw [whole, Nat.zero_add]; exact total) (Nat.zero_le _) cut.goodRun
  have badLimited := retrieveFirstNodes_limited
    (fun entry mem => ranks.inside (mem_reverse.mp mem))
    (by rw [map_reverse, sum_reverse, whole, Nat.zero_add]; exact total)
    (Nat.zero_le _) cut.badRun
  rw [sums cut.inFront, stakeLimit, stakeProduct, wrap_of_lt product] at goodLimited
  rw [sums cut.inBack, map_reverse, sum_reverse, stakeLimit, stakeProduct,
    wrap_of_lt product] at badLimited
  lia

lemma Cut.disjoint (cut : Cut ctx limit ranked table front back badNodes)
    (ranks : Ranks ctx scores ranked) (small : limit ≤ 33)
    (lightFront : (front.map fun entry => ctx.committee.stake entry.1).sum * 100 ≤
      limit * ctx.committee.totalStake)
    (lightBack : (back.map fun entry => ctx.committee.stake entry.1).sum * 100 ≤
      limit * ctx.committee.totalStake) : Disjoint table.good table.bad := by
  have third : limit * ctx.committee.totalStake ≤ 33 * ctx.committee.totalStake :=
    Nat.mul_le_mul_right _ small
  have positive := ctx.committee.totalStake_pos
  have apart := @disjoint_of_light _ ranked front back
    (fun entry => ctx.committee.stake entry.1) (List.Nodup.of_map _ ranks.distinct) cut.begins
    cut.ends (by rw [ranks.total]; lia)
  rw [Finset.disjoint_left]
  intro idx isGood isBad
  obtain ⟨first, inFront, rfl⟩ := List.mem_map.mp (cut.mem_good_iff.mp isGood)
  obtain ⟨second, inBack, same⟩ := List.mem_map.mp (cut.mem_bad_iff.mp isBad)
  have one : second = first := inj_on_of_nodup_map ranks.distinct
    (cut.ends.subset inBack) (cut.begins.subset inFront) same
  exact apart first inFront (one ▸ inBack)

lemma Ranks.weigh_end (ranks : Ranks ctx scores ranked)
    {entries : List (AuthorityIndex × Nat)} (part : entries.Sublist ranked)
    {members : Finset AuthorityIndex}
    (same : ∀ idx, idx ∈ members ↔ idx ∈ entries.map Prod.fst) :
    weigh ctx.committee.stake members =
      (entries.map fun entry => ctx.committee.stake entry.1).sum := by
  have listed : members = (entries.map Prod.fst).toFinset := by
    ext idx
    rw [same, List.mem_toFinset]
  rw [listed, weigh, sum_toFinset _ (ranks.distinct.sublist (part.map _)), List.map_map]
  rfl

lemma Ranks.score_eq (ranks : Ranks ctx scores ranked) {entry : AuthorityIndex × Nat}
    (mem : entry ∈ ranked) : scores.scoresPerAuthority.getD entry.1 0 = entry.2 := by
  rw [getD_eq_getElem?_getD, ranks.scored entry mem]
  rfl

/-- Swap tables are fair. Without overflow the good and the bad nodes do not meet, each have
at most their percentage of the stake, and nobody outside of them has a more extreme score;
a leader after a swap is not bad. -/
theorem swap_table_fair (shuffled : IsShuffle shuffle) (small : limit ≤ 33)
    (commitIndex : CommitIndex)
    (sized : scores.scoresPerAuthority.length = ctx.committee.size)
    (total : ctx.committee.totalStake < 2 ^ 64)
    (product : limit * ctx.committee.totalStake < 2 ^ 64) :
    ∃ table, new ctx shuffle limit commitIndex scores = .ok table ∧
      Disjoint table.good table.bad ∧
      weigh ctx.committee.stake table.good * 100 ≤ limit * ctx.committee.totalStake ∧
      weigh ctx.committee.stake table.bad * 100 ≤ limit * ctx.committee.totalStake ∧
      (∀ inside ∈ table.bad, ∀ outside < ctx.committee.size, outside ∉ table.bad →
        ¬ scores.scoresPerAuthority.getD outside 0 < scores.scoresPerAuthority.getD inside 0) ∧
      (∀ inside ∈ table.good, ∀ outside < ctx.committee.size, outside ∉ table.good →
        ¬ scores.scoresPerAuthority.getD inside 0 < scores.scoresPerAuthority.getD outside 0) ∧
      ∀ choose leader round offset answer, table.swap choose leader round offset = .ok answer →
        answer.getD leader ∉ table.bad := by
  have ranks := @ranking_ranks ctx shuffle scores commitIndex shuffled sized
  obtain ⟨table, front, back, badNodes, built, cut⟩ :=
    @new_cut ctx limit shuffle scores commitIndex shuffled small sized
  obtain ⟨lightFront, lightBack⟩ := cut.light ranks total product
  have apart := cut.disjoint ranks small lightFront lightBack
  refine ⟨table, built, apart, ?_, ?_, ?_, ?_, ?_⟩
  · rw [ranks.weigh_end cut.begins.sublist fun idx => cut.mem_good_iff]
    exact lightFront
  · rw [ranks.weigh_end cut.ends.sublist fun idx => cut.mem_bad_iff]
    exact lightBack
  · intro inside isBad outside valid isOther
    obtain ⟨entry, inBack, rfl⟩ := List.mem_map.mp (cut.mem_bad_iff.mp isBad)
    obtain ⟨score, listed⟩ := ranks.listed valid
    have left : (outside, score) ∉ back := fun inBack =>
      isOther (cut.mem_bad_iff.mpr (List.mem_map_of_mem inBack))
    have ordered := before_back ranks.descending cut.ends inBack listed left
    rw [ranks.score_eq (cut.ends.subset inBack), ranks.score_eq listed]
    exact Nat.not_lt.mpr ordered
  · intro inside isGood outside valid isOther
    obtain ⟨entry, inFront, rfl⟩ := List.mem_map.mp (cut.mem_good_iff.mp isGood)
    obtain ⟨score, listed⟩ := ranks.listed valid
    have left : (outside, score) ∉ front := fun inFront =>
      isOther (cut.mem_good_iff.mpr (List.mem_map_of_mem inFront))
    have ordered := front_before ranks.descending cut.begins inFront listed left
    rw [ranks.score_eq (cut.begins.subset inFront), ranks.score_eq listed]
    exact Nat.not_lt.mpr ordered
  · intro choose leader round offset answer run
    rcases swap_eq_ok run with ⟨rfl, notBad⟩ | ⟨idx, isGood, rfl⟩
    · exact notBad
    · exact Finset.disjoint_left.mp apart isGood

theorem swap_table_fair_four :
    ∃ table, new (Context.newForTest 0) (fun _ entries => entries) 30 1
        ⟨⟨1, 2⟩, [4, 3, 2, 1]⟩ = .ok table ∧ Disjoint table.good table.bad := by
  obtain ⟨table, built, apart, -⟩ :=
    @swap_table_fair (Context.newForTest 0) 30 (fun _ entries => entries)
      ⟨⟨1, 2⟩, [4, 3, 2, 1]⟩ (fun _ entries => .refl entries) (by decide) 1 rfl
      (by decide) (by decide)
  exact ⟨table, built, apart⟩

end Fairness

end LeaderSwapTable

end Mysticeti
