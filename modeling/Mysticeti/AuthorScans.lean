import Mysticeti.Recovery

/-!
# The last rounds of an author

Both stores list the last blocks of an author in the same way: they walk the index of the author
backwards from a round, take as many entries as rounds are asked for, push each to the front of a
deque, and read the blocks of the first of the deque's two slices. So a round with two blocks
takes the place of two rounds, and entries beyond the first slice are lost. The result is the
promised one exactly when the deque is in one piece and the rounds asked for have no more blocks
than their number.
-/

namespace Mysticeti

open List Lib.OrderedMap

structure DequeLayout where
  firstSlice : Nat → Nat
  le : ∀ count, firstSlice count ≤ count
  pos : ∀ count, 0 < count → 0 < firstSlice count

/-- The elements in one piece. -/
def DequeLayout.contiguous : DequeLayout := ⟨id, fun _ => Nat.le_refl _, fun _ => id⟩

namespace Store

variable (layout : DequeLayout) (store : Store) (author : AuthorityIndex) (numOfRounds : Nat)
  (beforeRound : Option Round)

def blocksOfAuthor : List VerifiedBlock :=
  scan store.blocks fun ref => ref.author = author && beforeRound.all (ref.round ≤ ·)

def scanLastBlocks : List VerifiedBlock :=
  let refs := ((store.blocksOfAuthor author beforeRound).reverse.take numOfRounds).reverse
  refs.take (layout.firstSlice refs.length)

def amongLast (blk : VerifiedBlock) : Bool :=
  (((store.blocksOfAuthor author beforeRound).map VerifiedBlock.round).toFinset.filter
    (blk.round < ·)).card < numOfRounds

/-- The blocks of the highest rounds up to the bound in which the author has blocks, in the order
of the index. -/
def lastRoundsOf : List VerifiedBlock :=
  (store.blocksOfAuthor author beforeRound).filter
    (store.amongLast author numOfRounds beforeRound)

end Store

/-- A filter that keeps everything after what it keeps is a suffix. -/
lemma filter_suffix {α : Type} {keep : α → Bool} {list : List α}
    (rising : list.Pairwise fun prev later => keep prev = true → keep later = true) :
    list.filter keep <:+ list := by
  induction list with
  | nil => exact suffix_rfl
  | cons head rest ih =>
    obtain ⟨first, others⟩ := pairwise_cons.mp rising
    rw [filter_cons]
    split
    · rename_i kept
      rw [filter_eq_self.mpr fun other mem => first other mem kept]
    · exact (ih others).trans (suffix_cons _ _)

namespace Store

variable {layout : DequeLayout} {store : Store} {author : AuthorityIndex} {numOfRounds : Nat}
  {beforeRound : Option Round}

lemma rounds_rise (keyed : store.Keyed) :
    (store.blocksOfAuthor author beforeRound).Pairwise fun prev later =>
      prev.round ≤ later.round := by
  refine (scan_increasing VerifiedBlock.reference fun ref blk _ got => keyed ref blk got).imp
    fun {prev later} pre => ?_
  exact BlockRef.round_le_of_isLE (by rw [pre]; rfl)

def lastEntries (store : Store) (author : AuthorityIndex) (numOfRounds : Nat)
    (beforeRound : Option Round) : List VerifiedBlock :=
  (store.blocksOfAuthor author beforeRound).drop
    ((store.blocksOfAuthor author beforeRound).length - numOfRounds)

lemma scanLastBlocks_eq : store.scanLastBlocks layout author numOfRounds beforeRound =
    (store.lastEntries author numOfRounds beforeRound).take
      (layout.firstSlice (store.lastEntries author numOfRounds beforeRound).length) := by
  have entries : ((store.blocksOfAuthor author beforeRound).reverse.take numOfRounds).reverse =
      store.lastEntries author numOfRounds beforeRound := by
    rw [take_reverse, reverse_reverse]
    rfl
  rw [scanLastBlocks, entries]

lemma length_lastEntries : (store.lastEntries author numOfRounds beforeRound).length =
    min numOfRounds (store.blocksOfAuthor author beforeRound).length := by
  rw [lastEntries, length_drop]
  omega

lemma length_scanLastBlocks_le :
    (store.scanLastBlocks layout author numOfRounds beforeRound).length ≤ numOfRounds := by
  rw [scanLastBlocks_eq]
  refine (length_take_le' _ _).trans ?_
  rw [length_lastEntries]
  exact Nat.min_le_left _ _

lemma lastRoundsOf_suffix (keyed : store.Keyed) :
    store.lastRoundsOf author numOfRounds beforeRound <:+
      store.blocksOfAuthor author beforeRound := by
  refine filter_suffix ((rounds_rise keyed).imp fun {prev later} rise kept => ?_)
  rw [amongLast, decide_eq_true_eq] at kept ⊢
  refine Nat.lt_of_le_of_lt (Finset.card_le_card fun round above => ?_) kept
  rw [Finset.mem_filter] at above ⊢
  exact ⟨above.1, rise.trans_lt above.2⟩

/-- The last entries are in the highest rounds: each round above one of them is the round of
another. -/
lemma lastEntries_subset (keyed : store.Keyed) :
    ∀ blk ∈ store.lastEntries author numOfRounds beforeRound,
      blk ∈ store.lastRoundsOf author numOfRounds beforeRound := by
  intro blk mem
  have inside := mem_of_mem_drop mem
  refine mem_filter.mpr ⟨inside, decide_eq_true ?_⟩
  have sorted := @rounds_rise store author beforeRound keyed
  rw [← take_append_drop ((store.blocksOfAuthor author beforeRound).length - numOfRounds)
    (store.blocksOfAuthor author beforeRound), pairwise_append] at sorted
  have above : ((store.blocksOfAuthor author beforeRound).map VerifiedBlock.round).toFinset.filter
      (blk.round < ·) ⊆ (((store.lastEntries author numOfRounds beforeRound).filter
        fun other => blk.round < other.round).map VerifiedBlock.round).toFinset := by
    intro round higher
    rw [Finset.mem_filter, List.mem_toFinset, List.mem_map] at higher
    obtain ⟨⟨other, here, rfl⟩, post⟩ := higher
    rw [← take_append_drop ((store.blocksOfAuthor author beforeRound).length - numOfRounds)
      (store.blocksOfAuthor author beforeRound), mem_append] at here
    rcases here with early | late
    · exact absurd (sorted.2.2 other early blk mem) (Nat.not_le_of_lt post)
    · exact List.mem_toFinset.mpr (mem_map_of_mem (mem_filter.mpr ⟨late, decide_eq_true post⟩))
  calc
    _ ≤ _ := Finset.card_le_card above
    _ ≤ _ := toFinset_card_le _
    _ = _ := length_map _
    _ < (store.lastEntries author numOfRounds beforeRound).length :=
      length_filter_lt_length_iff_exists.mpr ⟨blk, mem, by simp⟩
    _ ≤ numOfRounds := by rw [length_lastEntries]; exact Nat.min_le_left _ _

/-- The scan lists the blocks of the highest rounds exactly when the deque is in one piece and
those rounds have no more blocks than their number. -/
theorem scanLastBlocks_exact_iff (layout : DequeLayout) (keyed : store.Keyed)
    (author : AuthorityIndex) (numOfRounds : Nat) (beforeRound : Option Round) :
    store.scanLastBlocks layout author numOfRounds beforeRound =
        store.lastRoundsOf author numOfRounds beforeRound ↔
      layout.firstSlice (min numOfRounds (store.blocksOfAuthor author beforeRound).length) =
          min numOfRounds (store.blocksOfAuthor author beforeRound).length ∧
        (store.lastRoundsOf author numOfRounds beforeRound).length ≤ numOfRounds := by
  have suffix := @lastRoundsOf_suffix store author numOfRounds beforeRound keyed
  have kept : (store.lastEntries author numOfRounds beforeRound).Sublist
      (store.lastRoundsOf author numOfRounds beforeRound) := by
    have sublist : (store.lastEntries author numOfRounds beforeRound).Sublist
        (store.blocksOfAuthor author beforeRound) := drop_sublist _ _
    have filtered := sublist.filter (store.amongLast author numOfRounds beforeRound)
    rwa [filter_eq_self.mpr fun blk mem =>
      (mem_filter.mp (lastEntries_subset keyed blk mem)).2] at filtered
  have entries : store.lastEntries author numOfRounds beforeRound <:+
      store.lastRoundsOf author numOfRounds beforeRound :=
    suffix_of_suffix_length_le (drop_suffix _ _) suffix kept.length_le
  have length := @length_lastEntries store author numOfRounds beforeRound
  have slice := layout.le (store.lastEntries author numOfRounds beforeRound).length
  rw [scanLastBlocks_eq, ← length]
  constructor
  · intro same
    have taken := congrArg List.length same
    rw [length_take_of_le slice] at taken
    have more := entries.length_le
    omega
  · rintro ⟨whole, few⟩
    rw [whole, take_length]
    have more := suffix.length_le
    have fewer := entries.length_le
    exact entries.eq_of_length (by omega)

lemma keyed_write (blocks : List VerifiedBlock) : (empty.write ⟨blocks, [], [], []⟩).Keyed := by
  intro ref blk got
  rcases getElem?_insertAll_cases got with ⟨-, same⟩ | prev
  · exact same
  · simp [empty] at prev

theorem scanLastBlocks_exact_twoRounds :
    let store := empty.write ⟨[testBlock 1 0 [0, 1, 2], testBlock 2 0 [0, 1, 2],
      testBlock 3 0 [0, 1, 2]], [], [], []⟩
    store.scanLastBlocks .contiguous 0 2 none = store.lastRoundsOf 0 2 none :=
  (scanLastBlocks_exact_iff .contiguous (keyed_write _) 0 2 none).mpr ⟨rfl, by decide +kernel⟩

/-- Two blocks of an author in one round: one of them is missing from the blocks of the last
round, however the deque is laid out. -/
theorem scanLastBlocks_misses_equivocation :
    let store := empty.write ⟨[TestBlock.build 1 3 7 [testRef 0 3, testRef 0 0, testRef 0 2],
      testBlock 1 3 [3, 0, 1]], [], [], []⟩
    ∀ layout, store.scanLastBlocks layout 3 1 none ≠ store.lastRoundsOf 3 1 none := by
  intro store layout same
  have counted : (store.lastRoundsOf 3 1 none).length = 2 := by decide +kernel
  have few := @length_scanLastBlocks_le layout store 3 1 none
  rw [same, counted] at few
  exact absurd few (by decide)

end Store

end Mysticeti
