import Mysticeti.DagState
import Mysticeti.Lib.Worklist

/-!
# Reading the DAG off the cache

The cache of a DAG state is read as a graph: a reference links to the ancestors of
the block cached under it. `WellFormed` says that every cached block is valid and is
stored under its own reference; `CausallyClosed` says that the ancestors above the
garbage-collection round of a cached block above it are cached too.

Committing only sets flags. `Marked` is the frame law of that effect: the blocks are
the same, the flags of the marked references are set, and nothing else differs.
-/

namespace Mysticeti

open List Lib.Outcome Lib.OrderedMap Lib.Worklist Std

namespace DagState

variable (st : DagState) (ref : BlockRef) (ctx : Context)

/-- Cached with the commit flag set. -/
def Committed : Prop := ∃ info, st.recentBlocks[ref]? = some info ∧ info.committed = true

/-- Cached with the commit flag unset. -/
def Uncommitted : Prop := ∃ info, st.recentBlocks[ref]? = some info ∧ info.committed = false

def links : List BlockRef := ((st.recentBlocks[ref]?).map fun info => info.block.ancestors).getD []

def blockAt : VerifiedBlock := ((st.recentBlocks[ref]?).map BlockInfo.block).getD default

/-- The references a commit never enters: collected as garbage or committed. -/
def barred (gcRound : Round) : Set BlockRef := {ref | ref.round ≤ gcRound ∨ st.Committed ref}

structure WellFormed (ctx : Context) (st : DagState) : Prop where
  keyed : ∀ (ref : BlockRef) (info : BlockInfo),
    st.recentBlocks[ref]? = some info → info.block.reference = ref
  valid : ∀ (ref : BlockRef) (info : BlockInfo), st.recentBlocks[ref]? = some info →
    ValidBlock ctx info.block.block.inner

/-- The whole history of a root above the garbage-collection round is cached. -/
def ContainsHistory (st : DagState) (root : BlockRef) : Prop :=
  ∀ ref, Reached st.links {old | old.round ≤ st.gcRound ctx} [root] ref → ref ∈ st.recentBlocks

/-- The root is cached, and so is every reference above the garbage-collection round to
which its uncommitted history links. -/
def HistoryCached (st : DagState) (root : BlockRef) : Prop :=
  root ∈ st.recentBlocks ∧
    ∀ ref, Reached st.links (st.barred (st.gcRound ctx)) [root] ref →
      ∀ target ∈ st.links ref, st.gcRound ctx < target.round → target ∈ st.recentBlocks

def CausallyClosed (st : DagState) : Prop :=
  ∀ (ref : BlockRef) (info : BlockInfo), st.recentBlocks[ref]? = some info →
    st.gcRound ctx < ref.round → ∀ anc ∈ info.block.ancestors,
      st.gcRound ctx < anc.round → anc ∈ st.recentBlocks

section Cache

variable {ctx : Context} {st : DagState} {ref : BlockRef} {info : BlockInfo}

lemma mem_recentBlocks : ref ∈ st.recentBlocks ↔ ∃ info, st.recentBlocks[ref]? = some info := by
  rw [← ExtTreeMap.isSome_getElem?_iff_mem, Option.isSome_iff_exists]

lemma committed_or_uncommitted (cached : ref ∈ st.recentBlocks) :
    st.Committed ref ∨ st.Uncommitted ref := by
  obtain ⟨info, got⟩ := mem_recentBlocks.mp cached
  cases flag : info.committed with
  | true => exact .inl ⟨info, got, flag⟩
  | false => exact .inr ⟨info, got, flag⟩

lemma Uncommitted.cached (fresh : st.Uncommitted ref) : ref ∈ st.recentBlocks :=
  mem_recentBlocks.mpr (fresh.imp fun _ got => got.1)

lemma Committed.cached (committed : st.Committed ref) : ref ∈ st.recentBlocks :=
  mem_recentBlocks.mpr (committed.imp fun _ got => got.1)

lemma Uncommitted.not_committed (fresh : st.Uncommitted ref) : ¬ st.Committed ref := by
  rintro ⟨info, got, flag⟩
  obtain ⟨other, same, unset⟩ := fresh
  rw [got, Option.some.injEq] at same
  rw [← same, flag] at unset
  exact Bool.noConfusion unset

lemma uncommitted_of_not_committed (cached : ref ∈ st.recentBlocks)
    (not : ¬ st.Committed ref) : st.Uncommitted ref :=
  (committed_or_uncommitted cached).resolve_left not

lemma links_of_cached (got : st.recentBlocks[ref]? = some info) :
    st.links ref = info.block.ancestors := by
  simp [links, got]

lemma mem_links {target : BlockRef} : target ∈ st.links ref ↔
    ∃ info, st.recentBlocks[ref]? = some info ∧ target ∈ info.block.ancestors := by
  unfold links
  cases st.recentBlocks[ref]? <;> simp

section

variable (wellFormed : st.WellFormed ctx)

include wellFormed

lemma WellFormed.round_eq (got : st.recentBlocks[ref]? = some info) :
    info.block.round = ref.round :=
  congrArg BlockRef.round (wellFormed.keyed ref info got)

lemma WellFormed.author_eq (got : st.recentBlocks[ref]? = some info) :
    info.block.author = ref.author :=
  congrArg BlockRef.author (wellFormed.keyed ref info got)

lemma WellFormed.round_pos (cached : ref ∈ st.recentBlocks) : 0 < ref.round := by
  obtain ⟨info, got⟩ := mem_recentBlocks.mp cached
  rw [← wellFormed.round_eq got]
  exact (wellFormed.valid ref info got).round_pos

lemma WellFormed.author_lt (cached : ref ∈ st.recentBlocks) :
    ref.author < ctx.committee.size := by
  obtain ⟨info, got⟩ := mem_recentBlocks.mp cached
  rw [← wellFormed.author_eq got]
  exact (wellFormed.valid ref info got).author

lemma WellFormed.links_round {target : BlockRef} (linked : target ∈ st.links ref) :
    target.round < ref.round := by
  obtain ⟨info, got, mem⟩ := mem_links.mp linked
  rw [← wellFormed.round_eq got]
  exact (wellFormed.valid ref info got).ancestorRound target mem

lemma WellFormed.links_nodup (ref : BlockRef) : (st.links ref).Nodup := by
  unfold links
  cases got : st.recentBlocks[ref]? with
  | none => exact nodup_nil
  | some info => exact (wellFormed.valid ref info got).ancestors_nodup

lemma WellFormed.reached_round {outside : Set BlockRef} {root : BlockRef}
    (final : Reached st.links outside [root] ref) :
    ref = root ∨ ref.round < root.round := by
  refine final.induct (motive := fun target => target = root ∨ target.round < root.round)
    (fun start mem => .inl (by simpa using mem)) ?_
  rintro source target (rfl | lower) linked -
  · exact .inr (wellFormed.links_round linked)
  · exact .inr (Nat.lt_trans (wellFormed.links_round linked) lower)

end

lemma CausallyClosed.containsHistory (closed : st.CausallyClosed ctx)
    (cached : ref ∈ st.recentBlocks) (above : st.gcRound ctx < ref.round) :
    st.ContainsHistory ctx ref := by
  intro target final
  refine (final.induct (motive := fun target =>
    target ∈ st.recentBlocks ∧ st.gcRound ctx < target.round) ?_ ?_).1
  · intro root mem
    rw [mem_singleton.mp mem]
    exact ⟨cached, above⟩
  · rintro source child ⟨-, sourceAbove⟩ linked young
    have childAbove : st.gcRound ctx < child.round := Nat.lt_of_not_le young
    obtain ⟨info, got, mem⟩ := mem_links.mp linked
    exact ⟨closed source info got sourceAbove child mem childAbove, childAbove⟩

lemma ContainsHistory.historyCached (history : st.ContainsHistory ctx ref) :
    st.HistoryCached ctx ref := by
  refine ⟨history ref (Reached.root (by simp)), ?_⟩
  intro source final target linked above
  exact history target ((final.mono (fun _ old => .inl old) fun _ mem =>
    Reached.root mem).next linked (Nat.not_le_of_lt above))

lemma HistoryCached.reached {root : BlockRef} (history : st.HistoryCached ctx root)
    (final : Reached st.links (st.barred (st.gcRound ctx)) [root] ref) :
    ref ∈ st.recentBlocks := by
  refine (final.induct (motive := fun target =>
    Reached st.links (st.barred (st.gcRound ctx)) [root] target ∧ target ∈ st.recentBlocks) ?_ ?_).2
  · intro start mem
    rw [mem_singleton.mp mem]
    exact ⟨Reached.root (by simp), history.1⟩
  · rintro source target ⟨got, -⟩ linked entered
    have above : st.gcRound ctx < target.round := Nat.lt_of_not_le fun old => entered (.inl old)
    exact ⟨got.next linked entered, history.2 source got target linked above⟩

lemma blockAt_of_cached (got : st.recentBlocks[ref]? = some info) :
    st.blockAt ref = info.block := by
  simp [blockAt, got]

lemma WellFormed.blockAt_reference (wellFormed : st.WellFormed ctx)
    (cached : ref ∈ st.recentBlocks) :
    (st.blockAt ref).reference = ref := by
  obtain ⟨info, got⟩ := mem_recentBlocks.mp cached
  rw [blockAt_of_cached got]
  exact wellFormed.keyed ref info got

lemma links_eq_ancestors (cached : ref ∈ st.recentBlocks) :
    st.links ref = (st.blockAt ref).ancestors := by
  obtain ⟨info, got⟩ := mem_recentBlocks.mp cached
  rw [links_of_cached got, blockAt_of_cached got]

lemma WellFormed.getBlock_eq (wellFormed : st.WellFormed ctx)
    (cached : ref ∈ st.recentBlocks) :
    st.getBlock ctx ref = some (st.blockAt ref) := by
  have notGenesis : ref.round ≠ GENESIS_ROUND := Nat.ne_of_gt (wellFormed.round_pos cached)
  obtain ⟨info, got⟩ := mem_recentBlocks.mp cached
  rw [getBlock, if_neg notGenesis, got, blockAt_of_cached got]

end Cache

section Decisions

variable (ctx : Context) (st : DagState) (ref : BlockRef)

instance : Decidable (st.Committed ref) :=
  decidable_of_iff ((st.recentBlocks[ref]?).any BlockInfo.committed = true)
    (by simp [Committed, Option.any_eq_true])

instance : Decidable (st.Uncommitted ref) :=
  decidable_of_iff ((st.recentBlocks[ref]?).any (fun info => !info.committed) = true)
    (by simp [Uncommitted, Option.any_eq_true])

instance : Decidable (st.CausallyClosed ctx) :=
  decidable_of_iff (∀ entry ∈ st.recentBlocks.toList,
      st.gcRound ctx < entry.1.round → ∀ anc ∈ entry.2.block.ancestors,
        st.gcRound ctx < anc.round → anc ∈ st.recentBlocks)
    (by simp [CausallyClosed, Prod.forall])

end Decisions

section Accept

variable {ctx : Context} {st post : DagState} {blk : VerifiedBlock}

/-- The state with a new block in the cache, its indices and the write buffer. -/
def accepted (ctx : Context) (st : DagState) (blk : VerifiedBlock) : DagState :=
  { st with
    recentBlocks := st.recentBlocks.insert blk.reference (BlockInfo.new blk)
    recentRefsByAuthority := Function.update st.recentRefsByAuthority blk.author
      ((st.recentRefsByAuthority blk.author).insert blk.reference)
    thresholdClock := (st.thresholdClock.addBlock ctx blk.reference).1
    highestAcceptedRound := max st.highestAcceptedRound blk.round
    blocksToWrite := st.blocksToWrite ++ [blk] }

lemma acceptBlock_cases (run : st.acceptBlock ctx blk = .ok post) :
    blk.round ≠ 0 ∧
      ((st.containsBlock ctx blk.reference = true ∧ post = st) ∨
        (st.containsBlock ctx blk.reference = false ∧
          (blk.author = ctx.ownIndex → st.getUncommittedBlocksAtSlot blk.slot = []) ∧
          blk.author < ctx.committee.size ∧ post = st.accepted ctx blk)) := by
  rw [acceptBlock] at run
  obtain ⟨pos, run⟩ := ensure_bind_eq_ok.mp run
  refine ⟨pos, ?_⟩
  cases known : st.containsBlock ctx blk.reference with
  | true =>
    simp only [known, if_true, pure_ok, Except.ok.injEq] at run
    exact .inl ⟨rfl, run.symm⟩
  | false =>
    simp only [known, Bool.false_eq_true, if_false] at run
    obtain ⟨vacant, run⟩ := ensure_bind_eq_ok.mp run
    rw [updateBlockMetadata, bind_assoc] at run
    obtain ⟨inside, run⟩ := ensure_bind_eq_ok.mp run
    exact .inr ⟨rfl, vacant, inside, (Except.ok.inj run).symm⟩

lemma accepted_lookup (st : DagState) (blk : VerifiedBlock) (ref : BlockRef) :
    (st.accepted ctx blk).recentBlocks[ref]? =
      if blk.reference = ref then some (BlockInfo.new blk)
      else st.recentBlocks[ref]? := by
  rw [accepted, ExtTreeMap.getElem?_insert]
  simp only [LawfulEqCmp.compare_eq_iff_eq]

lemma WellFormed.accepted (wellFormed : st.WellFormed ctx)
    (valid : ValidBlock ctx blk.block.inner) :
    (st.accepted ctx blk).WellFormed ctx := by
  refine ⟨fun ref info got => ?_, fun ref info got => ?_⟩ <;>
    rw [accepted_lookup] at got <;> split at got
  · rename_i same
    cases got
    exact same
  · exact wellFormed.keyed ref info got
  · cases got
    exact valid
  · exact wellFormed.valid ref info got

lemma WellFormed.acceptBlock (wellFormed : st.WellFormed ctx)
    (valid : ValidBlock ctx blk.block.inner)
    (run : st.acceptBlock ctx blk = .ok post) : post.WellFormed ctx := by
  obtain ⟨-, ⟨-, rfl⟩ | ⟨-, -, -, rfl⟩⟩ := acceptBlock_cases run
  · exact wellFormed
  · exact wellFormed.accepted valid

lemma WellFormed.acceptBlocks {blocks : List VerifiedBlock}
    (wellFormed : st.WellFormed ctx)
    (verified : ∀ blk ∈ blocks, verifyBlock ctx blk.block = .ok ())
    (run : st.acceptBlocks ctx blocks = .ok post) : post.WellFormed ctx :=
  foldlM_preserves run wellFormed fun _ blk _ mem pre taken =>
    pre.acceptBlock (validBlock_of_verifyBlock (verified blk mem)) taken

lemma initial_wellFormed (ctx : Context) : initial.WellFormed ctx := by
  refine ⟨fun ref info got => ?_, fun ref info got => ?_⟩ <;>
    simp [initial] at got

def testState (ownIndex : Fin 4) (blocks : List VerifiedBlock) : DagState :=
  ((initial.acceptBlocks (Context.newForTest ownIndex) blocks).toOption).getD initial

lemma testState_wellFormed {ownIndex : Fin 4} {blocks : List VerifiedBlock}
    (verified : ∀ blk ∈ blocks, verifyBlock (Context.newForTest ownIndex) blk.block = .ok ()) :
    (testState ownIndex blocks).WellFormed (Context.newForTest ownIndex) := by
  unfold testState
  cases run : initial.acceptBlocks (Context.newForTest ownIndex) blocks with
  | error err => exact initial_wellFormed _
  | ok st => exact (initial_wellFormed _).acceptBlocks verified run

def threeRounds : List VerifiedBlock :=
  [testBlock 1 0 [0, 1, 2], testBlock 1 1 [1, 0, 2], testBlock 1 2 [2, 0, 1],
    testBlock 2 0 [0, 1, 2], testBlock 2 1 [1, 0, 2], testBlock 2 2 [2, 0, 1],
    testBlock 3 0 [0, 1, 2], testBlock 3 1 [1, 0, 2], testBlock 3 2 [2, 0, 1]]

end Accept

lemma mem_iff_of_blocks {pre post : DagState}
    (blocks : ∀ ref : BlockRef, (post.recentBlocks[ref]?).map BlockInfo.block =
      (pre.recentBlocks[ref]?).map BlockInfo.block) (ref : BlockRef) :
    ref ∈ post.recentBlocks ↔ ref ∈ pre.recentBlocks := by
  rw [← ExtTreeMap.isSome_getElem?_iff_mem, ← ExtTreeMap.isSome_getElem?_iff_mem,
    ← Option.isSome_map, blocks, Option.isSome_map]

/-- Only flags of cached blocks differ. -/
structure Flagged (pre post : DagState) : Prop where
  frame : post = { pre with recentBlocks := post.recentBlocks }
  blocks : ∀ ref : BlockRef, (post.recentBlocks[ref]?).map BlockInfo.block =
    (pre.recentBlocks[ref]?).map BlockInfo.block

namespace Flagged

variable {ctx : Context} {pre mid post : DagState} {ref : BlockRef}

lemma refl (st : DagState) : Flagged st st := ⟨rfl, fun _ => rfl⟩

lemma trans (first : Flagged pre mid) (second : Flagged mid post) : Flagged pre post where
  frame := by rw [second.frame, first.frame]
  blocks ref := (second.blocks ref).trans (first.blocks ref)

lemma lastCommit_eq (flagged : Flagged pre post) : post.lastCommit = pre.lastCommit := by
  rw [flagged.frame]

lemma gcRound_eq (flagged : Flagged pre post) : post.gcRound ctx = pre.gcRound ctx := by
  rw [flagged.frame]
  rfl

lemma insert {info flags : BlockInfo} (got : pre.recentBlocks[ref]? = some info)
    (same : flags.block = info.block) :
    Flagged pre { pre with recentBlocks := pre.recentBlocks.insert ref flags } where
  frame := rfl
  blocks other := by
    by_cases here : other = ref
    · subst here
      simp [got, same]
    · simp only [getElem?_insert_of_ne here]

variable (flagged : Flagged pre post)

include flagged

lemma mem_iff (ref : BlockRef) : ref ∈ post.recentBlocks ↔ ref ∈ pre.recentBlocks :=
  mem_iff_of_blocks flagged.blocks ref

lemma size_eq : post.recentBlocks.size = pre.recentBlocks.size := by
  have ordered : ∀ map : ExtTreeMap BlockRef BlockInfo,
      map.keys.Pairwise fun left right => compare left right = .lt :=
    fun _ => ExtTreeMap.ordered_keys
  have keys : post.recentBlocks.keys = pre.recentBlocks.keys := by
    refine eq_of_increasing id (ordered _) (ordered _) fun ref => ?_
    rw [ExtTreeMap.mem_keys, ExtTreeMap.mem_keys, flagged.mem_iff]
  rw [← ExtTreeMap.length_keys, ← ExtTreeMap.length_keys, keys]

lemma blockAt_eq : post.blockAt = pre.blockAt :=
  funext fun ref => congrArg (Option.getD · default) (flagged.blocks ref)

lemma links_eq : post.links = pre.links := by
  funext ref
  have same := congrArg (Option.map VerifiedBlock.ancestors) (flagged.blocks ref)
  rw [Option.map_map, Option.map_map] at same
  exact congrArg (Option.getD · []) same

lemma lookup {info : BlockInfo} (got : post.recentBlocks[ref]? = some info) :
    ∃ old, pre.recentBlocks[ref]? = some old ∧ old.block = info.block := by
  have same := flagged.blocks ref
  rw [got, Option.map_some, eq_comm, Option.map_eq_some_iff] at same
  exact same

lemma wellFormed (wellFormed : pre.WellFormed ctx) : post.WellFormed ctx where
  keyed ref info got := by
    obtain ⟨old, cached, same⟩ := flagged.lookup got
    exact same ▸ wellFormed.keyed ref old cached
  valid ref info got := by
    obtain ⟨old, cached, same⟩ := flagged.lookup got
    exact same ▸ wellFormed.valid ref old cached

lemma getBlock_eq (ref : BlockRef) : post.getBlock ctx ref = pre.getBlock ctx ref := by
  have sameStore : post.store = pre.store := by rw [flagged.frame]
  have same := flagged.blocks ref
  unfold getBlock
  rw [sameStore]
  cases got : pre.recentBlocks[ref]? with
  | none =>
    rw [got, Option.map_none, Option.map_eq_none_iff] at same
    rw [same]
  | some info =>
    rw [got, Option.map_some, Option.map_eq_some_iff] at same
    obtain ⟨later, cached, blk⟩ := same
    simp only [cached, blk]

end Flagged

/-- The effect of setting commit flags. -/
structure Marked (pre : DagState) (marks : Set BlockRef) (post : DagState) : Prop where
  frame : post = { pre with recentBlocks := post.recentBlocks }
  marked : ∀ ref ∈ marks, post.recentBlocks[ref]? =
    (pre.recentBlocks[ref]?).map fun info => { info with committed := true }
  kept : ∀ ref ∉ marks, post.recentBlocks[ref]? = pre.recentBlocks[ref]?

namespace Marked

variable {pre mid post : DagState} {marks others : Set BlockRef}

lemma refl (st : DagState) : Marked st ∅ st :=
  ⟨rfl, fun _ mem => absurd mem (Set.notMem_empty _), fun _ _ => rfl⟩

lemma trans (first : Marked pre marks mid) (second : Marked mid others post) :
    Marked pre (marks ∪ others) post := by
  refine ⟨?_, ?_, ?_⟩
  · rw [second.frame, first.frame]
  · intro ref mem
    by_cases later : ref ∈ others
    · rw [second.marked ref later]
      by_cases prev : ref ∈ marks
      · rw [first.marked ref prev, Option.map_map]
        rfl
      · rw [first.kept ref prev]
    · rw [second.kept ref later, first.marked ref (mem.resolve_right later)]
  · intro ref absent
    rw [second.kept ref (fun mem => absent (.inr mem)),
      first.kept ref (fun mem => absent (.inl mem))]

variable (run : Marked pre marks post)

include run

lemma congr (same : ∀ ref, ref ∈ marks ↔ ref ∈ others) : Marked pre others post := by
  have equal : marks = others := Set.ext same
  exact equal ▸ run

lemma flagged : Flagged pre post where
  frame := run.frame
  blocks ref := by
    by_cases mem : ref ∈ marks
    · rw [run.marked ref mem, Option.map_map]
      rfl
    · rw [run.kept ref mem]

lemma union_committed (committed : ∀ ref ∈ others, pre.Committed ref) :
    Marked pre (marks ∪ others) post := by
  refine ⟨run.frame, fun ref mem => ?_, fun ref absent => ?_⟩
  · by_cases marked : ref ∈ marks
    · exact run.marked ref marked
    · obtain ⟨info, got, flag⟩ := committed ref (mem.resolve_left marked)
      rw [run.kept ref marked, got, Option.map_some, ← flag]
  · exact run.kept ref fun mem => absent (.inl mem)

lemma committed_iff (ref : BlockRef) :
    post.Committed ref ↔ pre.Committed ref ∨ (ref ∈ marks ∧ ref ∈ pre.recentBlocks) := by
  unfold Committed
  by_cases mem : ref ∈ marks
  · simp only [run.marked ref mem, Option.map_eq_some_iff, mem, true_and, mem_recentBlocks]
    constructor
    · rintro ⟨_, ⟨old, got, rfl⟩, _⟩
      exact .inr ⟨old, got⟩
    · rintro (⟨old, got, _⟩ | ⟨old, got⟩) <;> exact ⟨_, ⟨old, got, rfl⟩, rfl⟩
  · simp [run.kept ref mem, mem]

lemma uncommitted_iff (ref : BlockRef) :
    post.Uncommitted ref ↔ pre.Uncommitted ref ∧ ref ∉ marks := by
  unfold Uncommitted
  by_cases mem : ref ∈ marks
  · simp [run.marked ref mem, mem]
  · simp [run.kept ref mem, mem]

lemma barred_eq (gcRound : Round)
    (cached : ∀ ref ∈ marks, ref ∈ pre.recentBlocks) :
    post.barred gcRound = pre.barred gcRound ∪ marks := by
  ext ref
  have spec := run.committed_iff ref
  have implied := cached ref
  simp only [barred, Set.mem_ofPred_eq, Set.mem_union] at *
  tauto

end Marked

end DagState

end Mysticeti
