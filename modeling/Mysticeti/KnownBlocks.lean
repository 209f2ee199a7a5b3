import Mysticeti.CacheRuns

/-!
# Whether a block was accepted

The membership test looks at the cached references of the author first. When the reference is
above the last of them, it answers without a look at the store. The answer is right in every
run: what waits to be written is cached, and no stored block of an author is above the author's
last cached one, since a flush with a round to keep leaves that one and a restart loads it.
-/

namespace Mysticeti

open List Lib.Outcome Lib.OrderedMap Lib.Machine

namespace DagState

variable {ctx : Context} {pre post st : DagState} {ref : BlockRef}

/-- Which of the references are known. An author outside the committee panics. -/
def containsBlocks (ctx : Context) (st : DagState) (refs : List BlockRef) :
    Except Panic (List Bool) :=
  refs.mapM fun ref => do
    ensure (ref.author < ctx.committee.size) (.authorityOutOfBounds ref.author)
    pure (st.containsBlock ctx ref)

/-- What the shortcut relies on. -/
structure Reaches (st : DagState) : Prop where
  buffered : ∀ blk ∈ st.blocksToWrite, blk.reference ∈ st.recentBlocks
  positive : ∀ ref, st.Held ref → ref.round ≠ 0
  reached : ∀ ref, st.Held ref → ref.round ≤ st.lastCachedRound ref.author

lemma initial_reaches : initial.Reaches where
  buffered blk waits := by simp [initial] at waits
  positive ref held := by simp [initial, Held, Store.empty] at held
  reached ref held := by simp [initial, Held, Store.empty] at held

lemma Reaches.containsBlock_iff (reaches : st.Reaches) (upheld : Upheld ctx st) :
    st.containsBlock ctx ref = true ↔ (genesisGet ctx ref).isSome = true ∨ st.Held ref := by
  constructor
  · intro known
    rcases upheld.kept.hasAccepted_of_contains known with cached | waits | stored | genesis
    · exact .inr (upheld.held ref cached)
    · exact .inr (.inl waits)
    · exact .inr (.inr stored)
    · exact .inl genesis
  · rintro (genesis | held)
    · simp [containsBlock, genesis]
    by_cases cached : ref ∈ st.recentBlocks
    · exact upheld.kept.indexed.containsBlock cached
    · have stored : ref ∈ st.store.blocks := by
        rcases held with ⟨blk, waits, rfl⟩ | stored
        · exact absurd (reaches.buffered blk waits) cached
        · exact stored
      have pos := reaches.positive ref held
      have low := reaches.reached ref held
      rw [containsBlock]
      split
      · rfl
      · unfold lastCachedRound at low
        split
        · rename_i none
          rw [none] at low
          exact absurd (Nat.le_zero.mp low) pos
        · rename_i top got
          rw [got] at low
          rw [if_neg (show ¬ top.round < ref.round from Nat.not_lt_of_le low)]
          exact Std.ExtTreeMap.mem_iff_contains.mp stored

lemma Reaches.of_held (reaches : pre.Reaches) (indexed : post.Indexed)
    (buffered : ∀ blk ∈ post.blocksToWrite, blk.reference ∈ post.recentBlocks)
    (held : ∀ ref, post.Held ref → pre.Held ref ∨ ref ∈ post.recentBlocks ∧ ref.round ≠ 0)
    (grown : ∀ auth, pre.lastCachedRound auth ≤ post.lastCachedRound auth) :
    post.Reaches := by
  refine ⟨buffered, fun ref holds => ?_, fun ref holds => ?_⟩
  · rcases held ref holds with prev | ⟨-, pos⟩
    · exact reaches.positive ref prev
    · exact pos
  · rcases held ref holds with prev | ⟨cached, -⟩
    · exact (reaches.reached ref prev).trans (grown _)
    · exact round_le_lastCachedRound ((indexed _ ref).mpr ⟨cached, rfl⟩)

lemma held_acceptBlock {blk : VerifiedBlock}
    (run : pre.acceptBlock ctx blk = .ok post) (held : post.Held ref) :
    pre.Held ref ∨ ref = blk.reference := by
  obtain ⟨-, ⟨-, rfl⟩ | ⟨-, -, -, rfl⟩⟩ := acceptBlock_cases run
  · exact .inl held
  · rcases held with ⟨other, waits, rfl⟩ | stored
    · rcases mem_append.mp waits with prev | new
      · exact .inl (.inl ⟨other, prev, rfl⟩)
      · exact .inr (congrArg VerifiedBlock.reference (mem_singleton.mp new))
    · exact .inl (.inr stored)

lemma Reaches.acceptBlock {blk : VerifiedBlock} (reaches : pre.Reaches)
    (upheld : Upheld ctx pre) (run : pre.acceptBlock ctx blk = .ok post) :
    post.Reaches := by
  obtain ⟨pos, ⟨-, rfl⟩ | ⟨-, -, inside, same⟩⟩ := acceptBlock_cases run
  · exact reaches
  have indexed := (upheld.kept.acceptBlock (show blk ∈ authored ctx from inside) run).indexed
  have grown : ∀ ref ∈ pre.recentBlocks, ref ∈ post.recentBlocks :=
    fun _ => acceptBlock_mem upheld.kept.indexed run
  have entered : blk.reference ∈ post.recentBlocks := same ▸ mem_accepted.mpr (.inl rfl)
  refine reaches.of_held indexed ?_ ?_ fun auth => lastCachedRound_le ?_
  · intro other waits
    rw [same] at waits
    rcases mem_append.mp waits with prev | new
    · exact grown _ (reaches.buffered other prev)
    · exact mem_singleton.mp new ▸ entered
  · intro ref held
    rcases held_acceptBlock run held with prev | rfl
    · exact .inl prev
    · exact .inr ⟨entered, pos⟩
  · intro ref here _
    obtain ⟨cached, author⟩ := (upheld.kept.indexed auth ref).mp here
    exact (indexed auth ref).mpr ⟨grown _ cached, author⟩

lemma Reaches.of_sameBlocks (reaches : pre.Reaches) (upheld : Upheld ctx post)
    (same : SameBlocks ctx pre post) : post.Reaches := by
  refine reaches.of_held upheld.kept.indexed ?_ (fun _ held => .inl (same.held_iff.mp held)) ?_
  · intro blk waits
    rw [same.buffer] at waits
    exact same.mem_iff.mpr (reaches.buffered blk waits)
  · intro auth
    unfold lastCachedRound
    rw [same.refs]

lemma held_flush (indexed : pre.Indexed) (held : (pre.flush ctx).Held ref) : pre.Held ref := by
  have flushed := @flush_flushed ctx pre indexed
  unfold Held at held
  rw [flushed.frame] at held
  rcases held with ⟨blk, waits, -⟩ | stored
  · simp at waits
  · exact mem_insertAll.mp stored

variable (keeps : 1 ≤ ctx.dagStateCachedRounds)

include keeps

lemma Reaches.flush (reaches : pre.Reaches) (upheld : Upheld ctx pre) :
    (pre.flush ctx).Reaches := by
  have indexed := upheld.kept.indexed
  have flushed := @flush_flushed ctx pre indexed
  refine reaches.of_held flushed.indexed ?_ (fun _ held => .inl (held_flush indexed held))
    (lastCachedRound_flush keeps indexed)
  intro blk waits
  rw [flushed.frame] at waits
  simp at waits

lemma Reaches.restart (reaches : pre.Reaches) (upheld : Upheld ctx pre)
    (run : DagState.new ctx pre.store = .ok post) :
    post.Reaches ∧ ∀ ref, post.Held ref → ref ∈ pre.store.blocks := by
  have keyed : pre.store.Keyed := fun ref blk got => (upheld.kept.stored ref blk got).1
  obtain ⟨rounds, subdags, scoringSubdag, loaded, -, -, loads, flagged⟩ :=
    (new_recovered keyed run).phases
  have same := (@Flagged.sameBlocks ctx _ _ flagged).1
  have waits : post.blocksToWrite = [] := by
    rw [same.buffer, loads.frame]
    rfl
  have sameStore : post.store = pre.store := by
    rw [same.store, loads.frame]
    rfl
  have stored : ∀ ref, post.Held ref → ref ∈ pre.store.blocks := by
    rintro ref (⟨blk, mem, -⟩ | stored)
    · simp [waits] at mem
    · rwa [sameStore] at stored
  refine ⟨⟨by simp [waits], fun ref held => ?_, fun ref held => ?_⟩, stored⟩
  · exact reaches.positive ref (.inr (stored ref held))
  · obtain ⟨blk, got⟩ := getElem?_of_mem (stored ref held)
    obtain ⟨rfl, author, -⟩ := upheld.kept.stored ref blk got
    unfold lastCachedRound
    rw [same.refs]
    exact @stored_le_lastCachedRound ctx (unloaded pre.store rounds scoringSubdag) _ keeps
      loaded keyed initial_indexed loads (mem_range.mpr author) (mem_of_getElem? got)

end DagState

namespace DagRun

open DagState

variable {ctx : Context} {pre post : DagRun} {act : DagAction}

/-- The membership test can answer, and what is held counts as accepted. -/
structure Knows (ctx : Context) (run : DagRun) : Prop where
  caches : run.Caches ctx
  reaches : run.state.Reaches
  counted : ∀ ref, run.state.Held ref → ref ∈ run.accepted

lemma Knows.step (keeps : 1 ≤ ctx.dagStateCachedRounds) (knows : pre.Knows ctx)
    (taken : step ctx pre act = some post) : post.Knows ctx := by
  obtain ⟨done, counted⟩ := stepped_of_step taken
  have caches := knows.caches.step keeps taken
  have upheld := knows.caches.upheld
  by_cases live : act = .restart
  · subst live
    obtain ⟨reaches, stored⟩ := knows.reaches.restart keeps upheld done
    refine ⟨caches, reaches, fun ref held => ?_⟩
    rw [counted]
    exact mem_filter.mpr ⟨knows.counted ref (.inr (stored ref held)),
      Std.ExtTreeMap.mem_iff_contains.mp (stored ref held)⟩
  have more : ∀ ref ∈ pre.accepted, ref ∈ post.accepted := by
    intro ref mem
    rw [counted]
    cases act with
    | acceptBlock blk => exact mem_cons_of_mem _ mem
    | restart => exact absurd rfl live
    | _ => exact mem
  obtain ⟨blk, rfl, run⟩ | ⟨-, same⟩ | ⟨restarts, -⟩ | ⟨same, -⟩ := perform_cases done
  · refine ⟨caches, knows.reaches.acceptBlock upheld run, fun ref held => ?_⟩
    rcases held_acceptBlock run held with prev | rfl
    · exact more ref (knows.counted ref prev)
    · rw [counted]
      exact mem_cons_self
  · refine ⟨caches, same ▸ knows.reaches.flush keeps upheld, fun ref held => ?_⟩
    rw [same] at held
    exact more ref (knows.counted ref (held_flush upheld.kept.indexed held))
  · exact absurd restarts live
  · refine ⟨caches, knows.reaches.of_sameBlocks caches.upheld same, fun ref held => ?_⟩
    exact more ref (knows.counted ref (same.held_iff.mp held))

/-- In every run, the test answers for each reference whether it is of a genesis block or counts
as accepted. -/
theorem containsBlocks_exact (ctx : Context) (keeps : 1 ≤ ctx.dagStateCachedRounds)
    {sched : List DagAction} {final : DagRun}
    (ran : run (step ctx) start sched = some final) (refs : List BlockRef)
    (valid : ∀ ref ∈ refs, ref.author < ctx.committee.size) :
    final.state.containsBlocks ctx refs = .ok (refs.map fun ref =>
      (genesisGet ctx ref).isSome || decide (ref ∈ final.accepted)) := by
  have initially : start.Knows ctx :=
    ⟨start_caches ctx, initial_reaches, by simp [start, initial, Held, Store.empty]⟩
  have knows : final.Knows ctx :=
    invariant (fun _ _ _ knows _ => knows.step keeps) initially
      (@heeds_of_forall _ _ _ _ _ (fun _ => True) fun _ _ => trivial) ran
  apply mapM_ok
  intro ref here
  rw [ensure_holds _ (valid ref here), ok_bind, pure_ok, Except.ok.injEq,
    Bool.eq_iff_iff, knows.reaches.containsBlock_iff knows.caches.upheld, Bool.or_eq_true,
    decide_eq_true_eq]
  apply or_congr_right
  exact ⟨knows.counted ref, knows.caches.accepted ref⟩

/-- After eviction and a restart, a block that is only stored is still known. -/
theorem containsBlocks_exact_after_restart :
    let sched := threeRounds.map DagAction.acceptBlock ++
      [.commitLeader (testBlock 1 0 [0, 1, 2]), .commitLeader (testBlock 2 1 [1, 0, 2]),
        .flush, .restart]
    let refs := [testRef 1 0, testRef 3 0, testRef 4 0, testRef 0 3]
    ∃ final, run (step shortContext) start sched = some final ∧
      testRef 1 0 ∉ final.state.recentBlocks ∧
      (refs.map fun ref => (genesisGet shortContext ref).isSome ||
        decide (ref ∈ final.accepted)) = [true, true, false, true] ∧
      final.state.containsBlocks shortContext refs = .ok (refs.map fun ref =>
        (genesisGet shortContext ref).isSome || decide (ref ∈ final.accepted)) := by
  intro sched refs
  have observed : ∃ final, run (step shortContext) start sched = some final ∧
      testRef 1 0 ∉ final.state.recentBlocks ∧
      (refs.map fun ref => (genesisGet shortContext ref).isSome ||
        decide (ref ∈ final.accepted)) = [true, true, false, true] :=
    exists_reached (by decide +kernel)
  obtain ⟨final, ran, evicted, ans⟩ := observed
  exact ⟨final, ran, evicted, ans,
    containsBlocks_exact shortContext (by decide) ran refs (by decide)⟩

end DagRun

end Mysticeti
