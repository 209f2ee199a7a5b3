import Mysticeti.CacheRuns

/-!
# Inclusion in own proposals

A proposal marks its history above the garbage-collection round as included. The queue of
the implementation is the queue traversal of the worklist library over the links of the
cache, barred where a block is garbage or included already. In a causally closed state it
returns: no block of the history is missing from the cache, and the bound of the model
suffices. Only inclusion flags change.

Over a run of proposals, accepted blocks and commits the included blocks stay closed under
ancestors above the garbage-collection round. So a traversal that stops at an included block
misses nothing, and no reference is returned twice.
-/

namespace Mysticeti

open List Lib.Outcome Lib.OrderedMap Lib.Worklist Lib.Machine Std

namespace DagState

variable {ctx : Context}

/-- Cached with the inclusion flag set. -/
def Included (st : DagState) (ref : BlockRef) : Prop :=
  ∃ info, st.recentBlocks[ref]? = some info ∧ info.included = true

/-- The references a proposal does not enter: garbage, or included already. -/
def settled (st : DagState) (gcRound : Round) : Set BlockRef :=
  {ref | ref.round ≤ gcRound ∨ st.Included ref}

/-- The effect of setting inclusion flags. -/
structure Linked (pre : DagState) (marks : Set BlockRef) (post : DagState) : Prop where
  frame : post = { pre with recentBlocks := post.recentBlocks }
  marked : ∀ ref ∈ marks, post.recentBlocks[ref]? =
    (pre.recentBlocks[ref]?).map fun info => { info with included := true }
  kept : ∀ ref ∉ marks, post.recentBlocks[ref]? = pre.recentBlocks[ref]?

namespace Linked

variable {pre mid post : DagState} {marks others : Set BlockRef}

lemma refl (st : DagState) : Linked st ∅ st :=
  ⟨rfl, fun _ mem => absurd mem (Set.notMem_empty _), fun _ _ => rfl⟩

lemma insert {ref : BlockRef} {info : BlockInfo}
    (got : pre.recentBlocks[ref]? = some info)
    (linked : Linked { pre with
      recentBlocks := pre.recentBlocks.insert ref { info with included := true } }
      marks post) : Linked pre (insert ref marks) post := by
  refine ⟨linked.frame, fun other mem => ?_, fun other absent => ?_⟩
  · by_cases same : other = ref
    · subst same
      by_cases again : other ∈ marks
      · rw [linked.marked other again]
        simp [got]
      · rw [linked.kept other again]
        simp [got]
    · rw [linked.marked other (mem.resolve_left same)]
      simp only [getElem?_insert_of_ne same]
  · rw [Set.mem_insert_iff, not_or] at absent
    rw [linked.kept other absent.2]
    exact getElem?_insert_of_ne absent.1

lemma flagged (linked : Linked pre marks post) : Flagged pre post where
  frame := linked.frame
  blocks ref := by
    by_cases mem : ref ∈ marks
    · rw [linked.marked ref mem, Option.map_map]
      rfl
    · rw [linked.kept ref mem]

lemma included_iff (linked : Linked pre marks post) (ref : BlockRef) :
    post.Included ref ↔ pre.Included ref ∨ (ref ∈ marks ∧ ref ∈ pre.recentBlocks) := by
  unfold Included
  by_cases mem : ref ∈ marks
  · simp only [linked.marked ref mem, Option.map_eq_some_iff, mem, true_and, mem_recentBlocks]
    constructor
    · rintro ⟨_, ⟨old, got, rfl⟩, _⟩
      exact .inr ⟨old, got⟩
    · rintro (⟨old, got, _⟩ | ⟨old, got⟩) <;> exact ⟨_, ⟨old, got, rfl⟩, rfl⟩
  · simp [linked.kept ref mem, mem]

end Linked

section Traversal

variable {st : DagState}

def withIncluded (st : DagState) (target : BlockRef) (info : BlockInfo) : DagState :=
  { st with recentBlocks := st.recentBlocks.insert target { info with included := true } }

lemma linked_withIncluded {target : BlockRef} {info : BlockInfo}
    (got : st.recentBlocks[target]? = some info) :
    Linked st {target} (st.withIncluded target info) := by
  simpa using (Linked.refl (st.withIncluded target info)).insert got

lemma settled_withIncluded {gcRound : Round} {target : BlockRef} {info : BlockInfo}
    (got : st.recentBlocks[target]? = some info) :
    (st.withIncluded target info).settled gcRound = insert target (st.settled gcRound) := by
  have cached : target ∈ st.recentBlocks := mem_recentBlocks.mpr ⟨info, got⟩
  ext ref
  have included := (linked_withIncluded got).included_iff ref
  by_cases same : ref = target
  · subst same
    simp only [Set.mem_insert_iff, true_or, iff_true]
    exact .inr (included.mpr (.inr ⟨rfl, cached⟩))
  · simp only [settled, Set.mem_insert_iff, same, false_or, Set.mem_ofPred_eq, included,
      Set.mem_singleton_iff, or_false, false_and]

lemma linkTargets_of_sweep {gcRound : Round} {fuel : Nat}
    {targets linked seen : List BlockRef}
    (visits : sweep st.links fuel targets (st.settled gcRound) = some seen)
    (cached : ∀ ref ∈ seen, ref ∈ st.recentBlocks) :
    ∃ post, linkTargets gcRound fuel targets linked st = .ok (linked ++ seen, post) ∧
      Linked st {ref | ref ∈ seen} post := by
  induction fuel generalizing targets linked seen st with
  | zero =>
    cases targets with
    | nil =>
      cases visits
      exact ⟨st, by simp [linkTargets], by simpa using Linked.refl st⟩
    | cons target rest => cases visits
  | succ fuel ih =>
    cases targets with
    | nil =>
      cases visits
      exact ⟨st, by simp [linkTargets], by simpa using Linked.refl st⟩
    | cons target rest =>
      rw [sweep] at visits
      by_cases garbage : target.round ≤ gcRound
      · rw [if_pos (.inl garbage)] at visits
        simp only [linkTargets, if_pos garbage]
        exact ih visits cached
      by_cases barred : target ∈ st.settled gcRound
      · obtain ⟨info, got, included⟩ := barred.resolve_left garbage
        rw [if_pos barred] at visits
        simp only [linkTargets, if_neg garbage, got, expect, ok_bind, included, if_true]
        exact ih visits cached
      · rw [if_neg barred, Option.map_eq_some_iff] at visits
        obtain ⟨later, visits, rfl⟩ := visits
        obtain ⟨info, got⟩ := mem_recentBlocks.mp (cached target (by simp))
        have fresh : info.included = false := by
          cases flag : info.included with
          | false => rfl
          | true => exact absurd (.inr ⟨info, got, flag⟩) barred
        have entered := linked_withIncluded got
        rw [links_of_cached got, ← settled_withIncluded got, ← entered.flagged.links_eq]
          at visits
        obtain ⟨post, run, marks⟩ := @ih _ _ (linked ++ [target]) _ visits
          fun ref mem => (entered.flagged.mem_iff ref).mpr (cached ref (by simp [mem]))
        refine ⟨post, ?_, ?_⟩
        · simp only [linkTargets, if_neg garbage, got, expect, ok_bind, fresh]
          rw [← append_cons] at run
          exact run
        · have marked : {ref | ref ∈ target :: later} = insert target {ref | ref ∈ later} := by
            ext ref
            simp
          exact marked ▸ marks.insert got

lemma sum_links_le (barred : Set BlockRef) :
    (∑ ref ∈ remaining st.recentBlocks.keys.toFinset barred,
      (st.links ref).length) ≤
      (st.recentBlocks.toList.map fun entry => entry.2.block.ancestors.length).sum := by
  have counted : (∑ ref ∈ st.recentBlocks.keys.toFinset,
      (st.links ref).length) =
      (st.recentBlocks.toList.map fun entry => entry.2.block.ancestors.length).sum := by
    rw [sum_toFinset _ ExtTreeMap.nodup_keys, ← ExtTreeMap.map_fst_toList_eq_keys,
      List.map_map]
    refine congrArg sum (map_congr_left fun entry mem => ?_)
    have got := ExtTreeMap.mem_toList_iff_getElem?_eq_some.mp mem
    exact congrArg List.length (links_of_cached got)
  rw [← counted]
  exact Finset.sum_le_sum_of_subset fun _ mem => (mem_remaining.mp mem).1

lemma linkCausalHistory_ok (closed : st.CausallyClosed ctx) {root : BlockRef}
    (known : root.round ≤ st.gcRound ctx ∨ root ∈ st.recentBlocks) :
    ∃ seen post, linkCausalHistory ctx st root = .ok (seen, post) ∧
      Linked st {ref | ref ∈ seen} post ∧ seen.Nodup ∧
      (∀ ref ∈ seen, ref ∈ st.recentBlocks) ∧ ∀ ref, ref ∈ seen ↔ Reached st.links
        (st.settled (st.gcRound ctx))
        (enterable (st.settled (st.gcRound ctx)) [root]) ref := by
  have inside : ∀ ref, Reached st.links (st.settled (st.gcRound ctx))
      (enterable (st.settled (st.gcRound ctx)) [root]) ref →
      ref ∈ st.recentBlocks ∧ st.gcRound ctx < ref.round := by
    intro ref reached
    refine reached.induct (motive := fun ref => ref ∈ st.recentBlocks ∧
      st.gcRound ctx < ref.round) ?_ ?_
    · intro start mem
      obtain ⟨isRoot, entered⟩ := mem_enterable.mp mem
      rw [mem_singleton] at isRoot
      subst isRoot
      have above : ¬ start.round ≤ st.gcRound ctx := fun old => entered (.inl old)
      exact ⟨known.resolve_left above, Nat.lt_of_not_le above⟩
    · intro source target ⟨_, above⟩ linked entered
      obtain ⟨info, got, mem⟩ := mem_links.mp linked
      have young := Nat.lt_of_not_le fun old => entered (.inl old)
      exact ⟨closed source info got above target mem young, young⟩
  obtain ⟨seen, visits, nodup, members⟩ := @sweep_spec BlockRef [root]
    st.recentBlocks.keys.toFinset st.links
    ((st.recentBlocks.toList.map fun entry => entry.2.block.ancestors.length).sum + 1)
    (st.settled (st.gcRound ctx))
    (fun ref reached => by
      rw [List.mem_toFinset, ExtTreeMap.mem_keys]
      exact (inside ref reached).1)
    (Nat.add_le_add_right (sum_links_le _) 1)
  have cached : ∀ ref ∈ seen, ref ∈ st.recentBlocks :=
    fun ref mem => (inside ref ((members ref).mp mem)).1
  obtain ⟨post, run, linked⟩ := @linkTargets_of_sweep _ _ _ _ [] _ visits cached
  exact ⟨seen, post, run, linked, nodup, cached, members⟩

lemma known_of_linkCausalHistory {root : BlockRef} {seen : List BlockRef} {post : DagState}
    (run : linkCausalHistory ctx st root = .ok (seen, post)) :
    root.round ≤ st.gcRound ctx ∨ root ∈ st.recentBlocks := by
  rw [linkCausalHistory, linkTargets] at run
  split at run
  · rename_i old
    exact .inl old
  · obtain ⟨info, got, -⟩ := expect_bind_eq_ok.mp run
    exact .inr (mem_recentBlocks.mpr ⟨info, got⟩)

end Traversal

/-- Included blocks have their ancestors above the garbage-collection round included. -/
def Inclusive (ctx : Context) (st : DagState) : Prop :=
  ∀ ref, st.Included ref → st.gcRound ctx < ref.round →
    ∀ target ∈ st.links ref, st.gcRound ctx < target.round → st.Included target

namespace SameBlocks

variable {pre post : DagState} {ref : BlockRef} (same : SameBlocks ctx pre post)

include same

lemma lookup {info : BlockInfo} (got : post.recentBlocks[ref]? = some info) :
    ∃ old, pre.recentBlocks[ref]? = some old ∧ old.block = info.block := by
  have kept := same.blocks ref
  rw [got, Option.map_some, eq_comm, Option.map_eq_some_iff] at kept
  exact kept

lemma links_eq : post.links = pre.links := by
  funext ref
  have kept := congrArg (Option.map VerifiedBlock.ancestors) (same.blocks ref)
  rw [Option.map_map, Option.map_map] at kept
  exact congrArg (Option.getD · []) kept

lemma wellFormed (wellFormed : pre.WellFormed ctx) : post.WellFormed ctx where
  keyed ref info got := by
    obtain ⟨old, cached, blk⟩ := same.lookup got
    exact blk ▸ wellFormed.keyed ref old cached
  valid ref info got := by
    obtain ⟨old, cached, blk⟩ := same.lookup got
    exact blk ▸ wellFormed.valid ref old cached

lemma indexed (indexed : pre.Indexed) : post.Indexed := by
  intro auth ref
  rw [same.refs, same.mem_iff]
  exact indexed auth ref

lemma causallyClosed (closed : pre.CausallyClosed ctx) : post.CausallyClosed ctx := by
  intro ref info got above anc mem young
  obtain ⟨old, cached, blk⟩ := same.lookup got
  rw [same.mem_iff]
  exact closed ref old cached (same.raised.trans_lt above) anc (blk ▸ mem)
    (same.raised.trans_lt young)

end SameBlocks

section Steps

variable {pre post : DagState} {root : BlockRef} {seen : List BlockRef}

/-- Above the garbage-collection round the inclusion flags stay, and so do the links of the
included blocks. -/
structure Carries (ctx : Context) (pre post : DagState) : Prop where
  raised : pre.gcRound ctx ≤ post.gcRound ctx
  kept : ∀ ref, post.gcRound ctx < ref.round → pre.Included ref →
    post.Included ref ∧ post.links ref = pre.links ref
  known : ∀ ref, post.gcRound ctx < ref.round → post.Included ref → pre.Included ref

lemma Carries.inclusive (carries : Carries ctx pre post)
    (inclusive : pre.Inclusive ctx) : post.Inclusive ctx := by
  intro ref included above target linked young
  have prev := carries.known ref above included
  rw [(carries.kept ref above prev).2] at linked
  exact (carries.kept target young (inclusive ref prev
    (carries.raised.trans_lt above) target linked (carries.raised.trans_lt young))).1

lemma carries_acceptBlock {blk : VerifiedBlock} (indexed : pre.Indexed)
    (run : pre.acceptBlock ctx blk = .ok post) : Carries ctx pre post where
  raised := Nat.le_of_eq (acceptBlock_gcRound run).symm
  kept := by
    rintro ref - ⟨info, got, flag⟩
    have kept := acceptBlock_lookup indexed run got
    exact ⟨⟨info, kept, flag⟩, by rw [links_of_cached kept, links_of_cached got]⟩
  known := by
    rintro ref - ⟨info, got, flag⟩
    rcases acceptBlock_found run got with prev | ⟨-, rfl⟩
    · exact ⟨info, prev, flag⟩
    · cases flag

lemma carries_flush (indexed : pre.Indexed) : Carries ctx pre (pre.flush ctx) := by
  have flushed := @flush_flushed ctx pre indexed
  have same := flushed.gcRound_eq
  refine ⟨Nat.le_of_eq same.symm, ?_, ?_⟩
  · rintro ref above ⟨info, got, flag⟩
    have kept := flushed.young (same ▸ above)
    rw [got] at kept
    exact ⟨⟨info, kept, flag⟩, by rw [links_of_cached kept, links_of_cached got]⟩
  · rintro ref above ⟨info, got, flag⟩
    exact ⟨info, flushed.found ref info got, flag⟩

lemma included_iff_map {st : DagState} {ref : BlockRef} : st.Included ref ↔
    (st.recentBlocks[ref]?).map BlockInfo.included = some true := by
  rw [Option.map_eq_some_iff]
  rfl

lemma carries_commitLeader {leader : VerifiedBlock} {collected subDags : List CommittedSubDag}
    (run : Linearizer.commitLeader ctx (collected, pre) leader = .ok (subDags, post)) :
    Carries ctx pre post := by
  have same := (commitLeader_sameBlocks run).1
  have flags := Linearizer.commitLeader_included run
  refine ⟨same.raised, fun ref _ included => ⟨?_, congrFun same.links_eq ref⟩, ?_⟩
  · rw [included_iff_map, flags ref]
    exact included_iff_map.mp included
  · intro ref _ included
    rw [included_iff_map, ← flags ref]
    exact included_iff_map.mp included

end Steps

end DagState

/-- What a node does to the DAG between its proposals, and the marking of a proposal's history. -/
inductive InclusionAction where
  | linkCausalHistory (root : BlockRef)
  | acceptBlock (blk : VerifiedBlock)
  | commitLeader (leader : VerifiedBlock)
  | flush

/-- A DAG state, and all that the markings so far have returned. -/
structure InclusionRun where
  state : DagState
  returned : List BlockRef

namespace InclusionRun

open DagState

def step (ctx : Context) (run : InclusionRun) : InclusionAction → Option InclusionRun
  | .linkCausalHistory root => (linkCausalHistory ctx run.state root).toOption.map fun linked =>
    ⟨linked.2, run.returned ++ linked.1⟩
  | .acceptBlock blk => (run.state.acceptBlock ctx blk).toOption.map fun st => ⟨st, run.returned⟩
  | .commitLeader leader =>
    (Linearizer.commitLeader ctx ([], run.state) leader).toOption.map fun committed =>
      ⟨committed.2, run.returned⟩
  | .flush => some ⟨run.state.flush ctx, run.returned⟩

/-- Accepted blocks are verified, and their ancestors above the garbage-collection round are
there. -/
def Grounded (ctx : Context) (run : InclusionRun) : InclusionAction → Prop
  | .acceptBlock blk => verifyBlock ctx blk.block = .ok () ∧ ∀ anc ∈ blk.ancestors,
    run.state.gcRound ctx < anc.round → anc ∈ run.state.recentBlocks
  | _ => True

instance (ctx : Context) (run : InclusionRun) : DecidablePred (Grounded ctx run)
  | .acceptBlock _ => inferInstanceAs (Decidable (_ ∧ _))
  | .linkCausalHistory _ | .commitLeader _ | .flush => inferInstanceAs (Decidable True)

/-- The cache is in order, the included blocks are closed under ancestors, and what was returned
is included or garbage. -/
structure Sound (ctx : Context) (run : InclusionRun) : Prop where
  wellFormed : run.state.WellFormed ctx
  indexed : run.state.Indexed
  closed : run.state.CausallyClosed ctx
  inclusive : run.state.Inclusive ctx
  settled : ∀ ref ∈ run.returned, ref ∈ run.state.settled (run.state.gcRound ctx)
  once : run.returned.Nodup

variable {ctx : Context} {pre : InclusionRun} {post : DagState} {root : BlockRef}
  {seen : List BlockRef}

lemma Sound.carry (sound : pre.Sound ctx) (carries : Carries ctx pre.state post)
    (wellFormed : post.WellFormed ctx) (indexed : post.Indexed)
    (closed : post.CausallyClosed ctx) : Sound ctx ⟨post, pre.returned⟩ where
  wellFormed := wellFormed
  indexed := indexed
  closed := closed
  inclusive := carries.inclusive sound.inclusive
  settled ref mem := by
    by_cases old : ref.round ≤ post.gcRound ctx
    · exact .inl old
    · have young := Nat.lt_of_not_le old
      refine .inr (carries.kept ref young ((sound.settled ref mem).resolve_left
        fun garbage => ?_)).1
      exact old (garbage.trans carries.raised)
  once := sound.once

/-- A marking returns new references only, and closes the included blocks over the root. -/
lemma Sound.link (sound : pre.Sound ctx)
    (run : linkCausalHistory ctx pre.state root = .ok (seen, post)) :
    Sound ctx ⟨post, pre.returned ++ seen⟩ ∧
      (post.gcRound ctx < root.round → post.Included root) := by
  obtain ⟨got, final, ret, linked, nodup, cached, members⟩ :=
    linkCausalHistory_ok sound.closed (known_of_linkCausalHistory run)
  obtain ⟨rfl, rfl⟩ := Prod.mk.inj (Except.ok.inj (run.symm.trans ret))
  have same : SameBlocks ctx pre.state post := linked.flagged.sameBlocks.1
  have sameGc : post.gcRound ctx = pre.state.gcRound ctx := by
    rw [linked.frame]
    rfl
  have kept : ∀ ref, pre.state.Included ref → post.Included ref :=
    fun ref prev => (linked.included_iff ref).mpr (.inl prev)
  have marked : ∀ ref ∈ seen, post.Included ref :=
    fun ref mem => (linked.included_iff ref).mpr (.inr ⟨mem, cached ref mem⟩)
  have fresh : ∀ ref ∈ seen, ref ∉ pre.state.settled (pre.state.gcRound ctx) := by
    intro ref mem
    rcases ((members ref).mp mem).root_or_unbarred with start | entered
    · exact (mem_enterable.mp start).2
    · exact entered
  refine ⟨⟨same.wellFormed sound.wellFormed, same.indexed sound.indexed,
    same.causallyClosed sound.closed, ?_, ?_, ?_⟩, ?_⟩
  · -- A target of a visited block is visited too, unless it was included before.
    intro ref included above target link young
    rw [sameGc] at above young
    rw [same.links_eq] at link
    rcases (linked.included_iff ref).mp included with prev | ⟨mem, -⟩
    · exact kept target (sound.inclusive ref prev above target link young)
    · by_cases barred : target ∈ pre.state.settled (pre.state.gcRound ctx)
      · exact kept target (barred.resolve_left (Nat.not_le_of_lt young))
      · exact marked target ((members target).mpr (((members ref).mp mem).next link barred))
  · intro ref mem
    rw [sameGc]
    rcases mem_append.mp mem with prev | new
    · exact (sound.settled ref prev).imp_right (kept ref)
    · exact .inr (marked ref new)
  · refine sound.once.append nodup fun ref prev new => ?_
    exact fresh ref new (sound.settled ref prev)
  · intro above
    rw [sameGc] at above
    by_cases barred : root ∈ pre.state.settled (pre.state.gcRound ctx)
    · exact kept root (barred.resolve_left (Nat.not_le_of_lt above))
    · exact marked root ((members root).mpr (.root (mem_enterable.mpr ⟨by simp, barred⟩)))

lemma Sound.step (sound : pre.Sound ctx) {act : InclusionAction} {next : InclusionRun}
    (grounded : Grounded ctx pre act) (taken : step ctx pre act = some next) :
    next.Sound ctx := by
  cases act with
  | linkCausalHistory root =>
    obtain ⟨⟨seen, post⟩, run, rfl⟩ := Option.map_eq_some_iff.mp taken
    exact (sound.link (toOption_eq_some.mp run)).1
  | acceptBlock blk =>
    obtain ⟨post, run, rfl⟩ := Option.map_eq_some_iff.mp taken
    have accepts := toOption_eq_some.mp run
    exact sound.carry (carries_acceptBlock sound.indexed accepts)
      (sound.wellFormed.acceptBlock (validBlock_of_verifyBlock grounded.1) accepts)
      (sound.indexed.acceptBlock accepts)
      (sound.closed.acceptBlock sound.indexed grounded.2 accepts)
  | commitLeader leader =>
    obtain ⟨⟨subDags, post⟩, run, rfl⟩ := Option.map_eq_some_iff.mp taken
    have commits := toOption_eq_some.mp run
    have same := (commitLeader_sameBlocks commits).1
    exact sound.carry (carries_commitLeader commits) (same.wellFormed sound.wellFormed)
      (same.indexed sound.indexed) (same.causallyClosed sound.closed)
  | flush =>
    obtain rfl := Option.some.inj taken
    have flushed := @flush_flushed ctx pre.state sound.indexed
    exact sound.carry (carries_flush sound.indexed) (flushed.wellFormed sound.wellFormed)
      flushed.indexed (flushed.causallyClosed sound.closed)

/-- Everything above the garbage-collection round in the history of an included block is
included. -/
lemma included_of_history {st : DagState} (wellFormed : st.WellFormed ctx)
    (inclusive : st.Inclusive ctx)
    (included : st.gcRound ctx < root.round → st.Included root) {ref : BlockRef}
    (path : Relation.ReflTransGen (fun source target => target ∈ st.links source) root ref)
    (above : st.gcRound ctx < ref.round) : st.Included ref := by
  induction path with
  | refl => exact included above
  | tail _ link ih =>
    have higher := above.trans (wellFormed.links_round link)
    exact inclusive _ (ih higher) higher _ link above

/-- From a causally closed state whose included blocks are closed under ancestors, no two markings
return the same reference, in whatever order blocks are marked, accepted, committed and flushed.
The marking of any block that is there ends, and leaves its history above the garbage-collection
round included. -/
theorem returned_once (ctx : Context) {start : DagState} {sched : List InclusionAction}
    {reached : InclusionRun} (wellFormed : start.WellFormed ctx) (indexed : start.Indexed)
    (closed : start.CausallyClosed ctx) (inclusive : start.Inclusive ctx)
    (grounded : Heeds (step ctx) (Grounded ctx) ⟨start, []⟩ sched)
    (ran : run (step ctx) ⟨start, []⟩ sched = some reached) :
    reached.returned.Nodup ∧
      ∀ root, root.round ≤ reached.state.gcRound ctx ∨ root ∈ reached.state.recentBlocks →
        ∃ seen post, linkCausalHistory ctx reached.state root = .ok (seen, post) ∧
          (reached.returned ++ seen).Nodup ∧ post.Inclusive ctx ∧
          ∀ ref, Relation.ReflTransGen (fun source target => target ∈ post.links source) root ref →
            post.gcRound ctx < ref.round → post.Included ref := by
  have sound : reached.Sound ctx := invariant (fun _ _ _ sound => sound.step)
    ⟨wellFormed, indexed, closed, inclusive, by simp, nodup_nil⟩ grounded ran
  refine ⟨sound.once, fun root known => ?_⟩
  obtain ⟨seen, post, linked, -⟩ := linkCausalHistory_ok sound.closed known
  obtain ⟨next, isIncluded⟩ := sound.link linked
  exact ⟨seen, post, linked, next.once, next.inclusive,
    fun ref path above => included_of_history next.wellFormed next.inclusive isIncluded path above⟩

/-- Two markings with a commit between them, and a third that finds nothing new. -/
theorem returned_once_threeRounds :
    let ctx := Context.newForTest firstAuthority
    let sched := threeRounds.map InclusionAction.acceptBlock ++
      [.linkCausalHistory (testRef 2 0), .commitLeader (testBlock 1 0 [0, 1, 2]), .flush,
        .linkCausalHistory (testRef 3 1), .linkCausalHistory (testRef 2 1)]
    ∃ reached, run (step ctx) ⟨initial, []⟩ sched = some reached ∧
      reached.returned.length = 7 ∧ reached.returned.Nodup := by
  intro ctx sched
  obtain ⟨reached, ran, count⟩ : ∃ reached, run (step ctx) ⟨initial, []⟩ sched = some reached ∧
      reached.returned.length = 7 := exists_reached (by decide +kernel)
  have grounded : Heeds (step ctx) (Grounded ctx) ⟨initial, []⟩ sched :=
    heeds_of_checks (fun _ _ => of_decide_eq_true) (by decide +kernel)
  exact ⟨reached, ran, count, (returned_once ctx (initial_wellFormed ctx) initial_indexed
    (initial_causallyClosed ctx) (by simp [Inclusive, Included, initial]) grounded ran).1⟩

end InclusionRun

end Mysticeti
