import Mysticeti.BlockManagerRun
import Mysticeti.Lib.Closure

/-!
# The order of arrival does not matter

Received blocks may come in any order, in any batches and more than once. Which of them are
accepted is stated without an order: a delivered block above the garbage-collection round is
accepted once its ancestors above that round are. The cascade of releases is sound for this
at every step; and it is closed when everything was delivered, since a suspended block waits
for an ancestor that was not accepted. So what is accepted is the least such set, and what is
suspended is the rest.
-/

namespace Mysticeti

open List Lib.Outcome Lib.OrderedMap Lib.Log Lib.Closure

namespace DagState

variable {ctx : Context} {admitted : Set VerifiedBlock} {st post : DagState}

lemma acceptBlocks_store {blocks : List VerifiedBlock}
    (run : st.acceptBlocks ctx blocks = .ok post) : post.store = st.store := by
  refine @foldlM_preserves _ _ _ _ _ (fun mid : DagState => mid.store = st.store) _ _
    run rfl ?_
  intro mid blk next _ same stepped
  obtain ⟨-, ⟨-, rfl⟩ | ⟨-, -, -, rfl⟩⟩ := acceptBlock_cases stepped
  · exact same
  · exact same

lemma refuses_nothing (valid : ∀ blk ∈ admitted, ValidBlock ctx blk.block.inner)
    (single : ∀ first ∈ admitted, ∀ second ∈ admitted, first.author = ctx.ownIndex →
      first.slot = second.slot → first = second) :
    Refuses ctx admitted (fun _ => False) := by
  intro st blocks kept inside
  refine Meets.imp (@Meets.foldlM _ _ _ _ _ _ (Kept ctx admitted) _ kept ?_)
    fun _ _ _ => trivial
  intro st blk mem kept
  have blockInside := inside blk mem
  refine (acceptBlock_meets (valid blk blockInside) ?_).imp
    fun post run _ => kept.acceptBlock blockInside run
  intro unknown own taken
  -- Whatever is cached in the slot is the block itself, which is not there.
  obtain ⟨other, here⟩ := exists_mem_of_ne_nil _ taken
  rw [getUncommittedBlocksAtSlot, List.mem_map] at here
  obtain ⟨info, scanned, rfl⟩ := here
  obtain ⟨ref, atSlot, got⟩ := mem_scan.mp scanned
  obtain ⟨keyed, otherInside⟩ := kept.cached ref info got
  rw [Bool.and_eq_true, decide_eq_true_eq, decide_eq_true_eq] at atSlot
  have sameSlot : blk.slot = info.block.slot := by
    rw [← VerifiedBlock.reference_slot info.block, keyed, BlockRef.slot, atSlot.1, atSlot.2]
  have same := single blk blockInside info.block otherInside own sameSlot
  rw [← same] at keyed
  rw [keyed, kept.indexed.containsBlock (mem_of_getElem? got)] at unknown
  exact Bool.noConfusion unknown

lemma containsBlock_congr {left right : DagState} (leftIndexed : left.Indexed)
    (rightIndexed : right.Indexed) (store : left.store = right.store)
    (same : ∀ ref : BlockRef, ref ∈ left.recentBlocks ↔ ref ∈ right.recentBlocks)
    (ref : BlockRef) :
    left.containsBlock ctx ref = right.containsBlock ctx ref := by
  have refs : left.recentRefsByAuthority ref.author = right.recentRefsByAuthority ref.author := by
    apply Std.ExtTreeSet.ext_mem
    intro other
    rw [leftIndexed, rightIndexed, same]
  rw [containsBlock, containsBlock, refs, store]

end DagState

namespace BlockManager

open DagState

variable {ctx : Context} {admitted : Set VerifiedBlock} {st : DagState}
  {delivered seen : Set VerifiedBlock} {mgr post : BlockManager} {root : BlockRef}
  {blk : VerifiedBlock}

def deliver (ctx : Context) (mgr : BlockManager) (batches : List (List VerifiedBlock)) :
    Except Panic BlockManager :=
  batches.foldlM (fun mgr blocks => do
    let res ← mgr.tryAcceptBlocks ctx blocks
    pure res.2.2) mgr

def acceptance (ctx : Context) (st : DagState) (delivered : Set VerifiedBlock) :
    System BlockRef VerifiedBlock where
  known := {ref | ref ∈ st.recentBlocks}
  rules := {blk | blk ∈ delivered ∧ st.gcRound ctx < blk.round}
  head := VerifiedBlock.reference
  needs blk := {anc | anc ∈ blk.ancestors ∧ st.gcRound ctx < anc.round}

/-- The blocks seen so far were accepted or suspended, and only what is to be accepted was. -/
structure Delivering (ctx : Context) (admitted : Set VerifiedBlock) (st : DagState)
    (delivered seen : Set VerifiedBlock) (mgr : BlockManager) : Prop where
  booked : mgr.Booked ctx admitted
  closed : mgr.dagState.CausallyClosed ctx
  sameGc : mgr.dagState.gcRound ctx = st.gcRound ctx
  sameStore : mgr.dagState.store = st.store
  grown : ∀ ref ∈ st.recentBlocks, ref ∈ mgr.dagState.recentBlocks
  sound : ∀ ref ∈ mgr.dagState.recentBlocks, (acceptance ctx st delivered).Derives ref
  held : ∀ (ref : BlockRef) (suspended : SuspendedBlock),
    mgr.suspendedBlocks[ref]? = some suspended →
      suspended.block ∈ (acceptance ctx st delivered).rules
  young : ∀ key ∈ mgr.missingAncestors, st.gcRound ctx < key.round
  seen : ∀ blk ∈ seen, st.gcRound ctx < blk.round →
    blk.reference ∈ mgr.dagState.recentBlocks ∨ blk.reference ∈ mgr.suspendedBlocks

section Step

lemma Waiting.restrict {few : Set VerifiedBlock} {has : BlockRef → Prop}
    {unprocessed : BlockRef → BlockRef → Prop}
    (waiting : mgr.Waiting ctx admitted has unprocessed)
    (held : ∀ (ref : BlockRef) (suspended : SuspendedBlock),
      mgr.suspendedBlocks[ref]? = some suspended → suspended.block ∈ few) :
    mgr.Waiting ctx few has unprocessed :=
  ⟨waiting.agree, fun ref suspended got =>
    { waiting.waits ref suspended got with inside := held ref suspended got }⟩

lemma Rooted.release_parts (rooted : Rooted ctx admitted root mgr)
    {few : Set VerifiedBlock} (held : ∀ (ref : BlockRef) (suspended : SuspendedBlock),
      mgr.suspendedBlocks[ref]? = some suspended → suspended.block ∈ few)
    {toAccept acc : List VerifiedBlock}
    (run : acceptWithChildren ctx mgr root toAccept = .ok (acc, post)) :
    ∃ freed, Grown (Follows ctx mgr.dagState root) freed ∧
      (∀ blk ∈ freed, blk ∈ few) ∧
      mgr.dagState.acceptBlocks ctx (toAccept ++ freed) = .ok post.dagState ∧
      (∀ (ref : BlockRef) (suspended : SuspendedBlock),
        post.suspendedBlocks[ref]? = some suspended → suspended.block ∈ few) ∧
      ∀ ref ∈ mgr.suspendedBlocks, ref ∈ post.suspendedBlocks ∨
        ref ∈ freed.map VerifiedBlock.reference := by
  obtain ⟨freed, mid, released, -, clearing⟩ := rooted.unsuspend
  obtain ⟨others, final, again, releasing⟩ :=
    tryUnsuspendChildrenBlocks_ok ((rooted.managed.awaitRoot root).restrict held)
  rw [released, Except.ok.injEq, Prod.mk.injEq] at again
  obtain ⟨rfl, rfl⟩ := again
  rw [acceptWithChildren, released, ok_bind, bind_eq_ok] at run
  obtain ⟨dagState, entering, run⟩ := run
  rw [pure_ok, Except.ok.injEq, Prod.mk.injEq] at run
  obtain ⟨-, rfl⟩ := run
  rw [releasing.sameState] at entering
  exact ⟨freed, releasing.ordered, releasing.inside, entering,
    fun ref suspended got => (releasing.waiting.waits ref suspended got).inside,
    clearing.stays⟩

variable (valid : ∀ blk ∈ admitted, ValidBlock ctx blk.block.inner)
  (within : ∀ blk ∈ delivered, blk ∈ admitted)

include valid within

section

variable (delivering : Delivering ctx admitted st delivered seen mgr)

include delivering

lemma Delivering.release {mid : BlockManager} {released : List VerifiedBlock}
    (inPlay : blk ∈ delivered) (noted : Noted ctx mgr blk (.accepted blk) mid)
    (rooted : Rooted ctx admitted blk.reference mid)
    (closed : post.dagState.CausallyClosed ctx)
    (run : acceptWithChildren ctx mid blk.reference [blk] = .ok (released, post)) :
    Delivering ctx admitted st delivered (insert blk seen) post := by
  obtain ⟨-, nothing, sameBlocks⟩ | ⟨⟨fetched, impossible⟩, -⟩ := noted.outcome
  swap
  · cases impossible
  have kept := delivering.booked.managed.kept
  have inside := within blk inPlay
  have covered : mid.dagState.gcRound ctx < blk.reference.round →
      Present mid.dagState ([blk].map VerifiedBlock.reference) blk.reference :=
    fun _ => .inr (by simp)
  obtain ⟨booked, sameGc, narrowed⟩ := (rooted.release (refuses_ownSlotTaken valid)
    (by simpa using inside) (by simp) covered).of_ok run
  obtain ⟨freed, chain, among, entering, held, stays⟩ :=
    @Rooted.release_parts ctx admitted _ post _ rooted
      (acceptance ctx st delivered).rules
      (fun ref suspended got => delivering.held ref suspended (sameBlocks ▸ got))
      _ _ run
  rw [noted.sameState] at covered sameGc chain entering
  have fires : ∀ other ∈ [blk] ++ freed, other ∈ (acceptance ctx st delivered).rules := by
    intro other mem
    rcases mem_append.mp mem with first | released
    · rw [mem_singleton.mp first]
      exact ⟨inPlay, delivering.sameGc ▸ noted.above⟩
    · exact among other released
  obtain ⟨-, entered⟩ := kept.acceptBlocks
    (fun other mem => within other (fires other mem).1) entering
  have ordered : InOrder ctx mgr.dagState ([blk] ++ freed) := by
    refine inOrder_append (grown_singleton.mpr ?_) covered chain
    exact fun anc mem above => .inl (mem_of_not_missing kept mem above (by simp [nothing]))
  have derived := @System.derives_of_grown _ _ (acceptance ctx st delivered) _
    (ordered.imp fun prev other has need needed => by
      rcases has need needed.1 (delivering.sameGc ▸ needed.2) with cached | here
      · exact .inl (delivering.sound need cached)
      · exact .inr here) fires
  have acc : ∀ other ∈ [blk] ++ freed,
      other.reference ∈ post.dagState.recentBlocks := fun other mem =>
    entered.cached other mem (delivering.sameGc.symm ▸ (fires other mem).2)
  constructor
  · exact booked
  · exact closed
  · exact sameGc.trans delivering.sameGc
  · exact (acceptBlocks_store entering).trans delivering.sameStore
  · exact fun ref cached => entered.mem (delivering.grown ref cached)
  · intro ref cached
    obtain ⟨info, got⟩ := mem_recentBlocks.mp cached
    rcases entered.found ref info got with pre | ⟨other, mem, rfl, -⟩
    · exact delivering.sound ref (mem_recentBlocks.mpr ⟨info, pre⟩)
    · exact derived other mem
  · exact held
  · intro key awaited
    have pre := (noted.index key).mp (narrowed key awaited).1
    rw [nothing] at pre
    exact delivering.young key (by simpa using pre)
  · intro other mem above
    rcases mem with rfl | prev
    · exact .inl (acc other (by simp))
    rcases delivering.seen other prev above with cached | suspended
    · exact .inl (entered.mem cached)
    · rcases stays other.reference (sameBlocks ▸ suspended) with still | here
      · exact .inr still
      · obtain ⟨released, mem, same⟩ := List.mem_map.mp here
        rw [← same]
        exact .inl (acc released (mem_append_right _ mem))

lemma Delivering.suspend {fetched : Std.ExtTreeSet BlockRef} (inPlay : blk ∈ delivered)
    (noted : Noted ctx mgr blk (.suspended fetched) post)
    (booked : post.Booked ctx admitted) :
    Delivering ctx admitted st delivered (insert blk seen) post := by
  obtain ⟨impossible, -⟩ | ⟨-, -, blocks⟩ := noted.outcome
  · cases impossible
  have same := noted.sameState
  constructor
  · exact booked
  · exact same ▸ delivering.closed
  · exact same ▸ delivering.sameGc
  · exact same ▸ delivering.sameStore
  · exact same ▸ delivering.grown
  · exact same ▸ delivering.sound
  · intro ref suspended got
    rw [blocks] at got
    rcases getElem?_insert_cases got with ⟨rfl, rfl⟩ | ⟨-, got⟩
    · exact ⟨inPlay, delivering.sameGc ▸ noted.above⟩
    · exact delivering.held ref suspended got
  · intro key awaited
    rcases (noted.index key).mp awaited with pre | missing
    · exact delivering.young key pre
    · rw [← delivering.sameGc]
      exact (of_missingOf (valid blk (within blk inPlay)) delivering.booked.managed.kept
        missing).2.1
  · intro other mem above
    rw [blocks, same, mem_insertKey_iff]
    rcases mem with rfl | prev
    · exact .inr (.inl rfl)
    · exact (delivering.seen other prev above).imp_right .inr

lemma Delivering.receive (inPlay : blk ∈ delivered) {acc : List VerifiedBlock}
    {missing : Std.ExtTreeSet BlockRef} {next : Accepting}
    (run : acceptReceived ctx (acc, missing, mgr) blk = .ok next) :
    Delivering ctx admitted st delivered (insert blk seen) next.2.2 := by
  have inside := within blk inPlay
  have booked := (delivering.booked.acceptReceived valid (refuses_ownSlotTaken valid)
    inside).of_ok run
  obtain ⟨-, -, -, closing⟩ := acceptReceived_accepted delivering.booked.managed inside run
  have closed := closing delivering.closed
  have known (placed : st.gcRound ctx < blk.round →
      blk.reference ∈ mgr.dagState.recentBlocks ∨ blk.reference ∈ mgr.suspendedBlocks) :
      Delivering ctx admitted st delivered (insert blk seen) mgr :=
    { delivering with
      seen := by
        rintro other (rfl | prev)
        · exact placed
        · exact delivering.seen other prev }
  rw [acceptReceived] at run
  dsimp only at run
  cases tried : tryAcceptOneBlock ctx mgr blk with
  | mk res mid =>
    rw [tried] at run
    obtain ⟨rfl, rfl, old⟩ | ⟨rfl, rfl, old⟩ | ⟨noted, -⟩ := tryAcceptOneBlock_inv tried
    · obtain rfl := Except.ok.inj run
      refine known fun above => ?_
      rw [← delivering.sameGc] at above
      exact (old.imp_right (delivering.booked.managed.kept.mem_of_contains above)).symm
    · obtain rfl := Except.ok.inj run
      refine known fun above => ?_
      rw [← delivering.sameGc] at above
      exact absurd above (Nat.not_lt_of_le old)
    · have noting := noted
      obtain ⟨rfl, -⟩ | ⟨⟨fetched, rfl⟩, -⟩ := noted.outcome
      · obtain ⟨-, rooted⟩ | ⟨unreleased, -⟩ :=
          delivering.booked.tryAcceptOneBlock valid inside tried
        · dsimp only at run
          rw [bind_eq_ok] at run
          obtain ⟨⟨released, final⟩, releasing, run⟩ := run
          obtain rfl := Except.ok.inj run
          exact delivering.release valid within inPlay noting rooted closed releasing
        · exact absurd rfl (unreleased blk)
      · obtain rfl := Except.ok.inj run
        exact delivering.suspend valid within inPlay noting booked

end

lemma Delivering.receiveAll {blocks : List VerifiedBlock} {progress next : Accepting}
    (delivering : Delivering ctx admitted st delivered seen progress.2.2)
    (inPlay : ∀ blk ∈ blocks, blk ∈ delivered)
    (run : blocks.foldlM (acceptReceived ctx) progress = .ok next) :
    Delivering ctx admitted st delivered (seen ∪ {blk | blk ∈ blocks}) next.2.2 := by
  induction blocks generalizing seen progress with
  | nil =>
    obtain rfl := Except.ok.inj run
    simpa using delivering
  | cons blk rest ih =>
    rw [foldlM_cons, bind_eq_ok] at run
    obtain ⟨mid, stepped, run⟩ := run
    obtain ⟨acc, missing, mgr⟩ := progress
    have later := ih
      (delivering.receive valid within (inPlay blk (by simp)) stepped)
      (fun other mem => inPlay other (by simp [mem])) run
    have same : insert blk seen ∪ {other | other ∈ rest} =
        seen ∪ {other | other ∈ blk :: rest} := by
      ext other
      simp only [Set.mem_union, Set.mem_insert_iff, Set.mem_ofPred_eq, mem_cons]
      tauto
    exact same ▸ later

lemma Delivering.deliver {batches : List (List VerifiedBlock)}
    (delivering : Delivering ctx admitted st delivered seen mgr)
    (inPlay : ∀ blk ∈ batches.flatten, blk ∈ delivered)
    (run : deliver ctx mgr batches = .ok post) :
    Delivering ctx admitted st delivered (seen ∪ {blk | blk ∈ batches.flatten})
      post := by
  induction batches generalizing seen mgr with
  | nil =>
    obtain rfl := Except.ok.inj run
    simpa using delivering
  | cons batch rest ih =>
    rw [BlockManager.deliver, foldlM_cons, bind_eq_ok] at run
    obtain ⟨mid, stepped, run⟩ := run
    rw [bind_eq_ok] at stepped
    obtain ⟨res, recv, stepped⟩ := stepped
    obtain rfl := Except.ok.inj stepped
    have sorting := perm_insertionSort (fun left right : VerifiedBlock =>
      left.round ≤ right.round) batch
    have now := @Delivering.receiveAll _ _ _ _ _ valid within _ ([], ∅, mgr) _ delivering
      (fun blk mem => inPlay blk (by simp [sorting.mem_iff.mp mem])) recv
    have later := ih now
      (fun blk mem => inPlay blk (by simp [mem_flatten.mp mem])) run
    have same : seen ∪ {blk | blk ∈ batch.insertionSort fun left right =>
        left.round ≤ right.round} ∪ {blk | blk ∈ rest.flatten} =
          seen ∪ {blk | blk ∈ (batch :: rest).flatten} := by
      ext blk
      simp only [Set.mem_union, Set.mem_ofPred_eq, sorting.mem_iff, flatten_cons, mem_append]
      tauto
    exact same ▸ later

end Step

section Delivered

variable {batches : List (List VerifiedBlock)}

lemma delivering_new (kept : Kept ctx admitted st)
    (closed : st.CausallyClosed ctx) :
    Delivering ctx admitted st delivered ∅ (new st) where
  booked := booked_new kept
  closed := closed
  sameGc := rfl
  sameStore := rfl
  grown _ cached := cached
  sound _ cached := .known cached
  held := by simp [new]
  young := by simp [new]
  seen := by simp

/-- When everything was delivered, the accepted blocks are closed: a suspended block waits
for an ancestor that was not accepted. -/
lemma Delivering.complete (delivering : Delivering ctx admitted st delivered delivered
      mgr) (within : ∀ blk ∈ delivered, blk ∈ admitted)
    (identified : ∀ first ∈ admitted, ∀ second ∈ admitted,
      first.reference = second.reference → first = second) :
    (acceptance ctx st delivered).Closed
      {ref | ref ∈ mgr.dagState.recentBlocks} where
  known := delivering.grown
  fired := by
    rintro blk ⟨inPlay, above⟩ ready
    rcases delivering.seen blk inPlay above with cached | held
    · exact cached
    obtain ⟨suspended, got⟩ := getElem?_of_mem held
    have waits := delivering.booked.managed.waiting.waits _ suspended got
    have same : suspended.block = blk := identified _ waits.inside _ (within blk inPlay)
      waits.keyed
    obtain ⟨anc, missed⟩ := delivering.booked.lacking _ suspended got
    obtain ⟨kids, here, -⟩ :=
      (delivering.booked.bookkeeping.agree _ anc).mp ⟨suspended, got, missed⟩
    have awaited : anc ∈ mgr.missingAncestors := mem_of_getElem? here
    have cached := ready anc
      ⟨same ▸ waits.missing anc missed, delivering.young anc awaited⟩
    exact absurd (.inl cached) (delivering.booked.unheld anc (.inr awaited))

lemma Delivering.suspended_iff (delivering : Delivering ctx admitted st delivered
      delivered mgr) (ref : BlockRef) :
    ref ∈ mgr.suspendedBlocks ↔
      (∃ blk ∈ (acceptance ctx st delivered).rules, blk.reference = ref) ∧
        ref ∉ mgr.dagState.recentBlocks := by
  constructor
  · intro held
    have unheld := delivering.booked.unheld ref (.inl held)
    obtain ⟨suspended, got⟩ := getElem?_of_mem held
    refine ⟨⟨suspended.block, delivering.held ref suspended got, ?_⟩,
      fun cached => unheld (.inl cached)⟩
    exact (delivering.booked.managed.waiting.waits ref suspended got).keyed
  · rintro ⟨⟨blk, ⟨inPlay, above⟩, rfl⟩, uncached⟩
    exact (delivering.seen blk inPlay above).resolve_left uncached

lemma Booked.deliver (valid : ∀ blk ∈ admitted, ValidBlock ctx blk.block.inner)
    (refuses : Refuses ctx admitted (fun _ => False))
    (booked : mgr.Booked ctx admitted)
    (inside : ∀ blk ∈ batches.flatten, blk ∈ admitted) :
    ∃ final, BlockManager.deliver ctx mgr batches = .ok final := by
  have delivers : Meets (fun _ => False) (Booked ctx admitted)
      (BlockManager.deliver ctx mgr batches) := by
    apply Meets.foldlM booked
    intro mgr batch mem booked
    have recv := booked.tryAcceptBlocks valid refuses fun blk here =>
      inside blk (mem_flatten.mpr ⟨batch, mem, here⟩)
    exact recv.bind fun _ _ closed => closed
  obtain ⟨final, run, -⟩ := delivers.returns
  exact ⟨final, run⟩

/-- Two deliveries of the same blocks accept the same blocks and suspend the same blocks. A
delivered block above the garbage-collection round is accepted exactly when its ancestors
above it are. References identify blocks, since digests do not collide. A delivery can stop
only at a second block in an own slot. -/
theorem acceptance_confluent
    (valid : ∀ blk ∈ admitted, ValidBlock ctx blk.block.inner)
    (identified : ∀ first ∈ admitted, ∀ second ∈ admitted,
      first.reference = second.reference → first = second)
    (kept : Kept ctx admitted st) (closed : st.CausallyClosed ctx)
    (first second : List (List VerifiedBlock))
    (inside : ∀ blk ∈ first.flatten, blk ∈ admitted)
    (same : ∀ blk, blk ∈ first.flatten ↔ blk ∈ second.flatten) :
    (∀ left right, deliver ctx (new st) first = .ok left →
      deliver ctx (new st) second = .ok right →
        (∀ ref, left.dagState.containsBlock ctx ref = right.dagState.containsBlock ctx ref) ∧
        (∀ ref, ref ∈ left.suspendedBlocks ↔ ref ∈ right.suspendedBlocks) ∧
        ∀ blk ∈ first.flatten, st.gcRound ctx < blk.round →
          (left.dagState.containsBlock ctx blk.reference = true ↔
            ∀ anc ∈ blk.ancestors, st.gcRound ctx < anc.round →
              left.dagState.containsBlock ctx anc = true)) ∧
      ((∀ own ∈ admitted, ∀ other ∈ admitted, own.author = ctx.ownIndex →
          own.slot = other.slot → own = other) →
        ∃ left, deliver ctx (new st) first = .ok left) := by
  constructor
  · intro left right ranLeft ranRight
    have start := @delivering_new ctx admitted st {blk | blk ∈ first.flatten} kept closed
    have leftAll := start.deliver valid inside (fun _ mem => mem) ranLeft
    have rightAll := start.deliver valid inside (fun blk => (same blk).mpr) ranRight
    have sameSet : {blk | blk ∈ second.flatten} = {blk | blk ∈ first.flatten} :=
      Set.ext fun blk => (same blk).symm
    rw [Set.empty_union] at leftAll
    rw [Set.empty_union, sameSet] at rightAll
    have leftClosed := leftAll.complete inside identified
    have rightClosed := rightAll.complete inside identified
    have cached : ∀ ref : BlockRef, ref ∈ left.dagState.recentBlocks ↔
        ref ∈ right.dagState.recentBlocks := fun ref =>
      (System.mem_iff_derives leftAll.sound leftClosed).trans
        (System.mem_iff_derives rightAll.sound rightClosed).symm
    have keptLeft := leftAll.booked.managed.kept
    refine ⟨?_, fun ref => ?_, fun blk mem above => ?_⟩
    · exact containsBlock_congr keptLeft.indexed rightAll.booked.managed.kept.indexed
        (leftAll.sameStore.trans rightAll.sameStore.symm) cached
    · rw [leftAll.suspended_iff, rightAll.suspended_iff, cached]
    · rw [← leftAll.sameGc] at above
      constructor
      · intro known anc linked ancestorAbove
        rw [← leftAll.sameGc] at ancestorAbove
        obtain ⟨info, got⟩ := mem_recentBlocks.mp (keptLeft.mem_of_contains above known)
        obtain ⟨keyed, held⟩ := keptLeft.cached _ info got
        have isBlock := identified _ held _ (inside blk mem) keyed
        exact keptLeft.indexed.containsBlock
          (leftAll.closed _ info got above anc (isBlock ▸ linked) ancestorAbove)
      · intro ready
        refine keptLeft.indexed.containsBlock (leftClosed.fired blk
          ⟨mem, leftAll.sameGc ▸ above⟩ ?_)
        rintro anc ⟨linked, ancestorAbove⟩
        have known := ready anc linked ancestorAbove
        rw [← leftAll.sameGc] at ancestorAbove
        exact keptLeft.mem_of_contains ancestorAbove known
  · intro single
    exact (booked_new kept).deliver valid (refuses_nothing valid single) inside

def descendantFirst : List (List VerifiedBlock) :=
  [[testBlock 2 0 [0, 1, 2]], [testBlock 1 0 [0, 1, 2], testBlock 1 1 [1, 0, 2]],
    [testBlock 1 2 [2, 0, 1], testBlock 3 0 [0, 1, 2]]]

def withRepetition : List (List VerifiedBlock) :=
  [[testBlock 1 2 [2, 0, 1]],
    [testBlock 3 0 [0, 1, 2], testBlock 2 0 [0, 1, 2], testBlock 1 0 [0, 1, 2]],
    [testBlock 1 2 [2, 0, 1], testBlock 1 1 [1, 0, 2]]]

theorem acceptance_confluent_twoOrders : ∃ left right,
    deliver (Context.newForTest 3) (new .initial) descendantFirst = .ok left ∧
    deliver (Context.newForTest 3) (new .initial) withRepetition = .ok right ∧
    left.suspendedBlocks.keys = [testRef 3 0] ∧
    (∀ ref, left.dagState.containsBlock (Context.newForTest 3) ref =
      right.dagState.containsBlock (Context.newForTest 3) ref) ∧
    ∀ ref, ref ∈ left.suspendedBlocks ↔ ref ∈ right.suspendedBlocks := by
  have verified : ∀ blk ∈ threeRounds,
      verifyBlock (Context.newForTest 3) blk.block = .ok () := by decide +kernel
  have confluent := @acceptance_confluent (Context.newForTest 3) {blk | blk ∈ threeRounds}
    .initial (fun blk mem => validBlock_of_verifyBlock (verified blk mem))
    (by simp only [Set.mem_ofPred_eq]; decide +kernel) (initial_kept _ _)
    (initial_causallyClosed _)
  have there : ∀ blk ∈ descendantFirst.flatten, blk ∈ threeRounds := by decide +kernel
  have forth : ∀ blk ∈ descendantFirst.flatten, blk ∈ withRepetition.flatten := by decide +kernel
  have back : ∀ blk ∈ withRepetition.flatten, blk ∈ descendantFirst.flatten := by decide +kernel
  have computed : (deliver (Context.newForTest 3) (new .initial) descendantFirst).map
      (fun mgr => mgr.suspendedBlocks.keys) = .ok [testRef 3 0] := by decide +kernel
  have single : ∀ own ∈ threeRounds, ∀ other ∈ threeRounds,
      own.author = (Context.newForTest 3).ownIndex → own.slot = other.slot → own = other := by
    decide +kernel
  obtain ⟨same, returns⟩ := confluent descendantFirst withRepetition there
    fun blk => ⟨forth blk, back blk⟩
  obtain ⟨-, returnsToo⟩ := confluent withRepetition descendantFirst
    (fun blk mem => there blk (back blk mem)) fun blk => ⟨back blk, forth blk⟩
  obtain ⟨left, ranLeft⟩ := returns single
  obtain ⟨right, ranRight⟩ := returnsToo single
  obtain ⟨acc, suspended, -⟩ := same left right ranLeft ranRight
  rw [ranLeft] at computed
  exact ⟨left, right, ranLeft, ranRight, Except.ok.inj computed, acc, suspended⟩

end Delivered

end BlockManager

end Mysticeti
