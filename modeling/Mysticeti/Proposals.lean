import Mysticeti.OwnBlocks

/-!
# Proposals across crashes

A node hands its blocks to the broadcast signal. `Core::try_new_block` accepts a block above
the last own one, flushes, and returns it; only then is it signalled. After a restart
`Core::recover` proposes again or, if it does not, signals the last own block once more. A
crash may fall between any two of these steps, and everything that was not flushed is lost.

When to propose and with which content is left open here: any block of the threshold clock's
round may be proposed once the check of the last own round has passed. In between, the other
tasks of the core do what they like with the DAG state. While it recovers, a core accepts no
blocks of others, as its block manager is empty and no commits were fetched yet.
-/

namespace Mysticeti

open List Option Lib.Outcome Lib.OrderedMap Lib.Machine DagState

inductive ProposalPhase where
  | recovering
  | idle
  | accepted (blk : VerifiedBlock)
  | flushed (blk : VerifiedBlock)

/-- Other operations of the core in between: everything but a restart, and no block before
the recovery is over. -/
def ProposalPhase.admits : ProposalPhase → DagAction → Bool
  | _, .restart => false
  | .recovering, .acceptBlock _ => false
  | _, _ => true

/-- A core with its DAG state and the blocks it handed to the broadcast signal, also before
the last restarts. -/
structure ProposingCore where
  state : DagState
  phase : ProposalPhase
  signaled : List VerifiedBlock

inductive ProposingAction where
  | background (act : DagAction)
  | tryNewBlock (blk : VerifiedBlock)
  | flushProposal
  | signalProposal
  | signalLastProposed
  | restart

namespace ProposingCore

def start : ProposingCore := ⟨DagState.initial, .recovering, []⟩

def acceptProposal (ctx : Context) (st : DagState) (blk : VerifiedBlock) : Option DagState := do
  let last ← (st.getLastProposedBlock ctx).toOption
  if last.round < st.thresholdClock.round ∧ blk.round = st.thresholdClock.round ∧
      blk.author = ctx.ownIndex then
    (st.acceptBlock ctx blk).toOption
  else none

def step (ctx : Context) (core : ProposingCore) : ProposingAction → Option ProposingCore
  | .background act =>
    if core.phase.admits act then
      (DagRun.perform ctx core.state act).toOption.map fun st => { core with state := st }
    else none
  | .tryNewBlock blk =>
    match core.phase with
    | .recovering | .idle => (acceptProposal ctx core.state blk).map fun st =>
        { core with state := st, phase := .accepted blk }
    | _ => none
  | .flushProposal =>
    match core.phase with
    | .accepted blk => some { core with state := core.state.flush ctx, phase := .flushed blk }
    | _ => none
  | .signalProposal =>
    match core.phase with
    | .flushed blk => some { core with phase := .idle, signaled := core.signaled ++ [blk] }
    | _ => none
  | .signalLastProposed =>
    match core.phase with
    | .recovering => (core.state.getLastProposedBlock ctx).toOption.map fun blk =>
        { core with phase := .idle, signaled := core.signaled ++ [blk] }
    | _ => none
  | .restart =>
    (DagState.new ctx core.state.store).toOption.map fun st =>
      { core with state := st, phase := .recovering }

variable {ctx : Context} {pre post : ProposingCore} {act : ProposingAction}
  {blk : VerifiedBlock}

lemma step_cases (taken : step ctx pre act = some post) :
    (∃ other st, pre.phase.admits other = true ∧
      DagRun.perform ctx pre.state other = .ok st ∧ post = { pre with state := st }) ∨
    (∃ blk last st, pre.state.getLastProposedBlock ctx = .ok last ∧
      last.round < blk.round ∧ blk.author = ctx.ownIndex ∧
      pre.state.acceptBlock ctx blk = .ok st ∧
      post = { pre with state := st, phase := .accepted blk }) ∨
    (∃ blk, pre.phase = .accepted blk ∧
      post = { pre with state := pre.state.flush ctx, phase := .flushed blk }) ∨
    (∃ blk, pre.phase = .flushed blk ∧
      post = { pre with phase := .idle, signaled := pre.signaled ++ [blk] }) ∨
    (∃ blk, pre.phase = .recovering ∧
      pre.state.getLastProposedBlock ctx = .ok blk ∧
      post = { pre with phase := .idle, signaled := pre.signaled ++ [blk] }) ∨
    (∃ st, DagState.new ctx pre.state.store = .ok st ∧
      post = { pre with state := st, phase := .recovering }) := by
  have accepts : ∀ {blk st}, acceptProposal ctx pre.state blk = some st →
      ∃ last, pre.state.getLastProposedBlock ctx = .ok last ∧
        last.round < blk.round ∧ blk.author = ctx.ownIndex ∧
        pre.state.acceptBlock ctx blk = .ok st := by
    intro blk st acc
    obtain ⟨last, read, acc⟩ := bind_eq_some_iff.mp acc
    split at acc
    · rename_i checked
      obtain ⟨above, sameRound, author⟩ := checked
      rw [← sameRound] at above
      exact ⟨last, toOption_eq_some.mp read, above, author, toOption_eq_some.mp acc⟩
    · cases acc
  cases act with
  | background other =>
    simp only [step] at taken
    split at taken
    · rename_i admitted
      obtain ⟨st, done, rfl⟩ := map_eq_some_iff.mp taken
      exact .inl ⟨other, st, admitted, toOption_eq_some.mp done, rfl⟩
    · cases taken
  | tryNewBlock blk =>
    simp only [step] at taken
    split at taken
    · obtain ⟨st, acc, rfl⟩ := map_eq_some_iff.mp taken
      obtain ⟨last, checked⟩ := accepts acc
      exact .inr (.inl ⟨blk, last, st, checked.1, checked.2.1, checked.2.2.1, checked.2.2.2, rfl⟩)
    · obtain ⟨st, acc, rfl⟩ := map_eq_some_iff.mp taken
      obtain ⟨last, checked⟩ := accepts acc
      exact .inr (.inl ⟨blk, last, st, checked.1, checked.2.1, checked.2.2.1, checked.2.2.2, rfl⟩)
    · cases taken
  | flushProposal =>
    simp only [step] at taken
    split at taken
    · rename_i blk acc
      cases taken
      exact .inr (.inr (.inl ⟨blk, acc, rfl⟩))
    · cases taken
  | signalProposal =>
    simp only [step] at taken
    split at taken
    · rename_i blk flushed
      cases taken
      exact .inr (.inr (.inr (.inl ⟨blk, flushed, rfl⟩)))
    · cases taken
  | signalLastProposed =>
    simp only [step] at taken
    split at taken
    · rename_i recovering
      obtain ⟨blk, read, rfl⟩ := map_eq_some_iff.mp taken
      exact .inr (.inr (.inr (.inr (.inl ⟨blk, recovering, toOption_eq_some.mp read, rfl⟩))))
    · cases taken
  | restart =>
    obtain ⟨st, restarted, rfl⟩ := map_eq_some_iff.mp taken
    exact .inr (.inr (.inr (.inr (.inr ⟨st, toOption_eq_some.mp restarted, rfl⟩))))

/-- An own block that is stored, and that no buffered block is going to replace. -/
def Stored (ctx : Context) (st : DagState) (blk : VerifiedBlock) : Prop :=
  blk.author = ctx.ownIndex ∧ st.store.blocks[blk.reference]? = some blk ∧
    st.written.blocks[blk.reference]? = some blk

/-- Above everything that was signalled. -/
def Tops (core : ProposingCore) (blk : VerifiedBlock) : Prop :=
  ∀ other ∈ core.signaled, other.round < blk.round

/-- Every signalled block is stored, so that the last own block is above it or equal to it. -/
structure Announced (ctx : Context) (core : ProposingCore) : Prop where
  tip : OwnsTip ctx core.state
  recovered : core.phase = .recovering → core.state.blocksToWrite = []
  accepted : ∀ blk, core.phase = .accepted blk → blk.author = ctx.ownIndex ∧
    core.state.written.blocks[blk.reference]? = some blk ∧ core.Tops blk
  flushed : ∀ blk, core.phase = .flushed blk → Stored ctx core.state blk ∧ core.Tops blk
  signaled : ∀ blk ∈ core.signaled, blk = genesisBlock ctx ctx.ownIndex ∨ Stored ctx core.state blk
  distinct : ∀ blk ∈ core.signaled, ∀ other ∈ core.signaled, blk.round = other.round → blk = other

lemma start_announced (ctx : Context) : start.Announced ctx where
  tip := initial_ownsTip ctx
  recovered _ := rfl
  accepted blk phase := by cases phase
  flushed blk phase := by cases phase
  signaled blk here := by simp [start] at here
  distinct blk here := by simp [start] at here

lemma Announced.round_le (announced : pre.Announced ctx)
    (here : blk ∈ pre.signaled) :
    blk.round ≤ pre.state.lastCachedRound ctx.ownIndex := by
  rcases announced.signaled blk here with rfl | ⟨author, -, written⟩
  · exact Nat.zero_le _
  · exact announced.tip.below blk.reference ⟨mem_of_getElem? written, author⟩

section

variable (keeps : 1 ≤ ctx.dagStateCachedRounds)

include keeps

lemma Stored.perform {other : DagAction} {st next : DagState} (tip : OwnsTip ctx st)
    (live : other ≠ .restart) (done : DagRun.perform ctx st other = .ok next)
    (stored : Stored ctx st blk) : Stored ctx next blk := by
  obtain ⟨author, got, written⟩ := stored
  exact ⟨author, tip.store_kept keeps done written got,
    tip.written_kept live author done written⟩

lemma Announced.background {other : DagAction} {st : DagState}
    (announced : pre.Announced ctx) (admitted : pre.phase.admits other = true)
    (done : DagRun.perform ctx pre.state other = .ok st) :
    Announced ctx { pre with state := st } := by
  have live : other ≠ .restart := by
    rintro rfl
    cases phase : pre.phase <;> simp [ProposalPhase.admits] at admitted
  have keepsStored := fun blk => @Stored.perform ctx blk keeps other pre.state st
    announced.tip live done
  constructor
  · exact announced.tip.perform keeps done
  · intro recovering
    have empty := announced.recovered recovering
    obtain ⟨blk, rfl, -⟩ | ⟨-, rfl⟩ | ⟨restarts, -⟩ | ⟨same, -⟩ := DagRun.perform_cases done
    · rw [show pre.phase = .recovering from recovering] at admitted
      cases admitted
    · rw [(@flush_flushed ctx pre.state announced.tip.upheld.kept.indexed).frame]
    · exact absurd restarts live
    · rw [same.buffer]
      exact empty
  · intro blk acc
    obtain ⟨author, written, tops⟩ := announced.accepted blk acc
    exact ⟨author, announced.tip.written_kept live author done written, tops⟩
  · intro blk flushed
    obtain ⟨stored, tops⟩ := announced.flushed blk flushed
    exact ⟨keepsStored blk stored, tops⟩
  · intro blk here
    exact (announced.signaled blk here).imp_right (keepsStored blk)
  · exact announced.distinct

lemma Announced.propose {last : VerifiedBlock} {st : DagState}
    (announced : pre.Announced ctx)
    (read : pre.state.getLastProposedBlock ctx = .ok last)
    (above : last.round < blk.round) (author : blk.author = ctx.ownIndex)
    (run : pre.state.acceptBlock ctx blk = .ok st) :
    Announced ctx { pre with state := st, phase := .accepted blk } := by
  have done : DagRun.perform ctx pre.state (.acceptBlock blk) = .ok st := run
  have live : DagAction.acceptBlock blk ≠ .restart := by simp
  obtain ⟨sameRound, -⟩ := announced.tip.lastProposed_cases read
  rw [sameRound] at above
  have written : st.written.blocks[blk.reference]? = some blk := by
    obtain ⟨pos, ⟨known, rfl⟩ | ⟨-, -, -, rfl⟩⟩ := acceptBlock_cases run
    · -- a known own block is not above the last one
      exfalso
      have held := (announced.tip.upheld.acceptBlock run).2
      have below := announced.tip.below blk.reference ⟨held_iff.mp held, author⟩
      exact Nat.not_lt_of_le below above
    · simp [written, DagState.accepted, Store.write, insertAll]
  constructor
  · exact announced.tip.perform keeps done
  · intro recovering
    cases recovering
  · intro other acc
    cases acc
    exact ⟨author, written, fun other here =>
      Nat.lt_of_le_of_lt (announced.round_le here) above⟩
  · intro other flushed
    cases flushed
  · intro other here
    exact (announced.signaled other here).imp_right
      (Stored.perform keeps announced.tip live done)
  · exact announced.distinct

lemma Announced.flush (announced : pre.Announced ctx)
    (phase : pre.phase = .accepted blk) :
    Announced ctx
      { pre with state := pre.state.flush ctx, phase := .flushed blk } := by
  have done : DagRun.perform ctx pre.state .flush = .ok (pre.state.flush ctx) := rfl
  have live : DagAction.flush ≠ .restart := by simp
  obtain ⟨author, written, tops⟩ := announced.accepted blk phase
  constructor
  · exact announced.tip.flush keeps
  · intro recovering
    cases recovering
  · intro other acc
    cases acc
  · intro other flushed
    cases flushed
    have stores := announced.tip.written_kept live author done written
    refine ⟨⟨author, ?_, stores⟩, tops⟩
    rw [(@flush_flushed ctx pre.state announced.tip.upheld.kept.indexed).frame]
    exact written
  · intro other here
    exact (announced.signaled other here).imp_right
      (Stored.perform keeps announced.tip live done)
  · exact announced.distinct

end

lemma Announced.signal (announced : pre.Announced ctx)
    (stored : blk = genesisBlock ctx ctx.ownIndex ∨ Stored ctx pre.state blk)
    (agrees : ∀ other ∈ pre.signaled, other.round = blk.round → other = blk) :
    Announced ctx { pre with phase := .idle, signaled := pre.signaled ++ [blk] } := by
  constructor
  · exact announced.tip
  · intro recovering
    cases recovering
  · intro other acc
    cases acc
  · intro other flushed
    cases flushed
  · intro other here
    rcases mem_append.mp here with prev | new
    · exact announced.signaled other prev
    · rw [mem_singleton.mp new]
      exact stored
  · intro first firstListed second secondListed sameRound
    rcases mem_append.mp firstListed with firstEarlier | firstNew
    · rcases mem_append.mp secondListed with secondEarlier | secondNew
      · exact announced.distinct first firstEarlier second secondEarlier sameRound
      · obtain rfl := mem_singleton.mp secondNew
        exact agrees first firstEarlier sameRound
    · obtain rfl := mem_singleton.mp firstNew
      rcases mem_append.mp secondListed with secondEarlier | secondNew
      · exact (agrees second secondEarlier sameRound.symm).symm
      · exact (mem_singleton.mp secondNew).symm

lemma Announced.signalLast (announced : pre.Announced ctx)
    (recovering : pre.phase = .recovering)
    (read : pre.state.getLastProposedBlock ctx = .ok blk) :
    Announced ctx { pre with phase := .idle, signaled := pre.signaled ++ [blk] } := by
  have sameStore : pre.state.written.blocks = pre.state.store.blocks := by
    rw [written, Store.write, announced.recovered recovering]
    rfl
  obtain ⟨sameRound, genesis | ⟨got, author⟩⟩ := announced.tip.lastProposed_cases read
  · refine announced.signal (.inl genesis) fun other here sameRound => ?_
    rcases announced.signaled other here with rfl | ⟨-, -, written⟩
    · exact genesis.symm
    · rw [genesis, genesisBlock_round] at sameRound
      exact absurd sameRound (announced.tip.positive other.reference (mem_of_getElem? written))
  · have acc : Own ctx pre.state blk.reference := ⟨mem_of_getElem? got, author⟩
    have latest : Latest ctx pre.state blk.reference := by
      intro stored here sameAuthor
      rw [VerifiedBlock.reference_round, sameRound]
      exact announced.tip.below stored ⟨held_iff.mp (.inr here), sameAuthor⟩
    refine announced.signal (.inr ⟨author, by rw [← sameStore]; exact got, got⟩) ?_
    intro other here equalRound
    rcases announced.signaled other here with rfl | ⟨otherAuthor, -, otherFound⟩
    · exact absurd equalRound.symm (announced.tip.positive blk.reference acc.1)
    · have same := announced.tip.unique blk.reference other.reference acc
        ⟨mem_of_getElem? otherFound, otherAuthor⟩ equalRound.symm latest
      rw [← same, got] at otherFound
      exact (some.inj otherFound).symm

lemma Announced.restart {st : DagState} (keeps : 1 ≤ ctx.dagStateCachedRounds)
    (announced : pre.Announced ctx)
    (restarted : DagState.new ctx pre.state.store = .ok st) :
    Announced ctx { pre with state := st, phase := .recovering } := by
  have keyed : pre.state.store.Keyed := fun ref blk got =>
    (announced.tip.upheld.kept.stored ref blk got).1
  have sameStore := (announced.tip.upheld.restart keeps restarted).2
  have empty : st.blocksToWrite = [] := by
    obtain ⟨rounds, subdags, scoringSubdag, loaded, -, -, loads, flagged⟩ :=
      (new_recovered keyed restarted).phases
    rw [(@Flagged.sameBlocks ctx _ _ flagged).1.buffer, loads.frame]
    rfl
  constructor
  · exact announced.tip.restart keeps restarted
  · exact fun _ => empty
  · intro blk acc
    cases acc
  · intro blk flushed
    cases flushed
  · intro blk here
    refine (announced.signaled blk here).imp_right ?_
    rintro ⟨author, stored, -⟩
    refine ⟨author, ?_, ?_⟩
    · rw [sameStore]
      exact stored
    · rw [written, Store.write, empty, sameStore]
      exact stored
  · exact announced.distinct

lemma Announced.step (keeps : 1 ≤ ctx.dagStateCachedRounds)
    (announced : pre.Announced ctx) (taken : step ctx pre act = some post) :
    post.Announced ctx := by
  obtain ⟨other, st, admitted, done, rfl⟩ |
    ⟨blk, last, st, read, above, author, run, rfl⟩ | ⟨blk, phase, rfl⟩ |
    ⟨blk, phase, rfl⟩ | ⟨blk, recovering, read, rfl⟩ | ⟨st, restarted, rfl⟩ :=
    step_cases taken
  · exact announced.background keeps admitted done
  · exact announced.propose keeps read above author run
  · exact announced.flush keeps phase
  · obtain ⟨stored, tops⟩ := announced.flushed blk phase
    exact announced.signal (.inr stored) fun other here sameRound =>
      absurd sameRound (Nat.ne_of_lt (tops other here))
  · exact announced.signalLast recovering read
  · exact announced.restart keeps restarted

/-- Over every run with crashes and restarts, no two different own blocks of one round are
signalled. -/
theorem never_equivocates (ctx : Context) (keeps : 1 ≤ ctx.dagStateCachedRounds)
    {sched : List ProposingAction} {final : ProposingCore}
    (ran : run (ProposingCore.step ctx) start sched = some final) :
    ∀ blk ∈ final.signaled, ∀ other ∈ final.signaled,
      blk.author = ctx.ownIndex → other.author = ctx.ownIndex →
        blk.round = other.round → blk = other := by
  have announced : final.Announced ctx :=
    invariant (fun _ _ _ inv _ => inv.step keeps) (start_announced ctx)
      (@heeds_of_forall _ _ _ _ _ (fun _ => True) fun _ _ => trivial) ran
  exact fun blk here other otherListed _ _ => announced.distinct blk here other otherListed

/-- A block that was flushed before a crash is signalled after the restart; one that was not
is lost, and another one of its round takes its place. -/
theorem never_equivocates_after_crashes :
    let others : List ProposingAction :=
      [.background (.acceptBlock (testBlock 1 1 [1, 0, 2])),
        .background (.acceptBlock (testBlock 1 2 [2, 0, 1]))]
    let sched : List ProposingAction :=
      [.signalLastProposed, .tryNewBlock (testBlock 1 0 [0, 1, 2]), .flushProposal, .restart,
        .signalLastProposed] ++ others ++ [.tryNewBlock (testBlock 2 0 [0, 1, 2]), .restart,
        .signalLastProposed] ++ others ++ [.tryNewBlock (testBlock 2 0 [0, 2, 1]),
        .flushProposal, .signalProposal]
    ∃ final, run (ProposingCore.step DagRun.shortContext) start sched = some final ∧
      final.signaled.map VerifiedBlock.round = [0, 1, 1, 2] ∧
      ∀ blk ∈ final.signaled, ∀ other ∈ final.signaled,
        blk.author = DagRun.shortContext.ownIndex →
          other.author = DagRun.shortContext.ownIndex → blk.round = other.round → blk = other := by
  intro others sched
  have observed : ∃ final, run (ProposingCore.step DagRun.shortContext) start sched =
      some final ∧ final.signaled.map VerifiedBlock.round = [0, 1, 1, 2] :=
    exists_reached (by decide +kernel)
  obtain ⟨final, ran, rounds⟩ := observed
  exact ⟨final, ran, rounds, never_equivocates DagRun.shortContext (by decide) ran⟩

end ProposingCore

end Mysticeti
