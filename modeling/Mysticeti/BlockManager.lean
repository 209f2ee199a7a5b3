import Mysticeti.DagState

/-!
# The block manager

Blocks whose ancestors above the garbage-collection round are not all accepted are suspended until
they are. Two maps keep the dependencies, one from a suspended block to the ancestors it still
misses, one from a missing ancestor to the blocks that wait for it; a set keeps the blocks to
fetch. When a block is accepted, the blocks that waited only for it are accepted too, and so on.
Blocks of certified commits are accepted without a look at their ancestors. When the
garbage-collection round rises, ancestors at or below it are no longer waited for.

The work list of the release loop is a vector used as a stack; here its top is the head of the
list.
-/

namespace Mysticeti

open Lib.Outcome Lib.OrderedMap Std

structure SuspendedBlock where
  block : VerifiedBlock
  missingAncestors : ExtTreeSet BlockRef

structure BlockManager where
  dagState : DagState
  suspendedBlocks : ExtTreeMap BlockRef SuspendedBlock
  missingAncestors : ExtTreeMap BlockRef (ExtTreeSet BlockRef)
  missingBlocks : ExtTreeSet BlockRef

inductive TryAcceptResult where
  | accepted (blk : VerifiedBlock)
  | suspended (ancestorsToFetch : ExtTreeSet BlockRef)
  | processed
  | skipped

namespace BlockManager

def new (dagState : DagState) : BlockManager := ⟨dagState, ∅, ∅, ∅⟩

variable (ctx : Context)

section Suspend

/-- The ancestors of a block that have to be accepted before it and are not. -/
def missingOf (st : DagState) (blk : VerifiedBlock) : List BlockRef :=
  (blk.ancestors.filter fun anc =>
    anc.round = GENESIS_ROUND || st.gcRound ctx < anc.round).filter
      fun anc => !st.containsBlock ctx anc

def noteMissing (ref : BlockRef) (noted : ExtTreeSet BlockRef × BlockManager)
    (anc : BlockRef) : ExtTreeSet BlockRef × BlockManager :=
  let (ancestorsToFetch, mgr) := noted
  let mgr := { mgr with
    missingAncestors := mgr.missingAncestors.insert anc
      (((mgr.missingAncestors[anc]?).getD ∅).insert ref) }
  if mgr.suspendedBlocks.contains anc then (ancestorsToFetch, mgr)
  else (ancestorsToFetch.insert anc, { mgr with missingBlocks := mgr.missingBlocks.insert anc })

def tryAcceptOneBlock (mgr : BlockManager) (blk : VerifiedBlock) : TryAcceptResult × BlockManager :=
  let ref := blk.reference
  if mgr.suspendedBlocks.contains ref ||
      mgr.dagState.containsBlock ctx ref then
    (.processed, mgr)
  else if blk.round ≤ mgr.dagState.gcRound ctx then
    (.skipped, mgr)
  else
    let missing := missingOf ctx mgr.dagState blk
    let (ancestorsToFetch, mgr) := missing.foldl (noteMissing ref) (∅, mgr)
    let mgr := { mgr with missingBlocks := mgr.missingBlocks.erase ref }
    if missing.isEmpty then (.accepted blk, mgr)
    else
      (.suspended ancestorsToFetch, { mgr with
        suspendedBlocks := mgr.suspendedBlocks.insert ref
          ⟨blk, missing.foldl .insert ∅⟩ })

def stopWaiting (ref : BlockRef)
    (waiting : ExtTreeMap BlockRef (ExtTreeSet BlockRef)) (anc : BlockRef) :
    ExtTreeMap BlockRef (ExtTreeSet BlockRef) :=
  match waiting[anc]? with
  | some refs => waiting.insert anc (refs.erase ref)
  | none => waiting

def tryAcceptOneCommittedBlock (mgr : BlockManager) (blk : VerifiedBlock) :
    Except Panic (TryAcceptResult × BlockManager) := do
  let ref := blk.reference
  if mgr.dagState.containsBlock ctx ref then
    pure (.processed, mgr)
  else do
    let missingAncestors := match mgr.suspendedBlocks[ref]? with
      | some suspended =>
        suspended.missingAncestors.toList.foldl (stopWaiting ref) mgr.missingAncestors
      | none => mgr.missingAncestors
    let dagState ← mgr.dagState.acceptBlocks ctx [blk]
    pure (.accepted blk,
      { dagState
        suspendedBlocks := mgr.suspendedBlocks.erase ref
        missingAncestors
        missingBlocks := mgr.missingBlocks.erase ref })

end Suspend

section Release

def tryUnsuspendBlock (mgr : BlockManager) (ref acceptedDependency : BlockRef) :
    Except Panic (Option SuspendedBlock × BlockManager) := do
  let suspended ← expect mgr.suspendedBlocks[ref]? (.notSuspended ref)
  ensure (acceptedDependency ∈ suspended.missingAncestors)
    (.dependencyNotMissing ref acceptedDependency)
  let missingAncestors := suspended.missingAncestors.erase acceptedDependency
  if missingAncestors.isEmpty then
    pure (some ⟨suspended.block, missingAncestors⟩,
      { mgr with suspendedBlocks := mgr.suspendedBlocks.erase ref })
  else
    pure (none, { mgr with
      suspendedBlocks := mgr.suspendedBlocks.insert ref
        ⟨suspended.block, missingAncestors⟩ })

abbrev Unsuspending := List BlockRef × List VerifiedBlock × BlockManager

def unsuspendChild (acc : BlockRef) (progress : Unsuspending) (child : BlockRef) :
    Except Panic Unsuspending := do
  let (toProcess, freed, mgr) := progress
  match ← tryUnsuspendBlock mgr child acc with
  | (some released, mgr) =>
    pure (released.block.reference :: toProcess, freed ++ [released.block], mgr)
  | (none, mgr) => pure (toProcess, freed, mgr)

def unsuspendChildren : Nat → Unsuspending → Except Panic (List VerifiedBlock × BlockManager)
  | _, ([], freed, mgr) => .ok (freed, mgr)
  | 0, (_ :: _, _, _) => .error .outOfFuel
  | fuel + 1, (ref :: toProcess, freed, mgr) =>
    match mgr.missingAncestors[ref]? with
    | none => unsuspendChildren fuel (toProcess, freed, mgr)
    | some kids => do
      let progress ← kids.toList.foldlM (unsuspendChild ref)
        (toProcess, freed, { mgr with missingAncestors := mgr.missingAncestors.erase ref })
      unsuspendChildren fuel progress

def tryUnsuspendChildrenBlocks (mgr : BlockManager) (acceptedBlock : BlockRef) :
    Except Panic (List VerifiedBlock × BlockManager) :=
  unsuspendChildren (mgr.suspendedBlocks.size + 1) ([acceptedBlock], [], mgr)

end Release

section Accept

abbrev Accepting := List VerifiedBlock × ExtTreeSet BlockRef × BlockManager

variable (mgr : BlockManager) (blocks : List VerifiedBlock)

def acceptWithChildren (ref : BlockRef)
    (blocksToAccept : List VerifiedBlock) : Except Panic (List VerifiedBlock × BlockManager) := do
  let (freed, mgr) ← tryUnsuspendChildrenBlocks mgr ref
  let dagState ← mgr.dagState.acceptBlocks ctx (blocksToAccept ++ freed)
  pure (blocksToAccept ++ freed, { mgr with dagState })

def acceptCommitted (progress : Accepting) (blk : VerifiedBlock) : Except Panic Accepting := do
  let (acc, missing, mgr) := progress
  match ← tryAcceptOneCommittedBlock ctx mgr blk with
  | (.accepted blk, mgr) =>
    let (freed, mgr) ← acceptWithChildren ctx mgr blk.reference []
    pure (acc ++ blk :: freed, missing, mgr)
  | (.processed, mgr) => pure (acc, missing, mgr)
  | (.suspended _, _) => throw (.committedBlockSuspended blk.reference)
  | (.skipped, _) => throw (.committedBlockSuspended blk.reference)

def acceptReceived (progress : Accepting) (blk : VerifiedBlock) : Except Panic Accepting := do
  let (acc, missing, mgr) := progress
  match tryAcceptOneBlock ctx mgr blk with
  | (.accepted blk, mgr) =>
    let (newlyAccepted, mgr) ← acceptWithChildren ctx mgr blk.reference [blk]
    pure (acc ++ newlyAccepted, missing, mgr)
  | (.suspended ancestorsToFetch, mgr) =>
    pure (acc, ancestorsToFetch.toList.foldl .insert missing, mgr)
  | (.processed, mgr) => pure (acc, missing, mgr)
  | (.skipped, mgr) => pure (acc, missing, mgr)

def tryAcceptBlocksInternal (committed : Bool) : Except Panic Accepting :=
  (blocks.insertionSort fun left right => left.round ≤ right.round).foldlM
    (if committed then acceptCommitted ctx else acceptReceived ctx) ([], ∅, mgr)

def tryAcceptBlocks : Except Panic Accepting := tryAcceptBlocksInternal ctx mgr blocks false

def tryAcceptCommittedBlocks : Except Panic (List VerifiedBlock × BlockManager) := do
  let (acc, missing, mgr) ← tryAcceptBlocksInternal ctx mgr blocks true
  ensure missing.isEmpty .missingForCommitted
  pure (acc, mgr)

end Accept

section Find

/-- A reference that is neither accepted nor suspended is fetched; it is noted as a missing
ancestor even when no block waits for it. -/
def noteSought (sought : ExtTreeSet BlockRef × BlockManager) (ref : BlockRef) :
    ExtTreeSet BlockRef × BlockManager :=
  let (missing, mgr) := sought
  if mgr.dagState.containsBlock ctx ref ||
      mgr.suspendedBlocks.contains ref then
    (missing, mgr)
  else if mgr.missingBlocks.contains ref then
    (missing.insert ref, mgr)
  else
    (missing.insert ref, { mgr with
      missingBlocks := mgr.missingBlocks.insert ref
      missingAncestors := mgr.missingAncestors.insert ref
        ((mgr.missingAncestors[ref]?).getD ∅) })

def tryFindBlocks (mgr : BlockManager) (refs : List BlockRef) :
    ExtTreeSet BlockRef × BlockManager :=
  let refs := refs.filter fun ref => mgr.dagState.gcRound ctx < ref.round
  (refs.insertionSort fun left right => left.round ≤ right.round).foldl
    (noteSought ctx) (∅, mgr)

end Find

section Collect

def collectMissing (gcRound : Round) : Nat → BlockManager → Except Panic BlockManager
  | fuel, mgr =>
    match firstKey mgr.missingAncestors with
    | none => .ok mgr
    | some ref =>
      if gcRound < ref.round then .ok mgr
      else match fuel with
        | 0 => .error .outOfFuel
        | fuel + 1 => do
          ensure (!mgr.suspendedBlocks.contains ref) (.garbageSuspended ref)
          let (_, mgr) ← acceptWithChildren ctx
            { mgr with missingBlocks := mgr.missingBlocks.erase ref } ref []
          collectMissing gcRound fuel mgr

def tryUnsuspendBlocksForLatestGcRound (mgr : BlockManager) : Except Panic BlockManager :=
  collectMissing ctx (mgr.dagState.gcRound ctx) mgr.missingAncestors.size mgr

end Collect

end BlockManager

end Mysticeti
