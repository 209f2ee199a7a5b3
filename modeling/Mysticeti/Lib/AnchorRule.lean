import Mathlib

/-!
# Agreement of anchored decision rules

Rounds are decided from the highest one down, by evidence for the round itself or, failing
that, by an anchor: the first committed block at least one wave later, when every round
between is skipped. The anchor's history either shows that one block of the round was
certified, which is then committed, or shows nothing, and the round is skipped.

`Evidence` collects what such a rule rests on. The laws say that at most one block of a
round is certified, that direct evidence for a commit certifies it and shows in the
history of every later block, and that direct evidence for a skip excludes certificates.
`verdicts_agree` is the whole argument: two observers with different evidence, each
following the rule, never decide a round differently.
-/

namespace Lib.AnchorRule

variable {β : Type}

inductive Verdict (β : Type) where
  | commit (blk : β)
  | skip
  | undecided

/-- The facts a rule reads. `Linked anchor round block` says that the history of the
anchor shows a certificate for the block. -/
structure Evidence (β : Type) where
  wave : Nat
  wave_pos : 0 < wave
  Candidate : Nat → β → Prop
  DirectCommit : Nat → β → Prop
  DirectSkip : Nat → Prop
  Certified : Nat → β → Prop
  Linked : β → Nat → β → Prop
  certified_unique : ∀ {round first second}, Certified round first → Certified round second →
    first = second
  commit_certified : ∀ {round blk}, DirectCommit round blk → Certified round blk
  commit_linked : ∀ {round blk later anchor}, DirectCommit round blk →
    Candidate later anchor → round + wave ≤ later → Linked anchor round blk
  linked_certified : ∀ {anchor round blk}, Linked anchor round blk → Certified round blk
  skip_excludes : ∀ {round blk}, DirectSkip round → ¬ Certified round blk

/-- What an anchor concludes for an earlier round. -/
inductive Concludes (evidence : Evidence β) (anchor : β) (round : Nat) : Verdict β → Prop
  | commit {blk : β} (linked : evidence.Linked anchor round blk) :
      Concludes evidence anchor round (.commit blk)
  | skip (nothing : ∀ blk, ¬ evidence.Linked anchor round blk) :
      Concludes evidence anchor round .skip

/-- The anchor of a round: the first commit at least one wave later, with only skipped
rounds before it. -/
structure Anchors (evidence : Evidence β) (verdicts : Nat → Verdict β) (round later : Nat)
    (anchor : β) : Prop where
  after : round + evidence.wave ≤ later
  committed : verdicts later = .commit anchor
  skipped : ∀ mid, round + evidence.wave ≤ mid → mid < later → verdicts mid = .skip

inductive Justified (evidence : Evidence β) (verdicts : Nat → Verdict β) (round : Nat) :
    Verdict β → Prop
  | directCommit {blk : β} (direct : evidence.DirectCommit round blk) :
      Justified evidence verdicts round (.commit blk)
  | directSkip (direct : evidence.DirectSkip round) : Justified evidence verdicts round .skip
  | anchored {later : Nat} {anchor : β} {verdict : Verdict β}
      (anchors : Anchors evidence verdicts round later anchor)
      (concludes : Concludes evidence anchor round verdict) :
      Justified evidence verdicts round verdict

/-- Verdicts that follow the rule. Only finitely many rounds are decided. -/
structure Follows (evidence : Evidence β) (verdicts : Nat → Verdict β) : Prop where
  candidate : ∀ {round blk}, verdicts round = .commit blk → evidence.Candidate round blk
  justified : ∀ round, verdicts round ≠ .undecided →
    Justified evidence verdicts round (verdicts round)
  bounded : ∃ bound, ∀ round, bound ≤ round → verdicts round = .undecided

section Locality

variable {evidence : Evidence β} {pre post : Nat → Verdict β} {round : Nat}

lemma Justified.congr {verdict : Verdict β}
    (same : ∀ later, round < later → pre later = post later)
    (justified : Justified evidence pre round verdict) :
    Justified evidence post round verdict := by
  cases justified with
  | directCommit direct => exact .directCommit direct
  | directSkip direct => exact .directSkip direct
  | anchored anchors concludes =>
    have pos := evidence.wave_pos
    have later := anchors.after
    refine .anchored ⟨later, ?_, fun mid from_ below => ?_⟩ concludes
    · rw [← same _ (by omega)]
      exact anchors.committed
    · rw [← same mid (by omega)]
      exact anchors.skipped mid from_ below

lemma Follows.decide (follows : Follows evidence pre)
    (same : ∀ later, round ≠ later → pre later = post later)
    (undecided : ∀ prev, prev ≤ round → pre prev = .undecided)
    (candidate : ∀ blk, post round = .commit blk → evidence.Candidate round blk)
    (justified : post round ≠ .undecided → Justified evidence pre round (post round)) :
    Follows evidence post where
  candidate {other blk} committed := by
    by_cases here : round = other
    · exact here ▸ candidate blk (here ▸ committed)
    · exact follows.candidate ((same other here).trans committed)
  justified other decided := by
    by_cases here : round = other
    · subst here
      exact (justified decided).congr fun later above => same later (Nat.ne_of_lt above)
    · have decidedBefore : pre other ≠ .undecided := fun absent =>
        decided ((same other here).symm.trans absent)
      have above : round < other := by
        by_contra below
        exact decidedBefore (undecided other (Nat.le_of_not_lt below))
      have kept := follows.justified other decidedBefore
      rw [same other here] at kept
      exact kept.congr fun later higher => same later (by omega)
  bounded := by
    obtain ⟨bound, beyond⟩ := follows.bounded
    refine ⟨max bound (round + 1), fun other high => ?_⟩
    rw [← same other (by omega)]
    exact beyond other (by omega)

end Locality

section Agreement

variable {evidence : Evidence β} {left right verdicts : Nat → Verdict β} {round : Nat}

lemma Justified.certified {blk : β}
    (justified : Justified evidence verdicts round (.commit blk)) :
    evidence.Certified round blk := by
  cases justified with
  | directCommit direct => exact evidence.commit_certified direct
  | anchored anchors concludes =>
    cases concludes with
    | commit linked => exact evidence.linked_certified linked

lemma anchor_unique {first second : Nat} {anchor other : β}
    (agree : ∀ later, round < later → left later ≠ .undecided → right later ≠ .undecided →
      left later = right later)
    (leftAnchors : Anchors evidence left round first anchor)
    (rightAnchors : Anchors evidence right round second other) : anchor = other := by
  have pos := evidence.wave_pos
  have leftAfter := leftAnchors.after
  have rightAfter := rightAnchors.after
  rcases Nat.lt_trichotomy first second with prev | rfl | later
  · have skipped := rightAnchors.skipped first leftAfter prev
    have same := agree first (by omega) (by simp [leftAnchors.committed]) (by simp [skipped])
    simp [leftAnchors.committed, skipped] at same
  · have same := agree first (by omega) (by simp [leftAnchors.committed])
      (by simp [rightAnchors.committed])
    simpa [leftAnchors.committed, rightAnchors.committed] using same
  · have skipped := leftAnchors.skipped second rightAfter later
    have same := agree second (by omega) (by simp [skipped]) (by simp [rightAnchors.committed])
    simp [rightAnchors.committed, skipped] at same

lemma not_skip_of_commit {blk : β}
    (agree : ∀ later, round < later → left later ≠ .undecided → right later ≠ .undecided →
      left later = right later)
    (candidate : ∀ {round blk}, right round = .commit blk → evidence.Candidate round blk)
    (commits : Justified evidence left round (.commit blk))
    (skips : Justified evidence right round .skip) : False := by
  cases skips with
  | directSkip direct => exact evidence.skip_excludes direct commits.certified
  | anchored rightAnchors concludes =>
    cases concludes with
    | skip nothing =>
      cases commits with
      | directCommit direct =>
        exact nothing blk (evidence.commit_linked direct (candidate rightAnchors.committed)
          rightAnchors.after)
      | anchored leftAnchors concludes =>
        cases concludes with
        | commit linked =>
          rw [anchor_unique agree leftAnchors rightAnchors] at linked
          exact nothing blk linked

lemma verdicts_agree (leftFollows : Follows evidence left) (rightFollows : Follows evidence right)
    (leftDecided : left round ≠ .undecided) (rightDecided : right round ≠ .undecided) :
    left round = right round := by
  obtain ⟨bound, bounded⟩ := leftFollows.bounded
  -- Downward: what is above the round is agreed on first.
  induction distance : bound - round using Nat.strong_induction_on generalizing round with
  | _ distance ih =>
    have inside : round < bound := by
      by_contra beyond
      exact leftDecided (bounded round (Nat.le_of_not_lt beyond))
    have agree : ∀ later, round < later → left later ≠ .undecided → right later ≠ .undecided →
        left later = right later := by
      intro later above leftLater rightLater
      exact ih (bound - later) (by omega) leftLater rightLater rfl
    have leftJustified := leftFollows.justified round leftDecided
    have rightJustified := rightFollows.justified round rightDecided
    cases leftVerdict : left round with
    | undecided => exact absurd leftVerdict leftDecided
    | commit blk =>
      rw [leftVerdict] at leftJustified
      cases rightVerdict : right round with
      | undecided => exact absurd rightVerdict rightDecided
      | commit other =>
        rw [rightVerdict] at rightJustified
        rw [evidence.certified_unique leftJustified.certified rightJustified.certified]
      | skip =>
        rw [rightVerdict] at rightJustified
        exact (not_skip_of_commit agree rightFollows.candidate leftJustified rightJustified).elim
    | skip =>
      rw [leftVerdict] at leftJustified
      cases rightVerdict : right round with
      | undecided => exact absurd rightVerdict rightDecided
      | skip => rfl
      | commit other =>
        rw [rightVerdict] at rightJustified
        have reversed : ∀ later, round < later → right later ≠ .undecided →
            left later ≠ .undecided → right later = left later :=
          fun later above rightLater leftLater => (agree later above leftLater rightLater).symm
        exact (not_skip_of_commit reversed leftFollows.candidate rightJustified
          leftJustified).elim

end Agreement

end Lib.AnchorRule
