import Mathlib

/-!
# Append-only logs

A log grows at its end, and each new entry has to fit what is in the log already. A log
grown that way is well formed at every position: `grown_iff` reads the law off any
entry and everything before it. Where entries are ranked consecutively, so are the entries
of an interval of ranks.
-/

namespace Lib.Log

open List Option

variable {α : Type} {fits : List α → α → Prop}

/-- Built by appending entries, each of which fits the entries before it. -/
inductive Grown (fits : List α → α → Prop) : List α → Prop
  | start : Grown fits []
  | extend {log : List α} {entry : α} (grown : Grown fits log) (next : fits log entry) :
      Grown fits (log ++ [entry])

lemma grown_append_singleton {log : List α} {entry : α} :
    Grown fits (log ++ [entry]) ↔ Grown fits log ∧ fits log entry := by
  constructor
  · intro grown
    generalize same : log ++ [entry] = whole at grown
    cases grown with
    | start => simp at same
    | extend prev next =>
      obtain ⟨rfl, rfl⟩ := append_singleton_inj.mp same
      exact ⟨prev, next⟩
  · rintro ⟨grown, next⟩
    exact grown.extend next

lemma grown_singleton {entry : α} : Grown fits [entry] ↔ fits [] entry := by
  rw [← nil_append [entry], grown_append_singleton]
  exact and_iff_right .start

lemma Grown.imp {log : List α} {looser : List α → α → Prop} (grown : Grown fits log)
    (implies : ∀ prev entry, fits prev entry → looser prev entry) : Grown looser log := by
  induction grown with
  | start => exact .start
  | extend _ next ih => exact ih.extend (implies _ _ next)

lemma Grown.of_append {log later : List α} (grown : Grown fits (log ++ later)) :
    Grown fits log := by
  induction later using reverseRecOn with
  | nil => simpa using grown
  | append_singleton later entry ih =>
    rw [← append_assoc, grown_append_singleton] at grown
    exact ih grown.1

lemma grown_iff {log : List α} : Grown fits log ↔
    ∀ prev entry later, log = prev ++ entry :: later → fits prev entry := by
  constructor
  · rintro grown prev entry later rfl
    rw [← singleton_append, ← append_assoc] at grown
    exact (grown_append_singleton.mp grown.of_append).2
  · intro each
    induction log using reverseRecOn with
    | nil => exact .start
    | append_singleton log entry ih =>
      apply Grown.extend
      · apply ih
        rintro prev other later rfl
        exact each prev other (later ++ [entry]) (by simp)
      · exact each log entry [] rfl

lemma Grown.le_last {log : List α} {rank : α → Nat} {bound : List α → Nat}
    (grown : Grown fits log)
    (reaches : ∀ prev entry, fits prev entry →
      bound prev ≤ bound (prev ++ [entry]) ∧ rank entry ≤ bound (prev ++ [entry])) :
    ∀ entry ∈ log, rank entry ≤ bound log := by
  induction grown with
  | start => simp
  | extend prev next ih =>
    intro entry mem
    obtain ⟨raised, covered⟩ := reaches _ _ next
    rcases mem_append.mp mem with old | new
    · exact Nat.le_trans (ih entry old) raised
    · rw [mem_singleton.mp new]
      exact covered

section Consecutive

variable {rank : α → Nat} {follows : α → α → Prop} {log : List α} {first last : Nat}

/-- The entries with a rank in the interval, both ends included. -/
def between (rank : α → Nat) (first last : Nat) (log : List α) : List α :=
  log.filter fun entry => first ≤ rank entry && rank entry ≤ last

lemma mem_between {entry : α} :
    entry ∈ between rank first last log ↔ entry ∈ log ∧ first ≤ rank entry ∧ rank entry ≤ last := by
  simp [between]

variable (consecutive : ∀ prev later, follows prev later → rank later = rank prev + 1)

include consecutive

lemma rank_le_of_isChain {entry : α} (linked : (entry :: log).IsChain follows) :
    ∀ other ∈ entry :: log, rank entry ≤ rank other := by
  induction log generalizing entry with
  | nil => simp
  | cons next rest ih =>
    obtain ⟨follow, linked⟩ := isChain_cons_cons.mp linked
    have raised := consecutive entry next follow
    intro other mem
    rcases mem_cons.mp mem with rfl | mem
    · exact Nat.le_refl _
    · have least := ih linked other mem
      omega

lemma rank_last_of_isChain {entry : α} (linked : (entry :: log).IsChain follows) :
    ∀ final ∈ (entry :: log).getLast?, rank final = rank entry + log.length := by
  induction log generalizing entry with
  | nil =>
    intro final isLast
    rw [← some.inj isLast]
    rfl
  | cons next rest ih =>
    obtain ⟨follow, linked⟩ := isChain_cons_cons.mp linked
    have raised := consecutive entry next follow
    intro final isLast
    rw [getLast?_cons_cons] at isLast
    have further := ih linked final isLast
    rw [length_cons]
    omega

lemma le_rank_last_of_isChain {final : α} (linked : log.IsChain follows)
    (isLast : log.getLast? = some final) : ∀ entry ∈ log, rank entry ≤ rank final := by
  induction log with
  | nil => simp
  | cons entry rest ih =>
    cases rest with
    | nil =>
      intro other mem
      rw [mem_singleton.mp mem, ← some.inj isLast]
      exact Nat.le_refl _
    | cons next rest =>
      obtain ⟨follow, linked⟩ := isChain_cons_cons.mp linked
      have raised := consecutive entry next follow
      rw [getLast?_cons_cons] at isLast
      have least := ih linked isLast
      intro other mem
      rcases mem_cons.mp mem with rfl | mem
      · have below := least next mem_cons_self
        omega
      · exact least other mem

lemma isChain_between (linked : log.IsChain follows) :
    (between rank first last log).IsChain follows := by
  induction log with
  | nil => exact .nil
  | cons entry rest ih =>
    have kept := ih (isChain_cons.mp linked).2
    rw [between, filter_cons]
    split
    case isFalse => exact kept
    case isTrue inside =>
      refine isChain_cons.mpr ⟨fun other isFirst => ?_, kept⟩
      have mem := mem_between.mp (mem_of_mem_head? isFirst)
      -- the entry after is in the interval too, since something later is
      cases rest with
      | nil => cases isFirst
      | cons next rest =>
        obtain ⟨follow, later⟩ := isChain_cons_cons.mp linked
        have raised := consecutive entry next follow
        have least := rank_le_of_isChain consecutive later other mem.1
        have bounds : first ≤ rank entry ∧ rank entry ≤ last := by simpa using inside
        have nextInside : (decide (first ≤ rank next) && decide (rank next ≤ last)) = true := by
          simp only [Bool.and_eq_true, decide_eq_true_eq]
          omega
        rw [filter_cons, if_pos nextInside] at isFirst
        exact some.inj isFirst ▸ follow

lemma head_between (linked : log.IsChain follows)
    (starts : ∀ entry ∈ log.head?, rank entry ≤ first) :
    ∀ entry ∈ (between rank first last log).head?, rank entry = first := by
  induction log with
  | nil => simp [between]
  | cons entry rest ih =>
    have low := starts entry rfl
    obtain ⟨next, laterLinked⟩ := isChain_cons.mp linked
    rw [between, filter_cons]
    split
    case isTrue inside =>
      intro other isFirst
      have bounds : first ≤ rank entry ∧ rank entry ≤ last := by simpa using inside
      obtain rfl := some.inj isFirst
      omega
    case isFalse outside =>
      by_cases below : rank entry < first
      · refine ih laterLinked fun other isNext => ?_
        have raised := consecutive entry other (next other isNext)
        omega
      · -- the interval is empty
        intro other isFirst
        have mem := mem_between.mp (mem_of_mem_head? isFirst)
        have least := rank_le_of_isChain consecutive linked other (mem_cons_of_mem _ mem.1)
        simp only [Bool.and_eq_true, decide_eq_true_eq] at outside
        omega

end Consecutive

end Lib.Log
