import Mathlib
import Mysticeti.Lib.Log

/-!
# What a set of rules derives

A rule has a head and needs; its head is derived once its needs are. What is derived is
stated without any order in which the rules fire. A procedure that fires rules one after the
other, in whatever order, computes exactly what is derived when it is sound at every step and
closed at the end.
-/

namespace Lib.Closure

open Lib.Log

variable {α ρ : Type}

/-- What is known from the start, the rules in play, and for each rule its head and what it
needs. -/
structure System (α ρ : Type) where
  known : Set α
  rules : Set ρ
  head : ρ → α
  needs : ρ → Set α

namespace System

variable {system : System α ρ} {set : Set α} {item : α}

inductive Derives (system : System α ρ) : α → Prop
  | known {item : α} (mem : item ∈ system.known) : Derives system item
  | fire {rule : ρ} (mem : rule ∈ system.rules)
      (needs : ∀ need ∈ system.needs rule, Derives system need) :
      Derives system (system.head rule)

/-- Every rule whose needs are in the set has its head there. -/
structure Closed (system : System α ρ) (set : Set α) : Prop where
  known : ∀ item ∈ system.known, item ∈ set
  fired : ∀ rule ∈ system.rules, (∀ need ∈ system.needs rule, need ∈ set) → system.head rule ∈ set

lemma Closed.mem_of_derives (closed : system.Closed set) (derived : system.Derives item) :
    item ∈ set := by
  induction derived with
  | known mem => exact closed.known _ mem
  | fire mem _ ih => exact closed.fired _ mem ih

lemma mem_iff_derives (sound : ∀ item ∈ set, system.Derives item) (closed : system.Closed set) :
    item ∈ set ↔ system.Derives item :=
  ⟨sound item, closed.mem_of_derives⟩

lemma derives_of_grown {fired : List ρ}
    (ordered : Grown (fun prev rule => ∀ need ∈ system.needs rule,
      system.Derives need ∨ need ∈ prev.map system.head) fired)
    (inPlay : ∀ rule ∈ fired, rule ∈ system.rules) :
    ∀ rule ∈ fired, system.Derives (system.head rule) := by
  induction ordered with
  | start => simp
  | @extend prev last _ next ih =>
    have early := ih fun rule mem => inPlay rule (List.mem_append_left _ mem)
    intro rule mem
    rcases List.mem_append.mp mem with pre | now
    · exact early rule pre
    · rw [List.mem_singleton.mp now]
      refine .fire (inPlay last (by simp)) fun need needed => ?_
      rcases next need needed with derived | head
      · exact derived
      · obtain ⟨other, here, rfl⟩ := List.mem_map.mp head
        exact early other here

end System

end Lib.Closure
