import Mathlib

/-!
# Computations that may be refused

A step of a program either returns a value or stops at a named refusal. The type is the ordinary
exception monad; what is collected here is the vocabulary in which partial code is written (a
checked condition, a demanded option) and the laws by which such code is taken apart: one inversion
law for sequencing, one evaluation law per primitive, and the two rules for loops over a list.
-/

namespace Lib.Outcome

open List

variable {ε α β σ : Type} {items : List α} {err : ε} {computed first : Except ε α}
  {body : σ → α → Except ε σ} {next : α → Except ε β} {test : α → Except ε Bool}

/-- Continue only when the condition holds. -/
def ensure (condition : Prop) [Decidable condition] (err : ε) : Except ε Unit :=
  if condition then .ok () else .error err

/-- Continue with the value of an option, or stop when there is none. -/
def expect (candidate : Option α) (err : ε) : Except ε α :=
  match candidate with
  | some val => .ok val
  | none => .error err

@[simp] lemma ok_bind (val : α) (next : α → Except ε β) :
    (Except.ok val >>= next) = next val := rfl

@[simp] lemma error_bind (err : ε) (next : α → Except ε β) :
    (Except.error err >>= next) = Except.error err := rfl

@[simp] lemma pure_ok (val : α) : (pure val : Except ε α) = .ok val := rfl

lemma bind_eq_ok {res : β} :
    (first >>= next) = .ok res ↔ ∃ val, first = .ok val ∧ next val = .ok res := by
  cases first with
  | error err => simp
  | ok val => simp

lemma toOption_eq_some {val : α} : computed.toOption = some val ↔ computed = .ok val := by
  cases computed with
  | error err => simp [Except.toOption]
  | ok res => simp [Except.toOption]

lemma exists_of_isOk (ret : first.isOk = true) : ∃ val, first = .ok val := by
  cases first with
  | error err => cases ret
  | ok val => exact ⟨val, rfl⟩

variable {condition : Prop}

@[simp] lemma ensure_eq_ok [Decidable condition] {done : Unit} :
    ensure condition err = .ok done ↔ condition := by
  by_cases holds : condition <;> simp [ensure, holds]

@[simp] lemma expect_eq_ok {candidate : Option α} {val : α} :
    expect candidate err = .ok val ↔ candidate = some val := by
  cases candidate <;> simp [expect]

lemma ensure_bind_eq_ok [Decidable condition] {next : Unit → Except ε β}
    {res : β} :
    (ensure condition err >>= next) = .ok res ↔ condition ∧ next () = .ok res := by
  by_cases holds : condition <;> simp [ensure, holds]

lemma expect_bind_eq_ok {candidate : Option α} {res : β} :
    (expect candidate err >>= next) = .ok res ↔
      ∃ val, candidate = some val ∧ next val = .ok res := by
  cases candidate <;> simp [expect]

lemma ensure_holds [Decidable condition] (err : ε)
    (holds : condition) : ensure condition err = .ok () := by
  simp [holds]

@[simp] lemma expect_some (val : α) (err : ε) :
    expect (some val) err = .ok val := rfl

lemma foldlM_step {item : α} {rest : List α} {start next : σ}
    (taken : body start item = .ok next) :
    (item :: rest).foldlM body start = rest.foldlM body next := by
  rw [foldlM_cons, taken, ok_bind]

lemma foldlM_preserves {holds : σ → Prop} {start final : σ}
    (run : items.foldlM body start = .ok final) (initially : holds start)
    (step : ∀ st item next, item ∈ items → holds st → body st item = .ok next →
      holds next) : holds final := by
  induction items generalizing start with
  | nil =>
    simp only [foldlM_nil, pure_ok, Except.ok.injEq] at run
    exact run ▸ initially
  | cons item rest ih =>
    rw [foldlM_cons, bind_eq_ok] at run
    obtain ⟨next, taken, remaining⟩ := run
    refine ih remaining ?_ ?_
    · exact step start item next (by simp) initially taken
    · intro st other post mem
      exact step st other post (by simp [mem])

lemma foldlM_returns {holds : σ → Prop} {body : σ → α → Except ε σ} {items : List α}
    {start : σ} (initially : holds start)
    (step : ∀ st item, item ∈ items → holds st → ∃ next, body st item = .ok next ∧ holds next) :
    ∃ final, items.foldlM body start = .ok final ∧ holds final := by
  induction items generalizing start with
  | nil => exact ⟨start, rfl, initially⟩
  | cons item rest ih =>
    obtain ⟨next, taken, kept⟩ := step start item (by simp) initially
    obtain ⟨final, finished, holdsFinal⟩ := ih kept
      (fun st other mem => step st other (by simp [mem]))
    exact ⟨final, by rw [foldlM_cons, taken, ok_bind, finished], holdsFinal⟩

lemma foldlM_traces {γ : Type} {holds : List γ → σ → Prop} {trace : α → List γ} {past : List γ}
    {start : σ} (initially : holds past start)
    (step : ∀ past st item, item ∈ items → holds past st →
      ∃ next, body st item = .ok next ∧ holds (past ++ trace item) next) :
    ∃ final, items.foldlM body start = .ok final ∧ holds (past ++ items.flatMap trace) final := by
  induction items generalizing past start with
  | nil => exact ⟨start, rfl, by rwa [flatMap_nil, append_nil]⟩
  | cons item rest ih =>
    obtain ⟨next, taken, kept⟩ := step past start item mem_cons_self initially
    obtain ⟨final, finished, holdsFinal⟩ := ih kept
      (fun past st other mem => step past st other (mem_cons_of_mem item mem))
    refine ⟨final, by rw [foldlM_cons, taken, ok_bind, finished], ?_⟩
    rwa [flatMap_cons, ← append_assoc]

lemma foldlM_total {start : σ}
    (each : ∀ st item, item ∈ items → ∃ next, body st item = .ok next) :
    ∃ final, items.foldlM body start = .ok final := by
  obtain ⟨final, ret, -⟩ := @foldlM_returns _ _ _ (fun _ => True) body items start trivial
    fun st item here _ => (each st item here).imp fun _ ret => ⟨ret, trivial⟩
  exact ⟨final, ret⟩

lemma mapM_ok {body : α → Except ε β} {val : α → β}
    (each : ∀ item ∈ items, body item = .ok (val item)) :
    items.mapM body = .ok (items.map val) := by
  induction items with
  | nil => rfl
  | cons item rest ih =>
    have restEach : ∀ other ∈ rest, body other = .ok (val other) :=
      fun other mem => each other (by simp [mem])
    rw [mapM_cons, each item (by simp), ok_bind, ih restEach]
    rfl

lemma mapM_eq_ok {body : α → Except ε β} {values : List β} :
    items.mapM body = .ok values ↔
      List.Forall₂ (fun item val => body item = .ok val) items values := by
  induction items generalizing values with
  | nil => simp [eq_comm]
  | cons item rest ih =>
    rw [mapM_cons, bind_eq_ok, forall₂_cons_left_iff]
    refine exists_congr fun val => ?_
    rw [bind_eq_ok]
    simp only [ih, pure_ok, Except.ok.injEq]
    constructor
    · rintro ⟨valued, tail, others, rfl⟩
      exact ⟨tail, valued, others, rfl⟩
    · rintro ⟨tail, valued, others, rfl⟩
      exact ⟨valued, tail, others, rfl⟩

lemma mapM_values [Inhabited β] {body : α → Except ε β} {values : List β}
    (mapped : items.mapM body = .ok values) :
    ∃ val : α → β, (∀ item ∈ items, body item = .ok (val item)) ∧ values = items.map val := by
  refine ⟨fun item => (body item).toOption.getD default, ?_⟩
  have each := mapM_eq_ok.mp mapped
  clear mapped
  induction each with
  | nil => simp
  | cons valued _ ih =>
    obtain ⟨others, rfl⟩ := ih
    simp only [mem_cons, forall_eq_or_imp, map_cons, valued]
    exact ⟨⟨rfl, others⟩, rfl⟩

lemma mapM_congr {body other : α → Except ε β} (same : ∀ item ∈ items, body item = other item) :
    items.mapM body = items.mapM other := by
  induction items with
  | nil => rfl
  | cons item rest ih =>
    rw [mapM_cons, mapM_cons, same item (by simp), ih fun later mem => same later (by simp [mem])]

/-- Keep the elements a fallible test accepts, in order; the first refused test
stops the whole selection. -/
def selectM (test : α → Except ε Bool) : List α → Except ε (List α)
  | [] => .ok []
  | item :: rest => do
    let kept ← test item
    let tail ← selectM test rest
    pure (if kept then item :: tail else tail)

lemma selectM_ok {answer : α → Bool} (each : ∀ item ∈ items, test item = .ok (answer item)) :
    selectM test items = .ok (items.filter answer) := by
  induction items with
  | nil => rfl
  | cons item rest ih =>
    have restEach : ∀ other ∈ rest, test other = .ok (answer other) :=
      fun other mem => each other (by simp [mem])
    rw [selectM, each item (by simp), ih restEach]
    cases answered : answer item <;> simp [answered]

lemma selectM_keeps {holds : α → Prop}
    (each : ∀ item ∈ items, ∃ answer, test item = .ok answer ∧ (answer = true ↔ holds item)) :
    ∃ kept, selectM test items = .ok kept ∧ kept.Sublist items ∧
      ∀ item, item ∈ kept ↔ item ∈ items ∧ holds item := by
  classical
  have ans : ∀ item ∈ items, test item = .ok (decide (holds item)) := by
    intro item mem
    obtain ⟨answer, tested, decides⟩ := each item mem
    rw [tested, Bool.eq_iff_iff.mpr (decides.trans decide_eq_true_iff.symm)]
  refine ⟨_, selectM_ok ans, filter_sublist, fun item => ?_⟩
  rw [mem_filter, decide_eq_true_iff]

lemma selectM_eq_ok {kept : List α} (run : selectM test items = .ok kept) :
    kept.Sublist items ∧ ∀ item ∈ kept, test item = .ok true := by
  induction items generalizing kept with
  | nil =>
    cases run
    exact ⟨.slnil, by simp⟩
  | cons item rest ih =>
    obtain ⟨answer, tested, selected⟩ := bind_eq_ok.mp run
    obtain ⟨tail, ran, ret⟩ := bind_eq_ok.mp selected
    obtain ⟨sublist, passed⟩ := ih ran
    cases answer with
    | false =>
      cases ret
      exact ⟨sublist.cons item, passed⟩
    | true =>
      cases ret
      refine ⟨sublist.cons_cons item, fun other mem => ?_⟩
      rcases mem_cons.mp mem with rfl | mem
      · exact tested
      · exact passed other mem

section Meets

variable {allowed : ε → Prop} {holds : α → Prop}

/-- The computation returns a value with the property, or stops at an allowed refusal. -/
def Meets (allowed : ε → Prop) (holds : α → Prop) : Except ε α → Prop
  | .ok val => holds val
  | .error err => allowed err

namespace Meets

lemma of_ok (meets : Meets allowed holds computed) {val : α} (run : computed = .ok val) :
    holds val := by
  subst run
  exact meets

lemma of_error (meets : Meets allowed holds computed) (run : computed = .error err) :
    allowed err := by
  subst run
  exact meets

lemma imp {other : α → Prop} (meets : Meets allowed holds computed)
    (implies : ∀ val, computed = .ok val → holds val → other val) :
    Meets allowed other computed := by
  cases computed with
  | error err => exact meets
  | ok val => exact implies val rfl meets

lemma returns (meets : Meets (fun _ => False) holds computed) :
    ∃ val, computed = .ok val ∧ holds val := by
  cases computed with
  | error err => exact meets.elim
  | ok val => exact ⟨val, rfl, meets⟩

lemma bind {later : β → Prop} (begins : Meets allowed holds first)
    (goesOn : ∀ val, first = .ok val → holds val → Meets allowed later (next val)) :
    Meets allowed later (first >>= next) := by
  cases first with
  | error err => exact begins
  | ok val => exact goesOn val rfl begins

lemma foldlM {invariant : σ → Prop} {start : σ} (initially : invariant start)
    (step : ∀ st item, item ∈ items → invariant st → Meets allowed invariant (body st item)) :
    Meets allowed invariant (items.foldlM body start) := by
  induction items generalizing start with
  | nil => exact initially
  | cons item rest ih =>
    rw [foldlM_cons]
    apply (step start item (by simp) initially).bind
    intro next _ kept
    exact ih kept fun st other mem => step st other (by simp [mem])

end Meets

end Meets

section Within

variable {allowed : ε → Prop}

/-- Whatever the computation stops at is allowed. -/
def Within (allowed : ε → Prop) (computed : Except ε α) : Prop :=
  ∀ err, computed = .error err → allowed err

namespace Within

lemma ok (val : α) : Within allowed (.ok val : Except ε α) := nofun

lemma error (fine : allowed err) : Within allowed (.error err : Except ε α) := by
  rintro other same
  exact Except.error.inj same ▸ fine

lemma ensure {condition : Prop} [Decidable condition] (fine : allowed err) :
    Within allowed (Outcome.ensure condition err) := by
  unfold Outcome.ensure
  split
  · exact ok ()
  · exact error fine

lemma expect {candidate : Option α} (fine : allowed err) :
    Within allowed (Outcome.expect candidate err) := by
  cases candidate with
  | none => exact error fine
  | some val => exact ok val

lemma bind (begins : Within allowed first) (goesOn : ∀ val, Within allowed (next val)) :
    Within allowed (first >>= next) := by
  cases first with
  | error err => exact error (begins err rfl)
  | ok val => exact goesOn val

lemma foldlM {start : σ} (each : ∀ st item, Within allowed (body st item)) :
    Within allowed (items.foldlM body start) := by
  induction items generalizing start with
  | nil => exact ok start
  | cons item rest ih =>
    rw [foldlM_cons]
    exact (each start item).bind fun next => ih

lemma mapM {body : α → Except ε β} (each : ∀ item, Within allowed (body item)) :
    Within allowed (items.mapM body) := by
  induction items with
  | nil => exact ok []
  | cons item rest ih =>
    rw [mapM_cons]
    exact (each item).bind fun val => ih.bind fun values => ok _

lemma selectM (each : ∀ item ∈ items, Within allowed (test item)) :
    Within allowed (Outcome.selectM test items) := by
  induction items with
  | nil => exact ok []
  | cons item rest ih =>
    have restWithin := ih fun other mem => each other (by simp [mem])
    exact (each item (by simp)).bind fun kept => restWithin.bind fun tail => ok _

lemma meets {holds : α → Prop} (within : Within allowed computed)
    (returns : ∀ val, computed = .ok val → holds val) : Meets allowed holds computed := by
  cases computed with
  | error err => exact within err rfl
  | ok val => exact returns val rfl

end Within

lemma Meets.within {holds : α → Prop} (meets : Meets allowed holds computed) :
    Within allowed computed :=
  fun _ run => meets.of_error run

end Within

end Lib.Outcome
