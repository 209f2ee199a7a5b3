import Mysticeti.Lib.Quorum

/-!
# Tallies in which a later vote replaces an earlier one

Voters stand for one of two sides, or for none. A vote moves its voter to a side, whatever the
voter stood for before; weighted voters decide by reaching a threshold, and acceptance is tested
first. A voter that cast votes for both sides ends where its last vote put it. So the order of
the votes matters to such voters only: the others are certain, and each of these is possible on
either side.
-/

namespace Lib.Tally

open List Lib.Quorum

variable {α β : Type} [DecidableEq α]

section Standing

variable (voter : β → α) (verdict : β → Bool)

/-- A vote replaces what its voter stood for. -/
def record (standing : α → Option Bool) (vote : β) : α → Option Bool :=
  Function.update standing (voter vote) (some (verdict vote))

def recordAll (standing : α → Option Bool) (votes : List β) : α → Option Bool :=
  votes.foldl (record voter verdict) standing

/-- The member cast a vote for this side. -/
def Cast (votes : List β) (side : Bool) (mem : α) : Prop :=
  ∃ vote ∈ votes, voter vote = mem ∧ verdict vote = side

instance (votes : List β) (side : Bool) (mem : α) : Decidable (Cast voter verdict votes side mem) :=
  inferInstanceAs (Decidable (∃ vote ∈ votes, _ ∧ _))

/-- The member ends on this side in every order of the votes. -/
def Certain (standing : α → Option Bool) (votes : List β) (side : Bool) (mem : α) : Prop :=
  ¬ Cast voter verdict votes (!side) mem ∧
    (Cast voter verdict votes side mem ∨ standing mem = some side)

instance (standing : α → Option Bool) (votes : List β) (side : Bool) (mem : α) :
    Decidable (Certain voter verdict standing votes side mem) :=
  inferInstanceAs (Decidable (_ ∧ _))

/-- The member ends on this side in some order of the votes. -/
def Possible (standing : α → Option Bool) (votes : List β) (side : Bool) (mem : α) : Prop :=
  Cast voter verdict votes side mem ∨
    (¬ Cast voter verdict votes (!side) mem ∧ standing mem = some side)

instance (standing : α → Option Bool) (votes : List β) (side : Bool) (mem : α) :
    Decidable (Possible voter verdict standing votes side mem) :=
  inferInstanceAs (Decidable (_ ∨ _))

variable {voter verdict} {standing : α → Option Bool} {votes : List β} {side : Bool} {mem : α}

omit [DecidableEq α] in
lemma cast_congr {order : List β} (same : ∀ vote, vote ∈ order ↔ vote ∈ votes) :
    Cast voter verdict order side mem ↔ Cast voter verdict votes side mem := by
  simp only [Cast, same]

lemma recordAll_of_not_cast (silent : ∀ side, ¬ Cast voter verdict votes side mem) :
    recordAll voter verdict standing votes mem = standing mem := by
  induction votes using reverseRecOn with
  | nil => rfl
  | append_singleton votes vote ih =>
    rw [recordAll, foldl_append]
    have other : mem ≠ voter vote := by
      rintro rfl
      exact silent (verdict vote) ⟨vote, by simp, rfl, rfl⟩
    refine (Function.update_of_ne other _ _).trans (ih fun side => ?_)
    rintro ⟨prev, has, cast⟩
    exact silent side ⟨prev, mem_append_left _ has, cast⟩

lemma Certain.recordAll (certain : Certain voter verdict standing votes side mem) :
    recordAll voter verdict standing votes mem = some side := by
  induction votes using reverseRecOn with
  | nil =>
    rcases certain.2 with ⟨vote, absent, _⟩ | stands
    · cases absent
    · exact stands
  | append_singleton votes vote ih =>
    obtain ⟨unopposed, supported⟩ := certain
    rw [Lib.Tally.recordAll, foldl_append]
    by_cases own : voter vote = mem
    · have agrees : verdict vote = side := by
        by_contra differs
        exact unopposed ⟨vote, by simp, own, Bool.eq_not_of_ne differs⟩
      subst own
      exact (Function.update_self ..).trans (congrArg some agrees)
    · refine (Function.update_of_ne (Ne.symm own) _ _).trans (ih ⟨?_, ?_⟩)
      · rintro ⟨prev, has, cast⟩
        exact unopposed ⟨prev, mem_append_left _ has, cast⟩
      · rcases supported with ⟨prev, has, voterIs, cast⟩ | stands
        · rcases mem_append.mp has with has | last
          · exact .inl ⟨prev, has, voterIs, cast⟩
          · rw [mem_singleton.mp last] at voterIs
            exact absurd voterIs own
        · exact .inr stands

lemma possible_of_recordAll (ends : recordAll voter verdict standing votes mem = some side) :
    Possible voter verdict standing votes side mem := by
  by_cases cast : Cast voter verdict votes side mem
  · exact .inl cast
  · by_cases opposed : Cast voter verdict votes (!side) mem
    · have certain : Certain voter verdict standing votes (!side) mem :=
        ⟨by rwa [Bool.not_not], .inl opposed⟩
      rw [certain.recordAll] at ends
      simp at ends
    · refine .inr ⟨opposed, ?_⟩
      rw [← ends]
      refine (recordAll_of_not_cast fun other => ?_).symm
      rcases Bool.eq_or_eq_not other side with rfl | rfl
      · exact cast
      · exact opposed

/-- The votes for a side after those for the other. -/
def favour (verdict : β → Bool) (side : Bool) (votes : List β) : List β :=
  votes.filter (fun vote => verdict vote != side) ++ votes.filter fun vote => verdict vote == side

lemma mem_favour (vote : β) : vote ∈ favour verdict side votes ↔ vote ∈ votes := by
  rw [favour, mem_append, mem_filter, mem_filter]
  by_cases same : verdict vote = side
  · simp [same]
  · simp [same]

lemma recordAll_favour_iff :
    recordAll voter verdict standing (favour verdict side votes) mem = some side ↔
      Possible voter verdict standing votes side mem := by
  constructor
  · intro ends
    have possible := possible_of_recordAll ends
    simpa only [Possible, cast_congr mem_favour] using possible
  · rintro (⟨vote, has, voterIs, verdictIs⟩ | ⟨unopposed, stands⟩)
    · rw [recordAll, favour, foldl_append]
      refine Certain.recordAll ⟨?_, .inl ⟨vote, ?_, voterIs, verdictIs⟩⟩
      · rintro ⟨other, kept, _, opposed⟩
        have agrees : verdict other = side := by simpa using (mem_filter.mp kept).2
        rw [agrees] at opposed
        simp at opposed
      · simp [has, verdictIs]
    · refine Certain.recordAll ⟨?_, .inr stands⟩
      rwa [cast_congr mem_favour]

lemma recordAll_favour_not_iff :
    recordAll voter verdict standing (favour verdict side votes) mem = some (!side) ↔
      Certain voter verdict standing votes (!side) mem := by
  constructor
  · intro ends
    have unfavoured : ¬ Possible voter verdict standing votes side mem := by
      intro possible
      rw [recordAll_favour_iff.mpr possible] at ends
      simp at ends
    have possible := possible_of_recordAll ends
    simp only [Possible, cast_congr mem_favour] at possible
    refine ⟨?_, ?_⟩
    · rw [Bool.not_not]
      exact fun cast => unfavoured (.inl cast)
    · exact possible.imp_right And.right
  · intro certain
    refine Certain.recordAll ?_
    simpa only [Certain, cast_congr mem_favour] using certain

end Standing

section Outcome

variable (weight : α → Nat) (population : Finset α) (threshold : Nat)

/-- The weight of the members that stand for a side. -/
def support (standing : α → Option Bool) (side : Bool) : Nat :=
  weigh weight (population.filter fun mem => standing mem = some side)

/-- The side that reaches the threshold. -/
def outcome (standing : α → Option Bool) : Option Bool :=
  if threshold ≤ support weight population standing true then some true
  else if threshold ≤ support weight population standing false then some false
  else none

variable (voter : β → α) (verdict : β → Bool) (standing : α → Option Bool) (votes : List β)

/-- The weight of the members that end on a side in every order of the votes. -/
def certainSupport (side : Bool) : Nat :=
  weigh weight (population.filter (Certain voter verdict standing votes side))

/-- The weight of the members that end on a side in some order of the votes. -/
def possibleSupport (side : Bool) : Nat :=
  weigh weight (population.filter (Possible voter verdict standing votes side))

/-- The outcome is the same in every order: acceptance is certain, or it is impossible and
rejection is certain or impossible. -/
def Settled : Prop :=
  threshold ≤ certainSupport weight population voter verdict standing votes true ∨
    (possibleSupport weight population voter verdict standing votes true < threshold ∧
      (threshold ≤ certainSupport weight population voter verdict standing votes false ∨
        possibleSupport weight population voter verdict standing votes false < threshold))

/-- The vote moves its voter away from acceptance, and takes the threshold with it. -/
def Withdraws (vote : β) : Prop :=
  verdict vote = false ∧ voter vote ∈ population ∧ standing (voter vote) = some true ∧
    support weight population standing true < threshold + weight (voter vote)

variable {weight population threshold voter verdict standing votes}

omit [DecidableEq α] in
lemma outcome_eq_true_iff : outcome weight population threshold standing = some true ↔
    threshold ≤ support weight population standing true := by
  unfold outcome
  split
  · rename_i acc
    exact iff_of_true rfl acc
  · rename_i open_
    split <;> simp [open_]

lemma support_bounds {order : List β} (same : ∀ vote, vote ∈ order ↔ vote ∈ votes)
    (side : Bool) :
    certainSupport weight population voter verdict standing votes side ≤
        support weight population (recordAll voter verdict standing order) side ∧
      support weight population (recordAll voter verdict standing order) side ≤
        possibleSupport weight population voter verdict standing votes side := by
  constructor
  · refine weigh_mono (Finset.monotone_filter_right _ fun mem _ certain => ?_)
    refine Certain.recordAll ?_
    simpa only [Certain, cast_congr same] using certain
  · refine weigh_mono (Finset.monotone_filter_right _ fun mem _ ends => ?_)
    have possible := possible_of_recordAll ends
    simpa only [Possible, cast_congr same] using possible

lemma support_favour {side : Bool} :
    support weight population (recordAll voter verdict standing (favour verdict side votes)) side =
        possibleSupport weight population voter verdict standing votes side ∧
      support weight population (recordAll voter verdict standing (favour verdict side votes))
          (!side) =
        certainSupport weight population voter verdict standing votes (!side) := by
  constructor
  · exact congrArg (weigh weight) (Finset.filter_congr fun _ _ => recordAll_favour_iff)
  · exact congrArg (weigh weight) (Finset.filter_congr fun _ _ => recordAll_favour_not_iff)

lemma outcome_same_iff :
    (∀ order : List β, (∀ vote, vote ∈ order ↔ vote ∈ votes) →
      outcome weight population threshold (recordAll voter verdict standing order) =
        outcome weight population threshold (recordAll voter verdict standing votes)) ↔
      Settled weight population threshold voter verdict standing votes := by
  constructor
  · intro same
    have equal : outcome weight population threshold
          (recordAll voter verdict standing (favour verdict true votes)) =
        outcome weight population threshold
          (recordAll voter verdict standing (favour verdict false votes)) :=
      (same _ mem_favour).trans (same _ mem_favour).symm
    obtain ⟨accepting, acc⟩ := @support_favour α β _ weight population voter verdict standing
      votes true
    obtain ⟨rejecting, rejected⟩ := @support_favour α β _ weight population voter verdict standing
      votes false
    rw [Bool.not_true] at acc
    rw [Bool.not_false] at rejected
    simp only [outcome, accepting, acc, rejecting, rejected] at equal
    unfold Settled
    by_contra! unsettled
    obtain ⟨uncertain, open_⟩ := unsettled
    rw [if_neg (Nat.not_le_of_lt uncertain)] at equal
    by_cases possible : threshold ≤
        possibleSupport weight population voter verdict standing votes true
    · rw [if_pos possible] at equal
      split at equal <;> cases equal
    · obtain ⟨unrejected, rejectable⟩ := open_ (Nat.lt_of_not_le possible)
      rw [if_neg possible, if_neg (Nat.not_le_of_lt unrejected), if_pos rejectable] at equal
      cases equal
  · intro settled order same
    have accepts := @support_bounds α β _ weight population voter verdict standing votes
    have bounds := accepts same
    have ownBounds := accepts fun _ => Iff.rfl
    unfold outcome
    rcases settled with certain | ⟨impossible, certain | never⟩
    · rw [if_pos (certain.trans (bounds true).1), if_pos (certain.trans (ownBounds true).1)]
    · rw [if_neg (Nat.not_le_of_lt ((bounds true).2.trans_lt impossible)),
        if_neg (Nat.not_le_of_lt ((ownBounds true).2.trans_lt impossible)),
        if_pos (certain.trans (bounds false).1), if_pos (certain.trans (ownBounds false).1)]
    · rw [if_neg (Nat.not_le_of_lt ((bounds true).2.trans_lt impossible)),
        if_neg (Nat.not_le_of_lt ((ownBounds true).2.trans_lt impossible)),
        if_neg (Nat.not_le_of_lt ((bounds false).2.trans_lt never)),
        if_neg (Nat.not_le_of_lt ((ownBounds false).2.trans_lt never))]

lemma outcome_record_iff {vote : β}
    (acc : outcome weight population threshold standing = some true) :
    outcome weight population threshold (record voter verdict standing vote) = some true ↔
      ¬ Withdraws weight population threshold voter verdict standing vote := by
  rw [outcome_eq_true_iff] at acc ⊢
  by_cases leaves : verdict vote = false ∧ voter vote ∈ population ∧
      standing (voter vote) = some true
  · obtain ⟨rejects, inside, stands⟩ := leaves
    have left : population.filter (fun mem => record voter verdict standing vote mem =
        some true) = (population.filter fun mem => standing mem = some true).erase
          (voter vote) := by
      ext mem
      rw [Finset.mem_filter, Finset.mem_erase, Finset.mem_filter, record]
      by_cases own : mem = voter vote
      · simp [own, rejects]
      · simp [own]
    have mem : voter vote ∈ population.filter fun mem => standing mem = some true :=
      Finset.mem_filter.mpr ⟨inside, stands⟩
    have split := @weigh_insert_of_notMem α weight _ _ _ (Finset.notMem_erase (voter vote)
      (population.filter fun mem => standing mem = some true))
    rw [Finset.insert_erase mem] at split
    simp only [Withdraws, rejects, inside, stands, true_and, support, left]
    omega
  · refine iff_of_true (acc.trans ?_) fun withdraws =>
      leaves ⟨withdraws.1, withdraws.2.1, withdraws.2.2.1⟩
    refine weigh_mono fun mem stands => ?_
    rw [Finset.mem_filter] at stands ⊢
    refine ⟨stands.1, ?_⟩
    by_cases own : mem = voter vote
    · subst own
      cases side : verdict vote with
      | false => exact absurd ⟨side, stands.1, stands.2⟩ leaves
      | true => simp [record, side]
    · simpa [record, own] using stands.2

end Outcome

end Lib.Tally
