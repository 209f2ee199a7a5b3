import Mathlib

/-!
# Scans and bulk insertion of ordered maps

An ordered map is read by key, by a scan of the entries whose keys satisfy a test,
and by its greatest key. A scan lists values in key order; when every value knows its
key, two scans with the same members are the same list. Bulk insertion stores values
under the keys they know.
-/

namespace Lib.OrderedMap

open List Std

variable {α β : Type} [Ord α] [TransOrd α] [LawfulEqOrd α]

/-- The values whose keys pass the test, in key order. -/
def scan (map : ExtTreeMap α β) (keep : α → Bool) : List β :=
  (map.filter (fun key _ => keep key)).toList.map Prod.snd

lemma mem_scan {map : ExtTreeMap α β} {keep : α → Bool} {val : β} :
    val ∈ scan map keep ↔ ∃ key, keep key = true ∧ map[key]? = some val := by
  simp only [scan, List.mem_map, Prod.exists, ExtTreeMap.mem_toList_iff_getElem?_eq_some,
    ExtTreeMap.getElem?_filter', Option.filter_eq_some_iff, exists_eq_right]
  exact exists_congr fun key => And.comm

lemma scan_increasing {map : ExtTreeMap α β} {keep : α → Bool} (key : β → α)
    (keyed : ∀ stored val, keep stored = true → map[stored]? = some val → key val = stored) :
    (scan map keep).Pairwise (fun left right => compare (key left) (key right) = .lt) := by
  rw [scan, pairwise_map]
  refine List.Pairwise.imp_of_mem ?_ ExtTreeMap.ordered_keys_toList
  intro left right leftMember rightMember pre
  have entry : ∀ pair ∈ (map.filter (fun key _ => keep key)).toList, key pair.2 = pair.1 := by
    rintro ⟨stored, val⟩ mem
    rw [ExtTreeMap.mem_toList_iff_getElem?_eq_some, ExtTreeMap.getElem?_filter',
      Option.filter_eq_some_iff] at mem
    exact keyed stored val mem.2 mem.1
  rw [entry left leftMember, entry right rightMember]
  exact pre

omit [TransOrd α] in
lemma nodup_of_increasing {items : List α}
    (increasing : items.Pairwise fun first second => compare first second = .lt) :
    items.Nodup :=
  increasing.imp (by
    rintro item _ pre rfl
    simp at pre)

lemma eq_of_increasing (key : β → α) {left right : List β}
    (leftIncreasing : left.Pairwise fun first second => compare (key first) (key second) = .lt)
    (rightIncreasing : right.Pairwise fun first second => compare (key first) (key second) = .lt)
    (same : ∀ item, item ∈ left ↔ item ∈ right) : left = right := by
  have leftDistinct := (nodup_of_increasing (pairwise_map.mpr leftIncreasing)).of_map
  have rightDistinct := (nodup_of_increasing (pairwise_map.mpr rightIncreasing)).of_map
  refine List.Perm.eq_of_pairwise (fun first second _ _ pre post => ?_) leftIncreasing
    rightIncreasing ((perm_ext_iff_of_nodup leftDistinct rightDistinct).mpr same)
  have cycle : compare (key first) (key first) = .lt := TransCmp.lt_trans pre post
  simp at cycle

lemma toList_eq_map {map : ExtTreeMap α β} {key : β → α} {values : List β}
    (increasing : values.Pairwise fun left right => compare (key left) (key right) = .lt)
    (holds : ∀ stored val, map[stored]? = some val ↔ val ∈ values ∧ key val = stored) :
    map.toList = values.map fun val => (key val, val) := by
  apply eq_of_increasing Prod.fst ExtTreeMap.ordered_keys_toList
    (pairwise_map.mpr increasing)
  rintro ⟨stored, val⟩
  rw [ExtTreeMap.mem_toList_iff_getElem?_eq_some, holds, List.mem_map]
  constructor
  · rintro ⟨mem, rfl⟩
    exact ⟨val, mem, rfl⟩
  · rintro ⟨other, mem, same⟩
    cases same
    exact ⟨mem, rfl⟩

variable {map : ExtTreeMap α β} {set : ExtTreeSet α} {key : α} {val : β}

lemma mem_insert_iff {added item : α} : item ∈ set.insert added ↔ item = added ∨ item ∈ set := by
  rw [ExtTreeSet.mem_insert, LawfulEqCmp.compare_eq_iff_eq, eq_comm]

lemma mem_erase_iff {erased item : α} : item ∈ set.erase erased ↔ item ≠ erased ∧ item ∈ set := by
  rw [ExtTreeSet.mem_erase, ne_eq, LawfulEqCmp.compare_eq_iff_eq, ne_comm]

lemma mem_foldl_insert {items : List α} {item : α} :
    item ∈ items.foldl .insert set ↔ item ∈ items ∨ item ∈ set := by
  induction items generalizing set with
  | nil => simp
  | cons first rest ih =>
    rw [foldl_cons, ih, ExtTreeSet.mem_insert,
      LawfulEqCmp.compare_eq_iff_eq, mem_cons, eq_comm]
    tauto

def last (set : ExtTreeSet α) : Option α := set.toList.getLast?

lemma last_eq_some_iff {item : α} :
    last set = some item ↔ item ∈ set ∧ ∀ other ∈ set, (compare other item).isLE := by
  rw [last, ← ExtTreeSet.max?_eq_getLast?_toList,
    ExtTreeSet.max?_eq_some_iff_mem_and_forall]

lemma last_eq_none_iff : last set = none ↔ ∀ item, item ∉ set := by
  rw [last, getLast?_eq_none_iff, eq_nil_iff_forall_not_mem]
  simp only [ExtTreeSet.mem_toList]

def lastKey (map : ExtTreeMap α β) : Option α := map.keys.getLast?

lemma lastKey_eq_some_iff :
    lastKey map = some key ↔ key ∈ map ∧ ∀ other ∈ map, (compare other key).isLE := by
  rw [lastKey, ← ExtTreeMap.maxKey?_eq_getLast?_keys,
    ExtTreeMap.maxKey?_eq_some_iff_mem_and_forall]

lemma lastKey_eq_none_iff : lastKey map = none ↔ ∀ key, key ∉ map := by
  rw [lastKey, getLast?_eq_none_iff, eq_nil_iff_forall_not_mem]
  simp only [ExtTreeMap.mem_keys]

def firstKey (map : ExtTreeMap α β) : Option α := map.keys.head?

lemma firstKey_eq_some_iff :
    firstKey map = some key ↔ key ∈ map ∧ ∀ other ∈ map, (compare key other).isLE := by
  rw [firstKey, ← ExtTreeMap.minKey?_eq_head?_keys,
    ExtTreeMap.minKey?_eq_some_iff_mem_and_forall]

lemma mem_insertKey_iff {added : α} : key ∈ map.insert added val ↔ key = added ∨ key ∈ map := by
  rw [ExtTreeMap.mem_insert, LawfulEqCmp.compare_eq_iff_eq, eq_comm]

lemma mem_eraseKey_iff {erased : α} : key ∈ map.erase erased ↔ key ≠ erased ∧ key ∈ map := by
  rw [ExtTreeMap.mem_erase, ne_eq, LawfulEqCmp.compare_eq_iff_eq, ne_comm]

omit [LawfulEqOrd α] in
lemma mem_of_getElem? (got : map[key]? = some val) : key ∈ map :=
  ExtTreeMap.mem_iff_isSome_getElem?.mpr (by simp [got])

omit [LawfulEqOrd α] in
lemma getElem?_of_mem (mem : key ∈ map) : ∃ val, map[key]? = some val :=
  Option.isSome_iff_exists.mp (ExtTreeMap.mem_iff_isSome_getElem?.mp mem)

lemma size_lt_of_keys [BEq α] [LawfulBEq α] {small large : ExtTreeMap α β} {removed : α}
    (has : removed ∈ large) (kept : ∀ key ∈ small, key ∈ large ∧ key ≠ removed) :
    small.size < large.size := by
  have nodup : small.keys.Nodup := nodup_of_increasing ExtTreeMap.ordered_keys
  have here : removed ∈ large.keys := ExtTreeMap.mem_keys.mpr has
  have inside : small.keys ⊆ large.keys.erase removed := by
    intro key mem
    obtain ⟨old, ne⟩ := kept key (ExtTreeMap.mem_keys.mp mem)
    exact (mem_erase_of_ne ne).mpr (ExtTreeMap.mem_keys.mpr old)
  have shorter := (subperm_of_subset nodup inside).length_le
  rw [length_erase_of_mem here] at shorter
  have pos := length_pos_of_mem here
  rw [← ExtTreeMap.length_keys, ← ExtTreeMap.length_keys]
  omega

/-- Store each item under its key, later items over earlier ones. -/
def insertAll (key : β → α) (map : ExtTreeMap α β) (items : List β) : ExtTreeMap α β :=
  items.foldl (fun stored item => stored.insert (key item) item) map

lemma getElem?_insertAll_cases {key : β → α} {map : ExtTreeMap α β} {items : List β}
    {stored : α} {val : β} (got : (insertAll key map items)[stored]? = some val) :
    (val ∈ items ∧ key val = stored) ∨ map[stored]? = some val := by
  induction items generalizing map with
  | nil => exact .inr got
  | cons item rest ih =>
    rcases ih got with inserted | pre
    · exact .inl ⟨mem_cons_of_mem _ inserted.1, inserted.2⟩
    · rw [ExtTreeMap.getElem?_insert] at pre
      split at pre
      · rename_i same
        cases pre
        exact .inl ⟨by simp, LawfulEqCmp.eq_of_compare same⟩
      · exact .inr pre

lemma mem_insertAll {key : β → α} {map : ExtTreeMap α β} {items : List β} {stored : α} :
    stored ∈ insertAll key map items ↔ (∃ item ∈ items, key item = stored) ∨ stored ∈ map := by
  induction items generalizing map with
  | nil => simp [insertAll]
  | cons item rest ih =>
    rw [insertAll, foldl_cons, ← insertAll, ih, ExtTreeMap.mem_insert,
      LawfulEqCmp.compare_eq_iff_eq]
    simp only [mem_cons, exists_eq_or_imp]
    rw [or_left_comm, or_assoc]

lemma getElem?_erase_of_ne {removed : α}
    (ne : key ≠ removed) : (map.erase removed)[key]? = map[key]? := by
  rw [ExtTreeMap.getElem?_erase, if_neg]
  exact fun same => ne (LawfulEqCmp.eq_of_compare same).symm

lemma getElem?_insert_cases {written : α} {read : β}
    (got : (map.insert written val)[key]? = some read) :
    (key = written ∧ read = val) ∨ (key ≠ written ∧ map[key]? = some read) := by
  by_cases same : key = written
  · subst same
    rw [ExtTreeMap.getElem?_insert_self] at got
    exact .inl ⟨rfl, (Option.some.inj got).symm⟩
  · rw [ExtTreeMap.getElem?_insert, if_neg] at got
    · exact .inr ⟨same, got⟩
    · exact fun equal => same (LawfulEqCmp.eq_of_compare equal).symm

lemma getElem?_insert_of_ne {written : α}
    (ne : key ≠ written) : (map.insert written val)[key]? = map[key]? := by
  rw [ExtTreeMap.getElem?_insert, if_neg]
  exact fun same => ne (LawfulEqCmp.eq_of_compare same).symm

omit [LawfulEqOrd α] in
lemma getElem?_of_erase {removed : α}
    (got : (map.erase removed)[key]? = some val) : map[key]? = some val := by
  rw [ExtTreeMap.getElem?_erase] at got
  split at got
  · cases got
  · exact got

omit [LawfulEqOrd α] in
lemma size_erase_of_getElem?
    (got : map[key]? = some val) : (map.erase key).size + 1 = map.size := by
  have mem : key ∈ map := ExtTreeMap.mem_iff_isSome_getElem?.mpr (by simp [got])
  have pos : map.size ≠ 0 := by
    intro empty
    rw [ExtTreeMap.eq_empty_iff_size_eq_zero.mpr empty] at mem
    simp at mem
  rw [ExtTreeMap.size_erase, if_pos (ExtTreeMap.contains_iff_mem.mpr mem)]
  omega

lemma nodup_toList (map : ExtTreeMap α β) : map.toList.Nodup :=
  ExtTreeMap.distinct_keys_toList.imp (by
    rintro left _ ne rfl
    simp at ne)

lemma toList_insert_perm
    (fresh : map[key]? = none) :
    (map.insert key val).toList.Perm ((key, val) :: map.toList) := by
  have absent : (key, val) ∉ map.toList := by
    rw [ExtTreeMap.mem_toList_iff_getElem?_eq_some, fresh]
    simp
  refine (perm_ext_iff_of_nodup (nodup_toList _)
    (nodup_cons.mpr ⟨absent, nodup_toList _⟩)).mpr fun entry => ?_
  obtain ⟨stored, other⟩ := entry
  rw [ExtTreeMap.mem_toList_iff_getElem?_eq_some, mem_cons,
    ExtTreeMap.mem_toList_iff_getElem?_eq_some, Prod.mk.injEq]
  by_cases same : stored = key
  · subst same
    simp [fresh, eq_comm]
  · rw [getElem?_insert_of_ne same]
    simp [same]

lemma toList_erase_perm
    (got : map[key]? = some val) :
    map.toList.Perm ((key, val) :: (map.erase key).toList) := by
  have absent : (map.erase key)[key]? = none := by simp
  have restored : (map.erase key).insert key val = map := by
    refine ExtTreeMap.ext_getElem? fun stored => ?_
    by_cases same : stored = key
    · subst same
      simp [got]
    · rw [getElem?_insert_of_ne same, getElem?_erase_of_ne same]
  have inserted := @toList_insert_perm _ _ _ _ _ _ _ val absent
  rwa [restored] at inserted

lemma nodup_toList_set (set : ExtTreeSet α) : set.toList.Nodup :=
  nodup_of_increasing ExtTreeSet.ordered_toList

lemma toList_insert_perm_set {item : α} (fresh : item ∉ set) :
    (set.insert item).toList.Perm (item :: set.toList) := by
  have absent : item ∉ set.toList := fun here => fresh (ExtTreeSet.mem_toList.mp here)
  refine (perm_ext_iff_of_nodup (nodup_toList_set _)
    (nodup_cons.mpr ⟨absent, nodup_toList_set _⟩)).mpr fun other => ?_
  rw [ExtTreeSet.mem_toList, mem_insert_iff, mem_cons, ExtTreeSet.mem_toList]

lemma toList_erase_perm_set {item : α} (mem : item ∈ set) :
    set.toList.Perm (item :: (set.erase item).toList) := by
  have absent : item ∉ (set.erase item).toList := by
    rw [ExtTreeSet.mem_toList, mem_erase_iff]
    exact fun both => both.1 rfl
  refine (perm_ext_iff_of_nodup (nodup_toList_set _)
    (nodup_cons.mpr ⟨absent, nodup_toList_set _⟩)).mpr fun other => ?_
  rw [mem_cons, ExtTreeSet.mem_toList, ExtTreeSet.mem_toList, mem_erase_iff]
  constructor
  · intro here
    by_cases same : other = item
    · exact .inl same
    · exact .inr ⟨same, here⟩
  · rintro (rfl | ⟨_, here⟩)
    · exact mem
    · exact here

lemma toList_foldl_erase_perm_set {items : List α}
    (nodup : items.Nodup) (members : ∀ item ∈ items, item ∈ set) :
    set.toList.Perm (items ++ (items.foldl .erase set).toList) := by
  induction items generalizing set with
  | nil => exact .rfl
  | cons item rest ih =>
    obtain ⟨absent, nodup⟩ := nodup_cons.mp nodup
    refine (toList_erase_perm_set (members item mem_cons_self)).trans (.cons item ?_)
    refine ih nodup fun other here => mem_erase_iff.mpr ⟨?_, ?_⟩
    · rintro rfl
      exact absent here
    · exact members other (mem_cons_of_mem _ here)

lemma keys_insert_perm
    (fresh : map[key]? = none) : (map.insert key val).keys.Perm (key :: map.keys) := by
  rw [← ExtTreeMap.map_fst_toList_eq_keys, ← ExtTreeMap.map_fst_toList_eq_keys]
  exact (toList_insert_perm fresh).map Prod.fst

lemma keys_erase_perm
    (got : map[key]? = some val) : map.keys.Perm (key :: (map.erase key).keys) := by
  rw [← ExtTreeMap.map_fst_toList_eq_keys, ← ExtTreeMap.map_fst_toList_eq_keys]
  exact (toList_erase_perm got).map Prod.fst

lemma getElem?_foldl_erase [DecidableEq α] {keys : List α}
    : (keys.foldl .erase map)[key]? = if key ∈ keys then none else map[key]? := by
  induction keys generalizing map with
  | nil => simp
  | cons first rest ih =>
    rw [foldl_cons, ih, ExtTreeMap.getElem?_erase]
    simp only [LawfulEqCmp.compare_eq_iff_eq]
    by_cases later : key ∈ rest
    · simp [later]
    · by_cases same : key = first
      · simp [same]
      · simp [later, same, Ne.symm same]

end Lib.OrderedMap
