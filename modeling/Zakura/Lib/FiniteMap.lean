import Mathlib.Data.Finmap
import Mathlib.Data.Finset.Sort

/-!
Finite maps with one value type, as they are used by programs: keyed updates,
filters, enumeration in key order, and maps whose values are nonempty sets.
-/

abbrev FiniteMap (Key Value : Type) := Finmap fun _ : Key => Value

namespace FiniteMap

open Finmap

section

variable {α : Type} [LinearOrder α]

def ascending (elements : Finset α) : List α :=
  Quot.liftOn elements.val (fun values => values.insertionSort (· ≤ ·)) fun first second perm =>
    ((List.perm_insertionSort _ first).trans
      (perm.trans (List.perm_insertionSort _ second).symm)).eq_of_pairwise'
      (List.pairwise_insertionSort _ first) (List.pairwise_insertionSort _ second)

@[simp] theorem mem_ascending {elements : Finset α} {value : α} :
    value ∈ ascending elements ↔ value ∈ elements := by
  obtain ⟨⟨values⟩, _⟩ := elements
  change value ∈ values.insertionSort (· ≤ ·) ↔ _
  rw [List.mem_insertionSort]
  rfl

theorem nodup_ascending (elements : Finset α) : (ascending elements).Nodup := by
  obtain ⟨⟨values⟩, unique⟩ := elements
  exact (List.perm_insertionSort _ values).nodup_iff.mpr unique

theorem pairwise_ascending (elements : Finset α) : (ascending elements).Pairwise (· ≤ ·) := by
  obtain ⟨⟨values⟩, _⟩ := elements
  exact List.pairwise_insertionSort _ values

@[simp] theorem ascending_empty : ascending (∅ : Finset α) = [] := rfl

@[simp] theorem ascending_eq_nil (elements : Finset α) : ascending elements = [] ↔ elements = ∅ := by
  constructor
  · intro empty
    ext value
    rw [← mem_ascending, empty]
    simp
  · rintro rfl
    rfl

theorem ascending_toFinset (elements : Finset α) : (ascending elements).toFinset = elements := by
  ext value
  simp

theorem ascending_of_pairwise {values : List α} (sorted : values.Pairwise (· < ·)) :
    ascending values.toFinset = values := by
  have unique : values.Nodup := sorted.imp fun below => below.ne
  have sameValues := List.perm_of_nodup_nodup_toFinset_eq (nodup_ascending values.toFinset) unique
    (ascending_toFinset _)
  exact sameValues.eq_of_pairwise' (pairwise_ascending _) (sorted.imp fun below => below.le)

end

section

variable {Key Value Result : Type} [DecidableEq Key]

@[grind =] theorem lookup_insert_ite (map : FiniteMap Key Value) (key query : Key) (value : Value) :
    (map.insert key value).lookup query = if query = key then some value else map.lookup query := by
  split
  · subst query
    exact lookup_insert map
  next different =>
    exact lookup_insert_of_ne map different

@[grind =] theorem lookup_erase_ite (map : FiniteMap Key Value) (key query : Key) :
    (map.erase key).lookup query = if query = key then none else map.lookup query := by
  split
  · subst query
    exact lookup_erase key map
  next different =>
    exact lookup_erase_ne different

theorem ite_eq_some {condition : Prop} [Decidable condition] {value other : Value}
    {rest : Option Value} : (if condition then some value else rest) = some other ↔
      condition ∧ value = other ∨ ¬condition ∧ rest = some other := by
  split <;> simp_all

section

variable {map : FiniteMap Key Value} {key query : Key} {value other : Value}

theorem lookup_insert_eq_some : (map.insert key value).lookup query = some other ↔
    query = key ∧ value = other ∨ query ≠ key ∧ map.lookup query = some other := by
  rw [lookup_insert_ite, ite_eq_some]

theorem lookup_erase_eq_some :
    (map.erase key).lookup query = some other ↔ query ≠ key ∧ map.lookup query = some other := by
  rw [lookup_erase_ite, Option.ite_none_left_eq_some]

section

variable {holds : Key → Value → Prop}
  (every : ∀ query other, map.lookup query = some other → holds query other)
include every

theorem forall_lookup_insert (here : holds key value) :
    ∀ query other, (map.insert key value).lookup query = some other → holds query other := by
  intro query other found
  rcases lookup_insert_eq_some.mp found with ⟨rfl, rfl⟩ | ⟨_, found⟩
  · exact here
  · exact every query other found

theorem forall_lookup_erase (key : Key) :
    ∀ query other, (map.erase key).lookup query = some other → holds query other :=
  fun query other found => every query other (lookup_erase_eq_some.mp found).2

end

theorem erase_absent (absent : map.lookup key = none) : map.erase key = map := by
  apply ext_lookup
  intro query
  rw [lookup_erase_ite]
  split
  next same =>
    rw [same, absent]
  · rfl

theorem insert_lookup (found : map.lookup key = some value) : map.insert key value = map := by
  apply ext_lookup
  intro query
  rw [lookup_insert_ite]
  split
  next same =>
    rw [same, found]
  · rfl

theorem erase_insert_self (map : FiniteMap Key Value) (key : Key) (value : Value) :
    (map.insert key value).erase key = map.erase key := by
  apply ext_lookup
  intro query
  rw [lookup_erase_ite, lookup_erase_ite, lookup_insert_ite]
  split <;> rfl

theorem erase_insert (absent : map.lookup key = none) (value : Value) :
    (map.insert key value).erase key = map := by
  rw [erase_insert_self, erase_absent absent]

theorem insert_erase_self (map : FiniteMap Key Value) (key : Key) (value : Value) :
    insert key value (map.erase key) = map.insert key value := by
  apply ext_lookup
  intro query
  rw [lookup_insert_ite, lookup_insert_ite, lookup_erase_ite]
  split <;> rfl

theorem insert_erase (found : map.lookup key = some value) :
    insert key value (map.erase key) = map := by
  rw [insert_erase_self, insert_lookup found]

end

theorem mem_keys_iff {map : FiniteMap Key Value} {key : Key} :
    key ∈ map.keys ↔ ∃ value, map.lookup key = some value := by
  rw [mem_keys, mem_iff]

theorem keys_insert (map : FiniteMap Key Value) (key : Key) (value : Value) :
    (map.insert key value).keys = insert key map.keys := by
  ext query
  simp [mem_keys]

def ofLookup (domain : Finset Key) (find : Key → Option Value)
    (exact : ∀ key, (find key).isSome ↔ key ∈ domain) : FiniteMap Key Value :=
  keysLookupEquiv.symm ⟨(domain, find), exact⟩

@[simp] theorem lookup_ofLookup (domain : Finset Key) (find : Key → Option Value)
    (exact : ∀ key, (find key).isSome ↔ key ∈ domain) (key : Key) :
    (ofLookup domain find exact).lookup key = find key :=
  keysLookupEquiv_symm_apply_lookup _ _

def retain (keep : Key → Value → Bool) (map : FiniteMap Key Value) : FiniteMap Key Value :=
  ofLookup (map.keys.filter fun key => ((map.lookup key).any (keep key)))
    (fun key => (map.lookup key).filter (keep key)) (by
      intro key
      rw [Finset.mem_filter, mem_keys_iff]
      cases map.lookup key <;> simp [Option.filter, apply_ite Option.isSome])

@[simp] theorem lookup_retain (keep : Key → Value → Bool) (map : FiniteMap Key Value) (key : Key) :
    (map.retain keep).lookup key = (map.lookup key).filter (keep key) :=
  lookup_ofLookup _ _ _ _

theorem lookup_retain_eq_some (keep : Key → Value → Bool) (map : FiniteMap Key Value)
    (key : Key) (value : Value) : (map.retain keep).lookup key = some value ↔
      map.lookup key = some value ∧ keep key value = true := by
  rw [lookup_retain, Option.filter_eq_some_iff]

def mapValues (convert : Key → Value → Result) (map : FiniteMap Key Value) : FiniteMap Key Result :=
  ofLookup map.keys (fun key => (map.lookup key).map (convert key)) (by
    intro key
    rw [Option.isSome_map, lookup_isSome, mem_keys])

@[simp] theorem lookup_mapValues (convert : Key → Value → Result) (map : FiniteMap Key Value)
    (key : Key) : (map.mapValues convert).lookup key = (map.lookup key).map (convert key) :=
  lookup_ofLookup _ _ _ _

end

section

variable {Key Value : Type} [LinearOrder Key]

def values (map : FiniteMap Key Value) : List Value :=
  (ascending map.keys).filterMap map.lookup

theorem mem_values {map : FiniteMap Key Value} {value : Value} :
    value ∈ map.values ↔ ∃ key, map.lookup key = some value := by
  simp only [values, List.mem_filterMap, mem_ascending]
  constructor
  · rintro ⟨key, _, found⟩
    exact ⟨key, found⟩
  · rintro ⟨key, found⟩
    exact ⟨key, mem_keys_iff.mpr ⟨value, found⟩, found⟩

section

variable {keyOf : Value → Key} {map : FiniteMap Key Value}
  (keyed : ∀ key value, map.lookup key = some value → keyOf value = key)
include keyed

theorem mem_values_keyed {key : Key} {value : Value} :
    value ∈ map.values ∧ keyOf value = key ↔ map.lookup key = some value := by
  rw [mem_values]
  constructor
  · rintro ⟨⟨other, found⟩, rfl⟩
    rw [keyed other value found, found]
  · exact fun found => ⟨⟨key, found⟩, keyed key value found⟩

theorem nodup_values_map : (map.values.map keyOf).Nodup := by
  rw [values, List.map_filterMap]
  refine (nodup_ascending map.keys).filterMap fun first second shared isFirst isSecond => ?_
  obtain ⟨value, found, rfl⟩ := Option.map_eq_some_iff.mp isFirst
  obtain ⟨other, otherFound, same⟩ := Option.map_eq_some_iff.mp isSecond
  rw [← keyed first value found, ← same, keyed second other otherFound]

end

end

section

variable {Key Member : Type} [DecidableEq Key] [DecidableEq Member]

def members (index : FiniteMap Key (Finset Member)) (key : Key) : Finset Member :=
  (index.lookup key).getD ∅

def addMember (key : Key) (member : Member) (index : FiniteMap Key (Finset Member)) :
    FiniteMap Key (Finset Member) :=
  index.insert key (insert member (index.members key))

def removeMember (key : Key) (member : Member) (index : FiniteMap Key (Finset Member)) :
    FiniteMap Key (Finset Member) :=
  match index.lookup key with
  | none => index
  | some filed =>
    if filed.erase member = ∅ then index.erase key else index.insert key (filed.erase member)

def removeMembers (index : FiniteMap Key (Finset Member)) (key : Key) (gone : Finset Member) :
    FiniteMap Key (Finset Member) :=
  match index.lookup key with
  | none => index
  | some filed =>
    if filed \ gone = ∅ then index.erase key else index.insert key (filed \ gone)

def eraseMember (key : Key) (member : Member) (index : FiniteMap Key (Finset Member)) :
    FiniteMap Key (Finset Member) :=
  match index.lookup key with
  | none => index
  | some filed => index.insert key (filed.erase member)

def NoEmpty (index : FiniteMap Key (Finset Member)) : Prop :=
  ∀ key filed, index.lookup key = some filed → filed.Nonempty

omit [DecidableEq Member] in
@[simp] theorem members_empty (key : Key) :
    members (∅ : FiniteMap Key (Finset Member)) key = ∅ := rfl

omit [DecidableEq Member] in
theorem members_insert (index : FiniteMap Key (Finset Member)) (key query : Key)
    (filed : Finset Member) :
    members (index.insert key filed) query = if query = key then filed else index.members query := by
  unfold members
  rw [lookup_insert_ite]
  split <;> rfl

omit [DecidableEq Member] in
theorem members_erase (index : FiniteMap Key (Finset Member)) (key query : Key) :
    members (index.erase key) query = if query = key then ∅ else index.members query := by
  unfold members
  rw [lookup_erase_ite]
  split <;> rfl

section

variable (index : FiniteMap Key (Finset Member)) (key query : Key)
include index key query

theorem mem_members_addMember (member other : Member) :
    other ∈ (index.addMember key member).members query ↔
      other ∈ index.members query ∨ (query = key ∧ other = member) := by
  rw [addMember, members_insert]
  split
  · subst query
    simp [or_comm]
  next different =>
    simp [different]

theorem members_removeMembers (gone : Finset Member) :
    (index.removeMembers key gone).members query =
      if query = key then index.members key \ gone else index.members query := by
  unfold removeMembers
  cases found : index.lookup key with
  | none =>
    by_cases same : query = key
    · subst query
      simp [members, found]
    · simp [same]
  | some filed =>
    have current : index.members key = filed := by simp [members, found]
    dsimp only
    split
    next empty =>
      rw [members_erase, current, empty]
    · rw [members_insert, current]

omit query in
theorem removeMember_eq (member : Member) :
    index.removeMember key member = index.removeMembers key {member} := by
  simp only [removeMember, removeMembers, Finset.sdiff_singleton_eq_erase]

theorem mem_members_removeMember (member other : Member) :
    other ∈ (index.removeMember key member).members query ↔
      other ∈ index.members query ∧ ¬(query = key ∧ other = member) := by
  rw [removeMember_eq, members_removeMembers]
  split
  · subst query
    simp
  next different =>
    simp [different]

theorem mem_members_eraseMember (member other : Member) :
    other ∈ (index.eraseMember key member).members query ↔
      other ∈ index.members query ∧ ¬(query = key ∧ other = member) := by
  unfold eraseMember
  cases found : index.lookup key with
  | none =>
    by_cases same : query = key
    · subst query
      simp [members, found]
    · simp [same]
  | some filed =>
    simp only [members_insert]
    split
    · subst query
      simp [members, found, and_comm]
    next different =>
      simp [different]

end

omit [DecidableEq Member] in
theorem noEmpty_empty : NoEmpty (∅ : FiniteMap Key (Finset Member)) := by
  intro key filed found
  simp [lookup_empty] at found

section

variable {index : FiniteMap Key (Finset Member)} (full : NoEmpty index)
include full

theorem NoEmpty.lookup_eq (key : Key) : index.lookup key =
    if index.members key = ∅ then none else some (index.members key) := by
  unfold members
  cases found : index.lookup key with
  | none => rfl
  | some filed => exact (if_neg (full key filed found).ne_empty).symm

omit [DecidableEq Member] in
theorem NoEmpty.insert (key : Key) {filed : Finset Member} (nonempty : filed.Nonempty) :
    NoEmpty (index.insert key filed) :=
  forall_lookup_insert full nonempty

omit [DecidableEq Member] in
theorem NoEmpty.erase (key : Key) : NoEmpty (index.erase key) :=
  forall_lookup_erase full key

theorem NoEmpty.addMember (key : Key) (member : Member) : NoEmpty (index.addMember key member) :=
  full.insert key (Finset.insert_nonempty _ _)

theorem NoEmpty.removeMembers (key : Key) (gone : Finset Member) :
    NoEmpty (index.removeMembers key gone) := by
  unfold FiniteMap.removeMembers
  split
  · exact full
  split
  · exact full.erase key
  next nonempty =>
    exact full.insert key (Finset.nonempty_iff_ne_empty.mpr nonempty)

theorem NoEmpty.removeMember (key : Key) (member : Member) :
    NoEmpty (index.removeMember key member) := by
  rw [removeMember_eq]
  exact full.removeMembers key {member}

end

theorem NoEmpty.ext {first second : FiniteMap Key (Finset Member)} (firstFull : NoEmpty first)
    (secondFull : NoEmpty second) (same : ∀ key, first.members key = second.members key) :
    first = second := by
  apply ext_lookup
  intro key
  rw [firstFull.lookup_eq, secondFull.lookup_eq, same]

end

end FiniteMap
