import Zakura.Lib.FiniteMap

/-!
Sequences of rows collected into maps: by a key of the row, into sets of members,
and whole sets of members added to or taken from an index.
-/

namespace FiniteMap

open List

section

variable {Key : Type} [DecidableEq Key]

def firstDuplicateFrom (seen : Finset Key) : List Key → Option Key
  | [] => none
  | key :: rest => if key ∈ seen then some key else firstDuplicateFrom (insert key seen) rest

def firstDuplicate (keys : List Key) : Option Key :=
  firstDuplicateFrom ∅ keys

theorem firstDuplicateFrom_eq_none (seen : Finset Key) (keys : List Key) :
    firstDuplicateFrom seen keys = none ↔ keys.Nodup ∧ ∀ key ∈ keys, key ∉ seen := by
  induction keys generalizing seen with
  | nil => simp [firstDuplicateFrom]
  | cons key rest ih =>
    rw [firstDuplicateFrom]
    split
    next known =>
      simp [known]
    rename_i fresh
    rw [ih]
    simp only [nodup_cons, Finset.mem_insert, mem_cons, forall_eq_or_imp]
    constructor
    · rintro ⟨distinct, outside⟩
      refine ⟨⟨?_, distinct⟩, fresh, ?_⟩
      · exact fun member => outside key member (.inl rfl)
      · exact fun other member known => outside other member (.inr known)
    rintro ⟨⟨absent, distinct⟩, _, outside⟩
    refine ⟨distinct, ?_⟩
    rintro other member (rfl | known)
    · exact absent member
    · exact outside other member known

@[simp] theorem firstDuplicate_eq_none (keys : List Key) :
    firstDuplicate keys = none ↔ keys.Nodup := by
  simp [firstDuplicate, firstDuplicateFrom_eq_none]

end

section

variable {Key Row : Type} [DecidableEq Key]

def indexBy (keyOf : Row → Key) (rows : List Row) : FiniteMap Key Row :=
  rows.foldl (fun index row => index.insert (keyOf row) row) ∅

theorem lookup_foldl_insert (keyOf : Row → Key) (rows : List Row)
    (distinct : (rows.map keyOf).Nodup) (start : FiniteMap Key Row) (key : Key) (row : Row) :
    (rows.foldl (fun index row => index.insert (keyOf row) row) start).lookup key = some row ↔
      row ∈ rows ∧ keyOf row = key ∨ key ∉ rows.map keyOf ∧ start.lookup key = some row := by
  induction rows generalizing start with
  | nil => simp
  | cons first rest ih =>
    rw [map_cons, nodup_cons] at distinct
    rw [foldl_cons, ih distinct.2, lookup_insert_ite, map_cons, mem_cons,
      mem_cons]
    by_cases same : key = keyOf first
    · subst key
      simp only [if_true, true_or, not_true_eq_false, false_and, or_false, Option.some.injEq]
      constructor
      · rintro (⟨member, keyed⟩ | ⟨_, rfl⟩)
        · exact absurd (mem_map.mpr ⟨row, member, keyed⟩) distinct.1
        · exact ⟨.inl rfl, rfl⟩
      · rintro ⟨rfl | member, keyed⟩
        · exact .inr ⟨distinct.1, rfl⟩
        · exact .inl ⟨member, keyed⟩
    simp only [same, if_false, false_or]
    constructor
    · rintro (⟨member, keyed⟩ | old)
      · exact .inl ⟨.inr member, keyed⟩
      · exact .inr old
    rintro (⟨rfl | member, keyed⟩ | old)
    · exact absurd keyed.symm same
    · exact .inl ⟨member, keyed⟩
    · exact .inr old

theorem lookup_indexBy {keyOf : Row → Key} {rows : List Row} (distinct : (rows.map keyOf).Nodup)
    (key : Key) (row : Row) :
    (indexBy keyOf rows).lookup key = some row ↔ row ∈ rows ∧ keyOf row = key := by
  rw [indexBy, lookup_foldl_insert keyOf rows distinct]
  simp

end

theorem indexBy_values {Key Row : Type} [LinearOrder Key] {keyOf : Row → Key} {rows : List Row}
    {map : FiniteMap Key Row} (sameRows : rows.Perm map.values)
    (keyed : ∀ key row, map.lookup key = some row → keyOf row = key) : indexBy keyOf rows = map := by
  have distinct := (sameRows.map keyOf).nodup_iff.mpr (nodup_values_map keyed)
  apply Finmap.ext_lookup
  intro key
  apply Option.ext
  intro row
  rw [lookup_indexBy distinct, sameRows.mem_iff, mem_values_keyed keyed]

section

variable {Key Member : Type} [DecidableEq Key] [DecidableEq Member]
  {index : FiniteMap Key (Finset Member)}

def grouped (pairs : List (Key × Member)) : FiniteMap Key (Finset Member) :=
  pairs.foldl (fun index pair => index.addMember pair.1 pair.2) ∅

theorem mem_foldl_addMember (pairs : List (Key × Member)) (start : FiniteMap Key (Finset Member))
    (key : Key) (member : Member) :
    member ∈ (pairs.foldl (fun index pair => index.addMember pair.1 pair.2) start).members key ↔
      member ∈ start.members key ∨ (key, member) ∈ pairs := by
  induction pairs generalizing start with
  | nil => simp
  | cons first rest ih =>
    rw [foldl_cons, ih, mem_members_addMember, mem_cons, Prod.ext_iff, or_assoc]

@[simp] theorem mem_grouped (pairs : List (Key × Member)) (key : Key) (member : Member) :
    member ∈ (grouped pairs).members key ↔ (key, member) ∈ pairs := by
  simp [grouped, mem_foldl_addMember]

def extendMembers (index : FiniteMap Key (Finset Member)) (key : Key) (more : Finset Member) :
    FiniteMap Key (Finset Member) :=
  index.insert key (index.members key ∪ more)

theorem NoEmpty.extendMembers (full : NoEmpty index) (key : Key) {more : Finset Member}
    (nonempty : more.Nonempty) : NoEmpty (index.extendMembers key more) :=
  full.insert key (nonempty.mono Finset.subset_union_right)

omit [DecidableEq Member] in
theorem members_foldl (change : Key → Finset Member → Finset Member) {keys : List Key}
    (distinct : keys.Nodup)
    {step : FiniteMap Key (Finset Member) → Key → FiniteMap Key (Finset Member)}
    (each : ∀ index key query, (step index key).members query =
      if query = key then change key (index.members key) else index.members query)
    (start : FiniteMap Key (Finset Member)) (key : Key) : (keys.foldl step start).members key =
      if key ∈ keys then change key (start.members key) else start.members key := by
  induction keys generalizing start with
  | nil => simp
  | cons first rest ih =>
    rw [nodup_cons] at distinct
    rw [foldl_cons, ih distinct.2, each]
    by_cases same : key = first
    · subst key
      simp [distinct.1]
    · simp [same]

omit [DecidableEq Member] in
theorem members_of_notMem_keys {key : Key} (absent : key ∉ index.keys) : index.members key = ∅ := by
  cases found : index.lookup key with
  | none => simp [members, found]
  | some filed => exact absurd (mem_keys_iff.mpr ⟨filed, found⟩) absent

end

section

variable {Key Member : Type} [LinearOrder Key] [DecidableEq Member]

def removeAll (removed index : FiniteMap Key (Finset Member)) : FiniteMap Key (Finset Member) :=
  (ascending removed.keys).foldl (fun index key => index.removeMembers key (removed.members key))
    index

def extendAll (added index : FiniteMap Key (Finset Member)) : FiniteMap Key (Finset Member) :=
  (ascending added.keys).foldl (fun index key => index.extendMembers key (added.members key)) index

theorem members_removeAll (removed index : FiniteMap Key (Finset Member)) (key : Key) :
    (removeAll removed index).members key = index.members key \ removed.members key := by
  rw [removeAll, members_foldl (fun key filed => filed \ removed.members key) (nodup_ascending _)
    fun index key query => members_removeMembers index key query _]
  by_cases listed : key ∈ removed.keys
  · simp [listed]
  · simp [listed, members_of_notMem_keys listed]

theorem members_extendAll (added index : FiniteMap Key (Finset Member)) (key : Key) :
    (extendAll added index).members key = index.members key ∪ added.members key := by
  unfold extendAll extendMembers
  rw [members_foldl (fun key filed => filed ∪ added.members key) (nodup_ascending _)
    fun index key query => members_insert index key query _]
  by_cases listed : key ∈ added.keys
  · simp [listed]
  · simp [listed, members_of_notMem_keys listed]

theorem NoEmpty.removeAll {index : FiniteMap Key (Finset Member)} (full : NoEmpty index)
    (removed : FiniteMap Key (Finset Member)) : NoEmpty (removeAll removed index) := by
  unfold FiniteMap.removeAll
  induction ascending removed.keys generalizing index with
  | nil => exact full
  | cons key rest ih => exact ih (full.removeMembers key _)

theorem NoEmpty.extendAll {added index : FiniteMap Key (Finset Member)} (full : NoEmpty index)
    (addedFull : NoEmpty added) : NoEmpty (extendAll added index) := by
  unfold FiniteMap.extendAll
  have each : ∀ key ∈ ascending added.keys, (added.members key).Nonempty := by
    intro key member
    obtain ⟨filed, found⟩ := mem_keys_iff.mp (mem_ascending.mp member)
    simpa [members, found] using addedFull key filed found
  generalize ascending added.keys = keys at each
  induction keys generalizing index with
  | nil => exact full
  | cons key rest ih =>
    exact ih (full.extendMembers key (each key (by simp)))
      (fun other member => each other (by simp [member]))

theorem noEmpty_grouped (pairs : List (Key × Member)) : NoEmpty (grouped pairs) := by
  have step (start : FiniteMap Key (Finset Member)) (full : NoEmpty start) :
      NoEmpty (pairs.foldl (fun index pair => index.addMember pair.1 pair.2) start) := by
    induction pairs generalizing start with
    | nil => exact full
    | cons pair rest ih => exact ih _ (full.addMember pair.1 pair.2)
  exact step ∅ noEmpty_empty

end

end FiniteMap
