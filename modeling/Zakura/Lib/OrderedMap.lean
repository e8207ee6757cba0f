import Zakura.Lib.FiniteMap

/-!
Finite maps used as indexes: entries that are added once and removed once, and
maps with ordered keys that are read at their first key, at their last key, or at
the nearest key at or below a bound.
-/

namespace FiniteMap

open List Option

variable {Key Value : Type} {map : FiniteMap Key Value} {key : Key}

section

variable [DecidableEq Key]

def Entered (entry : Option (Key × Value)) (before after : FiniteMap Key Value) : Prop :=
  match entry with
  | none => after = before
  | some (key, value) => before.lookup key = none ∧ after = before.insert key value

def Removed (key : Option Key) (before after : FiniteMap Key Value) : Prop :=
  match key with
  | none => after = before
  | some key => (before.lookup key).isSome ∧ after = before.erase key

variable {before after middle : FiniteMap Key Value} {value : Value} {entry : Option (Key × Value)}

theorem Entered.removed (entered : Entered entry before after) :
    Removed (entry.map Prod.fst) after before := by
  cases entry with
  | none => exact entered.symm
  | some pair =>
    obtain ⟨absent, rfl⟩ := entered
    exact ⟨by simp [Finmap.lookup_insert], (erase_insert absent _).symm⟩

theorem Entered.swap {first second : Option (Key × Value)} {start finish : FiniteMap Key Value}
    (early : Entered first start middle) (late : Entered second middle finish) :
    ∃ other, Entered second start other ∧ Entered first other finish := by
  rcases first with _ | ⟨_, _⟩
  · obtain rfl : middle = start := early
    exact ⟨finish, late, rfl⟩
  rcases second with _ | ⟨_, _⟩
  · obtain rfl : finish = middle := late
    exact ⟨start, rfl, early⟩
  obtain ⟨_, rfl⟩ := early
  obtain ⟨secondAbsent, rfl⟩ := late
  rw [lookup_insert_ite] at secondAbsent
  split at secondAbsent
  · simp at secondAbsent
  next different =>
    refine ⟨_, ⟨secondAbsent, rfl⟩, ?_, Finmap.insert_insert_of_ne start (Ne.symm different)⟩
    rwa [lookup_insert_ite, if_neg (Ne.symm different)]

structure EnteredAll (entries : List (Key × Value)) (before after : FiniteMap Key Value) :
    Prop where
  lookup : ∀ key value, after.lookup key = some value ↔
    before.lookup key = some value ∨ (key, value) ∈ entries
  distinct : (entries.map Prod.fst).Nodup
  fresh : ∀ entry ∈ entries, before.lookup entry.1 = none

theorem EnteredAll.nil (map : FiniteMap Key Value) : EnteredAll [] map map :=
  ⟨by simp, by simp, by simp⟩

theorem EnteredAll.cons {entries : List (Key × Value)} (entered : Entered entry before middle)
    (rest : EnteredAll entries middle after) :
    EnteredAll (entry.toList ++ entries) before after := by
  rcases entry with _ | ⟨key, _⟩
  · obtain rfl : middle = before := entered
    exact rest
  obtain ⟨absent, rfl⟩ := entered
  have untouched {entry : Key × Value} (listed : entry ∈ entries) :
      entry.1 ≠ key ∧ before.lookup entry.1 = none := by
    have fresh := rest.fresh entry listed
    rw [lookup_insert_ite] at fresh
    split at fresh
    · simp at fresh
    · exact ⟨by assumption, fresh⟩
  refine ⟨?_, ?_, ?_⟩
  · intro query found
    rw [rest.lookup, lookup_insert_ite, toList_some, singleton_append, mem_cons,
      Prod.mk.injEq]
    by_cases same : query = key
    · subst query
      simp [absent, eq_comm]
    · simp [same]
  · rw [toList_some, singleton_append, map_cons, nodup_cons]
    refine ⟨?_, rest.distinct⟩
    intro member
    obtain ⟨entry, listed, same⟩ := mem_map.mp member
    exact (untouched listed).1 same
  · intro entry listed
    rcases mem_cons.mp listed with rfl | later
    · exact absent
    · exact (untouched later).2

def bag (map : FiniteMap Key Value) : Multiset Value :=
  map.entries.map fun entry => entry.2

theorem bag_insert (absent : map.lookup key = none) (value : Value) :
    bag (map.insert key value) = value ::ₘ bag map := by
  unfold bag
  rw [Finmap.entries_insert_of_notMem (Finmap.lookup_eq_none.mp absent), Multiset.map_cons]

theorem bag_erase (found : map.lookup key = some value) :
    value ::ₘ bag (map.erase key) = bag map := by
  have absent : (map.erase key).lookup key = none := by rw [lookup_erase_ite, if_pos rfl]
  rw [← bag_insert absent, insert_erase found]

theorem mem_bag : value ∈ bag map ↔ ∃ key, map.lookup key = some value := by
  simp only [bag, Multiset.mem_map, Sigma.exists]
  constructor
  · rintro ⟨key, found, listed, rfl⟩
    exact ⟨key, Finmap.mem_lookup_iff.mpr listed⟩
  · rintro ⟨key, found⟩
    exact ⟨key, value, Finmap.mem_lookup_iff.mp found, rfl⟩

end

section

variable [DecidableEq Key]

def contents (map : FiniteMap Key (List Value)) : Multiset Value :=
  (bag map).bind fun values => (values : Multiset Value)

omit [DecidableEq Key] in
@[simp] theorem contents_empty : contents (∅ : FiniteMap Key (List Value)) = 0 := rfl

variable {map : FiniteMap Key (List Value)} {values : List Value}

theorem contents_insert (absent : map.lookup key = none) (values : List Value) :
    contents (map.insert key values) = values + contents map := by
  rw [contents, bag_insert absent, Multiset.cons_bind, contents]

theorem contents_erase (found : map.lookup key = some values) :
    values + contents (map.erase key) = contents map := by
  rw [contents, contents, ← bag_erase found, Multiset.cons_bind]

theorem contents_replace (found : map.lookup key = some values) (others : List Value) :
    contents (map.insert key others) + values = contents map + others := by
  have absent : (map.erase key).lookup key = none := by rw [lookup_erase_ite, if_pos rfl]
  rw [← insert_erase_self, contents_insert absent, ← contents_erase found, add_right_comm,
    add_comm (others : Multiset Value), add_right_comm]

theorem contents_insert_getD (map : FiniteMap Key (List Value)) (key : Key) (others : List Value) :
    contents (map.insert key others) + ((map.lookup key).getD [] : List Value) =
      contents map + others := by
  cases found : map.lookup key with
  | none =>
    rw [contents_insert found, getD_none, Multiset.coe_nil, add_zero, add_comm]
  | some values => exact contents_replace found others

theorem mem_contents {value : Value} :
    value ∈ contents map ↔ ∃ key values, map.lookup key = some values ∧ value ∈ values := by
  simp only [contents, Multiset.mem_bind, mem_bag, Multiset.mem_coe]
  constructor
  · rintro ⟨values, ⟨key, found⟩, listed⟩
    exact ⟨key, values, found, listed⟩
  · rintro ⟨key, values, found, listed⟩
    exact ⟨values, ⟨key, found⟩, listed⟩

end

section

variable [LinearOrder Key]

def firstKey (map : FiniteMap Key Value) : Option Key :=
  (ascending map.keys).head?

def lastKey (map : FiniteMap Key Value) : Option Key :=
  (ascending map.keys).getLast?

def lastValue (map : FiniteMap Key Value) : Option Value :=
  map.lastKey.bind map.lookup

theorem firstKey_eq_some :
    map.firstKey = some key ↔ key ∈ map.keys ∧ ∀ other ∈ map.keys, key ≤ other := by
  have sorted := pairwise_ascending map.keys
  have listed (other : Key) : other ∈ ascending map.keys ↔ other ∈ map.keys := mem_ascending
  unfold firstKey
  generalize ascending map.keys = keys at sorted listed
  cases keys with
  | nil => simp [← listed]
  | cons first rest =>
    rw [pairwise_cons] at sorted
    simp only [head?_cons, some.injEq, ← listed, mem_cons, forall_eq_or_imp]
    constructor
    · rintro rfl
      exact ⟨.inl rfl, le_refl _, sorted.1⟩
    · rintro ⟨rfl | later, least, _⟩
      · rfl
      · exact le_antisymm (sorted.1 key later) least

theorem getLast?_eq_some_of_sorted {keys : List Key} (sorted : keys.Pairwise (· ≤ ·)) :
    keys.getLast? = some key ↔ key ∈ keys ∧ ∀ other ∈ keys, other ≤ key := by
  rcases eq_nil_or_concat keys with rfl | ⟨early, last, rfl⟩
  · simp
  rw [concat_eq_append, pairwise_append] at sorted
  simp only [concat_eq_append, getLast?_append, getLast?_singleton, some_or, some.injEq, mem_append,
    mem_singleton]
  have greatest : ∀ other, other ∈ early ∨ other = last → other ≤ last := by
    rintro other (member | rfl)
    · exact sorted.2.2 other member last (mem_singleton_self last)
    · exact le_refl _
  constructor
  · rintro rfl
    exact ⟨.inr rfl, greatest⟩
  · rintro ⟨member, above⟩
    exact le_antisymm (above last (.inr rfl)) (greatest key member)

theorem lastKey_eq_some :
    map.lastKey = some key ↔ key ∈ map.keys ∧ ∀ other ∈ map.keys, other ≤ key := by
  rw [lastKey, getLast?_eq_some_of_sorted (pairwise_ascending map.keys)]
  simp only [mem_ascending]

theorem lastKey_of_greatest (found : (map.lookup key).isSome)
    (greatest : ∀ other, (map.lookup other).isSome → other ≤ key) : map.lastKey = some key := by
  simp only [lastKey_eq_some, mem_keys_iff, ← isSome_iff_exists]
  exact ⟨found, greatest⟩

theorem lastKey_eq_none : map.lastKey = none ↔ map.keys = ∅ := by
  rw [lastKey, getLast?_eq_none_iff, ascending_eq_nil]

theorem le_lastKey (listed : key ∈ map.keys) : ∃ last, map.lastKey = some last ∧ key ≤ last := by
  cases found : map.lastKey with
  | none =>
    rw [lastKey_eq_none.mp found] at listed
    simp at listed
  | some last => exact ⟨last, rfl, (lastKey_eq_some.mp found).2 key listed⟩

theorem lastKey_insert (value : Value) (above : ∀ other ∈ map.keys, other ≤ key) :
    lastKey (map.insert key value) = some key := by
  rw [lastKey_eq_some, keys_insert]
  refine ⟨Finset.mem_insert_self _ _, ?_⟩
  intro other member
  rcases Finset.mem_insert.mp member with same | old
  · exact same.le
  · exact above other old

end

section

variable [LinearOrder Key]

inductive Bound (Key : Type)
  | unbounded
  | excluded (key : Key)
  | included (key : Key)

def Bound.starts : Bound Key → Key → Bool
  | .unbounded, _ => true
  | .excluded bound, key => bound < key
  | .included bound, key => bound ≤ key

def Bound.ends : Bound Key → Key → Bool
  | .unbounded, _ => true
  | .excluded bound, key => key < bound
  | .included bound, key => key ≤ bound

def Bound.inverted : Bound Key → Bound Key → Bool
  | .excluded start, .excluded finish => finish ≤ start
  | .excluded start, .included finish => finish < start
  | .included start, .excluded finish => finish < start
  | .included start, .included finish => finish < start
  | _, _ => false

def keysIn (start finish : Bound Key) (map : FiniteMap Key Value) : List Key :=
  (ascending map.keys).filter fun key => start.starts key && finish.ends key

variable {start finish : Bound Key}

theorem mem_keysIn {key : Key} : key ∈ keysIn start finish map ↔
      key ∈ map.keys ∧ start.starts key = true ∧ finish.ends key = true := by
  simp [keysIn]

theorem pairwise_keysIn (start finish : Bound Key) (map : FiniteMap Key Value) :
    (keysIn start finish map).Pairwise (· < ·) := by
  refine List.Pairwise.filter _ ?_
  exact ((pairwise_ascending map.keys).and (nodup_ascending map.keys)).imp
    fun ⟨before, different⟩ => lt_of_le_of_ne before different

theorem keysIn_eq_of_mem {keys : List Key} (sorted : keys.Pairwise (· < ·))
    (same : ∀ key, key ∈ keysIn start finish map ↔ key ∈ keys) :
    keysIn start finish map = keys := by
  refine List.Perm.eq_of_pairwise (fun _ _ _ _ before after => absurd before (lt_asymm after))
    (pairwise_keysIn start finish map) sorted ?_
  exact (perm_ext_iff_of_nodup ((pairwise_keysIn start finish map).imp ne_of_lt)
    (sorted.imp ne_of_lt)).mpr same

theorem getLast?_keysIn {last : Key} (found : (keysIn start finish map).getLast? = some last) :
    last ∈ keysIn start finish map ∧ ∀ key ∈ keysIn start finish map, key ≤ last :=
  (getLast?_eq_some_of_sorted ((pairwise_keysIn start finish map).imp le_of_lt)).mp found

end

section

def floor (map : FiniteMap Nat Value) : Nat → Option Value
  | 0 => map.lookup 0
  | bound + 1 => (map.lookup (bound + 1)).or (floor map bound)

variable {map other : FiniteMap Nat Value}

variable {bound low : Nat}

theorem floor_of_lookup {value : Value} (found : map.lookup bound = some value) :
    map.floor bound = some value := by
  cases bound <;> simp [floor, found]

theorem floor_congr (below : low ≤ bound) (start : map.floor low = other.floor low)
    (same : ∀ key, low < key → key ≤ bound → map.lookup key = other.lookup key) :
    map.floor bound = other.floor bound := by
  induction bound, below using Nat.le_induction with
  | base => exact start
  | succ bound below ih =>
    rw [floor, floor, same (bound + 1) (by omega) (le_refl _),
      ih fun key above within => same key above (by omega)]

theorem floor_eq_none : map.floor bound = none ↔ ∀ key ≤ bound, map.lookup key = none := by
  induction bound with
  | zero => simp [floor]
  | succ bound ih =>
    rw [floor, or_eq_none_iff, ih]
    constructor
    · rintro ⟨top, lower⟩ key within
      rcases Nat.lt_or_eq_of_le within with _ | rfl
      · exact lower key (by omega)
      · exact top
    · intro absent
      exact ⟨absent _ (le_refl _), fun key within => absent key (by omega)⟩

theorem floor_eq_of_absent (below : low ≤ bound)
    (absent : ∀ key, low < key → key ≤ bound → map.lookup key = none) :
    map.floor bound = map.floor low := by
  induction bound, below using Nat.le_induction with
  | base => rfl
  | succ bound below ih =>
    rw [floor, absent (bound + 1) (by omega) (le_refl _), none_or,
      ih fun key above within => absent key above (by omega)]

theorem lastValue_eq_floor (above : ∀ key ∈ map.keys, key ≤ bound) :
    map.lastValue = map.floor bound := by
  unfold lastValue
  cases found : map.lastKey with
  | none =>
    rw [lastKey_eq_none] at found
    symm
    rw [bind_none, floor_eq_none]
    intro key _
    rw [Finmap.lookup_eq_none, ← Finmap.mem_keys, found]
    simp
  | some last =>
    obtain ⟨member, greatest⟩ := lastKey_eq_some.mp found
    obtain ⟨_, present⟩ := mem_keys_iff.mp member
    rw [bind_some, present, floor_eq_of_absent (above last member), floor_of_lookup present]
    intro key higher _
    rw [Finmap.lookup_eq_none, ← Finmap.mem_keys]
    intro listed
    exact absurd (greatest key listed) (by omega)

end

end FiniteMap
