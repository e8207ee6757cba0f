import Mathlib.Algebra.Order.BigOperators.Group.Finset
import Zakura.Lib.FiniteMap

/-!
Sums over the values of a finite map, and how keyed updates change them.
-/

namespace FiniteMap

open Finset

variable {Key Value Other : Type} [DecidableEq Key] {weight other : Value → Nat}
  {map : FiniteMap Key Value} {key : Key} {value old : Value}

def total (weight : Value → Nat) (map : FiniteMap Key Value) : Nat :=
  ∑ key ∈ map.keys, ((map.lookup key).map weight).getD 0

theorem total_erase (found : map.lookup key = some value) :
    total weight (map.erase key) + weight value = total weight map := by
  have present : key ∈ map.keys := mem_keys_iff.mpr ⟨value, found⟩
  have keys : (map.erase key).keys = map.keys.erase key := by
    ext query
    simp [Finmap.mem_keys]
  unfold total
  rw [keys, ← sum_erase_add _ _ present, found]
  congr 1
  refine sum_congr rfl fun query member => ?_
  rw [lookup_erase_ite, if_neg (ne_of_mem_erase member)]

theorem total_insert_of_absent (absent : map.lookup key = none) :
    total weight (map.insert key value) = total weight map + weight value := by
  have missing : key ∉ map.keys := by
    rw [mem_keys_iff, absent]
    simp
  unfold total
  rw [keys_insert, sum_insert missing, lookup_insert_ite, if_pos rfl, Nat.add_comm]
  congr 1
  refine sum_congr rfl fun query member => ?_
  have differs : query ≠ key := fun same => missing (same ▸ member)
  rw [lookup_insert_ite, if_neg differs]

theorem total_insert_of_present (found : map.lookup key = some old) :
    total weight (map.insert key value) + weight old = total weight map + weight value := by
  have absent : (map.erase key).lookup key = none := by rw [lookup_erase_ite, if_pos rfl]
  rw [← insert_erase_self, total_insert_of_absent absent, ← total_erase found]
  omega

theorem total_congr (same : ∀ key value, map.lookup key = some value → weight value = other value) :
    total weight map = total other map := by
  refine sum_congr rfl fun key member => ?_
  obtain ⟨value, found⟩ := mem_keys_iff.mp member
  simp [found, same key value found]

theorem total_le (below : ∀ key value, map.lookup key = some value → weight value ≤ other value) :
    total weight map ≤ total other map := by
  refine sum_le_sum fun key member => ?_
  obtain ⟨value, found⟩ := mem_keys_iff.mp member
  simp [found, below key value found]

theorem total_le_total {heavier : Other → Nat} {second : FiniteMap Key Other}
    (below : ∀ key value, map.lookup key = some value → ∃ found, second.lookup key = some found ∧
      weight value ≤ heavier found) : total weight map ≤ total heavier second := by
  have within : map.keys ⊆ second.keys := by
    intro key member
    obtain ⟨value, found⟩ := mem_keys_iff.mp member
    obtain ⟨bound, isBound, _⟩ := below key value found
    exact mem_keys_iff.mpr ⟨bound, isBound⟩
  refine le_trans (sum_le_sum fun key member => ?_)
    (sum_le_sum_of_subset (f := fun key => ((second.lookup key).map heavier).getD 0) within)
  obtain ⟨value, found⟩ := mem_keys_iff.mp member
  obtain ⟨bound, isBound, le⟩ := below key value found
  simpa [found, isBound] using le

theorem weight_le_total (found : map.lookup key = some value) : weight value ≤ total weight map := by
  rw [← total_erase found]
  omega

theorem total_eq_zero (zero : ∀ key value, map.lookup key = some value → weight value = 0) :
    total weight map = 0 := by
  have same : total weight map = total (fun _ => 0) map := total_congr zero
  rw [same]
  refine sum_eq_zero fun key _ => ?_
  cases map.lookup key <;> rfl

end FiniteMap
