import Mathlib.Algebra.Order.BigOperators.Group.Finset

/-!
A depth-first worklist that records every item it pops for the first time and
pushes the successors of that item.
-/

namespace Worklist

open List

variable {α : Type} [DecidableEq α]

/-- Pop from the head; a first visit pushes the successors so that the last one is popped next. -/
def collect (successors : α → List α) : Nat → Finset α → List α → Finset α
  | _, seen, [] => seen
  | 0, seen, _ :: _ => seen
  | fuel + 1, seen, item :: pending =>
    if item ∈ seen then collect successors fuel seen pending
    else collect successors fuel (insert item seen) ((successors item).reverse ++ pending)

inductive Reaches (successors : α → List α) : α → α → Prop
  | refl (item) : Reaches successors item item
  | step {first next last} : next ∈ successors first → Reaches successors next last →
      Reaches successors first last

def weight (successors : α → List α) (domain seen : Finset α) : Nat :=
  ∑ item ∈ domain \ seen, (successors item).length

theorem weight_insert (successors : α → List α) (domain seen : Finset α) (item : α)
    (inside : successors item ≠ [] → item ∈ domain) (fresh : item ∉ seen) :
    weight successors domain (insert item seen) + (successors item).length =
      weight successors domain seen := by
  unfold weight
  by_cases covered : item ∈ domain
  · have split : domain \ seen = insert item (domain \ insert item seen) := by
      ext other
      by_cases same : other = item
      · subst other
        simp [covered, fresh]
      · simp [same]
    rw [split, Finset.sum_insert (by simp)]
    omega
  have leaf : successors item = [] := by
    by_contra busy
    exact covered (inside busy)
  have unchanged : domain \ insert item seen = domain \ seen := by
    ext other
    by_cases same : other = item
    · subst other
      simp [covered]
    · simp [same]
  simp [unchanged, leaf]

def collectAll (successors : α → List α) (fuel : Nat) (seen : Finset α) (starts : List α) :
    Finset α :=
  starts.foldl (fun known start => collect successors fuel known [start]) seen

structure CollectedAll (successors : α → List α) (seen result : Finset α) (starts : List α) :
    Prop where
  grows : seen ⊆ result
  started : ∀ start ∈ starts, start ∈ result
  sound : ∀ item ∈ result, item ∈ seen ∨ ∃ start ∈ starts, Reaches successors start item
  closed : ∀ item ∈ result, item ∉ seen → ∀ next ∈ successors item, next ∈ result

section

variable {successors : α → List α} {seen middle result : Finset α} {starts others : List α} {item : α}
omit [DecidableEq α]

theorem CollectedAll.nil (successors : α → List α) (seen : Finset α) :
    CollectedAll successors seen seen [] :=
  ⟨Finset.Subset.refl _, nofun, fun _ => .inl, fun _ member fresh => absurd member fresh⟩

theorem CollectedAll.append (early : CollectedAll successors seen middle starts)
    (late : CollectedAll successors middle result others) :
    CollectedAll successors seen result (starts ++ others) := by
  refine ⟨early.grows.trans late.grows, fun start member => ?_, fun item member => ?_,
    fun item member fresh next successor => ?_⟩
  · rcases mem_append.mp member with first | later
    · exact late.grows (early.started start first)
    · exact late.started start later
  · rcases late.sound item member with known | ⟨start, later, reached⟩
    · refine (early.sound item known).imp_right ?_
      exact fun ⟨start, first, reached⟩ => ⟨start, mem_append_left _ first, reached⟩
    · exact .inr ⟨start, mem_append_right _ later, reached⟩
  · by_cases known : item ∈ middle
    · exact late.grows (early.closed item known fresh next successor)
    · exact late.closed item member known next successor

theorem CollectedAll.mem_iff (collected : CollectedAll successors ∅ result starts) :
    item ∈ result ↔ ∃ start ∈ starts, Reaches successors start item := by
  refine ⟨fun member => (collected.sound item member).resolve_left (Finset.notMem_empty _), ?_⟩
  rintro ⟨start, member, reached⟩
  have inside := collected.started start member
  clear member
  induction reached with
  | refl _ => exact inside
  | step successor _ ih => exact ih (collected.closed _ inside (Finset.notMem_empty _) _ successor)

end

section

variable (successors : α → List α) (domain : Finset α)
  (covered : ∀ item, successors item ≠ [] → item ∈ domain)
include successors domain covered

theorem collect_spec (fuel : Nat) (seen : Finset α) (pending : List α)
    (enough : pending.length + weight successors domain seen ≤ fuel) :
    CollectedAll successors seen (collect successors fuel seen pending) pending := by
  induction fuel generalizing seen pending with
  | zero =>
    obtain rfl : pending = [] := length_eq_zero_iff.mp (by omega)
    exact .nil successors seen
  | succ fuel ih =>
    cases pending with
    | nil => exact .nil successors seen
    | cons first pending =>
      rw [length_cons] at enough
      simp only [collect]
      split
      next known =>
        obtain ⟨grows, started, sound, closed⟩ := ih seen pending (by omega)
        refine ⟨grows, forall_mem_cons.mpr ⟨grows known, started⟩, fun item member => ?_, closed⟩
        refine (sound item member).imp_right ?_
        exact fun ⟨start, listed, reached⟩ => ⟨start, mem_cons_of_mem _ listed, reached⟩
      next fresh =>
        have shrink := weight_insert successors domain seen first (covered first) fresh
        obtain ⟨grows, started, sound, closed⟩ := ih (insert first seen)
          ((successors first).reverse ++ pending) (by simp; omega)
        refine ⟨(Finset.subset_insert first seen).trans grows, forall_mem_cons.mpr
          ⟨grows (Finset.mem_insert_self first seen), fun item later =>
            started item (mem_append_right _ later)⟩, fun item member => ?_,
          fun item member unseen next successor => ?_⟩
        · rcases sound item member with old | ⟨start, listed, reached⟩
          · rcases Finset.mem_insert.mp old with rfl | older
            · exact .inr ⟨item, mem_cons_self .., .refl item⟩
            · exact .inl older
          · rcases mem_append.mp listed with pushed | later
            · exact .inr ⟨first, mem_cons_self .., .step (mem_reverse.mp pushed) reached⟩
            · exact .inr ⟨start, mem_cons_of_mem _ later, reached⟩
        · by_cases same : item = first
          · subst same
            exact started next (mem_append_left _ (mem_reverse.mpr successor))
          · exact closed item member (by simp [same, unseen]) next successor

theorem mem_collect_singleton (start item : α) :
    item ∈ collect successors (1 + ∑ other ∈ domain, (successors other).length) ∅ [start] ↔
      Reaches successors start item := by
  have collected := collect_spec successors domain covered
    (1 + ∑ other ∈ domain, (successors other).length) ∅ [start] (by simp [weight])
  rw [collected.mem_iff]
  simp

theorem collectAll_spec (seen : Finset α) (starts : List α) :
    CollectedAll successors seen
      (collectAll successors (1 + ∑ other ∈ domain, (successors other).length) seen starts)
      starts := by
  induction starts generalizing seen with
  | nil => exact .nil successors seen
  | cons start rest ih =>
    have smaller : weight successors domain seen ≤ ∑ other ∈ domain, (successors other).length :=
      Finset.sum_le_sum_of_subset Finset.sdiff_subset
    exact (collect_spec successors domain covered _ seen [start] (by simpa using smaller)).append
      (ih _)

end

end Worklist
