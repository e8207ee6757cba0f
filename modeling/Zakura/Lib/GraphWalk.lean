import Mathlib.Data.Finset.Card
import Mathlib.Data.List.TakeWhile

/-!
Walks over a graph that is given by the successors of each item: one that stops after a
number of items, and one that marks an item when it is pushed.
-/

namespace GraphWalk

open Relation List

variable {α : Type} [DecidableEq α] {next : α → List α} {seen group bound domain : Finset α}
  {pending starts : List α} {item root start : α}

def Edge (next : α → List α) (source target : α) : Prop := target ∈ next source

section

def boundedWalk (next : α → List α) : Nat → Finset α → List α → Finset α
  | 0, seen, _ => seen
  | room + 1, seen, pending =>
    match pending.dropWhile (· ∈ seen) with
    | [] => seen
    | item :: rest => boundedWalk next room (insert item seen) (next item ++ rest)

variable {room : Nat}

structure Walked (next : α → List α) (room : Nat) (seen : Finset α) (pending : List α)
    (result : Finset α) : Prop where
  grows : seen ⊆ result
  sound : ∀ item ∈ result, item ∈ seen ∨ ∃ start ∈ pending, ReflTransGen (Edge next) start item
  ends : result.card = seen.card + room ∨ (∀ item ∈ pending, item ∈ result) ∧
    ∀ item ∈ result, item ∉ seen → ∀ other ∈ next item, other ∈ result

theorem boundedWalk_spec (next : α → List α) (room : Nat) (seen : Finset α) (pending : List α) :
    Walked next room seen pending (boundedWalk next room seen pending) := by
  induction room generalizing seen pending with
  | zero => exact ⟨Finset.Subset.refl _, fun _ => .inl, .inl rfl⟩
  | succ room ih =>
    have split : pending.takeWhile (· ∈ seen) ++ pending.dropWhile (· ∈ seen) = pending :=
      takeWhile_append_dropWhile
    have old : ∀ item ∈ pending.takeWhile (· ∈ seen), item ∈ seen := by
      intro item listed
      simpa using mem_takeWhile_imp listed
    have isNew := head?_dropWhile_not (· ∈ seen) pending
    unfold boundedWalk
    generalize pending.dropWhile (· ∈ seen) = dropped at split isNew ⊢
    cases dropped with
    | nil =>
      rw [append_nil] at split
      exact ⟨Finset.Subset.refl _, fun _ => .inl, .inr ⟨split ▸ old, fun item known unknown =>
        absurd known unknown⟩⟩
    | cons first rest =>
      have fresh : first ∉ seen := of_decide_eq_false isNew
      obtain ⟨grows, sound, ends⟩ := ih (insert first seen) (next first ++ rest)
      have isFirst : first ∈ pending := split ▸ mem_append_right _ (mem_cons_self ..)
      refine ⟨(Finset.subset_insert _ _).trans grows, fun item collected => ?_, ?_⟩
      · rcases sound item collected with known | ⟨start, listed, reached⟩
        · rcases Finset.mem_insert.mp known with rfl | older
          · exact .inr ⟨_, isFirst, .refl⟩
          · exact .inl older
        · rcases mem_append.mp listed with successor | later
          · exact .inr ⟨first, isFirst, .head successor reached⟩
          · exact .inr ⟨start, split ▸ mem_append_right _ (mem_cons_of_mem _ later), reached⟩
      rcases ends with full | ⟨all, closed⟩
      · rw [Finset.card_insert_of_notMem fresh] at full
        exact .inl (full.trans (by omega))
      refine .inr ⟨fun item listed => ?_, fun item known unknown other successor => ?_⟩
      · rw [← split, mem_append, mem_cons] at listed
        rcases listed with known | rfl | later
        · exact grows (Finset.mem_insert_of_mem (old item known))
        · exact grows (Finset.mem_insert_self _ _)
        · exact all item (mem_append_right _ later)
      by_cases same : item = first
      · subst same
        exact all other (mem_append_left _ successor)
      · refine closed item known (fun older => ?_) other successor
        exact (Finset.mem_insert.mp older).elim same unknown

structure Group (next : α → List α) (starts : List α) (group : Finset α) : Prop where
  started : ∀ start ∈ starts, start ∈ group
  closed : ∀ item ∈ group, ∀ other ∈ next item, other ∈ group
  reached : ∀ item ∈ group, ∃ start ∈ starts, ReflTransGen (Edge next) start item

omit [DecidableEq α] in
theorem mem_of_reached (closed : ∀ item ∈ group, ∀ other ∈ next item, other ∈ group)
    (inside : start ∈ group) (reached : ReflTransGen (Edge next) start item) : item ∈ group := by
  induction reached with
  | refl => exact inside
  | tail _ edge ih => exact closed _ ih _ edge

theorem group_of_card_lt (small : (boundedWalk next room ∅ starts).card < room) :
    Group next starts (boundedWalk next room ∅ starts) := by
  obtain ⟨_, sound, _ | ⟨all, closed⟩⟩ := boundedWalk_spec next room ∅ starts
  · omega
  · refine ⟨all, fun item inside => closed item inside (Finset.notMem_empty _), ?_⟩
    exact fun item inside => (sound item inside).resolve_left (Finset.notMem_empty _)

theorem group_of_closed (started : ∀ start ∈ starts, start ∈ bound)
    (closed : ∀ item ∈ bound, ∀ other ∈ next item, other ∈ bound) (within : bound.card ≤ room) :
    Group next starts (boundedWalk next room ∅ starts) := by
  obtain ⟨_, sound, ends⟩ := boundedWalk_spec next room ∅ starts
  have reached := fun item inside => (sound item inside).resolve_left (Finset.notMem_empty _)
  have inside : boundedWalk next room ∅ starts ⊆ bound := by
    intro item collected
    obtain ⟨start, listed, path⟩ := reached item collected
    exact mem_of_reached closed (started start listed) path
  rcases ends with _ | ⟨all, stays⟩
  · have same : boundedWalk next room ∅ starts = bound := by
      refine Finset.eq_of_subset_of_card_le inside ?_
      omega
    rw [same] at reached ⊢
    exact ⟨started, closed, reached⟩
  · exact ⟨all, fun item collected => stays item collected (Finset.notMem_empty _), reached⟩

end

section

def mark (allowed : α → Bool) : List α → Finset α → List α → Finset α × List α
  | [], seen, pending => (seen, pending)
  | item :: rest, seen, pending =>
    if allowed item = true ∧ item ∉ seen then mark allowed rest (insert item seen) (item :: pending)
    else mark allowed rest seen pending

def spread (next : α → List α) (allowed : α → Bool) : Nat → Finset α → List α → Option (Finset α)
  | _, seen, [] => some seen
  | 0, _, _ :: _ => none
  | fuel + 1, seen, item :: pending =>
    let marked := mark allowed (next item) seen pending
    spread next allowed fuel marked.1 marked.2

variable {allowed : α → Bool}

structure Marked (allowed : α → Bool) (items : List α) (seen : Finset α) (pending : List α)
    (result : Finset α × List α) : Prop where
  marks : ∀ item, item ∈ result.1 ↔ item ∈ seen ∨ (item ∈ items ∧ allowed item = true)
  pushes : ∀ item ∈ result.2, item ∈ pending ∨ (item ∈ items ∧ allowed item = true)
  keeps : ∀ item ∈ pending, item ∈ result.2
  pushed : ∀ item ∈ result.1, item ∈ seen ∨ item ∈ result.2
  balance : result.2.length + seen.card = pending.length + result.1.card

theorem mark_spec (allowed : α → Bool) (items : List α) (seen : Finset α) (pending : List α) :
    Marked allowed items seen pending (mark allowed items seen pending) := by
  induction items generalizing seen pending with
  | nil =>
    exact ⟨by simp [mark], fun _ => .inl, fun _ => id, fun _ => .inl, rfl⟩
  | cons first items ih =>
    unfold mark
    split
    next isNew =>
      obtain ⟨isAllowed, fresh⟩ := isNew
      have spec := ih (insert first seen) (first :: pending)
      have grows := spec.balance
      rw [Finset.card_insert_of_notMem fresh, length_cons] at grows
      refine ⟨fun item => ?_, fun item listed => ?_, fun item listed => ?_, fun item marked => ?_,
        by omega⟩
      · rw [spec.marks, Finset.mem_insert, mem_cons]
        constructor
        · rintro ((rfl | old) | ⟨later, permitted⟩)
          · exact .inr ⟨.inl rfl, isAllowed⟩
          · exact .inl old
          · exact .inr ⟨.inr later, permitted⟩
        rintro (old | ⟨rfl | later, permitted⟩)
        · exact .inl (.inr old)
        · exact .inl (.inl rfl)
        · exact .inr ⟨later, permitted⟩
      · rcases spec.pushes item listed with before | ⟨later, permitted⟩
        · rcases mem_cons.mp before with rfl | old
          · exact .inr ⟨mem_cons_self .., isAllowed⟩
          · exact .inl old
        · exact .inr ⟨mem_cons_of_mem _ later, permitted⟩
      · exact spec.keeps item (mem_cons_of_mem _ listed)
      · rcases spec.pushed item marked with before | pushed
        · rcases Finset.mem_insert.mp before with rfl | old
          · exact .inr (spec.keeps _ (mem_cons_self ..))
          · exact .inl old
        · exact .inr pushed
    next skipped =>
      have spec := ih seen pending
      refine ⟨fun item => ?_, fun item listed => ?_, spec.keeps, spec.pushed, spec.balance⟩
      · rw [spec.marks, mem_cons]
        constructor
        · exact Or.imp_right fun found => ⟨.inr found.1, found.2⟩
        rintro (old | ⟨rfl | later, permitted⟩)
        · exact .inl old
        · exact .inl (by_contra fun fresh => skipped ⟨permitted, fresh⟩)
        · exact .inr ⟨later, permitted⟩
      · exact (spec.pushes item listed).imp_right fun found =>
          ⟨mem_cons_of_mem _ found.1, found.2⟩

def AllowedEdge (next : α → List α) (allowed : α → Bool) (source target : α) : Prop :=
  target ∈ next source ∧ allowed target = true

theorem mem_of_explored
    (explored : ∀ item ∈ insert root seen, ∀ other, AllowedEdge next allowed item other → other ∈
      seen) (path : TransGen (AllowedEdge next allowed) root item) : item ∈ seen := by
  induction path with
  | single edge => exact explored root (Finset.mem_insert_self _ _) _ edge
  | tail _ edge ih => exact explored _ (Finset.mem_insert_of_mem ih) _ edge

theorem spread_spec {fuel : Nat} (inside : ∀ item, allowed item = true → item ∈ domain)
    (known : seen ⊆ domain) (enough : pending.length + (domain \ seen).card ≤ fuel)
    (explored : ∀ item ∈ insert root seen, item ∈ pending ∨ ∀ other, AllowedEdge next allowed item
      other → other ∈ seen) (marked : ∀ item ∈ seen, TransGen (AllowedEdge next allowed) root item)
    (listed : ∀ item ∈ pending, ReflTransGen (AllowedEdge next allowed) root item) :
    ∃ result, spread next allowed fuel seen pending = some result ∧
      ∀ item, item ∈ result ↔ TransGen (AllowedEdge next allowed) root item := by
  induction fuel generalizing seen pending with
  | zero =>
    obtain rfl : pending = [] := length_eq_zero_iff.mp (by omega)
    refine ⟨seen, rfl, fun item => ⟨marked item, mem_of_explored fun other isKnown => ?_⟩⟩
    exact (explored other isKnown).resolve_left not_mem_nil
  | succ fuel ih =>
    cases pending with
    | nil =>
      refine ⟨seen, rfl, fun item => ⟨marked item, mem_of_explored fun other isKnown => ?_⟩⟩
      exact (explored other isKnown).resolve_left not_mem_nil
    | cons first pending =>
      have spec := mark_spec allowed (next first) seen pending
      have grows : seen ⊆ (mark allowed (next first) seen pending).1 := fun item isKnown =>
        (spec.marks item).mpr (.inl isKnown)
      have stays : (mark allowed (next first) seen pending).1 ⊆ domain := fun item isMarked =>
        ((spec.marks item).mp isMarked).elim (fun isKnown => known isKnown)
          fun found => inside item found.2
      have isFirst := listed first (mem_cons_self ..)
      refine ih stays ?_ (fun item isKnown => ?_) (fun item isMarked => ?_)
        fun item isListed => ?_
      · have balance := spec.balance
        have before := Finset.card_sdiff_add_card_eq_card known
        have after := Finset.card_sdiff_add_card_eq_card stays
        rw [length_cons] at enough
        omega
      · by_cases isHead : item = first
        · subst isHead
          exact .inr fun other edge => (spec.marks other).mpr (.inr edge)
        have before : item ∈ insert root seen ∨
            item ∈ (mark allowed (next first) seen pending).2 := by
          rcases Finset.mem_insert.mp isKnown with isRoot | isMarked
          · exact .inl (Finset.mem_insert.mpr (.inl isRoot))
          · exact (spec.pushed item isMarked).imp_left Finset.mem_insert_of_mem
        rcases before with old | pushed
        · refine (explored item old).imp (fun isListed => ?_)
            fun closed other edge => grows (closed other edge)
          exact spec.keeps item ((mem_cons.mp isListed).resolve_left isHead)
        · exact .inl pushed
      · rcases (spec.marks item).mp isMarked with old | ⟨successor, permitted⟩
        · exact marked item old
        · exact .tail' isFirst ⟨successor, permitted⟩
      · rcases spec.pushes item isListed with old | ⟨successor, permitted⟩
        · exact listed item (mem_cons_of_mem _ old)
        · exact .tail isFirst ⟨successor, permitted⟩

theorem spread_singleton (next : α → List α) (allowed : α → Bool) (domain : Finset α) (root : α)
    (inside : ∀ item, allowed item = true → item ∈ domain) :
    ∃ result, spread next allowed (1 + domain.card) ∅ [root] = some result ∧
      ∀ item, item ∈ result ↔ TransGen (AllowedEdge next allowed) root item := by
  refine spread_spec inside (Finset.empty_subset _) (by simp) (fun item isKnown => .inl ?_)
    (fun item isKnown => absurd isKnown (Finset.notMem_empty _)) fun item isListed => ?_
  · simpa using isKnown
  · rw [mem_singleton.mp isListed]

end

end GraphWalk
