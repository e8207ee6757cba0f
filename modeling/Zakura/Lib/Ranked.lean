import Mathlib.Data.List.Sort

/-!
Sets of items kept as lists in strictly increasing rank, so that no two items of a
set have the same rank.
-/

namespace RankedSet

open List

variable {Item Rank : Type} [LinearOrder Rank] {rank : Item → Rank} {item other last : Item}
  {items fewer : List Item}

def insert (rank : Item → Rank) (item : Item) (items : List Item) : List Item :=
  if items.any fun other => rank other = rank item then items
  else items.orderedInsert (fun first second => rank first ≤ rank second) item

def Ranked (rank : Item → Rank) (items : List Item) : Prop :=
  items.Pairwise fun first second => rank first < rank second

theorem mem_insert : other ∈ insert rank item items ↔
    other ∈ items ∨ other = item ∧ ∀ old ∈ items, rank old ≠ rank item := by
  unfold insert
  split
  next present =>
    obtain ⟨old, member, same⟩ := any_eq_true.mp present
    rw [decide_eq_true_eq] at same
    constructor
    · exact .inl
    · rintro (listed | ⟨_, fresh⟩)
      · exact listed
      · exact absurd same (fresh old member)
  next absent =>
    rw [mem_orderedInsert, or_comm]
    simp only [any_eq_true, decide_eq_true_eq, not_exists, not_and] at absent
    simp only [ne_eq, and_iff_left absent]

theorem exists_rank_insert (rank : Item → Rank) (item : Item) (items : List Item) :
    ∃ found ∈ insert rank item items, rank found = rank item := by
  by_cases present : ∃ old ∈ items, rank old = rank item
  · obtain ⟨old, member, same⟩ := present
    exact ⟨old, mem_insert.mpr (.inl member), same⟩
  · simp only [not_exists, not_and] at present
    exact ⟨item, mem_insert.mpr (.inr ⟨rfl, present⟩), rfl⟩

theorem length_insert_le : (insert rank item items).length ≤ items.length + 1 := by
  unfold insert
  split
  · omega
  · rw [orderedInsert_length]

section

variable (ranked : Ranked rank items)
include ranked

theorem Ranked.nodup : (items.map rank).Nodup := pairwise_map.mpr (ranked.imp ne_of_lt)

theorem Ranked.insert (item : Item) : Ranked rank (RankedSet.insert rank item items) := by
  unfold RankedSet.insert
  split
  · exact ranked
  rename_i absent
  simp only [any_eq_true, decide_eq_true_eq] at absent
  have perm := perm_orderedInsert (fun first second => rank first ≤ rank second) item items
  have sorted := (ranked.imp le_of_lt).orderedInsert item
  have distinct := (perm.map rank).nodup_iff.mpr (nodup_cons.mpr ⟨mt mem_map.mp absent, ranked.nodup⟩)
  exact (sorted.and (pairwise_map.mp distinct)).imp fun ⟨below, different⟩ =>
    lt_of_le_of_ne below different

theorem Ranked.sublist (sub : fewer.Sublist items) : Ranked rank fewer :=
  List.Pairwise.sublist sub ranked

theorem Ranked.eq_of_rank (member : item ∈ items) (otherMember : other ∈ items)
    (same : rank item = rank other) : item = other :=
  inj_on_of_nodup_map ranked.nodup member otherMember same

theorem Ranked.le_last (isLast : items.getLast? = some last) (member : item ∈ items) :
    rank item ≤ rank last := by
  obtain ⟨_, rfl⟩ := getLast?_eq_some_iff.mp isLast
  unfold Ranked at ranked
  rw [pairwise_append] at ranked
  rcases mem_append.mp member with earlier | same
  · exact le_of_lt (ranked.2.2 item earlier last (by simp))
  · rw [mem_singleton.mp same]

theorem Ranked.countP_le_one {holds : Item → Bool}
    (decides : ∀ first ∈ items, ∀ second ∈ items, holds first = true → holds second = true →
      rank first = rank second) : items.countP holds ≤ 1 := by
  induction items with
  | nil => simp
  | cons first rest ih =>
    obtain ⟨below, restRanked⟩ := pairwise_cons.mp ranked
    by_cases isHolding : holds first = true
    · have none : rest.countP holds = 0 := by
        rw [countP_eq_zero]
        intro later member laterHolds
        exact (below later member).ne (decides first mem_cons_self later
          (mem_cons_of_mem _ member) isHolding laterHolds)
      rw [countP_cons_of_pos isHolding, none]
    · rw [countP_cons_of_neg isHolding]
      exact ih restRanked fun first member second otherMember =>
        decides first (mem_cons_of_mem _ member) second (mem_cons_of_mem _ otherMember)

end

end RankedSet
