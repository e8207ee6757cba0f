import Zakura.Lib.Fallible
import Zakura.Mempool.DependencyGraph

/-!
The eviction index: a candidate depends only on a transaction and its descendants, so that
an index over the transactions outside a group survives every change inside the group.
-/

namespace Zakura.Mempool

open FiniteMap Relation GraphWalk Fallible Finset Checked List Except

namespace EvictionCost

theorem combine_right_comm (first second third : EvictionCost) :
    (first.combine second).combine third = (first.combine third).combine second := by
  have saturates : ∀ a b c : Nat, saturatingAdd (saturatingAdd a b) c =
      saturatingAdd (saturatingAdd a c) b := by
    intro a b c
    unfold saturatingAdd
    omega
  unfold combine
  congr 1
  · exact saturates _ _ _
  · exact saturates _ _ _

end EvictionCost

def ascendingIteration : Iteration where
  order := FiniteMap.ascending
  mem_order := fun _ _ => FiniteMap.mem_ascending
  nodup_order := FiniteMap.nodup_ascending

namespace VerifiedSet

variable {iteration other : Iteration} {set next : VerifiedSet} {id : TxId}
  {transactions : TxId → VerifiedUnminedTx}

def LinksStored (set : VerifiedSet) : Prop :=
  ∀ parent child, set.graph.Feeds parent child →
    parent ∈ set.transactions.keys ∧ child ∈ set.transactions.keys

theorem descendants_spec (linked : set.LinksStored) (iteration : Iteration) (id : TxId) :
    ∃ found, set.descendants iteration id ∅ = .ok found ∧
      ∀ descendant, descendant ∈ found ↔ TransGen set.graph.Feeds id descendant := by
  have edges : AllowedEdge (fun id => iteration.order (set.graph.directDependents id))
      (fun dependent => dependent ∉ (∅ : Finset TxId) ∧ dependent ∈ set.transactions.keys) =
        set.graph.Feeds := by
    funext parent child
    unfold AllowedEdge
    rw [iteration.mem_order, decide_eq_true_iff]
    refine propext ⟨And.left, fun feeds => ⟨feeds, notMem_empty _, ?_⟩⟩
    exact (linked parent child feeds).2
  obtain ⟨found, spreads, spec⟩ := spread_singleton
    (fun id => iteration.order (set.graph.directDependents id))
    (fun dependent => dependent ∉ (∅ : Finset TxId) ∧ dependent ∈ set.transactions.keys)
    set.transactions.keys id (by simp)
  rw [edges] at spec
  refine ⟨found, ?_, spec⟩
  unfold descendants
  rw [spreads]

theorem combineCosts_spec (ids : List TxId) (combined : EvictionCost)
    (stored : ∀ id ∈ ids, set.transactions.lookup id = some (transactions id)) :
    combineCosts set.transactions ids combined = .ok (ids.foldl (fun combined id =>
      combined.combine (transactions id).evictionCost) combined) := by
  induction ids generalizing combined with
  | nil => rfl
  | cons first rest ih =>
    have cost : costOf set.transactions first = .ok (transactions first).evictionCost := by
      unfold costOf
      rw [stored first (mem_cons_self ..)]
    rw [combineCosts, bind_of_ok cost]
    exact ih _ fun id listed => stored id (mem_cons_of_mem _ listed)

theorem evictionCandidate_spec (iteration : Iteration) {tx : VerifiedUnminedTx}
    {found : Finset TxId} (isStored : set.transactions.lookup id = some tx)
    (isFound : set.descendants iteration id ∅ = .ok found)
    (lookups : ∀ descendant ∈ found, set.transactions.lookup descendant = some (transactions
      descendant)) :
    set.evictionCandidate iteration id ∅ = .ok ⟨(tx.evictionCost.max ((iteration.order found).foldl
      (fun combined id => combined.combine (transactions id).evictionCost) tx.evictionCost)).ratio,
      tx.time, id⟩ := by
  have own : costOf set.transactions id = .ok tx.evictionCost := by
    unfold costOf
    rw [isStored]
  have combined := combineCosts_spec (iteration.order found) tx.evictionCost fun descendant listed =>
    lookups descendant ((iteration.mem_order _ _).mp listed)
  unfold evictionCandidate packageScore package
  rw [bind_of_ok own, bind_of_ok isFound, bind_of_ok own, bind_of_ok combined]
  rw [isStored]
  rfl

theorem evictionCandidate_congr (iteration other : Iteration) (linked : set.LinksStored)
    (nextLinked : next.LinksStored) (isStored : id ∈ set.transactions.keys)
    (descends : ∀ descendant, TransGen set.graph.Feeds id descendant ↔
      TransGen next.graph.Feeds id descendant)
    (agree : ∀ descendant, ReflTransGen set.graph.Feeds id descendant →
      next.transactions.lookup descendant = set.transactions.lookup descendant) :
    ∃ candidate, set.evictionCandidate iteration id ∅ = .ok candidate ∧
      next.evictionCandidate other id ∅ = .ok candidate ∧ candidate.id = id := by
  obtain ⟨tx, isTx⟩ := mem_keys_iff.mp isStored
  obtain ⟨found, isFound, spec⟩ := descendants_spec linked iteration id
  obtain ⟨nextFound, isNextFound, nextSpec⟩ := descendants_spec nextLinked other id
  obtain rfl : nextFound = found := by
    ext descendant
    rw [spec, nextSpec, descends]
  let transactions : TxId → VerifiedUnminedTx := fun descendant =>
    (set.transactions.lookup descendant).getD tx
  have lookups : ∀ descendant ∈ nextFound,
      set.transactions.lookup descendant = some (transactions descendant) := by
    intro descendant listed
    obtain ⟨parent, _, feeds⟩ := TransGen.tail'_iff.mp ((spec descendant).mp listed)
    obtain ⟨_, isStored⟩ := mem_keys_iff.mp (linked parent descendant feeds).2
    change _ = some ((set.transactions.lookup descendant).getD tx)
    rw [isStored]
    rfl
  have nextLookups : ∀ descendant ∈ nextFound,
      next.transactions.lookup descendant = some (transactions descendant) := fun descendant listed =>
    (agree descendant ((spec descendant).mp listed).to_reflTransGen).trans (lookups descendant listed)
  have candidate := evictionCandidate_spec iteration isTx isFound lookups
  have nextCandidate := evictionCandidate_spec other ((agree id .refl).trans isTx)
    isNextFound nextLookups
  have commutes : RightCommutative fun (combined : EvictionCost) id =>
      combined.combine (transactions id).evictionCost :=
    ⟨fun first second third => EvictionCost.combine_right_comm first _ _⟩
  have perm : (other.order nextFound).Perm (iteration.order nextFound) :=
    (perm_ext_iff_of_nodup (other.nodup_order _) (iteration.nodup_order _)).mpr fun id => by
      rw [iteration.mem_order, other.mem_order]
  rw [perm.foldl_eq] at nextCandidate
  exact ⟨_, candidate, nextCandidate, rfl⟩

def freshCandidate (set : VerifiedSet) (id : TxId) : Except Fault EvictionCandidate :=
  set.evictionCandidate ascendingIteration id ∅

theorem evictionCandidate_eq_fresh (iteration : Iteration) (linked : set.LinksStored)
    (isStored : id ∈ set.transactions.keys) :
    ∃ candidate, set.evictionCandidate iteration id ∅ = .ok candidate ∧
      set.freshCandidate id = .ok candidate ∧ candidate.id = id :=
  evictionCandidate_congr iteration ascendingIteration linked linked isStored (fun _ => Iff.rfl)
    fun _ _ => rfl

section

variable {ids group : Finset TxId}

def IndexedOn (set : VerifiedSet) (ids : Finset TxId) : Prop :=
  ∀ candidate, candidate ∈ set.evictionOrder ↔ ∃ id ∈ ids, set.freshCandidate id = .ok candidate

section

variable (indexed : set.IndexedOn ids) (linked : set.LinksStored)
  (inside : ids ⊆ set.transactions.keys)
include indexed linked inside

theorem IndexedOn.id_mem {candidate : EvictionCandidate} (listed : candidate ∈ set.evictionOrder) :
    candidate.id ∈ ids := by
  obtain ⟨_, isId, isFresh⟩ := (indexed candidate).mp listed
  obtain ⟨_, _, isAgain, isSame⟩ :=
    evictionCandidate_eq_fresh ascendingIteration linked (inside isId)
  obtain rfl := ok.inj (isFresh.symm.trans isAgain)
  exact isSame ▸ isId

theorem removeEvictionCandidates_spec (iteration : Iteration) (group : List TxId)
    (unique : group.Nodup) (listed : ∀ id ∈ group, id ∈ ids) :
    ∃ order, set.removeEvictionCandidates iteration group = .ok (set.withOrder order) ∧
      (set.withOrder order).IndexedOn (ids \ group.toFinset) := by
  induction group generalizing set ids with
  | nil =>
    refine ⟨set.evictionOrder, rfl, ?_⟩
    rw [toFinset_nil, sdiff_empty]
    exact indexed
  | cons id rest ih =>
    obtain ⟨fresh, restUnique⟩ := nodup_cons.mp unique
    have isListed := listed id (mem_cons_self ..)
    obtain ⟨candidate, isCandidate, isFresh, isId⟩ :=
      evictionCandidate_eq_fresh iteration linked (inside isListed)
    have present : candidate ∈ set.evictionOrder := (indexed candidate).mpr ⟨id, isListed, isFresh⟩
    have erased : (set.withOrder (set.evictionOrder.erase candidate)).IndexedOn (ids.erase id) := by
      intro other
      change other ∈ set.evictionOrder.erase candidate ↔ _
      rw [mem_erase, indexed other]
      constructor
      · rintro ⟨differs, otherId, isOther, otherFresh⟩
        refine ⟨otherId, mem_erase.mpr ⟨?_, isOther⟩, otherFresh⟩
        rintro rfl
        exact differs (ok.inj (otherFresh.symm.trans isFresh))
      rintro ⟨otherId, isOther, otherFresh⟩
      obtain ⟨differs, isOther⟩ := mem_erase.mp isOther
      refine ⟨?_, otherId, isOther, otherFresh⟩
      rintro rfl
      obtain ⟨_, _, isAgain, isSame⟩ :=
        evictionCandidate_eq_fresh ascendingIteration linked (inside isOther)
      obtain rfl := ok.inj (isAgain.symm.trans otherFresh)
      exact differs (isSame.symm.trans isId)
    obtain ⟨order, removed, stays⟩ := ih erased linked
      ((erase_subset _ _).trans inside) restUnique
      (fun query isQuery => mem_erase.mpr ⟨ne_of_mem_of_not_mem isQuery fresh,
        listed query (mem_cons_of_mem _ isQuery)⟩)
    refine ⟨order, ?_, ?_⟩
    · rw [removeEvictionCandidates, bind_of_ok isCandidate, if_pos present]
      exact removed
    · rw [toFinset_cons, sdiff_insert, ← erase_sdiff_comm]
      exact stays

theorem insertEvictionCandidates_spec (iteration : Iteration) (group : List TxId)
    (unique : group.Nodup) (absent : ∀ id ∈ group, id ∉ ids) :
    ∃ order, set.insertEvictionCandidates iteration group = .ok (set.withOrder order) ∧
      (set.withOrder order).IndexedOn
        (ids ∪ group.toFinset.filter (· ∈ set.transactions.keys)) := by
  induction group generalizing set ids with
  | nil =>
    refine ⟨set.evictionOrder, rfl, ?_⟩
    rw [toFinset_nil, filter_empty, union_empty]
    exact indexed
  | cons id rest ih =>
    obtain ⟨fresh, restUnique⟩ := nodup_cons.mp unique
    rw [insertEvictionCandidates]
    by_cases isStored : id ∈ set.transactions.keys
    · obtain ⟨candidate, isCandidate, isFresh, isId⟩ :=
        evictionCandidate_eq_fresh iteration linked isStored
      have missing : candidate ∉ set.evictionOrder := fun present =>
        absent id (mem_cons_self ..) (isId ▸ indexed.id_mem linked inside present)
      have inserted : (set.withOrder (insert candidate set.evictionOrder)).IndexedOn
          (insert id ids) := by
        intro other
        change other ∈ insert candidate set.evictionOrder ↔ _
        rw [mem_insert, indexed other, exists_mem_insert]
        refine or_congr ⟨?_, ?_⟩ Iff.rfl
        · rintro rfl
          exact isFresh
        · exact fun otherFresh => ok.inj (otherFresh.symm.trans isFresh)
      obtain ⟨order, added, stays⟩ := ih inserted linked
        (insert_subset isStored inside) restUnique
        (fun query isQuery isListed => (mem_insert.mp isListed).elim
          (ne_of_mem_of_not_mem isQuery fresh) (absent query (mem_cons_of_mem _ isQuery)))
      refine ⟨order, ?_, ?_⟩
      · rw [if_pos isStored, bind_of_ok isCandidate, if_neg missing]
        exact added
      · rw [toFinset_cons, filter_insert, if_pos isStored, union_insert, ← insert_union]
        exact stays
    · obtain ⟨order, added, stays⟩ := ih indexed linked inside
        restUnique (fun other isOther => absent other (mem_cons_of_mem _ isOther))
      refine ⟨order, ?_, ?_⟩
      · rw [if_neg isStored]
        exact added
      · rw [toFinset_cons, filter_insert, if_neg isStored]
        exact stays

theorem IndexedOn.transfer (nextLinked : next.LinksStored)
    (sameOrder : next.evictionOrder = set.evictionOrder) (outside : ∀ id ∈ ids, id ∉ group)
    (apart : ∀ parent child, parent ∉ group → set.graph.Feeds parent child → child ∉ group)
    (sameFeeds : ∀ parent child, parent ∉ group → (next.graph.Feeds parent child ↔ set.graph.Feeds
      parent child))
    (sameLookup : ∀ id, id ∉ group → next.transactions.lookup id = set.transactions.lookup id) :
    next.IndexedOn ids := by
  have stays : ∀ {id descendant : TxId}, id ∉ group → ReflTransGen set.graph.Feeds id descendant →
      descendant ∉ group := by
    intro id descendant isOutside path
    induction path with
    | refl => exact isOutside
    | tail _ feeds ih => exact apart _ _ ih feeds
  have descends : ∀ id, id ∉ group → ∀ descendant, TransGen set.graph.Feeds id descendant ↔
      TransGen next.graph.Feeds id descendant := by
    intro id isOutside descendant
    constructor
    · intro path
      induction path with
      | single feeds => exact .single ((sameFeeds _ _ isOutside).mpr feeds)
      | tail before feeds ih =>
        exact ih.tail ((sameFeeds _ _ (stays isOutside before.to_reflTransGen)).mpr feeds)
    intro path
    induction path with
    | single feeds => exact .single ((sameFeeds _ _ isOutside).mp feeds)
    | tail _ feeds ih =>
      exact ih.tail
        ((sameFeeds _ _ (stays isOutside ih.to_reflTransGen)).mp feeds)
  intro candidate
  rw [sameOrder, indexed candidate]
  refine exists_congr fun id => and_congr_right fun isListed => ?_
  obtain ⟨_, isFresh, isNextFresh, _⟩ := evictionCandidate_congr ascendingIteration
    ascendingIteration linked nextLinked (inside isListed) (descends id (outside id isListed))
    fun descendant path => sameLookup descendant (stays (outside id isListed) path)
  unfold freshCandidate
  rw [isFresh, isNextFresh]

end

end

end VerifiedSet

end Zakura.Mempool
