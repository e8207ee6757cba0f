import Zakura.Mempool.VerifiedSetCore

/-!
The two dependency maps as one relation: what adding a transaction, clearing mined ones and
removing one with all its dependents do to it.
-/

namespace Zakura.Mempool

open FiniteMap Relation Finset List

namespace TransactionDependencies

variable (iteration : Iteration) {graph : TransactionDependencies}

def Feeds (graph : TransactionDependencies) (parent child : TxId) : Prop :=
  child ∈ graph.directDependents parent

structure Mirrored (graph : TransactionDependencies) : Prop where
  mirror : ∀ parent child, parent ∈ graph.directDependencies child ↔ graph.Feeds parent child
  dependenciesFull : NoEmpty graph.dependencies
  dependentsFull : NoEmpty graph.dependents

section

variable {dependent : TxId} {outpoints : List OutPoint}

theorem foldl_addMember (dependent : TxId) (outpoints : List OutPoint)
    (dependents : FiniteMap TxId (Finset TxId)) (full : NoEmpty dependents) :
    NoEmpty (outpoints.foldl (fun dependents outpoint =>
      dependents.addMember outpoint.hash dependent) dependents) ∧
    ∀ parent child, child ∈ (outpoints.foldl (fun dependents outpoint =>
      dependents.addMember outpoint.hash dependent) dependents).members parent ↔
        child ∈ dependents.members parent ∨
          (child = dependent ∧ parent ∈ outpoints.map OutPoint.hash) := by
  induction outpoints generalizing dependents with
  | nil => exact ⟨full, by simp⟩
  | cons outpoint rest ih =>
    obtain ⟨stays, spec⟩ := ih (dependents.addMember outpoint.hash dependent)
      (full.addMember _ _)
    refine ⟨stays, fun parent child => ?_⟩
    rw [List.foldl_cons, spec, mem_members_addMember, List.map_cons, List.mem_cons]
    tauto

theorem add_spec (outpoints : List OutPoint) (mirrored : graph.Mirrored)
    (fresh : graph.directDependencies dependent = ∅) : (graph.add dependent outpoints).Mirrored ∧
    ∀ parent child, (graph.add dependent outpoints).Feeds parent child ↔
      graph.Feeds parent child ∨ (child = dependent ∧ parent ∈ outpoints.map OutPoint.hash) := by
  obtain ⟨full, spec⟩ := foldl_addMember dependent outpoints graph.dependents
    mirrored.dependentsFull
  have feeds : ∀ parent child, (graph.add dependent outpoints).Feeds parent child ↔
      graph.Feeds parent child ∨ (child = dependent ∧ parent ∈ outpoints.map OutPoint.hash) := spec
  refine ⟨⟨fun parent child => ?_, ?_, full⟩, feeds⟩
  · rw [feeds, ← mirrored.mirror]
    unfold directDependencies add
    split
    next empty =>
      subst empty
      simp
    rw [members_insert]
    split
    next same =>
      subst same
      have unlisted : parent ∉ graph.dependencies.members child := by
        change parent ∉ graph.directDependencies child
        rw [fresh]
        exact notMem_empty _
      rw [mem_toFinset]
      tauto
    · tauto
  · unfold add
    split
    · exact mirrored.dependenciesFull
    rename_i some_outpoint
    refine mirrored.dependenciesFull.insert _ ?_
    obtain ⟨outpoint, _, rfl⟩ := exists_cons_of_ne_nil some_outpoint
    exact ⟨outpoint.hash, by simp⟩

end

theorem foldl_removeMember (member : TxId) (keys : List TxId)
    (index : FiniteMap TxId (Finset TxId)) (full : NoEmpty index) :
    NoEmpty (keys.foldl (fun index key => index.removeMember key member) index) ∧
    ∀ key other, other ∈ (keys.foldl (fun index key =>
      index.removeMember key member) index).members key ↔
        other ∈ index.members key ∧ ¬ (other = member ∧ key ∈ keys) := by
  induction keys generalizing index with
  | nil => exact ⟨full, by simp⟩
  | cons first rest ih =>
    obtain ⟨stays, spec⟩ := ih (index.removeMember first member) (full.removeMember _ _)
    refine ⟨stays, fun key other => ?_⟩
    rw [List.foldl_cons, spec, mem_members_removeMember, List.mem_cons]
    tauto

theorem clearMined_spec (mirrored : graph.Mirrored) (mined : TxId) :
    (graph.clearMined iteration mined).Mirrored ∧
    ∀ parent child, (graph.clearMined iteration mined).Feeds parent child ↔
      graph.Feeds parent child ∧ parent ≠ mined := by
  obtain ⟨full, spec⟩ := foldl_removeMember mined (iteration.order (graph.directDependents mined))
    graph.dependencies mirrored.dependenciesFull
  have feeds : ∀ parent child, (graph.clearMined iteration mined).Feeds parent child ↔
      graph.Feeds parent child ∧ parent ≠ mined := by
    intro parent child
    unfold Feeds directDependents clearMined
    rw [members_erase]
    split
    next same =>
      simp [same]
    next differs =>
      simp [differs]
  refine ⟨⟨fun parent child => ?_, full, mirrored.dependentsFull.erase mined⟩, feeds⟩
  rw [feeds, ← mirrored.mirror]
  refine (spec child parent).trans ?_
  rw [iteration.mem_order]
  refine and_congr_right fun listed => not_congr (and_iff_left_of_imp fun same => ?_)
  exact same ▸ (mirrored.mirror parent child).mp listed

theorem clearMinedDependencies_spec (mirrored : graph.Mirrored) (minedIds : Finset TxId) :
    (graph.clearMinedDependencies iteration minedIds).Mirrored ∧
    ∀ parent child, (graph.clearMinedDependencies iteration minedIds).Feeds parent child ↔
      graph.Feeds parent child ∧ parent ∉ minedIds := by
  have all : ∀ (ids : List TxId) (graph : TransactionDependencies), graph.Mirrored →
      (ids.foldl (fun graph mined => graph.clearMined iteration mined) graph).Mirrored ∧
      ∀ parent child, (ids.foldl (fun graph mined => graph.clearMined iteration mined)
        graph).Feeds parent child ↔ graph.Feeds parent child ∧ parent ∉ ids := by
    intro ids
    induction ids with
    | nil => exact fun graph mirrored => ⟨mirrored, by simp⟩
    | cons first rest ih =>
      intro graph mirrored
      obtain ⟨once, feeds⟩ := clearMined_spec iteration mirrored first
      obtain ⟨stays, spec⟩ := ih _ once
      refine ⟨stays, fun parent child => ?_⟩
      rw [List.foldl_cons, spec, feeds, List.mem_cons]
      tauto
  obtain ⟨stays, spec⟩ := all (iteration.order minedIds) graph mirrored
  refine ⟨stays, fun parent child => (spec parent child).trans ?_⟩
  rw [iteration.mem_order]

section

/-- The graph after some transactions were detached: the lists of the others keep detached
dependencies, but no detached dependents. -/
structure Detached (graph : TransactionDependencies) (gone : Finset TxId)
    (now : TransactionDependencies) : Prop where
  feeds : ∀ parent child, now.Feeds parent child ↔
    graph.Feeds parent child ∧ parent ∉ gone ∧ child ∉ gone
  dependencies : ∀ parent child, parent ∈ now.directDependencies child ↔
    graph.Feeds parent child ∧ child ∉ gone
  dependenciesFull : NoEmpty now.dependencies
  dependentsFull : NoEmpty now.dependents

variable {gone : Finset TxId} {now : TransactionDependencies}

theorem detach_spec (detached : Detached graph gone now) (id : TxId) :
    Detached graph (insert id gone) (now.detach iteration id).2 ∧
    ∀ child, child ∈ (now.detach iteration id).1 ↔
      graph.Feeds id child ∧ id ∉ gone ∧ child ∉ insert id gone := by
  obtain ⟨full, spec⟩ := foldl_removeMember id (iteration.order (now.directDependencies id))
    now.dependents detached.dependentsFull
  have without : ∀ parent child, child ∈ ((iteration.order (now.directDependencies id)).foldl
      (fun dependents dependency => dependents.removeMember dependency id)
        now.dependents).members parent ↔
      graph.Feeds parent child ∧ parent ∉ gone ∧ child ∉ insert id gone := by
    intro parent child
    rw [spec, iteration.mem_order, detached.dependencies, mem_insert]
    change now.Feeds parent child ∧ _ ↔ _
    rw [detached.feeds]
    constructor
    · rintro ⟨⟨feeds, present, remains⟩, untouched⟩
      refine ⟨feeds, present, ?_⟩
      rintro (rfl | isGone)
      · exact untouched ⟨rfl, feeds, remains⟩
      · exact remains isGone
    · rintro ⟨feeds, present, remains⟩
      exact ⟨⟨feeds, present, fun isGone => remains (.inr isGone)⟩,
        fun same => remains (.inl same.1)⟩
  refine ⟨⟨fun parent child => ?_, fun parent child => ?_, detached.dependenciesFull.erase id,
    full.erase id⟩, without id⟩
  · unfold Feeds directDependents detach
    rw [members_erase]
    split
    next same =>
      simp [same]
    next differs =>
      rw [without]
      simp [differs, Feeds, directDependents]
  unfold directDependencies detach
  rw [members_erase]
  split
  next same =>
    simp [same]
  next differs =>
    refine (detached.dependencies parent child).trans ?_
    simp [differs]

structure LevelDetached (graph : TransactionDependencies) (gone : Finset TxId) (ids : List TxId)
    (next : Finset TxId) (result : Finset TxId × TransactionDependencies) : Prop where
  detached : Detached graph (gone ∪ ids.toFinset) result.2
  keeps : next ⊆ result.1
  reached : ∀ child ∈ result.1, child ∈ next ∨ ∃ parent ∈ ids, parent ∉ gone ∧
    graph.Feeds parent child
  complete : ∀ parent ∈ ids, parent ∉ gone → ∀ child, graph.Feeds parent child →
    child ∈ result.1 ∨ child ∈ gone ∪ ids.toFinset

theorem detachLevel_spec (ids : List TxId) (detached : Detached graph gone now)
    (next : Finset TxId) :
    LevelDetached graph gone ids next (detachLevel iteration ids next now) := by
  induction ids generalizing gone now next with
  | nil =>
    refine ⟨?_, Finset.Subset.refl _, fun _ => .inl, nofun⟩
    simpa [detachLevel] using detached
  | cons id rest ih =>
    obtain ⟨once, children⟩ := detach_spec iteration detached id
    have spec := ih once (next ∪ (now.detach iteration id).1)
    have gones : insert id gone ∪ rest.toFinset = gone ∪ (id :: rest).toFinset := by
      rw [toFinset_cons, union_insert, insert_union]
    refine ⟨gones ▸ spec.detached, subset_union_left.trans spec.keeps, ?_, ?_⟩
    · intro child listed
      rcases spec.reached child listed with early | ⟨parent, later, present, feeds⟩
      · rcases mem_union.mp early with old | isChild
        · exact .inl old
        · obtain ⟨feeds, present, _⟩ := (children child).mp isChild
          exact .inr ⟨id, mem_cons_self .., present, feeds⟩
      · refine .inr ⟨parent, mem_cons_of_mem _ later, fun isGone => present ?_, feeds⟩
        exact mem_insert_of_mem isGone
    intro parent listed present child feeds
    rw [← gones]
    by_cases same : parent = id
    · subst same
      by_cases isGone : child ∈ insert parent gone
      · exact .inr (mem_union_left _ isGone)
      · exact .inl (spec.keeps (mem_union_right _
          ((children child).mpr ⟨feeds, present, isGone⟩)))
    · refine spec.complete parent ((mem_cons.mp listed).resolve_left same) ?_ child feeds
      exact fun isGone => (mem_insert.mp isGone).elim same present

structure Removing (graph : TransactionDependencies) (root : TxId)
    (domain gone level found : Finset TxId) (now : TransactionDependencies) : Prop where
  detached : Detached graph gone now
  inside : level ⊆ domain
  listed : ∀ id, id ∈ gone ∨ id ∈ level → id ∈ insert root found
  reached : ∀ id ∈ insert root found, ReflTransGen graph.Feeds root id
  explored : ∀ parent ∈ gone, ∀ child, graph.Feeds parent child → child ∈ gone ∨ child ∈ level
  started : root ∈ gone ∨ root ∈ level

variable {root : TxId} {domain level found : Finset TxId}

theorem Removing.next (removing : Removing graph root domain gone level found now)
    (bounded : ∀ parent child, graph.Feeds parent child → child ∈ domain) :
    Removing graph root domain (gone ∪ level)
      (detachLevel iteration (iteration.order level) ∅ now).1
      (found ∪ (detachLevel iteration (iteration.order level) ∅ now).1)
      (detachLevel iteration (iteration.order level) ∅ now).2 := by
  have spec := detachLevel_spec iteration (iteration.order level) removing.detached ∅
  have same : (iteration.order level).toFinset = level := by
    ext id
    rw [mem_toFinset, iteration.mem_order]
  have children : ∀ child ∈ (detachLevel iteration (iteration.order level) ∅ now).1,
      ∃ parent ∈ level, graph.Feeds parent child := by
    intro child isNext
    rcases spec.reached child isNext with none | ⟨parent, isListed, _, feeds⟩
    · exact absurd none (notMem_empty _)
    · exact ⟨parent, (iteration.mem_order _ _).mp isListed, feeds⟩
  refine ⟨?_, ?_, ?_, ?_, ?_, ?_⟩
  · have detached := spec.detached
    rwa [same] at detached
  · intro child isNext
    obtain ⟨parent, _, feeds⟩ := children child isNext
    exact bounded parent child feeds
  · intro id known
    rw [← insert_union, mem_union]
    rcases known with isGone | isNext
    · exact .inl (removing.listed id (mem_union.mp isGone))
    · exact .inr isNext
  · intro id known
    rw [← insert_union, mem_union] at known
    rcases known with old | isNext
    · exact removing.reached id old
    · obtain ⟨parent, isLevel, feeds⟩ := children id isNext
      exact (removing.reached parent (removing.listed parent (.inr isLevel))).tail feeds
  · intro parent isGone child feeds
    by_cases old : parent ∈ gone
    · exact .inl (mem_union.mpr (removing.explored parent old child feeds))
    have isLevel := (mem_union.mp isGone).resolve_left old
    have complete := spec.complete parent ((iteration.mem_order _ _).mpr isLevel) old child feeds
    rw [same] at complete
    exact complete.symm
  · exact .inl (mem_union.mpr removing.started)

theorem Removing.gone_eq (removing : Removing graph root domain gone ∅ found now) :
    insert root found = gone ∧ ∀ id, id ∈ gone ↔ ReflTransGen graph.Feeds root id := by
  have onlyGone : ∀ {id : TxId}, id ∈ gone ∨ id ∈ (∅ : Finset TxId) → id ∈ gone :=
    fun known => known.resolve_right (notMem_empty _)
  have covers : ∀ id, ReflTransGen graph.Feeds root id → id ∈ gone := by
    intro id path
    induction path with
    | refl => exact onlyGone removing.started
    | tail _ feeds ih => exact onlyGone (removing.explored _ ih _ feeds)
  have reached : ∀ id ∈ gone, ReflTransGen graph.Feeds root id := fun id isGone =>
    removing.reached id (removing.listed id (.inl isGone))
  refine ⟨?_, fun id => ⟨reached id, covers id⟩⟩
  ext id
  exact ⟨fun known => covers id (removing.reached id known),
    fun isGone => removing.listed id (.inl isGone)⟩

theorem removeLevels_spec {fuel : Nat} (removing : Removing graph root domain gone level found now)
    (bounded : ∀ parent child, graph.Feeds parent child → child ∈ domain)
    (enough : level = ∅ ∨ (level ⊆ gone ∧ 1 ≤ fuel) ∨ (domain \ gone).card + 1 ≤ fuel) :
    ∃ final after, removeLevels iteration fuel level found now = some (final, after) ∧
      Detached graph (insert root final) after ∧
      ∀ id, id ∈ insert root final ↔ ReflTransGen graph.Feeds root id := by
  have finish : ∀ {gone found : Finset TxId} {now : TransactionDependencies} (fuel : Nat),
      Removing graph root domain gone ∅ found now →
      ∃ final after, removeLevels iteration fuel ∅ found now = some (final, after) ∧
        Detached graph (insert root final) after ∧
        ∀ id, id ∈ insert root final ↔ ReflTransGen graph.Feeds root id := by
    intro gone found now fuel removing
    obtain ⟨same, reach⟩ := removing.gone_eq
    refine ⟨found, now, ?_, same ▸ removing.detached, same ▸ reach⟩
    cases fuel <;> exact if_pos rfl
  induction fuel generalizing gone level found now with
  | zero =>
    have empty : level = ∅ := by
      rcases enough with empty | ⟨_, fuel⟩ | fuel
      · exact empty
      · omega
      · omega
    subst empty
    exact finish 0 removing
  | succ fuel ih =>
    by_cases empty : level = ∅
    · subst empty
      exact finish (fuel + 1) removing
    have next := removing.next iteration bounded
    rw [removeLevels, if_neg empty]
    refine ih next ?_
    by_cases old : level ⊆ gone
    · refine .inl (eq_empty_of_forall_notMem fun child isNext => ?_)
      have spec := detachLevel_spec iteration (iteration.order level)
        removing.detached ∅
      rcases spec.reached child isNext with none | ⟨_, isListed, present, _⟩
      · exact notMem_empty _ none
      · exact present (old ((iteration.mem_order _ _).mp isListed))
    have fuelLeft : (domain \ gone).card + 1 ≤ fuel + 1 :=
      (enough.resolve_left empty).resolve_left fun stopped => old stopped.1
    obtain ⟨id, isLevel, fresh⟩ := not_subset.mp old
    have shrinks : (domain \ (gone ∪ level)).card < (domain \ gone).card := by
      refine card_lt_card (ssubset_iff_of_subset ?_ |>.mpr ⟨id, ?_, ?_⟩)
      · exact sdiff_subset_sdiff (Finset.Subset.refl _) subset_union_left
      · exact mem_sdiff.mpr ⟨removing.inside isLevel, fresh⟩
      · exact fun still => (mem_sdiff.mp still).2 (mem_union_right _ isLevel)
    exact .inr (.inr (by omega))

theorem removeAll_spec (mirrored : graph.Mirrored) (root : TxId) :
    ∃ final after, graph.removeAll iteration root = some (final, after) ∧ after.Mirrored ∧
      (∀ id, id ∈ insert root final ↔ ReflTransGen graph.Feeds root id) ∧
      ∀ parent child, after.Feeds parent child ↔
        graph.Feeds parent child ∧ parent ∉ insert root final ∧ child ∉ insert root final := by
  have bounded : ∀ parent child, graph.Feeds parent child →
      child ∈ insert root graph.dependencies.keys := by
    intro parent child feeds
    have listed := (mirrored.mirror parent child).mpr feeds
    refine mem_insert_of_mem (mem_keys_iff.mpr ?_)
    unfold directDependencies members at listed
    cases found : graph.dependencies.lookup child with
    | none => simp [found] at listed
    | some filed => exact ⟨filed, rfl⟩
  have start : Removing graph root (insert root graph.dependencies.keys) ∅ {root} ∅ graph := by
    refine ⟨⟨?_, ?_, mirrored.dependenciesFull, mirrored.dependentsFull⟩, ?_, ?_, ?_, ?_, ?_⟩
    · simp
    · simpa using mirrored.mirror
    · simp
    · simp
    · simp [ReflTransGen.refl]
    · simp
    · simp
  have enough : (insert root graph.dependencies.keys \ ∅).card + 1 ≤
      graph.dependencies.keys.card + 2 := by
    rw [sdiff_empty]
    have grown := card_insert_le root graph.dependencies.keys
    omega
  obtain ⟨final, after, removed, detached, reach⟩ :=
    removeLevels_spec iteration start bounded (.inr (.inr enough))
  refine ⟨final, after, removed, ⟨?_, detached.dependenciesFull, detached.dependentsFull⟩, reach,
    detached.feeds⟩
  intro parent child
  rw [detached.dependencies, detached.feeds]
  refine and_congr_right fun feeds => ?_
  refine ⟨fun remains => ⟨fun isGone => remains ?_, remains⟩, And.right⟩
  exact (reach child).mpr (((reach parent).mp isGone).tail feeds)

end

end TransactionDependencies

end Zakura.Mempool
