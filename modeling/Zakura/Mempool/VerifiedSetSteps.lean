import Zakura.Mempool.EvictionIndex
import Zakura.Mempool.VerifiedSetAccounts

/-!
Every operation keeps the set sound: the dependency groups stay within their limit, so that
the walks find whole groups and the index is rebuilt exactly where it changes.
-/

namespace Zakura.Mempool

open FiniteMap Relation GraphWalk Fallible List

variable {graph : TransactionDependencies}

namespace TransactionDependencies

variable {group : Finset TxId}

def Linked (graph : TransactionDependencies) (first second : TxId) : Prop :=
  graph.Feeds first second ∨ graph.Feeds second first

def Closed (graph : TransactionDependencies) (group : Finset TxId) : Prop :=
  ∀ first ∈ group, ∀ second, graph.Linked first second → second ∈ group

def Bounded (graph : TransactionDependencies) : Prop :=
  ∀ id, ∃ group : Finset TxId, id ∈ group ∧ graph.Closed group ∧
    group.card ≤ maxMempoolPackageTransactions

variable {first second id : TxId}

theorem Linked.symm (linked : graph.Linked first second) :
    graph.Linked second first := Or.symm linked

section

variable (closed : graph.Closed group)
include closed

theorem Closed.of_imp {next : TransactionDependencies}
    (fewer : ∀ parent child, next.Feeds parent child → graph.Feeds parent child) :
    next.Closed group := fun first inside second linked =>
  closed first inside second (linked.imp (fewer _ _) (fewer _ _))

theorem Closed.apart {parent child : TxId} (outside : parent ∉ group)
    (feeds : graph.Feeds parent child) : child ∉ group := fun inside =>
  outside (closed child inside parent (.inr feeds))

theorem Closed.mem_of_reached (inside : first ∈ group)
    (path : ReflTransGen graph.Linked first second) : second ∈ group := by
  induction path with
  | refl => exact inside
  | tail _ linked ih => exact closed _ ih _ linked

end

theorem linked_of_feeds (path : ReflTransGen graph.Feeds first second) :
    ReflTransGen graph.Linked first second :=
  ReflTransGen.mono (show graph.Feeds ≤ graph.Linked from fun _ _ => .inl) _ _ path

theorem Bounded.card_le (bounded : graph.Bounded) {connected : Finset TxId}
    (reached : ∀ other ∈ connected, ReflTransGen graph.Linked id other) :
    connected.card ≤ maxMempoolPackageTransactions := by
  obtain ⟨_, inside, closed, small⟩ := bounded id
  exact (Finset.card_le_card fun other isConnected =>
    closed.mem_of_reached inside (reached other isConnected)).trans small

end TransactionDependencies

namespace VerifiedSet

open TransactionDependencies

variable {set next : VerifiedSet} {id key second first : TxId} {effects : TxId → List Spend}

section

theorem mem_neighbours (iteration : Iteration) (mirrored : graph.Mirrored) :
    second ∈ neighbours iteration graph first ↔ graph.Linked first second := by
  unfold neighbours
  rw [mem_append, mem_reverse, mem_reverse, iteration.mem_order,
    iteration.mem_order, mirrored.mirror]
  rfl

theorem edge_neighbours (iteration : Iteration) (mirrored : graph.Mirrored) :
    Edge (neighbours iteration graph) = graph.Linked := by
  funext first second
  exact propext (mem_neighbours iteration mirrored)

structure Connects (graph : TransactionDependencies) (starts : List TxId) (group : Finset TxId) :
    Prop where
  started : ∀ start ∈ starts, start ∈ group
  closed : graph.Closed group
  reached : ∀ id ∈ group, ∃ start ∈ starts, ReflTransGen graph.Linked start id

variable {starts : List TxId}

theorem connects_of_group (iteration : Iteration) {group : Finset TxId}
    (mirrored : set.graph.Mirrored)
    (isGroup : Group (neighbours iteration set.graph) starts.reverse group) :
    Connects set.graph starts group := by
  refine ⟨fun start listed => isGroup.started start (mem_reverse.mpr listed),
    fun first inside second linked => ?_, fun id inside => ?_⟩
  · exact isGroup.closed first inside second ((mem_neighbours iteration mirrored).mpr linked)
  · obtain ⟨start, listed, path⟩ := isGroup.reached id inside
    rw [edge_neighbours iteration mirrored] at path
    exact ⟨start, mem_reverse.mp listed, path⟩

theorem dependencyGroup_connects (iteration : Iteration) {bound : Finset TxId}
    (mirrored : set.graph.Mirrored) (started : ∀ start ∈ starts, start ∈ bound)
    (closed : set.graph.Closed bound) (small : bound.card ≤ maxMempoolPackageTransactions) :
    Connects set.graph starts (set.dependencyGroup iteration starts) := by
  refine connects_of_group iteration mirrored (group_of_closed
    (fun start listed => started start (mem_reverse.mp listed))
    (fun first inside second listed => ?_) small)
  exact closed first inside second ((mem_neighbours iteration mirrored).mp listed)

theorem LinksStored.reached (linked : set.LinksStored) (isStored : first ∈ set.transactions.keys)
    (path : ReflTransGen set.graph.Linked first second) : second ∈ set.transactions.keys := by
  induction path with
  | refl => exact isStored
  | tail _ link _ => exact link.elim (fun feeds => (linked _ _ feeds).2) fun feeds =>
    (linked _ _ feeds).1

theorem LinksStored.connected {group : Finset TxId} (linked : set.LinksStored)
    (connects : Connects set.graph starts group)
    (stored : ∀ start ∈ starts, start ∈ set.transactions.keys) : group ⊆ set.transactions.keys := by
  intro id inside
  obtain ⟨start, listed, path⟩ := connects.reached id inside
  exact linked.reached (stored start listed) path

end

structure Sound (effects : TxId → List Spend) (set : VerifiedSet) : Prop where
  mirrored : set.graph.Mirrored
  linked : set.LinksStored
  bounded : set.graph.Bounded
  indexed : set.IndexedOn set.transactions.keys
  accounts : set.Accounts
  committed : ∀ id tx, set.transactions.lookup id = some tx → tx.transaction.spends = effects id

theorem sound_clear (effects : TxId → List Spend) : Sound effects clear := by
  have none : ∀ parent child, ¬ (⟨∅, ∅⟩ : TransactionDependencies).Feeds parent child :=
    fun parent child => Finset.notMem_empty child
  refine ⟨⟨fun parent child => ?_, noEmpty_empty, noEmpty_empty⟩, fun parent child feeds => ?_,
    fun id => ⟨{id}, Finset.mem_singleton_self id, fun first _ second linked => ?_, ?_⟩,
    fun candidate => ?_, ⟨nofun, fun spend => ?_, nofun, fun outpoint => rfl, rfl, rfl⟩, nofun⟩
  · exact Iff.intro (fun listed => absurd listed (Finset.notMem_empty _))
      fun feeds => absurd feeds (none _ _)
  · exact absurd feeds (none _ _)
  · exact (linked.elim (none _ _) (none _ _)).elim
  · exact (Finset.card_singleton id).trans_le (by decide)
  · simp [clear]
  · simp [clear]

theorem sound_withOrder {order : Finset EvictionCandidate} (mirrored : set.graph.Mirrored)
    (linked : set.LinksStored) (bounded : set.graph.Bounded)
    (complete : (set.withOrder order).IndexedOn set.transactions.keys) (accounts : set.Accounts)
    (committed : ∀ id tx, set.transactions.lookup id = some tx →
      tx.transaction.spends = effects id) : Sound effects (set.withOrder order) :=
  ⟨mirrored, linked, bounded, complete, accounts.withOrder order, committed⟩

theorem Sound.bounded_of_fewer (sound : Sound effects set)
    (fewer : ∀ parent child, graph.Feeds parent child → set.graph.Feeds parent child) :
    graph.Bounded := fun id => by
  obtain ⟨group, isMember, isClosed, small⟩ := sound.bounded id
  exact ⟨group, isMember, isClosed.of_imp fewer, small⟩

theorem Sound.group (sound : Sound effects set) (iteration : Iteration) (id : TxId) :
    Connects set.graph [id] (set.dependencyGroup iteration [id]) := by
  obtain ⟨_, inside, closed, small⟩ := sound.bounded id
  exact dependencyGroup_connects iteration sound.mirrored
    (fun start listed => mem_singleton.mp listed ▸ inside) closed small

section

variable {group : Finset TxId}

theorem Sound.clearCandidates (sound : Sound effects set) (iteration : Iteration)
    (inside : group ⊆ set.transactions.keys) :
    ∃ order, set.removeEvictionCandidates iteration (iteration.order group) =
        .ok (set.withOrder order) ∧
      (set.withOrder order).IndexedOn (set.transactions.keys \ group) := by
  have same : (iteration.order group).toFinset = group := by
    ext id
    rw [mem_toFinset, iteration.mem_order]
  obtain ⟨order, removed, indexed⟩ := removeEvictionCandidates_spec sound.indexed
    sound.linked (Finset.Subset.refl _) iteration (iteration.order group)
    (iteration.nodup_order group) (fun id listed => inside ((iteration.mem_order _ _).mp listed))
  rw [same] at indexed
  exact ⟨order, removed, indexed⟩

structure ChangedInside (group : Finset TxId) (set next : VerifiedSet) : Prop where
  order : next.evictionOrder = set.evictionOrder
  feeds : ∀ parent child, parent ∉ group →
    (next.graph.Feeds parent child ↔ set.graph.Feeds parent child)
  lookup : ∀ id, id ∉ group → next.transactions.lookup id = set.transactions.lookup id

theorem ChangedInside.mem_keys (changed : ChangedInside group set next) (outside : id ∉ group) :
    id ∈ next.transactions.keys ↔ id ∈ set.transactions.keys := by
  rw [mem_keys_iff, mem_keys_iff, changed.lookup id outside]

theorem reindex (iteration : Iteration) (indexed : set.IndexedOn (set.transactions.keys \ group))
    (linked : set.LinksStored) (nextLinked : next.LinksStored)
    (apart : ∀ parent child, parent ∉ group → set.graph.Feeds parent child → child ∉ group)
    (changed : ChangedInside group set next) :
    ∃ order, next.insertEvictionCandidates iteration (iteration.order group) =
        .ok (next.withOrder order) ∧ (next.withOrder order).IndexedOn next.transactions.keys := by
  have same : (iteration.order group).toFinset = group := by
    ext id
    rw [mem_toFinset, iteration.mem_order]
  have outside : ∀ id ∈ set.transactions.keys \ group, id ∉ group := fun id isKept =>
    (Finset.mem_sdiff.mp isKept).2
  have kept := indexed.transfer linked Finset.sdiff_subset nextLinked changed.order outside apart
    changed.feeds changed.lookup
  have keys : set.transactions.keys \ group ∪ group.filter (· ∈ next.transactions.keys) =
      next.transactions.keys := by
    ext id
    by_cases isInside : id ∈ group
    · simp [isInside]
    · rw [changed.mem_keys isInside]
      simp [isInside]
  obtain ⟨order, inserted, complete⟩ := insertEvictionCandidates_spec kept nextLinked
    (fun id isKept => (changed.mem_keys (outside id isKept)).mpr (Finset.mem_sdiff.mp isKept).1)
    iteration (iteration.order group) (iteration.nodup_order group)
    (fun id listed isKept => outside id isKept ((iteration.mem_order _ _).mp listed))
  rw [same, keys] at complete
  exact ⟨order, inserted, complete⟩

end

section

variable (sound : Sound effects set) (iteration : Iteration) (minedIds : Finset TxId)
include sound iteration minedIds

theorem Sound.minedGroup : set.minedGroup iteration minedIds ⊆ set.transactions.keys ∧
      set.graph.Closed (set.minedGroup iteration minedIds) ∧
      ∀ id ∈ minedIds, id ∈ set.transactions.keys → id ∈ set.minedGroup iteration minedIds := by
  have members : ∀ id, id ∈ set.minedGroup iteration minedIds ↔ ∃ mined,
      (mined ∈ minedIds ∧ mined ∈ set.transactions.keys) ∧
        id ∈ set.dependencyGroup iteration [mined] := by
    unfold VerifiedSet.minedGroup
    simp
  refine ⟨fun id inside => ?_, fun first inside second linked => ?_, fun id isMined isStored => ?_⟩
  · obtain ⟨mined, ⟨_, isStored⟩, inGroup⟩ := (members id).mp inside
    exact sound.linked.connected (sound.group iteration mined) (forall_mem_singleton.mpr isStored)
      inGroup
  · obtain ⟨mined, isMined, inGroup⟩ := (members first).mp inside
    exact (members second).mpr ⟨mined, isMined,
      (sound.group iteration mined).closed first inGroup second linked⟩
  · exact (members id).mpr ⟨id, ⟨isMined, isStored⟩,
      (sound.group iteration id).started id (mem_singleton_self id)⟩

theorem Sound.clearMinedDependencies :
    ∃ next, set.clearMinedDependencies iteration minedIds = .ok next ∧ Sound effects next := by
  obtain ⟨inside, closed, covers⟩ := sound.minedGroup iteration minedIds
  obtain ⟨order, removed, indexed⟩ := sound.clearCandidates iteration inside
  obtain ⟨mirrored, feeds⟩ := clearMinedDependencies_spec iteration sound.mirrored minedIds
  have fewer : ∀ parent child, (set.graph.clearMinedDependencies iteration minedIds).Feeds parent
      child → set.graph.Feeds parent child := fun parent child left => ((feeds parent child).mp left).1
  have linked : ((set.withOrder order).withGraph
      (set.graph.clearMinedDependencies iteration minedIds)).LinksStored :=
    fun parent child left => sound.linked parent child (fewer parent child left)
  have changed : ChangedInside (set.minedGroup iteration minedIds) (set.withOrder order)
      ((set.withOrder order).withGraph (set.graph.clearMinedDependencies iteration minedIds)) := by
    refine ⟨rfl, fun parent child outside => ?_, fun _ _ => rfl⟩
    refine (feeds parent child).trans (and_iff_left_of_imp fun left isMined => outside ?_)
    exact covers parent isMined (sound.linked parent child left).1
  obtain ⟨_, inserted, complete⟩ := reindex iteration indexed sound.linked linked
    (fun parent child outside left => closed.apart outside left) changed
  refine ⟨_, ?_, sound_withOrder mirrored linked (sound.bounded_of_fewer fewer) complete
    ((sound.accounts.withOrder order).withGraph _) sound.committed⟩
  unfold VerifiedSet.clearMinedDependencies
  rw [bind_of_ok removed]
  exact inserted

end

section

variable (sound : Sound effects set) (iteration : Iteration)
include sound iteration

theorem Sound.remove (isStored : key ∈ set.transactions.keys) :
    ∃ removed next, set.remove iteration key = .ok (removed, next) ∧ Sound effects next := by
  have group := sound.group iteration key
  have inside := sound.linked.connected group (forall_mem_singleton.mpr isStored)
  obtain ⟨order, cleared, indexed⟩ := sound.clearCandidates iteration inside
  obtain ⟨found, after, isRemoved, mirrored, reach, feeds⟩ :=
    removeAll_spec iteration sound.mirrored key
  have gone : ∀ id ∈ insert key found, id ∈ set.dependencyGroup iteration [key] := by
    intro id isGone
    refine group.closed.mem_of_reached (group.started key (mem_singleton_self key)) ?_
    exact linked_of_feeds ((reach id).mp isGone)
  have detached : (set.withOrder order).detachAll iteration key =
      .ok (found, (set.withOrder order).withGraph after) := by
    simp only [detachAll, withOrder, isRemoved]
  obtain ⟨removed, rest, dropped, spec⟩ := dropAll_spec
    ((sound.accounts.withOrder order).withGraph after) (iteration.order found ++ [key])
  have isGone : ∀ id, id ∈ iteration.order found ++ [key] ↔ id ∈ insert key found := by
    intro id
    rw [mem_append, mem_singleton, iteration.mem_order, Finset.mem_insert, or_comm]
  have lookups : ∀ id, id ∉ insert key found →
      rest.transactions.lookup id = set.transactions.lookup id := by
    intro id remains
    rw [spec.lookup, if_neg (mt (isGone id).mp remains)]
    rfl
  have fewer : ∀ parent child, rest.graph.Feeds parent child → set.graph.Feeds parent child := by
    intro parent child left
    rw [spec.graph] at left
    exact ((feeds parent child).mp left).1
  have linked : rest.LinksStored := by
    intro parent child left
    rw [spec.graph] at left
    obtain ⟨old, parentRemains, childRemains⟩ := (feeds parent child).mp left
    obtain ⟨isParent, isChild⟩ := sound.linked parent child old
    rw [mem_keys_iff, mem_keys_iff, lookups parent parentRemains, lookups child childRemains]
    exact ⟨mem_keys_iff.mp isParent, mem_keys_iff.mp isChild⟩
  have changed : ChangedInside (set.dependencyGroup iteration [key]) (set.withOrder order) rest := by
    refine ⟨spec.evictionOrder, fun parent child outside => ?_, fun id outside => ?_⟩
    · rw [spec.graph]
      refine (feeds parent child).trans (and_iff_left_of_imp fun left => ?_)
      exact ⟨fun isGone => outside (gone parent isGone),
        fun isGone => group.closed.apart outside left (gone child isGone)⟩
    · exact lookups id fun isGone => outside (gone id isGone)
  obtain ⟨newOrder, inserted, complete⟩ := reindex iteration indexed sound.linked linked
    (fun parent child outside left => group.closed.apart outside left) changed
  have same : rest.graph = after := spec.graph
  refine ⟨removed, rest.withOrder newOrder, ?_, sound_withOrder (same.symm ▸ mirrored) linked
    (sound.bounded_of_fewer fewer) complete spec.accounts ?_⟩
  · unfold VerifiedSet.remove
    dsimp only
    rw [bind_of_ok cleared, bind_of_ok detached, bind_of_ok dropped, bind_of_ok inserted]
    rfl
  · intro id tx isTx
    rw [spec.lookup, Option.ite_none_left_eq_some] at isTx
    exact sound.committed id tx isTx.2

theorem Sound.remove_missing (missing : key ∉ set.transactions.keys) :
    set.remove iteration key = .error .missingTransaction := by
  have group := sound.group iteration key
  have unlinked : ∀ other, ¬ set.graph.Linked key other := fun other link =>
    missing (link.elim (fun feeds => (sound.linked _ _ feeds).1) fun feeds =>
      (sound.linked _ _ feeds).2)
  have alone : set.dependencyGroup iteration [key] = {key} := by
    refine Finset.Subset.antisymm (fun id isMember => ?_) ?_
    · obtain ⟨_, listed, path⟩ := group.reached id isMember
      rw [mem_singleton.mp listed] at path
      rcases ReflTransGen.cases_head path with same | ⟨other, link, _⟩
      · exact Finset.mem_singleton.mpr same.symm
      · exact absurd link (unlinked other)
    · exact Finset.singleton_subset_iff.mpr (group.started key (mem_singleton_self key))
  have order : iteration.order {key} = [key] := by
    refine perm_singleton.mp ((perm_ext_iff_of_nodup (iteration.nodup_order _)
      (nodup_singleton key)).mpr fun id => ?_)
    rw [iteration.mem_order, Finset.mem_singleton, mem_singleton]
  have absent : set.transactions.lookup key = none := by
    rw [mem_keys_iff] at missing
    exact Option.eq_none_iff_forall_ne_some.mpr fun tx found => missing ⟨tx, found⟩
  unfold VerifiedSet.remove
  dsimp only
  rw [alone, order, removeEvictionCandidates]
  unfold evictionCandidate packageScore costOf
  rw [absent]
  rfl

theorem Sound.removeAll (keys : List TxId) :
    ∃ removed next, set.removeAll iteration keys = .ok (removed, next) ∧ Sound effects next := by
  induction keys generalizing set with
  | nil => exact ⟨[], set, rfl, sound⟩
  | cons key rest ih =>
    rw [VerifiedSet.removeAll]
    by_cases isStored : key ∈ set.transactions.keys
    · obtain ⟨first, _, removed, nextSound⟩ := sound.remove iteration isStored
      obtain ⟨later, final, isRemoved, finalSound⟩ := ih nextSound
      refine ⟨first ++ later, final, ?_, finalSound⟩
      rw [if_pos isStored, bind_of_ok removed]
      exact bind_of_ok isRemoved
    · rw [if_neg isStored]
      exact ih sound

end

section

variable {iteration : Iteration} {tx : UnminedTx} {outpoints : List OutPoint} {found : Finset TxId}

structure Checked (iteration : Iteration) (tx : UnminedTx) (outpoints : List OutPoint)
    (found : Finset TxId) (set : VerifiedSet) : Prop where
  fresh : ∀ spend ∈ tx.spends, spend ∉ set.spent
  created : ∀ outpoint ∈ outpoints, outpoint ∈ set.createdOutputs.keys
  ancestors : found = set.ancestors iteration (outpoints.map OutPoint.hash).toFinset
  few : found.card ≤ maxMempoolAncestors
  small : (set.dependencyGroup iteration (iteration.order found)).card <
    maxMempoolPackageTransactions

theorem checkInsert_eq_ok (accepted : set.checkInsert iteration tx outpoints = .ok found) :
    Checked iteration tx outpoints found set := by
  obtain ⟨unspent, accepted⟩ := ite_error_eq_ok.mp accepted
  obtain ⟨created, accepted⟩ := ite_error_eq_ok.mp accepted
  obtain ⟨few, accepted⟩ := ite_error_eq_ok.mp accepted
  obtain ⟨small, accepted⟩ := ite_error_eq_ok.mp accepted
  obtain rfl := Except.ok.inj accepted
  refine ⟨?_, ?_, rfl, Nat.le_of_not_lt few, Nat.lt_of_not_le small⟩
  · intro spend spends again
    exact unspent (any_eq_true.mpr ⟨spend, spends, decide_eq_true again⟩)
  · intro outpoint listed
    by_contra absent
    exact created (any_eq_true.mpr ⟨outpoint, listed, decide_eq_true absent⟩)

section

variable (sound : Sound effects set) (checked : Checked iteration tx outpoints found set)
include sound checked

theorem Sound.parents_stored :
    ∀ parent ∈ outpoints.map OutPoint.hash, parent ∈ set.transactions.keys := by
  intro parent listed
  obtain ⟨outpoint, isOutpoint, rfl⟩ := mem_map.mp listed
  obtain ⟨_, isOutput⟩ := mem_keys_iff.mp (checked.created outpoint isOutpoint)
  rw [sound.accounts.created] at isOutput
  obtain ⟨parentTx, isParent, _⟩ := Option.bind_eq_some_iff.mp isOutput
  exact mem_keys_iff.mpr ⟨parentTx, isParent⟩

theorem Sound.checked_connects : Connects set.graph (outpoints.map OutPoint.hash)
      (set.dependencyGroup iteration (iteration.order found)) := by
  have walked : Group (fun id => (iteration.order (set.graph.directDependencies id)).reverse)
      (iteration.order (outpoints.map OutPoint.hash).toFinset).reverse found := by
    have few := checked.few
    rw [checked.ancestors] at few ⊢
    exact group_of_card_lt (Nat.lt_succ_of_le few)
  have edges : Edge (fun id => (iteration.order (set.graph.directDependencies id)).reverse) ≤
      set.graph.Linked := by
    intro child parent listed
    unfold Edge at listed
    rw [mem_reverse, iteration.mem_order, sound.mirrored.mirror] at listed
    exact .inr listed
  have starts : ∀ id, id ∈ (iteration.order (outpoints.map OutPoint.hash).toFinset).reverse ↔
      id ∈ outpoints.map OutPoint.hash := by
    intro id
    rw [mem_reverse, iteration.mem_order, mem_toFinset]
  have group := connects_of_group iteration sound.mirrored (group_of_card_lt checked.small)
  refine ⟨fun parent listed => ?_, group.closed, fun id inside => ?_⟩
  · exact group.started parent ((iteration.mem_order _ _).mpr
      (walked.started parent ((starts parent).mpr listed)))
  obtain ⟨ancestor, isAncestor, path⟩ := group.reached id inside
  obtain ⟨parent, isParent, before⟩ :=
    walked.reached ancestor ((iteration.mem_order _ _).mp isAncestor)
  exact ⟨parent, (starts parent).mp isParent, (ReflTransGen.mono edges _ _ before).trans path⟩

theorem Sound.absent (isCommitted : tx.spends = effects tx.id) (spending : tx.spends ≠ []) :
    tx.id ∉ set.transactions.keys := by
  intro isStored
  obtain ⟨old, isOld⟩ := mem_keys_iff.mp isStored
  obtain ⟨spend, _, isSpend⟩ := exists_cons_of_ne_nil spending
  have spends : spend ∈ tx.spends := isSpend ▸ mem_cons_self ..
  refine checked.fresh spend spends ((sound.accounts.spent spend).mpr ⟨tx.id, old, isOld, ?_⟩)
  rw [sound.committed tx.id old isOld, ← isCommitted]
  exact spends

end

structure Joined (set : VerifiedSet) (graph : TransactionDependencies) (id : TxId)
    (group : Finset TxId) : Prop where
  mirrored : graph.Mirrored
  closed : graph.Closed (insert id group)
  feeds : ∀ parent child, parent ∉ insert id group →
    (graph.Feeds parent child ↔ set.graph.Feeds parent child)
  grows : set.graph.Linked ≤ graph.Linked
  linked : ∀ parent child, graph.Feeds parent child →
    parent ∈ insert id set.transactions.keys ∧ child ∈ insert id set.transactions.keys
  joins : ∀ other ∈ group, ReflTransGen graph.Linked id other

variable {group : Finset TxId}

theorem Sound.joined (sound : Sound effects set)
    (connects : Connects set.graph (outpoints.map OutPoint.hash) group)
    (parents : ∀ parent ∈ outpoints.map OutPoint.hash, parent ∈ set.transactions.keys)
    (absent : id ∉ set.transactions.keys) : Joined set (set.graph.add id outpoints) id group := by
  have isolated : ∀ other, ¬ set.graph.Feeds id other ∧ ¬ set.graph.Feeds other id := fun other =>
    ⟨fun feeds => absent (sound.linked _ _ feeds).1, fun feeds => absent (sound.linked _ _ feeds).2⟩
  have fresh : set.graph.directDependencies id = ∅ :=
    Finset.eq_empty_of_forall_notMem fun other listed =>
      (isolated other).2 ((sound.mirrored.mirror other id).mp listed)
  obtain ⟨mirrored, feeds⟩ := add_spec outpoints sound.mirrored fresh
  have grows : set.graph.Linked ≤ (set.graph.add id outpoints).Linked := fun first second link =>
    link.imp (fun old => (feeds _ _).mpr (.inl old)) fun old => (feeds _ _).mpr (.inl old)
  refine ⟨mirrored, ?_, ?_, grows, ?_, ?_⟩
  · intro first inside second link
    rcases link with left | left
    · rcases (feeds _ _).mp left with old | ⟨rfl, _⟩
      · rcases Finset.mem_insert.mp inside with rfl | isMember
        · exact absurd old (isolated second).1
        · exact Finset.mem_insert_of_mem (connects.closed first isMember second (.inl old))
      · exact Finset.mem_insert_self _ _
    rcases (feeds _ _).mp left with old | ⟨rfl, isParent⟩
    · rcases Finset.mem_insert.mp inside with rfl | isMember
      · exact absurd old (isolated second).2
      · exact Finset.mem_insert_of_mem (connects.closed first isMember second (.inr old))
    · exact Finset.mem_insert_of_mem (connects.started second isParent)
  · intro parent child outside
    rw [feeds]
    refine or_iff_left fun new => outside (Finset.mem_insert_of_mem ?_)
    exact connects.started parent new.2
  · intro parent child left
    rcases (feeds _ _).mp left with old | ⟨rfl, isParent⟩
    · exact ⟨Finset.mem_insert_of_mem (sound.linked _ _ old).1,
        Finset.mem_insert_of_mem (sound.linked _ _ old).2⟩
    · exact ⟨Finset.mem_insert_of_mem (parents parent isParent), Finset.mem_insert_self _ _⟩
  · intro other isMember
    obtain ⟨parent, isParent, path⟩ := connects.reached other isMember
    exact .head (.inr ((feeds _ _).mpr (.inr ⟨rfl, isParent⟩))) (ReflTransGen.mono grows _ _ path)

theorem Joined.bounded (joined : Joined set graph id group) (bounded : set.graph.Bounded)
    (small : group.card < maxMempoolPackageTransactions) : graph.Bounded := by
  intro query
  by_cases inside : query ∈ insert id group
  · exact ⟨insert id group, inside, joined.closed, (Finset.card_insert_le _ _).trans small⟩
  obtain ⟨old, isMember, closed, limit⟩ := bounded query
  refine ⟨old \ insert id group, Finset.mem_sdiff.mpr ⟨isMember, inside⟩, ?_,
    (Finset.card_le_card Finset.sdiff_subset).trans limit⟩
  intro first isFirst second link
  obtain ⟨isOld, outside⟩ := Finset.mem_sdiff.mp isFirst
  have apart : second ∉ insert id group := fun isSecond =>
    outside (joined.closed second isSecond first link.symm)
  refine Finset.mem_sdiff.mpr ⟨closed first isOld second ?_, apart⟩
  exact link.imp (joined.feeds _ _ outside).mp (joined.feeds _ _ apart).mp

theorem Joined.dependencyGroup_eq (iteration : Iteration) (joined : Joined set next.graph id group)
    (small : group.card < maxMempoolPackageTransactions) :
    next.dependencyGroup iteration [id] = insert id group := by
  have connects := dependencyGroup_connects iteration joined.mirrored
    (fun start listed => mem_singleton.mp listed ▸ Finset.mem_insert_self _ _) joined.closed
    ((Finset.card_insert_le _ _).trans small)
  have started := connects.started id (mem_singleton_self id)
  refine Finset.Subset.antisymm (fun other isMember => ?_) (fun other isMember => ?_)
  · obtain ⟨start, listed, path⟩ := connects.reached other isMember
    rw [mem_singleton.mp listed] at path
    exact joined.closed.mem_of_reached (Finset.mem_insert_self _ _) path
  · rcases Finset.mem_insert.mp isMember with rfl | isOld
    · exact started
    · exact connects.closed.mem_of_reached started (joined.joins other isOld)

theorem Sound.insertChecked (sound : Sound effects set) {tx : VerifiedUnminedTx}
    (checked : Checked iteration tx.transaction outpoints found set)
    (isCommitted : tx.transaction.spends = effects tx.transaction.id)
    (spending : tx.transaction.spends ≠ []) :
    (set.insertChecked iteration tx outpoints found = .error .overflow ∧
      (Checked.u64Max < set.transactionsSerializedSize + tx.transaction.size ∨
        Checked.u64Max < set.totalCost + tx.cost)) ∨
    ∃ next, set.insertChecked iteration tx outpoints found = .ok next ∧ Sound effects next := by
  have connects := sound.checked_connects checked
  have parents := sound.parents_stored checked
  have absent := sound.absent checked isCommitted spending
  have joined := sound.joined connects parents absent
  have inside := sound.linked.connected connects parents
  obtain ⟨order, cleared, indexed⟩ := sound.clearCandidates iteration inside
  have missing : set.transactions.lookup tx.transaction.id = none := by
    rw [mem_keys_iff] at absent
    exact Option.eq_none_iff_forall_ne_some.mpr fun old isOld => absent ⟨old, isOld⟩
  unfold VerifiedSet.insertChecked
  rw [bind_of_ok cleared]
  rcases store_spec (sound.accounts.withOrder order) tx outpoints missing checked.fresh with
    ⟨failed, large⟩ | ⟨next, stored, spec⟩
  · refine .inl ⟨?_, large⟩
    rw [failed]
    rfl
  rw [bind_of_ok stored]
  have graph : next.graph = set.graph.add tx.transaction.id outpoints := spec.graph
  have lookups := lookup_stored spec.transactions
  have keys : next.transactions.keys = insert tx.transaction.id set.transactions.keys := by
    rw [spec.transactions]
    exact keys_insert _ _ _
  rw [← graph] at joined
  have nextLinked : next.LinksStored := by
    intro parent child feeds
    rw [keys]
    exact joined.linked parent child feeds
  have isGroup := joined.dependencyGroup_eq iteration checked.small
  have changed : ChangedInside (insert tx.transaction.id
      (set.dependencyGroup iteration (iteration.order found))) (set.withOrder order) next := by
    refine ⟨spec.evictionOrder, joined.feeds, fun query outside => ?_⟩
    rw [lookups, if_neg fun same => outside (Finset.mem_insert.mpr (.inl same))]
  have kept : (set.withOrder order).IndexedOn (set.transactions.keys \
      insert tx.transaction.id (set.dependencyGroup iteration (iteration.order found))) := by
    rw [Finset.sdiff_insert_of_notMem absent]
    exact indexed
  obtain ⟨newOrder, inserted, complete⟩ := reindex iteration kept sound.linked nextLinked
    (fun parent child outside feeds isMember =>
      outside (joined.closed child isMember parent (joined.grows _ _ (.inr feeds)))) changed
  refine .inr ⟨next.withOrder newOrder, ?_, sound_withOrder joined.mirrored nextLinked
    (joined.bounded sound.bounded checked.small) complete spec.accounts ?_⟩
  · rw [isGroup]
    exact inserted
  intro query other isOther
  rw [lookups, ite_eq_some] at isOther
  rcases isOther with ⟨same, rfl⟩ | ⟨_, isOther⟩
  · rw [same, isCommitted]
  · exact sound.committed query other isOther

theorem Sound.insert (sound : Sound effects set) (iteration : Iteration) (tx : VerifiedUnminedTx)
    (outpoints : List OutPoint) (now : Nat) (height : Option Nat)
    (isCommitted : tx.transaction.spends = effects tx.transaction.id)
    (spending : tx.transaction.spends ≠ []) :
    (∃ rejection, set.insert iteration tx outpoints now height = .ok (.error rejection)) ∨
    (set.insert iteration tx outpoints now height = .error .overflow ∧
      (Checked.u64Max < set.transactionsSerializedSize + tx.transaction.size ∨
        Checked.u64Max < set.totalCost + tx.cost)) ∨
    ∃ next, set.insert iteration tx outpoints now height = .ok (.ok next) ∧ Sound effects next := by
  unfold VerifiedSet.insert
  cases accepted : set.checkInsert iteration tx.transaction outpoints with
  | error rejection => exact .inl ⟨rejection, rfl⟩
  | ok found =>
    have checked : Checked iteration (stamped tx now height).transaction outpoints found set :=
      checkInsert_eq_ok accepted
    dsimp only
    rcases sound.insertChecked checked isCommitted spending with ⟨failed, large⟩ | ⟨next, done, final⟩
    · refine .inr (.inl ⟨?_, large⟩)
      rw [failed]
      rfl
    · refine .inr (.inr ⟨next, ?_, final⟩)
      rw [bind_of_ok done]
      rfl

end

end VerifiedSet

end Zakura.Mempool
